-- The IPv6 stack (src/net/ipv6.c) with the receive buffer and the transmit
-- callback of the network loader (src/boot/netboot.c). Every access to a
-- buffer is checked: a run that leaves one ends in a fault.
import OsWorkshop.Octets

open os_workshop.memory (Byte Word le32 word)
open os_workshop.octets

namespace os_workshop.net

/-! ## Addresses -/

/-- An Ethernet address. -/
structure Mac where
  m0 : Byte
  m1 : Byte
  m2 : Byte
  m3 : Byte
  m4 : Byte
  m5 : Byte
deriving DecidableEq

def Mac.octets (mac : Mac) : List Byte := [mac.m0, mac.m1, mac.m2, mac.m3, mac.m4, mac.m5]

def ip6lla_from_ethmac (mac : Mac) : List Byte :=
  [0xFE, 0x80, 0, 0, 0, 0, 0, 0,
   mac.m0 ^^^ 2, mac.m1, mac.m2, 0xFF, 0xFE, mac.m3, mac.m4, mac.m5]

def ip6ns_from_ethmac (mac : Mac) : List Byte :=
  [0xFF, 0x02, 0, 0, 0, 0, 0, 0, 0, 0, 0, 0x01, 0xFF, mac.m3, mac.m4, mac.m5]

def ethmac_from_ip6mc (ip : List Byte) : List Byte := [0x33, 0x33] ++ part ip 12 4

def mcast_ll_ip6 : List Byte := [0xFF, 0x02, 0, 0, 0, 0, 0, 0, 0, 0, 0, 0, 0, 0, 0, 0x01]

/-- Two octets of padding and an Ethernet address, for the comparison by words. -/
def m_ll_mac : List Byte := [0, 0, 0x33, 0x33, 0, 0, 0, 0x01]

/-- The variables of the interface. -/
structure Ifc where
  ifc_mac : List Byte
  ifc_ll_ip6 : List Byte
  mcast_ns_ip6 : List Byte
  m_ifc_mac : List Byte
  m_ns_mac : List Byte

def net_init (mac : Mac) : Ifc where
  ifc_mac := mac.octets
  ifc_ll_ip6 := ip6lla_from_ethmac mac
  mcast_ns_ip6 := ip6ns_from_ethmac mac
  m_ifc_mac := [0, 0] ++ mac.octets
  m_ns_mac := [0, 0] ++ ethmac_from_ip6mc (ip6ns_from_ethmac mac)

/-! ## Checked accesses -/

inductive Fault
  /-- An access outside `rxbuf[0..1536)`. -/
  | rxbuf
  /-- An access outside `packet[0..1536)`. -/
  | packet
  /-- An access outside an object that a reply is copied from. -/
  | object
  /-- A field of the received frame that ends after the octets received. -/
  | header
  /-- A length or a pointer that goes below zero. -/
  | underflow
deriving DecidableEq

/-- The octets of both `rxbuf` and `packet`. -/
def NETBUF_MAX : Nat := 1536

def sub (a b : Nat) : Except Fault Nat := if b ≤ a then .ok (a - b) else .error .underflow

def get (f : Fault) (b : Octets) (off n : Nat) : Except Fault (List Byte) :=
  if off + n ≤ NETBUF_MAX then .ok (slice b off n) else .error f

def put (f : Fault) (b : Octets) (off : Nat) (bs : List Byte) : Except Fault Octets :=
  if off + bs.length ≤ NETBUF_MAX then .ok (overlay b off bs) else .error f

/-- The loader as the stack sees it. -/
structure Net (σ : Type) where
  rxbuf : Octets
  /-- How many octets of `rxbuf` the last frame filled, with the two octets of padding. -/
  rcvd : Nat
  /-- What `eth_tx` was called with, oldest first. -/
  passed : List (List Byte)
  /-- What `eth_tx` gave to the MAC, oldest first. -/
  sent : List (List Byte)
  /-- What the application keeps. -/
  app : σ

variable {σ : Type}

/-- The `n` octets of a field of the received frame. -/
def Net.hdr (s : Net σ) (off n : Nat) : Except Fault (List Byte) :=
  if off + n ≤ s.rcvd then get .rxbuf s.rxbuf off n else .error .header

def Net.hdr8 (s : Net σ) (off : Nat) : Except Fault Byte := do
  let _ ← s.hdr off 1
  return s.rxbuf off

def Net.hdr16 (s : Net σ) (off : Nat) : Except Fault (BitVec 16) := do
  let _ ← s.hdr off 2
  return s.rxbuf (off + 1) ++ s.rxbuf off

def Net.hdr32 (s : Net σ) (off : Nat) : Except Fault Word := do
  let _ ← s.hdr off 4
  return word (s.rxbuf off) (s.rxbuf (off + 1)) (s.rxbuf (off + 2)) (s.rxbuf (off + 3))

/-- Where the data of a reply is: in `rxbuf`, or an object of its own. -/
inductive Ptr
  | rx (off : Nat)
  | obj (bs : List Byte)

def Net.load (s : Net σ) : Ptr → Nat → Except Fault (List Byte)
  | .rx off, n => get .rxbuf s.rxbuf off n
  | .obj bs, n => if n ≤ bs.length then .ok (bs.take n) else .error .object

/-- The transmit callback of the loader. -/
def Net.eth_tx (s : Net σ) (packet : Octets) (off txlen : Nat) : Except Fault (Net σ) := do
  let txb ← get .packet packet off txlen
  if txlen > 1534 then
    return { s with passed := s.passed ++ [txb] }
  return { s with passed := s.passed ++ [txb], sent := s.sent ++ [txb] }

/-! ## Checksums -/

/-- The first loop of `checksum` and the odd octet after it. -/
def add_words : List Byte → Word → Word
  | a :: b :: data, sum => add_words data (sum + (b ++ a : BitVec 16).setWidth 32)
  | [a], sum => sum + a.setWidth 32
  | [], sum => sum

theorem toNat_fold (sum : Word) :
    ((sum &&& (0xFFFF : Word)) + (sum >>> 16)).toNat = sum.toNat % 65536 + sum.toNat / 65536 := by
  have h16 : (0xFFFF : Word).toNat = 2 ^ 16 - 1 := rfl
  have h1 : (sum &&& (0xFFFF : Word)).toNat = sum.toNat % 65536 := by
    rw [BitVec.toNat_and, h16, Nat.and_two_pow_sub_one_eq_mod]
  have h2 : (sum >>> 16).toNat = sum.toNat / 65536 := by
    rw [BitVec.toNat_ushiftRight, Nat.shiftRight_eq_div_pow]
  have h3 := sum.isLt
  rw [BitVec.toNat_add, h1, h2]
  omega

/-- The second loop of `checksum`. -/
def fold_carries (sum : Word) : Word :=
  if sum > (0xFFFF : Word) then fold_carries ((sum &&& (0xFFFF : Word)) + (sum >>> 16)) else sum
termination_by sum.toNat
decreasing_by
  rename_i h
  have h : 65535 < sum.toNat := h
  rw [toNat_fold]
  omega

def checksum (packet : Octets) (off len : Nat) (sum : Word) : Except Fault Word := do
  -- an odd octet is read as half of a word
  let data ← get .packet packet off (len + len % 2)
  return fold_carries (add_words (data.take len) sum)

def checksum_ip6 (packet : Octets) (hdr len : Nat) : Except Fault Word := do
  let _ ← get .packet packet (hdr + 6) 1
  let next_header : BitVec 16 := (packet (hdr + 6)).setWidth 16
  let sum ← checksum packet (hdr + 4) 2 ((swap16 next_header).setWidth 32)
  let sum ← checksum packet (hdr + 8) (len + 32) sum
  return if sum = 0xffff then sum else ~~~sum

/-! ## Replies

A packet in a buffer: two octets of padding, the Ethernet header (`dst` at 2, `src` at 8,
`type` at 14), the IPv6 header (`bits` at 16, `length` at 20, `next_header` at 22,
`hop_limit` at 23, `src` at 24, `dst` at 40) and its payload at 56, for UDP a header
(`src_port` at 56, `dst_port` at 58, `length` at 60, `checksum` at 62) and data at 64. -/

def IP_HDR_UDP : Byte := 17
def IP_HDR_ICMP : Byte := 58
def ETH_TYPE_IP6 : BitVec 16 := 0x86DD

def htons (v : Nat) : List Byte := le16 (swap16 (BitVec.ofNat 16 v))

/-- The Ethernet and the IPv6 header of a reply, which both builders fill in alike from the
frame received at `rx`. -/
def tx_headers (ifc : Ifc) (s : Net σ) (packet : Octets) (rx length : Nat) (next_header : Byte) :
    Except Fault Octets := do
  let tx ← put .packet packet 2 (← s.hdr (rx + 8) 6)
  let tx ← put .packet tx 8 ifc.ifc_mac
  let tx ← put .packet tx 14 (le16 (swap16 ETH_TYPE_IP6))
  let tx ← put .packet tx 16 (le32 0x00000060)
  let tx ← put .packet tx 20 (htons length)
  let tx ← put .packet tx 22 [next_header]
  let tx ← put .packet tx 23 [255]
  let tx ← put .packet tx 24 ifc.ifc_ll_ip6
  put .packet tx 40 (← s.hdr (rx + 24) 16)

/-- `packet` stands for what the stack frame of the call held before. -/
def net_tx_udp_reply (ifc : Ifc) (s : Net σ) (packet : Octets) (replyto : Nat) (data : Ptr)
    (len port : Nat) : Except Fault (Net σ) := do
  let rx ← sub replyto 64
  if len > 1536 - 64 then
    return s
  let tx ← tx_headers ifc s packet rx (8 + len) IP_HDR_UDP
  let tx ← put .packet tx 56 (htons port)
  let tx ← put .packet tx 58 (← s.hdr (rx + 56) 2)
  let tx ← put .packet tx 60 (htons (len + 8))
  let tx ← put .packet tx 62 [0, 0]
  let tx ← put .packet tx 64 (← s.load data len)
  let sum ← checksum_ip6 tx 16 (len + 8)
  let tx ← put .packet tx 62 (le16 (sum.setWidth 16))
  s.eth_tx tx 2 (14 + 40 + 8 + len)

def net_tx_ip6_reply (ifc : Ifc) (s : Net σ) (packet : Octets) (replyto : Nat) (data : Ptr)
    (len : Nat) (type : Byte) (chk_off : Nat) : Except Fault (Net σ) := do
  let rx ← sub replyto 56
  if len > 1536 - 56 then
    return s
  let tx ← tx_headers ifc s packet rx len type
  let tx ← put .packet tx 56 (← s.load data len)
  let sum ← checksum_ip6 tx 16 len
  let tx ← put .packet tx (56 + chk_off) (le16 (sum.setWidth 16))
  s.eth_tx tx 2 (14 + 40 + len)

/-! ## Received packets -/

/-- What the application does with a datagram whose data is in `rxbuf`. -/
abbrev Callback (σ : Type) :=
  Net σ → (data len : Nat) → (port : BitVec 16) → (mcast : Bool) → Except Fault (Net σ)

def net_rx_udp6 (pkt_rx_udp : Callback σ) (s : Net σ) (data dlen : Nat) (mcast : Bool) :
    Except Fault (Net σ) := do
  if dlen < 8 then
    return s
  let port := swap16 (← s.hdr16 (data + 2))
  let len := (swap16 (← s.hdr16 (data + 4))).toNat
  if len < 8 ∨ len > dlen then
    return s
  pkt_rx_udp s (data + 8) (← sub len 8) port mcast

def ICMP_ECHO_REQUEST : Byte := 128
def ICMP_ECHO_REPLY : Byte := 129
def ICMP_NDP_N_SOLICIT : Byte := 135
def ICMP_NDP_N_ADVERTISE : Byte := 136
def NDP_N_TGT_LL_ADDR : Byte := 2

/-- The reply to a neighbor solicitation: solicited and override, and one option. -/
def ndp_reply (ifc : Ifc) : List Byte :=
  [ICMP_NDP_N_ADVERTISE, 0, 0, 0] ++ le32 0x60 ++ ifc.ifc_ll_ip6 ++
    [NDP_N_TGT_LL_ADDR, 1] ++ ifc.ifc_mac

def net_rx_icmp6 (ifc : Ifc) (s : Net σ) (packet : Octets) (data dlen : Nat) :
    Except Fault (Net σ) := do
  if dlen < 4 then
    return s
  let type ← s.hdr8 data
  if type = ICMP_NDP_N_SOLICIT then
    if dlen < 24 then
      return s
    let code ← s.hdr8 (data + 1)
    if code ≠ 0 then
      return s
    let target ← s.hdr (data + 8) 16
    if target ≠ ifc.ifc_ll_ip6 then
      return s
    net_tx_ip6_reply ifc s packet data (.obj (ndp_reply ifc)) 32 IP_HDR_ICMP 2
  else if type = ICMP_ECHO_REQUEST then
    if dlen < 4 then
      return s
    let rx ← put .rxbuf s.rxbuf data [ICMP_ECHO_REPLY]
    let rx ← put .rxbuf rx (data + 2) [0, 0]
    net_tx_ip6_reply ifc { s with rxbuf := rx } packet data (.rx data) dlen IP_HDR_ICMP 2
  else
    return s

def net_rx_ip6 (ifc : Ifc) (pkt_rx_udp : Callback σ) (s : Net σ) (packet : Octets)
    (data len : Nat) (mcast : Bool) : Except Fault (Net σ) := do
  let dst ← s.hdr (data + 24) 16
  if mcast then
    if dst ≠ mcast_ll_ip6 ∧ dst ≠ ifc.mcast_ns_ip6 then
      return s
  else
    if dst ≠ ifc.ifc_ll_ip6 then
      return s
  let next_header ← s.hdr8 (data + 6)
  if next_header = IP_HDR_ICMP then
    net_rx_icmp6 ifc s packet (data + 40) (← sub len 40)
  else if next_header = IP_HDR_UDP then
    net_rx_udp6 pkt_rx_udp s (data + 40) (← sub len 40) mcast
  else
    return s

def net_rx_eth (ifc : Ifc) (pkt_rx_udp : Callback σ) (s : Net σ) (packet : Octets)
    (data len : Nat) : Except Fault (Net σ) := do
  if len < 60 then
    return s
  let type ← s.hdr16 (data + 14)
  if type ≠ swap16 ETH_TYPE_IP6 then
    return s
  -- two words are the same when their four octets are
  let w0 ← s.hdr data 4
  let w1 ← s.hdr (data + 4) 4
  if w0 = part ifc.m_ifc_mac 0 4 ∧ w1 = part ifc.m_ifc_mac 4 4 then
    net_rx_ip6 ifc pkt_rx_udp s packet (data + 16) (← sub len 16) false
  else if w0 = part ifc.m_ns_mac 0 4 ∧ w1 = part ifc.m_ns_mac 4 4 then
    net_rx_ip6 ifc pkt_rx_udp s packet (data + 16) (← sub len 16) true
  else if w0 = part m_ll_mac 0 4 ∧ w1 = part m_ll_mac 4 4 then
    net_rx_ip6 ifc pkt_rx_udp s packet (data + 16) (← sub len 16) true
  else
    return s

/-- The receive callback of the loader: `rxb` is the slot of the MAC. -/
def eth_rx (ifc : Ifc) (pkt_rx_udp : Callback σ) (s : Net σ) (packet : Octets) (rxb : Octets)
    (rxlen : Word) : Except Fault (Net σ) := do
  if rxlen > 1534 then
    return s
  let rx ← put .rxbuf s.rxbuf 2 (slice rxb 0 rxlen.toNat)
  net_rx_eth ifc pkt_rx_udp { s with rxbuf := rx, rcvd := rxlen.toNat + 2 } packet 0
    (rxlen.toNat + 2)

end os_workshop.net
