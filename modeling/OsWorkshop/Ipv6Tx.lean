-- The replies of the IPv6 stack: what both builders put on the link, octet
-- for octet, and the checksum in it.
import OsWorkshop.Ipv6
import OsWorkshop.InternetChecksum

open os_workshop.memory (Byte Word le32 word)
open os_workshop.octets
open os_workshop.checksum (leSum netSum)

namespace os_workshop.net

variable {σ : Type}

/-! ## The pure model -/

/-- The Ethernet and the IPv6 header of a packet. -/
def ip6_headers (dst_mac src_mac src_ip dst_ip : List Byte) (length : Nat) (next : Byte) :
    List Byte :=
  dst_mac ++ src_mac ++ [0x86, 0xDD] ++ [0x60, 0, 0, 0] ++ be16 (BitVec.ofNat 16 length) ++
    [next] ++ [255] ++ src_ip ++ dst_ip

/-- What `checksum_ip6` returns for a packet with these addresses. -/
def ip6_sum (src_ip dst_ip : List Byte) (next : Byte) (payload : List Byte) : Word :=
  let sum := fold_carries (add_words (be16 (BitVec.ofNat 16 payload.length))
    ((swap16 (next.setWidth 16)).setWidth 32))
  let sum := fold_carries (add_words (src_ip ++ dst_ip ++ payload) sum)
  if sum = 0xffff then sum else ~~~sum

/-- The checksum as a packet holds it. -/
def stored_checksum (src_ip dst_ip : List Byte) (next : Byte) (payload : List Byte) : BitVec 16 :=
  (ip6_sum src_ip dst_ip next payload).setWidth 16

/-- A payload with the checksum of its packet at `chk_off`. -/
def with_checksum (src_ip dst_ip : List Byte) (next : Byte) (chk_off : Nat)
    (payload : List Byte) : List Byte :=
  payload.take chk_off ++ le16 (stored_checksum src_ip dst_ip next payload) ++
    payload.drop (chk_off + 2)

/-- A packet of this interface to an address of the link. -/
def ip6_frame (mac : Mac) (dst_mac dst_ip : List Byte) (next : Byte) (payload : List Byte) :
    List Byte :=
  ip6_headers dst_mac mac.octets (ip6lla_from_ethmac mac) dst_ip payload.length next ++ payload

/-- A UDP header, its checksum still zero, and its data. -/
def udp_datagram (src_port dst_port : List Byte) (data : List Byte) : List Byte :=
  src_port ++ dst_port ++ be16 (BitVec.ofNat 16 (data.length + 8)) ++ [0, 0] ++ data

/-- The state after one more frame on the link. -/
def Net.transmit (s : Net σ) (f : List Byte) : Net σ :=
  { s with passed := s.passed ++ [f], sent := s.sent ++ [f] }

/-! ## Small facts -/

@[simp] theorem ok_bind {α β : Type} (a : α) (f : α → Except Fault β) :
    ((Except.ok a : Except Fault α) >>= f) = f a := rfl

theorem put_ok (f : Fault) (b : Octets) (off : Nat) (bs : List Byte) (h : off + bs.length ≤ 1536) :
    put f b off bs = .ok (overlay b off bs) := if_pos h

theorem get_ok (f : Fault) (b : Octets) (off n : Nat) (h : off + n ≤ 1536) :
    get f b off n = .ok (slice b off n) := if_pos h

theorem Net.hdr_ok (s : Net σ) (off n : Nat) (h : off + n ≤ s.rcvd) (h2 : s.rcvd ≤ 1536) :
    s.hdr off n = .ok (slice s.rxbuf off n) := by
  unfold Net.hdr
  rw [if_pos h]
  exact get_ok _ _ _ _ (by omega)

theorem sub_ok (a b : Nat) (h : b ≤ a) : sub a b = .ok (a - b) := if_pos h

theorem le16_swap16 (v : BitVec 16) : le16 (swap16 v) = be16 v := by
  unfold le16 swap16 be16
  congr 1
  · exact BitVec.extractLsb'_append_eq_right
  · congr 1
    exact BitVec.extractLsb'_append_eq_left

@[simp] theorem htons_length (v : Nat) : (htons v).length = 2 := rfl

theorem htons_eq (v : Nat) : htons v = be16 (BitVec.ofNat 16 v) := le16_swap16 _

/-- An overlay that goes on where a slice ends. -/
theorem slice_overlay_next (b : Octets) (base n at' m : Nat) (bs : List Byte)
    (h1 : at' = base + n) (h2 : m = n + bs.length) :
    slice (overlay b at' bs) base m = slice b base n ++ bs := by
  subst h1 h2
  rw [slice_append, slice_overlay_apart _ _ _ _ _ (by omega), slice_overlay_same _ _ _ _ rfl]

/-! ## Checksums -/

theorem add_words_toNat (data : List Byte) (sum : Word) (h : sum.toNat + leSum data < 2 ^ 32) :
    (add_words data sum).toNat = sum.toNat + leSum data := by
  induction data, sum using add_words.induct with
  | case1 a b data sum ih =>
    have hw : ((b ++ a : BitVec 16).setWidth 32).toNat = a.toNat + 256 * b.toNat := by
      have ha := a.isLt
      have hb := b.isLt
      rw [BitVec.toNat_setWidth, toNat_octets]
      omega
    simp only [leSum] at h ⊢
    have hs : (sum + (b ++ a : BitVec 16).setWidth 32).toNat =
        sum.toNat + (a.toNat + 256 * b.toNat) := by
      rw [BitVec.toNat_add, hw]
      exact Nat.mod_eq_of_lt (by omega)
    unfold add_words
    rw [ih (by rw [hs]; omega), hs]
    omega
  | case2 a sum =>
    have ha := a.isLt
    simp only [leSum] at h ⊢
    unfold add_words
    rw [BitVec.toNat_add, BitVec.toNat_setWidth,
      Nat.mod_eq_of_lt (by omega : a.toNat < 2 ^ 32)]
    exact Nat.mod_eq_of_lt h
  | case3 sum => simp [add_words, leSum]

theorem fold_carries_toNat (sum : Word) :
    (fold_carries sum).toNat = checksum.fold sum.toNat := by
  induction sum using fold_carries.induct with
  | case1 sum h ih =>
    have h' : ¬ sum.toNat ≤ 65535 := Nat.not_le.mpr h
    rw [fold_carries, if_pos h, ih, toNat_fold, checksum.fold.eq_def sum.toNat, if_neg h']
  | case2 sum h =>
    have h' : sum.toNat ≤ 65535 := Nat.not_lt.mp h
    rw [fold_carries, if_neg h, checksum.fold.eq_def, if_pos h']

theorem checksum.spec (b : Octets) (off len : Nat) (sum : Word) (h : off + len + len % 2 ≤ 1536) :
    checksum b off len sum = .ok (fold_carries (add_words (slice b off len) sum)) := by
  unfold checksum
  rw [get_ok _ _ _ _ (by omega), ok_bind, slice_append, List.take_left' (by simp)]
  rfl

/-- `checksum_ip6` of a packet in a buffer depends on its addresses and its payload. -/
theorem checksum_ip6.spec (b : Octets) (len : Nat) (src_ip dst_ip payload : List Byte) (next : Byte)
    (hlen : len = payload.length) (h : 56 + len + len % 2 ≤ 1536)
    (h1 : slice b 20 2 = be16 (BitVec.ofNat 16 payload.length)) (h2 : b 22 = next)
    (h3 : slice b 24 32 = src_ip ++ dst_ip) (h4 : slice b 56 len = payload) :
    checksum_ip6 b 16 len = .ok (ip6_sum src_ip dst_ip next payload) := by
  have h5 : slice b 24 (len + 32) = src_ip ++ dst_ip ++ payload := by
    rw [Nat.add_comm, slice_append, h3, h4]
  unfold checksum_ip6
  rw [get_ok _ _ _ _ (by omega), ok_bind]
  dsimp only
  rw [checksum.spec _ _ _ _ (by omega), ok_bind, checksum.spec _ _ _ _ (by omega), ok_bind,
    h1, h2, h5]
  rfl

/-! ## The builders -/

variable (mac : Mac) (s : Net σ) (packet : Octets)

@[simp] theorem octets_length : mac.octets.length = 6 := rfl

@[simp] theorem ip6lla_length : (ip6lla_from_ethmac mac).length = 16 := rfl

@[simp] theorem ifc_mac_length : (net_init mac).ifc_mac.length = 6 := rfl

@[simp] theorem ifc_ll_ip6_length : (net_init mac).ifc_ll_ip6.length = 16 := rfl

theorem ip6_headers_length (dst_mac src_mac src_ip dst_ip : List Byte) (length : Nat) (next : Byte)
    (h1 : dst_mac.length = 6) (h2 : src_mac.length = 6) (h3 : src_ip.length = 16)
    (h4 : dst_ip.length = 16) :
    (ip6_headers dst_mac src_mac src_ip dst_ip length next).length = 54 := by
  simp [ip6_headers, h1, h2, h3, h4]

/-- A field that goes on where the packet ends so far. -/
theorem put_next {tx : Octets} {n : Nat} {l : List Byte} (off : Nat) (bs : List Byte)
    (h : slice tx 2 n = l) (hoff : off = 2 + n) (hfit : off + bs.length ≤ 1536) :
    ∃ tx', put .packet tx off bs = .ok tx' ∧ slice tx' 2 (n + bs.length) = l ++ bs := by
  refine ⟨_, put_ok _ _ _ _ hfit, ?_⟩
  rw [slice_overlay_next _ _ _ _ _ _ hoff rfl, h]

theorem tx_headers.spec (rx length : Nat) (next : Byte) (h : s.rcvd ≤ 1536)
    (hrx : rx + 40 ≤ s.rcvd) :
    ∃ tx, tx_headers (net_init mac) s packet rx length next = .ok tx ∧
      slice tx 2 54 = ip6_headers (slice s.rxbuf (rx + 8) 6) mac.octets (ip6lla_from_ethmac mac)
        (slice s.rxbuf (rx + 24) 16) length next := by
  unfold tx_headers
  rw [s.hdr_ok _ _ (by omega) h, s.hdr_ok _ _ (by omega) h]
  -- the fields follow one another, each where the last one ends
  obtain ⟨tx, e, l⟩ := put_next 2 (slice s.rxbuf (rx + 8) 6) (slice_zero packet 2) rfl (by simp)
  rw [ok_bind, e, ok_bind]
  obtain ⟨tx, e, l⟩ := put_next 8 (net_init mac).ifc_mac l (by simp) (by simp)
  rw [e, ok_bind]
  obtain ⟨tx, e, l⟩ := put_next 14 (le16 (swap16 ETH_TYPE_IP6)) l (by simp) (by decide)
  rw [e, ok_bind]
  obtain ⟨tx, e, l⟩ := put_next 16 (le32 0x00000060) l (by simp) (by decide)
  rw [e, ok_bind]
  obtain ⟨tx, e, l⟩ := put_next 20 (htons length) l (by simp) (by simp [htons])
  rw [e, ok_bind]
  obtain ⟨tx, e, l⟩ := put_next 22 [next] l (by simp) (by simp)
  rw [e, ok_bind]
  obtain ⟨tx, e, l⟩ := put_next 23 [255] l (by simp) (by simp)
  rw [e, ok_bind]
  obtain ⟨tx, e, l⟩ := put_next 24 (net_init mac).ifc_ll_ip6 l (by simp) (by simp)
  rw [e, ok_bind, ok_bind]
  obtain ⟨tx, e, l⟩ := put_next 40 (slice s.rxbuf (rx + 24) 16) l (by simp) (by simp)
  refine ⟨tx, e, ?_⟩
  have e1 : le16 (swap16 ETH_TYPE_IP6) = [0x86, 0xDD] := by decide
  have e2 : le32 0x00000060 = [0x60, 0, 0, 0] := by decide
  rw [htons_eq, e1, e2] at l
  simpa [ip6_headers, net_init] using l

/-- The fields of the headers that the checksum is taken of. -/
theorem headers_fields {tx : Octets} {dst_mac src_mac src_ip dst_ip : List Byte} {length : Nat}
    {next : Byte} (h : slice tx 2 54 = ip6_headers dst_mac src_mac src_ip dst_ip length next)
    (h1 : dst_mac.length = 6) (h2 : src_mac.length = 6) :
    slice tx 20 2 = be16 (BitVec.ofNat 16 length) ∧ tx 22 = next ∧
      slice tx 24 32 = src_ip ++ dst_ip := by
  have e1 : slice tx 2 54 =
      slice tx 2 18 ++ (slice tx 20 2 ++ (slice tx 22 1 ++ (slice tx 23 1 ++ slice tx 24 32))) := by
    rw [← slice_append tx 23 1 32, ← slice_append tx 22 1 33, ← slice_append tx 20 2 34,
      ← slice_append tx 2 18 36]
  have e2 : ip6_headers dst_mac src_mac src_ip dst_ip length next =
      (dst_mac ++ src_mac ++ [0x86, 0xDD] ++ [0x60, 0, 0, 0]) ++
        (be16 (BitVec.ofNat 16 length) ++ ([next] ++ ([255] ++ (src_ip ++ dst_ip)))) := by
    simp [ip6_headers]
  rw [e1, e2] at h
  obtain ⟨-, h⟩ := List.append_inj h (by simp [h1, h2])
  obtain ⟨hlen, h⟩ := List.append_inj h (by simp)
  obtain ⟨hnext, h⟩ := List.append_inj h (by simp)
  obtain ⟨-, hips⟩ := List.append_inj h (by simp)
  refine ⟨hlen, ?_, hips⟩
  simpa [slice] using hnext

/-- Octets written into a message that stands in a buffer. -/
theorem slice_overlay_inner (b : Octets) (base k : Nat) (msg bs : List Byte)
    (h : slice b base msg.length = msg) (hk : k + bs.length ≤ msg.length) :
    slice (overlay b (base + k) bs) base msg.length =
      msg.take k ++ bs ++ msg.drop (k + bs.length) := by
  have e : msg.length = k + bs.length + (msg.length - (k + bs.length)) := by omega
  have e1 : slice b base k = msg.take k := by
    rw [← h, e, slice_append, slice_append, List.append_assoc, List.take_left' (by simp)]
  have e2 : slice b (base + (k + bs.length)) (msg.length - (k + bs.length)) =
      msg.drop (k + bs.length) := by
    have h' := h
    rw [e, slice_append] at h'
    have h'' := congrArg (List.drop (k + bs.length)) h'
    rwa [List.drop_left' (by simp)] at h''
  calc slice (overlay b (base + k) bs) base msg.length
      = slice (overlay b (base + k) bs) base k ++ slice (overlay b (base + k) bs) (base + k) bs.length
          ++ slice (overlay b (base + k) bs) (base + (k + bs.length))
            (msg.length - (k + bs.length)) := by
        rw [← slice_append, ← slice_append, ← e]
    _ = msg.take k ++ bs ++ msg.drop (k + bs.length) := by
        rw [slice_overlay_apart _ _ _ _ _ (by omega), slice_overlay_same _ _ _ _ rfl,
          slice_overlay_apart _ _ _ _ _ (by omega), e1, e2]

theorem Net.eth_tx.spec (off len : Nat) (h : off + len ≤ 1536) (hlen : len ≤ 1534) :
    s.eth_tx packet off len = .ok (s.transmit (slice packet off len)) := by
  unfold Net.eth_tx
  rw [get_ok _ _ _ _ h, ok_bind, if_neg (by omega)]
  rfl

theorem with_checksum_length (src_ip dst_ip payload : List Byte) (next : Byte) (chk_off : Nat)
    (h : chk_off + 2 ≤ payload.length) :
    (with_checksum src_ip dst_ip next chk_off payload).length = payload.length := by
  simp only [with_checksum, List.length_append, List.length_take, List.length_drop, le16_length]
  omega

/-- The end of both builders: the checksum of the packet goes into it, and it goes out. -/
theorem send_packet.spec (tx : Octets) (dst_mac dst_ip payload : List Byte) (next : Byte)
    (len chk_off : Nat) (h1 : dst_mac.length = 6) (h2 : dst_ip.length = 16)
    (hlen : len = payload.length) (hmax : len ≤ 1480) (hchk : chk_off + 2 ≤ len)
    (h : slice tx 2 (54 + len) =
      ip6_headers dst_mac mac.octets (ip6lla_from_ethmac mac) dst_ip len next ++ payload) :
    (do
      let sum ← checksum_ip6 tx 16 len
      let tx ← put .packet tx (56 + chk_off) (le16 (sum.setWidth 16))
      s.eth_tx tx 2 (54 + len)) =
    .ok (s.transmit (ip6_frame mac dst_mac dst_ip next
      (with_checksum (ip6lla_from_ethmac mac) dst_ip next chk_off payload))) := by
  subst hlen
  rw [slice_append] at h
  obtain ⟨hh, hp⟩ := List.append_inj h (by
    rw [slice_length, ip6_headers_length _ _ _ _ _ _ h1 rfl rfl h2])
  obtain ⟨f1, f2, f3⟩ := headers_fields hh h1 rfl
  rw [checksum_ip6.spec tx _ _ _ payload next rfl (by omega) f1 f2 f3 hp, ok_bind,
    put_ok _ _ _ _ (by simp; omega), ok_bind, Net.eth_tx.spec _ _ _ _ (by omega) (by omega)]
  have hin := slice_overlay_inner tx 56 chk_off payload
    (le16 ((ip6_sum (ip6lla_from_ethmac mac) dst_ip next payload).setWidth 16)) hp (by simpa using hchk)
  rw [slice_append, slice_overlay_apart _ _ _ _ _ (by omega), hh, hin]
  unfold ip6_frame
  rw [with_checksum_length _ _ _ _ _ hchk]
  rfl

/-- The UDP builder, for a reply of at most 1472 octets. -/
theorem net_tx_udp_reply.spec (data : Ptr) (msg : List Byte) (len port : Nat)
    (h : s.rcvd ≤ 1536) (hrx : 64 ≤ s.rcvd) (hlen : len ≤ 1472) (hmsg : msg.length = len)
    (hload : s.load data len = .ok msg) :
    net_tx_udp_reply (net_init mac) s packet 64 data len port =
      .ok (s.transmit (ip6_frame mac (slice s.rxbuf 8 6) (slice s.rxbuf 24 16) IP_HDR_UDP
        (with_checksum (ip6lla_from_ethmac mac) (slice s.rxbuf 24 16) IP_HDR_UDP 6
          (udp_datagram (be16 (BitVec.ofNat 16 port)) (slice s.rxbuf 56 2) msg)))) := by
  obtain ⟨tx, e, l⟩ := tx_headers.spec mac s packet 0 (8 + len) IP_HDR_UDP h (by omega)
  unfold net_tx_udp_reply
  rw [sub_ok _ _ (by omega), ok_bind, if_neg (by omega)]
  simp only [Nat.sub_self]
  rw [e, ok_bind]
  obtain ⟨tx, e, l⟩ := put_next 56 (htons port) l (by simp) (by simp)
  rw [e, ok_bind, s.hdr_ok _ _ (by omega) h, ok_bind]
  obtain ⟨tx, e, l⟩ := put_next 58 (slice s.rxbuf 56 2) l (by simp) (by simp)
  rw [e, ok_bind]
  obtain ⟨tx, e, l⟩ := put_next 60 (htons (len + 8)) l (by simp) (by simp)
  rw [e, ok_bind]
  obtain ⟨tx, e, l⟩ := put_next 62 [0, 0] l (by simp) (by simp)
  rw [e, ok_bind, hload, ok_bind]
  obtain ⟨tx, e, l⟩ := put_next 64 msg l (by simp) (by omega)
  rw [e, ok_bind]
  have hd : (udp_datagram (be16 (BitVec.ofNat 16 port)) (slice s.rxbuf 56 2) msg).length =
      len + 8 := by
    simp [udp_datagram, hmsg]
    omega
  have hl : slice tx 2 (54 + (len + 8)) = ip6_headers (slice s.rxbuf 8 6) mac.octets
      (ip6lla_from_ethmac mac) (slice s.rxbuf 24 16) (len + 8) IP_HDR_UDP ++
        udp_datagram (be16 (BitVec.ofNat 16 port)) (slice s.rxbuf 56 2) msg := by
    have he : 54 + (htons port).length + (slice s.rxbuf 56 2).length + (htons (len + 8)).length +
        [(0 : Byte), 0].length + msg.length = 54 + (len + 8) := by
      simp [hmsg]
      omega
    rw [he] at l
    rw [l, Nat.add_comm 8 len, htons_eq, htons_eq, udp_datagram, hmsg]
    simp
  have hs := send_packet.spec mac s tx _ _ _ IP_HDR_UDP (len + 8) 6 (by simp) (by simp) hd.symm
    (by omega) (by omega) hl
  rw [← hs]
  have e1 : 14 + 40 + 8 + len = 54 + (len + 8) := by omega
  rw [e1]

/-- Nothing is sent for more octets than the buffer has room for. -/
theorem net_tx_udp_reply_long (data : Ptr) (len port : Nat) (hlen : 1472 < len) :
    net_tx_udp_reply (net_init mac) s packet 64 data len port = .ok s := by
  unfold net_tx_udp_reply
  rw [sub_ok _ _ (by omega), ok_bind, if_pos (by omega)]
  rfl

/-- The builder for ICMPv6, for a reply of at most 1480 octets. -/
theorem net_tx_ip6_reply.spec (data : Ptr) (msg : List Byte) (len : Nat) (type : Byte)
    (chk_off : Nat) (h : s.rcvd ≤ 1536) (hrx : 56 ≤ s.rcvd) (hlen : len ≤ 1480)
    (hmsg : msg.length = len) (hload : s.load data len = .ok msg) (hchk : chk_off + 2 ≤ len) :
    net_tx_ip6_reply (net_init mac) s packet 56 data len type chk_off =
      .ok (s.transmit (ip6_frame mac (slice s.rxbuf 8 6) (slice s.rxbuf 24 16) type
        (with_checksum (ip6lla_from_ethmac mac) (slice s.rxbuf 24 16) type chk_off msg))) := by
  obtain ⟨tx, e, l⟩ := tx_headers.spec mac s packet 0 len type h (by omega)
  unfold net_tx_ip6_reply
  rw [sub_ok _ _ (by omega), ok_bind, if_neg (by omega)]
  simp only [Nat.sub_self]
  rw [e, ok_bind, hload, ok_bind]
  obtain ⟨tx, e, l⟩ := put_next 56 msg l (by simp) (by omega)
  rw [e, ok_bind]
  rw [hmsg] at l
  exact send_packet.spec mac s tx _ _ msg type len chk_off (by simp) (by simp) hmsg.symm hlen hchk l

end os_workshop.net
