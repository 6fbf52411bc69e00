-- The network bootloader (src/boot/netboot.c): what it does with the
-- datagrams that the stack hands to it. A WRITE goes to any address, so also
-- into the receive buffer, which has an address of its own here.
import OsWorkshop.DebugPrintf
import OsWorkshop.Ipv6Rx

open os_workshop.memory (Byte Word Mem le32 word dist write)
open os_workshop.octets
open os_workshop.net

namespace os_workshop.netboot

/-! ## Messages (src/tools/netboot.h)

A message has `magic` at 0, `cmd` at 4, `seq` at 8, `arg` at 12 and its data from 16 on. -/

def NB_PORT_QUERY : BitVec 16 := 58571
def NB_PORT_CTRL : BitVec 16 := 58572
def NB_MAGIC : Word := 0x1e5dae11
def NB_CMD_QUERY : Word := 0x56a938e6
def NB_CMD_WRITE : Word := 0x7b639621
def NB_CMD_EXEC : Word := 0xbdb9a844
def NB_CMD_STATUS : Word := 0x9e68e03b
def NB_OK : Word := 0
def NB_ERR_BADCMD : Word := 1

/-! ## The loader -/

/-- A loader as it was built: its name, and what it takes of the memory. -/
structure Loader where
  /-- `nodename`, a C string without its end. -/
  nodename : List Byte
  nonzero : ∀ b ∈ nodename, b ≠ 0
  /-- `snprintf` counts in an `int`. -/
  counted : nodename.length < 2 ^ 31 - 6
  /-- The address of `rxbuf`. -/
  rxbuf_at : Word
  /-- The addresses of the loader's code, data and stacks. -/
  own : Word → Prop
  rxbuf_own : ∀ i < 1536, own (rxbuf_at + BitVec.ofNat 32 i)

/-- What the loader keeps besides the stack's buffers. -/
structure Ram where
  /-- The memory outside `rxbuf`. -/
  mem : Mem
  /-- Where the loader has left for, if it has. -/
  entry : Option Word

/-- The receive buffer after `bs` were written to the memory at `a`. -/
def landed (L : Loader) (a : Word) (bs : List Byte) (rx : Octets) : Octets :=
  fun i => if i < 1536 then bs[dist a (L.rxbuf_at + BitVec.ofNat 32 i)]?.getD (rx i) else rx i

/-- The `memcpy` of a WRITE. -/
def memcpy (L : Loader) (s : Net Ram) (a : Word) (bs : List Byte) : Net Ram :=
  { s with rxbuf := landed L a bs s.rxbuf, app := { s.app with mem := write s.app.mem a bs } }

/-- `name=` and the name of the node. -/
def name_text (L : Loader) : List Byte := [0x6E, 0x61, 0x6D, 0x65, 0x3D] ++ L.nodename

/-- It is what `snprintf` makes of `name=%s`, wherever its buffer of NB_DATA_MAX octets is. -/
theorem name_text.printed (L : Loader) (m : Mem) (str : Word) :
    printf.vsnprintf m str 1024 ("name=%s".toList.map printf.chr) [.str (some L.nodename)] =
      some (((name_text L).length : Int), write m str ((name_text L).take 1023 ++ [0])) := by
  have hlen : L.nodename.length < 2 ^ 32 := by
    have := L.counted
    omega
  have hplain : ∀ c ∈ "name=".toList.map printf.chr, c ≠ 0 ∧ c ≠ printf.chr '%' := by decide
  obtain ⟨hfmt, hargs, hprints⟩ := printf.between_spec _ [] hplain (by simp)
    (printf.string_item L.nodename hlen)
  obtain ⟨schars, sargs, sprints⟩ := printf.string_item_spec L.nodename hlen
  rw [printf.c_str_of_no_nul fun h => L.nonzero 0 h rfl] at sprints
  have hspells : _ = "name=%s".toList.map printf.chr := hfmt.trans (by rw [schars]; rfl)
  rw [sprints, List.append_nil] at hprints
  obtain ⟨t, ht, hchars, hstores⟩ := printf.text_items _ hspells (hargs.trans sargs)
  have hname : t.chars = name_text L := hchars.trans hprints
  have hcount : t.stores = [] := hstores fun l ptr hin => by
    simp [printf.literals, printf.string_item] at hin
  have hshort : t.chars.length < 2 ^ 31 := by
    have := L.counted
    rw [hname, name_text, List.length_append]
    simp
    omega
  rw [printf.vsnprintf_buffer m str ht hcount hshort (by decide), hname]
  rfl

def query_reply (L : Loader) (ifc : Ifc) (s : Net Ram) (packet : Octets) (replyto : Nat) :
    Except Fault (Net Ram) := do
  let len := (name_text L).length
  -- snprintf writes no more than NB_DATA_MAX octets, and returns what it would have written
  let rx ← put .rxbuf s.rxbuf (replyto + 16) ((name_text L).take 1023 ++ [0])
  let rx ← put .rxbuf rx (replyto + 4) (le32 NB_CMD_STATUS)
  let rx ← put .rxbuf rx (replyto + 12) (le32 NB_OK)
  net_tx_udp_reply ifc { s with rxbuf := rx } packet replyto (.rx replyto) (16 + len + 1)
    NB_PORT_CTRL.toNat

/-- The answer of three of the commands: the message without data, as a status. -/
def status_reply (ifc : Ifc) (s : Net Ram) (packet : Octets) (data : Nat) (arg : Word) :
    Except Fault (Net Ram) := do
  let rx ← put .rxbuf s.rxbuf (data + 4) (le32 NB_CMD_STATUS)
  let rx ← put .rxbuf rx (data + 12) (le32 arg)
  net_tx_udp_reply ifc { s with rxbuf := rx } packet data (.rx data) 16 NB_PORT_CTRL.toNat

def pkt_rx_udp (L : Loader) (ifc : Ifc) (packet : Octets) : Callback Ram :=
  fun s data len port _ => do
    if len < 16 ∨ len > 16 + 1024 then
      return s
    let magic ← s.hdr32 data
    if magic ≠ NB_MAGIC then
      return s
    if port = NB_PORT_QUERY then
      let nlen := L.nodename.length
      let cmd ← s.hdr32 (data + 4)
      if cmd ≠ NB_CMD_QUERY then
        return s
      if len ≠ nlen + 16 then
        return s
      let db ← s.hdr (data + 16) nlen
      if db ≠ L.nodename then
        return s
      query_reply L ifc s packet data
    else if port ≠ NB_PORT_CTRL then
      return s
    else
      let cmd ← s.hdr32 (data + 4)
      if cmd = NB_CMD_QUERY then
        query_reply L ifc s packet data
      else if cmd = NB_CMD_WRITE then
        let arg ← s.hdr32 (data + 12)
        let db ← s.hdr (data + 16) (← sub len 16)
        status_reply ifc (memcpy L s arg db) packet data NB_OK
      else if cmd = NB_CMD_EXEC then
        let entry ← s.hdr32 (data + 12)
        let s ← status_reply ifc s packet data NB_OK
        return { s with app := { s.app with entry := some entry } }
      else
        status_reply ifc s packet data NB_ERR_BADCMD

/-- The loader takes a frame of `rxlen` octets from the slot `rxb` of the MAC. -/
def receive (L : Loader) (mac : Mac) (s : Net Ram) (packet rxb : Octets) (rxlen : Word) :
    Except Fault (Net Ram) :=
  eth_rx (net_init mac) (pkt_rx_udp L (net_init mac) packet) s packet rxb rxlen

/-! ## The pure model -/

/-- What the loader makes of a message that came to a port. -/
inductive Command
  | none
  | query
  | write (addr : Word) (bytes : List Byte)
  | exec (entry : Word)
  | other
deriving DecidableEq

/-- The number in the byte order of the machine at `off`. -/
def field32 (m : List Byte) (off : Nat) : Word :=
  word (octet m off) (octet m (off + 1)) (octet m (off + 2)) (octet m (off + 3))

def command (L : Loader) (port : BitVec 16) (m : List Byte) : Command :=
  if 16 ≤ m.length ∧ m.length ≤ 1040 ∧ field32 m 0 = NB_MAGIC then
    if port = NB_PORT_QUERY then
      if field32 m 4 = NB_CMD_QUERY ∧ m.drop 16 = L.nodename then .query else .none
    else if port = NB_PORT_CTRL then
      if field32 m 4 = NB_CMD_QUERY then .query
      else if field32 m 4 = NB_CMD_WRITE then .write (field32 m 12) (m.drop 16)
      else if field32 m 4 = NB_CMD_EXEC then .exec (field32 m 12)
      else .other
    else .none
  else .none

/-- A status that answers the message in the buffer. -/
def status_message (b : Octets) (arg : Word) : List Byte :=
  slice b 64 4 ++ le32 NB_CMD_STATUS ++ slice b 72 4 ++ le32 arg

/-- A datagram of the loader to where the frame in the buffer came from. -/
def reply_frame (mac : Mac) (b : Octets) (msg : List Byte) : List Byte :=
  ip6_frame mac (slice b 8 6) (slice b 24 16) IP_HDR_UDP
    (with_checksum (ip6lla_from_ethmac mac) (slice b 24 16) IP_HDR_UDP 6
      (udp_datagram (be16 NB_PORT_CTRL) (slice b 56 2) msg))

/-- The answer of `query_reply`, as long as the name fits the data of a message. -/
def name_message (L : Loader) (b : Octets) : List Byte :=
  status_message b NB_OK ++ name_text L ++ [0]

end os_workshop.netboot
