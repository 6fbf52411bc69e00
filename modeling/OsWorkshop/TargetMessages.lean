-- The loader seen from the network: what a datagram does to its memory, and
-- the messages that answer it. The addresses and the headers of the frames are
-- left behind here.
import OsWorkshop.HostTool
import OsWorkshop.NetbootAnswers

open os_workshop.memory (Byte Word Mem le32 word dist write)
open os_workshop.octets
open os_workshop.net
open os_workshop.runs

namespace os_workshop.netboot

/-! ## The pure model -/

/-- The memory after a command. -/
def served (ram : Ram) : Command → Ram
  | .write addr bytes => { ram with mem := write ram.mem addr bytes }
  | .exec entry => { ram with entry := some entry }
  | _ => ram

/-- The status that answers a command. -/
def status_of : Command → Msg
  | .other => { cmd := NB_CMD_STATUS, arg := NB_ERR_BADCMD, db := [] }
  | _ => { cmd := NB_CMD_STATUS, arg := NB_OK, db := [] }

/-- An answer to the message `m`, up to the data behind it: for a query the data are the
name, and after a name that is too long what the stack left in the buffer. -/
structure Answers (m : List Byte) (c : Command) (a : List Byte) : Prop where
  command : c ≠ .none
  status : a.take 16 = (status_of c).octets (field32 m 8)

/-! ## The fields of an answer -/

section

variable {m a : List Byte} {c : Command}

theorem field32_take (r : List Byte) {i : Nat} (h : i + 4 ≤ 16) :
    field32 (r.take 16) i = field32 r i := by
  have e : r.take 16 = part r 0 16 := rfl
  rw [e, field32_part r 0 16 i h, Nat.zero_add]

theorem Answers.long (h : Answers m c a) : 16 ≤ a.length := by
  have hl := congrArg List.length h.status
  rw [List.length_take, msg_length] at hl
  omega

theorem Answers.magic (h : Answers m c a) : field32 a 0 = NB_MAGIC := by
  rw [← field32_take a (by omega), h.status, octets_magic]

theorem Answers.cmd (h : Answers m c a) : field32 a 4 = NB_CMD_STATUS := by
  rw [← field32_take a (by omega), h.status, octets_cmd]
  cases c <;> rfl

theorem Answers.seq (h : Answers m c a) : field32 a 8 = field32 m 8 := by
  rw [← field32_take a (by omega), h.status, octets_seq]

theorem Answers.arg (h : Answers m c a) : field32 a 12 = (status_of c).arg := by
  rw [← field32_take a (by omega), h.status, octets_arg]

end

/-! ## The loader answers so -/

theorem le32_word (a b c d : Byte) : le32 (word a b c d) = [a, b, c, d] := by
  unfold le32 word
  have h0 : (d ++ c ++ b ++ a).extractLsb' 0 8 = a := by
    ext i hi
    simp
    grind
  have h1 : (d ++ c ++ b ++ a).extractLsb' 8 8 = b := by
    ext i hi
    simp
    grind
  have h2 : (d ++ c ++ b ++ a).extractLsb' 16 8 = c := by
    ext i hi
    simp
    grind
  have h3 : (d ++ c ++ b ++ a).extractLsb' 24 8 = d := by
    ext i hi
    simp
    grind
  rw [h0, h1, h2, h3]

theorem le32_slice (b : Octets) (off : Nat) :
    slice b off 4 = le32 (word (b off) (b (off + 1)) (b (off + 2)) (b (off + 3))) := by
  rw [le32_word]
  rfl

variable (L : Loader) (mac : Mac) (s : Net Ram) (packet : Octets)

/-- The status in the buffer is that of the message in it. -/
theorem status_message_eq {m : List Byte} {b : Octets} (hm : ∀ i < 12, octet m i = b (64 + i))
    (hmagic : field32 m 0 = NB_MAGIC) (arg : Word) :
    status_message b arg =
      ({ cmd := NB_CMD_STATUS, arg := arg, db := [] } : Msg).octets (field32 m 8) := by
  have h64 : slice b 64 4 = le32 NB_MAGIC := by
    rw [le32_slice, ← hmagic, field32, hm _ (by omega), hm _ (by omega), hm _ (by omega),
      hm _ (by omega)]
  have h72 : slice b 72 4 = le32 (field32 m 8) := by
    rw [le32_slice, field32, hm _ (by omega), hm _ (by omega), hm _ (by omega), hm _ (by omega)]
  unfold status_message Msg.octets
  rw [h64, h72]
  simp

theorem command_some {port : BitVec 16} {m : List Byte} (h : command L port m ≠ .none) :
    16 ≤ m.length ∧ m.length ≤ 1040 ∧ field32 m 0 = NB_MAGIC := by
  unfold command at h
  by_contra hn
  rw [if_neg hn] at h
  exact h rfl

theorem perform_app {c : Command} {t : Net Ram} (h : s.rcvd ≤ 1536) (h80 : c = .none ∨ 80 ≤ s.rcvd)
    (ht : perform L mac s packet c = .ok t) : t.app = served s.app c := by
  cases c with
  | none =>
    obtain rfl : s = t := by simpa [perform] using ht
    rfl
  | query =>
    have h80 : 80 ≤ s.rcvd := by simpa using h80
    have e := (query_reply.spec L mac s packet h (by omega)).symm.trans ht
    rw [Except.ok.injEq] at e
    rw [← e]
    split_ifs <;> rfl
  | write addr bytes =>
    have h80 : 80 ≤ s.rcvd := by simpa using h80
    have e := (status_reply.spec mac (memcpy L s addr bytes) packet NB_OK h h80).symm.trans ht
    rw [Except.ok.injEq] at e
    rw [← e]
    rfl
  | exec entry =>
    have h80 : 80 ≤ s.rcvd := by simpa using h80
    have e := (perform_exec L mac s packet entry h h80).symm.trans ht
    rw [Except.ok.injEq] at e
    rw [← e]
    rfl
  | other =>
    have h80 : 80 ≤ s.rcvd := by simpa using h80
    have e := (status_reply.spec mac s packet NB_ERR_BADCMD h h80).symm.trans ht
    rw [Except.ok.injEq] at e
    rw [← e]
    rfl

/-- What is sent for a command answers its message, unless the command lands in the buffer. -/
theorem answer_command_answers {m : List Byte} {b : Octets} {c : Command}
    (hm : ∀ i < 12, octet m i = b (64 + i)) (hmagic : c ≠ .none → field32 m 0 = NB_MAGIC)
    (hw : ∀ addr bytes, c = .write addr bytes → landed L addr bytes b = b) :
    ∀ f ∈ answer_command L mac b c, ∃ a, Answers m c a ∧ f = reply_frame mac b a := by
  have hstatus (arg : Word) (h : c ≠ .none) := status_message_eq hm (hmagic h) arg
  have htake (seq : Word) (n : Msg) (h : n.db = []) : (n.octets seq).take 16 = n.octets seq :=
    List.take_of_length_le (by rw [msg_length, h]; rfl)
  intro f hf
  cases c with
  | none => simp [answer_command] at hf
  | query =>
    unfold answer_command at hf
    split_ifs at hf with hfit
    · rw [List.mem_singleton] at hf
      refine ⟨_, ⟨by simp, ?_⟩, hf⟩
      have e : (name_text L).length + 17 = 16 + ((name_text L).length + 1) := by omega
      have hover : ∀ i < 12, octet m i = overlay b 80 ((name_text L).take 1023 ++ [0]) (64 + i) := by
        intro i hi
        rw [overlay_out _ _ _ _ (by omega)]
        exact hm i hi
      rw [e, slice_append, List.take_left' (by simp)]
      unfold named
      rw [stated_message, status_message_eq hover (hmagic (by simp))]
      rfl
    · simp at hf
  | write addr bytes =>
    unfold answer_command at hf
    rw [List.mem_singleton, hw addr bytes rfl] at hf
    refine ⟨_, ⟨by simp, ?_⟩, hf⟩
    rw [hstatus NB_OK (by simp)]
    exact htake _ _ rfl
  | exec entry =>
    unfold answer_command at hf
    rw [List.mem_singleton] at hf
    refine ⟨_, ⟨by simp, ?_⟩, hf⟩
    rw [hstatus NB_OK (by simp)]
    exact htake _ _ rfl
  | other =>
    unfold answer_command at hf
    rw [List.mem_singleton] at hf
    refine ⟨_, ⟨by simp, ?_⟩, hf⟩
    rw [hstatus NB_ERR_BADCMD (by simp)]
    exact htake _ _ rfl

/-- A frame with a datagram is served as its message says: the memory changes as the command
says, and each frame sent carries an answer to the message. -/
theorem receive_serves (rxb : Octets) (rxlen : Word) (h : rxlen.toNat ≤ 1534)
    {port : BitVec 16} {len : Nat} {mcast : Bool}
    (hc : classify mac (s.loaded rxb rxlen.toNat).received = .datagram port len mcast)
    (hown : ∀ addr bytes,
      command L port (part (s.loaded rxb rxlen.toNat).received 64 len) = .write addr bytes →
      ∀ i < bytes.length, ¬ L.own (addr + BitVec.ofNat 32 i)) :
    ∃ t fs, receive L mac s packet rxb rxlen = .ok t ∧
      t.app = served s.app
        (command L port (part (s.loaded rxb rxlen.toNat).received 64 len)) ∧
      t.sent = s.sent ++ fs ∧ ∀ f ∈ fs, ∃ a,
        Answers (part (s.loaded rxb rxlen.toNat).received 64 len)
          (command L port (part (s.loaded rxb rxlen.toNat).received 64 len)) a ∧
        f = reply_frame mac (s.loaded rxb rxlen.toNat).rxbuf a := by
  have hrcvd : (s.loaded rxb rxlen.toNat).rcvd ≤ 1536 := by simp [Net.loaded]; omega
  have hlen := (classify_eq_datagram.mp hc).2.2.2.2
  have happ : s.app = (s.loaded rxb rxlen.toNat).app := rfl
  have hsent : s.sent = (s.loaded rxb rxlen.toNat).sent := rfl
  unfold receive
  rw [eth_rx.spec mac s packet _ rxb rxlen h, happ, hsent, hc]
  generalize s.loaded rxb rxlen.toNat = s' at *
  rw [received_length] at hlen
  change ∃ t fs, pkt_rx_udp L (net_init mac) packet s' 64 len port mcast = .ok t ∧ _
  rw [pkt_rx_udp.spec L mac s' packet len port mcast hrcvd (by omega)]
  have hm : (part s'.received 64 len).length = len := part_length _ _ _ (by simp; omega)
  have h80 : command L port (part s'.received 64 len) = .none ∨ 80 ≤ s'.rcvd := by
    by_cases h16 : 16 ≤ len
    · exact .inr (by omega)
    · exact .inl (command_short L port _ (by omega))
  obtain ⟨t, ht, hs⟩ := perform.spec L mac s' packet _ hrcvd h80
  refine ⟨t, _, ht, perform_app L mac s' packet hrcvd h80 ht, hs, ?_⟩
  by_cases hnone : command L port (part s'.received 64 len) = .none
  · rw [hnone]
    simp [answer_command]
  · have h16 := (command_some L hnone).1
    apply answer_command_answers
    · intro i hi
      rw [octet_part _ _ _ _ (by omega), octet_received s' (by omega)]
    · exact fun _ => (command_some L hnone).2.2
    · exact fun addr bytes hw => landed_apart L (hown addr bytes hw) _

end os_workshop.netboot
