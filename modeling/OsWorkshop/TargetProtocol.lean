-- The command protocol of the loader (src/boot/netboot.c): which datagrams it
-- answers on which port, what the answer says, and what a datagram may change.
import OsWorkshop.TargetMessages

open os_workshop.memory (Byte Word Mem le32 write)
open os_workshop.octets
open os_workshop.net

namespace os_workshop.netboot

/-! ## Messages -/

/-- The length and the magic number of a message. -/
def WellFormed (m : List Byte) : Prop :=
  16 ≤ m.length ∧ m.length ≤ 1040 ∧ field32 m 0 = NB_MAGIC

instance (m : List Byte) : Decidable (WellFormed m) := inferInstanceAs (Decidable (_ ∧ _))

/-- The message asks for the node of this name. -/
def AsksFor (L : Loader) (m : List Byte) : Prop :=
  field32 m 4 = NB_CMD_QUERY ∧ m.drop 16 = L.nodename

instance (L : Loader) (m : List Byte) : Decidable (AsksFor L m) :=
  inferInstanceAs (Decidable (_ ∧ _))

/-- A message of this command that the loader acts on. -/
def Commands (port : BitVec 16) (m : List Byte) (cmd : Word) : Prop :=
  WellFormed m ∧ port = NB_PORT_CTRL ∧ field32 m 4 = cmd

instance (port : BitVec 16) (m : List Byte) (cmd : Word) : Decidable (Commands port m cmd) :=
  inferInstanceAs (Decidable (_ ∧ _))

/-- The status for a command. -/
def status_for (cmd : Word) : Word :=
  if cmd = NB_CMD_QUERY ∨ cmd = NB_CMD_WRITE ∨ cmd = NB_CMD_EXEC then NB_OK else NB_ERR_BADCMD

/-- The data behind the status for a command. -/
def data_for (L : Loader) (cmd : Word) : List Byte :=
  if cmd = NB_CMD_QUERY then name_text L ++ [0] else []

/-- The message `a` answers the message `m`. -/
structure StatusTo (L : Loader) (m a : List Byte) : Prop where
  magic : field32 a 0 = field32 m 0
  cmd : field32 a 4 = NB_CMD_STATUS
  seq : field32 a 8 = field32 m 8
  arg : field32 a 12 = status_for (field32 m 4)
  data : a.drop 16 = data_for L (field32 m 4)

/-! ## The command of a message -/

section

variable {L : Loader} {port : BitVec 16} {m : List Byte}

theorem command_refused (h : ¬ WellFormed m ∨ port ≠ NB_PORT_QUERY ∧ port ≠ NB_PORT_CTRL) :
    command L port m = .none := by
  unfold command
  rcases h with h | ⟨hq, hc⟩
  · exact if_neg h
  · rw [if_neg hq, if_neg hc, ite_self]

theorem command_on_query_port (h : WellFormed m) :
    command L NB_PORT_QUERY m = if AsksFor L m then .query else .none := by
  unfold command
  exact if_pos h

theorem command_on_ctrl_port (h : WellFormed m) : command L NB_PORT_CTRL m =
    if field32 m 4 = NB_CMD_QUERY then .query
    else if field32 m 4 = NB_CMD_WRITE then .write (field32 m 12) (m.drop 16)
    else if field32 m 4 = NB_CMD_EXEC then .exec (field32 m 12)
    else .other := by
  unfold command
  exact if_pos h

/-- A message with a command is well-formed, and was sent to one of the two ports. -/
theorem command_ne_none (h : command L port m ≠ .none) :
    WellFormed m ∧ (port = NB_PORT_QUERY ∧ AsksFor L m ∨ port = NB_PORT_CTRL) := by
  have hw : WellFormed m := command_some L h
  refine ⟨hw, ?_⟩
  by_cases hq : port = NB_PORT_QUERY
  · left
    refine ⟨hq, ?_⟩
    by_contra hn
    rw [hq, command_on_query_port hw, if_neg hn] at h
    exact h rfl
  · right
    by_contra hc
    exact h (command_refused (Or.inr ⟨hq, hc⟩))

end

theorem command_eq_write {L : Loader} {port : BitVec 16} {m : List Byte} {addr : Word}
    {bytes : List Byte} (h : command L port m = .write addr bytes) :
    Commands port m NB_CMD_WRITE ∧ addr = field32 m 12 ∧ bytes = m.drop 16 := by
  obtain ⟨hw, ⟨rfl, hasks⟩ | rfl⟩ := command_ne_none (by rw [h]; simp)
  · rw [command_on_query_port hw, if_pos hasks] at h
    cases h
  · rw [command_on_ctrl_port hw] at h
    split_ifs at h with h1 h2
    obtain ⟨rfl, rfl⟩ := Command.write.inj h
    exact ⟨⟨hw, rfl, h2⟩, rfl, rfl⟩

/-! ## The answer to a message -/

section

variable {L : Loader} {port : BitVec 16} {m : List Byte} {b : Octets}

/-- The status in the buffer with the data for the command behind it answers the message. -/
theorem status_answers (hw : WellFormed m) (hm : ∀ i < 12, octet m i = b (64 + i)) :
    StatusTo L m (status_message b (status_for (field32 m 4)) ++ data_for L (field32 m 4)) := by
  have e : status_message b (status_for (field32 m 4)) ++ data_for L (field32 m 4) =
      (⟨NB_CMD_STATUS, status_for (field32 m 4), data_for L (field32 m 4)⟩ : Msg).octets
        (field32 m 8) := by
    rw [status_message_eq hm hw.2.2]
    simp [Msg.octets]
  rw [e]
  exact ⟨(octets_magic _ _).trans hw.2.2.symm, octets_cmd _ _, octets_seq _ _, octets_arg _ _,
    octets_db _ _⟩

/-- Every command is answered with one frame, to where the message came from. -/
theorem answer_command.spec (mac : Mac) (hname : (name_text L).length < 1024)
    (hm : ∀ i < 12, octet m i = b (64 + i)) (hc : command L port m ≠ .none)
    (hown : ∀ addr bytes, command L port m = .write addr bytes →
      ∀ i < bytes.length, ¬ L.own (addr + BitVec.ofNat 32 i)) :
    ∃ a, answer_command L mac b (command L port m) = [reply_frame mac b a] ∧ StatusTo L m a := by
  obtain ⟨hw, hport⟩ := command_ne_none hc
  refine ⟨_, ?_, status_answers hw hm⟩
  have hquery (h : field32 m 4 = NB_CMD_QUERY) : answer_command L mac b .query =
      [reply_frame mac b (status_message b (status_for (field32 m 4)) ++
        data_for L (field32 m 4))] := by
    unfold answer_command
    rw [if_pos (by omega), named_message L b hname, h]
    unfold name_message
    rw [List.append_assoc]
    rfl
  rcases hport with ⟨rfl, hasks⟩ | rfl
  · rw [command_on_query_port hw, if_pos hasks]
    exact hquery hasks.1
  · rw [command_on_ctrl_port hw] at hown ⊢
    have hdata (h : field32 m 4 ≠ NB_CMD_QUERY) : data_for L (field32 m 4) = [] := if_neg h
    by_cases h1 : field32 m 4 = NB_CMD_QUERY
    · rw [if_pos h1]
      exact hquery h1
    · rw [if_neg h1] at hown ⊢
      rw [hdata h1, List.append_nil]
      by_cases h2 : field32 m 4 = NB_CMD_WRITE
      · rw [if_pos h2] at hown ⊢
        have hland := landed_apart L (hown _ _ rfl) b
        unfold answer_command
        dsimp only
        rw [hland, h2]
        rfl
      · rw [if_neg h2]
        by_cases h3 : field32 m 4 = NB_CMD_EXEC
        · rw [if_pos h3, h3]
          rfl
        · have hbad : status_for (field32 m 4) = NB_ERR_BADCMD := by
            apply if_neg
            rintro (h | h | h)
            · exact h1 h
            · exact h2 h
            · exact h3 h
          rw [if_neg h3, hbad]
          rfl

/-- Only a WRITE changes the memory, and only an EXEC leaves. -/
theorem served.spec (ram : Ram) :
    (served ram (command L port m)).mem =
      (if Commands port m NB_CMD_WRITE then write ram.mem (field32 m 12) (m.drop 16) else ram.mem) ∧
    (served ram (command L port m)).entry =
      if Commands port m NB_CMD_EXEC then some (field32 m 12) else ram.entry := by
  by_cases h : WellFormed m ∧ port = NB_PORT_CTRL
  · obtain ⟨hw, rfl⟩ := h
    have hc (cmd : Word) : Commands NB_PORT_CTRL m cmd ↔ field32 m 4 = cmd :=
      ⟨fun h => h.2.2, fun h => ⟨hw, rfl, h⟩⟩
    rw [command_on_ctrl_port hw, if_congr (hc _) rfl rfl, if_congr (hc _) rfl rfl]
    by_cases h1 : field32 m 4 = NB_CMD_QUERY
    · rw [if_pos h1, h1]
      exact ⟨(if_neg (by decide)).symm, (if_neg (by decide)).symm⟩
    · rw [if_neg h1]
      by_cases h2 : field32 m 4 = NB_CMD_WRITE
      · rw [if_pos h2, h2]
        exact ⟨(if_pos rfl).symm, (if_neg (by decide)).symm⟩
      · rw [if_neg h2, if_neg h2]
        by_cases h3 : field32 m 4 = NB_CMD_EXEC
        · rw [if_pos h3, if_pos h3]
          exact ⟨rfl, rfl⟩
        · rw [if_neg h3, if_neg h3]
          exact ⟨rfl, rfl⟩
  · have hc (cmd : Word) : ¬ Commands port m cmd := fun hc => h ⟨hc.1, hc.2.1⟩
    have hsame : served ram (command L port m) = ram := by
      by_cases hn : command L port m = .none
      · rw [hn]
        rfl
      · obtain ⟨hw, ⟨rfl, hasks⟩ | hctrl⟩ := command_ne_none hn
        · rw [command_on_query_port hw, if_pos hasks]
          rfl
        · exact absurd ⟨hw, hctrl⟩ h
    rw [hsame, if_neg (hc _), if_neg (hc _)]
    exact ⟨rfl, rfl⟩

end

/-! ## The protocol -/

/-- What the loader does with the message `m` that came to a port: from the state `s` it goes
to `t` and sends `fs`. -/
structure Obeys (L : Loader) (mac : Mac) (packet : Octets) (s t : Net Ram) (port : BitVec 16)
    (m : List Byte) (fs : List (List Byte)) : Prop where
  refuses : ¬ WellFormed m ∨ port ≠ NB_PORT_QUERY ∧ port ≠ NB_PORT_CTRL → fs = [] ∧ t = s
  on_query_port : WellFormed m → port = NB_PORT_QUERY →
    (AsksFor L m → fs.length = 1) ∧ (¬ AsksFor L m → fs = [])
  on_ctrl_port : WellFormed m → port = NB_PORT_CTRL → fs.length = 1
  answers : ∀ f ∈ fs, ∃ a, StatusTo L m a ∧ f = reply_frame mac s.rxbuf a
  memory : t.app.mem =
    if Commands port m NB_CMD_WRITE then write s.app.mem (field32 m 12) (m.drop 16)
    else s.app.mem
  execution : t.app.entry =
    if Commands port m NB_CMD_EXEC then some (field32 m 12) else s.app.entry
  /-- It leaves for an EXEC from a state that has sent the answer. -/
  leaves_last : Commands port m NB_CMD_EXEC → ∃ u, status_reply (net_init mac) s packet 64 NB_OK =
    .ok u ∧ u.sent = s.sent ++ fs ∧ u.app = s.app ∧
    t = { u with app := { u.app with entry := some (field32 m 12) } }

/-- For every datagram, but for a WRITE to the loader's own memory, the loader keeps to the
protocol. -/
theorem the_loader_obeys_the_protocol (L : Loader) (mac : Mac) (s : Net Ram) (packet : Octets)
    (len : Nat) (port : BitVec 16) (mcast : Bool) (hname : L.nodename.length ≤ 1000)
    (hrcvd : s.rcvd ≤ 1536) (hlen : 64 + len ≤ s.rcvd)
    (hown : Commands port (part s.received 64 len) NB_CMD_WRITE → ∀ i < len - 16,
      ¬ L.own (field32 (part s.received 64 len) 12 + BitVec.ofNat 32 i)) :
    ∃ t fs, pkt_rx_udp L (net_init mac) packet s 64 len port mcast = .ok t ∧
      t.sent = s.sent ++ fs ∧ Obeys L mac packet s t port (part s.received 64 len) fs := by
  have hfit : (name_text L).length < 1024 := by simp [name_text]; omega
  have hm : (part s.received 64 len).length = len := part_length _ _ _ (by simpa using hlen)
  have hoct : ∀ i < 12, 16 ≤ len → octet (part s.received 64 len) i = s.rxbuf (64 + i) := by
    intro i hi h16
    rw [octet_part _ _ _ _ (by omega), octet_received s (by omega)]
  rw [pkt_rx_udp.spec L mac s packet len port mcast hrcvd hlen]
  generalize part s.received 64 len = m at *
  have h80 : command L port m = .none ∨ 80 ≤ s.rcvd := by
    by_cases h16 : 16 ≤ len
    · exact .inr (by omega)
    · exact .inl (command_short L port _ (by omega))
  have hland : ∀ addr bytes, command L port m = .write addr bytes →
      ∀ i < bytes.length, ¬ L.own (addr + BitVec.ofNat 32 i) := by
    intro addr bytes hc i hi
    obtain ⟨hw, rfl, rfl⟩ := command_eq_write hc
    rw [List.length_drop] at hi
    exact hown hw i (by omega)
  obtain ⟨t, ht, hsent⟩ := perform.spec L mac s packet _ hrcvd h80
  obtain ⟨hmem, hentry⟩ := @served.spec L port m s.app
  have happ := perform_app L mac s packet hrcvd h80 ht
  rw [← happ] at hmem hentry
  have hanswer (hc : command L port m ≠ .none) := answer_command.spec mac hfit
    (fun i hi => hoct i hi (by have := (command_ne_none hc).1.1; omega)) hc hland
  refine ⟨t, _, ht, hsent, ?_, ?_, ?_, ?_, hmem, hentry, ?_⟩
  · intro href
    rw [command_refused href] at ht ⊢
    exact ⟨rfl, (Except.ok.inj ht).symm⟩
  · rintro hw rfl
    constructor
    · intro hasks
      obtain ⟨a, ha, -⟩ := hanswer (by rw [command_on_query_port hw, if_pos hasks]; simp)
      rw [ha, List.length_singleton]
    · intro hasks
      rw [command_on_query_port hw, if_neg hasks]
      rfl
  · rintro hw rfl
    obtain ⟨a, ha, -⟩ := hanswer (by rw [command_on_ctrl_port hw]; split_ifs <;> simp)
    rw [ha, List.length_singleton]
  · intro f hf
    by_cases hc : command L port m = .none
    · rw [hc] at hf
      cases hf
    · obtain ⟨a, ha, hstatus⟩ := hanswer hc
      rw [ha, List.mem_singleton] at hf
      exact ⟨a, hstatus, hf⟩
  · rintro ⟨hw, rfl, hexec⟩
    have hc : command L NB_PORT_CTRL m = .exec (field32 m 12) := by
      rw [command_on_ctrl_port hw, hexec]
      rfl
    have h80 : 80 ≤ s.rcvd := by
      have := hw.1
      omega
    rw [hc] at ht ⊢
    refine ⟨_, status_reply.spec mac s packet NB_OK hrcvd h80, rfl, rfl, ?_⟩
    exact (Except.ok.inj ((perform_exec L mac s packet _ hrcvd h80).symm.trans ht)).symm

/-- The loader with a frame from the MAC in its receive buffer, before it looked at it. -/
def holding (r : List Byte) : Net Ram := (power_on fun _ => 0).loaded (slot r) r.length

/-- A datagram of the other node to the control port, with the sequence number 7. -/
def control_datagram (cmd arg : Word) (db : List Byte) : List Byte :=
  (padded_frame other_mac loader_mac.octets (ip6lla_from_ethmac loader_mac) IP_HDR_UDP
    ([0x12, 0x34, 0xE4, 0xCC, 0, BitVec.ofNat 8 (24 + db.length), 0, 0] ++
      (⟨cmd, arg, db⟩ : Msg).octets 7)).drop 2

/-- A WRITE behind the loader. -/
def a_write : Net Ram := holding (control_datagram NB_CMD_WRITE 0x40008000 [1, 2])

theorem a_write_is_answered :
    ∃ t a, pkt_rx_udp device (net_init loader_mac) (slot []) a_write 64 18 NB_PORT_CTRL false =
        .ok t ∧
      t.sent = [reply_frame loader_mac a_write.rxbuf a] ∧ field32 a 8 = 7 ∧
      t.app.mem = write (fun _ => 0) 0x40008000 [1, 2] := by
  have hm : part a_write.received 64 18 = (⟨NB_CMD_WRITE, 0x40008000, [1, 2]⟩ : Msg).octets 7 := by
    decide
  have hw : Commands NB_PORT_CTRL (part a_write.received 64 18) NB_CMD_WRITE := by
    rw [hm]
    decide
  have hown : ∀ i < 2, ¬ device.own (0x40008000 + BitVec.ofNat 32 i) := by
    rintro i hi ⟨-, h⟩
    bv_omega
  obtain ⟨t, fs, ht, hsent, hobeys⟩ := the_loader_obeys_the_protocol device loader_mac a_write
    (slot []) 18 NB_PORT_CTRL false (by decide) (by decide) (by decide) fun _ => by
      rw [hm, octets_arg]
      exact hown
  obtain ⟨f, rfl⟩ := List.length_eq_one_iff.mp (hobeys.on_ctrl_port hw.1 rfl)
  obtain ⟨a, hstatus, rfl⟩ := hobeys.answers f (List.mem_singleton_self f)
  refine ⟨t, a, ht, hsent, ?_, ?_⟩
  · rw [hstatus.seq, hm, octets_seq]
  · rw [hobeys.memory, if_pos hw, hm, octets_arg, octets_db]
    rfl

/-- A WRITE over the sequence number of the message that it is in. -/
def a_write_over_its_number : Net Ram :=
  holding (control_datagram NB_CMD_WRITE (device.rxbuf_at + 72) (le32 99))

/-- It is answered with the number that was written. -/
theorem another_number_is_answered :
    ∃ t a, pkt_rx_udp device (net_init loader_mac) (slot []) a_write_over_its_number 64 20
        NB_PORT_CTRL false = .ok t ∧
      t.sent = [reply_frame loader_mac a_write_over_its_number.rxbuf a] ∧
      field32 (part a_write_over_its_number.received 64 20) 8 = 7 ∧ field32 a 8 = 99 := by
  have hm : part a_write_over_its_number.received 64 20 =
      (⟨NB_CMD_WRITE, device.rxbuf_at + 72, le32 99⟩ : Msg).octets 7 := by decide
  have hc : command device NB_PORT_CTRL (part a_write_over_its_number.received 64 20) =
      .write (device.rxbuf_at + 72) (le32 99) := by
    rw [hm]
    decide
  have hspec := pkt_rx_udp.spec device loader_mac a_write_over_its_number (slot []) 20 NB_PORT_CTRL
    false (by decide) (by decide)
  rw [hc] at hspec
  have hdone := hspec.trans (status_reply.spec loader_mac
    (memcpy device a_write_over_its_number (device.rxbuf_at + 72) (le32 99)) (slot []) NB_OK
    (by decide) (by decide))
  have hhead : ∀ i < 64, landed device (device.rxbuf_at + 72) (le32 99)
      a_write_over_its_number.rxbuf i = a_write_over_its_number.rxbuf i := by
    intro i hi
    have hfar : (le32 99).length ≤ memory.dist (device.rxbuf_at + 72)
        (device.rxbuf_at + BitVec.ofNat 32 i) := by
      unfold memory.dist
      rw [memory.le32_length]
      bv_omega
    unfold landed
    rw [if_pos (by omega), List.getElem?_eq_none hfar]
    rfl
  refine ⟨_, status_message (landed device (device.rxbuf_at + 72) (le32 99)
    a_write_over_its_number.rxbuf) NB_OK, hdone, ?_, by rw [hm, octets_seq], by decide⟩
  have hframe := fun msg => reply_frame_congr loader_mac hhead msg
  rw [← hframe]
  rfl

end os_workshop.netboot
