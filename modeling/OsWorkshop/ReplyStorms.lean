-- Several loaders on one link. A frame that one of them transmits is a reply,
-- and another loader answers it only when it came from the control port to
-- the control port: then each status is answered with another, without end.
import OsWorkshop.AddressFilter
import OsWorkshop.TargetProtocol

open os_workshop.memory (Byte Word Mem le32 word)
open os_workshop.octets
open os_workshop.net
open os_workshop.runs

namespace os_workshop.netboot

/-! ## The link -/

/-- A frame on the link, and if it is a reply who sent it and what frame it answers. -/
structure OnAir (ι : Type) where
  frame : List Byte
  cause : Option (ι × List Byte)

structure Segment (ι : Type) where
  nets : ι → Net Ram
  /-- Every frame there was, oldest first. Each may get to any loader at any time. -/
  air : List (OnAir ι)

def Segment.start {ι : Type} (mems : ι → Mem) : Segment ι := ⟨fun i => power_on (mems i), []⟩

inductive Traffic (ι : Type)
  | inject (f : List Byte)
  /-- A loader takes a frame and sends the frames `out`. -/
  | deliver (i : ι) (a : OnAir ι) (out : List (List Byte))

section

variable {ι : Type} [DecidableEq ι]

inductive Goes (L : ι → Loader) (mac : ι → Mac) : Steps (Segment ι) (Traffic ι)
  | inject {g : Segment ι} {f : List Byte} :
      f.length < 2 ^ 32 → Goes L mac g (.inject f) { g with air := g.air ++ [⟨f, none⟩] }
  /-- A loader that has not left takes a frame from the link. -/
  | deliver {g : Segment ι} {i : ι} {a : OnAir ι} {packet : Octets} {t : Net Ram}
      {out : List (List Byte)} :
      a ∈ g.air → (g.nets i).app.entry = none →
      receive (L i) (mac i) (g.nets i) packet (slot a.frame) (BitVec.ofNat 32 a.frame.length) =
        .ok t →
      t.sent = (g.nets i).sent ++ out →
      Goes L mac g (.deliver i a out)
        { nets := Function.update g.nets i t
          air := g.air ++ out.map fun f => ⟨f, some (i, a.frame)⟩ }

end

/-! ## Replies -/

/-- A status of the loader in a UDP packet to these addresses and this port. -/
structure IsStatus (L : Loader) (mac : Mac) (dst_mac dst_ip dst_port f msg : List Byte) : Prop where
  frame : f = ip6_frame mac dst_mac dst_ip IP_HDR_UDP
    (with_checksum (ip6lla_from_ethmac mac) dst_ip IP_HDR_UDP 6
      (udp_datagram (be16 NB_PORT_CTRL) dst_port msg))
  long : 16 ≤ msg.length
  short : msg.length ≤ 1472
  named : msg.length ≤ (name_text L).length + 17
  magic : field32 msg 0 = NB_MAGIC
  cmd : field32 msg 4 = NB_CMD_STATUS

/-- An ICMPv6 message to these addresses that is no request. -/
structure IsIcmpReply (mac : Mac) (dst_mac dst_ip f payload : List Byte) : Prop where
  frame : f = ip6_frame mac dst_mac dst_ip IP_HDR_ICMP payload
  long : 4 ≤ payload.length
  short : payload.length ≤ 1480
  type : octet payload 0 = ICMP_ECHO_REPLY ∨ octet payload 0 = ICMP_NDP_N_ADVERTISE

section

variable {mac A : Mac} {dst_mac dst_ip dst_port f msg payload : List Byte} {L : Loader} {b : Octets}

/-- A status is answered on the control port, and there it is one more unknown command. -/
theorem command_status {port : BitVec 16} (h : field32 msg 4 = NB_CMD_STATUS) :
    command L port msg = if WellFormed msg ∧ port = NB_PORT_CTRL then .other else .none := by
  have hq : ¬ AsksFor L msg := by
    rintro ⟨hcmd, -⟩
    rw [h] at hcmd
    exact absurd hcmd (by decide)
  by_cases hw : WellFormed msg
  · by_cases hc : port = NB_PORT_CTRL
    · rw [if_pos ⟨hw, hc⟩, hc, command_on_ctrl_port hw, h]
      rfl
    · rw [if_neg fun hn => hc hn.2]
      by_cases hp : port = NB_PORT_QUERY
      · rw [hp, command_on_query_port hw, if_neg hq]
      · exact command_refused (Or.inr ⟨hp, hc⟩)
  · rw [if_neg fun hn => hw hn.1]
    exact command_refused (Or.inl hw)

/-- What a loader makes of a UDP packet of another. -/
theorem command_of_udp (hm : dst_mac.length = 6) (hip : dst_ip.length = 16)
    (hport : dst_port.length = 2) (hmsg : msg.length ≤ 1472) :
    command_of L mac (padded_frame A dst_mac dst_ip IP_HDR_UDP
      (with_checksum (ip6lla_from_ethmac A) dst_ip IP_HDR_UDP 6
        (udp_datagram (be16 NB_PORT_CTRL) dst_port msg))) =
      if takes_in mac dst_mac dst_ip = none then .none
      else command L (field16 dst_port 0) msg := by
  unfold command_of
  rw [classify_datagram mac A msg hm hip (be16_length NB_PORT_CTRL) hport hmsg]
  cases takes_in mac dst_mac dst_ip with
  | none => rfl
  | some mcast =>
    have hdata := udp_with_checksum_data (ip6lla_from_ethmac A) dst_ip (be16_length NB_PORT_CTRL)
      hport msg
    have hpart := frame_payload A IP_HDR_UDP
      (with_checksum (ip6lla_from_ethmac A) dst_ip IP_HDR_UDP 6
        (udp_datagram (be16 NB_PORT_CTRL) dst_port msg)) hm hip 8 msg.length
    rw [hdata] at hpart
    dsimp only
    rw [hpart, if_neg (by simp)]

/-- A loader answers a status of another one exactly when it takes it in at the control port. -/
theorem answer_to_status {n : Nat} (hm : dst_mac.length = 6) (hip : dst_ip.length = 16)
    (hport : dst_port.length = 2) (hmsg : msg.length ≤ 1472)
    (hstatus : field32 msg 4 = NB_CMD_STATUS)
    (hb : slice b 0 n = padded_frame A dst_mac dst_ip IP_HDR_UDP
      (with_checksum (ip6lla_from_ethmac A) dst_ip IP_HDR_UDP 6
        (udp_datagram (be16 NB_PORT_CTRL) dst_port msg))) :
    answer L mac b n ≠ [] ↔
      takes_in mac dst_mac dst_ip ≠ none ∧ WellFormed msg ∧ field16 dst_port 0 = NB_PORT_CTRL := by
  have hcmd := @command_of_udp mac A _ _ _ msg L hm hip hport hmsg
  have hanswer : answer L mac b n = answer_command L mac b (command_of L mac (slice b 0 n)) := by
    unfold answer
    rw [hb, classify_datagram mac A msg hm hip (be16_length NB_PORT_CTRL) hport hmsg]
    cases takes_in mac dst_mac dst_ip <;> rfl
  rw [hanswer, hb, hcmd, command_status hstatus]
  by_cases hin : takes_in mac dst_mac dst_ip = none
  · rw [if_pos hin]
    simp [answer_command, hin]
  · rw [if_neg hin]
    by_cases hc : WellFormed msg ∧ field16 dst_port 0 = NB_PORT_CTRL
    · rw [if_pos hc]
      simp [answer_command, hin, hc]
    · rw [if_neg hc]
      simp only [answer_command, ne_eq, not_true, false_iff]
      exact fun h => hc h.2

/-- Every stack ignores an echo reply or an advertisement. -/
theorem classify_icmp_reply (hm : dst_mac.length = 6) (hip : dst_ip.length = 16)
    (hlen : 4 ≤ payload.length)
    (htype : octet payload 0 = ICMP_ECHO_REPLY ∨ octet payload 0 = ICMP_NDP_N_ADVERTISE) :
    classify mac (padded_frame A dst_mac dst_ip IP_HDR_ICMP payload) = .ignored := by
  have hclass := classify_frame mac A IP_HDR_ICMP payload hm hip hlen
  have h56 : octet (padded_frame A dst_mac dst_ip IP_HDR_ICMP payload) 56 = octet payload 0 := by
    have h := frame_payload A IP_HDR_ICMP payload hm hip 0 1
    rw [part_one _ (by rw [padded_frame_length A IP_HDR_ICMP payload hm hip]; omega),
      part_one _ (by omega)] at h
    exact (List.cons.inj h).1
  have hicmp : classify_icmp mac (padded_frame A dst_mac dst_ip IP_HDR_ICMP payload) = .ignored := by
    unfold classify_icmp
    rw [h56]
    rcases htype with h | h
    · rw [h]
      rfl
    · rw [h]
      rfl
  rw [hclass]
  cases takes_in mac dst_mac dst_ip with
  | none => rfl
  | some mcast =>
    dsimp only
    rw [if_pos rfl, hicmp]

theorem answer_command_le_one (c : Command) : (answer_command L mac b c).length ≤ 1 := by
  cases c with
  | query =>
    unfold answer_command
    split_ifs <;> simp
  | _ => simp [answer_command]

theorem answer_command_length (c : Command) : ∀ f ∈ answer_command L mac b c,
    f.length ≤ 62 + 1472 ∧ f.length ≤ 62 + ((name_text L).length + 17) := by
  intro f hf
  cases c with
  | none => cases hf
  | query =>
    unfold answer_command at hf
    split_ifs at hf with hfit
    · rw [List.mem_singleton.mp hf, reply_frame_length, slice_length]
      omega
    · cases hf
  | _ =>
    rw [List.mem_singleton.mp hf, reply_frame_length]
    simp [status_message]
    omega

end

/-! ## What a loader sends -/

/-- No command in the frame writes to the memory of a loader that gets it. -/
def Apart {ι : Type} (L : ι → Loader) (mac : ι → Mac) (f : List Byte) : Prop :=
  ∀ i addr bytes, command_of (L i) (mac i) ([0, 0] ++ f) = .write addr bytes →
    ∀ k < bytes.length, ¬ (L i).own (addr + BitVec.ofNat 32 k)

section

variable {L : Loader} {mac : Mac} {s t : Net Ram} {packet : Octets} {F : List Byte}
  {out : List (List Byte)}

/-- The addresses in the buffer are those of the frame. -/
theorem reply_frame_eq {b : Octets} (hb : slice b 0 (F.length + 2) = [0, 0] ++ F)
    (hlen : 58 ≤ F.length) (msg : List Byte) : reply_frame mac b msg =
      ip6_frame mac (part F 6 6) (part F 22 16) IP_HDR_UDP
        (with_checksum (ip6lla_from_ethmac mac) (part F 22 16) IP_HDR_UDP 6
          (udp_datagram (be16 NB_PORT_CTRL) (part F 54 2) msg)) := by
  have hpart (off n : Nat) (h : off + n ≤ 58) : slice b off n = part ([0, 0] ++ F) off n := by
    rw [← hb, part_slice _ _ _ _ _ (by omega), Nat.zero_add]
  unfold reply_frame
  rw [hpart 8 6 (by omega), hpart 24 16 (by omega), hpart 56 2 (by omega)]
  rfl

theorem answer_sends {b : Octets} (hb : slice b 0 (F.length + 2) = [0, 0] ++ F)
    (hmax : F.length ≤ 1534)
    (hown : ∀ addr bytes, command_of L mac ([0, 0] ++ F) = .write addr bytes →
      ∀ k < bytes.length, ¬ L.own (addr + BitVec.ofNat 32 k)) :
    (answer L mac b (F.length + 2)).length ≤ 1 ∧
    ∀ f ∈ answer L mac b (F.length + 2), 58 ≤ F.length ∧
      ((command_of L mac ([0, 0] ++ F) ≠ .none ∧
        ∃ msg, IsStatus L mac (part F 6 6) (part F 22 16) (part F 54 2) f msg) ∨
      (command_of L mac ([0, 0] ++ F) = .none ∧
        ∃ payload, IsIcmpReply mac (part F 6 6) (part F 22 16) f payload)) := by
  unfold answer
  rw [hb]
  have hrlen : ([0, 0] ++ F : List Byte).length = F.length + 2 := by simp
  cases hc : classify mac ([0, 0] ++ F) with
  | ignored =>
    have hcmd : command_of L mac ([0, 0] ++ F) = .none := by
      unfold command_of
      rw [hc]
    dsimp only
    rw [hcmd]
    simp [answer_command]
  | echo =>
    obtain ⟨⟨m, hacc⟩, -⟩ := classify_eq_echo.mp hc
    have h60 := hacc.long
    have hcmd : command_of L mac ([0, 0] ++ F) = .none := by
      unfold command_of
      rw [hc]
    refine ⟨by simp, ?_⟩
    intro f hf
    have hdata : (part ([0, 0] ++ F) 60 (([0, 0] ++ F : List Byte).length - 60)).length =
        F.length - 58 := by
      rw [part_length _ _ _ (by omega)]
      omega
    refine ⟨by omega, Or.inr ⟨hcmd, _, (List.mem_singleton.mp hf).trans rfl, ?_, ?_, Or.inl ?_⟩⟩
    · rw [with_checksum_length _ _ _ _ _ (by simp)]
      simp
    · rw [with_checksum_length _ _ _ _ _ (by simp), List.length_append, hdata]
      simp
      omega
    · rw [echo_with_checksum]
      rfl
  | solicitation =>
    obtain ⟨-, -, h80, -⟩ := classify_eq_solicitation.mp hc
    have hcmd : command_of L mac ([0, 0] ++ F) = .none := by
      unfold command_of
      rw [hc]
    refine ⟨by simp, ?_⟩
    intro f hf
    refine ⟨by omega, Or.inr ⟨hcmd, _, (List.mem_singleton.mp hf).trans rfl, ?_, ?_, Or.inr ?_⟩⟩
    · rw [with_checksum_length _ _ _ _ _ (by simp [ndp_reply])]
      simp [ndp_reply]
    · rw [with_checksum_length _ _ _ _ _ (by simp [ndp_reply])]
      simp [ndp_reply]
    · rfl
  | datagram port len mcast =>
    have hfit := (classify_eq_datagram.mp hc).2
    have hcmd : command_of L mac ([0, 0] ++ F) = command L port (part ([0, 0] ++ F) 64 len) := by
      unfold command_of
      rw [hc]
    dsimp only
    refine ⟨answer_command_le_one _, ?_⟩
    intro f hf
    by_cases hnone : command_of L mac ([0, 0] ++ F) = .none
    · rw [hnone] at hf
      cases hf
    · have hsome := hnone
      rw [hcmd] at hsome
      have hwf := (command_ne_none hsome).1
      have h16 := hwf.1
      rw [part_length _ _ _ (by omega)] at h16
      have hoct : ∀ i < 12, octet (part ([0, 0] ++ F) 64 len) i = b (64 + i) := by
        intro i hi
        rw [octet_part _ _ _ _ (by omega), ← hb]
        simp [octet, slice, show 64 + i < F.length + 2 by omega]
      obtain ⟨a, ha, hfa⟩ := answer_command_answers L mac hoct (fun _ => hwf.2.2)
        (fun addr bytes hw => landed_apart L (hown addr bytes (hcmd.trans hw)) b) f (hcmd ▸ hf)
      have hsize := answer_command_length _ f hf
      rw [hfa, reply_frame_length] at hsize
      refine ⟨by omega, Or.inl ⟨hnone, a, ?_, ha.long, by omega, by omega, ?_, ha.cmd⟩⟩
      · rw [hfa, reply_frame_eq hb (by omega)]
      · exact ha.magic

/-- What a loader sends for a frame: for a command a status, and else at most an ICMPv6 message
that is no request, in each case to where the frame came from. -/
theorem sends (hpad : s.Padded) (hlen : F.length < 2 ^ 32)
    (hown : ∀ addr bytes, command_of L mac ([0, 0] ++ F) = .write addr bytes →
      ∀ k < bytes.length, ¬ L.own (addr + BitVec.ofNat 32 k))
    (ht : receive L mac s packet (slot F) (BitVec.ofNat 32 F.length) = .ok t)
    (hout : t.sent = s.sent ++ out) :
    out.length ≤ 1 ∧ ∀ f ∈ out, 58 ≤ F.length ∧
      ((command_of L mac ([0, 0] ++ F) ≠ .none ∧
        ∃ msg, IsStatus L mac (part F 6 6) (part F 22 16) (part F 54 2) f msg) ∨
      (command_of L mac ([0, 0] ++ F) = .none ∧
        ∃ payload, IsIcmpReply mac (part F 6 6) (part F 22 16) f payload)) := by
  have hn : (BitVec.ofNat 32 F.length).toNat = F.length := by
    rw [BitVec.toNat_ofNat, Nat.mod_eq_of_lt hlen]
  by_cases hmax : F.length ≤ 1534
  · obtain ⟨t', ht', hsent⟩ := receive.spec L mac s packet (slot F) (BitVec.ofNat 32 F.length)
      (by omega)
    obtain rfl : t' = t := Except.ok.inj (ht'.symm.trans ht)
    have hr := hpad.received_loaded (slot F) F.length
    rw [slice_slot] at hr
    rw [hn] at hsent
    have hans : out = answer L mac (s.loaded (slot F) F.length).rxbuf (F.length + 2) :=
      List.append_cancel_left (hout.symm.trans hsent)
    have hb : slice (s.loaded (slot F) F.length).rxbuf 0 (F.length + 2) = [0, 0] ++ F := hr
    generalize (s.loaded (slot F) F.length).rxbuf = b at hans hb
    rw [hans]
    exact answer_sends hb hmax hown
  · have hlong := eth_rx_long mac s packet (pkt_rx_udp L (net_init mac) packet) (slot F)
      (BitVec.ofNat 32 F.length) (by omega)
    obtain rfl : s = t := Except.ok.inj (hlong.symm.trans ht)
    have hnil : out = [] := List.self_eq_append_right.mp hout
    rw [hnil]
    simp

/-- After an EXEC a loader has left. -/
theorem receive_leaves {rxb : Octets} {rxlen entry : Word} (hmax : rxlen.toNat ≤ 1534)
    (hexec : command_of L mac (s.loaded rxb rxlen.toNat).received = .exec entry)
    (ht : receive L mac s packet rxb rxlen = .ok t) : t.app.entry ≠ none := by
  unfold command_of at hexec
  split at hexec
  · rename_i port len mcast hc
    have hown : ∀ addr bytes,
        command L port (part (s.loaded rxb rxlen.toNat).received 64 len) = .write addr bytes →
        ∀ i < bytes.length, ¬ L.own (addr + BitVec.ofNat 32 i) := by
      intro addr bytes hw
      rw [hexec] at hw
      cases hw
    obtain ⟨t', _, ht', happ, -⟩ := receive_serves L mac s packet rxb rxlen hmax hc hown
    obtain rfl : t' = t := Except.ok.inj (ht'.symm.trans ht)
    rw [happ, hexec]
    simp [served]
  · cases hexec

/-- A loader that did not leave has kept the padding zero. -/
theorem receive_padded (hpad : s.Padded) (hlen : F.length < 2 ^ 32)
    (hown : ∀ addr bytes, command_of L mac ([0, 0] ++ F) = .write addr bytes →
      ∀ k < bytes.length, ¬ L.own (addr + BitVec.ofNat 32 k))
    (ht : receive L mac s packet (slot F) (BitVec.ofNat 32 F.length) = .ok t)
    (hstays : t.app.entry = none) : t.Padded := by
  have hn : (BitVec.ofNat 32 F.length).toNat = F.length := by
    rw [BitVec.toNat_ofNat, Nat.mod_eq_of_lt hlen]
  have hr : Arrival.received ⟨packet, slot F, BitVec.ofNat 32 F.length⟩ = [0, 0] ++ F := by
    unfold Arrival.received
    dsimp only
    rw [hn, slice_slot]
  by_cases hmax : F.length ≤ 1534
  · have hapart : Harmless L mac ⟨packet, slot F, BitVec.ofNat 32 F.length⟩ := by
      constructor
      · intro entry hexec
        have hload := received_arrival hpad ⟨packet, slot F, BitVec.ofNat 32 F.length⟩
        dsimp only at hload
        rw [← hload] at hexec
        exact receive_leaves (by omega) hexec ht hstays
      · rw [hr]
        exact hown
    exact takes_padded L mac hpad ⟨hapart, ht⟩
  · have hlong := eth_rx_long mac s packet (pkt_rx_udp L (net_init mac) packet) (slot F)
      (BitVec.ofNat 32 F.length) (by omega)
    obtain rfl : s = t := Except.ok.inj (hlong.symm.trans ht)
    exact hpad

end

/-! ## Replies to replies -/

section

variable {ι : Type} (L : ι → Loader) (mac : ι → Mac)

/-- The frame has a command for `i` and comes, it says, from the control port of `j`. -/
def Provokes (i j : ι) (F : List Byte) : Prop :=
  command_of (L i) (mac i) ([0, 0] ++ F) ≠ .none ∧ field16 F 54 = NB_PORT_CTRL ∧
    takes_in (mac j) (part F 6 6) (part F 22 16) ≠ none

/-- `f` is what `i` sent for `F`. -/
def Replies (i : ι) (F f : List Byte) : Prop := 58 ≤ F.length ∧
  ((command_of (L i) (mac i) ([0, 0] ++ F) ≠ .none ∧
    ∃ msg, IsStatus (L i) (mac i) (part F 6 6) (part F 22 16) (part F 54 2) f msg) ∨
  (command_of (L i) (mac i) ([0, 0] ++ F) = .none ∧
    ∃ payload, IsIcmpReply (mac i) (part F 6 6) (part F 22 16) f payload))

variable {L mac} {i j : ι} {F f : List Byte}

/-- A reply has no command but an unknown one. -/
theorem Replies.apart (h : Replies L mac i F f) : Apart L mac f := by
  intro j addr bytes hw
  exfalso
  obtain ⟨hlen, ⟨-, msg, hs⟩ | ⟨-, payload, hp⟩⟩ := h
  · have hcmd := @command_of_udp (mac j) (mac i) (part F 6 6) (part F 22 16) (part F 54 2) msg (L j)
      (part_length _ _ _ (by omega)) (part_length _ _ _ (by omega)) (part_length _ _ _ (by omega))
      hs.short
    unfold padded_frame at hcmd
    rw [← hs.frame, command_status hs.cmd] at hcmd
    rw [hcmd] at hw
    split_ifs at hw
  · have hign := @classify_icmp_reply (mac j) (mac i) (part F 6 6) (part F 22 16) payload
      (part_length _ _ _ (by omega)) (part_length _ _ _ (by omega)) hp.long hp.type
    unfold padded_frame at hign
    rw [← hp.frame] at hign
    unfold command_of at hw
    rw [hign] at hw
    cases hw

/-- A loader answers a reply only when the frame that it answers provoked this. -/
theorem Replies.answered (h : Replies L mac i F f) {b : Octets}
    (hb : slice b 0 (f.length + 2) = [0, 0] ++ f) :
    (answer (L j) (mac j) b (f.length + 2) ≠ [] → Provokes L mac i j F) ∧
    ((L i).nodename.length ≤ 1018 → Provokes L mac i j F →
      answer (L j) (mac j) b (f.length + 2) ≠ []) := by
  obtain ⟨hlen, ⟨hcmd, msg, hs⟩ | ⟨hcmd, payload, hp⟩⟩ := h
  · have hport : field16 (part F 54 2) 0 = field16 F 54 := field16_part F 54 2 0 (by omega)
    have hframe := hb
    rw [hs.frame] at hframe
    have hiff := @answer_to_status (mac j) (mac i) (part F 6 6) (part F 22 16) (part F 54 2) msg
      (L j) b _ (part_length _ _ _ (by omega)) (part_length _ _ _ (by omega))
      (part_length _ _ _ (by omega)) hs.short hs.cmd hframe
    rw [← hs.frame, hport] at hiff
    constructor
    · intro hne
      obtain ⟨hin, -, hctrl⟩ := hiff.mp hne
      exact ⟨hcmd, hctrl, hin⟩
    · rintro hname ⟨-, hctrl, hin⟩
      have h1040 : msg.length ≤ 1040 := by
        have hl := hs.named
        simp only [name_text, List.length_append, List.length_cons, List.length_nil] at hl
        omega
      exact hiff.mpr ⟨hin, ⟨hs.long, h1040, hs.magic⟩, hctrl⟩
  · have hframe := hb
    rw [hp.frame] at hframe
    have hign := @classify_icmp_reply (mac j) (mac i) (part F 6 6) (part F 22 16) payload
      (part_length _ _ _ (by omega)) (part_length _ _ _ (by omega)) hp.long hp.type
    have hnil : answer (L j) (mac j) b (f.length + 2) = [] := by
      unfold answer command_of
      rw [hb, hp.frame]
      unfold padded_frame at hign
      rw [hign]
      rfl
    rw [hnil]
    exact ⟨fun h => absurd rfl h, fun _ h => absurd hcmd h.1⟩

theorem Replies.length (h : Replies L mac i F f) : f.length ≤ 1534 := by
  obtain ⟨hlen, ⟨-, msg, hs⟩ | ⟨-, payload, hp⟩⟩ := h
  · have hm : (part F 54 2).length = 2 := part_length _ _ _ (by omega)
    have hshort := hs.short
    rw [hs.frame, ip6_frame_length _ _ _ _ _ (part_length _ _ _ (by omega))
      (part_length _ _ _ (by omega)), with_checksum_length _ _ _ _ _ (by
        rw [udp_datagram_length rfl hm]
        omega), udp_datagram_length rfl hm]
    omega
  · have hshort := hp.short
    rw [hp.frame, ip6_frame_length _ _ _ _ _ (part_length _ _ _ (by omega))
      (part_length _ _ _ (by omega))]
    omega

/-! ## Every run -/

/-- A frame on a link where no command wrote to the memory of a loader. -/
structure Known (L : ι → Loader) (mac : ι → Mac) (es : List (Traffic ι)) (a : OnAir ι) :
    Prop where
  short : a.frame.length < 2 ^ 32
  apart : Apart L mac a.frame
  injected : a.cause = none → .inject a.frame ∈ es
  replies : ∀ i F, a.cause = some (i, F) → Replies L mac i F a.frame

structure Sound (L : ι → Loader) (mac : ι → Mac) (es : List (Traffic ι)) (g : Segment ι) :
    Prop where
  padded : ∀ i, (g.nets i).app.entry = none → (g.nets i).Padded
  air : ∀ a ∈ g.air, Known L mac es a

/-- A delivery causes at most one frame, and one of a reply causes one just when it was
provoked. -/
def Answered (L : ι → Loader) (mac : ι → Mac) (j : ι) (a : OnAir ι) (out : List (List Byte)) :
    Prop :=
  out.length ≤ 1 ∧ ∀ i F, a.cause = some (i, F) →
    (out ≠ [] → Provokes L mac i j F) ∧
    ((L i).nodename.length ≤ 1018 → Provokes L mac i j F → out ≠ [])

variable {es : List (Traffic ι)} {g g' : Segment ι} {e : Traffic ι}

/-- One delivery on a sound link. -/
theorem Sound.answered (h : Sound L mac es g) {a : OnAir ι} {packet : Octets} {t : Net Ram}
    {out : List (List Byte)} (ha : a ∈ g.air) (hstays : (g.nets j).app.entry = none)
    (ht : receive (L j) (mac j) (g.nets j) packet (slot a.frame)
      (BitVec.ofNat 32 a.frame.length) = .ok t) (hout : t.sent = (g.nets j).sent ++ out) :
    Answered L mac j a out := by
  have hpad := h.padded j hstays
  have hknown := h.air a ha
  obtain ⟨hone, -⟩ := sends hpad hknown.short (hknown.apart j) ht hout
  refine ⟨hone, ?_⟩
  intro i F hc
  have hrep := hknown.replies i F hc
  have hmax := hrep.length
  have hn : (BitVec.ofNat 32 a.frame.length).toNat = a.frame.length := by
    rw [BitVec.toNat_ofNat, Nat.mod_eq_of_lt (by omega)]
  obtain ⟨t', ht', hsent⟩ := receive.spec (L j) (mac j) (g.nets j) packet (slot a.frame)
    (BitVec.ofNat 32 a.frame.length) (by omega)
  obtain rfl : t' = t := Except.ok.inj (ht'.symm.trans ht)
  have hr := hpad.received_loaded (slot a.frame) a.frame.length
  rw [slice_slot] at hr
  rw [hn] at hsent
  rw [List.append_cancel_left (hout.symm.trans hsent)]
  exact hrep.answered hr

theorem Known.later {a : OnAir ι} (h : Known L mac es a) : Known L mac (es ++ [e]) a :=
  ⟨h.short, h.apart, fun hc => List.mem_append_left _ (h.injected hc), h.replies⟩

variable [DecidableEq ι]

theorem Sound.delivered (h : Sound L mac es g) {a : OnAir ι} {out : List (List Byte)}
    (hs : Goes L mac g (.deliver j a out) g') : Answered L mac j a out := by
  cases hs with
  | deliver ha hstays ht hout => exact h.answered ha hstays ht hout

/-- A step keeps the link sound. -/
theorem Sound.step (h : Sound L mac es g) (hs : Goes L mac g e g')
    (he : ∀ f, e = .inject f → Apart L mac f) : Sound L mac (es ++ [e]) g' := by
  cases hs with
  | @inject _ f hlen =>
    refine ⟨h.padded, ?_⟩
    intro a ha
    rcases List.mem_append.mp ha with ha | ha
    · exact (h.air a ha).later
    · rw [List.mem_singleton.mp ha]
      refine ⟨hlen, he f rfl, fun _ => List.mem_append_right _ (List.mem_singleton_self _), ?_⟩
      intro i F hc
      cases hc
  | @deliver _ i a packet t out ha hstays ht hout =>
    have hpad := h.padded i hstays
    have hknown := h.air a ha
    obtain ⟨-, hsends⟩ := sends hpad hknown.short (hknown.apart i) ht hout
    constructor
    · intro j hj
      dsimp only at hj ⊢
      by_cases hji : j = i
      · subst hji
        rw [Function.update_self] at hj ⊢
        exact receive_padded hpad hknown.short (hknown.apart j) ht hj
      · rw [Function.update_of_ne hji] at hj ⊢
        exact h.padded j hj
    · intro c hc
      rcases List.mem_append.mp hc with hc | hc
      · exact (h.air c hc).later
      · obtain ⟨f, hf, rfl⟩ := List.mem_map.mp hc
        have hrep : Replies L mac i a.frame f := hsends f hf
        refine ⟨lt_of_le_of_lt hrep.length (by norm_num), hrep.apart, ?_, ?_⟩
        · intro hnone
          cases hnone
        · intro j F hsome
          obtain ⟨rfl, rfl⟩ := Prod.mk.inj (Option.some.inj hsome)
          exact hrep

/-- What each delivery of a run does. -/
theorem answered_in_runs {mems : ι → Mem} (hrun : Run (Goes L mac) (Segment.start mems) es g)
    (hin : ∀ f, .inject f ∈ es → Apart L mac f) :
    Sound L mac es g ∧ ∀ j a out, .deliver j a out ∈ es → Answered L mac j a out := by
  revert hin
  refine hrun.carries (I := fun es g => (∀ f, Traffic.inject f ∈ es → Apart L mac f) →
    Sound L mac es g ∧ ∀ j a out, Traffic.deliver j a out ∈ es → Answered L mac j a out) ?_ ?_
  · intro _
    refine ⟨⟨fun i _ => rfl, fun a ha => absurd ha List.not_mem_nil⟩, ?_⟩
    exact fun j a out h => absurd h List.not_mem_nil
  · intro es g e g' ih hs hin
    obtain ⟨hsound, hall⟩ := ih fun f hf => hin f (List.mem_append_left _ hf)
    refine ⟨hsound.step hs fun f hf => hin f (hf ▸ List.mem_append_right _
      (List.mem_singleton_self _)), ?_⟩
    intro j a out h
    rcases List.mem_append.mp h with h | h
    · exact hall j a out h
    · obtain rfl := List.mem_singleton.mp h
      exact hsound.delivered hs

/-! ## No storms -/

/-- A frame that writes to the memory of no loader, and makes none reply to the control port
of another. -/
structure Meek (L : ι → Loader) (mac : ι → Mac) (f : List Byte) : Prop where
  apart : Apart L mac f
  provokes : ∀ i j, ¬ Provokes L mac i j f

/-- The delivery of a frame that was injected. -/
def Traffic.fresh : Traffic ι → Bool
  | .inject _ => false
  | .deliver _ a _ => a.cause.isNone

/-- Every reply so far answers a frame that was injected. -/
structure Quiet (L : ι → Loader) (mac : ι → Mac) (es : List (Traffic ι)) (g : Segment ι) :
    Prop where
  sound : Sound L mac es g
  origin : ∀ a ∈ g.air, ∀ i F, a.cause = some (i, F) → .inject F ∈ es
  silent : ∀ j a out, .deliver j a out ∈ es → out.length ≤ 1 ∧ (a.cause ≠ none → out = [])
  count : (g.air.filter (·.cause.isSome)).length ≤ es.countP Traffic.fresh

/-- No reply is answered in the next step either. -/
theorem Quiet.step (h : Quiet L mac es g) (hs : Goes L mac g e g')
    (hmeek : ∀ f, .inject f ∈ es ++ [e] → Meek L mac f) : Quiet L mac (es ++ [e]) g' := by
  have hsound := h.sound.step hs fun f hf => (hmeek f (hf ▸ List.mem_append_right _
    (List.mem_singleton_self _))).apart
  have hcount := h.count
  cases hs with
  | @inject _ f hlen =>
    refine ⟨hsound, ?_, ?_, ?_⟩
    · intro a ha i F hc
      rcases List.mem_append.mp ha with ha | ha
      · exact List.mem_append_left _ (h.origin a ha i F hc)
      · rw [List.mem_singleton.mp ha] at hc
        cases hc
    · intro j a out hd
      rcases List.mem_append.mp hd with hd | hd
      · exact h.silent j a out hd
      · cases List.mem_singleton.mp hd
    · rw [List.filter_append, List.countP_append, List.length_append]
      exact Nat.add_le_add hcount (Nat.zero_le _)
  | @deliver _ i a packet t out ha hstays ht hout =>
    obtain ⟨hone, hanswered⟩ := h.sound.answered ha hstays ht hout
    have hsilent : a.cause ≠ none → out = [] := by
      intro hc
      obtain ⟨⟨k, F⟩, hk⟩ := Option.ne_none_iff_exists'.mp hc
      by_contra hne
      have hF := List.mem_append_left [Traffic.deliver i a out] (h.origin a ha k F hk)
      exact (hmeek F hF).provokes k i ((hanswered k F hk).1 hne)
    refine ⟨hsound, ?_, ?_, ?_⟩
    · intro c hc j F hcause
      rcases List.mem_append.mp hc with hc | hc
      · exact List.mem_append_left _ (h.origin c hc j F hcause)
      · obtain ⟨f, hf, rfl⟩ := List.mem_map.mp hc
        obtain ⟨rfl, rfl⟩ := Prod.mk.inj (Option.some.inj hcause)
        have hnone : a.cause = none := by
          by_contra hsome
          rw [hsilent hsome] at hf
          cases hf
        exact List.mem_append_left _ ((h.sound.air a ha).injected hnone)
    · intro j c cs hd
      rcases List.mem_append.mp hd with hd | hd
      · exact h.silent j c cs hd
      · obtain ⟨rfl, rfl, rfl⟩ := Traffic.deliver.inj (List.mem_singleton.mp hd)
        exact ⟨hone, hsilent⟩
    · rw [List.filter_append, List.countP_append, List.length_append]
      apply Nat.add_le_add hcount
      cases hc : a.cause with
      | none =>
        have hfresh : Traffic.fresh (.deliver i a out) = true := by simp [Traffic.fresh, hc]
        rw [List.countP_singleton, hfresh]
        exact (List.length_filter_le _ _).trans (by simpa using hone)
      | some c =>
        rw [hsilent (by simp [hc])]
        exact Nat.zero_le _

/-- When all frames that are injected are meek, each delivery of one causes at most one frame
and no reply causes any, so there are no more replies than such deliveries. -/
theorem no_reply_is_answered (L : ι → Loader) (mac : ι → Mac) {mems : ι → Mem}
    {es : List (Traffic ι)} {g : Segment ι} (hrun : Run (Goes L mac) (Segment.start mems) es g)
    (hmeek : ∀ f, .inject f ∈ es → Meek L mac f) :
    (∀ j a out, .deliver j a out ∈ es → out.length ≤ 1 ∧ (a.cause ≠ none → out = [])) ∧
    (g.air.filter (·.cause.isSome)).length ≤ es.countP Traffic.fresh := by
  have hquiet : Quiet L mac es g := by
    revert hmeek
    refine hrun.carries (I := fun es g => (∀ f, Traffic.inject f ∈ es → Meek L mac f) →
      Quiet L mac es g) ?_ ?_
    · intro _
      refine ⟨⟨fun i _ => rfl, fun a ha => absurd ha List.not_mem_nil⟩, ?_, ?_, Nat.zero_le _⟩
      · exact fun a ha => absurd ha List.not_mem_nil
      · exact fun j a out h => absurd h List.not_mem_nil
    · intro es g e g' ih hs hmeek
      exact (ih fun f hf => hmeek f (List.mem_append_left _ hf)).step hs hmeek
  exact ⟨hquiet.silent, hquiet.count⟩

end

/-! ## Two loaders -/

/-- The addresses of two loaders. -/
def two_macs (i : Bool) : Mac := if i then other_mac else loader_mac

/-- A query to the first of them on the control port, from a port of the second. -/
def query_from (port : BitVec 16) : List Byte :=
  (padded_frame other_mac loader_mac.octets (ip6lla_from_ethmac loader_mac) IP_HDR_UDP
    (be16 port ++ be16 NB_PORT_CTRL ++ [0, 24, 0, 0] ++ (query []).octets 7)).drop 2

theorem answer_to_query {L : Loader} {mac : Mac} {b : Octets} {n : Nat}
    (h : command_of L mac (slice b 0 n) = .query) (hname : (name_text L).length + 17 ≤ 1472) :
    answer L mac b n ≠ [] := by
  have hd : answer L mac b n = answer_command L mac b .query := by
    unfold answer
    rw [h]
    unfold command_of at h
    split
    · rename_i he
      rw [he] at h
      cases h
    · rename_i he
      rw [he] at h
      cases h
    · rfl
  rw [hd]
  unfold answer_command
  rw [if_pos hname]
  simp

section

variable {ι : Type} [DecidableEq ι] {L : ι → Loader} {mac : ι → Mac}

/-- A loader that has not left takes any frame of the link that fits its buffer. -/
theorem delivers {es : List (Traffic ι)} {g : Segment ι} (h : Sound L mac es g) {a : OnAir ι}
    {j : ι} (ha : a ∈ g.air) (hmax : a.frame.length ≤ 1534) (hstays : (g.nets j).app.entry = none) :
    ∃ b t, slice b 0 (a.frame.length + 2) = [0, 0] ++ a.frame ∧
      Goes L mac g (.deliver j a (answer (L j) (mac j) b (a.frame.length + 2)))
        { nets := Function.update g.nets j t
          air := g.air ++ (answer (L j) (mac j) b (a.frame.length + 2)).map fun f =>
            ⟨f, some (j, a.frame)⟩ } := by
  have hn : (BitVec.ofNat 32 a.frame.length).toNat = a.frame.length := by
    rw [BitVec.toNat_ofNat, Nat.mod_eq_of_lt (by omega)]
  obtain ⟨t, ht, hsent⟩ := receive.spec (L j) (mac j) (g.nets j) (slot []) (slot a.frame)
    (BitVec.ofNat 32 a.frame.length) (by omega)
  have hr := (h.padded j hstays).received_loaded (slot a.frame) a.frame.length
  rw [slice_slot] at hr
  rw [hn] at hsent
  exact ⟨_, t, hr, .deliver ha hstays ht hsent⟩

end

theorem query_apart {port : BitVec 16}
    (hcmd : ∀ i, command_of device (two_macs i) ([0, 0] ++ query_from port) =
      if i then .none else .query) : Apart (fun _ : Bool => device) two_macs (query_from port) := by
  intro i addr bytes hw
  rw [hcmd] at hw
  cases i <;> cases hw

/-- The query gets to the first loader, which answers it. -/
theorem a_query_is_answered {port : BitVec 16}
    (hcmd : ∀ i, command_of device (two_macs i) ([0, 0] ++ query_from port) =
      if i then .none else .query) :
    ∃ g f, Run (Goes (fun _ => device) two_macs) (Segment.start fun _ _ => 0)
        [.inject (query_from port), .deliver false ⟨query_from port, none⟩ [f]] g ∧
      Sound (fun _ => device) two_macs
        [.inject (query_from port), .deliver false ⟨query_from port, none⟩ [f]] g ∧
      ⟨f, some (false, query_from port)⟩ ∈ g.air ∧ (g.nets true).app.entry = none := by
  have hlen : (query_from port).length = 78 := rfl
  have r1 := Run.single (@Goes.inject Bool _ (fun _ => device) two_macs (Segment.start fun _ _ => 0)
    (query_from port) (by omega))
  have hsound := (answered_in_runs r1 fun f hf => by
    obtain rfl := Traffic.inject.inj (List.mem_singleton.mp hf)
    exact query_apart hcmd).1
  have ha : (⟨query_from port, none⟩ : OnAir Bool) ∈ [⟨query_from port, none⟩] :=
    List.mem_singleton_self _
  obtain ⟨b, t, hb, hstep⟩ := @delivers Bool _ _ _ _ _ hsound _ false ha
    (by dsimp only; omega) rfl
  have hone := (hsound.delivered hstep).1
  have hne : answer device (two_macs false) b ((query_from port).length + 2) ≠ [] := by
    apply answer_to_query
    · rw [hb]
      exact hcmd false
    · decide
  dsimp only at hstep
  obtain ⟨f, hf⟩ : ∃ f, answer device (two_macs false) b ((query_from port).length + 2) = [f] := by
    apply List.length_eq_one_iff.mp
    exact le_antisymm hone (List.length_pos_iff.mpr hne)
  rw [hf] at hstep
  refine ⟨_, f, r1.snoc hstep, hsound.step hstep ?_, by simp, ?_⟩
  · intro f hf
    cases hf
  · dsimp only
    rw [Function.update_of_ne (by simp)]
    rfl

/-- One query is enough that a loader answers the answer of the other. -/
theorem a_reply_is_answered :
    (∀ i, (two_macs i).Unicast) ∧ two_macs true ≠ two_macs false ∧
    ∃ es g j a out, Run (Goes (fun _ => device) two_macs) (Segment.start fun _ _ => 0) es g ∧
      .deliver j a out ∈ es ∧ a.cause ≠ none ∧ out ≠ [] := by
  refine ⟨by decide, by decide, ?_⟩
  have hcmd : ∀ i, command_of device (two_macs i) ([0, 0] ++ query_from NB_PORT_CTRL) =
      if i then .none else .query := by decide
  obtain ⟨g, f, hrun, hsound, hf, hstays⟩ := a_query_is_answered hcmd
  have hrep := (hsound.air _ hf).replies false _ rfl
  obtain ⟨b, t, hb, hstep⟩ := delivers hsound hf hrep.length hstays
  refine ⟨_, _, true, _, _, hrun.snoc hstep, List.mem_append_right _ (List.mem_singleton_self _),
    by simp, ?_⟩
  exact (hrep.answered hb).2 (by decide) ⟨by decide, by decide, by decide⟩

/-- A query from another port is answered once, and its answer is not answered. -/
theorem a_query_from_another_port_is_answered_once :
    ∃ f g, Run (Goes (fun _ => device) two_macs) (Segment.start fun _ _ => 0)
        [.inject (query_from 0x1234), .deliver false ⟨query_from 0x1234, none⟩ [f],
          .deliver true ⟨f, some (false, query_from 0x1234)⟩ []] g ∧
      (g.air.filter (·.cause.isSome)).length = 1 := by
  have hcmd : ∀ i, command_of device (two_macs i) ([0, 0] ++ query_from 0x1234) =
      if i then .none else .query := by decide
  obtain ⟨g, f, hrun, hsound, hf, hstays⟩ := a_query_is_answered hcmd
  have hmeek : Meek (fun _ : Bool => device) two_macs (query_from 0x1234) := by
    refine ⟨query_apart hcmd, ?_⟩
    rintro i j ⟨-, hport, -⟩
    exact absurd hport (by decide)
  have hrep := (hsound.air _ hf).replies false _ rfl
  obtain ⟨b, t, -, hstep⟩ := delivers hsound hf hrep.length hstays
  generalize answer device (two_macs true) b (f.length + 2) = out at hstep
  have hrun' := hrun.snoc hstep
  obtain ⟨hall, hcount⟩ := no_reply_is_answered _ _ hrun' fun f hf => by
    obtain rfl : f = query_from 0x1234 := by simpa using hf
    exact hmeek
  obtain rfl : out = [] := (hall true _ out
    (List.mem_append_right _ (List.mem_singleton_self _))).2 (by simp)
  exact ⟨f, _, hrun', le_antisymm hcount
    (List.length_pos_of_mem (List.mem_filter.mpr ⟨List.mem_append_left _ hf, rfl⟩))⟩

end os_workshop.netboot
