-- What the loader answers is decided by the octets of the frame it answers:
-- nothing of earlier frames and nothing of the stack comes out of it.
import OsWorkshop.NetbootSafety
import OsWorkshop.Ipv6Laws
import OsWorkshop.Runs

open os_workshop.memory (Byte Word Mem le32 word dist write)
open os_workshop.octets
open os_workshop.net
open os_workshop.runs

namespace os_workshop.netboot

variable (L : Loader) (mac : Mac) (s : Net Ram) (packet : Octets)

/-! ## The pure model -/

/-- The answer to a command, from the octets in the receive buffer. -/
def answer_command (L : Loader) (mac : Mac) (b : Octets) : Command → List (List Byte)
  | .none => []
  | .query =>
    if (name_text L).length + 17 ≤ 1472 then
      [reply_frame mac b (slice (named L b) 64 ((name_text L).length + 17))]
    else []
  | .write addr bytes =>
    [reply_frame mac (landed L addr bytes b) (status_message (landed L addr bytes b) NB_OK)]
  | .exec _ => [reply_frame mac b (status_message b NB_OK)]
  | .other => [reply_frame mac b (status_message b NB_ERR_BADCMD)]

/-- The command in a received frame. -/
def command_of (L : Loader) (mac : Mac) (r : List Byte) : Command :=
  match classify mac r with
  | .datagram port len _ => command L port (part r 64 len)
  | _ => .none

/-- The answer to the frame in the first `n` octets of the receive buffer. -/
def answer (L : Loader) (mac : Mac) (b : Octets) (n : Nat) : List (List Byte) :=
  match classify mac (slice b 0 n) with
  | .echo => [echo_reply mac (slice b 0 n)]
  | .solicitation => [advertisement mac (slice b 0 n)]
  | _ => answer_command L mac b (command_of L mac (slice b 0 n))

/-! ## The loader gives this answer -/

theorem perform.spec (c : Command) (h : s.rcvd ≤ 1536) (h80 : c = .none ∨ 80 ≤ s.rcvd) :
    ∃ t, perform L mac s packet c = .ok t ∧ t.sent = s.sent ++ answer_command L mac s.rxbuf c := by
  cases c with
  | none => exact ⟨s, rfl, (List.append_nil _).symm⟩
  | query =>
    have h80 : 80 ≤ s.rcvd := by simpa using h80
    refine ⟨_, query_reply.spec L mac s packet h (by omega), ?_⟩
    unfold answer_command
    split_ifs
    · rfl
    · exact (List.append_nil _).symm
  | write addr bytes =>
    have h80 : 80 ≤ s.rcvd := by simpa using h80
    exact ⟨_, status_reply.spec mac (memcpy L s addr bytes) packet NB_OK h h80, rfl⟩
  | exec entry =>
    have h80 : 80 ≤ s.rcvd := by simpa using h80
    exact ⟨_, perform_exec L mac s packet entry h h80, rfl⟩
  | other =>
    have h80 : 80 ≤ s.rcvd := by simpa using h80
    exact ⟨_, status_reply.spec mac s packet NB_ERR_BADCMD h h80, rfl⟩

theorem outcome.spec (h : s.rcvd ≤ 1536) :
    ∃ t, outcome mac (pkt_rx_udp L (net_init mac) packet) s (classify mac s.received) = .ok t ∧
      t.sent = s.sent ++ answer L mac s.rxbuf s.rcvd := by
  unfold answer
  change ∃ t : Net Ram, _ ∧ t.sent = s.sent ++ (match classify mac s.received with
    | .echo => [echo_reply mac s.received]
    | .solicitation => [advertisement mac s.received]
    | _ => answer_command L mac s.rxbuf (command_of L mac s.received))
  unfold command_of
  cases hc : classify mac s.received with
  | ignored => exact ⟨s, rfl, (List.append_nil _).symm⟩
  | echo => exact ⟨_, rfl, rfl⟩
  | solicitation => exact ⟨_, rfl, rfl⟩
  | datagram port len mcast =>
    have hlen : 64 + len ≤ s.rcvd := by
      have := (classify_eq_datagram.mp hc).2.2.2.2
      rw [received_length] at this
      omega
    change ∃ t : Net Ram, pkt_rx_udp L (net_init mac) packet s 64 len port mcast = .ok t ∧ _
    rw [pkt_rx_udp.spec L mac s packet len port mcast h hlen]
    apply perform.spec L mac s packet _ h
    by_cases h16 : 16 ≤ len
    · exact .inr (by omega)
    · exact .inl (command_short L port _ (by rw [part_length _ _ _ (by simpa using hlen)]; omega))

theorem receive.spec (rxb : Octets) (rxlen : Word) (h : rxlen.toNat ≤ 1534) :
    ∃ t, receive L mac s packet rxb rxlen = .ok t ∧
      t.sent = s.sent ++ answer L mac (s.loaded rxb rxlen.toNat).rxbuf (rxlen.toNat + 2) := by
  unfold receive
  rw [eth_rx.spec mac s packet _ rxb rxlen h]
  exact outcome.spec L mac (s.loaded rxb rxlen.toNat) packet (by simp [Net.loaded]; omega)

/-! ## The answer depends on the frame alone -/

/-- The name fits the data of a message, with `name=` before it and a zero after it. -/
theorem named_message (b : Octets) (h : (name_text L).length < 1024) :
    slice (named L b) 64 ((name_text L).length + 17) = name_message L b := by
  have e : (name_text L).length + 17 = 16 + ((name_text L).length + 1) := by omega
  have htake : (name_text L).take 1023 = name_text L := List.take_of_length_le (by omega)
  have hname : slice (named L b) 80 ((name_text L).length + 1) = name_text L ++ [0] := by
    rw [slice_congr _ (overlay b 80 (name_text L ++ [0])) 80 _ fun i hi _ => ?_]
    · exact slice_overlay_same _ _ _ _ (by simp)
    · unfold named
      rw [stated_out _ _ (by omega), htake]
  have hmsg : status_message (overlay b 80 ((name_text L).take 1023 ++ [0])) NB_OK =
      status_message b NB_OK := by
    unfold status_message
    rw [slice_overlay_apart _ _ _ _ _ (by omega), slice_overlay_apart _ _ _ _ _ (by omega)]
  rw [e, slice_append, hname]
  unfold named name_message
  rw [stated_message, hmsg, List.append_assoc]

theorem status_message_congr {b c : Octets} (h : ∀ i < 80, b i = c i) (arg : Word) :
    status_message b arg = status_message c arg := by
  unfold status_message
  rw [slice_congr b c 64 4 (fun i _ hi => h i (by omega)),
    slice_congr b c 72 4 (fun i _ hi => h i (by omega))]

theorem landed_congr {b c : Octets} {n : Nat} (h : ∀ i < n, b i = c i) (addr : Word)
    (bytes : List Byte) : ∀ i < n, landed L addr bytes b i = landed L addr bytes c i := by
  intro i hi
  unfold landed
  rw [h i hi]

theorem answer_command_congr (hname : (name_text L).length < 1024) {b c : Octets}
    (h : ∀ i < 80, b i = c i) (cmd : Command) :
    answer_command L mac b cmd = answer_command L mac c cmd := by
  have hr (msg : List Byte) := reply_frame_congr mac (fun i hi => h i (by omega)) msg
  cases cmd with
  | none => rfl
  | query =>
    unfold answer_command
    dsimp only
    rw [named_message L b hname, named_message L c hname, hr]
    unfold name_message
    rw [status_message_congr h]
  | write addr bytes =>
    have hl := landed_congr L h addr bytes
    unfold answer_command
    dsimp only
    rw [status_message_congr hl, reply_frame_congr mac (fun i hi => hl i (by omega))]
  | exec entry =>
    unfold answer_command
    dsimp only
    rw [status_message_congr h, hr]
  | other =>
    unfold answer_command
    dsimp only
    rw [status_message_congr h, hr]

theorem answer_congr (hname : (name_text L).length < 1024) {b c : Octets} {n : Nat}
    (h : ∀ i < n, b i = c i) : answer L mac b n = answer L mac c n := by
  have hs : slice b 0 n = slice c 0 n := slice_congr b c 0 n fun i _ hi => h i (by omega)
  have hcmd : answer_command L mac b (command_of L mac (slice c 0 n)) =
      answer_command L mac c (command_of L mac (slice c 0 n)) := by
    unfold command_of
    cases hc : classify mac (slice c 0 n) with
    | datagram port len mcast =>
      have hlen := (classify_eq_datagram.mp hc).2.2.2.2
      rw [slice_length] at hlen
      by_cases h16 : 16 ≤ len
      · exact answer_command_congr L mac hname (fun i hi => h i (by omega)) _
      · dsimp only
        rw [command_short L port _ (by rw [part_length _ _ _ (by simp; omega)]; omega)]
        rfl
    | _ => rfl
  unfold answer
  rw [hs]
  split
  · rfl
  · rfl
  · exact hcmd

/-! ## Histories -/

/-- A frame as it arrives: the stack at that time, the slot of the MAC and the length. -/
structure Arrival where
  packet : Octets
  rxb : Octets
  rxlen : Word

/-- The octets of the frame behind the padding, as the stack takes them. -/
def Arrival.received (a : Arrival) : List Byte := [0, 0] ++ slice a.rxb 0 a.rxlen.toNat

/-- A frame that is no EXEC, and no WRITE to the loader's own memory. -/
structure Harmless (L : Loader) (mac : Mac) (a : Arrival) : Prop where
  stays : ∀ entry, command_of L mac a.received ≠ .exec entry
  apart : ∀ addr bytes, command_of L mac a.received = .write addr bytes →
    ∀ i < bytes.length, ¬ L.own (addr + BitVec.ofNat 32 i)

/-- The loader takes in a harmless frame. -/
def takes (L : Loader) (mac : Mac) : Steps (Net Ram) Arrival := fun s a t =>
  Harmless L mac a ∧ receive L mac s a.packet a.rxb a.rxlen = .ok t

/-- The loader before its first frame, with `rxbuf` zero and the memory as it was. -/
def power_on (mem : Mem) : Net Ram where
  rxbuf := fun _ => 0
  rcvd := 0
  passed := []
  sent := []
  app := { mem := mem, entry := none }

theorem padded_of {s t : Net Ram} (hs : s.Padded) (h : ∀ i < 2, t.rxbuf i = s.rxbuf i) :
    t.Padded := by
  unfold Net.Padded at *
  rw [← hs]
  exact slice_congr _ _ 0 2 fun i _ hi => h i (by omega)

/-- A write that does not touch the loader leaves its buffer alone. -/
theorem landed_apart {addr : Word} {bytes : List Byte}
    (h : ∀ i < bytes.length, ¬ L.own (addr + BitVec.ofNat 32 i)) (b : Octets) :
    landed L addr bytes b = b := by
  funext i
  unfold landed
  split_ifs with hi
  · rw [List.getElem?_eq_none]
    · rfl
    · by_contra hn
      apply h (dist addr (L.rxbuf_at + BitVec.ofNat 32 i)) (by omega)
      have e : addr + BitVec.ofNat 32 (dist addr (L.rxbuf_at + BitVec.ofNat 32 i)) =
          L.rxbuf_at + BitVec.ofNat 32 i := by
        unfold memory.dist
        rw [BitVec.ofNat_toNat, BitVec.setWidth_eq]
        ring
      rw [e]
      exact L.rxbuf_own i hi
  · rfl

theorem received_arrival {s : Net Ram} (h : s.Padded) (a : Arrival) :
    (s.loaded a.rxb a.rxlen.toNat).received = a.received := h.received_loaded a.rxb a.rxlen.toNat

theorem perform_padded {s t : Net Ram} {c : Command} (h : s.rcvd ≤ 1536)
    (h80 : c = .none ∨ 80 ≤ s.rcvd) (hstays : ∀ entry, c ≠ .exec entry)
    (hapart : ∀ addr bytes, c = .write addr bytes →
      ∀ i < bytes.length, ¬ L.own (addr + BitVec.ofNat 32 i))
    (hrun : perform L mac s packet c = .ok t) (hs : s.Padded) : t.Padded := by
  cases c with
  | none =>
    cases hrun
    exact hs
  | query =>
    have h80 : 80 ≤ s.rcvd := by simpa using h80
    have hq := query_reply.spec L mac s packet h (by omega)
    cases hq.symm.trans hrun
    apply padded_of hs
    intro i hi
    split_ifs
    · exact named_out L s.rxbuf (by omega)
    · exact named_out L s.rxbuf (by omega)
  | write addr bytes =>
    have h80 : 80 ≤ s.rcvd := by simpa using h80
    have hw := status_reply.spec mac (memcpy L s addr bytes) packet NB_OK h h80
    cases hw.symm.trans hrun
    apply padded_of hs
    intro i hi
    refine (stated_out _ NB_OK (by omega)).trans ?_
    exact congrFun (landed_apart L (hapart addr bytes rfl) s.rxbuf) i
  | exec entry => exact absurd rfl (hstays entry)
  | other =>
    have h80 : 80 ≤ s.rcvd := by simpa using h80
    cases (status_reply.spec mac s packet NB_ERR_BADCMD h h80).symm.trans hrun
    apply padded_of hs
    intro i hi
    exact stated_out s.rxbuf NB_ERR_BADCMD (by omega)

/-- A harmless frame leaves the padding zero. -/
theorem takes_padded {s t : Net Ram} {a : Arrival} (hs : s.Padded) (h : takes L mac s a t) :
    t.Padded := by
  obtain ⟨⟨hstays, hapart⟩, hrun⟩ := h
  unfold receive at hrun
  by_cases hlen : a.rxlen.toNat ≤ 1534
  · rw [eth_rx.spec mac s a.packet _ a.rxb a.rxlen hlen] at hrun
    have hp : (s.loaded a.rxb a.rxlen.toNat).Padded := by
      apply padded_of hs
      intro i hi
      exact overlay_out _ _ _ _ (by omega)
    have h1536 : (s.loaded a.rxb a.rxlen.toNat).rcvd ≤ 1536 := by simp [Net.loaded]; omega
    have hr := received_arrival hs a
    generalize s.loaded a.rxb a.rxlen.toNat = u at hrun hp h1536 hr
    unfold command_of at hstays hapart
    rw [← hr] at hstays hapart
    cases hc : classify mac u.received with
    | ignored =>
      rw [hc] at hrun
      cases hrun
      exact hp
    | echo =>
      rw [hc] at hrun
      cases hrun
      apply padded_of hp
      intro i hi
      exact (overlay_out _ _ _ _ (by omega)).trans (overlay_out _ _ _ _ (by omega))
    | solicitation =>
      rw [hc] at hrun
      cases hrun
      exact hp
    | datagram port len mcast =>
      rw [hc] at hrun hstays hapart
      have hfit : 64 + len ≤ u.rcvd := by
        have := (classify_eq_datagram.mp hc).2.2.2.2
        rw [received_length] at this
        omega
      change pkt_rx_udp L (net_init mac) a.packet u 64 len port mcast = .ok t at hrun
      rw [pkt_rx_udp.spec L mac u a.packet len port mcast h1536 hfit] at hrun
      refine perform_padded L mac a.packet h1536 ?_ hstays hapart hrun hp
      by_cases h16 : 16 ≤ len
      · exact .inr (by omega)
      · exact .inl (command_short L port _ (by
          rw [part_length _ _ _ (by simpa using hfit)]
          omega))
  · rw [eth_rx_long mac s a.packet _ a.rxb a.rxlen (by omega)] at hrun
    cases hrun
    exact hs

/-- After any two histories of frames, none of them an EXEC or a WRITE to the loader's own
memory, the same frame is answered with the same octets. -/
theorem no_stale_data_leaves (hname : L.nodename.length ≤ 1018) {mem1 mem2 : Mem}
    {as1 as2 : List Arrival} {s1 s2 : Net Ram} (h1 : Run (takes L mac) (power_on mem1) as1 s1)
    (h2 : Run (takes L mac) (power_on mem2) as2 s2) (a1 a2 : Arrival) (hlen : a1.rxlen = a2.rxlen)
    (hframe : slice a1.rxb 0 a1.rxlen.toNat = slice a2.rxb 0 a2.rxlen.toNat) :
    ∃ out t1 t2,
      receive L mac s1 a1.packet a1.rxb a1.rxlen = .ok t1 ∧ t1.sent = s1.sent ++ out ∧
      receive L mac s2 a2.packet a2.rxb a2.rxlen = .ok t2 ∧ t2.sent = s2.sent ++ out := by
  have hpad {mem : Mem} {as : List Arrival} {s : Net Ram}
      (h : Run (takes L mac) (power_on mem) as s) : s.Padded :=
    h.keeps rfl fun _ _ _ hs ht => takes_padded L mac hs ht
  have hfit : (name_text L).length < 1024 := by
    simp [name_text]
    omega
  by_cases hmax : a1.rxlen.toNat ≤ 1534
  · obtain ⟨t1, hr1, ho1⟩ := receive.spec L mac s1 a1.packet a1.rxb a1.rxlen hmax
    obtain ⟨t2, hr2, ho2⟩ := receive.spec L mac s2 a2.packet a2.rxb a2.rxlen (by rwa [← hlen])
    have hsame : (s1.loaded a1.rxb a1.rxlen.toNat).received =
        (s2.loaded a2.rxb a2.rxlen.toNat).received := by
      rw [received_arrival (hpad h1), received_arrival (hpad h2)]
      unfold Arrival.received
      rw [hframe]
    have hb : ∀ i < a1.rxlen.toNat + 2, (s1.loaded a1.rxb a1.rxlen.toNat).rxbuf i =
        (s2.loaded a2.rxb a2.rxlen.toNat).rxbuf i := by
      intro i hi
      rw [← octet_received (s1.loaded a1.rxb a1.rxlen.toNat) hi,
        ← octet_received (s2.loaded a2.rxb a2.rxlen.toNat) (by rw [← hlen]; exact hi), hsame]
    refine ⟨_, t1, t2, hr1, ho1, hr2, ?_⟩
    rw [ho2, answer_congr L mac hfit hb, hlen]
  · refine ⟨[], s1, s2, eth_rx_long mac s1 _ _ _ _ (by omega), by simp,
      eth_rx_long mac s2 _ _ _ _ (by rw [← hlen]; omega), by simp⟩

/-- The loader of the source: its name, and the first 32KB of the memory. -/
def device : Loader where
  nodename := [0x64, 0x65, 0x76, 0x69, 0x63, 0x65]
  nonzero := by decide
  counted := by decide
  rxbuf_at := 0x40001000
  own := fun a => 0x40000000 ≤ a ∧ a < 0x40008000
  rxbuf_own := by
    intro i hi
    constructor <;> bv_omega

/-- A query of the other node to the control port. -/
def a_query : List Byte :=
  (padded_frame other_mac loader_mac.octets (ip6lla_from_ethmac loader_mac) IP_HDR_UDP
    ([0x12, 0x34, 0xE4, 0xCC, 0, 24, 0, 0] ++ le32 NB_MAGIC ++ le32 NB_CMD_QUERY ++ le32 7 ++
      le32 0)).drop 2

theorem an_echo_request_is_taken (mem : Mem) : ∃ s, Run (takes device loader_mac) (power_on mem)
    [⟨slot [], slot (an_echo_request.drop 2), 66⟩] s := by
  have hcmd : command_of device loader_mac
      (Arrival.received ⟨slot [], slot (an_echo_request.drop 2), 66⟩) = .none := by decide
  obtain ⟨s, hs, -⟩ := receive.spec device loader_mac (power_on mem) (slot [])
    (slot (an_echo_request.drop 2)) 66 (by decide)
  refine ⟨s, Run.single ⟨⟨fun entry => ?_, fun addr bytes h => ?_⟩, hs⟩⟩
  · rw [hcmd]
    simp
  · rw [hcmd] at h
    cases h

/-- An echo request before the query changes nothing about its answer. -/
theorem a_query_after_an_echo_request_is_answered_alike :
    ∃ s2 out t1 t2,
      Run (takes device loader_mac) (power_on fun _ => 0xFF)
        [⟨slot [], slot (an_echo_request.drop 2), 66⟩] s2 ∧
      receive device loader_mac (power_on fun _ => 0) (slot []) (slot a_query) 78 = .ok t1 ∧
      t1.sent = out ∧
      receive device loader_mac s2 (slot [1, 2]) (slot a_query) 78 = .ok t2 ∧
      t2.sent = s2.sent ++ out := by
  obtain ⟨s2, hrun⟩ := an_echo_request_is_taken fun _ => 0xFF
  have hnone : Run (takes device loader_mac) (power_on fun _ => 0) [] (power_on fun _ => 0) := .nil
  obtain ⟨out, t1, t2, h1, h2, h3, h4⟩ := no_stale_data_leaves device loader_mac (by decide) hnone
    hrun ⟨slot [], slot a_query, 78⟩ ⟨slot [1, 2], slot a_query, 78⟩ rfl rfl
  exact ⟨s2, out, t1, t2, hrun, h1, h2, h3, h4⟩

end os_workshop.netboot
