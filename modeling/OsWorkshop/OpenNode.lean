-- How the host finds its target (open_node of src/tools/netboot.c): the query
-- that it builds on its stack, and the status that it waits for. The name is
-- held against the length of a whole message, before the header is added.
import OsWorkshop.TargetProtocol

open os_workshop.memory (Byte Word)
open os_workshop.octets
open os_workshop.net

namespace os_workshop.netboot

/-! ## open_node -/

def NB_MSG_MIN : Nat := 16
def NB_MSG_MAX : Nat := 16 + 1024

/-- What `open_node` is called with: a C string without its end. -/
structure NodeName where
  octets : List Byte
  nonzero : ∀ b ∈ octets, b ≠ 0

/-- `msglen` is a `uint32_t`. -/
def NodeName.msglen (name : NodeName) : Nat := (BitVec.ofNat 32 name.octets.length).toNat

/-- It is time for the next query. -/
structure Due where
  /-- What the stack has behind `msg`. -/
  behind : Octets
  /-- `sendto` sends all of it. -/
  sends : Bool

/-- A datagram was read. -/
structure Heard where
  rxb : List Byte
  /-- A socket can be connected to where it came from. -/
  connects : Bool

/-- What one turn of the loop meets. -/
structure Turn where
  due : Option Due
  heard : Option Heard

inductive Found
  /-- The loop goes on. -/
  | waits
  | fails
  /-- This datagram was taken for the answer. -/
  | connected (rxb : List Byte)

/-- The counter, what was stored into `msg`, by offset and length, and the queries that were
sent, oldest first. -/
structure Search where
  seq : Word
  stores : List (Nat × Nat)
  sent : List (List Byte)

/-- The octets that `sendto` takes from `msg`, and from behind it. -/
def NodeName.datagram (name : NodeName) (seq : Word) (behind : Octets) : List Byte :=
  ((query (name.octets.take name.msglen)).octets seq).take NB_MSG_MAX ++
    slice behind 0 (name.msglen + NB_MSG_MIN - NB_MSG_MAX)

def Search.ask (s : Search) (name : NodeName) (d : Due) : Search where
  seq := s.seq + 1
  stores := s.stores ++ [(8, 4)]
  sent := if d.sends then s.sent ++ [name.datagram (s.seq + 1) d.behind] else s.sent

/-- The datagram that ends the wait. -/
def Turn.answer (turn : Turn) (seq : Word) : Option (List Byte) :=
  match turn.heard with
  | none => none
  | some h => if Locates seq h.rxb ∧ h.connects then some h.rxb else none

/-- The end of a turn, and the turns behind it. -/
def Turn.ends (turn : Turn) (s : Search) (next : Found × Search) : Found × Search :=
  match turn.answer s.seq with
  | some rxb => (.connected rxb, s)
  | none => next

def open_node_loop (name : NodeName) : List Turn → Search → Found × Search
  | [], s => (.waits, s)
  | turn :: turns, s =>
    match turn.due with
    | none => turn.ends s (open_node_loop name turns s)
    | some d =>
      if d.sends then turn.ends (s.ask name d) (open_node_loop name turns (s.ask name d))
      else (.fails, s.ask name d)

/-- `msg` is filled, and the name is copied into it. -/
def Search.start (name : NodeName) (seq : Word) : Search where
  seq := seq
  stores := [(0, NB_MSG_MAX), (16, name.msglen)]
  sent := []

def open_node (opened : Bool) (seq : Word) (name : NodeName) (turns : List Turn) :
    Found × Search :=
  if opened ∧ name.msglen ≤ NB_MSG_MAX then open_node_loop name turns (.start name seq)
  else (.fails, { seq := seq, stores := [], sent := [] })

/-! ## Safe queries -/

/-- A loader takes it on the query port when it has the name, and only then. -/
def Finds (name : NodeName) (d : List Byte) : Prop :=
  ∀ L : Loader, command L NB_PORT_QUERY d = .query ↔ L.nodename = name.octets

/-- What was stored into `msg` is inside of it. -/
def Search.Inside (s : Search) : Prop := ∀ p ∈ s.stores, p.1 + p.2 ≤ NB_MSG_MAX

structure SafeSearch (name : NodeName) (r : Found × Search) : Prop where
  queries : (r.1 = .fails ∧ r.2.sent = []) ∨
    ∀ d ∈ r.2.sent, r.2.Inside ∧ d.length ≤ NB_MSG_MAX ∧ Finds name d
  connected : ∀ rxb, r.1 = .connected rxb →
    ∃ d, r.2.sent.getLast? = some d ∧ Locates (field32 d 8) rxb

/-- No datagram ends the wait before the first query. -/
def NoneBefore (seq : Word) : List Turn → Prop
  | [] => True
  | turn :: turns => turn.due = none → turn.answer seq = none ∧ NoneBefore seq turns

/-- The first query does not go out, or there is none. -/
def Unsent : List Turn → Prop
  | [] => True
  | turn :: turns =>
    match turn.due with
    | none => Unsent turns
    | some d => d.sends = false

section

variable {name : NodeName} {s : Search} {seq : Word} {turns : List Turn} {turn : Turn}

/-! ## The datagram -/

theorem msglen_le (name : NodeName) : name.msglen ≤ name.octets.length := by
  rw [NodeName.msglen, BitVec.toNat_ofNat]
  exact Nat.mod_le _ _

theorem msglen_eq (h : name.octets.length ≤ 1024) : name.msglen = name.octets.length := by
  rw [NodeName.msglen, BitVec.toNat_ofNat, Nat.mod_eq_of_lt (by omega)]

theorem datagram_length (name : NodeName) (seq : Word) (behind : Octets)
    (h : name.msglen ≤ NB_MSG_MAX) : (name.datagram seq behind).length = 16 + name.msglen := by
  have hle := msglen_le name
  simp only [NodeName.datagram, NB_MSG_MAX, NB_MSG_MIN, List.length_append, List.length_take,
    msg_length, query, slice_length] at *
  omega

/-- A name that fits leaves nothing of the stack in the datagram. -/
theorem datagram_eq (h : name.msglen ≤ 1024) (seq : Word) (behind : Octets) :
    name.datagram seq behind = (query (name.octets.take name.msglen)).octets seq := by
  have hbehind : name.msglen + NB_MSG_MIN - NB_MSG_MAX = 0 := by
    simp only [NB_MSG_MIN, NB_MSG_MAX]
    omega
  have hlen : ((query (name.octets.take name.msglen)).octets seq).length ≤ NB_MSG_MAX := by
    simp only [msg_length, query, List.length_take, NB_MSG_MAX]
    omega
  rw [NodeName.datagram, hbehind, slice_zero, List.append_nil, List.take_of_length_le hlen]

theorem datagram_seq (h : name.msglen ≤ 1024) (seq : Word) (behind : Octets) :
    field32 (name.datagram seq behind) 8 = seq := by
  rw [datagram_eq h, octets_seq]

/-- On the query port the octets after the header are held against the name. -/
theorem datagram_accepted (h : name.msglen ≤ 1024) (seq : Word) (behind : Octets) (L : Loader) :
    command L NB_PORT_QUERY (name.datagram seq behind) = .query ↔
      L.nodename = name.octets.take name.msglen := by
  have hw : WellFormed (name.datagram seq behind) := by
    have hlen := datagram_length name seq behind (h.trans (Nat.le_add_left _ _))
    refine ⟨by omega, by omega, ?_⟩
    rw [datagram_eq h, octets_magic]
  have hasks : AsksFor L (name.datagram seq behind) ↔
      L.nodename = name.octets.take name.msglen := by
    rw [datagram_eq h, AsksFor, octets_cmd, octets_db]
    exact ⟨fun e => e.2.symm, fun e => ⟨rfl, e.symm⟩⟩
  rw [command_on_query_port hw, ← hasks]
  split
  · exact iff_of_true rfl ‹_›
  · exact iff_of_false (by simp) ‹_›

theorem datagram_finds (h : name.octets.length ≤ 1024) (seq : Word) (behind : Octets) :
    Finds name (name.datagram seq behind) := by
  intro L
  have hlen := msglen_eq h
  rw [datagram_accepted (by omega), hlen, List.take_length]

/-! ## A name that fits -/

/-- The queries so far are safe, and the last one carries the counter. -/
structure Asked (name : NodeName) (s : Search) : Prop where
  inside : s.Inside
  sent : ∀ d ∈ s.sent, d.length ≤ NB_MSG_MAX ∧ Finds name d
  last : ∃ d, s.sent.getLast? = some d ∧ field32 d 8 = s.seq

theorem Turn.answer_locates {rxb : List Byte} (h : turn.answer seq = some rxb) :
    Locates seq rxb := by
  unfold Turn.answer at h
  split at h
  · exact nomatch h
  · split at h
    · rename_i hl
      exact Option.some.inj h ▸ hl.1
    · exact nomatch h

theorem inside_ask (h : s.Inside) (name : NodeName) (d : Due) : (s.ask name d).Inside := by
  intro p hp
  obtain hp | hp := List.mem_append.mp hp
  · exact h p hp
  · rw [List.mem_singleton.mp hp, NB_MSG_MAX]
    omega

theorem sound_ask (h : name.octets.length ≤ 1024) (hs : s.Inside)
    (hsent : ∀ d ∈ s.sent, d.length ≤ NB_MSG_MAX ∧ Finds name d) {d : Due} (hd : d.sends) :
    Asked name (s.ask name d) := by
  have hlen := msglen_eq h
  have heq : (s.ask name d).sent = s.sent ++ [name.datagram (s.seq + 1) d.behind] := if_pos hd
  have hlast : (s.ask name d).sent.getLast? = some (name.datagram (s.seq + 1) d.behind) := by
    rw [heq, List.getLast?_concat]
  refine ⟨inside_ask hs name d, ?_, _, hlast, datagram_seq (by omega) _ _⟩
  intro d' hd'
  rw [heq] at hd'
  obtain hd' | hd' := List.mem_append.mp hd'
  · exact hsent d' hd'
  · rw [List.mem_singleton.mp hd', NB_MSG_MAX,
      datagram_length name _ _ (by rw [NB_MSG_MAX]; omega)]
    exact ⟨by omega, datagram_finds h _ _⟩

theorem Asked.safe (g : Asked name s) {r : Found}
    (hr : ∀ rxb, r = .connected rxb → Locates s.seq rxb) : SafeSearch name (r, s) := by
  refine ⟨.inr fun d hd => ⟨g.inside, g.sent d hd⟩, fun rxb h => ?_⟩
  obtain ⟨d, hlast, hseq⟩ := g.last
  exact ⟨d, hlast, hseq ▸ hr rxb h⟩

theorem Asked.ends (g : Asked name s) (turn : Turn) {next : Found × Search}
    (hnext : SafeSearch name next) : SafeSearch name (turn.ends s next) := by
  unfold Turn.ends
  split
  · rename_i rxb h
    apply g.safe
    rintro _ ⟨rfl⟩
    exact Turn.answer_locates h
  · exact hnext

/-- The query that was not sent changes only the counter. -/
theorem Asked.refused (g : Asked name s) {d : Due} (hd : ¬ d.sends) :
    SafeSearch name (.fails, s.ask name d) := by
  have heq : (s.ask name d).sent = s.sent := if_neg hd
  refine ⟨.inr fun d' hd' => ?_, fun _ h => nomatch h⟩
  rw [heq] at hd'
  exact ⟨inside_ask g.inside name d, g.sent d' hd'⟩

/-- Behind the first query. -/
theorem Asked.loop (h : name.octets.length ≤ 1024) (g : Asked name s) :
    SafeSearch name (open_node_loop name turns s) := by
  induction turns generalizing s with
  | nil => exact g.safe fun _ hr => nomatch hr
  | cons turn turns ih =>
    rw [open_node_loop]
    split
    · exact g.ends turn (ih g)
    · rename_i d _
      by_cases hd : d.sends
      · have g' := sound_ask h g.inside g.sent hd
        rw [if_pos hd]
        exact g'.ends turn (ih g')
      · rw [if_neg hd]
        exact g.refused hd

/-! ## Before the first query -/

theorem ends_none {next : Found × Search} (h : turn.answer s.seq = none) :
    turn.ends s next = next := by
  rw [Turn.ends, h]

theorem loop_safe_short (h : name.octets.length ≤ 1024) (hs : s.Inside) (h0 : s.sent = [])
    (hbefore : NoneBefore s.seq turns) : SafeSearch name (open_node_loop name turns s) := by
  induction turns with
  | nil => exact ⟨.inr (by simp [open_node_loop, h0]), fun _ hr => nomatch hr⟩
  | cons turn turns ih =>
    rw [open_node_loop]
    split
    · rename_i hdue
      obtain ⟨hanswer, hrest⟩ := hbefore hdue
      rw [ends_none hanswer]
      exact ih hrest
    · rename_i d _
      by_cases hd : d.sends
      · have g' := sound_ask h hs (by simp [h0]) hd
        rw [if_pos hd]
        exact g'.ends turn (g'.loop h)
      · rw [if_neg hd]
        exact ⟨.inl ⟨rfl, (if_neg hd).trans h0⟩, fun _ hr => nomatch hr⟩

theorem loop_safe_unsent (h0 : s.sent = []) (hbefore : NoneBefore s.seq turns)
    (hun : Unsent turns) : SafeSearch name (open_node_loop name turns s) := by
  induction turns with
  | nil => exact ⟨.inr (by simp [open_node_loop, h0]), fun _ hr => nomatch hr⟩
  | cons turn turns ih =>
    rw [open_node_loop]
    rw [Unsent] at hun
    split
    · rename_i hdue
      obtain ⟨hanswer, hrest⟩ := hbefore hdue
      rw [hdue] at hun
      rw [ends_none hanswer]
      exact ih hrest hun
    · rename_i d hdue
      rw [hdue] at hun
      have hd : ¬ d.sends := by simp [show d.sends = false from hun]
      rw [if_neg hd]
      exact ⟨.inl ⟨rfl, (if_neg hd).trans h0⟩, fun _ hr => nomatch hr⟩

/-- An answer to no query at all ends the wait. -/
theorem SafeSearch.none_before (h0 : s.sent = [])
    (h : SafeSearch name (open_node_loop name turns s)) : NoneBefore s.seq turns := by
  induction turns with
  | nil => trivial
  | cons turn turns ih =>
    intro hdue
    rw [open_node_loop, hdue] at h
    cases hanswer : turn.answer s.seq with
    | none => exact ⟨rfl, ih (by rwa [ends_none hanswer] at h)⟩
    | some rxb =>
      rw [Turn.ends, hanswer] at h
      obtain ⟨d, hlast, -⟩ := h.connected rxb rfl
      rw [h0] at hlast
      exact nomatch hlast

/-- What was sent stays sent. -/
theorem loop_sent (turns : List Turn) (s : Search) :
    s.sent ⊆ (open_node_loop name turns s).2.sent := by
  have hask (s : Search) (d : Due) : s.sent ⊆ (s.ask name d).sent := by
    unfold Search.ask
    split
    · exact List.subset_append_left _ _
    · exact List.Subset.refl _
  have hends (turn : Turn) {s : Search} {next : Found × Search} (h : s.sent ⊆ next.2.sent) :
      s.sent ⊆ (turn.ends s next).2.sent := by
    unfold Turn.ends
    split
    · exact List.Subset.refl _
    · exact h
  induction turns generalizing s with
  | nil => exact List.Subset.refl _
  | cons turn turns ih =>
    rw [open_node_loop]
    split
    · exact hends turn (ih s)
    · rename_i d _
      split
      · exact List.Subset.trans (hask s d) (hends turn (ih _))
      · exact hask s d

/-- A first query that goes out. -/
theorem loop_first (hbefore : NoneBefore s.seq turns) (hun : ¬ Unsent turns) :
    ∃ behind, name.datagram (s.seq + 1) behind ∈ (open_node_loop name turns s).2.sent := by
  induction turns with
  | nil => exact absurd trivial hun
  | cons turn turns ih =>
    rw [open_node_loop]
    rw [Unsent] at hun
    split
    · rename_i hdue
      obtain ⟨hanswer, hrest⟩ := hbefore hdue
      rw [hdue] at hun
      rw [ends_none hanswer]
      exact ih hrest hun
    · rename_i d hdue
      rw [hdue] at hun
      have hd : d.sends := by simpa using hun
      rw [if_pos hd]
      refine ⟨d.behind, ?_⟩
      have hmem : name.datagram (s.seq + 1) d.behind ∈ (s.ask name d).sent := by
        simp [Search.ask, hd]
      unfold Turn.ends
      split
      · exact hmem
      · exact loop_sent turns _ hmem

/-! ## The law -/

/-- A loader with a name. -/
def Loader.named (nodename : List Byte) (nonzero : ∀ b ∈ nodename, b ≠ 0)
    (counted : nodename.length < 2 ^ 31 - 6) : Loader where
  nodename := nodename
  nonzero := nonzero
  counted := counted
  rxbuf_at := 0
  own := fun _ => True
  rxbuf_own := fun _ _ => trivial

/-- A query that is accepted as it should be has the whole name in it. -/
theorem datagram_short {behind : Octets} (hmax : name.msglen ≤ NB_MSG_MAX)
    (hlen : (name.datagram seq behind).length ≤ NB_MSG_MAX)
    (hfinds : Finds name (name.datagram seq behind)) : name.octets.length ≤ 1024 := by
  rw [datagram_length name seq behind hmax, NB_MSG_MAX] at hlen
  have hfits : name.msglen ≤ 1024 := by omega
  have htake : (name.octets.take name.msglen).length ≤ 1024 :=
    (List.length_take_le _ _).trans hfits
  let L : Loader := .named (name.octets.take name.msglen)
    (fun b hb => name.nonzero b (List.mem_of_mem_take hb)) (by omega)
  have hname : L.nodename = name.octets :=
    (hfinds L).mp ((datagram_accepted hfits seq behind L).mpr rfl)
  rw [← hname]
  exact htake

theorem SafeSearch.short_or_unsent (hmax : name.msglen ≤ NB_MSG_MAX)
    (h : SafeSearch name (open_node_loop name turns (.start name seq)))
    (hbefore : NoneBefore seq turns) : name.octets.length ≤ 1024 ∨ Unsent turns := by
  by_contra hn
  obtain ⟨hlong, hun⟩ := not_or.mp hn
  obtain ⟨behind, hmem⟩ := @loop_first name (.start name seq) turns hbefore hun
  obtain ⟨-, hnone⟩ | hall := h.queries
  · rw [hnone] at hmem
    exact nomatch hmem
  · obtain ⟨-, hlen, hfinds⟩ := hall _ hmem
    exact hlong (datagram_short hmax hlen hfinds)

theorem start_inside (h : name.octets.length ≤ 1024) : (Search.start name seq).Inside := by
  have hlen := msglen_eq h
  simp only [Search.Inside, Search.start, List.mem_cons, List.not_mem_nil, or_false, NB_MSG_MAX,
    forall_eq_or_imp, forall_eq]
  omega

/-- The search is safe when it does not begin, when the name fits the data of a message, or when
the name is never sent, and no status with the counter's value comes before the first query. Else
it is not. -/
theorem open_node_safe_iff (opened : Bool) (seq : Word) (name : NodeName) (turns : List Turn) :
    SafeSearch name (open_node opened seq name turns) ↔
      opened = false ∨ NB_MSG_MAX < name.msglen ∨
        NoneBefore seq turns ∧ (name.octets.length ≤ 1024 ∨ Unsent turns) := by
  by_cases hbegin : opened ∧ name.msglen ≤ NB_MSG_MAX
  · rw [open_node, if_pos hbegin]
    obtain ⟨rfl, hmax⟩ := hbegin
    constructor
    · intro h
      have hbefore := h.none_before rfl
      exact .inr (.inr ⟨hbefore, h.short_or_unsent hmax hbefore⟩)
    · rintro (h | h | ⟨hbefore, h | h⟩)
      · exact nomatch h
      · exact absurd hmax (Nat.not_le.mpr h)
      · exact loop_safe_short h (start_inside h) rfl hbefore
      · exact loop_safe_unsent rfl hbefore h
  · rw [open_node, if_neg hbegin]
    refine iff_of_true ⟨.inl ⟨rfl, rfl⟩, fun _ h => nomatch h⟩ ?_
    cases opened with
    | false => exact .inl rfl
    | true => exact .inr (.inl (Nat.not_le.mp fun h => hbegin ⟨rfl, h⟩))

/-- A name one octet longer than the data of a message. -/
def a_long_name : NodeName where
  octets := List.replicate 1025 0x61
  nonzero := fun _ hb => by rw [List.eq_of_mem_replicate hb]; decide

def a_short_name : NodeName where
  octets := device_name
  nonzero := by decide

/-- A status with the value that the counter has at first. -/
def an_early_status : List Byte :=
  ({ cmd := NB_CMD_STATUS, arg := NB_OK, db := [] } : Msg).octets 1

/-- The first name is sent whole, and for the second one a status is taken that no query asked
for. -/
theorem a_long_name_and_an_early_status :
    ¬ SafeSearch a_long_name
      (open_node true 1 a_long_name [{ due := some ⟨fun _ => 0, true⟩, heard := none }]) ∧
    ¬ SafeSearch a_short_name
      (open_node true 1 a_short_name [{ due := none, heard := some ⟨an_early_status, true⟩ }]) := by
  constructor
  · intro h
    have hlen : a_long_name.octets.length = 1025 := List.length_replicate
    have hmax : a_long_name.msglen ≤ NB_MSG_MAX :=
      (msglen_le _).trans (by rw [hlen, NB_MSG_MAX]; decide)
    rw [open_node, if_pos ⟨rfl, hmax⟩] at h
    obtain hshort | hun := h.short_or_unsent hmax (fun hdue => nomatch hdue)
    · omega
    · exact nomatch (show true = false from hun)
  · intro h
    have hmax : a_short_name.msglen ≤ NB_MSG_MAX := (msglen_le _).trans (by decide)
    rw [open_node, if_pos ⟨rfl, hmax⟩] at h
    obtain ⟨hanswer, -⟩ := h.none_before rfl rfl
    have hlocates : Locates 1 an_early_status := by decide
    have htaken : Turn.answer ⟨none, some ⟨an_early_status, true⟩⟩ 1 = some an_early_status := by
      simp only [Turn.answer]
      exact if_pos ⟨hlocates, trivial⟩
    exact nomatch htaken.symm.trans hanswer

end

end os_workshop.netboot
