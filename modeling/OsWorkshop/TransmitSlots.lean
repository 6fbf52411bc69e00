-- The transmit path of the loader (eth_tx and eth_init of src/boot/netboot.c)
-- beside the Ethernet MAC, which sends the slots that were started one after
-- another and at its own pace.
import OsWorkshop.Ipv6Tx
import OsWorkshop.MemoryRanges
import OsWorkshop.Runs

open os_workshop.memory (Byte Word Mem Holds write dist)
open os_workshop.octets (part)
open os_workshop.runs

namespace os_workshop.ethmac

/-! ## The slots (src/hw/inc/hw/platform.h) -/

def ETHMAC_SRAM_BASE : Word := 0xE0000000
def ETHMAC_SLOT_SIZE : Word := 0x800
def ETHMAC_RX_SLOTS : Word := 2
def ETHMAC_TX_SLOTS : Word := 2

/-- Where a transmit slot begins. -/
def slot_at (slot : Word) : Word := ETHMAC_SRAM_BASE + ETHMAC_SLOT_SIZE * (ETHMAC_RX_SLOTS + slot)

/-! ## The system -/

/-- Where the loader is in `eth_tx`, with the frame that it was called with. -/
inductive Pc
  /-- It is not in `eth_tx`. -/
  | idle
  /-- It waits for `RD_READY`. -/
  | poll (txb : List Byte)
  /-- It has copied so many octets. -/
  | copy (txb : List Byte) (i : Nat)
  | rd_slot (txb : List Byte)
  | rd_len (txb : List Byte)
  | rd_start (txb : List Byte)
  /-- It has started the slot. -/
  | toggle

structure System where
  pc : Pc
  txslot : Word
  sram : Mem
  /-- The registers `RD_SLOT` and `RD_LEN`. -/
  RD_SLOT : Word
  RD_LEN : Word
  /-- The slots that were started and are not sent yet, with their lengths. -/
  queue : List (Word × Word)
  /-- What the MAC has read of the first of them. -/
  fetched : List Byte
  /-- The frames that were sent, oldest first. -/
  wire : List (List Byte)

/-- After `eth_init`, with a MAC that has nothing to send. -/
def System.start (sram : Mem) (RD_LEN : Word) : System where
  pc := .idle
  txslot := 0
  sram := sram
  RD_SLOT := 0
  RD_LEN := RD_LEN
  queue := []
  fetched := []
  wire := []

inductive Event
  /-- `eth_tx` is called. -/
  | call (txb : List Byte)
  /-- The loader writes to the memory. -/
  | store (a : Word) (bs : List Byte)
  /-- A register of the MAC, or a variable of the loader. -/
  | internal
  /-- The MAC reads an octet of a slot. -/
  | fetch
  | sent (frame : List Byte)

/-- One step of the loader or of the MAC. -/
inductive Step : Steps System Event
  | drop {s : System} {txb : List Byte} :
      s.pc = .idle → 1534 < txb.length → Step s (.call txb) s
  | call {s : System} {txb : List Byte} :
      s.pc = .idle → txb.length ≤ 1534 → Step s (.call txb) { s with pc := .poll txb }
  /-- `RD_READY` reads as 0 at any time. -/
  | busy {s : System} {txb : List Byte} : s.pc = .poll txb → Step s .internal s
  /-- It reads as 1 only while there is room for another frame. -/
  | ready {s : System} {txb : List Byte} :
      s.pc = .poll txb → s.queue.length < 2 → Step s .internal { s with pc := .copy txb 0 }
  /-- `memcpy` goes upwards, by octets and by words. -/
  | copy {s : System} {txb : List Byte} {i n : Nat} :
      s.pc = .copy txb i → 0 < n → i + n ≤ txb.length →
      Step s (.store (slot_at s.txslot + BitVec.ofNat 32 i) (part txb i n))
        { s with
          pc := .copy txb (i + n)
          sram := write s.sram (slot_at s.txslot + BitVec.ofNat 32 i) (part txb i n) }
  | copied {s : System} {txb : List Byte} :
      s.pc = .copy txb txb.length → Step s .internal { s with pc := .rd_slot txb }
  | rd_slot {s : System} {txb : List Byte} :
      s.pc = .rd_slot txb → Step s .internal { s with pc := .rd_len txb, RD_SLOT := s.txslot }
  | rd_len {s : System} {txb : List Byte} :
      s.pc = .rd_len txb →
      Step s .internal { s with pc := .rd_start txb, RD_LEN := BitVec.ofNat 32 txb.length }
  | rd_start {s : System} {txb : List Byte} :
      s.pc = .rd_start txb →
      Step s .internal { s with pc := .toggle, queue := s.queue ++ [(s.RD_SLOT, s.RD_LEN)] }
  | toggle {s : System} :
      s.pc = .toggle → Step s .internal { s with pc := .idle, txslot := s.txslot ^^^ 1 }
  | fetch {s : System} {slot len : Word} {queue : List (Word × Word)} :
      s.queue = (slot, len) :: queue → s.fetched.length < len.toNat →
      Step s .fetch { s with
        fetched := s.fetched ++ [s.sram (slot_at slot + BitVec.ofNat 32 s.fetched.length)] }
  | sent {s : System} {slot len : Word} {queue : List (Word × Word)} :
      s.queue = (slot, len) :: queue → s.fetched.length = len.toNat →
      Step s (.sent s.fetched)
        { s with queue := queue, fetched := [], wire := s.wire ++ [s.fetched] }

/-! ## Frames -/

def calls (es : List Event) : List (List Byte) :=
  es.filterMap fun
    | .call txb => some txb
    | _ => none

/-- The frames that are not dropped. -/
def accepted (fs : List (List Byte)) : List (List Byte) := fs.filter (·.length ≤ 1534)

/-- The frame of the call that is not started yet. -/
def Pc.current : Pc → List (List Byte)
  | .idle | .toggle => []
  | .poll txb | .copy txb _ | .rd_slot txb | .rd_len txb | .rd_start txb => [txb]

/-- The slot of the frame `n`. -/
def slot_of (n : Nat) : Word := BitVec.ofNat 32 (n % 2)

/-- The queue for frames of which the first is the frame `n`. -/
def queued : Nat → List (List Byte) → List (Word × Word)
  | _, [] => []
  | n, f :: fs => (slot_of n, BitVec.ofNat 32 f.length) :: queued (n + 1) fs

/-! ## The invariant -/

/-- What the loader has done for its call, when `n` frames were started. -/
def System.Progress (s : System) (n : Nat) : Prop :=
  match s.pc with
  | .idle => s.txslot = slot_of n
  | .poll txb => s.txslot = slot_of n ∧ txb.length ≤ 1534
  | .copy txb i => s.txslot = slot_of n ∧ txb.length ≤ 1534 ∧ s.queue.length < 2 ∧ i ≤ txb.length ∧
      Holds s.sram (slot_at (slot_of n)) (txb.take i)
  | .rd_slot txb => s.txslot = slot_of n ∧ txb.length ≤ 1534 ∧ s.queue.length < 2 ∧
      Holds s.sram (slot_at (slot_of n)) txb
  | .rd_len txb => s.txslot = slot_of n ∧ txb.length ≤ 1534 ∧ s.queue.length < 2 ∧
      Holds s.sram (slot_at (slot_of n)) txb ∧ s.RD_SLOT = slot_of n
  | .rd_start txb => s.txslot = slot_of n ∧ txb.length ≤ 1534 ∧ s.queue.length < 2 ∧
      Holds s.sram (slot_at (slot_of n)) txb ∧ s.RD_SLOT = slot_of n ∧
      s.RD_LEN = BitVec.ofNat 32 txb.length
  | .toggle => ∃ k, n = k + 1 ∧ s.txslot = slot_of k

/-- The frames `fs` are in the slots of the queue. -/
structure Good (es : List Event) (s : System) (fs : List (List Byte)) : Prop where
  calls : accepted (calls es) = s.wire ++ fs ++ s.pc.current
  queue : s.queue = queued s.wire.length fs
  full : fs.length ≤ 2
  small : ∀ f ∈ fs, f.length ≤ 1534
  held : ∀ i f, fs[i]? = some f → Holds s.sram (slot_at (slot_of (s.wire.length + i))) f
  fetched : s.fetched <+: fs.headD []
  progress : s.Progress (s.wire.length + fs.length)

/-! ## Slots -/

theorem slot_of_cases (n : Nat) :
    (n % 2 = 0 ∧ slot_of n = 0) ∨ (n % 2 = 1 ∧ slot_of n = 1) := by
  obtain h | h := Nat.mod_two_eq_zero_or_one n
  · exact .inl ⟨h, by rw [slot_of, h]; rfl⟩
  · exact .inr ⟨h, by rw [slot_of, h]; rfl⟩

theorem slot_of_next (n : Nat) : slot_of n ^^^ 1 = slot_of (n + 1) := by
  obtain ⟨h, e⟩ | ⟨h, e⟩ := slot_of_cases n <;>
    obtain ⟨h', e'⟩ | ⟨h', e'⟩ := slot_of_cases (n + 1)
  · omega
  · rw [e, e']; rfl
  · rw [e, e']; rfl
  · omega

/-- What is written into the slot of the next frame is outside the slot of this one. -/
theorem slots_apart (n : Nat) {i j k : Nat} (hi : i + k ≤ 1534) (hj : j < 0x800) :
    k ≤ dist (slot_at (slot_of (n + 1)) + BitVec.ofNat 32 i)
      (slot_at (slot_of n) + BitVec.ofNat 32 j) := by
  have h0 : slot_at 0 = 0xE0001000#32 := rfl
  have h1 : slot_at 1 = 0xE0001800#32 := rfl
  unfold memory.dist
  obtain ⟨h, e⟩ | ⟨h, e⟩ := slot_of_cases n <;>
    obtain ⟨h', e'⟩ | ⟨h', e'⟩ := slot_of_cases (n + 1)
  · omega
  · rw [e, e', h0, h1]
    bv_omega
  · rw [e, e', h0, h1]
    bv_omega
  · omega

/-! ## The queue -/

@[simp] theorem queued_length (n : Nat) (fs : List (List Byte)) :
    (queued n fs).length = fs.length := by
  induction fs generalizing n with
  | nil => rfl
  | cons f fs ih => simp [queued, ih]

theorem queued_append (n : Nat) (fs : List (List Byte)) (f : List Byte) :
    queued n (fs ++ [f]) =
      queued n fs ++ [(slot_of (n + fs.length), BitVec.ofNat 32 f.length)] := by
  induction fs generalizing n with
  | nil => rfl
  | cons g fs ih =>
    have hn : n + 1 + fs.length = n + (g :: fs).length := Nat.add_right_comm n 1 fs.length
    simp only [queued, List.cons_append, ih, hn]

theorem accepted_append (es : List Event) (e : Event) :
    accepted (calls (es ++ [e])) = accepted (calls es) ++ accepted (calls [e]) := by
  simp [calls, accepted, List.filterMap_append]

/-- An event that is no call. -/
theorem accepted_same {es : List Event} {e : Event} (h : calls [e] = []) :
    accepted (calls (es ++ [e])) = accepted (calls es) := by
  rw [accepted_append, h]
  exact List.append_nil _

/-! ## What each step keeps -/

section

variable {es : List Event} {s t : System} {fs : List (List Byte)} {f : List Byte} {n : Nat}

theorem Good.start (sram : Mem) (RD_LEN : Word) : Good [] (.start sram RD_LEN) [] where
  calls := rfl
  queue := rfl
  full := Nat.zero_le _
  small := by simp
  held := by simp
  fetched := List.nil_prefix
  progress := rfl

theorem Good.length (g : Good es s fs) : s.queue.length = fs.length := by
  rw [g.queue, queued_length]

/-- The MAC only makes room. -/
theorem System.Progress.room (h : s.Progress n) {queue : List (Word × Word)}
    {fetched : List Byte} {wire : List (List Byte)} (hq : queue.length ≤ s.queue.length) :
    System.Progress { s with queue := queue, fetched := fetched, wire := wire } n := by
  obtain ⟨pc, txslot, sram, slot, len, queue₀, fetched₀, wire₀⟩ := s
  cases pc with
  | idle | poll _ | toggle => exact h
  | copy txb i =>
    obtain ⟨h1, h2, h3, h4⟩ := h
    exact ⟨h1, h2, hq.trans_lt h3, h4⟩
  | rd_slot txb | rd_len txb | rd_start txb =>
    obtain ⟨h1, h2, h3, h4⟩ := h
    exact ⟨h1, h2, hq.trans_lt h3, h4⟩

/-- A step of the loader that starts nothing and writes nothing. -/
theorem Good.moves (g : Good es s fs) {e : Event} {pc : Pc} {txslot slot len : Word}
    (hcalls : accepted (ethmac.calls (es ++ [e])) = s.wire ++ fs ++ pc.current)
    (hp : System.Progress { s with pc := pc, txslot := txslot, RD_SLOT := slot, RD_LEN := len }
      (s.wire.length + fs.length)) :
    Good (es ++ [e]) { s with pc := pc, txslot := txslot, RD_SLOT := slot, RD_LEN := len } fs where
  calls := hcalls
  queue := g.queue
  full := g.full
  small := g.small
  held := g.held
  fetched := g.fetched
  progress := hp

/-- The accepted calls do not change where the frame of the call does not. -/
theorem Good.quiet (g : Good es s fs) {e : Event} {cs : List (List Byte)}
    (he : ethmac.calls [e] = []) (hpc : s.pc.current = cs) :
    accepted (ethmac.calls (es ++ [e])) = s.wire ++ fs ++ cs := by
  rw [accepted_same he, g.calls, hpc]

theorem Good.drop (g : Good es s fs) (h : 1534 < f.length) : Good (es ++ [.call f]) s fs := by
  have hcalls : accepted (ethmac.calls (es ++ [.call f])) = accepted (ethmac.calls es) := by
    rw [accepted_append]
    simp [ethmac.calls, accepted, h]
  exact { g with calls := hcalls.trans g.calls }

theorem Good.call (g : Good es s fs) (hpc : s.pc = .idle) (h : f.length ≤ 1534) :
    Good (es ++ [.call f]) { s with pc := .poll f } fs := by
  have hcalls : accepted (ethmac.calls (es ++ [.call f])) = s.wire ++ fs ++ [f] := by
    rw [accepted_append, g.calls, hpc]
    simp [ethmac.calls, accepted, h, Pc.current]
  have hp := g.progress
  rw [System.Progress, hpc] at hp
  exact g.moves hcalls ⟨hp, h⟩

/-- A piece of the frame reaches the slot that the MAC does not read. -/
theorem Good.copy (g : Good es s fs) {i k : Nat} (hpc : s.pc = .copy f i)
    (hi : i + k ≤ f.length) :
    Good (es ++ [.store (slot_at s.txslot + BitVec.ofNat 32 i) (part f i k)])
      { s with
        pc := .copy f (i + k)
        sram := write s.sram (slot_at s.txslot + BitVec.ofNat 32 i) (part f i k) } fs := by
  have hp := g.progress
  rw [System.Progress, hpc] at hp
  obtain ⟨hslot, hf, hroom, _, hdone⟩ := hp
  have hlen := octets.part_length f i k hi
  have hfs := g.length
  refine
    { calls := g.quiet rfl (by rw [hpc]; rfl), queue := g.queue, full := g.full, small := g.small,
      held := ?_, fetched := g.fetched, progress := ⟨hslot, hf, hroom, hi, ?_⟩ }
  · intro j f' hj
    have hlt := (List.getElem?_eq_some_iff.mp hj).1
    obtain rfl : j = 0 := by omega
    have hone : fs.length = 1 := by omega
    have hsmall := g.small f' (List.mem_of_getElem? hj)
    apply (g.held 0 f' hj).write_apart
    intro l hl
    rw [hslot, hlen, hone]
    exact slots_apart s.wire.length (by omega) (by omega)
  · rw [hslot]
    have htake : f.take (i + k) = f.take i ++ part f i k := List.take_add
    have hti : (f.take i).length = i := by rw [List.length_take]; omega
    have hfits : (f.take i).length + (part f i k).length ≤ 2 ^ 32 := by omega
    have hnext := hdone.write_behind hfits
    rwa [hti, ← htake] at hnext

/-- The frame joins the queue: there is room, and its slot holds it. -/
theorem Good.rd_start (g : Good es s fs) (hpc : s.pc = .rd_start f) :
    Good (es ++ [.internal])
      { s with pc := .toggle, queue := s.queue ++ [(s.RD_SLOT, s.RD_LEN)] } (fs ++ [f]) := by
  have hp := g.progress
  rw [System.Progress, hpc] at hp
  obtain ⟨hslot, hf, hroom, hholds, hRD_SLOT, hRD_LEN⟩ := hp
  have hfs := g.length
  have hcalls : accepted (ethmac.calls (es ++ [.internal])) = s.wire ++ fs ++ [f] :=
    g.quiet rfl (by rw [hpc]; rfl)
  refine
    { calls := ?_, queue := ?_, full := ?_, small := ?_, held := ?_, fetched := ?_,
      progress := ⟨s.wire.length + fs.length, ?_, hslot⟩ }
  · rw [hcalls]
    simp [Pc.current]
  · rw [queued_append, ← g.queue, hRD_SLOT, hRD_LEN]
  · rw [List.length_append, List.length_singleton]
    omega
  · intro f' h
    obtain h | h := List.mem_append.mp h
    · exact g.small f' h
    · rwa [List.mem_singleton.mp h]
  · intro i f' h
    by_cases hi : i < fs.length
    · rw [List.getElem?_append_left hi] at h
      exact g.held i f' h
    · have hlt := (List.getElem?_eq_some_iff.mp h).1
      rw [List.length_append, List.length_singleton] at hlt
      obtain rfl : i = fs.length := by omega
      obtain rfl : f = f' := by simpa using h
      exact hholds
  · have hfetched := g.fetched
    cases fs with
    | nil =>
      rw [List.prefix_nil.mp hfetched]
      exact List.nil_prefix
    | cons f' fs => exact hfetched
  · rw [List.length_append, List.length_singleton]
    rfl

/-- The first of the frames, as the MAC sees it. -/
theorem Good.first (g : Good es s fs) {slot len : Word} {queue : List (Word × Word)}
    (hq : s.queue = (slot, len) :: queue) :
    ∃ f fs', fs = f :: fs' ∧ slot = slot_of s.wire.length ∧ len.toNat = f.length ∧
      queue = queued (s.wire.length + 1) fs' ∧ s.fetched <+: f := by
  have hqueue := g.queue
  have hfetched := g.fetched
  rw [hq] at hqueue
  cases fs with
  | nil => exact nomatch hqueue
  | cons f fs' =>
    simp only [queued, List.cons.injEq, Prod.mk.injEq] at hqueue
    obtain ⟨⟨hslot, hlen⟩, hrest⟩ := hqueue
    have hsmall := g.small f List.mem_cons_self
    refine ⟨f, fs', rfl, hslot, ?_, hrest, hfetched⟩
    rw [hlen, BitVec.toNat_ofNat, Nat.mod_eq_of_lt (by omega)]

theorem Good.fetch (g : Good es s fs) {slot len : Word} {queue : List (Word × Word)}
    (hq : s.queue = (slot, len) :: queue) (hlt : s.fetched.length < len.toNat) :
    Good (es ++ [.fetch])
      { s with
        fetched := s.fetched ++ [s.sram (slot_at slot + BitVec.ofNat 32 s.fetched.length)] }
      fs := by
  obtain ⟨f, fs', rfl, hslot, hlen, -, hfetched⟩ := g.first hq
  have hoctet := g.held 0 f rfl s.fetched.length (by omega)
  refine
    { calls := g.quiet rfl rfl, queue := g.queue, full := g.full, small := g.small, held := g.held,
      fetched := ?_, progress := g.progress.room (Nat.le_refl _) }
  obtain ⟨rest, rfl⟩ := hfetched
  rw [hslot]
  cases rest with
  | nil => simp only [List.append_nil] at hlen; omega
  | cons x rest =>
    rw [Nat.add_zero] at hoctet
    rw [hoctet]
    simp

/-- The whole of the first frame was sent, and nothing else. -/
theorem Good.sent (g : Good es s fs) {slot len : Word} {queue : List (Word × Word)}
    (hq : s.queue = (slot, len) :: queue) (hend : s.fetched.length = len.toNat) :
    Good (es ++ [.sent s.fetched])
      { s with queue := queue, fetched := [], wire := s.wire ++ [s.fetched] } fs.tail := by
  obtain ⟨f, fs', rfl, -, hlen, hrest, hfetched⟩ := g.first hq
  obtain rfl : s.fetched = f := hfetched.eq_of_length (by omega)
  have hn : (s.wire ++ [s.fetched]).length = s.wire.length + 1 := by simp
  have hcalls := g.calls
  refine
    { calls := ?_, queue := ?_, full := ?_, small := ?_, held := ?_,
      fetched := List.nil_prefix, progress := ?_ }
  · rw [accepted_same rfl, hcalls]
    simp
  · rw [hn]
    exact hrest
  · exact Nat.le_of_succ_le g.full
  · exact fun f' h => g.small f' (List.mem_cons_of_mem _ h)
  · intro i f' h
    rw [hn, Nat.add_right_comm]
    exact g.held (i + 1) f' h
  · have hp := g.progress
    rw [List.length_cons] at hp
    rw [hn, List.tail_cons, Nat.add_right_comm]
    exact hp.room (by rw [hq]; exact Nat.le_succ _)

theorem Good.step (g : Good es s fs) {e : Event} (h : Step s e t) :
    ∃ fs', Good (es ++ [e]) t fs' := by
  have hp := g.progress
  unfold System.Progress at hp
  cases h with
  | drop hpc hlen => exact ⟨fs, g.drop hlen⟩
  | call hpc hlen => exact ⟨fs, g.call hpc hlen⟩
  | busy hpc => exact ⟨fs, { g with calls := g.quiet rfl rfl }⟩
  | ready hpc hroom =>
    rw [hpc] at hp
    obtain ⟨hslot, hf⟩ := hp
    refine ⟨fs, g.moves (g.quiet rfl (by rw [hpc]; rfl)) ⟨hslot, hf, hroom, Nat.zero_le _, ?_⟩⟩
    exact Holds.nil
  | copy hpc _ hi => exact ⟨fs, g.copy hpc hi⟩
  | @copied _ txb hpc =>
    rw [hpc] at hp
    obtain ⟨hslot, hf, hroom, _, hdone⟩ := hp
    rw [List.take_length] at hdone
    exact ⟨fs, g.moves (g.quiet rfl (by rw [hpc]; rfl)) ⟨hslot, hf, hroom, hdone⟩⟩
  | rd_slot hpc =>
    rw [hpc] at hp
    obtain ⟨hslot, hf, hroom, hdone⟩ := hp
    exact ⟨fs, g.moves (g.quiet rfl (by rw [hpc]; rfl)) ⟨hslot, hf, hroom, hdone, hslot⟩⟩
  | rd_len hpc =>
    rw [hpc] at hp
    obtain ⟨hslot, hf, hroom, hdone, hRD_SLOT⟩ := hp
    exact ⟨fs, g.moves (g.quiet rfl (by rw [hpc]; rfl))
      ⟨hslot, hf, hroom, hdone, hRD_SLOT, rfl⟩⟩
  | rd_start hpc => exact ⟨_, g.rd_start hpc⟩
  | toggle hpc =>
    rw [hpc] at hp
    obtain ⟨k, hk, hslot⟩ := hp
    refine ⟨fs, g.moves (g.quiet rfl (by rw [hpc]; rfl)) ?_⟩
    rw [hk, hslot, slot_of_next]
    rfl
  | fetch hq hlt => exact ⟨fs, g.fetch hq hlt⟩
  | sent hq hend => exact ⟨fs.tail, g.sent hq hend⟩

/-- In every run, the slots of the queue hold the frames that were started and not sent. -/
theorem reached.good {sram : Mem} {RD_LEN : Word} (h : Run Step (.start sram RD_LEN) es s) :
    ∃ fs, Good es s fs :=
  h.carries (I := fun es s => ∃ fs, Good es s fs) ⟨[], Good.start sram RD_LEN⟩
    fun _ _ _ _ ⟨_, g⟩ hstep => g.step hstep

/-! ## The run goes on to its end -/

/-- A way goes from here, without a new call, to the end of `eth_tx` with every slot sent. -/
def Finishes (s : System) : Prop :=
  ∃ es t, Run Step s es t ∧ calls es = [] ∧ t.pc = .idle ∧ t.queue = []

theorem calls_append (es es' : List Event) : calls (es ++ es') = calls es ++ calls es' :=
  List.filterMap_append

theorem Finishes.after (h : Run Step s es t) (hes : calls es = []) (ht : Finishes t) :
    Finishes s := by
  obtain ⟨es', u, hrun, hes', hu⟩ := ht
  refine ⟨es ++ es', u, h.append hrun, ?_, hu⟩
  rw [calls_append, hes, hes']
  rfl

theorem Finishes.before {e : Event} (h : Step s e t) (he : calls [e] = []) (ht : Finishes t) :
    Finishes s := Finishes.after (.single h) he ht

/-- The steps that the MAC needs for the frames, from the first octet of the first one. -/
def work (fs : List (List Byte)) : Nat := (fs.map fun f => f.length + 1).sum

/-- The MAC sends the slots that were started, and the loader stays where it is. -/
theorem Good.drains (n : Nat) (g : Good es s fs) (hn : work fs = s.fetched.length + n) :
    ∃ es' t, Run Step s es' t ∧ ethmac.calls es' = [] ∧ t.pc = s.pc ∧ t.queue = [] ∧
      Good (es ++ es') t [] := by
  induction n generalizing es s fs with
  | zero =>
    cases fs with
    | nil => exact ⟨[], s, .nil, rfl, rfl, g.queue, by rwa [List.append_nil]⟩
    | cons f fs =>
      have hle := g.fetched.length_le
      simp only [work, List.map_cons, List.sum_cons, List.headD_cons] at hn hle
      omega
  | succ n ih =>
    cases fs with
    | nil => simp [work] at hn
    | cons f fs =>
      have hq := g.queue
      obtain ⟨f', _, he, _, hlen, -, hfetched⟩ := g.first hq
      obtain ⟨rfl, rfl⟩ := List.cons.inj he
      have hle := hfetched.length_le
      simp only [work, List.map_cons, List.sum_cons] at hn ih
      by_cases hlt : s.fetched.length < f.length
      · have hlt' := hlen ▸ hlt
        obtain ⟨es', t, hrun, hes', hpc, hend⟩ := ih (g.fetch hq hlt') (by
          rw [List.map_cons, List.sum_cons, List.length_append, List.length_singleton]
          omega)
        rw [List.append_assoc] at hend
        exact ⟨.fetch :: es', t, (Run.single (.fetch hq hlt')).append hrun, hes', hpc, hend⟩
      · have heq : s.fetched.length = (BitVec.ofNat 32 f.length).toNat := by omega
        obtain ⟨es', t, hrun, hes', hpc, hend⟩ := ih (g.sent hq heq) (by
          rw [List.tail_cons, List.length_nil]
          omega)
        rw [List.append_assoc] at hend
        exact ⟨.sent s.fetched :: es', t, (Run.single (.sent hq heq)).append hrun, hes', hpc, hend⟩

theorem Good.work_le (g : Good es s fs) : ∃ n, work fs = s.fetched.length + n := by
  have hle := g.fetched.length_le
  cases fs with
  | nil => exact ⟨0, by rw [List.length_eq_zero_iff.mpr (List.prefix_nil.mp g.fetched)]; rfl⟩
  | cons f fs =>
    simp only [List.headD_cons] at hle
    exact ⟨_, (Nat.add_sub_of_le (by simp only [work, List.map_cons, List.sum_cons]; omega)).symm⟩

/-- At the end of `eth_tx` only the MAC has to go on. -/
theorem Good.finishes_idle (g : Good es s fs) (hpc : s.pc = .idle) : Finishes s := by
  obtain ⟨n, hn⟩ := g.work_le
  obtain ⟨es', t, hrun, hes', ht, hend, -⟩ := g.drains n hn
  exact ⟨es', t, hrun, hes', ht.trans hpc, hend⟩

theorem Good.finishes_toggle (g : Good es s fs) (hpc : s.pc = .toggle) : Finishes s := by
  obtain ⟨fs', g'⟩ := g.step (.toggle hpc)
  exact .before (.toggle hpc) rfl (g'.finishes_idle rfl)

theorem Good.finishes_rd_start (g : Good es s fs) (hpc : s.pc = .rd_start f) : Finishes s :=
  .before (.rd_start hpc) rfl ((g.rd_start hpc).finishes_toggle rfl)

theorem Good.finishes_rd_len (g : Good es s fs) (hpc : s.pc = .rd_len f) : Finishes s := by
  obtain ⟨fs', g'⟩ := g.step (.rd_len hpc)
  exact .before (.rd_len hpc) rfl (g'.finishes_rd_start rfl)

theorem Good.finishes_rd_slot (g : Good es s fs) (hpc : s.pc = .rd_slot f) : Finishes s := by
  obtain ⟨fs', g'⟩ := g.step (.rd_slot hpc)
  exact .before (.rd_slot hpc) rfl (g'.finishes_rd_len rfl)

theorem Good.finishes_copied (g : Good es s fs) (hpc : s.pc = .copy f f.length) : Finishes s := by
  obtain ⟨fs', g'⟩ := g.step (.copied hpc)
  exact .before (.copied hpc) rfl (g'.finishes_rd_slot rfl)

theorem Good.finishes_copy (g : Good es s fs) {i : Nat} (hpc : s.pc = .copy f i) : Finishes s := by
  have hp := g.progress
  rw [System.Progress, hpc] at hp
  obtain ⟨-, -, -, hi, -⟩ := hp
  obtain rfl | hlt := hi.eq_or_lt
  · exact g.finishes_copied hpc
  · have hall : i + (f.length - i) = f.length := by omega
    exact .before (.copy hpc (Nat.sub_pos_of_lt hlt) hall.le) rfl
      ((g.copy hpc hall.le).finishes_copied (congrArg (Pc.copy f) hall))

/-- Before the copy the MAC makes room. -/
theorem Good.finishes_poll (g : Good es s fs) (hpc : s.pc = .poll f) : Finishes s := by
  obtain ⟨n, hn⟩ := g.work_le
  obtain ⟨es', t, hrun, hes', ht, hend, g'⟩ := g.drains n hn
  have hroom : t.queue.length < 2 := by rw [hend]; exact Nat.two_pos
  obtain ⟨fs', g''⟩ := g'.step (.ready (ht.trans hpc) hroom)
  exact .after hrun hes' (.before (.ready (ht.trans hpc) hroom) rfl (g''.finishes_copy rfl))

theorem Good.finishes (g : Good es s fs) : Finishes s := by
  cases hpc : s.pc with
  | idle => exact g.finishes_idle hpc
  | poll f => exact g.finishes_poll hpc
  | copy f i => exact g.finishes_copy hpc
  | rd_slot f => exact g.finishes_rd_slot hpc
  | rd_len f => exact g.finishes_rd_len hpc
  | rd_start f => exact g.finishes_rd_start hpc
  | toggle => exact g.finishes_toggle hpc

/-! ## The laws -/

/-- What is within `k` octets of a place of the next slot is in the transmit slots, and it is not
in the slot before. -/
theorem write_in_slot {n i k : Nat} {x : Word} (hi : i + k ≤ 1534)
    (hx : dist (slot_at (slot_of n) + BitVec.ofNat 32 i) x < k) :
    slot_at 0 ≤ x ∧ x < slot_at ETHMAC_TX_SLOTS ∧
      ∀ m, m + 1 = n → ETHMAC_SLOT_SIZE.toNat ≤ dist (slot_at (slot_of m)) x := by
  have h0 : slot_at 0 = 0xE0001000#32 := rfl
  have h1 : slot_at 1 = 0xE0001800#32 := rfl
  have h2 : slot_at ETHMAC_TX_SLOTS = 0xE0002000#32 := rfl
  have hsize : ETHMAC_SLOT_SIZE.toNat = 0x800 := rfl
  rw [h0, h2, hsize]
  unfold memory.dist at hx ⊢
  obtain ⟨h, e⟩ | ⟨h, e⟩ := slot_of_cases n
  · rw [e, h0] at hx
    refine ⟨by bv_omega, by bv_omega, fun m hm => ?_⟩
    obtain ⟨_, _⟩ | ⟨_, e'⟩ := slot_of_cases m
    · omega
    · rw [e', h1]
      bv_omega
  · rw [e, h1] at hx
    refine ⟨by bv_omega, by bv_omega, fun m hm => ?_⟩
    obtain ⟨_, e'⟩ | ⟨_, _⟩ := slot_of_cases m
    · rw [e', h0]
      bv_omega
    · omega

theorem Good.store (g : Good es s fs) {a x : Word} {bs : List Byte}
    (h : Step s (.store a bs) t) (hx : dist a x < bs.length) :
    slot_at 0 ≤ x ∧ x < slot_at ETHMAC_TX_SLOTS ∧
      ∀ q ∈ s.queue, ETHMAC_SLOT_SIZE.toNat ≤ dist (slot_at q.1) x := by
  have hp := g.progress
  unfold System.Progress at hp
  cases h with
  | @copy _ txb i k hpc _ hi =>
    rw [hpc] at hp
    obtain ⟨hslot, hf, hroom, -, -⟩ := hp
    rw [hslot, octets.part_length txb i k hi] at hx
    obtain ⟨hlow, hhigh, hbefore⟩ := write_in_slot (hi.trans hf) hx
    refine ⟨hlow, hhigh, fun q hq => ?_⟩
    have hlen := g.length
    rw [g.queue] at hq
    match fs with
    | [] => exact nomatch hq
    | [f] =>
      obtain rfl := List.mem_singleton.mp hq
      exact hbefore _ rfl
    | _ :: _ :: _ =>
      rw [List.length_cons, List.length_cons] at hlen
      omega

/-- The slot for the next frame is known by the number of frames that were not dropped. -/
theorem Good.alternates (g : Good es s fs) (hpc : s.pc = .idle) :
    s.txslot = slot_of (accepted (ethmac.calls es)).length := by
  have hp := g.progress
  rw [System.Progress, hpc] at hp
  rw [hp, g.calls, hpc]
  simp [Pc.current]

/-- A call alone, while there is room: the frame is in its slot, and the slot is started. -/
theorem eth_tx.spec (hpc : s.pc = .idle) (hroom : s.queue.length < 2) (h0 : 0 < f.length)
    (hf : f.length ≤ 1534) :
    ∃ es, calls es = [f] ∧ Run Step s es
      { s with
        txslot := s.txslot ^^^ 1
        sram := write s.sram (slot_at s.txslot) f
        RD_SLOT := s.txslot
        RD_LEN := BitVec.ofNat 32 f.length
        queue := s.queue ++ [(s.txslot, BitVec.ofNat 32 f.length)] } := by
  obtain ⟨_, txslot, sram, slot, len, queue, fetched, wire⟩ := s
  obtain rfl := hpc
  have hcopy := @Step.copy ⟨.copy f 0, txslot, sram, slot, len, queue, fetched, wire⟩ f 0
    f.length rfl h0 (Nat.zero_add _).le
  rw [Nat.zero_add, BitVec.add_zero, octets.part_all f _ rfl] at hcopy
  refine ⟨_, ?_, .snoc (.snoc (.snoc (.snoc (.snoc (.snoc (.snoc (.snoc .nil (.call rfl hf))
    (.ready rfl hroom)) hcopy) (.copied rfl)) (.rd_slot rfl)) (.rd_len rfl)) (.rd_start rfl))
    (.toggle rfl)⟩
  rfl

/-- A slot that is queued or being sent is never written to, and no write leaves the transmit
slots. The frames that fit go out once, whole and in the order of the calls; the other ones change
nothing. From every point the rest of the accepted frames can go out. -/
theorem no_slot_is_overwritten {sram : Mem} {RD_LEN : Word}
    (h : Run Step (.start sram RD_LEN) es s) :
    (∀ a bs t, Step s (.store a bs) t → ∀ x, dist a x < bs.length →
      slot_at 0 ≤ x ∧ x < slot_at ETHMAC_TX_SLOTS ∧
        ∀ q ∈ s.queue, ETHMAC_SLOT_SIZE.toNat ≤ dist (slot_at q.1) x) ∧
    (∃ fs, accepted (calls es) = s.wire ++ fs ++ s.pc.current ∧ fs.length = s.queue.length) ∧
    (∀ txb t, 1534 < txb.length → Step s (.call txb) t → t = s) ∧
    (s.pc = .idle → s.txslot = slot_of (accepted (calls es)).length) ∧
    ∃ es' t, Run Step s es' t ∧ calls es' = [] ∧ t.pc = .idle ∧ t.wire = accepted (calls es) := by
  obtain ⟨fs, g⟩ := reached.good h
  refine ⟨fun a bs t hstep x hx => g.store hstep hx, ⟨fs, g.calls, g.length.symm⟩, ?_,
    g.alternates, ?_⟩
  · intro txb t hlong hstep
    cases hstep with
    | drop => rfl
    | call _ hle => omega
  · obtain ⟨es', t, hrun, hes', hpc, hq⟩ := g.finishes
    obtain ⟨fs', g'⟩ := reached.good (h.append hrun)
    have hfs := g'.length
    rw [hq] at hfs
    have hcalls := g'.calls
    rw [calls_append, hes', List.append_nil, hpc, List.length_eq_zero_iff.mp hfs.symm] at hcalls
    refine ⟨es', t, hrun, hes', hpc, ?_⟩
    rw [hcalls]
    simp [Pc.current]

/-- Two frames wait in their slots, and go out one after the other. -/
theorem two_frames_go_out :
    ∃ es s, Run Step (.start (fun _ => 0) 0) es s ∧ calls es = [[0x42], [0x43, 0x44]] ∧
      s.queue = [(0, 1), (1, 2)] ∧ memory.read s.sram (slot_at 0) 1 = [0x42] ∧
      ∃ es' t, Run Step s es' t ∧ t.wire = [[0x42], [0x43, 0x44]] := by
  obtain ⟨es, hes, hrun⟩ := @eth_tx.spec (.start (fun _ => 0) 0) [0x42] rfl (by decide) (by decide)
    (by decide)
  obtain ⟨es', hes', hrun'⟩ := @eth_tx.spec
    { System.start (write (fun _ => 0) (slot_at 0) [0x42]) 1 with txslot := 1, queue := [(0, 1)] }
    [0x43, 0x44] rfl (by decide) (by decide) (by decide)
  obtain ⟨es'', t, hout, _, _, hwire⟩ := (no_slot_is_overwritten (hrun.append hrun')).2.2.2.2
  rw [calls_append, hes, hes'] at hwire
  exact ⟨_, _, hrun.append hrun', by rw [calls_append, hes, hes']; rfl, rfl, by decide, es'', t,
    hout, hwire⟩

/-- The stack below gives its frames to the transmit path, and counts the accepted ones as
sent. -/
theorem the_stack_sends_what_is_accepted {σ : Type} {c c' : net.Net σ} {packet : octets.Octets}
    {off txlen : Nat} (h : c.eth_tx packet off txlen = .ok c') :
    ∃ txb, txb.length = txlen ∧ c'.passed = c.passed ++ [txb] ∧
      c'.sent = c.sent ++ accepted [txb] := by
  unfold net.Net.eth_tx net.get at h
  split at h
  · by_cases hlong : txlen > 1534
    · rw [net.ok_bind, if_pos hlong] at h
      obtain rfl := Except.ok.inj h
      exact ⟨octets.slice packet off txlen, by simp, rfl, by simp [accepted, hlong]⟩
    · rw [net.ok_bind, if_neg hlong] at h
      obtain rfl := Except.ok.inj h
      exact ⟨octets.slice packet off txlen, by simp, rfl, by simp [accepted, Nat.not_lt.mp hlong]⟩
  · exact nomatch h

end

end os_workshop.ethmac
