-- Traps to supervisor mode, the frame of a trap (hw/inc/hw/context.h), and the
-- code that the trap entries of the kernel and of the bootloader share: every
-- register and the pc go to the frame below a stack that a scratch CSR points at.
import OsWorkshop.Rv32

open os_workshop.memory os_workshop.rv32

namespace os_workshop.frames

open Reg Csr Instr

/-! ## Traps to supervisor mode -/

abbrev SSTATUS_SPP : Word := 0x100
abbrev SSTATUS_SPIE : Word := 0x20
abbrev SSTATUS_SIE : Word := 0x2

/-- The status after a trap: `spp` is `SSTATUS_SPP` for a trap of supervisor mode and zero for
one of user mode, and interrupts are off, so that none comes while the trap is handled. -/
def trap_sstatus (spp st : Word) : Word :=
  (st &&& ~~~(SSTATUS_SPP ||| SSTATUS_SPIE ||| SSTATUS_SIE)) ||| spp |||
    (if st &&& SSTATUS_SIE = 0 then 0 else SSTATUS_SPIE)

def sret_sstatus (st : Word) : Word :=
  (st &&& ~~~(SSTATUS_SPP ||| SSTATUS_SPIE ||| SSTATUS_SIE)) ||| SSTATUS_SPIE |||
    (if st &&& SSTATUS_SPIE = 0 then 0 else SSTATUS_SIE)

/-- What a trap of the state `s` does to the CSRs. -/
def trap_csrs (spp : Word) (s : State) (cause : Word) : Data :=
  ((s.d.setCsr sepc s.pc).setCsr scause cause).setCsr sstatus (trap_sstatus spp (s.d.csr sstatus))

/-- The state right after `sret`. -/
def sret_state (d : Data) : State :=
  ⟨d.csr sepc, d.setCsr sstatus (sret_sstatus (d.csr sstatus))⟩

/-! ## The frame -/

def caller_saved : Frame := [
  (ra, 0x00), (t0, 0x04), (t1, 0x08), (t2, 0x0C), (t3, 0x10), (t4, 0x14), (t5, 0x18), (t6, 0x1C),
  (a0, 0x20), (a1, 0x24), (a2, 0x28), (a3, 0x2C), (a4, 0x30), (a5, 0x34), (a6, 0x38), (a7, 0x3C)]

def callee_saved : Frame := [
  (gp, 0x48), (tp, 0x4C), (s0, 0x50), (s1, 0x54), (s2, 0x58), (s3, 0x5C), (s4, 0x60), (s5, 0x64),
  (s6, 0x68), (s7, 0x6C), (s8, 0x70), (s9, 0x74), (s10, 0x78), (s11, 0x7C)]

/-- The fields of `eframe_t` for the registers. -/
def eframe : Frame := (sp, 0x44) :: (caller_saved ++ callee_saved)

/-- Every register but `zero` has its field. -/
theorem eframe_has (r : Reg) (h : r ≠ zero) : r ∈ eframe.map Prod.fst := by
  cases r <;> first | exact absurd rfl h | decide

/-- The words of a frame at `F`: the registers, and the pc. -/
structure Saved (m : Mem) (F : Word) (x : Reg → Word) (pc : Word) : Prop where
  regs : ∀ p ∈ eframe, ld32 m (F + p.2) = x p.1
  pc : ld32 m (F + 0x40) = pc

/-- The offsets of the words of a frame. -/
def offsets : List Word := (0x40 : Word) :: eframe.map Prod.snd

theorem offsets_le : ∀ o ∈ offsets, o.toNat ≤ 0x7C := by
  simp [offsets, eframe, caller_saved, callee_saved]

/-- The words of a region in whose `n` bytes nothing was written. -/
theorem ld32_within {m m' : Mem} {F o : Word} {n : Nat}
    (hm : ∀ a, memory.dist F a < n → m' a = m a) (ho : o.toNat + 4 ≤ n) :
    ld32 m' (F + o) = ld32 m (F + o) := by
  apply ld32_congr
  intro a ha
  apply hm
  unfold memory.dist at *
  clear hm
  bv_omega

/-- A frame in whose bytes nothing was written. -/
theorem Saved.keep {m m' : Mem} {F pc : Word} {x : Reg → Word} (h : Saved m F x pc)
    (hm : ∀ a, memory.dist F a < 128 → m' a = m a) : Saved m' F x pc := by
  constructor
  · intro p hp
    have ho := offsets_le p.2 (List.mem_cons_of_mem _ (List.mem_map_of_mem hp))
    rw [ld32_within hm (by omega)]
    exact h.regs p hp
  · have ho := offsets_le 0x40 List.mem_cons_self
    rw [ld32_within hm (by omega)]
    exact h.pc

/-- A store to the field of `a0`. -/
theorem Saved.store_a0 {m : Mem} {F pc : Word} {x : Reg → Word} (h : Saved m F x pc) (v : Word) :
    Saved (st32 m (F + 0x20) v) F (fun r => if r = .a0 then v else x r) pc := by
  have hfield : ∀ p ∈ eframe, p.1 = .a0 → p.2 = (0x20 : Word) := by decide
  have hapart : ∀ p ∈ eframe, p.1 ≠ .a0 → Apart (0x20 : Word) p.2 := by decide
  constructor
  · intro p hp
    by_cases ha : p.1 = .a0
    · rw [if_pos ha, hfield p hp ha, ld32_st32_same]
    · rw [if_neg ha, ld32_st32_apart _ _ _ _ (apart_add F (hapart p hp ha)), h.regs p hp]
  · rw [ld32_st32_apart _ _ _ _ (apart_add F (by decide)), h.pc]

/-- A store to the field of the pc. -/
theorem Saved.store_pc {m : Mem} {F pc : Word} {x : Reg → Word} (h : Saved m F x pc) (v : Word) :
    Saved (st32 m (F + 0x40) v) F x v := by
  have hapart : ∀ p ∈ eframe, Apart (0x40 : Word) p.2 := by decide
  constructor
  · intro p hp
    rw [ld32_st32_apart _ _ _ _ (apart_add F (hapart p hp)), h.regs p hp]
  · rw [ld32_st32_same]

/-- A byte that is not in the frame is apart from its words, or so is its word. -/
theorem outside_frame {F a o : Word} (ho : o.toNat ≤ 0x7C) (ha : 128 ≤ memory.dist F a)
    (ha' : memory.dist F a + 4 ≤ 2 ^ 32) : Apart (F + o) a := by
  unfold Apart memory.dist at *
  constructor
  · bv_omega
  · bv_omega

theorem callee_offsets : ∀ p ∈ callee_saved, p.2 ∈ offsets := by decide
theorem caller_offsets : ∀ p ∈ caller_saved, p.2 ∈ offsets := by decide

/-- The words of the frame are apart, each part of it from the others. -/
theorem callee_apart : ∀ q ∈ callee_saved, Apart q.2 (0x40 : Word) ∧ Apart q.2 (0x44 : Word) ∧
    ∀ p ∈ caller_saved, Apart q.2 p.2 := by decide

theorem caller_apart : ∀ p ∈ caller_saved, Apart (0x40 : Word) p.2 ∧ Apart (0x44 : Word) p.2 := by
  decide

/-! ## The code that saves it -/

section

variable {L : Type} (scratch epc : Csr) (u v : Reg)

/-- Over the stack in `scratch`, with `u` and `v` for the pc and the old stack pointer. -/
def save_frame : List (Instr L) :=
  [csrrw sp scratch sp, addi sp sp (-(32 * 4))] ++ saves caller_saved ++
    [csrr u epc, csrr v scratch] ++ saves [(u, 0x40), (v, 0x44)] ++ saves callee_saved

/-- What `save_frame` leaves behind. -/
structure Pushed (d e : Data) : Prop where
  sp : e.get .sp = d.csr scratch - 128
  others : ∀ r, r ≠ .sp → r ≠ u → r ≠ v → e.get r = d.get r
  saved : Saved e.mem (d.csr scratch - 128) d.get (d.csr epc)
  rest : ∀ a, (∀ o ∈ offsets, Apart (d.csr scratch - 128 + o) a) → ld32 e.mem a = ld32 d.mem a
  csr : ∀ c, c ≠ scratch → e.csr c = d.csr c

theorem save_frame.spec (addr : L → Word) (d : Data) (hce : epc ≠ scratch)
    (hlegal : ∀ v, legal scratch v = v)
    (hu : u ∈ caller_saved.map Prod.fst) (hv : v ∈ caller_saved.map Prod.fst) (huv : u ≠ v) :
    Pushed scratch epc u v d (line addr (save_frame scratch epc u v) d) := by
  unfold save_frame
  simp only [line_append]
  generalize hF : d.csr scratch - 128 = F
  have hsize : (32 * 4 : Word) = 128 := by decide
  have hname : ∀ r ∈ caller_saved.map Prod.fst, r ≠ sp ∧ r ≠ zero ∧
      r ∉ callee_saved.map Prod.fst := by decide
  obtain ⟨usp, uz, ucallee⟩ := hname u hu
  obtain ⟨vsp, vz, vcallee⟩ := hname v hv
  -- the stack pointer
  generalize hd1 : line addr [csrrw sp scratch sp, addi sp sp (-(32 * 4))] d = d1
  have h1 : d1 = ((d.setCsr scratch (d.get sp)).set sp (d.csr scratch)).set sp F := by
    rw [← hd1, ← hF, BitVec.sub_eq_add_neg, ← hsize]
    simp only [line_cons, line_nil, act, get_set_same _ _ (show sp ≠ zero by decide)]
    rw [hlegal]
  have h1sp : d1.get sp = F := by rw [h1, get_set_same _ _ (by decide)]
  have h1x : ∀ r, r ≠ sp → d1.get r = d.get r := by
    intro r hr
    rw [h1, get_set_ne _ _ hr, get_set_ne _ _ hr, get_setCsr]
  have h1c : ∀ c, d1.csr c = if c = scratch then d.get sp else d.csr c := by
    intro c
    rw [h1, csr_set, csr_set, csr_setCsr]
  have h1m : d1.mem = d.mem := by rw [h1, mem_set, mem_set, mem_setCsr]
  -- the caller-saved registers
  obtain ⟨h2x, h2c, h2s, h2r⟩ := line_saves addr caller_saved d1 (by decide)
  generalize line addr (saves caller_saved) d1 = d2 at *
  have h2g : ∀ r, d2.get r = d1.get r := by
    intro r
    unfold Data.get
    rw [h2x]
  rw [h1sp] at h2s h2r
  -- the pc and the old stack pointer
  generalize hd3 : line addr [csrr u epc, csrr v scratch] d2 = d3
  have h3 : d3 = (d2.set u (d2.csr epc)).set v (d2.csr scratch) := by
    rw [← hd3]
    simp only [line_cons, line_nil, act, csr_set]
  have h3u : d3.get u = d.csr epc := by
    rw [h3, get_set_ne _ _ huv, get_set_same _ _ uz, h2c, h1c, if_neg hce]
  have h3v : d3.get v = d.get sp := by
    rw [h3, get_set_same _ _ vz, h2c, h1c, if_pos rfl]
  have h3x : ∀ r, r ≠ u → r ≠ v → d3.get r = d1.get r := by
    intro r hr1 hr2
    rw [h3, get_set_ne _ _ hr2, get_set_ne _ _ hr1, h2g]
  have h3sp : d3.get sp = F := by rw [h3x sp usp.symm vsp.symm, h1sp]
  have h3m : d3.mem = d2.mem := by rw [h3, mem_set, mem_set]
  have h3c : d3.csr = d1.csr := by rw [h3, csr_set, csr_set, h2c]
  obtain ⟨h4x, h4c, h4s, h4r⟩ := line_saves addr [(u, 0x40), (v, 0x44)] d3 (by simp; decide)
  generalize line addr (saves [(u, 0x40), (v, 0x44)]) d3 = d4 at *
  have h4g : ∀ r, d4.get r = d3.get r := by
    intro r
    unfold Data.get
    rw [h4x]
  rw [h3sp] at h4s h4r
  simp only [List.mem_cons, List.not_mem_nil, or_false, forall_eq_or_imp, forall_eq] at h4s h4r
  -- the callee-saved registers
  obtain ⟨h5x, h5c, h5s, h5r⟩ := line_saves addr callee_saved d4 (by decide)
  generalize line addr (saves callee_saved) d4 = d5 at *
  have h5g : ∀ r, d5.get r = d3.get r := by
    intro r
    unfold Data.get
    rw [h5x, h4x]
  rw [h4g, h3sp] at h5s h5r
  refine ⟨?_, ?_, ⟨?_, ?_⟩, ?_, ?_⟩
  · rw [h5g, h3sp, hF]
  · intro r hsp hru hrv
    rw [h5g, h3x r hru hrv, h1x r hsp]
  · intro p hp
    rw [hF]
    simp only [eframe, List.mem_cons, List.mem_append] at hp
    rcases hp with rfl | hp | hp
    · rw [h5r _ fun q hq => apart_add F (callee_apart q hq).2.1]
      exact h4s.2.trans h3v
    · obtain ⟨a1, a2⟩ := caller_apart p hp
      have hne := (hname p.1 (List.mem_map_of_mem hp)).1
      rw [h5r _ fun q hq => apart_add F ((callee_apart q hq).2.2 p hp),
        h4r _ ⟨apart_add F a1, apart_add F a2⟩, h3m, h2s p hp, h1x _ hne]
    · have hmem := List.mem_map_of_mem (f := Prod.fst) hp
      have hne : ∀ p ∈ callee_saved, p.1 ≠ sp := by decide
      have n1 : p.1 ≠ u := fun h => ucallee (h ▸ hmem)
      have n2 : p.1 ≠ v := fun h => vcallee (h ▸ hmem)
      rw [h5s p hp, h4g, h3x _ n1 n2, h1x _ (hne p hp)]
  · rw [hF, h5r _ fun q hq => apart_add F (callee_apart q hq).1]
    exact h4s.1.trans h3u
  · intro a ha
    rw [hF] at ha
    rw [h5r a fun p hp => ha _ (callee_offsets p hp),
      h4r a ⟨ha _ (by decide), ha _ (by decide)⟩, h3m, h2r a fun p hp => ha _ (caller_offsets p hp),
      h1m]
  · intro c hc
    rw [h5c, h4c, h3c, h1c, if_neg hc]

end

end os_workshop.frames
