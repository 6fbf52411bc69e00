-- The two trap vectors that the programs share, instruction by instruction:
-- trap-entry-single-stack.S saves on the active stack, trap-entry-dual-stack.S on
-- the stack in sscratch (both in src/hw/src).
import OsWorkshop.Eframe
import OsWorkshop.LinkedText

open os_workshop.memory os_workshop.rv32 os_workshop.frames

namespace os_workshop.vectors

/-! ## The code -/

/-- The symbols of both files, their own and those of the C code. -/
inductive Symbol
  | trap_entry | trap_exit | exception_entry | exception_exit | user_mode_entry
  | interrupt_handler | exception_handler
  deriving DecidableEq

abbrev Block := List (Instr Symbol)

open Reg Csr Instr

inductive Vector
  | single | dual
  deriving DecidableEq

namespace single

def trap_entry : Block := [
  addi sp sp (-(32 * 4)),
  sw ra 0x00 sp,
  sw t0 0x04 sp,
  sw t1 0x08 sp,
  sw t2 0x0C sp,
  sw t3 0x10 sp,
  sw t4 0x14 sp,
  sw t5 0x18 sp,
  sw t6 0x1C sp,
  sw a0 0x20 sp,
  sw a1 0x24 sp,
  sw a2 0x28 sp,
  sw a3 0x2C sp,
  sw a4 0x30 sp,
  sw a5 0x34 sp,
  sw a6 0x38 sp,
  sw a7 0x3C sp,
  csrr t0 sepc,
  sw t0 0x40 sp,
  csrr t1 scause,
  bge t1 zero .exception_entry,
  jal .interrupt_handler]

def trap_exit : Block := [
  lw t0 0x40 sp,
  csrw sepc t0,
  lw ra 0x00 sp,
  lw t0 0x04 sp,
  lw t1 0x08 sp,
  lw t2 0x0C sp,
  lw t3 0x10 sp,
  lw t4 0x14 sp,
  lw t5 0x18 sp,
  lw t6 0x1C sp,
  lw a0 0x20 sp,
  lw a1 0x24 sp,
  lw a2 0x28 sp,
  lw a3 0x2C sp,
  lw a4 0x30 sp,
  lw a5 0x34 sp,
  lw a6 0x38 sp,
  lw a7 0x3C sp,
  addi sp sp (32 * 4),
  sret]

def exception_entry : Block := [
  addi t0 sp (32 * 4),
  sw t0 0x44 sp,
  sw gp 0x48 sp,
  sw tp 0x4C sp,
  sw s0 0x50 sp,
  sw s1 0x54 sp,
  sw s2 0x58 sp,
  sw s3 0x5C sp,
  sw s4 0x60 sp,
  sw s5 0x64 sp,
  sw s6 0x68 sp,
  sw s7 0x6C sp,
  sw s8 0x70 sp,
  sw s9 0x74 sp,
  sw s10 0x78 sp,
  sw s11 0x7C sp,
  mv a0 sp,
  jal .exception_handler]

def exception_exit : Block := [
  lw gp 0x48 sp,
  lw tp 0x4C sp,
  lw s0 0x50 sp,
  lw s1 0x54 sp,
  lw s2 0x58 sp,
  lw s3 0x5C sp,
  lw s4 0x60 sp,
  lw s5 0x64 sp,
  lw s6 0x68 sp,
  lw s7 0x6C sp,
  lw s8 0x70 sp,
  lw s9 0x74 sp,
  lw s10 0x78 sp,
  lw s11 0x7C sp,
  j .trap_exit]

def text : Block := trap_entry ++ trap_exit ++ exception_entry ++ exception_exit

end single

namespace dual

def trap_entry : Block := [
  csrrw sp sscratch sp,
  addi sp sp (-(32 * 4)),
  sw ra 0x00 sp,
  sw t0 0x04 sp,
  sw t1 0x08 sp,
  sw t2 0x0C sp,
  sw t3 0x10 sp,
  sw t4 0x14 sp,
  sw t5 0x18 sp,
  sw t6 0x1C sp,
  sw a0 0x20 sp,
  sw a1 0x24 sp,
  sw a2 0x28 sp,
  sw a3 0x2C sp,
  sw a4 0x30 sp,
  sw a5 0x34 sp,
  sw a6 0x38 sp,
  sw a7 0x3C sp,
  csrr t0 sepc,
  csrr t1 sscratch,
  sw t0 0x40 sp,
  sw t1 0x44 sp,
  csrr t0 scause,
  bge t0 zero .exception_entry,
  jal .interrupt_handler]

def trap_exit : Block := [
  addi t0 sp (32 * 4),
  csrw sscratch t0,
  lw t0 0x40 sp,
  csrw sepc t0,
  lw ra 0x00 sp,
  lw t0 0x04 sp,
  lw t1 0x08 sp,
  lw t2 0x0C sp,
  lw t3 0x10 sp,
  lw t4 0x14 sp,
  lw t5 0x18 sp,
  lw t6 0x1C sp,
  lw a0 0x20 sp,
  lw a1 0x24 sp,
  lw a2 0x28 sp,
  lw a3 0x2C sp,
  lw a4 0x30 sp,
  lw a5 0x34 sp,
  lw a6 0x38 sp,
  lw a7 0x3C sp,
  lw sp 0x44 sp,
  sret]

def exception_entry : Block := [
  sw gp 0x48 sp,
  sw tp 0x4C sp,
  sw s0 0x50 sp,
  sw s1 0x54 sp,
  sw s2 0x58 sp,
  sw s3 0x5C sp,
  sw s4 0x60 sp,
  sw s5 0x64 sp,
  sw s6 0x68 sp,
  sw s7 0x6C sp,
  sw s8 0x70 sp,
  sw s9 0x74 sp,
  sw s10 0x78 sp,
  sw s11 0x7C sp,
  mv a0 sp,
  jal .exception_handler]

/-- The same instructions as in the other file. -/
def exception_exit : Block := single.exception_exit

def user_mode_entry : Block := [
  mv sp a0,
  j .exception_exit]

def text : Block :=
  trap_entry ++ trap_exit ++ exception_entry ++ exception_exit ++ user_mode_entry

end dual

def text : Vector → Block
  | .single => single.text
  | .dual => dual.text

/-- Where each label stands in its file. -/
def start : Vector → Symbol → Option Nat
  | .single, .trap_entry => some 0
  | .single, .trap_exit => some 22
  | .single, .exception_entry => some 42
  | .single, .exception_exit => some 60
  | .dual, .trap_entry => some 0
  | .dual, .trap_exit => some 25
  | .dual, .exception_entry => some 47
  | .dual, .exception_exit => some 63
  | .dual, .user_mode_entry => some 78
  | _, _ => none

abbrev Link (v : Vector) := Linked (text v) (start v)

/-! ## The straight parts -/

/-- `trap_entry` up to its branch. -/
def entry_part : Vector → Block
  | .single => [addi sp sp (-(32 * 4))] ++ saves caller_saved ++
      [csrr t0 sepc, sw t0 0x40 sp, csrr t1 scause]
  | .dual => [csrrw sp sscratch sp, addi sp sp (-(32 * 4))] ++ saves caller_saved ++
      [csrr t0 sepc, csrr t1 sscratch, sw t0 0x40 sp, sw t1 0x44 sp, csrr t0 scause]

/-- `exception_entry` up to its call. -/
def exception_part : Vector → Block
  | .single => [addi t0 sp (32 * 4), sw t0 0x44 sp] ++ saves callee_saved ++ [mv a0 sp]
  | .dual => saves callee_saved ++ [mv a0 sp]

/-- `trap_exit` up to its `sret`. -/
def exit_part : Vector → Block
  | .single => [lw t0 0x40 sp, csrw sepc t0] ++ restores caller_saved ++ [addi sp sp (32 * 4)]
  | .dual => [addi t0 sp (32 * 4), csrw sscratch t0, lw t0 0x40 sp, csrw sepc t0] ++
      restores caller_saved ++ [lw sp 0x44 sp]

/-- The register that the branch tests. -/
def cause_reg : Vector → Reg
  | .single => t1
  | .dual => t0

theorem text_eq (v : Vector) : ∃ rest, text v =
    entry_part v ++ ([bge (cause_reg v) zero .exception_entry, jal .interrupt_handler] ++
      (exit_part v ++ ([sret] ++ (exception_part v ++ ([jal .exception_handler] ++
        (restores callee_saved ++ ([j .trap_exit] ++ rest))))))) := by
  cases v with
  | single => exact ⟨[], rfl⟩
  | dual => exact ⟨dual.user_mode_entry, rfl⟩

/-- The address of the frame of a trap. -/
def frame_of (v : Vector) (d : Data) : Word :=
  match v with
  | .single => d.get sp - 128
  | .dual => d.csr sscratch - 128

section

variable {d e : Data} {F : Word}

/-- The words that `trap_entry` saves at `F`. -/
structure Entry (v : Vector) (d e : Data) : Prop where
  sp : e.get .sp = frame_of v d
  cause : e.get (cause_reg v) = d.csr scause
  others : ∀ r, r ≠ .sp → r ≠ .t0 → r ≠ .t1 → e.get r = d.get r
  regs : ∀ p ∈ caller_saved, ld32 e.mem (frame_of v d + p.2) = d.get p.1
  pc : ld32 e.mem (frame_of v d + 0x40) = d.csr sepc
  old_sp : v = .dual → ld32 e.mem (frame_of v d + 0x44) = d.get .sp
  rest : ∀ a, (∀ o ∈ offsets, Apart (frame_of v d + o) a) → ld32 e.mem a = ld32 d.mem a
  csr : ∀ c, c ≠ sscratch → e.csr c = d.csr c

/-- The caller-saved registers go to the frame at `F`. -/
theorem caller_part (addr : Symbol → Word) (hsp : d.get sp = F) :
    ∃ e, line addr (saves caller_saved) d = e ∧ (∀ r, e.get r = d.get r) ∧ e.csr = d.csr ∧
      (∀ p ∈ caller_saved, ld32 e.mem (F + p.2) = d.get p.1) ∧
      ∀ a, (∀ o ∈ offsets, Apart (F + o) a) → ld32 e.mem a = ld32 d.mem a := by
  obtain ⟨hx, hc, hs, hr⟩ := line_saves addr caller_saved d (by decide)
  rw [hsp] at hs hr
  refine ⟨_, rfl, ?_, hc, hs, fun a ha => hr a fun p hp => ha _ (caller_offsets p hp)⟩
  intro r
  unfold Data.get
  rw [hx]

theorem entry_part.single (addr : Symbol → Word) (d : Data) :
    Entry .single d (line addr (entry_part .single) d) := by
  unfold entry_part
  simp only [line_append]
  obtain ⟨F, hF⟩ : ∃ F, F = frame_of .single d := ⟨_, rfl⟩
  have h1 : line addr [addi sp sp (-(32 * 4))] d = d.set sp F := by
    simp only [line_cons, line_nil, act]
    have hsize : (32 * 4 : Word) = 128 := by decide
    rw [hF, hsize]
    exact congrArg _ (BitVec.sub_eq_add_neg _ _).symm
  rw [h1]
  obtain ⟨e, he, hx, hc, hs, hr⟩ := caller_part addr (get_set_same d F (show sp ≠ zero by decide))
  rw [he]
  have hsp : e.get sp = F := (hx sp).trans (get_set_same _ _ (by decide))
  have h2 : line addr [csrr t0 sepc, sw t0 0x40 sp, csrr t1 scause] e =
      ((e.set t0 (d.csr sepc)).store (F + 0x40) (d.csr sepc)).set t1 (d.csr scause) := by
    simp only [line_cons, line_nil, act]
    rw [get_set_same _ _ (show t0 ≠ zero by decide), get_set_ne _ _ (show sp ≠ t0 by decide), hsp,
      csr_store, csr_set, hc, csr_set]
  rw [h2]
  refine ⟨?_, ?_, ?_, ?_, ?_, ?_, ?_, ?_⟩
  · rw [get_set_ne _ _ (by decide), get_store, get_set_ne _ _ (by decide), hsp, hF]
  · exact get_set_same _ _ (by decide)
  · intro r n1 n2 n3
    rw [get_set_ne _ _ n3, get_store, get_set_ne _ _ n2, hx, get_set_ne _ _ n1]
  · intro p hp
    have hne : ∀ p ∈ caller_saved, p.1 ≠ sp := by decide
    rw [← hF, mem_set, mem_store, mem_set,
      ld32_st32_apart _ _ _ _ (apart_add F (caller_apart p hp).1), hs p hp,
      get_set_ne _ _ (hne p hp)]
  · rw [← hF, mem_set, mem_store, ld32_st32_same]
  · intro h
    cases h
  · intro a ha
    rw [← hF] at ha
    rw [mem_set, mem_store, mem_set, ld32_st32_apart _ _ _ _ (ha _ (by decide)), hr a ha, mem_set]
  · intro c _
    rw [csr_set, csr_store, csr_set, hc, csr_set]

theorem entry_part.dual (addr : Symbol → Word) (d : Data) :
    Entry .dual d (line addr (entry_part .dual) d) := by
  unfold entry_part
  simp only [line_append]
  obtain ⟨F, hF⟩ : ∃ F, F = frame_of .dual d := ⟨_, rfl⟩
  have h1 : line addr [csrrw sp sscratch sp, addi sp sp (-(32 * 4))] d =
      ((d.setCsr sscratch (d.get sp)).set sp (d.csr sscratch)).set sp F := by
    simp only [line_cons, line_nil, act, legal]
    have hsize : (32 * 4 : Word) = 128 := by decide
    rw [get_set_same _ _ (show sp ≠ zero by decide), hF, hsize]
    exact congrArg _ (BitVec.sub_eq_add_neg _ _).symm
  rw [h1]
  obtain ⟨e, he, hx, hc, hs, hr⟩ := caller_part addr
    (get_set_same ((d.setCsr sscratch (d.get sp)).set sp (d.csr sscratch)) F
      (show sp ≠ zero by decide))
  rw [he]
  simp only [csr_set] at hc
  have hsp : e.get sp = F := (hx sp).trans (get_set_same _ _ (by decide))
  have hepc : e.csr sepc = d.csr sepc := by rw [hc, csr_setCsr, if_neg (by decide)]
  have hscratch : e.csr sscratch = d.get sp := by rw [hc, csr_setCsr, if_pos rfl]
  have hcause : e.csr scause = d.csr scause := by rw [hc, csr_setCsr, if_neg (by decide)]
  have h2 : line addr
      [csrr t0 sepc, csrr t1 sscratch, sw t0 0x40 sp, sw t1 0x44 sp, csrr t0 scause] e =
      ((((e.set t0 (d.csr sepc)).set t1 (d.get sp)).store (F + 0x40) (d.csr sepc)).store
        (F + 0x44) (d.get sp)).set t0 (d.csr scause) := by
    simp only [line_cons, line_nil, act, csr_set, csr_store, get_store]
    rw [get_set_same _ _ (show t1 ≠ zero by decide), get_set_ne _ _ (show t0 ≠ t1 by decide),
      get_set_same _ _ (show t0 ≠ zero by decide), get_set_ne _ _ (show sp ≠ t1 by decide),
      get_set_ne _ _ (show sp ≠ t0 by decide), hsp, hepc, hscratch, hcause]
  rw [h2]
  have hx' : ∀ r, r ≠ sp → e.get r = d.get r := by
    intro r hr
    rw [hx, get_set_ne _ _ hr, get_set_ne _ _ hr, get_setCsr]
  refine ⟨?_, ?_, ?_, ?_, ?_, ?_, ?_, ?_⟩
  · rw [get_set_ne _ _ (by decide), get_store, get_store, get_set_ne _ _ (by decide),
      get_set_ne _ _ (by decide), hsp, hF]
  · dsimp only [cause_reg]
    rw [get_set_same _ _ (by decide)]
  · intro r n1 n2 n3
    rw [get_set_ne _ _ n2, get_store, get_store, get_set_ne _ _ n3, get_set_ne _ _ n2, hx' r n1]
  · intro p hp
    have hne : ∀ p ∈ caller_saved, p.1 ≠ sp := by decide
    obtain ⟨a1, a2⟩ := caller_apart p hp
    rw [← hF, mem_set, mem_store, mem_store, mem_set, mem_set,
      ld32_st32_apart _ _ _ _ (apart_add F a2), ld32_st32_apart _ _ _ _ (apart_add F a1), hs p hp,
      get_set_ne _ _ (hne p hp), get_set_ne _ _ (hne p hp), get_setCsr]
  · rw [← hF, mem_set, mem_store, ld32_st32_apart _ _ _ _ (apart_add F (by decide)), mem_store,
      ld32_st32_same]
  · intro _
    rw [← hF, mem_set, mem_store, ld32_st32_same]
  · intro a ha
    rw [← hF] at ha
    rw [mem_set, mem_store, mem_store, mem_set, mem_set,
      ld32_st32_apart _ _ _ _ (ha _ (by decide)), ld32_st32_apart _ _ _ _ (ha _ (by decide)),
      hr a ha, mem_set, mem_set, mem_setCsr]
  · intro c hsc
    rw [csr_set, csr_store, csr_store, csr_set, csr_set, hc, csr_setCsr, if_neg hsc]

theorem entry_part.spec (v : Vector) (addr : Symbol → Word) (d : Data) :
    Entry v d (line addr (entry_part v) d) := by
  cases v with
  | single => exact entry_part.single addr d
  | dual => exact entry_part.dual addr d

/-- The state at the call of `exception_handler`: the whole frame at `F`. -/
structure Framed (F : Word) (d z : Data) : Prop where
  sp : z.get .sp = F
  a0 : z.get .a0 = F
  saved : Saved z.mem F d.get (d.csr sepc)

theorem callee_part {v : Vector} (addr : Symbol → Word) (h : Entry v d e)
    (hsp : ld32 e.mem (frame_of v d + 0x44) = d.get sp) :
    Framed (frame_of v d) d (line addr (saves callee_saved ++ [mv a0 sp]) e) := by
  rw [line_append]
  obtain ⟨F, hF⟩ : ∃ F, F = frame_of v d := ⟨_, rfl⟩
  obtain ⟨hx, -, hs, hr⟩ := line_saves addr callee_saved e (by decide)
  generalize line addr (saves callee_saved) e = z at *
  have hg : ∀ r, z.get r = e.get r := by
    intro r
    unfold Data.get
    rw [hx]
  have hesp : e.get sp = F := h.sp.trans hF.symm
  rw [hesp] at hs hr
  have hmv : line addr [mv a0 sp] z = z.set a0 F := by
    simp only [line_cons, line_nil, act, mv, add_zero]
    rw [hg, hesp]
  rw [hmv, ← hF]
  refine ⟨?_, get_set_same _ _ (by decide), ⟨?_, ?_⟩⟩
  · rw [get_set_ne _ _ (by decide), hg, hesp]
  · intro p hp
    rw [mem_set]
    simp only [eframe, List.mem_cons, List.mem_append] at hp
    rcases hp with rfl | hp | hp
    · rw [hr _ fun q hq => apart_add F (callee_apart q hq).2.1, hF, hsp]
    · rw [hr _ fun q hq => apart_add F ((callee_apart q hq).2.2 p hp), hF, h.regs p hp]
    · have hne : ∀ p ∈ callee_saved, p.1 ≠ .sp ∧ p.1 ≠ .t0 ∧ p.1 ≠ .t1 := by decide
      obtain ⟨n1, n2, n3⟩ := hne p hp
      rw [hs p hp, h.others _ n1 n2 n3]
  · rw [mem_set, hr _ fun q hq => apart_add F (callee_apart q hq).1, hF, h.pc]

theorem exception_part.spec (v : Vector) (addr : Symbol → Word) (h : Entry v d e) :
    Framed (frame_of v d) d (line addr (exception_part v) e) := by
  cases v with
  | dual => exact callee_part addr h (h.old_sp rfl)
  | single =>
    unfold exception_part
    rw [List.append_assoc, line_append]
    obtain ⟨F, hF⟩ : ∃ F, F = frame_of .single d := ⟨_, rfl⟩
    have hold : F + 32 * 4 = d.get sp := by
      rw [hF]
      exact BitVec.sub_add_cancel _ _
    have hsp : e.get sp = F := h.sp.trans hF.symm
    have h1 : line addr [addi t0 sp (32 * 4), sw t0 0x44 sp] e =
        (e.set t0 (d.get sp)).store (F + 0x44) (d.get sp) := by
      simp only [line_cons, line_nil, act]
      rw [get_set_same _ _ (show t0 ≠ zero by decide), get_set_ne _ _ (show sp ≠ t0 by decide),
        hsp, hold]
    rw [h1]
    apply callee_part addr
    · refine ⟨?_, ?_, ?_, ?_, ?_, ?_, ?_, ?_⟩
      · rw [get_store, get_set_ne _ _ (by decide), h.sp]
      · rw [get_store]
        exact (get_set_ne _ _ (show t1 ≠ t0 by decide)).trans h.cause
      · intro r n1 n2 n3
        rw [get_store, get_set_ne _ _ n2, h.others r n1 n2 n3]
      · intro p hp
        rw [mem_store, mem_set, ← hF, ld32_st32_apart _ _ _ _ (apart_add F (caller_apart p hp).2),
          hF, h.regs p hp]
      · rw [mem_store, mem_set, ← hF, ld32_st32_apart _ _ _ _ (apart_add F (by decide)), hF, h.pc]
      · intro hv
        cases hv
      · intro a ha
        rw [mem_store, mem_set, hF, ld32_st32_apart _ _ _ _ (ha _ (by decide)), h.rest a ha]
      · intro c hc
        rw [csr_store, csr_set, h.csr c hc]
    · rw [mem_store, ← hF, ld32_st32_same]

/-- What the way out leaves behind, from the frame at `sp`. -/
structure Exit (v : Vector) (d z : Data) : Prop where
  regs : ∀ p ∈ caller_saved, z.get p.1 = ld32 d.mem (d.get .sp + p.2)
  pc : z.csr sepc = legal sepc (ld32 d.mem (d.get .sp + 0x40))
  sp : z.get .sp = match v with
    | .single => d.get .sp + 128
    | .dual => ld32 d.mem (d.get .sp + 0x44)
  others : ∀ r, r ≠ .sp → r ∉ caller_saved.map Prod.fst → z.get r = d.get r
  sscratch : v = .dual → z.csr sscratch = d.get .sp + 128
  csr : ∀ c, c ≠ sepc → c ≠ .sscratch → z.csr c = d.csr c
  mem : z.mem = d.mem

theorem exit_part.single (addr : Symbol → Word) (d : Data) :
    Exit .single d (line addr (exit_part .single) d) := by
  unfold exit_part
  simp only [line_append]
  obtain ⟨pc, hpc⟩ : ∃ pc, pc = ld32 d.mem (d.get sp + 0x40) := ⟨_, rfl⟩
  have h1 : line addr [lw t0 0x40 sp, csrw sepc t0] d =
      (d.set t0 pc).setCsr sepc (legal sepc pc) := by
    simp only [line_cons, line_nil, act]
    rw [get_set_same _ _ (show t0 ≠ zero by decide), hpc]
  rw [h1]
  obtain ⟨hm, hc, hs, hr⟩ := line_restores addr caller_saved
    ((d.set t0 pc).setCsr sepc (legal sepc pc)) (by decide) (by decide) (by decide)
  generalize line addr (restores caller_saved) ((d.set t0 pc).setCsr sepc (legal sepc pc)) = e at *
  have hsp0 : ((d.set t0 pc).setCsr sepc (legal sepc pc)).get sp = d.get sp := by
    rw [get_setCsr, get_set_ne _ _ (by decide)]
  have hsp : e.get sp = d.get sp := (hr sp (by decide)).trans hsp0
  rw [hsp0] at hs
  have h2 : line addr [addi sp sp (32 * 4)] e = e.set sp (d.get sp + 128) := by
    simp only [line_cons, line_nil, act]
    rw [hsp]
    exact congrArg _ (congrArg _ (by decide))
  rw [h2]
  refine ⟨?_, ?_, get_set_same _ _ (by decide), ?_, ?_, ?_, ?_⟩
  · intro p hp
    have hne : ∀ p ∈ caller_saved, p.1 ≠ .sp := by decide
    rw [get_set_ne _ _ (hne p hp), hs p hp, mem_setCsr, mem_set]
  · rw [csr_set, hc, csr_setCsr, if_pos rfl, hpc]
  · intro r n1 n2
    have hne : r ≠ t0 := by
      rintro rfl
      exact n2 (by decide)
    rw [get_set_ne _ _ n1, hr r n2, get_setCsr, get_set_ne _ _ hne]
  · intro hv
    cases hv
  · intro c n1 _
    rw [csr_set, hc, csr_setCsr, if_neg n1, csr_set]
  · rw [mem_set, hm, mem_setCsr, mem_set]

theorem exit_part.dual (addr : Symbol → Word) (d : Data) :
    Exit .dual d (line addr (exit_part .dual) d) := by
  unfold exit_part
  simp only [line_append]
  obtain ⟨pc, hpc⟩ : ∃ pc, pc = ld32 d.mem (d.get sp + 0x40) := ⟨_, rfl⟩
  obtain ⟨top, htop⟩ : ∃ top, top = d.get sp + 32 * 4 := ⟨_, rfl⟩
  have h1 : line addr [addi t0 sp (32 * 4), csrw sscratch t0, lw t0 0x40 sp, csrw sepc t0] d =
      ((((d.set t0 top).setCsr sscratch top).set t0 pc).setCsr sepc (legal sepc pc)) := by
    simp only [line_cons, line_nil, act, get_setCsr]
    rw [get_set_same _ _ (show t0 ≠ zero by decide), get_set_ne _ _ (show sp ≠ t0 by decide),
      get_set_same _ _ (show t0 ≠ zero by decide), mem_setCsr, mem_set, ← hpc, ← htop]
    rfl
  rw [h1]
  generalize hd1 : (((d.set t0 top).setCsr sscratch top).set t0 pc).setCsr sepc (legal sepc pc) = d1
  have h1x : ∀ r, r ≠ t0 → d1.get r = d.get r := by
    intro r hr
    rw [← hd1, get_setCsr, get_set_ne _ _ hr, get_setCsr, get_set_ne _ _ hr]
  have h1m : d1.mem = d.mem := by rw [← hd1, mem_setCsr, mem_set, mem_setCsr, mem_set]
  have h1c : ∀ c, d1.csr c =
      if c = sepc then legal sepc pc else if c = sscratch then top else d.csr c := by
    intro c
    rw [← hd1, csr_setCsr, csr_set, csr_setCsr, csr_set]
  obtain ⟨hm, hc, hs, hr⟩ := line_restores addr caller_saved d1 (by decide) (by decide) (by decide)
  generalize line addr (restores caller_saved) d1 = e at *
  have hsp : e.get sp = d.get sp := (hr sp (by decide)).trans (h1x sp (by decide))
  rw [h1x sp (by decide), h1m] at hs
  have h2 : line addr [lw sp 0x44 sp] e = e.set sp (ld32 d.mem (d.get sp + 0x44)) := by
    simp only [line_cons, line_nil, act]
    rw [hsp, hm, h1m]
  rw [h2]
  refine ⟨?_, ?_, get_set_same _ _ (by decide), ?_, ?_, ?_, ?_⟩
  · intro p hp
    have hne : ∀ p ∈ caller_saved, p.1 ≠ .sp := by decide
    rw [get_set_ne _ _ (hne p hp), hs p hp]
  · rw [csr_set, hc, h1c, if_pos rfl, hpc]
  · intro r n1 n2
    have hne : r ≠ t0 := by
      rintro rfl
      exact n2 (by decide)
    rw [get_set_ne _ _ n1, hr r n2, h1x r hne]
  · intro _
    rw [csr_set, hc, h1c, if_neg (by decide), if_pos rfl, htop]
    exact congrArg _ (by decide)
  · intro c n1 n2
    rw [csr_set, hc, h1c, if_neg n1, if_neg n2]
  · rw [mem_set, hm, h1m]

theorem exit_part.spec (v : Vector) (addr : Symbol → Word) (d : Data) :
    Exit v d (line addr (exit_part v) d) := by
  cases v with
  | single => exact exit_part.single addr d
  | dual => exact exit_part.dual addr d

end

end os_workshop.vectors
