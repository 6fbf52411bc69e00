-- context_switch of src/hw/src/context-switch.S, instruction by instruction: the
-- registers that C code keeps go to one frame and come from another.
import OsWorkshop.Rv32

open os_workshop.memory os_workshop.rv32

namespace os_workshop.switching

open Reg Instr

/-! ## The code -/

/-- It has no labels. -/
def context_switch : List (Instr Empty) := [
  sw ra 0x00 a0,
  sw sp 0x04 a0,
  sw gp 0x08 a0,
  sw tp 0x0C a0,
  sw s0 0x10 a0,
  sw s1 0x14 a0,
  sw s2 0x18 a0,
  sw s3 0x1C a0,
  sw s4 0x20 a0,
  sw s5 0x24 a0,
  sw s6 0x28 a0,
  sw s7 0x2C a0,
  sw s8 0x30 a0,
  sw s9 0x34 a0,
  sw s10 0x38 a0,
  sw s11 0x3C a0,
  lw ra 0x00 a1,
  lw sp 0x04 a1,
  lw gp 0x08 a1,
  lw tp 0x0C a1,
  lw s0 0x10 a1,
  lw s1 0x14 a1,
  lw s2 0x18 a1,
  lw s3 0x1C a1,
  lw s4 0x20 a1,
  lw s5 0x24 a1,
  lw s6 0x28 a1,
  lw s7 0x2C a1,
  lw s8 0x30 a1,
  lw s9 0x34 a1,
  lw s10 0x38 a1,
  lw s11 0x3C a1,
  ret]

/-- The fields of `cframe_t`. The `pc` of it is the return address. -/
def cframe : Frame := [
  (ra, 0x00), (sp, 0x04), (gp, 0x08), (tp, 0x0C), (s0, 0x10), (s1, 0x14), (s2, 0x18), (s3, 0x1C),
  (s4, 0x20), (s5, 0x24), (s6, 0x28), (s7, 0x2C), (s8, 0x30), (s9, 0x34), (s10, 0x38), (s11, 0x3C)]

theorem context_switch_eq :
    context_switch = saves_at a0 cframe ++ restores_at a1 cframe ++ [ret] := rfl

/-- The registers after its last instruction. -/
def loaded (d : Data) : Data := line Empty.elim context_switch d

/-- The state after its `ret`. -/
def switched (d : Data) : State := ⟨goes Empty.elim 0 ret (loaded d), loaded d⟩

/-! ## What it does -/

theorem cframe_le : ∀ p ∈ cframe, p.2.toNat ≤ 0x3C := by decide

/-- `from` is at `a0` of `d`, and `to` is at its `a1`. -/
structure Switched (d e : Data) : Prop where
  saved : ∀ p ∈ cframe, ld32 e.mem (d.get a0 + p.2) = d.get p.1
  rest : ∀ x, 64 ≤ memory.dist (d.get a0) x → e.mem x = d.mem x
  regs : ∀ p ∈ cframe, e.get p.1 = ld32 e.mem (d.get a1 + p.2)
  csr : e.csr = d.csr

theorem loaded.spec (d : Data) : Switched d (loaded d) := by
  obtain ⟨hx, hcsr, hsaved, hrest⟩ := line_saves_at Empty.elim a0 cframe d (by decide)
  generalize hm : line Empty.elim (saves_at a0 cframe) d = m at *
  obtain ⟨hmem, hcsr', hregs, -⟩ :=
    line_restores_at Empty.elim a1 cframe m (by decide) (by decide) (by decide)
  generalize he : line Empty.elim (restores_at a1 cframe) m = e at *
  have hall : loaded d = e := by
    unfold loaded
    rw [context_switch_eq, line_append, line_append, hm, he]
    rfl
  have ha1 : m.get a1 = d.get a1 := by
    unfold Data.get
    rw [hx]
  rw [hall]
  refine ⟨?_, ?_, ?_, hcsr'.trans hcsr⟩
  · intro p hp
    rw [hmem]
    exact hsaved p hp
  · intro x h64
    rw [hmem]
    apply hrest
    intro p hp
    have hle := cframe_le p hp
    unfold memory.dist at *
    bv_omega
  · intro p hp
    rw [hmem, hregs p hp, ha1]

/-- It goes on at the `pc` of the frame. -/
theorem switched_pc (d : Data) :
    (switched d).pc = ld32 (loaded d).mem (d.get a1) &&& (0xFFFFFFFE : Word) := by
  have hra := (loaded.spec d).regs (ra, 0x00) List.mem_cons_self
  have h0 : d.get a1 + (0x00 : Word) = d.get a1 := BitVec.add_zero _
  dsimp only [switched, goes]
  rw [hra]
  dsimp only
  rw [h0]

end os_workshop.switching
