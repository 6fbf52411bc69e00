-- The trap entry and exit of xos/src/entry.S, instruction by instruction, and
-- what a run of it does from a trap to the C code, and from there to `sret`.
import OsWorkshop.Eframe
import OsWorkshop.LinkedText

open os_workshop.memory os_workshop.rv32 os_workshop.frames

namespace os_workshop.traps

/-! ## The code -/

/-- The symbols of entry.S, its own and those of the C code. -/
inductive Symbol
  | trap_entry | trap_exit | exception_entry | syscall_table | syscall_entry | illegal_syscall
  | user_mode_entry
  | interrupt_handler | exception_handler | sys_exit | sys_xputc | sys_thread_create
  deriving DecidableEq

abbrev EXCn_ECALL_UMODE : Word := 8
abbrev SYSCALL_COUNT : Word := 3
abbrev XOS_ERR_BAD_SYSCALL : Word := 0x0046
abbrev XOS_ERR_NOT_SUPPORTED : Word := 0x0083

abbrev Block := List (Instr Symbol)

open Reg Csr Instr

def trap_entry : Block := [
  csrrw sp sscratch sp,
  addi sp sp (-(32 * 4)),
  sw ra 0x00 sp,
  sw t0 0x04 sp,
  sw t1 0x08 sp,
  sw t2 0x0C sp,
  sw t3 0x10 sp,
  sw t4 0x14 sp,
  sw t5 0x18 sp,
  sw t6 0x1C sp,
  sw a0 0x20 sp,
  sw a1 0x24 sp,
  sw a2 0x28 sp,
  sw a3 0x2C sp,
  sw a4 0x30 sp,
  sw a5 0x34 sp,
  sw a6 0x38 sp,
  sw a7 0x3C sp,
  csrr t1 sepc,
  csrr t2 sscratch,
  sw t1 0x40 sp,
  sw t2 0x44 sp,
  sw gp 0x48 sp,
  sw tp 0x4C sp,
  sw s0 0x50 sp,
  sw s1 0x54 sp,
  sw s2 0x58 sp,
  sw s3 0x5C sp,
  sw s4 0x60 sp,
  sw s5 0x64 sp,
  sw s6 0x68 sp,
  sw s7 0x6C sp,
  sw s8 0x70 sp,
  sw s9 0x74 sp,
  sw s10 0x78 sp,
  sw s11 0x7C sp,
  addi tp sp (32 * 4),
  csrr t1 scause,
  bge t1 zero .exception_entry,
  jal .interrupt_handler]

def trap_exit : Block := [
  csrw sscratch tp,
  lw gp 0x48 sp,
  lw tp 0x4C sp,
  lw s0 0x50 sp,
  lw s1 0x54 sp,
  lw s2 0x58 sp,
  lw s3 0x5C sp,
  lw s4 0x60 sp,
  lw s5 0x64 sp,
  lw s6 0x68 sp,
  lw s7 0x6C sp,
  lw s8 0x70 sp,
  lw s9 0x74 sp,
  lw s10 0x78 sp,
  lw s11 0x7C sp,
  lw t1 0x40 sp,
  csrw sepc t1,
  lw ra 0x00 sp,
  lw t0 0x04 sp,
  lw t1 0x08 sp,
  lw t2 0x0C sp,
  lw t3 0x10 sp,
  lw t4 0x14 sp,
  lw t5 0x18 sp,
  lw t6 0x1C sp,
  lw a0 0x20 sp,
  lw a1 0x24 sp,
  lw a2 0x28 sp,
  lw a3 0x2C sp,
  lw a4 0x30 sp,
  lw a5 0x34 sp,
  lw a6 0x38 sp,
  lw a7 0x3C sp,
  lw sp 0x44 sp,
  sret]

def exception_entry : Block := [
  addi t2 zero EXCn_ECALL_UMODE,
  andi t3 t1 0xFF,
  beq t2 t3 .syscall_entry,
  mv a0 sp,
  la ra .trap_exit,
  j .exception_handler]

/-- The words of `syscall_table`. -/
def syscall_table : List Symbol := [.sys_exit, .sys_xputc, .sys_thread_create]

def syscall_entry : Block := [
  li t1 SYSCALL_COUNT,
  bgeu t0 t1 .illegal_syscall,
  slli t0 t0 2,
  la t1 .syscall_table,
  add t2 t1 t0,
  lw t3 0 t2,
  jalr t3,
  sw a0 0x20 sp,
  lw t0 0x40 sp,
  addi t0 t0 4,
  sw t0 0x40 sp,
  j .trap_exit]

def illegal_syscall : Block := [
  addi t0 zero XOS_ERR_BAD_SYSCALL,
  sw t0 0x20 sp,
  j .trap_exit]

def user_mode_entry : Block := [
  mv sp a0,
  addi tp sp (32 * 4),
  j .trap_exit]

/-- The blocks in the order of the file. -/
def text : Block :=
  trap_entry ++ trap_exit ++ exception_entry ++ syscall_entry ++ illegal_syscall ++ user_mode_entry

/-- Where each label stands in the text. The table of the system calls is data. -/
def start : Symbol → Option Nat
  | .trap_entry => some 0
  | .trap_exit => some 40
  | .exception_entry => some 75
  | .syscall_entry => some 81
  | .illegal_syscall => some 93
  | .user_mode_entry => some 96
  | _ => none

/-! ## Its straight parts -/

theorem trap_entry_eq : trap_entry =
    save_frame sscratch sepc t1 t2 ++ [addi tp sp (32 * 4), csrr t1 scause] ++
      [bge t1 zero .exception_entry, jal .interrupt_handler] := rfl

theorem trap_exit_eq : trap_exit =
    [csrw sscratch tp] ++ restores callee_saved ++ [lw t1 0x40 sp, csrw sepc t1] ++
      restores caller_saved ++ [lw sp 0x44 sp] ++ [sret] := rfl

/-- The linked kernel. -/
abbrev Link := Linked text start

def entry_part : Block :=
  save_frame sscratch sepc t1 t2 ++ [addi tp sp (32 * 4), csrr t1 scause]

/-- What the straight part of `trap_entry` leaves behind, over the kernel stack
that `sscratch` points at. -/
structure Entered (d e : Data) : Prop where
  sp : e.get .sp = d.csr sscratch - 128
  tp : e.get .tp = d.csr sscratch
  t1 : e.get .t1 = d.csr scause
  others : ∀ r, r ≠ .sp → r ≠ .tp → r ≠ .t1 → r ≠ .t2 → e.get r = d.get r
  saved : Saved e.mem (d.csr sscratch - 128) d.get (d.csr sepc)
  rest : ∀ a, (∀ o ∈ offsets, Apart (d.csr sscratch - 128 + o) a) → ld32 e.mem a = ld32 d.mem a
  sstatus : e.csr sstatus = d.csr sstatus

theorem entry_part.spec (addr : Symbol → Word) (d : Data) : Entered d (line addr entry_part d) := by
  unfold entry_part
  rw [line_append]
  have h := save_frame.spec sscratch sepc t1 t2 addr d (by decide) (fun _ => rfl) (by decide)
    (by decide) (by decide)
  generalize line addr (save_frame sscratch sepc t1 t2) d = e at h
  have hsize : (32 * 4 : Word) = 128 := by decide
  have htail : line addr [addi tp sp (32 * 4), csrr t1 scause] e =
      (e.set tp (e.get sp + 32 * 4)).set t1 (e.csr scause) := by
    simp only [line_cons, line_nil, act, csr_set]
  rw [htail]
  refine ⟨?_, ?_, ?_, ?_, ⟨?_, ?_⟩, ?_, ?_⟩
  · rw [get_set_ne _ _ (by decide), get_set_ne _ _ (by decide), h.sp]
  · rw [get_set_ne _ _ (by decide), get_set_same _ _ (by decide), h.sp, hsize,
      BitVec.sub_add_cancel]
  · rw [get_set_same _ _ (by decide), h.csr _ (by decide)]
  · intro r hsp htp ht1 ht2
    rw [get_set_ne _ _ ht1, get_set_ne _ _ htp, h.others r hsp ht1 ht2]
  · exact h.saved.regs
  · exact h.saved.pc
  · exact h.rest
  · rw [csr_set, csr_set, h.csr _ (by decide)]

def exit_part : Block :=
  [csrw sscratch tp] ++ restores callee_saved ++ [lw t1 0x40 sp, csrw sepc t1] ++
    restores caller_saved ++ [lw sp 0x44 sp]

/-- What the straight part of `trap_exit` leaves behind: every register and the
pc from the frame at `sp`, and `tp` in `sscratch`. -/
structure Exited (d z : Data) : Prop where
  regs : ∀ p ∈ eframe, z.get p.1 = ld32 d.mem (d.get .sp + p.2)
  pc : z.csr sepc = legal sepc (ld32 d.mem (d.get .sp + 0x40))
  sscratch : z.csr sscratch = d.get .tp
  sstatus : z.csr sstatus = d.csr sstatus
  mem : z.mem = d.mem

theorem exit_part.spec (addr : Symbol → Word) (d : Data) : Exited d (line addr exit_part d) := by
  unfold exit_part
  simp only [line_append]
  generalize hd1 : line addr [csrw sscratch tp] d = d1
  have h1 : d1 = d.setCsr sscratch (d.get tp) := by
    rw [← hd1]
    simp only [line_cons, line_nil, act, legal]
  have h1x : ∀ r, d1.get r = d.get r := by
    intro r
    rw [h1, get_setCsr]
  have h1m : d1.mem = d.mem := by rw [h1, mem_setCsr]
  -- the callee-saved registers
  obtain ⟨h2m, h2c, h2s, h2r⟩ := line_restores addr callee_saved d1 (by decide) (by decide)
    (by decide)
  generalize line addr (restores callee_saved) d1 = d2 at *
  rw [h1m, h1x] at h2s
  have h2sp : d2.get sp = d.get sp := by rw [h2r sp (by decide), h1x]
  -- the pc
  generalize hd3 : line addr [lw t1 0x40 sp, csrw sepc t1] d2 = d3
  have h3 : d3 = (d2.set t1 (ld32 d2.mem (d2.get sp + 0x40))).setCsr sepc
      (legal sepc (ld32 d2.mem (d2.get sp + 0x40))) := by
    rw [← hd3]
    simp only [line_cons, line_nil, act, get_set_same _ _ (show t1 ≠ zero by decide)]
  have h3m : d3.mem = d.mem := by rw [h3, mem_setCsr, mem_set, h2m, h1m]
  have h3x : ∀ r, r ≠ t1 → d3.get r = d2.get r := by
    intro r hr
    rw [h3, get_setCsr, get_set_ne _ _ hr]
  have h3pc : d3.csr sepc = legal sepc (ld32 d.mem (d.get sp + 0x40)) := by
    rw [h3, csr_setCsr, if_pos rfl, h2m, h1m, h2sp]
  have h3c : ∀ c, c ≠ sepc → d3.csr c = d1.csr c := by
    intro c hc
    rw [h3, csr_setCsr, if_neg hc, csr_set, h2c]
  have h3sp : d3.get sp = d.get sp := by rw [h3x sp (by decide), h2sp]
  -- the caller-saved registers, and the stack pointer last
  obtain ⟨h4m, h4c, h4s, h4r⟩ := line_restores addr caller_saved d3 (by decide) (by decide)
    (by decide)
  generalize line addr (restores caller_saved) d3 = d4 at *
  rw [h3m, h3sp] at h4s
  have h4sp : d4.get sp = d.get sp := by rw [h4r sp (by decide), h3sp]
  have h5 : line addr [lw sp 0x44 sp] d4 = d4.set sp (ld32 d4.mem (d4.get sp + 0x44)) := by
    simp only [line_cons, line_nil, act]
  rw [h5]
  refine ⟨?_, ?_, ?_, ?_, ?_⟩
  · intro p hp
    simp only [eframe, List.mem_cons, List.mem_append] at hp
    rcases hp with rfl | hp | hp
    · rw [get_set_same _ _ (by decide), h4m, h3m, h4sp]
    · have hne : ∀ p ∈ caller_saved, p.1 ≠ sp := by decide
      rw [get_set_ne _ _ (hne p hp), h4s p hp]
    · have hne : ∀ p ∈ callee_saved, p.1 ≠ sp ∧ p.1 ≠ t1 ∧ p.1 ∉ caller_saved.map Prod.fst := by
        decide
      obtain ⟨n1, n2, n3⟩ := hne p hp
      rw [get_set_ne _ _ n1, h4r _ n3, h3x _ n2, h2s p hp]
  · rw [csr_set, h4c, h3pc]
  · rw [csr_set, h4c, h3c _ (by decide), h1, csr_setCsr, if_pos rfl]
  · rw [csr_set, h4c, h3c _ (by decide), h1, csr_setCsr, if_neg (by decide)]
  · rw [mem_set, h4m, h3m]

end os_workshop.traps
