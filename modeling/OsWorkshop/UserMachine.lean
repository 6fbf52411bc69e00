-- What X/OS is to a user program: a machine that has the registers of the program and the bytes
-- of its own pages, three system calls, and interrupts that leave no trace. What it prints is
-- all that comes out.
import OsWorkshop.DebugPrintf
import OsWorkshop.SerialLine
import OsWorkshop.TrapLaws

open os_workshop.memory os_workshop.rv32 os_workshop.traps
open os_workshop.printf (xprintf literals between_spec)
open os_workshop.runs

namespace os_workshop.user_machine

open Reg

/-! ## The kernel's part (src/xos/src/kernel.c) -/

/-- What it prints before it loops for ever. -/
def sys_exit (n : Word) : Option (List Byte) :=
  (xprintf "\n[ user exit (status %d) ]\n" [.word n]).map serial.xputs

def sys_xputc (ch : Word) : List Byte := serial.xputc ch

def exit_front : List Byte := "\n[ user exit (status ".toList.map printf.chr
def exit_back : List Byte := ") ]\n".toList.map printf.chr

/-- The directives and the plain characters of the format. -/
def exit_items (n : Word) : List printf.Item :=
  literals exit_front (by decide) ++
    printf.Item.directive ⟨[], 0, .int⟩ (.signed (n.setWidth 64)) :: literals exit_back (by decide)

/-- The status is a number that can be printed, whatever it is. -/
theorem sys_exit_prints (n : Word) : ∃ out, sys_exit n = some out := by
  obtain ⟨hchars, hargs, -⟩ := between_spec exit_front exit_back (by decide) (by decide)
    (.directive ⟨[], 0, .int⟩ (.signed (n.setWidth 64)))
  have hword : (printf.Item.directive ⟨[], 0, .int⟩ (.signed (n.setWidth 64))).args = [.word n] := by
    simp [printf.Item.args, printf.Conversion.args, printf.Size.arg]
  have hprints : xprintf "\n[ user exit (status %d) ]\n" [.word n] = _ :=
    printf.xprintf_items (exit_items n) hchars (hargs.trans hword)
  unfold sys_exit
  rw [hprints]
  exact ⟨_, rfl⟩

/-! ## The machine -/

/-- The pc, the registers, and the bytes at the addresses `R` of the program. -/
@[ext] structure User (R : Word → Prop) where
  pc : Word
  x : Reg → Word
  x0 : x .zero = 0
  mem : {a // R a} → Byte

variable {R : Word → Prop}

/-- A program goes by what it has: it takes a step to an instruction, or is at an `ecall`, or at
an instruction that excepts. -/
structure Program (R : Word → Prop) where
  step : User R → User R → Prop
  aligned : ∀ {u v}, step u v → v.pc.toNat % 4 = 0
  ecall : Word → ({a // R a} → Byte) → Prop
  excepts : User R → Word → Prop
  excepts_cause : ∀ {u cause}, excepts u cause → IsException cause
  ecall_only : ∀ {u : User R}, ecall u.pc u.mem → (∀ v, ¬ step u v) ∧ ∀ cause, ¬ excepts u cause

def Program.calls (P : Program R) (u : User R) : Prop := P.ecall u.pc u.mem

/-- The program after a call, with the value that it got in `a0`. -/
def User.back (u : User R) (pc v : Word) : User R where
  pc := pc
  x := with_a0 u.x v
  x0 := u.x0
  mem := u.mem

inductive Machine (R : Word → Prop)
  | running (u : User R)
  | halted

/-- One step, with what is printed. A void call leaves anything in `a0`, and what is printed of
an exception is left open. -/
inductive Step (P : Program R) : Steps (Machine R) (List Byte)
  | own {u v : User R} : P.step u v → Step P (.running u) [] (.running v)
  | interrupt {u : User R} : Step P (.running u) [] (.running u)
  | exit {u : User R} {out : List Byte} :
      P.calls u → u.x t0 = 0 → sys_exit (u.x a0) = some out → Step P (.running u) out .halted
  | xputc {u : User R} {v : Word} :
      P.calls u → u.x t0 = 1 →
      Step P (.running u) (sys_xputc (u.x a0)) (.running (u.back (u.pc + 4) v))
  | thread_create {u : User R} :
      P.calls u → u.x t0 = 2 →
      Step P (.running u) [] (.running (u.back (u.pc + 4) XOS_ERR_NOT_SUPPORTED))
  | refused {u : User R} :
      P.calls u → SYSCALL_COUNT ≤ u.x t0 →
      Step P (.running u) [] (.running (u.back u.pc XOS_ERR_BAD_SYSCALL))
  | exception {u : User R} {cause : Word} {out : List Byte} :
      P.excepts u cause → Step P (.running u) out .halted

/-! ## A call that is refused -/

/-- The program stands at a call with a number that there is not. -/
structure Stuck (P : Program R) (u v : User R) : Prop where
  calls : P.calls v
  number : SYSCALL_COUNT ≤ v.x t0
  pc : v.pc = u.pc
  regs : ∀ r, r ≠ a0 → v.x r = u.x r
  mem : v.mem = u.mem

theorem Stuck.step {P : Program R} {u v : User R} {out : List Byte} {m : Machine R}
    (h : Stuck P u v) (hs : Step P (.running v) out m) :
    out = [] ∧ ∃ w, m = .running w ∧ Stuck P u w := by
  have hnumber : ∀ n : Word, n < SYSCALL_COUNT → v.x t0 ≠ n := by
    rintro n hn he
    exact absurd (he ▸ h.number) (BitVec.not_le.mpr hn)
  cases hs with
  | own hstep => exact absurd hstep ((P.ecall_only h.calls).1 _)
  | interrupt => exact ⟨rfl, v, rfl, h⟩
  | exit _ h0 _ => exact absurd h0 (hnumber _ (by decide))
  | xputc _ h1 => exact absurd h1 (hnumber _ (by decide))
  | thread_create _ h2 => exact absurd h2 (hnumber _ (by decide))
  | refused _ _ =>
    refine ⟨rfl, _, rfl, h.calls, ?_, h.pc, ?_, h.mem⟩
    · exact h.number
    · intro r hr
      exact (if_neg hr).trans (h.regs r hr)
  | exception he => exact absurd he ((P.ecall_only h.calls).2 _)

/-- It never gets on, and prints nothing more. -/
theorem stuck_for_ever {P : Program R} {u : User R} {outs : List (List Byte)} {m : Machine R}
    (hcalls : P.calls u) (hge : SYSCALL_COUNT ≤ u.x t0)
    (hrun : Run (Step P) (.running u) outs m) :
    (∀ o ∈ outs, o = []) ∧ ∃ v, m = .running v ∧ Stuck P u v := by
  refine hrun.carries (I := fun outs m => (∀ o ∈ outs, o = []) ∧ ∃ v, m = .running v ∧ Stuck P u v)
    ⟨by simp, u, rfl, hcalls, hge, rfl, fun _ _ => rfl, rfl⟩ ?_
  rintro outs m out m' ⟨hnone, v, rfl, hv⟩ hs
  obtain ⟨rfl, w, rfl, hw⟩ := hv.step hs
  refine ⟨?_, w, rfl, hw⟩
  intro o ho
  rcases List.mem_append.mp ho with ho | ho
  · exact hnone o ho
  · exact List.mem_singleton.mp ho

end os_workshop.user_machine
