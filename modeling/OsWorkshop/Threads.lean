-- The thread libraries of two examples, the cooperative one
-- (src/example/ex10-threads-cooperative.c) and the preemptive one
-- (src/example/ex11-threads-preemptive.c). They differ in the stacks, in the
-- first frame of a thread, and in what switches.
import OsWorkshop.Memory
import OsWorkshop.Runs

open os_workshop.memory
open os_workshop.runs

namespace os_workshop.threads

/-! ## The two libraries -/

structure Lib where
  /-- Whether the timer switches; otherwise `yield` does. -/
  preemptive : Bool
  /-- How far `alloc_stack` moves. -/
  stack_size : Word

def cooperative : Lib := { preemptive := false, stack_size := 8192 }
def preemptive : Lib := { preemptive := true, stack_size := 4096 }

def DRAM_BASE : Word := 0x40000000
def MEMORY_TOP : Word := 0x42000000
def THREAD_MAGIC : Word := 0x5c95bec3

/-- Where the linker put the things that the library names. The image of a program ends before
the heap begins. -/
structure Layout where
  thread0 : Word
  thread0_below : thread0.toNat + 80 ≤ 0x40100000
  context_entry : Word
  trap_exit : Word
  thread_exit : Word

/-! ## Threads

A `thread_t` has `magic` at 0, `id` at 4, `next` at 8, `prev` at 12, and its `ctxt` from 16 on:
there the `pc` at 16, `sp` at 20, `gp` at 24, `tp` at 28 and `s0` to `s11` from 32 on. -/

def next (m : Mem) (t : Word) : Word := ld32 m (t + 8)
def prev (m : Mem) (t : Word) : Word := ld32 m (t + 12)

/-- The memory, the variables of the library, and the registers that it names. -/
structure Sys where
  mem : Mem
  next_stack : Word
  next_heap : Word
  next_thread_id : Word
  tp : Word
  /-- The bits `SIE` and `SPIE` of `sstatus`. -/
  sie : Bool
  spie : Bool

def Sys.store (s : Sys) (a v : Word) : Sys := { s with mem := st32 s.mem a v }

def Sys.memset (s : Sys) (a : Word) (v : Byte) (n : Nat) : Sys := { s with mem := fill s.mem a v n }

def alloc_stack (lib : Lib) (s : Sys) : Sys × Word :=
  let bottom := s.next_stack - lib.stack_size
  ({ s with next_stack := bottom }.memset bottom 0xee 4096, s.next_stack)

def alloc (s : Sys) (sz : Word) : Sys × Word :=
  let sz := (sz + 31) &&& ~~~31
  ({ s with next_heap := s.next_heap + sz }.memset s.next_heap 0 sz.toNat, s.next_heap)

structure Locals where
  t : Word
  next : Word
  prev : Word

/-- A statement of a function, with the variables of the function. -/
abbrev Stmt := Sys → Locals → Sys × Locals

def run_all (body : List Stmt) (s : Sys) (l : Locals) : Sys × Locals :=
  body.foldl (fun x stmt => stmt x.1 x.2) (s, l)

section

variable (lib : Lib) (lay : Layout)

/-- The first context of a thread, in which `context_entry` calls `fn`. -/
def thunk (fn arg : Word) : List Stmt :=
  [fun s l => (s.store (l.t + 32) arg, l),
   fun s l => (s.store (l.t + 36) 0, l),
   fun s l => (s.store (l.t + 40) fn, l),
   fun s l => (s.store (l.t + 16) lay.context_entry, l)]

/-- The first context of a thread, in which `trap_exit` returns to `fn` by a frame of its own. -/
def trap_frame (fn arg : Word) : List Stmt :=
  [fun s l => (s.store (l.t + 16) lay.trap_exit, l),
   fun s l => (s.store (l.t + 20) (ld32 s.mem (l.t + 20) - 128), l),
   fun s l => (s.memset (ld32 s.mem (l.t + 20)) 0 80, l),
   fun s l => (s.store (ld32 s.mem (l.t + 20)) lay.thread_exit, l),
   fun s l => (s.store (ld32 s.mem (l.t + 20) + 0x20) arg, l),
   fun s l => (s.store (ld32 s.mem (l.t + 20) + 0x40) fn, l)]

/-- The new thread and its place in the ring. -/
def create_link : List Stmt :=
  [fun s l => ((alloc s 80).1, { l with t := (alloc s 80).2 }),
   fun s l => (s.store l.t THREAD_MAGIC, l),
   fun s l => ({ s.store (l.t + 4) s.next_thread_id with
     next_thread_id := s.next_thread_id + 1 }, l),
   fun s l => (s.store (l.t + 8) s.tp, l),
   fun s l => (s.store (l.t + 12) (prev s.mem s.tp), l),
   fun s l => (s.store (prev s.mem l.t + 8) l.t, l),
   fun s l => (s.store (next s.mem l.t + 12) l.t, l)]

/-- Its stack and its first context. -/
def create_context (fn arg : Word) : List Stmt :=
  [fun s l => (s.store (l.t + 28) l.t, l),
   fun s l => ((alloc_stack lib s).1.store (l.t + 20) (alloc_stack lib s).2, l)] ++
  if lib.preemptive then trap_frame lay fn arg else thunk lay fn arg

/-- `thread_create` between its `irq_disable` and its `irq_enable`. -/
def thread_create (fn arg : Word) : List Stmt := create_link ++ create_context lib lay fn arg

/-- `thread_exit` up to its test for the last thread, after its `irq_disable`. -/
def exit_head : List Stmt :=
  (if lib.preemptive then [fun s l => ({ s with spie := true }, l)] else []) ++
  [fun s l => (s, { l with next := next s.mem s.tp }),
   fun s l => (s, { l with prev := prev s.mem s.tp })]

/-- `thread_exit` from there to its switch. -/
def exit_unlink : List Stmt :=
  [fun s l => (s.store (l.next + 12) l.prev, l),
   fun s l => (s.store (l.prev + 8) l.next, l),
   fun s l => (s.store (s.tp + 12) 0, l),
   fun s l => (s.store (s.tp + 8) 0, l)]

end

/-- The registers of the running thread go to its context, `regs` with its own `tp`. The
context of the thread at `dst` is loaded. -/
def context_switch (regs : List Byte) (s : Sys) (dst : Word) : Sys :=
  let mem := st32 (write s.mem (s.tp + 16) regs) (s.tp + 28) s.tp
  { s with mem := mem, tp := ld32 mem (dst + 28) }

/-! ## The system -/

/-- Where a thread is. -/
inductive Pc
  | user
  | thread_create (rest : List Stmt) (l : Locals)
  | exit_head (rest : List Stmt) (l : Locals)
  | exit_unlink (rest : List Stmt) (l : Locals)
  /-- The loop after the last thread has exited. -/
  | all_exited
  /-- The loop after the switch of `thread_exit`. -/
  | zombie

structure Cpu where
  sys : Sys
  pc : Pc
  /-- Where each thread goes on when it is switched to. -/
  ctxt : Word → Pc

inductive Event
  | inner
  /-- `thread_create` is called. -/
  | call
  | create (t : Word)
  | exit (t : Word)
  | switch
deriving DecidableEq

section

variable (lib : Lib) (lay : Layout)

/-- Of the preemptive library alone. -/
def irq_disable (s : Sys) : Sys := if lib.preemptive then { s with sie := false } else s

def irq_enable (s : Sys) : Sys := if lib.preemptive then { s with sie := true } else s

/-- What `sret` does at the end of `trap_exit`. -/
def sret (s : Sys) : Sys := if lib.preemptive then { s with sie := s.spie, spie := true } else s

/-- The switch to the thread at `dst`, after which the running thread goes on at `back`. -/
def Cpu.switch (c : Cpu) (regs : List Byte) (dst : Word) (back : Pc) : Cpu where
  sys := sret lib (context_switch regs c.sys dst)
  pc := (Function.update c.ctxt c.sys.tp back) dst
  ctxt := Function.update c.ctxt c.sys.tp back

/-- One statement of the running thread, or an interrupt. Between a call and its `irq_disable`,
and between the `irq_enable` and the return, a thread is in its own code. -/
inductive Step : Steps Cpu Event
  /-- The program masks or unmasks interrupts itself. -/
  | irq {c : Cpu} (on : Bool) :
      c.pc = .user → Step c .inner { c with sys := { c.sys with sie := on } }
  | call_create {c : Cpu} (fn arg : Word) (l : Locals) :
      c.pc = .user →
      Step c .call { c with
        sys := irq_disable lib c.sys
        pc := .thread_create (thread_create lib lay fn arg) l }
  | create_stmt {c : Cpu} {stmt : Stmt} {rest : List Stmt} {l : Locals} :
      c.pc = .thread_create (stmt :: rest) l →
      Step c .inner { c with
        sys := (stmt c.sys l).1
        pc := .thread_create rest (stmt c.sys l).2 }
  /-- The first context of the new thread leads to its own code. -/
  | create_return {c : Cpu} {l : Locals} :
      c.pc = .thread_create [] l →
      Step c (.create l.t)
        { sys := irq_enable lib c.sys
          pc := .user
          ctxt := Function.update c.ctxt l.t .user }
  | call_exit {c : Cpu} (l : Locals) :
      c.pc = .user →
      Step c .inner { c with sys := irq_disable lib c.sys, pc := .exit_head (exit_head lib) l }
  | head_stmt {c : Cpu} {stmt : Stmt} {rest : List Stmt} {l : Locals} :
      c.pc = .exit_head (stmt :: rest) l →
      Step c .inner { c with
        sys := (stmt c.sys l).1
        pc := .exit_head rest (stmt c.sys l).2 }
  | exit_last {c : Cpu} {l : Locals} :
      c.pc = .exit_head [] l → l.next = c.sys.tp → Step c .inner { c with pc := .all_exited }
  | exit_more {c : Cpu} {l : Locals} :
      c.pc = .exit_head [] l → l.next ≠ c.sys.tp →
      Step c .inner { c with pc := .exit_unlink exit_unlink l }
  | unlink_stmt {c : Cpu} {stmt : Stmt} {rest : List Stmt} {l : Locals} :
      c.pc = .exit_unlink (stmt :: rest) l →
      Step c .inner { c with
        sys := (stmt c.sys l).1
        pc := .exit_unlink rest (stmt c.sys l).2 }
  | exit_switch {c : Cpu} {l : Locals} (regs : List Byte) :
      c.pc = .exit_unlink [] l → regs.length = 64 →
      Step c (.exit c.sys.tp) (c.switch lib regs l.next .zombie)
  | yield {c : Cpu} (regs : List Byte) :
      lib.preemptive = false → c.pc = .user → regs.length = 64 →
      Step c .switch (c.switch lib regs (next c.sys.mem c.sys.tp) c.pc)
  /-- The timer, wherever the running thread is. The trap clears `SIE` and keeps it in `SPIE`. -/
  | interrupt {c : Cpu} (regs : List Byte) :
      lib.preemptive = true → c.sys.sie = true → regs.length = 64 →
      Step c .switch
        ({ c with sys := { c.sys with sie := false, spie := true } }.switch lib regs
          (next c.sys.mem c.sys.tp) c.pc)

/-- `thread0` alone, after `thread_init`. -/
structure Start (c : Cpu) : Prop where
  next_stack : c.sys.next_stack = MEMORY_TOP - 4096
  next_heap : c.sys.next_heap = DRAM_BASE + 1024 * 1024
  tp : c.sys.tp = lay.thread0
  next : next c.sys.mem lay.thread0 = lay.thread0
  prev : prev c.sys.mem lay.thread0 = lay.thread0
  pc : c.pc = .user

end

end os_workshop.threads
