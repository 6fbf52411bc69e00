-- The preemptive library (src/example/ex11-threads-preemptive.c) on the machine:
-- the registers of the threads, the frames that trap_entry and thread_create put
-- on their stacks, and the one that context_switch keeps in each thread_t.
import OsWorkshop.ContextSwitch
import OsWorkshop.RunQueue
import OsWorkshop.TrapVectors

open os_workshop.memory
open os_workshop.runs
open os_workshop.rv32
open os_workshop.frames
open os_workshop.switching
open os_workshop.threads (Layout Sys Locals run_all MEMORY_TOP)

namespace os_workshop.preemption

open Reg Csr

/-! ## The compiled code -/

/-- The program as it was linked. What the C code does is a relation. -/
structure Program where
  lay : Layout
  k : vectors.Link .single
  trap_exit : lay.trap_exit = k.im.addr .trap_exit
  context_switch : Word
  switch_outside : k.im.fetch context_switch = none
  switch_apart : context_switch ≠ k.im.addr .interrupt_handler
  /-- The C code that a trap runs, with whether `EV_PENDING` of the timer is set, up to its next
  call or return. -/
  code : Bool → State → State → Prop
  /-- How much of the stack `interrupt_handler` uses. -/
  room : Nat
  room_le : room + 128 ≤ 4096

/-- `interrupt_handler`: the contexts of its call of `context_switch`, which it makes if the timer
is pending. The switch is from the running thread to the next one. -/
def interrupt_handler (pending : Bool) (m : Mem) (current : Word) : Option (Word × Word) :=
  if pending then some (current + 16, threads.next m current + 16) else none

/-- Everything in memory is as before but the stack below `sp`, and the devices. -/
def Below (room : Nat) (sp : Word) (m m' : Mem) : Prop :=
  ∀ a : Word, a.toNat < MEMORY_TOP.toNat → a.toNat + room < sp.toNat ∨ sp.toNat ≤ a.toNat →
    m' a = m a

/-- A call that was entered in `c` returns in `w`, after it last went on in `v`. -/
structure Returns (room : Nat) (c v w : State) : Prop where
  pc : w.pc = c.d.get ra
  regs : ∀ r ∈ preserved, w.d.get r = c.d.get r
  mem : Below room (c.d.get sp) v.d.mem w.d.mem
  sstatus : w.d.csr sstatus = v.d.csr sstatus

namespace Program

variable (P : Program)

/-- `interrupt_handler` is entered on a stack with room for it, above the `thread_t`. -/
structure Entered (c : State) : Prop where
  pc : c.pc = P.k.im.addr .interrupt_handler
  stack : (c.d.get tp).toNat + 80 + P.room ≤ (c.d.get sp).toNat
  memory : (c.d.get sp).toNat ≤ MEMORY_TOP.toNat

/-- The call of `context_switch` in the state `u` is the last thing that the C code does, or it
goes on behind it when its registers and its stack are as they were. -/
inductive Back (c u : State) : Prop
  | tail_call : u.d.get ra = c.d.get ra → (∀ r ∈ preserved, u.d.get r = c.d.get r) → Back c u
  | call : P.k.im.fetch (u.d.get ra) = none → u.d.get ra ≠ P.context_switch →
      u.d.get ra &&& (0xFFFFFFFE : Word) = u.d.get ra →
      (∀ pending v w, v.pc = u.d.get ra → (∀ r ∈ preserved, v.d.get r = u.d.get r) →
        (∀ a : Word, (u.d.get sp).toNat ≤ a.toNat → a.toNat < (c.d.get sp).toNat →
          v.d.mem a = u.d.mem a) →
        P.code pending v w → Returns P.room c v w) → Back c u

/-- `interrupt_handler`, entered in `c`, has called `context_switch` in `u`. -/
structure Called (c u : State) : Prop where
  pc : u.pc = P.context_switch
  tp : u.d.get tp = c.d.get tp
  low : (c.d.get sp).toNat ≤ (u.d.get sp).toNat + P.room
  high : (u.d.get sp).toNat ≤ (c.d.get sp).toNat
  mem : Below P.room (c.d.get sp) c.d.mem u.d.mem
  sstatus : u.d.csr sstatus = c.d.csr sstatus
  back : P.Back c u

/-- With these arguments. -/
structure Calls (c u : State) (src dst : Word) : Prop extends P.Called c u where
  a0 : u.d.get a0 = src
  a1 : u.d.get a1 = dst

/-- The compiled handler, entered in `c`, has gone on to `u` as its text says. -/
def Does (c u : State) : Option (Word × Word) → Prop
  | none => Returns P.room c c u
  | some (src, dst) => P.Calls c u src dst

/-- The compiled `interrupt_handler` does what its text says, by the calling convention. -/
def Obeys : Prop :=
  ∀ {pending c u}, P.Entered c → P.code pending c u →
    P.Does c u (interrupt_handler pending c.d.mem (c.d.get tp))

/-- A step outside `trap_entry` and `trap_exit`. -/
def outside (pending : Bool) (s t : State) : Prop :=
  if s.pc = P.context_switch then t = switched s.d else P.code pending s t

abbrev Path (pending : Bool) : State → State → Prop := P.k.im.Path (P.outside pending)

end Program

/-! ## The machine -/

structure Machine where
  cpu : State
  next_stack : Word
  next_heap : Word
  next_thread_id : Word
  /-- Every thread that there was, with the top of its stack. -/
  owners : List (Word × Word)

namespace Machine

def tp (m : Machine) : Word := m.cpu.d.get .tp
def sp (m : Machine) : Word := m.cpu.d.get .sp
def mem (m : Machine) : Mem := m.cpu.d.mem
def sstatus (m : Machine) : Word := m.cpu.d.csr .sstatus

/-- Supervisor interrupts are enabled. -/
def Enabled (m : Machine) : Prop := m.sstatus &&& SSTATUS_SIE ≠ 0

instance (m : Machine) : Decidable m.Enabled := inferInstanceAs (Decidable (_ ≠ _))

/-- What the statements of the library read and write. -/
def sys (m : Machine) : Sys where
  mem := m.mem
  next_stack := m.next_stack
  next_heap := m.next_heap
  next_thread_id := m.next_thread_id
  tp := m.tp
  sie := m.sstatus &&& SSTATUS_SIE != 0
  spie := m.sstatus &&& SSTATUS_SPIE != 0

/-- `thread_create` has come to its `irq_enable`, with the thread `t`. -/
def created (m : Machine) (s : Sys) (t : Word) : Machine where
  cpu :=
    { m.cpu with
      d := { m.cpu.d with mem := s.mem }.setCsr .sstatus (m.sstatus ||| SSTATUS_SIE) }
  next_stack := s.next_stack
  next_heap := s.next_heap
  next_thread_id := s.next_thread_id
  owners := m.owners ++ [(t, m.next_stack)]

end Machine

/-! ## What a thread may do by itself -/

/-- A byte of the stack of 4096 bytes below `top`. -/
def InStack (top a : Word) : Prop := top.toNat ≤ a.toNat + 4096 ∧ a.toNat < top.toNat

/-- A byte of the `thread_t` at `t`. -/
def InThread (t a : Word) : Prop := t.toNat ≤ a.toNat ∧ a.toNat < t.toNat + 80

/-- The thread `t` has not written to the stacks of others, or to a `thread_t`. -/
def Spares (owners : List (Word × Word)) (t : Word) (m m' : Mem) : Prop :=
  ∀ p ∈ owners, (∀ a, InThread p.1 a → m' a = m a) ∧
    (p.1 ≠ t → ∀ a, InStack p.2 a → m' a = m a)

/-- The stack below `top` has room for a trap at `sp`. -/
def HasRoom (room : Nat) (top sp : Word) : Prop :=
  top.toNat + 128 + room ≤ sp.toNat + 4096 ∧ sp.toNat ≤ top.toNat

/-- The running thread has done something of its own, on its own stack. -/
structure Program.Keeps (P : Program) (m m' : Machine) : Prop where
  next_stack : m'.next_stack = m.next_stack
  next_heap : m'.next_heap = m.next_heap
  next_thread_id : m'.next_thread_id = m.next_thread_id
  owners : m'.owners = m.owners
  tp : m'.tp = m.tp
  mem : Spares m.owners m.tp m.mem m'.mem
  room : m'.Enabled → ∀ p ∈ m'.owners, p.1 = m'.tp → HasRoom P.room p.2 m'.sp

/-! ## The steps -/

inductive Event
  | own
  | create (t fn arg top : Word)
  /-- The thread `t` was interrupted with its pc and its registers. -/
  | interrupt (pending : Bool) (t pc : Word) (x : Reg → Word)
  | exit (t : Word)

def exit_sstatus (st : Word) : Word := (st &&& ~~~SSTATUS_SIE) ||| (SSTATUS_SPP ||| SSTATUS_SPIE)

/-- Inside `thread_create` and `thread_exit` interrupts are masked, so each is one step. A thread is
created with an address of code, and is interrupted at an instruction. -/
inductive Program.Step (P : Program) : Steps Machine Event
  | own {m m' : Machine} : P.Keeps m m' → Step P m .own m'
  | create {m m' : Machine} {s : Sys} {l' : Locals} (fn arg : Word) (l : Locals) :
      fn.toNat % 4 = 0 →
      run_all (threads.thread_create threads.preemptive P.lay fn arg) m.sys l = (s, l') →
      P.Keeps (m.created s l'.t) m' →
      Step P m (.create l'.t fn arg m.next_stack) m'
  /-- The hardware goes to `trap_entry`, and the program to `sret`. -/
  | interrupt {m : Machine} {t : State} (pending : Bool) (cause : Word) :
      m.cpu.pc.toNat % 4 = 0 → m.Enabled → ¬ (0 : Word).sle cause →
      P.Path pending ⟨P.k.im.loc 0, trap_csrs SSTATUS_SPP m.cpu cause⟩ t → P.k.im.Left t →
      Step P m (.interrupt pending m.tp m.cpu.pc m.cpu.d.get) { m with cpu := sret_state t.d }
  /-- `thread_exit` comes to its switch in the state `c`. -/
  | exit {m : Machine} {s : Sys} {l' : Locals} {c t : State} (pending : Bool) (l : Locals) :
      threads.next m.mem m.tp ≠ m.tp →
      run_all (threads.exit_head threads.preemptive ++ threads.exit_unlink) m.sys l = (s, l') →
      c.pc = P.context_switch → c.d.get a0 = m.tp + 16 → c.d.get a1 = l'.next + 16 →
      c.d.get tp = m.tp → c.d.csr sstatus = exit_sstatus m.sstatus →
      Spares m.owners m.tp s.mem c.d.mem →
      P.Path pending c t → P.k.im.Left t →
      Step P m (.exit m.tp) { m with cpu := sret_state t.d }

/-- `thread0` alone, after `thread_init`, on the first stack. -/
structure Program.Start (P : Program) (m : Machine) : Prop where
  library : threads.Start P.lay ⟨m.sys, .user, fun _ => .user⟩
  owners : m.owners = [(P.lay.thread0, MEMORY_TOP)]
  room : m.Enabled → HasRoom P.room MEMORY_TOP m.sp

/-! ## What is to be seen by a thread -/

/-- What a thread was left with: its creation, or its last interruption. -/
inductive Record
  | created (fn arg top : Word)
  | interrupted (pc : Word) (x : Reg → Word)

def Event.note (t : Word) (r : Option Record) : Event → Option Record
  | .own | .exit _ => r
  | .create u fn arg top => if t = u then some (.created fn arg top) else r
  | .interrupt _ u pc x => if t = u then some (.interrupted pc x) else r

/-- The last thing that happened to the thread at `t`. -/
def last (t : Word) (es : List Event) : Option Record := es.foldl (Event.note t) none

def Event.apply (q : List Word) : Event → List Word
  | .own | .interrupt false .. => q
  | .create t .. => q ++ [t]
  | .interrupt true .. => q.rotate 1
  | .exit _ => q.tail

/-- The threads in the order in which they run, the running one first. -/
def queue (P : Program) (es : List Event) : List Word := es.foldl Event.apply [P.lay.thread0]

def Event.creates : Event → Bool
  | .create .. => true
  | _ => false

def creations (es : List Event) : Nat := es.countP Event.creates

/-- After the event the thread at the head of the queue has been given the processor. -/
def Event.Switches : Event → Prop
  | .interrupt .. | .exit _ => True
  | _ => False

/-- The thread `t` sees the registers that it should. -/
def Program.Sees (P : Program) (t : Word) (u : State) : Record → Prop
  | .created fn arg top => u.pc = fn ∧ u.d.get a0 = arg ∧ u.d.get ra = P.lay.thread_exit ∧
      u.d.get tp = t ∧ u.d.get sp = top
  | .interrupted pc x => u.pc = pc ∧ ∀ r, u.d.get r = x r

end os_workshop.preemption
