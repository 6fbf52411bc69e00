-- X/OS runs user programs as the user machine says. A trap goes through the text of entry.S and
-- the C code of the kernel, with what is printed on the way, and what comes back to the program
-- is one step of the machine; and each step of the machine is one that the kernel can take.
import OsWorkshop.Blocks
import OsWorkshop.TrapRuns
import OsWorkshop.UserMachine

open os_workshop.memory os_workshop.rv32 os_workshop.frames
open os_workshop.runs
open os_workshop.user_machine (User Program Machine sys_exit sys_xputc)

namespace os_workshop.traps

open Reg Csr Instr

/-! ## C code that prints -/

/-- The calls that come back, each with what it prints, and those that print and then loop for
ever. -/
structure Code where
  comes : Symbol → State → List Byte → State → Prop
  stays : Symbol → State → List Byte → Prop

/-- The C code of a call that prints `out`. -/
def Code.printing (C : Code) (out : List Byte) : Calls Symbol := fun f c u => C.comes f c out u

def no_calls : Calls Symbol := fun _ _ _ => False

/-- A run of the kernel, with what is printed on it. -/
inductive Prints (k : Link) (C : Code) : State → List Byte → State → Prop
  | refl {s : State} : Prints k C s [] s
  | text {s t u : State} {out : List Byte} :
      k.im.Step (k.inC no_calls) s t → Prints k C t out u → Prints k C s out u
  | call {f : Symbol} {c : Data} {t u : State} {o out : List Byte} :
      start f = none → C.comes f ⟨k.im.addr f, c⟩ o t → Prints k C t out u →
      Prints k C ⟨k.im.addr f, c⟩ (o ++ out) u

section

variable {k : Link} {C : Code} {call : Calls Symbol} {s t u : State} {d e : Data}
  {cause K : Word} {f : Symbol} {out : List Byte}

theorem no_calls.convention : Convention no_calls := by
  constructor
  · intro f c u h
    exact absurd h id
  · intro f c u h
    exact absurd h id

/-- A run without calls is one with any. -/
theorem path_of_none (h : k.Path no_calls s t) : k.Path call s t := by
  refine h.lift id ?_
  intro a b hab
  cases hab with
  | text hf hi hne => exact .text hf hi hne
  | outside _ hout =>
    obtain ⟨_, -, -, hcall⟩ := hout
    exact absurd hcall id

theorem Prints.of_path (h : k.Path no_calls s t) : Prints k C s [] t := by
  induction h using Relation.ReflTransGen.head_induction_on with
  | refl => exact .refl
  | head hstep _ ih => exact .text hstep ih

theorem Prints.append {o : List Byte} (h : Prints k C s o t) (h' : Prints k C t out u) :
    Prints k C s (o ++ out) u := by
  induction h with
  | refl => exact h'
  | text hstep _ ih => exact .text hstep (ih h')
  | call hf hcall _ ih =>
    rw [List.append_assoc]
    exact .call hf hcall (ih h')

/-- A run goes by the text alone, or by the text to its first call. -/
theorem Prints.first (h : Prints k C s out u) : (k.Path no_calls s u ∧ out = []) ∨
    ∃ f c o t out', start f = none ∧ k.Path no_calls s ⟨k.im.addr f, c⟩ ∧
      C.comes f ⟨k.im.addr f, c⟩ o t ∧ Prints k C t out' u ∧ out = o ++ out' := by
  induction h with
  | refl => exact .inl ⟨.refl, rfl⟩
  | text hstep _ ih =>
    rcases ih with ⟨hpath, rfl⟩ | ⟨f, c, o, t, out', hf, hpath, hcall, hrest, rfl⟩
    · exact .inl ⟨.head hstep hpath, rfl⟩
    · exact .inr ⟨f, c, o, t, out', hf, .head hstep hpath, hcall, hrest, rfl⟩
  | call hf hcall hrest _ => exact .inr ⟨_, _, _, _, _, hf, .refl, hcall, hrest, rfl⟩

/-! ## One call in a trap -/

/-- Where a call comes back to. -/
def BackAt (i : Nat) : Prop := i = 40 ∨ i = 88

theorem CallOf.back_at {c : Data} (h : CallOf k s cause f c) (hs : s.d.csr sscratch = K) :
    ∃ i, BackAt i ∧ c.get .ra = k.im.loc i := by
  cases h with
  | interrupt _ => exact ⟨40, .inl rfl, get_set_same _ _ (by decide)⟩
  | exception _ => exact ⟨40, .inl rfl, (excepted.spec hs).2⟩
  | syscall _ _ => exact ⟨88, .inr rfl, get_set_same _ _ (by decide)⟩

/-- From there the way out goes to the return from the trap. -/
theorem path_out {i : Nat} (hi : BackAt i) (h : k.Path call ⟨k.im.loc i, e⟩ t) (ht : k.im.Stop t) :
    t.pc = k.im.loc 74 := by
  rcases hi with rfl | rfl
  · rw [path_exit h ht]
  · have h92 := Linked.path_line result_part 92 h ht ⟨_, rfl⟩ (by rfl) rfl
    rw [path_exit (Linked.path_jump h92 ht (by rfl) rfl) ht]

theorem addr_ne_loc (k : Link) (hf : start f = none) : k.im.addr f ≠ k.im.loc 74 := by
  intro h
  have hnone := k.outside f hf
  rw [h, fetch_loc k.im (show 74 < k.im.text.length by rw [k.text_eq]; decide)] at hnone
  cases hnone

/-- Nothing is called on the way out. -/
theorem Prints.way_out {i : Nat} (hi : BackAt i) (h : Prints k C ⟨k.im.loc i, e⟩ out t) :
    k.Path no_calls ⟨k.im.loc i, e⟩ t ∧ out = [] := by
  rcases h.first with h | ⟨f, c, o, u, out', hf, hpath, -, -, -⟩
  · exact h
  · exact absurd (path_out hi hpath (.inl (k.outside f hf))) (addr_ne_loc k hf)

/-- A run of the text from a trap to C code is at the call of the trap. -/
theorem path_to_call {c : Data} (hr : Ready k K s)
    (h : k.Path no_calls (trap k s cause) ⟨k.im.addr f, c⟩) (hf : start f = none) :
    CallOf k s cause f c := by
  have hends := path_trap no_calls.convention hr h (.inl (k.outside f hf))
  generalize hg : (⟨k.im.addr f, c⟩ : State) = g at hends
  cases hends with
  | @call f' c' hcall =>
    injection hg with hpc hd
    obtain rfl := k.distinct f f' hf hcall.isC hpc
    rwa [hd]
  | way _ => exact absurd (congrArg State.pc hg) (addr_ne_loc k hf)

/-- A trap makes one call at most, and what it prints is what that call prints. -/
theorem Prints.trap (hr : Ready k K s)
    (hback : ∀ {f c o u}, C.comes f c o u → u.pc = c.d.get .ra)
    (h : Prints k C (trap k s cause) out t) :
    (k.Path no_calls (traps.trap k s cause) t ∧ out = []) ∨
      ∃ f c i e, CallOf k s cause f c ∧ C.comes f ⟨k.im.addr f, c⟩ out ⟨k.im.loc i, e⟩ ∧
        BackAt i ∧ k.Path no_calls ⟨k.im.loc i, e⟩ t ∧
        k.Path (C.printing out) (traps.trap k s cause) t := by
  rcases h.first with h | ⟨f, c, o, ⟨pc, e⟩, out', hf, hpath, hcall, hrest, rfl⟩
  · exact .inl h
  · right
    have hof := path_to_call hr hpath hf
    obtain ⟨i, hi, hra⟩ := hof.back_at hr.sscratch
    obtain rfl : pc = k.im.loc i := (hback hcall).trans hra
    obtain ⟨hout, rfl⟩ := hrest.way_out hi
    rw [List.append_nil]
    refine ⟨f, c, i, e, hof, hcall, hi, hout, ?_⟩
    have hone : k.Path (C.printing o) ⟨k.im.addr f, c⟩ ⟨k.im.loc i, e⟩ :=
      Linked.runs_call hf hcall
    exact ((path_of_none hpath).trans hone).trans (path_of_none hout)

/-- A run with calls that all print the same prints that for one call. -/
theorem Prints.of_call {c : Data} {i : Nat} (hf : start f = none)
    (h : k.Path no_calls s ⟨k.im.addr f, c⟩)
    (hcall : C.comes f ⟨k.im.addr f, c⟩ out ⟨k.im.loc i, e⟩)
    (h' : k.Path no_calls ⟨k.im.loc i, e⟩ t) : Prints k C s out t := by
  have hout := (Prints.of_path (C := C) h).append (.call hf hcall (.of_path h'))
  rwa [List.nil_append, List.append_nil] at hout

end

/-! ## The C code of X/OS (src/xos/src/kernel.c) -/

/-- A call that comes back on the kernel stack that ends at `K`. By the calling convention, it
writes only to the `room` bytes below the frame of the trap. -/
structure Back (K : Word) (room : Nat) (c u : State) : Prop where
  sp : c.d.get .sp = K - 128
  pc : u.pc = c.d.get .ra
  saved : ∀ r ∈ preserved, u.d.get r = c.d.get r
  csr : u.d.csr = c.d.csr
  mem : ∀ a, room ≤ memory.dist (K - 128 - BitVec.ofNat 32 room) a → u.d.mem a = c.d.mem a

/-- What the functions that come back print, and the result of the one that has one. -/
def Does (c : State) (out : List Byte) (u : State) : Symbol → Prop
  | .interrupt_handler => out = []
  | .sys_xputc => out = sys_xputc (c.d.get a0)
  | .sys_thread_create => out = [] ∧ u.d.get a0 = XOS_ERR_NOT_SUPPORTED
  | _ => False

/-- The functions that never come back. What is printed of an exception is left open. -/
def Halts (c : State) (out : List Byte) : Symbol → Prop
  | .sys_exit => sys_exit (c.d.get a0) = some out
  | .exception_handler => True
  | _ => False

def xos (K : Word) (room : Nat) : Code where
  comes f c out u := Back K room c u ∧ Does c out u f
  stays f c out := Halts c out f

/-- The kernel stack is neither over the table of the system calls nor over the addresses `R` of
the user program, which are not over the table. -/
structure Places (k : Link) (K : Word) (room : Nat) (R : Word → Prop) : Prop where
  fits : 4 ≤ room ∧ room + 128 ≤ 2 ^ 32
  table : ∀ a, memory.dist (k.im.addr .syscall_table) a < 12 →
    room + 128 ≤ memory.dist (K - 128 - BitVec.ofNat 32 room) a
  stack : ∀ a, R a → room + 128 ≤ memory.dist (K - 128 - BitVec.ofNat 32 room) a
  text : ∀ a, R a → 12 ≤ memory.dist (k.im.addr .syscall_table) a

/-! ## The system -/

def view (R : Word → Prop) (s : State) : User R where
  pc := s.pc
  x := s.d.get
  x0 := rfl
  mem := fun a => s.d.mem a

inductive Xos
  | running (s : State)
  | halted

/-- The traps that a program takes: an interrupt at any time, and what it does itself. -/
def Takes {R : Word → Prop} (P : Program R) (u : User R) (cause : Word) : Prop :=
  IsInterrupt cause ∨ (P.calls u ∧ cause = EXCn_ECALL_UMODE) ∨ P.excepts u cause

/-- One step, with what is printed: of the program, which goes by what it has and leaves the rest
alone, or a trap that comes back to it, or one that does not. -/
inductive Xos.Step (k : Link) (K : Word) (room : Nat) {R : Word → Prop} (P : Program R) :
    Steps Xos (List Byte)
  | own {s u : State} : P.step (view R s) (view R u) → u.d.csr = s.d.csr →
      (∀ a, ¬ R a → u.d.mem a = s.d.mem a) → Step k K room P (.running s) [] (.running u)
  | trap {s t : State} {cause : Word} {out : List Byte} :
      Takes P (view R s) cause → Prints k (xos K room) (trap k s cause) out t → k.im.Left t →
      t.d.csr sstatus &&& SSTATUS_SPP = 0 →
      Step k K room P (.running s) out (.running (sret_state t.d))
  | halt {s : State} {c : Data} {f : Symbol} {cause : Word} {out out' : List Byte} :
      Takes P (view R s) cause → start f = none →
      Prints k (xos K room) (trap k s cause) out ⟨k.im.addr f, c⟩ →
      (xos K room).stays f ⟨k.im.addr f, c⟩ out' →
      Step k K room P (.running s) (out ++ out') .halted

/-- The state of the kernel stack is kept, and the machine shows what the program has. -/
inductive Shows (k : Link) (K : Word) (R : Word → Prop) : Xos → Machine R → Prop
  | running {s : State} : Ready k K s → Shows k K R (.running s) (.running (view R s))
  | halted : Shows k K R .halted .halted

section

variable {k : Link} {K : Word} {room : Nat} {R : Word → Prop} {P : Program R} {s t u : State}
  {c d e : Data} {x : Reg → Word} {cause pc a : Word} {f : Symbol} {out : List Byte}

/-! ## What a trap leaves alone -/

theorem dist_below {b : Word} {n : Nat} (h : n + memory.dist b a < 2 ^ 32) :
    memory.dist (b - BitVec.ofNat 32 n) a = n + memory.dist b a := by
  unfold memory.dist at *
  bv_omega

theorem Places.handlers (hp : Places k K room R) (out : List Byte) :
    Handlers k ((xos K room).printing out) := by
  refine ⟨⟨fun h => h.1.pc, fun h => h.1.saved⟩, ?_, ?_⟩
  · intro f c u h a ha
    apply h.1.mem
    rw [h.1.sp] at ha
    have := hp.fits
    rw [dist_below (by omega)]
    omega
  · intro f c u h a ha
    apply h.1.mem
    have := hp.table a ha
    omega

/-- The words of the frame are apart from the program. -/
theorem Places.apart (hp : Places k K room R) (ha : R a) :
    ∀ o ∈ offsets, Apart (K - 128 + o) a := by
  intro o ho
  have hstack := hp.stack a ha
  have hroom := hp.fits
  have hlt : memory.dist (K - 128 - BitVec.ofNat 32 room) a < 2 ^ 32 := BitVec.isLt _
  have hdist := memory.dist_add_right (x := a) (n := room) (by omega)
    (Nat.le_trans (by omega) hstack)
  rw [BitVec.sub_add_cancel] at hdist
  exact outside_frame (offsets_le o ho) (by omega) (by omega)

/-- A byte whose word is kept is kept. -/
theorem byte_of_word {m m' : Mem} (h : ld32 m' a = ld32 m a) : m' a = m a := by
  rw [← ld32_low m' a, h, ld32_low]

theorem Way.user_memory (hp : Places k K room R) (hr : Ready k K s)
    (h : Way k ((xos K room).printing out) s cause d) (ha : R a) : d.mem a = s.d.mem a := by
  have hcalled : ∀ {f c u}, CallOf k s cause f c → ∀ {b},
      (xos K room).printing out f ⟨b, c⟩ u → u.d.mem a = s.d.mem a := by
    intro f c u hof b hcall
    have hroom := hp.stack a ha
    rw [hcall.1.mem a (by omega)]
    exact byte_of_word ((hof.at hr).rest a (hp.apart ha))
  cases h with
  | interrupt hi hcall => exact hcalled (.interrupt hi) hcall
  | exception hi hcall => exact hcalled (.exception hi) hcall
  | syscall hi hf hcall =>
    have hframed := (hp.handlers out).framed hcall (CallOf.syscall hi hf |>.at hr)
    rw [byte_of_word ((result_part.spec k.im.addr hframed).2 a (hp.apart ha))]
    exact hcalled (.syscall hi hf) hcall
  | illegal hi _ =>
    have hat : AtCall s K (checked k s cause) := (checked.spec hr.sscratch).1
    rw [byte_of_word ((illegal_part.spec k.im.addr hat.framed).2 a (hp.apart ha))]
    exact byte_of_word (hat.rest a (hp.apart ha))

/-- The program that comes back has what the frame holds. -/
theorem Way.shows (hp : Places k K room R) (hr : Ready k K s)
    (h : Way k ((xos K room).printing out) s cause d) (hf : Framed K x pc d) (hx : x .zero = 0)
    (hat : pc.toNat % 4 = 0) :
    Ready k K (sret_state (line k.im.addr exit_part d)) ∧
      view R (sret_state (line k.im.addr exit_part d)) = ⟨pc, x, hx, (view R s).mem⟩ := by
  have hz := exit_part.spec k.im.addr d
  obtain ⟨hpc, hregs, hscratch⟩ := (hf.resumes hx hat k.im.addr).user
  have haligned : (sret_state (line k.im.addr exit_part d)).pc.toNat % 4 = 0 := by
    rw [hpc]
    exact hat
  refine ⟨⟨haligned, hscratch, ?_, hr.clear⟩, ?_⟩
  · intro i g hg
    have hm : (sret_state (line k.im.addr exit_part d)).d.mem = d.mem := hz.mem
    rw [hm]
    exact h.table (hp.handlers out) hr i g hg
  · ext1
    · exact hpc
    · exact funext hregs
    · funext a
      have hm : (sret_state (line k.im.addr exit_part d)).d.mem = d.mem := hz.mem
      exact (congrFun hm a).trans (h.user_memory hp hr a.2)

/-! ## The kernel does what the machine does -/

theorem number_of_table {n : Word} (h : syscall_table[n.toNat]? = some f) :
    (f = .sys_exit ∧ n = 0) ∨ (f = .sys_xputc ∧ n = 1) ∨ (f = .sys_thread_create ∧ n = 2) := by
  have hlt : n.toNat < 3 := (List.getElem?_eq_some_iff.mp h).1
  have hcases : n = 0 ∨ n = 1 ∨ n = 2 := by bv_omega
  rcases hcases with rfl | rfl | rfl
  · exact .inl ⟨(Option.some.inj h).symm, rfl⟩
  · exact .inr (.inl ⟨(Option.some.inj h).symm, rfl⟩)
  · exact .inr (.inr ⟨(Option.some.inj h).symm, rfl⟩)

/-- A trap for a system call is one of the program. -/
theorem Takes.calls (h : Takes P (view R s) cause) (hi : IsSyscall cause) : P.calls (view R s) := by
  rcases h with h | ⟨h, -⟩ | h
  · exact absurd hi (not_syscall_of_interrupt h)
  · exact h
  · exact absurd hi (not_syscall_of_exception (P.excepts_cause h))

theorem Takes.excepts (h : Takes P (view R s) cause) (hi : IsException cause) :
    P.excepts (view R s) cause := by
  rcases h with h | ⟨-, rfl⟩ | h
  · exact absurd hi.1 h
  · exact absurd hi (by decide)
  · exact h

theorem back_pc {c u : State} (h : (xos K room).comes f c out u) : u.pc = c.d.get .ra := h.1.pc

/-- A call that is refused prints nothing. -/
theorem prints_nothing (hr : Ready k K s) (hi : IsSyscall cause) (hge : SYSCALL_COUNT ≤ s.d.get t0)
    (h : Prints k (xos K room) (trap k s cause) out t) : out = [] := by
  rcases h.trap hr back_pc with ⟨-, rfl⟩ | ⟨f, c, i, e, hof, -⟩
  · rfl
  · cases hof with
    | interrupt h => exact absurd hi (not_syscall_of_interrupt h)
    | exception h => exact absurd hi (not_syscall_of_exception h)
    | syscall _ hf =>
      have hlt : (s.d.get t0).toNat < 3 := (List.getElem?_eq_some_iff.mp hf).1
      exact absurd hge (BitVec.not_le.mpr hlt)

theorem arg_of_call (hr : Ready k K s) (hf : syscall_table[(s.d.get t0).toNat]? = some f)
    (v : Word) :
    ((looked_up k s cause).set ra v).get a0 = s.d.get a0 := by
  rw [get_set_ne _ _ (by decide)]
  exact (looked_up.spec hr hf).2.2 a0 (by decide)

/-- A trap that comes back is a step of the machine. -/
theorem trap_is_a_step (hp : Places k K room R) (hr : Ready k K s)
    (ht : Takes P (view R s) cause) (h : Prints k (xos K room) (trap k s cause) out t)
    (hleft : k.im.Left t) :
    ∃ m, user_machine.Step P (.running (view R s)) out m ∧
      Shows k K R (.running (sret_state t.d)) m := by
  have hc := hp.handlers out
  have hpath : k.Path ((xos K room).printing out) (trap k s cause) t := by
    rcases h.trap hr back_pc with ⟨hnone, -⟩ | ⟨f, c, i, e, -, -, -, -, hone⟩
    · exact path_of_none hnone
    · exact hone
  obtain ⟨d, hway, rfl⟩ := path_left hc.toConvention hr hpath hleft
  by_cases hi : IsSyscall cause
  · have hcalls := ht.calls hi
    by_cases hlt : s.d.get t0 < SYSCALL_COUNT
    · obtain ⟨f, e, hf, hcall, hframed⟩ := hway.result hc hr hi hlt
      obtain ⟨hready, hview⟩ := hway.shows hp hr hframed rfl (aligned_next hr.aligned)
      refine ⟨_, ?_, .running hready⟩
      rw [hview]
      obtain ⟨-, hdoes⟩ := hcall
      rcases number_of_table hf with ⟨rfl, -⟩ | ⟨rfl, hn⟩ | ⟨rfl, hn⟩
      · exact absurd hdoes id
      · obtain rfl : out = _ := hdoes
        dsimp only
        rw [arg_of_call hr hf]
        exact .xputc hcalls hn
      · obtain ⟨rfl, hresult⟩ := hdoes
        dsimp only at hresult
        rw [hresult]
        exact .thread_create hcalls hn
    · have hge := BitVec.not_lt.mp hlt
      obtain ⟨hready, hview⟩ := hway.shows hp hr (hway.refused hr hi hge) rfl hr.aligned
      refine ⟨_, ?_, .running hready⟩
      rw [hview, prints_nothing hr hi hge h]
      exact .refused hcalls hge
  · obtain ⟨hready, hview⟩ := hway.shows hp hr (hway.transparent hc hr hi) rfl hr.aligned
    refine ⟨_, ?_, .running hready⟩
    rw [hview]
    cases hway with
    | interrupt _ hcall =>
      obtain rfl : out = [] := hcall.2
      exact .interrupt
    | exception _ hcall => exact absurd hcall.2 id
    | syscall h' _ _ => exact absurd h' hi
    | illegal h' _ => exact absurd h' hi

/-- And so is one that does not. -/
theorem halt_is_a_step (hr : Ready k K s) (ht : Takes P (view R s) cause) (hf : start f = none)
    (h : Prints k (xos K room) (trap k s cause) out ⟨k.im.addr f, c⟩) {out' : List Byte}
    (hstays : (xos K room).stays f ⟨k.im.addr f, c⟩ out') :
    user_machine.Step P (.running (view R s)) (out ++ out') .halted := by
  have hnone : k.Path no_calls (trap k s cause) ⟨k.im.addr f, c⟩ ∧ out = [] := by
    rcases h.trap hr back_pc with h | ⟨g, d, i, e, -, -, hi, hout, -⟩
    · exact h
    · exact absurd (path_out hi hout (.inl (k.outside f hf))) (addr_ne_loc k hf)
  obtain ⟨hpath, rfl⟩ := hnone
  rw [List.nil_append]
  cases path_to_call hr hpath hf with
  | interrupt _ => exact absurd hstays id
  | exception hi => exact .exception (ht.excepts hi)
  | syscall hi hg =>
    rcases number_of_table hg with ⟨rfl, hn⟩ | ⟨rfl, -⟩ | ⟨rfl, -⟩
    · have hexit : sys_exit (((looked_up k s cause).set ra (k.im.loc 88)).get a0) = some out' :=
        hstays
      rw [arg_of_call hr hg] at hexit
      exact .exit (ht.calls hi) hn hexit
    · exact absurd hstays id
    · exact absurd hstays id

theorem Xos.Step.is_a_step (hp : Places k K room R) {z z' : Xos} {m : Machine R}
    (hs : Shows k K R z m) (h : Xos.Step k K room P z out z') :
    ∃ m', user_machine.Step P m out m' ∧ Shows k K R z' m' := by
  cases h with
  | own hstep hcsr hmem =>
    cases hs with
    | running hr =>
      refine ⟨_, .own hstep, .running ⟨P.aligned hstep, ?_, hr.table.keep ?_, hr.clear⟩⟩
      · rw [hcsr]
        exact hr.sscratch
      · intro a ha
        exact hmem a fun hR => absurd ha (Nat.not_lt.mpr (hp.text a hR))
  | trap ht h hleft _ =>
    cases hs with
    | running hr => exact trap_is_a_step hp hr ht h hleft
  | halt ht hf h hstays =>
    cases hs with
    | running hr => exact ⟨_, halt_is_a_step hr ht hf h hstays, .halted⟩

end

/-! ## The kernel can do what the machine does -/

section

variable {k : Link} {K : Word} {room : Nat} {R : Word → Prop} {P : Program R} {s u : State}
  {c d : Data} {cause v : Word} {f : Symbol} {out : List Byte}

/-- A function may come back at once. -/
theorem back_at_once {i : Nat} (hat : AtCall s K c) (hra : c.get .ra = k.im.loc i) (v : Word) :
    Back K room ⟨k.im.addr f, c⟩ ⟨k.im.loc i, c.set a0 v⟩ := by
  have hne : ∀ r ∈ preserved, r ≠ a0 := by decide
  exact ⟨hat.sp, hra.symm, fun r hr => get_set_ne _ _ (hne r hr), rfl, fun _ _ => rfl⟩

theorem comes_back (ht : Takes P (view R s) cause)
    (h : Prints k (xos K room) (trap k s cause) out ⟨k.im.loc 74, line k.im.addr exit_part d⟩)
    (hst : d.csr sstatus = trap_sstatus 0 (s.d.csr sstatus)) :
    Xos.Step k K room P (.running s) out (.running (sret_state (line k.im.addr exit_part d))) := by
  refine .trap ht h (k.left_of (by rfl) rfl) ?_
  dsimp only
  rw [(exit_part.spec k.im.addr d).sstatus, hst, user_mode_before]

theorem Shows.of_view {m : User R} (hr : Ready k K s) (h : view R s = m) :
    Shows k K R (.running s) (.running m) := by
  have hshows : Shows k K R (.running s) (.running (view R s)) := .running hr
  rwa [h] at hshows

theorem call_comes_back (hp : Places k K room R) (hr : Ready k K s) (hcalls : P.calls (view R s))
    (hf : syscall_table[(s.d.get t0).toNat]? = some f)
    (hdoes : ∀ c e : Data, c.get a0 = s.d.get a0 → e.get a0 = v →
      Does ⟨k.im.addr f, c⟩ out ⟨k.im.loc 88, e⟩ f) :
    ∃ z, Xos.Step k K room P (.running s) out z ∧
      Shows k K R z (.running ((view R s).back (s.pc + 4) v)) := by
  have hi : IsSyscall EXCn_ECALL_UMODE := by decide
  have hof : CallOf k s EXCn_ECALL_UMODE f _ := .syscall hi hf
  have hat := hof.at hr
  have hcall : (xos K room).comes f
      ⟨k.im.addr f, (looked_up k s EXCn_ECALL_UMODE).set ra (k.im.loc 88)⟩ out
      ⟨k.im.loc 88, ((looked_up k s EXCn_ECALL_UMODE).set ra (k.im.loc 88)).set a0 v⟩ :=
    ⟨back_at_once hat (get_set_same _ _ (by decide)) v,
      hdoes _ _ (arg_of_call hr hf _) (get_set_same _ _ (by decide))⟩
  have hway : Way k ((xos K room).printing out) s EXCn_ECALL_UMODE _ := .syscall hi hf hcall
  have hframed := (result_part.spec k.im.addr ((hp.handlers out).framed hcall hat)).1
  rw [get_set_same _ _ (by decide)] at hframed
  obtain ⟨hready, hview⟩ := hway.shows hp hr hframed rfl (aligned_next hr.aligned)
  have hprints : Prints k (xos K room) (trap k s EXCn_ECALL_UMODE) out _ :=
    .of_call hof.isC (hof.runs hr) hcall (runs_result _)
  exact ⟨_, comes_back (.inr (.inl ⟨hcalls, rfl⟩)) hprints hat.sstatus, .of_view hready hview⟩

theorem interrupt_comes_back (hp : Places k K room R) (hr : Ready k K s) :
    ∃ z, Xos.Step k K room P (.running s) [] z ∧ Shows k K R z (.running (view R s)) := by
  have hi : IsInterrupt 0x80000001 := by decide
  have hof : CallOf k s 0x80000001 .interrupt_handler _ := .interrupt hi
  have hat := hof.at hr
  have hcall : (xos K room).comes .interrupt_handler
      ⟨k.im.addr .interrupt_handler, (entered k s 0x80000001).set ra (k.im.loc 40)⟩ []
      ⟨k.im.loc 40, ((entered k s 0x80000001).set ra (k.im.loc 40)).set a0 0⟩ :=
    ⟨back_at_once hat (get_set_same _ _ (by decide)) 0, rfl⟩
  have hway : Way k ((xos K room).printing []) s 0x80000001 _ := .interrupt hi hcall
  have hframed := hway.transparent (hp.handlers []) hr (not_syscall_of_interrupt hi)
  obtain ⟨hready, hview⟩ := hway.shows hp hr hframed rfl hr.aligned
  have hprints : Prints k (xos K room) (trap k s 0x80000001) [] _ :=
    .of_call rfl (hof.runs hr) hcall (runs_exit _)
  exact ⟨_, comes_back (.inl hi) hprints hat.sstatus, .of_view hready hview⟩

theorem refusal_comes_back (hp : Places k K room R) (hr : Ready k K s) (hcalls : P.calls (view R s))
    (hge : SYSCALL_COUNT ≤ s.d.get t0) :
    ∃ z, Xos.Step k K room P (.running s) [] z ∧
      Shows k K R z (.running ((view R s).back s.pc XOS_ERR_BAD_SYSCALL)) := by
  have hi : IsSyscall EXCn_ECALL_UMODE := by decide
  have hway : Way k ((xos K room).printing []) s EXCn_ECALL_UMODE _ := .illegal hi hge
  have hpath : k.Path no_calls (trap k s EXCn_ECALL_UMODE) _ := runs_refused hr.sscratch hi hge
  obtain ⟨hready, hview⟩ := hway.shows hp hr (hway.refused hr hi hge) rfl hr.aligned
  have hat : AtCall s K (checked k s EXCn_ECALL_UMODE) := (checked.spec hr.sscratch).1
  exact ⟨_, comes_back (.inr (.inl ⟨hcalls, rfl⟩)) (.of_path hpath) hat.sstatus,
    .of_view hready hview⟩

/-- A step of the program on the memory of the kernel. -/
theorem own_step (hp : Places k K room R) (hr : Ready k K s) {v : User R}
    (hstep : P.step (view R s) v) :
    ∃ z, Xos.Step k K room P (.running s) [] z ∧ Shows k K R z (.running v) := by
  classical
  obtain ⟨m, hm⟩ : ∃ m : Mem, (∀ a (h : R a), m a = v.mem ⟨a, h⟩) ∧ ∀ a, ¬ R a → m a = s.d.mem a :=
    ⟨fun a => if h : R a then v.mem ⟨a, h⟩ else s.d.mem a, fun _ h => dif_pos h,
      fun _ h => dif_neg h⟩
  have hview : view R ⟨v.pc, ⟨v.x, s.d.csr, m⟩⟩ = v := by
    ext1
    · rfl
    · funext r
      by_cases h0 : r = .zero
      · rw [h0, v.x0]
        rfl
      · exact if_neg h0
    · funext a
      exact hm.1 a a.2
  have hready : Ready k K ⟨v.pc, ⟨v.x, s.d.csr, m⟩⟩ :=
    ⟨P.aligned hstep, hr.sscratch, hr.table.keep fun a ha =>
      hm.2 a fun hR => absurd ha (Nat.not_lt.mpr (hp.text a hR)), hr.clear⟩
  refine ⟨.running ⟨v.pc, ⟨v.x, s.d.csr, m⟩⟩, .own ?_ rfl hm.2, .of_view hready hview⟩
  rw [hview]
  exact hstep

theorem machine_step (hp : Places k K room R) (hr : Ready k K s) {m : Machine R}
    (h : user_machine.Step P (.running (view R s)) out m) :
    ∃ z, Xos.Step k K room P (.running s) out z ∧ Shows k K R z m := by
  have hi : IsSyscall EXCn_ECALL_UMODE := by decide
  have htable : ∀ {n : Word}, s.d.get t0 = n →
      syscall_table[(s.d.get t0).toNat]? = syscall_table[n.toNat]? := by
    rintro n rfl
    rfl
  generalize hu : view R s = u at h
  cases h with
  | own hstep => exact own_step hp hr (hu ▸ hstep)
  | interrupt => exact hu ▸ interrupt_comes_back hp hr
  | exit hcalls h0 hexit =>
    subst hu
    have hf : syscall_table[(s.d.get t0).toNat]? = some .sys_exit := htable h0
    have hof : CallOf k s EXCn_ECALL_UMODE .sys_exit _ := .syscall hi hf
    have hstays : sys_exit (((looked_up k s EXCn_ECALL_UMODE).set ra (k.im.loc 88)).get a0) =
        some out := by
      rw [arg_of_call hr hf]
      exact hexit
    exact ⟨_, .halt (.inr (.inl ⟨hcalls, rfl⟩)) rfl (.of_path (hof.runs hr)) hstays, .halted⟩
  | xputc hcalls h1 =>
    subst hu
    refine call_comes_back hp hr hcalls (htable h1) ?_
    intro c e harg _
    exact congrArg sys_xputc harg.symm
  | thread_create hcalls h2 =>
    subst hu
    exact call_comes_back hp hr hcalls (htable h2) fun _ _ _ hresult => ⟨rfl, hresult⟩
  | refused hcalls hge =>
    subst hu
    exact refusal_comes_back hp hr hcalls hge
  | exception hexc =>
    subst hu
    have hof : CallOf k s _ .exception_handler _ := .exception (P.excepts_cause hexc)
    exact ⟨_, .halt (.inr (.inr hexc)) rfl (.of_path (hof.runs hr)) trivial, .halted⟩

/-! ## Every run -/

theorem Xos.run_is_a_run (hp : Places k K room R) {z z' : Xos} {m : Machine R}
    {outs : List (List Byte)} (hs : Shows k K R z m)
    (h : Run (Xos.Step k K room P) z outs z') :
    ∃ m', Run (user_machine.Step P) m outs m' ∧ Shows k K R z' m' :=
  h.simulates hs fun _ _ _ _ hs h => h.is_a_step hp hs

theorem machine_run (hp : Places k K room R) {z : Xos} {m m' : Machine R}
    {outs : List (List Byte)} (hs : Shows k K R z m)
    (h : Run (user_machine.Step P) m outs m') :
    ∃ z', Run (Xos.Step k K room P) z outs z' ∧ Shows k K R z' m' := by
  refine h.simulates (R := fun m z => Shows k K R z m) hs ?_
  intro m out m' z hs h
  cases hs with
  | running hr => exact machine_step hp hr h
  | halted => cases h

/-- X/OS is the user machine. After the first entry the program has the registers of the frame,
and from there the kernel can print what the machine can print, step by step, and nothing else,
while the program has what it has on the machine. -/
theorem xos_is_the_user_machine (hp : Places k K room R) (hs : Start k K d)
    (henter : Returns k no_calls ⟨k.im.addr .user_mode_entry, d⟩ u) (outs : List (List Byte)) :
    (u.pc = legal sepc (ld32 d.mem (K - 128 + 0x40)) ∧
      ∀ p ∈ eframe, u.d.get p.1 = ld32 d.mem (K - 128 + p.2)) ∧
    (∀ z, Run (Xos.Step k K room P) (.running u) outs z →
      ∃ m, Run (user_machine.Step P) (.running (view R u)) outs m ∧ Shows k K R z m) ∧
    ∀ m, Run (user_machine.Step P) (.running (view R u)) outs m →
      ∃ z, Run (Xos.Step k K room P) (.running u) outs z ∧ Shows k K R z m := by
  obtain ⟨hr, hpc, hregs⟩ := hs.enters henter
  exact ⟨⟨hpc, hregs⟩, fun _ h => Xos.run_is_a_run hp (.running hr) h,
    fun _ h => machine_run hp (.running hr) h⟩

end

/-! ## A program on a small kernel -/

/-- The four pages of the text of a program. -/
def some_pages (a : Word) : Prop := 0x10000000 ≤ a ∧ a < 0x10004000

/-- A program of nothing but calls. -/
def only_calls : Program some_pages where
  step := fun _ _ => False
  aligned := fun h => absurd h id
  ecall := fun _ _ => True
  excepts := fun _ _ => False
  excepts_cause := fun h => absurd h id
  ecall_only := fun _ => ⟨fun _ => id, fun _ => id⟩

theorem some_places : Places a_kernel 0xC0010000 1024 some_pages := by
  have htable : a_kernel.im.addr .syscall_table = 0xC0001030 := rfl
  refine ⟨by decide, ?_, ?_, ?_⟩
  · intro a ha
    rw [htable] at ha
    unfold memory.dist at *
    bv_omega
  · rintro a ⟨h1, h2⟩
    unfold memory.dist
    bv_omega
  · rintro a ⟨h1, h2⟩
    rw [htable]
    unfold memory.dist
    bv_omega

/-- At `user_mode_entry`, with the number `n` in the frame. -/
def at_entry (n : Word) : Data where
  x := fun r => if r = .a0 then 0xC0010000 - 128 else 0
  csr := fun _ => 0
  mem := st32 a_memory (0xC0010000 - 128 + 0x04) n

theorem at_entry_starts (n : Word) : Start a_kernel 0xC0010000 (at_entry n) := by
  refine ⟨rfl, ?_, (a_user_ready 0).clear⟩
  intro i f hf
  have hlt : i < 3 := (List.getElem?_eq_some_iff.mp hf).1
  have hkeep : ld32 (at_entry n).mem (a_kernel.entry i) = ld32 a_memory (a_kernel.entry i) :=
    ld32_st32_apart _ _ _ _ ((a_user_ready 0).clear 0x04 (by decide) i hlt)
  rw [hkeep]
  exact a_memory_table i f hf

theorem number_in_frame (n : Word) : ld32 (at_entry n).mem (0xC0010000 - 128 + 0x04) = n :=
  ld32_st32_same _ _ _

/-- A program that exits at once. -/
theorem a_program_exits : ∃ u out, sys_exit (u.d.get a0) = some out ∧
    Run (Xos.Step a_kernel 0xC0010000 1024 only_calls) (.running u) [out] .halted := by
  obtain ⟨u, hu⟩ := user_mode_entry_returns a_kernel no_calls (at_entry 0) rfl
  obtain ⟨out, hout⟩ : ∃ out, sys_exit (u.d.get a0) = some out :=
    user_machine.sys_exit_prints _
  obtain ⟨⟨-, hregs⟩, -, hruns⟩ := xos_is_the_user_machine (P := only_calls) some_places
    (at_entry_starts 0) hu [out]
  have h0 : u.d.get t0 = 0 := (hregs (t0, 0x04) (by decide)).trans (number_in_frame 0)
  obtain ⟨z, hz, hshows⟩ := hruns .halted (.single (.exit trivial h0 hout))
  cases hshows
  exact ⟨u, out, hout, hz⟩

/-- A call with a number that there is not hangs the program. Whatever the kernel does from there
on, nothing more is printed, and the program stays at its `ecall` with what it has. -/
theorem a_refused_call_hangs {k : Link} {K : Word} {room : Nat} {R : Word → Prop} {P : Program R}
    {d : Data} {u s : State} {outs outs' : List (List Byte)} {z : Xos} (hp : Places k K room R)
    (hs : Start k K d) (henter : Returns k no_calls ⟨k.im.addr .user_mode_entry, d⟩ u)
    (hrun : Run (Xos.Step k K room P) (.running u) outs (.running s)) (hcalls : P.calls (view R s))
    (hge : SYSCALL_COUNT ≤ s.d.get t0) (hrest : Run (Xos.Step k K room P) (.running s) outs' z) :
    (∀ out ∈ outs', out = []) ∧ ∃ t, z = .running t ∧ t.pc = s.pc ∧
      (∀ r, r ≠ a0 → t.d.get r = s.d.get r) ∧ ∀ a, R a → t.d.mem a = s.d.mem a := by
  obtain ⟨hr, -⟩ := hs.enters henter
  obtain ⟨m, -, hshows⟩ := Xos.run_is_a_run hp (.running hr) hrun
  have hr' : Ready k K s := by
    cases hshows with
    | running h => exact h
  obtain ⟨m', hm', hshows'⟩ := Xos.run_is_a_run hp (.running hr') hrest
  obtain ⟨hnone, v, rfl, hv⟩ := user_machine.stuck_for_ever hcalls hge hm'
  refine ⟨hnone, ?_⟩
  cases hshows' with
  | @running t _ =>
    exact ⟨t, rfl, hv.pc, hv.regs, fun a ha => congrFun hv.mem ⟨a, ha⟩⟩

/-- The number 3. -/
theorem a_program_hangs : ∃ u t,
    Run (Xos.Step a_kernel 0xC0010000 1024 only_calls) (.running u) [[]] (.running t) ∧
      t.pc = u.pc := by
  obtain ⟨u, hu⟩ := user_mode_entry_returns a_kernel no_calls (at_entry 3) rfl
  obtain ⟨hr, -, hregs⟩ := (at_entry_starts 3).enters hu
  have h3 : u.d.get t0 = 3 := (hregs (t0, 0x04) (by decide)).trans (number_in_frame 3)
  have hge : SYSCALL_COUNT ≤ u.d.get t0 := by
    rw [h3]
    decide
  obtain ⟨z, hz, -⟩ := refusal_comes_back (P := only_calls) some_places hr trivial hge
  obtain ⟨-, t, rfl, hpc, -⟩ := a_refused_call_hangs (P := only_calls) some_places
    (at_entry_starts 3) hu .nil trivial hge (.single hz)
  exact ⟨u, t, .single hz, hpc⟩

end os_workshop.traps
