-- Runs of a user program of X/OS and its traps, from `user_mode_entry` on: the
-- kernel stack stays where it is, and the traps that the program does not ask for
-- give everything back.
import OsWorkshop.TrapLaws

open os_workshop.memory os_workshop.rv32 os_workshop.frames
open os_workshop.runs

namespace os_workshop.traps

open Reg Csr Instr

/-! ## The system -/

inductive Event
  | user | interrupt | exception | syscall
deriving DecidableEq

/-- The kind of trap that an event is. -/
def Event.Takes : Event → Word → Prop
  | .user => fun _ => False
  | .interrupt => IsInterrupt
  | .exception => IsException
  | .syscall => IsSyscall

/-- A step of the user program, which goes to an instruction and has no access to `sscratch` or to
the text of the kernel, or a trap that returns. A system call has a valid number. -/
inductive Step (k : Link) (call : Calls Symbol) : Steps State Event
  | user {s u : State} (hpc : u.pc.toNat % 4 = 0)
      (hsscratch : u.d.csr sscratch = s.d.csr sscratch)
      (htable : ∀ a, memory.dist (k.im.addr .syscall_table) a < 12 → u.d.mem a = s.d.mem a) :
      Step k call s .user u
  | trap {s u : State} {e : Event} {cause : Word} (he : e.Takes cause)
      (hvalid : e = .syscall → s.d.get t0 < SYSCALL_COUNT)
      (h : Returns k call (trap k s cause) u) : Step k call s e u

/-- `user_mode_entry` is called with the address of a frame, at the base of a `kstack_top_t`. The
`thread_t` is right behind the frame, at `K`. -/
structure Start (k : Link) (K : Word) (d : Data) : Prop where
  a0 : d.get .a0 = K - 128
  table : Table k d.mem
  clear : ∀ o ∈ offsets, ∀ i < 3, Apart (K - 128 + o) (k.entry i)

section

variable {k : Link} {call : Calls Symbol} {s t u v : State} {d : Data} {cause K : Word}
  {es : List Event} {e : Event}

/-! ## Each step -/

theorem user_mode_entry_path (h : k.Path call ⟨k.im.addr .user_mode_entry, d⟩ t)
    (ht : k.im.Left t) : t = ⟨k.im.loc 74, line k.im.addr exit_part
      (line k.im.addr [mv sp a0, addi tp sp (32 * 4)] d)⟩ := by
  have hstop : k.im.Stop t := .inr ht
  rw [k.labels .user_mode_entry 96 rfl] at h
  have h98 := Linked.path_line [mv sp a0, addi tp sp (32 * 4)] 98 h hstop ⟨_, rfl⟩ (by rfl) rfl
  exact path_exit (Linked.path_jump h98 hstop (by rfl) rfl) hstop

/-- `start_user_program` clears `SPP` before the entry, so it does enter user mode. -/
theorem user_mode_entry_returns (k : Link) (call : Calls Symbol) (d : Data)
    (hspp : d.csr sstatus &&& SSTATUS_SPP = 0) :
    ∃ u, Returns k call ⟨k.im.addr .user_mode_entry, d⟩ u := by
  have h98 : k.Path call ⟨k.im.loc 96, d⟩
      ⟨k.im.loc 98, line k.im.addr [mv sp .a0, addi tp sp (32 * 4)] d⟩ :=
    Linked.runs_line [mv sp .a0, addi tp sp (32 * 4)] 98 ⟨_, rfl⟩ (by rfl) rfl
  have hj : k.Path call ⟨k.im.loc 98, line k.im.addr [mv sp .a0, addi tp sp (32 * 4)] d⟩
      ⟨k.im.loc 40, line k.im.addr [mv sp .a0, addi tp sp (32 * 4)] d⟩ :=
    Linked.runs_jump (by rfl) rfl
  have h74 : k.Path call ⟨k.im.loc 40, line k.im.addr [mv sp .a0, addi tp sp (32 * 4)] d⟩
      ⟨k.im.loc 74, line k.im.addr exit_part
        (line k.im.addr [mv sp .a0, addi tp sp (32 * 4)] d)⟩ :=
    Linked.runs_line exit_part 74 text_exit (by rfl) rfl
  have hpath := (h98.trans hj).trans h74
  rw [← k.labels .user_mode_entry 96 rfl] at hpath
  refine ⟨_, _, hpath, k.left_of (by rfl) rfl, ?_, rfl⟩
  dsimp only
  rw [(exit_part.spec k.im.addr _).sstatus]
  exact hspp

/-- The first entry loads the registers of the frame, and its kernel stack. -/
theorem Start.enters (hs : Start k K d)
    (h : Returns k call ⟨k.im.addr .user_mode_entry, d⟩ u) :
    Ready k K u ∧ u.pc = legal sepc (ld32 d.mem (K - 128 + 0x40)) ∧
      ∀ p ∈ eframe, u.d.get p.1 = ld32 d.mem (K - 128 + p.2) := by
  obtain ⟨t, hpath, hleft, -, rfl⟩ := h
  rw [user_mode_entry_path hpath hleft]
  have hd : line k.im.addr [mv sp .a0, addi tp sp (32 * 4)] d =
      (d.set sp (K - 128)).set tp K := by
    simp only [line_cons, line_nil, act, mv]
    rw [hs.a0, add_zero, get_set_same _ _ (show sp ≠ zero by decide)]
    congr 1
    exact BitVec.sub_add_cancel K 128
  rw [hd]
  have hz := exit_part.spec k.im.addr ((d.set sp (K - 128)).set tp K)
  have hsp : ((d.set sp (K - 128)).set tp K).get sp = K - 128 := by
    rw [get_set_ne _ _ (by decide), get_set_same _ _ (by decide)]
  have hscratch := hz.sscratch
  have hregs := hz.regs
  have hpc := hz.pc
  rw [get_set_same _ _ (by decide)] at hscratch
  rw [hsp, mem_set, mem_set] at hregs hpc
  refine ⟨⟨?_, ?_, ?_, hs.clear⟩, hpc, hregs⟩
  · have haligned := legal_sepc (ld32 d.mem (K - 128 + 0x40))
    rw [← hpc] at haligned
    exact haligned
  · dsimp only [sret_state]
    rw [csr_setCsr, if_neg (by decide), hscratch]
  · intro i f hf
    rw [← hs.table i f hf]
    have hm := hz.mem
    rw [mem_set, mem_set] at hm
    exact congrArg (fun m => ld32 m (k.entry i)) hm

theorem Table.keep {m m' : Mem} (h : Table k m)
    (hm : ∀ a, memory.dist (k.im.addr .syscall_table) a < 12 → m' a = m a) : Table k m' := by
  intro i f hf
  have hlt : i < 3 := (List.getElem?_eq_some_iff.mp hf).1
  rw [← h i f hf]
  apply ld32_within hm
  rw [BitVec.toNat_ofNat]
  omega

/-- Each step keeps the kernel stack. -/
theorem Step.ready (hc : Handlers k call) (h : Step k call s e u) (hr : Ready k K s) :
    Ready k K u := by
  cases h with
  | user hpc hsscratch htable =>
    exact ⟨hpc, hsscratch.trans hr.sscratch, hr.table.keep htable, hr.clear⟩
  | @trap _ _ _ cause he hvalid h =>
    obtain ⟨d, hway, rfl⟩ := h.way hc.toConvention hr
    have htable : Table k (line k.im.addr exit_part d).mem := by
      rw [(exit_part.spec k.im.addr d).mem]
      exact hway.table hc hr
    by_cases hi : IsSyscall cause
    · have hsys : e = .syscall := by
        cases e with
        | user => exact absurd he id
        | interrupt => exact absurd hi (not_syscall_of_interrupt he)
        | exception => exact absurd hi (not_syscall_of_exception he)
        | syscall => rfl
      obtain ⟨f, e, -, -, hframed⟩ := hway.result hc hr hi (hvalid hsys)
      obtain ⟨hpc, -, hscratch⟩ := (hframed.resumes rfl (aligned_next hr.aligned) k.im.addr).user
      exact ⟨hpc ▸ aligned_next hr.aligned, hscratch, htable, hr.clear⟩
    · obtain ⟨hpc, -, hscratch⟩ :=
        ((hway.transparent hc hr hi).resumes rfl hr.aligned k.im.addr).user
      exact ⟨hpc ▸ hr.aligned, hscratch, htable, hr.clear⟩

/-! ## Every run -/

/-- In a run, each trap gets to its call, unless it is a system call with a number that there is
not. Each call of the C code finds the frame at the same place and the `thread_t` in `tp`, and one
that comes back returns to user mode. Each return leaves the kernel stack in `sscratch`, and each
interrupt or exception gives the registers and the pc back. -/
structure Stable (k : Link) (call : Calls Symbol) (K : Word) (s : State) : Prop where
  sscratch : s.d.csr sscratch = K
  reached : ∀ cause, (IsSyscall cause → s.d.get t0 < SYSCALL_COUNT) →
    ∃ f c, CallOf k s cause f c ∧ k.Path call (trap k s cause) ⟨k.im.addr f, c⟩
  returns : ∀ cause f c e, CallOf k s cause f c → call f ⟨k.im.addr f, c⟩ ⟨c.get ra, e⟩ →
    e.csr sstatus &&& SSTATUS_SPP = 0 → ∃ u, Returns k call (trap k s cause) u
  calls : ∀ cause f c, start f = none → k.Path call (trap k s cause) ⟨k.im.addr f, c⟩ →
    c.get sp = K - 128 ∧ c.get tp = K
  transparent : ∀ cause u, ¬ IsSyscall cause → Returns k call (trap k s cause) u →
    u.pc = s.pc ∧ ∀ r, u.d.get r = s.d.get r

theorem Ready.reached (hr : Ready k K s) (hvalid : IsSyscall cause → s.d.get t0 < SYSCALL_COUNT) :
    ∃ f c, CallOf k s cause f c ∧ k.Path call (trap k s cause) ⟨k.im.addr f, c⟩ := by
  rcases kind_of cause with hi | hi | hi
  · exact ⟨_, _, .interrupt hi, CallOf.runs hr (.interrupt hi)⟩
  · exact ⟨_, _, .exception hi, CallOf.runs hr (.exception hi)⟩
  · have hlt : (s.d.get t0).toNat < syscall_table.length := hvalid hi
    have hf := List.getElem?_eq_getElem hlt
    exact ⟨_, _, .syscall hi hf, CallOf.runs hr (.syscall hi hf)⟩

theorem Ready.stable (hc : Handlers k call) (hr : Ready k K s) : Stable k call K s := by
  refine ⟨hr.sscratch, fun cause => hr.reached, ?_, ?_, ?_⟩
  · intro cause f c e hof
    exact hof.returns hr
  · intro cause f c hf hpath
    have hends := path_trap hc.toConvention hr hpath (.inl (k.outside f hf))
    generalize hg : (⟨k.im.addr f, c⟩ : State) = g at hends
    cases hends with
    | call hcall =>
      have hat := hcall.at hr
      have hd : c = _ := congrArg State.d hg
      rw [hd]
      exact ⟨hat.sp, hat.tp⟩
    | way hway =>
      have hpc := congrArg State.pc hg
      have hnone := k.outside f hf
      dsimp only at hpc
      rw [hpc, fetch_loc k.im (show 74 < k.im.text.length by rw [k.text_eq]; decide)] at hnone
      cases hnone
  · intro cause u hi h
    obtain ⟨d, hway, rfl⟩ := h.way hc.toConvention hr
    obtain ⟨hpc, hregs, -⟩ := ((hway.transparent hc hr hi).resumes rfl hr.aligned k.im.addr).user
    exact ⟨hpc, hregs⟩

theorem traps_are_transparent (hc : Handlers k call) (hs : Start k K d)
    (henter : Returns k call ⟨k.im.addr .user_mode_entry, d⟩ u)
    (hrun : Run (Step k call) u es v) : Stable k call K v := by
  obtain ⟨hr, -⟩ := hs.enters henter
  have hv : Ready k K v := hrun.keeps hr fun _ _ _ hr hstep => hstep.ready hc hr
  exact hv.stable hc

end

/-- A program that writes a character, entered with a frame of zeros. -/
theorem a_run_is_stable :
    ∃ u v, Run (Step a_kernel (xputc_leaves 7)) u [.user, .syscall] v ∧
      Stable a_kernel (xputc_leaves 7) 0xC0010000 v := by
  obtain ⟨d, hd⟩ : ∃ d, d = (a_user 0).d.set a0 (0xC0010000 - 128) := ⟨_, rfl⟩
  have hs : Start a_kernel 0xC0010000 d := by
    rw [hd]
    exact ⟨get_set_same _ _ (by decide), a_memory_table, (a_user_ready 0).clear⟩
  obtain ⟨u, hu⟩ := user_mode_entry_returns a_kernel (xputc_leaves 7) d (by rw [hd]; rfl)
  obtain ⟨hr, -⟩ := hs.enters hu
  -- the program puts the number of the call in t0
  have huser : Step a_kernel (xputc_leaves 7) u .user ⟨u.pc, u.d.set t0 1⟩ :=
    .user hr.aligned rfl fun _ _ => rfl
  have hr' := huser.ready (xputc_leaves.handlers a_kernel 7) hr
  have hi : IsSyscall EXCn_ECALL_UMODE := by decide
  have h1 : (u.d.set t0 1).get t0 = 1 := get_set_same _ _ (by decide)
  obtain ⟨v, hv, -⟩ := xputc_returns hr' hi h1 7
  have hcall : Step a_kernel (xputc_leaves 7) ⟨u.pc, u.d.set t0 1⟩ .syscall v :=
    .trap hi (fun _ => by dsimp only; rw [h1]; decide) hv
  have hrun := (Run.single huser).snoc hcall
  exact ⟨u, v, hrun, traps_are_transparent (xputc_leaves.handlers a_kernel 7) hs hu hrun⟩

end os_workshop.traps
