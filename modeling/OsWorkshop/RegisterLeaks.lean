-- What the kernel of X/OS lets a user program see in its registers after a trap:
-- two runs of one trap, over kernels that differ in memory and in what their
-- functions leave in registers.
import OsWorkshop.TrapLaws

open os_workshop.memory os_workshop.rv32 os_workshop.frames

namespace os_workshop.traps

open Reg Csr Instr

/-! ## Two runs of one trap -/

/-- The functions that return something (xos/inc/xos/syscall-tmpl.h); the others are void. -/
def has_result : Symbol → Bool
  | .sys_thread_create => true
  | _ => false

/-- The C code of the kernel. `sys_exit` does not return. -/
structure Kernel (k : Link) (call : Calls Symbol) : Prop extends Handlers k call where
  exits : ∀ c u, ¬ call .sys_exit c u

/-- The two runs get the same results from the functions that have one. -/
def SameResults (call call' : Calls Symbol) : Prop :=
  ∀ f c u c' u', has_result f = true → call f c u → call' f c' u' → u.d.get a0 = u'.d.get a0

/-- What a user program sees of itself. -/
def SameUser (s s' : State) : Prop := s.pc = s'.pc ∧ ∀ r, s.d.get r = s'.d.get r

/-- However the kernels of two runs differ, the program comes back the same. -/
def NoLeak (k : Link) (s : State) (cause : Word) : Prop :=
  ∀ call call' K' s' u u', Kernel k call → Kernel k call' → SameResults call call' →
    Ready k K' s' → SameUser s s' → Returns k call (trap k s cause) u →
    Returns k call' (trap k s' cause) u' → SameUser u u'

/-- The system call that returns without a result, `sys_xputc`. -/
def IsVoidCall (s : State) (cause : Word) : Prop := IsSyscall cause ∧ s.d.get t0 = 1

instance (s : State) (cause : Word) : Decidable (IsVoidCall s cause) :=
  inferInstanceAs (Decidable (_ ∧ _))

/-- However the kernels of two runs differ, the program comes back the same but for `a0`, and
with the same `a0` too unless a void function returned. -/
def LeaksNoMore (k : Link) (s : State) (cause : Word) : Prop :=
  ∀ call call' K' s' u u', Kernel k call → Kernel k call' → SameResults call call' →
    Ready k K' s' → SameUser s s' → Returns k call (trap k s cause) u →
    Returns k call' (trap k s' cause) u' →
    u.pc = u'.pc ∧ (∀ r, r ≠ .a0 → u.d.get r = u'.d.get r) ∧
      (¬ IsVoidCall s cause → u.d.get a0 = u'.d.get a0)

section

variable {k : Link} {call call' : Calls Symbol} {s s' u u' : State} {cause K K' : Word}

/-! ## What comes back is the frame -/

/-- Two returns with the same frame. -/
theorem SameUser.of_frames {d d' : Data} {x x' : Reg → Word} {pc pc' : Word}
    (h : Framed K x pc d) (h' : Framed K' x' pc' d') (hx : ∀ r, x r = x' r) (hpc : pc = pc')
    (h0 : x .zero = 0) (ha : pc.toNat % 4 = 0) : SameUser (sret_state (line k.im.addr exit_part d))
      (sret_state (line k.im.addr exit_part d')) := by
  have h0' : x' .zero = 0 := (hx .zero).symm.trans h0
  obtain ⟨hp, hr, -⟩ := (h.resumes h0 ha k.im.addr).user
  obtain ⟨hp', hr', -⟩ := (h'.resumes h0' (hpc ▸ ha) k.im.addr).user
  refine ⟨?_, ?_⟩
  · rw [hp, hp', hpc]
  · intro r
    rw [hr, hr', hx]

theorem with_a0_congr {x x' : Reg → Word} {v v' : Word} (hx : ∀ r, x r = x' r) (hv : v = v')
    (r : Reg) : with_a0 x v r = with_a0 x' v' r := by
  unfold with_a0
  rw [hv, hx]

/-- A valid system call comes back the same when its function returns the same. -/
theorem no_leak_of_result (hk : Kernel k call) (hk' : Kernel k call') (hr : Ready k K s)
    (hr' : Ready k K' s') (hsame : SameResults call call') (hs : SameUser s s')
    (hi : IsSyscall cause) (hlt : s.d.get t0 < SYSCALL_COUNT) (h1 : s.d.get t0 ≠ 1)
    {d d' : Data} (hway : Way k call s cause d) (hway' : Way k call' s' cause d') :
    SameUser (sret_state (line k.im.addr exit_part d))
      (sret_state (line k.im.addr exit_part d')) := by
  have ht0 := hs.2 t0
  obtain ⟨f, e, hf, hcall, hframed⟩ := hway.result hk.toHandlers hr hi hlt
  obtain ⟨f', e', hf', hcall', hframed'⟩ := hway'.result hk'.toHandlers hr' hi (ht0 ▸ hlt)
  rw [← ht0, hf, Option.some.injEq] at hf'
  subst hf'
  have h2 : (s.d.get t0).toNat = 0 ∨ (s.d.get t0).toNat = 2 := by
    have hlt' : (s.d.get t0).toNat < 3 := hlt
    have h1' : (s.d.get t0).toNat ≠ 1 := fun h => h1 (BitVec.eq_of_toNat_eq h)
    omega
  rcases h2 with h0 | h2
  · -- sys_exit
    rw [h0] at hf
    cases hf
    exact absurd hcall (hk.exits _ _)
  · -- sys_thread_create
    rw [h2] at hf
    cases hf
    have ha0 : e.get a0 = e'.get a0 := hsame _ _ _ _ _ rfl hcall hcall'
    exact .of_frames hframed hframed' (with_a0_congr hs.2 ha0) (by rw [hs.1]) rfl
      (aligned_next hr.aligned)

theorem no_leak (hr : Ready k K s) (h : ¬ IsVoidCall s cause) :
    NoLeak k s cause := by
  intro call call' K' s' u u' hk hk' hsame hr' hs hret hret'
  obtain ⟨d, hway, rfl⟩ := hret.way hk.toConvention hr
  obtain ⟨d', hway', rfl⟩ := hret'.way hk'.toConvention hr'
  by_cases hi : IsSyscall cause
  · by_cases hlt : s.d.get t0 < SYSCALL_COUNT
    · exact no_leak_of_result hk hk' hr hr' hsame hs hi hlt (fun h1 => h ⟨hi, h1⟩) hway hway'
    · have hge := BitVec.not_lt.mp hlt
      have hge' : SYSCALL_COUNT ≤ s'.d.get t0 := hs.2 t0 ▸ hge
      exact .of_frames (hway.refused hr hi hge) (hway'.refused hr' hi hge')
        (with_a0_congr hs.2 rfl) hs.1 rfl hr.aligned
  · exact .of_frames (hway.transparent hk.toHandlers hr hi)
      (hway'.transparent hk'.toHandlers hr' hi) hs.2 hs.1 rfl hr.aligned

theorem xputc_leaves.kernel (k : Link) (v : Word) : Kernel k (xputc_leaves v) := by
  refine ⟨xputc_leaves.handlers k v, ?_⟩
  rintro c u ⟨h, -⟩
  cases h

/-- What `sys_xputc` happens to leave in `a0` reaches the program. -/
theorem xputc_leaks (hr : Ready k K s) (hi : IsSyscall cause) (h1 : s.d.get t0 = 1) :
    ¬ NoLeak k s cause := by
  intro h
  obtain ⟨u, hu, ha0⟩ := xputc_returns hr hi h1 7
  obtain ⟨u', hu', ha0'⟩ := xputc_returns hr hi h1 8
  have hsame : SameResults (xputc_leaves 7) (xputc_leaves 8) := by
    rintro f c u c' u' hf ⟨rfl, -⟩ -
    cases hf
  have hback := h _ _ K s u u' (xputc_leaves.kernel k 7) (xputc_leaves.kernel k 8) hsame hr
    ⟨rfl, fun _ => rfl⟩ hu hu'
  have h78 := hback.2 a0
  rw [ha0, ha0'] at h78
  exact absurd h78 (by decide)

/-- The path after a call stores `a0` for every function, so what a void function leaves there
is seen, and nothing else is. -/
theorem nothing_leaks_iff (hr : Ready k K s) : NoLeak k s cause ↔ ¬ IsVoidCall s cause := by
  constructor
  · rintro h ⟨hi, h1⟩
    exact xputc_leaks hr hi h1 h
  · exact no_leak hr

theorem only_void_results_leak (hr : Ready k K s) : LeaksNoMore k s cause := by
  intro call call' K' s' u u' hk hk' hsame hr' hs hret hret'
  by_cases h : IsVoidCall s cause
  · obtain ⟨d, hway, rfl⟩ := hret.way hk.toConvention hr
    obtain ⟨d', hway', rfl⟩ := hret'.way hk'.toConvention hr'
    have hlt : s.d.get t0 < SYSCALL_COUNT := by
      rw [h.2]
      decide
    have hlt' : s'.d.get t0 < SYSCALL_COUNT := hs.2 t0 ▸ hlt
    obtain ⟨f, e, -, -, hframed⟩ := hway.result hk.toHandlers hr h.1 hlt
    obtain ⟨f', e', -, -, hframed'⟩ := hway'.result hk'.toHandlers hr' h.1 hlt'
    obtain ⟨hpc, hregs, -⟩ := (hframed.resumes rfl (aligned_next hr.aligned) k.im.addr).user
    obtain ⟨hpc', hregs', -⟩ := (hframed'.resumes rfl (aligned_next hr'.aligned) k.im.addr).user
    refine ⟨?_, ?_, fun hn => absurd h hn⟩
    · rw [hpc, hpc', hs.1]
    · intro r hr
      rw [hregs, hregs', with_a0, with_a0, if_neg hr, if_neg hr, hs.2]
  · have hback := no_leak hr h call call' K' s' u u' hk hk' hsame hr' hs hret hret'
    exact ⟨hback.1, fun r _ => hback.2 r, fun _ => hback.2 a0⟩

end

/-- After a written character the program sees what `sys_xputc` left in `a0`. -/
theorem a_written_character_leaks : ¬ NoLeak a_kernel (a_user 1) EXCn_ECALL_UMODE :=
  xputc_leaks (a_user_ready 1) (by decide) rfl

/-- C code in which `sys_thread_create` refuses, and leaves `w` in `a1`. -/
def create_leaves (w : Word) : Calls Symbol :=
  fun f c u => f = .sys_thread_create ∧
    u = ⟨c.d.get ra, (c.d.set a0 XOS_ERR_NOT_SUPPORTED).set a1 w⟩

theorem create_leaves.kernel (k : Link) (w : Word) : Kernel k (create_leaves w) := by
  refine ⟨⟨⟨?_, ?_⟩, ?_, ?_⟩, ?_⟩
  · rintro f c u ⟨-, rfl⟩
    rfl
  · rintro f c u ⟨-, rfl⟩ r hr
    have hne : ∀ r ∈ preserved, r ≠ .a0 ∧ r ≠ .a1 := by decide
    exact (get_set_ne _ _ (hne r hr).2).trans (get_set_ne _ _ (hne r hr).1)
  · rintro f c u ⟨-, rfl⟩ a -
    rfl
  · rintro f c u ⟨-, rfl⟩ a -
    rfl
  · rintro c u ⟨h, -⟩
    cases h

/-- A program that creates a thread, with `v` in a word of the kernel. -/
def a_creator (v : Word) : State :=
  ⟨(a_user 2).pc, { (a_user 2).d with mem := st32 a_memory 0xC0005000 v }⟩

theorem a_creator_ready (v : Word) : Ready a_kernel 0xC0010000 (a_creator v) := by
  refine ⟨(a_user_ready 2).aligned, rfl, ?_, (a_user_ready 2).clear⟩
  intro i f hf
  have hlt : i < 3 := (List.getElem?_eq_some_iff.mp hf).1
  have happ : Apart 0xC0005000 (a_kernel.entry i) := by interval_cases i <;> decide
  exact (ld32_st32_apart _ _ _ _ happ).trans (a_memory_table i f hf)

theorem a_creator_returns (v w : Word) : ∃ u,
    Returns a_kernel (create_leaves w) (trap a_kernel (a_creator v) EXCn_ECALL_UMODE) u := by
  have hi : IsSyscall EXCn_ECALL_UMODE := by decide
  have hf : syscall_table[((a_creator v).d.get t0).toNat]? = some .sys_thread_create := rfl
  have hof : CallOf a_kernel (a_creator v) EXCn_ECALL_UMODE .sys_thread_create _ := .syscall hi hf
  have hat := hof.at (a_creator_ready v)
  refine hof.returns (a_creator_ready v) ⟨rfl, rfl⟩ ?_
  rw [csr_set, csr_set, hat.sstatus, user_mode_before]

/-- Two kernels with other words in memory, which leave other things in `a1`. -/
theorem a_creator_sees_the_same : ∃ u u',
    Returns a_kernel (create_leaves 7) (trap a_kernel (a_creator 1) EXCn_ECALL_UMODE) u ∧
      Returns a_kernel (create_leaves 8) (trap a_kernel (a_creator 2) EXCn_ECALL_UMODE) u' ∧
      u.pc = u'.pc ∧ ∀ r, u.d.get r = u'.d.get r := by
  obtain ⟨u, hu⟩ := a_creator_returns 1 7
  obtain ⟨u', hu'⟩ := a_creator_returns 2 8
  have hsame : SameResults (create_leaves 7) (create_leaves 8) := by
    rintro f c u c' u' - ⟨-, rfl⟩ ⟨-, rfl⟩
    rfl
  obtain ⟨hpc, hregs, ha0⟩ := only_void_results_leak (a_creator_ready 1) _ _ _ _ u u'
    (create_leaves.kernel _ 7) (create_leaves.kernel _ 8) hsame (a_creator_ready 2)
    ⟨rfl, fun _ => rfl⟩ hu hu'
  refine ⟨u, u', hu, hu', hpc, ?_⟩
  intro r
  by_cases hr : r = a0
  · rw [hr]
    exact ha0 (by decide)
  · exact hregs r hr

end os_workshop.traps
