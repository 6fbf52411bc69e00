-- The laws of the traps of X/OS: what a trap gives back to the user program, and
-- where it leaves the kernel stack, over any run of the program and its traps.
import OsWorkshop.Runs
import OsWorkshop.TrapPaths

open os_workshop.memory os_workshop.rv32 os_workshop.frames
open os_workshop.runs

namespace os_workshop.traps

open Reg Csr Instr

section

variable {k : Link} {call : Calls Symbol} {s t u : State} {d e : Data} {cause K pc : Word}
  {x : Reg → Word} {f : Symbol}

/-! ## The frame on its way out -/

/-- The frame for the user program at the stack pointer of `trap_exit`. -/
structure Framed (K : Word) (x : Reg → Word) (pc : Word) (d : Data) : Prop where
  sp : d.get .sp = K - 128
  tp : d.get .tp = K
  saved : Saved d.mem (K - 128) x pc

/-- The state at `sret`: the registers and the pc of the frame, and the kernel stack in
`sscratch` again. -/
structure Resumed (K : Word) (x : Reg → Word) (pc : Word) (z : Data) : Prop where
  regs : ∀ r, z.get r = x r
  pc : z.csr sepc = pc
  sscratch : z.csr sscratch = K

theorem aligned_next {a : Word} (ha : a.toNat % 4 = 0) : (a + 4).toNat % 4 = 0 := by
  bv_omega

theorem Framed.resumes (h : Framed K x pc d) (hx : x .zero = 0) (hpc : pc.toNat % 4 = 0)
    (addr : Symbol → Word) : Resumed K x pc (line addr exit_part d) := by
  have hz := exit_part.spec addr d
  refine ⟨?_, ?_, ?_⟩
  · intro r
    by_cases hr : r = .zero
    · rw [hr, hx]
      rfl
    · obtain ⟨p, hp, rfl⟩ := List.mem_map.mp (eframe_has r hr)
      rw [hz.regs p hp, h.sp, h.saved.regs p hp]
  · rw [hz.pc, h.sp, h.saved.pc, legal_aligned _ hpc]
  · rw [hz.sscratch, h.tp]

theorem AtCall.framed {c : Data} (h : AtCall s K c) : Framed K s.d.get s.pc c :=
  ⟨h.sp, h.tp, h.saved⟩

/-- The C code gives the frame back as it found it. -/
theorem Handlers.framed {a : Word} {c : Data} (hc : Handlers k call) (hcall : call f ⟨a, c⟩ u)
    (hat : AtCall s K c) : Framed K s.d.get s.pc u.d := by
  refine ⟨?_, ?_, ?_⟩
  · rw [hc.saved hcall .sp (by decide), hat.sp]
  · rw [hc.saved hcall .tp (by decide), hat.tp]
  · apply hat.saved.keep
    rw [← hat.sp]
    exact hc.frame hcall

/-- A result in the field of `a0`. -/
def with_a0 (x : Reg → Word) (v : Word) : Reg → Word := fun r => if r = .a0 then v else x r

theorem result_part.spec (addr : Symbol → Word) (h : Framed K x pc e) :
    Framed K (with_a0 x (e.get a0)) (pc + 4) (line addr result_part e) ∧
      ∀ a, (∀ o ∈ offsets, Apart (K - 128 + o) a) →
        ld32 (line addr result_part e).mem a = ld32 e.mem a := by
  generalize hF : K - 128 = F
  have hsp := h.sp
  have hsaved := h.saved
  rw [hF] at hsp hsaved
  have h1 := hsaved.store_a0 (e.get a0)
  have h2 := h1.store_pc (pc + 4)
  have hz : line addr result_part e = ((((e.store (F + 0x20) (e.get a0)).set t0 pc).set t0
      (pc + 4)).store (F + 0x40) (pc + 4)) := by
    unfold result_part
    simp only [line_cons, line_nil, act]
    rw [get_set_ne _ _ (show sp ≠ t0 by decide), get_set_ne _ _ (show sp ≠ t0 by decide),
      get_set_same _ _ (show t0 ≠ zero by decide), get_set_same _ _ (show t0 ≠ zero by decide),
      get_store, hsp, mem_store, h1.pc]
  rw [hz]
  refine ⟨⟨?_, ?_, ?_⟩, ?_⟩
  · rw [get_store, get_set_ne _ _ (by decide), get_set_ne _ _ (by decide), get_store, h.sp]
  · rw [get_store, get_set_ne _ _ (by decide), get_set_ne _ _ (by decide), get_store, h.tp]
  · rw [hF]
    exact h2
  · intro a ha
    rw [mem_store, mem_set, mem_set, mem_store, ld32_st32_apart _ _ _ _ (ha _ (by decide)),
      ld32_st32_apart _ _ _ _ (ha _ (by decide))]

theorem illegal_part.spec (addr : Symbol → Word) (h : Framed K x pc e) :
    Framed K (with_a0 x XOS_ERR_BAD_SYSCALL) pc (line addr illegal_part e) ∧
      ∀ a, (∀ o ∈ offsets, Apart (K - 128 + o) a) →
        ld32 (line addr illegal_part e).mem a = ld32 e.mem a := by
  generalize hF : K - 128 = F
  have hsp := h.sp
  have hsaved := h.saved
  rw [hF] at hsp hsaved
  have hz : line addr illegal_part e =
      (e.set t0 XOS_ERR_BAD_SYSCALL).store (F + 0x20) XOS_ERR_BAD_SYSCALL := by
    unfold illegal_part
    simp only [line_cons, line_nil, act, get_zero, zero_add]
    rw [get_set_ne _ _ (show sp ≠ t0 by decide), get_set_same _ _ (show t0 ≠ zero by decide), hsp]
  rw [hz]
  refine ⟨⟨?_, ?_, ?_⟩, ?_⟩
  · rw [get_store, get_set_ne _ _ (by decide), h.sp]
  · rw [get_store, get_set_ne _ _ (by decide), h.tp]
  · rw [hF]
    exact hsaved.store_a0 XOS_ERR_BAD_SYSCALL
  · intro a ha
    rw [mem_store, mem_set, ld32_st32_apart _ _ _ _ (ha _ (by decide))]

/-! ## The ways back -/

theorem not_syscall_of_interrupt (hi : IsInterrupt cause) : ¬ IsSyscall cause :=
  fun h => hi h.1

theorem not_syscall_of_exception (hi : IsException cause) : ¬ IsSyscall cause :=
  fun h => hi.2 h.2

/-- An interrupt or an exception gives everything back. -/
theorem Way.transparent (hc : Handlers k call) (hr : Ready k K s) (h : Way k call s cause d)
    (hn : ¬ IsSyscall cause) : Framed K s.d.get s.pc d := by
  cases h with
  | interrupt hi hcall => exact hc.framed hcall (CallOf.interrupt hi |>.at hr)
  | exception hi hcall => exact hc.framed hcall (CallOf.exception hi |>.at hr)
  | syscall hi _ _ => exact absurd hi hn
  | illegal hi _ => exact absurd hi hn

/-- The state that a system call returns in. -/
def Result (k : Link) (call : Calls Symbol) (s : State) (cause : Word) (f : Symbol) (e : Data) :
    Prop :=
  call f ⟨k.im.addr f, (looked_up k s cause).set ra (k.im.loc 88)⟩ ⟨k.im.loc 88, e⟩

/-- A system call gives back everything but `a0`, behind the `ecall`. -/
theorem Way.result (hc : Handlers k call) (hr : Ready k K s) (h : Way k call s cause d)
    (hi : IsSyscall cause) (hlt : s.d.get t0 < SYSCALL_COUNT) :
    ∃ f e, syscall_table[(s.d.get t0).toNat]? = some f ∧ Result k call s cause f e ∧
      Framed K (with_a0 s.d.get (e.get a0)) (s.pc + 4) d := by
  cases h with
  | interrupt hi' _ => exact absurd hi (not_syscall_of_interrupt hi')
  | exception hi' _ => exact absurd hi (not_syscall_of_exception hi')
  | syscall _ hf hcall =>
    have hback := hc.framed hcall (CallOf.syscall hi hf |>.at hr)
    exact ⟨_, _, hf, hcall, (result_part.spec k.im.addr hback).1⟩
  | illegal _ hn => exact absurd hlt (BitVec.not_lt.mpr hn)

/-- A refused system call gives back everything but `a0`, at the `ecall` itself. -/
theorem Way.refused (hr : Ready k K s) (h : Way k call s cause d) (hi : IsSyscall cause)
    (hge : SYSCALL_COUNT ≤ s.d.get t0) :
    Framed K (with_a0 s.d.get XOS_ERR_BAD_SYSCALL) s.pc d := by
  cases h with
  | interrupt hi' _ => exact absurd hi (not_syscall_of_interrupt hi')
  | exception hi' _ => exact absurd hi (not_syscall_of_exception hi')
  | syscall _ hf _ =>
    have hlt : (s.d.get t0).toNat < 3 := (List.getElem?_eq_some_iff.mp hf).1
    exact absurd hge (BitVec.not_le.mpr hlt)
  | illegal _ _ =>
    exact (illegal_part.spec k.im.addr (checked.spec hr.sscratch).1.framed).1

/-- The table of the system calls stays what it was. -/
theorem Way.table (hc : Handlers k call) (hr : Ready k K s) (h : Way k call s cause d) :
    Table k d.mem := by
  have hlt : ∀ i f, syscall_table[i]? = some f → i < 3 := fun i f hf =>
    (List.getElem?_eq_some_iff.mp hf).1
  have hcalled : ∀ {f c e a}, CallOf k s cause f c → call f ⟨a, c⟩ e →
      ∀ i, i < 3 → ld32 e.d.mem (k.entry i) = ld32 s.d.mem (k.entry i) := by
    intro f c e a hcall h i hi
    have hkeep : ld32 e.d.mem (k.entry i) = ld32 c.mem (k.entry i) := by
      apply ld32_within (hc.table h)
      rw [BitVec.toNat_ofNat]
      omega
    rw [hkeep, (hcall.at hr).rest _ fun o ho => hr.clear o ho i hi]
  intro i f hf
  rw [← hr.table i f hf]
  have hi := hlt i f hf
  have hclear := fun o ho => hr.clear o ho i hi
  cases h with
  | interrupt hk hcall => exact hcalled (.interrupt hk) hcall i hi
  | exception hk hcall => exact hcalled (.exception hk) hcall i hi
  | syscall hk hg hcall =>
    have hback := hc.framed hcall (CallOf.syscall hk hg |>.at hr)
    rw [(result_part.spec k.im.addr hback).2 _ hclear]
    exact hcalled (.syscall hk hg) hcall i hi
  | illegal _ _ =>
    have hat : AtCall s K (checked k s cause) := (checked.spec hr.sscratch).1
    rw [(illegal_part.spec k.im.addr hat.framed).2 _ hclear, hat.rest _ hclear]

/-! ## The return to user mode -/

theorem user_mode_before (st : Word) : trap_sstatus 0 st &&& SSTATUS_SPP = 0 := by
  unfold trap_sstatus
  split <;> (ext i hi; interval_cases i <;> simp)

/-- A return to user mode has gone one of the ways. -/
theorem Returns.way (hc : Convention call) (hr : Ready k K s)
    (h : Returns k call (trap k s cause) u) :
    ∃ d, Way k call s cause d ∧ u = sret_state (line k.im.addr exit_part d) := by
  obtain ⟨t, hpath, hleft, -, rfl⟩ := h
  obtain ⟨d, hd, rfl⟩ := path_left hc hr hpath hleft
  exact ⟨d, hd, rfl⟩

theorem Resumed.user {z : Data} (h : Resumed K x pc z) :
    (sret_state z).pc = pc ∧ (∀ r, (sret_state z).d.get r = x r) ∧
      (sret_state z).d.csr .sscratch = K := by
  refine ⟨h.pc, h.regs, ?_⟩
  dsimp only [sret_state]
  rw [csr_setCsr, if_neg (by decide), h.sscratch]

theorem Way.returns (hr : Ready k K s) (h : Way k call s cause d)
    (hspp : d.csr sstatus = trap_sstatus 0 (s.d.csr sstatus)) :
    Returns k call (trap k s cause) (sret_state (line k.im.addr exit_part d)) := by
  refine ⟨_, h.runs hr, k.left_of (by rfl) rfl, ?_, rfl⟩
  dsimp only
  rw [(exit_part.spec k.im.addr d).sstatus, hspp, user_mode_before]

/-- A handler that comes back where it was called, with the user mode still the previous one,
returns to it. -/
theorem CallOf.returns {c : Data} (hr : Ready k K s) (h : CallOf k s cause f c)
    (hcall : call f ⟨k.im.addr f, c⟩ ⟨c.get ra, e⟩) (hspp : e.csr sstatus &&& SSTATUS_SPP = 0) :
    ∃ u, Returns k call (trap k s cause) u := by
  have hout : ∀ {d : Data}, Way k call s cause d → d.csr sstatus = e.csr sstatus →
      ∃ u, Returns k call (trap k s cause) u := by
    intro d hway hst
    refine ⟨_, _, hway.runs hr, k.left_of (by rfl) rfl, ?_, rfl⟩
    dsimp only
    rw [(exit_part.spec k.im.addr d).sstatus, hst, hspp]
  cases h with
  | interrupt hi =>
    rw [get_set_same _ _ (by decide)] at hcall
    exact hout (.interrupt hi hcall) rfl
  | exception hi =>
    rw [(excepted.spec hr.sscratch).2] at hcall
    exact hout (.exception hi hcall) rfl
  | syscall hi hf =>
    rw [get_set_same _ _ (by decide)] at hcall
    exact hout (.syscall hi hf hcall) rfl

/-- A system call with a number that there is not always returns. -/
theorem refused_returns (call : Calls Symbol) (hr : Ready k K s) (hi : IsSyscall cause)
    (hge : SYSCALL_COUNT ≤ s.d.get t0) : ∃ u, Returns k call (trap k s cause) u := by
  refine ⟨_, Way.returns hr (.illegal hi hge) ?_⟩
  have hat : AtCall s K (checked k s cause) := (checked.spec hr.sscratch).1
  exact hat.sstatus

/-! ## A small kernel -/

/-- The text at the start of the kernel, and the C code and the table behind it. -/
def a_kernel : Link :=
  Linked.placed text start 0xC0000000
    (fun
      | .trap_entry => 0xC0001000
      | .trap_exit => 0xC0001010
      | .exception_entry => 0xC0001020
      | .syscall_table => 0xC0001030
      | .syscall_entry => 0xC0001040
      | .illegal_syscall => 0xC0001050
      | .user_mode_entry => 0xC0001060
      | .interrupt_handler => 0xC0001070
      | .exception_handler => 0xC0001080
      | .sys_exit => 0xC0001090
      | .sys_xputc => 0xC00010A0
      | .sys_thread_create => 0xC00010B0)
    (by decide) (by decide) (by intro f; cases f <;> decide)
    (by intro f g; cases f <;> cases g <;> decide)

def a_memory : Mem :=
  st32 (st32 (st32 (fun _ => 0) 0xC0001030 0xC0001090) 0xC0001034 0xC00010A0) 0xC0001038 0xC00010B0

/-- A program at an `ecall` with the number `n`, over a kernel stack that ends at 0xC0010000. -/
def a_user (n : Word) : State where
  pc := 0x10000000
  d :=
    { x := fun r => if r = .t0 then n else 0
      csr := fun c => if c = .sscratch then 0xC0010000 else 0
      mem := a_memory }

theorem a_memory_table : Table a_kernel a_memory := by
  intro i f hf
  have hlt : i < 3 := (List.getElem?_eq_some_iff.mp hf).1
  interval_cases i
  all_goals
    cases hf
    decide

theorem a_user_ready (n : Word) : Ready a_kernel 0xC0010000 (a_user n) := by
  refine ⟨(by decide : (0x10000000 : Word).toNat % 4 = 0), rfl, a_memory_table, ?_⟩
  intro o ho i hi
  have hle := offsets_le o ho
  have hdist : memory.dist (0xC0010000 - 128) (a_kernel.entry i) = 0xFFFF10B0 + 4 * i := by
    interval_cases i <;> rfl
  apply outside_frame hle
  · omega
  · omega

/-- C code in which `sys_xputc` returns, and leaves `v` in `a0`. -/
def xputc_leaves (v : Word) : Calls Symbol :=
  fun f c u => f = .sys_xputc ∧ u = ⟨c.d.get ra, c.d.set a0 v⟩

theorem xputc_leaves.handlers (k : Link) (v : Word) : Handlers k (xputc_leaves v) := by
  refine ⟨⟨?_, ?_⟩, ?_, ?_⟩
  · rintro f c u ⟨-, rfl⟩
    rfl
  · rintro f c u ⟨-, rfl⟩ r hr
    have hne : ∀ r ∈ preserved, r ≠ .a0 := by decide
    exact get_set_ne _ _ (hne r hr)
  · rintro f c u ⟨-, rfl⟩ a -
    rfl
  · rintro f c u ⟨-, rfl⟩ a -
    rfl

/-- A character is written, and the program goes on with `v` in `a0`. -/
theorem xputc_returns (hr : Ready k K s) (hi : IsSyscall cause) (h1 : s.d.get t0 = 1) (v : Word) :
    ∃ u, Returns k (xputc_leaves v) (trap k s cause) u ∧ u.d.get a0 = v := by
  have hf : syscall_table[(s.d.get t0).toNat]? = some .sys_xputc := by rw [h1]; rfl
  have hat : AtCall s K (looked_up k s cause) := (looked_up.spec hr hf).1
  generalize hc : (looked_up k s cause).set ra (k.im.loc 88) = c
  have hra : c.get ra = k.im.loc 88 := by rw [← hc, get_set_same _ _ (by decide)]
  have hcall : xputc_leaves v .sys_xputc ⟨k.im.addr .sys_xputc, c⟩ ⟨k.im.loc 88, c.set a0 v⟩ :=
    ⟨rfl, by rw [hra]⟩
  have hframed : Framed K s.d.get s.pc (c.set a0 v) := by
    rw [← hc]
    exact ((hat.set _ (by decide) (by decide)).set _ (by decide) (by decide)).framed
  have hz := ((result_part.spec k.im.addr hframed).1.resumes rfl (aligned_next hr.aligned)
    k.im.addr).user.2.1 a0
  have hspp : (line k.im.addr result_part (c.set a0 v)).csr sstatus =
      trap_sstatus 0 (s.d.csr sstatus) := by
    rw [← hc]
    exact hat.sstatus
  subst hc
  refine ⟨_, Way.returns hr (.syscall hi hf hcall) hspp, ?_⟩
  rw [hz]
  unfold with_a0
  rw [if_pos rfl, get_set_same _ _ (by decide)]

/-! ## The law of the system calls -/

/-- The program goes on behind its `ecall`, with the result of the function that its number
selects, or with an error, and with every other register as it was. The function finds the
arguments of the program and the frame of the trap. -/
def ReturnLaw (k : Link) (call : Calls Symbol) (K : Word) (s u : State) : Prop :=
  u.pc = s.pc + 4 ∧ (∀ r, r ≠ .a0 → u.d.get r = s.d.get r) ∧
    if s.d.get t0 < SYSCALL_COUNT then
      ∃ f c e, syscall_table[(s.d.get t0).toNat]? = some f ∧ call f ⟨k.im.addr f, c⟩ e ∧
        (∀ r ∈ [a0, a1, a2, a3, a4, a5, a6, a7], c.get r = s.d.get r) ∧ c.get sp = K - 128 ∧
        u.d.get a0 = e.d.get a0
    else u.d.get a0 = XOS_ERR_BAD_SYSCALL

theorem refused_stays (hc : Handlers k call) (hr : Ready k K s) (hi : IsSyscall cause)
    (hge : SYSCALL_COUNT ≤ s.d.get t0) (h : Returns k call (trap k s cause) u) : u.pc = s.pc := by
  obtain ⟨d, hway, rfl⟩ := h.way hc.toConvention hr
  exact (((hway.refused hr hi hge).resumes rfl hr.aligned k.im.addr).user).1

/-- A system call that returns obeys the law when its number is one of the table, and else
never: a refused number goes back to the same `ecall`. -/
theorem the_return_law_holds_iff (hc : Handlers k call) (hr : Ready k K s)
    (h : Returns k call (trap k s EXCn_ECALL_UMODE) u) :
    ReturnLaw k call K s u ↔ s.d.get t0 < SYSCALL_COUNT := by
  have hi : IsSyscall EXCn_ECALL_UMODE := by decide
  constructor
  · intro hlaw
    by_contra hge
    have hpc := refused_stays hc hr hi (BitVec.not_lt.mp hge) h
    rw [hlaw.1] at hpc
    simp at hpc
  · intro hlt
    obtain ⟨d, hway, rfl⟩ := h.way hc.toConvention hr
    obtain ⟨f, e, hf, hcall, hframed⟩ := hway.result hc hr hi hlt
    obtain ⟨hpc, hregs, -⟩ := (hframed.resumes rfl (aligned_next hr.aligned) k.im.addr).user
    obtain ⟨hat, -, hargs⟩ := @looked_up.spec k s EXCn_ECALL_UMODE K hr f hf
    refine ⟨hpc, ?_, ?_⟩
    · intro r hra
      rw [hregs r]
      exact if_neg hra
    · rw [if_pos hlt]
      refine ⟨f, _, _, hf, hcall, ?_, ?_, ?_⟩
      · intro r hr
        have hne : ∀ r ∈ [a0, a1, a2, a3, a4, a5, a6, a7], r ≠ ra := by decide
        rw [get_set_ne _ _ (hne r hr), hargs r hr]
      · rw [get_set_ne _ _ (by decide), hat.sp]
      · exact hregs a0

end

/-- The number 3 is refused, and the program is still at its `ecall`. -/
theorem a_refused_call_does_not_return :
    ∃ u, Returns a_kernel (xputc_leaves 0) (trap a_kernel (a_user 3) EXCn_ECALL_UMODE) u ∧
      ¬ ReturnLaw a_kernel (xputc_leaves 0) 0xC0010000 (a_user 3) u := by
  have hi : IsSyscall EXCn_ECALL_UMODE := by decide
  have hge : SYSCALL_COUNT ≤ (a_user 3).d.get t0 := by decide
  obtain ⟨u, hu⟩ := refused_returns (xputc_leaves 0) (a_user_ready 3) hi hge
  refine ⟨u, hu, ?_⟩
  intro hlaw
  have hpc := refused_stays (xputc_leaves.handlers a_kernel 0) (a_user_ready 3) hi hge hu
  rw [hlaw.1] at hpc
  simp at hpc

theorem the_return_law_of_xputc :
    ∃ u, Returns a_kernel (xputc_leaves 7) (trap a_kernel (a_user 1) EXCn_ECALL_UMODE) u ∧
      ReturnLaw a_kernel (xputc_leaves 7) 0xC0010000 (a_user 1) u := by
  have hi : IsSyscall EXCn_ECALL_UMODE := by decide
  obtain ⟨u, hu, -⟩ := xputc_returns (a_user_ready 1) hi rfl 7
  exact ⟨u, hu, (the_return_law_holds_iff (xputc_leaves.handlers a_kernel 7) (a_user_ready 1)
    hu).mpr (by decide)⟩

end os_workshop.traps
