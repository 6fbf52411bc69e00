-- The paths of a trap of X/OS: from the hardware's jump to `trap_entry` into the
-- C code or to the refusal of a system call, and from there through `trap_exit`
-- to `sret`.
import OsWorkshop.TrapEntry

open os_workshop.memory os_workshop.rv32 os_workshop.frames

namespace os_workshop.traps

open Reg Csr Instr

/-! ## The hardware -/

/-- What a trap of the user state `s` does to the CSRs. -/
def trapped (s : State) (cause : Word) : Data := trap_csrs 0 s cause

/-- The state right after a trap that the user state `s` takes. -/
def trap (k : Link) (s : State) (cause : Word) : State := ⟨k.im.loc 0, trapped s cause⟩

/-- The kernel runs from `s` to an `sret` that goes to user mode, in the state `u`. -/
def Returns (k : Link) (call : Calls Symbol) (s u : State) : Prop :=
  ∃ t, k.Path call s t ∧ k.im.Left t ∧ t.d.csr sstatus &&& SSTATUS_SPP = 0 ∧ u = sret_state t.d

/-! ## The kernel -/

/-- The C code follows the calling convention. It leaves the frame of the trap alone, which is
at its stack pointer, and the words of `syscall_table`, which are in the text of the kernel. -/
structure Handlers (k : Link) (call : Calls Symbol) : Prop extends Convention call where
  frame : ∀ {f c u}, call f c u → ∀ a, memory.dist (c.d.get sp) a < 128 → u.d.mem a = c.d.mem a
  table : ∀ {f c u}, call f c u →
    ∀ a, memory.dist (k.im.addr .syscall_table) a < 12 → u.d.mem a = c.d.mem a

/-- The address of the entry `i` of `syscall_table`. -/
def Link.entry (k : Link) (i : Nat) : Word := k.im.addr .syscall_table + BitVec.ofNat 32 (4 * i)

/-- The memory holds `syscall_table`. -/
def Table (k : Link) (m : Mem) : Prop :=
  ∀ i f, syscall_table[i]? = some f → ld32 m (k.entry i) = k.im.addr f

/-- The user state is at an instruction. The end of its kernel stack is in `sscratch`, and the
frame is not over the table, which the memory holds. -/
structure Ready (k : Link) (K : Word) (s : State) : Prop where
  aligned : s.pc.toNat % 4 = 0
  sscratch : s.d.csr sscratch = K
  table : Table k s.d.mem
  clear : ∀ o ∈ offsets, ∀ i < 3, Apart (K - 128 + o) (k.entry i)

/-! ## The kinds of traps -/

def IsInterrupt (cause : Word) : Prop := ¬ (0 : Word).sle cause

def IsSyscall (cause : Word) : Prop :=
  (0 : Word).sle cause ∧ EXCn_ECALL_UMODE = cause &&& 0xFF

def IsException (cause : Word) : Prop :=
  (0 : Word).sle cause ∧ EXCn_ECALL_UMODE ≠ cause &&& 0xFF

instance (cause : Word) : Decidable (IsInterrupt cause) := inferInstanceAs (Decidable (¬ _))
instance (cause : Word) : Decidable (IsSyscall cause) := inferInstanceAs (Decidable (_ ∧ _))
instance (cause : Word) : Decidable (IsException cause) := inferInstanceAs (Decidable (_ ∧ _))

theorem kind_of (cause : Word) : IsInterrupt cause ∨ IsException cause ∨ IsSyscall cause := by
  unfold IsInterrupt IsException IsSyscall
  by_cases h : (0 : Word).sle cause
  · by_cases h8 : EXCn_ECALL_UMODE = cause &&& 0xFF
    · exact .inr (.inr ⟨h, h8⟩)
    · exact .inr (.inl ⟨h, h8⟩)
  · exact .inl h

/-! ## The text at its indices -/

section

variable {k : Link} {call : Calls Symbol} {s t u : State} {d e : Data} {cause K : Word}

theorem text_entry : entry_part <+: text.drop 0 := by
  have h : text = entry_part ++ ([bge t1 zero .exception_entry, jal .interrupt_handler] ++
      (trap_exit ++ exception_entry ++ syscall_entry ++ illegal_syscall ++ user_mode_entry)) := by
    simp only [text, trap_entry_eq, entry_part, List.append_assoc]
  rw [h, List.drop_zero]
  exact List.prefix_append _ _

theorem text_exit : exit_part <+: text.drop 40 := by
  have h : text = trap_entry ++ (exit_part ++ ([.sret] ++ (exception_entry ++ syscall_entry ++
      illegal_syscall ++ user_mode_entry))) := by
    simp only [text, trap_exit_eq, exit_part, List.append_assoc]
  rw [h, List.drop_left' (by rfl)]
  exact List.prefix_append _ _

/-- What `trap_entry` leaves behind before its branch. -/
def entered (k : Link) (s : State) (cause : Word) : Data :=
  line k.im.addr entry_part (trapped s cause)

theorem path_entry (h : k.Path call (trap k s cause) t) (ht : k.im.Stop t) :
    k.Path call ⟨k.im.loc 38, entered k s cause⟩ t :=
  Linked.path_line entry_part 38 h ht text_entry (by rfl) rfl

/-- The shared way out. -/
theorem path_exit (h : k.Path call ⟨k.im.loc 40, d⟩ t) (ht : k.im.Stop t) :
    t = ⟨k.im.loc 74, line k.im.addr exit_part d⟩ := by
  have h74 := Linked.path_line exit_part 74 h ht text_exit (by rfl) rfl
  exact Linked.path_return h74 (by rfl) rfl

/-! ## What holds at a call

The straight parts between `trap_entry` and a call. -/

/-- Before the test for a system call. -/
def dispatched (k : Link) (s : State) (cause : Word) : Data :=
  line k.im.addr [addi t2 zero EXCn_ECALL_UMODE, andi t3 t1 0xFF] (entered k s cause)

/-- At the call of `exception_handler`. -/
def excepted (k : Link) (s : State) (cause : Word) : Data :=
  line k.im.addr [mv a0 sp, la ra .trap_exit] (dispatched k s cause)

/-- Before the check of the number. -/
def checked (k : Link) (s : State) (cause : Word) : Data :=
  line k.im.addr [li t1 SYSCALL_COUNT] (dispatched k s cause)

/-- At the load from the table. -/
def looked_up (k : Link) (s : State) (cause : Word) : Data :=
  line k.im.addr [slli t0 t0 2, la t1 .syscall_table, add t2 t1 t0, lw t3 0 t2] (checked k s cause)

/-- After a system call: the result and the next pc go to the frame. -/
def result_part : Block := [sw a0 0x20 sp, lw t0 0x40 sp, addi t0 t0 4, sw t0 0x40 sp]

def illegal_part : Block := [addi t0 zero XOS_ERR_BAD_SYSCALL, sw t0 0x20 sp]

/-- What a trap of `s` leaves at every call, over the kernel stack that ends at `K`. -/
structure AtCall (s : State) (K : Word) (c : Data) : Prop where
  sp : c.get .sp = K - 128
  tp : c.get .tp = K
  saved : Saved c.mem (K - 128) s.d.get s.pc
  rest : ∀ a, (∀ o ∈ offsets, Apart (K - 128 + o) a) → ld32 c.mem a = ld32 s.d.mem a
  sstatus : c.csr sstatus = trap_sstatus 0 (s.d.csr .sstatus)

theorem AtCall.set {c : Data} (h : AtCall s K c) {r : Reg} (v : Word) (hsp : r ≠ .sp)
    (htp : r ≠ .tp) : AtCall s K (c.set r v) := by
  refine ⟨?_, ?_, h.saved, h.rest, h.sstatus⟩
  · rw [get_set_ne _ _ hsp.symm, h.sp]
  · rw [get_set_ne _ _ htp.symm, h.tp]

theorem entered.spec (hs : s.d.csr sscratch = K) :
    AtCall s K (entered k s cause) ∧ (entered k s cause).get t1 = cause ∧
      ∀ r, r ≠ sp → r ≠ tp → r ≠ t1 → r ≠ t2 → (entered k s cause).get r = s.d.get r := by
  have h := entry_part.spec k.im.addr (trapped s cause)
  have hscratch : (trapped s cause).csr sscratch = K := hs
  have hpc : (trapped s cause).csr sepc = s.pc := rfl
  obtain ⟨hsp, htp, ht1, hothers, hsaved, hrest, hstatus⟩ := h
  rw [hscratch] at hsp htp hsaved hrest
  rw [hpc] at hsaved
  exact ⟨⟨hsp, htp, hsaved, hrest, hstatus⟩, ht1, hothers⟩

theorem dispatched.spec (hs : s.d.csr sscratch = K) :
    AtCall s K (dispatched k s cause) ∧ (dispatched k s cause).get t2 = EXCn_ECALL_UMODE ∧
      (dispatched k s cause).get t3 = cause &&& 0xFF ∧
      ∀ r, r ≠ sp → r ≠ tp → r ≠ t1 → r ≠ t2 → r ≠ t3 →
        (dispatched k s cause).get r = s.d.get r := by
  obtain ⟨hat, ht1, hothers⟩ := entered.spec (k := k) hs
  have e : dispatched k s cause = ((entered k s cause).set t2 EXCn_ECALL_UMODE).set t3
      (cause &&& 0xFF) := by
    unfold dispatched
    simp only [line_cons, line_nil, act, get_zero, zero_add]
    rw [get_set_ne _ _ (by decide), ht1]
  rw [e]
  refine ⟨(hat.set _ (by decide) (by decide)).set _ (by decide) (by decide), ?_, ?_, ?_⟩
  · rw [get_set_ne _ _ (by decide), get_set_same _ _ (by decide)]
  · rw [get_set_same _ _ (by decide)]
  · intro r h1 h2 h3 h4 h5
    rw [get_set_ne _ _ h5, get_set_ne _ _ h4, hothers r h1 h2 h3 h4]

theorem excepted.spec (hs : s.d.csr sscratch = K) :
    AtCall s K (excepted k s cause) ∧ (excepted k s cause).get ra = k.im.loc 40 := by
  obtain ⟨hat, -⟩ := dispatched.spec (k := k) hs
  unfold excepted
  simp only [line_cons, line_nil, act, mv]
  refine ⟨(hat.set _ (by decide) (by decide)).set _ (by decide) (by decide), ?_⟩
  rw [get_set_same _ _ (by decide)]
  exact k.labels .trap_exit 40 rfl

theorem checked.spec (hs : s.d.csr sscratch = K) :
    AtCall s K (checked k s cause) ∧ (checked k s cause).get t1 = SYSCALL_COUNT ∧
      ∀ r, r ≠ sp → r ≠ tp → r ≠ t1 → r ≠ t2 → r ≠ t3 →
        (checked k s cause).get r = s.d.get r := by
  obtain ⟨hat, -, -, hothers⟩ := dispatched.spec (k := k) hs
  have e : checked k s cause = (dispatched k s cause).set t1 SYSCALL_COUNT := by
    unfold checked
    simp only [line_cons, line_nil, act, li, get_zero, zero_add]
  rw [e]
  refine ⟨hat.set _ (by decide) (by decide), get_set_same _ _ (by decide), ?_⟩
  intro r h1 h2 h3 h4 h5
  rw [get_set_ne _ _ h3, hothers r h1 h2 h3 h4 h5]

/-- The load finds the function of the number, and the arguments of the user are still there. -/
theorem looked_up.spec (hr : Ready k K s) {f : Symbol}
    (hf : syscall_table[(s.d.get t0).toNat]? = some f) :
    AtCall s K (looked_up k s cause) ∧ (looked_up k s cause).get t3 = k.im.addr f ∧
      ∀ r ∈ [a0, a1, a2, a3, a4, a5, a6, a7], (looked_up k s cause).get r = s.d.get r := by
  obtain ⟨hat, -, hothers⟩ := checked.spec (k := k)  hr.sscratch
  have ht0 := hothers t0 (by decide) (by decide) (by decide) (by decide) (by decide)
  obtain ⟨v, hv⟩ : ∃ v, v = s.d.get t0 := ⟨_, rfl⟩
  rw [← hv] at hf ht0
  have hlt : v.toNat < 3 := (List.getElem?_eq_some_iff.mp hf).1
  have haddr : k.im.addr .syscall_table + v <<< 2 + 0 = k.entry v.toNat := by
    unfold Link.entry
    rw [add_zero]
    congr 1
    apply BitVec.eq_of_toNat_eq
    rw [BitVec.toNat_shiftLeft, Nat.shiftLeft_eq, BitVec.toNat_ofNat]
    omega
  have hload : ld32 (checked k s cause).mem (k.entry v.toNat) = k.im.addr f := by
    rw [hat.rest _ fun o ho => hr.clear o ho _ hlt]
    exact hr.table _ f hf
  generalize hw : (checked k s cause).set t0 (v <<< 2) = c1
  have h1 : AtCall s K c1 := hw ▸ hat.set _ (by decide) (by decide)
  have hc0 : c1.get t0 = v <<< 2 := by rw [← hw, get_set_same _ _ (by decide)]
  have hm1 : c1.mem = (checked k s cause).mem := by rw [← hw, mem_set]
  have e : looked_up k s cause = ((c1.set t1 (k.im.addr .syscall_table)).set t2
      (k.im.addr .syscall_table + v <<< 2)).set t3 (k.im.addr f) := by
    unfold looked_up
    simp only [line_cons, line_nil, act]
    rw [ht0, hw, get_set_same _ _ (show t1 ≠ zero by decide),
      get_set_ne _ _ (show t0 ≠ t1 by decide), hc0, get_set_same _ _ (show t2 ≠ zero by decide),
      mem_set, mem_set, hm1, haddr, hload]
  rw [e]
  have h2 := h1.set (k.im.addr .syscall_table) (show t1 ≠ .sp by decide) (by decide)
  have h3 := h2.set (k.im.addr .syscall_table + v <<< 2) (show t2 ≠ .sp by decide) (by decide)
  refine ⟨h3.set _ (by decide) (by decide), get_set_same _ _ (by decide), ?_⟩
  intro r hr
  have hne : ∀ r ∈ [a0, a1, a2, a3, a4, a5, a6, a7],
      (r ≠ sp ∧ r ≠ tp ∧ r ≠ t1 ∧ r ≠ t2 ∧ r ≠ t3) ∧ r ≠ t0 := by decide
  obtain ⟨⟨n1, n2, n3, n4, n5⟩, n0⟩ := hne r hr
  rw [get_set_ne _ _ n5, get_set_ne _ _ n4, get_set_ne _ _ n3, ← hw, get_set_ne _ _ n0,
    hothers r n1 n2 n3 n4 n5]

/-- Where the branches of the entry go. -/
theorem branch_interrupt (hr : s.d.csr sscratch = K) (hi : IsInterrupt cause) :
    goes k.im.addr (k.im.loc 39) (bge t1 zero .exception_entry) (entered k s cause) =
      k.im.loc 39 := by
  dsimp only [goes]
  rw [get_zero, (entered.spec hr).2.1, if_neg hi]

theorem branch_dispatch (hr : s.d.csr sscratch = K) (hpos : (0 : Word).sle cause) :
    goes k.im.addr (k.im.loc 39) (bge t1 zero .exception_entry) (entered k s cause) =
      k.im.loc 75 := by
  dsimp only [goes]
  rw [get_zero, (entered.spec hr).2.1, if_pos hpos]
  exact k.labels .exception_entry 75 rfl

theorem branch_exception (hr : s.d.csr sscratch = K) (hi : IsException cause) :
    goes k.im.addr (k.im.loc 78) (beq t2 t3 .syscall_entry) (dispatched k s cause) =
      k.im.loc 78 := by
  obtain ⟨-, ht2, ht3, -⟩ := dispatched.spec (k := k) hr
  dsimp only [goes]
  rw [ht2, ht3, if_neg hi.2]

theorem branch_syscall (hr : s.d.csr sscratch = K) (hi : IsSyscall cause) :
    goes k.im.addr (k.im.loc 78) (beq t2 t3 .syscall_entry) (dispatched k s cause) =
      k.im.loc 81 := by
  obtain ⟨-, ht2, ht3, -⟩ := dispatched.spec (k := k) hr
  dsimp only [goes]
  rw [ht2, ht3, if_pos hi.2]
  exact k.labels .syscall_entry 81 rfl

theorem branch_check (hr : s.d.csr sscratch = K) :
    goes k.im.addr (k.im.loc 83) (bgeu t0 t1 .illegal_syscall) (checked k s cause) =
      if SYSCALL_COUNT ≤ s.d.get t0 then k.im.loc 93 else k.im.loc 83 := by
  obtain ⟨-, ht1, hothers⟩ := checked.spec (k := k)  hr
  have ht0 := hothers t0 (by decide) (by decide) (by decide) (by decide) (by decide)
  dsimp only [goes]
  rw [ht0, ht1, k.labels .illegal_syscall 93 rfl]

theorem branch_call (hr : Ready k K s) {f : Symbol}
    (hf : syscall_table[(s.d.get t0).toNat]? = some f) :
    goes k.im.addr (k.im.loc 88) (.jalr t3) (looked_up k s cause) = k.im.addr f := by
  dsimp only [goes]
  rw [(looked_up.spec hr hf).2.1, masked (k.aligned f) (by decide)]

/-! ## The paths -/

/-- The calls that a trap of `s` makes: the function, and what it finds. -/
inductive CallOf (k : Link) (s : State) (cause : Word) : Symbol → Data → Prop
  | interrupt : IsInterrupt cause →
      CallOf k s cause .interrupt_handler ((entered k s cause).set ra (k.im.loc 40))
  | exception : IsException cause → CallOf k s cause .exception_handler (excepted k s cause)
  | syscall {f : Symbol} : IsSyscall cause → syscall_table[(s.d.get t0).toNat]? = some f →
      CallOf k s cause f ((looked_up k s cause).set ra (k.im.loc 88))

/-- The ways of a trap of `s` to `trap_exit`, each with what it brings there. -/
inductive Way (k : Link) (call : Calls Symbol) (s : State) (cause : Word) : Data → Prop
  | interrupt {e : Data} : IsInterrupt cause →
      call .interrupt_handler
        ⟨k.im.addr .interrupt_handler, (entered k s cause).set ra (k.im.loc 40)⟩
        ⟨k.im.loc 40, e⟩ → Way k call s cause e
  | exception {e : Data} : IsException cause →
      call .exception_handler ⟨k.im.addr .exception_handler, excepted k s cause⟩
        ⟨k.im.loc 40, e⟩ → Way k call s cause e
  | syscall {f : Symbol} {e : Data} : IsSyscall cause →
      syscall_table[(s.d.get t0).toNat]? = some f →
      call f ⟨k.im.addr f, (looked_up k s cause).set ra (k.im.loc 88)⟩ ⟨k.im.loc 88, e⟩ →
      Way k call s cause (line k.im.addr result_part e)
  | illegal : IsSyscall cause → SYSCALL_COUNT ≤ s.d.get t0 →
      Way k call s cause (line k.im.addr illegal_part (checked k s cause))

/-- Where a run of the kernel from a trap of `s` stops: at the call, or at the end of a way. -/
inductive Ends (k : Link) (call : Calls Symbol) (s : State) (cause : Word) : State → Prop
  | call {f : Symbol} {c : Data} : CallOf k s cause f c → Ends k call s cause ⟨k.im.addr f, c⟩
  | way {d : Data} : Way k call s cause d →
      Ends k call s cause ⟨k.im.loc 74, line k.im.addr exit_part d⟩

theorem path_interrupt (hc : Convention call) (hr : s.d.csr sscratch = K)
    (h : k.Path call ⟨k.im.loc 38, entered k s cause⟩ t) (ht : k.im.Stop t)
    (hi : IsInterrupt cause) : Ends k call s cause t := by
  have h39 := Linked.path_branch h ht (by rfl) rfl rfl (branch_interrupt hr hi)
  have hjal := Linked.path_goes h39 ht (by rfl) rfl
  rcases Linked.path_back hc hjal rfl (get_set_same _ _ (by decide)) with rfl | ⟨e, hcall, h40⟩
  · exact .call (.interrupt hi)
  · rw [path_exit h40 ht]
    exact .way (.interrupt hi hcall)

/-- An exception of either kind gets to the test for a system call. -/
theorem path_dispatch (hr : s.d.csr sscratch = K)
    (h : k.Path call ⟨k.im.loc 38, entered k s cause⟩ t) (ht : k.im.Stop t)
    (hpos : (0 : Word).sle cause) : k.Path call ⟨k.im.loc 77, dispatched k s cause⟩ t := by
  have h75 := Linked.path_branch h ht (by rfl) rfl rfl (branch_dispatch hr hpos)
  exact Linked.path_line [addi t2 zero EXCn_ECALL_UMODE, andi t3 t1 0xFF] 77 h75 ht ⟨_, rfl⟩
    (by rfl) rfl

theorem path_exception (hc : Convention call) (hr : s.d.csr sscratch = K)
    (h : k.Path call ⟨k.im.loc 38, entered k s cause⟩ t) (ht : k.im.Stop t)
    (hi : IsException cause) : Ends k call s cause t := by
  have h77 := path_dispatch hr h ht hi.1
  have h78 := Linked.path_branch h77 ht (by rfl) rfl rfl (branch_exception hr hi)
  have h80 := Linked.path_line [mv a0 sp, la ra .trap_exit] 80 h78 ht ⟨_, rfl⟩ (by rfl) rfl
  have hj := Linked.path_goes h80 ht (by rfl) rfl
  rcases Linked.path_back hc hj rfl (excepted.spec hr).2 with rfl | ⟨e, hcall, h40⟩
  · exact .call (.exception hi)
  · rw [path_exit h40 ht]
    exact .way (.exception hi hcall)

theorem syscall_table_C : ∀ f ∈ syscall_table, start f = none := by decide

theorem path_syscall (hc : Convention call) (hr : Ready k K s)
    (h : k.Path call ⟨k.im.loc 38, entered k s cause⟩ t) (ht : k.im.Stop t)
    (hi : IsSyscall cause) : Ends k call s cause t := by
  have h77 := path_dispatch hr.sscratch h ht hi.1
  have h81 := Linked.path_branch h77 ht (by rfl) rfl rfl (branch_syscall hr.sscratch hi)
  have h82 := Linked.path_line [li t1 SYSCALL_COUNT] 82 h81 ht ⟨_, rfl⟩ (by rfl) rfl
  have h83 := Linked.path_branch h82 ht (by rfl) rfl rfl (branch_check hr.sscratch)
  by_cases hn : SYSCALL_COUNT ≤ s.d.get t0
  · -- the number is refused
    rw [if_pos hn] at h83
    have h95 := Linked.path_line illegal_part 95 h83 ht ⟨_, rfl⟩ (by rfl) rfl
    rw [path_exit (Linked.path_jump h95 ht (by rfl) rfl) ht]
    exact .way (.illegal hi hn)
  · rw [if_neg hn] at h83
    have h87 := Linked.path_line [slli t0 t0 2, la t1 .syscall_table, add t2 t1 t0, lw t3 0 t2] 87
      h83 ht ⟨_, rfl⟩ (by rfl) rfl
    have hjalr := Linked.path_goes h87 ht (by rfl) rfl
    have hlt : (s.d.get t0).toNat < 3 := BitVec.not_le.mp hn
    have hf : syscall_table[(s.d.get t0).toNat]? = some syscall_table[(s.d.get t0).toNat] :=
      List.getElem?_eq_getElem hlt
    have hC := syscall_table_C _ (List.getElem_mem hlt)
    generalize syscall_table[(s.d.get t0).toNat] = f at hf hC
    have htarget : goes k.im.addr (k.im.loc 88) (.jalr t3) (looked_up k s cause) = k.im.addr f :=
      branch_call hr hf
    unfold Image.exec at hjalr
    unfold looked_up checked at htarget
    rw [htarget] at hjalr
    rcases Linked.path_back hc hjalr hC (get_set_same _ _ (by decide)) with rfl | ⟨e, hcall, h88⟩
    · exact .call (.syscall hi hf)
    · have h92 := Linked.path_line result_part 92 h88 ht ⟨_, rfl⟩ (by rfl) rfl
      rw [path_exit (Linked.path_jump h92 ht (by rfl) rfl) ht]
      exact .way (.syscall hi hf hcall)

/-- Every run of the kernel from a trap to a stop is at the call or at the end of a way. -/
theorem path_trap (hc : Convention call) (hr : Ready k K s) (h : k.Path call (trap k s cause) t)
    (ht : k.im.Stop t) : Ends k call s cause t := by
  have h38 := path_entry h ht
  rcases kind_of cause with hi | hi | hi
  · exact path_interrupt hc hr.sscratch h38 ht hi
  · exact path_exception hc hr.sscratch h38 ht hi
  · exact path_syscall hc hr h38 ht hi

theorem CallOf.isC {f : Symbol} {c : Data} (h : CallOf k s cause f c) : start f = none := by
  cases h with
  | interrupt => rfl
  | exception => rfl
  | syscall hi hf => exact syscall_table_C f (List.mem_of_getElem? hf)

/-- Every call finds the frame at its stack pointer. -/
theorem CallOf.at {f : Symbol} {c : Data} (hr : Ready k K s) (h : CallOf k s cause f c) :
    AtCall s K c := by
  cases h with
  | interrupt => exact (entered.spec hr.sscratch).1.set _ (by decide) (by decide)
  | exception => exact (excepted.spec hr.sscratch).1
  | syscall hi hf => exact (looked_up.spec hr hf).1.set _ (by decide) (by decide)

/-- A run that has left the kernel has gone one of the ways. -/
theorem path_left (hc : Convention call) (hr : Ready k K s) (h : k.Path call (trap k s cause) t)
    (ht : k.im.Left t) :
    ∃ d, Way k call s cause d ∧ t = ⟨k.im.loc 74, line k.im.addr exit_part d⟩ := by
  cases path_trap hc hr h (.inr ht) with
  | call hcall => exact absurd ht (k.not_left hcall.isC)
  | way hway => exact ⟨_, hway, rfl⟩

/-! ## The ways are runs -/

theorem runs_dispatch (hr : s.d.csr sscratch = K) (hpos : (0 : Word).sle cause) :
    k.Path call ⟨k.im.loc 38, entered k s cause⟩ ⟨k.im.loc 77, dispatched k s cause⟩ := by
  have h75 : k.Path call ⟨k.im.loc 38, entered k s cause⟩ ⟨k.im.loc 75, entered k s cause⟩ :=
    Linked.runs_one (by rfl) rfl rfl (branch_dispatch hr hpos)
  exact h75.trans
    (Linked.runs_line [addi t2 zero EXCn_ECALL_UMODE, andi t3 t1 0xFF] 77 ⟨_, rfl⟩ (by rfl) rfl)

theorem runs_check (hr : s.d.csr sscratch = K) (hi : IsSyscall cause) :
    k.Path call ⟨k.im.loc 38, entered k s cause⟩
      ⟨if SYSCALL_COUNT ≤ s.d.get t0 then k.im.loc 93 else k.im.loc 83, checked k s cause⟩ := by
  have h77 : k.Path call ⟨k.im.loc 38, entered k s cause⟩ ⟨k.im.loc 77, dispatched k s cause⟩ :=
    runs_dispatch hr hi.1
  have h81 : k.Path call ⟨k.im.loc 77, dispatched k s cause⟩
      ⟨k.im.loc 81, dispatched k s cause⟩ :=
    Linked.runs_one (by rfl) rfl rfl (branch_syscall hr hi)
  have h82 : k.Path call ⟨k.im.loc 81, dispatched k s cause⟩ ⟨k.im.loc 82, checked k s cause⟩ :=
    Linked.runs_line [li t1 SYSCALL_COUNT] 82 ⟨_, rfl⟩ (by rfl) rfl
  exact ((h77.trans h81).trans h82).trans
    (Linked.runs_one (by rfl) rfl rfl (branch_check hr))

/-- A trap gets to its call. -/
theorem CallOf.runs {f : Symbol} {c : Data} (hr : Ready k K s) (h : CallOf k s cause f c) :
    k.Path call (trap k s cause) ⟨k.im.addr f, c⟩ := by
  have hin : k.Path call (trap k s cause) ⟨k.im.loc 38, entered k s cause⟩ :=
    Linked.runs_line entry_part 38 text_entry (by rfl) rfl
  refine hin.trans ?_
  cases h with
  | interrupt hi =>
    have h39 : k.Path call ⟨k.im.loc 38, entered k s cause⟩ ⟨k.im.loc 39, entered k s cause⟩ :=
      Linked.runs_one (by rfl) rfl rfl (branch_interrupt hr.sscratch hi)
    exact h39.trans (Linked.runs_one (by rfl) rfl rfl rfl)
  | exception hi =>
    have h78 : k.Path call ⟨k.im.loc 77, dispatched k s cause⟩
        ⟨k.im.loc 78, dispatched k s cause⟩ :=
      Linked.runs_one (by rfl) rfl rfl (branch_exception hr.sscratch hi)
    have h80 : k.Path call ⟨k.im.loc 78, dispatched k s cause⟩
        ⟨k.im.loc 80, excepted k s cause⟩ :=
      Linked.runs_line [mv a0 sp, la ra Symbol.trap_exit] 80 ⟨_, rfl⟩ (by rfl) rfl
    have hj : k.Path call ⟨k.im.loc 80, excepted k s cause⟩
        ⟨k.im.addr .exception_handler, excepted k s cause⟩ :=
      Linked.runs_one (by rfl) rfl rfl rfl
    exact (((runs_dispatch hr.sscratch hi.1).trans h78).trans h80).trans hj
  | syscall hi hf =>
    have hlt : (s.d.get t0).toNat < 3 := (List.getElem?_eq_some_iff.mp hf).1
    have h83 : k.Path call ⟨k.im.loc 38, entered k s cause⟩
        ⟨if SYSCALL_COUNT ≤ s.d.get t0 then k.im.loc 93 else k.im.loc 83, checked k s cause⟩ :=
      runs_check hr.sscratch hi
    rw [if_neg (BitVec.not_le.mpr hlt)] at h83
    have h87 : k.Path call ⟨k.im.loc 83, checked k s cause⟩ ⟨k.im.loc 87, looked_up k s cause⟩ :=
      Linked.runs_line [slli t0 t0 2, la t1 Symbol.syscall_table, add t2 t1 t0, lw t3 0 t2] 87
        ⟨_, rfl⟩ (by rfl) rfl
    have hjalr : k.Path call ⟨k.im.loc 87, looked_up k s cause⟩
        ⟨k.im.addr f, (looked_up k s cause).set ra (k.im.loc 88)⟩ :=
      Linked.runs_one (by rfl) rfl rfl (branch_call hr hf)
    exact (h83.trans h87).trans hjalr

/-- And from the return of the call out of the kernel. -/
theorem runs_exit (d : Data) :
    k.Path call ⟨k.im.loc 40, d⟩ ⟨k.im.loc 74, line k.im.addr exit_part d⟩ :=
  Linked.runs_line exit_part 74 text_exit (by rfl) rfl

theorem runs_result (e : Data) : k.Path call ⟨k.im.loc 88, e⟩
    ⟨k.im.loc 74, line k.im.addr exit_part (line k.im.addr result_part e)⟩ := by
  have h92 : k.Path call ⟨k.im.loc 88, e⟩ ⟨k.im.loc 92, line k.im.addr result_part e⟩ :=
    Linked.runs_line result_part 92 ⟨_, rfl⟩ (by rfl) rfl
  exact (h92.trans (Linked.runs_jump (by rfl) rfl)).trans (runs_exit _)

theorem runs_refused (hr : s.d.csr sscratch = K) (hi : IsSyscall cause)
    (hge : SYSCALL_COUNT ≤ s.d.get t0) :
    k.Path call (trap k s cause)
      ⟨k.im.loc 74,
        line k.im.addr exit_part (line k.im.addr illegal_part (checked k s cause))⟩ := by
  have hin : k.Path call (trap k s cause) ⟨k.im.loc 38, entered k s cause⟩ :=
    Linked.runs_line entry_part 38 text_entry (by rfl) rfl
  have h93 : k.Path call ⟨k.im.loc 38, entered k s cause⟩
      ⟨if SYSCALL_COUNT ≤ s.d.get t0 then k.im.loc 93 else k.im.loc 83, checked k s cause⟩ :=
    runs_check hr hi
  rw [if_pos hge] at h93
  have h95 : k.Path call ⟨k.im.loc 93, checked k s cause⟩
      ⟨k.im.loc 95, line k.im.addr illegal_part (checked k s cause)⟩ :=
    Linked.runs_line illegal_part 95 ⟨_, rfl⟩ (by rfl) rfl
  exact (((hin.trans h93).trans h95).trans (Linked.runs_jump (by rfl) rfl)).trans (runs_exit _)

theorem Way.runs (hr : Ready k K s) (h : Way k call s cause d) :
    k.Path call (trap k s cause) ⟨k.im.loc 74, line k.im.addr exit_part d⟩ := by
  have hback : ∀ {f c e} {i : Nat}, CallOf k s cause f c →
      call f ⟨k.im.addr f, c⟩ ⟨k.im.loc i, e⟩ → k.Path call (trap k s cause) ⟨k.im.loc i, e⟩ :=
    fun hof hcall => (hof.runs hr).trans (Linked.runs_call hof.isC hcall)
  cases h with
  | interrupt hi hcall => exact (hback (.interrupt hi) hcall).trans (runs_exit d)
  | exception hi hcall => exact (hback (.exception hi) hcall).trans (runs_exit d)
  | @syscall f e hi hf hcall => exact (hback (.syscall hi hf) hcall).trans (runs_result e)
  | illegal hi hn => exact runs_refused hr.sscratch hi hn

end

end os_workshop.traps
