-- Exceptions through the two shared trap vectors: what the handler leaves in the
-- frame is what the program goes on with, but for the stack pointer on a single
-- stack.
import OsWorkshop.TrapVectors

open os_workshop.memory os_workshop.rv32 os_workshop.frames

namespace os_workshop.vectors

open Reg Csr Instr

/-! ## The paths of an exception -/

/-- Behind the call of `exception_handler`, and the `sret`. -/
def back : Vector → Nat
  | .single => 60
  | .dual => 63

def out : Vector → Nat
  | .single => 41
  | .dual => 46

/-- The state at the call of `exception_handler`. -/
def at_handler {v : Vector} (k : Link v) (d : Data) : Data :=
  (line k.im.addr (exception_part v) (line k.im.addr (entry_part v) d)).set ra
    (k.im.loc (back v))

/-- The state at the `sret`, when the handler has returned in `e`. -/
def at_sret {v : Vector} (k : Link v) (e : Data) : Data :=
  line k.im.addr (exit_part v) (line k.im.addr (restores callee_saved) e)

section

variable {v : Vector} {k : Link v} {call : Calls Symbol} {d e : Data} {t : State}

theorem branch_exception {pc : Word} {l : Symbol} (hpos : (0 : Word).sle (d.csr scause)) :
    goes k.im.addr pc (bge (cause_reg v) zero l) (line k.im.addr (entry_part v) d) =
      k.im.addr l := by
  dsimp only [goes]
  rw [get_zero, (entry_part.spec v k.im.addr d).cause, if_pos hpos]

/-- An exception goes through the handler to the `sret`. -/
theorem exception_path (hc : Convention call) (hpos : (0 : Word).sle (d.csr scause))
    (h : k.Path call ⟨k.im.loc 0, d⟩ t) (ht : k.im.Left t) :
    ∃ e, call .exception_handler ⟨k.im.addr .exception_handler, at_handler k d⟩
        ⟨k.im.loc (back v), e⟩ ∧ t = ⟨k.im.loc (out v), at_sret k e⟩ := by
  have hstop : k.im.Stop t := .inr ht
  have hra : (at_handler k d).get ra = k.im.loc (back v) := get_set_same _ _ (by decide)
  cases v with
  | single =>
    have h20 := Linked.path_line (entry_part .single) 20 h hstop ⟨_, rfl⟩ (by rfl) rfl
    have h42 := Linked.path_branch h20 hstop (by rfl) rfl rfl (branch_exception hpos)
    rw [k.labels .exception_entry 42 rfl] at h42
    have h59 := Linked.path_line (exception_part .single) 59 h42 hstop ⟨_, rfl⟩ (by rfl) rfl
    have hjal := Linked.path_goes h59 hstop (by rfl) rfl
    rcases Linked.path_back hc hjal rfl hra with rfl | ⟨e, hcall, h60⟩
    · exact absurd ht (k.not_left rfl)
    · have h74 := Linked.path_line (restores callee_saved) 74 h60 hstop ⟨_, rfl⟩ (by rfl) rfl
      have h22 := Linked.path_jump h74 hstop (by rfl) rfl
      have h41 := Linked.path_line (exit_part .single) 41 h22 hstop ⟨_, rfl⟩ (by rfl) rfl
      exact ⟨e, hcall, Linked.path_return h41 (by rfl) rfl⟩
  | dual =>
    have h23 := Linked.path_line (entry_part .dual) 23 h hstop ⟨_, rfl⟩ (by rfl) rfl
    have h47 := Linked.path_branch h23 hstop (by rfl) rfl rfl (branch_exception hpos)
    rw [k.labels .exception_entry 47 rfl] at h47
    have h62 := Linked.path_line (exception_part .dual) 62 h47 hstop ⟨_, rfl⟩ (by rfl) rfl
    have hjal := Linked.path_goes h62 hstop (by rfl) rfl
    rcases Linked.path_back hc hjal rfl hra with rfl | ⟨e, hcall, h63⟩
    · exact absurd ht (k.not_left rfl)
    · have h77 := Linked.path_line (restores callee_saved) 77 h63 hstop ⟨_, rfl⟩ (by rfl) rfl
      have h25 := Linked.path_jump h77 hstop (by rfl) rfl
      have h46 := Linked.path_line (exit_part .dual) 46 h25 hstop ⟨_, rfl⟩ (by rfl) rfl
      exact ⟨e, hcall, Linked.path_return h46 (by rfl) rfl⟩

/-- And when the handler returns, the exception does. -/
theorem exception_runs (hpos : (0 : Word).sle (d.csr scause))
    (hcall : call .exception_handler ⟨k.im.addr .exception_handler, at_handler k d⟩
      ⟨k.im.loc (back v), e⟩) :
    k.Path call ⟨k.im.loc 0, d⟩ ⟨k.im.loc (out v), at_sret k e⟩ ∧
      k.im.Left ⟨k.im.loc (out v), at_sret k e⟩ := by
  cases v with
  | single =>
    have h20 : k.Path call ⟨k.im.loc 0, d⟩
        ⟨k.im.loc 20, line k.im.addr (entry_part .single) d⟩ :=
      Linked.runs_line (entry_part .single) 20 ⟨_, rfl⟩ (by rfl) rfl
    have hb : k.Path call ⟨k.im.loc 20, line k.im.addr (entry_part .single) d⟩
        ⟨k.im.loc 42, line k.im.addr (entry_part .single) d⟩ := by
      rw [← k.labels .exception_entry 42 rfl]
      exact Linked.runs_one (by rfl) rfl rfl (branch_exception hpos)
    have h59 : k.Path call ⟨k.im.loc 42, line k.im.addr (entry_part .single) d⟩
        ⟨k.im.loc 59, line k.im.addr (exception_part .single)
          (line k.im.addr (entry_part .single) d)⟩ :=
      Linked.runs_line (exception_part .single) 59 ⟨_, rfl⟩ (by rfl) rfl
    have hjal : k.Path call ⟨k.im.loc 59, line k.im.addr (exception_part .single)
        (line k.im.addr (entry_part .single) d)⟩
        ⟨k.im.addr .exception_handler, at_handler k d⟩ :=
      Linked.runs_one (by rfl) rfl rfl rfl
    have h74 : k.Path call ⟨k.im.loc 60, e⟩
        ⟨k.im.loc 74, line k.im.addr (restores callee_saved) e⟩ :=
      Linked.runs_line (restores callee_saved) 74 ⟨_, rfl⟩ (by rfl) rfl
    have hj : k.Path call ⟨k.im.loc 74, line k.im.addr (restores callee_saved) e⟩
        ⟨k.im.loc 22, line k.im.addr (restores callee_saved) e⟩ :=
      Linked.runs_jump (by rfl) rfl
    have h41 : k.Path call ⟨k.im.loc 22, line k.im.addr (restores callee_saved) e⟩
        ⟨k.im.loc 41, at_sret k e⟩ :=
      Linked.runs_line (exit_part .single) 41 ⟨_, rfl⟩ (by rfl) rfl
    have hin := ((h20.trans hb).trans h59).trans hjal
    have hout := (h74.trans hj).trans h41
    exact ⟨(hin.trans (Linked.runs_call rfl hcall)).trans hout, k.left_of (by rfl) rfl⟩
  | dual =>
    have h23 : k.Path call ⟨k.im.loc 0, d⟩ ⟨k.im.loc 23, line k.im.addr (entry_part .dual) d⟩ :=
      Linked.runs_line (entry_part .dual) 23 ⟨_, rfl⟩ (by rfl) rfl
    have hb : k.Path call ⟨k.im.loc 23, line k.im.addr (entry_part .dual) d⟩
        ⟨k.im.loc 47, line k.im.addr (entry_part .dual) d⟩ := by
      rw [← k.labels .exception_entry 47 rfl]
      exact Linked.runs_one (by rfl) rfl rfl (branch_exception hpos)
    have h62 : k.Path call ⟨k.im.loc 47, line k.im.addr (entry_part .dual) d⟩
        ⟨k.im.loc 62, line k.im.addr (exception_part .dual)
          (line k.im.addr (entry_part .dual) d)⟩ :=
      Linked.runs_line (exception_part .dual) 62 ⟨_, rfl⟩ (by rfl) rfl
    have hjal : k.Path call ⟨k.im.loc 62, line k.im.addr (exception_part .dual)
        (line k.im.addr (entry_part .dual) d)⟩
        ⟨k.im.addr .exception_handler, at_handler k d⟩ :=
      Linked.runs_one (by rfl) rfl rfl rfl
    have h77 : k.Path call ⟨k.im.loc 63, e⟩
        ⟨k.im.loc 77, line k.im.addr (restores callee_saved) e⟩ :=
      Linked.runs_line (restores callee_saved) 77 ⟨_, rfl⟩ (by rfl) rfl
    have hj : k.Path call ⟨k.im.loc 77, line k.im.addr (restores callee_saved) e⟩
        ⟨k.im.loc 25, line k.im.addr (restores callee_saved) e⟩ :=
      Linked.runs_jump (by rfl) rfl
    have h46 : k.Path call ⟨k.im.loc 25, line k.im.addr (restores callee_saved) e⟩
        ⟨k.im.loc 46, at_sret k e⟩ :=
      Linked.runs_line (exit_part .dual) 46 ⟨_, rfl⟩ (by rfl) rfl
    have hin := ((h23.trans hb).trans h62).trans hjal
    have hout := (h77.trans hj).trans h46
    exact ⟨(hin.trans (Linked.runs_call rfl hcall)).trans hout, k.left_of (by rfl) rfl⟩

/-! ## What the program goes on with -/

/-- The state at the `sret`: every register and the pc from the frame, but for `sp` and for the
low bits of the pc. -/
structure Loaded (v : Vector) (e z : Data) : Prop where
  regs : ∀ p ∈ eframe, p.1 ≠ .sp → z.get p.1 = ld32 e.mem (e.get .sp + p.2)
  pc : z.csr sepc = legal sepc (ld32 e.mem (e.get .sp + 0x40))
  sp : z.get .sp = match v with
    | .single => e.get .sp + 128
    | .dual => ld32 e.mem (e.get .sp + 0x44)

theorem at_sret.spec (k : Link v) (e : Data) : Loaded v e (at_sret k e) := by
  unfold at_sret
  obtain ⟨hm, hc, hs, hr⟩ := line_restores k.im.addr callee_saved e (by decide) (by decide)
    (by decide)
  generalize line k.im.addr (restores callee_saved) e = z at *
  have hsp : z.get .sp = e.get .sp := hr .sp (by decide)
  obtain ⟨hregs, hpc, hzsp, hothers, -, -, -⟩ := exit_part.spec v k.im.addr z
  rw [hsp, hm] at hregs hpc hzsp
  refine ⟨?_, hpc, hzsp⟩
  intro p hp hne
  simp only [eframe, List.mem_cons, List.mem_append] at hp
  rcases hp with rfl | hp | hp
  · exact absurd rfl hne
  · exact hregs p hp
  · have hcallee : ∀ p ∈ callee_saved, p.1 ∉ caller_saved.map Prod.fst := by decide
    rw [hothers _ hne (hcallee p hp), hs p hp]

/-- The program goes on with the fields of the frame at `F`. -/
structure Authoritative (m : Mem) (F : Word) (u : State) : Prop where
  pc : u.pc = ld32 m (F + 0x40)
  regs : ∀ p ∈ eframe, u.d.get p.1 = ld32 m (F + p.2)

/-- An exception of the instruction at `s`, in supervisor mode or in user mode, that returns
in `u`. -/
structure Exception (k : Link v) (call : Calls Symbol) (spp cause : Word) (s u : State) :
    Prop where
  aligned : s.pc.toNat % 4 = 0
  positive : (0 : Word).sle cause
  run : ∃ t, k.Path call ⟨k.im.loc 0, trap_csrs spp s cause⟩ t ∧ k.im.Left t ∧ u = sret_state t.d

variable {s u : State} {spp cause : Word}

/-- The handler that was called, with the frame that it found and the one that it left. -/
structure Handled (call : Calls Symbol) (F : Word) (s : State) (c e : State) : Prop where
  called : call .exception_handler c e
  arg : c.d.get a0 = F
  found : Saved c.d.mem F s.d.get s.pc

theorem Exception.handled (hc : Convention call) (h : Exception k call spp cause s u) :
    ∃ c e, Handled call (frame_of v s.d) s c e ∧ e.d.get sp = frame_of v s.d ∧
      ∃ z, Loaded v e.d z ∧ u = sret_state z := by
  obtain ⟨t, hpath, hleft, rfl⟩ := h.run
  have hpos : (0 : Word).sle ((trap_csrs spp s cause).csr scause) := h.positive
  obtain ⟨e, hcall, rfl⟩ := exception_path hc hpos hpath hleft
  have hframe : frame_of v (trap_csrs spp s cause) = frame_of v s.d := by cases v <;> rfl
  have hin := exception_part.spec v k.im.addr (entry_part.spec v k.im.addr (trap_csrs spp s cause))
  rw [hframe] at hin
  have hget : ∀ r, r ≠ ra → (at_handler k (trap_csrs spp s cause)).get r =
      (line k.im.addr (exception_part v)
        (line k.im.addr (entry_part v) (trap_csrs spp s cause))).get r := fun r hr =>
    get_set_ne _ _ hr
  refine ⟨_, _, ⟨hcall, ?_, hin.saved⟩, ?_, _, at_sret.spec k e, rfl⟩
  · exact (hget a0 (by decide)).trans hin.a0
  · rw [hc.saved hcall .sp (by decide)]
    exact (hget .sp (by decide)).trans hin.sp

theorem Loaded.authoritative_iff {z : Data} (hz : Loaded v e z)
    (hsp : e.get .sp = frame_of v s.d) : Authoritative e.mem (frame_of v s.d) (sret_state z) ↔
      (ld32 e.mem (frame_of v s.d + 0x40)).toNat % 4 = 0 ∧
        (v = .dual ∨ ld32 e.mem (frame_of v s.d + 0x44) = s.d.get .sp) := by
  obtain ⟨F, hF⟩ : ∃ F, F = frame_of v s.d := ⟨_, rfl⟩
  have hregs := hz.regs
  have hpc := hz.pc
  have hzsp := hz.sp
  rw [hsp, ← hF] at hregs hpc hzsp
  rw [← hF]
  have hall : Authoritative e.mem F (sret_state z) ↔
      legal sepc (ld32 e.mem (F + 0x40)) = ld32 e.mem (F + 0x40) ∧
        z.get .sp = ld32 e.mem (F + 0x44) := by
    constructor
    · intro ha
      exact ⟨hpc.symm.trans ha.pc, ha.regs (.sp, 0x44) List.mem_cons_self⟩
    · rintro ⟨hkept, hs⟩
      refine ⟨hpc.trans hkept, ?_⟩
      intro p hp
      by_cases hne : p.1 = .sp
      · have hfield : ∀ p ∈ eframe, p.1 = .sp → p.2 = (0x44 : Word) := by decide
        rw [hne, hfield p hp hne]
        exact hs
      · exact hregs p hp hne
  rw [hall, legal_sepc_iff]
  refine and_congr_right fun _ => ?_
  cases v with
  | dual => exact ⟨fun _ => .inl rfl, fun _ => hzsp⟩
  | single =>
    have hold : F + 128 = s.d.get .sp := by
      rw [hF]
      exact BitVec.sub_add_cancel _ _
    dsimp only at hzsp
    rw [hzsp, hold]
    refine ⟨fun h => .inr h.symm, ?_⟩
    rintro (h | h)
    · cases h
    · exact h.symm

/-- On two stacks, every field of the frame comes back as the handler left it, when the field of
the pc is an address of an instruction. On a single stack the stack pointer does not: `trap_exit`
only releases the frame. -/
theorem frames_are_authoritative_iff (hc : Convention call)
    (h : Exception k call spp cause s u) :
    ∃ c e, Handled call (frame_of v s.d) s c e ∧
      (Authoritative e.d.mem (frame_of v s.d) u ↔
        (ld32 e.d.mem (frame_of v s.d + 0x40)).toNat % 4 = 0 ∧
          (v = .dual ∨ ld32 e.d.mem (frame_of v s.d + 0x44) = s.d.get sp)) ∧
      (Saved e.d.mem (frame_of v s.d) s.d.get s.pc → u.pc = s.pc ∧ ∀ r, u.d.get r = s.d.get r) := by
  obtain ⟨c, e, hh, hsp, z, hz, rfl⟩ := h.handled hc
  have hiff := hz.authoritative_iff hsp
  refine ⟨c, e, hh, hiff, ?_⟩
  intro hsaved
  have hpc : (ld32 e.d.mem (frame_of v s.d + 0x40)).toNat % 4 = 0 := by
    rw [hsaved.pc]
    exact h.aligned
  have ha := hiff.mpr ⟨hpc, .inr (hsaved.regs (.sp, 0x44) List.mem_cons_self)⟩
  refine ⟨ha.pc.trans hsaved.pc, ?_⟩
  intro r
  by_cases hr0 : r = .zero
  · rw [hr0]
    rfl
  · obtain ⟨p, hp, rfl⟩ := List.mem_map.mp (eframe_has r hr0)
    rw [ha.regs p hp, hsaved.regs p hp]

end

/-! ## A handler that moves the stack -/

def a_link (v : Vector) : Link v :=
  Linked.placed (text v) (start v) 0x40008000
    (fun
      | .trap_entry => 0x40009000
      | .trap_exit => 0x40009010
      | .exception_entry => 0x40009020
      | .exception_exit => 0x40009030
      | .user_mode_entry => 0x40009040
      | .interrupt_handler => 0x40009050
      | .exception_handler => 0x40009060)
    (by decide) (by cases v <;> decide) (by intro f; cases v <;> cases f <;> decide)
    (by intro f g; cases f <;> cases g <;> decide)

/-- The handler writes `x` to the field of `sp`. -/
def moves (x : Word) : Calls Symbol :=
  fun f c u => f = .exception_handler ∧ u = ⟨c.d.get ra, c.d.store (c.d.get a0 + 0x44) x⟩

theorem moves.convention (x : Word) : Convention (moves x) := by
  constructor
  · rintro f c u ⟨-, rfl⟩
    rfl
  · rintro f c u ⟨-, rfl⟩ r _
    rfl

def a_program : State where
  pc := 0x40010000
  d :=
    { x := fun r => if r = .sp then 0x40100000 else 0
      csr := fun c => if c = .sscratch then 0x40200000 else 0
      mem := fun _ => 0 }

/-- An illegal instruction of it. -/
theorem a_program_excepts (v : Vector) (x : Word) :
    ∃ u, Exception (a_link v) (moves x) SSTATUS_SPP 2 a_program u := by
  have hra : (at_handler (a_link v) (trap_csrs SSTATUS_SPP a_program 2)).get ra =
      (a_link v).im.loc (back v) := get_set_same _ _ (by decide)
  have hcall : moves x .exception_handler ⟨(a_link v).im.addr .exception_handler,
      at_handler (a_link v) (trap_csrs SSTATUS_SPP a_program 2)⟩ ⟨(a_link v).im.loc (back v), _⟩ :=
    ⟨rfl, by rw [hra]⟩
  obtain ⟨hpath, hleft⟩ := exception_runs (by decide) hcall
  exact ⟨_, by decide, by decide, _, hpath, hleft, rfl⟩

/-- On a single stack the new stack pointer is lost. -/
theorem a_moved_stack_is_lost :
    ∃ u c e, Exception (a_link .single) (moves 0x40300000) SSTATUS_SPP 2 a_program u ∧
      Handled (moves 0x40300000) (frame_of .single a_program.d) a_program c e ∧
      ¬ Authoritative e.d.mem (frame_of .single a_program.d) u := by
  obtain ⟨u, hu⟩ := a_program_excepts .single 0x40300000
  obtain ⟨c, e, hh, hsp, z, hz, rfl⟩ := hu.handled (moves.convention _)
  refine ⟨_, c, e, hu, hh, ?_⟩
  rw [hz.authoritative_iff hsp]
  have hfield : ld32 e.d.mem (frame_of .single a_program.d + 0x44) = 0x40300000 := by
    rw [hh.called.2, ← hh.arg]
    exact ld32_st32_same ..
  rw [hfield]
  rintro ⟨-, h⟩
  exact absurd h (by decide)

theorem a_moved_stack_on_two_stacks :
    ∃ u c e, Exception (a_link .dual) (moves 0x40300000) SSTATUS_SPP 2 a_program u ∧
      Handled (moves 0x40300000) (frame_of .dual a_program.d) a_program c e ∧
      Authoritative e.d.mem (frame_of .dual a_program.d) u := by
  obtain ⟨u, hu⟩ := a_program_excepts .dual 0x40300000
  obtain ⟨c, e, hh, hiff, -⟩ := frames_are_authoritative_iff (moves.convention _) hu
  refine ⟨u, c, e, hu, hh, hiff.mpr ⟨?_, .inl rfl⟩⟩
  have hpc : ld32 e.d.mem (frame_of .dual a_program.d + 0x40) = a_program.pc := by
    rw [hh.called.2, ← hh.arg]
    exact (ld32_st32_apart _ _ _ _ (apart_add _ (by decide))).trans (hh.arg ▸ hh.found.pc)
  rw [hpc]
  decide

end os_workshop.vectors
