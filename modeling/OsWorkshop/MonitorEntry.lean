-- The way into the monitor and out of it (src/boot/entry.S), and the law of the
-- monitor: whatever is typed during an interrupt, and whatever faults, the
-- program that was interrupted goes on as if nothing had happened.
import OsWorkshop.Eframe
import OsWorkshop.LinkedText
import OsWorkshop.Monitor
import OsWorkshop.Runs

open os_workshop.memory os_workshop.rv32 os_workshop.frames
open os_workshop.runs

namespace os_workshop.monitor

open Reg Csr Instr

/-! ## The code -/

def mach_exception_entry : Block := [
  csrrw sp mscratch sp,
  addi sp sp (-(32 * 4)),
  sw ra 0x00 sp,
  sw t0 0x04 sp,
  sw t1 0x08 sp,
  sw t2 0x0C sp,
  sw t3 0x10 sp,
  sw t4 0x14 sp,
  sw t5 0x18 sp,
  sw t6 0x1C sp,
  sw a0 0x20 sp,
  sw a1 0x24 sp,
  sw a2 0x28 sp,
  sw a3 0x2C sp,
  sw a4 0x30 sp,
  sw a5 0x34 sp,
  sw a6 0x38 sp,
  sw a7 0x3C sp,
  csrr t0 mepc,
  csrr t1 mscratch,
  sw t0 0x40 sp,
  sw t1 0x44 sp,
  sw gp 0x48 sp,
  sw tp 0x4C sp,
  sw s0 0x50 sp,
  sw s1 0x54 sp,
  sw s2 0x58 sp,
  sw s3 0x5C sp,
  sw s4 0x60 sp,
  sw s5 0x64 sp,
  sw s6 0x68 sp,
  sw s7 0x6C sp,
  sw s8 0x70 sp,
  sw s9 0x74 sp,
  sw s10 0x78 sp,
  sw s11 0x7C sp,
  mv a0 sp,
  jal .mach_exception_handler,
  addi t0 sp (32 * 4),
  csrw mscratch t0,
  lw t1 0x40 sp,
  csrw mepc t1,
  lw gp 0x48 sp,
  lw tp 0x4C sp,
  lw s0 0x50 sp,
  lw s1 0x54 sp,
  lw s2 0x58 sp,
  lw s3 0x5C sp,
  lw s4 0x60 sp,
  lw s5 0x64 sp,
  lw s6 0x68 sp,
  lw s7 0x6C sp,
  lw s8 0x70 sp,
  lw s9 0x74 sp,
  lw s10 0x78 sp,
  lw s11 0x7C sp,
  lw ra 0x00 sp,
  lw t0 0x04 sp,
  lw t1 0x08 sp,
  lw t2 0x0C sp,
  lw t3 0x10 sp,
  lw t4 0x14 sp,
  lw t5 0x18 sp,
  lw t6 0x1C sp,
  lw a0 0x20 sp,
  lw a1 0x24 sp,
  lw a2 0x28 sp,
  lw a3 0x2C sp,
  lw a4 0x30 sp,
  lw a5 0x34 sp,
  lw a6 0x38 sp,
  lw a7 0x3C sp,
  lw sp 0x44 sp,
  mret]

def exit_mode_m : Block := [
  csrw mepc a2,
  mv sp a3,
  mret]

/-- The blocks of entry.S and helpers.S. -/
def text : Block :=
  mach_exception_entry ++ exit_mode_m ++
    (safe_head .rd32fail ++ [lw a0 0 t1]) ++ [ret] ++
    (safe_head .rd8fail ++ [lbu a0 0 t1]) ++ [ret]

/-- Where each label stands in the text. -/
def start : Symbol → Option Nat
  | .mach_exception_entry => some 0
  | .exit_mode_m => some 74
  | .rd32safe => some 77
  | .rd32fail => some 82
  | .rd8safe => some 83
  | .rd8fail => some 88
  | .mach_exception_handler => none

abbrev Link := Linked text start

/-! ## The straight parts -/

section

variable {L : Type}

def entry_part : List (Instr L) := save_frame mscratch mepc t0 t1 ++ [mv a0 sp]

def exit_part : List (Instr L) :=
  [addi t0 sp (32 * 4), csrw mscratch t0, lw t1 0x40 sp, csrw mepc t1] ++
    restores (callee_saved ++ caller_saved) ++ [lw sp 0x44 sp]

theorem mach_exception_entry_eq : mach_exception_entry =
    entry_part ++ [jal .mach_exception_handler] ++ exit_part ++ [mret] := rfl

/-- What `mach_exception_entry` leaves behind at its call. -/
structure Entered (d e : Data) : Prop where
  sp : e.get .sp = d.csr mscratch - 128
  a0 : e.get .a0 = d.csr mscratch - 128
  saved : Saved e.mem (d.csr mscratch - 128) d.get (d.csr mepc)
  rest : ∀ a, (∀ o ∈ offsets, Apart (d.csr mscratch - 128 + o) a) → ld32 e.mem a = ld32 d.mem a
  csr : ∀ c, c ≠ mscratch → e.csr c = d.csr c

theorem entry_part.spec (addr : L → Word) (d : Data) : Entered d (line addr entry_part d) := by
  unfold entry_part
  rw [line_append]
  have h := save_frame.spec mscratch mepc t0 t1 addr d (by decide) (fun _ => rfl) (by decide)
    (by decide) (by decide)
  generalize line addr (save_frame mscratch mepc t0 t1) d = e at h
  have htail : line addr [mv a0 sp] e = e.set a0 (e.get sp) := by
    simp only [line_cons, line_nil, act, mv, add_zero]
  rw [htail]
  refine ⟨?_, ?_, h.saved, h.rest, h.csr⟩
  · rw [get_set_ne _ _ (by decide), h.sp]
  · rw [get_set_same _ _ (by decide), h.sp]

/-- What the way out leaves behind: every register and the pc from the frame at `sp`, and the
end of the frame in `mscratch`. -/
structure Exited (d z : Data) : Prop where
  regs : ∀ p ∈ eframe, z.get p.1 = ld32 d.mem (d.get .sp + p.2)
  pc : z.csr mepc = legal mepc (ld32 d.mem (d.get .sp + 0x40))
  mscratch : z.csr mscratch = d.get .sp + 128
  csr : ∀ c, c ≠ .mscratch → c ≠ mepc → z.csr c = d.csr c
  mem : z.mem = d.mem

theorem exit_part.spec (addr : L → Word) (d : Data) : Exited d (line addr exit_part d) := by
  unfold exit_part
  simp only [line_append]
  -- the pc and the stack of the next trap
  generalize hd1 : line addr [addi t0 sp (32 * 4), csrw mscratch t0, lw t1 0x40 sp,
    csrw mepc t1] d = d1
  have h1 : d1 = (((d.set t0 (d.get sp + 128)).setCsr mscratch (d.get sp + 128)).set t1
      (ld32 d.mem (d.get sp + 0x40))).setCsr mepc (legal mepc (ld32 d.mem (d.get sp + 0x40))) := by
    rw [← hd1]
    simp only [line_cons, line_nil, act]
    rw [get_set_same _ _ (show t1 ≠ zero by decide), get_setCsr,
      get_set_same _ _ (show t0 ≠ zero by decide), get_set_ne _ _ (show sp ≠ t0 by decide),
      mem_setCsr, mem_set]
    rfl
  have h1x : ∀ r, r ≠ t0 → r ≠ t1 → d1.get r = d.get r := by
    intro r hr0 hr1
    rw [h1, get_setCsr, get_set_ne _ _ hr1, get_setCsr, get_set_ne _ _ hr0]
  have h1m : d1.mem = d.mem := by rw [h1, mem_setCsr, mem_set, mem_setCsr, mem_set]
  have h1c : ∀ c, d1.csr c = if c = mepc then legal mepc (ld32 d.mem (d.get sp + 0x40)) else
      if c = mscratch then d.get sp + 128 else d.csr c := by
    intro c
    rw [h1, csr_setCsr, csr_set, csr_setCsr, csr_set]
  have h1sp : d1.get sp = d.get sp := h1x sp (by decide) (by decide)
  -- the registers, and the stack pointer last
  obtain ⟨h2m, h2c, h2s, h2r⟩ := line_restores addr (callee_saved ++ caller_saved) d1 (by decide)
    (by decide) (by decide)
  generalize line addr (restores (callee_saved ++ caller_saved)) d1 = d2 at *
  rw [h1m, h1sp] at h2s
  have h2sp : d2.get sp = d.get sp := by rw [h2r sp (by decide), h1sp]
  have htail : line addr [lw sp 0x44 sp] d2 = d2.set sp (ld32 d2.mem (d2.get sp + 0x44)) := by
    simp only [line_cons, line_nil, act]
  rw [htail]
  refine ⟨?_, ?_, ?_, ?_, ?_⟩
  · intro p hp
    simp only [eframe, List.mem_cons, List.mem_append] at hp
    rcases hp with rfl | hp
    · rw [get_set_same _ _ (by decide), h2m, h1m, h2sp]
    · have hne : ∀ p ∈ callee_saved ++ caller_saved, p.1 ≠ sp := by decide
      have hp := List.mem_append.mpr hp.symm
      rw [get_set_ne _ _ (hne p hp), h2s p hp]
  · rw [csr_set, h2c, h1c, if_pos rfl]
  · rw [csr_set, h2c, h1c, if_neg (by decide), if_pos rfl]
  · intro c hs hp
    rw [csr_set, h2c, h1c, if_neg hp, if_neg hs]
  · rw [mem_set, h2m, h1m]

end

/-! ## The machine -/

def DRAM_BASE : Word := 0x40000000
def BOOTLOADER_SIZE : Nat := 0x8000
def SVC_ENTRY : Word := 0x40008000

/-- The memory of the bootloader, its exception stack at the end. -/
def Own (a : Word) : Prop := memory.dist DRAM_BASE a < BOOTLOADER_SIZE

def PRIV_U : Word := 0
def PRIV_S : Word := 1

/-- The interrupt of the uart. -/
def MACH_EXTERN : Word := 0x8000000b

/-- A program in supervisor or user mode over the bootloader. -/
structure Machine where
  pc : Word
  priv : Word
  d : Data
  g : Globals

/-- `mstatus` after `mret`. -/
def mret_status (status : Word) : Word :=
  (status &&& ~~~(MSTATUS_MPP ||| MSTATUS_MPIE ||| MSTATUS_MIE)) |||
    ((status &&& MSTATUS_MPIE) >>> 4) ||| MSTATUS_MPIE

/-- What `mret` goes back to. -/
def mret_to (d : Data) (g : Globals) : Machine where
  pc := d.csr mepc
  priv := (d.csr mstatus >>> 11) &&& 3
  d := d.setCsr mstatus (mret_status (d.csr mstatus))
  g := g

section

variable (k : Link)

/-- The handler as compiled code, with the variables before and after it. It follows the calling
convention, and writes only into the memory of the bootloader, but not into the frame. -/
def handler (bus : Bus) (polls : List (Option Word)) (g g' : Globals) : Calls Symbol :=
  fun f c u => f = .mach_exception_handler ∧ u.pc = c.d.get ra ∧
    (∀ r ∈ preserved, u.d.get r = c.d.get r) ∧
    (∀ a, ¬ Own a ∨ memory.dist (c.d.get a0) a < 128 → u.d.mem a = c.d.mem a) ∧
    ∃ m', mach_exception_handler k.im.addr bus (c.d.get a0) polls
        { d := c.d, g := g, loads := 0, out := some [] } = some m' ∧
      m'.g = g' ∧ u.d.csr = m'.d.csr

/-- An interrupt of the program `m`, at an instruction, leads to an `mret` in `t`, and goes on in
`m'`. -/
structure Interrupt (bus : Bus) (polls : List (Option Word)) (m : Machine) (t : State)
    (m' : Machine) : Prop where
  aligned : m.pc.toNat % 4 = 0
  run : k.Path (handler k bus polls m.g m'.g) (trap m.d m.pc m.priv MACH_EXTERN 0) t
  left : k.im.Left t
  back : m' = mret_to t.d m'.g

inductive Event
  | program | interrupt

/-- The program does what its mode allows: the CSRs of machine mode are not its own, and
neither are the variables of the bootloader. -/
inductive Step : Steps Machine Event
  | program {m m' : Machine} (hpriv : m'.priv = PRIV_U ∨ m'.priv = PRIV_S)
      (hcsr : ∀ c ∈ [mscratch, mtvec], m'.d.csr c = m.d.csr c) (hg : m'.g = m.g) :
      Step m .program m'
  | interrupt {m m' : Machine} (bus : Bus) (polls : List (Option Word)) (t : State)
      (h : Interrupt k bus polls m t m') : Step m .interrupt m'

/-- The monitor is set up for the next interrupt. -/
structure Ready (m : Machine) : Prop where
  mtvec : m.d.csr mtvec = k.im.addr .mach_exception_entry
  mscratch : m.d.csr mscratch = SVC_ENTRY
  priv : m.priv = PRIV_U ∨ m.priv = PRIV_S

/-- What the interrupted program finds: its pc, its registers and its mode, its interrupts as
enabled as before, every other CSR of its own, and its memory. At the `mret` the previous mode
and the previous interrupt enable are still those of the trap. -/
structure Undisturbed (m : Machine) (t : State) (m' : Machine) : Prop where
  pc : m'.pc = m.pc
  regs : ∀ r, m'.d.get r = m.d.get r
  previous : t.d.csr mstatus = trap_status (m.d.csr mstatus) m.priv
  priv : m'.priv = m.priv
  status : m'.d.csr mstatus &&& ~~~(MSTATUS_MPP ||| MSTATUS_MPIE) =
    m.d.csr mstatus &&& ~~~(MSTATUS_MPP ||| MSTATUS_MPIE)
  csr : ∀ c ∉ [mstatus, mepc, mcause, mtval], m'.d.csr c = m.d.csr c
  mem : ∀ a, ¬ Own a → m'.d.mem a = m.d.mem a

end

/-! ## The status -/

theorem previous_mode {status priv : Word} (h : priv = PRIV_U ∨ priv = PRIV_S) :
    (trap_status status priv >>> 11) &&& 3 = priv := by
  unfold trap_status MSTATUS_MPP MSTATUS_MPIE MSTATUS_MIE
  rcases h with rfl | rfl
  · ext i hi
    unfold PRIV_U
    interval_cases i <;> simp
  · ext i hi
    unfold PRIV_S
    interval_cases i <;> simp

/-- `mret` undoes the trap in every bit but those of the previous mode. -/
theorem status_back {status priv : Word} (h : priv = PRIV_U ∨ priv = PRIV_S) :
    mret_status (trap_status status priv) &&& ~~~(MSTATUS_MPP ||| MSTATUS_MPIE) =
      status &&& ~~~(MSTATUS_MPP ||| MSTATUS_MPIE) := by
  unfold mret_status trap_status MSTATUS_MPP MSTATUS_MPIE MSTATUS_MIE
  rcases h with rfl | rfl
  · ext i hi
    unfold PRIV_U
    interval_cases i <;> simp
  · ext i hi
    unfold PRIV_S
    interval_cases i <;> simp

/-! ## One interrupt -/

section

variable {k : Link} {bus : Bus} {polls : List (Option Word)} {m m' : Machine} {t : State}
  {d : Data}

theorem text_entry : entry_part <+: text.drop 0 := by
  simp only [text, mach_exception_entry_eq, List.append_assoc, List.drop_zero]
  exact List.prefix_append _ _

theorem text_exit : exit_part <+: text.drop 38 := by
  have h : text = (entry_part ++ [jal .mach_exception_handler]) ++ (exit_part ++ ([mret] ++
      (exit_mode_m ++ ((safe_head .rd32fail ++ [lw a0 0 t1]) ++ ([ret] ++
        ((safe_head .rd8fail ++ [lbu a0 0 t1]) ++ [ret])))))) := by
    simp only [text, mach_exception_entry_eq, List.append_assoc]
  rw [h, List.drop_left' (by rfl)]
  exact List.prefix_append _ _

theorem handler.convention (k : Link) (bus : Bus) (polls : List (Option Word)) (g g' : Globals) :
    Convention (handler k bus polls g g') :=
  ⟨fun h => h.2.1, fun h => h.2.2.1⟩

/-- A trap with the vector of the bootloader goes to its entry. -/
theorem trap_enters (hv : m.d.csr mtvec = k.im.addr .mach_exception_entry)
    (pc priv cause tval : Word) :
    trap m.d pc priv cause tval = ⟨k.im.loc 0, (trap m.d pc priv cause tval).d⟩ := by
  have hpc : m.d.csr mtvec &&& (0xFFFFFFFC : Word) = k.im.loc 0 := by
    rw [hv, masked (k.aligned _) (by decide), k.labels .mach_exception_entry 0 rfl]
  unfold trap
  rw [hpc]

/-- The way of an interrupt: in, through one call of the handler, and out to the `mret`. -/
theorem Interrupt.way (h : Interrupt k bus polls m t m')
    (hv : m.d.csr mtvec = k.im.addr .mach_exception_entry) :
    ∃ e : Data, handler k bus polls m.g m'.g .mach_exception_handler
        ⟨k.im.addr .mach_exception_handler,
          (line k.im.addr entry_part (trap m.d m.pc m.priv MACH_EXTERN 0).d).set ra
            (k.im.loc 38)⟩ ⟨k.im.loc 38, e⟩ ∧
      t = ⟨k.im.loc 73, line k.im.addr exit_part e⟩ := by
  have hrun := h.run
  rw [trap_enters hv] at hrun
  have hstop : k.im.Stop t := .inr h.left
  have h37 := Linked.path_line entry_part 37 hrun hstop text_entry (by rfl) rfl
  have hjal := Linked.path_goes h37 hstop (by rfl) rfl
  rcases Linked.path_back (handler.convention ..) hjal rfl (get_set_same _ _ (by decide)) with
    rfl | ⟨e, hcall, h38⟩
  · exact absurd h.left (k.not_left rfl)
  · have h73 := Linked.path_line exit_part 73 h38 hstop text_exit (by rfl) rfl
    exact ⟨e, hcall, Linked.path_return h73 (by rfl) rfl⟩

/-- The frame lies at the end of the memory of the bootloader. -/
theorem own_frame {a : Word} (ha : ¬ Own a) (o : Word) (ho : o ∈ offsets) :
    Apart (SVC_ENTRY - 128 + o) a := by
  have h := offsets_le o ho
  unfold Own DRAM_BASE BOOTLOADER_SIZE at ha
  apply outside_frame h
  · unfold SVC_ENTRY memory.dist at *
    bv_omega
  · unfold SVC_ENTRY memory.dist at *
    bv_omega

/-- What a trap leaves for the way in. -/
theorem trap_csr (d : Data) (pc priv cause tval : Word) :
    (trap d pc priv cause tval).d.csr mepc = pc ∧
      (trap d pc priv cause tval).d.csr mcause = cause ∧
      (trap d pc priv cause tval).d.csr mstatus = trap_status (d.csr mstatus) priv ∧
      ∀ c ∉ [mstatus, mepc, mcause, mtval],
        (trap d pc priv cause tval).d.csr c = d.csr c := by
  unfold trap
  refine ⟨?_, ?_, ?_, ?_⟩
  · rw [csr_setCsr, if_neg (by decide), csr_setCsr, if_neg (by decide), csr_setCsr,
      if_neg (by decide), csr_setCsr, if_pos rfl]
  · rw [csr_setCsr, if_neg (by decide), csr_setCsr, if_neg (by decide), csr_setCsr, if_pos rfl]
  · rw [csr_setCsr, if_pos rfl]
  · intro c hc
    simp only [List.mem_cons, List.not_mem_nil, or_false, not_or] at hc
    obtain ⟨h1, h2, h3, h4⟩ := hc
    rw [csr_setCsr, if_neg h1, csr_setCsr, if_neg h4, csr_setCsr, if_neg h3, csr_setCsr, if_neg h2]

/-- The state at the `mret`: everything from the frame, and the CSRs that the trap left. -/
structure Restored (m : Machine) (z : Data) : Prop where
  regs : ∀ r, z.get r = m.d.get r
  pc : z.csr mepc = m.pc
  mscratch : z.csr mscratch = SVC_ENTRY
  mtvec : z.csr mtvec = m.d.csr mtvec
  mstatus : z.csr mstatus = trap_status (m.d.csr mstatus) m.priv
  csr : ∀ c ∉ Csr.mscratch :: borrowed, z.csr c = m.d.csr c
  mem : ∀ a, ¬ Own a → z.mem a = m.d.mem a

theorem Interrupt.restored (h : Interrupt k bus polls m t m') (hr : Ready k m) :
    Restored m t.d := by
  obtain ⟨u, ⟨-, -, hsaved, hmem, m'', hserved, -, hcsr⟩, rfl⟩ := h.way hr.mtvec
  obtain ⟨tpc, -, tstatus, tcsr⟩ := trap_csr m.d m.pc m.priv MACH_EXTERN 0
  have tget : ∀ r, (trap m.d m.pc m.priv MACH_EXTERN 0).d.get r = m.d.get r := fun _ => rfl
  have tmem : (trap m.d m.pc m.priv MACH_EXTERN 0).d.mem = m.d.mem := rfl
  generalize (trap m.d m.pc m.priv MACH_EXTERN 0).d = d at *
  -- the way in
  have hin := entry_part.spec k.im.addr d
  generalize line k.im.addr entry_part d = e at *
  have hF : d.csr .mscratch = SVC_ENTRY := (tcsr _ (by decide)).trans hr.mscratch
  have hsp := hin.sp
  have ha0 := hin.a0
  have hframe := hin.saved
  have hrest := hin.rest
  rw [hF] at hsp ha0 hframe hrest
  -- the handler
  obtain ⟨hquiet, -⟩ := mach_exception_handler.quiet hserved
  dsimp only at hsaved hmem hquiet
  rw [get_set_ne _ _ (by decide), ha0] at hmem
  have usp : u.get .sp = SVC_ENTRY - 128 := by
    rw [hsaved .sp (by decide), get_set_ne _ _ (by decide), hsp]
  have uframe := hframe.keep fun a ha => hmem a (.inr ha)
  have ucsr : ∀ c ∉ borrowed, u.csr c = e.csr c := fun c hc => by
    rw [hcsr]
    exact hquiet.csr c hc
  -- the way out
  have hout := exit_part.spec k.im.addr u
  dsimp only
  generalize line k.im.addr exit_part u = z at *
  refine ⟨?_, ?_, ?_, ?_, ?_, ?_, ?_⟩
  · intro r
    by_cases hr0 : r = .zero
    · rw [hr0]
      rfl
    · obtain ⟨p, hp, rfl⟩ := List.mem_map.mp (eframe_has r hr0)
      rw [hout.regs p hp, usp, uframe.regs p hp, tget]
  · rw [hout.pc, usp, uframe.pc, tpc, legal_aligned _ h.aligned]
  · rw [hout.mscratch, usp, BitVec.sub_add_cancel]
  · rw [hout.csr _ (by decide) (by decide), hcsr, hr.mtvec]
    apply hquiet.mtvec
    rw [csr_set, hin.csr _ (by decide), tcsr _ (by decide), hr.mtvec]
  · rw [hout.csr _ (by decide) (by decide), hcsr, hquiet.mstatus]
    exact (hin.csr _ (by decide)).trans tstatus
  · intro c hc
    rw [List.mem_cons, not_or] at hc
    have hc' := hc.2
    simp only [borrowed, List.mem_cons, List.not_mem_nil, or_false, not_or] at hc'
    rw [hout.csr c hc.1 hc'.2.2.1, ucsr c hc.2, hin.csr c hc.1, tcsr c]
    simp only [List.mem_cons, List.not_mem_nil, or_false, not_or]
    exact ⟨hc'.2.1, hc'.2.2.1, hc'.2.2.2.1, hc'.2.2.2.2⟩
  · intro a ha
    rw [hout.mem, hmem a (.inl ha), mem_set, ← ld32_low e.mem, hrest a (own_frame ha), ld32_low,
      tmem]

/-- The law of one interrupt. -/
theorem Interrupt.spec (h : Interrupt k bus polls m t m') (hr : Ready k m) :
    Undisturbed m t m' ∧ Ready k m' := by
  have hz := h.restored hr
  have hback := h.back
  generalize m'.g = g at hback
  subst hback
  have hpriv : (t.d.csr mstatus >>> 11) &&& 3 = m.priv := by
    rw [hz.mstatus, previous_mode hr.priv]
  refine ⟨⟨hz.pc, hz.regs, hz.mstatus, hpriv, ?_, ?_, hz.mem⟩, ⟨?_, ?_, ?_⟩⟩
  · dsimp only [mret_to]
    rw [csr_setCsr, if_pos rfl, hz.mstatus, status_back hr.priv]
  · intro c hc
    simp only [List.mem_cons, List.not_mem_nil, or_false, not_or] at hc
    dsimp only [mret_to]
    rw [csr_setCsr, if_neg hc.1]
    by_cases hs : c = mscratch
    · rw [hs, hz.mscratch, hr.mscratch]
    · by_cases hv : c = mtvec
      · rw [hv, hz.mtvec]
      · apply hz.csr
        simp only [borrowed, List.mem_cons, List.not_mem_nil, or_false, not_or]
        exact ⟨hs, hv, hc⟩
  · dsimp only [mret_to]
    rw [csr_setCsr, if_neg (by decide), hz.mtvec, hr.mtvec]
  · dsimp only [mret_to]
    rw [csr_setCsr, if_neg (by decide), hz.mscratch]
  · rw [show (mret_to t.d g).priv = m.priv from hpriv]
    exact hr.priv

/-- Whenever the handler returns, the interrupt does. -/
theorem Interrupt.exists (bus : Bus) (polls : List (Option Word)) (hr : Ready k m)
    (hpc : m.pc.toNat % 4 = 0) {m'' : Console}
    (hserved : mach_exception_handler k.im.addr bus (SVC_ENTRY - 128) polls
      { d := (line k.im.addr entry_part (trap m.d m.pc m.priv MACH_EXTERN 0).d).set ra
          (k.im.loc 38), g := m.g, loads := 0, out := some [] } = some m'') :
    ∃ t m', Interrupt k bus polls m t m' := by
  have hF : (trap m.d m.pc m.priv MACH_EXTERN 0).d.csr .mscratch = SVC_ENTRY :=
    ((trap_csr m.d m.pc m.priv MACH_EXTERN 0).2.2.2 _ (by decide)).trans hr.mscratch
  have hin := entry_part.spec k.im.addr (trap m.d m.pc m.priv MACH_EXTERN 0).d
  have henters := trap_enters hr.mtvec m.pc m.priv MACH_EXTERN 0
  generalize (trap m.d m.pc m.priv MACH_EXTERN 0).d = d at *
  have ha0 : ((line k.im.addr entry_part d).set ra (k.im.loc 38)).get .a0 = SVC_ENTRY - 128 := by
    rw [get_set_ne _ _ (by decide), hin.a0, hF]
  generalize hc : (line k.im.addr entry_part d).set ra (k.im.loc 38) = c at *
  let u : Data := { x := c.x, csr := m''.d.csr, mem := c.mem }
  have hra : c.get ra = k.im.loc 38 := by rw [← hc, get_set_same _ _ (by decide)]
  have hcall : handler k bus polls m.g m''.g .mach_exception_handler
      ⟨k.im.addr .mach_exception_handler, c⟩ ⟨k.im.loc 38, u⟩ := by
    refine ⟨rfl, hra.symm, fun _ _ => rfl, fun _ _ => rfl, m'', ?_, rfl, rfl⟩
    rw [ha0]
    exact hserved
  have h37 : k.Path (handler k bus polls m.g m''.g) ⟨k.im.loc 0, d⟩
      ⟨k.im.loc 37, line k.im.addr entry_part d⟩ :=
    Linked.runs_line entry_part 37 text_entry (by rfl) rfl
  have h38 : k.Path (handler k bus polls m.g m''.g) ⟨k.im.loc 37, line k.im.addr entry_part d⟩
      (k.im.exec 37 (jal .mach_exception_handler) (line k.im.addr entry_part d)) :=
    Linked.runs_goes (by rfl) rfl
  have hback : k.Path (handler k bus polls m.g m''.g)
      ⟨k.im.addr .mach_exception_handler, c⟩ ⟨k.im.loc 38, u⟩ :=
    Linked.runs_call rfl hcall
  have h73 : k.Path (handler k bus polls m.g m''.g) ⟨k.im.loc 38, u⟩
      ⟨k.im.loc 73, line k.im.addr exit_part u⟩ :=
    Linked.runs_line exit_part 73 text_exit (by rfl) rfl
  subst hc
  refine ⟨⟨k.im.loc 73, line k.im.addr exit_part u⟩, mret_to (line k.im.addr exit_part u) m''.g,
    hpc, ?_, k.left_of (by rfl) rfl, rfl⟩
  rw [henters]
  exact ((h37.trans h38).trans hback).trans h73

/-! ## The law of the monitor -/

/-- The CSRs that `start` of boot.c writes, and its call of `exit_mode_m`. -/
def start_exit (addr : Symbol → Word) (hartid fdt : Word) (d : Data) : Data :=
  line addr [csrw mepc a2, mv sp a3] <|
    (((((((d.setCsr mtvec (addr .mach_exception_entry)).setCsr mscratch SVC_ENTRY).setCsr mstatus
      ((PRIV_S <<< 11) ||| MSTATUS_MPIE)).set a0 hartid).set a1 fdt).set a2 SVC_ENTRY).set a3 0)

/-- The bootloader enters the program with the monitor set up. -/
theorem start_exit.ready (k : Link) (hartid fdt : Word) (d : Data) (g : Globals) :
    Ready k (mret_to (start_exit k.im.addr hartid fdt d) g) ∧
      (mret_to (start_exit k.im.addr hartid fdt d) g).pc = SVC_ENTRY := by
  refine ⟨⟨rfl, rfl, .inr ?_⟩, @legal_aligned SVC_ENTRY .mepc (by decide)⟩
  exact (by decide : (((PRIV_S <<< 11) ||| MSTATUS_MPIE) >>> 11) &&& (3 : Word) = PRIV_S)

theorem Step.ready {e : Event} (h : Step k m e m') (hr : Ready k m) : Ready k m' := by
  cases h with
  | program hpriv hcsr hg =>
    refine ⟨?_, ?_, hpriv⟩
    · rw [hcsr _ (by decide), hr.mtvec]
    · rw [hcsr _ (by decide), hr.mscratch]
  | interrupt bus polls t h => exact (h.spec hr).2

/-- After any run of a program and its interrupts, the next interrupt leaves the program as it
was and the monitor ready, whatever is typed and whichever safe loads fault. -/
theorem the_program_is_not_disturbed {es : List Event} {m0 : Machine} (h0 : Ready k m0)
    (hrun : Run (Step k) m0 es m) (h : Interrupt k bus polls m t m') :
    Undisturbed m t m' ∧ Ready k m' := by
  have hr : Ready k m := hrun.keeps h0 fun _ _ _ hr hs => hs.ready hr
  exact h.spec hr

end

/-! ## A dump that faults -/

def a_link : Link :=
  Linked.placed text start 0x40000100
    (fun
      | .mach_exception_entry => 0x40001000
      | .exit_mode_m => 0x40001004
      | .rd32safe => 0x40001008
      | .rd32fail => 0x4000100C
      | .rd8safe => 0x40001010
      | .rd8fail => 0x40001014
      | .mach_exception_handler => 0x40001018)
    (by decide) (by decide) (by intro f; cases f <;> decide)
    (by intro f g; cases f <;> cases g <;> decide)

theorem no_line_fits : ([] : List Byte).length < 128 := by decide

def a_program : Machine where
  pc := SVC_ENTRY
  priv := PRIV_S
  d :=
    { x := fun _ => 0
      csr := fun c => if c = mtvec then 0x40000100 else if c = mscratch then SVC_ENTRY else 0
      mem := fun _ => 0 }
  g := { cmdbuf := [], cmdbuf_fits := no_line_fits, STOP := false, EF := 0 }

/-- `dw` and a return, over a bus on which every load faults. -/
def a_dump : List (Option Word) := [some 0x64, some 0x77, some 0x0D, none]

def a_fault : Bus := fun _ _ => .error 5

theorem a_program_ready : Ready a_link a_program :=
  ⟨by rfl, by rfl, .inr rfl⟩

theorem a_dump_does_not_disturb :
    ∃ t m', Interrupt a_link a_fault a_dump a_program t m' ∧
      Undisturbed a_program t m' ∧ Ready a_link m' := by
  obtain ⟨t, m', h⟩ := Interrupt.exists a_fault a_dump a_program_ready (by decide) rfl
  exact ⟨t, m', h, the_program_is_not_disturbed a_program_ready .nil h⟩

end os_workshop.monitor
