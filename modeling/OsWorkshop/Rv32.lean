-- The part of the RV32 machine that a trap handler uses: the registers, the
-- CSRs, the instructions of a text that the linker placed, and the runs of that
-- text. Code outside the text is a relation on states.
import OsWorkshop.Memory
import Mathlib.Logic.Relation
import Mathlib.Data.List.Nodup

open os_workshop.memory

namespace os_workshop.rv32

/-! ## The machine -/

inductive Reg
  | zero | ra | sp | gp | tp | t0 | t1 | t2 | s0 | s1 | a0 | a1 | a2 | a3 | a4 | a5 | a6 | a7
  | s2 | s3 | s4 | s5 | s6 | s7 | s8 | s9 | s10 | s11 | t3 | t4 | t5 | t6
  deriving DecidableEq

inductive Csr
  | sstatus | sscratch | sepc | scause | stval | stvec | satp | sip
  | mstatus | mscratch | mepc | mcause | mtval | mtvec
  deriving DecidableEq

/-- What a CSR keeps of a value that is written to it. Instructions stand at multiples of four, so
the two low bits of `sepc` and `mepc` are always zero. -/
def legal : Csr → Word → Word
  | .sepc, v => v &&& 0xFFFFFFFC
  | .mepc, v => v &&& 0xFFFFFFFC
  | _, v => v

/-- What the instructions read and write, but for the program counter. -/
structure Data where
  x : Reg → Word
  csr : Csr → Word
  mem : Mem

namespace Data

def get (d : Data) (r : Reg) : Word := if r = .zero then 0 else d.x r

def set (d : Data) (r : Reg) (v : Word) : Data :=
  { d with x := fun r' => if r' = r then v else d.x r' }

def setCsr (d : Data) (c : Csr) (v : Word) : Data :=
  { d with csr := fun c' => if c' = c then v else d.csr c' }

def store (d : Data) (a v : Word) : Data := { d with mem := st32 d.mem a v }

end Data

structure State where
  pc : Word
  d : Data

/-! ## The text -/

/-- The instructions, over the symbols `L`. -/
inductive Instr (L : Type)
  | addi (rd rs : Reg) (imm : Word)
  | andi (rd rs : Reg) (imm : Word)
  | slli (rd rs : Reg) (sh : Nat)
  | srli (rd rs : Reg) (sh : Nat)
  | add (rd rs1 rs2 : Reg)
  | sub (rd rs1 rs2 : Reg)
  | or (rd rs1 rs2 : Reg)
  | lw (rd : Reg) (off : Word) (rs : Reg)
  | lbu (rd : Reg) (off : Word) (rs : Reg)
  | sw (rs2 : Reg) (off : Word) (rs1 : Reg)
  | la (rd : Reg) (l : L)
  | csrr (rd : Reg) (c : Csr)
  | csrw (c : Csr) (rs : Reg)
  | csrrw (rd : Reg) (c : Csr) (rs : Reg)
  | beq (rs1 rs2 : Reg) (l : L)
  | bne (rs1 rs2 : Reg) (l : L)
  | bge (rs1 rs2 : Reg) (l : L)
  | bgeu (rs1 rs2 : Reg) (l : L)
  | j (l : L)
  | jal (l : L)
  | jalr (rs : Reg)
  | jr (rs : Reg)
  | sfence_vma
  | sret
  | mret

abbrev mv {L : Type} (rd rs : Reg) : Instr L := .addi rd rs 0
abbrev li {L : Type} (rd : Reg) (imm : Word) : Instr L := .addi rd .zero imm
abbrev ret {L : Type} : Instr L := .jr .ra
abbrev nop {L : Type} : Instr L := .addi .zero .zero 0

/-- A text that the linker placed: the address of each instruction, no two the
same, and the address of each symbol. -/
structure Image (L : Type) where
  text : List (Instr L)
  loc : Nat → Word
  addr : L → Word
  loc_inj : ∀ i j, i < text.length → j < text.length → loc i = loc j → i = j

section

variable {L : Type}

/-- The instruction goes on to the next one. -/
def Instr.straight : Instr L → Bool
  | .beq .. | .bne .. | .bge .. | .bgeu .. | .j .. | .jal .. | .jalr .. | .jr .. | .sret | .mret => false
  | _ => true

/-- The instruction returns from a trap. -/
def Instr.leaves : Instr L → Bool
  | .sret | .mret => true
  | _ => false

/-- What an instruction does to the registers and the memory, when the next
instruction stands at `next`. -/
def act (addr : L → Word) (next : Word) : Instr L → Data → Data
  | .addi rd rs imm, d => d.set rd (d.get rs + imm)
  | .andi rd rs imm, d => d.set rd (d.get rs &&& imm)
  | .slli rd rs sh, d => d.set rd (d.get rs <<< sh)
  | .srli rd rs sh, d => d.set rd (d.get rs >>> sh)
  | .add rd rs1 rs2, d => d.set rd (d.get rs1 + d.get rs2)
  | .sub rd rs1 rs2, d => d.set rd (d.get rs1 - d.get rs2)
  | .or rd rs1 rs2, d => d.set rd (d.get rs1 ||| d.get rs2)
  | .lw rd off rs, d => d.set rd (ld32 d.mem (d.get rs + off))
  | .lbu rd off rs, d => d.set rd ((d.mem (d.get rs + off)).setWidth 32)
  | .sw rs2 off rs1, d => d.store (d.get rs1 + off) (d.get rs2)
  | .la rd l, d => d.set rd (addr l)
  | .csrr rd c, d => d.set rd (d.csr c)
  | .csrw c rs, d => d.setCsr c (legal c (d.get rs))
  | .csrrw rd c rs, d => (d.setCsr c (legal c (d.get rs))).set rd (d.csr c)
  | .jal _, d => d.set .ra next
  | .jalr _, d => d.set .ra next
  | .beq .., d => d
  | .bne .., d => d
  | .bge .., d => d
  | .bgeu .., d => d
  | .j _, d => d
  | .jr _, d => d
  | .sfence_vma, d => d
  | .sret, d => d
  | .mret, d => d

/-- Where an instruction goes on. -/
def goes (addr : L → Word) (next : Word) : Instr L → Data → Word
  | .beq rs1 rs2 l, d => if d.get rs1 = d.get rs2 then addr l else next
  | .bne rs1 rs2 l, d => if d.get rs1 ≠ d.get rs2 then addr l else next
  | .bge rs1 rs2 l, d => if (d.get rs2).sle (d.get rs1) then addr l else next
  | .bgeu rs1 rs2 l, d => if d.get rs2 ≤ d.get rs1 then addr l else next
  | .j l, _ => addr l
  | .jal l, _ => addr l
  | .jalr rs, d => d.get rs &&& (0xFFFFFFFE : Word)
  | .jr rs, d => d.get rs &&& (0xFFFFFFFE : Word)
  | _, _ => next

namespace Image

/-- The instruction at an address. -/
def fetch (im : Image L) (pc : Word) : Option Nat :=
  (List.range im.text.length).find? fun i => im.loc i == pc

/-- One instruction, at index `i`. -/
def exec (im : Image L) (i : Nat) (ins : Instr L) (d : Data) : State :=
  ⟨goes im.addr (im.loc (i + 1)) ins d, act im.addr (im.loc (i + 1)) ins d⟩

/-- A step of the text, or of the code outside it. The text stops where it returns from a
trap. -/
inductive Step (im : Image L) (outside : State → State → Prop) : State → State → Prop
  | text {s : State} {i : Nat} {ins : Instr L} (hf : im.fetch s.pc = some i)
      (hi : im.text[i]? = some ins) (hne : ins.leaves = false) : Step im outside s (im.exec i ins s.d)
  | outside {s t : State} (hf : im.fetch s.pc = none) (h : outside s t) : Step im outside s t

abbrev Path (im : Image L) (outside : State → State → Prop) : State → State → Prop :=
  Relation.ReflTransGen (Step im outside)

/-- The state is at a return from a trap. -/
def Left (im : Image L) (t : State) : Prop :=
  ∃ i ins, im.fetch t.pc = some i ∧ im.text[i]? = some ins ∧ ins.leaves = true

/-- The state is at a return from a trap, or at code outside the text. -/
def Stop (im : Image L) (t : State) : Prop := im.fetch t.pc = none ∨ im.Left t

end Image

/-! ## Runs of the text -/

variable {im : Image L} {outside : State → State → Prop} {s t : State} {d : Data} {i : Nat}

theorem fetch_loc (im : Image L) {i : Nat} (hi : i < im.text.length) :
    im.fetch (im.loc i) = some i := by
  unfold Image.fetch
  rw [List.find?_range_eq_some]
  refine ⟨by simp, List.mem_range.mpr hi, ?_⟩
  intro j hj
  have hne : im.loc j ≠ im.loc i := by
    intro h
    have := im.loc_inj j i (by omega) hi h
    omega
  simpa using hne

/-- A run from an instruction of the text to a stop goes through it. -/
theorem path_text {ins : Instr L} (h : im.Path outside ⟨im.loc i, d⟩ t) (ht : im.Stop t)
    (hi : im.text[i]? = some ins) (hne : ins.leaves = false) :
    im.Path outside (im.exec i ins d) t := by
  obtain ⟨hlt, -⟩ := List.getElem?_eq_some_iff.mp hi
  have hf := fetch_loc im hlt
  rcases h.cases_head with rfl | ⟨u, hs, hp⟩
  · -- the stop is not this instruction
    rcases ht with hn | ⟨j, e, hj, he, hleaves⟩
    · rw [hf] at hn
      cases hn
    · rw [hf, Option.some.injEq] at hj
      subst hj
      rw [hi, Option.some.injEq] at he
      subst he
      rw [hne] at hleaves
      cases hleaves
  · cases hs with
    | text hf' hi' _ =>
      rw [hf, Option.some.injEq] at hf'
      subst hf'
      rw [hi, Option.some.injEq] at hi'
      subst hi'
      exact hp
    | outside hf' _ =>
      rw [hf] at hf'
      cases hf'

/-- The effect of straight instructions, which does not depend on their
addresses. -/
def line (addr : L → Word) (blk : List (Instr L)) (d : Data) : Data :=
  blk.foldl (fun d ins => act addr 0 ins d) d

@[simp] theorem line_nil (addr : L → Word) (d : Data) : line addr [] d = d := rfl

@[simp] theorem line_cons (addr : L → Word) (ins : Instr L) (blk : List (Instr L)) (d : Data) :
    line addr (ins :: blk) d = line addr blk (act addr 0 ins d) := rfl

theorem line_append (addr : L → Word) (b c : List (Instr L)) (d : Data) :
    line addr (b ++ c) d = line addr c (line addr b d) := by
  unfold line
  rw [List.foldl_append]

theorem act_straight {ins : Instr L} (h : ins.straight = true) (addr : L → Word) (next : Word)
    (d : Data) : act addr next ins d = act addr 0 ins d ∧ goes addr next ins d = next := by
  cases ins <;> first | exact ⟨rfl, rfl⟩ | cases h

/-- A run from the start of a straight block to a stop goes through the block. -/
theorem path_block (blk : List (Instr L)) (h : im.Path outside ⟨im.loc i, d⟩ t) (ht : im.Stop t)
    (hb : blk <+: im.text.drop i) (hs : ∀ ins ∈ blk, ins.straight = true) :
    im.Path outside ⟨im.loc (i + blk.length), line im.addr blk d⟩ t := by
  induction blk generalizing i d with
  | nil => exact h
  | cons ins blk ih =>
    obtain ⟨rest, hrest⟩ := hb
    have hi : im.text[i]? = some ins := by
      have h0 : (im.text.drop i)[0]? = some ins := by rw [← hrest]; rfl
      simpa using h0
    have hins := hs ins List.mem_cons_self
    have hne : ins.leaves = false := by
      cases ins <;> first | rfl | cases hins
    have hnext := path_text h ht hi hne
    obtain ⟨hact, hgoes⟩ := act_straight hins im.addr (im.loc (i + 1)) d
    unfold Image.exec at hnext
    rw [hact, hgoes] at hnext
    have hb' : blk <+: im.text.drop (i + 1) := by
      refine ⟨rest, ?_⟩
      rw [← List.drop_drop, ← hrest]
      rfl
    have := ih hnext hb' fun e he => hs e (List.mem_cons_of_mem _ he)
    rw [List.length_cons, line_cons, show i + (blk.length + 1) = i + 1 + blk.length by omega]
    exact this

/-- A run from the code outside the text stops there, or goes on after it. -/
theorem path_outside (h : im.Path outside s t) (hf : im.fetch s.pc = none) :
    t = s ∨ ∃ u, outside s u ∧ im.Path outside u t := by
  rcases h.cases_head with rfl | ⟨u, hs, hp⟩
  · exact .inl rfl
  · right
    cases hs with
    | text hf' _ _ =>
      rw [hf] at hf'
      cases hf'
    | outside _ hu => exact ⟨u, hu, hp⟩

/-- A run from a return from a trap is over. -/
theorem path_leaves {ins : Instr L} (h : im.Path outside ⟨im.loc i, d⟩ t)
    (hi : im.text[i]? = some ins) (hl : ins.leaves = true) : t = ⟨im.loc i, d⟩ := by
  obtain ⟨hlt, -⟩ := List.getElem?_eq_some_iff.mp hi
  have hf := fetch_loc im hlt
  rcases h.cases_head with rfl | ⟨u, hs, hp⟩
  · rfl
  · cases hs with
    | text hf' hi' hne =>
      rw [hf, Option.some.injEq] at hf'
      subst hf'
      rw [hi, Option.some.injEq] at hi'
      subst hi'
      rw [hl] at hne
      cases hne
    | outside hf' _ =>
      rw [hf] at hf'
      cases hf'

/-! ## Runs of the text, put together -/

theorem runs_text {ins : Instr L} (hi : im.text[i]? = some ins) (hl : ins.leaves = false) :
    im.Path outside ⟨im.loc i, d⟩ (im.exec i ins d) := by
  obtain ⟨hlt, -⟩ := List.getElem?_eq_some_iff.mp hi
  exact .single (.text (fetch_loc im hlt) hi hl)

/-- One instruction that goes to `pc`. -/
theorem runs_to {ins : Instr L} {pc : Word} {e : Data} (hi : im.text[i]? = some ins)
    (hl : ins.leaves = false) (hact : act im.addr (im.loc (i + 1)) ins d = e)
    (hgoes : goes im.addr (im.loc (i + 1)) ins d = pc) :
    im.Path outside ⟨im.loc i, d⟩ ⟨pc, e⟩ := by
  have h : im.Path outside ⟨im.loc i, d⟩ (im.exec i ins d) := runs_text hi hl
  unfold Image.exec at h
  rw [hact, hgoes] at h
  exact h

theorem runs_block (blk : List (Instr L)) (hb : blk <+: im.text.drop i)
    (hs : ∀ ins ∈ blk, ins.straight = true) :
    im.Path outside ⟨im.loc i, d⟩ ⟨im.loc (i + blk.length), line im.addr blk d⟩ := by
  induction blk generalizing i d with
  | nil => exact .refl
  | cons ins blk ih =>
    obtain ⟨rest, hrest⟩ := hb
    have hi : im.text[i]? = some ins := by
      have h0 : (im.text.drop i)[0]? = some ins := by rw [← hrest]; rfl
      simpa using h0
    have hins := hs ins List.mem_cons_self
    have hne : ins.leaves = false := by
      cases ins <;> first | rfl | cases hins
    obtain ⟨hact, hgoes⟩ := act_straight hins im.addr (im.loc (i + 1)) d
    have hb' : blk <+: im.text.drop (i + 1) := by
      refine ⟨rest, ?_⟩
      rw [← List.drop_drop, ← hrest]
      rfl
    rw [List.length_cons, line_cons, show i + (blk.length + 1) = i + 1 + blk.length by omega]
    exact (runs_to hi hne hact hgoes).trans (ih hb' fun e he => hs e (List.mem_cons_of_mem _ he))

/-- A text without code outside takes one step at most from each state. -/
theorem step_unique {t u : State} (ht : im.Step (fun _ _ => False) s t)
    (hu : im.Step (fun _ _ => False) s u) : t = u := by
  cases ht with
  | text hf hi _ =>
    cases hu with
    | text hf' hi' _ =>
      rw [hf, Option.some.injEq] at hf'
      subst hf'
      rw [hi, Option.some.injEq] at hi'
      rw [hi']
    | outside _ h => cases h
  | outside _ h => cases h

/-- Every run from a state goes on to where a run of it left the text. -/
theorem path_to_end {t u : State} (ht : im.Path (fun _ _ => False) s t) (hend : im.fetch t.pc = none)
    (hu : im.Path (fun _ _ => False) s u) : im.Path (fun _ _ => False) u t := by
  have hunique : Relator.RightUnique (im.Step fun _ _ => False) := fun _ _ _ h h' => step_unique h h'
  rcases Relation.ReflTransGen.total_of_right_unique hunique ht hu with h | h
  · rcases h.cases_head with rfl | ⟨v, hv, -⟩
    · exact .refl
    · cases hv with
      | text hf _ _ =>
        rw [hend] at hf
        cases hf
      | outside _ h => cases h
  · exact h

/-! ## Registers saved and restored

A frame is a list of registers, each with its offset from a base, mostly `sp`. -/

abbrev Frame := List (Reg × Word)

def saves_at (b : Reg) (f : Frame) : List (Instr L) := f.map fun p => .sw p.1 p.2 b

def restores_at (b : Reg) (f : Frame) : List (Instr L) := f.map fun p => .lw p.1 p.2 b

def saves (f : Frame) : List (Instr L) := f.map fun p => .sw p.1 p.2 .sp

def restores (f : Frame) : List (Instr L) := f.map fun p => .lw p.1 p.2 .sp

theorem get_zero (d : Data) : d.get .zero = 0 := rfl

theorem get_set (d : Data) (r r' : Reg) (v : Word) (h : r ≠ .zero) :
    (d.set r v).get r' = if r' = r then v else d.get r' := by
  unfold Data.get Data.set
  dsimp only
  by_cases h0 : r' = .zero
  · subst h0
    rw [if_pos rfl, if_neg (Ne.symm h), if_pos rfl]
  · rw [if_neg h0, if_neg h0]

theorem get_set_same (d : Data) {r : Reg} (v : Word) (h : r ≠ .zero) : (d.set r v).get r = v := by
  rw [get_set d r r v h, if_pos rfl]

theorem get_set_ne (d : Data) {r r' : Reg} (v : Word) (h : r' ≠ r) :
    (d.set r v).get r' = d.get r' := by
  unfold Data.get Data.set
  dsimp only
  rw [if_neg h]

@[simp] theorem get_store (d : Data) (a v : Word) (r : Reg) : (d.store a v).get r = d.get r := rfl
@[simp] theorem get_setCsr (d : Data) (c : Csr) (v : Word) (r : Reg) :
    (d.setCsr c v).get r = d.get r := rfl
@[simp] theorem mem_set (d : Data) (r : Reg) (v : Word) : (d.set r v).mem = d.mem := rfl
@[simp] theorem mem_setCsr (d : Data) (c : Csr) (v : Word) : (d.setCsr c v).mem = d.mem := rfl
@[simp] theorem mem_store (d : Data) (a v : Word) : (d.store a v).mem = st32 d.mem a v := rfl
@[simp] theorem csr_set (d : Data) (r : Reg) (v : Word) : (d.set r v).csr = d.csr := rfl
@[simp] theorem csr_store (d : Data) (a v : Word) : (d.store a v).csr = d.csr := rfl
@[simp] theorem csr_setCsr (d : Data) (c c' : Csr) (v : Word) :
    (d.setCsr c v).csr c' = if c' = c then v else d.csr c' := rfl

/-- Two offsets from one base are apart when the offsets are. -/
theorem apart_add (b : Word) {o o' : Word} (h : Apart o o') : Apart (b + o) (b + o') := by
  have key : ∀ p q : Word, dist (b + p) (b + q) = dist p q := by
    intro p q
    have : b + q - (b + p) = q - p := by ring
    unfold memory.dist
    rw [this]
  unfold Apart
  rw [key, key]
  exact h

instance (a b : Word) : Decidable (Apart a b) := inferInstanceAs (Decidable (_ ∧ _))

/-- The bytes of a word are apart from every word that it is apart from. -/
theorem apart_byte {a b x : Word} (h : Apart a b) (hx : memory.dist b x < 4) :
    4 ≤ memory.dist a x := by
  obtain ⟨h1, h2⟩ := h
  unfold memory.dist at *
  bv_omega

/-- Saving registers changes the memory only. Each offset of the frame holds its register, and
a byte outside the frame stays. -/
theorem line_saves_at (addr : L → Word) (b : Reg) (f : Frame) (d : Data)
    (hf : f.Pairwise fun p q => Apart p.2 q.2) :
    (line addr (saves_at b f) d).x = d.x ∧ (line addr (saves_at b f) d).csr = d.csr ∧
      (∀ p ∈ f, ld32 (line addr (saves_at b f) d).mem (d.get b + p.2) = d.get p.1) ∧
      ∀ a, (∀ p ∈ f, 4 ≤ memory.dist (d.get b + p.2) a) →
        (line addr (saves_at b f) d).mem a = d.mem a := by
  induction f generalizing d with
  | nil => exact ⟨rfl, rfl, by simp, fun _ _ => rfl⟩
  | cons q f ih =>
    rw [List.pairwise_cons] at hf
    obtain ⟨hq, hf⟩ := hf
    have hline : line addr (saves_at b (q :: f)) d =
        line addr (saves_at b f) (d.store (d.get b + q.2) (d.get q.1)) := rfl
    obtain ⟨h1, h2, h3, h4⟩ := ih (d.store (d.get b + q.2) (d.get q.1)) hf
    simp only [get_store, mem_store] at h3 h4
    rw [hline]
    refine ⟨h1, h2, ?_, ?_⟩
    · intro p hp
      rw [List.mem_cons] at hp
      rcases hp with rfl | hp
      · refine (ld32_congr _ _ _ ?_).trans (ld32_st32_same d.mem (d.get b + p.2) (d.get p.1))
        intro a ha
        exact h4 a fun p' hp' => apart_byte (apart_add _ (hq p' hp').symm) ha
      · exact h3 p hp
    · intro a ha
      rw [h4 a fun p hp => ha p (List.mem_cons_of_mem _ hp)]
      exact write_out _ _ _ _ (ha q List.mem_cons_self)

/-- Over `sp`, a word that is apart from the frame stays. -/
theorem line_saves (addr : L → Word) (f : Frame) (d : Data)
    (hf : f.Pairwise fun p q => Apart p.2 q.2) :
    (line addr (saves f) d).x = d.x ∧ (line addr (saves f) d).csr = d.csr ∧
      (∀ p ∈ f, ld32 (line addr (saves f) d).mem (d.get .sp + p.2) = d.get p.1) ∧
      ∀ a, (∀ p ∈ f, Apart (d.get .sp + p.2) a) →
        ld32 (line addr (saves f) d).mem a = ld32 d.mem a := by
  obtain ⟨hx, hcsr, hsaved, hbytes⟩ := line_saves_at addr .sp f d hf
  refine ⟨hx, hcsr, hsaved, ?_⟩
  intro a ha
  apply ld32_congr
  intro y hy
  exact hbytes y fun p hp => apart_byte (ha p hp) hy

/-- Restoring registers changes registers only. Each register of the frame
holds the word at its offset, and every other register stays. -/
theorem line_restores_at (addr : L → Word) (b : Reg) (f : Frame) (d : Data)
    (hf : (f.map Prod.fst).Nodup) (hb : b ∉ f.map Prod.fst) (hz : .zero ∉ f.map Prod.fst) :
    (line addr (restores_at b f) d).mem = d.mem ∧ (line addr (restores_at b f) d).csr = d.csr ∧
      (∀ p ∈ f, (line addr (restores_at b f) d).get p.1 = ld32 d.mem (d.get b + p.2)) ∧
      ∀ r, r ∉ f.map Prod.fst → (line addr (restores_at b f) d).get r = d.get r := by
  induction f generalizing d with
  | nil => exact ⟨rfl, rfl, by simp, fun _ _ => rfl⟩
  | cons q f ih =>
    simp only [List.map_cons, List.nodup_cons, List.mem_cons, not_or] at hf hb hz
    have hline : line addr (restores_at b (q :: f)) d =
        line addr (restores_at b f) (d.set q.1 (ld32 d.mem (d.get b + q.2))) := rfl
    obtain ⟨h1, h2, h3, h4⟩ :=
      ih (d.set q.1 (ld32 d.mem (d.get b + q.2))) hf.2 hb.2 hz.2
    rw [mem_set, get_set_ne _ _ hb.1] at h3
    rw [hline]
    refine ⟨h1, h2, ?_, ?_⟩
    · intro p hp
      rw [List.mem_cons] at hp
      rcases hp with rfl | hp
      · rw [h4 _ hf.1, get_set_same _ _ (Ne.symm hz.1)]
      · exact h3 p hp
    · intro r hr
      simp only [List.map_cons, List.mem_cons, not_or] at hr
      rw [h4 r hr.2, get_set_ne _ _ hr.1]

theorem line_restores (addr : L → Word) (f : Frame) (d : Data) (hf : (f.map Prod.fst).Nodup)
    (hsp : .sp ∉ f.map Prod.fst) (hz : .zero ∉ f.map Prod.fst) :
    (line addr (restores f) d).mem = d.mem ∧ (line addr (restores f) d).csr = d.csr ∧
      (∀ p ∈ f, (line addr (restores f) d).get p.1 = ld32 d.mem (d.get .sp + p.2)) ∧
      ∀ r, r ∉ f.map Prod.fst → (line addr (restores f) d).get r = d.get r :=
  line_restores_at addr .sp f d hf hsp hz

end

end os_workshop.rv32
