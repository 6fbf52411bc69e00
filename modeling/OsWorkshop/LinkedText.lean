-- A text as the linker left it, and the runs of it that go through C code: what
-- a call does is a relation, and a run from a trap to its return is followed
-- block by block.
import OsWorkshop.Rv32

open os_workshop.memory

namespace os_workshop.rv32

/-! ## The linked text -/

/-- The text at the addresses that the linker gave it. A symbol that has no place in the text
is a C function or data, outside of it. -/
structure Linked {S : Type} (text : List (Instr S)) (start : S → Option Nat) where
  im : Image S
  text_eq : im.text = text
  labels : ∀ l i, start l = some i → im.addr l = im.loc i
  outside : ∀ f, start f = none → im.fetch (im.addr f) = none
  words : ∀ i, (im.loc i).toNat % 4 = 0
  aligned : ∀ l, (im.addr l).toNat % 4 = 0
  distinct : ∀ f g, start f = none → start g = none → im.addr f = im.addr g → f = g

/-- The calls of the C code: a function, the state at its entry, and a state that it returns
in. -/
abbrev Calls (S : Type) := S → State → State → Prop

/-- What a function of the calling convention gives back, `sp`, `gp` and `tp` included. -/
def preserved : List Reg :=
  [.sp, .gp, .tp, .s0, .s1, .s2, .s3, .s4, .s5, .s6, .s7, .s8, .s9, .s10, .s11]

structure Convention {S : Type} (call : Calls S) : Prop where
  returns : ∀ {f c u}, call f c u → u.pc = c.d.get .ra
  saved : ∀ {f c u}, call f c u → ∀ r ∈ preserved, u.d.get r = c.d.get r

theorem masked {a m : Word} (ha : a.toNat % 4 = 0) (hm : m ||| 3 = 0xFFFFFFFF) : a &&& m = a := by
  have h3 : a &&& 3 = 0 := by
    apply BitVec.eq_of_toNat_eq
    rw [BitVec.toNat_and]
    exact (Nat.and_two_pow_sub_one_eq_mod a.toNat 2).trans ha
  calc a &&& m = (a &&& m) ||| (a &&& 3) := by rw [h3]; exact BitVec.or_zero.symm
    _ = a &&& (m ||| 3) := by ext i; simp [Bool.and_or_distrib_left]
    _ = a := by rw [hm]; exact BitVec.and_allOnes

/-- An address of an instruction is kept whole. -/
theorem legal_aligned {a : Word} (c : Csr) (ha : a.toNat % 4 = 0) : legal c a = a := by
  cases c <;> first | rfl | exact masked ha (by decide)

theorem legal_sepc (a : Word) : (legal .sepc a).toNat % 4 = 0 := by
  have h : (legal .sepc a) &&& 3 = 0 := by
    change a &&& 0xFFFFFFFC &&& 3 = 0
    rw [BitVec.and_assoc]
    exact BitVec.and_zero
  have hnat := congrArg BitVec.toNat h
  rw [BitVec.toNat_and] at hnat
  exact (Nat.and_two_pow_sub_one_eq_mod _ 2).symm.trans hnat

theorem legal_sepc_iff {a : Word} : legal .sepc a = a ↔ a.toNat % 4 = 0 :=
  ⟨fun h => h ▸ legal_sepc a, legal_aligned .sepc⟩

namespace Linked

variable {S : Type} {text : List (Instr S)} {start : S → Option Nat}

def inC (k : Linked text start) (call : Calls S) (s t : State) : Prop :=
  ∃ f, start f = none ∧ s.pc = k.im.addr f ∧ call f s t

abbrev Path (k : Linked text start) (call : Calls S) : State → State → Prop :=
  k.im.Path (k.inC call)

/-! ## Runs, block by block -/

section

variable {k : Linked text start} {call : Calls S} {out : State → State → Prop} {s t u : State}
  {d : Data} {i : Nat} {l : S} {ins : Instr S}

theorem get (k : Linked text start) (h : text[i]? = some ins) : k.im.text[i]? = some ins := by
  rw [k.text_eq]
  exact h

theorem path_line (blk : List (Instr S)) (j : Nat) (h : k.im.Path out ⟨k.im.loc i, d⟩ t)
    (ht : k.im.Stop t) (hb : blk <+: text.drop i) (hs : blk.all Instr.straight = true)
    (hj : j = i + blk.length) : k.im.Path out ⟨k.im.loc j, line k.im.addr blk d⟩ t := by
  subst hj
  exact path_block blk h ht (by rw [k.text_eq]; exact hb) (List.all_eq_true.mp hs)

theorem path_goes (h : k.im.Path out ⟨k.im.loc i, d⟩ t) (ht : k.im.Stop t)
    (hi : text[i]? = some ins) (hl : ins.leaves = false) :
    k.im.Path out (k.im.exec i ins d) t :=
  path_text h ht (k.get hi) hl

/-- A branch that goes to `pc`. -/
theorem path_branch {pc : Word} (h : k.im.Path out ⟨k.im.loc i, d⟩ t) (ht : k.im.Stop t)
    (hi : text[i]? = some ins) (hl : ins.leaves = false)
    (hact : act k.im.addr (k.im.loc (i + 1)) ins d = d)
    (hgoes : goes k.im.addr (k.im.loc (i + 1)) ins d = pc) : k.im.Path out ⟨pc, d⟩ t := by
  have := path_goes h ht hi hl
  unfold Image.exec at this
  rw [hact, hgoes] at this
  exact this

theorem path_jump {j : Nat} (h : k.im.Path out ⟨k.im.loc i, d⟩ t) (ht : k.im.Stop t)
    (hi : text[i]? = some (.j l)) (hl : start l = some j) : k.im.Path out ⟨k.im.loc j, d⟩ t := by
  have := path_goes h ht hi rfl
  rw [← k.labels l j hl]
  exact this

/-- A run from a call of C code stops there, or goes on after it. -/
theorem path_call (h : k.Path call ⟨k.im.addr l, d⟩ t) (hl : start l = none) :
    t = ⟨k.im.addr l, d⟩ ∨ ∃ u, call l ⟨k.im.addr l, d⟩ u ∧ k.Path call u t := by
  rcases path_outside h (k.outside l hl) with rfl | ⟨u, ⟨f, hf, hpc, hcall⟩, hu⟩
  · exact .inl rfl
  · have hfl := k.distinct l f hl hf hpc
    subst hfl
    exact .inr ⟨u, hcall, hu⟩

/-- By the convention a call comes back to where `ra` points. -/
theorem path_back (hc : Convention call) (h : k.Path call ⟨k.im.addr l, d⟩ t)
    (hl : start l = none) (hra : d.get .ra = k.im.loc i) :
    t = ⟨k.im.addr l, d⟩ ∨ ∃ e, call l ⟨k.im.addr l, d⟩ ⟨k.im.loc i, e⟩ ∧
      k.Path call ⟨k.im.loc i, e⟩ t := by
  rcases path_call h hl with h | ⟨⟨pc, e⟩, hcall, hu⟩
  · exact .inl h
  · have hpc : pc = d.get .ra := hc.returns hcall
    rw [hra] at hpc
    subst hpc
    exact .inr ⟨e, hcall, hu⟩

theorem path_return (h : k.im.Path out ⟨k.im.loc i, d⟩ t) (hi : text[i]? = some ins)
    (hl : ins.leaves = true) : t = ⟨k.im.loc i, d⟩ :=
  path_leaves h (k.get hi) hl

/-! ## Runs, put together -/

theorem runs_goes (hi : text[i]? = some ins) (hl : ins.leaves = false) :
    k.im.Path out ⟨k.im.loc i, d⟩ (k.im.exec i ins d) :=
  runs_text (k.get hi) hl

theorem runs_line (blk : List (Instr S)) (j : Nat) (hb : blk <+: text.drop i)
    (hs : blk.all Instr.straight = true) (hj : j = i + blk.length) :
    k.im.Path out ⟨k.im.loc i, d⟩ ⟨k.im.loc j, line k.im.addr blk d⟩ := by
  subst hj
  exact runs_block blk (by rw [k.text_eq]; exact hb) (List.all_eq_true.mp hs)

/-- One instruction that goes to `pc`. -/
theorem runs_one {pc : Word} {e : Data} (hi : text[i]? = some ins) (hl : ins.leaves = false)
    (hact : act k.im.addr (k.im.loc (i + 1)) ins d = e)
    (hgoes : goes k.im.addr (k.im.loc (i + 1)) ins d = pc) :
    k.im.Path out ⟨k.im.loc i, d⟩ ⟨pc, e⟩ :=
  runs_to (k.get hi) hl hact hgoes

theorem runs_jump {j : Nat} (hi : text[i]? = some (.j l)) (hl : start l = some j) :
    k.im.Path out ⟨k.im.loc i, d⟩ ⟨k.im.loc j, d⟩ := by
  rw [← k.labels l j hl]
  exact runs_goes hi rfl

theorem runs_call (hl : start l = none) (h : call l ⟨k.im.addr l, d⟩ u) :
    k.Path call ⟨k.im.addr l, d⟩ u :=
  .single (.outside (k.outside l hl) ⟨l, hl, rfl, h⟩)

/-- C code is not at a return from a trap. -/
theorem not_left (k : Linked text start) (hl : start l = none) :
    ¬ k.im.Left ⟨k.im.addr l, d⟩ := by
  rintro ⟨i, ins, hf, -⟩
  rw [k.outside l hl] at hf
  cases hf

theorem left_of (k : Linked text start) (hi : text[i]? = some ins) (hl : ins.leaves = true) :
    k.im.Left ⟨k.im.loc i, d⟩ := by
  obtain ⟨hlt, -⟩ := List.getElem?_eq_some_iff.mp (k.get hi)
  exact ⟨i, ins, fetch_loc k.im hlt, k.get hi, hl⟩

end

/-! ## A text in one piece -/

def place (base : Word) (i : Nat) : Word := base + BitVec.ofNat 32 (4 * i)

theorem place_toNat (base : Word) (i : Nat) :
    (place base i).toNat = (base.toNat + 4 * i) % 2 ^ 32 := by
  unfold place
  rw [BitVec.toNat_add, BitVec.toNat_ofNat]
  omega

/-- The text from `base` on, and everything else behind it. -/
def placed (text : List (Instr S)) (start : S → Option Nat) (base : Word) (far : S → Word)
    (hbase : base.toNat % 4 = 0) (hroom : base.toNat + 4 * text.length ≤ 2 ^ 32)
    (hfar : ∀ f, start f = none →
      base.toNat + 4 * text.length ≤ (far f).toNat ∧ (far f).toNat % 4 = 0)
    (hinj : ∀ f g, far f = far g → f = g) : Linked text start where
  im :=
    { text := text
      loc := place base
      addr := fun l => (start l).elim (far l) (place base)
      loc_inj := by
        intro i j hi hj h
        have h := congrArg BitVec.toNat h
        rw [place_toNat, place_toNat] at h
        omega }
  text_eq := rfl
  labels := by
    intro l i h
    dsimp only
    rw [h]
    rfl
  outside := by
    intro f hf
    unfold Image.fetch
    rw [List.find?_eq_none]
    intro i hi
    have hi := List.mem_range.mp hi
    have hf' := (hfar f hf).1
    dsimp only at hi ⊢
    rw [hf, beq_iff_eq]
    intro h
    have h := congrArg BitVec.toNat h
    rw [place_toNat] at h
    dsimp only [Option.elim_none] at h
    omega
  words := by
    intro i
    rw [place_toNat]
    omega
  aligned := by
    intro l
    dsimp only
    cases hl : start l with
    | none => exact (hfar l hl).2
    | some i =>
      rw [Option.elim_some, place_toNat]
      omega
  distinct := by
    intro f g hf hg h
    dsimp only at h
    rw [hf, hg] at h
    exact hinj f g h

end Linked

end os_workshop.rv32
