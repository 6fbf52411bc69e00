-- The pixel buffer of a surface in memory: an array of 16-bit entries, row by
-- row. A store of `plot16` changes one entry of it and nothing else, so what a
-- list of stores leaves in memory is a picture over the old contents.
import OsWorkshop.Gfx

open os_workshop.memory (Byte Word Mem write write_out)

namespace os_workshop.gfx

/-! ## Stores of 16 bits -/

/-- The low byte stands first. -/
def le16 (v : BitVec 16) : List Byte := [v.extractLsb' 0 8, v.extractLsb' 8 8]

/-- The memory after the stores, made in turn. -/
def draw (m : Mem) (stores : List Store) : Mem :=
  stores.foldl (fun m s => write m s.1 (le16 s.2)) m

/-- The 16 bits at `a`. -/
def ld16 (m : Mem) (a : Word) : BitVec 16 := m (a + 1) ++ m a

theorem draw_append (m : Mem) (ss ts : List Store) :
    draw m (ss ++ ts) = draw (draw m ss) ts := List.foldl_append

theorem ld16_write_same (m : Mem) (a : Word) (v : BitVec 16) :
    ld16 (write m a (le16 v)) a = v := by
  have h1 : memory.dist a (a + 1#32) = 1 := memory.dist_add a 1 (by norm_num)
  have hlo : write m a (le16 v) a = v.extractLsb' 0 8 := by simp [write, le16]
  have hhi : write m a (le16 v) (a + 1) = v.extractLsb' 8 8 := by simp [write, le16, h1]
  unfold ld16
  rw [hlo, hhi]
  ext i hi
  rw [BitVec.getElem_append]
  by_cases h : i < 8
  · simp [h, BitVec.getLsbD_eq_getElem, hi]
  · have e : 8 + (i - 8) = i := by omega
    simp [h, e, BitVec.getLsbD_eq_getElem, hi]

theorem ld16_write_apart (m : Mem) (a b : Word) (v : BitVec 16) (h1 : 2 ≤ memory.dist a b)
    (h2 : 2 ≤ memory.dist b a) : ld16 (write m a (le16 v)) b = ld16 m b := by
  have hb : write m a (le16 v) b = m b := write_out _ _ _ _ h1
  have hb1 : write m a (le16 v) (b + 1) = m (b + 1) := by
    apply write_out
    show 2 ≤ _
    unfold memory.dist at *
    bv_omega
  unfold ld16
  rw [hb, hb1]

/-! ## The entries of the buffer -/

/-- The surface has a buffer of `stride * height` entries in memory. The address behind
its last entry is one too. -/
structure Buffered (gs : Surface) : Prop where
  width : gs.width.toNat ≤ gs.stride.toNat
  fits : gs.pixels.toNat + 2 * (gs.stride.toNat * gs.height.toNat) < 2 ^ 32

/-- Where the entry of column `x` and row `y` is. -/
def entry (gs : Surface) (x y : Nat) : Word :=
  gs.pixels + 2 * (BitVec.ofNat 32 x + BitVec.ofNat 32 y * gs.stride)

/-- The pixel that a memory shows at column `x` and row `y`. -/
def pixel (gs : Surface) (m : Mem) (x y : Nat) : BitVec 16 := ld16 m (entry gs x y)

/-- The byte at `a` is no part of the buffer. -/
def OffBuffer (gs : Surface) (a : Word) : Prop :=
  2 * (gs.stride.toNat * gs.height.toNat) ≤ memory.dist gs.pixels a

section

variable {gs : Surface} {x y x' y' : Nat}

/-- The index of an entry in the buffer. -/
theorem index_lt (hx : x < gs.stride.toNat) (hy : y < gs.height.toNat) :
    x + y * gs.stride.toNat < gs.stride.toNat * gs.height.toNat := by
  have h : (y + 1) * gs.stride.toNat ≤ gs.height.toNat * gs.stride.toNat :=
    Nat.mul_le_mul_right _ hy
  rw [Nat.mul_comm gs.stride.toNat]
  linarith

/-- In rows of `n`, an index has one column and one row. -/
theorem index_inj {n : Nat} (hx : x < n) (hx' : x' < n) (h : x + y * n = x' + y' * n) :
    x = x' ∧ y = y' := by
  have hs : 0 < n := by omega
  constructor
  · have e := congrArg (· % n) h
    simp only [Nat.add_mul_mod_self_right, Nat.mod_eq_of_lt hx, Nat.mod_eq_of_lt hx'] at e
    exact e
  · have e := congrArg (· / n) h
    simp only [Nat.add_mul_div_right _ _ hs, Nat.div_eq_of_lt hx, Nat.div_eq_of_lt hx',
      Nat.zero_add] at e
    exact e

theorem entry_toNat (hb : Buffered gs) (hx : x < gs.stride.toNat) (hy : y < gs.height.toNat) :
    (entry gs x y).toNat = gs.pixels.toNat + 2 * (x + y * gs.stride.toNat) := by
  have hi := index_lt hx hy
  have hf := hb.fits
  have hle : y * gs.stride.toNat ≤ x + y * gs.stride.toNat := Nat.le_add_left ..
  unfold entry
  simp only [BitVec.toNat_add, BitVec.toNat_mul, BitVec.toNat_ofNat]
  rw [Nat.mod_eq_of_lt (show x < 2 ^ 32 by omega), Nat.mod_eq_of_lt (show y < 2 ^ 32 by omega),
    Nat.mod_eq_of_lt (show y * gs.stride.toNat < 2 ^ 32 by omega),
    Nat.mod_eq_of_lt (show x + y * gs.stride.toNat < 2 ^ 32 by omega)]
  show (_ + 2 * _ % _) % _ = _
  omega

theorem entries_apart (hb : Buffered gs) (hx : x < gs.stride.toNat) (hy : y < gs.height.toNat)
    (hx' : x' < gs.stride.toNat) (hy' : y' < gs.height.toNat) (hne : ¬ (x = x' ∧ y = y')) :
    2 ≤ memory.dist (entry gs x y) (entry gs x' y') := by
  have h := entry_toNat hb hx hy
  have h' := entry_toNat hb hx' hy'
  have hi : x + y * gs.stride.toNat ≠ x' + y' * gs.stride.toNat :=
    fun e => hne (index_inj hx hx' e)
  have hl := index_lt hx hy
  have hl' := index_lt hx' hy'
  have hf := hb.fits
  unfold memory.dist
  bv_omega

theorem off_buffer_apart (hb : Buffered gs) (hx : x < gs.stride.toNat) (hy : y < gs.height.toNat)
    {a : Word} (ha : OffBuffer gs a) : 2 ≤ memory.dist (entry gs x y) a := by
  have h := entry_toNat hb hx hy
  have hl := index_lt hx hy
  have hf := hb.fits
  unfold OffBuffer memory.dist at *
  bv_omega

/-! ## A pixel plotted -/

/-- On the surface, `plot16` stores to the entry of its pixel. -/
theorem plot16_on (pxl : Word) (hx : x < gs.width.toNat) (hy : y < gs.height.toNat) :
    plot16 gs (BitVec.ofNat 32 x) (BitVec.ofNat 32 y) pxl =
      [(entry gs x y, pxl.setWidth 16)] := by
  have hw := gs.width.isLt
  have hh := gs.height.isLt
  apply if_neg
  rw [BitVec.le_def, BitVec.le_def, BitVec.toNat_ofNat, BitVec.toNat_ofNat,
    Nat.mod_eq_of_lt (by omega), Nat.mod_eq_of_lt (by omega)]
  omega

theorem plot16_off (pxl : Word) (hx : x < 2 ^ 32) (hy : y < 2 ^ 32)
    (h : gs.width.toNat ≤ x ∨ gs.height.toNat ≤ y) :
    plot16 gs (BitVec.ofNat 32 x) (BitVec.ofNat 32 y) pxl = [] := by
  apply if_pos
  rw [BitVec.le_def, BitVec.le_def, BitVec.toNat_ofNat, BitVec.toNat_ofNat, Nat.mod_eq_of_lt hx,
    Nat.mod_eq_of_lt hy]
  exact h

/-! ## Pictures -/

/-- A picture: the pixels that are drawn, and none where the old contents stay. -/
abbrev Picture := Nat → Nat → Option (BitVec 16)

/-- The picture `q` over the picture `p`. -/
def Picture.over (q p : Picture) : Picture := fun x y => q x y <|> p x y

/-- The stores draw the picture: over any memory, the entries of the buffer show it where it
has a pixel and are the old ones elsewhere, and no byte outside the buffer changes. -/
structure Draws (gs : Surface) (stores : List Store) (p : Picture) : Prop where
  entries : ∀ m x y, x < gs.stride.toNat → y < gs.height.toNat →
    pixel gs (draw m stores) x y = (p x y).getD (pixel gs m x y)
  off : ∀ m a, OffBuffer gs a → draw m stores a = m a

variable {ss ts : List Store} {p q : Picture}

theorem Draws.nil : Draws gs [] fun _ _ => none := ⟨fun _ _ _ _ _ => rfl, fun _ _ _ => rfl⟩

/-- What is drawn later lies over what was drawn before. -/
theorem Draws.append (hs : Draws gs ss p) (ht : Draws gs ts q) :
    Draws gs (ss ++ ts) (q.over p) := by
  constructor
  · intro m x y hx hy
    rw [draw_append, ht.entries _ x y hx hy, hs.entries m x y hx hy]
    unfold Picture.over
    cases q x y <;> rfl
  · intro m a ha
    rw [draw_append, ht.off _ a ha, hs.off m a ha]

theorem Draws.congr (hs : Draws gs ss p)
    (h : ∀ x y, x < gs.stride.toNat → y < gs.height.toNat → p x y = q x y) : Draws gs ss q := by
  constructor
  · intro m x y hx hy
    rw [hs.entries m x y hx hy, h x y hx hy]
  · exact hs.off

/-- The picture with the pixels of `P` in the colours of `v`. -/
def area (P : Nat → Nat → Prop) [DecidableRel P] (v : Nat → Nat → BitVec 16) : Picture :=
  fun x y => if P x y then some (v x y) else none

/-- The one pixel at `x`, `y`, if it is on the surface. -/
abbrev Dot (gs : Surface) (x y : Nat) (x' y' : Nat) : Prop :=
  (x' = x ∧ y' = y) ∧ x < gs.width.toNat ∧ y < gs.height.toNat

theorem plot16.spec (hb : Buffered gs) {pxl : Word} {v : Nat → Nat → BitVec 16}
    (hv : pxl.setWidth 16 = v x y) (hx : x < 2 ^ 32) (hy : y < 2 ^ 32) :
    Draws gs (plot16 gs (BitVec.ofNat 32 x) (BitVec.ofNat 32 y) pxl) (area (Dot gs x y) v) := by
  by_cases hin : x < gs.width.toNat ∧ y < gs.height.toNat
  · obtain ⟨hxw, hyh⟩ := hin
    have hxs : x < gs.stride.toNat := lt_of_lt_of_le hxw hb.width
    rw [plot16_on pxl hxw hyh, hv]
    constructor
    · intro m x' y' hx' hy'
      by_cases he : x' = x ∧ y' = y
      · obtain ⟨rfl, rfl⟩ := he
        have hdot : area (Dot gs x' y') v x' y' = some (v x' y') := by
          simp [area, hxw, hyh]
        rw [hdot]
        exact ld16_write_same ..
      · have hdot : area (Dot gs x y) v x' y' = none := by
          apply if_neg
          exact fun h => he h.1
        rw [hdot]
        apply ld16_write_apart
        · exact entries_apart hb hxs hyh hx' hy' fun e => he ⟨e.1.symm, e.2.symm⟩
        · exact entries_apart hb hx' hy' hxs hyh he
    · intro m a ha
      exact write_out _ _ _ _ (off_buffer_apart hb hxs hyh ha)
  · rw [plot16_off pxl hx hy (by omega)]
    apply Draws.nil.congr
    intro x' y' _ _
    exact (if_neg fun h => hin h.2).symm

/-- Areas of one colouring, drawn one after another, draw their union. -/
theorem Draws.flatMap {α : Type} {f : α → List Store} {P : α → Nat → Nat → Prop}
    [∀ i, DecidableRel (P i)] {v : Nat → Nat → BitVec 16} (l : List α)
    (h : ∀ i ∈ l, Draws gs (f i) (area (P i) v)) :
    Draws gs (l.flatMap f) (area (fun x y => ∃ i ∈ l, P i x y) v) := by
  induction l with
  | nil =>
    apply Draws.nil.congr
    intro x y _ _
    simp [area]
  | cons i l ih =>
    have hi := h i List.mem_cons_self
    have hl := ih fun j hj => h j (List.mem_cons_of_mem _ hj)
    rw [List.flatMap_cons]
    apply (hi.append hl).congr
    intro x y _ _
    unfold area Picture.over
    by_cases hi : P i x y <;> by_cases hl : ∃ j ∈ l, P j x y <;> simp [hi, hl]

/-- The area of a picture may be written in another way. -/
theorem Draws.same_area {P Q : Nat → Nat → Prop} [DecidableRel P] [DecidableRel Q]
    {v : Nat → Nat → BitVec 16} (hs : Draws gs ss (area P v))
    (h : ∀ x y, x < gs.stride.toNat → y < gs.height.toNat → (P x y ↔ Q x y)) :
    Draws gs ss (area Q v) := by
  apply hs.congr
  intro x y hx hy
  exact if_congr (h x y hx hy) rfl rfl

end

end os_workshop.gfx
