-- A 32-bit memory of bytes. A read after a write gives the bytes of the
-- write inside its range and the old bytes outside, also when a range wraps
-- at the top of the address space.
import Mathlib

namespace os_workshop.memory

abbrev Byte := BitVec 8
abbrev Word := BitVec 32

/-- The byte at every address. -/
abbrev Mem := Word → Byte

/-! ## Bytes -/

/-- How far `x` stands after `a`, counted upwards with wrap. -/
def dist (a x : Word) : Nat := (x - a).toNat

/-- The memory with the bytes of `bs` at `a` and upwards. -/
def write (m : Mem) (a : Word) (bs : List Byte) : Mem :=
  fun x => bs[dist a x]?.getD (m x)

/-- The memory with `n` bytes of `v` at `a` and upwards. -/
def fill (m : Mem) (a : Word) (v : Byte) (n : Nat) : Mem :=
  fun x => if dist a x < n then v else m x

/-- The `n` bytes at `a` and upwards. -/
def read (m : Mem) (a : Word) (n : Nat) : List Byte :=
  (List.range n).map fun i => m (a + BitVec.ofNat 32 i)

@[simp] theorem dist_self (a : Word) : dist a a = 0 := by simp [dist]

theorem dist_add (a : Word) (i : Nat) (h : i < 2 ^ 32) : dist a (a + BitVec.ofNat 32 i) = i := by
  unfold dist
  bv_omega

/-- Above `a` the distance is the difference of the numbers. -/
theorem dist_of_le {a x : Word} (h : a.toNat ≤ x.toNat) : dist a x = x.toNat - a.toNat := by
  unfold dist
  bv_omega

/-- Below `a` the distance goes round the top of the address space. -/
theorem dist_of_lt {a x : Word} (h : x.toNat < a.toNat) :
    dist a x = 2 ^ 32 - (a.toNat - x.toNat) := by
  unfold dist
  bv_omega

theorem write_in (m : Mem) (a x : Word) (bs : List Byte) (h : dist a x < bs.length) :
    write m a bs x = bs[dist a x] := by
  simp [write, h]

theorem write_out (m : Mem) (a x : Word) (bs : List Byte) (h : bs.length ≤ dist a x) :
    write m a bs x = m x := by
  simp [write, List.getElem?_eq_none h]

theorem fill_in (m : Mem) (a x : Word) (v : Byte) (n : Nat) (h : dist a x < n) :
    fill m a v n x = v := by
  simp [fill, h]

theorem fill_out (m : Mem) (a x : Word) (v : Byte) (n : Nat) (h : n ≤ dist a x) :
    fill m a v n x = m x := by
  simp [fill, Nat.not_lt.mpr h]

@[simp] theorem read_length (m : Mem) (a : Word) (n : Nat) : (read m a n).length = n := by
  simp [read]

theorem read_get (m : Mem) (a : Word) (n i : Nat) (h : i < (read m a n).length) :
    (read m a n)[i] = m (a + BitVec.ofNat 32 i) := by
  simp [read]

/-! ## Words

A word stands in memory with its low byte first. -/

def le32 (v : Word) : List Byte :=
  [v.extractLsb' 0 8, v.extractLsb' 8 8, v.extractLsb' 16 8, v.extractLsb' 24 8]

/-- The word of four bytes, the low byte first. -/
def word (b0 b1 b2 b3 : Byte) : Word := b3 ++ b2 ++ b1 ++ b0

def ld32 (m : Mem) (a : Word) : Word := word (m a) (m (a + 1)) (m (a + 2)) (m (a + 3))

def st32 (m : Mem) (a v : Word) : Mem := write m a (le32 v)

@[simp] theorem le32_length (v : Word) : (le32 v).length = 4 := rfl

theorem word_le32 (v : Word) :
    word (v.extractLsb' 0 8) (v.extractLsb' 8 8) (v.extractLsb' 16 8) (v.extractLsb' 24 8) = v := by
  unfold word
  ext i hi
  simp only [BitVec.getElem_append, BitVec.getElem_extractLsb']
  split
  · simp [BitVec.getLsbD_eq_getElem, hi]
  · split
    · rw [show 8 + (i - 8) = i by omega]; simp [BitVec.getLsbD_eq_getElem, hi]
    · split
      · rw [show 16 + (i - 8 - 8) = i by omega]; simp [BitVec.getLsbD_eq_getElem, hi]
      · rw [show 24 + (i - 8 - 8 - 8) = i by omega]; simp [BitVec.getLsbD_eq_getElem, hi]

theorem ld32_st32_same (m : Mem) (a v : Word) : ld32 (st32 m a v) a = v := by
  have h1 : dist a (a + 1) = 1 := dist_add a 1 (by norm_num)
  have h2 : dist a (a + 2) = 2 := dist_add a 2 (by norm_num)
  have h3 : dist a (a + 3) = 3 := dist_add a 3 (by norm_num)
  have h0 : dist a a = 0 := dist_self a
  unfold ld32 st32 write le32
  simp only [h0, h1, h2, h3]
  exact word_le32 v

/-- Two words stand apart when neither starts inside the other. -/
def Apart (a b : Word) : Prop := 4 ≤ dist a b ∧ 4 ≤ dist b a

theorem Apart.symm {a b : Word} (h : Apart a b) : Apart b a := ⟨h.2, h.1⟩

theorem ld32_st32_apart (m : Mem) (a b v : Word) (h : Apart a b) :
    ld32 (st32 m a v) b = ld32 m b := by
  obtain ⟨h1, h2⟩ := h
  unfold dist at h1 h2
  have hb : ∀ i : Nat, i < 4 → st32 m a v (b + BitVec.ofNat 32 i) = m (b + BitVec.ofNat 32 i) := by
    intro i hi
    apply write_out
    unfold dist
    simp only [le32_length]
    bv_omega
  have e0 := hb 0 (by omega)
  have e1 := hb 1 (by omega)
  have e2 := hb 2 (by omega)
  have e3 := hb 3 (by omega)
  simp only [BitVec.add_zero] at e0 e1 e2 e3
  unfold ld32
  simp only [BitVec.ofNat_eq_ofNat]
  rw [e0, e1, e2, e3]

/-- Two aligned words are the same word, or stand apart. -/
theorem apart_of_aligned {a b : Word} (ha : a.toNat % 4 = 0) (hb : b.toNat % 4 = 0)
    (h : a ≠ b) : Apart a b := by
  have hne : a.toNat ≠ b.toNat := fun e => h (BitVec.eq_of_toNat_eq e)
  unfold Apart dist
  constructor <;> bv_omega

/-- Two memories with the same bytes at `a` hold the same word there. -/
theorem ld32_low (m : Mem) (a : Word) : (ld32 m a).setWidth 8 = m a := by
  unfold ld32 word
  ext i hi
  rw [BitVec.getElem_setWidth, BitVec.getLsbD_append, if_pos hi, BitVec.getLsbD_eq_getElem]

theorem ld32_congr (m m' : Mem) (a : Word) (h : ∀ x, dist a x < 4 → m x = m' x) :
    ld32 m a = ld32 m' a := by
  have e : ∀ i : Nat, i < 4 → m (a + BitVec.ofNat 32 i) = m' (a + BitVec.ofNat 32 i) := fun i hi =>
    h _ (by rw [dist_add _ _ (by omega)]; exact hi)
  have e0 := e 0 (by omega)
  have e1 := e 1 (by omega)
  have e2 := e 2 (by omega)
  have e3 := e 3 (by omega)
  simp only [BitVec.add_zero] at e0 e1 e2 e3
  unfold ld32
  simp only [BitVec.ofNat_eq_ofNat]
  rw [e0, e1, e2, e3]

end os_workshop.memory
