-- Octet buffers of C code: an overlay of octets on a buffer, the part of a
-- buffer or of a message at an offset, and numbers in network byte order.
import OsWorkshop.Memory

open os_workshop.memory (Byte Word)

namespace os_workshop.octets

/-- What stands at every offset of a buffer. -/
abbrev Octets := Nat → Byte

/-- The `n` octets of a buffer at `off`. -/
def slice (b : Octets) (off n : Nat) : List Byte := (List.range n).map fun i => b (off + i)

/-- The buffer with the octets `bs` at `off`. -/
def overlay (b : Octets) (off : Nat) (bs : List Byte) : Octets :=
  fun i => if off ≤ i then bs[i - off]?.getD (b i) else b i

/-- The `n` octets of a message at `off`. -/
def part (l : List Byte) (off n : Nat) : List Byte := (l.drop off).take n

/-! ## Slices and overlays -/

@[simp] theorem slice_length (b : Octets) (off n : Nat) : (slice b off n).length = n := by
  simp [slice]

theorem slice_get (b : Octets) (off n i : Nat) (h : i < (slice b off n).length) :
    (slice b off n)[i] = b (off + i) := by
  simp [slice]

@[simp] theorem slice_zero (b : Octets) (off : Nat) : slice b off 0 = [] := rfl

theorem slice_append (b : Octets) (off m n : Nat) :
    slice b off (m + n) = slice b off m ++ slice b (off + m) n := by
  simp [slice, List.range_add, List.map_append, Nat.add_assoc]

theorem slice_congr (b c : Octets) (off n : Nat) (h : ∀ i, off ≤ i → i < off + n → b i = c i) :
    slice b off n = slice c off n := by
  apply List.ext_getElem (by simp)
  intro i hi _
  rw [slice_length] at hi
  rw [slice_get, slice_get]
  exact h _ (by omega) (by omega)

theorem overlay_in (b : Octets) (off i : Nat) (bs : List Byte) (h1 : off ≤ i)
    (h2 : i - off < bs.length) : overlay b off bs i = bs[i - off] := by
  simp [overlay, h1, h2]

theorem overlay_out (b : Octets) (off i : Nat) (bs : List Byte)
    (h : i < off ∨ off + bs.length ≤ i) : overlay b off bs i = b i := by
  unfold overlay
  split
  · rw [List.getElem?_eq_none (by omega)]
    rfl
  · rfl

theorem slice_overlay_same (b : Octets) (off n : Nat) (bs : List Byte) (h : n = bs.length) :
    slice (overlay b off bs) off n = bs := by
  apply List.ext_getElem (by simp [h])
  intro i h1 h2
  rw [slice_get, overlay_in _ _ _ _ (by omega) (by omega)]
  simp

/-- An overlay leaves the octets before it and after it. -/
theorem slice_overlay_apart (b : Octets) (at' off n : Nat) (bs : List Byte)
    (h : off + n ≤ at' ∨ at' + bs.length ≤ off) :
    slice (overlay b at' bs) off n = slice b off n := by
  apply slice_congr
  intro i h1 h2
  exact overlay_out _ _ _ _ (by omega)

/-! ## Parts of a message -/

theorem part_length (l : List Byte) (off n : Nat) (h : off + n ≤ l.length) :
    (part l off n).length = n := by
  unfold part
  rw [List.length_take, List.length_drop]
  omega

/-- A slice inside a slice is a part of it. -/
theorem part_slice (b : Octets) (base len off n : Nat) (h : off + n ≤ len) :
    part (slice b base len) off n = slice b (base + off) n := by
  have e1 : len = off + (n + (len - off - n)) := by omega
  unfold part
  rw [e1, slice_append, List.drop_left' (by simp), slice_append, List.take_left' (by simp)]

@[simp] theorem part_left (l r : List Byte) (off n : Nat) (h : off + n ≤ l.length) :
    part (l ++ r) off n = part l off n := by
  unfold part
  rw [List.drop_append_of_le_length (by omega), List.take_append_of_le_length]
  rw [List.length_drop]
  omega

theorem part_right (l r : List Byte) (off n : Nat) (h : l.length ≤ off) :
    part (l ++ r) off n = part r (off - l.length) n := by
  unfold part
  rw [List.drop_append, List.drop_eq_nil_of_le h, List.nil_append]

theorem part_mid (a b c : List Byte) (off n : Nat) (h1 : a.length = off) (h2 : b.length = n) :
    part (a ++ (b ++ c)) off n = b := by
  unfold part
  rw [List.drop_left' h1, List.take_left' h2]

theorem part_add (l : List Byte) (off m n : Nat) :
    part l off (m + n) = part l off m ++ part l (off + m) n := by
  unfold part
  rw [List.take_add, List.drop_drop]

theorem part_all (l : List Byte) (n : Nat) (h : n = l.length) : part l 0 n = l := by
  simp [part, h]

/-! ## Numbers -/

/-- The 16 bits of two octets, the low octet first. -/
def le16 (v : BitVec 16) : List Byte := [v.extractLsb' 0 8, v.extractLsb' 8 8]

/-- The 16 bits with their two octets swapped. -/
def swap16 (v : BitVec 16) : BitVec 16 := v.extractLsb' 0 8 ++ v.extractLsb' 8 8

/-- The 16 bits of two octets, the high octet first. -/
def be16 (v : BitVec 16) : List Byte := [v.extractLsb' 8 8, v.extractLsb' 0 8]

/-- The 32 bits of four octets, the high octet first. -/
def be32 (v : Word) : List Byte :=
  [v.extractLsb' 24 8, v.extractLsb' 16 8, v.extractLsb' 8 8, v.extractLsb' 0 8]

@[simp] theorem be32_length (v : Word) : (be32 v).length = 4 := rfl

@[simp] theorem le16_length (v : BitVec 16) : (le16 v).length = 2 := rfl

@[simp] theorem be16_length (v : BitVec 16) : (be16 v).length = 2 := rfl

theorem toNat_octets (hi lo : Byte) : (hi ++ lo : BitVec 16).toNat = 256 * hi.toNat + lo.toNat := by
  have hlo := lo.isLt
  rw [BitVec.toNat_append, Nat.shiftLeft_eq, Nat.mul_comm, ← Nat.two_pow_add_eq_or_of_lt hlo]

theorem be16_append (v : BitVec 16) : v.extractLsb' 8 8 ++ v.extractLsb' 0 8 = v :=
  BitVec.extractLsb'_append_extractLsb'

@[simp] theorem swap16_append (hi lo : Byte) : swap16 (hi ++ lo) = lo ++ hi := by
  unfold swap16
  congr 1
  · exact BitVec.extractLsb'_append_eq_right
  · exact BitVec.extractLsb'_append_eq_left

theorem append_inj_iff {a b c d : Byte} : a ++ b = c ++ d ↔ a = c ∧ b = d := by
  constructor
  · intro h
    have hhi := congrArg (BitVec.extractLsb' 8 8) h
    have hlo := congrArg (BitVec.extractLsb' 0 8) h
    rw [BitVec.extractLsb'_append_eq_left, BitVec.extractLsb'_append_eq_left] at hhi
    rw [BitVec.extractLsb'_append_eq_right, BitVec.extractLsb'_append_eq_right] at hlo
    exact ⟨hhi, hlo⟩
  · rintro ⟨rfl, rfl⟩
    rfl

end os_workshop.octets
