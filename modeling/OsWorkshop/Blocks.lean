-- Blocks of memory written one behind the other, and apart.
import OsWorkshop.Memory

namespace os_workshop.memory

/-- No octet of the block of `n` at `a` is in the one of `k` at `b`. -/
def Clear (a : Word) (n : Nat) (b : Word) (k : Nat) : Prop := ∀ x, dist a x < n → k ≤ dist b x

/-- Writes one after the other. -/
def pokes (m : Mem) (ws : List (Word × List Byte)) : Mem := ws.foldl (fun m w => write m w.1 w.2) m

@[simp] theorem pokes_nil (m : Mem) : pokes m [] = m := rfl

@[simp] theorem pokes_append (m : Mem) (ws ws' : List (Word × List Byte)) :
    pokes m (ws ++ ws') = pokes (pokes m ws) ws' := List.foldl_append ..

@[simp] theorem write_nil (m : Mem) (a : Word) : write m a [] = m := by
  funext x
  simp [write]

@[simp] theorem dist_add_both (a x n : Word) : dist (a + n) (x + n) = dist a x := by
  unfold dist
  rw [add_sub_add_right_eq_sub]

@[simp] theorem dist_sub_both (a x n : Word) : dist (a - n) (x - n) = dist a x := by
  unfold dist
  rw [sub_sub_sub_cancel_right]

theorem dist_add_right {a x : Word} {n : Nat} (hn : n < 2 ^ 32) (h : n ≤ dist a x) :
    dist (a + BitVec.ofNat 32 n) x = dist a x - n := by
  unfold dist at *
  bv_omega

theorem dist_add_right_lt {a x : Word} {n : Nat} (hn : n < 2 ^ 32) (h : dist a x < n) :
    2 ^ 32 - n ≤ dist (a + BitVec.ofNat 32 n) x := by
  unfold dist at *
  bv_omega

/-- A block is written in two parts. They may not go round the whole memory. -/
theorem write_append (m : Mem) (a : Word) (bs bs' : List Byte)
    (h : bs.length + bs'.length ≤ 2 ^ 32) :
    write m a (bs ++ bs') = write (write m a bs) (a + BitVec.ofNat 32 bs.length) bs' := by
  rcases Nat.eq_zero_or_pos bs'.length with h0 | hpos
  · rw [List.length_eq_zero_iff.mp h0, List.append_nil, write_nil]
  funext x
  by_cases hx : dist a x < bs.length
  · have hout := dist_add_right_lt (by omega) hx
    rw [write_out _ _ _ bs' (by omega)]
    simp [write, List.getElem?_append_left hx]
  · have hx := Nat.not_lt.mp hx
    have hin := dist_add_right (by omega) hx
    simp only [write, List.getElem?_append_right hx, hin]
    rw [List.getElem?_eq_none hx, Option.getD_none]

theorem write_comm (m : Mem) {a b : Word} {bs bs' : List Byte}
    (h : Clear b bs'.length a bs.length) :
    write (write m a bs) b bs' = write (write m b bs') a bs := by
  funext x
  by_cases hx : dist b x < bs'.length
  · rw [write_in _ _ _ _ hx, write_out _ _ _ _ (h x hx), write_in _ _ _ _ hx]
  · have hx := Nat.not_lt.mp hx
    rw [write_out _ _ _ _ hx]
    by_cases hax : dist a x < bs.length
    · rw [write_in _ _ _ _ hax, write_in _ _ _ _ hax]
    · have hax := Nat.not_lt.mp hax
      rw [write_out _ _ _ _ hax, write_out _ _ _ _ hax, write_out _ _ _ _ hx]

theorem write_over (m : Mem) (a : Word) (b b' : Byte) :
    write (write m a [b]) a [b'] = write m a [b'] := by
  funext x
  by_cases hx : dist a x < 1
  · rw [write_in _ _ _ [b'] hx, write_in _ _ _ [b'] hx]
  · have hx := Nat.not_lt.mp hx
    rw [write_out _ _ _ [b'] hx, write_out _ _ _ [b] hx, write_out _ _ _ [b'] hx]

/-- The last octet of a block is written over. -/
theorem write_last (m : Mem) (a : Word) (bs : List Byte) (n : Nat) (b : Byte) (hn : n < 2 ^ 32)
    (h : bs.length = n + 1) :
    write (write m a bs) (a + BitVec.ofNat 32 n) [b] = write m a (bs.take n ++ [b]) := by
  have hbs : bs = bs.take n ++ [bs[n]] := by
    rw [List.take_append_getElem, ← h, List.take_length]
  have hlen : (bs.take n).length = n := by
    rw [List.length_take]
    omega
  rw [write_append _ _ _ _ (by simp; omega), hlen]
  conv_lhs => rw [hbs, write_append _ _ _ _ (by simp; omega), hlen]
  exact write_over _ _ _ _

/-! ## Blocks that are read, moved and filled -/

theorem read_congr {m m' : Mem} {a : Word} {n : Nat}
    (h : ∀ i < n, m (a + BitVec.ofNat 32 i) = m' (a + BitVec.ofNat 32 i)) :
    read m a n = read m' a n := by
  unfold read
  apply List.map_congr_left
  intro i hi
  exact h i (List.mem_range.mp hi)

theorem read_append (m : Mem) (a : Word) (j k : Nat) :
    read m a (j + k) = read m a j ++ read m (a + BitVec.ofNat 32 j) k := by
  unfold read
  rw [List.range_add, List.map_append, List.map_map]
  congr 1
  apply List.map_congr_left
  intro i _
  simp [BitVec.ofNat_add, BitVec.add_assoc]

/-- A block that was written is read back, with what stands behind it. -/
theorem read_written (m : Mem) (a : Word) (bs : List Byte) (n : Nat) (hle : bs.length ≤ n)
    (hn : n < 2 ^ 32) : ∃ rest, read (write m a bs) a n = bs ++ rest := by
  refine ⟨read (write m a bs) (a + BitVec.ofNat 32 bs.length) (n - bs.length), ?_⟩
  have hfront : read (write m a bs) a bs.length = bs := by
    apply List.ext_getElem (by simp)
    intro i h1 h2
    have hdist := dist_add a i (by omega)
    rw [read_get, write_in _ _ _ _ (by omega)]
    simp only [hdist]
  have hsplit := read_append (write m a bs) a bs.length (n - bs.length)
  rw [Nat.add_sub_cancel' hle, hfront] at hsplit
  exact hsplit

/-- The block of `n` at `s` is put at `d`. -/
def move (m : Mem) (d s : Word) (n : Nat) : Mem := write m d (read m s n)

@[simp] theorem move_zero (m : Mem) (d s : Word) : move m d s 0 = m := write_nil m d

theorem dist_pos {a x : Word} (h : x ≠ a) : 0 < dist a x := by
  unfold dist
  have hne : (x - a).toNat ≠ 0 := fun he => h (by bv_omega)
  omega

/-- Upwards, a block moves in two parts. The first may not reach what the second reads. -/
theorem move_up (m : Mem) {d s : Word} {j k : Nat} (h : dist d s + (j + k) ≤ 2 ^ 32) :
    move (move m d s j) (d + BitVec.ofNat 32 j) (s + BitVec.ofNat 32 j) k = move m d s (j + k) := by
  have hread : read (move m d s j) (s + BitVec.ofNat 32 j) k =
      read m (s + BitVec.ofNat 32 j) k := by
    apply read_congr
    intro i hi
    apply write_out
    rw [read_length]
    unfold dist at *
    bv_omega
  unfold move at *
  rw [hread, read_append, write_append _ _ _ _ (by simp; omega), read_length]

/-- Downwards, the second part goes first. -/
theorem move_down (m : Mem) {d s : Word} {j k : Nat} (h : dist s d + (j + k) ≤ 2 ^ 32)
    (hne : d ≠ s) :
    move (move m (d + BitVec.ofNat 32 j) (s + BitVec.ofNat 32 j) k) d s j = move m d s (j + k) := by
  have hpos : 0 < dist s d := dist_pos hne
  have hread : read (move m (d + BitVec.ofNat 32 j) (s + BitVec.ofNat 32 j) k) s j = read m s j := by
    apply read_congr
    intro i hi
    apply write_out
    rw [read_length]
    unfold dist at *
    bv_omega
  unfold move at *
  rw [hread, read_append, write_append _ _ _ _ (by simp; omega), read_length]
  apply write_comm
  intro x hx
  rw [read_length] at *
  have hout := dist_add_right_lt (by omega) hx
  omega

@[simp] theorem fill_zero (m : Mem) (a : Word) (v : Byte) : fill m a v 0 = m := by
  funext x
  simp [fill]

theorem fill_append (m : Mem) (a : Word) (v : Byte) {j k : Nat} (h : j + k ≤ 2 ^ 32) :
    fill (fill m a v j) (a + BitVec.ofNat 32 j) v k = fill m a v (j + k) := by
  rcases Nat.eq_zero_or_pos k with rfl | hk
  · funext x
    simp [fill]
  funext x
  by_cases hx : dist a x < j
  · have hout := dist_add_right_lt (by omega) hx
    rw [fill_out _ _ _ _ _ (by omega), fill_in _ _ _ _ _ hx, fill_in _ _ _ _ _ (by omega)]
  · have hx := Nat.not_lt.mp hx
    have hin := dist_add_right (by omega) hx
    by_cases hk : dist a x < j + k
    · rw [fill_in _ _ _ _ _ (by omega), fill_in _ _ _ _ _ hk]
    · rw [fill_out _ _ _ _ _ (by omega), fill_out _ _ _ _ _ hx, fill_out _ _ _ _ _ (by omega)]

end os_workshop.memory
