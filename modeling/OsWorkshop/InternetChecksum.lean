-- The one's-complement sum of the 16-bit words of a message, in network
-- byte order and with the low octet first: both are the sum of the words
-- modulo 65535, so one is the other with its two octets swapped.
import OsWorkshop.Octets

open os_workshop.memory (Byte Word)

namespace os_workshop.checksum

/-! ## The sums -/

/-- The words of a message added up, each word with its high octet first. An odd octet
at the end is the high octet of a word. -/
def netSum : List Byte → Nat
  | [] => 0
  | [a] => 256 * a.toNat
  | a :: b :: l => 256 * a.toNat + b.toNat + netSum l

/-- The words of a message added up, each word with its low octet first. -/
def leSum : List Byte → Nat
  | [] => 0
  | [a] => a.toNat
  | a :: b :: l => a.toNat + 256 * b.toNat + leSum l

/-- A sum with every carry out of its 16 bits added in again. -/
def fold (n : Nat) : Nat := if n ≤ 65535 then n else fold (n % 65536 + n / 65536)
termination_by n
decreasing_by omega

/-- The two octets of a 16-bit number, swapped. -/
def swap (n : Nat) : Nat := n % 256 * 256 + n / 256

/-! ## The fold keeps the sum modulo 65535 -/

theorem fold_le (n : Nat) : fold n ≤ 65535 := by
  induction n using fold.induct with
  | case1 n h => rw [fold, if_pos h]; exact h
  | case2 n h ih => rw [fold, if_neg h]; exact ih

theorem fold_mod (n : Nat) : fold n % 65535 = n % 65535 := by
  induction n using fold.induct with
  | case1 n h => rw [fold, if_pos h]
  | case2 n h ih => rw [fold, if_neg h, ih]; omega

theorem fold_pos {n : Nat} (hn : 0 < n) : 0 < fold n := by
  induction n using fold.induct with
  | case1 n h => rw [fold, if_pos h]; exact hn
  | case2 n h ih => rw [fold, if_neg h]; apply ih; omega

@[simp] theorem fold_zero : fold 0 = 0 := by simp [fold]

/-- A positive sum folds to the one positive 16-bit number that it is modulo 65535. -/
theorem fold_eq {n m : Nat} (hn : 0 < n) (hm : 0 < m) (hle : m ≤ 65535)
    (h : m % 65535 = n % 65535) : fold n = m := by
  have h1 := fold_mod n
  have h2 := fold_le n
  have h3 := fold_pos hn
  omega

/-- A message verifies when its sum is a positive multiple of 65535. -/
theorem fold_ones {n : Nat} (hn : 0 < n) (h : n % 65535 = 0) : fold n = 0xFFFF :=
  fold_eq hn (by omega) (by omega) (by omega)

/-! ## The byte order does not matter -/

theorem netSum_mod (l : List Byte) : netSum l % 65535 = 256 * leSum l % 65535 := by
  induction l using netSum.induct with
  | case1 => rfl
  | case2 a => simp [netSum, leSum]
  | case3 a b l ih =>
    simp only [netSum, leSum]
    omega

theorem leSum_eq_zero (l : List Byte) : leSum l = 0 ↔ netSum l = 0 := by
  induction l using netSum.induct with
  | case1 => simp [leSum, netSum]
  | case2 a => simp [leSum, netSum]
  | case3 a b l ih =>
    simp only [netSum, leSum]
    omega

/-- Two sums that are each other's with the octets of every word swapped fold to two
numbers that are each other's with their octets swapped. -/
theorem fold_swap {n m : Nat} (h : m % 65535 = 256 * n % 65535) (hz : n = 0 ↔ m = 0) :
    fold m = swap (fold n) := by
  by_cases h0 : n = 0
  · rw [hz.mp h0, h0]
    simp [swap]
  · have h1 := fold_le n
    have h2 := fold_mod n
    have h3 := fold_pos (Nat.pos_of_ne_zero h0)
    unfold swap
    apply fold_eq <;> omega

theorem leSum_append (l r : List Byte) (h : l.length % 2 = 0) :
    leSum (l ++ r) = leSum l + leSum r := by
  induction l using leSum.induct with
  | case1 => simp [leSum]
  | case2 a => simp at h
  | case3 a b l ih =>
    simp only [List.cons_append, leSum]
    rw [ih (by simp at h; omega)]
    omega

/-- A sum takes at most 65535 for each word. -/
theorem leSum_le (l : List Byte) : leSum l ≤ 65535 * ((l.length + 1) / 2) := by
  induction l using leSum.induct with
  | case1 => simp [leSum]
  | case2 a =>
    have := a.isLt
    simp only [leSum, List.length_cons, List.length_nil]
    omega
  | case3 a b l ih =>
    have := a.isLt
    have := b.isLt
    simp only [leSum, List.length_cons]
    omega

end os_workshop.checksum
