-- Numbers and their digits in a base, the most significant digit first, as they are
-- printed and read. A number has one numeral, and zeros in front of it do not count.
import Mathlib.Data.Nat.Digits.Lemmas

namespace os_workshop.numerals

/-- The digits of `n`, of which there is at least one. -/
def numeral (b n : Nat) : List Nat := if n = 0 then [0] else (Nat.digits b n).reverse

/-- The value of the digits behind the value `v`. -/
def horner {α : Type*} [Semiring α] (b : α) (v : α) (ds : List Nat) : α :=
  ds.foldl (fun (v : α) (d : Nat) => v * b + (d : α)) v

section

variable {b n : Nat}

theorem numeral_of_lt (h : n < b) : numeral b n = [n] := by
  unfold numeral
  split
  · simp_all
  · rw [Nat.digits_of_lt b n (by assumption) h, List.reverse_singleton]

theorem numeral_of_le (hb : 1 < b) (h : b ≤ n) : numeral b n = numeral b (n / b) ++ [n % b] := by
  have hn : n ≠ 0 := by omega
  have hdiv : n / b ≠ 0 := (Nat.div_pos h (by omega)).ne'
  unfold numeral
  rw [if_neg hn, if_neg hdiv, Nat.digits_eq_cons_digits_div hb hn, List.reverse_cons]

theorem numeral_ne_nil (b n : Nat) : numeral b n ≠ [] := by
  unfold numeral
  split
  · simp
  · simp [Nat.digits_ne_nil_iff_ne_zero, *]

theorem digit_lt (hb : 1 < b) {d : Nat} (h : d ∈ numeral b n) : d < b := by
  unfold numeral at h
  split at h
  · simp_all
    omega
  · rw [List.mem_reverse] at h
    exact Nat.digits_lt_base hb h

/-- Only zero has a numeral that starts with a zero. -/
theorem numeral_head (hn : n ≠ 0) : ∃ d ds, numeral b n = d :: ds ∧ d ≠ 0 := by
  have hne := @Nat.digits_ne_nil_iff_ne_zero b n |>.mpr hn
  have hlast := Nat.getLast_digit_ne_zero b hn
  unfold numeral
  rw [if_neg hn]
  refine ⟨(b.digits n).getLast hne, (b.digits n).dropLast.reverse, ?_, hlast⟩
  conv_lhs => rw [← List.dropLast_append_getLast hne]
  simp

theorem numeral_length_le {k : Nat} (hb : 1 < b) (hk : 0 < k) (h : n < b ^ k) :
    (numeral b n).length ≤ k := by
  unfold numeral
  split
  · exact hk
  · rw [List.length_reverse]
    exact (Nat.digits_length_le_iff hb n).mpr h

end

section

variable {α : Type*} [Semiring α] (b v : α)

@[simp] theorem horner_nil : horner b v [] = v := rfl

@[simp] theorem horner_cons (d : Nat) (ds : List Nat) :
    horner b v (d :: ds) = horner b (v * b + d) ds := rfl

@[simp] theorem horner_append (ds ds' : List Nat) :
    horner b v (ds ++ ds') = horner b (horner b v ds) ds' := List.foldl_append ..

theorem horner_zeros (k : Nat) : horner b 0 (List.replicate k 0) = 0 := by
  induction k with
  | zero => rfl
  | succ k ih => simpa [List.replicate_succ] using ih

end

/-- Digits are read as they were written. -/
theorem horner_numeral {b : Nat} (hb : 1 < b) (n : Nat) : horner b 0 (numeral b n) = n := by
  induction n using Nat.strong_induction_on with
  | _ n ih =>
    by_cases h : n < b
    · simp [numeral_of_lt h]
    · have hdiv : n / b < n := Nat.div_lt_self (by omega) hb
      rw [numeral_of_le hb (by omega), horner_append, ih _ hdiv]
      simp [Nat.div_add_mod']

theorem le_horner {b : Nat} (hb : 0 < b) (v : Nat) (ds : List Nat) : v ≤ horner b v ds := by
  induction ds generalizing v with
  | nil => exact Nat.le_refl v
  | cons d ds ih =>
    refine le_trans ?_ (ih _)
    calc v ≤ v * b := Nat.le_mul_of_pos_right v hb
      _ ≤ v * b + d := Nat.le_add_right ..

end os_workshop.numerals
