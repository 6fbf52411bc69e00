-- What several threads do, in one order that keeps the order of each. Of an act that only one
-- thread does, the interleaving has what that thread has.
import Mathlib.Data.List.Basic
import Mathlib.Logic.Function.Basic

namespace os_workshop.interleavings

/-- The threads do `ts`, and all of it together is `ss`. -/
inductive Interleaving {ι α : Type*} [DecidableEq ι] : (ι → List α) → List α → Prop
  | nil : Interleaving (fun _ => []) []
  | cons {ts : ι → List α} {ss : List α} (i : ι) (a : α) :
      Interleaving ts ss → Interleaving (Function.update ts i (a :: ts i)) (a :: ss)

section

variable {ι α : Type*} [DecidableEq ι] {ts : ι → List α} {ss : List α}

theorem Interleaving.filter (h : Interleaving ts ss) (p : α → Bool) (i : ι)
    (hp : ∀ j ≠ i, ∀ a ∈ ts j, p a = false) : ss.filter p = (ts i).filter p := by
  induction h with
  | nil => rfl
  | @cons ts ss j a _ ih =>
    have hothers : ∀ k ≠ i, ∀ b ∈ ts k, p b = false := by
      intro k hk b hb
      apply hp k hk
      by_cases hkj : k = j
      · subst hkj
        simp [hb]
      · simpa [hkj] using hb
    by_cases hji : j = i
    · subst hji
      simp [List.filter_cons, ih hothers]
    · have ha : p a = false := hp j hji a (by simp)
      rw [Function.update_of_ne (Ne.symm hji), List.filter_cons_of_neg (by simp [ha]), ih hothers]

/-- A thread that goes first. -/
theorem Interleaving.first {i : ι} {l : List α} (h : Interleaving (Function.update ts i []) ss)
    (hl : ts i = l) : Interleaving ts (l ++ ss) := by
  induction l generalizing ts with
  | nil =>
    rw [← hl, Function.update_eq_self] at h
    exact h
  | cons a l ih =>
    have hrest : Interleaving (Function.update ts i l) (l ++ ss) :=
      ih (by simpa using h) (by simp)
    have hcons := hrest.cons i a
    rw [Function.update_self, Function.update_idem, ← hl, Function.update_eq_self] at hcons
    exact hcons

/-- The threads one after another. -/
theorem interleaving_of_order (order : List ι) (ts : ι → List α) (hnodup : order.Nodup)
    (hall : ∀ i, i ∉ order → ts i = []) : Interleaving ts (order.flatMap ts) := by
  induction order generalizing ts with
  | nil =>
    obtain rfl : ts = fun _ => [] := funext fun i => hall i List.not_mem_nil
    exact .nil
  | cons i order ih =>
    obtain ⟨hi, hnodup⟩ := List.nodup_cons.mp hnodup
    have hsame : order.flatMap ts = order.flatMap (Function.update ts i []) := by
      apply List.flatMap_congr
      intro j hj
      rw [Function.update_of_ne]
      rintro rfl
      exact hi hj
    rw [List.flatMap_cons, hsame]
    refine Interleaving.first (ih _ hnodup ?_) rfl
    intro j hj
    by_cases hji : j = i
    · simp [hji]
    · rw [Function.update_of_ne hji]
      exact hall j (by simp [hji, hj])

end

end os_workshop.interleavings
