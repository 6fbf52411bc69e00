-- Doubly linked rings: nodes that point at the next and at the previous one.
-- A ring is read as the list of its nodes from one of them on. A node is added
-- before that one, the ring is read from the next one, and a node is taken out.
import Mathlib.Data.List.Nodup
import Mathlib.Data.List.Rotate

namespace os_workshop.linked

section

variable {α : Type*}

/-- From `a` the pointers lead over the nodes of `l` to `b`, and back. -/
def Path (next prev : α → α) (a : α) : List α → α → Prop
  | [], b => next a = b ∧ prev b = a
  | c :: l, b => next a = c ∧ prev c = a ∧ Path next prev c l b

/-- The nodes of a ring, in the order of the pointers. -/
def Ring (next prev : α → α) : List α → Prop
  | [] => False
  | a :: l => (a :: l).Nodup ∧ Path next prev a l a

variable {next prev next' prev' : α → α} {a b c t : α} {l l' : List α}

theorem path_append :
    Path next prev a (l ++ c :: l') b ↔ Path next prev a l c ∧ Path next prev c l' b := by
  induction l generalizing a with
  | nil => simp [Path, and_assoc]
  | cons d l ih => simp [Path, ih, and_assoc]

/-- A path does not depend on the pointers that are not on it. -/
theorem Path.congr (h : Path next prev a l b) (hn : ∀ x ∈ a :: l, next' x = next x)
    (hp : ∀ x ∈ l ++ [b], prev' x = prev x) : Path next' prev' a l b := by
  induction l generalizing a with
  | nil =>
    refine ⟨?_, ?_⟩
    · rw [hn a (by simp)]
      exact h.1
    · rw [hp b (by simp)]
      exact h.2
  | cons d l ih =>
    refine ⟨?_, ?_, ih h.2.2 (fun x hx => hn x (List.mem_cons_of_mem _ hx))
      (fun x hx => hp x (List.mem_cons_of_mem _ hx))⟩
    · rw [hn a (by simp)]
      exact h.1
    · rw [hp d (by simp)]
      exact h.2.1

theorem Ring.congr (h : Ring next prev (a :: l)) (hn : ∀ x ∈ a :: l, next' x = next x)
    (hp : ∀ x ∈ a :: l, prev' x = prev x) : Ring next' prev' (a :: l) := by
  refine ⟨h.1, h.2.congr hn ?_⟩
  intro x hx
  apply hp x
  simpa [or_comm] using hx

theorem Ring.nodup {q : List α} (h : Ring next prev q) : q.Nodup := by
  cases q with
  | nil => exact h.elim
  | cons a l => exact h.1

/-- The node before the first is the last. -/
theorem Ring.prev_mem (h : Ring next prev (a :: l)) : prev a ∈ a :: l := by
  rcases List.eq_nil_or_concat' l with rfl | ⟨l0, z, rfl⟩
  · rw [h.2.2]
    exact List.mem_singleton_self a
  · have hz := (path_append.mp h.2).2
    rw [hz.2]
    simp

theorem Ring.prev_eq_last (h : Ring next prev (a :: l ++ [t])) : prev a = t :=
  (path_append.mp h.2).2.2

theorem Ring.next_mem (h : Ring next prev (a :: l)) : next a ∈ a :: l := by
  cases l with
  | nil =>
    rw [h.2.1]
    exact List.mem_singleton_self a
  | cons b l =>
    rw [h.2.1]
    simp

/-- A node is the next of itself exactly when it is alone. -/
theorem Ring.next_eq_self_iff (h : Ring next prev (a :: l)) : next a = a ↔ l = [] := by
  cases l with
  | nil => simpa using h.2.1
  | cons b l =>
    rw [h.2.1]
    have hab : a ≠ b := fun e => (List.nodup_cons.mp h.1).1 (by simp [e])
    simp [hab.symm]

/-- The ring read from the second node on. -/
theorem Ring.rotate (h : Ring next prev (a :: l)) : Ring next prev (l ++ [a]) := by
  cases l with
  | nil => exact h
  | cons b l =>
    obtain ⟨hnd, h1, h2, hp⟩ := h
    refine ⟨?_, path_append.mpr ⟨hp, h1, h2⟩⟩
    have hperm : (b :: l ++ [a]).Perm (a :: b :: l) := List.perm_append_singleton a (b :: l)
    exact hperm.nodup_iff.mpr hnd

theorem Ring.rotates {q : List α} (h : Ring next prev q) (n : Nat) :
    Ring next prev (q.rotate n) := by
  induction n generalizing q with
  | zero => rwa [List.rotate_zero]
  | succ n ih =>
    cases q with
    | nil => exact h.elim
    | cons a l =>
      rw [List.rotate_cons_succ]
      exact ih h.rotate

/-- A ring can be read from any of its nodes on. -/
theorem Ring.from_node {q : List α} (h : Ring next prev q) {x : α} (hx : x ∈ q) :
    ∃ l, Ring next prev (x :: l) := by
  obtain ⟨l1, l2, rfl⟩ := List.append_of_mem hx
  have hr := h.rotates l1.length
  rw [List.rotate_append_length_eq] at hr
  exact ⟨l2 ++ l1, hr⟩

/-- Going on and back, or back and on, comes to the same node. -/
theorem Ring.inverse {q : List α} (h : Ring next prev q) {x : α} (hx : x ∈ q) :
    prev (next x) = x ∧ next (prev x) = x := by
  obtain ⟨l, hring⟩ := h.from_node hx
  obtain ⟨_, hpath⟩ := hring
  constructor
  · cases l with
    | nil =>
      rw [hpath.1]
      exact hpath.2
    | cons b l =>
      rw [hpath.1]
      exact hpath.2.1
  · rcases List.eq_nil_or_concat' l with rfl | ⟨l0, z, rfl⟩
    · rw [hpath.2]
      exact hpath.1
    · have hz := (path_append.mp hpath).2
      rw [hz.2]
      exact hz.1

/-- A node is added before the first: it becomes the last of the list. -/
theorem Ring.add (h : Ring next prev (a :: l)) (ht : t ∉ a :: l) (h1 : next' t = a)
    (h2 : prev' t = prev a) (h3 : next' (prev a) = t) (h4 : prev' a = t)
    (hn : ∀ x ∈ a :: l, x ≠ prev a → next' x = next x) (hp : ∀ x ∈ l, prev' x = prev x) :
    Ring next' prev' (a :: l ++ [t]) := by
  refine ⟨?_, ?_⟩
  · have hperm : (a :: l ++ [t]).Perm (t :: a :: l) := List.perm_append_singleton t (a :: l)
    exact hperm.nodup_iff.mpr (List.nodup_cons.mpr ⟨ht, h.1⟩)
  · refine path_append.mpr ⟨?_, h1, h4⟩
    rcases List.eq_nil_or_concat' l with rfl | ⟨l0, z, rfl⟩
    · have hself : prev a = a := h.2.2
      rw [hself] at h2 h3
      exact ⟨h3, h2⟩
    · obtain ⟨hpath, hz⟩ := path_append.mp h.2
      have hlast : prev a = z := hz.2
      rw [hlast] at h2 h3
      have hnd := h.1
      rw [← List.cons_append, List.nodup_append] at hnd
      rw [path_append]
      refine ⟨hpath.congr ?_ ?_, h3, h2⟩
      · intro x hx
        apply hn x (by rw [← List.cons_append]; exact List.mem_append_left _ hx)
        rw [hlast]
        exact hnd.2.2 x hx z (List.mem_singleton_self z)
      · exact fun x hx => hp x hx

/-- The first node is taken out. -/
theorem Ring.remove (h : Ring next prev (a :: b :: l)) (h1 : next' (prev a) = b)
    (h2 : prev' b = prev a) (hn : ∀ x ∈ b :: l, x ≠ prev a → next' x = next x)
    (hp : ∀ x ∈ l, prev' x = prev x) : Ring next' prev' (b :: l) := by
  obtain ⟨hnd, _, _, hpath⟩ := h
  have hnd' := (List.nodup_cons.mp hnd).2
  refine ⟨hnd', ?_⟩
  rcases List.eq_nil_or_concat' l with rfl | ⟨l0, z, rfl⟩
  · have hlast : prev a = b := hpath.2
    rw [hlast] at h1 h2
    exact ⟨h1, h2⟩
  · obtain ⟨hpath, hz⟩ := path_append.mp hpath
    have hlast : prev a = z := hz.2
    rw [hlast] at h1 h2
    rw [← List.cons_append, List.nodup_append] at hnd'
    rw [path_append]
    refine ⟨hpath.congr ?_ ?_, h1, h2⟩
    · intro x hx
      apply hn x (by rw [← List.cons_append]; exact List.mem_append_left _ hx)
      rw [hlast]
      exact hnd'.2.2 x hx z (List.mem_singleton_self z)
    · exact fun x hx => hp x hx

end

end os_workshop.linked
