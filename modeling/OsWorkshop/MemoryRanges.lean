-- Octets that stand in memory at an address and upwards, and what a write does
-- to them.
import OsWorkshop.Memory

namespace os_workshop.memory

/-- The octets stand at an address. -/
def Holds (m : Mem) (a : Word) (bs : List Byte) : Prop :=
  ∀ i (h : i < bs.length), m (a + BitVec.ofNat 32 i) = bs[i]

variable {m : Mem} {a b : Word} {bs cs : List Byte}

theorem add_ofNat (a : Word) (i j : Nat) :
    a + BitVec.ofNat 32 (i + j) = a + BitVec.ofNat 32 i + BitVec.ofNat 32 j := by
  bv_omega

theorem Holds.nil : Holds m a [] := fun _ h => absurd h (Nat.not_lt_zero _)

theorem Holds.left (h : Holds m a (bs ++ cs)) : Holds m a bs := by
  intro i hi
  rw [h i (by rw [List.length_append]; omega), List.getElem_append_left hi]

theorem Holds.right (h : Holds m a (bs ++ cs)) : Holds m (a + BitVec.ofNat 32 bs.length) cs := by
  intro i hi
  rw [← add_ofNat, h (bs.length + i) (by rw [List.length_append]; omega),
    List.getElem_append_right (by omega)]
  simp

theorem Holds.append (h : Holds m a bs) (h' : Holds m (a + BitVec.ofNat 32 bs.length) cs) :
    Holds m a (bs ++ cs) := by
  intro i hi
  rw [List.length_append] at hi
  by_cases hb : i < bs.length
  · rw [h i hb, List.getElem_append_left hb]
  · rw [List.getElem_append_right (by omega), ← h' (i - bs.length) (by omega), ← add_ofNat]
    congr 3
    omega

theorem Holds.shorter (h : Holds m a bs) (hp : cs <+: bs) : Holds m a cs := by
  obtain ⟨ds, rfl⟩ := hp
  exact h.left

theorem Holds.drop (h : Holds m a bs) (n : Nat) :
    Holds m (a + BitVec.ofNat 32 n) (bs.drop n) := by
  intro i hi
  rw [List.length_drop] at hi
  rw [← add_ofNat, h (n + i) (by omega), List.getElem_drop]

theorem Holds.read (h : Holds m a bs) : read m a bs.length = bs := by
  apply List.ext_getElem (read_length _ _ _)
  intro i h1 h2
  rw [read_get, h i h2]

/-- What was written stands there. -/
theorem holds_write (m : Mem) (a : Word) {bs : List Byte} (h : bs.length ≤ 2 ^ 32) :
    Holds (write m a bs) a bs := by
  intro i hi
  have hdist := dist_add a i (by omega)
  rw [write_in _ _ _ _ (by omega)]
  simp only [hdist]

/-- What stands outside a write stays. -/
theorem Holds.write_apart (h : Holds m a bs)
    (hout : ∀ i < bs.length, cs.length ≤ dist b (a + BitVec.ofNat 32 i)) :
    Holds (write m b cs) a bs := by
  intro i hi
  rw [write_out _ _ _ _ (hout i hi)]
  exact h i hi

/-- What is written behind the octets goes on with them. -/
theorem Holds.write_behind (h : Holds m a bs) (hlen : bs.length + cs.length ≤ 2 ^ 32) :
    Holds (write m (a + BitVec.ofNat 32 bs.length) cs) a (bs ++ cs) := by
  apply Holds.append
  · apply h.write_apart
    intro i hi
    unfold dist
    bv_omega
  · exact holds_write _ _ (by omega)

/-- A write of octets that are wanted where they go leaves every wanted octet that stands in its
place there, when at most one octet is wanted at an address. -/
theorem write_wanted {want : Word → Byte → Prop}
    (huniq : ∀ x v v', want x v → want x v' → v = v')
    (hbs : ∀ k (h : k < bs.length), want (a + BitVec.ofNat 32 k) bs[k]) {x : Word} {v : Byte}
    (hv : want x v) (hm : m x = v) : write m a bs x = v := by
  by_cases h : dist a x < bs.length
  · have hx : a + BitVec.ofNat 32 (dist a x) = x := by
      unfold dist
      bv_omega
    have hwant := hbs (dist a x) h
    rw [hx] at hwant
    rw [write_in _ _ _ _ h]
    exact huniq x _ _ hwant hv
  · rw [write_out _ _ _ _ (Nat.not_lt.mp h), hm]

end os_workshop.memory
