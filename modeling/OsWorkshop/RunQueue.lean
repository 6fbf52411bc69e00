-- The run queue of both thread libraries: over every run the pointers form a
-- ring, and read from the running thread the ring is a queue. A thread is
-- created at its end, a switch rotates it, and the running thread leaves it.
import OsWorkshop.LinkedRing
import OsWorkshop.Threads

open os_workshop.memory
open os_workshop.runs
open os_workshop.linked

namespace os_workshop.threads

/-! ## Words that a write does not touch -/

theorem ld32_write_out (m : Mem) {a x : Word} {bs : List Byte} (hx : x.toNat + 4 ≤ 2 ^ 32)
    (ha : a.toNat + bs.length ≤ 2 ^ 32)
    (h : x.toNat + 4 ≤ a.toNat ∨ a.toNat + bs.length ≤ x.toNat) :
    ld32 (write m a bs) x = ld32 m x := by
  apply ld32_congr
  intro y hy
  apply write_out
  unfold memory.dist at *
  bv_omega

theorem ld32_fill_out (m : Mem) {a x : Word} (v : Byte) {n : Nat} (hx : x.toNat + 4 ≤ 2 ^ 32)
    (ha : a.toNat + n ≤ 2 ^ 32) (h : x.toNat + 4 ≤ a.toNat ∨ a.toNat + n ≤ x.toNat) :
    ld32 (fill m a v n) x = ld32 m x := by
  apply ld32_congr
  intro y hy
  apply fill_out
  unfold memory.dist at *
  bv_omega

theorem ld32_st32_out (m : Mem) {a x : Word} (v : Word) (hx : x.toNat + 4 ≤ 2 ^ 32)
    (ha : a.toNat + 4 ≤ 2 ^ 32) (h : x.toNat + 4 ≤ a.toNat ∨ a.toNat + 4 ≤ x.toNat) :
    ld32 (st32 m a v) x = ld32 m x :=
  ld32_write_out m hx (by simpa using ha) (by simpa using h)

theorem st32_out {m : Mem} {a x v : Word} (ha : a.toNat + 4 ≤ 2 ^ 32)
    (h : x.toNat < a.toNat ∨ a.toNat + 4 ≤ x.toNat) : st32 m a v x = m x := by
  apply write_out
  unfold memory.dist
  simp only [le32_length]
  bv_omega

theorem fill_keep {m : Mem} {a x : Word} {v : Byte} {n : Nat} (ha : a.toNat + n ≤ 2 ^ 32)
    (h : x.toNat < a.toNat ∨ a.toNat + n ≤ x.toNat) : fill m a v n x = m x := by
  apply fill_out
  unfold memory.dist
  bv_omega

/-! ## The objects of the threads -/

/-- Every `thread_t` is below the end of the heap, and apart from the others. -/
structure Objects (heap : Nat) (q : List Word) : Prop where
  below : ∀ a ∈ q, a.toNat + 80 ≤ heap
  apart : ∀ a ∈ q, ∀ b ∈ q, a ≠ b → a.toNat + 80 ≤ b.toNat ∨ b.toNat + 80 ≤ a.toNat

section

variable {m : Mem} {heap : Nat} {q l : List Word} {a b t v id : Word}

theorem field_toNat (h : a.toNat + 80 ≤ 2 ^ 32) {i : Nat} (hi : i ≤ 76) :
    (a + BitVec.ofNat 32 i).toNat = a.toNat + i := by
  rw [BitVec.toNat_add, BitVec.toNat_ofNat, Nat.mod_eq_of_lt (show i < 2 ^ 32 by omega)]
  omega

/-- A store to one field leaves the other fields of all threads alone. -/
theorem Objects.field (h : Objects heap q) (hheap : heap ≤ 2 ^ 32) (ha : a ∈ q) (hb : b ∈ q)
    (i j : Nat) (hi : i ≤ 76) (hj : j ≤ 76) (hij : a ≠ b ∨ i + 4 ≤ j ∨ j + 4 ≤ i) :
    ld32 (st32 m (a + BitVec.ofNat 32 i) v) (b + BitVec.ofNat 32 j) =
      ld32 m (b + BitVec.ofNat 32 j) := by
  have h1 := h.below a ha
  have h2 := h.below b hb
  have e1 := field_toNat (a := a) (by omega) hi
  have e2 := field_toNat (a := b) (by omega) hj
  apply ld32_st32_out
  · omega
  · omega
  · rw [e1, e2]
    by_cases hab : a = b
    · subst hab
      have hij := hij.resolve_left (not_not.mpr rfl)
      omega
    · have := h.apart a ha b hb hab
      omega

/-- A store above the threads leaves their fields alone. -/
theorem Objects.above (h : Objects heap q) (hb : b ∈ q) {x : Word} (hx : heap ≤ x.toNat)
    (hx4 : x.toNat + 4 ≤ 2 ^ 32) (j : Nat) (hj : j ≤ 76) :
    ld32 (st32 m x v) (b + BitVec.ofNat 32 j) = ld32 m (b + BitVec.ofNat 32 j) := by
  have h2 := h.below b hb
  have e2 := field_toNat (a := b) (by omega) hj
  exact ld32_st32_out m v (by omega) hx4 (by omega)

theorem Objects.add (h : Objects t.toNat q) : Objects (t.toNat + 96) (q ++ [t]) := by
  constructor
  · intro a ha
    rcases List.mem_append.mp ha with ha | ha
    · have := h.below a ha
      omega
    · rw [List.mem_singleton.mp ha]
      omega
  · intro a ha b hb hab
    rcases List.mem_append.mp ha with ha | ha <;> rcases List.mem_append.mp hb with hb | hb
    · exact h.apart a ha b hb hab
    · rw [List.mem_singleton.mp hb]
      exact .inl (h.below a ha)
    · rw [List.mem_singleton.mp ha]
      exact .inr (h.below b hb)
    · rw [List.mem_singleton.mp ha, List.mem_singleton.mp hb] at hab
      exact absurd rfl hab

theorem Objects.fresh (h : Objects t.toNat q) : t ∉ q := by
  intro ht
  have := h.below t ht
  omega

theorem Objects.sub {q' : List Word} (h : Objects heap q) (hsub : ∀ a ∈ q', a ∈ q) :
    Objects heap q' :=
  ⟨fun a ha => h.below a (hsub a ha), fun a ha b hb => h.apart a (hsub a ha) b (hsub b hb)⟩

/-! ## The pointers of thread_create and thread_exit -/

/-- The stores of `thread_create` before the ring: a cleared object with its first fields. -/
theorem cleared (h : Objects t.toNat q) (ht : t.toNat + 96 ≤ 2 ^ 32) (hb : b ∈ q) (id : Word)
    (j : Nat) (hj : j ≤ 76) :
    ld32 (st32 (st32 (st32 (fill m t 0 96) t THREAD_MAGIC) (t + 4) id) (t + 8) a)
        (b + BitVec.ofNat 32 j) = ld32 m (b + BitVec.ofNat 32 j) := by
  have e4 : (t + 4).toNat = t.toNat + 4 := field_toNat (i := 4) (by omega) (by omega)
  have e8 : (t + 8).toNat = t.toNat + 8 := field_toNat (i := 8) (by omega) (by omega)
  have h2 := h.below b hb
  have e2 := field_toNat (a := b) (by omega) hj
  rw [h.above hb (by omega) (by omega) j hj, h.above hb (by omega) (by omega) j hj,
    h.above hb (by omega) (by omega) j hj]
  exact ld32_fill_out m 0 (by omega) (by omega) (by omega)

/-- Where the stores that link a new thread in go to. -/
theorem link_targets (h : Objects t.toNat (a :: l)) (ht : t.toNat + 96 ≤ 2 ^ 32)
    (hring : Ring (next m) (prev m) (a :: l)) {m4 m5 m6 : Mem}
    (h4 : m4 = st32 (st32 (st32 (fill m t 0 96) t THREAD_MAGIC) (t + 4) id) (t + 8) a)
    (h5 : m5 = st32 m4 (t + 12) (prev m4 a)) (h6 : m6 = st32 m5 (prev m5 t + 8) t) :
    prev m4 a = prev m a ∧ prev m5 t = prev m a ∧ next m6 t = a := by
  have hnew := h.add
  have htn : t ∈ a :: l ++ [t] := List.mem_append_right _ (List.mem_singleton_self t)
  have hz : prev m a ∈ a :: l ++ [t] := List.mem_append_left _ hring.prev_mem
  have zt : prev m a ≠ t := fun e => h.fresh (e ▸ hring.prev_mem)
  have p4 : prev m4 a = prev m a := h4 ▸ cleared h ht List.mem_cons_self id 12 (by omega)
  have p5 : prev m5 t = prev m a := by
    rw [h5, p4]
    exact ld32_st32_same ..
  have n5 : next m5 t = a := by
    rw [h5]
    refine (hnew.field ht htn htn 12 8 (by omega) (by omega) (by omega)).trans ?_
    rw [h4]
    exact ld32_st32_same ..
  refine ⟨p4, p5, ?_⟩
  rw [h6, p5]
  exact (hnew.field ht hz htn 8 8 (by omega) (by omega) (.inl zt)).trans n5

/-- The four stores that link a new thread in before the running one. -/
theorem link_ring (h : Objects t.toNat (a :: l)) (ht : t.toNat + 96 ≤ 2 ^ 32)
    (hring : Ring (next m) (prev m) (a :: l)) {m4 m5 m6 m7 : Mem}
    (h4 : m4 = st32 (st32 (st32 (fill m t 0 96) t THREAD_MAGIC) (t + 4) id) (t + 8) a)
    (h5 : m5 = st32 m4 (t + 12) (prev m4 a)) (h6 : m6 = st32 m5 (prev m5 t + 8) t)
    (h7 : m7 = st32 m6 (next m6 t + 12) t) :
    Ring (next m7) (prev m7) (a :: l ++ [t]) ∧
      ∀ x ∈ a :: l, ld32 m7 (x + 28) = ld32 m (x + 28) := by
  have hnew := h.add
  have hall : ∀ x ∈ a :: l, x ∈ a :: l ++ [t] := fun x => List.mem_append_left _
  have htn : t ∈ a :: l ++ [t] := List.mem_append_right _ (List.mem_singleton_self t)
  have ha : a ∈ a :: l := List.mem_cons_self
  have hne : ∀ x ∈ a :: l, t ≠ x := by
    rintro x hx rfl
    exact h.fresh hx
  -- the old fields
  have o8 : ∀ x ∈ a :: l, next m4 x = next m x := fun x hx =>
    h4 ▸ cleared h ht hx id 8 (by omega)
  have o12 : ∀ x ∈ a :: l, prev m4 x = prev m x := fun x hx =>
    h4 ▸ cleared h ht hx id 12 (by omega)
  have o28 : ∀ x ∈ a :: l, ld32 m4 (x + 28) = ld32 m (x + 28) := fun x hx =>
    h4 ▸ cleared h ht hx id 28 (by omega)
  have hz := hring.prev_mem
  obtain ⟨p4, p5, n6⟩ := link_targets h ht hring h4 h5 h6
  rw [p4] at h5
  rw [p5] at h6
  generalize hzz : prev m a = z at *
  have zt : t ≠ z := hne z hz
  have f5 : ∀ x ∈ a :: l, ∀ j, j ≤ 76 → ld32 m5 (x + BitVec.ofNat 32 j) =
      ld32 m4 (x + BitVec.ofNat 32 j) := fun x hx j hj =>
    h5 ▸ hnew.field ht htn (hall x hx) 12 j (by omega) hj (.inl (hne x hx))
  -- t->prev->next = t
  have p6 : prev m6 t = z := by
    rw [h6]
    exact (hnew.field ht (hall z hz) htn 8 12 (by omega) (by omega) (.inl zt.symm)).trans p5
  have z6 : next m6 z = t := by
    rw [h6]
    exact ld32_st32_same ..
  have f6 : ∀ x ∈ a :: l, ∀ j, j ≤ 76 → (z ≠ x ∨ 8 + 4 ≤ j ∨ j + 4 ≤ 8) →
      ld32 m6 (x + BitVec.ofNat 32 j) = ld32 m5 (x + BitVec.ofNat 32 j) := fun x hx j hj hzx =>
    h6 ▸ hnew.field ht (hall z hz) (hall x hx) 8 j (by omega) hj hzx
  -- t->next->prev = t
  rw [n6] at h7
  have f7 : ∀ x ∈ a :: l ++ [t], ∀ j, j ≤ 76 → (a ≠ x ∨ 12 + 4 ≤ j ∨ j + 4 ≤ 12) →
      ld32 m7 (x + BitVec.ofNat 32 j) = ld32 m6 (x + BitVec.ofNat 32 j) := fun x hx j hj hax =>
    h7 ▸ hnew.field ht (hall a ha) hx 12 j (by omega) hj hax
  refine ⟨hring.add h.fresh ?_ ?_ ?_ ?_ ?_ ?_, ?_⟩
  · exact (f7 t htn 8 (by omega) (.inr (by omega))).trans n6
  · rw [hzz]
    exact (f7 t htn 12 (by omega) (.inl (hne a ha).symm)).trans p6
  · rw [hzz]
    exact (f7 z (hall z hz) 8 (by omega) (.inr (by omega))).trans z6
  · rw [h7]
    exact ld32_st32_same ..
  · intro x hx hxz
    rw [hzz] at hxz
    exact (f7 x (hall x hx) 8 (by omega) (.inr (by omega))).trans ((f6 x hx 8 (by omega)
      (.inl (Ne.symm hxz))).trans ((f5 x hx 8 (by omega)).trans (o8 x hx)))
  · intro x hx
    have hxa : x ∈ a :: l := List.mem_cons_of_mem _ hx
    have hax : a ≠ x := by
      rintro rfl
      exact (List.nodup_cons.mp hring.1).1 hx
    exact (f7 x (hall x hxa) 12 (by omega) (.inl hax)).trans ((f6 x hxa 12 (by omega)
      (.inr (by omega))).trans ((f5 x hxa 12 (by omega)).trans (o12 x hxa)))
  · intro x hx
    exact (f7 x (hall x hx) 28 (by omega) (.inr (by omega))).trans ((f6 x hx 28 (by omega)
      (.inr (by omega))).trans ((f5 x hx 28 (by omega)).trans (o28 x hx)))

/-- The links of a new thread, and everything else as before. -/
theorem link_bytes (h : Objects t.toNat (a :: l)) (ht : t.toNat + 96 ≤ 2 ^ 32)
    (hring : Ring (next m) (prev m) (a :: l)) {m4 m5 m6 m7 : Mem}
    (h4 : m4 = st32 (st32 (st32 (fill m t 0 96) t THREAD_MAGIC) (t + 4) id) (t + 8) a)
    (h5 : m5 = st32 m4 (t + 12) (prev m4 a)) (h6 : m6 = st32 m5 (prev m5 t + 8) t)
    (h7 : m7 = st32 m6 (next m6 t + 12) t) {x : Word}
    (hx : x.toNat < t.toNat ∨ t.toNat + 96 ≤ x.toNat)
    (hq : ∀ y ∈ a :: l, x.toNat < y.toNat + 8 ∨ y.toNat + 16 ≤ x.toNat) : m7 x = m x := by
  obtain ⟨-, p5, n6⟩ := link_targets h ht hring h4 h5 h6
  have hz := h.below _ hring.prev_mem
  have hzx := hq _ hring.prev_mem
  have ha := h.below a List.mem_cons_self
  have hax := hq a List.mem_cons_self
  have e4 : (t + 4).toNat = t.toNat + 4 := field_toNat (i := 4) (by omega) (by omega)
  have e8 : (t + 8).toNat = t.toNat + 8 := field_toNat (i := 8) (by omega) (by omega)
  have e12 : (t + 12).toNat = t.toNat + 12 := field_toNat (i := 12) (by omega) (by omega)
  have ez : (prev m a + 8).toNat = (prev m a).toNat + 8 :=
    field_toNat (i := 8) (by omega) (by omega)
  have ea : (a + 12).toNat = a.toNat + 12 := field_toNat (i := 12) (by omega) (by omega)
  rw [h7, n6, st32_out (by omega) (by omega), h6, p5, st32_out (by omega) (by omega), h5,
    st32_out (by omega) (by omega), h4, st32_out (by omega) (by omega),
    st32_out (by omega) (by omega), st32_out (by omega) (by omega),
    fill_keep (by omega) (by omega)]

/-- The four stores that take the running thread out. -/
theorem unlink_ring (h : Objects heap (a :: b :: l)) (hheap : heap ≤ 2 ^ 32)
    (hring : Ring (next m) (prev m) (a :: b :: l)) {m1 m2 m3 m4 : Mem}
    (h1 : m1 = st32 m (b + 12) (prev m a)) (h2 : m2 = st32 m1 (prev m a + 8) b)
    (h3 : m3 = st32 m2 (a + 12) 0) (h4 : m4 = st32 m3 (a + 8) 0) :
    Ring (next m4) (prev m4) (b :: l) ∧ ∀ x ∈ b :: l, ld32 m4 (x + 28) = ld32 m (x + 28) := by
  have ha : a ∈ a :: b :: l := List.mem_cons_self
  have hb : b ∈ a :: b :: l := List.mem_cons_of_mem _ List.mem_cons_self
  have hin : ∀ x ∈ b :: l, x ∈ a :: b :: l := fun x => List.mem_cons_of_mem _
  have hne : ∀ x ∈ b :: l, a ≠ x := by
    rintro x hx rfl
    exact (List.nodup_cons.mp hring.1).1 hx
  have hz := hring.prev_mem
  have hza : prev m a ≠ a := by
    intro e
    have hloop := (hring.inverse ha).2
    rw [e] at hloop
    exact List.cons_ne_nil b l (hring.next_eq_self_iff.mp hloop)
  generalize hzz : prev m a = z at *
  have f1 : ∀ x ∈ a :: b :: l, ∀ j, j ≤ 76 → (b ≠ x ∨ 12 + 4 ≤ j ∨ j + 4 ≤ 12) →
      ld32 m1 (x + BitVec.ofNat 32 j) = ld32 m (x + BitVec.ofNat 32 j) := fun x hx j hj hbx =>
    h1 ▸ h.field hheap hb hx 12 j (by omega) hj hbx
  have b1 : prev m1 b = z := by
    rw [h1]
    exact ld32_st32_same ..
  have f2 : ∀ x ∈ a :: b :: l, ∀ j, j ≤ 76 → (z ≠ x ∨ 8 + 4 ≤ j ∨ j + 4 ≤ 8) →
      ld32 m2 (x + BitVec.ofNat 32 j) = ld32 m1 (x + BitVec.ofNat 32 j) := fun x hx j hj hzx =>
    h2 ▸ h.field hheap hz hx 8 j (by omega) hj hzx
  have z2 : next m2 z = b := by
    rw [h2]
    exact ld32_st32_same ..
  have f4 : ∀ x ∈ a :: b :: l, ∀ j, j ≤ 76 → a ≠ x →
      ld32 m4 (x + BitVec.ofNat 32 j) = ld32 m2 (x + BitVec.ofNat 32 j) := by
    intro x hx j hj hax
    rw [h4]
    refine (h.field hheap ha hx 8 j (by omega) hj (.inl hax)).trans ?_
    rw [h3]
    exact h.field hheap ha hx 12 j (by omega) hj (.inl hax)
  refine ⟨hring.remove ?_ ?_ ?_ ?_, ?_⟩
  · rw [hzz]
    exact (f4 z hz 8 (by omega) (Ne.symm hza)).trans z2
  · rw [hzz]
    exact (f4 b hb 12 (by omega) (hne b List.mem_cons_self)).trans ((f2 b hb 12 (by omega)
      (.inr (by omega))).trans b1)
  · intro x hx hxz
    rw [hzz] at hxz
    exact (f4 x (hin x hx) 8 (by omega) (hne x hx)).trans ((f2 x (hin x hx) 8 (by omega)
      (.inl (Ne.symm hxz))).trans (f1 x (hin x hx) 8 (by omega) (.inr (by omega))))
  · intro x hx
    have hx' := List.mem_cons_of_mem b hx
    have hbx : b ≠ x := by
      rintro rfl
      exact (List.nodup_cons.mp (List.nodup_cons.mp hring.1).2).1 hx
    exact (f4 x (hin x hx') 12 (by omega) (hne x hx')).trans ((f2 x (hin x hx') 12 (by omega)
      (.inr (by omega))).trans (f1 x (hin x hx') 12 (by omega) (.inl hbx)))
  · intro x hx
    exact (f4 x (hin x hx) 28 (by omega) (hne x hx)).trans ((f2 x (hin x hx) 28 (by omega)
      (.inr (by omega))).trans (f1 x (hin x hx) 28 (by omega) (.inr (by omega))))

end

/-! ## The context of a new thread -/

section

variable {m m' m'' : Mem} {t bottom top a v : Word}

/-- All words stay but those of the context of the thread at `t`, its `tp` apart, and those
of the stack from `bottom` to `top`. -/
def Framed (t bottom top : Word) (m m' : Mem) : Prop :=
  ∀ x : Word, x.toNat + 4 ≤ 2 ^ 32 →
    (x.toNat + 4 ≤ t.toNat + 16 ∨ t.toNat + 80 ≤ x.toNat ∨ x.toNat = t.toNat + 28) →
    (x.toNat + 4 ≤ bottom.toNat ∨ top.toNat ≤ x.toNat) → ld32 m' x = ld32 m x

theorem Framed.trans (h : Framed t bottom top m m') (h' : Framed t bottom top m' m'') :
    Framed t bottom top m m'' :=
  fun x hx h1 h2 => (h' x hx h1 h2).trans (h x hx h1 h2)

/-- A store to a field of the context. -/
theorem framed_field (ht : t.toNat + 80 ≤ 2 ^ 32) {i : Nat} (h16 : 16 ≤ i) (h76 : i ≤ 76)
    (h28 : i + 4 ≤ 28 ∨ 32 ≤ i) : Framed t bottom top m (st32 m (t + BitVec.ofNat 32 i) v) := by
  intro x hx h1 _
  have e := field_toNat (a := t) ht h76
  exact ld32_st32_out m v hx (by omega) (by omega)

theorem framed_store (h1 : bottom.toNat ≤ a.toNat) (h2 : a.toNat + 4 ≤ top.toNat) :
    Framed t bottom top m (st32 m a v) := by
  intro x hx _ h
  have := top.isLt
  exact ld32_st32_out m v hx (by omega) (by omega)

theorem framed_fill (v : Byte) {n : Nat} (h1 : bottom.toNat ≤ a.toNat)
    (h2 : a.toNat + n ≤ top.toNat) : Framed t bottom top m (fill m a v n) := by
  intro x hx _ h
  have := top.isLt
  exact ld32_fill_out m v hx (by omega) (by omega)

variable (lay : Layout) (fn arg : Word) {s : Sys} {l : Locals}

theorem thunk.spec (ht : l.t.toNat + 80 ≤ 2 ^ 32) :
    ∃ m', run_all (thunk lay fn arg) s l = ({ s with mem := m' }, l) ∧
      Framed l.t bottom top s.mem m' := by
  refine ⟨_, rfl, ?_⟩
  exact (framed_field (i := 32) ht (by omega) (by omega) (by omega)).trans
    ((framed_field (i := 36) ht (by omega) (by omega) (by omega)).trans
    ((framed_field (i := 40) ht (by omega) (by omega) (by omega)).trans
    (framed_field (i := 16) ht (by omega) (by omega) (by omega))))

/-- The memory after the statements of `trap_frame`: the frame is at the top of the new stack. -/
def first_frame (m : Mem) (t top te ra a0 pc : Word) : Mem :=
  st32 (st32 (st32 (fill (st32 (st32 m (t + 16) te) (t + 20) (top - 128)) (top - 128) 0 80)
    (top - 128) ra) (top - 128 + 0x20) a0) (top - 128 + 0x40) pc

theorem trap_frame_mem (hsp : ld32 m (t + 20) = top)
    (hroom : t.toNat + 80 + 128 ≤ top.toNat) {te ra a0 pc : Word} {m1 m2 m3 m4 m5 m6 : Mem}
    (h1 : m1 = st32 m (t + 16) te) (h2 : m2 = st32 m1 (t + 20) (ld32 m1 (t + 20) - 128))
    (h3 : m3 = fill m2 (ld32 m2 (t + 20)) 0 80) (h4 : m4 = st32 m3 (ld32 m3 (t + 20)) ra)
    (h5 : m5 = st32 m4 (ld32 m4 (t + 20) + 0x20) a0)
    (h6 : m6 = st32 m5 (ld32 m5 (t + 20) + 0x40) pc) : m6 = first_frame m t top te ra a0 pc := by
  have htop := top.isLt
  have e20 : (t + 20).toNat = t.toNat + 20 := field_toNat (i := 20) (by omega) (by omega)
  have e16 : (t + 16).toNat = t.toNat + 16 := field_toNat (i := 16) (by omega) (by omega)
  have efp : (top - 128).toNat = top.toNat - 128 := by bv_omega
  have efa : (top - 128 + 0x20).toNat = top.toNat - 128 + 0x20 := by bv_omega
  have s1 : ld32 m1 (t + 20) = top := by
    rw [h1]
    exact (ld32_st32_out m te (by omega) (by omega) (by omega)).trans hsp
  rw [s1] at h2
  have s2 : ld32 m2 (t + 20) = top - 128 := by
    rw [h2]
    exact ld32_st32_same ..
  rw [s2] at h3
  have s3 : ld32 m3 (t + 20) = top - 128 := by
    rw [h3]
    exact (ld32_fill_out m2 0 (by omega) (by omega) (by omega)).trans s2
  rw [s3] at h4
  have s4 : ld32 m4 (t + 20) = top - 128 := by
    rw [h4]
    exact (ld32_st32_out m3 ra (by omega) (by omega) (by omega)).trans s3
  rw [s4] at h5
  have s5 : ld32 m5 (t + 20) = top - 128 := by
    rw [h5]
    exact (ld32_st32_out m4 a0 (by omega) (by omega) (by omega)).trans s4
  rw [s5] at h6
  rw [h6, h5, h4, h3, h2, h1]
  rfl

theorem first_frame_framed (ht : t.toNat + 80 ≤ bottom.toNat)
    (hroom : bottom.toNat + 128 ≤ top.toNat) {te ra a0 pc : Word} :
    Framed t bottom top m (first_frame m t top te ra a0 pc) := by
  have hb := bottom.isLt
  have htop := top.isLt
  have efp : (top - 128).toNat = top.toNat - 128 := by bv_omega
  have efa : (top - 128 + 0x20).toNat = top.toNat - 128 + 0x20 := by bv_omega
  have efc : (top - 128 + 0x40).toNat = top.toNat - 128 + 0x40 := by bv_omega
  have hctxt : Framed t bottom top m (st32 (st32 m (t + 16) te) (t + 20) (top - 128)) :=
    (framed_field (i := 16) (by omega) (by omega) (by omega) (by omega)).trans
      (framed_field (i := 20) (by omega) (by omega) (by omega) (by omega))
  exact hctxt.trans ((framed_fill 0 (by omega) (by omega)).trans
    ((framed_store (by omega) (by omega)).trans
    ((framed_store (by omega) (by omega)).trans (framed_store (by omega) (by omega)))))

theorem trap_frame.spec (hsp : ld32 s.mem (l.t + 20) = top)
    (hroom : l.t.toNat + 80 + 128 ≤ top.toNat) :
    run_all (trap_frame lay fn arg) s l =
      ({ s with mem := first_frame s.mem l.t top lay.trap_exit lay.thread_exit arg fn }, l) := by
  rw [← trap_frame_mem hsp hroom rfl rfl rfl rfl rfl rfl]
  rfl

theorem run_all_append (b1 b2 : List Stmt) :
    run_all (b1 ++ b2) s l = run_all b2 (run_all b1 s l).1 (run_all b1 s l).2 := by
  unfold run_all
  rw [List.foldl_append]

/-- The context of a new thread: its `tp`, its stack, and nothing else outside the context. -/
theorem create_context.spec (lib : Lib) (hlib : 4096 ≤ lib.stack_size.toNat)
    (hroom : l.t.toNat + 80 + lib.stack_size.toNat ≤ s.next_stack.toNat) :
    ∃ m', run_all (create_context lib lay fn arg) s l =
        ({ s with mem := m', next_stack := s.next_stack - lib.stack_size }, l) ∧
      ld32 m' (l.t + 28) = l.t ∧
      ∀ x : Word, x.toNat + 4 ≤ l.t.toNat + 16 → ld32 m' x = ld32 s.mem x := by
  have hbottom : (s.next_stack - lib.stack_size).toNat =
      s.next_stack.toNat - lib.stack_size.toNat := by bv_omega
  have htop := s.next_stack.isLt
  have e28 : (l.t + 28).toNat = l.t.toNat + 28 := field_toNat (i := 28) (by omega) (by omega)
  have e20 : (l.t + 20).toNat = l.t.toNat + 20 := field_toNat (i := 20) (by omega) (by omega)
  -- after the first two statements
  obtain ⟨m1, h1⟩ : ∃ m1, m1 = st32 (fill (st32 s.mem (l.t + 28) l.t)
      (s.next_stack - lib.stack_size) 0xee 4096) (l.t + 20) s.next_stack := ⟨_, rfl⟩
  have hfirst : run_all [fun s l => (s.store (l.t + 28) l.t, l),
      fun s l => ((alloc_stack lib s).1.store (l.t + 20) (alloc_stack lib s).2, l)] s l =
      ({ s with mem := m1, next_stack := s.next_stack - lib.stack_size }, l) := by
    rw [h1]
    rfl
  have hsp : ld32 m1 (l.t + 20) = s.next_stack := by
    rw [h1]
    exact ld32_st32_same ..
  have htp : ld32 m1 (l.t + 28) = l.t := by
    rw [h1, ld32_st32_out _ _ (by omega) (by omega) (by omega),
      ld32_fill_out _ _ (by omega) (by omega) (by omega)]
    exact ld32_st32_same ..
  have hlow : ∀ x : Word, x.toNat + 4 ≤ l.t.toNat + 16 → ld32 m1 x = ld32 s.mem x := by
    intro x hx
    rw [h1, ld32_st32_out _ _ (by omega) (by omega) (by omega),
      ld32_fill_out _ _ (by omega) (by omega) (by omega),
      ld32_st32_out _ _ (by omega) (by omega) (by omega)]
  obtain ⟨m', hrun, hframed⟩ : ∃ m', run_all
      (if lib.preemptive then trap_frame lay fn arg else thunk lay fn arg)
      { s with mem := m1, next_stack := s.next_stack - lib.stack_size } l =
        ({ s with mem := m', next_stack := s.next_stack - lib.stack_size }, l) ∧
      Framed l.t (s.next_stack - lib.stack_size) s.next_stack m1 m' := by
    split
    · exact ⟨_, trap_frame.spec lay fn arg hsp (by omega),
        first_frame_framed (by omega) (by omega)⟩
    · exact thunk.spec lay fn arg (by omega)
  refine ⟨m', ?_, ?_, ?_⟩
  · unfold create_context
    rw [run_all_append, hfirst]
    exact hrun
  · rw [hframed (l.t + 28) (by omega) (by omega) (by omega)]
    exact htp
  · intro x hx
    rw [hframed x (by omega) (by omega) (by omega)]
    exact hlow x hx

end

/-! ## The library at rest -/

/-- No thread is inside the library, and `n` were created: the ring is that of the threads of
`q`, the first of which runs. -/
structure Quiet (lib : Lib) (s : Sys) (q : List Word) (n : Nat) : Prop where
  heap : s.next_heap.toNat = 0x40100000 + 96 * n
  stack : s.next_stack.toNat + lib.stack_size.toNat * n = 0x41FFF000
  objects : Objects s.next_heap.toNat q
  ring : Ring (next s.mem) (prev s.mem) q
  head : q.head? = some s.tp
  tps : ∀ a ∈ q.tail, ld32 s.mem (a + 28) = a

/-- The heap and the stacks of `n` created threads have not met. -/
def Lib.Fits (lib : Lib) (n : Nat) : Prop := (lib.stack_size.toNat + 96) * n ≤ 0x1EFF000

section

variable {lib : Lib} {lay : Layout} {s : Sys} {q : List Word} {n : Nat}

theorem Quiet.cons (h : Quiet lib s q n) : ∃ l, q = s.tp :: l := by
  cases q with
  | nil => exact h.ring.elim
  | cons a l =>
    obtain rfl : a = s.tp := by simpa using h.head
    exact ⟨l, rfl⟩

theorem alloc_80 (s : Sys) : alloc s 80 =
    ({ s with mem := fill s.mem s.next_heap 0 96, next_heap := s.next_heap + 96 },
      s.next_heap) := by
  have hsz : ((80 : Word) + 31) &&& ~~~31 = 96 := by decide
  unfold alloc
  rw [hsz]
  rfl

/-- The part of `thread_create` that links the thread needs only a free end of the heap. -/
theorem create_link.spec (h : Quiet lib s q n) (hfree : s.next_heap.toNat + 96 ≤ 2 ^ 32)
    (l : Locals) :
    ∃ m', run_all create_link s l =
        ({ s with
          mem := m'
          next_heap := s.next_heap + 96
          next_thread_id := s.next_thread_id + 1 }, { l with t := s.next_heap }) ∧
      Ring (next m') (prev m') (q ++ [s.next_heap]) ∧
      (∀ x ∈ q, ld32 m' (x + 28) = ld32 s.mem (x + 28)) ∧
      ∀ x : Word, x.toNat < s.next_heap.toNat ∨ s.next_heap.toNat + 96 ≤ x.toNat →
        (∀ y ∈ q, x.toNat < y.toNat + 8 ∨ y.toNat + 16 ≤ x.toNat) → m' x = s.mem x := by
  obtain ⟨rest, rfl⟩ := h.cons
  have hlink := @link_ring _ _ _ _ s.next_thread_id h.objects hfree h.ring _ _ _ _ rfl rfl rfl rfl
  have hbytes {x : Word} := @link_bytes _ _ _ _ s.next_thread_id h.objects hfree h.ring _ _ _ _
    rfl rfl rfl rfl x
  refine ⟨_, ?_, hlink.1, hlink.2, fun x => hbytes⟩
  unfold create_link run_all
  rw [List.foldl_cons]
  simp only [alloc_80]
  rfl

theorem Lib.Fits.mono {k : Nat} (h : lib.Fits n) (hk : k ≤ n) : lib.Fits k :=
  (Nat.mul_le_mul_left _ hk).trans h

/-- `thread_create` adds a thread at the end of the queue. -/
theorem thread_create.spec (h : Quiet lib s q n) (hlib : 4096 ≤ lib.stack_size.toNat)
    (hfits : lib.Fits (n + 1)) (fn arg : Word) (l : Locals) :
    ∃ s', run_all (thread_create lib lay fn arg) s l = (s', { l with t := s.next_heap }) ∧
      Quiet lib s' (q ++ [s.next_heap]) (n + 1) := by
  have hheap := h.heap
  have hstack := h.stack
  have hroom : lib.stack_size.toNat * n + lib.stack_size.toNat + 96 * n + 96 ≤ 0x1EFF000 := by
    have e : (lib.stack_size.toNat + 96) * (n + 1) =
        lib.stack_size.toNat * n + lib.stack_size.toNat + 96 * n + 96 := by ring
    unfold Lib.Fits at hfits
    omega
  obtain ⟨m1, hrun1, hring, htps, -⟩ := create_link.spec h (by omega) l
  obtain ⟨m2, hrun2, htp, hlow⟩ := create_context.spec lay fn arg
    (s := { s with
      mem := m1
      next_heap := s.next_heap + 96
      next_thread_id := s.next_thread_id + 1 })
    (l := { l with t := s.next_heap }) lib hlib (by
      show s.next_heap.toNat + 80 + lib.stack_size.toNat ≤ s.next_stack.toNat
      omega)
  refine ⟨{ s with
    mem := m2
    next_stack := s.next_stack - lib.stack_size
    next_heap := s.next_heap + 96
    next_thread_id := s.next_thread_id + 1 }, ?_, ?_⟩
  · unfold thread_create
    rw [run_all_append, hrun1]
    exact hrun2
  · have hnext : (s.next_heap + 96).toNat = s.next_heap.toNat + 96 := by bv_omega
    have hobj : Objects (s.next_heap.toNat + 96) (q ++ [s.next_heap]) := h.objects.add
    obtain ⟨rest, hq⟩ := h.cons
    have hlow' : ∀ x ∈ q ++ [s.next_heap], ∀ j, j ≤ 12 → ld32 m2 (x + BitVec.ofNat 32 j) =
        ld32 m1 (x + BitVec.ofNat 32 j) := by
      intro x hx j hj
      apply hlow
      show (x + BitVec.ofNat 32 j).toNat + 4 ≤ s.next_heap.toNat + 16
      rcases List.mem_append.mp hx with hx | hx
      · have := h.objects.below x hx
        rw [field_toNat (by omega) (by omega)]
        omega
      · rw [List.mem_singleton.mp hx, field_toNat (by omega) (by omega)]
        omega
    constructor
    · show (s.next_heap + 96).toNat = _
      rw [hnext, hheap]
      ring
    · show (s.next_stack - lib.stack_size).toNat + lib.stack_size.toNat * (n + 1) = _
      have e : (s.next_stack - lib.stack_size).toNat =
          s.next_stack.toNat - lib.stack_size.toNat := by bv_omega
      rw [e, Nat.mul_succ]
      omega
    · show Objects (s.next_heap + 96).toNat _
      rw [hnext]
      exact hobj
    · subst hq
      exact hring.congr (fun x hx => hlow' x hx 8 (by omega)) (fun x hx => hlow' x hx 12 (by omega))
    · subst hq
      rfl
    · intro a ha
      have ha' : a ∈ q.tail ∨ a = s.next_heap := by
        rw [hq] at ha
        rw [hq]
        simpa using ha
      rcases ha' with ha' | rfl
      · have hmem : a ∈ q := List.mem_of_mem_tail ha'
        have hbelow := h.objects.below a hmem
        have e28 := field_toNat (a := a) (i := 28) (by omega) (by omega)
        show ld32 m2 (a + 28) = a
        rw [hlow (a + 28) (by
          show (a + 28).toNat + 4 ≤ s.next_heap.toNat + 16
          have e : (a + 28).toNat = a.toNat + 28 := e28
          omega)]
        exact (htps a hmem).trans (h.tps a ha')
      · exact htp

/-! ## The switch -/

/-- `context_switch` touches nothing but the context of the running thread, and keeps its `tp`. -/
theorem save_field {m m' : Mem} {heap : Nat} {a x : Word} {regs : List Byte}
    (h : Objects heap q) (hheap : heap ≤ 2 ^ 32) (ha : a ∈ q) (hx : x ∈ q)
    (hregs : regs.length = 64) (hm : m' = st32 (write m (a + 16) regs) (a + 28) a)
    (j : Nat) (hj : j ≤ 12 ∨ j = 28) (hax : a ≠ x ∨ j ≤ 12) :
    ld32 m' (x + BitVec.ofNat 32 j) = ld32 m (x + BitVec.ofNat 32 j) := by
  have h1 := h.below a ha
  have h2 := h.below x hx
  have e16 : (a + 16).toNat = a.toNat + 16 := field_toNat (i := 16) (by omega) (by omega)
  have ej := field_toNat (a := x) (i := j) (by omega) (by omega)
  have hapart : a ≠ x → a.toNat + 80 ≤ x.toNat ∨ x.toNat + 80 ≤ a.toNat := h.apart a ha x hx
  rw [hm]
  refine (h.field hheap ha hx 28 j (by omega) (by omega)
    (hax.imp_right fun h => .inr (by omega))).trans ?_
  apply ld32_write_out
  · omega
  · omega
  · rcases hax with hax | hax
    · have := hapart hax
      omega
    · by_cases hax' : a = x
      · subst hax'
        omega
      · have := hapart hax'
        omega

/-- The library at rest, after the threads have moved up by one. -/
theorem Quiet.rotated {s' : Sys} {l : List Word} (h : Quiet lib s (s.tp :: l) n)
    (hheap : s'.next_heap = s.next_heap) (hstack : s'.next_stack = s.next_stack)
    (htp : s'.tp = next s.mem s.tp) (hnext : ∀ x ∈ s.tp :: l, next s'.mem x = next s.mem x)
    (hprev : ∀ x ∈ s.tp :: l, prev s'.mem x = prev s.mem x)
    (htps : ∀ x ∈ s.tp :: l, ld32 s'.mem (x + 28) = x) : Quiet lib s' ((s.tp :: l).rotate 1) n := by
  have hrot : (s.tp :: l).rotate 1 = l ++ [s.tp] := by simp
  have hin : ∀ x ∈ l ++ [s.tp], x ∈ s.tp :: l := by simp [or_comm]
  rw [hrot]
  refine ⟨hheap ▸ h.heap, hstack ▸ h.stack, hheap ▸ h.objects.sub hin,
    (h.ring.congr hnext hprev).rotate, ?_, ?_⟩
  · rw [htp]
    cases l with
    | nil =>
      show some s.tp = some (next s.mem s.tp)
      rw [h.ring.2.1]
    | cons b l =>
      show some b = some (next s.mem s.tp)
      rw [h.ring.2.1]
  · exact fun x hx => htps x (hin x (List.mem_of_mem_tail hx))

/-- A switch to the next thread, from the library at rest. -/
theorem context_switch.spec (h : Quiet lib s q n) (hheap : s.next_heap.toNat ≤ 2 ^ 32)
    {regs : List Byte} (hregs : regs.length = 64) :
    Quiet lib (context_switch regs s (next s.mem s.tp)) (q.rotate 1) n ∧
      next s.mem s.tp ∈ q := by
  obtain ⟨l, rfl⟩ := h.cons
  have ha : s.tp ∈ s.tp :: l := List.mem_cons_self
  have hdst : next s.mem s.tp ∈ s.tp :: l := h.ring.next_mem
  obtain ⟨m', hm⟩ : ∃ m', m' = st32 (write s.mem (s.tp + 16) regs) (s.tp + 28) s.tp := ⟨_, rfl⟩
  have hsame : ∀ x ∈ s.tp :: l, ∀ j, j ≤ 12 → ld32 m' (x + BitVec.ofNat 32 j) =
      ld32 s.mem (x + BitVec.ofNat 32 j) := fun x hx j hj =>
    save_field h.objects hheap ha hx hregs hm j (.inl hj) (.inr hj)
  -- every thread has its own address in its context now
  have htps : ∀ x ∈ s.tp :: l, ld32 m' (x + 28) = x := by
    intro x hx
    by_cases hax : s.tp = x
    · rw [hm, ← hax]
      exact ld32_st32_same ..
    · have hxl : x ∈ l := by
        rcases List.mem_cons.mp hx with rfl | hx
        · exact absurd rfl hax
        · exact hx
      exact (save_field h.objects hheap ha hx hregs hm 28 (.inr rfl) (.inl hax)).trans
        (h.tps x hxl)
  have hsys : context_switch regs s (next s.mem s.tp) =
      { s with mem := m', tp := next s.mem s.tp } := by
    unfold context_switch
    dsimp only
    rw [← hm, htps _ hdst]
  rw [hsys]
  exact ⟨h.rotated rfl rfl rfl (fun x hx => hsame x hx 8 (by omega))
    (fun x hx => hsame x hx 12 (by omega)) htps, hdst⟩

/-- The last statements of `thread_exit` take the running thread out of the ring. -/
theorem exit_unlink.ring {b : Word} {rest : List Word} (h : Quiet lib s (s.tp :: b :: rest) n)
    (hheap : s.next_heap.toNat ≤ 2 ^ 32) {l : Locals} (hnext : l.next = next s.mem s.tp)
    (hprev : l.prev = prev s.mem s.tp) :
    ∃ m', run_all exit_unlink s l = ({ s with mem := m' }, l) ∧
      Ring (next m') (prev m') (b :: rest) ∧ ∀ x ∈ b :: rest, ld32 m' (x + 28) = x := by
  have hb : l.next = b := by
    rw [hnext]
    exact h.ring.2.1
  have h1 : st32 s.mem (l.next + 12) l.prev = st32 s.mem (b + 12) (prev s.mem s.tp) := by
    rw [hb, hprev]
  have h2 : st32 (st32 s.mem (l.next + 12) l.prev) (l.prev + 8) l.next =
      st32 (st32 s.mem (l.next + 12) l.prev) (prev s.mem s.tp + 8) b := by rw [hb, hprev]
  obtain ⟨hring, htps⟩ := unlink_ring h.objects hheap h.ring h1 h2 rfl rfl
  exact ⟨_, rfl, hring, fun x hx => (htps x hx).trans (h.tps x hx)⟩

/-- And its switch. -/
theorem exit_unlink.spec {b : Word} {rest : List Word} (h : Quiet lib s (s.tp :: b :: rest) n)
    (hheap : s.next_heap.toNat ≤ 2 ^ 32) {l : Locals} (hnext : l.next = next s.mem s.tp)
    (hprev : l.prev = prev s.mem s.tp) {regs : List Byte} (hregs : regs.length = 64) :
    ∃ m', run_all exit_unlink s l = ({ s with mem := m' }, l) ∧
      Quiet lib (context_switch regs { s with mem := m' } l.next) (b :: rest) n := by
  have hb : l.next = b := by
    rw [hnext]
    exact h.ring.2.1
  obtain ⟨m4, hrun, hring, htps⟩ := exit_unlink.ring h hheap hnext hprev
  refine ⟨m4, hrun, ?_⟩
  obtain ⟨m', hm⟩ : ∃ m', m' = st32 (write m4 (s.tp + 16) regs) (s.tp + 28) s.tp := ⟨_, rfl⟩
  have ha : s.tp ∈ s.tp :: b :: rest := List.mem_cons_self
  have hin : ∀ x ∈ b :: rest, x ∈ s.tp :: b :: rest := fun x => List.mem_cons_of_mem _
  have hne : ∀ x ∈ b :: rest, s.tp ≠ x := by
    rintro x hx e
    exact (List.nodup_cons.mp h.ring.1).1 (e ▸ hx)
  have hsame : ∀ x ∈ b :: rest, ∀ j, (j ≤ 12 ∨ j = 28) → ld32 m' (x + BitVec.ofNat 32 j) =
      ld32 m4 (x + BitVec.ofNat 32 j) := fun x hx j hj =>
    save_field h.objects hheap ha (hin x hx) hregs hm j hj (.inl (hne x hx))
  have htps' : ∀ x ∈ b :: rest, ld32 m' (x + 28) = x := fun x hx =>
    (hsame x hx 28 (.inr rfl)).trans (htps x hx)
  have hsys : context_switch regs { s with mem := m4 } l.next = { s with mem := m', tp := b } := by
    unfold context_switch
    dsimp only
    rw [← hm, hb, htps' b List.mem_cons_self]
  rw [hsys]
  exact ⟨h.heap, h.stack, h.objects.sub hin,
    hring.congr (fun x hx => hsame x hx 8 (by omega)) (fun x hx => hsame x hx 12 (by omega)),
    rfl, fun x hx => htps' x (List.mem_cons_of_mem _ hx)⟩

end

/-! ## The queue -/

/-- What an event does to the queue of the threads, the running one first. -/
def Event.apply (q : List Word) : Event → List Word
  | .inner | .call => q
  | .create t => q ++ [t]
  | .exit _ => q.tail
  | .switch => q.rotate 1

/-- The queue after the events of a run, from `thread0` alone. -/
def queue (lay : Layout) (es : List Event) : List Word := es.foldl Event.apply [lay.thread0]

theorem queue_snoc (lay : Layout) (es : List Event) (e : Event) :
    queue lay (es ++ [e]) = e.apply (queue lay es) := List.foldl_concat ..

/-- A thread that was there at some time of a run. -/
def Known (lay : Layout) (es : List Event) (t : Word) : Prop :=
  t = lay.thread0 ∨ Event.create t ∈ es

/-- How a state came about: `n` calls of `thread_create` were made, and what has run of a function
of the library began at a state at rest, whose heap ended at `heap`. -/
inductive At (lib : Lib) (lay : Layout) (q : List Word) (heap : Nat) : Nat → Sys → Pc → Prop
  | user {n : Nat} {s : Sys} (h : Quiet lib s q n) (e : s.next_heap.toNat = heap) :
      At lib lay q heap n s .user
  | create {n : Nat} {s s0 : Sys} {l l0 : Locals} {fn arg : Word} {done rest : List Stmt}
      (h : Quiet lib s0 q n) (e : s0.next_heap.toNat = heap)
      (hbody : thread_create lib lay fn arg = done ++ rest) (hrun : run_all done s0 l0 = (s, l)) :
      At lib lay q heap (n + 1) s (.thread_create rest l)
  | head {n : Nat} {s s0 : Sys} {l l0 : Locals} {done rest : List Stmt}
      (h : Quiet lib s0 q n) (e : s0.next_heap.toNat = heap)
      (hbody : exit_head lib = done ++ rest) (hrun : run_all done s0 l0 = (s, l)) :
      At lib lay q heap n s (.exit_head rest l)
  | unlink {n : Nat} {s s0 : Sys} {l l0 : Locals} {done rest : List Stmt}
      (h : Quiet lib s0 q n) (e : s0.next_heap.toNat = heap)
      (hnext : l0.next = next s0.mem s0.tp) (hprev : l0.prev = prev s0.mem s0.tp)
      (hmore : l0.next ≠ s0.tp) (hbody : exit_unlink = done ++ rest)
      (hrun : run_all done s0 l0 = (s, l)) : At lib lay q heap n s (.exit_unlink rest l)
  | all_exited {n : Nat} {s : Sys} (h : Quiet lib s q n) (e : s.next_heap.toNat = heap)
      (hlast : next s.mem s.tp = s.tp) : At lib lay q heap n s .all_exited

/-- What holds in every state of a run with the events `es`. -/
structure Inv (lib : Lib) (lay : Layout) (es : List Event) (c : Cpu) : Prop where
  /-- Where the running thread is, and that every thread there was is below the heap's end. -/
  state : ∃ heap, At lib lay (queue lay es) heap (es.count .call) c.sys c.pc ∧
    ∀ t, Known lay es t → t.toNat + 80 ≤ heap
  /-- Inside the library the timer is masked. -/
  masked : c.pc ≠ .user → lib.preemptive = true → c.sys.sie = false
  /-- The other threads of the queue are in their own code. -/
  waiting : ∀ t ∈ (queue lay es).tail, c.ctxt t = .user
  members : ∀ t, t ∈ queue lay es ↔ Known lay es t ∧ Event.exit t ∉ es
  exited : ∀ t, Event.exit t ∈ es → Known lay es t

section

variable {lib : Lib} {lay : Layout} {es : List Event} {c c' : Cpu}

/-- An event that neither creates nor ends a thread leaves the same threads. -/
theorem members_same {e : Event} (h : ∀ t, t ∈ queue lay es ↔ Known lay es t ∧ Event.exit t ∉ es)
    (hq : ∀ t, t ∈ e.apply (queue lay es) ↔ t ∈ queue lay es) (hc : ∀ t, e ≠ .create t)
    (hx : ∀ t, e ≠ .exit t) :
    ∀ t, t ∈ queue lay (es ++ [e]) ↔ Known lay (es ++ [e]) t ∧ Event.exit t ∉ es ++ [e] := by
  intro t
  rw [queue_snoc, hq t, h t]
  simp [Known, (hc t).symm, (hx t).symm]

/-- A statement that leaves the mask alone. -/
def KeepsMask (stmt : Stmt) : Prop := ∀ s l, (stmt s l).1.sie = s.sie

theorem create_keeps_mask (fn arg : Word) :
    ∀ stmt ∈ thread_create lib lay fn arg, KeepsMask stmt := by
  intro stmt h
  unfold thread_create create_context at h
  rw [List.mem_append, List.mem_append] at h
  rcases h with h | h | h
  · revert stmt
    simp [create_link, KeepsMask, Sys.store, Sys.memset, alloc]
  · revert stmt
    simp [KeepsMask, Sys.store, Sys.memset, alloc_stack]
  · split at h
    · revert stmt
      simp [trap_frame, KeepsMask, Sys.store, Sys.memset]
    · revert stmt
      simp [thunk, KeepsMask, Sys.store]

theorem head_keeps_mask : ∀ stmt ∈ exit_head lib, KeepsMask stmt := by
  intro stmt h
  unfold exit_head at h
  rw [List.mem_append] at h
  rcases h with h | h
  · split at h
    · revert stmt
      simp [KeepsMask]
    · exact absurd h List.not_mem_nil
  · revert stmt
    simp [KeepsMask]

theorem unlink_keeps_mask : ∀ stmt ∈ exit_unlink, KeepsMask stmt := by
  simp [exit_unlink, KeepsMask, Sys.store]

/-- The next statement of what has run. -/
theorem run_all_snoc {s0 s : Sys} {l0 l : Locals} {done : List Stmt} {stmt : Stmt}
    (h : run_all done s0 l0 = (s, l)) :
    run_all (done ++ [stmt]) s0 l0 = ((stmt s l).1, (stmt s l).2) := by
  rw [run_all_append, h]
  rfl

theorem exit_head.spec (lib : Lib) (s : Sys) (l : Locals) : ∃ spie, run_all (exit_head lib) s l =
    ({ s with spie := spie }, { l with next := next s.mem s.tp, prev := prev s.mem s.tp }) := by
  unfold exit_head
  split
  · exact ⟨true, rfl⟩
  · exact ⟨s.spie, rfl⟩

theorem head_done {lib : Lib} {s0 s : Sys} {l0 l : Locals} {done : List Stmt}
    (hbody : exit_head lib = done ++ []) (hrun : run_all done s0 l0 = (s, l)) :
    ∃ spie, s = { s0 with spie := spie } ∧
      l = { l0 with next := next s0.mem s0.tp, prev := prev s0.mem s0.tp } := by
  obtain ⟨spie, h⟩ := exit_head.spec lib s0 l0
  rw [hbody, List.append_nil, hrun, Prod.mk.injEq] at h
  exact ⟨spie, h⟩

/-- The bits of `sstatus` do not matter to the library at rest. -/
theorem Quiet.bits {s : Sys} {q : List Word} {n : Nat} (h : Quiet lib s q n) (sie spie : Bool) :
    Quiet lib { s with sie := sie, spie := spie } q n :=
  ⟨h.heap, h.stack, h.objects, h.ring, h.head, h.tps⟩

theorem Quiet.of_bits {s s' : Sys} {q : List Word} {n : Nat} (h : Quiet lib s q n)
    (e : ∃ sie spie, s' = { s with sie := sie, spie := spie }) : Quiet lib s' q n := by
  obtain ⟨sie, spie, rfl⟩ := e
  exact h.bits sie spie

theorem irq_disable_bits (lib : Lib) (s : Sys) : ∃ sie spie, irq_disable lib s =
    { s with sie := sie, spie := spie } := by
  unfold irq_disable
  split
  · exact ⟨false, s.spie, rfl⟩
  · exact ⟨s.sie, s.spie, rfl⟩

theorem irq_enable_bits (lib : Lib) (s : Sys) : ∃ sie spie, irq_enable lib s =
    { s with sie := sie, spie := spie } := by
  unfold irq_enable
  split
  · exact ⟨true, s.spie, rfl⟩
  · exact ⟨s.sie, s.spie, rfl⟩

theorem sret_bits (lib : Lib) (s : Sys) :
    ∃ sie spie, sret lib s = { s with sie := sie, spie := spie } := by
  unfold sret
  split
  · exact ⟨s.spie, true, rfl⟩
  · exact ⟨s.sie, s.spie, rfl⟩

/-! ## Every step -/

theorem known_snoc {e : Event} {t : Word} (h : ∀ t, e ≠ .create t) :
    Known lay (es ++ [e]) t ↔ Known lay es t := by
  simp [Known, (h t).symm]

/-- A step of the running thread that is no event for the queue. -/
theorem Inv.inner (h : Inv lib lay es c) (hctxt : c'.ctxt = c.ctxt)
    (hat : ∀ heap n, At lib lay (queue lay es) heap n c.sys c.pc →
      At lib lay (queue lay es) heap n c'.sys c'.pc)
    (hmask : c'.pc ≠ .user → lib.preemptive = true → c'.sys.sie = false) :
    Inv lib lay (es ++ [.inner]) c' := by
  have hq : queue lay (es ++ [.inner]) = queue lay es := queue_snoc lay es .inner
  obtain ⟨heap, hstate, hpast⟩ := h.state
  refine ⟨⟨heap, ?_, ?_⟩, hmask, ?_, ?_, ?_⟩
  · rw [hq, List.count_append]
    exact hat heap _ hstate
  · intro t ht
    exact hpast t ((known_snoc (by simp)).mp ht)
  · rw [hq, hctxt]
    exact h.waiting
  · exact members_same h.members (fun t => Iff.rfl) (by simp) (by simp)
  · intro t ht
    rw [known_snoc (by simp)]
    exact h.exited t (by simpa using ht)

theorem Inv.call (h : Inv lib lay es c) (hpc : c.pc = .user) (fn arg : Word) (l : Locals) :
    Inv lib lay (es ++ [.call]) { c with
      sys := irq_disable lib c.sys
      pc := .thread_create (thread_create lib lay fn arg) l } := by
  have hq : queue lay (es ++ [.call]) = queue lay es := queue_snoc lay es .call
  obtain ⟨heap, hstate, hpast⟩ := h.state
  rw [hpc] at hstate
  have hn : (es ++ [Event.call]).count Event.call = es.count Event.call + 1 := by simp
  refine ⟨⟨heap, ?_, ?_⟩, ?_, ?_, ?_, ?_⟩
  · rw [hq, hn]
    generalize es.count Event.call = n at hstate ⊢
    cases hstate with
    | user hquiet e =>
      obtain ⟨sie, spie, hbits⟩ := irq_disable_bits lib c.sys
      have hquiet' := hquiet.of_bits (irq_disable_bits lib c.sys)
      exact .create hquiet' (by rw [hbits]; exact e) (List.nil_append _).symm rfl
  · intro t ht
    exact hpast t ((known_snoc (by simp)).mp ht)
  · intro _ hp
    show (irq_disable lib c.sys).sie = false
    rw [irq_disable, if_pos hp]
  · rw [hq]
    exact h.waiting
  · exact members_same h.members (fun t => Iff.rfl) (by simp) (by simp)
  · intro t ht
    rw [known_snoc (by simp)]
    exact h.exited t (by simpa using ht)

theorem Inv.create_return (hlib : 4096 ≤ lib.stack_size.toNat) (h : Inv lib lay es c)
    {l : Locals} (hpc : c.pc = .thread_create [] l) (hfits : lib.Fits (es.count .call)) :
    Inv lib lay (es ++ [.create l.t])
      { sys := irq_enable lib c.sys, pc := .user, ctxt := Function.update c.ctxt l.t .user } := by
  have hq : queue lay (es ++ [.create l.t]) = queue lay es ++ [l.t] := queue_snoc lay es _
  have hn : (es ++ [Event.create l.t]).count Event.call = es.count Event.call := by simp
  obtain ⟨heap, hstate, hpast⟩ := h.state
  rw [hpc] at hstate
  generalize hcount : es.count .call = n at *
  cases hstate with
  | @create n _ s0 _ l0 fn arg done _ hquiet e hbody hrun =>
    rw [List.append_nil] at hbody
    obtain ⟨s', hrun', hquiet'⟩ := @thread_create.spec _ lay _ _ _ hquiet hlib hfits fn arg l0
    rw [hbody, hrun, Prod.mk.injEq] at hrun'
    obtain ⟨rfl, hl⟩ := hrun'
    have ht : l.t = s0.next_heap := by rw [hl]
    have hnew : c.sys.next_heap.toNat = heap + 96 := by
      rw [hquiet'.heap, ← e, hquiet.heap]
      ring
    -- no thread ever stood where the new one does
    have hfresh : ¬ Known lay es l.t := by
      intro hk
      have := hpast _ hk
      rw [ht, e] at this
      omega
    have hknown (t : Word) : Known lay (es ++ [.create l.t]) t ↔ Known lay es t ∨ t = l.t := by
      simp [Known, or_assoc]
    refine ⟨⟨heap + 96, ?_, ?_⟩, ?_, ?_, ?_, ?_⟩
    · rw [hq, hn, ht]
      obtain ⟨sie, spie, hbits⟩ := irq_enable_bits lib c.sys
      exact .user (hquiet'.of_bits (irq_enable_bits lib c.sys)) (by rw [hbits]; exact hnew)
    · intro t hk
      rcases (hknown t).mp hk with hk | rfl
      · have := hpast t hk
        omega
      · rw [ht, e]
        omega
    · exact fun hne => absurd rfl hne
    · intro t htail
      show Function.update c.ctxt l.t Pc.user t = .user
      by_cases htt : t = l.t
      · rw [htt, Function.update_self]
      · rw [Function.update_of_ne htt]
        apply h.waiting t
        rw [hq] at htail
        obtain ⟨rest, hcons⟩ := hquiet.cons
        rw [hcons] at htail ⊢
        simpa [htt] using htail
    · intro t
      rw [hq, List.mem_append, List.mem_singleton, h.members t, hknown]
      by_cases htt : t = l.t
      · subst htt
        have hx : Event.exit l.t ∉ es := fun hx => hfresh (h.exited _ hx)
        simp [hx]
      · simp [htt]
    · intro t hx
      rw [hknown]
      exact .inl (h.exited t (by simpa using hx))

/-- A switch from the library at rest to the next thread of the queue. -/
theorem Inv.switch (h : Inv lib lay es c) (hpc : c.pc = .user) (sie spie : Bool)
    {regs : List Byte} (hregs : regs.length = 64) :
    Inv lib lay (es ++ [.switch])
      (Cpu.switch lib { c with sys := { c.sys with sie := sie, spie := spie } } regs
        (next c.sys.mem c.sys.tp) c.pc) := by
  have hq : queue lay (es ++ [.switch]) = (queue lay es).rotate 1 := queue_snoc lay es _
  have hn : (es ++ [Event.switch]).count Event.call = es.count Event.call := by simp
  obtain ⟨heap, hstate, hpast⟩ := h.state
  have hwait := h.waiting
  rw [hpc] at hstate
  generalize es.count Event.call = n at *
  cases hstate with
  | user hquiet e =>
    have hsw := context_switch.spec (hquiet.bits sie spie) c.sys.next_heap.isLt.le hregs
    obtain ⟨hquiet', hdst⟩ := hsw
    -- every thread of the queue is in its own code now, the one that ran too
    have hctxt : ∀ t ∈ queue lay es,
        Function.update c.ctxt c.sys.tp c.pc t = .user := by
      intro t ht
      by_cases htt : t = c.sys.tp
      · rw [htt, Function.update_self, hpc]
      · rw [Function.update_of_ne htt]
        apply hwait t
        obtain ⟨rest, hcons⟩ := hquiet.cons
        rw [hcons] at ht ⊢
        simpa [htt] using ht
    have hpc' : (Cpu.switch lib { c with sys := { c.sys with sie := sie, spie := spie } } regs
        (next c.sys.mem c.sys.tp) c.pc).pc = .user := hctxt _ hdst
    refine ⟨⟨heap, ?_, ?_⟩, ?_, ?_, ?_, ?_⟩
    · rw [hq, hn, hpc']
      obtain ⟨sie', spie', hbits⟩ := sret_bits lib
        (context_switch regs { c.sys with sie := sie, spie := spie } (next c.sys.mem c.sys.tp))
      refine .user (hquiet'.of_bits (sret_bits lib _)) ?_
      show (sret lib _).next_heap.toNat = heap
      rw [hbits]
      exact e
    · intro t ht
      exact hpast t ((known_snoc (by simp)).mp ht)
    · exact fun hne => absurd hpc' hne
    · intro t ht
      rw [hq] at ht
      exact hctxt t (List.mem_rotate.mp (List.mem_of_mem_tail ht))
    · exact members_same h.members (fun t => List.mem_rotate) (by simp) (by simp)
    · intro t ht
      rw [known_snoc (by simp)]
      exact h.exited t (by simpa using ht)

/-- The switch of `thread_exit`: the running thread leaves, and the next one runs. -/
theorem Inv.exit (h : Inv lib lay es c) {l : Locals} (hpc : c.pc = .exit_unlink [] l)
    {regs : List Byte} (hregs : regs.length = 64) :
    Inv lib lay (es ++ [.exit c.sys.tp]) (Cpu.switch lib c regs l.next .zombie) := by
  have hq : queue lay (es ++ [.exit c.sys.tp]) = (queue lay es).tail := queue_snoc lay es _
  have hn : (es ++ [Event.exit c.sys.tp]).count Event.call = es.count Event.call := by simp
  obtain ⟨heap, hstate, hpast⟩ := h.state
  have hwait := h.waiting
  have hmem := h.members
  rw [hpc] at hstate
  generalize es.count Event.call = n at *
  cases hstate with
  | @unlink _ _ s0 _ l0 done _ hquiet e hnext hprev hmore hbody hrun =>
    rw [List.append_nil] at hbody
    obtain ⟨rest, hcons⟩ := hquiet.cons
    cases rest with
    | nil =>
      -- a thread alone would have stayed in its loop
      have halone := (hcons ▸ hquiet.ring).next_eq_self_iff.mpr rfl
      exact absurd (hnext.trans halone) hmore
    | cons b rest =>
      rw [hcons] at hquiet hq hwait hmem
      obtain ⟨m', hrun', hquiet'⟩ := exit_unlink.spec hquiet s0.next_heap.isLt.le hnext hprev hregs
      rw [hbody, hrun, Prod.mk.injEq] at hrun'
      obtain ⟨hsys, hl⟩ := hrun'
      have htp : c.sys.tp = s0.tp := by rw [hsys]
      have hb : l.next = b := by
        rw [hl, hnext]
        exact hquiet.ring.2.1
      have hne : ∀ t ∈ b :: rest, t ≠ s0.tp := by
        rintro t ht rfl
        exact (List.nodup_cons.mp hquiet.ring.1).1 ht
      have hctxt : ∀ t ∈ b :: rest, Function.update c.ctxt c.sys.tp Pc.zombie t = .user := by
        intro t ht
        rw [htp, Function.update_of_ne (hne t ht)]
        exact hwait t ht
      have hpc' : (Cpu.switch lib c regs l.next .zombie).pc = .user := by
        rw [hb]
        exact hctxt b List.mem_cons_self
      refine ⟨⟨heap, ?_, ?_⟩, ?_, ?_, ?_, ?_⟩
      · rw [hq, hn, hpc']
        obtain ⟨sie', spie', hbits⟩ := sret_bits lib (context_switch regs c.sys l.next)
        have hquiet2 : Quiet lib (context_switch regs c.sys l.next) (b :: rest) n := by
          rw [hsys, hl]
          exact hquiet'
        refine .user (hquiet2.of_bits (sret_bits lib _)) ?_
        show (sret lib _).next_heap.toNat = heap
        rw [hbits, ← e, hsys]
        rfl
      · intro t ht
        exact hpast t ((known_snoc (by simp)).mp ht)
      · exact fun hp => absurd hpc' hp
      · intro t ht
        rw [hq] at ht
        exact hctxt t (List.mem_of_mem_tail ht)
      · intro t
        have ht := hmem t
        rw [hq, known_snoc (by simp), List.mem_append, List.mem_singleton, Event.exit.injEq, htp]
        by_cases htt : t = s0.tp
        · subst htt
          have hnot : s0.tp ∉ b :: rest := (List.nodup_cons.mp hquiet.ring.1).1
          simpa using hnot
        · have hcase : (Event.exit t ∈ es ∨ t = s0.tp) ↔ Event.exit t ∈ es := by simp [htt]
          rw [hcase, ← ht, List.mem_cons]
          simp [htt]
      · intro t ht
        rw [known_snoc (by simp)]
        rcases List.mem_append.mp ht with ht | ht
        · exact h.exited t ht
        · rw [List.mem_singleton, Event.exit.injEq] at ht
          rw [ht, htp]
          exact ((hmem s0.tp).mp List.mem_cons_self).1

/-- The statements that are left are statements of the body. -/
theorem mem_of_body {body done rest : List Stmt} {stmt : Stmt} (h : body = done ++ stmt :: rest) :
    stmt ∈ body := by
  rw [h]
  simp

/-- Every statement, call and switch keeps the invariant. -/
theorem Inv.step {e : Event} (hlib : 4096 ≤ lib.stack_size.toNat) (h : Inv lib lay es c)
    (hs : Step lib lay c e c') (hfits : lib.Fits ((es ++ [e]).count .call)) :
    Inv lib lay (es ++ [e]) c' := by
  cases hs with
  | irq on hpc =>
    refine h.inner rfl ?_ (fun hne => absurd hpc hne)
    intro heap n hat
    rw [hpc] at hat
    cases hat with
    | user hq e =>
      show At lib lay _ heap n _ c.pc
      rw [hpc]
      exact .user (hq.bits on c.sys.spie) e
  | call_create fn arg l hpc => exact h.call hpc fn arg l
  | @create_stmt _ stmt rest l hpc =>
    obtain ⟨heap, hstate, _⟩ := h.state
    have hmask := h.masked (by simp [hpc])
    refine h.inner rfl ?_ ?_
    · intro heap n hat
      rw [hpc] at hat
      cases hat with
      | create hq e hbody hrun =>
        exact .create hq e (by rw [hbody]; exact List.append_cons ..) (run_all_snoc hrun)
    · intro _ hp
      rw [hpc] at hstate
      generalize es.count Event.call = n at hstate
      cases hstate with
      | create hq e hbody hrun =>
        exact (create_keeps_mask _ _ stmt (mem_of_body hbody) _ _).trans (hmask hp)
  | create_return hpc => exact h.create_return hlib hpc (by simpa using hfits)
  | call_exit l hpc =>
    refine h.inner rfl ?_ ?_
    · intro heap n hat
      rw [hpc] at hat
      cases hat with
      | user hq e =>
        obtain ⟨sie, spie, hbits⟩ := irq_disable_bits lib c.sys
        exact .head (hq.of_bits (irq_disable_bits lib c.sys)) (by rw [hbits]; exact e)
          (List.nil_append _).symm rfl
    · intro _ hp
      show (irq_disable lib c.sys).sie = false
      rw [irq_disable, if_pos hp]
  | @head_stmt _ stmt rest l hpc =>
    obtain ⟨heap, hstate, _⟩ := h.state
    have hmask := h.masked (by simp [hpc])
    refine h.inner rfl ?_ ?_
    · intro heap n hat
      rw [hpc] at hat
      cases hat with
      | head hq e hbody hrun =>
        exact .head hq e (by rw [hbody]; exact List.append_cons ..) (run_all_snoc hrun)
    · intro _ hp
      rw [hpc] at hstate
      generalize es.count Event.call = n at hstate
      cases hstate with
      | head hq e hbody hrun =>
        exact (head_keeps_mask stmt (mem_of_body hbody) _ _).trans (hmask hp)
  | @exit_last _ l hpc hlast =>
    have hmask := h.masked (by simp [hpc])
    refine h.inner rfl ?_ (fun _ hp => hmask hp)
    intro heap n hat
    rw [hpc] at hat
    cases hat with
    | @head _ _ s0 _ l0 done _ hq e hbody hrun =>
      obtain ⟨spie, hsys, rfl⟩ := head_done hbody hrun
      refine .all_exited (hsys ▸ hq.bits s0.sie spie) (by rw [hsys]; exact e) ?_
      rw [hsys] at hlast ⊢
      exact hlast
  | @exit_more _ l hpc hmore =>
    have hmask := h.masked (by simp [hpc])
    refine h.inner rfl ?_ (fun _ hp => hmask hp)
    intro heap n hat
    rw [hpc] at hat
    cases hat with
    | @head _ _ s0 _ l0 done _ hq e hbody hrun =>
      obtain ⟨spie, hsys, rfl⟩ := head_done hbody hrun
      exact .unlink (hsys ▸ hq.bits s0.sie spie) (by rw [hsys]; exact e) (by rw [hsys])
        (by rw [hsys]) hmore (List.nil_append _).symm rfl
  | @unlink_stmt _ stmt rest l hpc =>
    obtain ⟨heap, hstate, _⟩ := h.state
    have hmask := h.masked (by simp [hpc])
    refine h.inner rfl ?_ ?_
    · intro heap n hat
      rw [hpc] at hat
      cases hat with
      | unlink hq e hnext hprev hmore hbody hrun =>
        exact .unlink hq e hnext hprev hmore (by rw [hbody]; exact List.append_cons ..)
          (run_all_snoc hrun)
    · intro _ hp
      rw [hpc] at hstate
      generalize es.count Event.call = n at hstate
      cases hstate with
      | unlink hq e hnext hprev hmore hbody hrun =>
        exact (unlink_keeps_mask stmt (mem_of_body hbody) _ _).trans (hmask hp)
  | exit_switch regs hpc hregs => exact h.exit hpc hregs
  | yield regs _ hpc hregs => exact h.switch hpc c.sys.sie c.sys.spie hregs
  | interrupt regs hp hsie hregs =>
    -- an interrupt is only taken in a thread's own code
    have hpc : c.pc = .user := by
      by_contra hne
      rw [h.masked hne hp] at hsie
      exact Bool.false_ne_true hsie
    exact h.switch hpc false true hregs

theorem Inv.start (h : Start lay c) : Inv lib lay [] c := by
  have hheap : c.sys.next_heap.toNat = 0x40100000 := by
    rw [h.next_heap]
    decide
  have hstack : c.sys.next_stack.toNat = 0x41FFF000 := by
    rw [h.next_stack]
    decide
  have hbelow := lay.thread0_below
  have hq : queue lay [] = [lay.thread0] := rfl
  refine ⟨⟨0x40100000, ?_, ?_⟩, fun hne => absurd h.pc hne, ?_, ?_, ?_⟩
  · rw [h.pc, hq]
    refine .user ⟨hheap, by rw [hstack]; simp, ⟨?_, ?_⟩, ⟨by simp, h.next, h.prev⟩, ?_, ?_⟩ hheap
    · intro a ha
      rw [List.mem_singleton.mp ha, hheap]
      exact hbelow
    · intro a ha b hb hab
      rw [List.mem_singleton.mp ha, List.mem_singleton.mp hb] at hab
      exact absurd rfl hab
    · rw [h.tp]
      rfl
    · intro a ha
      exact absurd ha List.not_mem_nil
  · intro t ht
    rcases ht with rfl | ht
    · exact hbelow
    · exact absurd ht List.not_mem_nil
  · intro t ht
    exact absurd ht List.not_mem_nil
  · intro t
    simp [hq, Known]
  · intro t ht
    exact absurd ht List.not_mem_nil

/-- In every run whose threads fit into the memory. -/
theorem run_inv (hlib : 4096 ≤ lib.stack_size.toNat) {c0 : Cpu} (h0 : Start lay c0)
    (h : Run (Step lib lay) c0 es c) (hfits : lib.Fits (es.count .call)) : Inv lib lay es c := by
  induction h with
  | nil => exact Inv.start h0
  | snoc _ hlast ih =>
    refine (ih ?_).step hlib hlast hfits
    exact hfits.mono (by rw [List.count_append]; exact Nat.le_add_right _ _)

/-- In both libraries, whenever the running thread can be switched from, the ring from it on is
the queue: created threads at its end, moved up by each switch and exit, and left by exit alone.
No thread that has exited is on it, and none of them runs again. -/
theorem the_ring_is_the_queue (hlib : lib = cooperative ∨ lib = preemptive) {c0 : Cpu}
    (h0 : Start lay c0) (h : Run (Step lib lay) c0 es c) (hfits : lib.Fits (es.count .call)) :
    (c.pc = .user ∨ lib.preemptive = true ∧ c.sys.sie = true →
      Ring (next c.sys.mem) (prev c.sys.mem) (queue lay es) ∧
      (queue lay es).head? = some c.sys.tp ∧
      ∀ t ∈ queue lay es, prev c.sys.mem (next c.sys.mem t) = t ∧
        next c.sys.mem (prev c.sys.mem t) = t) ∧
    c.pc ≠ .zombie ∧ (queue lay es).Nodup ∧
    (∀ t, t ∈ queue lay es ↔ Known lay es t ∧ Event.exit t ∉ es) ∧
    ∀ k t e, (queue lay es)[k + 1]? = some t → (e = .switch ∨ ∃ u, e = .exit u) →
      (queue lay (es ++ [e]))[k]? = some t := by
  have hstack : 4096 ≤ lib.stack_size.toNat := by
    rcases hlib with rfl | rfl <;> decide
  have hinv := run_inv hstack h0 h hfits
  obtain ⟨heap, hstate, _⟩ := hinv.state
  generalize es.count Event.call = n at hstate
  refine ⟨?_, ?_, ?_, hinv.members, ?_⟩
  · intro hquiet
    have hpc : c.pc = .user := by
      rcases hquiet with hpc | ⟨hp, hsie⟩
      · exact hpc
      · by_contra hne
        rw [hinv.masked hne hp] at hsie
        exact Bool.false_ne_true hsie
    rw [hpc] at hstate
    cases hstate with
    | user hq e => exact ⟨hq.ring, hq.head, fun t ht => hq.ring.inverse ht⟩
  · intro hz
    rw [hz] at hstate
    cases hstate
  · generalize c.pc = pc at hstate
    cases hstate with
    | user h e | create h e | head h e | unlink h e | all_exited h e => exact h.ring.nodup
  · intro k t e hk he
    rw [queue_snoc]
    cases hq : queue lay es with
    | nil => simp [hq] at hk
    | cons a l =>
      rw [hq, List.getElem?_cons_succ] at hk
      rcases he with rfl | ⟨u, rfl⟩
      · show ((a :: l).rotate 1)[k]? = some t
        have hrot : (a :: l).rotate 1 = l ++ [a] := by simp
        have hlt : k < l.length := (List.getElem?_eq_some_iff.mp hk).1
        rw [hrot, List.getElem?_append_left hlt]
        exact hk
      · exact hk

/-! ## The heap and the stacks meet -/

/-- The rest of `thread_create` runs to its end. -/
theorem create_runs {rest : List Stmt} {l : Locals} (hpc : c.pc = .thread_create rest l) :
    Run (Step lib lay) c (List.replicate rest.length .inner)
      { c with
        sys := (run_all rest c.sys l).1
        pc := .thread_create [] (run_all rest c.sys l).2 } := by
  induction rest generalizing c l with
  | nil =>
    have e : c = { c with sys := c.sys, pc := .thread_create [] l } := by rw [← hpc]
    rw [e]
    exact .nil
  | cons stmt rest ih =>
    have h1 := Run.single (@Step.create_stmt lib lay _ _ _ _ hpc)
    exact h1.append (ih rfl)

/-- A call of `thread_create` from its first statement to its return. -/
theorem create_call (hpc : c.pc = .user) (fn arg : Word) (l : Locals) :
    ∃ es c', Run (Step lib lay) c es c' ∧ c'.pc = .user ∧ es.count .call = 1 ∧
      c'.sys = irq_enable lib
        (run_all (thread_create lib lay fn arg) (irq_disable lib c.sys) l).1 ∧
      ∀ q, ∃ t, es.foldl Event.apply q = q ++ [t] := by
  have r1 := Run.single (@Step.call_create lib lay _ fn arg l hpc)
  have r2 := r1.append (create_runs rfl)
  have r3 := r2.snoc (Step.create_return rfl)
  refine ⟨_, _, r3, rfl, ?_, rfl, ?_⟩
  · simp [List.count_replicate]
  · intro q
    refine ⟨(run_all (thread_create lib lay fn arg) (irq_disable lib c.sys) l).2.t, ?_⟩
    have hinner (n : Nat) : (List.replicate n Event.inner).foldl Event.apply q = q := by
      induction n with
      | zero => rfl
      | succ n ih => exact ih
    rw [List.foldl_append, List.foldl_append]
    have hcall : [Event.call].foldl Event.apply q = q := rfl
    rw [hcall, hinner]
    rfl

/-- `thread0` creates as many threads as it likes, and runs on. -/
theorem creates_run {c0 : Cpu} (h0 : Start lay c0) (n : Nat) :
    ∃ es c, Run (Step lib lay) c0 es c ∧ c.pc = .user ∧ es.count .call = n ∧
      ∃ l, queue lay es = lay.thread0 :: l := by
  induction n with
  | zero => exact ⟨[], c0, .nil, h0.pc, rfl, [], rfl⟩
  | succ n ih =>
    obtain ⟨es, c, hrun, hpc, hn, l, hq⟩ := ih
    obtain ⟨es', c', hrun', hpc', hn', _, hq'⟩ :=
      @create_call lib lay _ hpc 0 0 ⟨0, 0, 0⟩
    obtain ⟨t, ht⟩ := hq' (queue lay es)
    refine ⟨es ++ es', c', hrun.append hrun', hpc', ?_, l ++ [t], ?_⟩
    · rw [List.count_append, hn, hn']
    · have e : queue lay (es ++ es') = es'.foldl Event.apply (queue lay es) := List.foldl_append
      rw [e, ht, hq]
      rfl

/-- A word inside the filled bytes. -/
theorem ld32_fill_in (m : Mem) {a x : Word} (v : Byte) {n : Nat} (h1 : a.toNat ≤ x.toNat)
    (h2 : x.toNat + 4 ≤ a.toNat + n) : ld32 (fill m a v n) x = word v v v v := by
  unfold ld32
  rw [fill_in m a x v n (by unfold memory.dist; bv_omega),
    fill_in m a (x + 1) v n (by unfold memory.dist; bv_omega),
    fill_in m a (x + 2) v n (by unfold memory.dist; bv_omega),
    fill_in m a (x + 3) v n (by unfold memory.dist; bv_omega)]

/-- A new stack over the `thread_t` that it is for: its `next` is overwritten. -/
theorem stack_over_thread {s : Sys} {l : Locals} (fn arg : Word) {x : Word}
    (ht : l.t.toNat + 80 ≤ 2 ^ 32) (hx : x.toNat + 4 ≤ l.t.toNat)
    (hx' : x.toNat + 4 ≤ (s.next_stack - 8192).toNat)
    (h1 : (s.next_stack - 8192).toNat ≤ l.t.toNat)
    (h2 : l.t.toNat + 12 ≤ (s.next_stack - 8192).toNat + 4096)
    (h3 : (s.next_stack - 8192).toNat + 4096 ≤ 2 ^ 32) :
    let m' := (run_all (create_context cooperative lay fn arg) s l).1.mem
    ld32 m' x = ld32 s.mem x ∧ next m' l.t = 0xEEEEEEEE := by
  have e28 : (l.t + 28).toNat = l.t.toNat + 28 := field_toNat (i := 28) (by omega) (by omega)
  have e20 : (l.t + 20).toNat = l.t.toNat + 20 := field_toNat (i := 20) (by omega) (by omega)
  have e8 : (l.t + 8).toNat = l.t.toNat + 8 := field_toNat (i := 8) (by omega) (by omega)
  have h8192 : cooperative.stack_size = 8192 := rfl
  obtain ⟨m1, hm1⟩ : ∃ m1, m1 = st32 (fill (st32 s.mem (l.t + 28) l.t)
      (s.next_stack - 8192) 0xee 4096) (l.t + 20) s.next_stack := ⟨_, rfl⟩
  have hfirst : run_all [fun s l => (s.store (l.t + 28) l.t, l),
      fun s l => ((alloc_stack cooperative s).1.store (l.t + 20) (alloc_stack cooperative s).2, l)]
      s l = ({ s with mem := m1, next_stack := s.next_stack - 8192 }, l) := by
    rw [hm1]
    rfl
  obtain ⟨m', hrun, hframed⟩ := @thunk.spec 0 0 lay fn arg
    { s with mem := m1, next_stack := s.next_stack - 8192 } l ht
  have hmem : (run_all (create_context cooperative lay fn arg) s l).1.mem = m' := by
    unfold create_context
    rw [run_all_append, hfirst]
    have hco : (if cooperative.preemptive = true then trap_frame lay fn arg else thunk lay fn arg) =
      thunk lay fn arg := rfl
    rw [hco, hrun]
  dsimp only
  rw [hmem]
  constructor
  · rw [hframed x (by omega) (by omega) (.inr (by simp))]
    show ld32 m1 x = _
    rw [hm1, ld32_st32_out _ _ (by omega) (by omega) (by omega),
      ld32_fill_out _ _ (by omega) (by omega) (by omega),
      ld32_st32_out _ _ (by omega) (by omega) (by omega)]
  · show ld32 m' (l.t + 8) = _
    rw [hframed (l.t + 8) (by omega) (by omega) (.inr (by simp))]
    show ld32 m1 (l.t + 8) = _
    rw [hm1, ld32_st32_out _ _ (by omega) (by omega) (by omega),
      ld32_fill_in _ _ (by omega) (by omega)]
    decide

end

/-- A program with `thread0` in its image. -/
def a_layout : Layout where
  thread0 := 0x40010000
  thread0_below := by decide
  context_entry := 0x40008100
  trap_exit := 0x40008200
  thread_exit := 0x40008300

/-- The processor after `thread_init`. -/
def a_start : Cpu where
  sys :=
    { mem := st32 (st32 (fun _ => 0) 0x40010008 0x40010000) 0x4001000C 0x40010000
      next_stack := MEMORY_TOP - 4096
      next_heap := DRAM_BASE + 1024 * 1024
      next_thread_id := 1
      tp := 0x40010000
      sie := false
      spie := false }
  pc := .user
  ctxt := fun _ => .user

theorem a_start_starts : Start a_layout a_start where
  next_stack := rfl
  next_heap := rfl
  tp := rfl
  next := (ld32_st32_apart _ _ _ _ ⟨by decide, by decide⟩).trans (ld32_st32_same ..)
  prev := ld32_st32_same ..
  pc := rfl

/-- After one creation the ring has two threads. -/
theorem the_ring_of_two_threads :
    ∃ es c, Run (Step preemptive a_layout) a_start es c ∧
      Ring (next c.sys.mem) (prev c.sys.mem) (queue a_layout es) := by
  obtain ⟨es, c, hrun, hpc, hn, _⟩ := @creates_run preemptive _ _ a_start_starts 1
  exact ⟨es, c, hrun, ((the_ring_is_the_queue (.inr rfl) a_start_starts hrun
    (by rw [hn]; unfold Lib.Fits; decide)).1 (.inl hpc)).1⟩

/-- The 3922nd creation puts a stack over its own `thread_t`, and the ring is broken. -/
theorem the_ring_breaks_when_the_memory_is_full :
    ∃ es c, Run (Step cooperative a_layout) a_start es c ∧ c.pc = .user ∧
      ¬ Ring (next c.sys.mem) (prev c.sys.mem) (queue a_layout es) := by
  obtain ⟨es, c, hrun, hpc, hn, l, hq⟩ := @creates_run cooperative _ _ a_start_starts 3921
  obtain ⟨es', c', hrun', hpc', _, hsys, hq'⟩ :=
    @create_call cooperative a_layout _ hpc 0 0 ⟨0, 0, 0⟩
  obtain ⟨t', hq'⟩ := hq' (queue a_layout es)
  -- the library at rest before the last creation
  have hinv := @run_inv cooperative _ _ _ (by decide) _ a_start_starts hrun
    (by rw [hn]; unfold Lib.Fits; decide)
  obtain ⟨heap, hstate, _⟩ := hinv.state
  rw [hpc, hn] at hstate
  obtain ⟨k, hk⟩ : ∃ k, k = 3921 := ⟨_, rfl⟩
  rw [← hk] at hstate
  cases hstate with
  | user hquiet _ =>
    have hheap := hquiet.heap
    have hstack := hquiet.stack
    have h8192 : cooperative.stack_size.toNat = 8192 := rfl
    rw [h8192] at hstack
    have htp : c.sys.tp = a_layout.thread0 := by
      have hhead := hquiet.head
      rw [hq] at hhead
      simpa using hhead.symm
    obtain ⟨m1, hlink, hring, _⟩ := create_link.spec hquiet (by omega) ⟨0, 0, 0⟩
    rw [hq] at hring
    have hprev := hring.prev_eq_last
    have hbottom : (c.sys.next_stack - 8192).toNat = c.sys.next_stack.toNat - 8192 := by bv_omega
    obtain ⟨hkeep, hnext⟩ := @stack_over_thread a_layout
      { c.sys with
        mem := m1
        next_heap := c.sys.next_heap + 96
        next_thread_id := c.sys.next_thread_id + 1 }
      ⟨c.sys.next_heap, 0, 0⟩ 0 0 (a_layout.thread0 + 12)
      (by dsimp only; omega)
      (by
        have e : (a_layout.thread0 + 12).toNat = 0x4001000C := rfl
        dsimp only
        omega)
      (by
        have e : (a_layout.thread0 + 12).toNat = 0x4001000C := rfl
        dsimp only
        omega)
      (by dsimp only; omega) (by dsimp only; omega) (by dsimp only; omega)
    have hmem : c'.sys.mem = (run_all (create_context cooperative a_layout 0 0)
        { c.sys with
          mem := m1
          next_heap := c.sys.next_heap + 96
          next_thread_id := c.sys.next_thread_id + 1 } ⟨c.sys.next_heap, 0, 0⟩).1.mem := by
      rw [hsys]
      show (run_all (thread_create cooperative a_layout 0 0) c.sys ⟨0, 0, 0⟩).1.mem = _
      unfold thread_create
      rw [run_all_append, hlink]
    rw [← hmem] at hkeep hnext
    refine ⟨es ++ es', c', hrun.append hrun', hpc', ?_⟩
    intro hbroken
    have hmember : a_layout.thread0 ∈ queue a_layout (es ++ es') := by
      have e : queue a_layout (es ++ es') = es'.foldl Event.apply (queue a_layout es) :=
        List.foldl_append
      rw [e, hq', hq]
      simp
    have hinverse := (hbroken.inverse hmember).2
    have hp : prev c'.sys.mem a_layout.thread0 = c.sys.next_heap := hkeep.trans hprev
    rw [hp, hnext] at hinverse
    exact absurd hinverse (by decide)

end os_workshop.threads
