-- The law of translation: after any calls of `vm_map_4k` and `vm_map_4m` on
-- one directory, the Sv32 walk translates each address as the calls that
-- returned `XOS_OK` say, and no call changes a translation.
import OsWorkshop.PageOwnership

open os_workshop.memory os_workshop.sv32

namespace os_workshop.vmm

/-! ## A list of mapping calls -/

/-- A call of `vm_map_4k`, or of `vm_map_4m` when it is `mega`. -/
structure MapCall where
  mega : Bool
  va : vaddr_t
  pa : paddr_t
  flags : Word

namespace MapCall

def size (c : MapCall) : Nat := if c.mega then 0x400000 else 4096

/-- The address is in the range of the call. -/
def Has (c : MapCall) (x : Word) : Prop := Covers c.va c.size x

instance (c : MapCall) (x : Word) : Decidable (c.Has x) :=
  inferInstanceAs (Decidable (Covers _ _ _))

/-- Where the call sends an address of its range. -/
def goesTo (c : MapCall) (x : Word) : Nat × Word := sendsTo c.va c.pa c.flags x

/-- The call itself, on the directory at the pointer `pdir`. -/
def run (c : MapCall) (pdir : Word) (s : Vmm) : Option (status_t × Vmm) :=
  if c.mega then some (vm_map_4m s pdir c.va c.pa c.flags)
  else vm_map_4k s pdir c.va c.pa c.flags

end MapCall

/-- The calls one by one, with the status of each. -/
def map_calls (pdir : Word) : List MapCall → Vmm → Option (List status_t × Vmm)
  | [], s => some ([], s)
  | c :: cs, s => do
    let (st, s1) ← c.run pdir s
    let (sts, s2) ← map_calls pdir cs s1
    some (st :: sts, s2)

/-- The calls that returned `XOS_OK`. -/
def succeeded : List MapCall → List status_t → List MapCall
  | c :: cs, st :: sts => if st = XOS_OK then c :: succeeded cs sts else succeeded cs sts
  | _, _ => []

/-- The flags of a leaf that the walk accepts: writable only when readable. -/
def ProperFlags (f : Word) : Prop := LeafFlags f ∧ (has f PTE_W = true → has f PTE_R = true)

/-- The abstract map of `done`: the ranges of its calls do not meet, each
address of a range goes where its call sends it, and every other address
faults. -/
structure Translates (m : Mem) (d : paddr_t) (done : List MapCall) : Prop where
  apart : done.Pairwise fun c c' => ∀ x, ¬ (c.Has x ∧ c'.Has x)
  hit : ∀ c ∈ done, ∀ x, c.Has x → walk m d.toNat x = some (c.goesTo x)
  miss : ∀ x, (∀ c ∈ done, ¬ c.Has x) → walk m d.toNat x = none

section

variable {start stop : paddr_t} {s s' : Vmm} {own : Own} {m : Mem} {d : paddr_t}

theorem proper_leaf : ∀ f, ProperFlags f → LeafFlags f := fun _ h => h.1

theorem proper_flagsOf {f : Word} (h : ProperFlags f) : ProperFlags (flagsOf f) := by
  have h0 : has (flagsOf f) PTE_V = has f PTE_V := has_flagsOf f 0 (by omega)
  have h1 : has (flagsOf f) PTE_R = has f PTE_R := has_flagsOf f 1 (by omega)
  have h2 : has (flagsOf f) PTE_W = has f PTE_W := has_flagsOf f 2 (by omega)
  have h3 : has (flagsOf f) PTE_X = has f PTE_X := has_flagsOf f 3 (by omega)
  unfold ProperFlags LeafFlags at *
  rw [h0, h1, h2, h3]
  exact h

/-- The walk uses a proper leaf. -/
theorem proper_walks {e : Word} (h : Leaf ProperFlags e) : faulty e = false ∧ isLeaf e = true := by
  have h0 : has (flagsOf e) PTE_V = has e PTE_V := has_flagsOf e 0 (by omega)
  have h1 : has (flagsOf e) PTE_R = has e PTE_R := has_flagsOf e 1 (by omega)
  have h2 : has (flagsOf e) PTE_W = has e PTE_W := has_flagsOf e 2 (by omega)
  have h3 : has (flagsOf e) PTE_X = has e PTE_X := has_flagsOf e 3 (by omega)
  obtain ⟨⟨⟨hv, hrx⟩, hw⟩, -⟩ := h
  rw [h0] at hv
  rw [h1, h3] at hrx
  rw [h1, h2] at hw
  unfold faulty isLeaf
  rcases hrx with h | h
  · simp [hv, h]
  · cases hwe : has e PTE_W
    · simp [hv, h]
    · simp [hv, h, hw hwe]

theorem faulty_of_invalid {e : Word} (h : has e PTE_V = false) : faulty e = true := by
  simp [faulty, h]

/-- The hardware walk finds the leaf that the directory holds. -/
theorem walk_eq_leafAt (hg : Good ProperFlags start stop s own) (hd : (d, .pgdir) ∈ own)
    (x : Word) : walk s.mem d.toNat x = leafAt s.mem d x := by
  have hda := pool_aligned hg.pool hd
  rcases hg.trees.dirs d hd _ (vpn1_lt x) with h1 | ⟨h1, h2⟩ | ⟨t, h1, h2⟩
  · rw [leafAt_invalid h1, walk_of_faulty hda (faulty_of_invalid h1)]
  · obtain ⟨hf, hl⟩ := proper_walks h1
    rw [leafAt_mega proper_leaf h1, walk_of_mega hda hf hl h2]
  · have hta := pool_aligned hg.pool h1
    rw [walk_of_link hda hta h2, leafAt_link hta h2]
    rcases (hg.trees.tables t d _ h1).entries _ (vpn0_lt x) with h3 | h3
    · simp [h3, faulty_of_invalid h3]
    · obtain ⟨hf, hl⟩ := proper_walks h3
      simp only [hf, hl, (leaf_valid proper_leaf h3).1, if_true]
      rfl

/-! ## One call -/

/-- A call that returns, either maps its range, which no address of it had a
leaf in, or leaves everything as it was. -/
theorem run_call (hg : Good ProperFlags start stop s own) (hd : (d, .pgdir) ∈ own) {c : MapCall}
    (hc : ProperFlags c.flags) {st : status_t} (hr : c.run (pa_to_kva d) s = some (st, s')) :
    (st = XOS_OK ∧ (∀ x, c.Has x → leafAt s.mem d x = none) ∧
      ∃ own', (d, .pgdir) ∈ own' ∧
        Mapped ProperFlags start stop s own d c.va c.pa c.flags c.size s' own') ∨
    (st ≠ XOS_OK ∧ s' = s) := by
  have hf := proper_flagsOf hc
  unfold MapCall.run at hr
  unfold MapCall.Has MapCall.size
  cases hmega : c.mega
  · simp only [hmega, Bool.false_eq_true, if_false] at hr ⊢
    obtain ⟨own', hm⟩ := vm_map_4k.spec hg proper_leaf hd hf c.va c.pa
    rw [hr] at hm
    cases hm with
    | bad | mega | page => exact Or.inr ⟨by decide, rfl⟩
    | old ha t ht hl _ _ _ hm =>
      refine Or.inl ⟨rfl, ?_, own, hd, hm⟩
      intro x hx
      obtain ⟨h1, h2⟩ := (covers_4k ha.1).mp hx
      rw [leafAt_none_iff hg.pool hg.trees proper_leaf hd] at hl ⊢
      rw [h1, h2]
      exact hl
    | new ha hv t _ _ _ _ _ _ hm =>
      refine Or.inl ⟨rfl, ?_, _, List.mem_cons_of_mem _ hd, hm⟩
      intro x hx
      obtain ⟨h1, -⟩ := (covers_4k ha.1).mp hx
      exact leafAt_invalid (by rw [h1]; exact hv)
  · simp only [hmega, if_true, Option.some.injEq] at hr ⊢
    have hm := vm_map_4m.spec hg proper_leaf hd hf c.va c.pa
    rw [hr] at hm
    cases hm with
    | bad | taken => exact Or.inr ⟨by decide, rfl⟩
    | done ha hl _ _ _ hm => exact Or.inl ⟨rfl, hl, own, hd, hm⟩

/-! ## All the calls -/

/-- The leaves of the directory are the abstract map of `done`. -/
structure Holds (m : Mem) (d : paddr_t) (done : List MapCall) : Prop where
  apart : done.Pairwise fun c c' => ∀ x, ¬ (c.Has x ∧ c'.Has x)
  hit : ∀ c ∈ done, ∀ x, c.Has x → leafAt m d x = some (c.goesTo x)
  miss : ∀ x, (∀ c ∈ done, ¬ c.Has x) → leafAt m d x = none

theorem holds_append {done : List MapCall} {c : MapCall} {m' : Mem} (h : Holds m d done)
    (hfree : ∀ x, c.Has x → leafAt m d x = none)
    (hm : ∀ x, leafAt m' d x = if c.Has x then some (c.goesTo x) else leafAt m d x) :
    Holds m' d (done ++ [c]) := by
  have hnot : ∀ c' ∈ done, ∀ x, ¬ (c'.Has x ∧ c.Has x) := by
    rintro c' hc' x ⟨h1, h2⟩
    have := h.hit c' hc' x h1
    rw [hfree x h2] at this
    cases this
  refine ⟨?_, ?_, ?_⟩
  · rw [List.pairwise_append]
    refine ⟨h.apart, List.pairwise_singleton _ _, ?_⟩
    intro c' hc' e he
    rw [List.mem_singleton] at he
    subst he
    exact hnot c' hc'
  · intro c' hc' x hx
    rw [List.mem_append, List.mem_singleton] at hc'
    rcases hc' with hc' | rfl
    · rw [hm, if_neg (fun hcx => hnot c' hc' x ⟨hx, hcx⟩)]
      exact h.hit c' hc' x hx
    · rw [hm, if_pos hx]
  · intro x hx
    rw [hm, if_neg (hx c (by simp))]
    exact h.miss x fun c' hc' => hx c' (by simp [hc'])

theorem map_calls_holds (cs : List MapCall) (hcs : ∀ c ∈ cs, ProperFlags c.flags)
    {done : List MapCall} {sts : List status_t} (hg : Good ProperFlags start stop s own)
    (hd : (d, .pgdir) ∈ own) (h : Holds s.mem d done)
    (hr : map_calls (pa_to_kva d) cs s = some (sts, s')) :
    Holds s'.mem d (done ++ succeeded cs sts) ∧
      ∃ own', (d, .pgdir) ∈ own' ∧ Good ProperFlags start stop s' own' := by
  induction cs generalizing s own done sts with
  | nil =>
    simp only [map_calls, Option.some.injEq, Prod.mk.injEq] at hr
    obtain ⟨rfl, rfl⟩ := hr
    simpa [succeeded] using ⟨h, own, hd, hg⟩
  | cons c cs ih =>
    simp only [map_calls, Option.bind_eq_bind, Option.bind_eq_some_iff, Option.some.injEq,
      Prod.mk.injEq] at hr
    obtain ⟨⟨st, s1⟩, h1, ⟨sts', s2⟩, h2, rfl, rfl⟩ := hr
    have hcs' := fun e he => hcs e (List.mem_cons_of_mem _ he)
    rcases run_call hg hd (hcs c List.mem_cons_self) h1 with
      ⟨rfl, hfree, own1, hd1, hm⟩ | ⟨hst, rfl⟩
    · have hh : Holds s1.mem d (done ++ [c]) := by
        apply holds_append h hfree
        intro x
        rw [hm.leaves d hd x]
        simp only [true_and]
        rfl
      have := ih hcs' hm.good hd1 hh h2
      simpa [succeeded] using this
    · have := ih hcs' hg hd h h2
      rw [succeeded, if_neg hst]
      exact this

theorem map_calls_append (pdir : Word) (cs1 cs2 : List MapCall) {sts : List status_t}
    (hr : map_calls pdir (cs1 ++ cs2) s = some (sts, s')) :
    ∃ sts1 sts2 s1, map_calls pdir cs1 s = some (sts1, s1) ∧
      map_calls pdir cs2 s1 = some (sts2, s') ∧
      succeeded (cs1 ++ cs2) sts = succeeded cs1 sts1 ++ succeeded cs2 sts2 := by
  induction cs1 generalizing s sts with
  | nil => exact ⟨[], sts, s, rfl, hr, by simp [succeeded]⟩
  | cons c cs ih =>
    simp only [List.cons_append, map_calls, Option.bind_eq_bind, Option.bind_eq_some_iff,
      Option.some.injEq, Prod.mk.injEq] at hr
    obtain ⟨⟨st, s1⟩, h1, ⟨sts', s2⟩, h2, rfl, rfl⟩ := hr
    obtain ⟨sts1, sts2, s3, h3, h4, h5⟩ := ih h2
    refine ⟨st :: sts1, sts2, s3, by simp [map_calls, h1, h3], h4, ?_⟩
    simp only [List.cons_append, succeeded, h5]
    split <;> rfl

theorem translates_of_holds {done : List MapCall} (hg : Good ProperFlags start stop s own)
    (hd : (d, .pgdir) ∈ own) (h : Holds s.mem d done) : Translates s.mem d done := by
  refine ⟨h.apart, ?_, ?_⟩
  · intro c hc x hx
    rw [walk_eq_leafAt hg hd]
    exact h.hit c hc x hx
  · intro x hx
    rw [walk_eq_leafAt hg hd]
    exact h.miss x hx

/-- The first page of a pool, as a directory, maps nothing. -/
theorem first_directory {pdir : Word} (h1 : PageAligned start) (h2 : PageAligned stop)
    (h : start.toNat ≤ stop.toNat)
    (ha : kpage_alloc_z (vmm_init m start stop) = some (pdir, s)) :
    Good ProperFlags start stop s [(kva_to_pa pdir, .pgdir)] ∧
      Holds s.mem (kva_to_pa pdir) [] := by
  simp only [kpage_alloc_z, Option.bind_eq_bind, Option.bind_eq_some_iff, Option.some.injEq,
    Prod.mk.injEq] at ha
  obtain ⟨⟨t, s1⟩, hp, rfl, rfl⟩ := ha
  obtain ⟨hf, hpool⟩ := ppage_alloc_z_some (pool_init m h1 h2 h) hp
  have htrees : Trees ProperFlags s1.mem [] := ⟨by simp, by simp⟩
  rw [kva_to_pa_to_kva]
  refine ⟨⟨hpool _, trees_cons_pgdir htrees hf.aligned hf.zero⟩, by simp, by simp, ?_⟩
  intro x _
  apply leafAt_invalid
  rw [pte_zeroed hf.aligned (vpn1_lt x) hf.zero]
  rfl

end

/-- For every pool, every directory made in it, and every list of mapping
calls with leaf flags that does not exhaust the pool, the Sv32 walk is the
abstract map of the calls that returned `XOS_OK`. A translation that stands
after some of the calls stands after all of them. -/
theorem the_walk_is_the_map_of_the_successful_calls (start stop : paddr_t) (h1 : PageAligned start)
    (h2 : PageAligned stop) (h : start.toNat ≤ stop.toNat) (m : Mem) (pdir : Word) (s0 s : Vmm)
    (ha : kpage_alloc_z (vmm_init m start stop) = some (pdir, s0)) (cs : List MapCall)
    (hcs : ∀ c ∈ cs, ProperFlags c.flags) (sts : List status_t)
    (hr : map_calls pdir cs s0 = some (sts, s)) :
    Translates s.mem (kva_to_pa pdir) (succeeded cs sts) ∧
      ∀ cs1 cs2, cs = cs1 ++ cs2 → ∃ sts1 s1, map_calls pdir cs1 s0 = some (sts1, s1) ∧
        ∀ x t, walk s1.mem (kva_to_pa pdir).toNat x = some t →
          walk s.mem (kva_to_pa pdir).toNat x = some t := by
  obtain ⟨hg, hh⟩ := first_directory h1 h2 h ha
  have hd : (kva_to_pa pdir, Owner.pgdir) ∈ [(kva_to_pa pdir, Owner.pgdir)] := List.mem_cons_self
  have hr' := hr
  rw [← pa_to_kva_to_pa pdir] at hr'
  obtain ⟨hholds, own', hd', hg'⟩ := map_calls_holds cs hcs hg hd hh hr'
  have ht := translates_of_holds hg' hd' hholds
  refine ⟨ht, ?_⟩
  rintro cs1 cs2 rfl
  obtain ⟨sts1, sts2, s1, hr1, hr2, hsplit⟩ := map_calls_append pdir cs1 cs2 hr
  refine ⟨sts1, s1, hr1, ?_⟩
  intro x t hx
  have hr1' := hr1
  rw [← pa_to_kva_to_pa pdir] at hr1'
  obtain ⟨hholds1, own1, hd1, hg1⟩ := map_calls_holds cs1
    (fun c hc => hcs c (List.mem_append_left _ hc)) hg hd hh hr1'
  have ht1 := translates_of_holds hg1 hd1 hholds1
  -- an address that the walk translates is in the range of a call
  obtain ⟨c, hc, hcx⟩ : ∃ c ∈ succeeded cs1 sts1, c.Has x := by
    by_contra hno
    push Not at hno
    rw [ht1.miss x hno] at hx
    cases hx
  rw [ht1.hit c hc x hcx] at hx
  rw [← hx]
  apply ht.hit c ?_ x hcx
  rw [List.nil_append, hsplit]
  exact List.mem_append_left _ hc

/-- A page, a megapage, and a page inside that megapage, which is refused. -/
def threeCalls : List MapCall :=
  [⟨false, 0x10000000, 0x40C00000, 0xD7⟩, ⟨true, 0x20000000, 0x40400000, 0xC7⟩,
    ⟨false, 0x20001000, 0x40C01000, 0xD7⟩]

theorem the_walk_is_the_map_of_three_calls : ∃ s,
    map_calls (pa_to_kva 0x40012000) threeCalls oneDirectory.s =
        some ([XOS_OK, XOS_OK, XOS_ERR_CONFLICT], s) ∧
      Translates s.mem (kva_to_pa (pa_to_kva 0x40012000))
        (succeeded threeCalls [XOS_OK, XOS_OK, XOS_ERR_CONFLICT]) := by
  have hflags : ∀ c ∈ threeCalls, ProperFlags c.flags := by
    unfold ProperFlags LeafFlags
    decide
  have hsome : (map_calls (pa_to_kva 0x40012000) threeCalls oneDirectory.s).isSome := by decide
  have hr : map_calls (pa_to_kva 0x40012000) threeCalls oneDirectory.s =
      some ([XOS_OK, XOS_OK, XOS_ERR_CONFLICT], ((map_calls _ _ _).get hsome).2) :=
    (Option.some_get hsome).symm
  exact ⟨_, hr, (the_walk_is_the_map_of_the_successful_calls 0x40010000 0x40013000 rfl rfl
    (by decide) (fun _ => 0xAA) _ _ _ rfl _ hflags _ hr).1⟩

end os_workshop.vmm
