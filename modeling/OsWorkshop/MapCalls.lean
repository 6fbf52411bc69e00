-- What one mapping call does to the trees of entries: which leaf each address
-- has after the call, in every directory, and which pages it takes.
import OsWorkshop.PageTables

open os_workshop.memory os_workshop.sv32

namespace os_workshop.vmm

/-! ## The leaf of an address -/

/-- The addresses of a mapping of `size` bytes at `va`. -/
def Covers (va : Word) (size : Nat) (x : Word) : Prop :=
  va.toNat ≤ x.toNat ∧ x.toNat < va.toNat + size

instance (va : Word) (size : Nat) (x : Word) : Decidable (Covers va size x) :=
  inferInstanceAs (Decidable (_ ∧ _))

/-- Where a mapping of `va` to `pa` sends `x`, with the flags of the mapping. -/
def sendsTo (va pa flags x : Word) : Nat × Word := (pa.toNat + (x.toNat - va.toNat), flagsOf flags)

theorem covers_4k {va x : Word} (h : va.toNat % 4096 = 0) :
    Covers va 4096 x ↔ vpn1 x = vpn1 va ∧ vpn0 x = vpn0 va := by
  unfold Covers vpn1 vpn0
  omega

theorem covers_4m {va x : Word} (h : va.toNat % 0x400000 = 0) :
    Covers va 0x400000 x ↔ vpn1 x = vpn1 va := by
  unfold Covers vpn1
  omega

section

variable {P : Word → Prop} {start stop : paddr_t} {s s' : Vmm} {own : Own} {m m' : Mem}
  {d t : paddr_t} {x : Word}

theorem leafAt_invalid (h : has (pte m d (vpn1 x)) PTE_V = false) : leafAt m d x = none := by
  simp [leafAt, h]

theorem leafAt_mega (hP : ∀ f, P f → LeafFlags f) (h : Leaf P (pte m d (vpn1 x))) :
    leafAt m d x = some (ppn (pte m d (vpn1 x)) * 0x1000 + x.toNat % 0x400000,
      flagsOf (pte m d (vpn1 x))) := by
  obtain ⟨hv, hl⟩ := leaf_valid hP h
  simp only [leafAt, hv, hl, if_true]

theorem leafAt_link (ht : PageAligned t) (h : pte m d (vpn1 x) = link t) :
    leafAt m d x = if has (pte m t (vpn0 x)) PTE_V then
      some (ppn (pte m t (vpn0 x)) * 0x1000 + x.toNat % 0x1000, flagsOf (pte m t (vpn0 x)))
      else none := by
  simp [leafAt, h, link_valid, link_not_rwx ht, PTE_PA_link ht]

/-- A leaf depends on one entry of the directory and one of the table behind it. -/
theorem leafAt_keep (hp : Pool start stop s own) (h : Trees P m own)
    (hP : ∀ f, P f → LeafFlags f) (hd : (d, .pgdir) ∈ own)
    (he : pte m' d (vpn1 x) = pte m d (vpn1 x))
    (ht : ∀ t, (t, .table d (vpn1 x)) ∈ own → pte m' t (vpn0 x) = pte m t (vpn0 x)) :
    leafAt m' d x = leafAt m d x := by
  rcases h.dirs d hd _ (vpn1_lt x) with h1 | ⟨h1, -⟩ | ⟨t, h1, h2⟩
  · rw [leafAt_invalid h1, leafAt_invalid (by rw [he]; exact h1)]
  · rw [leafAt_mega hP h1, leafAt_mega hP (by rw [he]; exact h1), he]
  · have hta := pool_aligned hp h1
    rw [leafAt_link hta h2, leafAt_link hta (he.trans h2), ht t h1]

/-- The leaves depend on the walked pages only. -/
theorem leafAt_same (hp : Pool start stop s own) (h : Trees P m own) (hs : SameTrees m m' own)
    (hP : ∀ f, P f → LeafFlags f) (hd : (d, .pgdir) ∈ own) (x : Word) :
    leafAt m' d x = leafAt m d x :=
  leafAt_keep hp h hP hd (hs d _ hd rfl _ (vpn1_lt x)) fun t ht => hs t _ ht rfl _ (vpn0_lt x)

/-- No directory maps an address that its entry links to no valid entry. -/
theorem leafAt_none_iff (hp : Pool start stop s own) (h : Trees P m own)
    (hP : ∀ f, P f → LeafFlags f) (hd : (d, .pgdir) ∈ own) :
    leafAt m d x = none ↔ has (pte m d (vpn1 x)) PTE_V = false ∨
      ∃ t, (t, .table d (vpn1 x)) ∈ own ∧ has (pte m t (vpn0 x)) PTE_V = false := by
  rcases h.dirs d hd _ (vpn1_lt x) with h1 | ⟨h1, -⟩ | ⟨t, h1, h2⟩
  · simp [leafAt_invalid h1, h1]
  · rw [leafAt_mega hP h1]
    simp only [reduceCtorEq, (leaf_valid hP h1).1, Bool.true_eq_false, false_or, false_iff,
      not_exists, not_and]
    intro t ht
    have hlink := (h.tables t d _ ht).linked
    have hrwx := (leaf_valid hP h1).2
    rw [hlink, link_not_rwx (pool_aligned hp ht)] at hrwx
    cases hrwx
  · have ht := pool_aligned hp h1
    rw [leafAt_link ht h2]
    simp only [h2, link_valid, Bool.true_eq_false, false_or]
    constructor
    · intro hn
      refine ⟨t, h1, ?_⟩
      split at hn
      · cases hn
      · rename_i hv
        simpa using hv
    · rintro ⟨t', h1', hv⟩
      have hl := (h.tables t' d _ h1').linked
      have : t' = t := link_inj (pool_aligned hp h1') ht (hl.symm.trans h2)
      subst this
      simp [hv]

/-! ## One entry set -/

/-- The owner of a page that holds one entry is the owner of the page of the
other, when the pages are the same. -/
theorem ne_of_owner (hp : Pool start stop s own) {p q : paddr_t} {o o' : Owner}
    (h1 : (p, o) ∈ own) (h2 : (q, o') ∈ own) (h : o ≠ o') : p ≠ q := by
  rintro rfl
  exact h (pool_owner_unique hp h1 h2)

/-- A leaf set in a table of a directory maps one page more. -/
theorem trees_set_table (hp : Pool start stop s own) (h : Trees P m own)
    (hP : ∀ f, P f → LeafFlags f) {i j : Nat} {e : Word} (ht : (t, .table d i) ∈ own)
    (hj : j < 1024) (he : Leaf P e) :
    Trees P (setPte m t j e) own := by
  have hta := pool_aligned hp ht
  refine ⟨?_, ?_⟩
  · intro d' hd' i' hi'
    have hne : t ≠ d' := ne_of_owner hp ht hd' (by simp)
    rw [pte_setPte_ne m e hta (pool_aligned hp hd') hj hi' (Or.inl hne)]
    exact h.dirs d' hd' i' hi'
  · intro t' d' i' ht'
    obtain ⟨h1, h2, h3, h4, k, hk, h5⟩ := h.tables t' d' i' ht'
    have hne : t ≠ d' := ne_of_owner hp ht h1 (by simp)
    have hta' := pool_aligned hp ht'
    refine ⟨h1, h2, ?_, ?_, ?_⟩
    · rw [pte_setPte_ne m e hta (pool_aligned hp h1) hj h2 (Or.inl hne)]
      exact h3
    · intro k' hk'
      by_cases hsame : t = t' ∧ j = k'
      · obtain ⟨rfl, rfl⟩ := hsame
        rw [pte_setPte_same]
        exact Or.inr he
      · rw [pte_setPte_ne m e hta hta' hj hk' (by tauto)]
        exact h4 k' hk'
    · by_cases hsame : t = t'
      · subst hsame
        exact ⟨j, hj, by rw [pte_setPte_same]; exact (leaf_valid hP he).1⟩
      · exact ⟨k, hk, by rw [pte_setPte_ne m e hta hta' hj hk (Or.inl hsame)]; exact h5⟩

theorem leafAt_set_table (hp : Pool start stop s own) (h : Trees P m own)
    (hP : ∀ f, P f → LeafFlags f) {i j : Nat} {e : Word} (ht : (t, .table d i) ∈ own)
    (hj : j < 1024) (he : Leaf P e) {d' : paddr_t} (hd' : (d', .pgdir) ∈ own) (x : Word) :
    leafAt (setPte m t j e) d' x = if d' = d ∧ vpn1 x = i ∧ vpn0 x = j then
      some (ppn e * 0x1000 + x.toNat % 0x1000, flagsOf e) else leafAt m d' x := by
  have hta := pool_aligned hp ht
  have hda := pool_aligned hp hd'
  have hdir : pte (setPte m t j e) d' (vpn1 x) = pte m d' (vpn1 x) :=
    pte_setPte_ne m e hta hda hj (vpn1_lt x) (Or.inl (ne_of_owner hp ht hd' (by simp)))
  have hlink := (h.tables t d i ht).linked
  by_cases hx : d' = d ∧ vpn1 x = i ∧ vpn0 x = j
  · obtain ⟨rfl, rfl, rfl⟩ := hx
    simp only [true_and, if_true]
    rw [leafAt_link hta (hdir.trans hlink), pte_setPte_same, (leaf_valid hP he).1]
    rfl
  · rw [if_neg hx]
    refine leafAt_keep hp h hP hd' hdir fun t' ht' => ?_
    apply pte_setPte_ne m e hta (pool_aligned hp ht') hj (vpn0_lt x)
    by_contra hc
    simp only [not_or, not_not] at hc
    obtain ⟨rfl, rfl⟩ := hc
    have hsame := pool_owner_unique hp ht ht'
    simp only [Owner.table.injEq] at hsame
    exact hx ⟨hsame.1.symm, hsame.2.symm, rfl⟩

/-- A directory entry that is not valid belongs to no table. -/
theorem no_table_of_invalid (h : Trees P m own) {i : Nat} (hv : has (pte m d i) PTE_V = false) :
    ∀ t, (t, .table d i) ∉ own := by
  intro t ht
  have := (h.tables t d i ht).linked
  rw [this, link_valid] at hv
  cases hv

theorem ne_of_invalid (h : Trees P m own) {i i' : Nat} {d' t' : paddr_t}
    (hv : has (pte m d i) PTE_V = false) (ht : (t', .table d' i') ∈ own) : d ≠ d' ∨ i ≠ i' := by
  by_contra hc
  simp only [not_or, not_not] at hc
  obtain ⟨rfl, rfl⟩ := hc
  exact no_table_of_invalid h hv t' ht

/-- A megapage set in a free entry of a directory. -/
theorem trees_set_dir (hp : Pool start stop s own) (h : Trees P m own) {i : Nat} {e : Word}
    (hd : (d, .pgdir) ∈ own) (hi : i < 1024) (hv : has (pte m d i) PTE_V = false)
    (he : Leaf P e) (ha : ppn e % 0x400 = 0) : Trees P (setPte m d i e) own := by
  have hda := pool_aligned hp hd
  refine ⟨?_, ?_⟩
  · intro d' hd' i' hi'
    by_cases hsame : d = d' ∧ i = i'
    · obtain ⟨rfl, rfl⟩ := hsame
      rw [pte_setPte_same]
      exact Or.inr (Or.inl ⟨he, ha⟩)
    · rw [pte_setPte_ne m e hda (pool_aligned hp hd') hi hi' (by tauto)]
      exact h.dirs d' hd' i' hi'
  · intro t' d' i' ht'
    obtain ⟨h1, h2, h3, h4, k, hk, h5⟩ := h.tables t' d' i' ht'
    have hne : d ≠ t' := ne_of_owner hp hd ht' (by simp)
    have hta' := pool_aligned hp ht'
    refine ⟨h1, h2, ?_, ?_, k, hk, ?_⟩
    · rw [pte_setPte_ne m e hda (pool_aligned hp h1) hi h2 (ne_of_invalid h hv ht')]
      exact h3
    · intro k' hk'
      rw [pte_setPte_ne m e hda hta' hi hk' (Or.inl hne)]
      exact h4 k' hk'
    · rw [pte_setPte_ne m e hda hta' hi hk (Or.inl hne)]
      exact h5

theorem leafAt_set_dir (hp : Pool start stop s own) (h : Trees P m own)
    (hP : ∀ f, P f → LeafFlags f) {i : Nat} {e : Word} (hd : (d, .pgdir) ∈ own) (hi : i < 1024)
    (he : Leaf P e) {d' : paddr_t} (hd' : (d', .pgdir) ∈ own) (x : Word) :
    leafAt (setPte m d i e) d' x = if d' = d ∧ vpn1 x = i then
      some (ppn e * 0x1000 + x.toNat % 0x400000, flagsOf e) else leafAt m d' x := by
  have hda := pool_aligned hp hd
  have hda' := pool_aligned hp hd'
  by_cases hx : d' = d ∧ vpn1 x = i
  · obtain ⟨rfl, rfl⟩ := hx
    simp only [true_and, if_true]
    rw [leafAt_mega hP (by rw [pte_setPte_same]; exact he), pte_setPte_same]
  · rw [if_neg hx]
    have hdir : pte (setPte m d i e) d' (vpn1 x) = pte m d' (vpn1 x) :=
      pte_setPte_ne m e hda hda' hi (vpn1_lt x) (by
        by_contra hc
        simp only [not_or, not_not] at hc
        exact hx ⟨hc.1.symm, hc.2.symm⟩)
    refine leafAt_keep hp h hP hd' hdir fun t' ht' => ?_
    exact pte_setPte_ne m e hda (pool_aligned hp ht') hi (vpn0_lt x)
      (Or.inl (ne_of_owner hp hd ht' (by simp)))

/-- A directory entry that links to `t`, and a leaf in `t`. -/
def setLink (m : Mem) (d : paddr_t) (i : Nat) (t : paddr_t) (j : Nat) (e : Word) : Mem :=
  setPte (setPte m d i (link t)) t j e

theorem ne_of_new (hnew : t ∉ own.map Prod.fst) {p : paddr_t} {o : Owner} (hpo : (p, o) ∈ own) :
    t ≠ p := by
  rintro rfl
  exact hnew (List.mem_map_of_mem hpo)

/-- The other entries of the walked pages stay. -/
theorem pte_setLink_ne (hp : Pool start stop s own) {i j : Nat} {e : Word}
    (hd : (d, .pgdir) ∈ own) (hi : i < 1024) (ht : PageAligned t) (hnew : t ∉ own.map Prod.fst)
    (hj : j < 1024) {p : paddr_t} {o : Owner} {k : Nat} (hpo : (p, o) ∈ own) (hk : k < 1024)
    (hpk : d ≠ p ∨ i ≠ k) : pte (setLink m d i t j e) p k = pte m p k := by
  have hpa := pool_aligned hp hpo
  unfold setLink
  rw [pte_setPte_ne _ e ht hpa hj hk (Or.inl (ne_of_new hnew hpo)),
    pte_setPte_ne _ _ (pool_aligned hp hd) hpa hi hk hpk]

theorem pte_setLink_dir (hp : Pool start stop s own) {i j : Nat} {e : Word}
    (hd : (d, .pgdir) ∈ own) (hi : i < 1024) (ht : PageAligned t) (hnew : t ∉ own.map Prod.fst)
    (hj : j < 1024) : pte (setLink m d i t j e) d i = link t := by
  unfold setLink
  rw [pte_setPte_ne _ e ht (pool_aligned hp hd) hj hi (Or.inl (ne_of_new hnew hd)),
    pte_setPte_same]

/-- A page of zeros that no entry names yet becomes a table with one leaf. -/
theorem trees_set_link (hp : Pool start stop s own) (h : Trees P m own)
    (hP : ∀ f, P f → LeafFlags f) {i j : Nat} {e : Word} (hd : (d, .pgdir) ∈ own)
    (hi : i < 1024) (hv : has (pte m d i) PTE_V = false) (ht : PageAligned t)
    (hnew : t ∉ own.map Prod.fst) (hz : ∀ x, InPage t x → m x = 0) (hj : j < 1024)
    (he : Leaf P e) : Trees P (setLink m d i t j e) ((t, .table d i) :: own) := by
  have hda := pool_aligned hp hd
  have hold {p : paddr_t} {o : Owner} {k : Nat} (hpo : (p, o) ∈ own) (hk : k < 1024)
      (hpk : d ≠ p ∨ i ≠ k) : pte (setLink m d i t j e) p k = pte m p k :=
    pte_setLink_ne hp hd hi ht hnew hj hpo hk hpk
  have hlink : pte (setLink m d i t j e) d i = link t := pte_setLink_dir hp hd hi ht hnew hj
  refine ⟨?_, ?_⟩
  · intro d' hd' i' hi'
    have hd'' : (d', Owner.pgdir) ∈ own := by simpa using hd'
    by_cases hsame : d = d' ∧ i = i'
    · obtain ⟨rfl, rfl⟩ := hsame
      rw [hlink]
      exact Or.inr (Or.inr ⟨t, List.mem_cons_self, rfl⟩)
    · rw [hold hd'' hi' (by tauto)]
      rcases h.dirs d' hd'' i' hi' with h1 | h1 | ⟨t', h1, h2⟩
      · exact Or.inl h1
      · exact Or.inr (Or.inl h1)
      · exact Or.inr (Or.inr ⟨t', List.mem_cons_of_mem _ h1, h2⟩)
  · intro t' d' i' ht'
    rw [List.mem_cons] at ht'
    rcases ht' with ht' | ht'
    · simp only [Prod.mk.injEq, Owner.table.injEq] at ht'
      obtain ⟨rfl, rfl, rfl⟩ := ht'
      refine ⟨List.mem_cons_of_mem _ hd, hi, hlink, ?_, j, hj, ?_⟩
      · intro k hk
        by_cases hjk : j = k
        · subst hjk
          unfold setLink
          rw [pte_setPte_same]
          exact Or.inr he
        · unfold setLink
          rw [pte_setPte_ne _ e ht ht hj hk (Or.inr hjk),
            pte_setPte_ne _ _ hda ht hi hk (Or.inl (ne_of_new hnew hd).symm),
            pte_zeroed ht hk hz]
          exact Or.inl rfl
      · unfold setLink
        rw [pte_setPte_same]
        exact (leaf_valid hP he).1
    · obtain ⟨h1, h2, h3, h4, k, hk, h5⟩ := h.tables t' d' i' ht'
      have hd't : d ≠ t' := ne_of_owner hp hd ht' (by simp)
      refine ⟨List.mem_cons_of_mem _ h1, h2, ?_, ?_, k, hk, ?_⟩
      · rw [hold h1 h2 (ne_of_invalid h hv ht')]
        exact h3
      · intro k' hk'
        rw [hold ht' hk' (Or.inl hd't)]
        exact h4 k' hk'
      · rw [hold ht' hk (Or.inl hd't)]; exact h5

theorem leafAt_set_link (hp : Pool start stop s own) (h : Trees P m own)
    (hP : ∀ f, P f → LeafFlags f) {i j : Nat} {e : Word} (hd : (d, .pgdir) ∈ own)
    (hi : i < 1024) (hv : has (pte m d i) PTE_V = false) (ht : PageAligned t)
    (hnew : t ∉ own.map Prod.fst) (hz : ∀ x, InPage t x → m x = 0) (hj : j < 1024)
    (he : Leaf P e) {d' : paddr_t} (hd' : (d', .pgdir) ∈ own) (x : Word) :
    leafAt (setLink m d i t j e) d' x = if d' = d ∧ vpn1 x = i ∧ vpn0 x = j then
      some (ppn e * 0x1000 + x.toNat % 0x1000, flagsOf e) else leafAt m d' x := by
  have hda := pool_aligned hp hd
  have hold {p : paddr_t} {o : Owner} {k : Nat} (hpo : (p, o) ∈ own) (hk : k < 1024)
      (hpk : d ≠ p ∨ i ≠ k) : pte (setLink m d i t j e) p k = pte m p k :=
    pte_setLink_ne hp hd hi ht hnew hj hpo hk hpk
  by_cases hx : d' = d ∧ vpn1 x = i
  · obtain ⟨rfl, rfl⟩ := hx
    rw [leafAt_link ht (pte_setLink_dir hp hd hi ht hnew hj), leafAt_invalid hv]
    by_cases hk : vpn0 x = j
    · subst hk
      unfold setLink
      simp only [pte_setPte_same, (leaf_valid hP he).1, and_self, if_true]
    · unfold setLink
      rw [pte_setPte_ne _ e ht ht hj (vpn0_lt x) (Or.inr (Ne.symm hk)),
        pte_setPte_ne _ _ hda ht hi (vpn0_lt x) (Or.inl (ne_of_new hnew hd).symm),
        pte_zeroed ht (vpn0_lt x) hz]
      simp [hk, has]
  · rw [if_neg (by tauto)]
    have hdir := hold hd' (vpn1_lt x) (by
      by_contra hc
      simp only [not_or, not_not] at hc
      exact hx ⟨hc.1.symm, hc.2.symm⟩)
    refine leafAt_keep hp h hP hd' hdir fun t' ht' => ?_
    exact hold ht' (vpn0_lt x) (Or.inl (ne_of_owner hp hd ht' (by simp)))

end

end os_workshop.vmm
