-- What the memory of the kernel holds while only the calls of vmm.c write
-- page-table pages: the pool of pages that are still free, and the trees of
-- entries under the page directories.
import OsWorkshop.Vmm

open os_workshop.memory os_workshop.sv32

namespace os_workshop.vmm

/-! ## The owners of the pages -/

/-- What a page was handed out for: to a caller of `ppage_alloc_z`, to a
caller of `kpage_alloc_z`, as a page directory, or as the table of one entry
of one directory. -/
inductive Owner
  | page
  | kpage
  | pgdir
  | table (pdir : paddr_t) (idx1 : Nat)
  deriving DecidableEq

/-- The pages handed out, newest first, each with its owner. -/
abbrev Own := List (paddr_t × Owner)

/-- The hardware walks the page. -/
def Owner.walked : Owner → Bool
  | .pgdir => true
  | .table _ _ => true
  | _ => false

/-- The pages from `pa_top` up are handed out, each once. -/
structure Pool (start stop : paddr_t) (s : Vmm) (own : Own) : Prop where
  bottom : s.pa_bottom = start
  start_aligned : PageAligned start
  stop_aligned : PageAligned stop
  top : s.pa_top.toNat + 4096 * own.length = stop.toNat
  low : start.toNat ≤ s.pa_top.toNat
  handed : s.handed = own.map Prod.fst
  nodup : (own.map Prod.fst).Nodup
  inside : ∀ p ∈ own.map Prod.fst,
    PageAligned p ∧ s.pa_top.toNat ≤ p.toNat ∧ p.toNat < stop.toNat

/-- The flags of a leaf: valid, and readable or executable. -/
def LeafFlags (f : Word) : Prop := has f PTE_V = true ∧ (has f PTE_R = true ∨ has f PTE_X = true)

/-- A leaf entry, with flags as in `P` and a frame of the 32-bit space. -/
def Leaf (P : Word → Prop) (e : Word) : Prop := P (flagsOf e) ∧ ppn e < 2 ^ 20

/-- An entry of a directory: not valid, a megapage, or the link to a table
that was handed out for this very entry. -/
def DirEntry (P : Word → Prop) (own : Own) (d : paddr_t) (i : Nat) (e : Word) : Prop :=
  has e PTE_V = false ∨ (Leaf P e ∧ ppn e % 0x400 = 0) ∨ ∃ t, (t, .table d i) ∈ own ∧ e = link t

def TableEntry (P : Word → Prop) (e : Word) : Prop := has e PTE_V = false ∨ Leaf P e

/-- A table is linked at its entry, and maps at least one page. -/
structure TableOk (P : Word → Prop) (m : Mem) (own : Own) (t d : paddr_t) (i : Nat) : Prop where
  dir : (d, .pgdir) ∈ own
  idx : i < 1024
  linked : pte m d i = link t
  entries : ∀ j < 1024, TableEntry P (pte m t j)
  used : ∃ j < 1024, has (pte m t j) PTE_V = true

structure Trees (P : Word → Prop) (m : Mem) (own : Own) : Prop where
  dirs : ∀ d, (d, .pgdir) ∈ own → ∀ i < 1024, DirEntry P own d i (pte m d i)
  tables : ∀ t d i, (t, .table d i) ∈ own → TableOk P m own t d i

structure Good (P : Word → Prop) (start stop : paddr_t) (s : Vmm) (own : Own) : Prop where
  pool : Pool start stop s own
  trees : Trees P s.mem own

/-- The leaf that a directory holds for an address: where it leads, and its
flags. -/
def leafAt (m : Mem) (d : paddr_t) (va : Word) : Option (Nat × Word) :=
  let pte1 := pte m d (vpn1 va)
  if has pte1 PTE_V then
    if has pte1 (PTE_X ||| PTE_W ||| PTE_R) then
      some (ppn pte1 * 0x1000 + va.toNat % 0x400000, flagsOf pte1)
    else
      let pte0 := pte m (PTE_PA pte1) (vpn0 va)
      if has pte0 PTE_V then some (ppn pte0 * 0x1000 + va.toNat % 0x1000, flagsOf pte0) else none
  else none

section

variable {P : Word → Prop} {start stop : paddr_t} {s s' : Vmm} {own : Own} {m m' : Mem}

/-! ## The pool -/

theorem pool_init (m : Mem) {start stop : paddr_t} (h1 : PageAligned start) (h2 : PageAligned stop)
    (h : start.toNat ≤ stop.toNat) : Pool start stop (vmm_init m start stop) [] :=
  ⟨rfl, h1, h2, by simp [vmm_init], h, rfl, by simp, by simp⟩

theorem pool_aligned (h : Pool start stop s own) {p : paddr_t} {o : Owner} (hp : (p, o) ∈ own) :
    PageAligned p :=
  (h.inside p (List.mem_map_of_mem hp)).1

/-- One page has one owner. -/
theorem pool_owner_unique (h : Pool start stop s own) {p : paddr_t} {o o' : Owner}
    (h1 : (p, o) ∈ own) (h2 : (p, o') ∈ own) : o = o' := by
  have := List.inj_on_of_nodup_map h.nodup h1 h2 rfl
  exact (Prod.mk.inj this).2

/-- A page that the allocator just handed out. -/
structure Fresh (s s' : Vmm) (own : Own) (t : paddr_t) : Prop where
  aligned : PageAligned t
  new : t ∉ own.map Prod.fst
  zero : ∀ x, InPage t x → s'.mem x = 0
  frame : ∀ x, ¬ InPage t x → s'.mem x = s.mem x
  top : s'.pa_top = t
  down : t.toNat + 4096 = s.pa_top.toNat

theorem ppage_alloc_z_none (h : Pool start stop s own) :
    ppage_alloc_z s = none ↔ own.length = (stop.toNat - start.toNat) / 4096 := by
  have ht := h.top
  have hl := h.low
  have hs := h.start_aligned
  have he := h.stop_aligned
  unfold PageAligned at hs he
  unfold ppage_alloc_z
  rw [h.bottom]
  split
  · rename_i heq
    rw [heq] at ht
    simp only [true_iff]
    omega
  · rename_i hne
    have : s.pa_top.toNat ≠ start.toNat := fun e => hne (BitVec.eq_of_toNat_eq e)
    simp only [reduceCtorEq, false_iff]
    omega

/-- A page comes from the pool aligned, zero and new, and the pool goes on
without it. -/
theorem ppage_alloc_z_some (h : Pool start stop s own) {t : paddr_t}
    (ha : ppage_alloc_z s = some (t, s')) :
    Fresh s s' own t ∧ ∀ o, Pool start stop s' ((t, o) :: own) := by
  obtain ⟨hb, hs, he, ht, hl, hh, hn, hi⟩ := h
  unfold ppage_alloc_z at ha
  split at ha
  · cases ha
  · rename_i hne
    rw [hb] at hne
    have hne' : s.pa_top.toNat ≠ start.toNat := fun e => hne (BitVec.eq_of_toNat_eq e)
    unfold PageAligned at hs he
    simp only [Option.some.injEq, Prod.mk.injEq] at ha
    obtain ⟨hta, rfl⟩ := ha
    simp only [memset, kva_to_pa_to_kva, hta]
    have htn : t.toNat + 4096 = s.pa_top.toNat := by
      rw [← hta]
      bv_omega
    have hal : PageAligned t := by unfold PageAligned; omega
    have hnew : t ∉ own.map Prod.fst := fun hm => by
      have := (hi t hm).2.1
      omega
    refine ⟨⟨hal, hnew, ?_, ?_, rfl, htn⟩, fun o => ⟨hb, hs, he, ?_, ?_, ?_, ?_, ?_⟩⟩
    · intro x hx
      exact fill_in s.mem t x 0 4096 (dist_of_inPage hx)
    · intro x hx
      exact fill_out s.mem t x 0 4096 (not_inPage hal hx)
    · dsimp only [List.length_cons]
      have hlen : t.toNat + 4096 * (own.length + 1) = s.pa_top.toNat + 4096 * own.length := by
        rw [← htn]
        ring
      rw [hlen, ht]
    · dsimp only
      omega
    · simp only [hh, List.map_cons]
    · simp only [List.map_cons, List.nodup_cons]
      exact ⟨hnew, hn⟩
    · intro p hp
      simp only [List.map_cons, List.mem_cons] at hp
      dsimp only
      rcases hp with rfl | hp
      · exact ⟨hal, by omega, by omega⟩
      · obtain ⟨h1, h2, h3⟩ := hi p hp
        exact ⟨h1, by omega, h3⟩

/-- The pool does not depend on the memory. -/
theorem pool_mem (h : Pool start stop s own) (m : Mem) : Pool start stop { s with mem := m } own :=
  ⟨h.bottom, h.start_aligned, h.stop_aligned, h.top, h.low, h.handed, h.nodup, h.inside⟩

/-! ## The trees -/

theorem leaf_valid (hP : ∀ f, P f → LeafFlags f) {e : Word} (h : Leaf P e) :
    has e PTE_V = true ∧ has e (PTE_X ||| PTE_W ||| PTE_R) = true := by
  obtain ⟨hv, hrx⟩ := hP _ h.1
  have h0 : has (flagsOf e) PTE_V = has e PTE_V := has_flagsOf e 0 (by omega)
  have h1 : has (flagsOf e) PTE_R = has e PTE_R := has_flagsOf e 1 (by omega)
  have h3 : has (flagsOf e) PTE_X = has e PTE_X := has_flagsOf e 3 (by omega)
  rw [h0] at hv
  rw [h1, h3] at hrx
  refine ⟨hv, ?_⟩
  rw [has_rwx]
  rcases hrx with h | h <;> simp [h]

theorem leaf_pack (pa flags : Word) (h : P (flagsOf flags)) : Leaf P (pack pa flags) := by
  refine ⟨?_, ?_⟩
  · rw [flagsOf_pack]; exact h
  · rw [ppn_pack]; omega

theorem link_not_rwx {t : Word} (ht : PageAligned t) :
    has (link t) (PTE_X ||| PTE_W ||| PTE_R) = false := by
  obtain ⟨hr, hw, hx⟩ := link_not_leaf ht
  simp [has_rwx, hr, hw, hx]

/-- The memory is the same on every page that the hardware walks. -/
def SameTrees (m m' : Mem) (own : Own) : Prop :=
  ∀ p o, (p, o) ∈ own → o.walked = true → ∀ i < 1024, pte m' p i = pte m p i

theorem trees_same (h : Trees P m own) (hs : SameTrees m m' own) : Trees P m' own := by
  refine ⟨?_, ?_⟩
  · intro d hd i hi
    rw [hs d _ hd rfl i hi]
    exact h.dirs d hd i hi
  · intro t d i ht
    obtain ⟨h1, h2, h3, h4, j, hj, h5⟩ := h.tables t d i ht
    refine ⟨h1, h2, ?_, ?_, j, hj, ?_⟩
    · rw [hs d _ h1 rfl i h2]; exact h3
    · intro k hk
      rw [hs t _ ht rfl k hk]
      exact h4 k hk
    · rw [hs t _ ht rfl j hj]; exact h5

/-- A page more, that the hardware does not walk, leaves the trees alone. -/
theorem trees_cons_caller {o : Owner} (h : Trees P m own) (t : paddr_t) (ho : o.walked = false) :
    Trees P m ((t, o) :: own) := by
  have hmem : ∀ p o', o'.walked = true → ((p, o') ∈ (t, o) :: own ↔ (p, o') ∈ own) := by
    intro p o' hw
    simp only [List.mem_cons, Prod.mk.injEq]
    constructor
    · rintro (⟨-, rfl⟩ | h)
      · rw [ho] at hw; cases hw
      · exact h
    · exact Or.inr
  refine ⟨?_, ?_⟩
  · intro d hd i hi
    rcases h.dirs d ((hmem d _ rfl).mp hd) i hi with h1 | h1 | ⟨t', h1, h2⟩
    · exact Or.inl h1
    · exact Or.inr (Or.inl h1)
    · exact Or.inr (Or.inr ⟨t', List.mem_cons_of_mem _ h1, h2⟩)
  · intro t' d i ht'
    obtain ⟨h1, h2, h3, h4, h5⟩ := h.tables t' d i ((hmem t' _ rfl).mp ht')
    exact ⟨List.mem_cons_of_mem _ h1, h2, h3, h4, h5⟩

/-- A new directory of zeros holds nothing. -/
theorem trees_cons_pgdir (h : Trees P m own) {t : paddr_t} (ht : PageAligned t)
    (hz : ∀ x, InPage t x → m x = 0) : Trees P m ((t, .pgdir) :: own) := by
  refine ⟨?_, ?_⟩
  · intro d hd i hi
    rw [List.mem_cons] at hd
    rcases hd with hd | hd
    · cases hd
      rw [pte_zeroed ht hi hz]
      exact Or.inl rfl
    · rcases h.dirs d hd i hi with h1 | h1 | ⟨t', h1, h2⟩
      · exact Or.inl h1
      · exact Or.inr (Or.inl h1)
      · exact Or.inr (Or.inr ⟨t', List.mem_cons_of_mem _ h1, h2⟩)
  · intro t' d i ht'
    rw [List.mem_cons] at ht'
    rcases ht' with ht' | ht'
    · cases ht'
    · obtain ⟨h1, h2, h3, h4, h5⟩ := h.tables t' d i ht'
      exact ⟨List.mem_cons_of_mem _ h1, h2, h3, h4, h5⟩

/-- A page that is new to the owners is none of the walked pages. -/
theorem sameTrees_of_fresh (hp : Pool start stop s own) {t : paddr_t} (hf : Fresh s s' own t) :
    SameTrees s.mem s'.mem own := by
  intro p o hpo _ i hi
  have hpa := pool_aligned hp hpo
  apply pte_congr hpa hi
  intro x hx
  apply hf.frame
  intro hx'
  have : p = t := page_eq_of_inPage hpa hf.aligned hx hx'
  exact hf.new (this ▸ List.mem_map_of_mem hpo)

end

end os_workshop.vmm
