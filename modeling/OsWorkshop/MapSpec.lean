-- The specs of the mapping calls: every way that a call can end, with what
-- it leaves behind. Each later law of the page tables takes its cases here.
import OsWorkshop.MapCalls

open os_workshop.memory os_workshop.sv32

namespace os_workshop.vmm

/-- A mapping of `size` bytes was added to directory `d`. Every address of it
has its leaf, and every other address of every directory has the leaf that it
had. Only pages that the hardware walks were written. -/
structure Mapped (P : Word → Prop) (start stop : paddr_t) (s : Vmm) (own : Own) (d : paddr_t)
    (va pa flags : Word) (size : Nat) (s' : Vmm) (own' : Own) : Prop where
  good : Good P start stop s' own'
  leaves : ∀ d', (d', .pgdir) ∈ own → ∀ x, leafAt s'.mem d' x =
    if d' = d ∧ Covers va size x then some (sendsTo va pa flags x) else leafAt s.mem d' x
  frame : ∀ x, (∀ p o, (p, o) ∈ own' → o.walked = true → ¬ InPage p x) → s'.mem x = s.mem x

/-- The ends of `vm_map_4k`: its result (none for a panic) and the owners
after it. -/
inductive Map4k (P : Word → Prop) (start stop : paddr_t) (s : Vmm) (own : Own) (d : paddr_t)
    (va pa flags : Word) : Option (status_t × Vmm) → Own → Prop
  | bad (h : va.toNat % 4096 ≠ 0 ∨ pa.toNat % 4096 ≠ 0) :
    Map4k P start stop s own d va pa flags (some (XOS_ERR_BAD_PARAM, s)) own
  | mega (ha : va.toNat % 4096 = 0 ∧ pa.toNat % 4096 = 0)
    (hl : ∀ x, vpn1 x = vpn1 va → leafAt s.mem d x ≠ none) :
    Map4k P start stop s own d va pa flags (some (XOS_ERR_CONFLICT, s)) own
  | page (ha : va.toNat % 4096 = 0 ∧ pa.toNat % 4096 = 0) (t : paddr_t)
    (ht : (t, .table d (vpn1 va)) ∈ own) (hl : leafAt s.mem d va ≠ none) :
    Map4k P start stop s own d va pa flags (some (-1, s)) own
  | full (ha : va.toNat % 4096 = 0 ∧ pa.toNat % 4096 = 0)
    (hv : has (pte s.mem d (vpn1 va)) PTE_V = false) (hp : ppage_alloc_z s = none) :
    Map4k P start stop s own d va pa flags none own
  | old (ha : va.toNat % 4096 = 0 ∧ pa.toNat % 4096 = 0) (t : paddr_t)
    (ht : (t, .table d (vpn1 va)) ∈ own) (hl : leafAt s.mem d va = none) (s' : Vmm)
    (htop : s'.pa_top = s.pa_top) (hh : s'.handed = s.handed)
    (hm : Mapped P start stop s own d va pa flags 4096 s' own) :
    Map4k P start stop s own d va pa flags (some (XOS_OK, s')) own
  | new (ha : va.toNat % 4096 = 0 ∧ pa.toNat % 4096 = 0)
    (hv : has (pte s.mem d (vpn1 va)) PTE_V = false) (t : paddr_t) (s1 s' : Vmm)
    (hp : ppage_alloc_z s = some (t, s1)) (hf : Fresh s s1 own t) (htop : s'.pa_top = t)
    (hh : s'.handed = t :: s.handed)
    (hm : Mapped P start stop s own d va pa flags 4096 s' ((t, .table d (vpn1 va)) :: own)) :
    Map4k P start stop s own d va pa flags (some (XOS_OK, s')) ((t, .table d (vpn1 va)) :: own)

/-- The ends of `vm_map_4m`, which takes no page. -/
inductive Map4m (P : Word → Prop) (start stop : paddr_t) (s : Vmm) (own : Own) (d : paddr_t)
    (va pa flags : Word) : status_t × Vmm → Prop
  | bad (h : va.toNat % 0x400000 ≠ 0 ∨ pa.toNat % 0x400000 ≠ 0) :
    Map4m P start stop s own d va pa flags (XOS_ERR_BAD_PARAM, s)
  | taken (ha : va.toNat % 0x400000 = 0 ∧ pa.toNat % 0x400000 = 0) (x : Word)
    (hx : Covers va 0x400000 x) (hl : leafAt s.mem d x ≠ none) :
    Map4m P start stop s own d va pa flags (XOS_ERR_CONFLICT, s)
  | done (ha : va.toNat % 0x400000 = 0 ∧ pa.toNat % 0x400000 = 0)
    (hl : ∀ x, Covers va 0x400000 x → leafAt s.mem d x = none) (s' : Vmm)
    (htop : s'.pa_top = s.pa_top) (hh : s'.handed = s.handed)
    (hm : Mapped P start stop s own d va pa flags 0x400000 s' own) :
    Map4m P start stop s own d va pa flags (XOS_OK, s')

section

variable {P : Word → Prop} {start stop : paddr_t} {s s' : Vmm} {own : Own} {m m' : Mem}
  {d t : paddr_t} {va pa flags : Word}

/-! ## The code over entries -/

theorem vm_map_leaf_entry (s : Vmm) (t : paddr_t) (j : Nat) (pa flags : Word) :
    vm_map_leaf s (pa_to_kva t) (BitVec.ofNat 32 j) pa flags =
      if has (pte s.mem t j) PTE_V then (-1, s)
      else (XOS_OK, { s with mem := setPte s.mem t j (pack pa flags) }) := by
  unfold vm_map_leaf
  rw [load_entry, store_entry]
  rfl

theorem vm_map_4k_entry (s : Vmm) (d : paddr_t) (va pa flags : Word) :
    vm_map_4k s (pa_to_kva d) va pa flags =
      if va.toNat % 4096 ≠ 0 ∨ pa.toNat % 4096 ≠ 0 then some (XOS_ERR_BAD_PARAM, s)
      else if has (pte s.mem d (vpn1 va)) PTE_V then
        if has (pte s.mem d (vpn1 va)) (PTE_X ||| PTE_W ||| PTE_R) then some (XOS_ERR_CONFLICT, s)
        else some (vm_map_leaf s (pa_to_kva (PTE_PA (pte s.mem d (vpn1 va))))
          (BitVec.ofNat 32 (vpn0 va)) pa flags)
      else match ppage_alloc_z s with
        | none => none
        | some (t, s1) =>
          some (vm_map_leaf { s1 with mem := setPte s1.mem d (vpn1 va) (link t) } (pa_to_kva t)
            (BitVec.ofNat 32 (vpn0 va)) pa flags) := by
  unfold vm_map_4k
  simp only [idx1_eq, idx0_eq, load_entry, store_entry, and_fff_ne_zero]
  rcases ppage_alloc_z s with _ | ⟨t, s1⟩ <;> rfl

theorem vm_map_4m_entry (s : Vmm) (d : paddr_t) (va pa flags : Word) :
    vm_map_4m s (pa_to_kva d) va pa flags =
      if va.toNat % 0x400000 ≠ 0 ∨ pa.toNat % 0x400000 ≠ 0 then (XOS_ERR_BAD_PARAM, s)
      else if has (pte s.mem d (vpn1 va)) PTE_V then (XOS_ERR_CONFLICT, s)
      else (XOS_OK, { s with mem := setPte s.mem d (vpn1 va) (pack pa flags) }) := by
  unfold vm_map_4m
  simp only [idx1_eq, load_entry, store_entry, and_3fffff_ne_zero]
  rfl

/-- A set entry changes no byte outside its page. -/
theorem setPte_frame (m : Mem) {p x : Word} {i : Nat} (v : Word) (hp : PageAligned p)
    (hi : i < 1024) (hx : ¬ InPage p x) : setPte m p i v x = m x := by
  apply write_out
  rw [le32_length]
  by_contra hc
  exact hx (inPage_of_entry hp hi (by omega))

/-- Where a packed leaf sends the addresses of its page. -/
theorem packed_4k (ha : va.toNat % 4096 = 0 ∧ pa.toNat % 4096 = 0) {x : Word}
    (hx : Covers va 4096 x) :
    (ppn (pack pa flags) * 0x1000 + x.toNat % 0x1000, flagsOf (pack pa flags)) =
      sendsTo va pa flags x := by
  obtain ⟨h1, h2⟩ := hx
  unfold sendsTo
  rw [ppn_pack, flagsOf_pack]
  refine Prod.ext ?_ rfl
  show pa.toNat / 0x1000 * 0x1000 + x.toNat % 0x1000 = pa.toNat + (x.toNat - va.toNat)
  omega

theorem packed_4m (ha : va.toNat % 0x400000 = 0 ∧ pa.toNat % 0x400000 = 0) {x : Word}
    (hx : Covers va 0x400000 x) :
    (ppn (pack pa flags) * 0x1000 + x.toNat % 0x400000, flagsOf (pack pa flags)) =
      sendsTo va pa flags x := by
  obtain ⟨h1, h2⟩ := hx
  unfold sendsTo
  rw [ppn_pack, flagsOf_pack]
  refine Prod.ext ?_ rfl
  show pa.toNat / 0x1000 * 0x1000 + x.toNat % 0x400000 = pa.toNat + (x.toNat - va.toNat)
  omega

/-! ## The specs -/

/-- A leaf set in a table that the directory links already. -/
theorem mapped_old (hg : Good P start stop s own) (hP : ∀ f, P f → LeafFlags f)
    (hf : P (flagsOf flags)) (ha : va.toNat % 4096 = 0 ∧ pa.toNat % 4096 = 0)
    (ht : (t, .table d (vpn1 va)) ∈ own) :
    Mapped P start stop s own d va pa flags 4096
      { s with mem := setPte s.mem t (vpn0 va) (pack pa flags) } own := by
  have he := leaf_pack pa flags hf
  have hj := vpn0_lt va
  refine ⟨⟨pool_mem hg.pool _, trees_set_table hg.pool hg.trees hP ht hj he⟩, ?_, ?_⟩
  · intro d' hd' x
    simp only [leafAt_set_table hg.pool hg.trees hP ht hj he hd' x, covers_4k ha.1]
    split
    · rename_i hx
      rw [packed_4k ha ((covers_4k ha.1).mpr hx.2)]
    · rfl
  · intro x hx
    exact setPte_frame _ _ (pool_aligned hg.pool ht) hj (hx t _ ht rfl)

/-- A leaf set in a new table. -/
theorem mapped_new (hg : Good P start stop s own) (hP : ∀ f, P f → LeafFlags f)
    (hf : P (flagsOf flags)) (ha : va.toNat % 4096 = 0 ∧ pa.toNat % 4096 = 0)
    (hd : (d, .pgdir) ∈ own) (hv : has (pte s.mem d (vpn1 va)) PTE_V = false) {s1 : Vmm}
    (hp : ppage_alloc_z s = some (t, s1)) :
    Mapped P start stop s own d va pa flags 4096
      { s1 with mem := setLink s1.mem d (vpn1 va) t (vpn0 va) (pack pa flags) }
      ((t, .table d (vpn1 va)) :: own) := by
  have he := leaf_pack pa flags hf
  have hi := vpn1_lt va
  have hj := vpn0_lt va
  obtain ⟨hfresh, hpool⟩ := ppage_alloc_z_some hg.pool hp
  have hsame := sameTrees_of_fresh hg.pool hfresh
  have htrees := trees_same hg.trees hsame
  have hv1 : has (pte s1.mem d (vpn1 va)) PTE_V = false := by
    rw [hsame d _ hd rfl _ hi]
    exact hv
  refine ⟨⟨pool_mem (hpool _) _, trees_set_link hg.pool htrees hP hd hi hv1 hfresh.aligned
    hfresh.new hfresh.zero hj he⟩, ?_, ?_⟩
  · intro d' hd' x
    simp only [leafAt_set_link hg.pool htrees hP hd hi hv1 hfresh.aligned hfresh.new hfresh.zero
      hj he hd' x, covers_4k ha.1, leafAt_same hg.pool hg.trees hsame hP hd' x]
    split
    · rename_i hx
      rw [packed_4k ha ((covers_4k ha.1).mpr hx.2)]
    · rfl
  · intro x hx
    have htx := hx t _ List.mem_cons_self rfl
    have hdx := hx d _ (List.mem_cons_of_mem _ hd) rfl
    dsimp only
    unfold setLink
    rw [setPte_frame _ _ hfresh.aligned hj htx, setPte_frame _ _ (pool_aligned hg.pool hd) hi hdx,
      hfresh.frame x htx]

theorem vm_map_4k.spec (hg : Good P start stop s own) (hP : ∀ f, P f → LeafFlags f)
    (hd : (d, .pgdir) ∈ own) (hf : P (flagsOf flags)) (va pa : Word) :
    ∃ own', Map4k P start stop s own d va pa flags
      (vm_map_4k s (pa_to_kva d) va pa flags) own' := by
  have hi := vpn1_lt va
  rw [vm_map_4k_entry]
  by_cases hb : va.toNat % 4096 ≠ 0 ∨ pa.toNat % 4096 ≠ 0
  · rw [if_pos hb]
    exact ⟨own, .bad hb⟩
  rw [if_neg hb]
  have ha : va.toNat % 4096 = 0 ∧ pa.toNat % 4096 = 0 := by omega
  rcases hg.trees.dirs d hd _ hi with hv | ⟨hl, -⟩ | ⟨t, ht, hlink⟩
  · simp only [hv, Bool.false_eq_true, if_false]
    rcases hp : ppage_alloc_z s with _ | ⟨t, s1⟩
    · exact ⟨own, .full ha hv hp⟩
    · obtain ⟨hfresh, -⟩ := ppage_alloc_z_some hg.pool hp
      have hz : has (pte (setPte s1.mem d (vpn1 va) (link t)) t (vpn0 va)) PTE_V = false := by
        have hne : d ≠ t := by
          rintro rfl
          exact hfresh.new (List.mem_map_of_mem hd)
        rw [pte_setPte_ne _ _ (pool_aligned hg.pool hd) hfresh.aligned hi (vpn0_lt va) (Or.inl hne),
          pte_zeroed hfresh.aligned (vpn0_lt va) hfresh.zero]
        rfl
      simp only [vm_map_leaf_entry, hz, Bool.false_eq_true, if_false]
      refine ⟨_, .new ha hv t s1 _ hp hfresh hfresh.top ?_
        (mapped_new hg hP hf ha hd hv hp)⟩
      unfold ppage_alloc_z at hp
      split at hp
      · cases hp
      · cases hp; rfl
  · obtain ⟨hv, hrwx⟩ := leaf_valid hP hl
    simp only [hv, hrwx, if_true]
    refine ⟨own, .mega ha ?_⟩
    intro x hx
    rw [leafAt_mega hP (by rw [hx]; exact hl)]
    simp
  · have hta := pool_aligned hg.pool ht
    simp only [hlink, link_valid, link_not_rwx hta, PTE_PA_link hta, if_true, Bool.false_eq_true,
      if_false, vm_map_leaf_entry]
    by_cases hv : has (pte s.mem t (vpn0 va)) PTE_V = true
    · rw [if_pos hv]
      refine ⟨own, .page ha t ht ?_⟩
      rw [leafAt_link hta hlink, if_pos hv]
      simp
    · rw [if_neg hv]
      refine ⟨own, .old ha t ht ?_ _ rfl rfl (mapped_old hg hP hf ha ht)⟩
      rw [leafAt_link hta hlink, if_neg hv]

theorem vm_map_4m.spec (hg : Good P start stop s own) (hP : ∀ f, P f → LeafFlags f)
    (hd : (d, .pgdir) ∈ own) (hf : P (flagsOf flags)) (va pa : Word) :
    Map4m P start stop s own d va pa flags (vm_map_4m s (pa_to_kva d) va pa flags) := by
  have hi := vpn1_lt va
  rw [vm_map_4m_entry]
  by_cases hb : va.toNat % 0x400000 ≠ 0 ∨ pa.toNat % 0x400000 ≠ 0
  · rw [if_pos hb]
    exact .bad hb
  rw [if_neg hb]
  have ha : va.toNat % 0x400000 = 0 ∧ pa.toNat % 0x400000 = 0 := by omega
  have hself : Covers va 0x400000 va := (covers_4m ha.1).mpr rfl
  rcases hg.trees.dirs d hd _ hi with hv | ⟨hl, -⟩ | ⟨t, ht, hlink⟩
  · have he := leaf_pack pa flags hf
    have hppn : ppn (pack pa flags) % 0x400 = 0 := by
      rw [ppn_pack]; omega
    simp only [hv, Bool.false_eq_true, if_false]
    refine .done ha ?_ _ rfl rfl ⟨⟨pool_mem hg.pool _, trees_set_dir hg.pool hg.trees hd hi hv he
      hppn⟩, ?_, ?_⟩
    · intro x hx
      apply leafAt_invalid
      rw [(covers_4m ha.1).mp hx]
      exact hv
    · intro d' hd' x
      simp only [leafAt_set_dir hg.pool hg.trees hP hd hi he hd' x, covers_4m ha.1]
      split
      · rename_i hx
        rw [packed_4m ha ((covers_4m ha.1).mpr hx.2)]
      · rfl
    · intro x hx
      exact setPte_frame _ _ (pool_aligned hg.pool hd) hi (hx d _ hd rfl)
  · obtain ⟨hv, -⟩ := leaf_valid hP hl
    simp only [hv, if_true]
    exact .taken ha va hself (by rw [leafAt_mega hP hl]; simp)
  · have hta := pool_aligned hg.pool ht
    simp only [hlink, link_valid, if_true]
    -- the table is used, so some address of the megapage has a leaf
    obtain ⟨j, hj, hv⟩ := (hg.trees.tables t d _ ht).used
    have hx1 : vpn1 (BitVec.ofNat 32 (va.toNat + j * 4096)) = vpn1 va := by
      unfold vpn1
      rw [BitVec.toNat_ofNat]
      omega
    have hx0 : vpn0 (BitVec.ofNat 32 (va.toNat + j * 4096)) = j := by
      unfold vpn0
      rw [BitVec.toNat_ofNat]
      omega
    refine .taken ha _ ((covers_4m ha.1).mpr hx1) ?_
    rw [leafAt_link hta (by rw [hx1]; exact hlink), hx0, if_pos hv]
    simp

end

end os_workshop.vmm
