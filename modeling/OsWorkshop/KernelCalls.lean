-- What one call does to the kernel as a whole, for the code that makes its
-- calls one after another: the pages that it takes, and the leaves that it
-- leaves behind in every directory.
import OsWorkshop.MapRefinement

open os_workshop.memory os_workshop.sv32

namespace os_workshop.vmm

/-! ## The code -/

/-- The two allocators, with the page that they return. -/
def Kernel.ppage_alloc_z (k : Kernel) : Option (paddr_t × Kernel) :=
  (vmm.ppage_alloc_z k.s).map fun r => (r.1, k.after .ppage_alloc_z r.2)

def Kernel.kpage_alloc_z (k : Kernel) (pgdir : Bool) : Option (Word × Kernel) :=
  (vmm.kpage_alloc_z k.s).map fun r => (r.1, k.after (.kpage_alloc_z pgdir) r.2)

/-- The mapping call as a call of the kernel. -/
def MapCall.call (e : MapCall) (pdir : Word) : Call :=
  if e.mega then .vm_map_4m pdir e.va e.pa e.flags else .vm_map_4k pdir e.va e.pa e.flags

/-- A loop `while (va < stop) { call(va); va += size; }`: the cursor after it,
and the status of each call, which the code ignores. `none` is a panic in a
call, or a loop that is not over after `fuel` turns. -/
def map_while (call : vaddr_t → Call) (size stop : Word) :
    Nat → vaddr_t → Kernel → Option (vaddr_t × List status_t × Kernel)
  | 0, _, _ => none
  | fuel + 1, va, k =>
    if va < stop then do
      let (st, k) ← k.exec (call va)
      let (va, sts, k) ← map_while call size stop fuel (va + size) k
      some (va, st :: sts, k)
    else some (va, [], k)

/-- No loop over the address space takes more turns than it has addresses. -/
def TURNS : Nat := 2 ^ 32

section

variable {P : Word → Prop} {start stop : paddr_t} {k k' : Kernel} {c : Call} {st : status_t}
  {d : paddr_t} {va pa flags : Word}

/-! ## A page taken -/

/-- The allocator took the page `t` for the owner `o`, and no leaf changed. -/
structure Took (P : Word → Prop) (start stop : paddr_t) (k : Kernel) (o : Owner) (t : paddr_t)
    (k' : Kernel) : Prop where
  good : Good P start stop k'.s k'.own
  own : k'.own = (t, o) :: k.own
  fresh : Fresh k.s k'.s k.own t
  leaves : ∀ d, (d, .pgdir) ∈ k.own → ∀ x, leafAt k'.s.mem d x = leafAt k.s.mem d x

/-- The callers that ask for a page themselves. -/
def Call.Takes (c : Call) : Prop := c = .ppage_alloc_z ∨ ∃ pgdir, c = .kpage_alloc_z pgdir

theorem took_of_alloc (hP : ∀ f, P f → LeafFlags f) (hg : Good P start stop k.s k.own)
    (hc : c.Takes) {t : paddr_t} {s' : Vmm} (ha : vmm.ppage_alloc_z k.s = some (t, s')) :
    Took P start stop k c.owner t (k.after c s') := by
  obtain ⟨hf, -⟩ := ppage_alloc_z_some hg.pool ha
  have hs := sameTrees_of_fresh hg.pool hf
  rw [after_cons (ppage_alloc_z_handed ha)]
  exact ⟨good_took hg hc ha, rfl, hf, fun d hd x => leafAt_same hg.pool hg.trees hs hP hd x⟩

theorem alloc_some (hg : Good P start stop k.s k.own)
    (hroom : k.own.length < (stop.toNat - start.toNat) / 4096) :
    ∃ t s', vmm.ppage_alloc_z k.s = some (t, s') := by
  rcases ha : vmm.ppage_alloc_z k.s with _ | ⟨t, s'⟩
  · rw [ppage_alloc_z_none hg.pool] at ha
    omega
  · exact ⟨t, s', rfl⟩

theorem Kernel.ppage_alloc_z.spec (hP : ∀ f, P f → LeafFlags f)
    (hg : Good P start stop k.s k.own)
    (hroom : k.own.length < (stop.toNat - start.toNat) / 4096) :
    ∃ t k', k.ppage_alloc_z = some (t, k') ∧ Took P start stop k .page t k' := by
  obtain ⟨t, s', ha⟩ := alloc_some hg hroom
  refine ⟨t, _, ?_, took_of_alloc hP hg (Or.inl rfl) ha⟩
  rw [Kernel.ppage_alloc_z, ha]
  rfl

theorem Kernel.kpage_alloc_z.spec (hP : ∀ f, P f → LeafFlags f)
    (hg : Good P start stop k.s k.own)
    (hroom : k.own.length < (stop.toNat - start.toNat) / 4096) (pgdir : Bool) :
    ∃ t k', k.kpage_alloc_z pgdir = some (pa_to_kva t, k') ∧
      Took P start stop k (if pgdir then .pgdir else .kpage) t k' := by
  obtain ⟨t, s', ha⟩ := alloc_some hg hroom
  refine ⟨t, _, ?_, took_of_alloc hP hg (Or.inr ⟨pgdir, rfl⟩) ha⟩
  rw [Kernel.kpage_alloc_z, vmm.kpage_alloc_z, ha]
  rfl

/-! ## A mapping call that succeeds -/

/-- The call mapped its range in the directory `d`. It took a table for the
entry of its address when there was none. -/
structure MappedBy (P : Word → Prop) (start stop : paddr_t) (k : Kernel) (d : paddr_t)
    (e : MapCall) (k' : Kernel) : Prop where
  good : Good P start stop k'.s k'.own
  own : k'.own = k.own ∨ ∃ t, k'.own = (t, .table d (vpn1 e.va)) :: k.own ∧
    ∀ t', (t', .table d (vpn1 e.va)) ∉ k.own
  leaves : ∀ d', (d', .pgdir) ∈ k.own → ∀ x, leafAt k'.s.mem d' x =
    if d' = d ∧ e.Has x then some (e.goesTo x) else leafAt k.s.mem d' x

theorem MappedBy.mem_own {e : MapCall} (h : MappedBy P start stop k d e k') {q : paddr_t}
    {o : Owner} (hq : (q, o) ∈ k.own) : (q, o) ∈ k'.own := by
  rcases h.own with ho | ⟨t, ho, -⟩ <;> rw [ho]
  · exact hq
  · exact List.mem_cons_of_mem _ hq

/-- A page at an address that has no leaf yet is mapped, when the pool has a
page for the table or the table is there. -/
theorem map_page (hP : ∀ f, P f → LeafFlags f) (hg : Good P start stop k.s k.own)
    (hd : (d, .pgdir) ∈ k.own) (hf : P (flagsOf flags)) (va pa : Word)
    (hva : va.toNat % 4096 = 0) (hpa : pa.toNat % 4096 = 0) (hfree : leafAt k.s.mem d va = none)
    (hroom : k.own.length < (stop.toNat - start.toNat) / 4096 ∨
      ∃ t, (t, .table d (vpn1 va)) ∈ k.own) :
    ∃ k', k.exec (.vm_map_4k (pa_to_kva d) va pa flags) = some (XOS_OK, k') ∧
      MappedBy P start stop k d ⟨false, va, pa, flags⟩ k' ∧
      ∃ t, (t, .table d (vpn1 va)) ∈ k'.own := by
  obtain ⟨own', hm⟩ := vm_map_4k.spec hg hP hd hf va pa
  have hexec : k.exec (.vm_map_4k (pa_to_kva d) va pa flags) =
      (vm_map_4k k.s (pa_to_kva d) va pa flags).map
        fun r => (r.1, k.after (.vm_map_4k (pa_to_kva d) va pa flags) r.2) := rfl
  rw [hexec]
  generalize vm_map_4k k.s (pa_to_kva d) va pa flags = r at hm
  cases hm with
  | bad h => omega
  | mega ha hl => exact absurd hfree (hl va rfl)
  | page ha t ht hl => exact absurd hfree hl
  | full ha hv hpn =>
    rw [ppage_alloc_z_none hg.pool] at hpn
    rcases hroom with h | ⟨t, ht⟩
    · omega
    · exact absurd ht (no_table_of_invalid hg.trees hv t)
  | old ha t ht hl s' htop hh hm =>
    refine ⟨⟨s', k.own⟩, ?_, ⟨hm.good, Or.inl rfl, hm.leaves⟩, t, ht⟩
    rw [Option.map_some, after_same hh]
  | new ha hv t s1 s' hpn hfr htop hh hm =>
    refine ⟨⟨s', (t, .table d (vpn1 va)) :: k.own⟩, ?_,
      ⟨hm.good, Or.inr ⟨t, rfl, no_table_of_invalid hg.trees hv⟩, hm.leaves⟩, t,
      List.mem_cons_self⟩
    rw [Option.map_some, after_cons hh]
    simp only [Call.owner, kva_to_pa_to_kva]

theorem map_mega (hP : ∀ f, P f → LeafFlags f) (hg : Good P start stop k.s k.own)
    (hd : (d, .pgdir) ∈ k.own) (hf : P (flagsOf flags)) (va pa : Word)
    (hva : va.toNat % 0x400000 = 0) (hpa : pa.toNat % 0x400000 = 0)
    (hfree : ∀ x, Covers va 0x400000 x → leafAt k.s.mem d x = none) :
    ∃ k', k.exec (.vm_map_4m (pa_to_kva d) va pa flags) = some (XOS_OK, k') ∧ k'.own = k.own ∧
      MappedBy P start stop k d ⟨true, va, pa, flags⟩ k' := by
  have hm := vm_map_4m.spec hg hP hd hf va pa
  have hexec : k.exec (.vm_map_4m (pa_to_kva d) va pa flags) =
      some ((vm_map_4m k.s (pa_to_kva d) va pa flags).1,
        k.after (.vm_map_4m (pa_to_kva d) va pa flags)
          (vm_map_4m k.s (pa_to_kva d) va pa flags).2) := rfl
  rw [hexec]
  generalize vm_map_4m k.s (pa_to_kva d) va pa flags = r at hm
  cases hm with
  | bad h => omega
  | taken ha x hx hl => exact absurd (hfree x hx) hl
  | done ha hl s' htop hh hm =>
    refine ⟨⟨s', k.own⟩, ?_, rfl, ⟨hm.good, Or.inl rfl, hm.leaves⟩⟩
    rw [after_same hh]

/-! ## What a call leaves alone -/

/-- The pages that callers of `ppage_alloc_z` got, and the memory outside the
pool, hold what they held. -/
structure Keeps (start stop : paddr_t) (k k' : Kernel) : Prop where
  own : ∀ e ∈ k.own, e ∈ k'.own
  pages : ∀ p, (p, .page) ∈ k.own → ∀ x, InPage p x → k'.s.mem x = k.s.mem x
  outside : ∀ x : Word, x.toNat < start.toNat ∨ stop.toNat ≤ x.toNat → k'.s.mem x = k.s.mem x

theorem Keeps.refl (start stop : paddr_t) (k : Kernel) : Keeps start stop k k :=
  ⟨fun _ h => h, fun _ _ _ _ => rfl, fun _ _ => rfl⟩

theorem Keeps.trans {k1 k2 : Kernel} (h1 : Keeps start stop k k1) (h2 : Keeps start stop k1 k2) :
    Keeps start stop k k2 := by
  refine ⟨fun e he => h2.own e (h1.own e he), ?_, ?_⟩
  · intro p hp x hx
    rw [h2.pages p (h1.own _ hp) x hx, h1.pages p hp x hx]
  · intro x hx
    rw [h2.outside x hx, h1.outside x hx]

/-- A page that was handed out stands in the pool. -/
theorem page_in_pool {s : Vmm} {own : Own} (h : Pool start stop s own) {p x : paddr_t} {o : Owner}
    (hp : (p, o) ∈ own) (hx : InPage p x) : start.toNat ≤ x.toNat ∧ x.toNat < stop.toNat := by
  obtain ⟨h1, h2, h3⟩ := h.inside p (List.mem_map_of_mem hp)
  have hlow := h.low
  have hstop := h.stop_aligned
  unfold PageAligned at h1 hstop
  unfold InPage at hx
  omega

/-- Only the page that was taken changes. -/
theorem keeps_took {o : Owner} {t : paddr_t} (hp : Pool start stop k.s k.own)
    (ht : Took P start stop k o t k') : Keeps start stop k k' := by
  have htin : (t, o) ∈ k'.own := by
    rw [ht.own]
    exact List.mem_cons_self
  have hta := ht.fresh.aligned
  refine ⟨fun e he => by rw [ht.own]; exact List.mem_cons_of_mem _ he, ?_, ?_⟩
  · intro p hpo x hx
    apply ht.fresh.frame
    intro hxt
    have hpt := page_eq_of_inPage hta (pool_aligned hp hpo) hxt hx
    subst hpt
    exact ht.fresh.new (List.mem_map_of_mem hpo)
  · intro x hx
    apply ht.fresh.frame
    intro hxt
    have hin := page_in_pool ht.good.pool htin hxt
    omega

/-- Only pages that the hardware walks change in a mapping call. -/
theorem keeps_of_walked {s' : Vmm} {own' : Own} (hg : Good P start stop s' own')
    (hown : ∀ e ∈ k.own, e ∈ own')
    (h : ∀ x, (∀ p o, (p, o) ∈ own' → o.walked = true → ¬ InPage p x) → s'.mem x = k.s.mem x) :
    Keeps start stop k ⟨s', own'⟩ := by
  refine ⟨hown, ?_, ?_⟩
  · intro p hp x hx
    apply h
    intro q o hq hw hxq
    have hpq := page_eq_of_inPage (pool_aligned hg.pool (hown _ hp)) (pool_aligned hg.pool hq) hx hxq
    subst hpq
    rw [← pool_owner_unique hg.pool (hown _ hp) hq] at hw
    cases hw
  · intro x hx
    apply h
    intro q o hq _ hxq
    have hin := page_in_pool hg.pool hq hxq
    omega

/-- No call of the kernel writes to a page that a caller got, or outside the
pool. Only a caller itself may. -/
theorem keeps_exec (hP : ∀ f, P f → LeafFlags f) (hg : Good P start stop k.s k.own)
    (ha : k.Allowed P c) (hw : ∀ a bs, c ≠ .write a bs) (he : k.exec c = some (st, k')) :
    Keeps start stop k k' := by
  cases c with
  | ppage_alloc_z =>
    obtain ⟨t, s1, hp, rfl⟩ := exec_takes (Or.inl rfl) he
    exact keeps_took hg.pool (took_of_alloc hP hg (Or.inl rfl) hp)
  | kpage_alloc_z pgdir =>
    obtain ⟨t, s1, hp, rfl⟩ := exec_takes (Or.inr ⟨pgdir, rfl⟩) he
    exact keeps_took hg.pool (took_of_alloc hP hg (Or.inr ⟨pgdir, rfl⟩) hp)
  | vm_map_4k pdir va pa flags =>
    obtain ⟨s', own', rfl, hm⟩ := exec_4k hP hg ha he
    cases hm with
    | bad | mega | page =>
      rw [after_same rfl]
      exact Keeps.refl start stop k
    | old _ t ht hl _ htop hh hm =>
      rw [after_same hh]
      exact keeps_of_walked hm.good (fun _ he => he) hm.frame
    | new _ hv t s1 _ hp hf htop hh hm =>
      rw [after_cons hh]
      exact keeps_of_walked hm.good (fun _ he => List.mem_cons_of_mem _ he) hm.frame
  | vm_map_4m pdir va pa flags =>
    obtain ⟨s', rfl, hm⟩ := exec_4m hP hg ha he
    cases hm with
    | bad | taken =>
      rw [after_same rfl]
      exact Keeps.refl start stop k
    | done _ _ s' htop hh hm =>
      rw [after_same hh]
      exact keeps_of_walked hm.good (fun _ he => he) hm.frame
  | write a bs => exact absurd rfl (hw a bs)

theorem MapCall.call_ne_write (e : MapCall) (pdir a : Word) (bs : List Byte) :
    e.call pdir ≠ .write a bs := by
  unfold MapCall.call
  split <;> simp

theorem MapCall.call_allowed {e : MapCall} (hd : (d, .pgdir) ∈ k.own) (hf : P (flagsOf e.flags)) :
    k.Allowed P (e.call (pa_to_kva d)) := by
  unfold MapCall.call
  split <;> simp only [Kernel.Allowed, kva_to_pa_to_kva] <;> exact ⟨hd, hf⟩

/-- A loop of mapping calls keeps what each of its calls keeps. -/
theorem keeps_while (call : vaddr_t → MapCall) (hP : ∀ f, P f → LeafFlags f)
    (hcall : ∀ va, P (flagsOf (call va).flags)) {size bound : Word} (fuel : Nat) {va va' : vaddr_t}
    {sts : List status_t} (hg : Good P start stop k.s k.own) (hd : (d, .pgdir) ∈ k.own)
    (hr : map_while (fun va => (call va).call (pa_to_kva d)) size bound fuel va k =
      some (va', sts, k')) : Good P start stop k'.s k'.own ∧ Keeps start stop k k' := by
  induction fuel generalizing va va' k sts with
  | zero => cases hr
  | succ fuel ih =>
    rw [map_while] at hr
    split at hr
    · simp only [Option.bind_eq_bind, Option.bind_eq_some_iff, Option.some.injEq,
        Prod.mk.injEq] at hr
      obtain ⟨⟨st, k1⟩, he, ⟨va1, sts1, k2⟩, hr, -, -, hk2⟩ := hr
      dsimp only at hr hk2
      subst hk2
      have ha := MapCall.call_allowed hd (hcall va)
      have hk := keeps_exec hP hg ha (MapCall.call_ne_write _ _) he
      obtain ⟨hg2, hk2⟩ := ih (good_exec hP hg ha he).1 (hk.own _ hd) hr
      exact ⟨hg2, hk.trans hk2⟩
    · simp only [Option.some.injEq, Prod.mk.injEq] at hr
      obtain ⟨-, -, rfl⟩ := hr
      exact ⟨hg, Keeps.refl start stop k⟩

/-! ## Any call -/

/-- A call that returns either leaves every leaf as it was, or is a mapping
call that succeeded on a range without leaves. -/
theorem exec_leaves (hP : ∀ f, P f → LeafFlags f) (hg : Good P start stop k.s k.own)
    (ha : k.Allowed P c) (he : k.exec c = some (st, k')) :
    (∀ d, (d, .pgdir) ∈ k.own → ∀ x, leafAt k'.s.mem d x = leafAt k.s.mem d x) ∨
    ∃ d e, c = e.call (pa_to_kva d) ∧ (d, .pgdir) ∈ k.own ∧ P (flagsOf e.flags) ∧
      e.pa.toNat % e.size = 0 ∧ (∀ x, e.Has x → leafAt k.s.mem d x = none) ∧
      MappedBy P start stop k d e k' := by
  cases c with
  | ppage_alloc_z =>
    left
    obtain ⟨t, s1, hp, rfl⟩ := exec_takes (Or.inl rfl) he
    exact (took_of_alloc hP hg (Or.inl rfl) hp).leaves
  | kpage_alloc_z pgdir =>
    left
    obtain ⟨t, s1, hp, rfl⟩ := exec_takes (Or.inr ⟨pgdir, rfl⟩) he
    exact (took_of_alloc hP hg (Or.inr ⟨pgdir, rfl⟩) hp).leaves
  | vm_map_4k pdir va pa flags =>
    obtain ⟨hd, hf⟩ := ha
    obtain ⟨s', own', rfl, hm⟩ := exec_4k hP hg ⟨hd, hf⟩ he
    have hcall : Call.vm_map_4k pdir va pa flags =
        MapCall.call ⟨false, va, pa, flags⟩ (pa_to_kva (kva_to_pa pdir)) := by
      simp [MapCall.call, pa_to_kva_to_pa]
    cases hm with
    | bad | mega | page =>
      left
      rw [after_same rfl]
      exact fun _ _ _ => rfl
    | old ha t ht hl _ htop hh hm =>
      right
      rw [after_same hh]
      refine ⟨kva_to_pa pdir, ⟨false, va, pa, flags⟩, hcall, hd, hf, ha.2, ?_,
        ⟨hm.good, Or.inl rfl, hm.leaves⟩⟩
      intro x hx
      obtain ⟨h1, h2⟩ := (covers_4k ha.1).mp hx
      rw [leafAt_none_iff hg.pool hg.trees hP hd] at hl ⊢
      rw [h1, h2]
      exact hl
    | new ha hv t s1 _ hp hf' htop hh hm =>
      right
      rw [after_cons hh]
      refine ⟨kva_to_pa pdir, ⟨false, va, pa, flags⟩, hcall, hd, hf, ha.2, ?_,
        ⟨hm.good, Or.inr ⟨t, rfl, no_table_of_invalid hg.trees hv⟩, hm.leaves⟩⟩
      intro x hx
      obtain ⟨h1, -⟩ := (covers_4k ha.1).mp hx
      exact leafAt_invalid (by rw [h1]; exact hv)
  | vm_map_4m pdir va pa flags =>
    obtain ⟨hd, hf⟩ := ha
    obtain ⟨s', rfl, hm⟩ := exec_4m hP hg ⟨hd, hf⟩ he
    have hcall : Call.vm_map_4m pdir va pa flags =
        MapCall.call ⟨true, va, pa, flags⟩ (pa_to_kva (kva_to_pa pdir)) := by
      simp [MapCall.call, pa_to_kva_to_pa]
    cases hm with
    | bad | taken =>
      left
      rw [after_same rfl]
      exact fun _ _ _ => rfl
    | done ha hl s' htop hh hm =>
      right
      rw [after_same hh]
      exact ⟨kva_to_pa pdir, ⟨true, va, pa, flags⟩, hcall, hd, hf, ha.2, hl,
        ⟨hm.good, Or.inl rfl, hm.leaves⟩⟩
  | write a bs =>
    left
    obtain ⟨rfl, hs⟩ := exec_write hg ha he
    exact fun d hd x => leafAt_same hg.pool hg.trees hs hP hd x

end

end os_workshop.vmm
