-- What the status of a mapping call says: a call that is refused leaves no
-- trace, and each status tells whether the range was free, apart from the one
-- that `vm_map_4k` returns when a 4KB page stands at the address already.
import OsWorkshop.KernelCalls

open os_workshop.memory os_workshop.sv32 os_workshop.runs

namespace os_workshop.vmm

/-! ## What a status owes -/

/-- Both addresses stand on a page of the size of the call. -/
def MapCall.Aligned (e : MapCall) : Prop := e.va.toNat % e.size = 0 ∧ e.pa.toNat % e.size = 0

/-- Some address of the range of the call is mapped. -/
def MapCall.Meets (e : MapCall) (m : Mem) (d : paddr_t) : Prop :=
  ∃ x, e.Has x ∧ leafAt m d x ≠ none

/-- The status as xos/status.h documents it. -/
structure Truthful (m : Mem) (d : paddr_t) (e : MapCall) (st : status_t) : Prop where
  bad_param : st = XOS_ERR_BAD_PARAM ↔ ¬ e.Aligned
  conflict : e.Aligned → (st = XOS_ERR_CONFLICT ↔ e.Meets m d)
  ok : e.Aligned → ¬ e.Meets m d → st = XOS_OK

/-- A 4KB page is mapped at the address. -/
def PageAt (m : Mem) (d : paddr_t) (va : Word) : Prop :=
  has (pte m d (vpn1 va)) PTE_V = true ∧
    has (pte m d (vpn1 va)) (PTE_X ||| PTE_W ||| PTE_R) = false ∧
    has (pte m (PTE_PA (pte m d (vpn1 va))) (vpn0 va)) PTE_V = true

/-- The call asks for a 4KB page where one is mapped. -/
def MapCall.Remaps (e : MapCall) (m : Mem) (d : paddr_t) : Prop :=
  e.mega = false ∧ e.Aligned ∧ PageAt m d e.va

section

variable {P : Word → Prop} {start stop : paddr_t} {k k' : Kernel} {d t : paddr_t} {m : Mem}
  {e : MapCall} {st : status_t} {va pa flags : Word}

theorem leaf_flagsOf {f : Word} (h : LeafFlags f) : LeafFlags (flagsOf f) := by
  have h0 : has (flagsOf f) PTE_V = has f PTE_V := has_flagsOf f 0 (by omega)
  have h1 : has (flagsOf f) PTE_R = has f PTE_R := has_flagsOf f 1 (by omega)
  have h3 : has (flagsOf f) PTE_X = has f PTE_X := has_flagsOf f 3 (by omega)
  unfold LeafFlags at *
  rw [h0, h1, h3]
  exact h

theorem exec_call_4k (k : Kernel) (d : paddr_t) (h : e.mega = false) :
    k.exec (e.call (pa_to_kva d)) = (vm_map_4k k.s (pa_to_kva d) e.va e.pa e.flags).map
      fun r => (r.1, k.after (e.call (pa_to_kva d)) r.2) := by
  simp [MapCall.call, h, Kernel.exec]

theorem exec_call_4m (k : Kernel) (d : paddr_t) (h : e.mega = true) :
    k.exec (e.call (pa_to_kva d)) = some ((vm_map_4m k.s (pa_to_kva d) e.va e.pa e.flags).1,
      k.after (e.call (pa_to_kva d)) (vm_map_4m k.s (pa_to_kva d) e.va e.pa e.flags).2) := by
  simp [MapCall.call, h, Kernel.exec]

/-! ## A refused call -/

/-- A call that does not succeed changes nothing. A new table is all zeros, so
no call is refused after it took one. -/
theorem exec_refused (hP : ∀ f, P f → LeafFlags f) (hg : Good P start stop k.s k.own)
    (hd : (d, .pgdir) ∈ k.own) (hf : P (flagsOf e.flags))
    (he : k.exec (e.call (pa_to_kva d)) = some (st, k')) (hst : st ≠ XOS_OK) : k' = k := by
  cases hmega : e.mega
  · obtain ⟨own', hm⟩ := vm_map_4k.spec hg hP hd hf e.va e.pa
    rw [exec_call_4k k d hmega] at he
    generalize vm_map_4k k.s (pa_to_kva d) e.va e.pa e.flags = r at hm he
    cases hm with
    | bad | mega | page =>
      simp only [Option.map_some, after_same, Option.some.injEq, Prod.mk.injEq] at he
      exact he.2.symm
    | full => cases he
    | old | new =>
      simp only [Option.map_some, Option.some.injEq, Prod.mk.injEq] at he
      exact absurd he.1.symm hst
  · have hm := vm_map_4m.spec hg hP hd hf e.va e.pa
    rw [exec_call_4m k d hmega] at he
    generalize vm_map_4m k.s (pa_to_kva d) e.va e.pa e.flags = r at hm he
    cases hm with
    | bad | taken =>
      simp only [after_same, Option.some.injEq, Prod.mk.injEq] at he
      exact he.2.symm
    | done =>
      simp only [Option.some.injEq, Prod.mk.injEq] at he
      exact absurd he.1.symm hst

/-! ## The status -/

theorem truthful_bad (h : ¬ e.Aligned) : Truthful m d e XOS_ERR_BAD_PARAM :=
  ⟨by simp [h], fun ha => absurd ha h, fun ha => absurd ha h⟩

theorem truthful_conflict (ha : e.Aligned) (h : e.Meets m d) :
    Truthful m d e XOS_ERR_CONFLICT :=
  ⟨by simp [ha], by simp [h], fun _ hn => absurd h hn⟩

theorem truthful_ok (ha : e.Aligned) (h : ¬ e.Meets m d) : Truthful m d e XOS_OK :=
  ⟨by simp [ha], by simp [h], fun _ _ => rfl⟩

/-- No page stands where the directory has no leaf. -/
theorem not_pageAt (h : leafAt m d va = none) : ¬ PageAt m d va := by
  rintro ⟨h1, h2, h3⟩
  simp [leafAt, h1, h2, h3] at h

theorem pageAt_of_table (hg : Good P start stop k.s k.own)
    (ht : (t, .table d (vpn1 va)) ∈ k.own) (hl : leafAt k.s.mem d va ≠ none) :
    PageAt k.s.mem d va := by
  have hlink := (hg.trees.tables t d _ ht).linked
  have hta := pool_aligned hg.pool ht
  refine ⟨by rw [hlink, link_valid], by rw [hlink, link_not_rwx hta], ?_⟩
  by_contra hv
  rw [leafAt_link hta hlink] at hl
  rw [hlink, PTE_PA_link hta] at hv
  exact hl (if_neg hv)

/-- The code finds the page, after it checked the directory. -/
theorem vm_map_4k_remaps (s : Vmm) (hva : va.toNat % 4096 = 0) (hpa : pa.toNat % 4096 = 0)
    (h : PageAt s.mem d va) : vm_map_4k s (pa_to_kva d) va pa flags = some (-1, s) := by
  obtain ⟨h1, h2, h3⟩ := h
  rw [vm_map_4k_entry, if_neg (by omega)]
  simp only [h1, h2, h3, if_true, Bool.false_eq_true, if_false, vm_map_leaf_entry]

/-- A page of the range of a 4KB call is mapped exactly when its address is. -/
theorem meets_4k (hP : ∀ f, P f → LeafFlags f) (hg : Good P start stop k.s k.own)
    (hd : (d, .pgdir) ∈ k.own) (hmega : e.mega = false) (ha : e.Aligned) :
    e.Meets k.s.mem d ↔ leafAt k.s.mem d e.va ≠ none := by
  have hsize : e.size = 4096 := by simp [MapCall.size, hmega]
  have hva : e.va.toNat % 4096 = 0 := hsize ▸ ha.1
  have hhas : ∀ x, e.Has x ↔ vpn1 x = vpn1 e.va ∧ vpn0 x = vpn0 e.va := by
    intro x
    unfold MapCall.Has
    rw [hsize]
    exact covers_4k hva
  constructor
  · rintro ⟨x, hx, hl⟩ hn
    obtain ⟨h1, h2⟩ := (hhas x).mp hx
    apply hl
    rw [leafAt_none_iff hg.pool hg.trees hP hd] at hn ⊢
    rw [h1, h2]
    exact hn
  · intro hl
    exact ⟨e.va, (hhas _).mpr ⟨rfl, rfl⟩, hl⟩

theorem status_4k (hP : ∀ f, P f → LeafFlags f) (hg : Good P start stop k.s k.own)
    (hd : (d, .pgdir) ∈ k.own) (hf : P (flagsOf e.flags)) (hmega : e.mega = false)
    (hroom : ppage_alloc_z k.s ≠ none) :
    ∃ st k', k.exec (e.call (pa_to_kva d)) = some (st, k') ∧
      (Truthful k.s.mem d e st ↔ ¬ e.Remaps k.s.mem d) := by
  have hsize : e.size = 4096 := by simp [MapCall.size, hmega]
  have hal : e.Aligned ↔ e.va.toNat % 4096 = 0 ∧ e.pa.toNat % 4096 = 0 := by
    rw [MapCall.Aligned, hsize]
  have hmeets := meets_4k hP hg hd hmega
  have hremaps : e.Remaps k.s.mem d →
      vm_map_4k k.s (pa_to_kva d) e.va e.pa e.flags = some (-1, k.s) := by
    rintro ⟨-, ha, hp⟩
    exact vm_map_4k_remaps k.s (hal.mp ha).1 (hal.mp ha).2 hp
  obtain ⟨own', hm⟩ := vm_map_4k.spec hg hP hd hf e.va e.pa
  rw [exec_call_4k k d hmega]
  generalize vm_map_4k k.s (pa_to_kva d) e.va e.pa e.flags = r at hm hremaps
  cases hm with
  | bad h =>
    have hna : ¬ e.Aligned := by rw [hal]; omega
    exact ⟨_, _, rfl, iff_of_true (truthful_bad hna) fun hr => hna hr.2.1⟩
  | mega ha hl =>
    have ha' := hal.mpr ha
    refine ⟨_, _, rfl, iff_of_true (truthful_conflict ha' ((hmeets ha').mpr (hl _ rfl))) ?_⟩
    intro hr
    have hst := hremaps hr
    simp at hst
  | page ha t ht hl =>
    have ha' := hal.mpr ha
    refine ⟨_, _, rfl, iff_of_false ?_ (not_not.mpr ⟨hmega, ha', pageAt_of_table hg ht hl⟩)⟩
    intro h
    have hst := (h.conflict ha').mpr ((hmeets ha').mpr hl)
    simp at hst
  | full ha hv hp => exact absurd hp hroom
  | old ha t ht hl =>
    have ha' := hal.mpr ha
    exact ⟨_, _, rfl, iff_of_true (truthful_ok ha' fun hm => (hmeets ha').mp hm hl)
      fun hr => not_pageAt hl hr.2.2⟩
  | new ha hv =>
    have ha' := hal.mpr ha
    have hl := leafAt_invalid hv
    exact ⟨_, _, rfl, iff_of_true (truthful_ok ha' fun hm => (hmeets ha').mp hm hl)
      fun hr => not_pageAt hl hr.2.2⟩

theorem status_4m (hP : ∀ f, P f → LeafFlags f) (hg : Good P start stop k.s k.own)
    (hd : (d, .pgdir) ∈ k.own) (hf : P (flagsOf e.flags)) (hmega : e.mega = true) :
    ∃ st k', k.exec (e.call (pa_to_kva d)) = some (st, k') ∧ Truthful k.s.mem d e st := by
  have hsize : e.size = 0x400000 := by simp [MapCall.size, hmega]
  have hal : e.Aligned ↔ e.va.toNat % 0x400000 = 0 ∧ e.pa.toNat % 0x400000 = 0 := by
    rw [MapCall.Aligned, hsize]
  have hhas : ∀ x, e.Has x ↔ Covers e.va 0x400000 x := by
    intro x
    rw [MapCall.Has, hsize]
  have hm := vm_map_4m.spec hg hP hd hf e.va e.pa
  rw [exec_call_4m k d hmega]
  generalize vm_map_4m k.s (pa_to_kva d) e.va e.pa e.flags = r at hm
  cases hm with
  | bad h =>
    refine ⟨_, _, rfl, truthful_bad ?_⟩
    rw [hal]
    omega
  | taken ha x hx hl =>
    exact ⟨_, _, rfl, truthful_conflict (hal.mpr ha) ⟨x, (hhas x).mpr hx, hl⟩⟩
  | done ha hl =>
    refine ⟨_, _, rfl, truthful_ok (hal.mpr ha) ?_⟩
    rintro ⟨x, hx, hn⟩
    exact hn (hl x ((hhas x).mp hx))

end

/-! ## The laws -/

/-- For every pool and every run of calls from `vmm_init` on, and every mapping
call with leaf flags, a call that returns anything but `XOS_OK` leaves the
kernel as it was: all of the memory, the bounds of the allocator and the pages
that it handed out. -/
theorem a_refused_mapping_leaves_no_trace (start stop : paddr_t) (h1 : PageAligned start)
    (h2 : PageAligned stop) (h : start.toNat ≤ stop.toNat) (m : Mem) (k : Kernel)
    (ls : List (Call × status_t))
    (hr : Run (kernelStep LeafFlags) (Kernel.boot m start stop) ls k) (d : paddr_t)
    (hd : (d, .pgdir) ∈ k.own) (e : MapCall) (hf : LeafFlags e.flags) (st : status_t)
    (k' : Kernel) (he : k.exec (e.call (pa_to_kva d)) = some (st, k')) (hst : st ≠ XOS_OK) :
    k' = k :=
  exec_refused (fun _ h => h) (good_run (fun _ h => h) (good_boot m h1 h2 h) hr) hd
    (leaf_flagsOf hf) he hst

/-- For every pool, every run of calls from `vmm_init` on, and every mapping
call with leaf flags while a page is left, the call returns, and its status is
the one that xos/status.h documents exactly when the call does not ask for a
4KB page where one is mapped. -/
theorem the_status_is_true_iff (start stop : paddr_t) (h1 : PageAligned start)
    (h2 : PageAligned stop) (h : start.toNat ≤ stop.toNat) (m : Mem) (k : Kernel)
    (ls : List (Call × status_t))
    (hr : Run (kernelStep LeafFlags) (Kernel.boot m start stop) ls k) (d : paddr_t)
    (hd : (d, .pgdir) ∈ k.own) (e : MapCall) (hf : LeafFlags e.flags)
    (hroom : ppage_alloc_z k.s ≠ none) :
    ∃ st k', k.exec (e.call (pa_to_kva d)) = some (st, k') ∧
      (Truthful k.s.mem d e st ↔ ¬ e.Remaps k.s.mem d) := by
  have hg : Good LeafFlags start stop k.s k.own :=
    good_run (fun _ h => h) (good_boot m h1 h2 h) hr
  cases hmega : e.mega
  · exact status_4k (fun _ h => h) hg hd (leaf_flagsOf hf) hmega hroom
  · obtain ⟨st, k', he, ht⟩ := status_4m (fun _ h => h) hg hd (leaf_flagsOf hf) hmega
    refine ⟨st, k', he, iff_of_true ht ?_⟩
    rintro ⟨hm, -⟩
    rw [hmega] at hm
    cases hm

/-! ## A page mapped twice -/

/-- A user page at 0x10000000. -/
def userPage : MapCall := ⟨false, 0x10000000, 0x40C00000, 0xD7⟩

/-- The page above it. -/
def nextPage : MapCall := ⟨false, 0x10001000, 0x40C01000, 0xD7⟩

/-- The kernel with the first page mapped in its one directory. -/
def onePage : Kernel := oneDirectory.next (userPage.call (pa_to_kva 0x40012000))

theorem onePage_run : ∃ ls,
    Run (kernelStep LeafFlags) (Kernel.boot (fun _ => 0xAA) 0x40010000 0x40013000) ls onePage := by
  have hf : LeafFlags (flagsOf 0xD7) := ⟨by decide, Or.inl (by decide)⟩
  have s1 : kernelStep LeafFlags (Kernel.boot (fun _ => 0xAA) 0x40010000 0x40013000)
    (.kpage_alloc_z true, XOS_OK) oneDirectory := ⟨trivial, rfl⟩
  have s2 : kernelStep LeafFlags oneDirectory (userPage.call (pa_to_kva 0x40012000), XOS_OK)
    onePage := ⟨⟨List.mem_cons_self, hf⟩, rfl⟩
  exact ⟨_, (Run.single s1).snoc s2⟩

theorem userPage_leaf : LeafFlags userPage.flags := ⟨by decide, Or.inl (by decide)⟩

theorem a_page_mapped_twice_leaves_no_trace : ∃ k',
    onePage.exec (userPage.call (pa_to_kva 0x40012000)) = some (-1, k') ∧ k' = onePage := by
  obtain ⟨ls, hr⟩ := onePage_run
  have he : onePage.exec (userPage.call (pa_to_kva 0x40012000)) =
      some (-1, onePage.next (userPage.call (pa_to_kva 0x40012000))) := rfl
  exact ⟨_, he, a_refused_mapping_leaves_no_trace 0x40010000 0x40013000 rfl rfl (by decide) _ _ _
    hr 0x40012000 (by decide) userPage userPage_leaf _ _ he (by decide)⟩

/-- The second mapping of a page returns -1, and xos/status.h owes it
`XOS_ERR_CONFLICT`. -/
theorem a_page_mapped_twice_is_no_conflict :
    (∃ ls, Run (kernelStep LeafFlags) (Kernel.boot (fun _ => 0xAA) 0x40010000 0x40013000) ls
      onePage) ∧
    (0x40012000, .pgdir) ∈ onePage.own ∧ ppage_alloc_z onePage.s ≠ none ∧
    ∃ k', onePage.exec (userPage.call (pa_to_kva 0x40012000)) = some (-1, k') ∧
      userPage.Aligned ∧ userPage.Meets onePage.s.mem 0x40012000 ∧
      ¬ Truthful onePage.s.mem 0x40012000 userPage (-1) := by
  have ha : userPage.Aligned := by unfold MapCall.Aligned; decide
  have hm : userPage.Meets onePage.s.mem 0x40012000 := ⟨0x10000000, by decide, by decide⟩
  refine ⟨onePage_run, by decide, by decide,
    onePage.next (userPage.call (pa_to_kva 0x40012000)), rfl, ha, hm, ?_⟩
  intro h
  have hst := (h.conflict ha).mpr hm
  simp at hst

theorem the_status_is_true_for_the_next_page : ∃ st k',
    onePage.exec (nextPage.call (pa_to_kva 0x40012000)) = some (st, k') ∧
      Truthful onePage.s.mem 0x40012000 nextPage st := by
  obtain ⟨ls, hr⟩ := onePage_run
  obtain ⟨st, k', he, ht⟩ := the_status_is_true_iff 0x40010000 0x40013000 rfl rfl (by decide) _ _
    _ hr 0x40012000 (by decide) nextPage userPage_leaf (by decide)
  refine ⟨st, k', he, ht.mpr ?_⟩
  rintro ⟨-, -, -, -, h⟩
  revert h
  decide

end os_workshop.vmm
