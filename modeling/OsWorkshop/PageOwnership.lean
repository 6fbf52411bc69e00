-- The law of page ownership: over every run of the allocator and the mapping
-- calls, on any number of directories, each page has one owner, and a page
-- table belongs to the one entry that it was handed out for.
import OsWorkshop.MapSpec
import OsWorkshop.Runs

open os_workshop.memory os_workshop.sv32 os_workshop.runs

namespace os_workshop.vmm

/-! ## The runs -/

/-- A call of the kernel. `kpage_alloc_z` says whether the caller takes the
page for a directory. `write` is any write of a caller to memory. -/
inductive Call
  | ppage_alloc_z
  | kpage_alloc_z (pgdir : Bool)
  | vm_map_4k (pdir : Word) (va : vaddr_t) (pa : paddr_t) (flags : Word)
  | vm_map_4m (pdir : Word) (va : vaddr_t) (pa : paddr_t) (flags : Word)
  | write (a : paddr_t) (bs : List Byte)

structure Kernel where
  s : Vmm
  own : Own

/-- The owner of a page that the call takes from the pool. -/
def Call.owner : Call → Owner
  | .ppage_alloc_z => .page
  | .kpage_alloc_z pgdir => if pgdir then .pgdir else .kpage
  | .vm_map_4k pdir va _ _ => .table (kva_to_pa pdir) (vpn1 va)
  | .vm_map_4m _ _ _ _ => .page
  | .write _ _ => .page

/-- The kernel after a call: each page that the allocator returned in it has
the owner of the call. -/
def Kernel.after (k : Kernel) (c : Call) (s' : Vmm) : Kernel :=
  { s := s'
    own := (s'.handed.take (s'.handed.length - k.s.handed.length)).map (·, c.owner) ++ k.own }

/-- One call: its status (`XOS_OK` for a call that has none) and the kernel
after it, or `none` for a panic. -/
def Kernel.exec (k : Kernel) (c : Call) : Option (status_t × Kernel) :=
  match c with
  | .ppage_alloc_z => (ppage_alloc_z k.s).map fun r => (XOS_OK, k.after c r.2)
  | .kpage_alloc_z _ => (kpage_alloc_z k.s).map fun r => (XOS_OK, k.after c r.2)
  | .vm_map_4k pdir va pa flags =>
    (vm_map_4k k.s pdir va pa flags).map fun r => (r.1, k.after c r.2)
  | .vm_map_4m pdir va pa flags =>
    let r := vm_map_4m k.s pdir va pa flags
    some (r.1, k.after c r.2)
  | .write a bs => some (XOS_OK, k.after c { k.s with mem := write k.s.mem a bs })

/-- What the callers promise: a mapping call gets a directory and the flags of
a leaf, and no caller writes to a page that the hardware walks. -/
def Kernel.Allowed (P : Word → Prop) (k : Kernel) : Call → Prop
  | .vm_map_4k pdir _ _ flags => (kva_to_pa pdir, .pgdir) ∈ k.own ∧ P (flagsOf flags)
  | .vm_map_4m pdir _ _ flags => (kva_to_pa pdir, .pgdir) ∈ k.own ∧ P (flagsOf flags)
  | .write a bs => ∀ x, dist a x < bs.length →
      ∀ p o, (p, o) ∈ k.own → o.walked = true → ¬ InPage p x
  | _ => True

/-- The kernel after a call that does not panic. -/
def Kernel.next (k : Kernel) (c : Call) : Kernel :=
  match k.exec c with
  | some r => r.2
  | none => k

/-- The steps of the kernel, each with its call and its status. -/
def kernelStep (P : Word → Prop) : Steps Kernel (Call × status_t) :=
  fun k l k' => k.Allowed P l.1 ∧ k.exec l.1 = some (l.2, k')

/-- The kernel right after `vmm_init`. -/
def Kernel.boot (m : Mem) (start stop : paddr_t) : Kernel := ⟨vmm_init m start stop, []⟩

/-- The call takes a page from the pool. -/
def Kernel.Requests (k : Kernel) : Call → Prop
  | .ppage_alloc_z => True
  | .kpage_alloc_z _ => True
  | .vm_map_4k pdir va pa _ =>
    let idx1 := va >>> 22
    va.toNat % 4096 = 0 ∧ pa.toNat % 4096 = 0 ∧ has (load k.s.mem (pdir + 4 * idx1)) PTE_V = false
  | _ => False

/-! ## What one call does -/

section

variable {P : Word → Prop} {start stop : paddr_t} {k k' : Kernel} {c : Call} {st : status_t}

theorem after_same {s' : Vmm} (h : s'.handed = k.s.handed) : k.after c s' = ⟨s', k.own⟩ := by
  simp [Kernel.after, h]

theorem after_cons {s' : Vmm} {t : paddr_t} (h : s'.handed = t :: k.s.handed) :
    k.after c s' = ⟨s', (t, c.owner) :: k.own⟩ := by
  simp [Kernel.after, h]

theorem ppage_alloc_z_handed {s s' : Vmm} {t : paddr_t} (h : ppage_alloc_z s = some (t, s')) :
    s'.handed = t :: s.handed := by
  unfold ppage_alloc_z at h
  split at h
  · cases h
  · cases h; rfl

/-- The call left the pages of the pool alone, or took the one page that it
requested. -/
def Grew (k k' : Kernel) (c : Call) : Prop :=
  k'.own = k.own ∨ k.Requests c ∧
    ∃ t s1, ppage_alloc_z k.s = some (t, s1) ∧ k'.own = (t, c.owner) :: k.own

/-- The entry that a mapping call looks at first. -/
theorem load_idx1 (m : Mem) (pdir va : Word) :
    load m (pdir + 4 * BitVec.ofNat 32 (vpn1 va)) = pte m (kva_to_pa pdir) (vpn1 va) := by
  rw [← load_entry, pa_to_kva_to_pa]

/-- The two calls that return a page to their caller. -/
theorem exec_takes (hc : c = .ppage_alloc_z ∨ ∃ pgdir, c = .kpage_alloc_z pgdir)
    (he : k.exec c = some (st, k')) :
    ∃ t s1, ppage_alloc_z k.s = some (t, s1) ∧ k' = k.after c s1 := by
  obtain rfl | ⟨pgdir, rfl⟩ := hc
  · simp only [Kernel.exec, Option.map_eq_some_iff, Prod.mk.injEq] at he
    obtain ⟨⟨t, s1⟩, hp, -, rfl⟩ := he
    exact ⟨t, s1, hp, rfl⟩
  · simp only [Kernel.exec, kpage_alloc_z, Option.map_eq_some_iff, Prod.mk.injEq,
      Option.bind_eq_bind, Option.bind_eq_some_iff, Option.some.injEq] at he
    obtain ⟨r, ⟨⟨t, s1⟩, hp, rfl⟩, -, rfl⟩ := he
    exact ⟨t, s1, hp, rfl⟩

theorem exec_4k {pdir va pa flags : Word} (hP : ∀ f, P f → LeafFlags f)
    (hg : Good P start stop k.s k.own) (ha : k.Allowed P (.vm_map_4k pdir va pa flags))
    (he : k.exec (.vm_map_4k pdir va pa flags) = some (st, k')) :
    ∃ s' own', k' = k.after (.vm_map_4k pdir va pa flags) s' ∧
      Map4k P start stop k.s k.own (kva_to_pa pdir) va pa flags (some (st, s')) own' := by
  obtain ⟨own', hm⟩ := vm_map_4k.spec hg hP ha.1 ha.2 va pa
  rw [pa_to_kva_to_pa] at hm
  simp only [Kernel.exec, Option.map_eq_some_iff, Prod.mk.injEq] at he
  obtain ⟨⟨st', s'⟩, hr, rfl, rfl⟩ := he
  rw [hr] at hm
  exact ⟨s', own', rfl, hm⟩

theorem exec_4m {pdir va pa flags : Word} (hP : ∀ f, P f → LeafFlags f)
    (hg : Good P start stop k.s k.own) (ha : k.Allowed P (.vm_map_4m pdir va pa flags))
    (he : k.exec (.vm_map_4m pdir va pa flags) = some (st, k')) :
    ∃ s', k' = k.after (.vm_map_4m pdir va pa flags) s' ∧
      Map4m P start stop k.s k.own (kva_to_pa pdir) va pa flags (st, s') := by
  have hm := vm_map_4m.spec hg hP ha.1 ha.2 va pa
  rw [pa_to_kva_to_pa] at hm
  simp only [Kernel.exec, Option.some.injEq, Prod.mk.injEq] at he
  obtain ⟨rfl, rfl⟩ := he
  exact ⟨_, rfl, hm⟩

/-- A write of a caller misses the pages that the hardware walks. -/
theorem exec_write {a : paddr_t} {bs : List Byte} (hg : Good P start stop k.s k.own)
    (ha : k.Allowed P (.write a bs)) (he : k.exec (.write a bs) = some (st, k')) :
    k' = ⟨{ k.s with mem := write k.s.mem a bs }, k.own⟩ ∧
      SameTrees k.s.mem (write k.s.mem a bs) k.own := by
  simp only [Kernel.exec, Option.some.injEq, Prod.mk.injEq] at he
  obtain ⟨rfl, rfl⟩ := he
  refine ⟨after_same rfl, ?_⟩
  intro p o hpo hw i hi
  apply pte_congr (pool_aligned hg.pool hpo) hi
  intro x hx
  by_cases hd : dist a x < bs.length
  · exact absurd hx (ha x hd p o hpo hw)
  · exact write_out _ _ _ _ (by omega)

theorem good_took (hg : Good P start stop k.s k.own)
    (hc : c = .ppage_alloc_z ∨ ∃ pgdir, c = .kpage_alloc_z pgdir) {t : paddr_t} {s1 : Vmm}
    (hp : ppage_alloc_z k.s = some (t, s1)) : Good P start stop s1 ((t, c.owner) :: k.own) := by
  obtain ⟨hf, hpool⟩ := ppage_alloc_z_some hg.pool hp
  have htrees := trees_same hg.trees (sameTrees_of_fresh hg.pool hf)
  refine ⟨hpool _, ?_⟩
  obtain rfl | ⟨pgdir, rfl⟩ := hc
  · exact trees_cons_caller htrees t rfl
  · cases pgdir
    · exact trees_cons_caller htrees t rfl
    · exact trees_cons_pgdir htrees hf.aligned hf.zero

/-- Each call keeps the pool and the trees. -/
theorem good_exec (hP : ∀ f, P f → LeafFlags f) (hg : Good P start stop k.s k.own)
    (ha : k.Allowed P c) (he : k.exec c = some (st, k')) :
    Good P start stop k'.s k'.own ∧ Grew k k' c := by
  cases c with
  | ppage_alloc_z =>
    obtain ⟨t, s1, hp, rfl⟩ := exec_takes (Or.inl rfl) he
    rw [after_cons (ppage_alloc_z_handed hp)]
    exact ⟨good_took hg (Or.inl rfl) hp, Or.inr ⟨trivial, t, s1, hp, rfl⟩⟩
  | kpage_alloc_z pgdir =>
    obtain ⟨t, s1, hp, rfl⟩ := exec_takes (Or.inr ⟨pgdir, rfl⟩) he
    rw [after_cons (ppage_alloc_z_handed hp)]
    exact ⟨good_took hg (Or.inr ⟨pgdir, rfl⟩) hp, Or.inr ⟨trivial, t, s1, hp, rfl⟩⟩
  | vm_map_4k pdir va pa flags =>
    obtain ⟨s', own', rfl, hm⟩ := exec_4k hP hg ha he
    cases hm with
    | bad | mega | page =>
      rw [after_same rfl]
      exact ⟨hg, Or.inl rfl⟩
    | old _ t ht hl _ htop hh hm =>
      rw [after_same hh]
      exact ⟨hm.good, Or.inl rfl⟩
    | new ha hv t s1 _ hp hf htop hh hm =>
      rw [after_cons hh]
      refine ⟨hm.good, Or.inr ⟨?_, t, s1, hp, rfl⟩⟩
      simp only [Kernel.Requests, idx1_eq, load_idx1]
      exact ⟨ha.1, ha.2, hv⟩
  | vm_map_4m pdir va pa flags =>
    obtain ⟨s', rfl, hm⟩ := exec_4m hP hg ha he
    cases hm with
    | bad | taken =>
      rw [after_same rfl]
      exact ⟨hg, Or.inl rfl⟩
    | done _ _ s' htop hh hm =>
      rw [after_same hh]
      exact ⟨hm.good, Or.inl rfl⟩
  | write a bs =>
    obtain ⟨rfl, hs⟩ := exec_write hg ha he
    exact ⟨⟨pool_mem hg.pool _, trees_same hg.trees hs⟩, Or.inl rfl⟩

/-- A call panics exactly when it takes a page and the pool is empty. -/
theorem exec_none (hg : Good P start stop k.s k.own) (c : Call) :
    k.exec c = none ↔ k.Requests c ∧ k.own.length = (stop.toNat - start.toNat) / 4096 := by
  rw [← ppage_alloc_z_none hg.pool]
  cases c with
  | ppage_alloc_z => simp [Kernel.exec, Kernel.Requests]
  | kpage_alloc_z pgdir =>
    simp only [Kernel.exec, kpage_alloc_z, Kernel.Requests, true_and]
    rcases ppage_alloc_z k.s with _ | ⟨t, s1⟩ <;> simp
  | vm_map_4k pdir va pa flags =>
    have hload := load_idx1 k.s.mem pdir va
    have he := vm_map_4k_entry k.s (kva_to_pa pdir) va pa flags
    rw [pa_to_kva_to_pa] at he
    simp only [Kernel.exec, Kernel.Requests, idx1_eq, hload, Option.map_eq_none_iff, he]
    split_ifs with h1 h2 h3
    · simp only [false_iff, not_and]
      rintro ⟨h4, h5, -⟩
      exact absurd h1 (by omega)
    · simp [h2]
    · simp [h2]
    · have h4 : va.toNat % 4096 = 0 ∧ pa.toNat % 4096 = 0 := by omega
      rcases ppage_alloc_z k.s with _ | ⟨t, s1⟩ <;> simp [h2, h4]
  | vm_map_4m pdir va pa flags => simp [Kernel.exec, Kernel.Requests]
  | write a bs => simp [Kernel.exec, Kernel.Requests]

/-! ## The runs keep the invariant -/

theorem good_boot (m : Mem) (h1 : PageAligned start) (h2 : PageAligned stop)
    (h : start.toNat ≤ stop.toNat) :
    Good P start stop (Kernel.boot m start stop).s (Kernel.boot m start stop).own :=
  ⟨pool_init m h1 h2 h, ⟨by simp [Kernel.boot], by simp [Kernel.boot]⟩⟩

theorem good_run (hP : ∀ f, P f → LeafFlags f) {ls : List (Call × status_t)}
    (hg : Good P start stop k.s k.own) (hr : Run (kernelStep P) k ls k') :
    Good P start stop k'.s k'.own :=
  hr.keeps (I := fun k => Good P start stop k.s k.own) hg
    fun _ _ _ hg hs => (good_exec hP hg hs.1 hs.2).1

end

/-! ## The law -/

/-- Each page that was handed out has one owner, and each link leads to the
table of its own entry. -/
structure Owned (start stop : paddr_t) (k : Kernel) : Prop where
  pages : ∀ p ∈ k.s.handed, PageAligned p ∧ start.toNat ≤ p.toNat ∧ p.toNat + 4096 ≤ stop.toNat
  once : k.s.handed.Nodup
  owners : k.own.map Prod.fst = k.s.handed
  one_owner : ∀ p o o', (p, o) ∈ k.own → (p, o') ∈ k.own → o = o'
  next : ∀ p s', ppage_alloc_z k.s = some (p, s') →
    s'.handed = p :: k.s.handed ∧ p ∉ k.s.handed ∧ ∀ x, InPage p x → s'.mem x = 0
  links : ∀ d, (d, .pgdir) ∈ k.own → ∀ i < 1024, has (pte k.s.mem d i) PTE_V = true →
    has (pte k.s.mem d i) (PTE_X ||| PTE_W ||| PTE_R) = false →
    (PTE_PA (pte k.s.mem d i), .table d i) ∈ k.own
  panics : ∀ c, k.exec c = none ↔
    k.Requests c ∧ k.s.handed.length = (stop.toNat - start.toNat) / 4096

theorem owned_of_good {P : Word → Prop} {start stop : paddr_t} {k : Kernel}
    (hP : ∀ f, P f → LeafFlags f) (hg : Good P start stop k.s k.own) : Owned start stop k := by
  have hh := hg.pool.handed
  have hstop := hg.pool.stop_aligned
  have hlow := hg.pool.low
  unfold PageAligned at hstop
  refine ⟨?_, ?_, hh.symm, fun p o o' => pool_owner_unique hg.pool, ?_, ?_, ?_⟩
  · intro p hp
    rw [hh] at hp
    obtain ⟨h1, h2, h3⟩ := hg.pool.inside p hp
    have := h1
    unfold PageAligned at this
    exact ⟨h1, by omega, by omega⟩
  · rw [hh]
    exact hg.pool.nodup
  · intro p s' hp
    obtain ⟨hf, -⟩ := ppage_alloc_z_some hg.pool hp
    refine ⟨ppage_alloc_z_handed hp, ?_, hf.zero⟩
    rw [hh]
    exact hf.new
  · intro d hd i hi hv hl
    rcases hg.trees.dirs d hd i hi with h1 | ⟨h1, -⟩ | ⟨t, ht, hlink⟩
    · rw [h1] at hv
      cases hv
    · rw [(leaf_valid hP h1).2] at hl
      cases hl
    · rw [hlink, PTE_PA_link (pool_aligned hg.pool ht)]
      exact ht
  · intro c
    rw [exec_none hg c, hh, List.length_map]

/-- For every pool and every run of calls on any number of directories, each
page that was handed out has one owner. It is aligned and inside the pool, it
was handed out once, and it was zero then. Each link of a directory leads to
the page that was handed out for that very entry. A call panics exactly when
it takes a page after the whole pool was handed out. -/
theorem each_page_has_one_owner (start stop : paddr_t) (h1 : PageAligned start)
    (h2 : PageAligned stop) (h : start.toNat ≤ stop.toNat) (m : Mem) (k : Kernel)
    (ls : List (Call × status_t))
    (hr : Run (kernelStep LeafFlags) (Kernel.boot m start stop) ls k) : Owned start stop k :=
  owned_of_good (fun _ h => h) (good_run (fun _ h => h) (good_boot m h1 h2 h) hr)

/-- A kernel with a pool of three pages that made one directory. -/
def oneDirectory : Kernel :=
  (Kernel.boot (fun _ => 0xAA) 0x40010000 0x40013000).next (.kpage_alloc_z true)

/-- The law for that kernel, after a first mapping in its directory. -/
theorem each_page_has_one_owner_after_a_mapping : ∃ k : Kernel,
    k.own = [(0x40011000, .table 0x40012000 64), (0x40012000, .pgdir)] ∧
      Owned 0x40010000 0x40013000 k := by
  have hf : LeafFlags (flagsOf 0xD7) := ⟨by decide, Or.inl (by decide)⟩
  have s1 : kernelStep LeafFlags (Kernel.boot (fun _ => 0xAA) 0x40010000 0x40013000)
    (.kpage_alloc_z true, XOS_OK) oneDirectory := ⟨trivial, rfl⟩
  have s2 : kernelStep LeafFlags oneDirectory
    (.vm_map_4k (pa_to_kva 0x40012000) 0x10000000 0x40C00000 0xD7, XOS_OK)
    (oneDirectory.next (.vm_map_4k (pa_to_kva 0x40012000) 0x10000000 0x40C00000 0xD7)) :=
    ⟨⟨List.mem_cons_self, hf⟩, rfl⟩
  exact ⟨_, by decide, each_page_has_one_owner 0x40010000 0x40013000 rfl rfl (by decide) _ _ _
    ((Run.single s1).snoc s2)⟩

end os_workshop.vmm
