-- The law of frame isolation: while no page of the framebuffer is handed out,
-- user space reaches only the framebuffer and pages that callers got for it.
-- The allocator does hand out the framebuffer in time, when the memory ends
-- above it.
import OsWorkshop.UserProgram

open os_workshop.memory os_workshop.sv32 os_workshop.runs

namespace os_workshop.vmm

/-! ## The runs -/

/-- A layout with the embedded user program: it fits its four pages, and the
pool has the pages for the boot. -/
structure UserLayout extends Layout where
  extra_start : Word
  extra_end : Word
  extra_fits : (extra_end - extra_start).toNat ≤ 0x4000
  user_room : image_end.toNat + 4096 * (9 + toSymbols.tables) + 2 * 4096 ≤ memory_top.toNat

/-- The boot up to user mode: the directory, and the kernel then. -/
def boot_user (L : UserLayout) (m : Mem) : Option (Word × Kernel) := do
  let r ← start L.toSymbols m
  let (_, k) ← start_user_program L.extra_start L.extra_end r.kpgdir r.k
  some (r.kpgdir, k)

/-- A frame that `ppage_alloc_z` returned, and that no user leaf leads into. -/
def FreshFrame (d : paddr_t) (k : Kernel) (p : paddr_t) : Prop :=
  (p, .page) ∈ k.own ∧ ¬ UserLeafIn d k.s.mem p

/-- A new user mapping uses fresh frames. -/
def UserAllowed (d : paddr_t) (k : Kernel) : Call → Prop
  | .vm_map_4k _ _ pa flags => has flags PTE_U = true →
    ∀ p, PageAligned p → pa.toNat ≤ p.toNat → p.toNat < pa.toNat + 4096 → FreshFrame d k p
  | .vm_map_4m _ _ pa flags => has flags PTE_U = true →
    ∀ p, PageAligned p → pa.toNat ≤ p.toNat → p.toNat < pa.toNat + 0x400000 → FreshFrame d k p
  | _ => True

/-- The call takes a page from the pool, and the next page of the pool is in
the framebuffer. -/
def TakesFramebuffer (k : Kernel) (c : Call) : Prop :=
  k.Requests c ∧ InFramebuffer (k.s.pa_top - PAGE_SIZE).toNat

/-- The steps of the kernel after the boot, and those of them that take no
page of the framebuffer. -/
def userStep (d : paddr_t) : Steps Kernel (Call × status_t) :=
  fun k l k' => kernelStep LeafFlags k l k' ∧ UserAllowed d k l.1

def clearStep (d : paddr_t) : Steps Kernel (Call × status_t) :=
  fun k l k' => userStep d k l k' ∧ ¬ TakesFramebuffer k l.1

/-- What keeps the owners of the frames apart. User space reaches no page but
those that callers of `ppage_alloc_z` got, and no byte at two addresses. The
walk finds no leaf that the directory does not hold. -/
structure Isolated (d : paddr_t) (k : Kernel) : Prop where
  owners : ∀ p o, (p, o) ∈ k.own → UserLeafIn d k.s.mem p → o = .page
  once : ∀ x x' q f f', leafAt k.s.mem d x = some (q, f) → leafAt k.s.mem d x' = some (q, f') →
    has f PTE_U = true → has f' PTE_U = true → x = x'
  walks : ∀ x q f, walk k.s.mem d.toNat x = some (q, f) → leafAt k.s.mem d x = some (q, f)

section

variable {start stop d : paddr_t} {k k' : Kernel} {c : Call} {st : status_t}

/-! ## One step -/

theorem next_page {s s1 : Vmm} {t : paddr_t} (h : ppage_alloc_z s = some (t, s1)) :
    t = s.pa_top - PAGE_SIZE := by
  unfold ppage_alloc_z at h
  split at h
  · cases h
  · cases h
    rfl

/-- The frame of a byte. -/
theorem frame_of_byte {q : Nat} (hq : q < 2 ^ 32) :
    PageAligned (BitVec.ofNat 32 (q / 4096 * 4096)) ∧
      (BitVec.ofNat 32 (q / 4096 * 4096)).toNat = q / 4096 * 4096 := by
  have h : (BitVec.ofNat 32 (q / 4096 * 4096)).toNat = q / 4096 * 4096 := by
    rw [BitVec.toNat_ofNat]
    omega
  unfold PageAligned
  rw [h]
  omega

theorem freshFor_of_allowed {pdir : Word} {e : MapCall} (h : UserAllowed d k (e.call pdir))
    (hpa : e.pa.toNat % e.size = 0) : FreshFor d k e := by
  intro hu x hx
  have hgo : (e.goesTo x).1 = e.pa.toNat + (x.toNat - e.va.toNat) := rfl
  have hpa_lt := e.pa.isLt
  have hframes : ∀ p, PageAligned p → e.pa.toNat ≤ p.toNat → p.toNat < e.pa.toNat + e.size →
      FreshFrame d k p := by
    unfold MapCall.call at h
    unfold MapCall.size
    cases hm : e.mega
    · simp only [hm, Bool.false_eq_true, if_false] at h ⊢
      exact h hu
    · simp only [hm, if_true] at h ⊢
      exact h hu
  have hsize : e.size = 4096 ∨ e.size = 0x400000 := by
    unfold MapCall.size
    cases e.mega
    · exact Or.inl rfl
    · exact Or.inr rfl
  have hcov : e.va.toNat ≤ x.toNat ∧ x.toNat < e.va.toNat + e.size := hx
  have hq : (e.goesTo x).1 < 2 ^ 32 := by
    rw [hgo]
    rcases hsize with h | h <;> rw [h] at hpa hcov <;> omega
  obtain ⟨hal, hto⟩ := frame_of_byte hq
  have hin : InFrame (BitVec.ofNat 32 ((e.goesTo x).1 / 4096 * 4096)) (e.goesTo x).1 := by
    unfold InFrame
    omega
  have hlo : e.pa.toNat ≤ (e.goesTo x).1 / 4096 * 4096 := by
    rcases hsize with h | h <;> rw [h] at hpa <;> omega
  obtain ⟨hpage, hno⟩ := hframes _ hal (by omega) (by rw [hto]; omega)
  refine ⟨Or.inr ⟨_, hpage, hin⟩, ?_⟩
  intro y f hy
  by_contra hf
  rw [Bool.not_eq_false] at hf
  exact hno ⟨y, _, f, hy, hf, hin⟩

/-- Each step that takes no page of the framebuffer keeps the invariant. -/
theorem running_step (h : Running start stop d k) (hs : clearStep d k (c, st) k') :
    Running start stop d k' := by
  obtain ⟨⟨⟨ha, he⟩, hallow⟩, hclear⟩ := hs
  dsimp only at ha he hallow hclear
  have hP : ∀ f, LeafFlags f → LeafFlags f := fun _ hf => hf
  obtain ⟨hg, hgrew⟩ := good_exec hP h.user.good ha he
  have hsub : ∀ e ∈ k.own, e ∈ k'.own := by
    intro e hmem
    rcases hgrew with ho | ⟨-, t, s1, -, ho⟩ <;> rw [ho]
    · exact hmem
    · exact List.mem_cons_of_mem _ hmem
  have hclear' : ∀ p o, (p, o) ∈ k'.own → ¬ InFramebuffer p.toNat := by
    intro p o hpo
    rcases hgrew with ho | ⟨hreq, t, s1, hp, ho⟩
    · rw [ho] at hpo
      exact h.clear p o hpo
    · rw [ho, List.mem_cons] at hpo
      rcases hpo with hpo | hpo
      · cases hpo
        intro hfb
        rw [next_page hp] at hfb
        exact hclear ⟨hreq, hfb⟩
      · exact h.clear p o hpo
  rcases exec_leaves hP h.user.good ha he with hsame | ⟨d', e, rfl, -, -, hpa, hfree, hm⟩
  · have hleaf := hsame d h.user.dir
    exact ⟨h.user.same hg hsub hleaf, hclear', h.screen.same hleaf⟩
  · refine ⟨h.user.mapped hm (freshFor_of_allowed hallow hpa), hclear', ?_⟩
    intro x h1 h2
    rw [hm.leaves d h.user.dir x, if_neg]
    · exact h.screen x h1 h2
    · rintro ⟨rfl, hx⟩
      have hold := h.screen x h1 h2
      rw [hfree x hx] at hold
      cases hold

/-- The next page is reached by a user leaf exactly when it is in the
framebuffer. -/
theorem userLeafIn_next (h : Running start stop d k) {t : paddr_t} {s1 : Vmm}
    (hp : ppage_alloc_z k.s = some (t, s1)) : UserLeafIn d k.s.mem t ↔ InFramebuffer t.toNat := by
  obtain ⟨hf, -⟩ := ppage_alloc_z_some h.user.good.pool hp
  have hta := hf.aligned
  constructor
  · rintro ⟨x, q, f, hx, hu, hq⟩
    rcases h.user.frames x q f hx hu with hb | ⟨p, hpo, hpq⟩
    · exact inFramebuffer_of_frame hta hq hb
    · have hpa := pool_aligned h.user.good.pool hpo
      have : p = t := by
        unfold PageAligned at hpa hta
        unfold InFrame at hq hpq
        exact BitVec.eq_of_toNat_eq (by omega)
      subst this
      exact absurd (List.mem_map_of_mem hpo) hf.new
  · intro hfb
    unfold InFramebuffer at hfb
    have hx : (t - 0x20C00000).toNat = t.toNat - 0x20C00000 := by bv_omega
    refine ⟨t - 0x20C00000, t.toNat, USER_RW, ?_, by decide, le_rfl, by omega⟩
    rw [h.screen _ (by omega) (by omega), hx,
      show 0x40C00000 + (t.toNat - 0x20C00000 - 0x20000000) = t.toNat by omega]

theorem isolated_of_running (h : Running start stop d k) : Isolated d k :=
  ⟨fun _ _ hpo => h.user.owner hpo (h.clear _ _ hpo), h.user.once,
    fun _ _ _ hw => leafAt_of_walk h.user.good h.user.dir hw⟩

/-! ## The boot -/

theorem boot_user.spec (L : UserLayout) (m : Mem) :
    ∃ d k, boot_user L m = some (pa_to_kva d, k) ∧
      Running (kva_to_pa L.image_end) (kva_to_pa L.memory_top - 2 * PAGE_SIZE) d k ∧
      k.own.length ≤ 201 := by
  obtain ⟨r, d, hr, h⟩ := start.spec L.toLayout m
  have hready := ready_of_started L.toLayout L.user_room h
  obtain ⟨kst, k, hk, hrun, hlen⟩ := start_user_program.spec hready.user hready.low hready.kernel_only
    hready.far hready.few hready.room L.extra_start L.extra_end L.extra_fits
  refine ⟨d, k, ?_, hrun, hlen⟩
  refine Option.bind_eq_some_iff.mpr ⟨r, hr, ?_⟩
  rw [h.kpgdir]
  exact Option.bind_eq_some_iff.mpr ⟨(kst, k), hk, rfl⟩

end

/-! ## The law -/

/-- For every layout, the boot reaches user mode. In every run from there whose
calls take no page of the framebuffer, the frames stay isolated in each state
reached. In such a state, a call that takes a page takes one that a user leaf
leads into exactly when that page is in the framebuffer. -/
theorem frames_are_isolated_off_the_framebuffer (L : UserLayout) (m : Mem) :
    ∃ d k0, boot_user L m = some (pa_to_kva d, k0) ∧
      ∀ ls k, Run (clearStep d) k0 ls k → Isolated d k ∧
        ∀ c st k' t, userStep d k (c, st) k' → k'.s.handed = t :: k.s.handed →
          (UserLeafIn d k.s.mem t ↔ TakesFramebuffer k c) := by
  obtain ⟨d, k0, hboot, h0, -⟩ := boot_user.spec L m
  refine ⟨d, k0, hboot, ?_⟩
  intro ls k hrun
  have h := hrun.keeps (I := Running _ _ d) h0 fun _ _ _ hi hs => running_step hi hs
  refine ⟨isolated_of_running h, ?_⟩
  rintro c st k' t ⟨⟨ha, he⟩, -⟩ hhanded
  obtain ⟨hg', hgrew⟩ := good_exec (fun _ hf => hf) h.user.good ha he
  have hk := h.user.good.pool.handed
  have hk' := hg'.pool.handed
  rcases hgrew with ho | ⟨hreq, t', s1, hp, ho⟩
  · rw [ho, ← hk, hhanded] at hk'
    exact absurd hk'.symm (by simp)
  · rw [ho, List.map_cons, ← hk, hhanded, List.cons.injEq] at hk'
    obtain ⟨rfl, -⟩ := hk'
    rw [userLeafIn_next h hp]
    unfold TakesFramebuffer
    rw [← next_page hp]
    exact ⟨fun hfb => ⟨hreq, hfb⟩, fun hfb => hfb.2⟩

/-! ## The framebuffer is handed out -/

/-- A page that the allocator hands out, above the framebuffer. -/
theorem alloc_above {start stop d : paddr_t} {k : Kernel} (h : Running start stop d k)
    (hstart : start.toNat + 4096 ≤ k.s.pa_top.toNat) :
    ∃ t k', userStep d k (.ppage_alloc_z, XOS_OK) k' ∧ k'.s.handed = t :: k.s.handed ∧
      t.toNat + 4096 = k.s.pa_top.toNat ∧ k'.s.pa_top = t := by
  have hpool := h.user.good.pool
  have htop := hpool.top
  obtain ⟨t, s1, hp⟩ := alloc_some h.user.good (by omega)
  obtain ⟨hf, -⟩ := ppage_alloc_z_some hpool hp
  refine ⟨t, k.after .ppage_alloc_z s1, ⟨⟨trivial, ?_⟩, trivial⟩, ?_, hf.down, ?_⟩
  · simp only [Kernel.exec, hp, Option.map_some]
  · rw [after_cons (ppage_alloc_z_handed hp)]
    exact ppage_alloc_z_handed hp
  · rw [after_cons (ppage_alloc_z_handed hp)]
    exact hf.top

/-- The allocator alone comes down to the end of the framebuffer. -/
theorem drain {start stop d : paddr_t} {k : Kernel} (n : Nat) (h : Running start stop d k)
    (hstart : start.toNat ≤ 0x40C96000) (htop : k.s.pa_top.toNat = 0x40C96000 + 4096 * n) :
    ∃ ls k', Run (userStep d) k ls k' ∧ Running start stop d k' ∧
      k'.s.pa_top.toNat = 0x40C96000 := by
  induction n generalizing k with
  | zero => exact ⟨[], k, .nil, h, htop⟩
  | succ n ih =>
    obtain ⟨t, k1, hs, -, hdown, htop1⟩ := alloc_above h (by omega)
    have hsub : (k.s.pa_top - PAGE_SIZE).toNat = k.s.pa_top.toNat - 4096 := by bv_omega
    have hclear : ¬ TakesFramebuffer k .ppage_alloc_z := by
      rintro ⟨-, -, hfb⟩
      omega
    obtain ⟨ls, k', hrun, h', htop'⟩ := ih (running_step h ⟨hs, hclear⟩) (by rw [htop1]; omega)
    exact ⟨_, k', (Run.single hs).append hrun, h', htop'⟩

/-- The kernel of the board, with a user program of 256 bytes. -/
def boardProgram : UserLayout :=
  { board with
    extra_start := 0xC0004000
    extra_end := 0xC0004100
    extra_fits := by decide
    user_room := by decide }

/-- On the board, the allocator hands out the last page of the framebuffer
while user mode can write it. -/
theorem the_framebuffer_is_handed_out :
    ∃ d k0 ls k k', boot_user boardProgram (fun _ => 0) = some (pa_to_kva d, k0) ∧
      Run (userStep d) k0 ls k ∧ userStep d k (.ppage_alloc_z, XOS_OK) k' ∧
      k'.s.handed = 0x40C95000 :: k.s.handed ∧
      walk k.s.mem d.toNat 0x20095000 = some (0x40C95000, USER_RW) := by
  obtain ⟨d, k0, hboot, h0, hlen⟩ := boot_user.spec boardProgram (fun _ => 0)
  have hstart : (kva_to_pa boardProgram.image_end).toNat = 0x40008000 := by decide
  have hstop : (kva_to_pa boardProgram.memory_top - 2 * PAGE_SIZE).toNat = 0x41FFE000 := by decide
  have htop := h0.user.good.pool.top
  rw [hstop] at htop
  obtain ⟨ls, k, hrun, h, htopk⟩ :=
    drain ((k0.s.pa_top.toNat - 0x40C96000) / 4096) h0 (by omega) (by omega)
  obtain ⟨t, k', hs, hhanded, hdown, -⟩ := alloc_above h (by omega)
  have ht : t = 0x40C95000 := by
    apply BitVec.eq_of_toNat_eq
    rw [show (0x40C95000 : Word).toNat = 0x40C95000 by decide]
    omega
  have hx : (0x20095000 : Word).toNat = 0x20095000 := by decide
  have hleaf := h.screen 0x20095000 (by omega) (by omega)
  rw [hx] at hleaf
  rw [ht] at hhanded
  exact ⟨d, k0, ls, k, k', hboot, hrun, hs, hhanded,
    walk_of_leafAt h.user.good h.user.dir hleaf (by decide)⟩

end os_workshop.vmm
