-- The start of the user program: `start_user_program` of xos/src/kernel.c
-- gives user space its frames, maps the framebuffer, copies the program, and
-- makes the kernel stack. Which frames user space can reach after it.
import OsWorkshop.KernelMap

open os_workshop.memory os_workshop.sv32

namespace os_workshop.vmm

/-! ## The code -/

abbrev USER_RW : Word := PTE_D ||| PTE_A ||| PTE_U ||| PTE_R ||| PTE_W ||| PTE_V
abbrev USER_RWX : Word := PTE_D ||| PTE_A ||| PTE_U ||| PTE_R ||| PTE_W ||| PTE_X ||| PTE_V

abbrev FRAMEBUFFER_BASE : paddr_t := 0x40C00000
abbrev FRAMEBUFFER_SIZE : Word := 640 * 480 * 2

/-- The sizes of `eframe_t` and `thread_t`, and the fields of `eframe_t`. -/
abbrev EFRAME_SIZE : Word := 128
abbrev THREAD_SIZE : Word := 32
abbrev EFRAME_PC : Word := 0x40
abbrev EFRAME_SP : Word := 0x44

def Kernel.withMem (k : Kernel) (m : Mem) : Kernel := ⟨{ k.s with mem := m }, k.own⟩

@[simp] theorem Kernel.withMem_own (k : Kernel) (m : Mem) : (k.withMem m).own = k.own := rfl
@[simp] theorem Kernel.withMem_mem (k : Kernel) (m : Mem) : (k.withMem m).s.mem = m := rfl

/-- `vm_map_4k(pgdir, va, ppage_alloc_z(), flags)`, the status ignored. -/
def map_new_page (pgdir : Word) (va : vaddr_t) (flags : Word) (k : Kernel) : Option Kernel := do
  let (pa, k) ← k.ppage_alloc_z
  let (_, k) ← k.exec (.vm_map_4k pgdir va pa flags)
  some k

def map_framebuffer (pgdir : Word) (k : Kernel) : Option Kernel := do
  let pa : paddr_t := FRAMEBUFFER_BASE
  let va : vaddr_t := 0x20000000
  let (_, _, k) ←
    map_while (fun n => .vm_map_4k pgdir (va + n) (pa + n) USER_RW) PAGE_SIZE FRAMEBUFFER_SIZE
      TURNS 0 k
  some k

/-- A copy to user addresses, through the walk. `none` is a page fault. The
kernel has set `SSTATUS_SUM`, so only the write permission counts. -/
def copy_to_user (root : Nat) : vaddr_t → List Byte → Mem → Option Mem
  | _, [], m => some m
  | va, b :: bs, m => do
    let (pa, flags) ← walk m root va
    if allows flags .write then
      copy_to_user root (va + 1) bs (write m (BitVec.ofNat 32 pa) [b])
    else none

/-- `start_user_program` up to `user_mode_entry`: the frame that it enters user
mode with, and the kernel then. -/
def start_user_program (extra_start extra_end kpgdir : Word) (k : Kernel) :
    Option (Word × Kernel) := do
  let user_start : vaddr_t := 0x10000000
  let user_stack : vaddr_t := 0x10400000
  let k ← map_new_page kpgdir (user_start + 0 * PAGE_SIZE) USER_RWX k
  let k ← map_new_page kpgdir (user_start + 1 * PAGE_SIZE) USER_RWX k
  let k ← map_new_page kpgdir (user_start + 2 * PAGE_SIZE) USER_RWX k
  let k ← map_new_page kpgdir (user_start + 3 * PAGE_SIZE) USER_RWX k
  let k ← map_new_page kpgdir (user_stack - 1 * PAGE_SIZE) USER_RW k
  let k ← map_framebuffer kpgdir k
  let image := read k.s.mem (kva_to_pa extra_start) (extra_end - extra_start).toNat
  let m ← copy_to_user (kva_to_pa kpgdir).toNat user_start image k.s.mem
  let (page, k) ← (k.withMem m).kpage_alloc_z false
  let kst := page + PAGE_SIZE - (EFRAME_SIZE + THREAD_SIZE)
  let m := store k.s.mem (kst + EFRAME_PC) user_start
  let m := store m (kst + EFRAME_SP) user_stack
  some (kst, k.withMem m)

/-! ## The two halves of the start

The code ignores the status of each mapping call. The first half keeps them. -/

/-- `map_new_page` with the status of its mapping call. -/
def map_new_page_status (pgdir : Word) (va : vaddr_t) (flags : Word) (k : Kernel) :
    Option (status_t × Kernel) := do
  let (pa, k) ← k.ppage_alloc_z
  k.exec (.vm_map_4k pgdir va pa flags)

/-- The mapping calls of `start_user_program`, with their statuses. -/
def map_user_space (kpgdir : Word) (k : Kernel) : Option (List status_t × Kernel) := do
  let user_start : vaddr_t := 0x10000000
  let user_stack : vaddr_t := 0x10400000
  let (st1, k) ← map_new_page_status kpgdir (user_start + 0 * PAGE_SIZE) USER_RWX k
  let (st2, k) ← map_new_page_status kpgdir (user_start + 1 * PAGE_SIZE) USER_RWX k
  let (st3, k) ← map_new_page_status kpgdir (user_start + 2 * PAGE_SIZE) USER_RWX k
  let (st4, k) ← map_new_page_status kpgdir (user_start + 3 * PAGE_SIZE) USER_RWX k
  let (st5, k) ← map_new_page_status kpgdir (user_stack - 1 * PAGE_SIZE) USER_RW k
  let (_, sts, k) ←
    map_while (fun n => .vm_map_4k kpgdir (0x20000000 + n) (FRAMEBUFFER_BASE + n) USER_RW) PAGE_SIZE
      FRAMEBUFFER_SIZE TURNS 0 k
  some ([st1, st2, st3, st4, st5] ++ sts, k)

/-- The rest of `start_user_program`, from the copy on. -/
def load_user_program (extra_start extra_end kpgdir : Word) (k : Kernel) :
    Option (Word × Kernel) := do
  let user_start : vaddr_t := 0x10000000
  let user_stack : vaddr_t := 0x10400000
  let image := read k.s.mem (kva_to_pa extra_start) (extra_end - extra_start).toNat
  let m ← copy_to_user (kva_to_pa kpgdir).toNat user_start image k.s.mem
  let (page, k) ← (k.withMem m).kpage_alloc_z false
  let kst := page + PAGE_SIZE - (EFRAME_SIZE + THREAD_SIZE)
  let m := store k.s.mem (kst + EFRAME_PC) user_start
  let m := store m (kst + EFRAME_SP) user_stack
  some (kst, k.withMem m)

theorem map_new_page_eq (pgdir : Word) (va : vaddr_t) (flags : Word) (k : Kernel) :
    map_new_page pgdir va flags k = (map_new_page_status pgdir va flags k).map Prod.snd := by
  unfold map_new_page map_new_page_status
  rcases k.ppage_alloc_z with _ | ⟨pa, k1⟩
  · rfl
  · simp only [Option.bind_eq_bind, Option.bind_some]
    cases k1.exec (.vm_map_4k pgdir va pa flags) <;> rfl

theorem start_user_program_eq (extra_start extra_end kpgdir : Word) (k : Kernel) :
    start_user_program extra_start extra_end kpgdir k = (map_user_space kpgdir k).bind
      fun r => load_user_program extra_start extra_end kpgdir r.2 := by
  unfold start_user_program map_user_space map_framebuffer load_user_program
  simp only [map_new_page_eq, Option.bind_eq_bind, Option.bind_assoc, Option.bind_map,
    Function.comp_def, Option.bind_some]

/-! ## The walk of any leaf -/

/-- The hardware walk finds the leaf that the directory holds, unless it is
writable and not readable. -/
theorem walk_leaf {start stop : paddr_t} {s : Vmm} {own : Own} {d : paddr_t}
    (hg : Good LeafFlags start stop s own) (hd : (d, .pgdir) ∈ own) (x : Word) :
    walk s.mem d.toNat x =
      (leafAt s.mem d x).filter fun t => has t.2 PTE_R || !has t.2 PTE_W := by
  have hP : ∀ f, LeafFlags f → LeafFlags f := fun _ h => h
  have hda := pool_aligned hg.pool hd
  -- a leaf is faulty exactly when the filter drops it
  have hleaf : ∀ e, Leaf LeafFlags e → isLeaf e = (has (flagsOf e) PTE_R || has (flagsOf e) PTE_X) ∧
      faulty e = !(has (flagsOf e) PTE_R || !has (flagsOf e) PTE_W) ∧
      (has (flagsOf e) PTE_R = true ∨ has (flagsOf e) PTE_X = true) := by
    intro e he
    have h1 : has (flagsOf e) PTE_R = has e PTE_R := has_flagsOf e 1 (by omega)
    have h2 : has (flagsOf e) PTE_W = has e PTE_W := has_flagsOf e 2 (by omega)
    have h3 : has (flagsOf e) PTE_X = has e PTE_X := has_flagsOf e 3 (by omega)
    refine ⟨by rw [h1, h3]; rfl, ?_, he.1.2⟩
    unfold faulty
    rw [(leaf_valid hP he).1, h1, h2]
    simp
  rcases hg.trees.dirs d hd _ (vpn1_lt x) with h1 | ⟨h1, h2⟩ | ⟨t, h1, h2⟩
  · rw [leafAt_invalid h1, walk_of_faulty hda (faulty_of_invalid h1)]
    rfl
  · obtain ⟨hl, hf, hrx⟩ := hleaf _ h1
    rw [leafAt_mega hP h1]
    by_cases hok : (has (flagsOf (pte s.mem d (vpn1 x))) PTE_R ||
        !has (flagsOf (pte s.mem d (vpn1 x))) PTE_W) = true
    · rw [hok] at hf
      rw [walk_of_mega hda hf (by rw [hl]; simpa using hrx) h2, Option.filter_some, if_pos hok]
    · rw [Bool.not_eq_true] at hok
      rw [hok] at hf
      rw [walk_of_faulty hda hf, Option.filter_some, hok]
      rfl
  · have hta := pool_aligned hg.pool h1
    rw [walk_of_link hda hta h2, leafAt_link hta h2]
    rcases (hg.trees.tables t d _ h1).entries _ (vpn0_lt x) with h3 | h3
    · simp [h3, faulty_of_invalid h3]
    · obtain ⟨hl, hf, hrx⟩ := hleaf _ h3
      have hl' : isLeaf (pte s.mem t (vpn0 x)) = true := by
        rw [hl]
        simpa using hrx
      rw [(leaf_valid hP h3).1, hl', hf, if_pos rfl, Option.filter_some]
      cases (has (flagsOf (pte s.mem t (vpn0 x))) PTE_R ||
        !has (flagsOf (pte s.mem t (vpn0 x))) PTE_W) <;> rfl

theorem leafAt_of_walk {start stop : paddr_t} {s : Vmm} {own : Own} {d : paddr_t}
    (hg : Good LeafFlags start stop s own) (hd : (d, .pgdir) ∈ own) {x : Word} {r : Nat × Word}
    (h : walk s.mem d.toNat x = some r) : leafAt s.mem d x = some r := by
  rw [walk_leaf hg hd, Option.filter_eq_some_iff] at h
  exact h.1

theorem walk_of_leafAt {start stop : paddr_t} {s : Vmm} {own : Own} {d : paddr_t}
    (hg : Good LeafFlags start stop s own) (hd : (d, .pgdir) ∈ own) {x : Word} {q : Nat} {f : Word}
    (h : leafAt s.mem d x = some (q, f)) (hf : has f PTE_R = true) :
    walk s.mem d.toNat x = some (q, f) := by
  rw [walk_leaf hg hd, Option.filter_eq_some_iff]
  exact ⟨h, by simp [hf]⟩

/-! ## The frames of user space -/

/-- The leaves of `P` are leaves of `Q`. -/
theorem good_mono {P Q : Word → Prop} (h : ∀ f, P f → Q f) {start stop : paddr_t} {s : Vmm}
    {own : Own} (hg : Good P start stop s own) : Good Q start stop s own := by
  have hleaf : ∀ e, Leaf P e → Leaf Q e := fun e he => ⟨h _ he.1, he.2⟩
  refine ⟨hg.pool, ?_, ?_⟩
  · intro d hd i hi
    rcases hg.trees.dirs d hd i hi with h1 | ⟨h1, h2⟩ | h1
    · exact Or.inl h1
    · exact Or.inr (Or.inl ⟨hleaf _ h1, h2⟩)
    · exact Or.inr (Or.inr h1)
  · intro t d i ht
    obtain ⟨h1, h2, h3, h4, h5⟩ := hg.trees.tables t d i ht
    refine ⟨h1, h2, h3, ?_, h5⟩
    intro j hj
    rcases h4 j hj with h | h
    · exact Or.inl h
    · exact Or.inr (hleaf _ h)

/-- The byte `q` is in the frame `p`. -/
def InFrame (p : paddr_t) (q : Nat) : Prop := p.toNat ≤ q ∧ q < p.toNat + 4096

def InFramebuffer (q : Nat) : Prop := 0x40C00000 ≤ q ∧ q < 0x40C00000 + 0x96000

theorem inFramebuffer_of_frame {p : paddr_t} {q : Nat} (hp : PageAligned p) (hq : InFrame p q)
    (h : InFramebuffer q) : InFramebuffer p.toNat := by
  unfold PageAligned at hp
  unfold InFrame InFramebuffer at *
  omega

section

variable {start stop : paddr_t} {k k' : Kernel} {d : paddr_t}

/-- What stands under the directory `d` for user space: each user leaf leads
into the framebuffer, or into a page that a caller of `ppage_alloc_z` got, and
no two leaves lead to the same byte. -/
structure UserLeaves (start stop d : paddr_t) (k : Kernel) : Prop where
  good : Good LeafFlags start stop k.s k.own
  dir : (d, .pgdir) ∈ k.own
  frames : ∀ x q f, leafAt k.s.mem d x = some (q, f) → has f PTE_U = true →
    InFramebuffer q ∨ ∃ p, (p, .page) ∈ k.own ∧ InFrame p q
  once : ∀ x x' q f f', leafAt k.s.mem d x = some (q, f) → leafAt k.s.mem d x' = some (q, f') →
    has f PTE_U = true → has f' PTE_U = true → x = x'

/-- A user leaf leads into the frame `p`. -/
def UserLeafIn (d : paddr_t) (m : Mem) (p : paddr_t) : Prop :=
  ∃ x q f, leafAt m d x = some (q, f) ∧ has f PTE_U = true ∧ InFrame p q

/-- The owner of a frame that user space reaches, when the framebuffer is not
among the pages handed out. -/
theorem UserLeaves.owner (h : UserLeaves start stop d k) {p : paddr_t} {o : Owner}
    (hp : (p, o) ∈ k.own) (hfb : ¬ InFramebuffer p.toNat) (hu : UserLeafIn d k.s.mem p) :
    o = .page := by
  obtain ⟨x, q, f, hx, hf, hq⟩ := hu
  have hpa := pool_aligned h.good.pool hp
  rcases h.frames x q f hx hf with hb | ⟨p', hp', hq'⟩
  · exact absurd (inFramebuffer_of_frame hpa hq hb) hfb
  · have hpa' := pool_aligned h.good.pool hp'
    have : p = p' := by
      unfold PageAligned at hpa hpa'
      unfold InFrame at hq hq'
      exact BitVec.eq_of_toNat_eq (by omega)
    subst this
    exact pool_owner_unique h.good.pool hp hp'

/-- A step that changes no leaf keeps the user leaves. -/
theorem UserLeaves.same (h : UserLeaves start stop d k)
    (hg : Good LeafFlags start stop k'.s k'.own) (hown : ∀ e ∈ k.own, e ∈ k'.own)
    (hl : ∀ x, leafAt k'.s.mem d x = leafAt k.s.mem d x) : UserLeaves start stop d k' := by
  refine ⟨hg, hown _ h.dir, ?_, ?_⟩
  · intro x q f hx hf
    rw [hl] at hx
    rcases h.frames x q f hx hf with hb | ⟨p, hp, hq⟩
    · exact Or.inl hb
    · exact Or.inr ⟨p, hown _ hp, hq⟩
  · intro x x' q f f' hx hx'
    rw [hl] at hx hx'
    exact h.once x x' q f f' hx hx'

theorem UserLeaves.took (h : UserLeaves start stop d k) {o : Owner} {t : paddr_t}
    (ht : Took LeafFlags start stop k o t k') : UserLeaves start stop d k' := by
  apply h.same ht.good ?_ (ht.leaves d h.dir)
  intro e he
  rw [ht.own]
  exact List.mem_cons_of_mem _ he

/-- What a mapping call may do for user space: it maps bytes of the
framebuffer or of pages that a caller got, none of which user space reaches
yet. -/
def FreshFor (d : paddr_t) (k : Kernel) (e : MapCall) : Prop :=
  has e.flags PTE_U = true → ∀ x, e.Has x →
    (InFramebuffer (e.goesTo x).1 ∨ ∃ p, (p, .page) ∈ k.own ∧ InFrame p (e.goesTo x).1) ∧
    ∀ y f, leafAt k.s.mem d y = some ((e.goesTo x).1, f) → has f PTE_U = false

theorem has_U_flagsOf (f : Word) : has (flagsOf f) PTE_U = has f PTE_U :=
  has_flagsOf f 4 (by omega)

theorem UserLeaves.mapped (h : UserLeaves start stop d k) {d' : paddr_t} {e : MapCall}
    (hm : MappedBy LeafFlags start stop k d' e k') (he : FreshFor d k e) :
    UserLeaves start stop d k' := by
  have hown : ∀ q ∈ k.own, q ∈ k'.own := fun q hq => hm.mem_own hq
  have hleaf := hm.leaves d h.dir
  by_cases hd : d = d'
  case neg =>
    apply h.same hm.good hown
    intro x
    rw [hleaf x, if_neg (by tauto)]
  case pos =>
    simp only [hd, true_and] at hleaf
    -- a new leaf has the flags of the call, and an old leaf is unchanged
    have hgo : ∀ x, e.goesTo x = ((e.goesTo x).1, flagsOf e.flags) := fun _ => rfl
    refine ⟨hm.good, hown _ h.dir, ?_, ?_⟩
    · intro x q f hx hf
      rw [hd, hleaf x] at hx
      split_ifs at hx with hex
      · rw [hgo, Option.some.injEq, Prod.mk.injEq] at hx
        obtain ⟨rfl, rfl⟩ := hx
        rw [has_U_flagsOf] at hf
        rcases (he hf x hex).1 with hb | ⟨p, hp, hq⟩
        · exact Or.inl hb
        · exact Or.inr ⟨p, hown _ hp, hq⟩
      · rw [← hd] at hx
        rcases h.frames x q f hx hf with hb | ⟨p, hp, hq⟩
        · exact Or.inl hb
        · exact Or.inr ⟨p, hown _ hp, hq⟩
    · intro x x' q f f' hx hx' hf hf'
      rw [hd, hleaf] at hx hx'
      split_ifs at hx hx' with hex hex'
      · rw [hgo, Option.some.injEq, Prod.mk.injEq] at hx hx'
        have hq := hx.1.trans hx'.1.symm
        unfold MapCall.goesTo sendsTo at hq
        dsimp only at hq
        have h1 := hex.1
        have h2 := hex'.1
        exact BitVec.eq_of_toNat_eq (by omega)
      · rw [hgo, Option.some.injEq, Prod.mk.injEq] at hx
        obtain ⟨rfl, rfl⟩ := hx
        rw [has_U_flagsOf] at hf
        rw [← hd] at hx'
        rw [(he hf x hex).2 x' f' hx'] at hf'
        cases hf'
      · rw [hgo, Option.some.injEq, Prod.mk.injEq] at hx'
        obtain ⟨rfl, rfl⟩ := hx'
        rw [has_U_flagsOf] at hf'
        rw [← hd] at hx
        rw [(he hf' x' (by assumption)).2 x f hx] at hf
        cases hf
      · rw [← hd] at hx hx'
        exact h.once x x' q f f' hx hx' hf hf'

/-! ## The pages of the boot -/

/-- The pool starts far above the framebuffer, or ends below it. -/
def FarFromFramebuffer (stop : paddr_t) : Prop :=
  stop.toNat ≤ 0x40C00000 ∨ 0x40C96000 + 4096 * 201 ≤ stop.toNat

/-- The first 201 pages of such a pool are not in the framebuffer. -/
theorem clear_of_few {s : Vmm} {own : Own} (hp : Pool start stop s own)
    (hstop : FarFromFramebuffer stop) (hlen : own.length ≤ 201) {p : paddr_t} {o : Owner}
    (hpo : (p, o) ∈ own) : ¬ InFramebuffer p.toNat := by
  obtain ⟨-, h1, h2⟩ := hp.inside p (List.mem_map_of_mem hpo)
  have := hp.top
  unfold FarFromFramebuffer at hstop
  unfold InFramebuffer
  omega

/-- The state while user space is filled: nothing is mapped from `lo` up to
the kernel, and the framebuffer is mapped up to `n`. -/
structure Filling (start stop d : paddr_t) (k : Kernel) (lo n : Nat) : Prop where
  user : UserLeaves start stop d k
  free : ∀ x : Word, lo ≤ x.toNat → x.toNat < 0xC0000000 → leafAt k.s.mem d x = none
  screen : ∀ y q f, leafAt k.s.mem d y = some (q, f) → has f PTE_U = true → InFramebuffer q →
    q < 0x40C00000 + n

/-- What one more mapped page of user space leaves behind. -/
structure Filled (start stop d : paddr_t) (k : Kernel) (va : vaddr_t) (pa : paddr_t) (flags : Word)
    (n : Nat) (k' : Kernel) : Prop where
  filling : Filling start stop d k' (va.toNat + 4096) n
  page : ∀ x, Covers va 4096 x → leafAt k'.s.mem d x = some (sendsTo va pa flags x)
  rest : ∀ x, ¬ Covers va 4096 x → leafAt k'.s.mem d x = leafAt k.s.mem d x
  table : ∃ t, (t, .table d (vpn1 va)) ∈ k'.own
  count : k'.own.length ≤ k.own.length + 1
  counted : (∃ t, (t, .table d (vpn1 va)) ∈ k.own) → k'.own.length = k.own.length

/-- One page of user space, at an address that is still free. -/
theorem fill_page {lo n n' : Nat} (h : Filling start stop d k lo n) (flags : Word)
    (hf : LeafFlags (flagsOf flags)) (va : vaddr_t) (pa : paddr_t) (hva : va.toNat % 4096 = 0)
    (hpa : pa.toNat % 4096 = 0) (hlo : lo ≤ va.toNat) (hhi : va.toNat < 0xC0000000) (hn : n ≤ n')
    (hroom : k.own.length < (stop.toNat - start.toNat) / 4096 ∨
      ∃ t, (t, .table d (vpn1 va)) ∈ k.own)
    (hfresh : FreshFor d k ⟨false, va, pa, flags⟩)
    (hscreen : InFramebuffer pa.toNat → pa.toNat + 4096 ≤ 0x40C00000 + n') :
    ∃ k', k.exec (.vm_map_4k (pa_to_kva d) va pa flags) = some (XOS_OK, k') ∧
      Filled start stop d k va pa flags n' k' := by
  obtain ⟨k', hr, hm, ht⟩ := map_page (fun _ h => h) h.user.good h.user.dir hf va pa hva hpa
    (h.free va hlo hhi) hroom
  have hleaf := hm.leaves d h.user.dir
  simp only [true_and] at hleaf
  have hpage : ∀ x, Covers va 4096 x → leafAt k'.s.mem d x = some (sendsTo va pa flags x) := by
    exact fun x hx => (hleaf x).trans (if_pos hx)
  have hrest : ∀ x, ¬ Covers va 4096 x → leafAt k'.s.mem d x = leafAt k.s.mem d x := by
    exact fun x hx => (hleaf x).trans (if_neg hx)
  refine ⟨k', hr, ⟨h.user.mapped hm hfresh, ?_, ?_⟩, hpage, hrest, ht, ?_, ?_⟩
  · intro x h1 h2
    have hx : ¬ Covers va 4096 x := by
      unfold Covers
      omega
    rw [hrest x hx]
    exact h.free x (by omega) h2
  · intro y q f hy hu hq
    by_cases hx : Covers va 4096 y
    · rw [hpage y hx] at hy
      have hq' := (Prod.mk.inj (Option.some.inj hy)).1
      have hcov := hx.2
      unfold InFramebuffer at hscreen hq
      omega
    · rw [hrest y hx] at hy
      have := h.screen y q f hy hu hq
      omega
  · rcases hm.own with ho | ⟨t, ho, -⟩ <;> rw [ho]
    · omega
    · rw [List.length_cons]
  · rintro ⟨t, ht⟩
    rcases hm.own with ho | ⟨t', -, hno⟩
    · rw [ho]
    · exact absurd ht (hno t)

/-- A page of user space in a zeroed frame that the allocator returned for
it. -/
structure NewPage (start stop d : paddr_t) (k : Kernel) (va : vaddr_t) (flags : Word)
    (k' : Kernel) : Prop where
  filling : Filling start stop d k' (va.toNat + 4096) 0
  page : ∃ pa, (pa, .page) ∈ k'.own ∧ (∀ x, InPage pa x → k'.s.mem x = 0) ∧
    ∀ x, Covers va 4096 x → leafAt k'.s.mem d x = some (sendsTo va pa flags x)
  rest : ∀ x, ¬ Covers va 4096 x → leafAt k'.s.mem d x = leafAt k.s.mem d x
  keeps : Keeps start stop k k'
  table : ∃ t, (t, .table d (vpn1 va)) ∈ k'.own
  count : k'.own.length ≤ k.own.length + 2
  counted : (∃ t, (t, .table d (vpn1 va)) ∈ k.own) → k'.own.length = k.own.length + 1

theorem map_new_page_status.spec {lo : Nat} (h : Filling start stop d k lo 0)
    (hstop : FarFromFramebuffer stop) (flags : Word) (hf : LeafFlags (flagsOf flags))
    (va : vaddr_t) (hva : va.toNat % 4096 = 0) (hlo : lo ≤ va.toNat) (hhi : va.toNat < 0xC0000000)
    (hroom : k.own.length + 1 < (stop.toNat - start.toNat) / 4096 ∨
      k.own.length < (stop.toNat - start.toNat) / 4096 ∧ ∃ t, (t, .table d (vpn1 va)) ∈ k.own)
    (hlen : k.own.length < 201) :
    ∃ k', map_new_page_status (pa_to_kva d) va flags k = some (XOS_OK, k') ∧
      NewPage start stop d k va flags k' := by
  obtain ⟨t, k1, ha, htook⟩ :=
    Kernel.ppage_alloc_z.spec (fun _ h => h) h.user.good (by omega)
  have hown := htook.own
  have hlen1 : k1.own.length = k.own.length + 1 := by rw [hown, List.length_cons]
  have hsub : ∀ e ∈ k.own, e ∈ k1.own := by
    intro e he
    rw [hown]
    exact List.mem_cons_of_mem _ he
  have hleaf := htook.leaves d h.user.dir
  have htin : (t, .page) ∈ k1.own := by
    rw [hown]
    exact List.mem_cons_self
  have htfb := clear_of_few htook.good.pool hstop (by omega) htin
  have hta := htook.fresh.aligned
  have h1 : Filling start stop d k1 lo 0 := by
    refine ⟨h.user.took htook, ?_, ?_⟩
    · intro x hx1 hx2
      rw [hleaf x]
      exact h.free x hx1 hx2
    · intro y q f hy
      rw [hleaf y] at hy
      exact h.screen y q f hy
  have hfresh : FreshFor d k1 ⟨false, va, t, flags⟩ := by
    intro _ x hx
    have hq : InFrame t (sendsTo va t flags x).1 := by
      have hcov : Covers va 4096 x := hx
      unfold Covers at hcov
      unfold InFrame sendsTo
      omega
    refine ⟨Or.inr ⟨t, htin, hq⟩, ?_⟩
    -- no user leaf led into the frame before it was handed out
    intro y f hy
    by_contra hu
    rw [Bool.not_eq_false] at hu
    rw [hleaf y] at hy
    rcases h.user.frames y _ f hy hu with hb | ⟨p, hp, hpq⟩
    · exact htfb (inFramebuffer_of_frame hta hq hb)
    · have hpa := pool_aligned h.user.good.pool hp
      have : p = t := by
        unfold PageAligned at hpa hta
        unfold InFrame MapCall.goesTo at *
        dsimp only at hpq
        exact BitVec.eq_of_toNat_eq (by omega)
      subst this
      exact htook.fresh.new (List.mem_map_of_mem hp)
  have hroom1 : k1.own.length < (stop.toNat - start.toNat) / 4096 ∨
      ∃ t, (t, .table d (vpn1 va)) ∈ k1.own := by
    rcases hroom with h | ⟨-, t', h⟩
    · left
      omega
    · exact Or.inr ⟨t', hsub _ h⟩
  obtain ⟨k', hr, hfill⟩ := fill_page h1 flags hf va t hva hta hlo hhi le_rfl hroom1 hfresh
    fun hb => absurd hb htfb
  have hkeeps := keeps_exec (fun _ h => h) htook.good
    (MapCall.call_allowed (e := ⟨false, va, t, flags⟩) h1.user.dir hf) (by simp [MapCall.call]) hr
  have hcount := hfill.count
  refine ⟨k', ?_, hfill.filling, ⟨t, hkeeps.own _ htin, ?_, hfill.page⟩, ?_,
    (keeps_took h.user.good.pool htook).trans hkeeps, hfill.table, by omega, ?_⟩
  · simp only [map_new_page_status, ha, hr, Option.bind_eq_bind, Option.bind_some]
  · intro x hx
    rw [hkeeps.pages t htin x hx, htook.fresh.zero x hx]
  · intro x hx
    rw [hfill.rest x hx, hleaf x]
  · rintro ⟨t', ht'⟩
    rw [hfill.counted ⟨t', hsub _ ht'⟩, hlen1]

/-! ## The framebuffer -/

/-- The framebuffer is mapped up to `n`. -/
def Screen (d : paddr_t) (m : Mem) (n : Nat) : Prop :=
  ∀ x : Word, 0x20000000 ≤ x.toNat → x.toNat < 0x20000000 + n →
    leafAt m d x = some (0x40C00000 + (x.toNat - 0x20000000), USER_RW)

theorem screen_loop (fuel : Nat) {n : Word}
    (h : Filling start stop d k (0x20000000 + n.toNat) n.toNat) (hs : Screen d k.s.mem n.toNat)
    (hn : n.toNat % 4096 = 0) (hle : n.toNat ≤ 0x96000)
    (hclear : ∀ p o, (p, o) ∈ k.own → ¬ InFramebuffer p.toNat)
    (hstop : FarFromFramebuffer stop)
    (hroom : k.own.length < (stop.toNat - start.toNat) / 4096 ∨ ∃ t, (t, .table d 128) ∈ k.own)
    (hlen : k.own.length + 1 ≤ 201 ∨ k.own.length ≤ 201 ∧ ∃ t, (t, .table d 128) ∈ k.own)
    (hfuel : 0x96000 < n.toNat + 4096 * fuel) :
    ∃ sts k', map_while
        (fun n => .vm_map_4k (pa_to_kva d) (0x20000000 + n) (FRAMEBUFFER_BASE + n) USER_RW)
        PAGE_SIZE FRAMEBUFFER_SIZE fuel n k = some (FRAMEBUFFER_SIZE, sts, k') ∧
      Filling start stop d k' (0x20000000 + 0x96000) 0x96000 ∧ Screen d k'.s.mem 0x96000 ∧
      k'.own.length ≤ k.own.length + 1 ∧
      ((∃ t, (t, .table d 128) ∈ k.own) → k'.own.length = k.own.length) ∧
      (∀ x : Word, x.toNat < 0x20000000 ∨ 0x20096000 ≤ x.toNat →
        leafAt k'.s.mem d x = leafAt k.s.mem d x) ∧
      (∀ st ∈ sts, st = XOS_OK) ∧ Keeps start stop k k' := by
  induction fuel generalizing n k with
  | zero => omega
  | succ fuel ih =>
    have hsize : FRAMEBUFFER_SIZE.toNat = 0x96000 := by decide
    unfold map_while
    by_cases hlt : n < FRAMEBUFFER_SIZE
    · have hlt' : n.toNat < FRAMEBUFFER_SIZE.toNat := hlt
      have hva : ((0x20000000 : Word) + n).toNat = 0x20000000 + n.toNat := by bv_omega
      have hpa : (FRAMEBUFFER_BASE + n).toNat = 0x40C00000 + n.toNat := by bv_omega
      have hnext : (n + PAGE_SIZE).toNat = n.toNat + 4096 := by bv_omega
      have hidx : vpn1 ((0x20000000 : Word) + n) = 128 := by
        unfold vpn1
        omega
      have hfresh : FreshFor d k ⟨false, 0x20000000 + n, FRAMEBUFFER_BASE + n, USER_RW⟩ := by
        intro _ x hx
        have hcov : Covers (0x20000000 + n) 4096 x := hx
        have hgo : (MapCall.goesTo ⟨false, 0x20000000 + n, FRAMEBUFFER_BASE + n, USER_RW⟩ x).1 =
            (FRAMEBUFFER_BASE + n).toNat + (x.toNat - ((0x20000000 : Word) + n).toNat) := rfl
        unfold Covers at hcov
        rw [hgo]
        have hin : InFramebuffer ((FRAMEBUFFER_BASE + n).toNat +
            (x.toNat - ((0x20000000 : Word) + n).toNat)) := by
          unfold InFramebuffer
          omega
        refine ⟨Or.inl hin, ?_⟩
        intro y f hy
        by_contra hu
        rw [Bool.not_eq_false] at hu
        have := h.screen y _ f hy hu hin
        omega
      rw [← hidx] at hroom
      obtain ⟨k1, hr, hfill⟩ := fill_page h USER_RW (by unfold LeafFlags; decide) (0x20000000 + n)
        (FRAMEBUFFER_BASE + n) (by omega) (by omega) (by omega) (by omega)
        (show n.toNat ≤ n.toNat + 4096 by omega) hroom hfresh (by omega)
      have hcount := hfill.count
      have hcounted := hfill.counted
      have htable := hfill.table
      rw [hidx] at htable hcounted
      have hlen1 : k1.own.length ≤ 201 := by
        rcases hlen with h | ⟨h, ht⟩
        · omega
        · have := hcounted ht
          omega
      have hfill1 := hfill.filling
      rw [hva, show 0x20000000 + n.toNat + 4096 = 0x20000000 + (n + PAGE_SIZE).toNat by omega,
        ← hnext] at hfill1
      have hs1 : Screen d k1.s.mem (n + PAGE_SIZE).toNat := by
        intro x hx1 hx2
        by_cases hx : Covers (0x20000000 + n) 4096 x
        · rw [hfill.page x hx]
          have hcov := hx
          unfold Covers at hcov
          unfold sendsTo
          rw [hpa, hva, show flagsOf USER_RW = USER_RW by decide,
            show 0x40C00000 + n.toNat + (x.toNat - (0x20000000 + n.toNat)) =
              0x40C00000 + (x.toNat - 0x20000000) by omega]
        · rw [hfill.rest x hx]
          unfold Covers at hx
          exact hs x hx1 (by omega)
      obtain ⟨sts, k2, hr2, hfill2, hs2, -, hc2, hrest2, hok2, hkeeps2⟩ := ih hfill1 hs1 (by omega)
        (by omega)
        (fun p o hpo => clear_of_few hfill.filling.user.good.pool hstop hlen1 hpo)
        (Or.inr htable) (Or.inr ⟨hlen1, htable⟩) (by omega)
      have hc := hc2 htable
      have hrw : LeafFlags (flagsOf USER_RW) := by unfold LeafFlags; decide
      have hkeeps1 := keeps_exec (fun _ h => h) h.user.good
        (MapCall.call_allowed (e := ⟨false, 0x20000000 + n, FRAMEBUFFER_BASE + n, USER_RW⟩)
          h.user.dir hrw) (by simp [MapCall.call]) hr
      refine ⟨XOS_OK :: sts, k2, ?_, hfill2, hs2, by omega, ?_, ?_, ?_, hkeeps1.trans hkeeps2⟩
      · simp only [hlt, if_true, hr, Option.bind_eq_bind, Option.bind_some, hr2]
      · intro ht
        exact hc.trans (hcounted ht)
      · intro x hx
        rw [hrest2 x hx, hfill.rest x]
        unfold Covers
        omega
      · intro st hst
        rw [List.mem_cons] at hst
        rcases hst with rfl | hst
        · rfl
        · exact hok2 st hst
    · have hge : n = FRAMEBUFFER_SIZE := eq_of_not_lt hlt (by omega)
      subst hge
      simp only [hlt, if_false]
      rw [hsize] at h hs
      exact ⟨[], k, rfl, h, hs, by omega, fun _ => rfl, fun _ _ => rfl, by simp, Keeps.refl _ _ k⟩

/-! ## The copy of the program -/

/-- A memory that is the same on the walked pages holds the same trees. -/
theorem sameTrees_of_untouched {own : Own} {s : Vmm} (hp : Pool start stop s own) {m m' : Mem}
    (h : ∀ p o, (p, o) ∈ own → o.walked = true → ∀ x, InPage p x → m' x = m x) :
    SameTrees m m' own := by
  intro p o hpo hw i hi
  exact pte_congr (pool_aligned hp hpo) hi fun x hx => h p o hpo hw x hx

theorem UserLeaves.withMem (h : UserLeaves start stop d k) {m : Mem}
    (hs : SameTrees k.s.mem m k.own) : UserLeaves start stop d (k.withMem m) :=
  h.same ⟨pool_mem h.good.pool m, trees_same h.good.trees hs⟩ (fun _ he => he)
    (leafAt_same h.good.pool h.good.trees hs (fun _ hf => hf) h.dir)

/-- The program text is mapped up to `hi`, for every access. -/
def Text (d : paddr_t) (m : Mem) (lo hi : Nat) : Prop :=
  ∀ x : Word, lo ≤ x.toNat → x.toNat < hi → ∃ q, leafAt m d x = some (q, USER_RWX)

theorem UserLeaves.byte_lt (h : UserLeaves start stop d k) {x : Word} {q : Nat} {f : Word}
    (hx : leafAt k.s.mem d x = some (q, f)) (hf : has f PTE_U = true) : q < 2 ^ 32 := by
  rcases h.frames x q f hx hf with hb | ⟨p', hp', hq'⟩
  · unfold InFramebuffer at hb
    omega
  · have hpa := pool_aligned h.good.pool hp'
    unfold PageAligned at hpa
    unfold InFrame at hq'
    omega

/-- A byte written through a user leaf leaves the trees alone. -/
theorem sameTrees_of_user_byte (h : UserLeaves start stop d k)
    (hclear : ∀ p o, (p, o) ∈ k.own → ¬ InFramebuffer p.toNat) {x : Word} {q : Nat} {f : Word}
    (hx : leafAt k.s.mem d x = some (q, f)) (hf : has f PTE_U = true) (b : Byte) :
    SameTrees k.s.mem (write k.s.mem (BitVec.ofNat 32 q) [b]) k.own := by
  apply sameTrees_of_untouched h.good.pool
  intro p o hpo hw y hy
  apply write_out
  by_contra hd
  have hy0 : dist (BitVec.ofNat 32 q) y = 0 := by
    simp only [List.length_singleton] at hd
    omega
  have hyq : y = BitVec.ofNat 32 q := by
    unfold memory.dist at hy0
    bv_omega
  have hqb := h.byte_lt hx hf
  have hq : InFrame p q := by
    unfold InPage at hy
    rw [hyq, BitVec.toNat_ofNat, Nat.mod_eq_of_lt hqb] at hy
    exact hy
  have ho := h.owner hpo (hclear p o hpo) ⟨x, q, f, hx, hf, hq⟩
  rw [ho] at hw
  cases hw

/-- The bytes of `bs` stand where the addresses from `va` on lead, and no other
byte changed. -/
structure Copied (d : paddr_t) (m : Mem) (va : vaddr_t) (bs : List Byte) (m' : Mem) : Prop where
  bytes : ∀ i (hi : i < bs.length) q f, leafAt m d (va + BitVec.ofNat 32 i) = some (q, f) →
    m' (BitVec.ofNat 32 q) = bs[i]
  rest : ∀ y, (∀ i < bs.length, ∀ q f, leafAt m d (va + BitVec.ofNat 32 i) = some (q, f) →
    BitVec.ofNat 32 q ≠ y) → m' y = m y

/-- The first byte, and then the others. No later byte lands on the first,
since no two user addresses lead to one byte. -/
theorem copied_cons (h : UserLeaves start stop d k) {va : vaddr_t} {b : Byte} {bs : List Byte}
    {q : Nat} (htext : Text d k.s.mem va.toNat (va.toNat + (b :: bs).length))
    (hmax : va.toNat + (b :: bs).length < 2 ^ 32)
    (hx : leafAt k.s.mem d va = some (q, USER_RWX)) {m1 m' : Mem}
    (hm1 : m1 = write k.s.mem (BitVec.ofNat 32 q) [b])
    (hleaf : ∀ x, leafAt m1 d x = leafAt k.s.mem d x) (hc : Copied d m1 (va + 1) bs m') :
    Copied d k.s.mem va (b :: bs) m' := by
  rw [List.length_cons] at htext hmax
  have hq := h.byte_lt hx (by decide)
  have hsucc : ∀ i, va + BitVec.ofNat 32 (i + 1) = va + 1 + BitVec.ofNat 32 i := by
    intro i
    rw [BitVec.add_assoc, Nat.add_comm i 1, BitVec.ofNat_add]
    rfl
  have hzero : va + BitVec.ofNat 32 0 = va := by simp
  have hlater : ∀ i < bs.length, ∀ q' f, leafAt m1 d (va + 1 + BitVec.ofNat 32 i) = some (q', f) →
      BitVec.ofNat 32 q' ≠ BitVec.ofNat 32 q := by
    intro i hi q' f hl he
    rw [hleaf, ← hsucc] at hl
    have hva : (va + BitVec.ofNat 32 (i + 1)).toNat = va.toNat + (i + 1) := by
      rw [BitVec.toNat_add, BitVec.toNat_ofNat]
      omega
    obtain ⟨q'', hq''⟩ := htext (va + BitVec.ofNat 32 (i + 1)) (by omega) (by omega)
    have hqf := hl.symm.trans hq''
    rw [Option.some.injEq, Prod.mk.injEq] at hqf
    obtain ⟨rfl, rfl⟩ := hqf
    have hq' := h.byte_lt hl (by decide)
    have heq : q' = q := by
      have := congrArg BitVec.toNat he
      rwa [BitVec.toNat_ofNat, BitVec.toNat_ofNat, Nat.mod_eq_of_lt hq', Nat.mod_eq_of_lt hq] at this
    rw [heq] at hl
    have hsame := h.once _ _ _ _ _ hl hx (by decide) (by decide)
    rw [hsame] at hva
    omega
  refine ⟨?_, ?_⟩
  · intro i hi q' f hl
    rcases i with _ | i
    · rw [hzero, hx, Option.some.injEq, Prod.mk.injEq] at hl
      rw [← hl.1, hc.rest _ hlater, hm1, write_in _ _ _ _ (by simp)]
      simp
    · rw [hsucc, ← hleaf] at hl
      rw [List.length_cons] at hi
      exact hc.bytes i (by omega) q' f hl
  · intro y hy
    rw [hc.rest y ?_, hm1]
    · apply write_out
      have hne := hy 0 (by simp) q USER_RWX (by rw [hzero]; exact hx)
      by_contra hd
      apply hne
      rw [List.length_singleton] at hd
      have hd0 : (y - BitVec.ofNat 32 q).toNat = 0 := by
        unfold memory.dist at hd
        omega
      bv_omega
    · intro i hi q' f hl
      rw [hleaf, ← hsucc] at hl
      exact hy (i + 1) (by simpa using hi) q' f hl

theorem copy_to_user.spec (bs : List Byte) (va : vaddr_t) (h : UserLeaves start stop d k)
    (hclear : ∀ p o, (p, o) ∈ k.own → ¬ InFramebuffer p.toNat)
    (htext : Text d k.s.mem va.toNat (va.toNat + bs.length)) (hmax : va.toNat + bs.length < 2 ^ 32) :
    ∃ m, copy_to_user d.toNat va bs k.s.mem = some m ∧ SameTrees k.s.mem m k.own ∧
      Copied d k.s.mem va bs m := by
  induction bs generalizing va k with
  | nil => exact ⟨_, rfl, fun _ _ _ _ _ _ => rfl, by simp, fun _ _ => rfl⟩
  | cons b bs ih =>
    have htext' := htext
    have hmax' := hmax
    rw [List.length_cons] at htext hmax
    obtain ⟨q, hx⟩ := htext va le_rfl (by omega)
    have hs := sameTrees_of_user_byte h hclear hx (by decide) b
    have hnext : (va + 1).toNat = va.toNat + 1 := by bv_omega
    have hleaf := leafAt_same h.good.pool h.good.trees hs (fun _ hf => hf) h.dir
    obtain ⟨m, hm, hs', hc⟩ := @ih (k.withMem (write k.s.mem (BitVec.ofNat 32 q) [b])) (va + 1)
      (h.withMem hs) hclear (fun x h1 h2 => by
        obtain ⟨q', hq'⟩ := htext x (by omega) (by omega)
        exact ⟨q', (hleaf x).trans hq'⟩) (by omega)
    refine ⟨m, ?_, ?_, copied_cons h htext' hmax' hx rfl hleaf hc⟩
    · rw [copy_to_user, walk_of_leafAt h.good h.dir hx (by decide)]
      exact hm
    · intro p o hpo hw i hi
      rw [hs' p o hpo hw i hi]
      exact hs p o hpo hw i hi

/-! ## The whole start -/

/-- What holds from the start of the user program on: no page of the
framebuffer was handed out, and user space has the framebuffer mapped. -/
structure Running (start stop d : paddr_t) (k : Kernel) : Prop where
  user : UserLeaves start stop d k
  clear : ∀ p o, (p, o) ∈ k.own → ¬ InFramebuffer p.toNat
  screen : Screen d k.s.mem 0x96000

theorem Screen.same {n : Nat} {m m' : Mem} (h : Screen d m n)
    (hsame : ∀ x, leafAt m' d x = leafAt m d x) : Screen d m' n := by
  intro x h1 h2
  rw [hsame x]
  exact h x h1 h2

/-- The two stores to the frame of the kernel stack stay in its page. -/
theorem store_frame {t : paddr_t} (ht : PageAligned t) (m : Mem) (off v : Word)
    (hoff : off.toNat ≤ 0x44) (x : Word) (hx : ¬ InPage t x) :
    store m (pa_to_kva t + PAGE_SIZE - (EFRAME_SIZE + THREAD_SIZE) + off) v x = m x := by
  have hpa : kva_to_pa (pa_to_kva t + PAGE_SIZE - (EFRAME_SIZE + THREAD_SIZE) + off) =
      t + (3936 + off) := by
    unfold kva_to_pa pa_to_kva
    ring
  unfold PageAligned at ht
  have hoff' : (3936 + off).toNat = 3936 + off.toNat := by
    rw [BitVec.toNat_add, show (3936 : Word).toNat = 3936 from rfl]
    omega
  have hbase : (t + (3936 + off)).toNat = t.toNat + (3936 + off.toNat) := by
    rw [BitVec.toNat_add, hoff']
    omega
  unfold store st32
  rw [hpa]
  apply write_out
  rw [le32_length]
  by_contra hd
  apply hx
  unfold InPage
  rcases Nat.lt_or_ge x.toNat (t + (3936 + off)).toNat with h | h
  · rw [dist_of_lt h] at hd
    omega
  · rw [dist_of_le h] at hd
    omega

/-! ## The pages of user space -/

/-- Each address from `lo` up to `hi` leads with `flags` to a byte of a page
that a caller got, and that byte is zero. -/
def Blank (d : paddr_t) (k : Kernel) (lo hi : Nat) (flags : Word) : Prop :=
  ∀ x : Word, lo ≤ x.toNat → x.toNat < hi → ∃ p q, (p, .page) ∈ k.own ∧ InFrame p q ∧
    leafAt k.s.mem d x = some (q, flags) ∧ k.s.mem (BitVec.ofNat 32 q) = 0

theorem inPage_of_inFrame {p : paddr_t} {q : Nat} (hp : PageAligned p) (hq : InFrame p q) :
    InPage p (BitVec.ofNat 32 q) := by
  unfold PageAligned at hp
  unfold InFrame at hq
  unfold InPage
  rw [BitVec.toNat_ofNat]
  omega

theorem Blank.keeps {lo hi : Nat} {flags : Word} (h : Blank d k lo hi flags)
    (hp : Pool start stop k.s k.own) (hk : Keeps start stop k k')
    (hl : ∀ x : Word, lo ≤ x.toNat → x.toNat < hi → leafAt k'.s.mem d x = leafAt k.s.mem d x) :
    Blank d k' lo hi flags := by
  intro x h1 h2
  obtain ⟨p, q, hpo, hq, hx, hz⟩ := h x h1 h2
  refine ⟨p, q, hk.own _ hpo, hq, (hl x h1 h2).trans hx, ?_⟩
  rw [hk.pages p hpo _ (inPage_of_inFrame (pool_aligned hp hpo) hq), hz]

theorem NewPage.blank {va : vaddr_t} {flags : Word} (h : NewPage start stop d k va flags k')
    (hf : flagsOf flags = flags) {lo hi : Nat} (hlo : va.toNat = lo) (hhi : lo + 4096 = hi) :
    Blank d k' lo hi flags := by
  obtain ⟨pa, hpo, hz, hpage⟩ := h.page
  intro x h1 h2
  have hin : InFrame pa (pa.toNat + (x.toNat - va.toNat)) := by
    unfold InFrame
    omega
  have hpa := pool_aligned h.filling.user.good.pool hpo
  refine ⟨pa, _, hpo, hin, ?_, hz _ (inPage_of_inFrame hpa hin)⟩
  rw [hpage x (by unfold Covers; omega), sendsTo, hf]

/-- One more page above the blank ones. -/
theorem Blank.next {lo mid hi : Nat} {va : vaddr_t} {flags : Word} (h : Blank d k lo mid flags)
    (hp : Pool start stop k.s k.own) (hn : NewPage start stop d k va flags k')
    (hf : flagsOf flags = flags) (hmid : va.toNat = mid) (hhi : mid + 4096 = hi) :
    Blank d k' lo hi flags := by
  intro x h1 h2
  by_cases hx : x.toNat < mid
  · refine h.keeps hp hn.keeps ?_ x h1 hx
    intro y _ hy
    apply hn.rest
    unfold Covers
    omega
  · exact hn.blank hf hmid hhi x (by omega) h2

theorem Blank.text {lo hi : Nat} (h : Blank d k lo hi USER_RWX) : Text d k.s.mem lo hi := by
  intro x h1 h2
  obtain ⟨p, q, -, -, hx, -⟩ := h x h1 h2
  exact ⟨q, hx⟩

/-- User space once its pages are mapped. -/
structure UserSpace (start stop d : paddr_t) (k : Kernel) (sts : List status_t) (k' : Kernel) :
    Prop where
  statuses : ∀ st ∈ sts, st = XOS_OK
  user : UserLeaves start stop d k'
  text : Blank d k' 0x10000000 0x10004000 USER_RWX
  hole : ∀ x : Word, 0x10004000 ≤ x.toNat → x.toNat < 0x103FF000 → leafAt k'.s.mem d x = none
  stack : Blank d k' 0x103FF000 0x10400000 USER_RW
  screen : Screen d k'.s.mem 0x96000
  kernel : ∀ x : Word, 0xC0000000 ≤ x.toNat → leafAt k'.s.mem d x = leafAt k.s.mem d x
  keeps : Keeps start stop k k'
  count : k'.own.length ≤ k.own.length + 7

theorem map_user_space.spec (h : UserLeaves start stop d k)
    (hfree : ∀ x : Word, x.toNat < 0xC0000000 → leafAt k.s.mem d x = none)
    (hnone : ∀ y q f, leafAt k.s.mem d y = some (q, f) → has f PTE_U = false)
    (hstop : FarFromFramebuffer stop) (hlen : k.own.length ≤ 193)
    (hroom : k.own.length + 8 ≤ (stop.toNat - start.toNat) / 4096) :
    ∃ sts k', map_user_space (pa_to_kva d) k = some (sts, k') ∧ UserSpace start stop d k sts k' := by
  have h0 : Filling start stop d k 0 0 := by
    refine ⟨h, fun x _ hx => hfree x hx, ?_⟩
    intro y q f hy hu
    rw [hnone y q f hy] at hu
    cases hu
  have hrwx : LeafFlags (flagsOf USER_RWX) := by unfold LeafFlags; decide
  have hrw : LeafFlags (flagsOf USER_RW) := by unfold LeafFlags; decide
  have hidx1 : vpn1 ((0x10000000 : Word) + 0 * PAGE_SIZE) = 64 := by decide
  have hidx2 : vpn1 ((0x10000000 : Word) + 1 * PAGE_SIZE) = 64 := by decide
  have hidx3 : vpn1 ((0x10000000 : Word) + 2 * PAGE_SIZE) = 64 := by decide
  have hidx4 : vpn1 ((0x10000000 : Word) + 3 * PAGE_SIZE) = 64 := by decide
  have hidx5 : vpn1 ((0x10400000 : Word) - 1 * PAGE_SIZE) = 64 := by decide
  -- the four pages of text and data
  obtain ⟨k1, hr1, hn1⟩ := map_new_page_status.spec h0 hstop USER_RWX hrwx
    (0x10000000 + 0 * PAGE_SIZE) (by decide) (by decide) (by decide) (Or.inl (by omega)) (by omega)
  have hc1 := hn1.count
  have ht1 := hn1.table
  rw [hidx1, ← hidx2] at ht1
  obtain ⟨k2, hr2, hn2⟩ := map_new_page_status.spec hn1.filling hstop USER_RWX hrwx
    (0x10000000 + 1 * PAGE_SIZE) (by decide) (by decide) (by decide) (Or.inr ⟨by omega, ht1⟩)
    (by omega)
  have hc2 := hn2.counted ht1
  have ht2 := hn2.table
  rw [hidx2, ← hidx3] at ht2
  obtain ⟨k3, hr3, hn3⟩ := map_new_page_status.spec hn2.filling hstop USER_RWX hrwx
    (0x10000000 + 2 * PAGE_SIZE) (by decide) (by decide) (by decide) (Or.inr ⟨by omega, ht2⟩)
    (by omega)
  have hc3 := hn3.counted ht2
  have ht3 := hn3.table
  rw [hidx3, ← hidx4] at ht3
  obtain ⟨k4, hr4, hn4⟩ := map_new_page_status.spec hn3.filling hstop USER_RWX hrwx
    (0x10000000 + 3 * PAGE_SIZE) (by decide) (by decide) (by decide) (Or.inr ⟨by omega, ht3⟩)
    (by omega)
  have hc4 := hn4.counted ht3
  have ht4 := hn4.table
  rw [hidx4, ← hidx5] at ht4
  -- the stack
  obtain ⟨k5, hr5, hn5⟩ := map_new_page_status.spec hn4.filling hstop USER_RW hrw
    (0x10400000 - 1 * PAGE_SIZE) (by decide) (by decide) (by decide) (Or.inr ⟨by omega, ht4⟩)
    (by omega)
  have hc5 := hn5.counted ht4
  -- the framebuffer
  have hfill5 : Filling start stop d k5 (0x20000000 + (0 : Word).toNat) (0 : Word).toNat :=
    ⟨hn5.filling.user, fun x hx1 hx2 => hn5.filling.free x ((by decide : _ ≤ 0x20000000).trans hx1) hx2,
      hn5.filling.screen⟩
  obtain ⟨sts, k6, hr6, hf6, hs6, hc6, -, hrest6, hok6, hkeeps6⟩ := screen_loop TURNS hfill5
    (fun x h1 h2 => by simp at h2; omega) (by decide) (by decide)
    (fun p o hpo => clear_of_few hn5.filling.user.good.pool hstop (by omega) hpo) hstop
    (Or.inl (by omega)) (Or.inl (by omega)) (by unfold TURNS; simp)
  have hva1 : ((0x10000000 : Word) + 0 * PAGE_SIZE).toNat = 0x10000000 := by decide
  have hva2 : ((0x10000000 : Word) + 1 * PAGE_SIZE).toNat = 0x10001000 := by decide
  have hva3 : ((0x10000000 : Word) + 2 * PAGE_SIZE).toNat = 0x10002000 := by decide
  have hva4 : ((0x10000000 : Word) + 3 * PAGE_SIZE).toNat = 0x10003000 := by decide
  have hva5 : ((0x10400000 : Word) - 1 * PAGE_SIZE).toNat = 0x103FF000 := by decide
  have hfx : flagsOf USER_RWX = USER_RWX := by decide
  have hfw : flagsOf USER_RW = USER_RW := by decide
  have htext1 := hn1.blank hfx hva1 rfl
  have htext2 := htext1.next hn1.filling.user.good.pool hn2 hfx hva2 rfl
  have htext3 := htext2.next hn2.filling.user.good.pool hn3 hfx hva3 rfl
  have htext4 := htext3.next hn3.filling.user.good.pool hn4 hfx hva4 rfl
  have hlow5 : ∀ x : Word, x.toNat < 0x103FF000 → leafAt k6.s.mem d x = leafAt k4.s.mem d x := by
    intro x hx
    rw [hrest6 x (by omega), hn5.rest x]
    unfold Covers
    omega
  refine ⟨[XOS_OK, XOS_OK, XOS_OK, XOS_OK, XOS_OK] ++ sts, k6, ?_, ?_, hf6.user, ?_, ?_, ?_, hs6, ?_,
    ?_, by omega⟩
  · refine Option.bind_eq_some_iff.mpr ⟨(XOS_OK, k1), hr1, ?_⟩
    refine Option.bind_eq_some_iff.mpr ⟨(XOS_OK, k2), hr2, ?_⟩
    refine Option.bind_eq_some_iff.mpr ⟨(XOS_OK, k3), hr3, ?_⟩
    refine Option.bind_eq_some_iff.mpr ⟨(XOS_OK, k4), hr4, ?_⟩
    refine Option.bind_eq_some_iff.mpr ⟨(XOS_OK, k5), hr5, ?_⟩
    exact Option.bind_eq_some_iff.mpr ⟨(FRAMEBUFFER_SIZE, sts, k6), hr6, rfl⟩
  · intro st hst
    rw [List.mem_append] at hst
    rcases hst with hst | hst
    · simpa using hst
    · exact hok6 st hst
  · exact htext4.keeps hn4.filling.user.good.pool (hn5.keeps.trans hkeeps6)
      fun x _ hx => hlow5 x (by omega)
  · intro x h1 h2
    rw [hlow5 x h2]
    exact hn4.filling.free x (by rw [hva4]; exact h1) (by omega)
  · have hb5 := hn5.blank hfw hva5 rfl
    exact hb5.keeps hn5.filling.user.good.pool hkeeps6 fun x _ hx => hrest6 x (by omega)
  · intro x hx
    have hout : ∀ va : Word, va.toNat < 0x10400000 → va.toNat % 4096 = 0 → ¬ Covers va 4096 x := by
      intro va hva hal
      unfold Covers
      omega
    rw [hrest6 x (by omega), hn5.rest x (hout _ (by decide) (by decide)),
      hn4.rest x (hout _ (by decide) (by decide)), hn3.rest x (hout _ (by decide) (by decide)),
      hn2.rest x (hout _ (by decide) (by decide)), hn1.rest x (hout _ (by decide) (by decide))]
  · exact hn1.keeps.trans (hn2.keeps.trans (hn3.keeps.trans (hn4.keeps.trans
      (hn5.keeps.trans hkeeps6))))

/-! ## The program loaded -/

/-- The program is copied to its text, and the frame of the kernel stack is
made. Nothing else that user space reaches changes. -/
structure UserLoaded (start stop d : paddr_t) (k : Kernel) (image : List Byte) (k' : Kernel) :
    Prop where
  running : Running start stop d k'
  leaves : ∀ x, leafAt k'.s.mem d x = leafAt k.s.mem d x
  count : k'.own.length ≤ k.own.length + 1
  copied : ∃ m, Copied d k.s.mem 0x10000000 image m ∧
    ∀ p, (p, .page) ∈ k.own → ∀ x, InPage p x → k'.s.mem x = m x

theorem load_user_program.spec (h : UserLeaves start stop d k)
    (htext : Text d k.s.mem 0x10000000 0x10004000) (hs : Screen d k.s.mem 0x96000)
    (hstop : FarFromFramebuffer stop) (hlen : k.own.length ≤ 200)
    (hroom : k.own.length + 1 ≤ (stop.toNat - start.toNat) / 4096) (extra_start extra_end : Word)
    (hextra : (extra_end - extra_start).toNat ≤ 0x4000) :
    ∃ kst k', load_user_program extra_start extra_end (pa_to_kva d) k = some (kst, k') ∧
      UserLoaded start stop d k
        (read k.s.mem (kva_to_pa extra_start) (extra_end - extra_start).toNat) k' := by
  have hclear : ∀ p o, (p, o) ∈ k.own → ¬ InFramebuffer p.toNat :=
    fun p o hpo => clear_of_few h.good.pool hstop (by omega) hpo
  set image := read k.s.mem (kva_to_pa extra_start) (extra_end - extra_start).toNat with himage
  have himg : image.length = (extra_end - extra_start).toNat := by rw [himage, read_length]
  have hus : (0x10000000 : Word).toNat = 0x10000000 := by decide
  obtain ⟨m, hm, hsame, hcopied⟩ := copy_to_user.spec image 0x10000000 h hclear
    (fun x h1 h2 => htext x (by omega) (by omega)) (by omega)
  have hleaf := leafAt_same h.good.pool h.good.trees hsame (fun _ hf => hf) h.dir
  have hu := h.withMem hsame
  -- the kernel stack
  have hown : (k.withMem m).own.length < (stop.toNat - start.toNat) / 4096 := by
    rw [Kernel.withMem_own]
    omega
  obtain ⟨t, k7, hr7, htook⟩ := Kernel.kpage_alloc_z.spec (fun _ hf => hf) hu.good hown false
  have hu7 := hu.took htook
  have htin : (t, Owner.kpage) ∈ k7.own := by
    rw [htook.own]
    exact List.mem_cons_self
  have hlen7 : k7.own.length = k.own.length + 1 := by
    rw [htook.own, List.length_cons, Kernel.withMem_own]
  set m8 := store (store k7.s.mem (pa_to_kva t + PAGE_SIZE - (EFRAME_SIZE + THREAD_SIZE) + EFRAME_PC)
    0x10000000) (pa_to_kva t + PAGE_SIZE - (EFRAME_SIZE + THREAD_SIZE) + EFRAME_SP) 0x10400000 with hm8
  have hframe : ∀ x, ¬ InPage t x → m8 x = k7.s.mem x := by
    intro x hx
    rw [hm8, store_frame htook.fresh.aligned _ _ _ (by decide) x hx,
      store_frame htook.fresh.aligned _ _ _ (by decide) x hx]
  have hapart : ∀ p o, (p, o) ∈ k7.own → o ≠ .kpage → ∀ x, InPage p x → ¬ InPage t x := by
    intro p o hpo ho x hx hxt
    have hpt := page_eq_of_inPage (pool_aligned hu7.good.pool hpo) htook.fresh.aligned hx hxt
    subst hpt
    exact ho (pool_owner_unique hu7.good.pool hpo htin)
  have hsame8 : SameTrees k7.s.mem m8 k7.own := by
    apply sameTrees_of_untouched hu7.good.pool
    intro p o hpo hw x hx
    apply hframe x (hapart p o hpo ?_ x hx)
    rintro rfl
    cases hw
  have hleaf8 : ∀ x, leafAt m8 d x = leafAt k.s.mem d x := by
    intro x
    rw [leafAt_same hu7.good.pool hu7.good.trees hsame8 (fun _ hf => hf) hu7.dir x,
      htook.leaves d hu.dir x, Kernel.withMem_mem, hleaf x]
  refine ⟨pa_to_kva t + PAGE_SIZE - (EFRAME_SIZE + THREAD_SIZE), k7.withMem m8, ?_,
    ⟨⟨hu7.withMem hsame8, ?_, hs.same hleaf8⟩, hleaf8, ?_, m, hcopied, ?_⟩⟩
  · refine Option.bind_eq_some_iff.mpr ⟨m, by rw [kva_to_pa_to_kva]; exact hm, ?_⟩
    exact Option.bind_eq_some_iff.mpr ⟨(pa_to_kva t, k7), hr7, rfl⟩
  · intro p o hpo
    rw [Kernel.withMem_own] at hpo
    exact clear_of_few hu7.good.pool hstop (by omega) hpo
  · rw [Kernel.withMem_own]
    omega
  · intro p hpo x hx
    have hkeeps := keeps_took hu.good.pool htook
    rw [Kernel.withMem_mem, hframe x (hapart p _ (hkeeps.own _ hpo) (by simp) x hx),
      hkeeps.pages p hpo x hx, Kernel.withMem_mem]

theorem start_user_program.spec (h : UserLeaves start stop d k)
    (hfree : ∀ x : Word, x.toNat < 0xC0000000 → leafAt k.s.mem d x = none)
    (hnone : ∀ y q f, leafAt k.s.mem d y = some (q, f) → has f PTE_U = false)
    (hstop : FarFromFramebuffer stop) (hlen : k.own.length ≤ 193)
    (hroom : k.own.length + 8 ≤ (stop.toNat - start.toNat) / 4096) (extra_start extra_end : Word)
    (hextra : (extra_end - extra_start).toNat ≤ 0x4000) :
    ∃ kst k', start_user_program extra_start extra_end (pa_to_kva d) k = some (kst, k') ∧
      Running start stop d k' ∧ k'.own.length ≤ 201 := by
  obtain ⟨sts, k6, hr6, h6⟩ := map_user_space.spec h hfree hnone hstop hlen hroom
  have hcount := h6.count
  obtain ⟨kst, k', hr, hl⟩ := load_user_program.spec h6.user h6.text.text h6.screen hstop (by omega)
    (by omega) extra_start extra_end hextra
  have hcount' := hl.count
  refine ⟨kst, k', ?_, hl.running, by omega⟩
  rw [start_user_program_eq, hr6, Option.bind_some, hr]

end

/-! ## The kernel before it -/

theorem kernelMap_low (L : Layout) {x : Word} (hx : x.toNat < 0xC0000000) :
    kernelMap L.toSymbols x = none := by
  have := L.low
  have := L.text_rodata
  have := L.rodata_data
  unfold kernelMap
  rw [if_neg (by omega), if_neg (by omega), if_neg (by omega), if_neg (by omega)]

theorem kernelMap_no_user (sym : Symbols) {x : Word} {q : Nat} {f : Word}
    (h : kernelMap sym x = some (q, f)) : has f PTE_U = false := by
  have key : ∀ p g, some (p, g) = some (q, f) → has g PTE_U = false → has f PTE_U = false := by
    intro p g hpg hg
    rw [← (Prod.mk.inj (Option.some.inj hpg)).2, hg]
  unfold kernelMap at h
  split_ifs at h
  · exact key _ _ h (by decide)
  · exact key _ _ h (by decide)
  · exact key _ _ h (by decide)
  · exact key _ _ h (by decide)

/-- The kernel that `start` hands over: no user space yet, and the pages for
one. -/
structure Ready (start stop d : paddr_t) (k : Kernel) : Prop where
  user : UserLeaves start stop d k
  low : ∀ x : Word, x.toNat < 0xC0000000 → leafAt k.s.mem d x = none
  kernel_only : ∀ y q f, leafAt k.s.mem d y = some (q, f) → has f PTE_U = false
  far : FarFromFramebuffer stop
  few : k.own.length ≤ 193
  room : k.own.length + 8 ≤ (stop.toNat - start.toNat) / 4096

theorem ready_of_started (L : Layout)
    (hroom : L.image_end.toNat + 4096 * (9 + L.tables) + 2 * 4096 ≤ L.memory_top.toNat)
    {r : Started} {d : paddr_t} (h : StartedAt L.toSymbols r d) :
    Ready (kva_to_pa L.image_end) (kva_to_pa L.memory_top - 2 * PAGE_SIZE) d r.k := by
  have htext := L.text_rodata
  have hrodata := L.rodata_data
  have hdata := L.data_image
  have hlow := L.low
  have htop := L.top_aligned
  have hhigh := L.high
  have hfew := h.few
  have himg := kva_to_pa_toNat L.image_end (by omega)
  have hmem := kva_to_pa_toNat L.memory_top (by omega)
  have hstop : (kva_to_pa L.memory_top - 2 * PAGE_SIZE).toNat =
      L.memory_top.toNat - 0x80000000 - 8192 := by bv_omega
  have htables : L.tables ≤ 192 := by
    unfold Symbols.tables Symbols.data_end vpn1
    omega
  have hno : ∀ y q f, leafAt r.k.s.mem d y = some (q, f) → has f PTE_U = false := by
    intro y q f hy
    rw [h.leaves] at hy
    exact kernelMap_no_user _ hy
  refine ⟨⟨good_mono proper_leaf h.good, h.dir, ?_, ?_⟩, ?_, hno, ?_, by omega, by omega⟩
  · intro x q f hx hf
    rw [hno x q f hx] at hf
    cases hf
  · intro x x' q f f' hx _ hf
    rw [hno x q f hx] at hf
    cases hf
  · intro x hx
    exact (h.leaves x).trans (kernelMap_low L hx)
  · unfold FarFromFramebuffer
    omega

end os_workshop.vmm
