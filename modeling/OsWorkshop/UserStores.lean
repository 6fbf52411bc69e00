-- What user mode does to memory. Its stores go through the page tables that the kernel
-- made, and over every run of kernel calls and user stores these stay the kernel's own.
import OsWorkshop.Blocks
import OsWorkshop.FrameIsolation

open os_workshop.memory os_workshop.sv32 os_workshop.runs

namespace os_workshop.vmm

/-- User mode stores a byte at `va`, through a leaf that lets it write. -/
inductive UserStore (d : paddr_t) (k : Kernel) : vaddr_t × Byte → Kernel → Prop
  | store {va : vaddr_t} {v : Byte} {q : Nat} {f : Word} :
      walk k.s.mem d.toNat va = some (q, f) → has f PTE_U = true → has f PTE_W = true →
      UserStore d k (va, v)
        { k with s := { k.s with mem := write k.s.mem (BitVec.ofNat 32 q) [v] } }

/-- What happens after the boot: the kernel makes a call, or user mode stores a byte. -/
inductive Action
  | call (c : Call) (st : status_t)
  | store (va : vaddr_t) (v : Byte)

def systemStep (d : paddr_t) : Steps Kernel Action
  | k, .call c st, k' => clearStep d k (c, st) k'
  | k, .store va v, k' => UserStore d k (va, v) k'

/-- User mode may write the byte at `a`. -/
def UserWritable (d : paddr_t) (m : Mem) (a : Word) : Prop :=
  ∃ x f, leafAt m d x = some (a.toNat, f) ∧ has f PTE_U = true ∧ has f PTE_W = true

section

variable {start stop d : paddr_t} {k k' : Kernel} {va : vaddr_t} {v : Byte} {q : Nat} {f : Word}

/-- A frame of user space is in the memory. -/
theorem user_byte (h : Running start stop d k) (hx : leafAt k.s.mem d va = some (q, f))
    (hu : has f PTE_U = true) : (BitVec.ofNat 32 q).toNat = q := by
  have hq : q < 2 ^ 32 := by
    rcases h.user.frames va q f hx hu with hfb | ⟨p, hp, hin⟩
    · unfold InFramebuffer at hfb
      omega
    · have hal := pool_aligned h.user.good.pool hp
      have hlt := p.isLt
      unfold PageAligned at hal
      unfold InFrame at hin
      omega
  rw [BitVec.toNat_ofNat, Nat.mod_eq_of_lt hq]

/-- A store of user mode is one that the owner of the page may make. -/
theorem UserStore.clear (h : Running start stop d k) (hs : UserStore d k (va, v) k') :
    ∃ a, clearStep d k (.write a [v], XOS_OK) k' ∧ UserWritable d k.s.mem a ∧
      k'.s.mem = write k.s.mem a [v] ∧ k'.own = k.own := by
  cases hs with
  | @store _ _ q f hw hu hwr =>
    have hleaf := leafAt_of_walk h.user.good h.user.dir hw
    have hq := user_byte h hleaf hu
    refine ⟨BitVec.ofNat 32 q, ⟨⟨⟨?_, ?_⟩, trivial⟩, fun hfb => hfb.1⟩,
      ⟨va, f, by rw [hq]; exact hleaf, hu, hwr⟩, rfl, rfl⟩
    · -- no page that is walked is reached by a user leaf
      intro x hx p o hp hwalked hin
      have hxq : x = BitVec.ofNat 32 q := by
        unfold memory.dist at hx
        simp only [List.length_singleton] at hx
        bv_omega
      rw [hxq] at hin
      have ho := h.user.owner hp (h.clear _ _ hp) ⟨va, q, f, hleaf, hu, by
        unfold InPage at hin
        unfold InFrame
        omega⟩
      rw [ho] at hwalked
      cases hwalked
    · have hsame : k.after (.write (BitVec.ofNat 32 q) [v])
          { k.s with mem := write k.s.mem (BitVec.ofNat 32 q) [v] } = ⟨_, k.own⟩ := after_same rfl
      simp only [Kernel.exec, hsame]

theorem UserStore.running (h : Running start stop d k) (hs : UserStore d k (va, v) k') :
    Running start stop d k' := by
  obtain ⟨a, hclear, -⟩ := hs.clear h
  exact running_step h hclear

/-- The leaves stay as they are. -/
theorem UserStore.leaves (h : Running start stop d k) (hs : UserStore d k (va, v) k') (x : Word) :
    leafAt k'.s.mem d x = leafAt k.s.mem d x := by
  obtain ⟨a, ⟨⟨⟨ha, he⟩, -⟩, -⟩, -⟩ := hs.clear h
  rcases exec_leaves (fun _ hf => hf) h.user.good ha he with hsame | ⟨_, e, hcall, -⟩
  · exact hsame d h.user.dir x
  · unfold MapCall.call at hcall
    split at hcall <;> cases hcall

theorem running_system {act : Action} (h : Running start stop d k) (hs : systemStep d k act k') :
    Running start stop d k' := by
  cases act with
  | call c st => exact running_step h hs
  | store va v => exact UserStore.running h hs

/-- What a stay in user mode does. -/
structure Confined (d : paddr_t) (k k' : Kernel) : Prop where
  own : k'.own = k.own
  leaves : ∀ x, leafAt k'.s.mem d x = leafAt k.s.mem d x
  mem : ∀ a, ¬ UserWritable d k.s.mem a → k'.s.mem a = k.s.mem a

theorem user_mode_stays (h : Running start stop d k) {ls : List (vaddr_t × Byte)}
    (hrun : Run (UserStore d) k ls k') : Running start stop d k' ∧ Confined d k k' := by
  induction hrun with
  | nil => exact ⟨h, rfl, fun _ => rfl, fun _ _ => rfl⟩
  | @snoc ls k1 k2 l _ hs ih =>
    obtain ⟨h1, hown, hleaves, hmem⟩ := ih
    obtain ⟨va, v⟩ := l
    obtain ⟨a, hclear, hwritable, hwrite, hown'⟩ := hs.clear h1
    refine ⟨running_step h1 hclear, hown'.trans hown, ?_, ?_⟩
    · exact fun x => (hs.leaves h1 x).trans (hleaves x)
    · intro b hb
      have hne : b ≠ a := by
        rintro rfl
        obtain ⟨x, f, hx, hu, hw⟩ := hwritable
        exact hb ⟨x, f, (hleaves x) ▸ hx, hu, hw⟩
      rw [hwrite, write_out _ _ _ [v] (dist_pos hne)]
      exact hmem b hb

end

/-- In every run of kernel calls and user stores after the boot, as long as no page of the
framebuffer is handed out, the frames stay isolated. In a stay in user mode, however long, the
owners and the page tables stay as they are, and so does every byte but those of pages that
user space may write: these were handed out to a caller of `ppage_alloc_z`, or are in the
framebuffer. -/
theorem user_mode_reaches_only_its_own_memory (L : UserLayout) (m : Mem) :
    ∃ d k0, boot_user L m = some (pa_to_kva d, k0) ∧
      ∀ acts k, Run (systemStep d) k0 acts k → Isolated d k ∧
        (∀ a : Word, UserWritable d k.s.mem a →
          InFramebuffer a.toNat ∨ ∃ p, (p, .page) ∈ k.own ∧ InPage p a) ∧
        ∀ ls k', Run (UserStore d) k ls k' → Confined d k k' := by
  obtain ⟨d, k0, hboot, h0, -⟩ := boot_user.spec L m
  refine ⟨d, k0, hboot, fun acts k hrun => ?_⟩
  have h := hrun.keeps (I := Running _ _ d) h0 fun _ _ _ hi hs => running_system hi hs
  refine ⟨isolated_of_running h, ?_, fun ls k' hls => (user_mode_stays h hls).2⟩
  rintro a ⟨x, f, hx, hu, -⟩
  exact h.user.frames x _ f hx hu

end os_workshop.vmm
