-- The law of the user image: what user space finds at its addresses when
-- `start_user_program` enters it, and the images that it does not load. The
-- code maps four pages for the image, and copies as many bytes as the image has.
import OsWorkshop.UserProgram

open os_workshop.memory os_workshop.sv32

namespace os_workshop.vmm

/-! ## The image -/

/-- A layout with an embedded user image of any length among its constants,
and a pool with the pages for the boot. -/
structure ImageLayout extends Layout where
  extra_start : Word
  extra_end : Word
  rodata_extra : rodata_start.toNat ≤ extra_start.toNat
  extra_order : extra_start.toNat ≤ extra_end.toNat
  extra_data : extra_end.toNat ≤ data_start.toNat
  user_room : image_end.toNat + 4096 * (9 + toSymbols.tables) + 2 * 4096 ≤ memory_top.toNat

def ImageLayout.length (L : ImageLayout) : Nat := (L.extra_end - L.extra_start).toNat

/-- User space as the embedded image asks for it: each byte of the image, zeros
up to the end of its last page, a page of zeros for the stack, and the
framebuffer. The kernel map stands as before. -/
structure Loaded (L : ImageLayout) (m : Mem) (d : paddr_t) (k : Kernel) : Prop where
  image : ∀ i < L.length, ∃ q, walk k.s.mem d.toNat (0x10000000 + BitVec.ofNat 32 i) =
    some (q, USER_RWX) ∧
      k.s.mem (BitVec.ofNat 32 q) = m (kva_to_pa L.extra_start + BitVec.ofNat 32 i)
  rest : ∀ x : Word, 0x10000000 + L.length ≤ x.toNat →
    x.toNat < 0x10000000 + (L.length + 4095) / 4096 * 4096 →
    ∃ q, walk k.s.mem d.toNat x = some (q, USER_RWX) ∧ k.s.mem (BitVec.ofNat 32 q) = 0
  stack : ∀ x : Word, 0x103FF000 ≤ x.toNat → x.toNat < 0x10400000 →
    ∃ q, walk k.s.mem d.toNat x = some (q, USER_RW) ∧ k.s.mem (BitVec.ofNat 32 q) = 0
  screen : ∀ x : Word, 0x20000000 ≤ x.toNat → x.toNat < 0x20000000 + 640 * 480 * 2 →
    walk k.s.mem d.toNat x = some (0x40C00000 + (x.toNat - 0x20000000), USER_RW)
  kernel : ∀ x : Word, 0xC0000000 ≤ x.toNat →
    walk k.s.mem d.toNat x = kernelMap L.toSymbols x

section

variable {start stop d : paddr_t} {k k' : Kernel}

/-! ## An image that does not fit -/

theorem copy_to_user_append (root : Nat) (bs bs' : List Byte) (va : vaddr_t) (m : Mem) :
    copy_to_user root va (bs ++ bs') m = (copy_to_user root va bs m).bind
      (copy_to_user root (va + BitVec.ofNat 32 bs.length) bs') := by
  induction bs generalizing va m with
  | nil => simp [copy_to_user]
  | cons b bs ih =>
    have hlen : va + BitVec.ofNat 32 (b :: bs).length =
        va + 1 + BitVec.ofNat 32 bs.length := by
      rw [List.length_cons, Nat.add_comm, BitVec.ofNat_add, BitVec.add_assoc]
      rfl
    rw [List.cons_append, copy_to_user, copy_to_user, hlen]
    cases walk m root va with
    | none => rfl
    | some r =>
      simp only [Option.bind_eq_bind, Option.bind_some]
      split
      · exact ih _ _
      · rfl

/-- The copy faults at the first address after the four pages. -/
theorem load_user_program_faults (h : UserLeaves start stop d k)
    (hclear : ∀ p o, (p, o) ∈ k.own → ¬ InFramebuffer p.toNat)
    (htext : Text d k.s.mem 0x10000000 0x10004000)
    (hhole : leafAt k.s.mem d 0x10004000 = none) (extra_start extra_end : Word)
    (hextra : 0x4000 < (extra_end - extra_start).toNat) :
    load_user_program extra_start extra_end (pa_to_kva d) k = none := by
  have hus : (0x10000000 : Word).toNat = 0x10000000 := by decide
  unfold load_user_program
  simp only [kva_to_pa_to_kva]
  generalize himage : read k.s.mem (kva_to_pa extra_start) (extra_end - extra_start).toNat = image
  have himg : image.length = (extra_end - extra_start).toNat := by rw [← himage, read_length]
  have htake : (image.take 0x4000).length = 0x4000 := by
    rw [List.length_take]
    omega
  obtain ⟨m, hm, hsame, -⟩ := copy_to_user.spec (image.take 0x4000) 0x10000000 h hclear
    (fun x h1 h2 => htext x (by omega) (by omega)) (by omega)
  -- the trees are as before, so the next address has no leaf
  have hu := h.withMem hsame
  have hwalk : walk m d.toNat 0x10004000 = none := by
    have hleaf := leafAt_same h.good.pool h.good.trees hsame (fun _ hf => hf) h.dir 0x10004000
    have hw := walk_leaf hu.good hu.dir 0x10004000
    rw [Kernel.withMem_mem, hleaf, hhole] at hw
    exact hw
  obtain ⟨b, bs, hdrop⟩ : ∃ b bs, image.drop 0x4000 = b :: bs := by
    apply List.exists_cons_of_length_pos
    rw [List.length_drop]
    omega
  have hcopy : copy_to_user d.toNat 0x10000000 image k.s.mem = none := by
    rw [← List.take_append_drop 0x4000 image, copy_to_user_append, hm, htake, hdrop]
    simp only [Option.bind_some]
    rw [copy_to_user, show (0x10000000 : Word) + BitVec.ofNat 32 0x4000 = 0x10004000 by decide,
      hwalk]
    rfl
  rw [hcopy]
  rfl

end

/-! ## What user space finds -/

section

variable {start stop d : paddr_t} {k k6 : Kernel} {image : List Byte} {sts : List status_t}

/-- A byte that no address of the image leads to is as before the copy. -/
theorem Copied.outside {m : Mem} (hc : Copied d k6.s.mem 0x10000000 image m)
    (h : UserLeaves start stop d k6) (ht : Text d k6.s.mem 0x10000000 0x10004000)
    (hlen : image.length ≤ 0x4000) {x : Word} {q : Nat} {f : Word}
    (hx : leafAt k6.s.mem d x = some (q, f)) (hf : has f PTE_U = true)
    (hout : 0x10000000 + image.length ≤ x.toNat) :
    m (BitVec.ofNat 32 q) = k6.s.mem (BitVec.ofNat 32 q) := by
  apply hc.rest
  intro i hi q' f' hl he
  have hq := h.byte_lt hx hf
  have hva : ((0x10000000 : Word) + BitVec.ofNat 32 i).toNat = 0x10000000 + i := by bv_omega
  obtain ⟨q'', hq''⟩ := ht (0x10000000 + BitVec.ofNat 32 i) (by omega) (by omega)
  have hqf := hl.symm.trans hq''
  rw [Option.some.injEq, Prod.mk.injEq] at hqf
  obtain ⟨rfl, rfl⟩ := hqf
  have hq' := h.byte_lt hl (by decide)
  have heq : q' = q := by
    have hn := congrArg BitVec.toNat he
    rwa [BitVec.toNat_ofNat, BitVec.toNat_ofNat, Nat.mod_eq_of_lt hq', Nat.mod_eq_of_lt hq] at hn
  rw [heq] at hl
  have hsame := h.once _ _ _ _ _ hl hx (by decide) hf
  rw [hsame] at hva
  omega

/-- A blank page above the image is blank in the end. -/
theorem blank_after_load (h : UserSpace start stop d k sts k6) {k7 : Kernel}
    (hl : UserLoaded start stop d k6 image k7) (hlen : image.length ≤ 0x4000) {lo hi : Nat}
    {flags : Word} (hb : Blank d k6 lo hi flags) (hr : has flags PTE_R = true)
    (hu : has flags PTE_U = true) (x : Word) (h1 : lo ≤ x.toNat) (h2 : x.toNat < hi)
    (hout : 0x10000000 + image.length ≤ x.toNat) :
    ∃ q, walk k7.s.mem d.toNat x = some (q, flags) ∧ k7.s.mem (BitVec.ofNat 32 q) = 0 := by
  obtain ⟨m, hc, hpages⟩ := hl.copied
  obtain ⟨p, q, hp, hq, hx, hz⟩ := hb x h1 h2
  refine ⟨q, walk_of_leafAt hl.running.user.good hl.running.user.dir ((hl.leaves x).trans hx) hr, ?_⟩
  rw [hpages p hp _ (inPage_of_inFrame (pool_aligned h.user.good.pool hp) hq),
    hc.outside h.user h.text.text hlen hx hu hout, hz]

end

/-- The octets of the image at its source are those that the loader left. -/
theorem image_octets (L : ImageLayout) {m : Mem} {r : Started} {d : paddr_t} {sts : List status_t}
    {k6 : Kernel} (hr : start L.toSymbols m = some r)
    (h : UserSpace (kva_to_pa L.image_end) (kva_to_pa L.memory_top - 2 * PAGE_SIZE) d r.k sts k6)
    {i : Nat} (hi : i < L.length) :
    k6.s.mem (kva_to_pa L.extra_start + BitVec.ofNat 32 i) =
      m (kva_to_pa L.extra_start + BitVec.ofNat 32 i) := by
  have h1 := L.low
  have h2 := L.text_rodata
  have h3 := L.rodata_data
  have h4 := L.data_image
  have h5 := L.rodata_extra
  have h6 := L.extra_order
  have h7 := L.extra_data
  have himg := kva_to_pa_toNat L.image_end (by omega)
  have hext := kva_to_pa_toNat L.extra_start (by omega)
  have hlt : (kva_to_pa L.extra_start + BitVec.ofNat 32 i).toNat < (kva_to_pa L.image_end).toNat := by
    unfold ImageLayout.length at hi
    have hsub : (L.extra_end - L.extra_start).toNat = L.extra_end.toNat - L.extra_start.toNat := by
      bv_omega
    rw [BitVec.toNat_add, BitVec.toNat_ofNat]
    omega
  rw [h.keeps.outside _ (Or.inl hlt), start_keeps L.toLayout hr _ (Or.inl hlt)]

/-! ## The law -/

/-- The boot loads the image: its mapping calls succeed, it enters user mode,
and user space is as the image asks for it. -/
def LoadsImage (L : ImageLayout) (m : Mem) : Prop :=
  ∃ r sts k6 kst k, start L.toSymbols m = some r ∧
    map_user_space r.kpgdir r.k = some (sts, k6) ∧ (∀ st ∈ sts, st = XOS_OK) ∧
    start_user_program L.extra_start L.extra_end r.kpgdir r.k = some (kst, k) ∧
    Loaded L m (kva_to_pa r.kpgdir) k

theorem loads_of_fits (L : ImageLayout) (m : Mem) (hlen : L.length ≤ 0x4000) : LoadsImage L m := by
  obtain ⟨r, d, hr, h⟩ := start.spec L.toLayout m
  have hready := ready_of_started L.toLayout L.user_room h
  have hroom := hready.room
  have hfew := hready.few
  obtain ⟨sts, k6, hr6, h6⟩ := map_user_space.spec hready.user hready.low hready.kernel_only
    hready.far hfew hroom
  have hcount := h6.count
  obtain ⟨kst, k, hk, hl⟩ := load_user_program.spec h6.user h6.text.text h6.screen hready.far
    (by omega) (by omega) L.extra_start L.extra_end hlen
  have himg : (read k6.s.mem (kva_to_pa L.extra_start) (L.extra_end - L.extra_start).toNat).length =
      L.length := read_length _ _ _
  have hu := hl.running.user
  refine ⟨r, sts, k6, kst, k, hr, by rw [h.kpgdir, hr6], h6.statuses, ?_, ?_⟩
  · rw [h.kpgdir, start_user_program_eq, hr6, Option.bind_some, hk]
  rw [h.kpgdir, kva_to_pa_to_kva]
  refine ⟨?_, ?_, ?_, ?_, ?_⟩
  · intro i hi
    have hva : ((0x10000000 : Word) + BitVec.ofNat 32 i).toNat = 0x10000000 + i := by bv_omega
    obtain ⟨m', hc, hpages⟩ := hl.copied
    obtain ⟨p, q, hp, hq, hx, -⟩ := h6.text (0x10000000 + BitVec.ofNat 32 i) (by omega) (by omega)
    refine ⟨q, walk_of_leafAt hu.good hu.dir ((hl.leaves _).trans hx) (by decide), ?_⟩
    rw [hpages p hp _ (inPage_of_inFrame (pool_aligned h6.user.good.pool hp) hq),
      hc.bytes i (by omega) q USER_RWX hx, read_get, image_octets L hr h6 hi]
  · intro x h1 h2
    exact blank_after_load h6 hl (by omega) h6.text (by decide) (by decide) x (by omega) (by omega)
      (by omega)
  · intro x h1 h2
    exact blank_after_load h6 hl (by omega) h6.stack (by decide) (by decide) x h1 h2 (by omega)
  · intro x h1 h2
    exact walk_of_leafAt hu.good hu.dir (hl.running.screen x h1 (by omega)) (by decide)
  · intro x hx
    rw [walk_leaf hu.good hu.dir, hl.leaves x, h6.kernel x hx, ← walk_leaf
      (good_mono proper_leaf h.good) h.dir, walk_eq_leafAt h.good h.dir, h.leaves]

/-- A longer image faults in the copy. -/
theorem faults_of_long (L : ImageLayout) (m : Mem) (hlen : 0x4000 < L.length) :
    ∃ r, start L.toSymbols m = some r ∧
      start_user_program L.extra_start L.extra_end r.kpgdir r.k = none := by
  obtain ⟨r, d, hr, h⟩ := start.spec L.toLayout m
  have hready := ready_of_started L.toLayout L.user_room h
  have hfew := hready.few
  obtain ⟨sts, k6, hr6, h6⟩ := map_user_space.spec hready.user hready.low hready.kernel_only
    hready.far hfew hready.room
  have hcount := h6.count
  refine ⟨r, hr, ?_⟩
  rw [h.kpgdir, start_user_program_eq, hr6, Option.bind_some]
  exact load_user_program_faults h6.user
    (fun p o hpo => clear_of_few h6.user.good.pool hready.far (by omega) hpo) h6.text.text
    (h6.hole _ (by decide) (by decide)) _ _ hlen

/-- For every layout and every length of the embedded image, the boot loads the
image exactly when it fits the four pages that the code maps for it. -/
theorem the_image_is_loaded_iff (L : ImageLayout) (m : Mem) :
    LoadsImage L m ↔ L.length ≤ 0x4000 := by
  constructor
  · rintro ⟨r, sts, k6, kst, k, hr, -, -, hk, -⟩
    by_contra hlong
    obtain ⟨r', hr', hnone⟩ := faults_of_long L m (by omega)
    cases hr.symm.trans hr'
    rw [hnone] at hk
    cases hk
  · exact loads_of_fits L m

/-- The kernel of the board with a user image of 20KB. -/
def bigImage : ImageLayout :=
  { board with
    rodata_start := 0xC0001000
    extra_start := 0xC0001000
    extra_end := 0xC0006000
    rodata_aligned := by decide
    text_rodata := by decide
    rodata_data := by decide
    rodata_extra := by decide
    extra_order := by decide
    extra_data := by decide
    user_room := by decide }

theorem a_big_image_faults : bigImage.length = 0x5000 ∧ ¬ LoadsImage bigImage (fun _ => 0) ∧
    ∃ r, start bigImage.toSymbols (fun _ => 0) = some r ∧
      start_user_program bigImage.extra_start bigImage.extra_end r.kpgdir r.k = none := by
  have hlen : bigImage.length = 0x5000 := by decide
  obtain ⟨r, hr, hnone⟩ := faults_of_long bigImage (fun _ => 0) (by omega)
  refine ⟨hlen, ?_, r, hr, hnone⟩
  rintro ⟨r', sts, k6, kst, k, hr', -, -, hk, -⟩
  cases hr.symm.trans hr'
  rw [hnone] at hk
  cases hk

end os_workshop.vmm
