-- The law of the kernel address space: `start` of xos/src/kernel.c maps the
-- text, the constants, the data with the rest of the memory, and the device
-- registers, for every layout that the linker can give it.
import OsWorkshop.KernelCalls

open os_workshop.memory os_workshop.sv32

namespace os_workshop.vmm

/-! ## The code -/

abbrev KERNEL_RO : Word := PTE_D ||| PTE_A ||| PTE_R ||| PTE_V
abbrev KERNEL_RW : Word := PTE_D ||| PTE_A ||| PTE_R ||| PTE_W ||| PTE_V
abbrev KERNEL_RX : Word := PTE_D ||| PTE_A ||| PTE_R ||| PTE_X ||| PTE_V

abbrev SATP_MODE_SV32 : Word := 0x80000000

/-- The symbols of the linker script that `start` reads. -/
structure Symbols where
  text_start : Word
  rodata_start : Word
  data_start : Word
  image_end : Word
  memory_top : Word

/-- What `start` has built when it writes `satp`. -/
structure Started where
  kpgdir : Word
  cursors : List vaddr_t
  statuses : List status_t
  satp : Word
  k : Kernel

/-- `start` up to its write of `satp`, on the memory that the loader left. -/
def start (sym : Symbols) (m : Mem) : Option Started := do
  let k := Kernel.boot m (kva_to_pa sym.image_end) (kva_to_pa sym.memory_top - 2 * PAGE_SIZE)
  let (kpgdir, k) ← k.kpage_alloc_z true
  let map4k (flags : Word) (va : vaddr_t) := Call.vm_map_4k kpgdir va (kva_to_pa va) flags
  let map4m (va : vaddr_t) := Call.vm_map_4m kpgdir va (kva_to_pa va) KERNEL_RW
  let (va1, sts1, k) ←
    map_while (map4k KERNEL_RX) PAGE_SIZE sym.rodata_start TURNS sym.text_start k
  let (va2, sts2, k) ← map_while (map4k KERNEL_RO) PAGE_SIZE sym.data_start TURNS va1 k
  let stop := (sym.image_end + 0x003FFFFF) &&& 0xFFC00000
  let (va3, sts3, k) ← map_while (map4k KERNEL_RW) PAGE_SIZE stop TURNS va2 k
  let (va4, sts4, k) ← map_while map4m 0x400000 sym.memory_top TURNS va3 k
  let (st5, k) ← k.exec (.vm_map_4m kpgdir 0xF0000000 0xF0000000 KERNEL_RW)
  some {
    kpgdir := kpgdir
    cursors := [va1, va2, va3, va4]
    statuses := sts1 ++ sts2 ++ sts3 ++ sts4 ++ [st5]
    satp := SATP_MODE_SV32 ||| (kva_to_pa kpgdir >>> 12)
    k := k }

/-! ## The layouts -/

/-- The end of the kernel, up to the next megapage. -/
def Symbols.data_end (sym : Symbols) : Nat := (sym.image_end.toNat + 0x3FFFFF) / 0x400000 * 0x400000

/-- The tables that the 4KB mappings of `start` need: one for each megapage
that they touch. -/
def Symbols.tables (sym : Symbols) : Nat := sym.data_end / 0x400000 - vpn1 sym.text_start

/-- A layout of the kernel: the sections stand in order on page boundaries
above 0xC0000000, and the memory ends on a megapage boundary below the device
registers. The pages between the image and the boot page directory are enough
for the directory and the tables. -/
structure Layout extends Symbols where
  text_aligned : PageAligned text_start
  rodata_aligned : PageAligned rodata_start
  data_aligned : PageAligned data_start
  image_aligned : PageAligned image_end
  text_rodata : text_start.toNat ≤ rodata_start.toNat
  rodata_data : rodata_start.toNat ≤ data_start.toNat
  data_image : data_start.toNat ≤ image_end.toNat
  low : 0xC0000000 ≤ text_start.toNat
  top_aligned : memory_top.toNat % 0x400000 = 0
  high : memory_top.toNat ≤ 0xF0000000
  room : image_end.toNat + 4096 * (1 + toSymbols.tables) + 2 * 4096 ≤ memory_top.toNat

/-- What the kernel address space says of an address. -/
def kernelMap (sym : Symbols) (x : Word) : Option (Nat × Word) :=
  if sym.text_start.toNat ≤ x.toNat ∧ x.toNat < sym.rodata_start.toNat then
    some (x.toNat - 0x80000000, KERNEL_RX)
  else if sym.rodata_start.toNat ≤ x.toNat ∧ x.toNat < sym.data_start.toNat then
    some (x.toNat - 0x80000000, KERNEL_RO)
  else if sym.data_start.toNat ≤ x.toNat ∧ x.toNat < sym.memory_top.toNat then
    some (x.toNat - 0x80000000, KERNEL_RW)
  else if 0xF0000000 ≤ x.toNat ∧ x.toNat < 0xF0400000 then some (x.toNat, KERNEL_RW)
  else none

/-! ## The cursor of the loops -/

section

variable {start stop : paddr_t} {k k' : Kernel} {d : paddr_t} {hi n : Nat} {va flags : Word}

/-- The state at a turn of a loop: nothing is mapped from the cursor on. -/
structure Cursor (start stop : paddr_t) (d : paddr_t) (k : Kernel) (va : vaddr_t) : Prop where
  good : Good ProperFlags start stop k.s k.own
  dir : (d, .pgdir) ∈ k.own
  walked : ∀ p o, (p, o) ∈ k.own → o.walked = true
  free : ∀ x : Word, va.toNat ≤ x.toNat → leafAt k.s.mem d x = none

/-- The pages that a loop of 4KB pages may still take, out of `n`: one for
each megapage from the cursor to `hi` that has no table yet. -/
def Budget (d : paddr_t) (hi n : Nat) (own : Own) (va : vaddr_t) : Prop :=
  own.length + (hi - vpn1 va) ≤ n ∨
    vpn1 va < hi ∧ (∃ t, (t, .table d (vpn1 va)) ∈ own) ∧ own.length + (hi - vpn1 va) ≤ n + 1

theorem kva_to_pa_toNat (va : Word) (h : 0x80000000 ≤ va.toNat) :
    (kva_to_pa va).toNat = va.toNat - 0x80000000 := by
  unfold kva_to_pa
  bv_omega

theorem sendsTo_direct {va x : Word} (flags : Word) (h : 0x80000000 ≤ va.toNat)
    (hx : va.toNat ≤ x.toNat) (hf : flagsOf flags = flags) :
    sendsTo va (kva_to_pa va) flags x = (x.toNat - 0x80000000, flags) := by
  have hsub : va.toNat - 0x80000000 + (x.toNat - va.toNat) = x.toNat - 0x80000000 := by omega
  unfold sendsTo
  rw [kva_to_pa_toNat va h, hf, hsub]

/-- The leaves after a stretch of the direct map from `va` to `stop`. -/
def Stretch (d : paddr_t) (m m' : Mem) (va stop : Nat) (flags : Word) : Prop :=
  ∀ x : Word, leafAt m' d x = if va ≤ x.toNat ∧ x.toNat < stop then
    some (x.toNat - 0x80000000, flags) else leafAt m d x

theorem stretch_trans {m m1 m2 : Mem} {a b c : Nat} (hab : a ≤ b) (hbc : b ≤ c)
    (h1 : Stretch d m m1 a b flags) (h2 : Stretch d m1 m2 b c flags) :
    Stretch d m m2 a c flags := by
  intro x
  rw [h2 x, h1 x]
  split_ifs <;> first | rfl | omega

theorem stretch_refl (m : Mem) (a : Nat) : Stretch d m m a a flags := by
  intro x
  rw [if_neg (by omega)]

/-- One mapping call of the direct map moves the cursor over its range. -/
theorem cursor_call (hc : Cursor start stop d k va) {e : MapCall} (he : e.va = va)
    (hpa : e.pa = kva_to_pa va) (hlow : 0x80000000 ≤ va.toNat) (hf : flagsOf e.flags = e.flags)
    (hm : MappedBy ProperFlags start stop k d e k') {next : Word}
    (hnext : next.toNat = va.toNat + e.size) :
    Cursor start stop d k' next ∧ Stretch d k.s.mem k'.s.mem va.toNat next.toNat e.flags := by
  subst he
  have hst : Stretch d k.s.mem k'.s.mem e.va.toNat next.toNat e.flags := by
    intro x
    rw [hm.leaves d hc.dir x, hnext]
    simp only [true_and]
    by_cases hx : e.Has x
    · rw [if_pos hx, if_pos (And.intro hx.1 hx.2), MapCall.goesTo, hpa,
        sendsTo_direct e.flags hlow hx.1 hf]
    · have hx' : ¬ (e.va.toNat ≤ x.toNat ∧ x.toNat < e.va.toNat + e.size) := hx
      rw [if_neg hx, if_neg hx']
  refine ⟨⟨hm.good, hm.mem_own hc.dir, ?_, ?_⟩, hst⟩
  · intro p o hpo
    rcases hm.own with ho | ⟨t, ho, -⟩
    · rw [ho] at hpo
      exact hc.walked p o hpo
    · rw [ho, List.mem_cons] at hpo
      rcases hpo with hpo | hpo
      · cases hpo; rfl
      · exact hc.walked p o hpo
  · intro x hx
    rw [hst x, if_neg (by omega)]
    exact hc.free x (by omega)

/-- One turn of a loop of 4KB pages. -/
theorem cursor_4k (hc : Cursor start stop d k va) (hb : Budget d hi n k.own va)
    (hn : n ≤ (stop.toNat - start.toNat) / 4096) (hva : va.toNat % 4096 = 0)
    (hlow : 0x80000000 ≤ va.toNat) (hhi : va.toNat < hi * 0x400000) (hmax : hi < 1024)
    (hp : ProperFlags flags) (hf : flagsOf flags = flags) :
    ∃ k', k.exec (.vm_map_4k (pa_to_kva d) va (kva_to_pa va) flags) = some (XOS_OK, k') ∧
      Cursor start stop d k' (va + PAGE_SIZE) ∧ Budget d hi n k'.own (va + PAGE_SIZE) ∧
      Stretch d k.s.mem k'.s.mem va.toNat (va + PAGE_SIZE).toNat flags := by
  have hpa := kva_to_pa_toNat va hlow
  have hnext : (va + PAGE_SIZE).toNat = va.toNat + 4096 := by bv_omega
  have hidx : vpn1 va < hi := by unfold vpn1; omega
  -- the next page is in this megapage, or it starts the next one
  have hnextidx : vpn1 (va + PAGE_SIZE) = vpn1 va ∨ vpn1 (va + PAGE_SIZE) = vpn1 va + 1 := by
    unfold vpn1
    omega
  have hroom : k.own.length < (stop.toNat - start.toNat) / 4096 ∨
      ∃ t, (t, .table d (vpn1 va)) ∈ k.own := by
    rcases hb with h | ⟨-, h, -⟩
    · left
      omega
    · exact Or.inr h
  obtain ⟨k', hr, hm, t, ht⟩ := map_page proper_leaf hc.good hc.dir (by rw [hf]; exact hp) va
    (kva_to_pa va) hva (by omega) (hc.free va le_rfl) hroom
  obtain ⟨hc', hst⟩ := cursor_call hc rfl rfl hlow hf hm hnext
  refine ⟨k', hr, hc', ?_, hst⟩
  have hlen : k'.own.length + (hi - vpn1 va) ≤ n + 1 := by
    rcases hm.own with ho | ⟨t', ho, hno⟩
    · rw [ho]
      rcases hb with h | ⟨-, -, h⟩ <;> omega
    · rw [ho, List.length_cons]
      rcases hb with h | ⟨-, ⟨t'', h⟩, -⟩
      · omega
      · exact absurd h (hno t'')
  rcases hnextidx with h | h
  · right
    rw [h]
    exact ⟨hidx, ⟨t, ht⟩, hlen⟩
  · left
    omega

/-- One turn of the loop of megapages. -/
theorem cursor_4m (hc : Cursor start stop d k va) (hva : va.toNat % 0x400000 = 0)
    (hlow : 0x80000000 ≤ va.toNat) (hmax : va.toNat + 0x400000 < 2 ^ 32) (hp : ProperFlags flags)
    (hf : flagsOf flags = flags) :
    ∃ k', k.exec (.vm_map_4m (pa_to_kva d) va (kva_to_pa va) flags) = some (XOS_OK, k') ∧
      k'.own = k.own ∧ Cursor start stop d k' (va + 0x400000) ∧
      Stretch d k.s.mem k'.s.mem va.toNat (va + 0x400000).toNat flags := by
  have hpa := kva_to_pa_toNat va hlow
  have hnext : (va + 0x400000).toNat = va.toNat + 0x400000 := by bv_omega
  obtain ⟨k', hr, ho, hm⟩ := map_mega proper_leaf hc.good hc.dir (by rw [hf]; exact hp) va
    (kva_to_pa va) hva (by omega) fun x hx => hc.free x hx.1
  obtain ⟨hc', hst⟩ := cursor_call hc rfl rfl hlow hf hm hnext
  exact ⟨k', hr, ho, hc', hst⟩

/-! ## The loops -/

theorem eq_of_not_lt {va last : Word} (h : ¬ va < last) (hle : va.toNat ≤ last.toNat) :
    va = last := by
  have : ¬ va.toNat < last.toNat := h
  apply BitVec.eq_of_toNat_eq
  omega

theorem loop_4k (last : Word) (fuel : Nat) (hc : Cursor start stop d k va)
    (hb : Budget d hi n k.own va) (hn : n ≤ (stop.toNat - start.toNat) / 4096)
    (hva : va.toNat % 4096 = 0) (hlast : last.toNat % 4096 = 0) (hlow : 0x80000000 ≤ va.toNat)
    (hle : va.toNat ≤ last.toNat) (hhi : last.toNat ≤ hi * 0x400000) (hmax : hi < 1024)
    (hp : ProperFlags flags) (hf : flagsOf flags = flags)
    (hfuel : last.toNat < va.toNat + 4096 * fuel) :
    ∃ sts k', map_while (fun va => .vm_map_4k (pa_to_kva d) va (kva_to_pa va) flags)
        PAGE_SIZE last fuel va k = some (last, sts, k') ∧
      (∀ st ∈ sts, st = XOS_OK) ∧ Cursor start stop d k' last ∧ Budget d hi n k'.own last ∧
      Stretch d k.s.mem k'.s.mem va.toNat last.toNat flags := by
  induction fuel generalizing va k with
  | zero => omega
  | succ fuel ih =>
    unfold map_while
    by_cases hlt : va < last
    · have hlt' : va.toNat < last.toNat := hlt
      obtain ⟨k1, hr, hc1, hb1, h1⟩ := cursor_4k hc hb hn hva hlow (by omega) hmax hp hf
      have hnext : (va + PAGE_SIZE).toNat = va.toNat + 4096 := by bv_omega
      obtain ⟨sts, k2, hr2, hsts, hc2, hb2, h2⟩ :=
        ih hc1 hb1 (by omega) (by omega) (by omega) (by omega)
      refine ⟨XOS_OK :: sts, k2, ?_, ?_, hc2, hb2, stretch_trans (by omega) (by omega) h1 h2⟩
      · simp only [hlt, if_true, hr, Option.bind_eq_bind, Option.bind_some, hr2]
      · simpa using hsts
    · obtain rfl := eq_of_not_lt hlt hle
      simp only [hlt, if_false]
      exact ⟨[], k, rfl, by simp, hc, hb, stretch_refl _ _⟩

theorem loop_4m (last : Word) (fuel : Nat) (hc : Cursor start stop d k va)
    (hva : va.toNat % 0x400000 = 0) (hlast : last.toNat % 0x400000 = 0)
    (hlow : 0x80000000 ≤ va.toNat) (hle : va.toNat ≤ last.toNat)
    (hmax : last.toNat ≤ 0xF0000000) (hp : ProperFlags flags) (hf : flagsOf flags = flags)
    (hfuel : last.toNat < va.toNat + 0x400000 * fuel) :
    ∃ sts k', map_while (fun va => .vm_map_4m (pa_to_kva d) va (kva_to_pa va) flags)
        0x400000 last fuel va k = some (last, sts, k') ∧
      (∀ st ∈ sts, st = XOS_OK) ∧ k'.own = k.own ∧ Cursor start stop d k' last ∧
      Stretch d k.s.mem k'.s.mem va.toNat last.toNat flags := by
  induction fuel generalizing va k with
  | zero => omega
  | succ fuel ih =>
    unfold map_while
    by_cases hlt : va < last
    · have hlt' : va.toNat < last.toNat := hlt
      obtain ⟨k1, hr, ho1, hc1, h1⟩ := cursor_4m hc hva hlow (by omega) hp hf
      have hnext : (va + 0x400000).toNat = va.toNat + 0x400000 := by bv_omega
      obtain ⟨sts, k2, hr2, hsts, ho2, hc2, h2⟩ :=
        ih hc1 (by omega) (by omega) (by omega) (by omega)
      refine ⟨XOS_OK :: sts, k2, ?_, ?_, ho2.trans ho1, hc2,
        stretch_trans (by omega) (by omega) h1 h2⟩
      · simp only [hlt, if_true, hr, Option.bind_eq_bind, Option.bind_some, hr2]
      · simpa using hsts
    · obtain rfl := eq_of_not_lt hlt hle
      simp only [hlt, if_false]
      exact ⟨[], k, rfl, by simp, rfl, hc, stretch_refl _ _⟩

end

/-! ## The start of the kernel -/

/-- The round-up of the code. -/
theorem data_end_toNat (sym : Symbols) (h : sym.image_end.toNat ≤ 0xF0000000) :
    ((sym.image_end + 0x003FFFFF) &&& 0xFFC00000).toNat = sym.data_end := by
  have hmask : ∀ x : Word, x &&& (0xFFC00000 : Word) = (x >>> 22) <<< 22 := by
    intro x
    ext i hi
    simp only [BitVec.getElem_and, BitVec.getElem_shiftLeft, BitVec.getElem_ushiftRight]
    interval_cases i <;> simp
  have hadd : (sym.image_end + 0x003FFFFF).toNat = sym.image_end.toNat + 0x3FFFFF := by bv_omega
  rw [hmask]
  unfold Symbols.data_end
  simp only [BitVec.toNat_shiftLeft, BitVec.toNat_ushiftRight, Nat.shiftRight_eq_div_pow,
    Nat.shiftLeft_eq, hadd]
  omega

/-- What `start` leaves behind: the directory is the page `d`, every call
returned `XOS_OK`, and the leaves are the kernel map. -/
structure StartedAt (sym : Symbols) (r : Started) (d : paddr_t) : Prop where
  good : Good ProperFlags (kva_to_pa sym.image_end) (kva_to_pa sym.memory_top - 2 * PAGE_SIZE)
    r.k.s r.k.own
  dir : (d, .pgdir) ∈ r.k.own
  walked : ∀ p o, (p, o) ∈ r.k.own → o.walked = true
  few : r.k.own.length ≤ sym.tables + 1
  kpgdir : r.kpgdir = pa_to_kva d
  satp : r.satp = SATP_MODE_SV32 ||| (d >>> 12)
  cursors : r.cursors.map (·.toNat) =
    [sym.rodata_start.toNat, sym.data_start.toNat, sym.data_end, sym.memory_top.toNat]
  statuses : ∀ st ∈ r.statuses, st = XOS_OK
  leaves : ∀ x, leafAt r.k.s.mem d x = kernelMap sym x

/-- The four stretches of the direct map and the device registers, on an empty
directory, are the kernel map. -/
theorem kernelMap_of_stretches (L : Layout) {d : paddr_t} {m0 m1 m2 m3 m4 m5 : Mem}
    (h0 : ∀ x, leafAt m0 d x = none)
    (h1 : Stretch d m0 m1 L.text_start.toNat L.rodata_start.toNat KERNEL_RX)
    (h2 : Stretch d m1 m2 L.rodata_start.toNat L.data_start.toNat KERNEL_RO)
    (h3 : Stretch d m2 m3 L.data_start.toNat L.data_end KERNEL_RW)
    (h4 : Stretch d m3 m4 L.data_end L.memory_top.toNat KERNEL_RW)
    (h5 : ∀ x, leafAt m5 d x = if Covers 0xF0000000 0x400000 x then
      some (sendsTo 0xF0000000 0xF0000000 KERNEL_RW x) else leafAt m4 d x)
    (h34 : L.data_start.toNat ≤ L.data_end ∧ L.data_end ≤ L.memory_top.toNat) (x : Word) :
    leafAt m5 d x = kernelMap L.toSymbols x := by
  have hdev : (0xF0000000 : Word).toNat = 0xF0000000 := by decide
  have hf : flagsOf KERNEL_RW = KERNEL_RW := by decide
  have hcov : Covers 0xF0000000 0x400000 x ↔ 0xF0000000 ≤ x.toNat ∧ x.toNat < 0xF0400000 := by
    unfold Covers
    rw [hdev]
  have hhigh := L.high
  have htext := L.text_rodata
  have hrodata := L.rodata_data
  rw [h5 x, h4 x, h3 x, h2 x, h1 x, h0 x]
  unfold kernelMap
  by_cases hx : Covers 0xF0000000 0x400000 x
  · have hle := hx.1
    have hx' := hcov.mp hx
    have hsend : sendsTo 0xF0000000 0xF0000000 KERNEL_RW x = (x.toNat, KERNEL_RW) := by
      unfold sendsTo
      rw [hf, Nat.add_sub_cancel' hle]
    rw [if_pos hx, hsend, if_neg (by omega), if_neg (by omega), if_neg (by omega), if_pos hx']
  · have hx' := mt hcov.mpr hx
    rw [if_neg hx]
    split_ifs <;> try omega
    all_goals rfl

theorem start.spec (L : Layout) (m : Mem) :
    ∃ r d, start L.toSymbols m = some r ∧ StartedAt L.toSymbols r d := by
  have htext := L.text_aligned
  have hrodata := L.rodata_aligned
  have hdata := L.data_aligned
  have himage := L.image_aligned
  have htr := L.text_rodata
  have hrd := L.rodata_data
  have hdi := L.data_image
  have hlow := L.low
  have htop := L.top_aligned
  have hhigh := L.high
  have hroom := L.room
  unfold PageAligned at htext hrodata hdata himage
  have himg := kva_to_pa_toNat L.image_end (by omega)
  have hmem := kva_to_pa_toNat L.memory_top (by omega)
  have hstop : (kva_to_pa L.memory_top - 2 * PAGE_SIZE).toNat =
      L.memory_top.toNat - 0x80000000 - 8192 := by bv_omega
  have hend : L.image_end.toNat ≤ L.data_end ∧ L.data_end ≤ L.memory_top.toNat ∧
      L.data_end % 0x400000 = 0 := by
    unfold Symbols.data_end
    omega
  obtain ⟨hend1, hend2, hend3⟩ := hend
  have hlast := data_end_toNat L.toSymbols (by omega)
  set start := kva_to_pa L.image_end with hstart
  set stop := kva_to_pa L.memory_top - 2 * PAGE_SIZE with hstopdef
  set last := (L.image_end + 0x003FFFFF) &&& 0xFFC00000 with hlastdef
  have hpages : 1 + L.tables ≤ (stop.toNat - start.toNat) / 4096 := by omega
  -- the directory
  have hg0 : Good ProperFlags start stop (Kernel.boot m start stop).s
      (Kernel.boot m start stop).own :=
    good_boot m (by unfold PageAligned; omega) (by unfold PageAligned; omega) (by omega)
  have hown0 : (Kernel.boot m start stop).own.length = 0 := rfl
  obtain ⟨d, k0, ha, ht⟩ := Kernel.kpage_alloc_z.spec proper_leaf hg0 (by omega) true
  have hdir : (d, .pgdir) ∈ k0.own := by
    rw [ht.own]
    exact List.mem_cons_self
  have hempty : ∀ x, leafAt k0.s.mem d x = none := by
    intro x
    apply leafAt_invalid
    rw [pte_zeroed ht.fresh.aligned (vpn1_lt x) ht.fresh.zero]
    rfl
  have hc0 : Cursor start stop d k0 L.text_start := by
    refine ⟨ht.good, hdir, ?_, fun x _ => hempty x⟩
    intro p o hpo
    rw [ht.own, show (Kernel.boot m start stop).own = [] from rfl, List.mem_singleton] at hpo
    cases hpo
    rfl
  have hb0 : Budget d (L.data_end / 0x400000) (1 + L.tables) k0.own L.text_start := by
    left
    rw [ht.own, List.length_cons, hown0]
    unfold Symbols.tables
    omega
  -- the four loops
  have hRX : ProperFlags KERNEL_RX := by unfold ProperFlags LeafFlags; decide
  have hRO : ProperFlags KERNEL_RO := by unfold ProperFlags LeafFlags; decide
  have hRW : ProperFlags KERNEL_RW := by unfold ProperFlags LeafFlags; decide
  obtain ⟨sts1, k1, hr1, hk1, hc1, hb1, hst1⟩ := loop_4k L.rodata_start TURNS hc0 hb0 hpages htext
    hrodata (by omega) htr (by omega) (by omega) hRX (by decide) (by unfold TURNS; omega)
  obtain ⟨sts2, k2, hr2, hk2, hc2, hb2, hst2⟩ := loop_4k L.data_start TURNS hc1 hb1 hpages hrodata
    hdata (by omega) hrd (by omega) (by omega) hRO (by decide) (by unfold TURNS; omega)
  obtain ⟨sts3, k3, hr3, hk3, hc3, hb3, hst3⟩ := loop_4k last TURNS hc2 hb2 hpages hdata
    (by omega) (by omega) (by omega) (by omega) (by omega) hRW (by decide) (by unfold TURNS; omega)
  obtain ⟨sts4, k4, hr4, hk4, ho4, hc4, hst4⟩ := loop_4m L.memory_top TURNS hc3 (by omega) htop
    (by omega) (by omega) hhigh hRW (by decide) (by unfold TURNS; omega)
  -- the device registers
  have hdev : (0xF0000000 : Word).toNat = 0xF0000000 := by decide
  have hfRW : ProperFlags (flagsOf KERNEL_RW) := by unfold ProperFlags LeafFlags; decide
  obtain ⟨k5, hr5, ho5, hm5⟩ := map_mega proper_leaf hc4.good hc4.dir hfRW 0xF0000000 0xF0000000
    (by decide) (by decide) fun x hx => hc4.free x (hhigh.trans hx.1)
  refine ⟨⟨pa_to_kva d, [L.rodata_start, L.data_start, last, L.memory_top],
    sts1 ++ sts2 ++ sts3 ++ sts4 ++ [XOS_OK],
    SATP_MODE_SV32 ||| (kva_to_pa (pa_to_kva d) >>> 12), k5⟩, d, ?_, ?_⟩
  · refine Option.bind_eq_some_iff.mpr ⟨(pa_to_kva d, k0), ha, ?_⟩
    refine Option.bind_eq_some_iff.mpr ⟨(L.rodata_start, sts1, k1), hr1, ?_⟩
    refine Option.bind_eq_some_iff.mpr ⟨(L.data_start, sts2, k2), hr2, ?_⟩
    refine Option.bind_eq_some_iff.mpr ⟨(last, sts3, k3), hr3, ?_⟩
    refine Option.bind_eq_some_iff.mpr ⟨(L.memory_top, sts4, k4), hr4, ?_⟩
    exact Option.bind_eq_some_iff.mpr ⟨(XOS_OK, k5), hr5, rfl⟩
  · refine ⟨hm5.good, hm5.mem_own hc4.dir, ?_, ?_, rfl, ?_, ?_, ?_, ?_⟩
    · rw [ho5]
      exact hc4.walked
    · dsimp only
      rw [ho5, ho4]
      have hidx : vpn1 last = L.data_end / 0x400000 := by
        unfold vpn1
        rw [hlast]
      rcases hb3 with h | ⟨h, -, -⟩ <;> omega
    · rw [kva_to_pa_to_kva]
    · simp [hlast]
    · intro st hst
      simp only [List.mem_append, List.mem_singleton] at hst
      rcases hst with (((h | h) | h) | h) | h
      · exact hk1 st h
      · exact hk2 st h
      · exact hk3 st h
      · exact hk4 st h
      · exact h
    · rw [hlast] at hst3 hst4
      have hl5 := hm5.leaves d hc4.dir
      simp only [true_and] at hl5
      exact kernelMap_of_stretches L hempty hst1 hst2 hst3 hst4 hl5 ⟨by omega, hend2⟩

/-! ## The memory outside the pool -/

/-- The bounds that `start` gives the allocator. -/
theorem layout_good {P : Word → Prop} (L : Layout) (m : Mem) :
    Good P (kva_to_pa L.image_end) (kva_to_pa L.memory_top - 2 * PAGE_SIZE)
      (Kernel.boot m (kva_to_pa L.image_end) (kva_to_pa L.memory_top - 2 * PAGE_SIZE)).s
      (Kernel.boot m (kva_to_pa L.image_end) (kva_to_pa L.memory_top - 2 * PAGE_SIZE)).own ∧
    0 < ((kva_to_pa L.memory_top - 2 * PAGE_SIZE).toNat - (kva_to_pa L.image_end).toNat) / 4096 := by
  have himage := L.image_aligned
  have h1 := L.low
  have h2 := L.text_rodata
  have h3 := L.rodata_data
  have h4 := L.data_image
  have htop := L.top_aligned
  have hroom := L.room
  unfold PageAligned at himage
  have himg := kva_to_pa_toNat L.image_end (by omega)
  have hmem := kva_to_pa_toNat L.memory_top (by omega)
  have hstop : (kva_to_pa L.memory_top - 2 * PAGE_SIZE).toNat =
      L.memory_top.toNat - 0x80000000 - 8192 := by bv_omega
  refine ⟨good_boot m ?_ ?_ ?_, ?_⟩
  · unfold PageAligned
    omega
  · unfold PageAligned
    omega
  · omega
  · omega

/-- `start` writes to no memory outside the pool. -/
theorem start_keeps (L : Layout) {m : Mem} {r : Started} (hr : start L.toSymbols m = some r)
    (x : Word) (hx : x.toNat < (kva_to_pa L.image_end).toNat ∨
      (kva_to_pa L.memory_top - 2 * PAGE_SIZE).toNat ≤ x.toNat) : r.k.s.mem x = m x := by
  have hP : ∀ f, LeafFlags f → LeafFlags f := fun _ h => h
  obtain ⟨hg, hroom⟩ := layout_good L m
  obtain ⟨d, k0, ha, ht⟩ := Kernel.kpage_alloc_z.spec hP hg hroom true
  have hRX : LeafFlags (flagsOf KERNEL_RX) := by unfold LeafFlags; decide
  have hRO : LeafFlags (flagsOf KERNEL_RO) := by unfold LeafFlags; decide
  have hRW : LeafFlags (flagsOf KERNEL_RW) := by unfold LeafFlags; decide
  obtain ⟨⟨kpgdir, k0'⟩, ha', hr⟩ := Option.bind_eq_some_iff.mp hr
  obtain ⟨rfl, rfl⟩ := Prod.mk.inj (Option.some.inj (ha.symm.trans ha'))
  obtain ⟨⟨va1, sts1, k1⟩, hr1, hr⟩ := Option.bind_eq_some_iff.mp hr
  obtain ⟨⟨va2, sts2, k2⟩, hr2, hr⟩ := Option.bind_eq_some_iff.mp hr
  obtain ⟨⟨va3, sts3, k3⟩, hr3, hr⟩ := Option.bind_eq_some_iff.mp hr
  obtain ⟨⟨va4, sts4, k4⟩, hr4, hr⟩ := Option.bind_eq_some_iff.mp hr
  obtain ⟨⟨st5, k5⟩, hr5, hr⟩ := Option.bind_eq_some_iff.mp hr
  have hk : r.k = k5 := congrArg Started.k (Option.some.inj hr).symm
  have hd0 : (d, .pgdir) ∈ k0.own := by
    rw [ht.own]
    exact List.mem_cons_self
  have hk0 := keeps_took hg.pool ht
  obtain ⟨hg1, hk1⟩ := keeps_while (fun va => ⟨false, va, kva_to_pa va, KERNEL_RX⟩) hP
    (fun _ => hRX) TURNS ht.good hd0 hr1
  have hd1 := hk1.own _ hd0
  obtain ⟨hg2, hk2⟩ := keeps_while (fun va => ⟨false, va, kva_to_pa va, KERNEL_RO⟩) hP
    (fun _ => hRO) TURNS hg1 hd1 hr2
  have hd2 := hk2.own _ hd1
  obtain ⟨hg3, hk3⟩ := keeps_while (fun va => ⟨false, va, kva_to_pa va, KERNEL_RW⟩) hP
    (fun _ => hRW) TURNS hg2 hd2 hr3
  have hd3 := hk3.own _ hd2
  obtain ⟨hg4, hk4⟩ := keeps_while (fun va => ⟨true, va, kva_to_pa va, KERNEL_RW⟩) hP
    (fun _ => hRW) TURNS hg3 hd3 hr4
  have hk5 := keeps_exec hP hg4 (MapCall.call_allowed
    (e := ⟨true, 0xF0000000, 0xF0000000, KERNEL_RW⟩) (hk4.own _ hd3) hRW) (by simp [MapCall.call])
    hr5
  rw [hk]
  exact (hk0.trans (hk1.trans (hk2.trans (hk3.trans (hk4.trans hk5))))).outside x hx

/-! ## The pages still to hand out -/

/-- The page that the allocator hands out after `n` others. -/
def nth_page : Nat → Vmm → Option (paddr_t × Vmm)
  | 0, s => ppage_alloc_z s
  | n + 1, s => do
    let (_, s) ← ppage_alloc_z s
    nth_page n s

theorem nth_page_inside {start stop : paddr_t} {s s' : Vmm} {own : Own} {p : paddr_t} (n : Nat)
    (h : Pool start stop s own) (hn : nth_page n s = some (p, s')) :
    PageAligned p ∧ start.toNat ≤ p.toNat ∧ p.toNat + 4096 ≤ s.pa_top.toNat := by
  induction n generalizing s own with
  | zero =>
    obtain ⟨hfr, hpool⟩ := ppage_alloc_z_some h hn
    have hlow := (hpool .page).low
    rw [hfr.top] at hlow
    exact ⟨hfr.aligned, hlow, hfr.down.le⟩
  | succ n ih =>
    unfold nth_page at hn
    rcases ha : ppage_alloc_z s with _ | ⟨t, s1⟩
    · rw [ha] at hn
      cases hn
    · rw [ha] at hn
      obtain ⟨hfr, hpool⟩ := ppage_alloc_z_some h ha
      obtain ⟨h1, h2, h3⟩ := ih (hpool .page) hn
      have htop := hfr.top
      have hdown := hfr.down
      rw [htop] at h3
      exact ⟨h1, h2, by omega⟩

/-! ## The law -/

/-- No page of the kernel map is writable and executable. -/
theorem kernelMap_w_xor_x {sym : Symbols} {x : Word} {p : Nat} {f : Word}
    (h : kernelMap sym x = some (p, f)) : ¬ (has f PTE_W = true ∧ has f PTE_X = true) := by
  unfold kernelMap at h
  have key : ∀ q g, some (q, g) = some (p, f) → (has g PTE_W = true ∧ has g PTE_X = true) = False →
      ¬ (has f PTE_W = true ∧ has f PTE_X = true) := by
    intro q g hq hg
    rw [← (Prod.mk.inj (Option.some.inj hq)).2, hg]
    exact not_false
  split_ifs at h
  · exact key _ _ h (by decide)
  · exact key _ _ h (by decide)
  · exact key _ _ h (by decide)
  · exact key _ _ h (by decide)

/-- The root that the hardware takes from the register. -/
theorem satpRoot_of_dir {d : paddr_t} (hd : PageAligned d) :
    satpSv32 (SATP_MODE_SV32 ||| (d >>> 12)) = true ∧
      satpRoot (SATP_MODE_SV32 ||| (d >>> 12)) = d.toNat := by
  unfold PageAligned at hd
  have hor : (SATP_MODE_SV32 ||| (d >>> 12)).toNat = 2 ^ 31 + d.toNat / 4096 := by
    have hmode : SATP_MODE_SV32.toNat = 2 ^ 31 * 1 := by decide
    have hlt : d.toNat / 4096 < 2 ^ 31 := by omega
    rw [BitVec.toNat_or, BitVec.toNat_ushiftRight, Nat.shiftRight_eq_div_pow,
      show 2 ^ 12 = 4096 from rfl, hmode, ← Nat.two_pow_add_eq_or_of_lt hlt, Nat.mul_one]
  unfold satpSv32 satpRoot
  rw [hor]
  refine ⟨?_, by omega⟩
  simp only [decide_eq_true_eq]
  omega

/-- For every layout, `start` does not panic, each of its mapping calls
succeeds, and each loop ends on its boundary. Under the `satp` that it writes,
the walk is the kernel map, and no page is both writable and executable. Every
page that the allocator can still hand out is mapped read-write at its kernel
address. -/
theorem start_builds_the_kernel_map (L : Layout) (m : Mem) :
    ∃ r, start L.toSymbols m = some r ∧
      (∀ st ∈ r.statuses, st = XOS_OK) ∧
      r.cursors.map (·.toNat) = [L.rodata_start.toNat, L.data_start.toNat, L.data_end,
        L.memory_top.toNat] ∧
      satpSv32 r.satp = true ∧
      (∀ x, walk r.k.s.mem (satpRoot r.satp) x = kernelMap L.toSymbols x) ∧
      (∀ x p f, walk r.k.s.mem (satpRoot r.satp) x = some (p, f) →
        ¬ (has f PTE_W = true ∧ has f PTE_X = true)) ∧
      ∀ n p s', nth_page n r.k.s = some (p, s') → ∀ x : Word,
        (pa_to_kva p).toNat ≤ x.toNat → x.toNat < (pa_to_kva p).toNat + 4096 →
        walk r.k.s.mem (satpRoot r.satp) x =
          some (p.toNat + (x.toNat - (pa_to_kva p).toNat), KERNEL_RW) := by
  obtain ⟨r, d, hr, h⟩ := start.spec L m
  obtain ⟨hsv, hroot⟩ := satpRoot_of_dir (pool_aligned h.good.pool h.dir)
  rw [← h.satp] at hsv hroot
  have hwalk : ∀ x, walk r.k.s.mem (satpRoot r.satp) x = kernelMap L.toSymbols x := by
    intro x
    rw [hroot, walk_eq_leafAt h.good h.dir, h.leaves]
  refine ⟨r, hr, h.statuses, h.cursors, hsv, hwalk, ?_, ?_⟩
  · intro x p f hx
    rw [hwalk] at hx
    exact kernelMap_w_xor_x hx
  · intro n p s' hn x h1 h2
    obtain ⟨hp, hlo, hhi⟩ := nth_page_inside n h.good.pool hn
    have htop := h.good.pool.top
    have hl1 := L.low
    have hl2 := L.text_rodata
    have hl3 := L.rodata_data
    have hl4 := L.data_image
    have hl5 := L.high
    have hl6 := L.room
    have himg := kva_to_pa_toNat L.image_end (by omega)
    have hmem := kva_to_pa_toNat L.memory_top (by omega)
    have hstop : (kva_to_pa L.memory_top - 2 * PAGE_SIZE).toNat =
        L.memory_top.toNat - 0x80000000 - 8192 := by bv_omega
    have hkva : (pa_to_kva p).toNat = p.toNat + 0x80000000 := by
      unfold pa_to_kva
      bv_omega
    rw [hwalk]
    unfold kernelMap
    rw [if_neg (by omega), if_neg (by omega), if_pos (by omega)]
    have hoff : x.toNat - 0x80000000 = p.toNat + (x.toNat - (pa_to_kva p).toNat) := by omega
    rw [hoff]

/-- A kernel of 32KB in 32MB of memory. -/
def board : Layout where
  text_start := 0xC0000000
  rodata_start := 0xC0004000
  data_start := 0xC0006000
  image_end := 0xC0008000
  memory_top := 0xC2000000
  text_aligned := by decide
  rodata_aligned := by decide
  data_aligned := by decide
  image_aligned := by decide
  text_rodata := by decide
  rodata_data := by decide
  data_image := by decide
  low := by decide
  top_aligned := by decide
  high := by decide
  room := by decide

theorem start_builds_the_kernel_map_of_the_board :
    ∃ r, start board.toSymbols (fun _ => 0) = some r ∧
      walk r.k.s.mem (satpRoot r.satp) 0xC0001234 = some (0x40001234, KERNEL_RX) ∧
      walk r.k.s.mem (satpRoot r.satp) 0xC0400000 = some (0x40400000, KERNEL_RW) := by
  obtain ⟨r, hr, -, -, -, hwalk, -⟩ := start_builds_the_kernel_map board (fun _ => 0)
  exact ⟨r, hr, (hwalk _).trans (by decide), (hwalk _).trans (by decide)⟩

end os_workshop.vmm
