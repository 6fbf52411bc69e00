-- The law of the hand-over: what the boot page directory translates, and that
-- the directory that `start` installs instead agrees with it on the memory of
-- the kernel and on the device registers.
import OsWorkshop.BootDirectory
import OsWorkshop.KernelMap

open os_workshop.memory os_workshop.sv32 os_workshop.rv32 os_workshop.vmm

namespace os_workshop.boot

/-! ## The boot map -/

/-- What the boot page directory says of an address. -/
def bootMap (memory_top x : Word) : Option (Nat × Word) :=
  if 0x40000000 ≤ x.toNat ∧ x.toNat < 0x40400000 then some (x.toNat, PTE_BITS_RWX)
  else if 0xC0000000 ≤ x.toNat ∧ x.toNat < memory_top.toNat then
    some (x.toNat - 0x80000000, PTE_BITS_RWX)
  else if 0xF0000000 ≤ x.toNat ∧ x.toNat < 0xF0400000 then some (x.toNat, PTE_BITS_RW)
  else none

section

variable {m : Mem} {p x : Word}

theorem flagsOf_toNat (e : Word) : (flagsOf e).toNat = e.toNat % 1024 :=
  and_toNat e 10 (by omega)

theorem ramEntry_toNat {n : Nat} (hn : n < 192) : (ramEntry n).toNat = 0x100000CF + n * 0x100000 := by
  unfold ramEntry
  rw [BitVec.toNat_ofNat]
  omega

theorem flagsOf_ramEntry {n : Nat} (hn : n < 192) : flagsOf (ramEntry n) = PTE_BITS_RWX := by
  apply BitVec.eq_of_toNat_eq
  rw [flagsOf_toNat, ramEntry_toNat hn, show PTE_BITS_RWX.toNat = 0xCF by decide]
  omega

theorem ppn_ramEntry {n : Nat} (hn : n < 192) : ppn (ramEntry n) = 0x40000 + n * 0x400 := by
  unfold ppn
  rw [ramEntry_toNat hn]
  omega

/-- The walk through an entry that is a proper megapage. -/
theorem walk_of_entry {e : Word} (hp : PageAligned p) (h : pte m p (vpn1 x) = e)
    (hf : ProperFlags (flagsOf e)) (hlt : ppn e < 2 ^ 20) (ha : ppn e % 0x400 = 0) :
    walk m p.toNat x = some (ppn e * 0x1000 + x.toNat % 0x400000, flagsOf e) := by
  subst h
  obtain ⟨h1, h2⟩ := proper_walks ⟨hf, hlt⟩
  exact walk_of_mega hp h1 h2 ha

theorem walk_ram {n : Nat} (hp : PageAligned p) (hn : n < 192)
    (h : pte m p (vpn1 x) = ramEntry n) :
    walk m p.toNat x = some (0x40000000 + n * 0x400000 + x.toNat % 0x400000, PTE_BITS_RWX) := by
  have hppn := ppn_ramEntry hn
  have hrwx : ProperFlags (flagsOf (ramEntry n)) := by
    rw [flagsOf_ramEntry hn]
    unfold ProperFlags LeafFlags
    decide
  rw [walk_of_entry hp h hrwx (by omega) (by omega), hppn, flagsOf_ramEntry hn]
  congr 2
  omega

/-- The walk of the entries is the boot map. -/
theorem walk_boot {k : Linked} (h : ∀ i < 1024, pte m k.pdir i = bootEntry k.memory_top i) (x : Word) :
    walk m k.pdir.toNat x = bootMap k.memory_top x := by
  have hp := k.pdir_aligned
  have hlow := k.top_low
  have htop := k.top_aligned
  have hhigh := k.top_high
  have hpte := h (vpn1 x) (vpn1_lt x)
  have hv : vpn1 x = x.toNat / 0x400000 := rfl
  unfold bootEntry at hpte
  unfold bootMap
  by_cases h1 : vpn1 x = 256
  · rw [if_pos h1] at hpte
    have hto : 0x40000000 + 0 * 0x400000 + x.toNat % 0x400000 = x.toNat := by omega
    rw [walk_ram hp (by omega) hpte, if_pos (by omega), hto]
  rw [if_neg h1] at hpte
  rw [if_neg (by omega)]
  by_cases h2 : 768 ≤ vpn1 x ∧ vpn1 x < k.memory_top.toNat / 0x400000
  · rw [if_pos h2] at hpte
    have hto : 0x40000000 + (vpn1 x - 768) * 0x400000 + x.toNat % 0x400000 =
        x.toNat - 0x80000000 := by omega
    rw [walk_ram hp (by omega) hpte, if_pos (by omega), hto]
  rw [if_neg h2] at hpte
  rw [if_neg (by omega)]
  by_cases h3 : vpn1 x = 960
  · rw [if_pos h3] at hpte
    have hrw : ProperFlags (flagsOf 0x3C0000C7) := by
      unfold ProperFlags LeafFlags
      decide
    have hto : 0xF0000 * 0x1000 + x.toNat % 0x400000 = x.toNat := by omega
    rw [walk_of_entry hp hpte hrw (by decide) (by decide), if_pos (by omega),
      show ppn 0x3C0000C7 = 0xF0000 by decide, show flagsOf 0x3C0000C7 = PTE_BITS_RW by decide, hto]
  · rw [if_neg h3] at hpte
    rw [if_neg (by omega)]
    exact walk_of_faulty hp (by rw [hpte]; decide)

end

/-! ## The law -/

/-- The addresses that the kernel uses across the switch: its own memory, and
the device registers. -/
def InUse (sym : Symbols) (x : Word) : Prop :=
  sym.text_start.toNat ≤ x.toNat ∧ x.toNat < sym.memory_top.toNat ∨
    0xF0000000 ≤ x.toNat ∧ x.toNat < 0xF0400000

/-- Both directories lead an address to the same place. -/
def SamePlace (m : Mem) (root root' : Nat) (x : Word) : Prop :=
  ∃ p f f', walk m root x = some (p, f) ∧ walk m root' x = some (p, f')

theorem kernelMap_inUse (L : Layout) {x : Word} (hx : InUse L.toSymbols x) :
    ∃ p f f', bootMap L.memory_top x = some (p, f) ∧ kernelMap L.toSymbols x = some (p, f') := by
  have h1 := L.low
  have h2 := L.text_rodata
  have h3 := L.rodata_data
  have h4 := L.data_image
  have h5 := L.high
  have h6 := L.room
  unfold InUse at hx
  unfold bootMap kernelMap
  rw [if_neg (by omega)]
  rcases hx with hx | hx
  · rw [if_pos (by omega)]
    split_ifs with h7 h8 h9 h10
    · exact ⟨_, _, _, rfl, rfl⟩
    · exact ⟨_, _, _, rfl, rfl⟩
    · exact ⟨_, _, _, rfl, rfl⟩
    · omega
    · omega
  · rw [if_neg (by omega), if_pos hx, if_neg (by omega), if_neg (by omega), if_neg (by omega),
      if_pos hx]
    exact ⟨_, _, _, rfl, rfl⟩

/-- The boot directory is outside the pool, so `start` leaves it as it is. -/
theorem boot_entries_kept {k : Linked} (L : Layout) (ht : L.memory_top = k.memory_top) {m : Mem}
    {r : Started} (hr : vmm.start L.toSymbols m = some r) {i : Nat} (hi : i < 1024) :
    pte r.k.s.mem k.pdir i = pte m k.pdir i := by
  apply pte_congr k.pdir_aligned hi
  intro x hx
  apply start_keeps L hr x
  right
  rw [ht]
  exact hx.1

/-- For every top of the memory and every bss, every run of the start-up code
goes on to the jump to `start`. The directory that it leaves two pages below the top translates
exactly the boot map, and its own code stays as it was. For every layout with that top, when
`start` writes its own directory to `satp`, the boot directory still stands, and
the two lead each address in use to the same place. -/
theorem the_hand_over_moves_nothing (k : Linked) (d : Data) (hw : Words k d.mem) :
    ∃ t, k.Path ⟨k.im.loc 0, d⟩ t ∧ t.pc = k.start ∧
      (∀ u, k.Path ⟨k.im.loc 0, d⟩ u → k.Path u t) ∧
      (∀ x, Code k.im x → t.d.mem x = d.mem x) ∧
      satpSv32 (t.d.csr .satp) = true ∧
      satpRoot (t.d.csr .satp) = k.memory_top.toNat - 0x80000000 - 2 * 4096 ∧
      (∀ x, walk t.d.mem (satpRoot (t.d.csr .satp)) x = bootMap k.memory_top x) ∧
      ∀ L : Layout, L.memory_top = k.memory_top →
        ∃ r, vmm.start L.toSymbols t.d.mem = some r ∧
          ∀ x, InUse L.toSymbols x →
            SamePlace r.k.s.mem (satpRoot (t.d.csr .satp)) (satpRoot r.satp) x := by
  obtain ⟨t, hrun, ht⟩ := boots k d hw
  obtain ⟨hsv, hroot⟩ := satpRoot_of_dir k.pdir_aligned
  rw [← ht.satp] at hsv hroot
  have hend : k.im.fetch t.pc = none := by
    rw [ht.pc]
    unfold Image.fetch
    rw [List.find?_eq_none]
    intro i hi he
    have hlow := k.code_low (k.im.loc i)
      (Or.inl ⟨i, List.mem_range.mp hi, by rw [dist_self]; omega⟩)
    have hstart := k.start_high
    rw [beq_iff_eq.mp he] at hlow
    omega
  refine ⟨t, hrun, ht.pc, fun u hu => path_to_end hrun hend hu,
    fun x hx => ht.frame x (k.code_dir x hx) (k.code_bss x hx), hsv, ?_, ?_, ?_⟩
  · rw [hroot, k.pdir_toNat]
  · intro x
    rw [hroot]
    exact walk_boot ht.entries x
  · intro L hL
    obtain ⟨r, dir, hr, h⟩ := start.spec L t.d.mem
    obtain ⟨-, hroot'⟩ := satpRoot_of_dir (pool_aligned h.good.pool h.dir)
    rw [← h.satp] at hroot'
    refine ⟨r, hr, ?_⟩
    intro x hx
    obtain ⟨p, f, f', h1, h2⟩ := kernelMap_inUse L hx
    refine ⟨p, f, f', ?_, ?_⟩
    · rw [hroot, walk_boot (fun i hi => (boot_entries_kept L hL hr hi).trans (ht.entries i hi)), ← hL, h1]
    · rw [hroot', walk_eq_leafAt h.good h.dir, h.leaves, h2]

/-! ## The kernel of the board -/

/-- The bytes of a text of 45 instructions at 0x40008000, and of its two words. -/
theorem board_code {x : Word} (h : (∃ i < text.length,
    dist (0x40008000 + BitVec.ofNat 32 (4 * i)) x < 4) ∨ dist 0x400080B4 x < 4 ∨
      dist 0x400080B8 x < 4) : 0x40008000 ≤ x.toNat ∧ x.toNat < 0x400080BC := by
  have hlen : text.length = 45 := rfl
  unfold memory.dist at h
  rcases h with ⟨i, hi, h⟩ | h | h <;> bv_omega

/-- The start-up code of a kernel at 0xC0008000 in 32MB of memory. -/
def boardStart : Linked where
  im :=
    { text := text
      loc := fun i => 0x40008000 + BitVec.ofNat 32 (4 * i)
      addr := fun l => match l with
        | .start_sp => 0x400080B4
        | .start_pc => 0x400080B8
        | .bss_start => 0x4000A000
        | .bss_end => 0x4000A010
        | .memory_top => 0x42000000
        | l => 0x40008000 + BitVec.ofNat 32 (4 * (place l).getD 0)
      loc_inj := by
        intro i j hi hj h
        have hlen : text.length = 45 := rfl
        bv_omega }
  bss_start := 0xC000A000
  bss_end := 0xC000A010
  memory_top := 0xC2000000
  start := 0xC0008100
  text_eq := rfl
  labels := by
    intro l i h
    cases l <;> first | (cases h; rfl) | cases h
  la_bss_start := rfl
  la_bss_end := rfl
  la_memory_top := rfl
  bss_start_aligned := rfl
  bss_end_aligned := rfl
  top_aligned := rfl
  top_low := by decide
  top_high := board.high
  start_high := by decide
  start_even := rfl
  code_low := by
    intro x hx
    have hin := board_code hx
    omega
  code_bss := by
    intro x hx
    have hin := board_code hx
    unfold memory.dist kva_to_pa
    bv_omega
  code_dir := by
    intro x hx
    have hin := board_code hx
    have hdir : (kva_to_pa 0xC2000000 - 2 * PAGE_SIZE).toNat = 0x41FFE000 := by decide
    unfold InPage
    omega

/-- The memory with the two words of that code. -/
def boardMem : Mem := st32 (st32 (fun _ => 0) 0x400080B4 0xC2000000) 0x400080B8 0xC0008100

theorem boardMem_words : Words boardStart boardMem := by
  refine ⟨?_, ld32_st32_same _ _ _⟩
  exact (ld32_st32_apart _ _ _ _ (by decide)).trans (ld32_st32_same _ _ _)

theorem the_board_is_handed_over :
    ∃ t, boardStart.Path ⟨0x40008000, ⟨fun _ => 0, fun _ => 0, boardMem⟩⟩ t ∧ t.pc = 0xC0008100 ∧
      walk t.d.mem (satpRoot (t.d.csr .satp)) 0xC0001234 = some (0x40001234, PTE_BITS_RWX) ∧
      ∃ r, vmm.start board.toSymbols t.d.mem = some r ∧
        SamePlace r.k.s.mem (satpRoot (t.d.csr .satp)) (satpRoot r.satp) 0xC0001234 := by
  obtain ⟨t, hrun, hpc, -, -, -, -, hwalk, hover⟩ :=
    the_hand_over_moves_nothing boardStart ⟨fun _ => 0, fun _ => 0, boardMem⟩ boardMem_words
  obtain ⟨r, hr, hsame⟩ := hover board rfl
  exact ⟨t, hrun, hpc, (hwalk _).trans (by decide), r, hr, hsame _ (Or.inl (by decide))⟩

end os_workshop.boot
