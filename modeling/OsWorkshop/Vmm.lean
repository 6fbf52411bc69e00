-- The page allocator and the two mapping calls of xos/src/vmm.c, over the
-- physical memory. A kernel pointer `kva` reads and writes the physical
-- address `kva_to_pa kva`, as the direct map of the kernel says.
import OsWorkshop.Sv32

open os_workshop.memory os_workshop.sv32

namespace os_workshop.vmm

/-! ## The code -/

abbrev paddr_t := Word
abbrev vaddr_t := Word
abbrev status_t := Word

abbrev XOS_OK : status_t := 0x0000
abbrev XOS_ERR_CONFLICT : status_t := 0x0085
abbrev XOS_ERR_BAD_PARAM : status_t := 0x0040

abbrev PAGE_SIZE : Word := 4096
abbrev KVA_BASE : Word := 0xC0000000
abbrev KPA_BASE : Word := 0x40000000

def pa_to_kva (pa : paddr_t) : Word := pa + (KVA_BASE - KPA_BASE)
def kva_to_pa (kva : Word) : paddr_t := kva - (KVA_BASE - KPA_BASE)

/-- The physical memory and the two words of the allocator. `handed` is not
in the code: it records what `ppage_alloc_z` returned, newest first. -/
structure Vmm where
  mem : Mem
  pa_top : paddr_t
  pa_bottom : paddr_t
  handed : List paddr_t

/-- `*kva` as a `uint32_t`. -/
def load (m : Mem) (kva : Word) : Word := ld32 m (kva_to_pa kva)

/-- `*kva = v` as a `uint32_t`. -/
def store (m : Mem) (kva v : Word) : Mem := st32 m (kva_to_pa kva) v

def memset (m : Mem) (kva : Word) (c : Byte) (n : Nat) : Mem := fill m (kva_to_pa kva) c n

def vmm_init (m : Mem) (start stop : paddr_t) : Vmm :=
  { mem := m, pa_top := stop, pa_bottom := start, handed := [] }

/-- `none` is the panic "out of physical pages", which never returns. -/
def ppage_alloc_z (s : Vmm) : Option (paddr_t × Vmm) :=
  if s.pa_top = s.pa_bottom then none
  else
    let pa_top := s.pa_top - PAGE_SIZE
    some (pa_top, { s with
      pa_top := pa_top
      mem := memset s.mem (pa_to_kva pa_top) 0 4096
      handed := pa_top :: s.handed })

def kpage_alloc_z (s : Vmm) : Option (Word × Vmm) := do
  let (pa, s) ← ppage_alloc_z s
  some (pa_to_kva pa, s)

def PTE_PA (pte : Word) : paddr_t := (pte &&& 0xFFFFFC00) <<< 2

/-- The end of `vm_map_4k`, from `pte = ptbl[idx0]` on. A walk reads the
memory itself here, so the flush of the TLB does nothing. -/
def vm_map_leaf (s : Vmm) (ptbl idx0 : Word) (pa : paddr_t) (flags : Word) : status_t × Vmm :=
  let pte := load s.mem (ptbl + 4 * idx0)
  if has pte PTE_V then (-1, s)
  else (XOS_OK, { s with
    mem := store s.mem (ptbl + 4 * idx0) (((pa &&& 0xFFFFF000) >>> 2) ||| (flags &&& 0x3FF)) })

def vm_map_4k (s : Vmm) (pdir : Word) (va : vaddr_t) (pa : paddr_t) (flags : Word) :
    Option (status_t × Vmm) :=
  let idx1 := va >>> 22
  let idx0 := (va >>> 12) &&& 0x3FF
  if (va &&& 0x00000FFF) ≠ 0 ∨ (pa &&& 0x00000FFF) ≠ 0 then some (XOS_ERR_BAD_PARAM, s)
  else
    let pte := load s.mem (pdir + 4 * idx1)
    if has pte PTE_V then
      if has pte (PTE_X ||| PTE_W ||| PTE_R) then some (XOS_ERR_CONFLICT, s)
      else some (vm_map_leaf s (pa_to_kva (PTE_PA pte)) idx0 pa flags)
    else do
      let (ptbl_pa, s) ← ppage_alloc_z s
      let s := { s with mem := store s.mem (pdir + 4 * idx1) ((ptbl_pa >>> 2) ||| PTE_V) }
      some (vm_map_leaf s (pa_to_kva ptbl_pa) idx0 pa flags)

def vm_map_4m (s : Vmm) (pdir : Word) (va : vaddr_t) (pa : paddr_t) (flags : Word) :
    status_t × Vmm :=
  let idx1 := va >>> 22
  if (va &&& 0x003FFFFF) ≠ 0 ∨ (pa &&& 0x003FFFFF) ≠ 0 then (XOS_ERR_BAD_PARAM, s)
  else
    let pte := load s.mem (pdir + 4 * idx1)
    if has pte PTE_V then (XOS_ERR_CONFLICT, s)
    else (XOS_OK, { s with
      mem := store s.mem (pdir + 4 * idx1) (((pa &&& 0xFFFFF000) >>> 2) ||| (flags &&& 0x3FF)) })

/-! ## The code over pages and entries

The pointer arithmetic of the code comes down to entry `i` of a page. -/

@[simp] theorem kva_to_pa_to_kva (pa : paddr_t) : kva_to_pa (pa_to_kva pa) = pa := by
  unfold kva_to_pa pa_to_kva
  bv_omega

@[simp] theorem pa_to_kva_to_pa (kva : Word) : pa_to_kva (kva_to_pa kva) = kva := by
  unfold kva_to_pa pa_to_kva
  bv_omega

theorem idx1_eq (va : Word) : va >>> 22 = BitVec.ofNat 32 (vpn1 va) := by
  apply BitVec.eq_of_toNat_eq
  unfold vpn1
  simp only [BitVec.toNat_ushiftRight, Nat.shiftRight_eq_div_pow, BitVec.toNat_ofNat]
  omega

theorem and_toNat (x : Word) (k : Nat) (hk : k ≤ 32) :
    (x &&& BitVec.ofNat 32 (2 ^ k - 1)).toNat = x.toNat % 2 ^ k := by
  have hp : 2 ^ k ≤ 2 ^ 32 := Nat.pow_le_pow_right (by omega) hk
  have : 0 < 2 ^ k := Nat.two_pow_pos k
  rw [BitVec.toNat_and, BitVec.toNat_ofNat, Nat.mod_eq_of_lt (by omega),
    Nat.and_two_pow_sub_one_eq_mod]

theorem idx0_eq (va : Word) : (va >>> 12) &&& 0x3FF = BitVec.ofNat 32 (vpn0 va) := by
  apply BitVec.eq_of_toNat_eq
  have h := and_toNat (va >>> 12) 10 (by omega)
  simp only [show 2 ^ 10 - 1 = 1023 by norm_num] at h
  unfold vpn0
  rw [show (0x3FF : Word) = BitVec.ofNat 32 1023 from rfl, h]
  simp only [BitVec.toNat_ushiftRight, Nat.shiftRight_eq_div_pow, BitVec.toNat_ofNat]
  omega

/-- The alignment tests of the code. -/
theorem and_fff_ne_zero (x : Word) : (x &&& 0x00000FFF) ≠ 0 ↔ x.toNat % 4096 ≠ 0 := by
  have h := and_toNat x 12 (by omega)
  rw [show (0x00000FFF : Word) = BitVec.ofNat 32 (2 ^ 12 - 1) from rfl]
  rw [not_iff_not, ← BitVec.toNat_inj, h]
  rfl

theorem and_3fffff_ne_zero (x : Word) : (x &&& 0x003FFFFF) ≠ 0 ↔ x.toNat % 0x400000 ≠ 0 := by
  have h := and_toNat x 22 (by omega)
  rw [show (0x003FFFFF : Word) = BitVec.ofNat 32 (2 ^ 22 - 1) from rfl]
  rw [not_iff_not, ← BitVec.toNat_inj, h]
  rfl

theorem entry_addr (p : paddr_t) (i : Nat) :
    kva_to_pa (pa_to_kva p + 4 * BitVec.ofNat 32 i) = p + BitVec.ofNat 32 (4 * i) := by
  unfold kva_to_pa pa_to_kva
  bv_omega

theorem load_entry (m : Mem) (p : paddr_t) (i : Nat) :
    load m (pa_to_kva p + 4 * BitVec.ofNat 32 i) = pte m p i := by
  unfold load pte
  rw [entry_addr]

theorem store_entry (m : Mem) (p : paddr_t) (i : Nat) (v : Word) :
    store m (pa_to_kva p + 4 * BitVec.ofNat 32 i) v = setPte m p i v := by
  unfold store setPte
  rw [entry_addr]

theorem PTE_PA_toNat (pte : Word) : (PTE_PA pte).toNat = ppn pte % 2 ^ 20 * 4096 := by
  have h : PTE_PA pte = (pte >>> 10) <<< 12 := by
    unfold PTE_PA
    ext i hi
    simp only [BitVec.getElem_shiftLeft, BitVec.getElem_ushiftRight, BitVec.getElem_and]
    interval_cases i <;> simp
  rw [h]
  unfold ppn
  simp only [BitVec.toNat_shiftLeft, BitVec.toNat_ushiftRight, Nat.shiftRight_eq_div_pow,
    Nat.shiftLeft_eq]
  omega

theorem PTE_PA_link {t : Word} (ht : PageAligned t) : PTE_PA (link t) = t := by
  apply BitVec.eq_of_toNat_eq
  rw [PTE_PA_toNat, ppn_link]
  unfold PageAligned at ht
  omega

theorem has_rwx (x : Word) :
    has x (PTE_X ||| PTE_W ||| PTE_R) = (has x PTE_R || has x PTE_W || has x PTE_X) := by
  unfold has
  have h : x &&& (PTE_X ||| PTE_W ||| PTE_R) = (x &&& PTE_R) ||| (x &&& PTE_W) ||| (x &&& PTE_X) := by
    simp only [BitVec.and_or_distrib_left]
    ac_rfl
  rw [h, ← Bool.decide_or, ← Bool.decide_or]
  simp [or_assoc]

end os_workshop.vmm
