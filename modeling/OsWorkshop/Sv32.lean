-- The Sv32 page-table walk of the RISC-V privileged specification, over a
-- byte memory: two levels, 4KB pages and 4MB megapages. Physical addresses
-- are 34 bits wide, so they are natural numbers here.
import OsWorkshop.Memory

open os_workshop.memory

namespace os_workshop.sv32

/-! ## Page-table entries -/

def PTE_V : Word := 0x001
def PTE_R : Word := 0x002
def PTE_W : Word := 0x004
def PTE_X : Word := 0x008
def PTE_U : Word := 0x010
def PTE_G : Word := 0x020
def PTE_A : Word := 0x040
def PTE_D : Word := 0x080

/-- A bit of an entry, or of a set of flags. -/
def has (pte bit : Word) : Bool := decide (pte &&& bit ≠ 0)

def ppn (pte : Word) : Nat := pte.toNat / 1024

/-- The ten flag bits of an entry. -/
def flagsOf (pte : Word) : Word := pte &&& 0x3FF

/-- An entry that no walk may use: not valid, or writable and not readable. -/
def faulty (pte : Word) : Bool := !has pte PTE_V || (!has pte PTE_R && has pte PTE_W)

def isLeaf (pte : Word) : Bool := has pte PTE_R || has pte PTE_X

def vpn1 (va : Word) : Nat := va.toNat / 0x400000
def vpn0 (va : Word) : Nat := va.toNat / 0x1000 % 0x400

/-! ## The walk -/

/-- The entry at a physical address. Nothing stands above the 32-bit space. -/
def pteAt (m : Mem) (pa : Nat) : Option Word :=
  if pa < 2 ^ 32 then some (ld32 m (BitVec.ofNat 32 pa)) else none

/-- The mode field of `satp`, and the root page of its number. -/
def satpSv32 (satp : Word) : Bool := decide (2 ^ 31 ≤ satp.toNat)
def satpRoot (satp : Word) : Nat := satp.toNat % 2 ^ 22 * 4096

/-- Steps 1 to 8 of the translation of `va` under a root page: the physical
address and the flags of the leaf, or `none` for a page fault. -/
def walk (m : Mem) (root : Nat) (va : Word) : Option (Nat × Word) :=
  match pteAt m (root + 4 * vpn1 va) with
  | none => none
  | some pte1 =>
    if faulty pte1 then none
    else if isLeaf pte1 then
      -- a megapage, and a fault when it is misaligned
      if ppn pte1 % 0x400 ≠ 0 then none
      else some (ppn pte1 * 0x1000 + va.toNat % 0x400000, flagsOf pte1)
    else match pteAt m (ppn pte1 * 0x1000 + 4 * vpn0 va) with
      | none => none
      | some pte0 =>
        if faulty pte0 then none
        else if isLeaf pte0 then some (ppn pte0 * 0x1000 + va.toNat % 0x1000, flagsOf pte0)
        else none

/-- What an access needs of the flags of its leaf. -/
inductive Access
  | read
  | write
  | exec
  deriving DecidableEq

def allows (flags : Word) : Access → Bool
  | .read => has flags PTE_R
  | .write => has flags PTE_W
  | .exec => has flags PTE_X

/-! ## Small facts of the entries -/

theorem vpn1_lt (va : Word) : vpn1 va < 1024 := by unfold vpn1; omega

theorem vpn0_lt (va : Word) : vpn0 va < 1024 := by unfold vpn0; omega

theorem has_eq_getLsbD (x : Word) (i : Nat) (h : i < 32) :
    has x (BitVec.twoPow 32 i) = x.getLsbD i := by
  unfold has
  rw [BitVec.and_twoPow]
  cases hb : x.getLsbD i
  · simp
  · have : BitVec.twoPow 32 i ≠ 0#32 := by
      intro e
      have := congrArg (fun v => v.getLsbD i) e
      simp [h] at this
    simpa using this

theorem has_V (x : Word) : has x PTE_V = x.getLsbD 0 := has_eq_getLsbD x 0 (by omega)
theorem has_R (x : Word) : has x PTE_R = x.getLsbD 1 := has_eq_getLsbD x 1 (by omega)
theorem has_W (x : Word) : has x PTE_W = x.getLsbD 2 := has_eq_getLsbD x 2 (by omega)
theorem has_X (x : Word) : has x PTE_X = x.getLsbD 3 := has_eq_getLsbD x 3 (by omega)

/-- The entry with a page frame and flags, as a kernel packs it. -/
def pack (pa flags : Word) : Word := ((pa &&& 0xFFFFF000) >>> 2) ||| (flags &&& 0x3FF)

theorem flagsOf_pack (pa flags : Word) : flagsOf (pack pa flags) = flags &&& 0x3FF := by
  unfold flagsOf pack
  ext i hi
  simp only [BitVec.getElem_and, BitVec.getElem_or, BitVec.getElem_ushiftRight]
  interval_cases i <;> simp

theorem ppn_pack (pa flags : Word) : ppn (pack pa flags) = pa.toNat / 0x1000 := by
  have h : pack pa flags >>> 10 = pa >>> 12 := by
    unfold pack
    ext i hi
    simp only [BitVec.getElem_ushiftRight, BitVec.getLsbD_or, BitVec.getLsbD_and,
      BitVec.getLsbD_ushiftRight]
    interval_cases i <;> simp
  have := congrArg BitVec.toNat h
  simp only [BitVec.toNat_ushiftRight, Nat.shiftRight_eq_div_pow] at this
  exact this

theorem has_flagsOf (pte : Word) (i : Nat) (h : i < 10) :
    has (flagsOf pte) (BitVec.twoPow 32 i) = has pte (BitVec.twoPow 32 i) := by
  rw [has_eq_getLsbD _ _ (by omega), has_eq_getLsbD _ _ (by omega)]
  unfold flagsOf
  simp only [BitVec.getLsbD_and]
  interval_cases i <;> simp

/-! ## Pages of entries

A page starts at a multiple of 4096 and holds 1024 entries. -/

def PageAligned (p : Word) : Prop := p.toNat % 4096 = 0

instance (p : Word) : Decidable (PageAligned p) := inferInstanceAs (Decidable (_ = _))

/-- Entry `i` of the page at `p`. -/
def pte (m : Mem) (p : Word) (i : Nat) : Word := ld32 m (p + BitVec.ofNat 32 (4 * i))

/-- The memory with entry `i` of the page at `p` set. -/
def setPte (m : Mem) (p : Word) (i : Nat) (v : Word) : Mem := st32 m (p + BitVec.ofNat 32 (4 * i)) v

/-- The bytes of the page at `p`. -/
def InPage (p x : Word) : Prop := p.toNat ≤ x.toNat ∧ x.toNat < p.toNat + 4096

theorem entry_toNat {p : Word} {i : Nat} (hp : PageAligned p) (hi : i < 1024) :
    (p + BitVec.ofNat 32 (4 * i)).toNat = p.toNat + 4 * i := by
  unfold PageAligned at hp
  bv_omega

theorem page_eq_of_inPage {p q x : Word} (hp : PageAligned p) (hq : PageAligned q)
    (h1 : InPage p x) (h2 : InPage q x) : p = q := by
  unfold PageAligned at hp hq
  unfold InPage at h1 h2
  exact BitVec.eq_of_toNat_eq (by omega)

/-- The bytes of an entry stand in its page. -/
theorem inPage_of_entry {p x : Word} {i : Nat} (hp : PageAligned p) (hi : i < 1024)
    (hx : dist (p + BitVec.ofNat 32 (4 * i)) x < 4) : InPage p x := by
  have he := entry_toNat hp hi
  unfold PageAligned at hp
  unfold InPage
  rcases Nat.lt_or_ge x.toNat (p + BitVec.ofNat 32 (4 * i)).toNat with h | h
  · rw [dist_of_lt h] at hx; omega
  · rw [dist_of_le h] at hx; omega

theorem dist_of_inPage {p x : Word} (h : InPage p x) : dist p x < 4096 := by
  rw [dist_of_le h.1]
  unfold InPage at h
  omega

theorem not_inPage {p x : Word} (hp : PageAligned p) (h : ¬ InPage p x) : 4096 ≤ dist p x := by
  unfold PageAligned at hp
  unfold InPage at h
  rcases Nat.lt_or_ge x.toNat p.toNat with hx | hx
  · rw [dist_of_lt hx]; omega
  · rw [dist_of_le hx]; omega

theorem pte_setPte_same (m : Mem) (p : Word) (i : Nat) (v : Word) :
    pte (setPte m p i v) p i = v := ld32_st32_same _ _ _

/-- A set entry leaves every other entry of every page. -/
theorem pte_setPte_ne (m : Mem) {p q : Word} {i j : Nat} (v : Word) (hp : PageAligned p)
    (hq : PageAligned q) (hi : i < 1024) (hj : j < 1024) (h : p ≠ q ∨ i ≠ j) :
    pte (setPte m p i v) q j = pte m q j := by
  have e1 := entry_toNat hp hi
  have e2 := entry_toNat hq hj
  unfold PageAligned at hp hq
  apply ld32_st32_apart
  apply apart_of_aligned (by omega) (by omega)
  intro he
  rw [he] at e1
  rcases h with h | h
  · exact h (BitVec.eq_of_toNat_eq (by omega))
  · have : p.toNat = q.toNat := by omega
    omega

/-- An entry depends on the bytes of its page only. -/
theorem pte_congr {m m' : Mem} {p : Word} {i : Nat} (hp : PageAligned p) (hi : i < 1024)
    (h : ∀ x, InPage p x → m x = m' x) : pte m p i = pte m' p i :=
  ld32_congr _ _ _ fun x hx => h x (inPage_of_entry hp hi hx)

/-- A page of zeros has no valid entry. -/
theorem pte_zeroed {m : Mem} {p : Word} {i : Nat} (hp : PageAligned p) (hi : i < 1024)
    (h : ∀ x, InPage p x → m x = 0) : pte m p i = 0 := by
  have h0 : pte m p i = pte (fun _ => 0) p i := pte_congr hp hi h
  rw [h0]
  unfold pte ld32
  show word 0 0 0 0 = 0
  decide

theorem pteAt_page (m : Mem) {p : Word} {i : Nat} (hp : PageAligned p) (hi : i < 1024) :
    pteAt m (p.toNat + 4 * i) = some (pte m p i) := by
  have he := entry_toNat hp hi
  unfold pteAt pte
  rw [if_pos (by rw [← he]; exact BitVec.isLt _), ← he, BitVec.ofNat_toNat, BitVec.setWidth_eq]

/-! ## Links to tables -/

/-- A directory entry that points to the table page `t`. -/
def link (t : Word) : Word := (t >>> 2) ||| PTE_V

theorem ppn_link (t : Word) : ppn (link t) = t.toNat / 0x1000 := by
  have h : link t >>> 10 = t >>> 12 := by
    unfold link PTE_V
    ext i hi
    simp only [BitVec.getElem_ushiftRight, BitVec.getLsbD_or, BitVec.getLsbD_ushiftRight]
    interval_cases i <;> simp
  have := congrArg BitVec.toNat h
  simp only [BitVec.toNat_ushiftRight, Nat.shiftRight_eq_div_pow] at this
  exact this

theorem getLsbD_of_aligned {t : Word} (ht : PageAligned t) {i : Nat} (hi : i < 12) :
    t.getLsbD i = false := by
  unfold PageAligned at ht
  rw [← BitVec.testBit_toNat]
  have : t.toNat = 2 ^ 12 * (t.toNat / 4096) := by omega
  rw [this, Nat.testBit_two_pow_mul]
  simp [Nat.not_le.mpr hi]

theorem link_valid (t : Word) : has (link t) PTE_V = true := by
  rw [has_V]
  unfold link PTE_V
  simp

theorem link_not_leaf {t : Word} (ht : PageAligned t) :
    has (link t) PTE_R = false ∧ has (link t) PTE_W = false ∧ has (link t) PTE_X = false := by
  have h3 := getLsbD_of_aligned ht (show 3 < 12 by omega)
  have h4 := getLsbD_of_aligned ht (show 4 < 12 by omega)
  have h5 := getLsbD_of_aligned ht (show 5 < 12 by omega)
  rw [has_R, has_W, has_X]
  unfold link PTE_V
  simp only [BitVec.getLsbD_or, BitVec.getLsbD_ushiftRight, h3, h4, h5]
  simp

theorem link_inj {t u : Word} (ht : PageAligned t) (hu : PageAligned u) (h : link t = link u) :
    t = u := by
  have := congrArg ppn h
  rw [ppn_link, ppn_link] at this
  unfold PageAligned at ht hu
  exact BitVec.eq_of_toNat_eq (by omega)

/-! ## The walk through a root page -/

section Walk

variable {m : Mem} {d : Word} {va : Word}

theorem walk_of_faulty (hd : PageAligned d) (h : faulty (pte m d (vpn1 va)) = true) :
    walk m d.toNat va = none := by
  unfold walk
  rw [pteAt_page m hd (vpn1_lt va)]
  simp [h]

theorem walk_of_mega (hd : PageAligned d) (h : faulty (pte m d (vpn1 va)) = false)
    (hl : isLeaf (pte m d (vpn1 va)) = true) (ha : ppn (pte m d (vpn1 va)) % 0x400 = 0) :
    walk m d.toNat va = some (ppn (pte m d (vpn1 va)) * 0x1000 + va.toNat % 0x400000,
      flagsOf (pte m d (vpn1 va))) := by
  unfold walk
  rw [pteAt_page m hd (vpn1_lt va)]
  simp [h, hl, ha]

theorem walk_of_link {t : Word} (hd : PageAligned d) (ht : PageAligned t)
    (h : pte m d (vpn1 va) = link t) :
    walk m d.toNat va =
      if faulty (pte m t (vpn0 va)) then none
      else if isLeaf (pte m t (vpn0 va)) then
        some (ppn (pte m t (vpn0 va)) * 0x1000 + va.toNat % 0x1000, flagsOf (pte m t (vpn0 va)))
      else none := by
  obtain ⟨hr, hw, hx⟩ := link_not_leaf ht
  have hb : ppn (link t) * 0x1000 = t.toNat := by
    rw [ppn_link]; unfold PageAligned at ht; omega
  unfold walk
  rw [pteAt_page m hd (vpn1_lt va), h]
  simp only [faulty, isLeaf, link_valid, hr, hw, hx, hb, pteAt_page m ht (vpn0_lt va)]
  rfl

end Walk

end os_workshop.sv32
