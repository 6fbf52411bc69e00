-- The start-up code of xos/src/start.S, instruction by instruction: it zeroes
-- the bss and a page, and fills that page as the first page directory. What the
-- walk finds in it when the code jumps to the kernel.
import OsWorkshop.Rv32
import OsWorkshop.MapSpec

open os_workshop.memory os_workshop.sv32 os_workshop.rv32 os_workshop.vmm

namespace os_workshop.boot

/-! ## The code -/

/-- The symbols of start.S, its own and those of the linker script. -/
inductive Symbol
  | zero_loop | zero_done | ptbl_zero_loop | ptbl_map_loop
  | start_sp | start_pc
  | bss_start | bss_end | memory_top
  deriving DecidableEq

abbrev PTE_BITS_RWX : Word := PTE_A ||| PTE_D ||| PTE_X ||| PTE_W ||| PTE_R ||| PTE_V
abbrev PTE_BITS_RW : Word := PTE_A ||| PTE_D ||| PTE_W ||| PTE_R ||| PTE_V
abbrev SATP_MODE_SV32 : Word := 0x80000000

abbrev Block := List (Instr Symbol)

open Reg Csr Instr

def start : Block := [
  la t0 .bss_start,
  la t1 .bss_end]

def zero_loop : Block := [
  beq t0 t1 .zero_done,
  sw zero 0 t0,
  addi t0 t0 4,
  j .zero_loop]

/-- `lw sp, start_sp` is the address and the load. -/
def zero_done : Block := [
  la sp .memory_top,
  li t4 4096,
  sub t1 sp t4,
  sub t0 t1 t4,
  mv t2 t0,
  la sp .start_sp,
  lw sp 0 sp]

def ptbl_zero_loop : Block := [
  sw zero 0 t0,
  addi t0 t0 4,
  bne t0 t1 .ptbl_zero_loop]

def ptbl_identity : Block := [
  li t0 (0x40000000 >>> 2 ||| PTE_BITS_RWX),
  li t1 (0x40000000 >>> 20),
  add t1 t2 t1,
  sw t0 0 t1,
  li t1 (0xC0000000 >>> 20),
  srli t3 sp 20,
  li t4 (0x00400000 >>> 2)]

def ptbl_map_loop : Block := [
  add t5 t2 t1,
  sw t0 0 t5,
  addi t1 t1 4,
  add t0 t0 t4,
  bne t1 t3 .ptbl_map_loop]

def ptbl_mmio : Block := [
  li t0 (0xF0000000 >>> 2 ||| PTE_BITS_RW),
  li t1 (0xF0000000 >>> 20),
  add t1 t2 t1,
  sw t0 0 t1]

def enable_paging : Block := [
  srli t0 t2 12,
  li t1 SATP_MODE_SV32,
  or t0 t0 t1,
  csrw satp t0,
  sfence_vma,
  nop,
  nop,
  nop,
  nop,
  nop]

def jump_to_start : Block := [
  la t0 .start_pc,
  lw t0 0 t0,
  jr t0]

def text : Block :=
  start ++ zero_loop ++ zero_done ++ ptbl_zero_loop ++ ptbl_identity ++ ptbl_map_loop ++ ptbl_mmio ++
    enable_paging ++ jump_to_start

/-- Where a label stands in the text. -/
def place : Symbol → Option Nat
  | .zero_loop => some 2
  | .zero_done => some 6
  | .ptbl_zero_loop => some 13
  | .ptbl_map_loop => some 23
  | _ => none

/-! ## The linked code -/

/-- The bytes of the text and of its two words. -/
def Code (im : Image Symbol) (x : Word) : Prop :=
  (∃ i < im.text.length, dist (im.loc i) x < 4) ∨ dist (im.addr .start_sp) x < 4 ∨
    dist (im.addr .start_pc) x < 4

/-- The code as it was linked and loaded. It runs at physical addresses, in the
first megapage of the memory, so `la` gives the physical address of a symbol.
The memory that it writes holds none of its own bytes. -/
structure Linked where
  im : Image Symbol
  bss_start : Word
  bss_end : Word
  memory_top : Word
  start : Word
  text_eq : im.text = text
  labels : ∀ l i, place l = some i → im.addr l = im.loc i
  la_bss_start : im.addr .bss_start = kva_to_pa bss_start
  la_bss_end : im.addr .bss_end = kva_to_pa bss_end
  la_memory_top : im.addr .memory_top = kva_to_pa memory_top
  bss_start_aligned : bss_start.toNat % 4 = 0
  bss_end_aligned : bss_end.toNat % 4 = 0
  top_aligned : memory_top.toNat % 0x400000 = 0
  top_low : 0xC0000000 < memory_top.toNat
  top_high : memory_top.toNat ≤ 0xF0000000
  start_high : 0xC0000000 ≤ start.toNat
  start_even : start.getLsbD 0 = false
  code_low : ∀ x, Code im x → 0x40000000 ≤ x.toNat ∧ x.toNat < 0x40400000
  code_bss : ∀ x, Code im x → (bss_end - bss_start).toNat ≤ dist (kva_to_pa bss_start) x
  code_dir : ∀ x, Code im x → ¬ InPage (kva_to_pa memory_top - 2 * PAGE_SIZE) x

/-- The page directory stands two pages below the top of the memory. -/
def Linked.pdir (k : Linked) : Word := kva_to_pa k.memory_top - 2 * PAGE_SIZE

/-- A run of the code alone. -/
abbrev Linked.Path (k : Linked) : State → State → Prop := k.im.Path fun _ _ => False

/-- The two words behind the text, as the linker wrote them. -/
structure Words (k : Linked) (m : Mem) : Prop where
  start_sp : ld32 m (k.im.addr .start_sp) = k.memory_top
  start_pc : ld32 m (k.im.addr .start_pc) = k.start

section

variable {k : Linked} {d : Data} {i : Nat}

theorem Linked.get (k : Linked) {ins : Instr Symbol} (h : text[i]? = some ins) :
    k.im.text[i]? = some ins := by
  rw [k.text_eq]
  exact h

theorem runs_part (blk : Block) (n : Nat) (hb : blk <+: text.drop i)
    (hs : blk.all Instr.straight = true) (hn : n = i + blk.length) :
    k.Path ⟨k.im.loc i, d⟩ ⟨k.im.loc n, line k.im.addr blk d⟩ := by
  subst hn
  exact runs_block blk (by rw [k.text_eq]; exact hb) (List.all_eq_true.mp hs)

/-! ## The loops of zeros -/

theorem fill_nil (m : Mem) (a : Word) (v : Byte) : fill m a v 0 = m := by
  funext x
  simp [fill]

theorem fill_word (m : Mem) (a : Word) : st32 m a 0 = fill m a 0 4 := by
  funext x
  by_cases h : dist a x < 4
  · rw [fill_in _ _ _ _ _ h]
    unfold st32
    rw [write_in _ _ _ _ (by simpa using h)]
    generalize dist a x = j at h
    interval_cases j <;> rfl
  · rw [fill_out _ _ _ _ _ (by omega)]
    exact write_out _ _ _ _ (by simpa using h)

/-- A zeroed word, and the rest above it. -/
theorem fill_step (m : Mem) (a : Word) {n : Nat} (h : 4 + n ≤ 2 ^ 32) :
    fill (st32 m a 0) (a + 4) 0 n = fill m a 0 (4 + n) := by
  funext x
  rw [fill_word]
  unfold fill memory.dist
  by_cases h4 : (x - a).toNat < 4
  · rw [if_pos (by omega : (x - a).toNat < 4 + n), if_pos h4]
    split <;> rfl
  · have hx : (x - (a + 4)).toNat = (x - a).toNat - 4 := by bv_omega
    rw [hx, if_neg h4]
    split_ifs <;> first | rfl | omega

/-- The word at `t0` zeroed, and `t0` after it. -/
def zeroed (d : Data) : Data := (d.store (d.get t0) 0).set t0 (d.get t0 + 4)

@[simp] theorem zeroed_t0 (d : Data) : (zeroed d).get t0 = d.get t0 + 4 :=
  get_set_same _ _ (by decide)

@[simp] theorem zeroed_mem (d : Data) : (zeroed d).mem = st32 d.mem (d.get t0) 0 := rfl

@[simp] theorem zeroed_csr (d : Data) : (zeroed d).csr = d.csr := rfl

theorem zeroed_get (d : Data) {r : Reg} (h : r ≠ t0) : (zeroed d).get r = d.get r :=
  get_set_ne _ _ h

theorem runs_zeroed (n : Nat) (hb : [sw zero 0 t0, addi t0 t0 4] <+: text.drop i) (hn : n = i + 2) :
    k.Path ⟨k.im.loc i, d⟩ ⟨k.im.loc n, zeroed d⟩ := by
  have hrun : k.Path ⟨k.im.loc i, d⟩ ⟨k.im.loc n, line k.im.addr [sw zero 0 t0, addi t0 t0 4] d⟩ :=
    runs_part _ n hb (by rfl) hn
  simpa [act, get_zero, zeroed] using hrun

/-- The loop over the bss, with `n` words to go. -/
theorem zero_loop.spec (n : Nat) (hn : 4 * n < 2 ^ 32)
    (h : d.get t1 = d.get t0 + BitVec.ofNat 32 (4 * n)) :
    ∃ e, k.Path ⟨k.im.loc 2, d⟩ ⟨k.im.loc 6, e⟩ ∧ e.mem = fill d.mem (d.get t0) 0 (4 * n) ∧
      e.csr = d.csr := by
  induction n generalizing d with
  | zero =>
    have heq : d.get t0 = d.get t1 := by simpa using h.symm
    have hgo : goes k.im.addr (k.im.loc 3) (beq t0 t1 .zero_done) d = k.im.loc 6 := by
      rw [← k.labels .zero_done 6 rfl]
      exact if_pos heq
    exact ⟨d, runs_to (k.get (by rfl)) rfl rfl hgo, by rw [Nat.mul_zero, fill_nil], rfl⟩
  | succ n ih =>
    have hne : d.get t0 ≠ d.get t1 := by
      rw [h]
      bv_omega
    have hgo : goes k.im.addr (k.im.loc 3) (beq t0 t1 .zero_done) d = k.im.loc 3 := if_neg hne
    have h3 : k.Path ⟨k.im.loc 2, d⟩ ⟨k.im.loc 3, d⟩ := runs_to (k.get (by rfl)) rfl rfl hgo
    have h5 : k.Path ⟨k.im.loc 3, d⟩ ⟨k.im.loc 5, zeroed d⟩ := runs_zeroed 5 ⟨_, rfl⟩ rfl
    have hj : goes k.im.addr (k.im.loc 6) (j .zero_loop) (zeroed d) = k.im.loc 2 :=
      k.labels .zero_loop 2 rfl
    have h2 : k.Path ⟨k.im.loc 5, zeroed d⟩ ⟨k.im.loc 2, zeroed d⟩ :=
      runs_to (k.get (by rfl)) rfl rfl hj
    obtain ⟨e, hrun, hmem, hcsr⟩ := @ih (zeroed d) (by omega) (by
      rw [zeroed_get d (by decide), zeroed_t0, h]
      bv_omega)
    refine ⟨e, ((h3.trans h5).trans h2).trans hrun, ?_, hcsr⟩
    rw [hmem, zeroed_t0, zeroed_mem, fill_step _ _ (by omega)]
    congr 1
    omega

/-- The loop over the page directory, with `n + 1` words to go. -/
theorem ptbl_zero_loop.spec (n : Nat) (hn : 4 * (n + 1) < 2 ^ 32)
    (h : d.get t1 = d.get t0 + BitVec.ofNat 32 (4 * (n + 1))) :
    ∃ e, k.Path ⟨k.im.loc 13, d⟩ ⟨k.im.loc 16, e⟩ ∧
      e.mem = fill d.mem (d.get t0) 0 (4 * (n + 1)) ∧ e.csr = d.csr ∧ e.get t2 = d.get t2 ∧
      e.get sp = d.get sp := by
  have h15 : k.Path ⟨k.im.loc 13, d⟩ ⟨k.im.loc 15, zeroed d⟩ := runs_zeroed 15 ⟨_, rfl⟩ rfl
  have ht1 := zeroed_get d (show t1 ≠ t0 by decide)
  have ht2 := zeroed_get d (show t2 ≠ t0 by decide)
  have hsp := zeroed_get d (show sp ≠ t0 by decide)
  induction n generalizing d with
  | zero =>
    have heq : (zeroed d).get t0 = (zeroed d).get t1 := by
      rw [zeroed_t0, ht1, h]
      rfl
    have hgo : goes k.im.addr (k.im.loc 16) (bne t0 t1 .ptbl_zero_loop) (zeroed d) = k.im.loc 16 :=
      if_neg (not_not.mpr heq)
    exact ⟨zeroed d, h15.trans (runs_to (k.get (by rfl)) rfl rfl hgo),
      by rw [zeroed_mem, fill_word], rfl, ht2, hsp⟩
  | succ n ih =>
    have hne : (zeroed d).get t0 ≠ (zeroed d).get t1 := by
      rw [zeroed_t0, ht1, h]
      bv_omega
    have hgo : goes k.im.addr (k.im.loc 16) (bne t0 t1 .ptbl_zero_loop) (zeroed d) = k.im.loc 13 := by
      rw [← k.labels .ptbl_zero_loop 13 rfl]
      exact if_pos hne
    have h13 : k.Path ⟨k.im.loc 15, zeroed d⟩ ⟨k.im.loc 13, zeroed d⟩ :=
      runs_to (k.get (by rfl)) rfl rfl hgo
    obtain ⟨e, hrun, hmem, hcsr, he2, hesp⟩ := @ih (zeroed d) (by omega) (by
      rw [ht1, zeroed_t0, h]
      bv_omega) (runs_zeroed 15 ⟨_, rfl⟩ rfl) (zeroed_get _ (by decide)) (zeroed_get _ (by decide))
      (zeroed_get _ (by decide))
    refine ⟨e, (h15.trans h13).trans hrun, ?_, hcsr, he2.trans ht2, hesp.trans hsp⟩
    rw [hmem, zeroed_t0, zeroed_mem, fill_step _ _ (by omega)]
    congr 1
    omega

/-! ## The entries -/

/-- The entry that maps megapage `n` of the memory. -/
def ramEntry (n : Nat) : Word := BitVec.ofNat 32 (0x100000CF + n * 0x100000)

theorem ramEntry_succ (n : Nat) : ramEntry (n + 1) = ramEntry n + 0x100000 := by
  unfold ramEntry
  rw [show (0x100000 : Word) = BitVec.ofNat 32 0x100000 from rfl, ← BitVec.ofNat_add]
  congr 1
  omega

/-- The entry at `t1` set, and the registers after it. -/
def mapped (d : Data) : Data :=
  (((d.set t5 (d.get t2 + d.get t1)).store (d.get t2 + d.get t1) (d.get t0)).set t1
    (d.get t1 + 4)).set t0 (d.get t0 + d.get t4)

theorem mapped_t0 (d : Data) : (mapped d).get t0 = d.get t0 + d.get t4 :=
  get_set_same _ _ (by decide)

theorem mapped_t1 (d : Data) : (mapped d).get t1 = d.get t1 + 4 := by
  unfold mapped
  rw [get_set_ne _ _ (by decide), get_set_same _ _ (by decide)]

theorem mapped_get (d : Data) {r : Reg} (h : r ∉ [t0, t1, t5]) : (mapped d).get r = d.get r := by
  simp only [List.mem_cons, List.not_mem_nil, or_false, not_or] at h
  unfold mapped
  rw [get_set_ne _ _ h.1, get_set_ne _ _ h.2.1, get_store, get_set_ne _ _ h.2.2]

theorem mapped_mem {p : Word} {n : Nat} (h2 : d.get t2 = p)
    (h1 : d.get t1 = BitVec.ofNat 32 (0xC00 + 4 * n)) :
    (mapped d).mem = setPte d.mem p (768 + n) (d.get t0) := by
  unfold mapped setPte
  rw [mem_set, mem_set, mem_store, mem_set, h2, h1, show 4 * (768 + n) = 0xC00 + 4 * n by omega]

theorem runs_mapped : k.Path ⟨k.im.loc 23, d⟩ ⟨k.im.loc 27, mapped d⟩ := by
  have hrun : k.Path ⟨k.im.loc 23, d⟩
      ⟨k.im.loc 27, line k.im.addr [add t5 t2 t1, sw t0 0 t5, addi t1 t1 4, add t0 t0 t4] d⟩ :=
    runs_part _ 27 ⟨_, rfl⟩ (by rfl) rfl
  have hline : line k.im.addr [add t5 t2 t1, sw t0 0 t5, addi t1 t1 4, add t0 t0 t4] d =
      mapped d := by
    simp [act, mapped, get_set]
  rwa [hline] at hrun

/-- The loop over the memory: the entries of megapage `n` to `n + c` are set, and nothing
outside the directory. -/
theorem ptbl_map_loop.spec (c n : Nat) (hlast : n + c + 1 ≤ 192) {p : Word} (hp : PageAligned p)
    (h2 : d.get t2 = p) (h1 : d.get t1 = BitVec.ofNat 32 (0xC00 + 4 * n))
    (h0 : d.get t0 = ramEntry n) (h4 : d.get t4 = 0x100000)
    (h3 : d.get t3 = BitVec.ofNat 32 (0xC00 + 4 * (n + c + 1))) :
    ∃ e, k.Path ⟨k.im.loc 23, d⟩ ⟨k.im.loc 28, e⟩ ∧
      (∀ i < 1024, pte e.mem p i =
        if 768 + n ≤ i ∧ i ≤ 768 + n + c then ramEntry (i - 768) else pte d.mem p i) ∧
      (∀ x, ¬ InPage p x → e.mem x = d.mem x) ∧ e.csr = d.csr ∧ e.get t2 = p := by
  induction c generalizing d n with
  | zero =>
    have heq : (mapped d).get t1 = (mapped d).get t3 := by
      rw [mapped_t1, mapped_get d (by decide), h1, h3]
      bv_omega
    have hgo : goes k.im.addr (k.im.loc 28) (bne t1 t3 .ptbl_map_loop) (mapped d) = k.im.loc 28 :=
      if_neg (not_not.mpr heq)
    refine ⟨mapped d, runs_mapped.trans (runs_to (k.get (by rfl)) rfl rfl hgo), ?_, ?_, rfl, ?_⟩
    · intro i hi
      rw [mapped_mem h2 h1, h0]
      by_cases hin : 768 + n = i
      · subst hin
        rw [pte_setPte_same, if_pos (by omega), Nat.add_sub_cancel_left]
      · rw [pte_setPte_ne _ _ hp hp (by omega) hi (Or.inr hin), if_neg (by omega)]
    · intro x hx
      rw [mapped_mem h2 h1]
      exact setPte_frame _ _ hp (by omega) hx
    · rw [mapped_get d (by decide), h2]
  | succ c ih =>
    have hne : (mapped d).get t1 ≠ (mapped d).get t3 := by
      rw [mapped_t1, mapped_get d (by decide), h1, h3]
      bv_omega
    have hgo : goes k.im.addr (k.im.loc 28) (bne t1 t3 .ptbl_map_loop) (mapped d) = k.im.loc 23 := by
      rw [← k.labels .ptbl_map_loop 23 rfl]
      exact if_pos hne
    have h23 : k.Path ⟨k.im.loc 27, mapped d⟩ ⟨k.im.loc 23, mapped d⟩ :=
      runs_to (k.get (by rfl)) rfl rfl hgo
    obtain ⟨e, hrun, hpte, hframe, hcsr, he2⟩ := @ih (mapped d) (n + 1) (by omega)
      (by rw [mapped_get d (by decide), h2]) (by rw [mapped_t1, h1]; bv_omega)
      (by rw [mapped_t0, h0, h4, ramEntry_succ]) (by rw [mapped_get d (by decide), h4])
      (by rw [mapped_get d (by decide), h3]; congr 1; omega)
    refine ⟨e, (runs_mapped.trans h23).trans hrun, ?_, ?_, hcsr, he2⟩
    · intro i hi
      rw [hpte i hi, mapped_mem h2 h1, h0]
      by_cases hin : 768 + n = i
      · subst hin
        rw [if_neg (by omega), pte_setPte_same, if_pos (by omega), Nat.add_sub_cancel_left]
      · have hiff : 768 + (n + 1) ≤ i ∧ i ≤ 768 + (n + 1) + c ↔
            768 + n ≤ i ∧ i ≤ 768 + n + (c + 1) := by omega
        rw [pte_setPte_ne _ _ hp hp (by omega) hi (Or.inr hin), if_congr hiff rfl rfl]
    · intro x hx
      rw [hframe x hx, mapped_mem h2 h1]
      exact setPte_frame _ _ hp (by omega) hx

/-! ## The straight parts -/

theorem zero_done.spec (k : Linked) (d : Data) :
    (line k.im.addr zero_done d).mem = d.mem ∧ (line k.im.addr zero_done d).csr = d.csr ∧
      (line k.im.addr zero_done d).get t0 = k.pdir ∧
      (line k.im.addr zero_done d).get t1 = k.pdir + 4096 ∧
      (line k.im.addr zero_done d).get t2 = k.pdir ∧
      (line k.im.addr zero_done d).get sp = ld32 d.mem (k.im.addr .start_sp) := by
  have hp : k.im.addr .memory_top - 4096 - 4096 = k.pdir := by
    rw [k.la_memory_top]
    unfold Linked.pdir
    bv_omega
  refine ⟨rfl, rfl, ?_, ?_, ?_, ?_⟩
  · simp [zero_done, act, get_set, get_zero, ← hp]
  · simp [zero_done, act, get_set, get_zero, ← hp]
  · simp [zero_done, act, get_set, get_zero, ← hp]
  · simp [zero_done, act, get_set, get_zero]

theorem ptbl_identity.spec (k : Linked) {d : Data} {p : Word} (h2 : d.get t2 = p) :
    (line k.im.addr ptbl_identity d).mem = setPte d.mem p 256 (ramEntry 0) ∧
      (line k.im.addr ptbl_identity d).csr = d.csr ∧
      (line k.im.addr ptbl_identity d).get t0 = ramEntry 0 ∧
      (line k.im.addr ptbl_identity d).get t1 = 0xC00 ∧
      (line k.im.addr ptbl_identity d).get t2 = p ∧
      (line k.im.addr ptbl_identity d).get t3 = d.get sp >>> 20 ∧
      (line k.im.addr ptbl_identity d).get t4 = 0x100000 := by
  subst h2
  refine ⟨?_, rfl, ?_, ?_, ?_, ?_, ?_⟩
  · simp [ptbl_identity, act, get_set, get_zero, setPte]
    rfl
  all_goals simp [ptbl_identity, act, get_set, get_zero]
  all_goals rfl

theorem ptbl_mmio.spec (k : Linked) {d : Data} {p : Word} (h2 : d.get t2 = p) :
    (line k.im.addr ptbl_mmio d).mem = setPte d.mem p 960 0x3C0000C7 ∧
      (line k.im.addr ptbl_mmio d).csr = d.csr ∧ (line k.im.addr ptbl_mmio d).get t2 = p := by
  subst h2
  refine ⟨?_, rfl, ?_⟩
  · simp [ptbl_mmio, act, get_set, get_zero, setPte]
    rfl
  · simp [ptbl_mmio, act, get_set, get_zero]

theorem enable_paging.spec (k : Linked) {d : Data} {p : Word} (h2 : d.get t2 = p) :
    (line k.im.addr enable_paging d).mem = d.mem ∧
      (line k.im.addr enable_paging d).csr satp = (SATP_MODE_SV32 ||| (p >>> 12)) := by
  subst h2
  refine ⟨rfl, ?_⟩
  simp [enable_paging, act, legal, get_set, get_zero, BitVec.or_comm]

/-! ## The whole run -/

/-- The entries of the boot page directory. -/
def bootEntry (memory_top : Word) (i : Nat) : Word :=
  if i = 256 then ramEntry 0
  else if 768 ≤ i ∧ i < memory_top.toNat / 0x400000 then ramEntry (i - 768)
  else if i = 960 then 0x3C0000C7
  else 0

/-- The state in which the code jumps to the kernel. -/
structure Booted (k : Linked) (m : Mem) (t : State) : Prop where
  pc : t.pc = k.start
  satp : t.d.csr satp = SATP_MODE_SV32 ||| (k.pdir >>> 12)
  entries : ∀ i < 1024, pte t.d.mem k.pdir i = bootEntry k.memory_top i
  frame : ∀ x, ¬ InPage k.pdir x → (k.bss_end - k.bss_start).toNat ≤ dist (kva_to_pa k.bss_start) x →
    t.d.mem x = m x

theorem Linked.pdir_toNat (k : Linked) : k.pdir.toNat = k.memory_top.toNat - 0x80000000 - 8192 := by
  have h1 := k.top_low
  unfold Linked.pdir kva_to_pa
  bv_omega

theorem Linked.pdir_aligned (k : Linked) : PageAligned k.pdir := by
  have h1 := k.top_low
  have h2 := k.top_aligned
  have h3 := k.pdir_toNat
  unfold PageAligned
  omega

theorem Linked.code_words (k : Linked) {m m' : Mem} (hw : Words k m)
    (h : ∀ x, Code k.im x → m' x = m x) : Words k m' := by
  refine ⟨?_, ?_⟩
  · rw [← hw.start_sp]
    exact ld32_congr _ _ _ fun x hx => h x (Or.inr (Or.inl hx))
  · rw [← hw.start_pc]
    exact ld32_congr _ _ _ fun x hx => h x (Or.inr (Or.inr hx))

theorem even_masked {a : Word} (h : a.getLsbD 0 = false) : a &&& 0xFFFFFFFE = a := by
  ext i hi
  rw [BitVec.getElem_and]
  interval_cases i <;> simp_all [BitVec.getLsbD_eq_getElem]

/-- The zeroed page, with its entries set one after another. -/
theorem entries_of_parts {k : Linked} {m m1 m2 m3 : Mem} {c : Nat}
    (hc : k.memory_top.toNat / 0x400000 = 768 + c + 1)
    (h1 : ∀ i < 1024, pte m1 k.pdir i = 0)
    (h2 : ∀ i < 1024, pte m2 k.pdir i = if 768 + 0 ≤ i ∧ i ≤ 768 + 0 + c then ramEntry (i - 768)
      else pte (setPte m1 k.pdir 256 (ramEntry 0)) k.pdir i)
    (h3 : m3 = setPte m2 k.pdir 960 0x3C0000C7) (hm : m = m3) :
    ∀ i < 1024, pte m k.pdir i = bootEntry k.memory_top i := by
  have hp := k.pdir_aligned
  have hhigh := k.top_high
  intro i hi
  rw [hm, h3]
  unfold bootEntry
  by_cases h960 : i = 960
  · subst h960
    rw [pte_setPte_same, if_neg (by omega), if_neg (by omega), if_pos rfl]
  · rw [pte_setPte_ne _ _ hp hp (by omega) hi (Or.inr (Ne.symm h960)), h2 i hi, if_neg h960]
    by_cases h256 : i = 256
    · subst h256
      rw [if_neg (by omega), pte_setPte_same, if_pos rfl]
    · have hiff : 768 + 0 ≤ i ∧ i ≤ 768 + 0 + c ↔ 768 ≤ i ∧ i < k.memory_top.toNat / 0x400000 := by
        omega
      rw [pte_setPte_ne _ _ hp hp (by omega) hi (Or.inr (Ne.symm h256)), h1 i hi, if_neg h256,
        if_congr hiff rfl rfl]

theorem boots (k : Linked) (d : Data) (hw : Words k d.mem) :
    ∃ t, k.Path ⟨k.im.loc 0, d⟩ t ∧ Booted k d.mem t := by
  have hp := k.pdir_aligned
  have htop := k.top_aligned
  have hlow := k.top_low
  have hhigh := k.top_high
  have hs := k.bss_start_aligned
  have he := k.bss_end_aligned
  -- the bss
  have hrun0 : k.Path ⟨k.im.loc 0, d⟩ ⟨k.im.loc 2, line k.im.addr start d⟩ :=
    runs_part start 2 ⟨_, rfl⟩ (by rfl) rfl
  have hbss : (k.bss_end - k.bss_start).toNat % 4 = 0 := by bv_omega
  have hlen := (k.bss_end - k.bss_start).isLt
  have ht0 : (line k.im.addr start d).get t0 = kva_to_pa k.bss_start := by
    simp [start, act, get_set, ← k.la_bss_start]
  obtain ⟨d1, hrun1, hm1, hcsr1⟩ := @zero_loop.spec k (line k.im.addr start d)
    ((k.bss_end - k.bss_start).toNat / 4) (by omega) (by
      rw [ht0, show (line k.im.addr start d).get t1 = kva_to_pa k.bss_end by
        simp [start, act, get_set, ← k.la_bss_end], Nat.mul_div_cancel' (by omega)]
      unfold kva_to_pa
      bv_omega)
  rw [ht0, Nat.mul_div_cancel' (by omega)] at hm1
  -- the page
  have hrun2 : k.Path ⟨k.im.loc 6, d1⟩ ⟨k.im.loc 13, line k.im.addr zero_done d1⟩ :=
    runs_part zero_done 13 ⟨_, rfl⟩ (by rfl) rfl
  obtain ⟨hm2, -, h2t0, h2t1, h2t2, h2sp⟩ := zero_done.spec k d1
  have hw1 : Words k d1.mem := by
    apply k.code_words hw
    intro x hx
    rw [hm1]
    exact fill_out _ _ _ _ _ (k.code_bss x hx)
  rw [hw1.start_sp] at h2sp
  obtain ⟨d3, hrun3, hm3, -, h3t2, h3sp⟩ := @ptbl_zero_loop.spec k (line k.im.addr zero_done d1) 1023
    (by norm_num) (by rw [h2t0, h2t1]; rfl)
  rw [h2t0, hm2] at hm3
  rw [h2t2] at h3t2
  rw [h2sp] at h3sp
  -- the entries
  have hrun4 : k.Path ⟨k.im.loc 16, d3⟩ ⟨k.im.loc 23, line k.im.addr ptbl_identity d3⟩ :=
    runs_part ptbl_identity 23 ⟨_, rfl⟩ (by rfl) rfl
  obtain ⟨hm4, -, h4t0, h4t1, h4t2, h4t3, h4t4⟩ := ptbl_identity.spec k h3t2
  obtain ⟨c, hc⟩ : ∃ c, k.memory_top.toNat / 0x400000 = 768 + c + 1 :=
    ⟨k.memory_top.toNat / 0x400000 - 769, by omega⟩
  have h4t3' : (line k.im.addr ptbl_identity d3).get t3 = BitVec.ofNat 32 (0xC00 + 4 * (0 + c + 1)) := by
    rw [h4t3, h3sp]
    apply BitVec.eq_of_toNat_eq
    rw [BitVec.toNat_ushiftRight, Nat.shiftRight_eq_div_pow, BitVec.toNat_ofNat]
    omega
  obtain ⟨d5, hrun5, hpte5, hframe5, -, h5t2⟩ := @ptbl_map_loop.spec k
    (line k.im.addr ptbl_identity d3) c 0 (by omega) k.pdir hp h4t2 (by rw [h4t1]; rfl) h4t0 h4t4 h4t3'
  have hrun6 : k.Path ⟨k.im.loc 28, d5⟩ ⟨k.im.loc 32, line k.im.addr ptbl_mmio d5⟩ :=
    runs_part ptbl_mmio 32 ⟨_, rfl⟩ (by rfl) rfl
  obtain ⟨hm6, -, h6t2⟩ := ptbl_mmio.spec k h5t2
  have hrun7 : k.Path ⟨k.im.loc 32, line k.im.addr ptbl_mmio d5⟩
      ⟨k.im.loc 42, line k.im.addr enable_paging (line k.im.addr ptbl_mmio d5)⟩ :=
    runs_part enable_paging 42 ⟨_, rfl⟩ (by rfl) rfl
  obtain ⟨hm7, hsatp⟩ := enable_paging.spec k h6t2
  generalize line k.im.addr enable_paging (line k.im.addr ptbl_mmio d5) = d7 at hrun7 hm7 hsatp
  have hframe : ∀ x, ¬ InPage k.pdir x →
      (k.bss_end - k.bss_start).toNat ≤ dist (kva_to_pa k.bss_start) x → d7.mem x = d.mem x := by
    intro x hx hbss
    rw [hm7, hm6, setPte_frame _ _ hp (by omega) hx, hframe5 x hx, hm4,
      setPte_frame _ _ hp (by omega) hx, hm3, fill_out _ _ _ _ _ (not_inPage hp hx), hm1,
      fill_out _ _ _ _ _ hbss]
    rfl
  -- the jump
  have hw7 : Words k d7.mem := k.code_words hw fun x hx => hframe x (k.code_dir x hx) (k.code_bss x hx)
  have hrun8 : k.Path ⟨k.im.loc 42, d7⟩ ⟨k.im.loc 44, line k.im.addr [la t0 .start_pc, lw t0 0 t0] d7⟩ :=
    runs_part [la t0 .start_pc, lw t0 0 t0] 44 ⟨_, rfl⟩ (by rfl) rfl
  have h8t0 : (line k.im.addr [la t0 .start_pc, lw t0 0 t0] d7).get t0 = k.start := by
    rw [← hw7.start_pc]
    simp [act, get_set]
  have hgo : goes k.im.addr (k.im.loc 45) (jr t0) (line k.im.addr [la t0 .start_pc, lw t0 0 t0] d7) =
      k.start := by
    have hmask := even_masked k.start_even
    rw [← h8t0] at hmask
    exact hmask.trans h8t0
  have hrun9 : k.Path ⟨k.im.loc 44, line k.im.addr [la t0 .start_pc, lw t0 0 t0] d7⟩
      ⟨k.start, line k.im.addr [la t0 .start_pc, lw t0 0 t0] d7⟩ :=
    runs_to (k.get (by rfl)) rfl rfl hgo
  have hrun := ((((((hrun0.trans hrun1).trans hrun2).trans hrun3).trans hrun4).trans hrun5).trans
    hrun6).trans ((hrun7.trans hrun8).trans hrun9)
  have hlast : ∀ e : Data, (line k.im.addr [la t0 .start_pc, lw t0 0 t0] e).mem = e.mem :=
    fun _ => rfl
  refine ⟨_, hrun, rfl, hsatp, ?_, hframe⟩
  refine entries_of_parts hc ?_ (by rw [← hm4]; exact hpte5) hm6 ((hlast d7).trans hm7)
  intro i hi
  apply pte_zeroed hp hi
  intro x hx
  rw [hm3]
  exact fill_in _ _ _ _ _ (dist_of_inPage hx)

end

end os_workshop.boot
