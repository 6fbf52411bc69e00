-- The dump of a page directory (dump_mmu of src/example/ex20-mmu.c). What it prints is the whole
-- address map: the lines, read back, send each address to where the walk of the hardware sends
-- it, and no address stands under two of them.
import OsWorkshop.DumpText
import OsWorkshop.Sv32

open os_workshop.memory os_workshop.sv32
open os_workshop.console (HexDigit hex_value)
open os_workshop.dump
open os_workshop.numerals
open os_workshop.printf (xprintf hex_text hex_item string_item)

namespace os_workshop.mmu_dump

/-! ## The code -/

def bit_letters : List Byte := "vrwxugad01".toList.map printf.chr

/-- The array `bits` of `dump_pte`, where the letter of bit `n` stands at `9 - n`. -/
def bits (pte : Word) : List Byte :=
  (List.range 10).reverse.map fun n =>
    if has pte (1 <<< n) then bit_letters.getD n 0 else printf.chr '-'

def dump_pte (addr vaddr pte sz : Word) : Option (List Byte) :=
  xprintf "%08x %08x %08x0 %08x %s\n"
    [.word addr, .word vaddr, .word ((pte &&& 0xFFFFFC00) >>> 2), .word sz, .str (some (bits pte))]

def dump_mmu0 (m : Mem) (ptbl vaddr : Word) : Option (List Byte) := do
  let texts ← (List.range 1024).mapM fun n =>
    let addr := ptbl + BitVec.ofNat 32 (4 * n)
    dump_pte addr (vaddr ||| BitVec.ofNat 32 n <<< 12) (ld32 m addr) (4 * 1024)
  return texts.flatten

/-- The MMU is still off, so the loads go to the addresses as they are. The printing touches no
table. -/
def dump_mmu (m : Mem) (ptbl : Word) : Option (List Byte) := do
  let head ← xprintf "pte addr vaddr    paddr     size     flags\n" []
  let rule ← xprintf "-------- -------- --------- -------- ----------\n" []
  let texts ← (List.range 1024).mapM fun n => do
    let addr := ptbl + BitVec.ofNat 32 (4 * n)
    let pte := ld32 m addr
    if has pte PTE_V then
      let text ← dump_pte addr (BitVec.ofNat 32 n <<< 22) pte (4 * 1024 * 1024)
      if has pte (PTE_X ||| PTE_W ||| PTE_R) then
        return text
      else
        let more ← dump_mmu0 m ((pte &&& 0xFFFFFC00) <<< 2) (BitVec.ofNat 32 n <<< 22)
        return text ++ more
    else
      return []
  return head ++ rule ++ texts.flatten

/-! ## The reader -/

/-- A line of the dump. -/
structure Line where
  addr : Nat
  vaddr : Nat
  paddr : Nat
  size : Nat
  flags : List Byte

def read_line (s : List Byte) : Line :=
  let fields := pieces space s
  let number (i : Nat) := hex_value (fields.getD i [])
  ⟨number 0, number 1, number 2, number 3, fields.getD 4 []⟩

/-- The lines under the two of the head. -/
def read_lines (s : List Byte) : List Line := ((pieces newline s).drop 2).map read_line

/-- The bits whose letters are shown. -/
def read_flags (s : List Byte) : Word :=
  (List.range 10).foldl (fun w n =>
    if s.contains (bit_letters.getD n 0) then w ||| (1 : Word) <<< n else w) 0

/-- A line that maps what it covers. -/
def Line.leaf (l : Line) : Prop :=
  faulty (read_flags l.flags) = false ∧ isLeaf (read_flags l.flags) = true ∧ l.paddr % l.size = 0

def Line.covers (l : Line) (va : Word) : Prop :=
  l.vaddr ≤ va.toNat ∧ va.toNat < l.vaddr + l.size

instance (l : Line) : Decidable l.leaf := inferInstanceAs (Decidable (_ ∧ _))

instance (l : Line) (va : Word) : Decidable (l.covers va) := inferInstanceAs (Decidable (_ ∧ _))

/-- Where an address goes by the one line that maps it. -/
def translate (ls : List Line) (va : Word) : Option (Nat × Word) :=
  match ls.filter fun l => l.leaf ∧ l.covers va with
  | [l] => some (l.paddr + (va.toNat - l.vaddr), read_flags l.flags)
  | _ => none

/-! ## The lines that are printed -/

/-- What a line says of the entry `pte` at `addr`. -/
def line (addr vaddr pte sz : Word) : Line :=
  ⟨addr.toNat, vaddr.toNat, ppn pte * 4096, sz.toNat, bits pte⟩

/-- The table that an entry points to, as the code has it. -/
def table_of (pte : Word) : Word := (pte &&& 0xFFFFFC00) <<< 2

def table_line (m : Mem) (t vaddr : Word) (n : Nat) : Line :=
  line (t + BitVec.ofNat 32 (4 * n)) (vaddr ||| BitVec.ofNat 32 n <<< 12) (pte m t n) (4 * 1024)

def dir_lines (m : Mem) (d : Word) (n : Nat) : List Line :=
  if has (pte m d n) PTE_V then
    line (d + BitVec.ofNat 32 (4 * n)) (BitVec.ofNat 32 n <<< 22) (pte m d n) (4 * 1024 * 1024) ::
      if has (pte m d n) (PTE_X ||| PTE_W ||| PTE_R) then []
      else (List.range 1024).map (table_line m (table_of (pte m d n)) (BitVec.ofNat 32 n <<< 22))
  else []

def all_lines (m : Mem) (d : Word) : List Line := (List.range 1024).flatMap (dir_lines m d)

/-! ## Flags -/

theorem has_shift (x : Word) {n : Nat} (h : n < 32) : has x (1 <<< n) = x.getLsbD n :=
  has_eq_getLsbD x n h

theorem letter_inj : ∀ k < 10, ∀ n < 10, bit_letters.getD k 0 = bit_letters.getD n 0 → k = n := by
  decide

theorem letter_ne_dash : ∀ n < 10, printf.chr '-' ≠ bit_letters.getD n 0 := by decide

/-- The letter of a bit is shown where the bit is set. -/
theorem letter_mem_bits (pte : Word) {n : Nat} (hn : n < 10) :
    bit_letters.getD n 0 ∈ bits pte ↔ pte.getLsbD n = true := by
  unfold bits
  rw [List.mem_map]
  constructor
  · rintro ⟨k, hk, he⟩
    have hk' : k < 10 := by simpa using hk
    rw [has_shift pte (by omega)] at he
    split at he
    · rename_i hbit
      rwa [← letter_inj k hk' n hn he]
    · exact absurd he (letter_ne_dash n hn)
  · intro hbit
    exact ⟨n, by simpa using hn, by rw [has_shift pte (by omega), if_pos hbit]⟩

theorem read_flags_bits (pte : Word) : read_flags (bits pte) = flagsOf pte := by
  have hread : read_flags (bits pte) = (List.range 10).foldl
      (fun w n => if pte.getLsbD n then w ||| (1 : Word) <<< n else w) (0 : Word) := by
    unfold read_flags
    apply List.foldl_ext
    intro w n hn
    simp only [List.contains_iff_mem, letter_mem_bits pte (List.mem_range.mp hn)]
  have hbit : ∀ (k : Nat) (w : Word) (i : Nat), k ≤ 10 → i < 32 →
      ((List.range k).foldl (fun w n => if pte.getLsbD n then w ||| (1 : Word) <<< n else w)
        w).getLsbD i = (w.getLsbD i || (decide (i < k) && pte.getLsbD i)) := by
    intro k w i hk hi
    induction k with
    | zero => simp
    | succ k ih =>
      have hshift : ((1 : Word) <<< k).getLsbD i = decide (i = k) := by
        change (BitVec.twoPow 32 k).getLsbD i = _
        rw [BitVec.getLsbD_twoPow, decide_eq_true (by omega : k < 32), Bool.true_and,
          decide_eq_decide]
        exact eq_comm
      rw [List.range_succ, List.foldl_append, List.foldl_cons, List.foldl_nil]
      by_cases hset : pte.getLsbD k = true
      · rw [if_pos hset, BitVec.getLsbD_or, ih (by omega), hshift]
        by_cases he : i = k
        · subst he
          simp [hset]
        · have hlt : i < k + 1 ↔ i < k := by omega
          simp [he, hlt]
      · rw [if_neg hset, ih (by omega)]
        by_cases he : i = k
        · subst he
          simp [hset]
        · have hlt : i < k + 1 ↔ i < k := by omega
          simp [hlt]
  rw [hread]
  apply BitVec.eq_of_getLsbD_eq
  intro i hi
  rw [hbit 10 0 i le_rfl hi]
  unfold flagsOf
  interval_cases i <;> simp

/-! ## The text of a line -/

def zero : Byte := printf.chr '0'

/-- The last digit of the third number is printed by the format. -/
def line_text (addr vaddr pte sz : Word) : List Byte :=
  hex_text 8 addr.toNat ++ space :: (hex_text 8 vaddr.toNat ++
    space :: ((hex_text 8 ((pte &&& 0xFFFFFC00) >>> 2).toNat ++ [zero]) ++
      space :: (hex_text 8 sz.toNat ++ space :: bits pte)))

theorem bits_length (pte : Word) : (bits pte).length = 10 := by simp [bits]

theorem bits_printed (pte : Word) : ∀ c ∈ bits pte, c ≠ 0 ∧ c ≠ space ∧ c ≠ newline := by
  have hletter : ∀ n < 10, bit_letters.getD n 0 ≠ 0 ∧ bit_letters.getD n 0 ≠ space ∧
      bit_letters.getD n 0 ≠ newline := by decide
  intro c hc
  unfold bits at hc
  obtain ⟨n, hn, rfl⟩ := List.mem_map.mp hc
  split
  · exact hletter n (by simpa using hn)
  · decide

theorem line_text_length (addr vaddr pte sz : Word) : (line_text addr vaddr pte sz).length = 47 := by
  simp only [line_text, List.length_append, List.length_cons, List.length_nil, hex_word_length,
    bits_length]

theorem line_text_printed (addr vaddr pte sz : Word) :
    ∀ c ∈ line_text addr vaddr pte sz, c ≠ 0 ∧ c ≠ newline := by
  have hhex : ∀ n c, c ∈ hex_text 8 n → c ≠ 0 ∧ c ≠ newline := by
    intro n c hc
    have hdigit := hex_text_digits c hc
    exact ⟨by rintro rfl; exact absurd hdigit (by decide),
      by rintro rfl; exact absurd hdigit (by decide)⟩
  intro c hc
  simp only [line_text, List.mem_append, List.mem_cons, List.not_mem_nil, or_false] at hc
  rcases hc with hc | rfl | hc | rfl | (hc | rfl) | rfl | hc | rfl | hc
  any_goals exact hhex _ _ hc
  any_goals decide
  exact ⟨(bits_printed pte c hc).1, (bits_printed pte c hc).2.2⟩

/-- The directives and the plain characters of the format. -/
def line_items (addr vaddr pte sz : Word) : List printf.Item :=
  [hex_item 8 addr, .literal space (by decide), hex_item 8 vaddr, .literal space (by decide),
    hex_item 8 ((pte &&& 0xFFFFFC00) >>> 2), .literal zero (by decide), .literal space (by decide),
    hex_item 8 sz, .literal space (by decide), string_item (bits pte) (by simp [bits_length]),
    .literal newline (by decide)]

theorem dump_pte_text (addr vaddr pte sz : Word) :
    dump_pte addr vaddr pte sz = some (line_text addr vaddr pte sz ++ [newline]) := by
  obtain ⟨schars, sargs, sprints⟩ := printf.string_item_spec (bits pte) (by simp [bits_length])
  rw [printf.c_str_of_no_nul fun h => (bits_printed pte 0 h).1 rfl] at sprints
  apply printf.xprintf_whole (line_items addr vaddr pte sz)
  · simp only [line_items, List.flatMap_cons, List.flatMap_nil, schars,
      printf.hex_item_chars (by norm_num : 0 < 8) (by norm_num : 8 < 10)]
    rfl
  · simp only [line_items, List.flatMap_cons, List.flatMap_nil, sargs, printf.hex_item_args]
    rfl
  · simp only [line_items, List.flatMap_cons, List.flatMap_nil, sprints,
      printf.hex_item_prints (by norm_num : 8 < 10)]
    simp [line_text, printf.Item.prints]
  · simp [line_text_length]
  · intro h
    rcases List.mem_append.mp h with h | h
    · exact (line_text_printed _ _ _ _ 0 h).1 rfl
    · exact absurd h (by decide)

/-! ## A line read back -/

theorem and_frame (pte : Word) : (pte &&& 0xFFFFFC00).toNat = ppn pte * 1024 := by
  have h : pte &&& (0xFFFFFC00 : Word) = pte >>> 10 <<< 10 := by
    ext i hi
    simp only [BitVec.getElem_and, BitVec.getElem_shiftLeft]
    interval_cases i <;> simp
  unfold ppn
  rw [h, BitVec.toNat_shiftLeft, BitVec.toNat_ushiftRight, Nat.shiftRight_eq_div_pow,
    Nat.shiftLeft_eq]
  omega

theorem hex_value_frame (pte : Word) :
    hex_value (hex_text 8 ((pte &&& 0xFFFFFC00) >>> 2).toNat ++ [zero]) = ppn pte * 4096 := by
  have hdigits : ∀ c ∈ hex_text 8 ((pte &&& 0xFFFFFC00) >>> 2).toNat ++ [zero], HexDigit c := by
    intro c hc
    rcases List.mem_append.mp hc with hc | hc
    · exact hex_text_digits c hc
    · rw [List.mem_singleton.mp hc]
      decide
  have hfront := hex_value_text 8 ((pte &&& 0xFFFFFC00) >>> 2).toNat (t := []) (by simp)
  have hframe := and_frame pte
  rw [List.append_nil] at hfront
  unfold hex_value at hfront ⊢
  rw [List.takeWhile_eq_self_iff.mpr (by simpa using hex_text_digits)] at hfront
  rw [List.takeWhile_eq_self_iff.mpr (by simpa using hdigits), List.foldl_append, hfront,
    BitVec.toNat_ushiftRight, hframe, Nat.shiftRight_eq_div_pow]
  simp only [List.foldl_cons, List.foldl_nil]
  have hzero : console.hex_digit zero = 0 := by decide
  rw [hzero]
  omega

theorem space_not_hex (width n : Nat) : space ∉ hex_text width n :=
  not_mem_hex_text (by decide) _ _

theorem read_line_text (addr vaddr pte sz : Word) :
    read_line (line_text addr vaddr pte sz) = line addr vaddr pte sz := by
  have hends : ∀ t, Ends space (space :: t) := by
    intro t d t' h
    exact (List.cons.inj h).1.symm
  have hbits : pieces space (bits pte) = [bits pte] := by
    have hlast := @pieces_append space (bits pte) [] (List.ne_nil_of_length_eq_add_one
      (bits_length pte)) (fun h => (bits_printed pte _ h).2.1 rfl) (by intro _ _ h; cases h)
    rwa [List.append_nil, pieces_nil] at hlast
  have hframe : space ∉ hex_text 8 ((pte &&& 0xFFFFFC00) >>> 2).toNat ++ [zero] := by
    rw [List.mem_append, not_or]
    exact ⟨space_not_hex _ _, by decide⟩
  have hpieces : pieces space (line_text addr vaddr pte sz) =
      [hex_text 8 addr.toNat, hex_text 8 vaddr.toNat,
        hex_text 8 ((pte &&& 0xFFFFFC00) >>> 2).toNat ++ [zero], hex_text 8 sz.toNat, bits pte] := by
    unfold line_text
    rw [pieces_append (hex_text_ne_nil _ _) (space_not_hex _ _) (hends _), pieces_cons,
      pieces_append (hex_text_ne_nil _ _) (space_not_hex _ _) (hends _), pieces_cons,
      pieces_append (by simp) hframe (hends _), pieces_cons,
      pieces_append (hex_text_ne_nil _ _) (space_not_hex _ _) (hends _), pieces_cons, hbits]
  have hnumber : ∀ n, hex_value (hex_text 8 n) = n := by
    intro n
    simpa using hex_value_text 8 n (t := []) (by simp)
  unfold read_line line
  rw [hpieces]
  simp only [List.getD_cons_zero, List.getD_cons_succ, hnumber, hex_value_frame]

/-! ## All lines -/

theorem pieces_lines (ss : List (List Byte)) (h : ∀ s ∈ ss, s ≠ [] ∧ newline ∉ s) :
    pieces newline (ss.flatMap fun s => s ++ [newline]) = ss := by
  induction ss with
  | nil => exact pieces_nil
  | cons s ss ih =>
    obtain ⟨hne, hnot⟩ := h s List.mem_cons_self
    have hends : Ends newline (newline :: ss.flatMap fun s => s ++ [newline]) := by
      intro d t' he
      exact (List.cons.inj he).1.symm
    rw [List.flatMap_cons, List.append_assoc, List.singleton_append, pieces_append hne hnot hends,
      pieces_cons, ih fun s hs => h s (List.mem_cons_of_mem _ hs)]

def head_text : List Byte := "pte addr vaddr    paddr     size     flags".toList.map printf.chr

def rule_text : List Byte :=
  "-------- -------- --------- -------- ----------".toList.map printf.chr

def table_texts (m : Mem) (t vaddr : Word) : List (List Byte) :=
  (List.range 1024).map fun n => line_text (t + BitVec.ofNat 32 (4 * n))
    (vaddr ||| BitVec.ofNat 32 n <<< 12) (pte m t n) (4 * 1024)

def dir_texts (m : Mem) (d : Word) (n : Nat) : List (List Byte) :=
  if has (pte m d n) PTE_V then
    line_text (d + BitVec.ofNat 32 (4 * n)) (BitVec.ofNat 32 n <<< 22) (pte m d n)
        (4 * 1024 * 1024) ::
      if has (pte m d n) (PTE_X ||| PTE_W ||| PTE_R) then []
      else table_texts m (table_of (pte m d n)) (BitVec.ofNat 32 n <<< 22)
  else []

/-- All that `dump_mmu` prints, line by line. -/
def all_texts (m : Mem) (d : Word) : List (List Byte) :=
  head_text :: rule_text :: (List.range 1024).flatMap (dir_texts m d)

theorem mapM_some {α β : Type} {f : α → Option β} {g : α → β} (h : ∀ a, f a = some (g a))
    (l : List α) : l.mapM f = some (l.map g) := by
  induction l with
  | nil => rfl
  | cons a l ih => rw [List.mapM_cons, h, ih]; rfl

theorem dump_mmu0_text (m : Mem) (t vaddr : Word) :
    dump_mmu0 m t vaddr = some ((table_texts m t vaddr).flatMap fun s => s ++ [newline]) := by
  unfold dump_mmu0
  dsimp only
  rw [mapM_some fun n => dump_pte_text _ _ _ _]
  simp only [Option.bind_eq_bind, Option.bind_some, table_texts, List.flatMap_map]
  rfl

theorem dump_mmu_text (m : Mem) (d : Word) :
    dump_mmu m d = some ((all_texts m d).flatMap fun s => s ++ [newline]) := by
  have hhead : xprintf "pte addr vaddr    paddr     size     flags\n" [] =
      some (head_text ++ [newline]) := rfl
  have hrule : xprintf "-------- -------- --------- -------- ----------\n" [] =
      some (rule_text ++ [newline]) := rfl
  have hdir : ∀ n, (do
      let addr := d + BitVec.ofNat 32 (4 * n)
      let pte := ld32 m addr
      if has pte PTE_V then
        let text ← dump_pte addr (BitVec.ofNat 32 n <<< 22) pte (4 * 1024 * 1024)
        if has pte (PTE_X ||| PTE_W ||| PTE_R) then
          return text
        else
          let more ← dump_mmu0 m ((pte &&& 0xFFFFFC00) <<< 2) (BitVec.ofNat 32 n <<< 22)
          return text ++ more
      else
        return []) = some ((dir_texts m d n).flatMap fun s => s ++ [newline]) := by
    intro n
    dsimp only
    unfold dir_texts table_of pte
    rw [dump_pte_text]
    by_cases hv : has (ld32 m (d + BitVec.ofNat 32 (4 * n))) PTE_V = true
    · rw [if_pos hv, if_pos hv]
      by_cases hx : has (ld32 m (d + BitVec.ofNat 32 (4 * n))) (PTE_X ||| PTE_W ||| PTE_R) = true
      · simp [hx]
      · simp [hx, dump_mmu0_text]
    · rw [if_neg hv, if_neg hv]
      rfl
  unfold dump_mmu
  rw [hhead, hrule, mapM_some hdir]
  simp only [Option.bind_eq_bind, Option.bind_some, all_texts, List.flatMap_cons,
    List.flatMap_assoc]
  simp [List.flatMap]

theorem text_printed {m : Mem} {d : Word} : ∀ s ∈ all_texts m d, s ≠ [] ∧ newline ∉ s := by
  have hline : ∀ addr vaddr pte sz, line_text addr vaddr pte sz ≠ [] ∧
      newline ∉ line_text addr vaddr pte sz := fun addr vaddr pte sz =>
    ⟨List.ne_nil_of_length_eq_add_one (line_text_length _ _ _ _),
      fun h => (line_text_printed _ _ _ _ _ h).2 rfl⟩
  intro s hs
  unfold all_texts at hs
  rw [List.mem_cons, List.mem_cons, List.mem_flatMap] at hs
  obtain rfl | rfl | ⟨n, _, hs⟩ := hs
  · decide
  · decide
  · unfold dir_texts at hs
    split at hs
    · rcases List.mem_cons.mp hs with rfl | hs
      · exact hline _ _ _ _
      · split at hs
        · cases hs
        · obtain ⟨k, _, rfl⟩ := List.mem_map.mp hs
          exact hline _ _ _ _
    · cases hs

theorem read_table_texts (m : Mem) (t vaddr : Word) :
    (table_texts m t vaddr).map read_line = (List.range 1024).map (table_line m t vaddr) := by
  unfold table_texts
  rw [List.map_map]
  apply List.map_congr_left
  intro k _
  exact read_line_text _ _ _ _

theorem read_dir_texts (m : Mem) (d : Word) (n : Nat) :
    (dir_texts m d n).map read_line = dir_lines m d n := by
  unfold dir_texts dir_lines
  split
  · rw [List.map_cons, read_line_text]
    split
    · rfl
    · rw [read_table_texts]
  · rfl

theorem read_lines_text (m : Mem) (d : Word) :
    read_lines ((all_texts m d).flatMap fun s => s ++ [newline]) = all_lines m d := by
  unfold read_lines
  rw [pieces_lines _ text_printed]
  unfold all_texts all_lines
  rw [List.drop_succ_cons, List.drop_succ_cons, List.drop_zero, List.map_flatMap]
  simp only [read_dir_texts]

/-! ## The one line of an address -/

theorem filter_flatMap_only {β : Type} (p : β → Bool) (f : Nat → List β) {k N : Nat} (hk : k < N)
    (h : ∀ j, j < N → j ≠ k → (f j).filter p = []) :
    ((List.range N).flatMap f).filter p = (f k).filter p := by
  induction N with
  | zero => omega
  | succ N ih =>
    rw [List.range_succ, List.flatMap_append, List.filter_append, List.flatMap_singleton]
    by_cases he : k = N
    · subst he
      have hfront : ((List.range k).flatMap f).filter p = [] := by
        rw [List.filter_flatMap, List.flatMap_eq_nil_iff]
        intro j hj
        have hlt := List.mem_range.mp hj
        exact h j (by omega) (by omega)
      rw [hfront, List.nil_append]
    · rw [ih (by omega) fun j hj => h j (by omega), h N (by omega) (Ne.symm he), List.append_nil]

theorem dir_vaddr {n : Nat} (hn : n < 1024) : (BitVec.ofNat 32 n <<< 22).toNat = n * 0x400000 := by
  rw [BitVec.toNat_shiftLeft, BitVec.toNat_ofNat, Nat.shiftLeft_eq]
  omega

theorem table_vaddr {n k : Nat} (hn : n < 1024) (hk : k < 1024) :
    (BitVec.ofNat 32 n <<< 22 ||| BitVec.ofNat 32 k <<< 12).toNat = n * 0x400000 + k * 0x1000 := by
  have hlow : (BitVec.ofNat 32 k <<< 12).toNat = k * 0x1000 := by
    rw [BitVec.toNat_shiftLeft, BitVec.toNat_ofNat, Nat.shiftLeft_eq]
    omega
  rw [BitVec.toNat_or, dir_vaddr hn, hlow]
  have hor := Nat.two_pow_add_eq_or_of_lt (show k * 0x1000 < 2 ^ 22 by omega) n
  have hmul : n * 0x400000 = 2 ^ 22 * n := by omega
  rw [hmul, hor]

/-- The lines of one entry of the directory cover its four megabytes. -/
theorem covers_of_dir_lines {m : Mem} {d va : Word} {n : Nat} (hn : n < 1024) {l : Line}
    (hl : l ∈ dir_lines m d n) (hc : l.covers va) : vpn1 va = n := by
  unfold Line.covers at hc
  unfold dir_lines at hl
  unfold vpn1
  split at hl
  · rcases List.mem_cons.mp hl with rfl | hl
    · simp only [line, dir_vaddr hn] at hc
      have hsize : ((4 * 1024 * 1024 : Word)).toNat = 0x400000 := rfl
      omega
    · split at hl
      · cases hl
      · obtain ⟨k, hk, rfl⟩ := List.mem_map.mp hl
        have hk' := List.mem_range.mp hk
        simp only [table_line, line, table_vaddr hn hk'] at hc
        have hsize : ((4 * 1024 : Word)).toNat = 0x1000 := rfl
        omega
  · cases hl

theorem covers_of_table_line {m : Mem} {t va : Word} {n k : Nat} (hn : n < 1024) (hk : k < 1024)
    (hc : (table_line m t (BitVec.ofNat 32 n <<< 22) k).covers va) : vpn0 va = k := by
  unfold Line.covers at hc
  simp only [table_line, line, table_vaddr hn hk] at hc
  have hsize : ((4 * 1024 : Word)).toNat = 0x1000 := rfl
  unfold vpn0
  omega

theorem has_or (x a b : Word) : has x (a ||| b) = (has x a || has x b) := by
  unfold has
  rw [BitVec.and_or_distrib_left, ← Bool.decide_or, decide_eq_decide]
  simp only [ne_eq, BitVec.ofNat_eq_ofNat, BitVec.or_eq_zero_iff]
  tauto

theorem faulty_flagsOf (pte : Word) : faulty (flagsOf pte) = faulty pte := by
  have h0 : has (flagsOf pte) PTE_V = has pte PTE_V := has_flagsOf pte 0 (by omega)
  have h1 : has (flagsOf pte) PTE_R = has pte PTE_R := has_flagsOf pte 1 (by omega)
  have h2 : has (flagsOf pte) PTE_W = has pte PTE_W := has_flagsOf pte 2 (by omega)
  unfold faulty
  rw [h0, h1, h2]

theorem isLeaf_flagsOf (pte : Word) : isLeaf (flagsOf pte) = isLeaf pte := by
  have h1 : has (flagsOf pte) PTE_R = has pte PTE_R := has_flagsOf pte 1 (by omega)
  have h3 : has (flagsOf pte) PTE_X = has pte PTE_X := has_flagsOf pte 3 (by omega)
  unfold isLeaf
  rw [h1, h3]

theorem leaf_line (addr vaddr pte sz : Word) : (line addr vaddr pte sz).leaf ↔
    faulty pte = false ∧ isLeaf pte = true ∧ ppn pte * 4096 % sz.toNat = 0 := by
  simp only [Line.leaf, line, read_flags_bits, faulty_flagsOf, isLeaf_flagsOf]

theorem table_of_toNat {pte : Word} (h : ppn pte < 2 ^ 20) : (table_of pte).toNat = ppn pte * 0x1000 := by
  unfold table_of
  rw [BitVec.toNat_shiftLeft, and_frame, Nat.shiftLeft_eq]
  omega

/-- The table that an address is walked through, if there is one, is in the memory. -/
def InReach (m : Mem) (d va : Word) : Prop :=
  faulty (pte m d (vpn1 va)) = false → isLeaf (pte m d (vpn1 va)) = false →
    ppn (pte m d (vpn1 va)) < 2 ^ 20

instance (m : Mem) (d va : Word) : Decidable (InReach m d va) :=
  inferInstanceAs (Decidable (_ → _ → _))

/-- The one line, among those of its table. -/
theorem translate_table (m : Mem) (t va : Word) :
    ((List.range 1024).map (table_line m t (BitVec.ofNat 32 (vpn1 va) <<< 22))).filter
        (fun l => l.leaf ∧ l.covers va) =
      if faulty (pte m t (vpn0 va)) = false ∧ isLeaf (pte m t (vpn0 va)) = true then
        [table_line m t (BitVec.ofNat 32 (vpn1 va) <<< 22) (vpn0 va)]
      else [] := by
  have hothers : ∀ j, j < 1024 → j ≠ vpn0 va →
      [table_line m t (BitVec.ofNat 32 (vpn1 va) <<< 22) j].filter
        (fun l => l.leaf ∧ l.covers va) = [] := by
    intro j hj hne
    rw [List.filter_cons, List.filter_nil, if_neg]
    simp only [decide_eq_true_eq, not_and]
    exact fun _ hc => hne (covers_of_table_line (vpn1_lt va) hj hc).symm
  have hcovers : (table_line m t (BitVec.ofNat 32 (vpn1 va) <<< 22) (vpn0 va)).covers va := by
    have hsize : ((4 * 1024 : Word)).toNat = 0x1000 := rfl
    unfold Line.covers
    simp only [table_line, line, table_vaddr (vpn1_lt va) (vpn0_lt va), hsize]
    unfold vpn1 vpn0
    omega
  have hleaf : (table_line m t (BitVec.ofNat 32 (vpn1 va) <<< 22) (vpn0 va)).leaf ↔
      faulty (pte m t (vpn0 va)) = false ∧ isLeaf (pte m t (vpn0 va)) = true := by
    have hsize : ((4 * 1024 : Word)).toNat = 0x1000 := rfl
    have hmod : ppn (pte m t (vpn0 va)) * 4096 % 0x1000 = 0 := by omega
    rw [table_line, leaf_line, hsize]
    tauto
  rw [List.map_eq_flatMap, filter_flatMap_only _ _ (vpn0_lt va) hothers, List.filter_cons,
    List.filter_nil]
  simp only [hleaf, hcovers, and_true, decide_eq_true_eq]

theorem translate_lines {m : Mem} {d va : Word} (hd : PageAligned d) (hin : InReach m d va) :
    translate (all_lines m d) va = walk m d.toNat va := by
  have hothers : ∀ j, j < 1024 → j ≠ vpn1 va →
      (dir_lines m d j).filter (fun l => l.leaf ∧ l.covers va) = [] := by
    intro j hj hne
    rw [List.filter_eq_nil_iff]
    intro l hl
    simp only [decide_eq_true_eq, not_and]
    exact fun _ hc => hne (covers_of_dir_lines hj hl hc).symm
  have hsize : ((4 * 1024 * 1024 : Word)).toNat = 0x400000 := rfl
  unfold translate all_lines
  rw [filter_flatMap_only _ _ (vpn1_lt va) hothers]
  unfold dir_lines
  by_cases hv : has (pte m d (vpn1 va)) PTE_V = true
  · have hcovers : ∀ pte : Word, (line (d + BitVec.ofNat 32 (4 * vpn1 va))
        (BitVec.ofNat 32 (vpn1 va) <<< 22) pte (4 * 1024 * 1024)).covers va := by
      intro pte
      unfold Line.covers
      simp only [line, dir_vaddr (vpn1_lt va), hsize]
      unfold vpn1
      omega
    rw [if_pos hv, List.filter_cons]
    simp only [leaf_line, hsize, hcovers, and_true, decide_eq_true_eq, has_or]
    unfold walk
    rw [pteAt_page m hd (vpn1_lt va)]
    dsimp only
    generalize he : pte m d (vpn1 va) = e at hv hin ⊢
    by_cases hx : (has e PTE_X || has e PTE_W || has e PTE_R) = true
    · rw [if_pos hx, List.filter_nil]
      by_cases hf : faulty e = true
      · simp [hf]
      · have hl : isLeaf e = true := by
          simp only [faulty, hv, isLeaf, Bool.or_eq_true] at hf hx ⊢
          revert hf hx
          cases has e PTE_R <;> cases has e PTE_W <;> cases has e PTE_X <;> simp
        by_cases ha : ppn e % 0x400 = 0
        · have ha' : ppn e * 4096 % 4194304 = 0 := by omega
          have hva : ppn e * 4096 + (va.toNat - vpn1 va * 0x400000) =
              ppn e * 0x1000 + va.toNat % 0x400000 := by
            unfold vpn1
            omega
          simp [hf, hl, ha, ha', line, dir_vaddr (vpn1_lt va), read_flags_bits, hva]
        · have ha' : ¬ ppn e * 4096 % 4194304 = 0 := by omega
          simp [hf, hl, ha, ha']
    · have hxs : has e PTE_X = false ∧ has e PTE_W = false ∧ has e PTE_R = false := by
        simpa [and_assoc] using hx
      have hf : faulty e = false := by simp [faulty, hv, hxs]
      have hl : isLeaf e = false := by simp [isLeaf, hxs]
      have hnear : ppn e < 2 ^ 20 := by
        subst he
        exact hin hf hl
      have htable := table_of_toNat hnear
      have ht : PageAligned (table_of e) := by
        unfold PageAligned
        omega
      have hentry := pteAt_page m ht (vpn0_lt va)
      rw [htable] at hentry
      rw [if_neg hx, translate_table, if_neg (by simp [hl])]
      simp only [hf, hl, Bool.false_eq_true, if_false, hentry]
      by_cases hf0 : faulty (pte m (table_of e) (vpn0 va)) = true
      · simp [hf0]
      · by_cases hl0 : isLeaf (pte m (table_of e) (vpn0 va)) = true
        · have hva : ppn (pte m (table_of e) (vpn0 va)) * 4096 +
              (va.toNat - (vpn1 va * 0x400000 + vpn0 va * 0x1000)) =
                ppn (pte m (table_of e) (vpn0 va)) * 0x1000 + va.toNat % 0x1000 := by
            unfold vpn1 vpn0
            omega
          simp [hf0, hl0, table_line, line, table_vaddr (vpn1_lt va) (vpn0_lt va),
            read_flags_bits, hva]
        · simp [hf0, hl0]
  · have hfaulty : faulty (pte m d (vpn1 va)) = true := by simp [faulty, hv]
    rw [if_neg hv, walk_of_faulty hd hfaulty]
    rfl

theorem table_line_shows (m : Mem) (t vaddr : Word) (n : Nat) : ∃ a, (table_line m t vaddr n).addr =
    a.toNat ∧ (table_line m t vaddr n).paddr = ppn (ld32 m a) * 4096 ∧
      read_flags (table_line m t vaddr n).flags = flagsOf (ld32 m a) :=
  ⟨t + BitVec.ofNat 32 (4 * n), rfl, rfl, read_flags_bits _⟩

/-- A line shows the entry at its own address. -/
theorem line_shows {m : Mem} {d : Word} {l : Line} (hl : l ∈ all_lines m d) : ∃ a, l.addr =
    a.toNat ∧ l.paddr = ppn (ld32 m a) * 4096 ∧ read_flags l.flags = flagsOf (ld32 m a) := by
  obtain ⟨n, _, hl⟩ := List.mem_flatMap.mp hl
  unfold dir_lines at hl
  split at hl
  · rcases List.mem_cons.mp hl with rfl | hl
    · exact ⟨d + BitVec.ofNat 32 (4 * n), rfl, rfl, read_flags_bits _⟩
    · split at hl
      · cases hl
      · obtain ⟨k, _, rfl⟩ := List.mem_map.mp hl
        exact table_line_shows _ _ _ _
  · cases hl

/-! ## The directory of the example (start) -/

/-- The loop of `start` over the RAM. -/
def map_ram (pt1 : Word) : Nat → Word → Mem → Mem
  | 0, _, m => m
  | turns + 1, phys, m =>
    if phys < 0x42000000 then
      map_ram pt1 turns (phys + 0x00400000) (setPte m pt1 (phys >>> 22).toNat
        ((phys >>> 2) ||| PTE_D ||| PTE_A ||| PTE_X ||| PTE_W ||| PTE_R ||| PTE_V))
    else m

/-- The directory that `start` fills, at the end of the first 4MB of the RAM. -/
def pt1 : Word := 0x40000000 + 4 * 1024 * 1024 - 4096

/-- What `start` stores before it dumps the directory. -/
def start (m : Mem) : Mem :=
  let m := fill m pt1 0 4096
  let m := map_ram pt1 1024 0x40000000 m
  let i := ((0x41800000 : Word) >>> 22).toNat
  let m := setPte m pt1 i (pte m pt1 i &&& ~~~(PTE_A ||| PTE_D))
  setPte m pt1 ((0xF0000000 : Word) >>> 22).toNat
    (((0xF0000000 : Word) >>> 2) ||| PTE_D ||| PTE_A ||| PTE_W ||| PTE_R ||| PTE_V)

/-- The RAM and the registers of the devices, each address at itself. -/
def identity (va : Word) : Option (Nat × Word) :=
  if 0x40000000 ≤ va.toNat ∧ va.toNat < 0x42000000 then
    some (va.toNat, if 0x41800000 ≤ va.toNat ∧ va.toNat < 0x41C00000 then
      PTE_X ||| PTE_W ||| PTE_R ||| PTE_V
      else PTE_D ||| PTE_A ||| PTE_X ||| PTE_W ||| PTE_R ||| PTE_V)
  else if 0xF0000000 ≤ va.toNat ∧ va.toNat < 0xF0400000 then
    some (va.toNat, PTE_D ||| PTE_A ||| PTE_W ||| PTE_R ||| PTE_V)
  else none

theorem pte_set (m : Mem) {p : Word} (hp : PageAligned p) {i j : Nat} (hi : i < 1024)
    (hj : j < 1024) (v : Word) : pte (setPte m p i v) p j = if j = i then v else pte m p j := by
  split
  · rename_i h
    rw [h, pte_setPte_same]
  · rename_i h
    exact pte_setPte_ne m v hp hp hi hj (.inr (Ne.symm h))

/-- The entry of a megapage of the RAM. -/
def ram_entry (i : Nat) : Word := BitVec.ofNat 32 (i * 0x100000 + 0xCF)

theorem pte_map_ram (turns k : Nat) (hk : k ≤ 8) (hturns : 8 - k < turns) (m : Mem) {i : Nat}
    (hi : i < 1024) :
    pte (map_ram pt1 turns (BitVec.ofNat 32 (0x40000000 + k * 0x400000)) m) pt1 i =
      if 256 + k ≤ i ∧ i < 264 then ram_entry i else pte m pt1 i := by
  induction turns generalizing k m with
  | zero => omega
  | succ turns ih =>
    have hcond : BitVec.ofNat 32 (0x40000000 + k * 0x400000) < (0x42000000 : Word) ↔ k < 8 := by
      rw [BitVec.lt_def, BitVec.toNat_ofNat]
      change _ < 0x42000000 ↔ _
      omega
    unfold map_ram
    by_cases h8 : k < 8
    · have hnext : BitVec.ofNat 32 (0x40000000 + k * 0x400000) + 0x00400000 =
          BitVec.ofNat 32 (0x40000000 + (k + 1) * 0x400000) := by
        rw [BitVec.add_comm, show (0x00400000 : Word) = BitVec.ofNat 32 0x400000 from rfl,
          ← BitVec.ofNat_add]
        congr 1
        omega
      have hentry : ((BitVec.ofNat 32 (0x40000000 + k * 0x400000) >>> 2) ||| PTE_D ||| PTE_A |||
          PTE_X ||| PTE_W ||| PTE_R ||| PTE_V) = ram_entry (256 + k) := by
        interval_cases k <;> rfl
      have hindex : (BitVec.ofNat 32 (0x40000000 + k * 0x400000) >>> 22).toNat = 256 + k := by
        interval_cases k <;> rfl
      rw [if_pos (hcond.mpr h8), hnext, ih (k + 1) (by omega) (by omega), hentry, hindex,
        pte_set m (by decide) (by omega) hi]
      by_cases he : i = 256 + k
      · subst he
        rw [if_neg (by omega), if_pos rfl, if_pos (by omega)]
      · rw [if_neg he]
        congr 1
        exact propext (by omega)
    · rw [if_neg (by rwa [hcond]), if_neg (by omega)]

theorem pte_start (m : Mem) {i : Nat} (hi : i < 1024) : pte (start m) pt1 i =
    if i = 960 then 0x3C0000C7
    else if i = 262 then 0x1060000F
    else if 256 ≤ i ∧ i < 264 then ram_entry i
    else 0 := by
  have hpage : PageAligned pt1 := by decide
  have hzero : pte (fill m pt1 0 4096) pt1 i = 0 := by
    apply pte_zeroed hpage hi
    intro x hx
    exact fill_in _ _ _ _ _ (dist_of_inPage hx)
  have hram : ∀ j, j < 1024 → pte (map_ram pt1 1024 0x40000000 (fill m pt1 0 4096)) pt1 j =
      if 256 + 0 ≤ j ∧ j < 264 then ram_entry j else pte (fill m pt1 0 4096) pt1 j :=
    fun j hj => pte_map_ram 1024 0 (by omega) (by omega) _ hj
  have hmega : pte (map_ram pt1 1024 0x40000000 (fill m pt1 0 4096)) pt1 262 &&&
      ~~~(PTE_A ||| PTE_D) = 0x1060000F := by
    rw [hram 262 (by omega), if_pos (by omega)]
    rfl
  have h960 : ((0xF0000000 : Word) >>> 22).toNat = 960 := rfl
  have h262 : ((0x41800000 : Word) >>> 22).toNat = 262 := rfl
  unfold start
  dsimp only
  rw [h960, h262, hmega, pte_set _ hpage (by omega) hi, pte_set _ hpage (by omega) hi, hram i hi,
    hzero]
  rfl

/-- A megapage that maps itself. -/
theorem walk_itself {m : Mem} {d va e : Word} (hd : PageAligned d) (he : pte m d (vpn1 va) = e)
    (hf : faulty e = false) (hl : isLeaf e = true) (hp : ppn e = vpn1 va * 0x400) :
    walk m d.toNat va = some (va.toNat, flagsOf e) := by
  subst he
  rw [walk_of_mega hd hf hl (by omega), hp]
  congr 2
  unfold vpn1
  omega

/-- The directory maps each address of the RAM and of the devices to itself, and no other. -/
theorem walk_start (m : Mem) (va : Word) : walk (start m) pt1.toNat va = identity va := by
  have hpage : PageAligned pt1 := by decide
  have hentry := pte_start m (vpn1_lt va)
  have hram : ∀ i, 256 ≤ i → i < 264 → faulty (ram_entry i) = false ∧
      isLeaf (ram_entry i) = true ∧ ppn (ram_entry i) = i * 0x400 ∧
      flagsOf (ram_entry i) = PTE_D ||| PTE_A ||| PTE_X ||| PTE_W ||| PTE_R ||| PTE_V := by
    intro i h1 h2
    interval_cases i <;> decide
  unfold identity
  by_cases h960 : vpn1 va = 960
  · rw [if_pos h960] at hentry
    rw [walk_itself hpage hentry (by decide) (by decide) (by rw [h960]; rfl)]
    unfold vpn1 at h960
    rw [if_neg (by omega), if_pos (by omega)]
    rfl
  · rw [if_neg h960] at hentry
    by_cases h262 : vpn1 va = 262
    · rw [if_pos h262] at hentry
      rw [walk_itself hpage hentry (by decide) (by decide) (by rw [h262]; rfl)]
      unfold vpn1 at h262
      rw [if_pos (by omega), if_pos (by omega)]
      rfl
    · rw [if_neg h262] at hentry
      by_cases hin : 256 ≤ vpn1 va ∧ vpn1 va < 264
      · rw [if_pos hin] at hentry
        obtain ⟨hf, hl, hp, hflags⟩ := hram _ hin.1 hin.2
        rw [walk_itself hpage hentry hf hl hp, hflags]
        unfold vpn1 at hin h262
        rw [if_pos (by omega), if_neg (by omega)]
      · rw [if_neg hin] at hentry
        rw [walk_of_faulty hpage (by rw [hentry]; rfl)]
        unfold vpn1 at hin h960
        rw [if_neg (by omega), if_neg (by omega)]

theorem start_in_reach (m : Mem) (va : Word) : InReach (start m) pt1 va := by
  intro _ _
  rw [pte_start m (vpn1_lt va)]
  split
  · decide
  · split
    · decide
    · split
      · rename_i hin
        obtain ⟨h1, h2⟩ := hin
        interval_cases vpn1 va <;> decide
      · decide

/-! ## The law of the dump -/

/-- What is printed before the MMU goes on: it changes no address. -/
theorem start_dumps_the_identity (m : Mem) : ∃ s, dump_mmu (start m) pt1 = some s ∧
    ∀ va, translate (read_lines s) va = identity va := by
  refine ⟨_, dump_mmu_text _ _, fun va => ?_⟩
  rw [read_lines_text, translate_lines (by decide) (start_in_reach m va), walk_start]

/-- The dump of a directory is the whole address map. Read back, each line shows the entry at its
address, and an address goes where the one line that maps it says, with these flags, or faults
when there is none. The table it is walked through must stand in the 32-bit memory. -/
theorem the_dump_is_the_map (m : Mem) (d : Word) (hd : PageAligned d) :
    ∃ s, dump_mmu m d = some s ∧
      (∀ l ∈ read_lines s, ∃ a : Word, l.addr = a.toNat ∧ l.paddr = ppn (ld32 m a) * 4096 ∧
        read_flags l.flags = flagsOf (ld32 m a)) ∧
      ∀ va, InReach m d va → translate (read_lines s) va = walk m d.toNat va := by
  refine ⟨_, dump_mmu_text m d, ?_, ?_⟩
  · intro l hl
    rw [read_lines_text] at hl
    exact line_shows hl
  · intro va hin
    rw [read_lines_text]
    exact translate_lines hd hin

theorem the_dump_of_the_example : ∃ s, dump_mmu (start fun _ => 0) pt1 = some s ∧
    translate (read_lines s) 0x40001234 = some (0x40001234, 0xCF) := by
  obtain ⟨s, hs, _, hmap⟩ := the_dump_is_the_map (start fun _ => 0) pt1 (by decide)
  refine ⟨s, hs, ?_⟩
  rw [hmap _ (start_in_reach _ _), walk_start]
  rfl

end os_workshop.mmu_dump
