-- What `xprintf` prints (src/hw/src/debug-printf.c). Its text goes through a buffer of 128 octets,
-- so that a long one is cut off. A format is read as its items, and prints what they print.
import OsWorkshop.PrintfMeaning
import OsWorkshop.PrintfOutput

open os_workshop.memory
open os_workshop.numerals

namespace os_workshop.printf

/-- What `xprintf` hands to `xputs`. -/
def xprintf (fmt : String) (ap : List Arg) : Option (List Byte) :=
  (text (fmt.toList.map chr) ap).map fun t => c_str (t.chars.take 127)

theorem c_str_append_nul (s rest : List Byte) : c_str (s ++ 0 :: rest) = c_str s := by
  unfold c_str
  rw [List.takeWhile_append]
  split
  · rename_i h
    have hall : s.takeWhile (· ≠ 0) = s := List.takeWhile_prefix _ |>.eq_of_length h
    rw [hall]
    simp
  · rfl

section

variable (m : Mem) (str : Word) {ap : List Arg} {t : Text}

/-- What `vsnprintf` makes of a text that stores nothing. -/
theorem vsnprintf_buffer {len : Word} {fmt : List Byte} (ht : text fmt ap = some t)
    (hstores : t.stores = []) (hlen : t.chars.length < 2 ^ 31) (hroom : len ≠ 0) :
    vsnprintf m str len fmt ap =
      some ((t.chars.length : Int), write m str (t.chars.take (len.toNat - 1) ++ [0])) := by
  have happ : t.Apart str len := by simp [Text.Apart, hstores]
  rw [vsnprintf_text m str len _ ap t ht hlen happ, if_neg hroom, hstores]
  rfl

/-- `xprintf` hands on the string that `vsnprintf` leaves in the buffer. -/
theorem xprintf_buffer {fmt : String} (ht : text (fmt.toList.map chr) ap = some t)
    (hstores : t.stores = []) (hlen : t.chars.length < 2 ^ 31) :
    ∃ m', vsnprintf m str 128 (fmt.toList.map chr) ap = some ((t.chars.length : Int), m') ∧
      xprintf fmt ap = some (c_str (read m' str 128)) := by
  refine ⟨_, vsnprintf_buffer m str ht hstores hlen (by decide), ?_⟩
  obtain ⟨rest, hread⟩ := read_written m str (t.chars.take 127 ++ [0]) 128 (by simp) (by norm_num)
  have hstring : c_str (read (write m str (t.chars.take 127 ++ [0])) str 128) =
      c_str (t.chars.take 127) := by
    rw [hread, List.append_assoc]
    exact c_str_append_nul _ _
  unfold xprintf
  rw [ht, Option.map_some]
  exact congrArg some hstring.symm

end

/-! ## A format by its items -/

def Item.prints : Item → List Byte
  | literal c _ => [c]
  | directive l c => c.prints l

theorem add_chars (items : List Item) (t : Text) :
    (items.foldl Text.add t).chars = t.chars ++ items.flatMap Item.prints := by
  induction items generalizing t with
  | nil => simp
  | cons i items ih =>
    rw [List.foldl_cons, ih, List.flatMap_cons, ← List.append_assoc]
    cases i <;> rfl

/-- No item is a `%n`. -/
def Countless (items : List Item) : Prop := ∀ l ptr, Item.directive l (.count ptr) ∉ items

theorem add_stores {items : List Item} (h : Countless items) (t : Text) :
    (items.foldl Text.add t).stores = t.stores := by
  induction items generalizing t with
  | nil => rfl
  | cons i items ih =>
    rw [List.foldl_cons, ih fun l ptr hin => h l ptr (List.mem_cons_of_mem _ hin)]
    cases i with
    | literal c hc => rfl
    | directive l c =>
      cases c with
      | count ptr => exact absurd List.mem_cons_self (h l ptr)
      | _ => rfl

section

variable (items : List Item) {ap : List Arg}

/-- A format that spells these items has their text. -/
theorem text_items {fmt : List Byte} (hfmt : items.flatMap Item.chars = fmt)
    (hargs : items.flatMap Item.args = ap) :
    ∃ t, text fmt ap = some t ∧ t.chars = items.flatMap Item.prints ∧
      (Countless items → t.stores = []) := by
  have htext := text_format items none []
  unfold format at htext
  rw [Option.elim_none, List.append_nil, List.append_nil, hfmt, hargs] at htext
  exact ⟨_, htext, add_chars items _, fun h => add_stores h _⟩

theorem xprintf_items {fmt : String} (hfmt : items.flatMap Item.chars = fmt.toList.map chr)
    (hargs : items.flatMap Item.args = ap) :
    xprintf fmt ap = some (c_str ((items.flatMap Item.prints).take 127)) := by
  obtain ⟨t, ht, hchars, -⟩ := text_items items hfmt hargs
  unfold xprintf
  rw [ht, Option.map_some, hchars]

/-- What fits and has no NUL is printed whole. -/
theorem xprintf_whole {fmt : String} {s : List Byte}
    (hfmt : items.flatMap Item.chars = fmt.toList.map chr)
    (hargs : items.flatMap Item.args = ap) (hs : items.flatMap Item.prints = s)
    (hlen : s.length ≤ 127) (hnul : 0 ∉ s) : xprintf fmt ap = some s := by
  rw [xprintf_items items hfmt hargs, hs, List.take_of_length_le hlen, c_str_of_no_nul hnul]

end

/-! ## Items -/

/-- Plain characters. -/
def literals (s : List Byte) (h : ∀ c ∈ s, c ≠ 0 ∧ c ≠ chr '%') : List Item := s.pmap .literal h

theorem literals_spec (s : List Byte) (h : ∀ c ∈ s, c ≠ 0 ∧ c ≠ chr '%') :
    (literals s h).flatMap Item.chars = s ∧ (literals s h).flatMap Item.args = [] ∧
      (literals s h).flatMap Item.prints = s := by
  unfold literals
  induction s with
  | nil => exact ⟨rfl, rfl, rfl⟩
  | cons c s ih =>
    obtain ⟨hchars, hargs, hprints⟩ := ih fun c hc => h c (List.mem_cons_of_mem _ hc)
    rw [List.pmap_cons, List.flatMap_cons, List.flatMap_cons, List.flatMap_cons, hchars, hargs,
      hprints]
    exact ⟨rfl, rfl, rfl⟩

/-- An item between plain characters. -/
theorem between_spec (front back : List Byte) (hfront : ∀ c ∈ front, c ≠ 0 ∧ c ≠ chr '%')
    (hback : ∀ c ∈ back, c ≠ 0 ∧ c ≠ chr '%') (i : Item) :
    (literals front hfront ++ i :: literals back hback).flatMap Item.chars =
        front ++ i.chars ++ back ∧
      (literals front hfront ++ i :: literals back hback).flatMap Item.args = i.args ∧
      (literals front hfront ++ i :: literals back hback).flatMap Item.prints =
        front ++ i.prints ++ back := by
  obtain ⟨fchars, fargs, fprints⟩ := literals_spec front hfront
  obtain ⟨bchars, bargs, bprints⟩ := literals_spec back hback
  simp only [List.flatMap_append, List.flatMap_cons, fchars, fargs, fprints, bchars, bargs,
    bprints, List.append_assoc, List.nil_append, List.append_nil, and_self]

/-- The digits of a number, with zeros in front of them up to the width. -/
def hex_text (width n : Nat) : List Byte :=
  List.replicate (width - (numeral 16 n).length) (chr '0') ++
    (numeral 16 n).map (hex_digit false)

/-- `%08x`, or with another width. -/
def hex_item (width : Nat) (w : Word) : Item :=
  .directive ⟨[.zero], BitVec.ofNat 32 width, .int⟩ (.hexadecimal false (w.setWidth 64))

theorem hex_item_chars {width : Nat} (hpos : 0 < width) (hlt : width < 10) (w : Word) :
    (hex_item width w).chars = [chr '%', chr '0', digit width, chr 'x'] := by
  have hwidth : (BitVec.ofNat 32 width).toNat = width := by
    rw [BitVec.toNat_ofNat, Nat.mod_eq_of_lt (by omega)]
  have hne : BitVec.ofNat 32 width ≠ 0 := by
    intro h0
    rw [h0] at hwidth
    exact absurd hwidth hpos.ne
  have hlayout : (⟨[.zero], BitVec.ofNat 32 width, .int⟩ : Layout).chars =
      [chr '0', digit width] := by
    unfold Layout.chars decimal_chars
    dsimp only
    rw [if_neg hne, hwidth, numeral_of_lt hlt]
    rfl
  show chr '%' :: (Layout.chars _ ++ [chr 'x']) = _
  rw [hlayout]
  rfl

theorem hex_item_args (width : Nat) (w : Word) : (hex_item width w).args = [.word w] := by
  simp [hex_item, Item.args, Conversion.args, Size.arg]

theorem hex_item_prints {width : Nat} (hlt : width < 10) (w : Word) :
    (hex_item width w).prints = hex_text width w.toNat := by
  have hword : (w.setWidth 64).setWidth 32 = w := by simp
  have hwidth : (BitVec.ofNat 32 width).toNat = width := by
    rw [BitVec.toNat_ofNat, Nat.mod_eq_of_lt (by omega)]
  simp [hex_item, Item.prints, Conversion.prints, Layout.hex_number, Layout.has, Layout.field,
    field, Size.unsigned, Size.bits, hword, hwidth, hex_text]

/-- `%s`. -/
def string_item (s : List Byte) (h : s.length < 2 ^ 32) : Item :=
  .directive ⟨[], 0, .int⟩ (.string (some s) h)

theorem string_item_spec (s : List Byte) (h : s.length < 2 ^ 32) :
    (string_item s h).chars = [chr '%', chr 's'] ∧ (string_item s h).args = [.str (some s)] ∧
      (string_item s h).prints = c_str s := by
  refine ⟨rfl, rfl, ?_⟩
  simp [string_item, Item.prints, Conversion.prints, field, Layout.has]

end os_workshop.printf
