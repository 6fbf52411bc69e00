-- The dumps of the monitor (do_dw and do_db of src/boot/console.c) read back. The reader of the
-- monitor's own command line, which cuts a line at its spaces and stops at a colon, gives the
-- addresses and what was loaded from them.
import OsWorkshop.ConsoleLine

open os_workshop.memory (Byte Word)
open os_workshop.monitor (Console Bus Symbol do_dw do_db dw_words db_bytes db_rows rd32safe rd8safe
  atox xprintf)
open os_workshop.console (runs HexDigit hex_digit hex_value)
open os_workshop.numerals
open os_workshop.printf (hex_text hex_item between_spec)

namespace os_workshop.dump

/-! ## Pieces of a text -/

/-- What stands between the characters `c`, without what is empty. -/
def pieces (c : Byte) (s : List Byte) : List (List Byte) := (s.splitOn c).filter (· ≠ [])

section

variable {c : Byte} {s t : List Byte}

theorem pieces_nil : pieces c [] = [] := by simp [pieces]

theorem pieces_cons (s : List Byte) : pieces c (c :: s) = pieces c s := by
  unfold pieces
  rw [List.splitOn_eq_splitOnP, List.splitOn_eq_splitOnP, List.splitOnP_cons_eq_if_modifyHead]
  simp

/-- A text ends here, or goes on with the character `c`. -/
def Ends (c : Byte) (t : List Byte) : Prop := ∀ d t', t = d :: t' → d = c

theorem pieces_append (hs : s ≠ []) (hc : c ∉ s) (ht : Ends c t) :
    pieces c (s ++ t) = s :: pieces c t := by
  cases t with
  | nil =>
    unfold pieces
    rw [List.append_nil, List.splitOn_eq_singleton hc]
    simp [hs]
  | cons d t =>
    obtain rfl := ht d t rfl
    rw [pieces_cons]
    unfold pieces
    rw [List.splitOn_append_cons_self_of_not_mem hc]
    simp [hs]

theorem pieces_replicate (n : Nat) : pieces c (List.replicate n c) = [] := by
  induction n with
  | zero => exact pieces_nil
  | succ n ih => rw [List.replicate_succ, pieces_cons, ih]

end

/-! ## Numbers -/

def colon : Byte := 0x3A
def space : Byte := 0x20
def newline : Byte := 0x0A

/-- A hex digit is neither a space, nor a colon, nor a newline. -/
theorem hex_digit_printed {d : Nat} (h : d < 16) :
    HexDigit (printf.hex_digit false d) ∧ hex_digit (printf.hex_digit false d) = d := by
  interval_cases d <;> decide

theorem hex_text_digits {width n : Nat} : ∀ c ∈ hex_text width n, HexDigit c := by
  intro c hc
  rcases List.mem_append.mp hc with hc | hc
  · rw [List.eq_of_mem_replicate hc]
    decide
  · obtain ⟨d, hd, rfl⟩ := List.mem_map.mp hc
    exact (hex_digit_printed (digit_lt (by norm_num) hd)).1

theorem foldl_horner (ds : List Nat) (hds : ∀ d ∈ ds, d < 16) (v : Nat) :
    (ds.map (printf.hex_digit false)).foldl (fun n c => 16 * n + hex_digit c) v =
      horner 16 v ds := by
  induction ds generalizing v with
  | nil => rfl
  | cons d ds ih =>
    rw [List.map_cons, List.foldl_cons, (hex_digit_printed (hds d List.mem_cons_self)).2,
      ih fun d hd => hds d (List.mem_cons_of_mem _ hd), horner_cons, Nat.mul_comm]
    rfl

/-- What stands behind a number and is no digit is not read. -/
theorem hex_value_text (width n : Nat) {t : List Byte}
    (ht : ∀ c t', t = c :: t' → ¬ HexDigit c) : hex_value (hex_text width n ++ t) = n := by
  have hzeros : (List.replicate (width - (numeral 16 n).length) (printf.chr '0')) =
      (List.replicate (width - (numeral 16 n).length) 0).map (printf.hex_digit false) := by
    rw [List.map_replicate]
    rfl
  have htake : (hex_text width n ++ t).takeWhile (HexDigit ·) = hex_text width n := by
    rw [List.takeWhile_append_of_pos fun c hc => by simpa using hex_text_digits c hc]
    cases t with
    | nil => simp
    | cons c t => rw [List.takeWhile_cons_of_neg (by simpa using ht c t rfl), List.append_nil]
  have hdigits : ∀ d ∈ List.replicate (width - (numeral 16 n).length) 0 ++ numeral 16 n,
      d < 16 := by
    intro d hd
    rcases List.mem_append.mp hd with hd | hd
    · rw [List.eq_of_mem_replicate hd]
      norm_num
    · exact digit_lt (by norm_num) hd
  unfold hex_value
  rw [htake]
  unfold hex_text
  rw [hzeros, ← List.map_append, foldl_horner _ hdigits, horner_append, horner_zeros,
    horner_numeral (by norm_num)]

theorem atox_text (width : Nat) (v : Word) {t : List Byte}
    (ht : ∀ c t', t = c :: t' → ¬ HexDigit c) : atox (hex_text width v.toNat ++ t) = v := by
  rw [console.atox.spec, hex_value_text width _ ht, BitVec.ofNat_toNat, BitVec.setWidth_eq]

/-! ## Lines -/

/-- A line of `do_dw`, or the front of one of `do_db`: an address, and numbers. -/
def dump_line (width : Nat) (a : Word) (ws : List Word) : List Byte :=
  hex_text 8 a.toNat ++ colon :: ws.flatMap fun w => space :: hex_text width w.toNat

theorem hex_text_ne_nil (width n : Nat) : hex_text width n ≠ [] := by
  unfold hex_text
  simp [numeral_ne_nil]

theorem not_mem_hex_text {c : Byte} (hc : ¬ HexDigit c) (width n : Nat) : c ∉ hex_text width n :=
  fun h => hc (hex_text_digits c h)

theorem pieces_numbers (width : Nat) (ws : List Word) {t : List Byte} (ht : Ends space t) :
    pieces space ((ws.flatMap fun w => space :: hex_text width w.toNat) ++ t) =
      (ws.map fun w => hex_text width w.toNat) ++ pieces space t := by
  induction ws with
  | nil => rfl
  | cons w ws ih =>
    have hends : Ends space ((ws.flatMap fun w => space :: hex_text width w.toNat) ++ t) := by
      cases ws with
      | nil => exact ht
      | cons w ws =>
        intro d t' h
        exact (List.cons.inj h).1.symm
    rw [List.flatMap_cons, List.append_assoc, List.cons_append, pieces_cons,
      pieces_append (hex_text_ne_nil _ _) (not_mem_hex_text (by decide) _ _) hends, ih]
    rfl

/-- The monitor's own reader takes a line apart. -/
theorem read_line (width : Nat) (a : Word) (ws : List Word) {t : List Byte} (ht : Ends space t)
    (hblank : pieces space t = []) : (runs (dump_line width a ws ++ t)).map atox = a :: ws := by
  have hends : Ends space ((ws.flatMap fun w => space :: hex_text width w.toNat) ++ t) := by
    cases ws with
    | nil => exact ht
    | cons w ws =>
      intro d t' h
      exact (List.cons.inj h).1.symm
  have hpieces : runs (dump_line width a ws ++ t) =
      (hex_text 8 a.toNat ++ [colon]) :: ws.map fun w => hex_text width w.toNat := by
    have hsplit : dump_line width a ws ++ t = (hex_text 8 a.toNat ++ [colon]) ++
        ((ws.flatMap fun w => space :: hex_text width w.toNat) ++ t) := by simp [dump_line]
    have hspace : space ∉ hex_text 8 a.toNat ++ [colon] := by
      rw [List.mem_append, not_or]
      exact ⟨not_mem_hex_text (by decide) _ _, by decide⟩
    change pieces space _ = _
    rw [hsplit, pieces_append (by simp) hspace hends, pieces_numbers width ws ht, hblank,
      List.append_nil]
  rw [hpieces, List.map_cons, List.map_map]
  congr 1
  · apply atox_text
    rintro c t' h
    obtain rfl := (List.cons.inj h).1
    decide
  · have hword : ∀ w : Word, atox (hex_text width w.toNat) = w := fun w => by
      simpa using atox_text width w (t := []) (by simp)
    simp [Function.comp_def, hword]

theorem newline_not_in_line (width : Nat) (a : Word) (ws : List Word) :
    newline ∉ dump_line width a ws := by
  unfold dump_line
  simp only [List.mem_append, List.mem_cons, List.mem_flatMap, not_or, not_exists, not_and]
  exact ⟨not_mem_hex_text (by decide) _ _, by decide,
    fun w _ => ⟨by decide, not_mem_hex_text (by decide) _ _⟩⟩

theorem dump_line_ne_nil (width : Nat) (a : Word) (ws : List Word) : dump_line width a ws ≠ [] := by
  simp [dump_line]

/-! ## Words (do_dw) -/

/-- What a safe load gives. A load that faults gives zero. -/
def loaded (bus : Bus) (i : Nat) (a : Word) : Word :=
  match bus i a with
  | .ok v => v
  | .error _ => 0

/-- What the loads from `a` on give, one after another, when `first` is the number of the first
and each goes `size` further than the one before it. -/
def dumped (load : Nat → Word → Word) (size first : Nat) (a : Word) (count : Nat) : List Word :=
  (List.range count).map fun i => load (first + i) (a + BitVec.ofNat 32 (size * i))

theorem dumped_length (load : Nat → Word → Word) (size first : Nat) (a : Word) (count : Nat) :
    (dumped load size first a count).length = count := by simp [dumped]

theorem dumped_drop (load : Nat → Word → Word) (size first k : Nat) (a : Word) (count : Nat) :
    (dumped load size first a count).drop k =
      dumped load size (first + k) (a + BitVec.ofNat 32 (size * k)) (count - k) := by
  apply List.ext_getElem
  · simp [dumped]
  · intro i h1 h2
    have hindex : first + (k + i) = first + k + i := by omega
    have haddress : a + BitVec.ofNat 32 (size * (k + i)) =
        a + BitVec.ofNat 32 (size * k) + BitVec.ofNat 32 (size * i) := by
      rw [Nat.mul_add, BitVec.ofNat_add, BitVec.add_assoc]
    simp [dumped, hindex, haddress]

theorem dumped_take (load : Nat → Word → Word) (size first k : Nat) (a : Word) (count : Nat) :
    (dumped load size first a count).take k = dumped load size first a (min k count) := by
  unfold dumped
  rw [← List.map_take, List.take_range]

theorem dumped_succ (load : Nat → Word → Word) (size first : Nat) (a : Word) (count : Nat) :
    dumped load size first a (count + 1) =
      load first a :: dumped load size (first + 1) (a + BitVec.ofNat 32 size) count := by
  have hdrop := dumped_drop load size first 1 a (count + 1)
  rw [Nat.mul_one, Nat.add_sub_cancel] at hdrop
  rw [← hdrop]
  simp [dumped, List.range_succ_eq_map]

/-- What `dw_words` prints, from word `n` on. -/
def words_text (n : Nat) (a : Word) : List Word → List Byte
  | [] => []
  | w :: ws =>
    (if n % 4 = 0 then newline :: (hex_text 8 a.toNat ++ [colon]) else []) ++
      space :: hex_text 8 w.toNat ++ words_text (n + 1) (a + 4) ws

/-- Rows of an address and up to four words. -/
def rows (a : Word) : List Word → List (List Word)
  | [] => []
  | w0 :: w1 :: w2 :: w3 :: ws => [a, w0, w1, w2, w3] :: rows (a + 16) ws
  | ws => [a :: ws]

/-- The lines of a text, each read as the monitor reads a line. -/
def read_back (s : List Byte) : List (List Word) :=
  (pieces newline s).map fun l => (runs l).map atox

theorem read_back_line (a : Word) (ws : List Word) {t : List Byte} (ht : Ends newline t) :
    read_back (newline :: dump_line 8 a ws ++ t) = (a :: ws) :: read_back t := by
  have hread := read_line 8 a ws (t := []) (by intro _ _ h; cases h) pieces_nil
  rw [List.append_nil] at hread
  unfold read_back
  rw [List.cons_append, pieces_cons,
    pieces_append (dump_line_ne_nil _ _ _) (newline_not_in_line _ _ _) ht, List.map_cons, hread]

theorem words_text_ends {n : Nat} (hn : n % 4 = 0) (a : Word) (ws : List Word) {t : List Byte}
    (ht : Ends newline t) : Ends newline (words_text n a ws ++ t) := by
  cases ws with
  | nil => exact ht
  | cons w ws =>
    intro d t' h
    unfold words_text at h
    rw [if_pos hn] at h
    exact (List.cons.inj h).1.symm

/-- The words that are dumped, read back row by row. -/
theorem read_words_text (a : Word) (ws : List Word) {n : Nat} (hn : n % 4 = 0) {t : List Byte}
    (ht : Ends newline t) (hblank : pieces newline t = []) :
    read_back (words_text n a ws ++ t) = rows a ws := by
  have h1 : ¬ (n + 1) % 4 = 0 := by omega
  have h2 : ¬ (n + 1 + 1) % 4 = 0 := by omega
  have h3 : ¬ (n + 1 + 1 + 1) % 4 = 0 := by omega
  have hend : read_back t = [] := by rw [read_back, hblank]; rfl
  fun_induction rows a ws generalizing n with
  | case1 a => exact hend
  | case2 a w0 w1 w2 w3 ws ih =>
    have hnext : a + 4 + 4 + 4 + 4 = a + 16 := by
      rw [BitVec.add_assoc, BitVec.add_assoc, BitVec.add_assoc]
      rfl
    have htail := ih (n := n + 1 + 1 + 1 + 1) (by omega) (by omega) (by omega) (by omega)
    have hline := read_back_line a [w0, w1, w2, w3]
      (words_text_ends (n := n + 1 + 1 + 1 + 1) (by omega) (a + 16) ws ht)
    rw [htail] at hline
    rw [← hline]
    simp only [words_text, if_pos hn, if_neg h1, if_neg h2, if_neg h3, hnext]
    simp [dump_line]
  | case3 a ws hnil hlong =>
    have hline := read_back_line a ws ht
    rw [hend] at hline
    rw [← hline]
    rcases ws with _ | ⟨w0, _ | ⟨w1, _ | ⟨w2, _ | ⟨w3, ws⟩⟩⟩⟩
    · exact absurd rfl hnil
    · simp [words_text, dump_line, hn]
    · simp [words_text, dump_line, hn, h1]
    · simp [words_text, dump_line, hn, h1, h2]
    · exact absurd rfl (hlong w0 w1 w2 w3 ws)

section

variable (addr : Symbol → Word) (bus : Bus)

theorem hex_text_length {width n : Nat} (hw : 0 < width) (hn : n < 16 ^ width) :
    (hex_text width n).length = width := by
  have hle := numeral_length_le (by norm_num) hw hn
  simp [hex_text]
  omega

theorem hex_word_length (v : Word) : (hex_text 8 v.toNat).length = 8 :=
  hex_text_length (by norm_num) v.isLt

/-- One more print. -/
theorem printed {fmt : String} {ap : List printf.Arg} {s s' : List Byte} {o : Option (List Byte)}
    {m : Console} (h : printf.xprintf fmt ap = some s) (hm : m.out = o.map (· ++ s')) :
    (xprintf fmt ap m).out = o.map (· ++ (s' ++ s)) := by
  unfold xprintf monitor.put
  dsimp only
  rw [h, hm]
  cases o <;> simp

/-- A number between plain characters. -/
theorem prints_number {width : Nat} (hpos : 0 < width) (hlt : width < 10) (front back : List Byte)
    (hfront : ∀ c ∈ front, c ≠ 0 ∧ c ≠ printf.chr '%')
    (hback : ∀ c ∈ back, c ≠ 0 ∧ c ≠ printf.chr '%') {fmt : String}
    (hfmt : front ++ [printf.chr '%', printf.chr '0', printf.digit width, printf.chr 'x'] ++ back =
      fmt.toList.map printf.chr) {w : Word} (hw : w.toNat < 16 ^ width)
    (hroom : front.length + width + back.length ≤ 127) :
    printf.xprintf fmt [.word w] = some (front ++ hex_text width w.toNat ++ back) := by
  obtain ⟨hchars, hargs, hprints⟩ := between_spec front back hfront hback (hex_item width w)
  rw [printf.hex_item_chars hpos hlt, hfmt] at hchars
  rw [printf.hex_item_args] at hargs
  rw [printf.hex_item_prints hlt] at hprints
  apply printf.xprintf_whole _ hchars hargs hprints
  · rw [List.length_append, List.length_append, hex_text_length hpos hw]
    exact hroom
  · simp only [List.mem_append, not_or]
    exact ⟨⟨fun h => (hfront 0 h).1 rfl, not_mem_hex_text (by decide) _ _⟩,
      fun h => (hback 0 h).1 rfl⟩

theorem prints_row_address (a : Word) :
    printf.xprintf "\n%08x:" [.word a] = some (newline :: (hex_text 8 a.toNat ++ [colon])) :=
  prints_number (by norm_num) (by norm_num) [newline] [colon] (by decide) (by decide) (by decide)
    a.isLt (by decide)

theorem prints_address (a : Word) :
    printf.xprintf "%08x:" [.word a] = some (hex_text 8 a.toNat ++ [colon]) :=
  prints_number (by norm_num) (by norm_num) [] [colon] (by decide) (by decide) (by decide) a.isLt
    (by decide)

theorem prints_word (w : Word) :
    printf.xprintf " %08x" [.word w] = some (space :: hex_text 8 w.toNat) := by
  have h := @prints_number 8 (by norm_num) (by norm_num) [space] [] (by decide) (by decide)
    " %08x" (by decide) w w.isLt (by decide)
  rwa [List.append_nil] at h

theorem prints_byte {w : Word} (hw : w.toNat < 256) :
    printf.xprintf " %02x" [.word w] = some (space :: hex_text 2 w.toNat) := by
  have h := @prints_number 2 (by norm_num) (by norm_num) [space] [] (by decide) (by decide)
    " %02x" (by decide) w hw (by decide)
  rwa [List.append_nil] at h

theorem prints_newline : printf.xprintf "\n" [] = some [newline] := rfl

theorem prints_blank : printf.xprintf "   " [] = some [space, space, space] := rfl

theorem rd32safe_spec (a : Word) (m : Console) :
    (rd32safe addr bus a m).1.out = m.out ∧ (rd32safe addr bus a m).1.loads = m.loads + 1 ∧
      (rd32safe addr bus a m).2 = loaded bus m.loads a :=
  ⟨rfl, rfl, @monitor.safe_read.value addr bus .rd32fail id a m⟩

theorem dw_words_text (left n : Nat) (a : Word) {o : Option (List Byte)} {s : List Byte}
    {m : Console} (hm : m.out = o.map (· ++ s)) :
    (dw_words addr bus left n a m).out =
      o.map (· ++ (s ++ words_text n a (dumped (loaded bus) 4 m.loads a left))) := by
  induction left generalizing n a m s with
  | zero => simpa [dw_words, words_text, dumped] using hm
  | succ left ih =>
    obtain ⟨m1, hm1⟩ : ∃ m1, m1 = if n % 4 = 0 then xprintf "\n%08x:" [.word a] m else m :=
      ⟨_, rfl⟩
    have hfirst : m1.out = o.map (· ++ (s ++ if n % 4 = 0 then
        newline :: (hex_text 8 a.toNat ++ [colon]) else [])) ∧ m1.loads = m.loads := by
      rw [hm1]
      split
      · exact ⟨printed (prints_row_address a) hm, rfl⟩
      · exact ⟨by simpa using hm, rfl⟩
    obtain ⟨hout1, hloads1⟩ := hfirst
    obtain ⟨hout, hloads, hvalue⟩ := rd32safe_spec addr bus a m1
    have hnext := ih (n + 1) (a + 4)
      (printed (prints_word (rd32safe addr bus a m1).2) (hout.trans hout1))
    have hloads2 : (xprintf " %08x" [.word (rd32safe addr bus a m1).2]
        (rd32safe addr bus a m1).1).loads = m.loads + 1 := by rw [← hloads1, ← hloads]; rfl
    rw [hloads2, hvalue, hloads1] at hnext
    unfold dw_words
    rw [← hm1, dumped_succ, words_text]
    dsimp only
    rw [hvalue, hloads1, hnext]
    simp

/-- How many words `do_dw` dumps, for that many arguments. -/
def dw_count (n count : Word) : Nat :=
  let count := if n < 2 then 1 else count
  (if 1024 < count then 1024 else count).toNat

theorem do_dw_text (n a count : Word) (m : Console) :
    (do_dw addr bus n a count m).out = m.out.map (· ++
      (words_text 0 a (dumped (loaded bus) 4 m.loads a (dw_count n count)) ++
        if dw_count n count % 4 = 0 then [newline] else [])) := by
  have hwords := dw_words_text addr bus (dw_count n count) 0 a (o := m.out) (s := []) (m := m)
    (by simp)
  rw [List.nil_append] at hwords
  unfold do_dw
  dsimp only
  change (if dw_count n count % 4 = 0 then
    xprintf "\n" [] (dw_words addr bus (dw_count n count) 0 a m)
    else dw_words addr bus (dw_count n count) 0 a m).out = _
  split
  · exact printed prints_newline hwords
  · rw [hwords, List.append_nil]

/-! ## Bytes (do_db) -/

def loaded_byte (bus : Bus) (i : Nat) (a : Word) : Word := loaded bus i a &&& 0xFF

/-- A byte that is not printable shows as a dot. -/
def shown (c : Word) : Byte := (if c < 0x20 ∨ 126 < c then 0x2E else c).setWidth 8

theorem shown_printed (c : Word) : shown c ≠ 0 ∧ shown c ≠ newline := by
  unfold shown newline
  split
  · decide
  · rename_i h
    bv_omega

/-- The front of a row: there is room for sixteen bytes in it. -/
def row_front (a : Word) (bs : List Word) : List Byte :=
  dump_line 2 a bs ++ List.replicate (3 * (16 - bs.length)) space

def row_back (bs : List Word) : List Byte :=
  bs.map shown ++ List.replicate (16 - bs.length) space

def row_text (a : Word) (bs : List Word) : List Byte :=
  row_front a bs ++ [space, space] ++ row_back bs

/-- What `do_db` prints of these bytes. -/
def bytes_text (a : Word) (bs : List Word) : List Byte :=
  if bs = [] then []
  else row_text a (bs.take 16) ++ newline :: bytes_text (a + 16) (bs.drop 16)
termination_by bs.length
decreasing_by
  have := List.length_pos_iff.mpr ‹¬ bs = []›
  simp
  omega

/-- The rows: an address with up to sixteen bytes, and the column on the right. -/
def byte_rows (a : Word) (bs : List Word) : List (List Word × List Byte) :=
  if bs = [] then []
  else (a :: bs.take 16, row_back (bs.take 16)) :: byte_rows (a + 16) (bs.drop 16)
termination_by bs.length
decreasing_by
  have := List.length_pos_iff.mpr ‹¬ bs = []›
  simp
  omega

/-- The reader of a row: the monitor's for its front, and the column as it is. -/
def read_row (l : List Byte) : List Word × List Byte := ((runs (l.take 57)).map atox, l.drop 59)

def read_rows (s : List Byte) : List (List Word × List Byte) := (pieces newline s).map read_row

theorem row_front_length {a : Word} {bs : List Word} (hlen : bs.length ≤ 16)
    (hbs : ∀ b ∈ bs, b.toNat < 256) : (row_front a bs).length = 57 := by
  have hnumbers : (bs.flatMap fun b => space :: hex_text 2 b.toNat).length = 3 * bs.length := by
    rw [List.length_flatMap, List.map_congr_left (g := fun _ => 3)]
    · simp [Nat.mul_comm]
    · intro b hb
      have hlength : (hex_text 2 b.toNat).length = 2 := hex_text_length (by norm_num) (hbs b hb)
      simp [hlength]
  simp only [row_front, dump_line, List.length_append, List.length_cons, List.length_replicate,
    hex_word_length, hnumbers]
  omega

theorem read_row_text {a : Word} {bs : List Word} (hlen : bs.length ≤ 16)
    (hbs : ∀ b ∈ bs, b.toNat < 256) : read_row (row_text a bs) = (a :: bs, row_back bs) := by
  have hfront := row_front_length (a := a) hlen hbs
  have htake : (row_text a bs).take 57 = row_front a bs := by
    unfold row_text
    rw [List.append_assoc, ← hfront, List.take_left]
  have hdrop : (row_text a bs).drop 59 = row_back bs := by
    have hlength : (row_front a bs ++ [space, space]).length = 59 := by simp [hfront]
    unfold row_text
    rw [← hlength, List.drop_left]
  have hends : Ends space (List.replicate (3 * (16 - bs.length)) space) := by
    intro c t h
    exact List.eq_of_mem_replicate (h ▸ List.mem_cons_self)
  unfold read_row
  rw [htake, hdrop, row_front, read_line 2 a bs hends (pieces_replicate _)]

theorem newline_not_in_row (a : Word) (bs : List Word) : newline ∉ row_text a bs := by
  have hspaces : ∀ n, newline ∉ List.replicate n space := by
    intro n h
    exact absurd (List.eq_of_mem_replicate h) (by decide)
  unfold row_text row_front row_back
  simp only [List.mem_append, not_or, List.mem_map, not_exists, not_and]
  exact ⟨⟨⟨newline_not_in_line _ _ _, hspaces _⟩, by decide⟩, fun b _ => (shown_printed b).2,
    hspaces _⟩

theorem read_bytes_text (a : Word) (bs : List Word) (hbs : ∀ b ∈ bs, b.toNat < 256) :
    read_rows (bytes_text a bs) = byte_rows a bs := by
  fun_induction byte_rows a bs with
  | case1 a =>
    rw [bytes_text]
    simp [read_rows, pieces_nil]
  | case2 a bs hne ih =>
    have hends : Ends newline (newline :: bytes_text (a + 16) (bs.drop 16)) := by
      intro c t h
      exact (List.cons.inj h).1.symm
    have hrow := @read_row_text a (bs.take 16) (by simp) fun b hb =>
      hbs b (List.mem_of_mem_take hb)
    have hrest := ih fun b hb => hbs b (List.mem_of_mem_drop hb)
    unfold read_rows at hrest ⊢
    rw [bytes_text, if_neg hne, pieces_append (by simp [row_text]) (newline_not_in_row _ _) hends,
      pieces_cons, List.map_cons, hrow, hrest]

end


section

variable (addr : Symbol → Word) (bus : Bus)

theorem rd8safe_spec (a : Word) (m : Console) :
    (rd8safe addr bus a m).1.out = m.out ∧ (rd8safe addr bus a m).1.loads = m.loads + 1 ∧
      (rd8safe addr bus a m).2 &&& 0xFF = loaded_byte bus m.loads a := by
  refine ⟨rfl, rfl, ?_⟩
  have hvalue := @monitor.safe_read.value addr bus .rd8fail (· &&& 0xFF) a m
  unfold rd8safe loaded_byte loaded
  rw [hvalue]
  cases bus m.loads a with
  | ok v => simp [BitVec.and_assoc]
  | error cause => simp

theorem loaded_byte_lt (i : Nat) (a : Word) : (loaded_byte bus i a).toNat < 256 := by
  unfold loaded_byte
  have hle : (loaded bus i a &&& 0xFF).toNat ≤ 255 := by
    rw [BitVec.toNat_and]
    exact Nat.and_le_right
  omega

/-- The bytes that the loop of a row loads when so many turns are left. -/
def row_bytes (bus : Bus) (a : Word) (count left i : Nat) : List Word :=
  dumped (loaded_byte bus) 1 i (a + BitVec.ofNat 32 (16 - left)) (min 16 count - (16 - left))

theorem row_bytes_succ {a : Word} {count left i : Nat} (hleft : left < 16)
    (hmore : 16 - (left + 1) < count) :
    row_bytes bus a count (left + 1) i =
      loaded_byte bus i (a + BitVec.ofNat 32 (15 - left)) ::
        row_bytes bus a count left (i + 1) := by
  have hcount : min 16 count - (16 - (left + 1)) = min 16 count - (16 - left) + 1 := by omega
  have hindex : 16 - (left + 1) = 15 - left := by omega
  have hnext : 16 - left = 15 - left + 1 := by omega
  unfold row_bytes
  rw [hcount, dumped_succ, hindex, hnext, BitVec.ofNat_add, BitVec.add_assoc]

theorem row_bytes_end {a : Word} {count left i : Nat} (hend : count ≤ 16 - left) :
    row_bytes bus a count left i = [] := by
  have hcount : min 16 count - (16 - left) = 0 := by omega
  unfold row_bytes
  rw [hcount]
  rfl

/-- What the loop prints of these bytes, and what it leaves in `txt`. -/
theorem db_bytes_text (a : Word) (count left : Nat) (hleft : left ≤ 16) (txt : List Byte)
    {o : Option (List Byte)} {s : List Byte} {m : Console} (hm : m.out = o.map (· ++ s)) :
    (db_bytes addr bus a count left txt m).1.out = o.map (· ++ (s ++
        ((row_bytes bus a count left m.loads).flatMap (fun b => space :: hex_text 2 b.toNat) ++
          List.replicate (3 * (left - (row_bytes bus a count left m.loads).length)) space))) ∧
      (db_bytes addr bus a count left txt m).2 = txt ++
        ((row_bytes bus a count left m.loads).map shown ++
          List.replicate (left - (row_bytes bus a count left m.loads).length) space) ∧
      (db_bytes addr bus a count left txt m).1.loads =
        m.loads + (row_bytes bus a count left m.loads).length := by
  induction left generalizing txt m s with
  | zero => simpa [db_bytes, row_bytes, dumped] using hm
  | succ left ih =>
    by_cases hi : 16 - (left + 1) < count
    · obtain ⟨hout, hloads, hvalue⟩ := rd8safe_spec addr bus (a + BitVec.ofNat 32 (15 - left)) m
      have hprint := prints_byte (loaded_byte_lt bus m.loads (a + BitVec.ofNat 32 (15 - left)))
      rw [row_bytes_succ bus (by omega) hi]
      unfold db_bytes
      dsimp only
      rw [if_pos (by omega), hvalue]
      generalize loaded_byte bus m.loads (a + BitVec.ofNat 32 (15 - left)) = b at *
      obtain ⟨h1, h2, h3⟩ := ih (by omega) (txt ++ [shown b]) (printed hprint (hout.trans hm))
      have hnext : (xprintf " %02x" [.word b]
          (rd8safe addr bus (a + BitVec.ofNat 32 (15 - left)) m).1).loads = m.loads + 1 := hloads
      rw [hnext] at h1 h2 h3
      refine ⟨h1.trans ?_, h2.trans ?_, h3.trans ?_⟩
      · simp
      · simp
      · rw [List.length_cons]
        omega
    · have hnone := @row_bytes_end bus a count (left + 1) m.loads (by omega)
      have hnone' := @row_bytes_end bus a count left m.loads (by omega)
      have hloads : (xprintf "   " [] m).loads = m.loads := rfl
      have hpad : List.replicate (3 * (left + 1)) space =
          [space, space, space] ++ List.replicate (3 * left) space := by
        rw [Nat.mul_succ, Nat.add_comm, ← List.replicate_append_replicate]
        rfl
      unfold db_bytes
      dsimp only
      rw [if_neg (by omega)]
      obtain ⟨h1, h2, h3⟩ := ih (by omega) (txt ++ [0x20]) (printed prints_blank hm)
      rw [hloads, hnone'] at h1 h2 h3
      rw [h1, h2, h3, hnone]
      refine ⟨?_, ?_, rfl⟩
      · simp only [List.flatMap_nil, List.nil_append, List.length_nil, Nat.sub_zero, hpad,
          List.append_assoc]
      · simp [List.replicate_succ]
        rfl

theorem prints_column {txt : List Byte} (hnul : 0 ∉ txt) (hlen : txt.length ≤ 16) :
    printf.xprintf "  %s\n" [.str (some txt)] = some (space :: space :: (txt ++ [newline])) := by
  obtain ⟨hchars, hargs, hprints⟩ := printf.string_item_spec txt (by omega)
  rw [printf.c_str_of_no_nul hnul] at hprints
  apply printf.xprintf_whole [.literal space (by decide), .literal space (by decide),
    printf.string_item txt (by omega), .literal newline (by decide)]
  · simp only [List.flatMap_cons, List.flatMap_nil, hchars]
    rfl
  · simp only [List.flatMap_cons, List.flatMap_nil, hargs]
    rfl
  · simp only [List.flatMap_cons, List.flatMap_nil, hprints]
    rfl
  · simp
    omega
  · simp only [List.mem_cons, List.mem_append, not_or]
    exact ⟨by decide, by decide, hnul, by decide, by simp⟩

theorem nul_not_in_row (bs : List Word) : 0 ∉ row_back bs := by
  unfold row_back
  simp only [List.mem_append, not_or, List.mem_map, not_exists, not_and]
  exact ⟨fun b _ => (shown_printed b).1,
    fun h => absurd (List.eq_of_mem_replicate h) (by decide)⟩

theorem db_rows_text (count : Nat) (a : Word) {o : Option (List Byte)} {s : List Byte}
    {m : Console} (hm : m.out = o.map (· ++ s)) :
    (db_rows addr bus count a m).out =
      o.map (· ++ (s ++ bytes_text a (dumped (loaded_byte bus) 1 m.loads a count))) := by
  induction count using Nat.strong_induction_on generalizing a m s with
  | _ count ih =>
    by_cases h0 : count = 0
    · subst h0
      rw [monitor.db_rows, bytes_text]
      simpa [dumped] using hm
    · have hrest : dumped (loaded_byte bus) 1 (m.loads + min 16 count) (a + 16) (count - 16) =
          (dumped (loaded_byte bus) 1 m.loads a count).drop 16 := by
        rw [dumped_drop]
        rcases Nat.lt_or_ge count 16 with hlt | hge
        · rw [Nat.sub_eq_zero_of_le hlt.le]
          rfl
        · rw [Nat.min_eq_left hge]
          rfl
      have hfirst : row_bytes bus a count 16 m.loads =
          (dumped (loaded_byte bus) 1 m.loads a count).take 16 := by
        rw [dumped_take]
        unfold row_bytes
        rw [Nat.sub_self, Nat.sub_zero, BitVec.add_zero]
      have hne : dumped (loaded_byte bus) 1 m.loads a count ≠ [] := by
        intro h
        have hlength := dumped_length (loaded_byte bus) 1 m.loads a count
        rw [h] at hlength
        exact h0 hlength.symm
      have hlen : (row_bytes bus a count 16 m.loads).length = min 16 count := by
        rw [row_bytes, dumped_length]
        simp
      have hloads1 : (xprintf "%08x:" [.word a] m).loads = m.loads := rfl
      obtain ⟨h1, h2, h3⟩ := db_bytes_text addr bus a count 16 (by omega) []
        (printed (prints_address a) hm)
      rw [hloads1] at h1 h2 h3
      rw [monitor.db_rows, if_neg h0, bytes_text, if_neg hne, ← hfirst, ← hrest]
      dsimp only
      generalize db_bytes addr bus a count 16 [] (xprintf "%08x:" [.word a] m) = r at *
      have hback : r.2 = row_back (row_bytes bus a count 16 m.loads) := h2
      have hcolumn := prints_column (nul_not_in_row (row_bytes bus a count 16 m.loads))
        (by simp [row_back, hlen])
      rw [← hback] at hcolumn
      have hloads2 : (xprintf "  %s\n" [.str (some r.2)] r.1).loads =
          m.loads + min 16 count := by rw [← hlen, ← h3]; rfl
      have hnext := ih (count - 16) (by omega) (a + 16) (printed hcolumn h1)
      rw [hloads2] at hnext
      rw [hnext, hback]
      simp [row_text, row_front, dump_line, hlen]

theorem do_db_text (n a count : Word) (m : Console) :
    (do_db addr bus n a count m).out = m.out.map (· ++
      bytes_text a (dumped (loaded_byte bus) 1 m.loads a count.toInt.toNat)) := by
  unfold do_db
  split
  · rename_i hneg
    rw [Int.toNat_of_nonpos hneg.le, bytes_text]
    simp [dumped]
  · rename_i hpos
    have hcount : count.toInt.toNat = count.toNat := by
      have := BitVec.toInt_eq_toNat_cond count
      split at this <;> omega
    have hrows := db_rows_text addr bus count.toNat a (o := m.out) (s := []) (m := m) (by simp)
    rw [List.nil_append] at hrows
    rw [hrows, hcount]

/-- What the two dumps print reads back: the lines of `do_dw` with the reader of the monitor's
command line as addresses and the words that were loaded from there, four in a row; those of
`do_db` as addresses and bytes, sixteen in a row, with the printable ones shown on the right. The
word `i` was loaded from `a + 4 * i`, and the byte `i` from `a + i`. A load that faults counts as
zero. -/
theorem dumps_read_back (n a count : Word) (m : Console) :
    (∃ s, (do_dw addr bus n a count m).out = m.out.map (· ++ s) ∧
      read_back s = rows a ((List.range (dw_count n count)).map fun i =>
        loaded bus (m.loads + i) (a + BitVec.ofNat 32 (4 * i)))) ∧
    ∃ s, (do_db addr bus n a count m).out = m.out.map (· ++ s) ∧
      read_rows s = byte_rows a ((List.range count.toInt.toNat).map fun i =>
        loaded_byte bus (m.loads + i) (a + BitVec.ofNat 32 i)) := by
  refine ⟨⟨_, do_dw_text addr bus n a count m, ?_⟩, _, do_db_text addr bus n a count m, ?_⟩
  · apply read_words_text _ _ (by norm_num)
    · intro c t h
      split at h
      · exact (List.cons.inj h).1.symm
      · cases h
    · split
      · rw [pieces_cons, pieces_nil]
      · exact pieces_nil
  · rw [read_bytes_text]
    · simp [dumped]
    · intro b hb
      obtain ⟨i, _, rfl⟩ := List.mem_map.mp hb
      exact loaded_byte_lt bus _ _

end

end os_workshop.dump
