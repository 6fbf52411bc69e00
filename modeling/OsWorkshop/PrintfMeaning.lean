-- What a format means. A format is a list of plain characters and directives; each directive
-- says how its argument is read, and how the field looks. The engine prints that field.
import OsWorkshop.Numerals
import OsWorkshop.PrintfEngine

open os_workshop.memory (Byte Word)
open os_workshop.numerals

namespace os_workshop.printf

/-! ## Formats -/

inductive Flag
  | minus | plus | blank | alt | zero
  deriving DecidableEq

def Flag.chr : Flag → Byte
  | minus => printf.chr '-'
  | plus => printf.chr '+'
  | blank => printf.chr ' '
  | alt => printf.chr '#'
  | zero => printf.chr '0'

/-- The size of an argument. -/
inductive Size
  | int | hh | h | l | ll | z | j | t
  deriving DecidableEq

def Size.chars : Size → List Byte
  | int => []
  | hh => [chr 'h', chr 'h']
  | h => [chr 'h']
  | l => [chr 'l']
  | ll => [chr 'l', chr 'l']
  | z => [chr 'z']
  | j => [chr 'j']
  | t => [chr 't']

/-- What of an argument is printed. Of a `long long` that is the low half. -/
def Size.bits : Size → Nat
  | hh => 8
  | h => 16
  | _ => 32

/-- An argument of this size as it is passed. -/
def Size.arg (size : Size) (w : BitVec 64) : Arg :=
  if size = ll ∨ size = j then .long_long w else .word (w.setWidth 32)

/-- What stands between `%` and the letter of a directive. -/
structure Layout where
  flags : List Flag
  width : Word
  size : Size

def digit (d : Nat) : Byte := BitVec.ofNat 8 d + chr '0'

def decimal_chars (n : Nat) : List Byte := (numeral 10 n).map digit

def Layout.chars (l : Layout) : List Byte :=
  l.flags.map Flag.chr ++ (if l.width = 0 then [] else decimal_chars l.width.toNat) ++ l.size.chars

/-- The characters after `%` that mean something. -/
def letters : List Byte := "0123456789.-+ #lhzjt%csidupXxn".toList.map chr

/-- The letter of a directive, with its argument. -/
inductive Conversion
  | percent
  | character (w : Word)
  | string (s : Option (List Byte)) (h : (s.getD []).length < 2 ^ 32)
  | signed (w : BitVec 64)
  | unsigned (w : BitVec 64)
  | hexadecimal (caps : Bool) (w : BitVec 64)
  | pointer (w : BitVec 64)
  | count (ptr : Word)
  | other (c : Byte) (h : c ≠ 0 ∧ c ∉ letters)

/-- A plain character or a directive. -/
inductive Item
  | literal (c : Byte) (h : c ≠ 0 ∧ c ≠ chr '%')
  | directive (l : Layout) (c : Conversion)

def Conversion.letter : Conversion → Byte
  | percent => chr '%'
  | character _ => chr 'c'
  | string _ _ => chr 's'
  | signed _ => chr 'd'
  | unsigned _ => chr 'u'
  | hexadecimal caps _ => if caps then chr 'X' else chr 'x'
  | pointer _ => chr 'p'
  | count _ => chr 'n'
  | other c _ => c

def Item.chars : Item → List Byte
  | literal c _ => [c]
  | directive l c => chr '%' :: (l.chars ++ [c.letter])

/-- A pointer is a `long`, unless the directive says `ll`. -/
def Size.pointer : Size → Size
  | ll => ll
  | _ => l

def Conversion.args (size : Size) : Conversion → List Arg
  | percent | other _ _ => []
  | character w => [.word w]
  | string s _ => [.str s]
  | signed w | unsigned w | hexadecimal _ w => [size.arg w]
  | pointer w => [size.pointer.arg w]
  | count ptr => [.word ptr]

def Item.args : Item → List Arg
  | literal _ _ => []
  | directive l c => c.args l.size

/-! ## Meaning -/

/-- A body in a field. On the left of its field it has no sign. -/
def field (left zero : Bool) (width : Nat) (sign body : List Byte) : List Byte :=
  let room := List.replicate (width - sign.length - body.length)
  if left then body ++ List.replicate (width - body.length) (chr ' ')
  else if zero then sign ++ room (chr '0') ++ body
  else room (chr ' ') ++ sign ++ body

def Layout.has (l : Layout) (f : Flag) : Bool := l.flags.contains f

def Layout.field (l : Layout) (sign body : List Byte) : List Byte :=
  printf.field (l.has .minus) (l.has .zero) l.width.toNat sign body

def Layout.sign (l : Layout) (negative : Bool) : List Byte :=
  if negative then [chr '-']
  else if l.has .plus then [chr '+']
  else if l.has .blank then [chr ' ']
  else []

/-- The field of a number. -/
def Layout.number (l : Layout) (n : Int) : List Byte :=
  l.field (l.sign (n < 0)) (decimal_chars n.natAbs)

def hex_digit (caps : Bool) (d : Nat) : Byte := (if caps then hextable_caps else hextable).getD d 0

/-- The prefix stands before the field. -/
def Layout.hex_number (l : Layout) (alt caps : Bool) (n : Nat) : List Byte :=
  (if alt then [chr '0', if caps then chr 'X' else chr 'x'] else []) ++
    l.field [] ((numeral 16 n).map (hex_digit caps))

def Size.signed (size : Size) (w : BitVec 64) : Int := (w.setWidth size.bits).toInt

def Size.unsigned (size : Size) (w : BitVec 64) : Nat := (w.setWidth size.bits).toNat

/-- What a directive prints. -/
def Conversion.prints (l : Layout) : Conversion → List Byte
  | percent => [chr '%']
  | character w => [w.setWidth 8]
  | string s _ =>
    printf.field (l.has .minus) false l.width.toNat [] (c_str (s.getD ("<null>".toList.map chr)))
  | signed w => l.number (l.size.signed w)
  | unsigned w => l.number (l.size.unsigned w)
  | hexadecimal caps w => l.hex_number (l.has .alt) caps (l.size.unsigned w)
  | pointer w => l.hex_number true false (l.size.pointer.unsigned w)
  | count _ => []
  | other c _ => [chr '%', c]

/-- The size of the number that `%n` stores. -/
def Size.octets : Size → Nat
  | hh => 1
  | h => 2
  | ll => 8
  | _ => 4

/-- The text with a directive more. `%n` stores how long the text is. -/
def Text.convert (t : Text) (l : Layout) (c : Conversion) : Text where
  chars := t.chars ++ c.prints l
  stores := match c with
    | .count ptr => t.stores ++ [(ptr, (List.range l.size.octets).map fun i =>
        (BitVec.ofNat 32 t.chars.length).extractLsb' (8 * i) 8)]
    | _ => t.stores

def Text.add (t : Text) : Item → Text
  | .literal c _ => { t with chars := t.chars ++ [c] }
  | .directive l c => t.convert l c

/-! ## What the engine adds to a text -/

/-- The run stands behind the text `t`. -/
def Run.At (r : Run Text) (t : Text) : Prop :=
  r.state = t ∧ r.chars_written = BitVec.ofNat 32 t.chars.length

/-- `k` adds the characters `s` to every text. -/
def Adds (k : Run Text → Except (Stop Text) (Run Text)) (s : List Byte) : Prop :=
  ∀ r t, r.At t → ∃ r', k r = .ok r' ∧ r'.At { t with chars := t.chars ++ s }

theorem Adds.refl : Adds .ok [] := by
  intro r t h
  exact ⟨r, rfl, by simpa using h⟩

theorem Adds.bind {k k' : Run Text → Except (Stop Text) (Run Text)} {s s' : List Byte}
    (h : Adds k s) (h' : Adds k' s') : Adds (fun r => k r >>= k') (s ++ s') := by
  intro r t hr
  obtain ⟨r', hk, hr'⟩ := h r t hr
  obtain ⟨r'', hk', hr''⟩ := h' r' _ hr'
  refine ⟨r'', ?_, by simpa using hr''⟩
  simp only [hk]
  exact hk'

theorem Adds.under {k : Run Text → Except (Stop Text) (Run Text)} {s : List Byte} (h : Adds k s)
    (p : Prop) [Decidable p] : Adds (printf.under p k) (if p then s else []) := by
  intro r t hr
  unfold printf.under
  by_cases hp : p
  · simpa [hp] using h r t hr
  · simpa [hp] using hr

/-- The output of a string, and what `err` is then. -/
theorem OUTPUT_STRING_text (s : List Byte) {r : Run Text} {t : Text} (h : r.At t) :
    ∃ r', OUTPUT_STRING collect s r = .ok r' ∧ r'.At { t with chars := t.chars ++ s } ∧
      r'.err = s.length := by
  unfold OUTPUT_STRING collect
  simp only [Int.natCast_nonneg, not_lt.mpr, if_false]
  refine ⟨_, rfl, ⟨by simp [h.1], ?_⟩, rfl⟩
  simp [h.2, BitVec.ofNat_add]

theorem adds_string (s : List Byte) : Adds (OUTPUT_STRING collect s) s := by
  intro r t h
  obtain ⟨r', hr, hat, _⟩ := OUTPUT_STRING_text s h
  exact ⟨r', hr, hat⟩

theorem adds_char (c : Byte) : Adds (OUTPUT_CHAR collect c) [c] := adds_string [c]

theorem adds_pad (c : Byte) (n : Nat) : Adds (pad collect c n) (List.replicate n c) := by
  induction n with
  | zero => exact .refl
  | succ n ih =>
    rw [List.replicate_succ]
    exact (adds_char c).bind ih

/-- The sign as the code keeps it. -/
def sign_of (signchar : Byte) : List Byte := if signchar = 0 then [] else [signchar]

theorem sign_of_length (f : Format) (signchar : Byte) :
    (if signchar ≠ 0 ∧ 0 < f.format_num then f.format_num - 1 else f.format_num).toNat =
      f.format_num.toNat - (sign_of signchar).length := by
  unfold sign_of
  by_cases hs : signchar = 0
  · simp [hs]
  · simp only [hs, ne_eq, not_false_eq_true, true_and, if_false, List.length_singleton]
    split <;> bv_omega

/-- On the left of its field. -/
theorem adds_left (f : Format) (s : List Byte) (hs : s.length < 2 ^ 32) :
    Adds (fun r => OUTPUT_STRING collect s r >>= fun r =>
        pad collect (chr ' ') (f.format_num.toNat - (BitVec.ofInt 32 r.err).toNat) r)
      (s ++ List.replicate (f.format_num.toNat - s.length) (chr ' ')) := by
  intro r t hr
  obtain ⟨r', hk, hr', herr⟩ := OUTPUT_STRING_text s hr
  obtain ⟨r'', hk', hr''⟩ := adds_pad (chr ' ') (f.format_num.toNat - s.length) r' _ hr'
  refine ⟨r'', ?_, by simpa using hr''⟩
  have hwritten : (BitVec.ofInt 32 r'.err).toNat = s.length := by
    rw [herr, BitVec.ofInt_natCast, BitVec.toNat_ofNat, Nat.mod_eq_of_lt hs]
  rw [← hwritten] at hk'
  simp only [hk]
  exact hk'

theorem adds_output_string (f : Format) (signchar : Byte) (s : List Byte)
    (hs : s.length < 2 ^ 32) :
    Adds (output_string collect f signchar s)
      (field f.flags.LEFTFORMATFLAG f.flags.LEADZEROFLAG f.format_num.toNat (sign_of signchar) s) := by
  unfold output_string field
  rcases hleft : f.flags.LEFTFORMATFLAG
  · have hsign := (adds_char signchar).under
    have hadds := (hsign (f.flags.LEADZEROFLAG ∧ signchar ≠ 0)).bind <|
      (adds_pad (if f.flags.LEADZEROFLAG then chr '0' else chr ' ')
        (f.format_num.toNat - (sign_of signchar).length - s.length)).bind <|
      (hsign (¬ f.flags.LEADZEROFLAG ∧ signchar ≠ 0)).bind (adds_string s)
    rw [← sign_of_length] at hadds ⊢
    convert hadds using 1
    · rfl
    unfold sign_of
    rcases f.flags.LEADZEROFLAG <;> by_cases hc : signchar = 0 <;> simp [hc]
  · simpa using adds_left f s hs

/-! ## Numbers in their buffer -/

theorem digit_of (n : Word) : n.setWidth 8 + chr '0' = digit n.toNat := by
  unfold digit
  congr 1

theorem string_loop_numeral (room : Nat) (n : Word) (s : List Byte)
    (h : (numeral 10 n.toNat).length ≤ room) :
    string_loop room n s = some (decimal_chars n.toNat ++ s) := by
  unfold decimal_chars
  induction room generalizing n s with
  | zero => exact absurd (List.length_eq_zero_iff.mp (by omega)) (numeral_ne_nil 10 n.toNat)
  | succ room ih =>
    unfold string_loop
    have hten : (10 : Word).toNat = 10 := rfl
    split <;> rename_i hle <;> rw [BitVec.le_def, hten] at hle
    · have hn : numeral 10 n.toNat = numeral 10 (n / 10).toNat ++ [n.toNat % 10] := by
        rw [numeral_of_le (by omega) hle, BitVec.toNat_udiv, hten]
      rw [hn] at h ⊢
      simp only [List.length_append, List.length_singleton] at h
      rw [ih _ _ (by omega), digit_of, BitVec.toNat_umod, hten]
      simp
    · rw [digit_of, numeral_of_lt (by omega)]
      rfl

theorem hexstring_loop_numeral (caps : Bool) (room : Nat) (n : Word) (s : List Byte)
    (h : (numeral 16 n.toNat).length ≤ room) :
    hexstring_loop (if caps then hextable_caps else hextable) room n s =
      some ((numeral 16 n.toNat).map (hex_digit caps) ++ s) := by
  induction room generalizing n s with
  | zero => exact absurd (List.length_eq_zero_iff.mp (by omega)) (numeral_ne_nil 16 n.toNat)
  | succ room ih =>
    have hbase : (16 : Word).toNat = 16 := rfl
    have hmore : n / 16 ≠ 0 ↔ 16 ≤ n.toNat := by
      rw [Ne, ← BitVec.toNat_inj, BitVec.toNat_udiv, hbase]
      simp
    unfold hexstring_loop
    simp only [hmore, BitVec.toNat_umod, hbase]
    split
    · rename_i hle
      have hn : numeral 16 n.toNat = numeral 16 (n / 16).toNat ++ [n.toNat % 16] := by
        rw [numeral_of_le (by omega) hle, BitVec.toNat_udiv, hbase]
      rw [hn] at h ⊢
      simp only [List.length_append, List.length_singleton] at h
      rw [ih _ _ (by omega)]
      simp [hex_digit]
    · rename_i hlt
      rw [numeral_of_lt (by omega), Nat.mod_eq_of_lt (by omega)]
      rfl

theorem numeral_word_length {b k : Nat} (hb : 1 < b) (hk : 0 < k) (h : 2 ^ 32 ≤ b ^ k) (n : Word) :
    (numeral b n.toNat).length ≤ k :=
  numeral_length_le hb hk (n.isLt.trans_le h)

theorem magnitude (n : Word) (signed : Bool) :
    (if signed ∧ n.toInt < 0 then -n else n).toNat =
      (if signed then n.toInt else n.toNat).natAbs := by
  have hlt := n.isLt
  have hneg := BitVec.toNat_neg n
  have hint := BitVec.toInt_eq_toNat_cond n
  rcases signed
  · simp
  · by_cases hn : n.toInt < 0 <;> simp only [hn, and_self, and_false, if_true, if_false] <;>
      split at hint <;> omega

/-- A number of 32 bits has at most ten digits, so none is lost. -/
theorem longlong_to_string_text (n : Word) (flags : Flags) :
    ∃ signchar, longlong_to_string n num_buffer flags =
        some (decimal_chars (if flags.SIGNEDFLAG then n.toInt else n.toNat).natAbs, signchar) ∧
      sign_of signchar =
        if flags.SIGNEDFLAG ∧ n.toInt < 0 then [chr '-']
        else if flags.SHOWSIGNFLAG then [chr '+']
        else if flags.BLANKPOSFLAG then [chr ' ']
        else [] := by
  have hloop : ∀ n, string_loop (num_buffer - 1) n [] = some (decimal_chars n.toNat) := by
    intro n
    have hlen := numeral_word_length (b := 10) (k := 10) (by omega) (by omega) (by norm_num) n
    simpa using string_loop_numeral (num_buffer - 1) n [] (hlen.trans (by decide))
  unfold longlong_to_string
  simp only [hloop, Option.map_some]
  refine ⟨_, congrArg some (Prod.ext ?_ rfl), ?_⟩
  · exact congrArg decimal_chars (magnitude n flags.SIGNEDFLAG)
  · split_ifs <;> rfl

/-! ## What the engine reads of a directive -/

def Flags.adds (flags : Flags) (fs : List Flag) : Flags :=
  { flags with
    LEFTFORMATFLAG := flags.LEFTFORMATFLAG || fs.contains .minus
    SHOWSIGNFLAG := flags.SHOWSIGNFLAG || fs.contains .plus
    BLANKPOSFLAG := flags.BLANKPOSFLAG || fs.contains .blank
    ALTFLAG := flags.ALTFLAG || fs.contains .alt
    LEADZEROFLAG := flags.LEADZEROFLAG || fs.contains .zero }

def Flags.sized (flags : Flags) : Size → Flags
  | .int => flags
  | .hh => { flags with HALFFLAG := true, HALFHALFFLAG := true }
  | .h => { flags with HALFFLAG := true }
  | .l => { flags with LONGFLAG := true }
  | .ll => { flags with LONGFLAG := true, LONGLONGFLAG := true }
  | .z => { flags with SIZETFLAG := true }
  | .j => { flags with INTMAXFLAG := true }
  | .t => { flags with PTRDIFFFLAG := true }

def Layout.flag_word (l : Layout) : Flags := (({} : Flags).adds l.flags).sized l.size

section

variable {σ : Type} (out : Output σ)

theorem next_flag (flags : Flags) (f : Flag) :
    next_format ⟨flags, 0⟩ f.chr = some ⟨flags.adds [f], 0⟩ := by
  cases f <;> simp [next_format, Flag.chr, chr, Flags.adds]

theorem adds_cons (flags : Flags) (f : Flag) (fs : List Flag) :
    (flags.adds [f]).adds fs = flags.adds (f :: fs) := by
  simp [Flags.adds, Bool.or_assoc]

theorem engine_flags (flags : Flags) (fs : List Flag) (fmt : List Byte) (ap : List Arg) :
    engine out (fs.map Flag.chr ++ fmt) (.format ⟨flags, 0⟩) ap =
      engine out fmt (.format ⟨flags.adds fs, 0⟩) ap := by
  induction fs generalizing flags with
  | nil => simp [Flags.adds]
  | cons f fs ih => rw [List.map_cons, List.cons_append, engine_next out (next_flag flags f), ih, adds_cons]

theorem next_digit (flags : Flags) (v : Word) {d : Nat} (hd : d < 10) (h : v ≠ 0 ∨ d ≠ 0) :
    next_format ⟨flags, v⟩ (digit d) = some ⟨flags, v * 10 + BitVec.ofNat 32 d⟩ := by
  interval_cases d <;> simp_all [next_format, digit, chr]

theorem engine_digits (flags : Flags) {v : Nat} {ds : List Nat} (hv : 0 < v)
    (hds : ∀ d ∈ ds, d < 10) (hlt : horner 10 v ds < 2 ^ 32) (fmt : List Byte) (ap : List Arg) :
    engine out (ds.map digit ++ fmt) (.format ⟨flags, BitVec.ofNat 32 v⟩) ap =
      engine out fmt (.format ⟨flags, BitVec.ofNat 32 (horner 10 v ds)⟩) ap := by
  induction ds generalizing v with
  | nil => rfl
  | cons d ds ih =>
    have hle : v * 10 + d < 2 ^ 32 := (le_horner (by omega) _ _).trans_lt hlt
    have hne : BitVec.ofNat 32 v ≠ 0 := by
      intro he
      have := congrArg BitVec.toNat he
      simp at this
      omega
    have hword : BitVec.ofNat 32 v * 10 + BitVec.ofNat 32 d = BitVec.ofNat 32 (v * 10 + d) := by
      simp [BitVec.ofNat_add, BitVec.ofNat_mul]
    rw [List.map_cons, List.cons_append,
      engine_next out (next_digit flags _ (hds d (by simp)) (.inl hne)), hword, horner_cons]
    exact ih (by omega) (fun x hx => hds x (by simp [hx])) hlt

theorem engine_width (flags : Flags) {width : Word} (h : width ≠ 0) (fmt : List Byte)
    (ap : List Arg) :
    engine out (decimal_chars width.toNat ++ fmt) (.format ⟨flags, 0⟩) ap =
      engine out fmt (.format ⟨flags, width⟩) ap := by
  have hne : width.toNat ≠ 0 := fun he => h (BitVec.eq_of_toNat_eq he)
  obtain ⟨d, ds, hnum, hd⟩ := numeral_head (b := 10) hne
  have hlt : ∀ x ∈ d :: ds, x < 10 := by
    intro x hx
    exact digit_lt (by omega) (hnum ▸ hx)
  have hval : horner 10 d ds = width.toNat := by
    have := horner_numeral (b := 10) (by omega) width.toNat
    simpa [hnum] using this
  unfold decimal_chars
  rw [hnum, List.map_cons, List.cons_append,
    engine_next out (next_digit flags 0 (hlt d (by simp)) (.inr hd))]
  have hdigits := engine_digits out flags (by omega) (fun x hx => hlt x (by simp [hx]))
    (hval ▸ width.isLt) fmt ap
  rw [hval] at hdigits
  simpa using hdigits

theorem engine_size (fs : List Flag) (size : Size) (width : Word) (fmt : List Byte)
    (ap : List Arg) :
    engine out (size.chars ++ fmt) (.format ⟨({} : Flags).adds fs, width⟩) ap =
      engine out fmt (.format ⟨(({} : Flags).adds fs).sized size, width⟩) ap := by
  funext r
  cases size <;> simp [Size.chars, engine, next_format, chr, Flags.sized, Flags.adds]

/-- What stands between `%` and the letter sets the format state. -/
theorem engine_layout (l : Layout) (fmt : List Byte) (ap : List Arg) :
    engine out (l.chars ++ fmt) (.format {}) ap =
      engine out fmt (.format ⟨l.flag_word, l.width⟩) ap := by
  unfold Layout.chars
  rw [List.append_assoc, List.append_assoc]
  refine (engine_flags out {} l.flags _ ap).trans ?_
  split
  · rename_i h0
    rw [h0, List.nil_append]
    exact engine_size out l.flags l.size 0 fmt ap
  · rename_i h0
    rw [engine_width out _ h0, engine_size]
    rfl

end

/-! ## What the engine prints for a directive -/

section

variable {σ : Type}

theorem signed_arg_layout (l : Layout) (w : BitVec 64) (ap : List Arg) :
    signed_arg (σ := σ) l.flag_word (l.size.arg w :: ap) =
      .ok ((w.setWidth l.size.bits).signExtend 32, ap) := by
  obtain ⟨fs, width, size⟩ := l
  cases size <;>
    simp [signed_arg, Layout.flag_word, Flags.sized, Flags.adds, Size.arg, va_word, va_long_long,
      Size.bits, bind, Except.bind, pure, Except.pure]

theorem unsigned_arg_layout (l : Layout) (w : BitVec 64) (ap : List Arg) (caps : Bool) :
    unsigned_arg (σ := σ) { l.flag_word with CAPSFLAG := caps } (l.size.arg w :: ap) =
      .ok ((w.setWidth l.size.bits).setWidth 32, ap) := by
  obtain ⟨fs, width, size⟩ := l
  cases size <;>
    simp [unsigned_arg, Layout.flag_word, Flags.sized, Flags.adds, Size.arg, va_word, va_long_long,
      Size.bits, bind, Except.bind, pure, Except.pure]

theorem pointer_arg_layout (l : Layout) (w : BitVec 64) (ap : List Arg) :
    unsigned_arg (σ := σ) { l.flag_word with LONGFLAG := true, ALTFLAG := true }
        (l.size.pointer.arg w :: ap) =
      .ok ((w.setWidth l.size.pointer.bits).setWidth 32, ap) := by
  obtain ⟨fs, width, size⟩ := l
  cases size <;>
    simp [unsigned_arg, Layout.flag_word, Flags.sized, Flags.adds, Size.arg, va_word, va_long_long,
      Size.bits, Size.pointer, bind, Except.bind, pure, Except.pure]

theorem bits_le (size : Size) : size.bits ≤ 32 := by cases size <;> decide

theorem signed_value (size : Size) (w : BitVec 64) :
    ((w.setWidth size.bits).signExtend 32).toInt = size.signed w :=
  BitVec.toInt_signExtend_of_le (bits_le size)

theorem unsigned_value (size : Size) (w : BitVec 64) :
    ((w.setWidth size.bits).setWidth 32).toNat = size.unsigned w := by
  have hlt := (w.setWidth size.bits).isLt
  have hle := Nat.pow_le_pow_right (n := 2) (by omega) (bits_le size)
  rw [BitVec.toNat_setWidth, Nat.mod_eq_of_lt (by omega)]
  rfl

theorem flag_word_of (l : Layout) : l.flag_word.LEFTFORMATFLAG = l.has .minus ∧
    l.flag_word.LEADZEROFLAG = l.has .zero ∧ l.flag_word.SHOWSIGNFLAG = l.has .plus ∧
    l.flag_word.BLANKPOSFLAG = l.has .blank ∧ l.flag_word.ALTFLAG = l.has .alt ∧
    l.flag_word.CAPSFLAG = false ∧ l.flag_word.SIGNEDFLAG = false := by
  obtain ⟨fs, width, size⟩ := l
  cases size <;> simp [Layout.flag_word, Flags.sized, Flags.adds, Layout.has]

theorem decimal_chars_length (n : Nat) (h : n < 2 ^ 32) : (decimal_chars n).length < 2 ^ 32 := by
  have := numeral_length_le (b := 10) (n := n) (k := 10) (by omega) (by omega) (by omega)
  unfold decimal_chars
  rw [List.length_map]
  omega

/-- The number that the code prints in decimal. -/
def value (flags : Flags) (n : Word) : Int := if flags.SIGNEDFLAG then n.toInt else n.toNat

theorem adds_decimal (f : Format) (n : Word) :
    Adds (decimal collect f n)
      (field f.flags.LEFTFORMATFLAG f.flags.LEADZEROFLAG f.format_num.toNat
        (if f.flags.SIGNEDFLAG ∧ n.toInt < 0 then [chr '-']
          else if f.flags.SHOWSIGNFLAG then [chr '+']
          else if f.flags.BLANKPOSFLAG then [chr ' ']
          else [])
        (decimal_chars (value f.flags n).natAbs)) := by
  obtain ⟨signchar, hs, hsign⟩ := longlong_to_string_text n f.flags
  have hmag : (value f.flags n).natAbs < 2 ^ 32 := by
    unfold value
    rw [← magnitude]
    exact BitVec.isLt _
  have hadds := adds_output_string f signchar _ (decimal_chars_length _ hmag)
  rw [hsign] at hadds
  unfold decimal
  rw [hs]
  exact hadds

theorem adds_number (l : Layout) (n : Word) :
    Adds (decimal collect ⟨l.flag_word, l.width⟩ n) (l.number n.toNat) := by
  obtain ⟨hleft, hzero, hplus, hblank, _, _, hsigned⟩ := flag_word_of l
  have hadds := adds_decimal ⟨l.flag_word, l.width⟩ n
  have hpos : ¬ (n.toNat : Int) < 0 := by omega
  simpa [value, hleft, hzero, hplus, hblank, hsigned, hpos, Layout.number, Layout.field,
    Layout.sign] using hadds

theorem adds_signed_number (l : Layout) (n : Word) :
    Adds (decimal collect ⟨{ l.flag_word with SIGNEDFLAG := true }, l.width⟩ n)
      (l.number n.toInt) := by
  obtain ⟨hleft, hzero, hplus, hblank, _⟩ := flag_word_of l
  have hadds := adds_decimal ⟨{ l.flag_word with SIGNEDFLAG := true }, l.width⟩ n
  simpa [value, hleft, hzero, hplus, hblank, Layout.number, Layout.field, Layout.sign] using hadds

theorem longlong_to_hexstring_text (n : Word) (flags : Flags) :
    longlong_to_hexstring n num_buffer flags =
      some ((numeral 16 n.toNat).map (hex_digit flags.CAPSFLAG)) := by
  have hlen := numeral_word_length (b := 16) (k := 8) (by omega) (by omega) (by norm_num) n
  unfold longlong_to_hexstring
  rw [hexstring_loop_numeral flags.CAPSFLAG (num_buffer - 1) n [] (hlen.trans (by decide)),
    List.append_nil]

theorem ok_bind {ε α β : Type} (a : α) (k : α → Except ε β) : (Except.ok a >>= k) = k a := rfl

/-- The code at `hex` after its argument. -/
theorem adds_hex (f : Format) {ap ap' : List Arg} {n : Word}
    (harg : unsigned_arg (σ := Text) f.flags ap = .ok (n, ap')) {r : Run Text} {t : Text}
    (hr : r.At t) :
    ∃ r', hex collect f ap r = .ok (ap', r') ∧ r'.At { t with
      chars := t.chars ++ ((if f.flags.ALTFLAG then
          [chr '0', if f.flags.CAPSFLAG then chr 'X' else chr 'x'] else []) ++
        field f.flags.LEFTFORMATFLAG f.flags.LEADZEROFLAG f.format_num.toNat []
          ((numeral 16 n.toNat).map (hex_digit f.flags.CAPSFLAG))) } := by
  have hlen := numeral_word_length (b := 16) (k := 8) (by omega) (by omega) (by norm_num) n
  have hbody := adds_output_string f 0 ((numeral 16 n.toNat).map (hex_digit f.flags.CAPSFLAG))
    (by rw [List.length_map]; omega)
  have hadds := ((adds_char (chr '0')).under f.flags.ALTFLAG).bind
    (((adds_char (if f.flags.CAPSFLAG then chr 'X' else chr 'x')).under f.flags.ALTFLAG).bind hbody)
  obtain ⟨r', hk, hat⟩ := hadds r t hr
  refine ⟨r', ?_, ?_⟩
  · unfold hex
    simp only [harg, ok_bind, longlong_to_hexstring_text, defined]
    have hleave : (do return (ap', ← (.ok r' : Except (Stop Text) (Run Text)))) = .ok (ap', r') := rfl
    rw [← hk] at hleave
    simpa only [bind_assoc] using hleave
  · convert hat using 3
    rcases f.flags.ALTFLAG <;> simp [sign_of]

end

theorem leaves {k : Run Text → Except (Stop Text) (Run Text)} {s : List Byte} (h : Adds k s)
    {x : Except (Stop Text) (List Arg × Run Text)} {r : Run Text} {t : Text} {ap : List Arg}
    (hr : r.At t) (hx : x = do return (ap, ← k r)) :
    ∃ r', x = .ok (ap, r') ∧ r'.At { t with chars := t.chars ++ s } := by
  obtain ⟨r', hk, hat⟩ := h r t hr
  refine ⟨r', ?_, hat⟩
  rw [hx, hk]
  rfl

theorem c_str_length (s : List Byte) : (c_str s).length ≤ s.length :=
  (List.takeWhile_sublist _).length_le

theorem letters_spec : ∀ c : Byte, c ∉ letters →
    ¬ (chr '0' ≤ c ∧ c ≤ chr '9') ∧
      c ∉ [chr '.', chr '-', chr '+', chr ' ', chr '#', chr 'l', chr 'h', chr 'z', chr 'j', chr 't'] ∧
      c ∉ [chr '%', chr 'c', chr 's', chr 'i', chr 'd', chr 'u', chr 'p', chr 'X', chr 'x', chr 'n'] := by
  decide +kernel

theorem next_letter (flags : Flags) (width : Word) (c : Conversion) :
    next_format ⟨flags, width⟩ c.letter = none := by
  cases c with
  | hexadecimal caps w => cases caps <;> simp [next_format, Conversion.letter, chr]
  | other c h =>
    obtain ⟨hdigit, hnext, _⟩ := letters_spec c h.2
    simp only [List.mem_cons, List.not_mem_nil, or_false, not_or] at hnext
    unfold next_format
    simp only [Conversion.letter, hdigit, hnext, if_false]
  | _ => simp [next_format, Conversion.letter, chr]

theorem convert_directive (l : Layout) (c : Conversion) (ap : List Arg) {r : Run Text} {t : Text}
    (hr : r.At t) :
    ∃ r', convert collect ⟨l.flag_word, l.width⟩ c.letter (c.args l.size ++ ap) r = .ok (ap, r') ∧
      r'.At (t.convert l c) := by
  obtain ⟨hleft, hzero, hplus, hblank, halt, hcaps, _⟩ := flag_word_of l
  cases c with
  | percent => exact leaves (adds_char _) hr rfl
  | character w => exact leaves (adds_char _) hr rfl
  | string s h =>
    have hlen : (c_str (s.getD ("<null>".toList.map chr))).length < 2 ^ 32 := by
      refine (c_str_length _).trans_lt ?_
      cases s with
      | none => decide
      | some s => exact h
    have hadds := adds_output_string ⟨{ l.flag_word with LEADZEROFLAG := false }, l.width⟩ 0 _ hlen
    rw [hleft] at hadds
    refine leaves hadds hr ?_
    simp [convert, chr, Conversion.args, Conversion.letter, va_str, ok_bind]
  | signed w =>
    have hadds := adds_signed_number l ((w.setWidth l.size.bits).signExtend 32)
    rw [signed_value] at hadds
    refine leaves hadds hr ?_
    simp [convert, chr, Conversion.args, Conversion.letter, signed_arg_layout, ok_bind]
  | unsigned w =>
    have hadds := adds_number l ((w.setWidth l.size.bits).setWidth 32)
    rw [unsigned_value] at hadds
    have harg := unsigned_arg_layout (σ := Text) l w ap false
    rw [← hcaps] at harg
    refine leaves hadds hr ?_
    simp [convert, chr, Conversion.args, Conversion.letter, harg, ok_bind]
  | hexadecimal caps w =>
    have harg := unsigned_arg_layout (σ := Text) l w ap caps
    obtain ⟨r', hk, hat⟩ := adds_hex ⟨{ l.flag_word with CAPSFLAG := caps }, l.width⟩ harg hr
    have hsame : { l.flag_word with CAPSFLAG := false } = l.flag_word := by rw [← hcaps]
    refine ⟨r', ?_, ?_⟩
    · rw [← hk]
      cases caps
      · rw [hsame]
        simp [convert, chr, Conversion.args, Conversion.letter]
      · simp [convert, chr, Conversion.args, Conversion.letter]
    · rw [unsigned_value, hleft, hzero, halt] at hat
      exact hat
  | pointer w =>
    have harg := pointer_arg_layout (σ := Text) l w ap
    obtain ⟨r', hk, hat⟩ := adds_hex
      ⟨{ l.flag_word with LONGFLAG := true, ALTFLAG := true }, l.width⟩ harg hr
    refine ⟨r', ?_, ?_⟩
    · rw [← hk]
      simp [convert, chr, Conversion.args, Conversion.letter]
    · rw [unsigned_value, hleft, hzero, hcaps] at hat
      exact hat
  | count ptr =>
    have hcount : ∀ n, count_octets l.flag_word n =
        (List.range l.size.octets).map fun i => n.extractLsb' (8 * i) 8 := by
      intro n
      obtain ⟨fs, width, size⟩ := l
      cases size <;> simp [count_octets, Layout.flag_word, Flags.sized, Flags.adds, Size.octets]
    refine ⟨{ r with state := collect.store ptr (count_octets l.flag_word r.chars_written) r.state },
      ?_, ?_, ?_⟩
    · simp [convert, chr, Conversion.args, Conversion.letter, va_word, ok_bind, pure, Except.pure]
    · simp [collect, hcount, hr.1, hr.2, Text.convert, Conversion.prints]
    · simpa [Text.convert, Conversion.prints] using hr.2
  | other c h =>
    obtain ⟨_, _, hletter⟩ := letters_spec c h.2
    simp only [List.mem_cons, List.not_mem_nil, or_false, not_or] at hletter
    refine leaves ((adds_char (chr '%')).bind (adds_char c)) hr ?_
    simp [convert, hletter, Conversion.args, Conversion.letter]

/-! ## The whole format -/

/-- A format: its items, and a directive that breaks off at the end. -/
def format (items : List Item) (cut : Option Layout) : List Byte :=
  items.flatMap Item.chars ++ cut.elim [] fun l => chr '%' :: l.chars

theorem engine_cut (cut : Option Layout) (s : List Byte) (ap : List Arg) {r : Run Text} {t : Text}
    (hr : r.At t) :
    ∃ r', engine collect (format [] cut) (.regular s) ap r = .ok r' ∧
      r'.At { t with chars := t.chars ++ s } := by
  obtain ⟨r', hk, hat⟩ := adds_string s r t hr
  refine ⟨r', ?_, hat⟩
  cases cut with
  | none => exact hk
  | some l =>
    have hlayout := engine_layout collect l [] ap
    rw [List.append_nil] at hlayout
    simp only [format, List.flatMap_nil, List.nil_append, Option.elim_some, engine, if_true, hk,
      ok_bind, hlayout]

theorem engine_items (items : List Item) (cut : Option Layout) (more : List Arg) (s : List Byte)
    {r : Run Text} {t : Text} (hr : r.At t) :
    ∃ r', engine collect (format items cut) (.regular s) (items.flatMap Item.args ++ more) r =
        .ok r' ∧ r'.At (items.foldl Text.add { t with chars := t.chars ++ s }) := by
  induction items generalizing s r t with
  | nil => exact engine_cut cut s more hr
  | cons i items ih =>
    cases i with
    | literal c h =>
      obtain ⟨r', hk, hat⟩ := ih (s ++ [c]) hr
      refine ⟨r', ?_, by simpa [Text.add] using hat⟩
      simpa [format, engine, Item.chars, Item.args, h.2] using hk
    | directive l c =>
      obtain ⟨r₁, hs, hr₁⟩ := adds_string s r t hr
      obtain ⟨r₂, hc, hr₂⟩ := convert_directive l c (items.flatMap Item.args ++ more) hr₁
      obtain ⟨r', hk, hat⟩ := ih [] hr₂
      refine ⟨r', ?_, by simpa [Text.add] using hat⟩
      have hfmt : format (.directive l c :: items) cut =
          chr '%' :: (l.chars ++ c.letter :: format items cut) := by
        simp [format, Item.chars]
      rw [hfmt]
      simp only [engine, if_true, hs, ok_bind, engine_layout, next_letter]
      simpa [Item.args, hc, ok_bind] using hk

theorem digit_ne_zero {d : Nat} (h : d < 10) : digit d ≠ 0 := by
  interval_cases d <;> decide

theorem layout_no_nul (l : Layout) : 0 ∉ l.chars := by
  unfold Layout.chars decimal_chars
  simp only [List.mem_append, List.mem_map, not_or, not_exists, not_and]
  refine ⟨⟨fun f _ => by cases f <;> decide, ?_⟩, by cases l.size <;> decide⟩
  split
  · simp
  · simp only [List.mem_map, not_exists, not_and]
    exact fun d hd => digit_ne_zero (digit_lt (by omega) hd)

theorem item_no_nul (i : Item) : 0 ∉ i.chars := by
  cases i with
  | literal c h => simpa [Item.chars] using h.1.symm
  | directive l c =>
    have hletter : 0 ≠ c.letter := by
      cases c with
      | hexadecimal caps w => cases caps <;> simp [Conversion.letter, chr]
      | other c h => exact h.1.symm
      | _ => simp [Conversion.letter, chr]
    apply List.not_mem_cons_of_ne_of_not_mem (by decide)
    simpa [layout_no_nul] using ⟨layout_no_nul l, hletter⟩

theorem c_str_of_no_nul {s : List Byte} (h : 0 ∉ s) : c_str s = s := by
  unfold c_str
  rw [List.takeWhile_eq_self_iff]
  intro c hc
  have hne : c ≠ 0 := fun he => h (he ▸ hc)
  simpa using hne

theorem c_str_format (items : List Item) (cut : Option Layout) :
    c_str (format items cut) = format items cut := by
  apply c_str_of_no_nul
  unfold format
  rw [List.mem_append, not_or]
  refine ⟨?_, ?_⟩
  · simp only [List.mem_flatMap, not_exists, not_and]
    exact fun i _ => item_no_nul i
  · cases cut with
    | none => simp
    | some l => exact List.not_mem_cons_of_ne_of_not_mem (by decide) (layout_no_nul l)

theorem text_format (items : List Item) (cut : Option Layout) (more : List Arg) :
    text (format items cut) (items.flatMap Item.args ++ more) =
      some (items.foldl Text.add ⟨[], []⟩) := by
  obtain ⟨r, hk, hat⟩ := engine_items items cut more [] (r := .start ⟨[], []⟩) (t := ⟨[], []⟩)
    ⟨rfl, rfl⟩
  unfold text
  rw [c_str_format, hk]
  simpa [Except.toOption] using hat.1

end os_workshop.printf
