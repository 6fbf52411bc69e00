-- The formatter of libc (src/libc/src/printf.c): the engine as a machine over the
-- characters of the format, with any function to take its output, and vsnprintf.
-- The build sets neither WITH_PRINTF_LL nor WITH_PRINTF_FP.
import OsWorkshop.Memory

open os_workshop.memory (Byte Word Mem write)

namespace os_workshop.printf

def chr (c : Char) : Byte := BitVec.ofNat 8 c.toNat

/-! ## What goes in and out -/

/-- An argument as it is passed: a word (an `int`, a `long`, a pointer to write to), a
`long long`, or a string, which may be null. -/
inductive Arg
  | word (w : Word)
  | long_long (w : BitVec 64)
  | str (s : Option (List Byte))

/-- What takes the output. `call` returns the number of characters, or an error below zero.
`%n` writes to memory. -/
structure Output (σ : Type) where
  call : List Byte → σ → Int × σ
  store : Word → List Byte → σ → σ

/-- The variables `err` and `chars_written`, and what `state` points at. -/
structure Run (σ : Type) where
  err : Int
  chars_written : Word
  state : σ

def Run.start {σ : Type} (state : σ) : Run σ := ⟨0, 0, state⟩

/-- Why the engine stops early: an argument is missing or has another type, which is
undefined, or the output failed. -/
inductive Stop (σ : Type)
  | undefined
  | failed (err : Int) (state : σ)

/-! ## Numbers -/

structure Flags where
  LONGFLAG : Bool := false
  LONGLONGFLAG : Bool := false
  HALFFLAG : Bool := false
  HALFHALFFLAG : Bool := false
  SIZETFLAG : Bool := false
  INTMAXFLAG : Bool := false
  PTRDIFFFLAG : Bool := false
  ALTFLAG : Bool := false
  CAPSFLAG : Bool := false
  SHOWSIGNFLAG : Bool := false
  SIGNEDFLAG : Bool := false
  LEFTFORMATFLAG : Bool := false
  LEADZEROFLAG : Bool := false
  BLANKPOSFLAG : Bool := false
  deriving DecidableEq

/-- The loop of `longlong_to_string` fills the buffer from its end, with the room left in it.
In front of the buffer it would be undefined. -/
def string_loop : Nat → Word → List Byte → Option (List Byte)
  | 0, _, _ => none
  | room + 1, n, s =>
    if 10 ≤ n then string_loop room (n / 10) (((n % 10).setWidth 8 + chr '0') :: s)
    else some ((n.setWidth 8 + chr '0') :: s)

def longlong_to_string (n : Word) (len : Nat) (flag : Flags) : Option (List Byte × Byte) :=
  let negative := flag.SIGNEDFLAG ∧ n.toInt < 0
  let n := if negative then -n else n
  let signchar :=
    if negative then chr '-'
    else if flag.SHOWSIGNFLAG then chr '+'
    else if flag.BLANKPOSFLAG then chr ' '
    else 0
  -- the last octet is the NUL
  (string_loop (len - 1) n []).map fun s => (s, signchar)

def hextable : List Byte := "0123456789abcdef".toList.map chr
def hextable_caps : List Byte := "0123456789ABCDEF".toList.map chr

def hexstring_loop (table : List Byte) : Nat → Word → List Byte → Option (List Byte)
  | 0, _, _ => none
  | room + 1, u, s =>
    let s := table.getD (u % 16).toNat 0 :: s
    if u / 16 ≠ 0 then hexstring_loop table room (u / 16) s else some s

def longlong_to_hexstring (u : Word) (len : Nat) (flag : Flags) : Option (List Byte) :=
  hexstring_loop (if flag.CAPSFLAG then hextable_caps else hextable) (len - 1) u []

/-! ## The engine -/

/-- The format state. -/
structure Format where
  flags : Flags := {}
  format_num : Word := 0

/-- The characters after which the code goes on at `next_format`. -/
def next_format (f : Format) (c : Byte) : Option Format :=
  let flags := f.flags
  if chr '0' ≤ c ∧ c ≤ chr '9' then
    let flags := if c = chr '0' ∧ f.format_num = 0 then { flags with LEADZEROFLAG := true } else flags
    some ⟨flags, f.format_num * 10 + (c - chr '0').setWidth 32⟩
  else if c = chr '.' then some f
  else if c = chr '-' then some { f with flags := { flags with LEFTFORMATFLAG := true } }
  else if c = chr '+' then some { f with flags := { flags with SHOWSIGNFLAG := true } }
  else if c = chr ' ' then some { f with flags := { flags with BLANKPOSFLAG := true } }
  else if c = chr '#' then some { f with flags := { flags with ALTFLAG := true } }
  else if c = chr 'l' then
    some { f with flags :=
      { flags with LONGLONGFLAG := flags.LONGLONGFLAG || flags.LONGFLAG, LONGFLAG := true } }
  else if c = chr 'h' then
    some { f with flags :=
      { flags with HALFHALFFLAG := flags.HALFHALFFLAG || flags.HALFFLAG, HALFFLAG := true } }
  else if c = chr 'z' then some { f with flags := { flags with SIZETFLAG := true } }
  else if c = chr 'j' then some { f with flags := { flags with INTMAXFLAG := true } }
  else if c = chr 't' then some { f with flags := { flags with PTRDIFFFLAG := true } }
  else none

section

variable {σ : Type}

def va_word : List Arg → Except (Stop σ) (Word × List Arg)
  | .word w :: ap => .ok (w, ap)
  | _ => .error .undefined

def va_long_long : List Arg → Except (Stop σ) (BitVec 64 × List Arg)
  | .long_long w :: ap => .ok (w, ap)
  | _ => .error .undefined

def va_str : List Arg → Except (Stop σ) (Option (List Byte) × List Arg)
  | .str s :: ap => .ok (s, ap)
  | _ => .error .undefined

/-- The argument of `d` and `i`. A `long` has 32 bits, and so has `n`. -/
def signed_arg (flags : Flags) (ap : List Arg) : Except (Stop σ) (Word × List Arg) := do
  if flags.LONGLONGFLAG then
    let (w, ap) ← va_long_long ap
    return (w.setWidth 32, ap)
  else if flags.LONGFLAG then va_word ap
  else if flags.HALFHALFFLAG then
    let (w, ap) ← va_word ap
    return ((w.setWidth 8).signExtend 32, ap)
  else if flags.HALFFLAG then
    let (w, ap) ← va_word ap
    return ((w.setWidth 16).signExtend 32, ap)
  else if flags.INTMAXFLAG then
    let (w, ap) ← va_long_long ap
    return (w.setWidth 32, ap)
  else va_word ap

/-- The argument of `u`, `x`, `X` and `p`. -/
def unsigned_arg (flags : Flags) (ap : List Arg) : Except (Stop σ) (Word × List Arg) := do
  if flags.LONGLONGFLAG then
    let (w, ap) ← va_long_long ap
    return (w.setWidth 32, ap)
  else if flags.LONGFLAG then va_word ap
  else if flags.HALFHALFFLAG then
    let (w, ap) ← va_word ap
    return ((w.setWidth 8).setWidth 32, ap)
  else if flags.HALFFLAG then
    let (w, ap) ← va_word ap
    return ((w.setWidth 16).setWidth 32, ap)
  else if flags.SIZETFLAG then va_word ap
  else if flags.INTMAXFLAG then
    let (w, ap) ← va_long_long ap
    return (w.setWidth 32, ap)
  else va_word ap

/-- What `%n` stores, in the size that the flags name. -/
def count_octets (flags : Flags) (n : Word) : List Byte :=
  let size :=
    if flags.LONGLONGFLAG then 8
    else if flags.LONGFLAG then 4
    else if flags.HALFHALFFLAG then 1
    else if flags.HALFFLAG then 2
    else 4
  (List.range size).map fun i => n.extractLsb' (8 * i) 8

variable (out : Output σ)

def OUTPUT_STRING (str : List Byte) (r : Run σ) : Except (Stop σ) (Run σ) :=
  let (err, state) := out.call str r.state
  if err < 0 then .error (.failed err state)
  else .ok ⟨err, r.chars_written + BitVec.ofInt 32 err, state⟩

def OUTPUT_CHAR (c : Byte) : Run σ → Except (Stop σ) (Run σ) := OUTPUT_STRING out [c]

/-- A statement under an `if`. -/
def under (p : Prop) [Decidable p] (k : Run σ → Except (Stop σ) (Run σ)) (r : Run σ) :
    Except (Stop σ) (Run σ) :=
  if p then k r else .ok r

/-- The loops that pad. -/
def pad (c : Byte) : Nat → Run σ → Except (Stop σ) (Run σ)
  | 0, r => .ok r
  | n + 1, r => do pad c n (← OUTPUT_CHAR out c r)

/-- The code at the label `_output_string`. -/
def output_string (f : Format) (signchar : Byte) (s : List Byte) (r : Run σ) :
    Except (Stop σ) (Run σ) :=
  if f.flags.LEFTFORMATFLAG then do
    let r ← OUTPUT_STRING out s r
    -- `err` is what the string took
    pad out (chr ' ') (f.format_num.toNat - (BitVec.ofInt 32 r.err).toNat) r
  else do
    let format_num := if signchar ≠ 0 ∧ 0 < f.format_num then f.format_num - 1 else f.format_num
    let r ← under (f.flags.LEADZEROFLAG ∧ signchar ≠ 0) (OUTPUT_CHAR out signchar) r
    let r ← pad out (if f.flags.LEADZEROFLAG then chr '0' else chr ' ')
      (format_num.toNat - s.length) r
    let r ← under (¬ f.flags.LEADZEROFLAG ∧ signchar ≠ 0) (OUTPUT_CHAR out signchar) r
    OUTPUT_STRING out s r

/-- A buffer that is too small would be undefined. -/
def defined {α : Type} : Option α → Except (Stop σ) α
  | some a => .ok a
  | none => .error .undefined

def c_str (s : List Byte) : List Byte := s.takeWhile (· ≠ 0)

/-- The size of `num_buffer`. -/
def num_buffer : Nat := 32

def decimal (f : Format) (n : Word) (r : Run σ) : Except (Stop σ) (Run σ) := do
  let (s, signchar) ← defined (longlong_to_string n num_buffer f.flags)
  output_string out f signchar s r

/-- The code at the label `hex`. -/
def hex (f : Format) (ap : List Arg) (r : Run σ) : Except (Stop σ) (List Arg × Run σ) := do
  let (n, ap) ← unsigned_arg f.flags ap
  let s ← defined (longlong_to_hexstring n num_buffer f.flags)
  let r ← under f.flags.ALTFLAG (OUTPUT_CHAR out (chr '0')) r
  let r ← under f.flags.ALTFLAG (OUTPUT_CHAR out (if f.flags.CAPSFLAG then chr 'X' else chr 'x')) r
  return (ap, ← output_string out f 0 s r)

/-- The `switch` at a character after which the next field starts. -/
def convert (f : Format) (c : Byte) (ap : List Arg) (r : Run σ) :
    Except (Stop σ) (List Arg × Run σ) := do
  if c = chr '%' then
    return (ap, ← OUTPUT_CHAR out (chr '%') r)
  else if c = chr 'c' then
    let (uc, ap) ← va_word ap
    return (ap, ← OUTPUT_CHAR out (uc.setWidth 8) r)
  else if c = chr 's' then
    let (s, ap) ← va_str ap
    let s := s.getD ("<null>".toList.map chr)
    let f := { f with flags := { f.flags with LEADZEROFLAG := false } }
    return (ap, ← output_string out f 0 (c_str s) r)
  else if c = chr 'i' ∨ c = chr 'd' then
    let (n, ap) ← signed_arg f.flags ap
    return (ap, ← decimal out { f with flags := { f.flags with SIGNEDFLAG := true } } n r)
  else if c = chr 'u' then
    let (n, ap) ← unsigned_arg f.flags ap
    return (ap, ← decimal out f n r)
  else if c = chr 'p' then
    hex out { f with flags := { f.flags with LONGFLAG := true, ALTFLAG := true } } ap r
  else if c = chr 'X' then
    hex out { f with flags := { f.flags with CAPSFLAG := true } } ap r
  else if c = chr 'x' then
    hex out f ap r
  else if c = chr 'n' then
    let (ptr, ap) ← va_word ap
    return (ap, { r with state := out.store ptr (count_octets f.flags r.chars_written) r.state })
  else
    let r ← OUTPUT_CHAR out (chr '%') r
    return (ap, ← OUTPUT_CHAR out c r)

/-- Where the code is in the format: in regular characters, with those since the last field,
or behind a `%`. -/
inductive Mode
  | regular (s : List Byte)
  | format (f : Format)

/-- The engine, from a place in the format to its end. -/
def engine : List Byte → Mode → List Arg → Run σ → Except (Stop σ) (Run σ)
  | [], .regular s, _, r => OUTPUT_STRING out s r
  | [], .format _, _, r => .ok r
  | c :: fmt, .regular s, ap, r =>
    if c = chr '%' then do engine fmt (.format {}) ap (← OUTPUT_STRING out s r)
    else engine fmt (.regular (s ++ [c])) ap r
  | c :: fmt, .format f, ap, r =>
    match next_format f c with
    | some f => engine fmt (.format f) ap r
    | none => do
      let (ap, r) ← convert out f c ap r
      engine fmt (.regular []) ap r

theorem engine_next {f f' : Format} {c : Byte} (h : next_format f c = some f')
    (fmt : List Byte) (ap : List Arg) :
    engine out (c :: fmt) (.format f) ap = engine out fmt (.format f') ap := by
  funext r
  simp [engine, h]

theorem engine_convert {f : Format} {c : Byte} (h : next_format f c = none) (fmt : List Byte)
    (ap : List Arg) :
    engine out (c :: fmt) (.format f) ap =
      fun r => convert out f c ap r >>= fun a => engine out fmt (.regular []) a.1 a.2 := by
  funext r
  simp [engine, h]

def _printf_engine (state : σ) (fmt : List Byte) (ap : List Arg) : Option (Int × σ) :=
  match engine out (c_str fmt) (.regular []) ap (.start state) with
  | .ok r => some (r.chars_written.toInt, r.state)
  | .error (.failed err state) => some (err, state)
  | .error .undefined => none

end

/-! ## vsnprintf -/

/-- `struct _output_args`, and the memory. -/
structure output_args where
  outstr : Word
  len : Word
  pos : Word
  mem : Mem

/-- One turn of the loop of `_vsnprintf_output`. -/
def output_args.put (args : output_args) (c : Byte) : output_args :=
  if args.pos < args.len then
    { args with mem := write args.mem (args.outstr + args.pos) [c], pos := args.pos + 1 }
  else args

def _vsnprintf_output : Output output_args where
  call str args := ((BitVec.ofNat 32 str.length).toInt, str.foldl output_args.put args)
  store ptr bs args := { args with mem := write args.mem ptr bs }

/-- The value, and the memory with the string at `str`. -/
def vsnprintf (m : Mem) (str len : Word) (fmt : List Byte) (ap : List Arg) :
    Option (Int × Mem) := do
  let (wlen, args) ← _printf_engine _vsnprintf_output ⟨str, len, 0, m⟩ fmt ap
  if len ≤ args.pos then some (wlen, write args.mem (str + (len - 1)) [0])
  else some (wlen, write args.mem (str + BitVec.ofInt 32 wlen) [0])

/-! ## The text of a format -/

/-- The characters of a text, and what `%n` stored. -/
structure Text where
  chars : List Byte
  stores : List (Word × List Byte)

/-- All output is taken. -/
def collect : Output Text where
  call str t := (str.length, { t with chars := t.chars ++ str })
  store ptr bs t := { t with stores := t.stores ++ [(ptr, bs)] }

/-- The text of a format with these arguments. -/
def text (fmt : List Byte) (ap : List Arg) : Option Text :=
  (engine collect (c_str fmt) (.regular []) ap (.start ⟨[], []⟩)).toOption.map Run.state

end os_workshop.printf
