-- The command line of the monitor on its characters (console_line and
-- console_cmd of src/boot/console.c, console_call_cmd of src/boot/helpers.S).
-- The line is cut into tokens where it stands, and every access to the line,
-- to `token` and to `argx` is checked.
import OsWorkshop.Monitor

open os_workshop.memory (Byte Word)
open os_workshop.rv32 (Data State Instr line mv)
open os_workshop.monitor (Fn Arg console_cmd_t CMDS MAXTOK chars tokens digit atox_from atox)

namespace os_workshop.console

/-! ## Checked arrays -/

def store {α : Type} (xs : List α) (i : Nat) (v : α) : Option (List α) :=
  if i < xs.length then some (xs.set i v) else none

/-- The string at a pointer into the line, when its NUL is in the line. -/
def cstr (buf : List Byte) (i : Nat) : Option (List Byte) :=
  if (buf.drop i).contains 0 then some ((buf.drop i).takeWhile (· != 0)) else none

/-! ## The tokenizer -/

/-- The first inner loop. Its test for NUL is made where a space was seen, and never holds. -/
def skip_spaces (buf : List Byte) (i : Nat) : Option (List Byte × Nat) :=
  match h : buf[i]? with
  | none => none
  | some c => if c = 0x20 then skip_spaces (buf.set i 0) (i + 1) else some (buf, i)
termination_by buf.length - i
decreasing_by
  have := (List.getElem?_eq_some_iff.mp h).1
  rw [List.length_set]
  omega

/-- The second inner loop up to a space or NUL: where it stops, and at which of them. -/
def skip_token (buf : List Byte) (i : Nat) : Option (Nat × Byte) :=
  match h : buf[i]? with
  | none => none
  | some c => if c = 0x20 ∨ c = 0 then some (i, c) else skip_token buf (i + 1)
termination_by buf.length - i
decreasing_by
  have := (List.getElem?_eq_some_iff.mp h).1
  omega

/-- The outer loop, with the tokens that there is still room for. A token is closed in the turn
of the next one. -/
def tokenize : Nat → List Byte → Nat → List Nat → Nat → Option (List Byte × List Nat × Nat)
  | 0, buf, _, token, toklen => some (buf, token, toklen)
  | room + 1, buf, i, token, toklen => do
    let (buf, i) ← skip_spaces buf i
    let token ← store token toklen i
    let (j, c) ← skip_token buf i
    if c = 0 then
      if i ≠ j then
        let buf ← store buf j 0
        some (buf, token, toklen + 1)
      else some (buf, token, toklen)
    else tokenize room buf j token (toklen + 1)

/-! ## The command -/

/-- What the line does besides its own characters. -/
inductive Effect
  /-- `unknown command '%s'`. -/
  | unknown (name : List Byte)
  /-- `error: too many arguments`. -/
  | too_many
  /-- A jump to a command with the registers `a0` to `a4`. -/
  | call (fn : Word) (args : List Word)
  | prompt
deriving DecidableEq

/-- Where the linker put the commands. -/
structure Commands where
  addr : Fn → Word
  even : ∀ f, addr f &&& 0xFFFFFFFE = addr f
  apart : ∀ f g, addr f = addr g → f = g

open os_workshop.rv32.Reg in
/-- The stub in helpers.S. -/
def console_call_cmd (d : Data) : State :=
  let d := line nofun [mv t0 a0, mv (L := Empty) a0 a5] d
  ⟨rv32.goes nofun 0 (.jr t0 : Instr Empty) d, d⟩

open os_workshop.rv32.Reg in
/-- The registers at a call of the stub. -/
def call_regs (d : Data) (fn : Word) (argx : List Word) (argc : Nat) : Data :=
  (((((d.set a0 fn).set a1 (argx.getD 0 0)).set a2 (argx.getD 1 0)).set a3 (argx.getD 2 0)).set a4
    (argx.getD 3 0)).set a5 (BitVec.ofNat 32 argc)

open os_workshop.rv32.Reg in
def called (s : State) : Effect :=
  .call s.pc [s.d.get a0, s.d.get a1, s.d.get a2, s.d.get a3, s.d.get a4]

section

variable (T : Commands) (d : Data)

/-- The argument for the letter `n`. -/
def read_arg (buf : List Byte) (token : List Nat) (argc : Nat) (kind : Arg) (n : Nat) :
    Option Word :=
  if n < argc then do
    let arg ← token[n + 1]?
    let s ← cstr buf arg
    some (kind.read s)
  else some 0

/-- The loop of `console_cmd` over the letters of `cmd->args`, from the letter `n` on. -/
def read_args (buf : List Byte) (token : List Nat) (argc : Nat) :
    List Arg → Nat → List Word → Option (List Word)
  | [], _, argx => some argx
  | kind :: kinds, n, argx => do
    let v ← read_arg buf token argc kind n
    let argx ← store argx n v
    read_args buf token argc kinds (n + 1) argx

def console_cmd (cmd : console_cmd_t) (buf : List Byte) (token : List Nat) (argc : Nat) :
    Option (List Effect) :=
  if argc > cmd.args.length ∨ argc > 4 then some [.too_many]
  else do
    let argx ← read_args buf token argc cmd.args 0 [0, 0, 0, 0]
    some [called (console_call_cmd (call_regs d (T.addr cmd.fn) argx argc))]

/-- The line after the call, and what was done. `token` holds anything before it. -/
def console_line (token : List Nat) (buf : List Byte) : Option (List Byte × List Effect) := do
  let (buf, token, toklen) ← tokenize MAXTOK buf 0 token 0
  if toklen = 0 then
    some (buf, [.prompt])
  else
    let name ← cstr buf (← token[0]?)
    match CMDS.find? fun cmd => chars cmd.name == name with
    | some cmd =>
      let done ← console_cmd T d cmd buf token (toklen - 1)
      some (buf, done ++ [.prompt])
    | none => some (buf, [.unknown name, .prompt])

end

/-! ## The grammar -/

/-- The maximal runs of non-space characters. -/
def runs (line : List Byte) : List (List Byte) := (line.splitOn 0x20).filter (· ≠ [])

def HexDigit (c : Byte) : Prop :=
  (0x30 ≤ c ∧ c ≤ 0x39) ∨ (0x41 ≤ c ∧ c ≤ 0x46) ∨ (0x61 ≤ c ∧ c ≤ 0x66)

instance (c : Byte) : Decidable (HexDigit c) := inferInstanceAs (Decidable (_ ∨ _))

def hex_digit (c : Byte) : Nat :=
  if c ≤ 0x39 then c.toNat - 0x30
  else if c ≤ 0x46 then c.toNat - 0x41 + 10
  else c.toNat - 0x61 + 10

/-- The number that the longest prefix of hex digits writes. -/
def hex_value (s : List Byte) : Nat :=
  (s.takeWhile (HexDigit ·)).foldl (fun n c => 16 * n + hex_digit c) 0

/-- The registers of a command: how many arguments there are, and their values. -/
def call_args (args : List (List Byte)) : List Word :=
  BitVec.ofNat 32 args.length ::
    (List.range 4).map fun n => BitVec.ofNat 32 (hex_value (args.getD n []))

/-- What a line is to do. -/
def reference (T : Commands) (line : List Byte) : List Effect :=
  match runs line with
  | [] => [.prompt]
  | name :: args =>
    match CMDS.find? fun cmd => chars cmd.name == name with
    | none => [.unknown name, .prompt]
    | some cmd =>
      if cmd.args.length < args.length then [.too_many, .prompt]
      else [.call (T.addr cmd.fn) (call_args args), .prompt]

/-! ## The tokens where they stand -/

section

variable {pre l rest : List Byte}

/-- The NULs in place of the spaces at the start of a line. -/
def blank (l : List Byte) : List Byte := List.replicate (l.takeWhile (· == 0x20)).length 0

/-- The line after the tokenizer. -/
def cut : Nat → List Byte → List Byte
  | 0, l => l
  | room + 1, l =>
    blank l ++ ((l.dropWhile (· == 0x20)).takeWhile (· != 0x20) ++
      cut room ((l.dropWhile (· == 0x20)).dropWhile (· != 0x20)))

theorem set_middle (pre : List Byte) (c v : Byte) (l : List Byte) :
    (pre ++ c :: l).set pre.length v = pre ++ v :: l := by simp

theorem skip_spaces.spec (pre l rest : List Byte) :
    skip_spaces (pre ++ (l ++ 0 :: rest)) pre.length =
      some (pre ++ blank l ++ (l.dropWhile (· == 0x20) ++ 0 :: rest), (pre ++ blank l).length) := by
  induction l generalizing pre with
  | nil =>
    unfold skip_spaces
    split
    · rename_i h
      simp at h
    · rename_i c h
      obtain rfl : 0 = c := by simpa using h
      simp [blank]
  | cons c l ih =>
    unfold skip_spaces
    split
    · rename_i h
      simp at h
    · rename_i c' h
      obtain rfl : c = c' := by simpa using h
      by_cases hc : c = 0x20
      · subst hc
        have h := ih (pre ++ [0])
        rw [if_pos rfl, List.cons_append, set_middle]
        simpa [blank, List.replicate_succ] using h
      · simp only [BitVec.ofNat_eq_ofNat] at hc
        simp [hc, blank]

/-- What stands after a part of the line: the rest of it, or its NUL. -/
theorem skip_token.spec (pre : List Byte) (hl : ∀ c ∈ l, c ≠ 0) :
    skip_token (pre ++ (l ++ 0 :: rest)) pre.length =
      some ((pre ++ l.takeWhile (· != 0x20)).length, ((l.dropWhile (· != 0x20)).head?).getD 0) := by
  induction l generalizing pre with
  | nil =>
    unfold skip_token
    split
    · rename_i h
      simp at h
    · rename_i c h
      obtain rfl : 0 = c := by simpa using h
      simp
  | cons c l ih =>
    unfold skip_token
    split
    · rename_i h
      simp at h
    · rename_i c' h
      obtain rfl : c = c' := by simpa using h
      obtain ⟨h0, hl⟩ := List.forall_mem_cons.mp hl
      by_cases hc : c = 0x20
      · simp [hc]
      · have h := ih (pre ++ [c]) hl
        rw [if_neg (not_or.mpr ⟨hc, h0⟩)]
        simp only [BitVec.ofNat_eq_ofNat] at hc
        simpa [hc, Nat.add_assoc, Nat.add_comm] using h

/-- A part of the line without NULs, and the NUL after it. -/
theorem cstr_middle (pre rest : List Byte) {s : List Byte} (hs : ∀ c ∈ s, c ≠ 0) :
    cstr (pre ++ (s ++ 0 :: rest)) pre.length = some s := by
  unfold cstr
  rw [List.drop_left, if_pos (by simp), List.takeWhile_append_of_pos (by simpa using hs)]
  simp

theorem cut_nil (room : Nat) : cut room [] = [] := by
  induction room with
  | zero => rfl
  | succ room ih => simpa [cut, blank] using ih

theorem tokens_nil (room : Nat) : tokens room [] = [] := by
  cases room with
  | zero => rfl
  | succ room =>
    unfold tokens
    cases room <;> rfl

theorem tokens_succ (room : Nat) (l : List Byte) :
    tokens (room + 1) l =
      if l.dropWhile (· == 0x20) = [] then []
      else (if room = 0 then l.dropWhile (· == 0x20)
        else (l.dropWhile (· == 0x20)).takeWhile (· != 0x20)) ::
        tokens room ((l.dropWhile (· == 0x20)).dropWhile (· != 0x20)) := by
  cases h : l.dropWhile (· == 0x20) with
  | nil => cases room <;> simp only [tokens, h, if_pos]
  | cons c s =>
    rw [if_neg (List.cons_ne_nil c s)]
    cases room with
    | zero =>
      unfold tokens
      simp only [h]
      rfl
    | succ room =>
      rw [if_neg (Nat.succ_ne_zero room)]
      conv_lhs => unfold tokens
      simp only [h]

/-- A line that goes on after a token goes on with a space. -/
theorem dropWhile_space {c : Byte} {s r : List Byte} (h : s.dropWhile (· != 0x20) = c :: r) :
    c = 0x20 := by
  have hc := List.head?_dropWhile_not (· != 0x20) s
  rw [h] at hc
  simpa using hc

/-- The first token is closed by the time the tokenizer is done, unless there is room for no
other. -/
theorem cstr_first {pre rest s w r : List Byte} {room : Nat} (hs : ∀ c ∈ s, c ≠ 0)
    (hsplit : w ++ r = s) (hr : ∀ c r', r = c :: r' → c = 0x20) :
    cstr (pre ++ (w ++ (cut room r ++ 0 :: rest))) pre.length =
      some (if room = 0 then s else w) := by
  have hw : ∀ c ∈ w, c ≠ 0 := fun c hc => hs c (hsplit ▸ List.mem_append_left _ hc)
  cases r with
  | nil =>
    rw [cut_nil, List.nil_append, cstr_middle _ _ hw]
    rw [List.append_nil] at hsplit
    rw [hsplit, ite_self]
  | cons c r =>
    obtain rfl := hr c r rfl
    cases room with
    | zero =>
      rw [if_pos rfl, cut, ← List.append_assoc w, hsplit]
      exact cstr_middle _ _ hs
    | succ room =>
      rw [if_neg (by omega), cut]
      exact cstr_middle _ _ hw

/-- The tokenizer cuts the line in place, and its pointers stand at the tokens. -/
theorem tokenize.spec (room : Nat) (pre l rest : List Byte) (token : List Nat) (toklen : Nat)
    (hl : ∀ c ∈ l, c ≠ 0) (htok : toklen + room ≤ token.length) :
    ∃ token', tokenize room (pre ++ (l ++ 0 :: rest)) pre.length token toklen =
        some (pre ++ (cut room l ++ 0 :: rest), token', toklen + (tokens room l).length) ∧
      token'.length = token.length ∧ (∀ k < toklen, token'[k]? = token[k]?) ∧
      ∀ k s, (tokens room l)[k]? = some s →
        ∃ i, token'[toklen + k]? = some i ∧
          cstr (pre ++ (cut room l ++ 0 :: rest)) i = some s := by
  induction room generalizing pre l token toklen with
  | zero => exact ⟨token, rfl, rfl, fun _ _ => rfl, by simp [tokens]⟩
  | succ room ih =>
    have hs : ∀ c ∈ l.dropWhile (· == 0x20), c ≠ 0 :=
      fun c hc => hl c ((List.dropWhile_sublist _).mem hc)
    have hsplit := List.takeWhile_append_dropWhile (p := (· != 0x20)) (l := l.dropWhile (· == 0x20))
    have hstore : store token toklen (pre ++ blank l).length =
        some (token.set toklen (pre ++ blank l).length) := if_pos (by omega)
    rw [tokenize, skip_spaces.spec]
    simp only [Option.bind_eq_bind, Option.bind_some, hstore, skip_token.spec _ hs]
    have hout (w r : List Byte) : pre ++ (blank l ++ (w ++ r) ++ 0 :: rest) =
        pre ++ blank l ++ (w ++ (r ++ 0 :: rest)) := by simp only [List.append_assoc]
    rw [tokens_succ, cut, hout]
    generalize l.dropWhile (· == 0x20) = s at *
    have hfirst := @cstr_first (pre ++ blank l) rest s _ _ room hs hsplit
      (fun c r' h => dropWhile_space h)
    have hhere : (token.set toklen (pre ++ blank l).length)[toklen]? =
        some (pre ++ blank l).length := List.getElem?_set_self (by omega)
    cases hr : s.dropWhile (· != 0x20) with
    | nil =>
      rw [hr, List.append_nil] at hsplit
      rw [hr, cut_nil, hsplit, ite_self] at hfirst
      rw [hsplit, cut_nil, tokens_nil]
      by_cases hnil : s = []
      · subst hnil
        exact ⟨token.set toklen (pre ++ blank l).length, by simp, by simp,
          fun k hk => List.getElem?_set_ne (by omega), by simp⟩
      · have hne : (pre ++ blank l).length ≠ (pre ++ blank l ++ s).length := by
          have := List.length_pos_iff.mpr hnil
          simp only [List.length_append]
          omega
        have hput : store (pre ++ blank l ++ (s ++ 0 :: rest)) (pre ++ blank l ++ s).length 0 =
            some (pre ++ blank l ++ (s ++ 0 :: rest)) := by
          unfold store
          rw [if_pos (by simp), ← List.append_assoc _ s, set_middle]
        refine ⟨token.set toklen (pre ++ blank l).length, ?_, by simp,
          fun k hk => List.getElem?_set_ne (by omega), ?_⟩
        · rw [List.head?_nil, Option.getD_none, if_pos rfl, if_pos hne, hput, if_neg hnil]
          rfl
        · intro k t hk
          rw [if_neg hnil, ite_self] at hk
          cases k with
          | zero =>
            obtain rfl : s = t := by simpa using hk
            exact ⟨_, hhere, hfirst⟩
          | succ k => simp at hk
    | cons c r =>
      have hc := dropWhile_space hr
      subst hc
      rw [hr] at hsplit hfirst
      have hne : s ≠ [] := by
        rintro rfl
        simp at hr
      have hturn : pre ++ blank l ++ (s ++ 0 :: rest) =
          pre ++ blank l ++ s.takeWhile (· != 0x20) ++ (0x20 :: r ++ 0 :: rest) := by
        rw [List.append_assoc _ (s.takeWhile _), ← List.append_assoc (s.takeWhile _), hsplit]
      have hrest : ∀ c ∈ 0x20 :: r, c ≠ 0 :=
        fun c hc => hs c (hsplit ▸ List.mem_append_right _ hc)
      obtain ⟨token', hrun, hlen, hbefore, hafter⟩ := ih
        (pre ++ blank l ++ s.takeWhile (· != 0x20)) (0x20 :: r)
        (token.set toklen (pre ++ blank l).length) (toklen + 1) hrest (by rw [List.length_set]; omega)
      rw [List.length_set] at hlen
      rw [List.append_assoc (pre ++ blank l) (s.takeWhile _) (cut _ _ ++ _)] at hrun hafter
      rw [hturn, if_neg hne]
      refine ⟨token', ?_, hlen, ?_, ?_⟩
      · rw [List.head?_cons, Option.getD_some, if_neg (by decide), hrun, List.length_cons,
          Nat.add_assoc, Nat.add_comm 1]
      · intro k hk
        rw [hbefore k (by omega), List.getElem?_set_ne (by omega)]
      · intro k t hk
        cases k with
        | zero =>
          rw [List.getElem?_cons_zero] at hk
          obtain rfl := Option.some.inj hk
          exact ⟨_, (hbefore toklen (by omega)).trans hhere, hfirst⟩
        | succ k =>
          obtain ⟨i, hi, ht⟩ := hafter k t hk
          exact ⟨i, by rw [← hi]; congr 1; omega, ht⟩

end

/-! ## The tokens are the runs -/

theorem runs_space (l : List Byte) : runs (0x20 :: l) = runs l := by
  unfold runs
  rw [List.splitOn_eq_splitOnP, List.splitOn_eq_splitOnP, List.splitOnP_cons_eq_if_modifyHead]
  simp

theorem runs_dropWhile (l : List Byte) : runs l = runs (l.dropWhile (· == 0x20)) := by
  induction l with
  | nil => rfl
  | cons c l ih =>
    by_cases hc : c = 0x20
    · rw [hc, runs_space, ih]
      rfl
    · rw [List.dropWhile_cons_of_neg (by simpa using hc)]

/-- The first run of a line that starts with it. -/
theorem runs_token {w r : List Byte} (hw : w ≠ []) (hspace : ∀ c ∈ w, c ≠ 0x20)
    (hr : ∀ c r', r = c :: r' → c = 0x20) : runs (w ++ r) = w :: runs r := by
  have hnot : (0x20 : Byte) ∉ w := fun h => hspace _ h rfl
  cases r with
  | nil =>
    unfold runs
    rw [List.append_nil, List.splitOn_eq_singleton hnot]
    simp [hw]
  | cons c r =>
    obtain rfl := hr c r rfl
    rw [runs_space]
    unfold runs
    rw [List.splitOn_append_cons_self_of_not_mem hnot]
    simp [hw]

theorem runs_succ (l : List Byte) :
    runs l =
      if l.dropWhile (· == 0x20) = [] then []
      else (l.dropWhile (· == 0x20)).takeWhile (· != 0x20) ::
        runs ((l.dropWhile (· == 0x20)).dropWhile (· != 0x20)) := by
  have hfirst := List.head?_dropWhile_not (· == 0x20) l
  rw [runs_dropWhile]
  cases hs : l.dropWhile (· == 0x20) with
  | nil => rfl
  | cons c s =>
    rw [hs] at hfirst
    have hc : c ≠ 0x20 := by simpa using hfirst
    rw [if_neg (List.cons_ne_nil c s)]
    have h := runs_token (w := (c :: s).takeWhile (· != 0x20))
      (r := (c :: s).dropWhile (· != 0x20)) ?_ ?_ ?_
    · rwa [List.takeWhile_append_dropWhile] at h
    · rw [List.takeWhile_cons_of_pos (by simpa using hc)]
      exact List.cons_ne_nil _ _
    · intro x hx
      simpa using List.mem_takeWhile_imp hx
    · exact fun x r' h => dropWhile_space h

/-- As many tokens as there is room for, and all but the last one possible are runs. -/
theorem tokens_runs (room : Nat) (l : List Byte) :
    (tokens room l).length = min room (runs l).length ∧
    ∀ k, k + 1 < room → (tokens room l)[k]? = (runs l)[k]? := by
  induction room generalizing l with
  | zero => exact ⟨by simp [tokens], fun k hk => absurd hk (by omega)⟩
  | succ room ih =>
    obtain ⟨hlen, hget⟩ := ih ((l.dropWhile (· == 0x20)).dropWhile (· != 0x20))
    rw [tokens_succ, runs_succ]
    split_ifs with hnil hroom
    · exact ⟨by simp, fun k _ => rfl⟩
    · refine ⟨?_, fun k hk => absurd hk (by omega)⟩
      simp only [List.length_cons, hlen]
      omega
    · refine ⟨?_, ?_⟩
      · simp only [List.length_cons, hlen]
        omega
      · intro k hk
        cases k with
        | zero => rfl
        | succ k =>
          rw [List.getElem?_cons_succ, List.getElem?_cons_succ]
          exact hget k (by omega)

/-! ## Hexadecimal -/

theorem digit.spec (c : Byte) :
    digit c = if HexDigit c then some (BitVec.ofNat 32 (hex_digit c)) else none := by
  revert c
  decide

theorem hex_digit_lt (c : Byte) (h : HexDigit c) : hex_digit c < 16 := by
  revert c
  decide

theorem shift_or (n : Word) (v : Nat) (h : v < 16) :
    (n <<< 4) ||| BitVec.ofNat 32 v = BitVec.ofNat 32 (16 * n.toNat + v) := by
  have hn : (n <<< 4).toNat = (n.toNat % 2 ^ 28) <<< 4 := by
    rw [BitVec.toNat_shiftLeft, Nat.shiftLeft_eq, Nat.shiftLeft_eq]
    omega
  have hv : v % 2 ^ 32 = v := Nat.mod_eq_of_lt (by omega)
  apply BitVec.eq_of_toNat_eq
  rw [BitVec.toNat_or, hn, BitVec.toNat_ofNat, BitVec.toNat_ofNat, hv,
    ← Nat.shiftLeft_add_eq_or_of_lt (by omega), Nat.shiftLeft_eq]
  omega

theorem atox_from.spec (s : List Byte) (n : Nat) :
    atox_from (BitVec.ofNat 32 n) s =
      BitVec.ofNat 32 ((s.takeWhile (HexDigit ·)).foldl (fun n c => 16 * n + hex_digit c) n) := by
  induction s generalizing n with
  | nil => rfl
  | cons c s ih =>
    rw [atox_from, digit.spec]
    by_cases hc : HexDigit c
    · have hstep : BitVec.ofNat 32 (16 * (BitVec.ofNat 32 n).toNat + hex_digit c) =
          BitVec.ofNat 32 (16 * n + hex_digit c) := by
        rw [BitVec.toNat_ofNat]
        bv_omega
      rw [if_pos hc, List.takeWhile_cons_of_pos (by simpa using hc), List.foldl_cons, ← ih, ← hstep]
      exact congrArg (atox_from · s) (shift_or _ _ (hex_digit_lt c hc))
    · rw [if_neg hc, List.takeWhile_cons_of_neg (by simpa using hc)]
      rfl

/-- `atox` reads the longest prefix of hex digits, modulo 2^32. -/
theorem atox.spec (s : List Byte) : atox s = BitVec.ofNat 32 (hex_value s) := atox_from.spec s 0

/-! ## The call -/

open os_workshop.rv32 os_workshop.rv32.Reg in
theorem stub.spec (d : Data) :
    console_call_cmd d =
      ⟨d.get a0 &&& 0xFFFFFFFE, (d.set t0 (d.get a0)).set a0 (d.get a5)⟩ := by
  have hline : line nofun [mv t0 a0, mv (L := Empty) a0 a5] d =
      (d.set t0 (d.get a0)).set a0 (d.get a5) := by
    simp only [line_cons, line_nil, act, add_zero]
    rw [get_set_ne _ _ (by decide)]
  unfold console_call_cmd
  rw [hline]
  rfl

/-- The stub jumps to the command, with the number of arguments in front of them. -/
theorem console_call_cmd.spec (T : Commands) (d : Data) (f : Fn) (argx : List Word) (argc : Nat) :
    called (console_call_cmd (call_regs d (T.addr f) argx argc)) =
      .call (T.addr f)
        (BitVec.ofNat 32 argc :: (List.range 4).map fun n => argx.getD n 0) := by
  have hpc : (console_call_cmd (call_regs d (T.addr f) argx argc)).pc = T.addr f := by
    rw [stub.spec]
    exact T.even f
  unfold called
  rw [hpc, stub.spec]
  rfl

/-! ## The arguments -/

section

variable {buf : List Byte} {token : List Nat} {args : List (List Byte)}

/-- The pointers behind the first stand at the arguments. -/
def Points (buf : List Byte) (token : List Nat) (args : List (List Byte)) : Prop :=
  ∀ k s, args[k]? = some s → ∃ i, token[k + 1]? = some i ∧ cstr buf i = some s

theorem read_arg.spec (h : Points buf token args) (n : Nat) :
    read_arg buf token args.length .x n =
      some (BitVec.ofNat 32 (hex_value (args.getD n []))) := by
  unfold read_arg
  by_cases hn : n < args.length
  · obtain ⟨i, hi, hs⟩ := h n _ (List.getElem?_eq_getElem hn)
    simp [hn, hi, hs, Arg.read, atox.spec]
  · rw [if_neg hn, List.getD_eq_default _ _ (by omega)]
    rfl

/-- The loop of `console_cmd` reads an argument for each letter, and zero for a missing one. -/
theorem read_args.spec (h : Points buf token args) (kinds : List Arg) (n : Nat)
    (hx : ∀ kind ∈ kinds, kind = .x) (argx : List Word) (hlen : n + kinds.length ≤ argx.length)
    (hargs : args.length ≤ n + kinds.length)
    (hargx : ∀ k, n ≤ k → argx.getD k 0 = 0)
    (hdone : ∀ k < n, argx.getD k 0 = BitVec.ofNat 32 (hex_value (args.getD k []))) :
    ∃ argx', read_args buf token args.length kinds n argx = some argx' ∧
      ∀ k, argx'.getD k 0 = BitVec.ofNat 32 (hex_value (args.getD k [])) := by
  induction kinds generalizing n argx with
  | nil =>
    refine ⟨argx, rfl, ?_⟩
    intro k
    by_cases hk : k < n
    · exact hdone k hk
    · rw [hargx k (by omega), List.getD_eq_default _ _ (by simp at hargs; omega)]
      rfl
  | cons kind kinds ih =>
    obtain rfl := hx kind List.mem_cons_self
    have hstore (v : Word) : store argx n v = some (argx.set n v) :=
      if_pos (by simp at hlen; omega)
    rw [read_args, read_arg.spec h]
    simp only [Option.bind_eq_bind, Option.bind_some, hstore]
    rw [List.length_cons] at hlen hargs
    apply ih (n + 1) (fun kind hk => hx kind (List.mem_cons_of_mem _ hk)) (argx.set n _)
    · rw [List.length_set]
      omega
    · omega
    · intro k hk
      rw [List.getD_eq_getElem?_getD, List.getElem?_set_ne (by omega), ← List.getD_eq_getElem?_getD]
      exact hargx k (by omega)
    · intro k hk
      by_cases hkn : k = n
      · subst hkn
        rw [List.getD_eq_getElem?_getD, List.getElem?_set_self (by omega)]
        rfl
      · rw [List.getD_eq_getElem?_getD, List.getElem?_set_ne (by omega),
          ← List.getD_eq_getElem?_getD]
        exact hdone k (by omega)

/-- A command gets its arguments, unless there are too many. -/
theorem console_cmd.spec (T : Commands) (d : Data) {cmd : console_cmd_t} (hcmd : cmd ∈ CMDS)
    (h : args.length ≤ cmd.args.length → Points buf token args) :
    console_cmd T d cmd buf token (min 15 args.length) =
      some (if cmd.args.length < args.length then [.too_many]
        else [.call (T.addr cmd.fn) (call_args args)]) := by
  have hmax : ∀ cmd ∈ CMDS, cmd.args.length ≤ 2 := by decide
  have hkinds : ∀ cmd ∈ CMDS, ∀ kind ∈ cmd.args, kind = .x := by simp [CMDS]
  have htwo := hmax cmd hcmd
  unfold console_cmd
  by_cases hmany : cmd.args.length < args.length
  · rw [if_pos (by omega), if_pos hmany]
  · have hargc : min 15 args.length = args.length := by omega
    obtain ⟨argx, hargx, hvalues⟩ := read_args.spec (h (by omega)) cmd.args 0 (hkinds cmd hcmd)
      [0, 0, 0, 0] (by simp; omega) (by omega)
      (by intro k _; match k with | 0 | 1 | 2 | 3 | _ + 4 => rfl) (by omega)
    rw [hargc, if_neg (by omega), if_neg hmany, hargx]
    simp only [Option.bind_eq_bind, Option.bind_some, console_call_cmd.spec, hvalues]
    rfl

end

/-! ## The line -/

theorem cut_length (room : Nat) (l : List Byte) : (cut room l).length = l.length := by
  induction room generalizing l with
  | zero => rfl
  | succ room ih =>
    have h1 := congrArg List.length
      (List.takeWhile_append_dropWhile (p := (· == 0x20)) (l := l))
    have h2 := congrArg List.length (List.takeWhile_append_dropWhile (p := (· != 0x20))
      (l := l.dropWhile (· == 0x20)))
    rw [List.length_append] at h1 h2
    rw [cut, List.length_append, List.length_append, ih, blank, List.length_replicate]
    omega

/-- For every line of printable characters, `console_line` ends within the line up to its NUL,
and does exactly what the grammar of its runs says. -/
theorem a_line_is_dispatched_by_its_runs (T : Commands) (d : Data) {token : List Nat}
    (htoken : token.length = MAXTOK) {line : List Byte} (rest : List Byte)
    (hline : ∀ c ∈ line, 0x20 ≤ c ∧ c ≤ 0x7E) :
    ∃ line', line'.length = line.length ∧
      console_line T d token (line ++ 0 :: rest) = some (line' ++ 0 :: rest, reference T line) := by
  have hnul : ∀ c ∈ line, c ≠ 0 := by
    rintro c hc rfl
    exact absurd (hline 0 hc).1 (by decide)
  obtain ⟨token', hrun, -, -, hpoints⟩ :=
    tokenize.spec MAXTOK [] line rest token 0 hnul (by omega)
  obtain ⟨hlen, hget⟩ := tokens_runs MAXTOK line
  have hMAX : MAXTOK = 16 := rfl
  simp only [List.nil_append, List.length_nil, Nat.zero_add] at hrun hpoints
  refine ⟨cut MAXTOK line, cut_length _ _, ?_⟩
  unfold console_line reference
  rw [hrun]
  simp only [Option.bind_eq_bind, Option.bind_some]
  rw [hlen]
  cases hruns : runs line with
  | nil => rfl
  | cons name args =>
    have hpoint (k : Nat) (s : List Byte) (hk : k + 1 < 16) (hs : (name :: args)[k]? = some s) :
        ∃ i, token'[k]? = some i ∧ cstr (cut MAXTOK line ++ 0 :: rest) i = some s :=
      hpoints k s (by rw [hget k hk, hruns, hs])
    obtain ⟨i, hi, hname⟩ := hpoint 0 name (by omega) rfl
    have hargc : min MAXTOK (name :: args).length - 1 = min 15 args.length := by
      rw [List.length_cons]
      omega
    rw [if_neg (by rw [List.length_cons]; omega), hi]
    simp only [Option.bind_some, hname, hargc]
    cases hfind : CMDS.find? fun cmd => chars cmd.name == name with
    | none => rfl
    | some cmd =>
      have hcmd := List.mem_of_find?_eq_some hfind
      have hmax : ∀ cmd ∈ CMDS, cmd.args.length ≤ 2 := by decide
      have hspec := @console_cmd.spec (cut MAXTOK line ++ 0 :: rest) token' args T d cmd hcmd (by
          intro hfew k s hs
          have hk := (List.getElem?_eq_some_iff.mp hs).1
          have htwo := hmax cmd hcmd
          exact hpoint (k + 1) s (by omega) hs)
      simp only [hspec, Option.bind_some]
      split_ifs <;> rfl

/-- Six commands of 64 octets each. -/
def some_commands : Commands where
  addr := fun
    | .do_help => 0x40000400
    | .do_regs => 0x40000440
    | .do_dw => 0x40000480
    | .do_db => 0x400004C0
    | .do_stop => 0x40000500
    | .do_cont => 0x40000540
  even := by rintro ⟨⟩ <;> decide
  apart := by
    intro f g h
    cases f <;> cases g <;> first | rfl | exact absurd h (by decide)

def zeroed : Data := ⟨fun _ => 0, fun _ => 0, fun _ => 0⟩

/-- ` dw 40008000 4 `. -/
def dw_line : List Byte :=
  [0x20, 0x64, 0x77, 0x20, 0x34, 0x30, 0x30, 0x30, 0x38, 0x30, 0x30, 0x30, 0x20, 0x34, 0x20]

theorem dump_words_is_dispatched :
    ∃ line', line'.length = dw_line.length ∧
      console_line some_commands zeroed (List.replicate 16 0) (dw_line ++ 0 :: []) =
        some (line' ++ 0 :: [], reference some_commands dw_line) :=
  @a_line_is_dispatched_by_its_runs some_commands zeroed (List.replicate 16 0) rfl dw_line []
    (by decide)

example : reference some_commands dw_line = [.call 0x40000480 [2, 0x40008000, 4, 0, 0], .prompt] := by
  decide

/-! ## The monitor that performs it -/

section

open os_workshop.monitor (Symbol Bus Console xputs xprintf)

variable (T : Commands) (addr : Symbol → Word) (bus : Bus)

/-- What an effect does to the monitor. -/
def perform (m : Console) : Effect → Console
  | .unknown name => xprintf "unknown command '%s'\n" [.str (some name)] m
  | .too_many => xprintf "error: too many arguments\n" [] m
  | .call fn args =>
    match CMDS.find? fun cmd => T.addr cmd.fn == fn with
    | some cmd =>
      monitor.console_call_cmd addr bus cmd.fn (fun n => args.getD (n + 1) 0) (args.getD 0 0) m
    | none => m
  | .prompt => xputs (chars "monitor> ") m

theorem fn_apart : ∀ a ∈ CMDS, ∀ b ∈ CMDS, a.fn = b.fn → a = b := by
  intro a ha b hb h
  simp only [CMDS, List.mem_cons, List.not_mem_nil, or_false] at ha hb
  rcases ha with rfl | rfl | rfl | rfl | rfl | rfl <;>
    rcases hb with rfl | rfl | rfl | rfl | rfl | rfl <;> first | rfl | cases h

theorem find_command {cmd : console_cmd_t} (h : cmd ∈ CMDS) :
    CMDS.find? (fun c => T.addr c.fn == T.addr cmd.fn) = some cmd := by
  cases hfind : CMDS.find? fun c => T.addr c.fn == T.addr cmd.fn with
  | none => exact absurd (List.find?_eq_none.mp hfind cmd h) (by simp)
  | some c =>
    have haddr : T.addr c.fn = T.addr cmd.fn := by simpa using List.find?_some hfind
    rw [fn_apart c (List.mem_of_find?_eq_some hfind) cmd h (T.apart _ _ haddr)]

theorem call_args_get {cmd : console_cmd_t} (h : cmd ∈ CMDS) {args : List (List Byte)}
    (hfew : args.length ≤ cmd.args.length) :
    (fun n => (call_args args).getD (n + 1) 0) = monitor.arg_of cmd args := by
  have hmax : ∀ cmd ∈ CMDS, cmd.args.length ≤ 2 := by decide
  have hkinds : ∀ cmd ∈ CMDS, ∀ kind ∈ cmd.args, kind = .x := by simp [CMDS]
  have htwo := hmax cmd h
  funext n
  unfold monitor.arg_of call_args
  by_cases hn : n < args.length
  · obtain hx := hkinds cmd h _ (List.getElem_mem (h := by omega) : cmd.args[n] ∈ cmd.args)
    rw [List.getElem?_eq_getElem (by omega), List.getElem?_eq_getElem hn, hx]
    simp [Arg.read, atox.spec, hn, show n < 4 by omega]
  · rw [List.getElem?_eq_none (Nat.le_of_not_lt hn)]
    by_cases h4 : n < 4
    · simp [h4, hn, hex_value]
    · simp [h4]

/-- The lines of the monitor are done so. -/
theorem the_monitor_performs_its_lines (line : List Byte) (m : Console) :
    (reference T line).foldl (perform T addr bus) m = monitor.console_line addr bus line m := by
  obtain ⟨hlen, hget⟩ := tokens_runs MAXTOK line
  have hMAX : MAXTOK = 16 := rfl
  have hmax : ∀ cmd ∈ CMDS, cmd.args.length ≤ 2 := by decide
  unfold reference monitor.console_line
  cases hruns : runs line with
  | nil =>
    rw [hruns] at hlen
    rw [List.length_eq_zero_iff.mp hlen]
    rfl
  | cons name args =>
    rw [hruns] at hlen hget
    cases htokens : tokens MAXTOK line with
    | nil =>
      rw [htokens] at hlen
      simp at hlen
      omega
    | cons name' args' =>
      rw [htokens] at hlen hget
      rw [List.length_cons, List.length_cons] at hlen
      obtain rfl : name' = name := by simpa using hget 0 (by omega)
      dsimp only
      cases hfind : CMDS.find? fun cmd => chars cmd.name == name' with
      | none => rfl
      | some cmd =>
        have hcmd := List.mem_of_find?_eq_some hfind
        have htwo := hmax cmd hcmd
        unfold monitor.console_cmd
        by_cases hmany : cmd.args.length < args.length
        · dsimp only
          rw [if_pos hmany, if_pos (by omega)]
          rfl
        · have hargs : args' = args := by
            apply List.ext_getElem?
            intro k
            by_cases hk : k + 2 < 16
            · simpa using hget (k + 1) hk
            · rw [List.getElem?_eq_none (by omega), List.getElem?_eq_none (by omega)]
          subst hargs
          dsimp only
          rw [if_neg hmany, if_neg (by omega), ← call_args_get hcmd (by omega)]
          simp only [List.foldl_cons, List.foldl_nil, perform, find_command T hcmd]
          rfl

end

end os_workshop.console
