-- The monitor of the bootloader, which runs in machine mode: the console
-- (src/boot/console.c), what feeds it (src/boot/boot.c), and the loads that
-- survive a fault (src/boot/helpers.S).
import OsWorkshop.DebugPrintf
import OsWorkshop.Rv32

open os_workshop.memory os_workshop.rv32

namespace os_workshop.monitor

/-- The symbols of entry.S, helpers.S and the C code that entry.S calls. -/
inductive Symbol
  | mach_exception_entry | exit_mode_m | rd32safe | rd32fail | rd8safe | rd8fail
  | mach_exception_handler
  deriving DecidableEq

abbrev Block := List (Instr Symbol)

open Reg Csr Instr

/-! ## Machine mode -/

def MSTATUS_MPP : Word := 0x00001800
def MSTATUS_MPIE : Word := 0x00000080
def MSTATUS_MIE : Word := 0x00000008

def PRIV_M : Word := 3

/-- `mstatus` after a trap to machine mode out of `priv`. -/
def trap_status (status priv : Word) : Word :=
  (status &&& ~~~(MSTATUS_MPP ||| MSTATUS_MPIE ||| MSTATUS_MIE)) ||| (priv <<< 11) |||
    ((status &&& MSTATUS_MIE) <<< 4)

/-- A trap to machine mode at `pc`. The low bits of `mtvec` are the mode of the vector. -/
def trap (d : Data) (pc priv cause tval : Word) : State :=
  ⟨d.csr mtvec &&& (0xFFFFFFFC : Word),
    (((d.setCsr mepc pc).setCsr mcause cause).setCsr mtval tval).setCsr mstatus
      (trap_status (d.csr mstatus) priv)⟩

/-! ## The state of the console -/

/-- The variables of boot.c. `cmdbuf` holds the `cmdlen` characters of the line so far, and
has room for the NUL after them. -/
structure Globals where
  cmdbuf : List Byte
  cmdbuf_fits : cmdbuf.length < 128
  STOP : Bool
  EF : Word

/-- What the C code works on. Its registers are those of a compiled function: they carry the
argument and the result of a safe load, and nothing else is read from them. -/
structure Console where
  d : Data
  g : Globals
  /-- How many safe loads there were. -/
  loads : Nat
  /-- What `xputc` and `xputs` were given, while the formatter is defined on all of it. -/
  out : Option (List Byte)

/-- What each safe load gets from its address: a word, or the cause of a fault. A device may
answer every load of an address with something else. -/
abbrev Bus := Nat → Word → Except Word Word

def chars (s : String) : List Byte := s.toList.map printf.chr

def put (text : Option (List Byte)) (m : Console) : Console :=
  { m with out := m.out.bind fun out => text.map (out ++ ·) }

def xputs (s : List Byte) : Console → Console := put (some (printf.c_str s))

def xputc (ch : Word) : Console → Console := put (some [ch.setWidth 8])

def xprintf (fmt : String) (ap : List printf.Arg) : Console → Console := put (printf.xprintf fmt ap)

/-! ## helpers.S -/

/-- `rd32safe` and `rd8safe` up to their load. -/
def safe_head (fail : Symbol) : Block := [
  la t0 fail,
  mv t1 a0,
  li a0 0,
  csrw mtvec t0]

section

variable (addr : Symbol → Word) (bus : Bus)

/-- The load of `a0` from `t1` right before the label `fail`. It goes on there, or traps. -/
def safe_load (fail : Symbol) (width : Word → Word) (n : Nat) (d : Data) : State :=
  match bus n (d.get t1) with
  | .ok v => ⟨addr fail, d.set a0 (width v)⟩
  | .error cause => trap d (addr fail - 4) PRIV_M cause (d.get t1)

/-- A call of one of the two. At `fail` there is a `ret`. -/
def safe_read (fail : Symbol) (width : Word → Word) (a : Word) (m : Console) : Console × Word :=
  let s := safe_load addr bus fail width m.loads (line addr (safe_head fail) (m.d.set a0 a))
  ({ m with d := s.d, loads := m.loads + 1 }, s.d.get a0)

def rd32safe : Word → Console → Console × Word := safe_read addr bus .rd32fail id

def rd8safe : Word → Console → Console × Word := safe_read addr bus .rd8fail (· &&& 0xFF)

/-! ## The commands -/

/-- A field of the frame that `EF` points at. -/
def ef (m : Console) (off : Word) : printf.Arg := .word (ld32 m.d.mem (m.g.EF + off))

def csr_read (m : Console) (c : Csr) : printf.Arg := .word (m.d.csr c)

/-- A line of `do_regs`: fields of the frame, and a CSR. -/
def regs_line (fmt : String) (fields : List Word) (c : Csr) (m : Console) : Console :=
  xprintf fmt (fields.map (ef m) ++ [csr_read m c]) m

def do_regs (m : Console) : Console :=
  m |> regs_line "pc %08x ra %08x sp %08x gp %08x  sstatus  %08x\n" [0x40, 0x00, 0x44, 0x48] sstatus
    |> regs_line "tp %08x t0 %08x t1 %08x t2 %08x  scause   %08x\n" [0x4C, 0x04, 0x08, 0x0C] scause
    |> regs_line "fp %08x s1 %08x a0 %08x a1 %08x  stval    %08x\n" [0x50, 0x54, 0x20, 0x24] stval
    |> regs_line "a2 %08x a3 %08x a4 %08x a5 %08x  stvec    %08x\n" [0x28, 0x2C, 0x30, 0x34] stvec
    |> regs_line "a6 %08x a7 %08x s2 %08x s3 %08x  sepc     %08x\n" [0x38, 0x3C, 0x58, 0x5C] sepc
    |> regs_line "s4 %08x s5 %08x s6 %08x s7 %08x  sscratch %08x\n" [0x60, 0x64, 0x68, 0x6C]
      sscratch
    |> regs_line "s8 %08x s9 %08x 10 %08x 11 %08x  satp     %08x\n" [0x70, 0x74, 0x78, 0x7C] satp
    |> regs_line "t3 %08x t4 %08x t5 %08x t6 %08x  sip      %08x\n" [0x10, 0x14, 0x18, 0x1C] sip

/-- The loop of `do_dw`, with the words that are left and those done. -/
def dw_words : Nat → Nat → Word → Console → Console
  | 0, _, _, m => m
  | left + 1, n, a, m =>
    let m := if n % 4 = 0 then xprintf "\n%08x:" [.word a] m else m
    let r := rd32safe addr bus a m
    dw_words left (n + 1) (a + 4) (xprintf " %08x" [.word r.2] r.1)

def do_dw (n a count : Word) (m : Console) : Console :=
  let count := if n < 2 then 1 else count
  let count := if 1024 < count then 1024 else count
  let m := dw_words addr bus count.toNat 0 a m
  if count.toNat % 4 = 0 then xprintf "\n" [] m else m

/-- The bytes of a row of `do_db`, with those that are left and `txt` so far. -/
def db_bytes (a : Word) (count : Nat) : Nat → List Byte → Console → Console × List Byte
  | 0, txt, m => (m, txt)
  | left + 1, txt, m =>
    let i := 15 - left
    if i < count then
      let r := rd8safe addr bus (a + BitVec.ofNat 32 i) m
      let c := r.2 &&& 0xFF
      let m := xprintf " %02x" [.word c] r.1
      let c := if c < 0x20 ∨ 126 < c then 0x2E else c
      db_bytes a count left (txt ++ [c.setWidth 8]) m
    else db_bytes a count left (txt ++ [0x20]) (xprintf "   " [] m)

/-- The rows of `do_db`, with the bytes that are left. -/
def db_rows (count : Nat) (a : Word) (m : Console) : Console :=
  if count = 0 then m
  else
    let m := xprintf "%08x:" [.word a] m
    let r := db_bytes addr bus a count 16 [] m
    db_rows (count - 16) (a + 16) (xprintf "  %s\n" [.str (some r.2)] r.1)
termination_by count

def do_db (_n a count : Word) (m : Console) : Console :=
  if count.toInt < 0 then m else db_rows addr bus count.toNat a m

def do_stop (m : Console) : Console := { m with g := { m.g with STOP := true } }

def do_cont (m : Console) : Console := { m with g := { m.g with STOP := false } }

end

/-! ## The command line -/

inductive Fn
  | do_help | do_regs | do_dw | do_db | do_stop | do_cont

/-- How an argument is read: a hex number, or an integer. No command takes a string. -/
inductive Arg
  | x | i

structure console_cmd_t where
  name : String
  args : List Arg
  help : String
  fn : Fn

def CMDS : List console_cmd_t := [
  ⟨"help", [], "help", .do_help⟩,
  ⟨"regs", [], "dump registers", .do_regs⟩,
  ⟨"dw", [.x, .x], "dump words <addr> <count>", .do_dw⟩,
  ⟨"db", [.x, .x], "dump bytes <addr> <count>", .do_db⟩,
  ⟨"stop", [], "stop execution", .do_stop⟩,
  ⟨"cont", [], "continue execution", .do_cont⟩]

def do_help (m : Console) : Console :=
  CMDS.foldl (fun m cmd =>
    xprintf "%-16s %s\n" [.str (some (chars cmd.name)), .str (some (chars cmd.help))] m) m

/-- The value of a hex digit. -/
def digit (c : Byte) : Option Word :=
  if 0x61 ≤ c ∧ c ≤ 0x66 then some (c.setWidth 32 - 0x61 + 10)
  else if 0x41 ≤ c ∧ c ≤ 0x46 then some (c.setWidth 32 - 0x41 + 10)
  else if 0x30 ≤ c ∧ c ≤ 0x39 then some (c.setWidth 32 - 0x30)
  else none

def atox_from (n : Word) : List Byte → Word
  | [] => n
  | c :: s =>
    match digit c with
    | some v => atox_from ((n <<< 4) ||| v) s
    | none => n

def atox : List Byte → Word := atox_from 0

def atoi_from (n : Word) : List Byte → Word
  | [] => n
  | c :: s => if 0x30 ≤ c ∧ c ≤ 0x39 then atoi_from (n * 10 + (c.setWidth 32 - 0x30)) s else n

def atoi : List Byte → Word := atoi_from 0

def Arg.read : Arg → List Byte → Word
  | .x => atox
  | .i => atoi

section

variable (addr : Symbol → Word) (bus : Bus)

/-- `console_call_cmd` puts the number of arguments in front of them. -/
def console_call_cmd (fn : Fn) (argx : Nat → Word) (argc : Word) : Console → Console :=
  match fn with
  | .do_help => do_help
  | .do_regs => do_regs
  | .do_dw => do_dw addr bus argc (argx 0) (argx 1)
  | .do_db => do_db addr bus argc (argx 0) (argx 1)
  | .do_stop => do_stop
  | .do_cont => do_cont

/-- An argument that is not given is zero. -/
def arg_of (cmd : console_cmd_t) (args : List (List Byte)) (n : Nat) : Word :=
  match cmd.args[n]?, args[n]? with
  | some kind, some s => kind.read s
  | _, _ => 0

def console_cmd (cmd : console_cmd_t) (args : List (List Byte)) (m : Console) : Console :=
  if args.length > cmd.args.length ∨ args.length > 4 then
    xprintf "error: too many arguments\n" [] m
  else
    console_call_cmd addr bus cmd.fn (arg_of cmd args) (BitVec.ofNat 32 args.length) m

/-- The tokens of a line, at most this many. The last of them is not cut off at a space. -/
def tokens : Nat → List Byte → List (List Byte)
  | 0, _ => []
  | n + 1, line =>
    match n, line.dropWhile (· == 0x20) with
    | _, [] => []
    | 0, start => [start]
    | n + 1, start =>
      start.takeWhile (· != 0x20) :: tokens (n + 1) (start.dropWhile (· != 0x20))

def MAXTOK : Nat := 16

def console_line (line : List Byte) (m : Console) : Console :=
  xputs (chars "monitor> ") <|
    match tokens MAXTOK line with
    | [] => m
    | name :: args =>
      match CMDS.find? fun cmd => chars cmd.name == name with
      | some cmd => console_cmd addr bus cmd args m
      | none => xprintf "unknown command '%s'\n" [.str (some name)] m

/-! ## boot.c -/

def Globals.clear (g : Globals) : Globals :=
  { g with cmdbuf := [], cmdbuf_fits := by decide }

/-- `cmdlen--`. -/
def Globals.erase (g : Globals) : Globals :=
  { g with
    cmdbuf := g.cmdbuf.dropLast
    cmdbuf_fits := by
      have := g.cmdbuf_fits
      rw [List.length_dropLast]
      omega }

/-- `cmdbuf[cmdlen++] = ch`. -/
def Globals.push (g : Globals) (ch : Byte) (h : g.cmdbuf.length ≠ 127) : Globals :=
  { g with
    cmdbuf := g.cmdbuf ++ [ch]
    cmdbuf_fits := by
      have := g.cmdbuf_fits
      rw [List.length_append, List.length_singleton]
      omega }

def console_char (ch : Word) (m : Console) : Console :=
  if ch = 0x0D ∨ ch = 0x0A then
    let m := xputs (chars "\r\n") m
    let status := m.d.csr mstatus
    let m := console_line addr bus m.g.cmdbuf m
    { m with
      d := (m.d.setCsr mstatus status).setCsr mtvec (addr .mach_exception_entry)
      g := m.g.clear }
  else if ch = 8 ∨ ch = 127 then
    if 0 < m.g.cmdbuf.length then { xputs (chars "\x08 \x08") m with g := m.g.erase } else xputc 7 m
  else if ch < 0x20 ∨ 127 < ch then m
  else if h : m.g.cmdbuf.length = 127 then xputc 7 m
  else xputc ch { m with g := m.g.push (ch.setWidth 8) h }

/-- The two loops of `mach_exception_handler`. Each poll of the uart finds a character, or
finds that there is none. While `STOP` is set the handler goes on polling. -/
def serve : List (Option Word) → Console → Option Console
  | [], _ => none
  | some ch :: polls, m => serve polls (console_char addr bus ch m)
  | none :: polls, m => if m.g.STOP then serve polls m else some m

/-- The handler, when it returns within these polls. An exception is printed and halts. -/
def mach_exception_handler (ef : Word) (polls : List (Option Word)) (m : Console) :
    Option Console :=
  if m.d.csr mcause = 0x8000000b then serve addr bus polls { m with g := { m.g with EF := ef } }
  else none

end

/-! ## What the console leaves alone -/

section

variable {addr : Symbol → Word} {bus : Bus} {m m' m'' : Console}

/-- The CSRs that a fault of a safe load writes, and `mtvec`. -/
def borrowed : List Csr := [mtvec, mstatus, mepc, mcause, mtval]

/-- Nothing but those CSRs, the registers and the variables of the console changes. -/
structure Kept (m m' : Console) : Prop where
  csr : ∀ c ∉ borrowed, m'.d.csr c = m.d.csr c
  mem : m'.d.mem = m.d.mem

theorem Kept.refl (m : Console) : Kept m m := ⟨fun _ _ => rfl, rfl⟩

theorem Kept.trans (h : Kept m m') (h' : Kept m' m'') : Kept m m'' :=
  ⟨fun c hc => (h'.csr c hc).trans (h.csr c hc), h'.mem.trans h.mem⟩

theorem Kept.put (h : Kept m m') (text : Option (List Byte)) : Kept m (monitor.put text m') :=
  ⟨h.csr, h.mem⟩

theorem Kept.print (h : Kept m m') (fmt : String) (ap : List printf.Arg) :
    Kept m (xprintf fmt ap m') := h.put _

theorem Kept.print_if (h : Kept m m') (p : Prop) [Decidable p] (fmt : String)
    (ap : List printf.Arg) : Kept m (if p then xprintf fmt ap m' else m') := by
  split
  · exact h.print fmt ap
  · exact h

theorem safe_head.spec (addr : Symbol → Word) (fail : Symbol) (d : Data) :
    line addr (safe_head fail) d =
      ((((d.set t0 (addr fail)).set t1 (d.get a0)).set a0 0).setCsr mtvec (addr fail)) := by
  unfold safe_head
  simp only [line_cons, line_nil, act, mv, li, get_zero]
  rw [get_set_ne _ _ (by decide), get_set_ne _ _ (by decide), get_set_ne _ _ (by decide),
    get_set_same _ _ (by decide), add_zero, add_zero]
  rfl

/-- The load goes to the argument. -/
theorem safe_head.address (fail : Symbol) (d : Data) (a : Word) :
    (((((d.set a0 a).set t0 (addr fail)).set t1 ((d.set a0 a).get a0)).set a0 0).setCsr mtvec
      (addr fail)).get t1 = a := by
  rw [get_setCsr, get_set_ne _ _ (by decide), get_set_same _ _ (by decide),
    get_set_same _ _ (by decide)]

/-- However the load ends, it ends at the `ret`: a fault finds its vector there. -/
theorem safe_load.lands {fail : Symbol} (hfail : addr fail &&& (0xFFFFFFFC : Word) = addr fail)
    (width : Word → Word) (n : Nat) (d : Data) :
    (safe_load addr bus fail width n (line addr (safe_head fail) d)).pc = addr fail := by
  unfold safe_load
  split
  · rfl
  · rw [safe_head.spec]
    exact hfail

/-- A load that faults reads as zero. -/
theorem safe_read.value (fail : Symbol) (width : Word → Word) (a : Word) (m : Console) :
    (safe_read addr bus fail width a m).2 =
      match bus m.loads a with
      | .ok v => width v
      | .error _ => 0 := by
  unfold safe_read safe_load
  rw [safe_head.spec, safe_head.address]
  cases bus m.loads a with
  | ok v =>
    dsimp only
    rw [get_set_same _ _ (by decide)]
  | error cause =>
    dsimp only [trap]
    rw [get_setCsr, get_setCsr, get_setCsr, get_setCsr, get_setCsr, get_set_same _ _ (by decide)]

theorem safe_read.kept (fail : Symbol) (width : Word → Word) (a : Word) (m : Console) :
    Kept m (safe_read addr bus fail width a m).1 := by
  unfold safe_read safe_load
  rw [safe_head.spec, safe_head.address]
  constructor
  · intro c hc
    simp only [borrowed, List.mem_cons, List.not_mem_nil, or_false, not_or] at hc
    obtain ⟨h1, h2, h3, h4, h5⟩ := hc
    cases bus m.loads a with
    | ok v => exact if_neg h1
    | error cause =>
      dsimp only [trap]
      simp only [csr_setCsr, csr_set, if_neg h1, if_neg h2, if_neg h3, if_neg h4, if_neg h5]
  · cases bus m.loads a <;> rfl

theorem do_regs.kept (m : Console) : Kept m (do_regs m) := by
  have line : ∀ fields name c, ∀ m', Kept m m' → Kept m (regs_line fields name c m') :=
    fun _ _ _ _ h => h.print _ _
  unfold do_regs
  iterate 8 apply line
  exact .refl m

theorem dw_words.kept (left n : Nat) (a : Word) (m : Console) :
    Kept m (dw_words addr bus left n a m) := by
  induction left generalizing n a m with
  | zero => exact .refl m
  | succ left ih =>
    unfold dw_words
    exact (((Kept.refl m).print_if _ _ _).trans ((safe_read.kept ..).print _ _)).trans (ih _ _ _)

theorem do_dw.kept (n a count : Word) (m : Console) : Kept m (do_dw addr bus n a count m) := by
  unfold do_dw
  exact (dw_words.kept ..).print_if _ _ _

theorem db_bytes.kept (a : Word) (count left : Nat) (txt : List Byte) (m : Console) :
    Kept m (db_bytes addr bus a count left txt m).1 := by
  induction left generalizing txt m with
  | zero => exact .refl m
  | succ left ih =>
    unfold db_bytes
    dsimp only
    split
    · exact ((safe_read.kept ..).print _ _).trans (ih _ _)
    · exact ((Kept.refl m).print _ _).trans (ih _ _)

theorem db_rows.kept (count : Nat) (a : Word) (m : Console) :
    Kept m (db_rows addr bus count a m) := by
  induction count using Nat.strong_induction_on generalizing a m with
  | _ count ih =>
    unfold db_rows
    split
    · exact .refl m
    · exact (((Kept.refl m).print _ _).trans ((db_bytes.kept ..).print _ _)).trans
        (ih _ (by omega) _ _)

theorem do_db.kept (n a count : Word) (m : Console) : Kept m (do_db addr bus n a count m) := by
  unfold do_db
  split
  · exact .refl m
  · exact db_rows.kept ..

theorem do_help.kept (m : Console) : Kept m (do_help m) := by
  unfold do_help
  generalize CMDS = cmds
  induction cmds generalizing m with
  | nil => exact .refl m
  | cons cmd cmds ih => exact ((Kept.refl m).print _ _).trans (ih _)

theorem console_call_cmd.kept (fn : Fn) (argx : Nat → Word) (argc : Word) (m : Console) :
    Kept m (console_call_cmd addr bus fn argx argc m) := by
  cases fn with
  | do_help => exact do_help.kept m
  | do_regs => exact do_regs.kept m
  | do_dw => exact do_dw.kept ..
  | do_db => exact do_db.kept argc _ _ m
  | do_stop => exact ⟨fun _ _ => rfl, rfl⟩
  | do_cont => exact ⟨fun _ _ => rfl, rfl⟩

theorem console_cmd.kept (cmd : console_cmd_t) (args : List (List Byte)) (m : Console) :
    Kept m (console_cmd addr bus cmd args m) := by
  unfold console_cmd
  split
  · exact (Kept.refl m).print _ _
  · exact console_call_cmd.kept ..

theorem console_line.kept (line : List Byte) (m : Console) :
    Kept m (console_line addr bus line m) := by
  unfold console_line
  apply Kept.put
  split
  · exact .refl m
  · split
    · exact console_cmd.kept ..
    · exact (Kept.refl m).print _ _

/-! ## What a character leaves alone -/

/-- A character disturbs less than a line does: `console_char` puts `mstatus` back and the
vector to where it was. The other CSRs of a fault stay lost. -/
structure Quiet (addr : Symbol → Word) (m m' : Console) : Prop extends Kept m m' where
  mstatus : m'.d.csr mstatus = m.d.csr mstatus
  mtvec : m.d.csr mtvec = addr .mach_exception_entry →
    m'.d.csr mtvec = addr .mach_exception_entry

theorem Quiet.trans (h : Quiet addr m m') (h' : Quiet addr m' m'') : Quiet addr m m'' :=
  ⟨h.toKept.trans h'.toKept, h'.mstatus.trans h.mstatus, fun hv => h'.mtvec (h.mtvec hv)⟩

theorem Quiet.same (h : m'.d = m.d) : Quiet addr m m' :=
  ⟨⟨fun _ _ => by rw [h], by rw [h]⟩, by rw [h], fun hv => by rw [h, hv]⟩

/-- The two writes of `console_char` after a line. -/
theorem Kept.restored (h : Kept m m') (g : Globals) :
    Quiet addr m { m' with
      d := (m'.d.setCsr mstatus (m.d.csr mstatus)).setCsr mtvec (addr .mach_exception_entry)
      g := g } := by
  refine ⟨⟨?_, h.mem⟩, ?_, ?_⟩
  · intro c hc
    have hv : c ≠ mtvec := by
      rintro rfl
      exact hc (by decide)
    have hs : c ≠ mstatus := by
      rintro rfl
      exact hc (by decide)
    exact (if_neg hv).trans ((if_neg hs).trans (h.csr c hc))
  · dsimp only
    rw [csr_setCsr, if_neg (by decide), csr_setCsr, if_pos rfl]
  · intro _
    dsimp only
    rw [csr_setCsr, if_pos rfl]

theorem console_char.quiet (ch : Word) (m : Console) :
    Quiet addr m (console_char addr bus ch m) := by
  unfold console_char
  split_ifs
  · -- the end of the line
    have hk : Kept m (console_line addr bus m.g.cmdbuf (xputs (chars "\r\n") m)) :=
      ((Kept.refl m).put _).trans (console_line.kept ..)
    exact hk.restored _
  · exact .same rfl
  · exact .same rfl
  · exact .same rfl
  · exact .same rfl
  · exact .same rfl

theorem serve.quiet (polls : List (Option Word)) (h : serve addr bus polls m = some m') :
    Quiet addr m m' ∧ m'.g.STOP = false := by
  induction polls generalizing m with
  | nil => cases h
  | cons poll polls ih =>
    cases poll with
    | none =>
      simp only [serve] at h
      split at h
      · exact ih h
      · next hstop =>
        cases h
        exact ⟨.same rfl, by simpa using hstop⟩
    | some ch =>
      obtain ⟨hq, hstop⟩ := ih h
      exact ⟨(console_char.quiet ch m).trans hq, hstop⟩

/-- The handler gives back the status and the vector, whatever was typed and whatever faulted. -/
theorem mach_exception_handler.quiet {ef : Word} {polls : List (Option Word)}
    (h : mach_exception_handler addr bus ef polls m = some m') :
    Quiet addr m m' ∧ m'.g.STOP = false := by
  unfold mach_exception_handler at h
  split at h
  · obtain ⟨hq, hstop⟩ := serve.quiet polls h
    have hef : Quiet addr m { m with g := { m.g with EF := ef } } := .same rfl
    exact ⟨hef.trans hq, hstop⟩
  · cases h

end

end os_workshop.monitor
