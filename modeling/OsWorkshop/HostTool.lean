-- The host side of the network boot (src/tools/netboot.c): its command line,
-- its messages, and what it makes of a reply.
import OsWorkshop.NetbootSafety

open os_workshop.memory (Byte Word le32 word)
open os_workshop.octets
open os_workshop.net

namespace os_workshop.netboot

/-! ## The command line -/

structure Image where
  name : List Byte
  addr : Word

structure Args where
  ifname : List Byte
  nodename : List Byte
  imagelist : List Image
  do_exit : Bool

def IMGMAX : Nat := 8

/-- `device`, the name of a node unless another is given. -/
def device_name : List Byte := [0x64, 0x65, 0x76, 0x69, 0x63, 0x65]

/-- The values before the command line is read. The interface is `qemu0`. -/
def Args.defaults : Args where
  ifname := [0x71, 0x65, 0x6D, 0x75, 0x30]
  nodename := device_name
  imagelist := []
  do_exit := false

def hex_digit (c : Byte) : Option Nat :=
  if 0x30 ≤ c ∧ c ≤ 0x39 then some (c.toNat - 0x30)
  else if 0x41 ≤ c ∧ c ≤ 0x46 then some (c.toNat - 0x41 + 10)
  else if 0x61 ≤ c ∧ c ≤ 0x66 then some (c.toNat - 0x61 + 10)
  else none

/-- The number that the leading hexadecimal digits give. -/
def hex_digits (acc : Nat) : List Byte → Nat
  | [] => acc
  | c :: rest =>
    match hex_digit c with
    | some d => hex_digits (acc * 16 + d) rest
    | none => acc

/-- The digits after an optional `0x`. -/
def hex_prefixed : List Byte → Nat
  | 0x30 :: x :: d :: rest =>
    if (x = 0x78 ∨ x = 0x58) ∧ (hex_digit d).isSome then hex_digits 0 (d :: rest)
    else hex_digits 0 (0x30 :: x :: d :: rest)
  | s => hex_digits 0 s

def isspace (c : Byte) : Bool := c = 0x20 ∨ (9 ≤ c ∧ c ≤ 13)

/-- A number too large for 64 bits is the largest one. -/
def clamp64 (negative : Bool) (n : Nat) : Word :=
  if 2 ^ 64 ≤ n then 0xFFFFFFFF
  else if negative then -BitVec.ofNat 32 n else BitVec.ofNat 32 n

/-- `strtoul` with the base 16 on a host with 64 bits, kept in 32. -/
def strtoul (s : List Byte) : Word :=
  match s.dropWhile isspace with
  | 0x2D :: rest => clamp64 true (hex_prefixed rest)
  | 0x2B :: rest => clamp64 false (hex_prefixed rest)
  | rest => clamp64 false (hex_prefixed rest)

/-- An argument with an `@` in it. -/
def image (arg : List Byte) : Image where
  name := arg.takeWhile (· ≠ 0x40)
  addr := strtoul ((arg.dropWhile (· ≠ 0x40)).drop 1)

inductive Parsed
  | exits (status : Int)
  | runs (args : Args)

/-- The loop of `main` over the arguments. -/
def parse (args : Args) : List (List Byte) → Parsed
  | [] => if args.imagelist = [] then .exits (-1) else .runs args
  | arg :: argv =>
    if 0x40 ∈ arg then
      if args.imagelist.length = IMGMAX then .exits (-1)
      else parse { args with imagelist := args.imagelist ++ [image arg] } argv
    else if arg = [0x2D, 0x69] then
      match argv with
      | [] => .exits (-1)
      | ifname :: argv => parse { args with ifname := ifname } argv
    else if arg = [0x2D, 0x6E] then
      match argv with
      | [] => .exits (-1)
      | nodename :: argv => parse { args with nodename := nodename } argv
    else if arg = [0x2D, 0x68] then .exits 0
    else if arg = [0x2D, 0x78] then parse { args with do_exit := true } argv
    else .exits (-1)

/-- The name that `main` calls `open_node` with: a literal, whatever `-n` gave. -/
def Args.located (_ : Args) : List Byte := device_name

/-! ## Messages -/

/-- A message before it gets its sequence number. -/
structure Msg where
  cmd : Word
  arg : Word
  db : List Byte

def Msg.octets (m : Msg) (seq : Word) : List Byte :=
  le32 NB_MAGIC ++ le32 m.cmd ++ le32 seq ++ le32 m.arg ++ m.db

/-- What `open_node` asks for. -/
def query (nodename : List Byte) : Msg where
  cmd := NB_CMD_QUERY
  arg := 0
  db := nodename

/-- What `send_msg` makes of what it read. -/
inductive Verdict
  /-- `X`: no status. -/
  | garbled
  /-- `S`: the status of another message. -/
  | stale
  /-- `E`: an error. -/
  | refused
  | acknowledged
deriving DecidableEq

def read_reply (seq : Word) (rsp : List Byte) : Verdict :=
  if rsp.length < 16 ∨ field32 rsp 0 ≠ NB_MAGIC ∨ field32 rsp 4 ≠ NB_CMD_STATUS then .garbled
  else if field32 rsp 8 ≠ seq then .stale
  else if field32 rsp 12 ≠ NB_OK then .refused
  else .acknowledged

/-- What `open_node` takes for the answer to its last query. -/
def Locates (seq : Word) (rxb : List Byte) : Prop :=
  16 ≤ rxb.length ∧ field32 rxb 0 = NB_MAGIC ∧ field32 rxb 4 = NB_CMD_STATUS ∧
    field32 rxb 8 = seq

instance (seq : Word) (rxb : List Byte) : Decidable (Locates seq rxb) :=
  inferInstanceAs (Decidable (_ ∧ _))

/-! ## The fields of a message -/

section

variable (m : Msg) (seq : Word)

theorem field32_le32 (l r : List Byte) (v : Word) : field32 (l ++ le32 v ++ r) l.length = v := by
  have h (i : Nat) (hi : i < 4) :
      octet (l ++ le32 v ++ r) (l.length + i) = octet (le32 v) i := by
    rw [octet_append_left _ _ _ (by simp; omega), octet_append_right _ _ _ (by omega)]
    simp
  unfold field32
  have h0 := h 0 (by omega)
  rw [Nat.add_zero] at h0
  rw [h0, h 1 (by omega), h 2 (by omega), h 3 (by omega)]
  exact memory.word_le32 v

theorem octets_magic : field32 (m.octets seq) 0 = NB_MAGIC := by
  have h := field32_le32 [] (le32 m.cmd ++ le32 seq ++ le32 m.arg ++ m.db) NB_MAGIC
  simpa [Msg.octets] using h

theorem octets_cmd : field32 (m.octets seq) 4 = m.cmd := by
  have h := field32_le32 (le32 NB_MAGIC) (le32 seq ++ le32 m.arg ++ m.db) m.cmd
  simpa [Msg.octets] using h

theorem octets_seq : field32 (m.octets seq) 8 = seq := by
  have h := field32_le32 (le32 NB_MAGIC ++ le32 m.cmd) (le32 m.arg ++ m.db) seq
  simpa [Msg.octets] using h

theorem octets_arg : field32 (m.octets seq) 12 = m.arg := by
  have h := field32_le32 (le32 NB_MAGIC ++ le32 m.cmd ++ le32 seq) m.db m.arg
  simpa [Msg.octets] using h

theorem octets_db : (m.octets seq).drop 16 = m.db := by
  have h : (le32 NB_MAGIC ++ le32 m.cmd ++ le32 seq ++ le32 m.arg).length = 16 := by simp
  unfold Msg.octets
  rw [← h, List.drop_left]

theorem msg_length : (m.octets seq).length = 16 + m.db.length := by
  simp [Msg.octets]
  omega

end

end os_workshop.netboot
