-- The walk over a flattened device tree (fdt_walk of src/misc/devicetree.c):
-- what it prints for every tree, and which words it takes for tokens.
import OsWorkshop.Octets
import OsWorkshop.MemoryRanges

open os_workshop.memory (Byte Word Mem Holds word ld32 add_ofNat holds_write)
open os_workshop.octets

namespace os_workshop.devicetree

/-! ## Tokens (src/hw/inc/hw/devicetree.h) -/

def FDT_PADDING : Word := 0
def FDT_BEGIN_NODE : Word := 1
def FDT_END_NODE : Word := 2
def FDT_PROP : Word := 3
def FDT_NOP : Word := 4
def FDT_END : Word := 9

/-- The offsets of the fields `off_dt_struct` and `off_dt_strings` of the header. -/
def OFF_DT_STRUCT : Word := 8
def OFF_DT_STRINGS : Word := 12

def swap (n : Word) : Word :=
  (n >>> 24) ||| (n <<< 24) |||
    ((n >>> 8) &&& (0x0000FF00 : Word)) ||| ((n <<< 8) &&& (0x00FF0000 : Word))

/-! ## Strings -/

/-- The octets up to the first NUL, when it comes within `n` octets. -/
def until_nul (m : Mem) (a : Word) : Nat → Option (List Byte)
  | 0 => none
  | n + 1 => if m a = 0 then some [] else (until_nul m (a + 1) n).map (m a :: ·)

/-- The string at an address. Without a NUL in the whole memory there is no end to it. -/
def cstr (m : Mem) (s : Word) : Option (List Byte) := until_nul m s (2 ^ 32)

def bootargs : List Byte := [0x62, 0x6F, 0x6F, 0x74, 0x61, 0x72, 0x67, 0x73]

def compatible : List Byte := [0x63, 0x6F, 0x6D, 0x70, 0x61, 0x74, 0x69, 0x62, 0x6C, 0x65]

def device_type : List Byte :=
  [0x64, 0x65, 0x76, 0x69, 0x63, 0x65, 0x5F, 0x74, 0x79, 0x70, 0x65]

def model : List Byte := [0x6D, 0x6F, 0x64, 0x65, 0x6C]

def mmu_type : List Byte := [0x6D, 0x6D, 0x75, 0x2D, 0x74, 0x79, 0x70, 0x65]

def riscv_isa : List Byte := [0x72, 0x69, 0x73, 0x63, 0x76, 0x2E, 0x69, 0x73, 0x61]

/-- The case of `'b'` has no `break`. -/
def isstring (s : List Byte) : Bool :=
  match s with
  | 0x62 :: _ => s = bootargs ∨ s = compatible
  | 0x63 :: _ => s = compatible
  | 0x64 :: _ => s = device_type
  | 0x6D :: _ => s = model ∨ s = mmu_type
  | 0x72 :: _ => s = riscv_isa
  | _ => false

/-- The missing `break` does no harm. -/
theorem isstring_iff (s : List Byte) :
    isstring s ↔ s ∈ [bootargs, compatible, device_type, model, mmu_type, riscv_isa] := by
  constructor
  · intro h
    simp only [List.mem_cons, List.not_mem_nil, or_false]
    unfold isstring at h
    split at h <;> simp only [decide_eq_true_eq, Bool.false_eq_true] at h <;> tauto
  · intro h
    simp only [List.mem_cons, List.not_mem_nil, or_false] at h
    rcases h with rfl | rfl | rfl | rfl | rfl | rfl <;> decide

/-! ## The walk -/

/-- What is printed: the text of a call, with its arguments. -/
inductive Print
  /-- Two spaces. -/
  | indent
  /-- `NODE '%s'`. -/
  | node (name : List Byte)
  /-- `PROP '%s' %u:`. -/
  | prop (name : List Byte) (len : Nat)
  /-- ` '%s'` and the end of the line. -/
  | string (value : List Byte)
  /-- ` %02x`. -/
  | octet (v : Byte)
  | newline
  /-- `END`. -/
  | finish
  /-- `HUH %08x`. -/
  | huh (token : Word)
deriving DecidableEq

inductive Event
  /-- The word at an address is taken for a token. -/
  | token (data : Word)
  | print (p : Print)

def xindent (count : Word) : List Print := List.replicate count.toNat .indent

/-- `data += ((len + 3) >> 2)`. -/
def advance (data len : Word) : Word := data + (4 : Word) * ((len + 3) >>> 2)

/-- The value of a property. -/
def print_value (m : Mem) (data len : Word) (name : List Byte) : Option (List Print) :=
  if isstring name then (cstr m data).map fun value => [.string value]
  else some ((memory.read m data len.toNat).map .octet ++ [.newline])

/-- A turn of the loop at a token: what it prints, and where it goes on, with which indent. -/
def turn (m : Mem) (strtab data indent : Word) : Option (List Print × Option (Word × Word)) :=
  let token := swap (ld32 m data)
  let data := data + 4
  if token = FDT_PADDING ∨ token = FDT_NOP then some ([], some (data, indent))
  else if token = FDT_BEGIN_NODE then do
    let name ← cstr m data
    let len : Word := BitVec.ofNat 32 name.length + 1
    some (xindent indent ++ [Print.node name], some (advance data len, indent + 1))
  else if token = FDT_END_NODE then some ([], some (data, indent - 1))
  else if token = FDT_PROP then do
    let len := swap (ld32 m data)
    let name ← cstr m (strtab + swap (ld32 m (data + 4)))
    let data := data + 8
    let value ← print_value m data len name
    some (xindent indent ++ [Print.prop name len.toNat] ++ value, some (advance data len, indent))
  else if token = FDT_END then some ([.finish], none)
  else some ([.huh token], none)

/-- The loop, with the turns that are left. -/
def walk (m : Mem) (strtab : Word) : Nat → Word → Word → Option (List Event)
  | 0, _, _ => none
  | turns + 1, data, indent => do
    let (ps, next) ← turn m strtab data indent
    let events := Event.token data :: ps.map Event.print
    match next with
    | none => some events
    | some (data, indent) => (walk m strtab turns data indent).map (events ++ ·)

/-- Where the structure block begins. -/
def dt_struct (m : Mem) (fdt : Word) : Word := fdt + swap (ld32 m (fdt + OFF_DT_STRUCT))

/-- Where the strings block begins. -/
def dt_strings (m : Mem) (fdt : Word) : Word := fdt + swap (ld32 m (fdt + OFF_DT_STRINGS))

def fdt_walk (m : Mem) (fdt : Word) (turns : Nat) : Option (List Event) :=
  walk m (dt_strings m fdt) turns (dt_struct m fdt) 0

def prints (events : List Event) : List Print :=
  events.filterMap fun
    | .print p => some p
    | .token _ => none

def tokens (events : List Event) : List Word :=
  events.filterMap fun
    | .token data => some data
    | .print _ => none

/-! ## Trees -/

/-- What a node holds: its properties and nodes, in their order. -/
inductive Items
  | nil
  | prop (name value : List Byte) (rest : Items)
  | node (name : List Byte) (body rest : Items)

/-- Octets with zeros behind them up to a whole word. -/
def padded (l : List Byte) : List Byte := l ++ List.replicate ((4 - l.length % 4) % 4) 0

/-- The octets encode the items, with the names of the properties in `strings`. The numbers say
where the tokens begin. -/
inductive Encodes (strings : List Byte) : Items → List Byte → List Nat → Prop
  | nil : Encodes strings .nil [] []
  | nop {items : Items} {bs : List Byte} {ts : List Nat} {token : Word} :
      token = FDT_NOP ∨ token = FDT_PADDING → Encodes strings items bs ts →
      Encodes strings items (be32 token ++ bs) (0 :: ts.map (4 + ·))
  | prop {name value : List Byte} {rest : Items} {bs : List Byte} {ts : List Nat} {off : Word} :
      0 ∉ name → name ++ [0] <+: strings.drop off.toNat → (isstring name → 0 ∈ value) →
      Encodes strings rest bs ts →
      Encodes strings (.prop name value rest)
        (be32 FDT_PROP ++ be32 (BitVec.ofNat 32 value.length) ++ be32 off ++ padded value ++ bs)
        (0 :: ts.map (12 + (padded value).length + ·))
  | node {name : List Byte} {body rest : Items} {bs bs' : List Byte} {ts ts' : List Nat} :
      0 ∉ name → Encodes strings body bs ts → Encodes strings rest bs' ts' →
      Encodes strings (.node name body rest)
        (be32 FDT_BEGIN_NODE ++ padded (name ++ [0]) ++ bs ++ be32 FDT_END_NODE ++ bs')
        (0 :: ts.map (4 + (padded (name ++ [0])).length + ·) ++
          (4 + (padded (name ++ [0])).length + bs.length) ::
          ts'.map (8 + (padded (name ++ [0])).length + bs.length + ·))

/-- What is to be printed for the value of a property. -/
def shown (name value : List Byte) : List Print :=
  if isstring name then [.string (value.takeWhile (· != 0))]
  else value.map .octet ++ [.newline]

/-- What is to be printed for items at a depth. -/
def report (depth : Nat) : Items → List Print
  | .nil => []
  | .prop name value rest =>
    List.replicate depth .indent ++ [.prop name value.length] ++ shown name value ++
      report depth rest
  | .node name body rest =>
    List.replicate depth .indent ++ [.node name] ++ report (depth + 1) body ++ report depth rest

/-! ## Octets in memory -/

section

variable {m : Mem} {a : Word} {bs : List Byte}

theorem getLsbD_word (b0 b1 b2 b3 : Byte) (i : Nat) :
    (word b0 b1 b2 b3).getLsbD i =
      if i < 8 then b0.getLsbD i
      else if i < 16 then b1.getLsbD (i - 8)
      else if i < 24 then b2.getLsbD (i - 16)
      else b3.getLsbD (i - 24) := by
  unfold word
  simp only [BitVec.getLsbD_append]
  grind

theorem getLsbD_low_mask (i : Nat) :
    (0x0000FF00 : Word).getLsbD i = decide (8 ≤ i ∧ i < 16) := by
  have h : (0x0000FF00 : Word) = (0#16 ++ (BitVec.allOnes 8 ++ 0#8 : BitVec 16) : BitVec 32) := rfl
  rw [h]
  simp only [BitVec.getLsbD_append, BitVec.getLsbD_allOnes, BitVec.getLsbD_zero]
  grind

theorem getLsbD_high_mask (i : Nat) :
    (0x00FF0000 : Word).getLsbD i = decide (16 ≤ i ∧ i < 24) := by
  have h : (0x00FF0000 : Word) = (0#8 ++ (BitVec.allOnes 8 ++ 0#16 : BitVec 24) : BitVec 32) := rfl
  rw [h]
  simp only [BitVec.getLsbD_append, BitVec.getLsbD_allOnes, BitVec.getLsbD_zero]
  grind

/-- The octets of a word in the other order. -/
theorem swap_word (b0 b1 b2 b3 : Byte) : swap (word b0 b1 b2 b3) = word b3 b2 b1 b0 := by
  apply BitVec.eq_of_getLsbD_eq
  intro i hi
  have hout (b : Byte) (j : Nat) (h : 8 ≤ j) : b.getLsbD j = false := BitVec.getLsbD_of_ge b j h
  unfold swap
  simp only [BitVec.getLsbD_or, BitVec.getLsbD_and, BitVec.getLsbD_ushiftRight,
    BitVec.getLsbD_shiftLeft, getLsbD_word, getLsbD_low_mask, getLsbD_high_mask]
  grind

theorem swap_ld32 (v : Word) (h : Holds m a (be32 v)) : swap (ld32 m a) = v := by
  have h0 : m a = v.extractLsb' 24 8 := by simpa [be32] using h 0 (Nat.zero_lt_succ 3)
  have h1 : m (a + 1) = v.extractLsb' 16 8 := h 1 (show 1 < 4 by decide)
  have h2 : m (a + 2) = v.extractLsb' 8 8 := h 2 (show 2 < 4 by decide)
  have h3 : m (a + 3) = v.extractLsb' 0 8 := h 3 (show 3 < 4 by decide)
  unfold ld32
  rw [swap_word, h0, h1, h2, h3]
  exact memory.word_le32 v

theorem until_nul_eq (h : Holds m a (bs ++ [0])) (h0 : 0 ∉ bs) {n : Nat} (hn : bs.length < n) :
    until_nul m a n = some bs := by
  induction bs generalizing a n with
  | nil =>
    obtain ⟨n, rfl⟩ := Nat.exists_eq_succ_of_ne_zero (Nat.ne_zero_of_lt hn)
    have h : m a = 0 := by simpa using h 0 (by simp)
    rw [until_nul, if_pos h]
  | cons b bs ih =>
    obtain ⟨n, rfl⟩ := Nat.exists_eq_succ_of_ne_zero (Nat.ne_zero_of_lt hn)
    rw [List.length_cons] at hn
    have hb : m a = b := by simpa using h 0 (by simp)
    have hne : b ≠ 0 := fun he => h0 (he ▸ List.mem_cons_self)
    have hrest : Holds m (a + 1) (bs ++ [0]) := h.drop 1
    rw [until_nul, if_neg (hb ▸ hne),
      ih hrest (fun hm => h0 (List.mem_cons_of_mem _ hm)) (by omega), hb]
    rfl

theorem cstr_eq (h : Holds m a (bs ++ [0])) (h0 : 0 ∉ bs) (hlen : bs.length < 2 ^ 32) :
    cstr m a = some bs := until_nul_eq h h0 hlen

/-! ## Whole words -/

theorem padded_length (l : List Byte) : (padded l).length = (l.length + 3) / 4 * 4 := by
  simp only [padded, List.length_append, List.length_replicate]
  omega

/-- The walk skips an encoded value. -/
theorem advance_eq (a : Word) {n : Nat} (l : List Byte) (hl : l.length = n) (hn : n + 3 < 2 ^ 32) :
    advance a (BitVec.ofNat 32 n) = a + BitVec.ofNat 32 (padded l).length := by
  have h : (4 : Word) * ((BitVec.ofNat 32 n + 3) >>> 2) = BitVec.ofNat 32 (padded l).length := by
    have h4 : (4 : Word).toNat = 4 := rfl
    have h3 : (3 : Word).toNat = 3 := rfl
    apply BitVec.eq_of_toNat_eq
    rw [padded_length, hl, BitVec.toNat_mul, BitVec.toNat_ushiftRight, BitVec.toNat_add,
      BitVec.toNat_ofNat, BitVec.toNat_ofNat, Nat.shiftRight_eq_div_pow, h4, h3]
    omega
  rw [advance, h]

theorem xindent_eq {d : Nat} (h : d < 2 ^ 32) :
    xindent (BitVec.ofNat 32 d) = List.replicate d .indent := by
  rw [xindent, BitVec.toNat_ofNat, Nat.mod_eq_of_lt h]

end

/-! ## Turns of the loop -/

section

variable {m : Mem} {strtab a : Word} {name value : List Byte}

theorem turn_nop {token : Word} (h : token = FDT_NOP ∨ token = FDT_PADDING)
    (hbs : Holds m a (be32 token)) (indent : Word) :
    turn m strtab a indent = some ([], some (a + 4, indent)) := by
  unfold turn
  rw [swap_ld32 _ hbs, if_pos h.symm]

theorem turn_node (hname : 0 ∉ name) (hlen : name.length + 4 < 2 ^ 32)
    (hbs : Holds m a (be32 FDT_BEGIN_NODE ++ padded (name ++ [0]))) {d : Nat} (hd : d < 2 ^ 32) :
    turn m strtab a (BitVec.ofNat 32 d) =
      some (List.replicate d .indent ++ [.node name],
        some (a + 4 + BitVec.ofNat 32 (padded (name ++ [0])).length, BitVec.ofNat 32 (d + 1))) := by
  have hstring : cstr m (a + 4) = some name := by
    have h : Holds m (a + 4) (padded (name ++ [0])) := hbs.right
    exact cstr_eq h.left hname (by omega)
  have hskip : advance (a + 4) (BitVec.ofNat 32 name.length + 1) =
      a + 4 + BitVec.ofNat 32 (padded (name ++ [0])).length := by
    have hnul : BitVec.ofNat 32 name.length + 1 = BitVec.ofNat 32 (name.length + 1) := by bv_omega
    rw [hnul, advance_eq _ (name ++ [0]) (by simp) (by omega)]
  have hnext : BitVec.ofNat 32 d + 1 = BitVec.ofNat 32 (d + 1) := by bv_omega
  unfold turn
  rw [swap_ld32 _ hbs.left, if_neg (by decide), if_pos rfl, hstring]
  simp only [Option.bind_eq_bind, Option.bind_some, hskip, hnext, xindent_eq hd]

theorem turn_end_node (hbs : Holds m a (be32 FDT_END_NODE)) (d : Nat) :
    turn m strtab a (BitVec.ofNat 32 (d + 1)) = some ([], some (a + 4, BitVec.ofNat 32 d)) := by
  have hnext : BitVec.ofNat 32 (d + 1) - 1 = BitVec.ofNat 32 d := by bv_omega
  unfold turn
  rw [swap_ld32 _ hbs, if_neg (by decide), if_neg (by decide), if_pos rfl, hnext]

/-- The value of a property is printed, up to its first NUL if it is a string. -/
theorem print_value.spec (hbs : Holds m a value) (hlen : value.length < 2 ^ 32)
    (hstring : isstring name → 0 ∈ value) :
    print_value m a (BitVec.ofNat 32 value.length) name = some (shown name value) := by
  unfold print_value shown
  split_ifs with hs
  · have hsplit := List.takeWhile_append_dropWhile (p := (· != 0)) (l := value)
    obtain ⟨c, rest, hrest⟩ : ∃ c rest, value.dropWhile (· != 0) = c :: rest := by
      apply List.exists_cons_of_ne_nil
      intro hnil
      have hall := List.dropWhile_eq_nil_iff.mp hnil 0 (hstring hs)
      simp at hall
    have hc : c = 0 := by
      have h := List.head?_dropWhile_not (· != 0) value
      rw [hrest] at h
      simpa using h
    subst hc
    have hvalue : value.takeWhile (· != 0) ++ [0] <+: value :=
      ⟨rest, by rw [List.append_assoc, List.singleton_append, ← hrest, hsplit]⟩
    have hno : 0 ∉ value.takeWhile (· != 0) := fun h => by simpa using List.mem_takeWhile_imp h
    have hshort := (List.takeWhile_sublist (· != 0) (l := value)).length_le
    rw [cstr_eq (hbs.shorter hvalue) hno (by omega)]
    rfl
  · rw [BitVec.toNat_ofNat, Nat.mod_eq_of_lt hlen, hbs.read]

theorem turn_prop {off : Word} (hname : cstr m (strtab + off) = some name)
    (hstring : isstring name → 0 ∈ value) (hlen : value.length + 3 < 2 ^ 32)
    (hbs : Holds m a (be32 FDT_PROP ++ be32 (BitVec.ofNat 32 value.length) ++ be32 off ++
      padded value)) {d : Nat} (hd : d < 2 ^ 32) :
    turn m strtab a (BitVec.ofNat 32 d) =
      some (List.replicate d .indent ++ [.prop name value.length] ++ shown name value,
        some (a + BitVec.ofNat 32 (12 + (padded value).length), BitVec.ofNat 32 d)) := by
  have h1 : Holds m (a + 4) (be32 (BitVec.ofNat 32 value.length)) := hbs.left.left.right
  have h2 : Holds m (a + 4 + 4) (be32 off) := by
    rw [BitVec.add_assoc]
    exact hbs.left.right
  have h3 : Holds m (a + 4 + 8) (padded value) := by
    rw [BitVec.add_assoc]
    exact hbs.right
  have hskip : advance (a + 4 + 8) (BitVec.ofNat 32 value.length) =
      a + BitVec.ofNat 32 (12 + (padded value).length) := by
    rw [advance_eq _ value rfl hlen, add_ofNat, BitVec.add_assoc a]
    rfl
  unfold turn
  rw [swap_ld32 _ hbs.left.left.left, if_neg (by decide), if_neg (by decide), if_neg (by decide),
    if_pos rfl]
  simp only [swap_ld32 _ h1, swap_ld32 _ h2, hname, Option.bind_eq_bind, Option.bind_some,
    print_value.spec h3.left (by omega) hstring, hskip, xindent_eq hd, BitVec.toNat_ofNat,
    Nat.mod_eq_of_lt (show value.length < 2 ^ 32 by omega)]

theorem turn_end (hbs : Holds m a (be32 FDT_END)) (indent : Word) :
    turn m strtab a indent = some ([.finish], none) := by
  unfold turn
  rw [swap_ld32 _ hbs, if_neg (by decide), if_neg (by decide), if_neg (by decide),
    if_neg (by decide), if_pos rfl]

end

/-! ## Runs of the loop -/

section

variable {m : Mem} {strtab a indent : Word}

/-- So many turns go from one place and indent to another: what they print, and the words that
they take for tokens. -/
def Walks (m : Mem) (strtab : Word) (turns : Nat) (a indent a' indent' : Word) (ps : List Print)
    (ts : List Word) : Prop :=
  ∃ events, prints events = ps ∧ tokens events = ts ∧
    ∀ more, walk m strtab (turns + more) a indent =
      (walk m strtab more a' indent').map (events ++ ·)

variable {a' indent' a'' indent'' : Word} {n n' : Nat} {ps ps' : List Print} {ts ts' : List Word}

theorem prints_turn (a : Word) (ps : List Print) :
    prints (Event.token a :: ps.map Event.print) = ps := by
  simp [prints, List.filterMap_map]

theorem tokens_turn (a : Word) (ps : List Print) :
    tokens (Event.token a :: ps.map Event.print) = [a] := by
  simp [tokens, List.filterMap_map]

theorem Walks.nil : Walks m strtab 0 a indent a indent [] [] :=
  ⟨[], rfl, rfl, fun more => by simp⟩

theorem Walks.turn (h : turn m strtab a indent = some (ps, some (a', indent'))) :
    Walks m strtab 1 a indent a' indent' ps [a] := by
  refine ⟨Event.token a :: ps.map Event.print, prints_turn a ps, tokens_turn a ps, ?_⟩
  intro more
  rw [Nat.add_comm, walk, h]
  rfl

theorem Walks.trans (h : Walks m strtab n a indent a' indent' ps ts)
    (h' : Walks m strtab n' a' indent' a'' indent'' ps' ts') :
    Walks m strtab (n + n') a indent a'' indent'' (ps ++ ps') (ts ++ ts') := by
  obtain ⟨es, hps, hts, hwalk⟩ := h
  obtain ⟨es', hps', hts', hwalk'⟩ := h'
  refine ⟨es ++ es', ?_, ?_, ?_⟩
  · rw [← hps, ← hps']
    exact List.filterMap_append
  · rw [← hts, ← hts']
    exact List.filterMap_append
  · intro more
    rw [Nat.add_assoc, hwalk, hwalk', Option.map_map]
    congr 1
    funext es''
    exact (List.append_assoc es es' es'').symm

/-- The addresses of tokens that begin so far behind `a`. -/
def places (a : Word) (ts : List Nat) : List Word := ts.map fun t => a + BitVec.ofNat 32 t

theorem places_cons (a : Word) (t : Nat) (ts : List Nat) :
    places a (t :: ts) = (a + BitVec.ofNat 32 t) :: places a ts := rfl

theorem places_zero (a : Word) (ts : List Nat) : places a (0 :: ts) = a :: places a ts := by
  rw [places_cons]
  simp

theorem places_append (a : Word) (ts ts' : List Nat) :
    places a (ts ++ ts') = places a ts ++ places a ts' := List.map_append

theorem places_add (a : Word) (n : Nat) (ts : List Nat) :
    places a (ts.map (n + ·)) = places (a + BitVec.ofNat 32 n) ts := by
  unfold places
  rw [List.map_map]
  apply List.map_congr_left
  intro t _
  exact add_ofNat a n t

/-- The walk over encoded items prints them, reads their tokens, and goes on behind them at the
same depth. -/
theorem walk_encoded {strings : List Byte} {items : Items} {bs : List Byte} {ts : List Nat}
    (h : Encodes strings items bs ts) (hstrings : Holds m strtab strings)
    (hfits : strings.length ≤ 2 ^ 32) {a : Word} (hbs : Holds m a bs) {d : Nat}
    (hd : d + bs.length < 2 ^ 32) :
    Walks m strtab ts.length a (BitVec.ofNat 32 d) (a + BitVec.ofNat 32 bs.length)
      (BitVec.ofNat 32 d) (report d items) (places a ts) := by
  induction h generalizing a d with
  | nil =>
    have hend : a + BitVec.ofNat 32 ([] : List Byte).length = a := BitVec.add_zero a
    rw [hend]
    exact .nil
  | @nop items bs ts token htoken _ ih =>
    rw [List.length_append, be32_length] at hd
    have hrest := ih hbs.right (d := d) (by omega)
    have h := (Walks.turn (@turn_nop m strtab _ _ htoken hbs.left (BitVec.ofNat 32 d))).trans
      hrest
    rw [places_zero, places_add, List.length_cons, List.length_map, Nat.add_comm, List.length_append,
      add_ofNat]
    exact h
  | @prop name value rest bs ts off hname hoff hstring _ ih =>
    simp only [List.length_append, be32_length] at hd
    have hv := padded_length value
    have hstr : cstr m (strtab + off) = some name := by
      have h := (hstrings.drop off.toNat).shorter hoff
      have hshort := hoff.length_le
      rw [List.length_append, List.length_drop, List.length_singleton] at hshort
      rw [BitVec.ofNat_toNat, BitVec.setWidth_eq] at h
      exact cstr_eq h hname (by omega)
    have hlen : (be32 FDT_PROP ++ be32 (BitVec.ofNat 32 value.length) ++ be32 off ++
        padded value).length = 12 + (padded value).length := by
      simp only [List.length_append, be32_length]
    have hrest := ih (hlen ▸ hbs.right) (d := d) (by omega)
    have h := (Walks.turn (turn_prop hstr hstring (by omega) hbs.left (by omega : d < 2 ^ 32))).trans
      hrest
    rw [places_zero, places_add, List.length_cons, List.length_map, Nat.add_comm, List.length_append,
      hlen, add_ofNat]
    exact h
  | @node name body rest bs bs' ts ts' hname _ _ ih ih' =>
    simp only [List.length_append, be32_length] at hd
    have hlong := padded_length (name ++ [0])
    rw [List.length_append, List.length_singleton] at hlong
    -- the places behind the name, behind the body, and behind the end of the node
    have hhead : (be32 FDT_BEGIN_NODE ++ padded (name ++ [0])).length =
        4 + (padded (name ++ [0])).length := by rw [List.length_append, be32_length]
    have hbody : (be32 FDT_BEGIN_NODE ++ padded (name ++ [0]) ++ bs).length =
        4 + (padded (name ++ [0])).length + bs.length := by rw [List.length_append, hhead]
    have hend : (be32 FDT_BEGIN_NODE ++ padded (name ++ [0]) ++ bs ++ be32 FDT_END_NODE).length =
        8 + (padded (name ++ [0])).length + bs.length := by
      rw [List.length_append, hbody, be32_length]
      omega
    have hstart : a + 4 + BitVec.ofNat 32 (padded (name ++ [0])).length =
        a + BitVec.ofNat 32 (4 + (padded (name ++ [0])).length) := (add_ofNat a 4 _).symm
    have hclose : a + BitVec.ofNat 32 (4 + (padded (name ++ [0])).length + bs.length) + 4 =
        a + BitVec.ofNat 32 (8 + (padded (name ++ [0])).length + bs.length) := by
      rw [show 8 + (padded (name ++ [0])).length + bs.length =
        4 + (padded (name ++ [0])).length + bs.length + 4 by omega, add_ofNat a _ 4]
      rfl
    have h1 := Walks.turn (@turn_node m strtab _ _ hname (by omega) hbs.left.left.left d
      (by omega))
    have h2 := ih (hhead ▸ hbs.left.left.right) (d := d + 1) (by omega)
    have h3 := Walks.turn (@turn_end_node m strtab _ (hbody ▸ hbs.left.right) d)
    have h4 := ih' (hend ▸ hbs.right) (d := d) (by omega)
    rw [hstart] at h1
    rw [← add_ofNat] at h2
    rw [hclose] at h3
    have h := ((h1.trans h2).trans h3).trans h4
    have hcount : (0 :: ts.map (4 + (padded (name ++ [0])).length + ·) ++
        (4 + (padded (name ++ [0])).length + bs.length) ::
        ts'.map (8 + (padded (name ++ [0])).length + bs.length + ·)).length =
        1 + ts.length + 1 + ts'.length := by
      simp only [List.length_append, List.length_cons, List.length_map]
      omega
    rw [hcount, @List.length_append _ _ bs', hend, add_ofNat, places_append, places_zero, places_add,
      places_cons, places_add, report]
    simpa using h

end

/-! ## The whole tree -/

/-- Every token begins at a whole word. -/
theorem Encodes.aligned {strings : List Byte} {items : Items} {bs : List Byte} {ts : List Nat}
    (h : Encodes strings items bs ts) : bs.length % 4 = 0 ∧ ∀ t ∈ ts, t % 4 = 0 := by
  induction h with
  | nil => exact ⟨rfl, fun t ht => absurd ht List.not_mem_nil⟩
  | nop _ _ ih =>
    obtain ⟨hlen, hts⟩ := ih
    refine ⟨by rw [List.length_append, be32_length]; omega, ?_⟩
    simp only [List.forall_mem_cons, List.forall_mem_map]
    exact ⟨trivial, fun t ht => by have := hts t ht; omega⟩
  | @prop name value _ _ _ _ _ _ _ _ ih =>
    obtain ⟨hlen, hts⟩ := ih
    have hv := padded_length value
    refine ⟨by simp only [List.length_append, be32_length]; omega, ?_⟩
    simp only [List.forall_mem_cons, List.forall_mem_map]
    exact ⟨trivial, fun t ht => by have := hts t ht; omega⟩
  | @node name _ _ _ _ _ _ _ _ _ ih ih' =>
    obtain ⟨hlen, hts⟩ := ih
    obtain ⟨hlen', hts'⟩ := ih'
    have hv := padded_length (name ++ [0])
    refine ⟨by simp only [List.length_append, be32_length]; omega, ?_⟩
    simp only [List.forall_mem_append, List.forall_mem_cons, List.forall_mem_map]
    exact ⟨⟨trivial, fun t ht => by have := hts t ht; omega⟩, by omega,
      fun t ht => by have := hts' t ht; omega⟩

/-- For every tree that is encoded in memory the walk ends at its END token and prints the tree.
The words it takes for tokens are the tokens of the encoding, and are aligned. -/
theorem the_walk_undoes_the_encoding {m : Mem} {fdt : Word} {strings : List Byte} {items : Items}
    {bs : List Byte} {ts : List Nat} (h : Encodes strings items bs ts)
    (hstruct : Holds m (dt_struct m fdt) (bs ++ be32 FDT_END))
    (hstrings : Holds m (dt_strings m fdt) strings) (hfits : bs.length + 4 ≤ 2 ^ 32)
    (hfits' : strings.length ≤ 2 ^ 32) (haligned : (dt_struct m fdt).toNat % 4 = 0) :
    ∃ events, (∀ turns, ts.length < turns → fdt_walk m fdt turns = some events) ∧
      prints events = report 0 items ++ [.finish] ∧
      tokens events = places (dt_struct m fdt) (ts ++ [bs.length]) ∧
      ∀ a ∈ tokens events, a.toNat % 4 = 0 := by
  obtain ⟨events, hprints, htokens, hwalk⟩ :=
    walk_encoded h hstrings hfits' hstruct.left (by omega : 0 + bs.length < 2 ^ 32)
  have htokens' : tokens (events ++ [.token (dt_struct m fdt + BitVec.ofNat 32 bs.length),
      .print .finish]) = places (dt_struct m fdt) (ts ++ [bs.length]) := by
    rw [places_append, ← htokens]
    exact List.filterMap_append
  refine ⟨_, ?_, ?_, htokens', ?_⟩
  · intro turns hturns
    obtain ⟨more, rfl⟩ := Nat.exists_eq_add_of_lt hturns
    have hlast : walk m (dt_strings m fdt) (more + 1)
        (dt_struct m fdt + BitVec.ofNat 32 bs.length) (BitVec.ofNat 32 0) =
        some [.token (dt_struct m fdt + BitVec.ofNat 32 bs.length), .print .finish] := by
      rw [walk, turn_end hstruct.right]
      rfl
    have hrun := hwalk (more + 1)
    unfold fdt_walk
    rw [Nat.add_assoc]
    exact hrun.trans (by rw [hlast]; rfl)
  · rw [← hprints]
    exact List.filterMap_append
  · intro a ha
    obtain ⟨hlen, hts⟩ := h.aligned
    rw [htokens'] at ha
    obtain ⟨t, ht, rfl⟩ := List.mem_map.mp ha
    have ht4 : t % 4 = 0 := by
      rcases List.mem_append.mp ht with ht | ht
      · exact hts t ht
      · rw [List.mem_singleton.mp ht]
        exact hlen
    rw [BitVec.toNat_add, BitVec.toNat_ofNat]
    omega

/-! ## A small tree -/

/-- A root with a model, a register of three octets and one node in it. -/
def small_tree : Items :=
  .node [] (.prop model [0x78, 0] (.prop [0x72] [1, 2, 3] (.node [0x61] .nil .nil))) .nil

def small_strings : List Byte := model ++ [0, 0x72, 0]

def small_struct : List Byte :=
  be32 FDT_BEGIN_NODE ++ [0, 0, 0, 0] ++
    (be32 FDT_PROP ++ be32 2 ++ be32 0 ++ [0x78, 0, 0, 0] ++
      (be32 FDT_NOP ++
        (be32 FDT_PROP ++ be32 3 ++ be32 6 ++ [1, 2, 3, 0] ++
          (be32 FDT_BEGIN_NODE ++ [0x61, 0, 0, 0] ++ [] ++ be32 FDT_END_NODE ++ [])))) ++
    be32 FDT_END_NODE ++ []

theorem small_encoded :
    Encodes small_strings small_tree small_struct [0, 8, 24, 28, 44, 52, 56] :=
  .node (by decide) (.prop (by decide) (by decide) (by decide) (.nop (.inl rfl)
    (.prop (by decide) (by decide) (by decide) (.node (by decide) .nil .nil)))) .nil

/-- The tree behind the first four words of a header. -/
def small_blob : List Byte :=
  List.replicate 8 0 ++ be32 16 ++ be32 80 ++ (small_struct ++ be32 FDT_END) ++ small_strings

def small_memory : Mem := memory.write (fun _ => 0) 0x41000000 small_blob

theorem the_small_tree_is_printed :
    ∃ events, (∀ turns, 7 < turns → fdt_walk small_memory 0x41000000 turns = some events) ∧
      prints events = report 0 small_tree ++ [.finish] ∧
      tokens events = places 0x41000010 [0, 8, 24, 28, 44, 52, 56, 60] ∧
      ∀ a ∈ tokens events, a.toNat % 4 = 0 := by
  have hblob : Holds small_memory 0x41000000 small_blob := holds_write _ _ (by decide)
  have hoff : swap (ld32 small_memory (0x41000000 + OFF_DT_STRUCT)) = 16 :=
    swap_ld32 _ hblob.left.left.left.right
  have hoff' : swap (ld32 small_memory (0x41000000 + OFF_DT_STRINGS)) = 80 :=
    swap_ld32 _ hblob.left.left.right
  have hs : dt_struct small_memory 0x41000000 = 0x41000010 := by
    rw [dt_struct, hoff]
    rfl
  have hn : dt_strings small_memory 0x41000000 = 0x41000050 := by
    rw [dt_strings, hoff']
    rfl
  have h := @the_walk_undoes_the_encoding small_memory 0x41000000 _ _ _ _ small_encoded
    (by rw [hs]; exact hblob.left.right) (by rw [hn]; exact hblob.right) (by decide) (by decide)
    (by rw [hs]; decide)
  rw [hs] at h
  exact h

end os_workshop.devicetree
