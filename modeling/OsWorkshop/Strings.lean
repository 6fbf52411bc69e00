-- The strings of libc (src/libc/src/string): the searches and the comparisons, over the memory.
-- Comparisons go through a signed char, which tells equal strings from others for all strings,
-- and the order of two strings only when they differ by less than half the range of a char.
import OsWorkshop.Blocks

open os_workshop.memory

namespace os_workshop.string

/-! ## The code

A loop over a string could go on for ever. A turn for each address is enough, or it does. -/

def TURNS : Nat := 2 ^ 32

def strlen_loop (m : Mem) (s : Word) : Nat → Word → Option Word
  | 0, _ => none
  | turns + 1, i => if m (s + i) ≠ 0 then strlen_loop m s turns (i + 1) else some i

def strlen (m : Mem) (s : Word) : Option Word := strlen_loop m s TURNS 0

/-- The inner loop of `strspn` and `strpbrk`: where it leaves the string at `a`. -/
def find_char (m : Mem) (c : Byte) : Nat → Word → Option Word
  | 0, _ => none
  | turns + 1, a =>
    if m a = 0 then some a
    else if c = m a then some a
    else find_char m c turns (a + 1)

def strspn_loop (m : Mem) (accept : Word) : Nat → Word → Word → Option Word
  | 0, _, _ => none
  | turns + 1, p, count =>
    if m p = 0 then some count
    else do
      let a ← find_char m (m p) TURNS accept
      if m a = 0 then some count else strspn_loop m accept turns (p + 1) (count + 1)

def strspn (m : Mem) (s accept : Word) : Option Word := strspn_loop m accept TURNS s 0

/-- The value is a pointer, which may be null. -/
def strpbrk_loop (m : Mem) (ct : Word) : Nat → Word → Option (Option Word)
  | 0, _ => none
  | turns + 1, sc1 =>
    if m sc1 = 0 then some none
    else do
      let sc2 ← find_char m (m sc1) TURNS ct
      if m sc2 = 0 then strpbrk_loop m ct turns (sc1 + 1) else some (some sc1)

def strpbrk (m : Mem) (cs ct : Word) : Option (Option Word) := strpbrk_loop m ct TURNS cs

/-- The variable `__res` is a `signed char`. -/
def strcmp_loop (m : Mem) : Nat → Word → Word → Option Int
  | 0, _, _ => none
  | turns + 1, cs, ct =>
    let res := m cs - m ct
    if res ≠ 0 ∨ m cs = 0 then some res.toInt else strcmp_loop m turns (cs + 1) (ct + 1)

def strcmp (m : Mem) (cs ct : Word) : Option Int := strcmp_loop m TURNS cs ct

def memcmp (m : Mem) : Word → Word → Nat → Int
  | _, _, 0 => 0
  | su1, su2, count + 1 =>
    let res := m su1 - m su2
    if res ≠ 0 then res.toInt else memcmp m (su1 + 1) (su2 + 1) count

def strncmp (m : Mem) : Word → Word → Nat → Int
  | _, _, 0 => 0
  | cs, ct, count + 1 =>
    let res := m cs - m ct
    if res ≠ 0 ∨ m cs = 0 then res.toInt else strncmp m (cs + 1) (ct + 1) count

/-- The lengths are `int`. -/
def strstr_loop (m : Mem) (s2 : Word) (l2 : Int) : Nat → Word → Int → Option (Option Word)
  | 0, _, _ => none
  | turns + 1, s1, l1 =>
    if l2 ≤ l1 then
      if memcmp m s1 s2 (BitVec.ofInt 32 l2).toNat = 0 then some (some s1)
      else strstr_loop m s2 l2 turns (s1 + 1) (l1 - 1)
    else some none

def strstr (m : Mem) (s1 s2 : Word) : Option (Option Word) := do
  let l2 := (← strlen m s2).toInt
  if l2 = 0 then some (some s1)
  else
    let l1 := (← strlen m s1).toInt
    strstr_loop m s2 l2 TURNS s1 l1

/-! ## Strings in the memory -/

/-- The string `s` stands at an address, and a NUL behind it. -/
def Str (m : Mem) : Word → List Byte → Prop
  | a, [] => m a = 0
  | a, c :: s => m a = c ∧ c ≠ 0 ∧ Str m (a + 1) s

variable {m : Mem} {a : Word} {s t : List Byte}

theorem add_one_add (a : Word) (n : Nat) :
    a + 1 + BitVec.ofNat 32 n = a + BitVec.ofNat 32 (n + 1) := by
  rw [BitVec.ofNat_add, BitVec.add_assoc, BitVec.add_comm 1]
  rfl

theorem Str.get (h : Str m a s) {i : Nat} (hi : i < s.length) :
    m (a + BitVec.ofNat 32 i) = s[i] ∧ s[i] ≠ 0 := by
  induction s generalizing a i with
  | nil => simp at hi
  | cons c s ih =>
    obtain ⟨h1, h2, h3⟩ := h
    cases i with
    | zero => simpa using ⟨h1, h2⟩
    | succ i =>
      have hnext := ih h3 (i := i) (by simpa using hi)
      rw [add_one_add] at hnext
      simpa using hnext

theorem Str.end_nul (h : Str m a s) : m (a + BitVec.ofNat 32 s.length) = 0 := by
  induction s generalizing a with
  | nil => simpa [Str] using h
  | cons c s ih =>
    have hend := ih h.2.2
    rwa [add_one_add] at hend

/-- A string and its NUL are in the memory. -/
theorem Str.length_lt (h : Str m a s) : s.length < 2 ^ 32 := by
  by_contra hge
  obtain ⟨hget, hne⟩ := h.get (i := s.length - 2 ^ 32) (by omega)
  have hwrap : BitVec.ofNat 32 (s.length - 2 ^ 32) = BitVec.ofNat 32 s.length := by
    apply BitVec.eq_of_toNat_eq
    rw [BitVec.toNat_ofNat, BitVec.toNat_ofNat]
    omega
  rw [hwrap, h.end_nul] at hget
  exact hne hget.symm

theorem str_of_get (h : ∀ i (hi : i < s.length), m (a + BitVec.ofNat 32 i) = s[i] ∧ s[i] ≠ 0)
    (hend : m (a + BitVec.ofNat 32 s.length) = 0) : Str m a s := by
  induction s generalizing a with
  | nil => simpa [Str] using hend
  | cons c s ih =>
    have h0 := h 0 (by simp)
    refine ⟨by simpa using h0.1, by simpa using h0.2, ih ?_ ?_⟩
    · intro i hi
      have hi' := h (i + 1) (by simpa using hi)
      rw [add_one_add]
      simpa using hi'
    · rw [add_one_add]
      simpa using hend

theorem Str.drop (h : Str m a (s ++ t)) : Str m (a + BitVec.ofNat 32 s.length) t := by
  induction s generalizing a with
  | nil => simpa using h
  | cons c s ih =>
    have hrest := ih h.2.2
    rwa [add_one_add] at hrest

/-! ## The loops -/

theorem strlen_loop.spec {turns n : Nat} (h : Str m (a + BitVec.ofNat 32 n) s)
    (hturns : s.length < turns) :
    strlen_loop m a turns (BitVec.ofNat 32 n) = some (BitVec.ofNat 32 (n + s.length)) := by
  induction turns generalizing n s with
  | zero => omega
  | succ turns ih =>
    unfold strlen_loop
    cases s with
    | nil =>
      have hend : m (a + BitVec.ofNat 32 n) = 0 := h
      rw [if_neg (by simp [hend])]
      rfl
    | cons c s =>
      obtain ⟨h1, h2, h3⟩ := h
      have hnext : BitVec.ofNat 32 n + 1 = BitVec.ofNat 32 (n + 1) := by
        rw [BitVec.ofNat_add]
        rfl
      rw [BitVec.add_assoc, hnext] at h3
      rw [if_pos (by rw [h1]; exact h2), hnext, ih h3 (by simpa using hturns)]
      congr 2
      simp
      omega

theorem strlen.spec (h : Str m a s) : strlen m a = some (BitVec.ofNat 32 s.length) := by
  have hlen := h.length_lt
  have hloop := @strlen_loop.spec m a s TURNS 0 (by simpa using h) hlen
  rw [Nat.zero_add] at hloop
  exact hloop

/-- The loop stops at the NUL when the character is not in the string. -/
theorem find_char.spec (c : Byte) {turns : Nat} (h : Str m a s)
    (hturns : s.length < turns) : ∃ p, find_char m c turns a = some p ∧ (m p = 0 ↔ c ∉ s) := by
  induction turns generalizing a s with
  | zero => omega
  | succ turns ih =>
    unfold find_char
    cases s with
    | nil =>
      have hend : m a = 0 := h
      exact ⟨a, if_pos hend, by simp [hend]⟩
    | cons d s =>
      obtain ⟨h1, h2, h3⟩ := h
      rw [if_neg (by rw [h1]; exact h2), h1]
      by_cases hcd : c = d
      · exact ⟨a, if_pos hcd, iff_of_false (by rwa [h1]) (by simp [hcd])⟩
      · obtain ⟨p, hp, hiff⟩ := ih h3 (by simpa using hturns)
        refine ⟨p, by rw [if_neg hcd, hp], ?_⟩
        rw [hiff, List.mem_cons, not_or]
        exact ⟨fun h => ⟨hcd, h⟩, And.right⟩

section

variable {set : Word} {d : List Byte}

theorem strspn_loop.spec (hd : Str m set d) {turns n : Nat} (h : Str m a s)
    (hturns : s.length < turns) : strspn_loop m set turns a (BitVec.ofNat 32 n) =
      some (BitVec.ofNat 32 (n + (s.takeWhile (· ∈ d)).length)) := by
  induction turns generalizing a s n with
  | zero => omega
  | succ turns ih =>
    unfold strspn_loop
    cases s with
    | nil =>
      have hend : m a = 0 := h
      rw [if_pos hend]
      rfl
    | cons c s =>
      obtain ⟨h1, h2, h3⟩ := h
      obtain ⟨p, hp, hiff⟩ := find_char.spec c hd hd.length_lt
      rw [if_neg (by rw [h1]; exact h2), h1]
      change ((find_char m c (2 ^ 32) set).bind fun a_1 => _) = _
      rw [hp, Option.bind_some]
      by_cases hc : c ∈ d
      · have hnext : BitVec.ofNat 32 n + 1 = BitVec.ofNat 32 (n + 1) := by
          rw [BitVec.ofNat_add]
          rfl
        rw [if_neg (by rw [hiff]; exact not_not_intro hc), hnext, ih h3 (by simpa using hturns),
          List.takeWhile_cons_of_pos (by simpa using hc), List.length_cons]
        congr 2
        omega
      · rw [if_pos (hiff.mpr hc), List.takeWhile_cons_of_neg (by simpa using hc)]
        rfl

theorem strspn.spec (hd : Str m set d) (h : Str m a s) :
    strspn m a set = some (BitVec.ofNat 32 (s.takeWhile (· ∈ d)).length) := by
  have hloop := @strspn_loop.spec m a s set d hd TURNS 0 h h.length_lt
  rw [Nat.zero_add] at hloop
  exact hloop

/-- The address of the first character of the set. -/
def first_of (a : Word) (s d : List Byte) : Option Word :=
  if (s.dropWhile (!d.contains ·)) = [] then none
  else some (a + BitVec.ofNat 32 (s.takeWhile (!d.contains ·)).length)

theorem first_of_eq (a : Word) (s d : List Byte) : first_of a s d =
    if (s.dropWhile (· ∉ d)) = [] then none
    else some (a + BitVec.ofNat 32 (s.takeWhile (· ∉ d)).length) := by
  simp [first_of]

theorem strpbrk_loop.spec (hd : Str m set d) {turns : Nat} (h : Str m a s)
    (hturns : s.length < turns) : strpbrk_loop m set turns a = some (first_of a s d) := by
  induction turns generalizing a s with
  | zero => omega
  | succ turns ih =>
    unfold strpbrk_loop
    cases s with
    | nil =>
      have hend : m a = 0 := h
      rw [if_pos hend]
      rfl
    | cons c s =>
      obtain ⟨h1, h2, h3⟩ := h
      obtain ⟨p, hp, hiff⟩ := find_char.spec c hd hd.length_lt
      rw [if_neg (by rw [h1]; exact h2), h1]
      change ((find_char m c (2 ^ 32) set).bind fun a_1 => _) = _
      rw [hp, Option.bind_some]
      rw [first_of_eq]
      by_cases hc : c ∈ d
      · rw [if_neg (by rw [hiff]; exact not_not_intro hc),
          List.dropWhile_cons_of_neg (by simpa using hc),
          List.takeWhile_cons_of_neg (by simpa using hc), if_neg (by simp)]
        simp
      · rw [if_pos (hiff.mpr hc), ih h3 (by simpa using hturns),
          List.dropWhile_cons_of_pos (by simpa using hc),
          List.takeWhile_cons_of_pos (by simpa using hc), List.length_cons]
        rw [first_of_eq]
        rw [add_one_add]

theorem strpbrk.spec (hd : Str m set d) (h : Str m a s) :
    strpbrk m a set = some (first_of a s d) := strpbrk_loop.spec hd h h.length_lt

end

/-! ## Comparisons -/

/-- The first difference of two strings, with the NUL behind the shorter one. -/
def gap : List Byte → List Byte → Int
  | [], [] => 0
  | [], d :: _ => -d.toNat
  | c :: _, [] => c.toNat
  | c :: s, d :: t => if c = d then gap s t else c.toNat - d.toNat

/-- What is left of a number in a `signed char`. -/
def signed_char (n : Int) : Int := n.bmod 256

theorem sub_toInt (c d : Byte) : (c - d).toInt = signed_char (c.toNat - d.toNat) := by
  unfold signed_char
  rw [BitVec.toInt_sub, BitVec.toInt_eq_toNat_bmod, BitVec.toInt_eq_toNat_bmod]
  exact Int.sub_bmod_bmod.trans Int.bmod_sub_bmod

theorem strcmp_loop.spec {b : Word} {turns : Nat} (h : Str m a s) (h' : Str m b t)
    (hturns : s.length < turns) : strcmp_loop m turns a b = some (signed_char (gap s t)) := by
  induction turns generalizing a b s t with
  | zero => omega
  | succ turns ih =>
    unfold strcmp_loop
    dsimp only
    cases s with
    | nil =>
      have hend : m a = 0 := h
      rw [if_pos (.inr hend), sub_toInt, hend]
      cases t with
      | nil =>
        have hend' : m b = 0 := h'
        rw [hend']
        rfl
      | cons d t =>
        rw [h'.1]
        simp [gap]
    | cons c s =>
      obtain ⟨h1, h2, h3⟩ := h
      rw [h1]
      cases t with
      | nil =>
        have hend' : m b = 0 := h'
        rw [hend', if_pos (.inl (by simpa using h2)), sub_toInt]
        simp [gap]
      | cons d t =>
        obtain ⟨h1', h2', h3'⟩ := h'
        rw [h1']
        by_cases hcd : c = d
        · rw [if_neg (not_or.mpr ⟨not_not_intro (sub_eq_zero.mpr hcd), h2⟩), ih h3 h3' (by simpa using hturns)]
          simp [gap, hcd]
        · rw [if_pos (.inl (by rwa [ne_eq, sub_eq_zero])), sub_toInt]
          simp [gap, hcd]

theorem strncmp.spec {b : Word} (n : Nat) (h : Str m a s) (h' : Str m b t) :
    strncmp m a b n = signed_char (gap (s.take n) (t.take n)) := by
  induction n generalizing a b s t with
  | zero => simp [strncmp, gap, signed_char]
  | succ n ih =>
    unfold strncmp
    dsimp only
    cases s with
    | nil =>
      have hend : m a = 0 := h
      rw [if_pos (.inr hend), sub_toInt, hend]
      cases t with
      | nil =>
        have hend' : m b = 0 := h'
        rw [hend']
        rfl
      | cons d t =>
        rw [h'.1]
        simp [gap]
    | cons c s =>
      obtain ⟨h1, h2, h3⟩ := h
      rw [h1]
      cases t with
      | nil =>
        have hend' : m b = 0 := h'
        rw [hend', if_pos (.inl (by simpa using h2)), sub_toInt]
        simp [gap]
      | cons d t =>
        obtain ⟨h1', h2', h3'⟩ := h'
        rw [h1']
        by_cases hcd : c = d
        · rw [if_neg (not_or.mpr ⟨not_not_intro (sub_eq_zero.mpr hcd), h2⟩), ih h3 h3']
          simp [gap, hcd]
        · rw [if_pos (.inl (by rwa [ne_eq, sub_eq_zero])), sub_toInt]
          simp [gap, hcd]

theorem read_succ (m : Mem) (a : Word) (n : Nat) : read m a (n + 1) = m a :: read m (a + 1) n := by
  have hone : read m a 1 = [m a] := by simp [memory.read]
  rw [Nat.add_comm, read_append, hone]
  rfl

theorem memcmp.spec (m : Mem) (a b : Word) (n : Nat) :
    memcmp m a b n = 0 ↔ read m a n = read m b n := by
  induction n generalizing a b with
  | zero => simp [memcmp, memory.read]
  | succ n ih =>
    unfold memcmp
    dsimp only
    rw [read_succ, read_succ, List.cons.injEq]
    by_cases hab : m a = m b
    · rw [if_neg (by simp [hab]), ih]
      exact ⟨fun h => ⟨hab, h⟩, And.right⟩
    · have hne : m a - m b ≠ 0 := by rwa [ne_eq, sub_eq_zero]
      rw [if_pos hne]
      constructor
      · intro h
        exact absurd (BitVec.toInt_inj.mp (h.trans BitVec.toInt_zero.symm)) hne
      · exact fun h => absurd h.1 hab

theorem not_mem_of_cons {c : Byte} {s : List Byte} (h : 0 ∉ c :: s) : c.toNat ≠ 0 ∧ 0 ∉ s :=
  ⟨fun hc => h (List.mem_cons.mpr (.inl (BitVec.eq_of_toNat_eq (by simpa using hc.symm)))),
    fun hs => h (List.mem_cons_of_mem _ hs)⟩

/-- The sign of the first difference is the order of the strings. -/
theorem gap_spec (s t : List Byte) (hs : 0 ∉ s) (ht : 0 ∉ t) :
    (gap s t = 0 ↔ s = t) ∧ (gap s t < 0 ↔ s < t) ∧ -255 ≤ gap s t ∧ gap s t ≤ 255 := by
  fun_induction gap s t with
  | case1 => simp
  | case2 d t =>
    have hd := (not_mem_of_cons ht).1
    have hlt := d.isLt
    refine ⟨by simp; omega, by simp; omega, by omega, by omega⟩
  | case3 c s =>
    have hc := (not_mem_of_cons hs).1
    have hlt := c.isLt
    refine ⟨by simp; omega, by simp, by omega, by omega⟩
  | case4 c s t ih =>
    obtain ⟨h1, h2, h3⟩ := ih (not_mem_of_cons hs).2 (not_mem_of_cons ht).2
    refine ⟨by simpa using h1, ?_, h3⟩
    rw [h2, List.cons_lt_cons_iff]
    simp
  | case5 c s d t hne =>
    have hc := c.isLt
    have hd := d.isLt
    have hval : c.toNat ≠ d.toNat := fun h => hne (BitVec.eq_of_toNat_eq h)
    refine ⟨?_, ?_, by omega, by omega⟩
    · rw [List.cons.injEq]
      exact iff_of_false (by omega) fun h => hne h.1
    · rw [List.cons_lt_cons_iff, BitVec.lt_def]
      simp [hne]

theorem signed_char_spec {n : Int} (h : -255 ≤ n) (h' : n ≤ 255) :
    (signed_char n = 0 ↔ n = 0) ∧ ((signed_char n < 0 ↔ n < 0) ↔ -128 ≤ n ∧ n < 128) := by
  unfold signed_char
  rw [Int.bmod_eq_emod]
  split <;> constructor <;> omega

theorem Str.no_nul (h : Str m a s) : 0 ∉ s := by
  intro hmem
  obtain ⟨i, hi, he⟩ := List.getElem_of_mem hmem
  exact (h.get hi).2 he

/-- A memory with `aab` at 0x100 and `ab` at 0x200. -/
def two_strings : Mem := write (write (fun _ => 0) 0x100 [0x61, 0x61, 0x62]) 0x200 [0x61, 0x62]

theorem aab_stands : Str two_strings 0x100 [0x61, 0x61, 0x62] :=
  ⟨rfl, by decide, rfl, by decide, rfl, by decide, rfl⟩

theorem ab_stands : Str two_strings 0x200 [0x61, 0x62] := ⟨rfl, by decide, rfl, by decide, rfl⟩

/-- The comparisons of strings and of blocks tell what is equal. The first difference goes through
a `signed char`, so `strcmp` and `strncmp` have the order of the strings just where it is less than
half of the range of a `char`. -/
theorem comparisons_of_strings (m : Mem) (a b : Word) (s t : List Byte) (n : Nat) (hs : Str m a s)
    (ht : Str m b t) : ∃ r, strcmp m a b = some r ∧
      (r = 0 ↔ s = t) ∧ ((r < 0 ↔ s < t) ↔ -128 ≤ gap s t ∧ gap s t < 128) ∧
      (strncmp m a b n = 0 ↔ s.take n = t.take n) ∧
      ((strncmp m a b n < 0 ↔ s.take n < t.take n) ↔
        -128 ≤ gap (s.take n) (t.take n) ∧ gap (s.take n) (t.take n) < 128) ∧
      (memcmp m a b n = 0 ↔ memory.read m a n = memory.read m b n) := by
  obtain ⟨hzero, hneg, hlow, hhigh⟩ := gap_spec s t hs.no_nul ht.no_nul
  obtain ⟨hzero', hneg', hlow', hhigh'⟩ := gap_spec (s.take n) (t.take n)
    (fun h => hs.no_nul (List.mem_of_mem_take h)) (fun h => ht.no_nul (List.mem_of_mem_take h))
  obtain ⟨hequal, hsign⟩ := signed_char_spec hlow hhigh
  obtain ⟨hequal', hsign'⟩ := signed_char_spec hlow' hhigh'
  refine ⟨_, strcmp_loop.spec hs ht hs.length_lt, by rw [hequal, hzero], by rw [← hneg, hsign], ?_,
    ?_, memcmp.spec m a b n⟩
  · rw [strncmp.spec n hs ht, hequal', hzero']
  · rw [strncmp.spec n hs ht, ← hneg', hsign']

theorem aab_and_ab_differ : ∃ r, strcmp two_strings 0x100 0x200 = some r ∧ r < 0 := by
  obtain ⟨r, hr, _, hsign, _⟩ :=
    comparisons_of_strings two_strings 0x100 0x200 _ _ 2 aab_stands ab_stands
  exact ⟨r, hr, (hsign.mpr (by decide)).mpr (by decide)⟩

/-- A character of 7 bits is not put before one with the high bit. -/
example : signed_char (gap [0x61] [0xE2]) = 127 := by decide

/-! ## The search for a string -/

theorem Str.read_take (h : Str m a s) {n : Nat} (hn : n ≤ s.length) :
    memory.read m a n = s.take n := by
  apply List.ext_getElem (by simp [hn])
  intro i h1 h2
  rw [read_get, List.getElem_take]
  exact (h.get (by simp at h1; omega)).1

/-- What `strstr` gives for the string `s` at `a`: the first place of `t` in it. -/
def FirstPlace (s t : List Byte) (a : Word) : Option Word → Prop
  | none => ¬ t <:+: s
  | some p => ∃ i, p = a + BitVec.ofNat 32 i ∧ t <+: s.drop i ∧ ∀ j < i, ¬ t <+: s.drop j

theorem FirstPlace.cons {c : Byte} {r : Option Word} (h : FirstPlace s t (a + 1) r)
    (hnot : ¬ t <+: c :: s) : FirstPlace (c :: s) t a r := by
  cases r with
  | none =>
    intro hin
    rcases List.infix_cons_iff.mp hin with hp | hi
    · exact hnot hp
    · exact h hi
  | some p =>
    obtain ⟨i, hp, hpre, hfirst⟩ := h
    refine ⟨i + 1, by rw [hp, add_one_add], hpre, ?_⟩
    intro j hj
    cases j with
    | zero => exact hnot
    | succ j => exact hfirst j (by omega)

theorem strstr_loop.spec {b : Word} (hb : Str m b t) (ht : t.length < 2 ^ 31) (hne : t ≠ [])
    {turns : Nat} (h : Str m a s) (hturns : s.length < turns) :
    ∃ r, strstr_loop m b t.length turns a s.length = some r ∧ FirstPlace s t a r := by
  have hcount : (BitVec.ofInt 32 (t.length : Int)).toNat = t.length := by
    rw [BitVec.ofInt_natCast, BitVec.toNat_ofNat, Nat.mod_eq_of_lt (by omega)]
  induction turns generalizing a s with
  | zero => omega
  | succ turns ih =>
    unfold strstr_loop
    rw [hcount]
    by_cases hle : t.length ≤ s.length
    · have hmatch : memcmp m a b t.length = 0 ↔ t <+: s := by
        rw [memcmp.spec, h.read_take hle, hb.read_take le_rfl, List.take_length,
          List.prefix_iff_eq_take]
        exact eq_comm
      rw [if_pos (by exact_mod_cast hle), ite_cond_congr (propext hmatch)]
      by_cases hpre : t <+: s
      · rw [if_pos hpre]
        exact ⟨_, rfl, 0, by simp, hpre, by simp⟩
      · rw [if_neg hpre]
        cases s with
        | nil => exact absurd (List.length_eq_zero_iff.mp (Nat.le_zero.mp hle)) hne
        | cons c s =>
          obtain ⟨r, hr, hfirst⟩ := ih h.2.2 (by simpa using hturns)
          have hlen : ((c :: s).length : Int) - 1 = s.length := by simp
          exact ⟨r, by rw [hlen, hr], hfirst.cons hpre⟩
    · rw [if_neg (by exact_mod_cast hle)]
      exact ⟨none, rfl, fun hin => hle hin.length_le⟩

/-- The lengths are `int`: the strings must be shorter than 2GB. -/
theorem strstr_finds_the_first (m : Mem) (a b : Word) (s t : List Byte) (hs : Str m a s)
    (ht : Str m b t) (hlen : s.length < 2 ^ 31) (hlen' : t.length < 2 ^ 31) :
    ∃ r, strstr m a b = some r ∧ FirstPlace s t a r := by
  have hint : ∀ n, n < 2 ^ 31 → (BitVec.ofNat 32 n).toInt = n := by
    intro n hn
    rw [BitVec.toInt_eq_toNat_cond, BitVec.toNat_ofNat]
    omega
  unfold strstr
  rw [strlen.spec hs, strlen.spec ht]
  simp only [Option.bind_eq_bind, Option.bind_some, hint _ hlen, hint _ hlen']
  by_cases hne : t = []
  · subst hne
    rw [if_pos (by simp)]
    exact ⟨_, rfl, 0, by simp, List.nil_prefix, by simp⟩
  · rw [if_neg (by simpa using hne)]
    exact strstr_loop.spec ht hlen' hne hs hs.length_lt

/-- The second string is first found behind the first character. -/
theorem ab_is_found : ∃ r, strstr two_strings 0x100 0x200 = some r ∧
    FirstPlace [0x61, 0x61, 0x62] [0x61, 0x62] 0x100 r :=
  strstr_finds_the_first two_strings 0x100 0x200 _ _ aab_stands ab_stands (by decide) (by decide)

end os_workshop.string
