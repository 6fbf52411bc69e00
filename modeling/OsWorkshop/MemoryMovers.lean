-- memcpy, memmove and memset (src/libc/src/string), which move words where they can. They
-- move and fill blocks as if at once, and no word is loaded or stored across its alignment.
import OsWorkshop.Blocks

open os_workshop.memory

namespace os_workshop.string

/-! ## The code -/

def lsize : Word := 4
def lmask : Word := lsize - 1

/-- The pointers `d` and `s` of a loop, and the memory. -/
structure Cursor where
  d : Word
  s : Word
  m : Mem

/-- The turns that an `int` allows. -/
def turns (len : Word) : Nat := len.toInt.toNat

/-- `*d++ = *s++`. -/
def byte_up (c : Cursor) : Option Cursor :=
  some ⟨c.d + 1, c.s + 1, write c.m c.d [c.m c.s]⟩

/-- `*--d = *--s`. -/
def byte_down (c : Cursor) : Option Cursor :=
  some ⟨c.d - 1, c.s - 1, write c.m (c.d - 1) [c.m (c.s - 1)]⟩

/-- A word that is not aligned would trap. -/
def aligned (a : Word) : Bool := a &&& lmask = 0

def word_up (c : Cursor) : Option Cursor :=
  if aligned c.d && aligned c.s then some ⟨c.d + lsize, c.s + lsize, st32 c.m c.d (ld32 c.m c.s)⟩
  else none

def word_down (c : Cursor) : Option Cursor :=
  let d := c.d - lsize
  let s := c.s - lsize
  if aligned d && aligned s then some ⟨d, s, st32 c.m d (ld32 c.m s)⟩ else none

/-- A loop of `n` turns. -/
def loop {σ : Type} (turn : σ → Option σ) : Nat → σ → Option σ
  | 0, c => some c
  | n + 1, c => turn c >>= loop turn n

/-- How many bytes go before the words when the copy goes up. -/
def head_up (d s count : Word) : Word :=
  if (d ||| s) &&& lmask = 0 then 0
  else if (d ^^^ s) &&& lmask ≠ 0 ∨ count < lsize then count
  else lsize - (d &&& lmask)

/-- The same when it goes down from the ends. -/
def head_down (d s count : Word) : Word :=
  if (d ||| s) &&& lmask = 0 then 0
  else if (d ^^^ s) &&& lmask ≠ 0 ∨ count ≤ lsize then count
  else d &&& lmask

/-- The three loops: bytes, words, bytes. -/
def loops (byte word : Cursor → Option Cursor) (len count : Word) (c : Cursor) : Option Mem := do
  let c ← loop byte (turns len) c
  let count := count - len
  let c ← loop word (turns (count / lsize)) c
  let c ← loop byte (turns (count &&& lmask)) c
  return c.m

def memcpy (m : Mem) (dest src count : Word) : Option Mem :=
  if count = 0 ∨ dest = src then some m
  else loops byte_up word_up (head_up dest src count) count ⟨dest, src, m⟩

def memmove (m : Mem) (dest src count : Word) : Option Mem :=
  if count = 0 ∨ dest = src then some m
  else if dest.slt src then
    loops byte_up word_up (head_up dest src count) count ⟨dest, src, m⟩
  else
    let d := dest + count
    let s := src + count
    loops byte_down word_down (head_down d s count) count ⟨d, s, m⟩

/-- The pointer and the memory of `memset`. -/
structure Filler where
  xs : Word
  m : Mem

/-- `*xs++ = c`. -/
def byte_set (c : Word) (f : Filler) : Option Filler :=
  some ⟨f.xs + 1, write f.m f.xs [c.setWidth 8]⟩

def word_set (cc : Word) (f : Filler) : Option Filler :=
  if aligned f.xs then some ⟨f.xs + lsize, st32 f.m f.xs cc⟩ else none

/-- The byte `cc` in all four bytes of a word. -/
def repeated (cc : Word) : Word :=
  let cc := cc ||| cc <<< 8
  cc ||| cc <<< 16

def memset (m : Mem) (s c count : Word) : Option Mem := do
  let len := -s &&& lmask
  let cc := c &&& 0xFF
  let f : Filler := ⟨s, m⟩
  if len < count then
    let count := count - len
    let f ← loop (byte_set c) len.toNat f
    let f ← loop (word_set (repeated cc)) (count / lsize).toNat f
    let f ← loop (byte_set c) (count &&& lmask).toNat f
    return f.m
  else
    let f ← loop (byte_set c) count.toNat f
    return f.m

/-! ## Words and counts -/

theorem turns_of_lt {x : Word} (h : x.toNat < 2 ^ 31) : turns x = x.toNat := by
  unfold turns
  rw [BitVec.toInt_eq_toNat_of_lt (by omega)]
  rfl

theorem toNat_lmask (x : Word) : (x &&& lmask).toNat = x.toNat % 4 := by
  unfold lmask lsize
  rw [BitVec.toNat_and]
  exact Nat.and_two_pow_sub_one_eq_mod x.toNat 2

theorem toNat_lsize (x : Word) : (x / lsize).toNat = x.toNat / 4 := by
  simp [lsize]

theorem aligned_iff {a : Word} : aligned a = true ↔ a.toNat % 4 = 0 := by
  unfold aligned
  rw [decide_eq_true_iff, ← toNat_lmask, ← BitVec.toNat_inj]
  rfl

theorem or_lmask {d s : Word} :
    (d ||| s) &&& lmask = 0 ↔ d.toNat % 4 = 0 ∧ s.toNat % 4 = 0 := by
  rw [BitVec.and_or_distrib_right, ← toNat_lmask, ← toNat_lmask]
  refine BitVec.or_eq_zero_iff.trans ?_
  rw [← BitVec.toNat_inj, ← BitVec.toNat_inj]
  rfl

theorem xor_lmask {d s : Word} : (d ^^^ s) &&& lmask = 0 ↔ d.toNat % 4 = s.toNat % 4 := by
  have hdistrib : (d ^^^ s) &&& lmask = (d &&& lmask) ^^^ (s &&& lmask) := by
    ext i hi
    simp only [BitVec.getElem_and, BitVec.getElem_xor]
    cases d[i] <;> cases s[i] <;> cases lmask[i] <;> rfl
  rw [hdistrib, ← toNat_lmask, ← toNat_lmask]
  exact BitVec.xor_eq_zero_iff.trans BitVec.toNat_inj.symm

theorem le32_word (b0 b1 b2 b3 : Byte) : le32 (word b0 b1 b2 b3) = [b0, b1, b2, b3] := by
  have h0 : (word b0 b1 b2 b3).extractLsb' 0 8 = b0 := BitVec.extractLsb'_append_eq_right
  have h1 : (word b0 b1 b2 b3).extractLsb' 8 8 = b1 :=
    (BitVec.extractLsb'_append_eq_of_le (by omega)).trans BitVec.extractLsb'_append_eq_right
  have h2 : (word b0 b1 b2 b3).extractLsb' 16 8 = b2 :=
    (BitVec.extractLsb'_append_eq_of_le (by omega)).trans
      ((BitVec.extractLsb'_append_eq_of_le (by omega)).trans BitVec.extractLsb'_append_eq_right)
  have h3 : (word b0 b1 b2 b3).extractLsb' 24 8 = b3 :=
    (BitVec.extractLsb'_append_eq_of_le (by omega)).trans
      ((BitVec.extractLsb'_append_eq_of_le (by omega)).trans BitVec.extractLsb'_append_eq_left)
  unfold le32
  rw [h0, h1, h2, h3]

theorem le32_ld32 (m : Mem) (a : Word) : le32 (ld32 m a) = read m a 4 := by
  unfold ld32
  rw [le32_word]
  simp [memory.read, List.range_succ]

/-! ## Loops that move blocks -/

/-- A block of `n` that moves up. -/
def Cursor.up (n : Nat) (c : Cursor) : Cursor :=
  ⟨c.d + BitVec.ofNat 32 n, c.s + BitVec.ofNat 32 n, move c.m c.d c.s n⟩

def Cursor.down (n : Nat) (c : Cursor) : Cursor :=
  ⟨c.d - BitVec.ofNat 32 n, c.s - BitVec.ofNat 32 n,
    move c.m (c.d - BitVec.ofNat 32 n) (c.s - BitVec.ofNat 32 n) n⟩

def Cursor.Aligned (c : Cursor) : Prop := c.d.toNat % 4 = 0 ∧ c.s.toNat % 4 = 0

/-- Two acts in a row are one, as long as both fit. -/
structure Moves {σ : Type} (act : Nat → σ → σ) (Fits : σ → Nat → Prop) : Prop where
  zero : ∀ c, act 0 c = c
  both : ∀ c j k, Fits c (j + k) → act k (act j c) = act (j + k) c
  rest : ∀ c j k, Fits c (j + k) → Fits (act j c) k
  less : ∀ c j k, Fits c (j + k) → Fits c j

theorem Moves.loop {σ : Type} {act : Nat → σ → σ} {Fits : σ → Nat → Prop} (h : Moves act Fits)
    {turn : σ → Option σ} {k : Nat} {P : σ → Prop} (hturn : ∀ c, P c → turn c = some (act k c))
    (hP : ∀ c, P c → P (act k c)) (n : Nat) {c : σ} (hc : n ≠ 0 → P c) (hfits : Fits c (k * n)) :
    loop turn n c = some (act (k * n) c) := by
  induction n generalizing c with
  | zero => rw [Nat.mul_zero, h.zero]; rfl
  | succ n ih =>
    have hpc := hc (by omega)
    have hsum : k * (n + 1) = k + k * n := by ring
    rw [hsum] at hfits ⊢
    unfold string.loop
    rw [hturn c hpc, ← h.both c _ _ hfits]
    exact ih (fun _ => hP c hpc) (h.rest c _ _ hfits)

section

variable {act : Nat → Cursor → Cursor} {Fits : Cursor → Nat → Prop} (h : Moves act Fits)
include h

theorem Moves.loops {byte word : Cursor → Option Cursor} {len count : Word} {c : Cursor}
    (hbyte : ∀ c, byte c = some (act 1 c))
    (hword : ∀ c : Cursor, c.Aligned → word c = some (act 4 c))
    (hkeep : ∀ c : Cursor, c.Aligned → (act 4 c).Aligned)
    (hlen : len.toNat ≤ count.toNat) (hcount : count.toNat < 2 ^ 31)
    (haligned : 4 ≤ (count - len).toNat → (act len.toNat c).Aligned)
    (hfits : Fits c count.toNat) :
    loops byte word len count c = some (act count.toNat c).m := by
  have hrest : (count - len).toNat = count.toNat - len.toNat := by bv_omega
  have hwords : turns ((count - len) / lsize) = (count - len).toNat / 4 := by
    rw [turns_of_lt (by rw [toNat_lsize]; omega), toNat_lsize]
  have hbytes : turns ((count - len) &&& lmask) = (count - len).toNat % 4 := by
    rw [turns_of_lt (by rw [toNat_lmask]; omega), toNat_lmask]
  have hsum : count.toNat =
      len.toNat + (4 * ((count - len).toNat / 4) + (count - len).toNat % 4) := by omega
  have hbyte_loop : ∀ n c, Fits c n → string.loop byte n c = some (act n c) := by
    intro n c hc
    simpa using h.loop (P := fun _ => True) (fun c _ => hbyte c) (fun _ _ => trivial) n
      (fun _ => trivial) (by simpa using hc)
  have hword_loop : ∀ n c, (n ≠ 0 → Cursor.Aligned c) → Fits c (4 * n) →
      string.loop word n c = some (act (4 * n) c) := fun n c hc => h.loop hword hkeep n hc
  rw [hsum] at hfits
  have hrest' := h.rest c _ _ hfits
  unfold string.loops
  rw [turns_of_lt (by omega), hbyte_loop _ _ (h.less c _ _ hfits)]
  simp only [Option.bind_eq_bind, Option.bind_some, hwords, hbytes]
  rw [hword_loop _ _ (fun hne => haligned (by omega)) (h.less _ _ _ hrest'), Option.bind_some,
    hbyte_loop _ _ (h.rest _ _ _ hrest'), h.both _ _ _ hrest', h.both c _ _ hfits, ← hsum]
  rfl

end

/-! ## memcpy and memmove -/

def FitsUp (c : Cursor) (n : Nat) : Prop := dist c.d c.s + n ≤ 2 ^ 32

def FitsDown (c : Cursor) (n : Nat) : Prop := c.d ≠ c.s ∧ dist c.s c.d + n ≤ 2 ^ 32

theorem moves_up : Moves Cursor.up FitsUp where
  zero c := by simp [Cursor.up]
  both c j k h := by
    unfold Cursor.up
    simp only [move_up _ h, BitVec.ofNat_add, BitVec.add_assoc]
  rest c j k h := by
    unfold FitsUp Cursor.up at *
    rw [dist_add_both]
    omega
  less c j k h := by
    unfold FitsUp at *
    omega

theorem moves_down : Moves Cursor.down FitsDown where
  zero c := by simp [Cursor.down]
  both c j k h := by
    obtain ⟨hne, hfits⟩ := h
    have hsplit : ∀ x : Word,
        x - BitVec.ofNat 32 (j + k) = x - BitVec.ofNat 32 j - BitVec.ofNat 32 k := by
      intro x
      rw [BitVec.ofNat_add, sub_sub]
    have hmove := move_down c.m (d := c.d - BitVec.ofNat 32 j - BitVec.ofNat 32 k)
      (s := c.s - BitVec.ofNat 32 j - BitVec.ofNat 32 k) (j := k) (k := j)
      (by rw [dist_sub_both, dist_sub_both]; omega) (by simpa using hne)
    rw [sub_add_cancel, sub_add_cancel, Nat.add_comm k j] at hmove
    unfold Cursor.down
    simp only [hmove, hsplit]
  rest c j k h := by
    obtain ⟨hne, hfits⟩ := h
    unfold FitsDown Cursor.down
    rw [dist_sub_both]
    exact ⟨by simpa using hne, by omega⟩
  less c j k h := by
    obtain ⟨hne, hfits⟩ := h
    exact ⟨hne, by omega⟩

theorem byte_up_moves (c : Cursor) : byte_up c = some (c.up 1) := by
  simp [byte_up, Cursor.up, move, memory.read]

theorem byte_down_moves (c : Cursor) : byte_down c = some (c.down 1) := by
  simp [byte_down, Cursor.down, move, memory.read]

theorem word_up_moves (c : Cursor) (h : c.Aligned) : word_up c = some (c.up 4) := by
  have hd := aligned_iff.mpr h.1
  have hs := aligned_iff.mpr h.2
  unfold word_up st32
  rw [hd, hs, le32_ld32]
  rfl

theorem word_down_moves (c : Cursor) (h : c.Aligned) : word_down c = some (c.down 4) := by
  have hd : aligned (c.d - lsize) := aligned_iff.mpr (by have := h.1; unfold lsize; bv_omega)
  have hs : aligned (c.s - lsize) := aligned_iff.mpr (by have := h.2; unfold lsize; bv_omega)
  unfold word_down st32
  simp only [hd, hs, le32_ld32]
  rfl

/-- The bytes in front of the words end at aligned addresses, or are all there are. -/
theorem head_up_spec (d s count : Word) : (head_up d s count).toNat ≤ count.toNat ∧
    (4 ≤ (count - head_up d s count).toNat →
      (d + head_up d s count).toNat % 4 = 0 ∧ (s + head_up d s count).toNat % 4 = 0) := by
  unfold head_up
  split
  · rename_i h0
    simpa using fun _ => or_lmask.mp h0
  · split
    · simp
    · rename_i h
      rw [not_or, not_not, xor_lmask] at h
      have hd := toNat_lmask d
      have hlsize : lsize.toNat = 4 := rfl
      obtain ⟨heq, hle⟩ := h
      bv_omega

theorem head_down_spec (d s count : Word) : (head_down d s count).toNat ≤ count.toNat ∧
    (4 ≤ (count - head_down d s count).toNat →
      (d - head_down d s count).toNat % 4 = 0 ∧ (s - head_down d s count).toNat % 4 = 0) := by
  unfold head_down
  split
  · rename_i h0
    simpa using fun _ => or_lmask.mp h0
  · split
    · simp
    · rename_i h
      rw [not_or, not_not, xor_lmask] at h
      have hd := toNat_lmask d
      have hlsize : lsize.toNat = 4 := rfl
      obtain ⟨heq, hle⟩ := h
      bv_omega

theorem loops_up {m : Mem} {d s count : Word} (hcount : count.toNat < 2 ^ 31)
    (h : dist d s + count.toNat ≤ 2 ^ 32) :
    loops byte_up word_up (head_up d s count) count ⟨d, s, m⟩ = some (move m d s count.toNat) := by
  obtain ⟨hlen, haligned⟩ := head_up_spec d s count
  refine moves_up.loops byte_up_moves word_up_moves ?_ hlen hcount ?_ h
  · rintro c ⟨hd, hs⟩
    unfold Cursor.Aligned Cursor.up
    refine ⟨?_, ?_⟩ <;> bv_omega
  · simpa [Cursor.Aligned, Cursor.up] using haligned

theorem loops_down {m : Mem} {d s count : Word} (hcount : count.toNat < 2 ^ 31) (hne : d ≠ s)
    (h : dist s d + count.toNat ≤ 2 ^ 32) :
    loops byte_down word_down (head_down (d + count) (s + count) count) count
      ⟨d + count, s + count, m⟩ = some (move m d s count.toNat) := by
  obtain ⟨hlen, haligned⟩ := head_down_spec (d + count) (s + count) count
  have hfits : FitsDown ⟨d + count, s + count, m⟩ count.toNat := by
    unfold FitsDown
    rw [dist_add_both]
    exact ⟨by simpa using hne, h⟩
  refine (moves_down.loops byte_down_moves word_down_moves ?_ hlen hcount ?_ hfits).trans ?_
  · rintro c ⟨hd, hs⟩
    unfold Cursor.Aligned Cursor.down
    refine ⟨?_, ?_⟩ <;> bv_omega
  · simpa [Cursor.Aligned, Cursor.down] using haligned
  · simp [Cursor.down]

theorem move_self (m : Mem) (d : Word) (n : Nat) : move m d d n = m := by
  funext x
  unfold move
  by_cases hx : dist d x < n
  · rw [write_in _ _ _ _ (by simpa using hx), read_get]
    congr 1
    unfold memory.dist
    bv_omega
  · rw [write_out _ _ _ _ (by simpa using hx)]

/-- `memcpy` copies when no byte is written before it is read. -/
theorem memcpy_moves_the_block (m : Mem) (dest src count : Word) (hcount : count.toNat < 2 ^ 31)
    (h : dist dest src + count.toNat ≤ 2 ^ 32) :
    memcpy m dest src count = some (move m dest src count.toNat) := by
  unfold memcpy
  split
  · rename_i h0
    rcases h0 with rfl | rfl
    · simp
    · rw [move_self]
  · exact loops_up hcount h

/-- Nine bytes to an address that stands alike in its word: three bytes, a word, two bytes. -/
theorem memcpy_of_nine_bytes :
    memcpy (fun x => x.setWidth 8) 0x1001 0x2001 9 =
      some (move (fun x => x.setWidth 8) 0x1001 0x2001 9) :=
  memcpy_moves_the_block _ _ _ _ (by decide) (by decide)

/-- The two blocks overlap, and one of them starts in either half of the address space. -/
def Straddle (d s : Word) (n : Nat) : Prop :=
  (d.toNat < 2 ^ 31 ∧ 2 ^ 31 ≤ s.toNat ∧ s.toNat < d.toNat + n) ∨
    (s.toNat < 2 ^ 31 ∧ 2 ^ 31 ≤ d.toNat ∧ d.toNat < s.toNat + n)

/-- `memmove` moves a block as if at once, however the two blocks overlap. It compares the
addresses as signed numbers, so the blocks may not overlap over the middle of the space. -/
theorem memmove_moves_the_block (m : Mem) (dest src count : Word) (hcount : count.toNat < 2 ^ 31)
    (h : ¬ Straddle dest src count.toNat) :
    memmove m dest src count = some (move m dest src count.toNat) := by
  unfold memmove
  split
  · rename_i h0
    rcases h0 with rfl | rfl
    · simp
    · rw [move_self]
  rename_i h0
  rw [not_or] at h0
  obtain ⟨_, hne⟩ := h0
  unfold Straddle at h
  have hd := BitVec.toInt_eq_toNat_cond dest
  have hs := BitVec.toInt_eq_toNat_cond src
  split
  · rename_i hlt
    apply loops_up hcount
    rw [BitVec.slt_iff_toInt_lt] at hlt
    have hsd := src.isLt
    rcases Nat.lt_or_ge src.toNat dest.toNat with hdir | hdir
    · rw [dist_of_lt hdir]
      split at hd <;> split at hs <;> omega
    · rw [dist_of_le hdir]
      omega
  · rename_i hle
    apply loops_down hcount hne
    rw [BitVec.slt_iff_toInt_lt] at hle
    rcases Nat.lt_or_ge dest.toNat src.toNat with hdir | hdir
    · rw [dist_of_lt hdir]
      split at hd <;> split at hs <;> omega
    · rw [dist_of_le hdir]
      omega

/-- Seven bytes, three of which are read after their place was to be written. -/
theorem memmove_of_seven_bytes :
    memmove (fun x => x.setWidth 8) 0x1004 0x1000 7 =
      some (move (fun x => x.setWidth 8) 0x1004 0x1000 7) :=
  memmove_moves_the_block _ _ _ _ (by decide) (by unfold Straddle; decide)

/-- Over the middle of the space it goes down where it should go up, and a byte is lost. -/
example : (memmove (fun x => x.setWidth 8) 0x7FFFFFFF 0x80000000 2).map (fun m => m 0x7FFFFFFF) =
    some 1 := by decide

/-! ## memset -/

def Filler.set (c : Byte) (n : Nat) (f : Filler) : Filler :=
  ⟨f.xs + BitVec.ofNat 32 n, fill f.m f.xs c n⟩

theorem moves_set (c : Byte) : Moves (Filler.set c) fun _ n => n ≤ 2 ^ 32 where
  zero f := by simp [Filler.set]
  both f j k h := by
    unfold Filler.set
    simp only [fill_append _ _ _ h, BitVec.ofNat_add, BitVec.add_assoc]
  rest f j k h := by omega
  less f j k h := by omega

theorem fill_eq_write (m : Mem) (a : Word) (v : Byte) (n : Nat) :
    fill m a v n = write m a (List.replicate n v) := by
  funext x
  by_cases hx : dist a x < n
  · simp [fill, write, hx]
  · simp [fill, write, hx]

theorem byte_set_sets (c : Word) (f : Filler) :
    byte_set c f = some (f.set (c.setWidth 8) 1) := by
  simp [byte_set, Filler.set, fill_eq_write]

theorem le32_repeated (c : Word) :
    le32 (repeated (c &&& 0xFF)) = List.replicate 4 (c.setWidth 8) := by
  have hff : ∀ j, (c &&& 0xFF).getLsbD j = (decide (j < 8) && c.getLsbD j) := by
    intro j
    rw [BitVec.getLsbD_and, Bool.and_comm]
    congr 1
    exact Nat.testBit_two_pow_sub_one 8 j
  simp only [repeated, le32, List.replicate]
  congr
  all_goals
    ext i hi
    simp only [BitVec.getElem_extractLsb', BitVec.getLsbD_or, BitVec.getLsbD_shiftLeft, hff,
      BitVec.getElem_setWidth]
    interval_cases i <;> simp

theorem byte_loop_sets (c : Word) {n : Nat} (hn : n ≤ 2 ^ 32) (f : Filler) :
    loop (byte_set c) n f = some (f.set (c.setWidth 8) n) := by
  simpa using (moves_set (c.setWidth 8)).loop (P := fun _ => True) (fun f _ => byte_set_sets c f)
    (fun _ _ => trivial) n (fun _ => trivial) (by simpa using hn)

theorem word_loop_sets (c : Word) {n : Nat} (hn : 4 * n ≤ 2 ^ 32) {f : Filler}
    (hf : f.xs.toNat % 4 = 0) :
    loop (word_set (repeated (c &&& 0xFF))) n f = some (f.set (c.setWidth 8) (4 * n)) := by
  refine (moves_set (c.setWidth 8)).loop (P := fun f => f.xs.toNat % 4 = 0) ?_ ?_ n
    (fun _ => hf) hn
  · intro f hf
    unfold word_set st32
    rw [aligned_iff.mpr hf, le32_repeated, ← fill_eq_write]
    rfl
  · intro f hf
    unfold Filler.set
    bv_omega

/-- `memset` fills a block of any length, also one that goes round the top of the memory. -/
theorem memset_fills_the_block (m : Mem) (s c count : Word) :
    memset m s c count = some (fill m s (c.setWidth 8) count.toNat) := by
  have hset := moves_set (c.setWidth 8)
  have hcount := count.isLt
  unfold memset
  simp only
  split
  · rename_i hlt
    rw [BitVec.lt_def] at hlt
    have hlen := toNat_lmask (-s)
    have haligned : (s + (-s &&& lmask)).toNat % 4 = 0 := by bv_omega
    generalize -s &&& lmask = len at *
    have hrest : (count - len).toNat = count.toNat - len.toNat := by bv_omega
    have hwords := toNat_lsize (count - len)
    have hbytes := toNat_lmask (count - len)
    rw [byte_loop_sets c (by omega)]
    simp only [Option.bind_eq_bind, Option.bind_some]
    rw [word_loop_sets c (by omega) (by simpa [Filler.set] using haligned), Option.bind_some,
      byte_loop_sets c (by omega), hset.both _ _ _ (by omega), hset.both _ _ _ (by omega)]
    have hsum : len.toNat +
        (4 * ((count - len) / lsize).toNat + ((count - len) &&& lmask).toNat) = count.toNat := by omega
    rw [hsum]
    rfl
  · rw [byte_loop_sets c (by omega)]
    rfl

end os_workshop.string