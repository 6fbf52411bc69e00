-- The drawing routines for characters (src/libgfx/src/gfx.c). `putc16` walks a
-- pointer through sixteen rows of eight pixels; its spec says which pixel of
-- the surface each of its stores goes to.
import OsWorkshop.Memory

open os_workshop.memory (Byte Word)

namespace os_workshop.gfx

/-! ## Surfaces -/

def CH_WIDTH : Word := 8
def CH_HEIGHT : Word := 16
def PIXFMT_RGB565 : Word := 0x03000565

/-- What the member `plot` points at. -/
inductive Plot
  | plot0
  | plot16
deriving DecidableEq

/-- What the member `hline` points at. -/
inductive Hline
  | hline0
  | hline16
deriving DecidableEq

/-- What the member `putc` points at. -/
inductive Putc
  | putc0
  | putc16
deriving DecidableEq

structure Surface where
  width : Word
  height : Word
  stride : Word
  pixels : Word
  pixfmt : Word
  fgcolor : Word
  bgcolor : Word
  plot : Plot
  hline : Hline
  putc : Putc

/-- The routines that depend on the format, but for the one for colours. -/
def gfx_init (gs : Surface) : Surface :=
  { gs with
    plot := if gs.pixfmt = PIXFMT_RGB565 then .plot16 else .plot0
    hline := if gs.pixfmt = PIXFMT_RGB565 then .hline16 else .hline0
    putc := if gs.pixfmt = PIXFMT_RGB565 then .putc16 else .putc0 }

/-- A store of 16 bits: the address, and what is stored there. -/
abbrev Store := Word × BitVec 16

/-! ## Drawing -/

def plot16 (gs : Surface) (x y pxl : Word) : List Store :=
  if gs.width ≤ x ∨ gs.height ≤ y then []
  else [(gs.pixels + 2 * (x + y * gs.stride), pxl.setWidth 16)]

section

variable (CH_ROM : Nat → Byte) (gs : Surface)

/-- The columns of a row that are left, and the pointer after them. -/
def putc16_columns (fg bg : Word) : Nat → Word → Word → List Store × Word
  | 0, pixels, _ => ([], pixels)
  | n + 1, pixels, bits =>
    let rest := putc16_columns fg bg n (pixels + 2) (bits <<< 1)
    ((pixels, (if bits &&& 0x80 ≠ 0 then fg else bg).setWidth 16) :: rest.1, rest.2)

/-- The rows that are left, from the index `ch` into the font. -/
def putc16_rows : Nat → Word → Nat → List Store
  | 0, _, _ => []
  | n + 1, pixels, ch =>
    let row := putc16_columns gs.fgcolor gs.bgcolor 8 pixels ((CH_ROM ch).setWidth 32)
    row.1 ++ putc16_rows n (row.2 + 2 * (gs.stride - CH_WIDTH)) (ch + 1)

def putc16 (x y ch : Word) : List Store :=
  if gs.width ≤ x ∨ gs.width < x + CH_WIDTH ∨ gs.height ≤ y ∨ gs.height < y + CH_HEIGHT then []
  else putc16_rows CH_ROM gs 16 (gs.pixels + 2 * (x + y * gs.stride)) ((ch &&& 0xFF).toNat * 16)

def gfx_putc (x y ch : Word) : List Store :=
  match gs.putc with
  | .putc0 => []
  | .putc16 => putc16 CH_ROM gs x y ch

/-! ## The picture of a character -/

/-- The colour of column `j` of the row at `i` of the font. -/
def ink (i j : Nat) : Word := if (CH_ROM i).getLsbD (7 - j) then gs.fgcolor else gs.bgcolor

/-- The pixels of one row of a character, from the column `j` on. -/
def glyph_row (x y : Word) (i j n : Nat) : List Store :=
  (List.range' j n).flatMap fun k => plot16 gs (x + BitVec.ofNat 32 k) y (ink CH_ROM gs i k)

/-- The pixels of a character with its upper left corner at `x`, `y`: sixteen rows of eight. -/
def glyph (x y ch : Word) : List Store :=
  (List.range 16).flatMap fun i =>
    glyph_row CH_ROM gs x (y + BitVec.ofNat 32 i) ((ch &&& 0xFF).toNat * 16 + i) 0 8

/-- All of the cell at `x`, `y` is on the surface. -/
def CellInside (x y : Word) : Prop :=
  x.toNat + 8 ≤ gs.width.toNat ∧ y.toNat + 16 ≤ gs.height.toNat

/-! ## The specs -/

theorem bit_of_row (b : Byte) (k : Nat) (hk : k < 8) :
    ((b.setWidth 32 : Word) <<< k) &&& 0x80 ≠ 0 ↔ b.getLsbD (7 - k) = true := by
  have h : (0x80 : Word) = BitVec.twoPow 32 7 := rfl
  rw [h, BitVec.and_twoPow, BitVec.getLsbD_shiftLeft, BitVec.getLsbD_setWidth]
  have hk' : ¬ 7 < k := by omega
  have h32 : 7 - k < 32 := by omega
  have hp : ¬ BitVec.twoPow 32 7 = 0#32 := by decide
  cases b.getLsbD (7 - k) <;> simp [hk', h32, hp]

variable {CH_ROM gs}

/-- From the column `j` on, each store goes to its pixel. -/
theorem putc16_columns.spec {x y : Word} {i : Nat} (n j : Nat) (hj : j + n = 8)
    (hx : x.toNat + 8 ≤ gs.width.toNat) (hy : y.toNat < gs.height.toNat) :
    putc16_columns gs.fgcolor gs.bgcolor n
        (gs.pixels + 2 * (x + BitVec.ofNat 32 j + y * gs.stride))
        ((CH_ROM i).setWidth 32 <<< j) =
      (glyph_row CH_ROM gs x y i j n, gs.pixels + 2 * (x + 8 + y * gs.stride)) := by
  induction n generalizing j with
  | zero =>
    obtain rfl : j = 8 := by omega
    rfl
  | succ n ih =>
    have hnext : gs.pixels + 2 * (x + BitVec.ofNat 32 j + y * gs.stride) + 2 =
        gs.pixels + 2 * (x + BitVec.ofNat 32 (j + 1) + y * gs.stride) := by
      have e : BitVec.ofNat 32 (j + 1) = BitVec.ofNat 32 j + 1 := BitVec.ofNat_add ..
      rw [e]
      ring
    have hbits : (((CH_ROM i).setWidth 32 : Word) <<< j) <<< 1 =
        (CH_ROM i).setWidth 32 <<< (j + 1) := by
      rw [BitVec.shiftLeft_add]
    have hpix : plot16 gs (x + BitVec.ofNat 32 j) y (ink CH_ROM gs i j) =
        [(gs.pixels + 2 * (x + BitVec.ofNat 32 j + y * gs.stride),
          (ink CH_ROM gs i j).setWidth 16)] := by
      apply if_neg
      bv_omega
    have hink : ink CH_ROM gs i j =
        if ((CH_ROM i).setWidth 32 : Word) <<< j &&& 0x80 ≠ 0 then gs.fgcolor
        else gs.bgcolor := by
      unfold ink
      rw [if_congr (bit_of_row (CH_ROM i) j (by omega)) rfl rfl]
    unfold putc16_columns
    rw [hnext, hbits, ih (j + 1) (by omega)]
    unfold glyph_row
    rw [List.range'_succ, List.flatMap_cons, hpix, hink]
    rfl

theorem putc16_rows.spec {x y : Word} {ch : Nat} (h : CellInside gs x y) (n i : Nat)
    (hi : i + n = 16) :
    putc16_rows CH_ROM gs n (gs.pixels + 2 * (x + (y + BitVec.ofNat 32 i) * gs.stride)) (ch + i) =
      (List.range' i n).flatMap fun k =>
        glyph_row CH_ROM gs x (y + BitVec.ofNat 32 k) (ch + k) 0 8 := by
  induction n generalizing i with
  | zero => rfl
  | succ n ih =>
    have hy : (y + BitVec.ofNat 32 i).toNat < gs.height.toNat := by
      have := h.2
      bv_omega
    have hdown : gs.pixels + 2 * (x + 8 + (y + BitVec.ofNat 32 i) * gs.stride) +
          2 * (gs.stride - CH_WIDTH) =
        gs.pixels + 2 * (x + (y + BitVec.ofNat 32 (i + 1)) * gs.stride) := by
      have e : BitVec.ofNat 32 (i + 1) = BitVec.ofNat 32 i + 1 := BitVec.ofNat_add ..
      rw [e]
      unfold CH_WIDTH
      ring
    have hrow := @putc16_columns.spec CH_ROM _ _ _ (ch + i) 8 0 rfl h.1 hy
    rw [BitVec.add_zero, BitVec.shiftLeft_zero] at hrow
    unfold putc16_rows
    rw [hrow]
    dsimp only
    rw [hdown, Nat.add_assoc, ih (i + 1) (by omega), List.range'_succ, List.flatMap_cons]

/-- A character that fits is drawn as its hundred and twenty-eight pixels. -/
theorem putc16.spec {x y : Word} (ch : Word) (h : CellInside gs x y) :
    putc16 CH_ROM gs x y ch = glyph CH_ROM gs x y ch := by
  have hin : ¬ (gs.width ≤ x ∨ gs.width < x + CH_WIDTH ∨ gs.height ≤ y ∨
      gs.height < y + CH_HEIGHT) := by
    obtain ⟨h1, h2⟩ := h
    unfold CH_WIDTH CH_HEIGHT
    bv_omega
  have hrows := @putc16_rows.spec CH_ROM _ _ _ ((ch &&& 0xFF).toNat * 16) h 16 0 rfl
  unfold putc16 glyph
  rw [if_neg hin, List.range_eq_range', ← hrows]
  simp

/-- Every pixel of a character that fits is on the surface, so its store is made. -/
theorem glyph_pixel {x y : Word} (pxl : Word) (h : CellInside gs x y) {i j : Nat} (hi : i < 16)
    (hj : j < 8) :
    plot16 gs (x + BitVec.ofNat 32 j) (y + BitVec.ofNat 32 i) pxl =
      [(gs.pixels + 2 * (x + BitVec.ofNat 32 j + (y + BitVec.ofNat 32 i) * gs.stride),
        pxl.setWidth 16)] := by
  apply if_neg
  obtain ⟨h1, h2⟩ := h
  bv_omega

end

end os_workshop.gfx
