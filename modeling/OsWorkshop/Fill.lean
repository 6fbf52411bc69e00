-- Lines and rectangles (src/libgfx/src/gfx.c). `hline16` clips a row once and
-- then runs a pointer over it; the stores it makes are those of plotting every
-- pixel of the row, and `gfx_fill` makes those of every pixel of the rectangle.
import OsWorkshop.Pixels

open os_workshop.memory (Byte Word Mem)

namespace os_workshop.gfx

/-! ## Lines and rectangles -/

/-- No loop over the addresses or over the numbers of 32 bits takes more turns than there
are of them. -/
def TURNS : Nat := 2 ^ 32

def Surface.call_plot (gs : Surface) (x y pxl : Word) : List Store :=
  match gs.plot with
  | .plot0 => []
  | .plot16 => plot16 gs x y pxl

def gfx_plot (gs : Surface) (x y : Word) : List Store := gs.call_plot x y gs.fgcolor

/-- The loop `while (pixels < end) { *pixels++ = pxl; }`: none when it is not over after
`fuel` turns. -/
def hline16_while (stop pxl : Word) : Nat → Word → Option (List Store)
  | 0, pixels => if pixels < stop then none else some []
  | fuel + 1, pixels =>
    if pixels < stop then do
      let rest ← hline16_while stop pxl fuel (pixels + 2)
      some ((pixels, pxl.setWidth 16) :: rest)
    else some []

def hline16 (gs : Surface) (x0 y x1 pxl : Word) : Option (List Store) :=
  if gs.width ≤ x0 ∨ gs.height ≤ y ∨ x1 ≤ x0 then some []
  else
    let x1 := if gs.width < x1 then gs.width else x1
    let pixels := gs.pixels + 2 * x0 + 2 * (y * gs.stride)
    let stop := pixels + 2 * x1 - 2 * x0
    hline16_while stop pxl TURNS pixels

def Surface.call_hline (gs : Surface) (x0 y x1 pxl : Word) : Option (List Store) :=
  match gs.hline with
  | .hline0 => some []
  | .hline16 => hline16 gs x0 y x1 pxl

def gfx_hline (gs : Surface) (x0 y x1 : Word) : Option (List Store) :=
  gs.call_hline x0 y x1 gs.fgcolor

/-- The loop of `gfx_fill`, from the row `y0` on. -/
def gfx_fill_while (gs : Surface) (x0 x1 y1 pxl : Word) : Nat → Word → Option (List Store)
  | 0, y0 => if y0 < y1 then none else some []
  | fuel + 1, y0 =>
    if y0 < y1 then do
      let row ← gs.call_hline x0 y0 x1 pxl
      let rest ← gfx_fill_while gs x0 x1 y1 pxl fuel (y0 + 1)
      some (row ++ rest)
    else some []

def gfx_fill (gs : Surface) (x0 y0 x1 y1 pxl : Word) : Option (List Store) :=
  gfx_fill_while gs x0 x1 y1 pxl TURNS y0

def gfx_clear (gs : Surface) (pxl : Word) : Option (List Store) :=
  gfx_fill gs 0 0 gs.width gs.height pxl

/-! ## Plotting pixel by pixel -/

/-- Plotting the columns from `x0` to `x1` of one row. -/
def plot_row (gs : Surface) (x0 y x1 pxl : Word) : List Store :=
  (List.range' x0.toNat (x1.toNat - x0.toNat)).flatMap fun x =>
    gs.call_plot (BitVec.ofNat 32 x) y pxl

/-- Plotting the rectangle row by row. -/
def plot_rows (gs : Surface) (x0 y0 x1 y1 pxl : Word) : List Store :=
  (List.range' y0.toNat (y1.toNat - y0.toNat)).flatMap fun y =>
    plot_row gs x0 (BitVec.ofNat 32 y) x1 pxl

/-- The part of the rectangle that is on the surface. -/
abbrev Box (gs : Surface) (x0 y0 x1 y1 : Nat) (x y : Nat) : Prop :=
  (x0 ≤ x ∧ x < x1 ∧ y0 ≤ y ∧ y < y1) ∧ x < gs.width.toNat ∧ y < gs.height.toNat

section

variable {gs : Surface} {x0 y0 x1 y1 y : Word}

/-! ## A row of pixels -/

/-- From a pointer `n` pixels before the end, the loop is over after `n` turns, with one store
to each of them. -/
theorem hline16_while.spec (pxl : Word) (n fuel : Nat) {stop pixels : Word} (hn : n ≤ fuel)
    (h : pixels.toNat + 2 * n = stop.toNat) :
    hline16_while stop pxl fuel pixels =
      some ((List.range n).map fun i => (pixels + 2 * BitVec.ofNat 32 i, pxl.setWidth 16)) := by
  induction n generalizing fuel pixels with
  | zero =>
    have hend : ¬ pixels < stop := by bv_omega
    cases fuel <;> simp [hline16_while, hend]
  | succ n ih =>
    obtain ⟨fuel, rfl⟩ : ∃ f, fuel = f + 1 := ⟨fuel - 1, by omega⟩
    have hmore : pixels < stop := by bv_omega
    have hnext : (pixels + 2).toNat + 2 * n = stop.toNat := by bv_omega
    have hstep : ∀ i : Nat, pixels + 2 + 2 * BitVec.ofNat 32 i =
        pixels + 2 * BitVec.ofNat 32 (i + 1) := by
      intro i
      have e : BitVec.ofNat 32 (i + 1) = BitVec.ofNat 32 i + 1 := BitVec.ofNat_add ..
      rw [e]
      ring
    unfold hline16_while
    rw [if_pos hmore, ih fuel (by omega) hnext, List.range_succ_eq_map, List.map_cons,
      List.map_map]
    simp only [hstep]
    simp [Function.comp_def]

/-- The columns that are on the surface are those the clipped row has. -/
theorem plot_row_clip (hp : gs.plot = .plot16) (hy : y.toNat < gs.height.toNat) (pxl : Word) :
    plot_row gs x0 y x1 pxl =
      (List.range (min x1.toNat gs.width.toNat - x0.toNat)).map fun i =>
        (entry gs (x0.toNat + i) y.toNat, pxl.setWidth 16) := by
  have hcall : ∀ x, gs.call_plot (BitVec.ofNat 32 x) y pxl =
      plot16 gs (BitVec.ofNat 32 x) (BitVec.ofNat 32 y.toNat) pxl := by
    intro x
    rw [BitVec.ofNat_toNat, BitVec.setWidth_eq]
    unfold Surface.call_plot
    rw [hp]
  obtain ⟨n, hn⟩ : ∃ n, x1.toNat - x0.toNat =
      (min x1.toNat gs.width.toNat - x0.toNat) + n :=
    ⟨_, (Nat.add_sub_cancel' (by omega)).symm⟩
  have hon : ∀ x ∈ List.range' x0.toNat (min x1.toNat gs.width.toNat - x0.toNat),
      gs.call_plot (BitVec.ofNat 32 x) y pxl = [(entry gs x y.toNat, pxl.setWidth 16)] := by
    intro x hx
    rw [List.mem_range'_1] at hx
    rw [hcall]
    exact plot16_on pxl (by omega) hy
  have hoff : ∀ x ∈ List.range' (x0.toNat + (min x1.toNat gs.width.toNat - x0.toNat)) n,
      gs.call_plot (BitVec.ofNat 32 x) y pxl = [] := by
    intro x hx
    rw [List.mem_range'_1] at hx
    have hlt := x1.isLt
    rw [hcall]
    exact plot16_off pxl (by omega) y.isLt (by omega)
  unfold plot_row
  rw [hn, ← List.range'_append_1, List.flatMap_append, List.flatMap_eq_nil_iff.mpr hoff,
    List.append_nil, List.flatMap_congr hon, ← List.map_eq_flatMap, List.range'_eq_map_range,
    List.map_map]
  rfl

theorem plot_row_empty (hp : gs.plot = .plot16) (pxl : Word)
    (h : gs.width ≤ x0 ∨ gs.height ≤ y ∨ x1 ≤ x0) : plot_row gs x0 y x1 pxl = [] := by
  apply List.flatMap_eq_nil_iff.mpr
  intro x hx
  rw [List.mem_range'_1] at hx
  unfold Surface.call_plot
  rw [hp]
  apply if_pos
  bv_omega

/-- `hline16` makes the stores of plotting its row. -/
theorem hline16.spec (hb : Buffered gs) (hp : gs.plot = .plot16) (pxl : Word) :
    hline16 gs x0 y x1 pxl = some (plot_row gs x0 y x1 pxl) := by
  unfold hline16
  by_cases hclip : gs.width ≤ x0 ∨ gs.height ≤ y ∨ x1 ≤ x0
  · rw [if_pos hclip, plot_row_empty hp pxl hclip]
  · have hx0 : x0.toNat < gs.width.toNat := by bv_omega
    have hx1 : x0.toNat < x1.toNat := by bv_omega
    have hy : y.toNat < gs.height.toNat := by bv_omega
    have hmin : (if gs.width < x1 then gs.width else x1).toNat =
        min x1.toNat gs.width.toNat := by
      split <;> bv_omega
    have hentry : ∀ i : Nat, gs.pixels + 2 * x0 + 2 * (y * gs.stride) + 2 * BitVec.ofNat 32 i =
        entry gs (x0.toNat + i) y.toNat := by
      intro i
      unfold entry
      rw [BitVec.ofNat_add, BitVec.ofNat_toNat, BitVec.ofNat_toNat, BitVec.setWidth_eq,
        BitVec.setWidth_eq]
      ring
    have hfirst : gs.pixels + 2 * x0 + 2 * (y * gs.stride) = entry gs x0.toNat y.toNat := by
      have h := hentry 0
      simpa using h
    have hin := entry_toNat hb (lt_of_lt_of_le hx0 hb.width) hy
    have hrow : gs.stride.toNat + y.toNat * gs.stride.toNat ≤
        gs.stride.toNat * gs.height.toNat := by
      have h : (y.toNat + 1) * gs.stride.toNat ≤ gs.height.toNat * gs.stride.toNat :=
        Nat.mul_le_mul_right _ hy
      rw [Nat.mul_comm gs.stride.toNat]
      linarith
    have hf := hb.fits
    have hw := hb.width
    rw [if_neg hclip, plot_row_clip hp hy]
    dsimp only
    generalize (if gs.width < x1 then gs.width else x1) = stop at hmin
    rw [hline16_while.spec pxl (min x1.toNat gs.width.toNat - x0.toNat)]
    · simp only [hentry]
    · unfold TURNS
      omega
    · rw [hfirst]
      bv_omega

theorem call_hline.spec (hb : Buffered gs) (hp : gs.plot = .plot16) (hh : gs.hline = .hline16)
    (pxl : Word) : gs.call_hline x0 y x1 pxl = some (plot_row gs x0 y x1 pxl) := by
  unfold Surface.call_hline
  rw [hh]
  exact hline16.spec hb hp pxl

/-! ## The rows of a rectangle -/

theorem gfx_fill_while.spec (hb : Buffered gs) (hp : gs.plot = .plot16)
    (hh : gs.hline = .hline16) (pxl : Word) (n fuel : Nat) (hn : n ≤ fuel)
    (h : y0.toNat + n = y1.toNat) :
    gfx_fill_while gs x0 x1 y1 pxl fuel y0 =
      some ((List.range' y0.toNat n).flatMap fun y =>
        plot_row gs x0 (BitVec.ofNat 32 y) x1 pxl) := by
  induction n generalizing fuel y0 with
  | zero =>
    have hend : ¬ y0 < y1 := by bv_omega
    cases fuel <;> simp [gfx_fill_while, hend]
  | succ n ih =>
    obtain ⟨fuel, rfl⟩ : ∃ f, fuel = f + 1 := ⟨fuel - 1, by omega⟩
    have hmore : y0 < y1 := by bv_omega
    have hnext : (y0 + 1).toNat = y0.toNat + 1 := by bv_omega
    have hrest := @ih (y0 + 1) fuel (by omega) (by omega)
    unfold gfx_fill_while
    rw [if_pos hmore, call_hline.spec hb hp hh, hrest, hnext, List.range'_succ,
      List.flatMap_cons, BitVec.ofNat_toNat, BitVec.setWidth_eq]
    rfl

theorem gfx_fill.spec (hb : Buffered gs) (hp : gs.plot = .plot16) (hh : gs.hline = .hline16)
    (pxl : Word) : gfx_fill gs x0 y0 x1 y1 pxl = some (plot_rows gs x0 y0 x1 y1 pxl) := by
  unfold gfx_fill plot_rows
  by_cases h : y0 < y1
  · apply gfx_fill_while.spec hb hp hh
    · have hlt := y1.isLt
      unfold TURNS
      omega
    · bv_omega
  · -- no row at all
    have hnone : y1.toNat - y0.toNat = 0 := by bv_omega
    rw [hnone, List.range'_zero, List.flatMap_nil]
    cases TURNS <;> simp [gfx_fill_while, h]

/-! ## What they draw -/

theorem plot_row.draws (hb : Buffered gs) (hp : gs.plot = .plot16) (pxl : Word) :
    Draws gs (plot_row gs x0 y x1 pxl)
      (area (Box gs x0.toNat y.toNat x1.toNat (y.toNat + 1)) fun _ _ => pxl.setWidth 16) := by
  have hdots : ∀ x ∈ List.range' x0.toNat (x1.toNat - x0.toNat),
      Draws gs (gs.call_plot (BitVec.ofNat 32 x) y pxl)
        (area (Dot gs x y.toNat) fun _ _ => pxl.setWidth 16) := by
    intro x hx
    rw [List.mem_range'_1] at hx
    have hlt := x1.isLt
    have hdot := @plot16.spec gs x y.toNat hb pxl (fun _ _ => pxl.setWidth 16) rfl (by omega)
      y.isLt
    rw [BitVec.ofNat_toNat, BitVec.setWidth_eq] at hdot
    unfold Surface.call_plot
    rw [hp]
    exact hdot
  apply (Draws.flatMap _ hdots).same_area
  intro x' y' _ _
  simp only [List.mem_range'_1]
  constructor
  · rintro ⟨x, hx, ⟨rfl, rfl⟩, hxw, hyh⟩
    omega
  · rintro ⟨hin, hxw, hyh⟩
    exact ⟨x', by omega, ⟨rfl, by omega⟩, hxw, by omega⟩

theorem plot_rows.draws (hb : Buffered gs) (hp : gs.plot = .plot16) (pxl : Word) :
    Draws gs (plot_rows gs x0 y0 x1 y1 pxl)
      (area (Box gs x0.toNat y0.toNat x1.toNat y1.toNat) fun _ _ => pxl.setWidth 16) := by
  have hrows : ∀ y ∈ List.range' y0.toNat (y1.toNat - y0.toNat),
      Draws gs (plot_row gs x0 (BitVec.ofNat 32 y) x1 pxl)
        (area (Box gs x0.toNat y x1.toNat (y + 1)) fun _ _ => pxl.setWidth 16) := by
    intro y hy
    rw [List.mem_range'_1] at hy
    have hlt := y1.isLt
    have hy32 : (BitVec.ofNat 32 y).toNat = y := by
      rw [BitVec.toNat_ofNat, Nat.mod_eq_of_lt (by omega)]
    have hrow := @plot_row.draws gs x0 x1 (BitVec.ofNat 32 y) hb hp pxl
    rw [hy32] at hrow
    exact hrow
  apply (Draws.flatMap _ hrows).same_area
  intro x' y' _ _
  simp only [List.mem_range'_1]
  constructor
  · rintro ⟨y, hy, hin, hon⟩
    exact ⟨by omega, hon⟩
  · rintro ⟨hin, hon⟩
    exact ⟨y', by omega, by omega, hon⟩

end

/-! ## Filling agrees with plotting -/

/-- `r` is over, made the stores of `plots`, and these set the pixels of the rectangle that
are on the surface and nothing else. -/
structure Fills (gs : Surface) (r : Option (List Store)) (plots : List Store)
    (x0 y0 x1 y1 : Nat) (pxl : Word) : Prop where
  makes : r = some plots
  draws : Draws gs plots (area (Box gs x0 y0 x1 y1) fun _ _ => pxl.setWidth 16)

/-- On a surface of 16-bit pixels, a rectangle, a line and the whole surface are filled as
if each of their pixels were plotted. -/
theorem filling_agrees_with_plotting (gs : Surface) (hf : gs.pixfmt = PIXFMT_RGB565)
    (hb : Buffered gs) :
    (∀ x0 y0 x1 y1 pxl, Fills (gfx_init gs) (gfx_fill (gfx_init gs) x0 y0 x1 y1 pxl)
      (plot_rows (gfx_init gs) x0 y0 x1 y1 pxl) x0.toNat y0.toNat x1.toNat y1.toNat pxl) ∧
    (∀ x0 y x1, Fills (gfx_init gs) (gfx_hline (gfx_init gs) x0 y x1)
      (plot_row (gfx_init gs) x0 y x1 gs.fgcolor) x0.toNat y.toNat x1.toNat (y.toNat + 1)
      gs.fgcolor) ∧
    ∀ pxl, Fills (gfx_init gs) (gfx_clear (gfx_init gs) pxl)
      (plot_rows (gfx_init gs) 0 0 gs.width gs.height pxl) 0 0 gs.width.toNat gs.height.toNat
      pxl := by
  have hb' : Buffered (gfx_init gs) := ⟨hb.width, hb.fits⟩
  have hp : (gfx_init gs).plot = .plot16 := if_pos hf
  have hh : (gfx_init gs).hline = .hline16 := if_pos hf
  refine ⟨?_, ?_, ?_⟩
  · intro x0 y0 x1 y1 pxl
    exact ⟨gfx_fill.spec hb' hp hh pxl, plot_rows.draws hb' hp pxl⟩
  · intro x0 y x1
    exact ⟨call_hline.spec hb' hp hh gs.fgcolor, plot_row.draws hb' hp gs.fgcolor⟩
  · intro pxl
    exact ⟨gfx_fill.spec hb' hp hh pxl, plot_rows.draws hb' hp pxl⟩

/-- A surface with six entries of padding in each row. -/
def padded : Surface where
  width := 10
  height := 4
  stride := 16
  pixels := 0x40000000
  pixfmt := PIXFMT_RGB565
  fgcolor := 0xFFFF
  bgcolor := 0
  plot := .plot0
  hline := .hline0
  putc := .putc0

theorem a_wide_rectangle_is_clipped :
    ∃ stores, gfx_fill (gfx_init padded) 8 1 0xFFFFFFFF 3 0x1F81F = some stores ∧
      pixel padded (draw (fun _ => 0) stores) 9 2 = 0xF81F ∧
      pixel padded (draw (fun _ => 0) stores) 10 2 = 0 := by
  have hb : Buffered padded := ⟨by decide, by decide⟩
  obtain ⟨hmakes, hdraws⟩ := (filling_agrees_with_plotting padded rfl hb).1 8 1 0xFFFFFFFF 3 0x1F81F
  refine ⟨_, hmakes, ?_, ?_⟩
  · exact hdraws.entries _ 9 2 (by decide) (by decide)
  · exact hdraws.entries _ 10 2 (by decide) (by decide)

end os_workshop.gfx
