-- Text on a surface is the picture of a terminal: cells row by row, each with
-- the last character that was written to it. `txt_putc` keeps the cursor on the
-- terminal's next cell, and the stores of a character draw its cell and no more.
import OsWorkshop.Pixels
import OsWorkshop.TextCursor

open os_workshop.memory (Byte Word Mem)
open os_workshop.printf (c_str)

namespace os_workshop.gfx

/-! ## The terminal -/

/-- The cells row by row, with the characters written to them, and the cell that the next
character goes to. -/
structure Terminal where
  cell : Nat → Option Byte
  next : Nat

namespace Terminal

def blank : Terminal := ⟨fun _ => none, 0⟩

/-- The start of the row after the one that the next character goes to. -/
def next_row (cols rows : Nat) (t : Terminal) : Nat := (t.next / cols + 1) % rows * cols

/-- A character on a terminal of `cols` columns and `rows` rows. -/
def put (cols rows : Nat) (t : Terminal) (c : Byte) : Terminal :=
  if c = 13 ∨ c = 10 then ⟨t.cell, t.next_row cols rows⟩
  else ⟨Function.update t.cell t.next (some c), (t.next + 1) % (cols * rows)⟩

def puts (cols rows : Nat) (t : Terminal) (s : List Byte) : Terminal :=
  s.foldl (put cols rows) t

/-- What the terminal shows in cells of eight by sixteen pixels: a set bit of the font in the
foreground, a clear one in the background, the top bit leftmost. -/
def picture (CH_ROM : Nat → Byte) (gs : Surface) (cols rows : Nat) (t : Terminal) : Picture :=
  fun x y =>
    if x / 8 < cols ∧ y / 16 < rows then
      (t.cell (y / 16 * cols + x / 8)).map fun c =>
        (ink CH_ROM gs (c.toNat * 16 + y % 16) (x % 8)).setWidth 16
    else none

end Terminal

/-! ## A character drawn -/

section

variable {CH_ROM : Nat → Byte} {gs : Surface} {x y : Word}

theorem glyph_row.draws (hb : Buffered gs) (hx : x.toNat + 8 ≤ gs.width.toNat)
    (hy : y.toNat < gs.height.toNat) (i : Nat) {v : Nat → Nat → BitVec 16}
    (hv : ∀ j < 8, (ink CH_ROM gs i j).setWidth 16 = v (x.toNat + j) y.toNat) :
    Draws gs (glyph_row CH_ROM gs x y i 0 8)
      (area (fun x' y' => (x.toNat ≤ x' ∧ x' < x.toNat + 8) ∧ y' = y.toNat) v) := by
  have hw := gs.width.isLt
  have hdots : ∀ j ∈ List.range' 0 8,
      Draws gs (plot16 gs (x + BitVec.ofNat 32 j) y (ink CH_ROM gs i j))
        (area (Dot gs (x.toNat + j) y.toNat) v) := by
    intro j hj
    rw [List.mem_range'_1] at hj
    have hdot := @plot16.spec gs (x.toNat + j) y.toNat hb (ink CH_ROM gs i j) v
      (hv j (by omega)) (by omega) y.isLt
    rw [BitVec.ofNat_add, BitVec.ofNat_toNat, BitVec.ofNat_toNat, BitVec.setWidth_eq,
      BitVec.setWidth_eq] at hdot
    exact hdot
  apply (Draws.flatMap _ hdots).same_area
  intro x' y' _ _
  simp only [List.mem_range'_1]
  constructor
  · rintro ⟨j, hj, ⟨rfl, rfl⟩, -⟩
    omega
  · rintro ⟨hin, rfl⟩
    exact ⟨x' - x.toNat, by omega, by omega, by omega⟩

/-- The stores of a character draw its cell. -/
theorem glyph.draws (hb : Buffered gs) (hc : CellInside gs x y) (ch : Word)
    {v : Nat → Nat → BitVec 16}
    (hv : ∀ i < 16, ∀ j < 8, (ink CH_ROM gs ((ch &&& 0xFF).toNat * 16 + i) j).setWidth 16 =
      v (x.toNat + j) (y.toNat + i)) :
    Draws gs (glyph CH_ROM gs x y ch)
      (area (fun x' y' => (x.toNat ≤ x' ∧ x' < x.toNat + 8) ∧
        y.toNat ≤ y' ∧ y' < y.toNat + 16) v) := by
  obtain ⟨hx, hy⟩ := hc
  have hh := gs.height.isLt
  have hrows : ∀ i ∈ List.range 16,
      Draws gs (glyph_row CH_ROM gs x (y + BitVec.ofNat 32 i) ((ch &&& 0xFF).toNat * 16 + i) 0 8)
        (area (fun x' y' => (x.toNat ≤ x' ∧ x' < x.toNat + 8) ∧ y' = y.toNat + i) v) := by
    intro i hi
    rw [List.mem_range] at hi
    have hyi : (y + BitVec.ofNat 32 i).toNat = y.toNat + i := by bv_omega
    have hrow := @glyph_row.draws CH_ROM gs x (y + BitVec.ofNat 32 i) hb hx (by omega)
      ((ch &&& 0xFF).toNat * 16 + i) v (by rw [hyi]; exact hv i hi)
    rw [hyi] at hrow
    exact hrow
  apply (Draws.flatMap _ hrows).same_area
  intro x' y' _ _
  simp only [List.mem_range]
  constructor
  · rintro ⟨i, hi, hin, rfl⟩
    omega
  · rintro ⟨hin, hin'⟩
    exact ⟨y' - y.toNat, by omega, hin, by omega⟩

end

/-! ## The cursor -/

/-- The cursor stands on the cell that the next character goes to. -/
structure At (ts : TxtSurface) (t : Terminal) : Prop where
  inside : ts.CursorInside
  next : t.next = ts.cy.toNat * ts.cw.toNat + ts.cx.toNat

section

variable {CH_ROM : Nat → Byte} {ts : TxtSurface} {t : Terminal}

theorem isNewline_iff (c : Byte) : IsNewline (c.setWidth 32) ↔ c = 13 ∨ c = 10 := by
  unfold IsNewline
  bv_omega

theorem low_octet (c : Byte) : ((c.setWidth 32 : Word) &&& 0xFF).toNat = c.toNat := by
  have hc := c.isLt
  rw [BitVec.toNat_and, BitVec.toNat_setWidth, Nat.mod_eq_of_lt (by omega)]
  exact (Nat.and_two_pow_sub_one_eq_mod _ 8).trans (Nat.mod_eq_of_lt hc)

theorem row_of_at (h : At ts t) : t.next / ts.cw.toNat = ts.cy.toNat := by
  obtain ⟨⟨hx, _⟩, hn⟩ := h
  rw [hn, Nat.mul_comm, Nat.mul_add_div (by bv_omega), Nat.div_eq_of_lt (by bv_omega),
    Nat.add_zero]

theorem next_row_of_at (h : At ts t) : t.next_row ts.cw.toNat ts.ch.toNat =
    (if ts.ch ≤ ts.cy + 1 then (0 : Word) else ts.cy + 1).toNat * ts.cw.toNat := by
  have hy := h.inside.2
  unfold Terminal.next_row
  rw [row_of_at h]
  congr 1
  by_cases hlast : ts.ch ≤ ts.cy + 1
  · have e : ts.cy.toNat + 1 = ts.ch.toNat := by bv_omega
    rw [if_pos hlast, e, Nat.mod_self]
    rfl
  · rw [if_neg hlast, Nat.mod_eq_of_lt (by bv_omega)]
    bv_omega

theorem newline.at (h : At ts t) :
    At ts.newline ⟨t.cell, t.next_row ts.cw.toNat ts.ch.toNat⟩ :=
  ⟨newline.spec h.inside, next_row_of_at h⟩

/-- After the last column comes the next row, as it does for a newline. -/
theorem txt_putc.at (c : Byte) (h : At ts t) :
    At (txt_putc CH_ROM ts (c.setWidth 32)).1 (t.put ts.cw.toNat ts.ch.toNat c) := by
  by_cases hnl : IsNewline (c.setWidth 32)
  · have hc := (isNewline_iff c).mp hnl
    unfold txt_putc Terminal.put
    rw [if_pos hnl, if_pos hc]
    exact newline.at h
  · have hc : ¬ (c = 13 ∨ c = 10) := fun e => hnl ((isNewline_iff c).mpr e)
    refine ⟨txt_putc.inside _ h.inside, ?_⟩
    obtain ⟨⟨hx, hy⟩, hn⟩ := id h
    unfold txt_putc Terminal.put
    rw [if_neg hnl, if_neg hc]
    dsimp only
    by_cases hfull : ts.cw ≤ ts.cx + 1
    · have hend : t.next + 1 = (t.next / ts.cw.toNat + 1) * ts.cw.toNat := by
        rw [row_of_at h, hn, Nat.add_mul]
        bv_omega
      have hwrap : (t.next + 1) % (ts.cw.toNat * ts.ch.toNat) =
          t.next_row ts.cw.toNat ts.ch.toNat := by
        rw [hend, Nat.mul_comm ts.cw.toNat, Nat.mul_mod_mul_right]
        rfl
      rw [if_pos hfull, hwrap, next_row_of_at h]
      rfl
    · have hin : t.next + 1 < ts.cw.toNat * ts.ch.toNat := by
        have hrows : (ts.cy.toNat + 1) * ts.cw.toNat ≤ ts.ch.toNat * ts.cw.toNat :=
          Nat.mul_le_mul_right _ hy
        rw [Nat.mul_comm ts.cw.toNat]
        rw [Nat.add_mul] at hrows
        bv_omega
      rw [if_neg hfull, Nat.mod_eq_of_lt hin, hn]
      dsimp only
      bv_omega

/-! ## The picture -/

/-- Writing to the next cell puts the picture of the character over that of the terminal. -/
theorem picture_put {gs : Surface} {cols rows cx cy : Nat} (c : Byte) (hx : cx < cols)
    (hy : cy < rows) (hn : t.next = cy * cols + cx) (hc : ¬ (c = 13 ∨ c = 10)) (x y : Nat) :
    (Picture.over
      (area (fun x' y' => (cx * 8 ≤ x' ∧ x' < cx * 8 + 8) ∧ cy * 16 ≤ y' ∧ y' < cy * 16 + 16)
        fun x' y' => (ink CH_ROM gs (c.toNat * 16 + y' % 16) (x' % 8)).setWidth 16)
      (t.picture CH_ROM gs cols rows)) x y = (t.put cols rows c).picture CH_ROM gs cols rows x y := by
  have hput : (t.put cols rows c).cell = Function.update t.cell t.next (some c) := by
    unfold Terminal.put
    rw [if_neg hc]
  unfold Picture.over area Terminal.picture
  rw [hput]
  by_cases hin : (cx * 8 ≤ x ∧ x < cx * 8 + 8) ∧ cy * 16 ≤ y ∧ y < cy * 16 + 16
  · have hx8 : x / 8 = cx := by omega
    have hy16 : y / 16 = cy := by omega
    rw [if_pos hin, hx8, hy16, if_pos ⟨hx, hy⟩, if_pos ⟨hx, hy⟩, ← hn, Function.update_self]
    rfl
  · rw [if_neg hin]
    by_cases hcell : x / 8 < cols ∧ y / 16 < rows
    · have hother : y / 16 * cols + x / 8 ≠ t.next := by
        intro e
        have h := index_inj hcell.1 hx (show x / 8 + y / 16 * cols = cx + cy * cols by omega)
        omega
      rw [if_pos hcell, if_pos hcell, Function.update_of_ne hother]
      rfl
    · rw [if_neg hcell, if_neg hcell]
      rfl

/-- A character adds its cell to what the stores so far draw. -/
theorem txt_putc.draws {ss : List Store} (c : Byte) (hs : ts.Shaped)
    (hf : ts.gs.pixfmt = PIXFMT_RGB565) (hb : Buffered ts.gs) (h : At ts t)
    (hd : Draws ts.gs ss (t.picture CH_ROM ts.gs ts.cw.toNat ts.ch.toNat)) :
    Draws ts.gs (ss ++ (txt_putc CH_ROM ts (c.setWidth 32)).2)
      ((t.put ts.cw.toNat ts.ch.toNat c).picture CH_ROM ts.gs ts.cw.toNat ts.ch.toNat) := by
  by_cases hnl : IsNewline (c.setWidth 32)
  · have hc := (isNewline_iff c).mp hnl
    unfold txt_putc Terminal.put
    rw [if_pos hnl, if_pos hc, List.append_nil]
    exact hd
  · have hc : ¬ (c = 13 ∨ c = 10) := fun e => hnl ((isNewline_iff c).mpr e)
    obtain ⟨hcell, hstores⟩ :=
      (@txt_putc.visible CH_ROM ts (c.setWidth 32) hs h.inside (Or.inl hf)).resolve_left hnl
    obtain ⟨hx, hy⟩ := h.inside
    obtain ⟨hx8, hy16⟩ := cell_at hs h.inside
    have hglyph := @glyph.draws CH_ROM ts.gs _ _ hb hcell (c.setWidth 32)
      (fun x y => (ink CH_ROM ts.gs (c.toNat * 16 + y % 16) (x % 8)).setWidth 16) ?_
    · dsimp only at hstores
      rw [hstores]
      rw [hx8, hy16] at hglyph
      apply (hd.append hglyph).congr
      intro x y _ _
      exact picture_put c hx hy h.next hc x y
    · intro i hi j hj
      rw [low_octet, hx8, hy16, Nat.mul_add_mod_of_lt hi, Nat.mul_add_mod_of_lt hj]

/-! ## Every string -/

/-- All stores that were made for the characters so far. -/
def Screen.stores (s : Screen) : List Store := s.written.flatMap (·.stores)

/-- The screen is at the terminal and shows it. -/
structure Shows (CH_ROM : Nat → Byte) (s : Screen) (t : Terminal) : Prop where
  shaped : s.ts.Shaped
  at_next : At s.ts t
  draws : Draws s.ts.gs s.stores (t.picture CH_ROM s.ts.gs s.ts.cw.toNat s.ts.ch.toNat)

variable {s : Screen}

theorem putc.shows (c : Byte) (hf : s.ts.gs.pixfmt = PIXFMT_RGB565) (hb : Buffered s.ts.gs)
    (h : Shows CH_ROM s t) :
    Shows CH_ROM (s.putc CH_ROM (c.setWidth 32)) (t.put s.ts.cw.toNat s.ts.ch.toNat c) := by
  obtain ⟨hgs, hcw, hch⟩ := @txt_putc.shape CH_ROM s.ts (c.setWidth 32)
  refine ⟨txt_putc.shaped _ h.shaped, txt_putc.at c h.at_next, ?_⟩
  have hd := txt_putc.draws c h.shaped hf hb h.at_next h.draws
  have hstores : (s.putc CH_ROM (c.setWidth 32)).stores =
      s.stores ++ (txt_putc CH_ROM s.ts (c.setWidth 32)).2 := by
    simp [Screen.stores, Screen.putc]
  rw [hstores]
  unfold Screen.putc
  dsimp only
  rw [hgs, hcw, hch]
  exact hd

theorem txt_puts.same (str : List Byte) :
    (txt_puts CH_ROM s str).ts.gs = s.ts.gs ∧ (txt_puts CH_ROM s str).ts.cw = s.ts.cw ∧
      (txt_puts CH_ROM s str).ts.ch = s.ts.ch := by
  induction str generalizing s with
  | nil => exact ⟨rfl, rfl, rfl⟩
  | cons c rest ih =>
    unfold txt_puts
    split
    · exact ⟨rfl, rfl, rfl⟩
    · obtain ⟨hgs, hcw, hch⟩ := @txt_putc.shape CH_ROM s.ts (c.setWidth 32)
      obtain ⟨hgs', hcw', hch'⟩ := @ih (s.putc CH_ROM (c.setWidth 32))
      exact ⟨hgs'.trans hgs, hcw'.trans hcw, hch'.trans hch⟩

theorem txt_puts.shows (str : List Byte) (hf : s.ts.gs.pixfmt = PIXFMT_RGB565)
    (hb : Buffered s.ts.gs) (h : Shows CH_ROM s t) :
    Shows CH_ROM (txt_puts CH_ROM s str) (t.puts s.ts.cw.toNat s.ts.ch.toNat (c_str str)) := by
  induction str generalizing s t with
  | nil => exact h
  | cons c rest ih =>
    unfold txt_puts
    by_cases hz : c = 0
    · -- the loop stops at the end of the string
      have hend : c_str (c :: rest) = [] := by simp [c_str, hz]
      rw [if_pos hz, hend]
      exact h
    · obtain ⟨hgs, hcw, hch⟩ := @txt_putc.shape CH_ROM s.ts (c.setWidth 32)
      have hrest := ih (hgs ▸ hf) (hgs ▸ hb) (putc.shows c hf hb h)
      rw [if_neg hz, c_str_cons rest hz]
      unfold Screen.putc at hrest
      dsimp only at hrest
      rw [hcw, hch] at hrest
      exact hrest

end

/-- `txt_init` and then `txt_puts` leave the picture of the terminal that the string was
written to, over the old contents of the buffer. -/
theorem text_is_the_picture_of_a_terminal (CH_ROM : Nat → Byte) (gs : Surface)
    (hf : gs.pixfmt = PIXFMT_RGB565) (hc : OneCell gs) (hb : Buffered gs) (str : List Byte) :
    Draws gs (txt_puts CH_ROM ⟨txt_init (gfx_init gs), []⟩ str).stores
      ((Terminal.blank.puts (gs.width.toNat / 8) (gs.height.toNat / 16) (c_str str)).picture
        CH_ROM gs (gs.width.toNat / 8) (gs.height.toNat / 16)) := by
  obtain ⟨hs, hin⟩ := txt_init.spec hc
  have hfirst : Shows CH_ROM ⟨txt_init (gfx_init gs), []⟩ Terminal.blank := by
    refine ⟨hs, ⟨hin, (Nat.zero_mul _).symm⟩, ?_⟩
    apply Draws.nil.congr
    intro x y _ _
    unfold Terminal.picture
    split <;> rfl
  have hlast := txt_puts.shows str hf ⟨hb.width, hb.fits⟩ hfirst
  obtain ⟨hgs, hcw, hch⟩ := @txt_puts.same CH_ROM ⟨txt_init (gfx_init gs), []⟩ str
  have hd := hlast.draws
  rw [hgs, hcw, hch] at hd
  dsimp only at hd
  rw [hs.width, hs.height] at hd
  exact ⟨hd.entries, hd.off⟩

/-- A surface of two cells side by side. -/
def two_cells : Surface := { one_cell with width := 16, stride := 20 }

/-- A font with one character, the left half of its cell. -/
def left_half (c : Byte) : Nat → Byte := fun i => if i / 16 = c.toNat then 0xF0 else 0

/-- The third character wraps to the first cell and replaces the one there. -/
theorem a_third_character_replaces_the_first :
    pixel two_cells (draw (fun _ => 0x55)
        (txt_puts (left_half 67) ⟨txt_init (gfx_init two_cells), []⟩ [65, 66, 67, 0]).stores) 3 5 =
      0xFFFF ∧
    pixel two_cells (draw (fun _ => 0x55)
        (txt_puts (left_half 67) ⟨txt_init (gfx_init two_cells), []⟩ [65, 66, 67, 0]).stores) 17 5 =
      0x5555 := by
  have h := text_is_the_picture_of_a_terminal (left_half 67) two_cells rfl (by decide)
    ⟨by decide, by decide⟩ [65, 66, 67, 0]
  exact ⟨h.entries _ 3 5 (by decide) (by decide), h.entries _ 17 5 (by decide) (by decide)⟩

end os_workshop.gfx
