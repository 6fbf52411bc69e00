-- The text surface (src/libgfx/src/txt.c). The cursor stays on the surface
-- over every run as long as each `txt_goto` names a row of it, and then
-- every character shows. A row below the last one is not clamped.
import OsWorkshop.DebugPrintf
import OsWorkshop.Gfx

open os_workshop.memory (Byte Word)
open os_workshop.printf (c_str)

namespace os_workshop.gfx

/-! ## The text surface -/

structure TxtSurface where
  gs : Surface
  cw : Word
  ch : Word
  cx : Word
  cy : Word

def txt_init (gs : Surface) : TxtSurface where
  gs := gs
  cw := gs.width / CH_WIDTH
  ch := gs.height / CH_HEIGHT
  cx := 0
  cy := 0

def txt_goto (ts : TxtSurface) (cx cy : Word) : TxtSurface :=
  let cx := if ts.cw ≤ cx then ts.cw - 1 else cx
  -- the source stores the last row in the column, and the row as it came
  let cx := if ts.ch ≤ cy then ts.ch - 1 else cx
  { ts with cx := cx, cy := cy }

/-- The label `newline` of `txt_putc`. -/
def TxtSurface.newline (ts : TxtSurface) : TxtSurface :=
  { ts with cx := 0, cy := if ts.ch ≤ ts.cy + 1 then 0 else ts.cy + 1 }

def IsNewline (ch : Word) : Prop := ch = 13 ∨ ch = 10

instance (ch : Word) : Decidable (IsNewline ch) := inferInstanceAs (Decidable (_ ∨ _))

/-- What the buffer of `len` octets holds after `vsnprintf`, when the format and its
arguments come to `out`. -/
def vsnprintf (len : Nat) (out : List Byte) : List Byte :=
  if len ≤ out.length then out.take (len - 1) ++ [0] else out ++ [0]

/-- The buffer is anywhere in the memory. -/
theorem vsnprintf.spec (m : memory.Mem) (msg : Word) {len : Word} {fmt : List Byte}
    {ap : List printf.Arg} {t : printf.Text} (ht : printf.text fmt ap = some t)
    (hstores : t.stores = []) (hshort : t.chars.length < 2 ^ 31) (hroom : len ≠ 0) :
    printf.vsnprintf m msg len fmt ap =
      some ((t.chars.length : Int), memory.write m msg (vsnprintf len.toNat t.chars)) := by
  rw [printf.vsnprintf_buffer m msg ht hstores hshort hroom]
  unfold vsnprintf
  split
  · rfl
  · rw [List.take_of_length_le (by omega)]

section

variable (CH_ROM : Nat → Byte)

def txt_putc (ts : TxtSurface) (ch : Word) : TxtSurface × List Store :=
  if IsNewline ch then (ts.newline, [])
  else
    let stores := gfx_putc CH_ROM ts.gs (ts.cx * CH_WIDTH) (ts.cy * CH_HEIGHT) ch
    let ts := { ts with cx := ts.cx + 1 }
    (if ts.cw ≤ ts.cx then ts.newline else ts, stores)

/-- A call of `txt_putc`: the surface it found, the character, and what it stored. -/
structure Written where
  ts : TxtSurface
  ch : Word
  stores : List Store

/-- A text surface with the calls of `txt_putc` so far, oldest first. -/
structure Screen where
  ts : TxtSurface
  written : List Written

def Screen.putc (s : Screen) (ch : Word) : Screen where
  ts := (txt_putc CH_ROM s.ts ch).1
  written := s.written ++ [⟨s.ts, ch, (txt_putc CH_ROM s.ts ch).2⟩]

/-- The loop stops at the octet zero. -/
def txt_puts (s : Screen) : List Byte → Screen
  | [] => s
  | c :: rest => if c = 0 then s else txt_puts (s.putc CH_ROM (c.setWidth 32)) rest

def txt_printf (s : Screen) (out : List Byte) : Screen := txt_puts CH_ROM s (vsnprintf 128 out)

/-- The calls of the library. A surface is given to `gfx_init` before `txt_init`. -/
inductive Call
  | txt_init (gs : Surface)
  | txt_goto (cx cy : Word)
  | txt_puts (s : List Byte)
  | txt_printf (out : List Byte)

def Screen.step (s : Screen) : Call → Screen
  | .txt_init gs => { s with ts := txt_init (gfx_init gs) }
  | .txt_goto cx cy => { s with ts := txt_goto s.ts cx cy }
  | .txt_puts t => txt_puts CH_ROM s t
  | .txt_printf out => txt_printf CH_ROM s out

/-- The screen after a first `txt_init` and then the calls `cs`. -/
def run (gs : Surface) (cs : List Call) : Screen :=
  cs.foldl (Screen.step CH_ROM) ⟨txt_init (gfx_init gs), []⟩

end

/-! ## The cursor and the characters -/

/-- A surface of at least one cell. -/
def OneCell (gs : Surface) : Prop := 8 ≤ gs.width.toNat ∧ 16 ≤ gs.height.toNat

instance (gs : Surface) : Decidable (OneCell gs) := inferInstanceAs (Decidable (_ ∧ _))

def TxtSurface.CursorInside (ts : TxtSurface) : Prop := ts.cx < ts.cw ∧ ts.cy < ts.ch

instance (ts : TxtSurface) : Decidable ts.CursorInside := inferInstanceAs (Decidable (_ ∧ _))

/-- A character shows when its cell is on the surface and every pixel of it was stored. -/
def Written.Visible (CH_ROM : Nat → Byte) (w : Written) : Prop :=
  IsNewline w.ch ∨
    CellInside w.ts.gs (w.ts.cx * CH_WIDTH) (w.ts.cy * CH_HEIGHT) ∧
    w.stores = glyph CH_ROM w.ts.gs (w.ts.cx * CH_WIDTH) (w.ts.cy * CH_HEIGHT) w.ch

/-- The cursor is inside and every character so far shows. -/
def Screen.Good (CH_ROM : Nat → Byte) (s : Screen) : Prop :=
  s.ts.CursorInside ∧ ∀ w ∈ s.written, w.Visible CH_ROM

/-- The surface has the one format that characters are drawn in, or there is none to draw. -/
def CanDraw (ts : TxtSurface) (s : List Byte) : Prop :=
  ts.gs.pixfmt = PIXFMT_RGB565 ∨ ∀ c ∈ c_str s, IsNewline (c.setWidth 32)

/-- A row of the surface for `txt_goto`, a format that is drawn for text. -/
def Call.Meets (ts : TxtSurface) : Call → Prop
  | .txt_init _ => True
  | .txt_goto _ cy => cy < ts.ch
  | .txt_puts s => CanDraw ts s
  | .txt_printf out => CanDraw ts (vsnprintf 128 out)

/-! ## The shape of a text surface -/

/-- What `txt_init` and `gfx_init` set up, and no other call touches. -/
structure TxtSurface.Shaped (ts : TxtSurface) : Prop where
  one_cell : OneCell ts.gs
  columns : ts.cw = ts.gs.width / CH_WIDTH
  rows : ts.ch = ts.gs.height / CH_HEIGHT
  routine : ts.gs.putc = if ts.gs.pixfmt = PIXFMT_RGB565 then .putc16 else .putc0

theorem txt_init.spec {gs : Surface} (h : OneCell gs) :
    (txt_init (gfx_init gs)).Shaped ∧ (txt_init (gfx_init gs)).CursorInside := by
  refine ⟨⟨h, rfl, rfl, rfl⟩, ?_, ?_⟩
  · obtain ⟨h1, _⟩ := h
    show (0 : Word) < gs.width / CH_WIDTH
    unfold CH_WIDTH
    rw [BitVec.lt_def, BitVec.toNat_udiv]
    simp
    omega
  · obtain ⟨_, h2⟩ := h
    show (0 : Word) < gs.height / CH_HEIGHT
    unfold CH_HEIGHT
    rw [BitVec.lt_def, BitVec.toNat_udiv]
    simp
    omega

section

variable {CH_ROM : Nat → Byte} {ts : TxtSurface} {s : Screen}

theorem TxtSurface.Shaped.width (h : ts.Shaped) : ts.cw.toNat = ts.gs.width.toNat / 8 := by
  rw [h.columns]
  exact BitVec.toNat_udiv ..

theorem TxtSurface.Shaped.height (h : ts.Shaped) : ts.ch.toNat = ts.gs.height.toNat / 16 := by
  rw [h.rows]
  exact BitVec.toNat_udiv ..

/-- The upper left corner of the cell that the cursor stands on. -/
theorem cell_at (h : ts.Shaped) (hc : ts.CursorInside) :
    (ts.cx * CH_WIDTH).toNat = ts.cx.toNat * 8 ∧ (ts.cy * CH_HEIGHT).toNat = ts.cy.toNat * 16 := by
  obtain ⟨hx, hy⟩ := hc
  rw [BitVec.lt_def, h.width] at hx
  rw [BitVec.lt_def, h.height] at hy
  have hw := ts.gs.width.isLt
  have hh := ts.gs.height.isLt
  rw [BitVec.toNat_mul, BitVec.toNat_mul]
  constructor
  · apply Nat.mod_eq_of_lt
    show ts.cx.toNat * 8 < 2 ^ 32
    omega
  · apply Nat.mod_eq_of_lt
    show ts.cy.toNat * 16 < 2 ^ 32
    omega

/-- A cursor inside stands on a cell that is on the surface. -/
theorem cell_inside (h : ts.Shaped) (hc : ts.CursorInside) :
    CellInside ts.gs (ts.cx * CH_WIDTH) (ts.cy * CH_HEIGHT) := by
  obtain ⟨hcx, hcy⟩ := cell_at h hc
  obtain ⟨hx, hy⟩ := hc
  rw [BitVec.lt_def, h.width] at hx
  rw [BitVec.lt_def, h.height] at hy
  unfold CellInside
  rw [hcx, hcy]
  omega

theorem newline.spec (h : ts.CursorInside) : ts.newline.CursorInside := by
  obtain ⟨hx, hy⟩ := h
  unfold TxtSurface.newline
  refine ⟨by bv_omega, ?_⟩
  dsimp only
  split <;> bv_omega

/-! ## One character -/

theorem txt_putc.shape (ch : Word) :
    (txt_putc CH_ROM ts ch).1.gs = ts.gs ∧ (txt_putc CH_ROM ts ch).1.cw = ts.cw ∧
      (txt_putc CH_ROM ts ch).1.ch = ts.ch := by
  unfold txt_putc TxtSurface.newline
  split
  · exact ⟨rfl, rfl, rfl⟩
  · dsimp only
    split <;> exact ⟨rfl, rfl, rfl⟩

theorem txt_putc.shaped (ch : Word) (h : ts.Shaped) : (txt_putc CH_ROM ts ch).1.Shaped := by
  obtain ⟨h1, h2, h3⟩ := @txt_putc.shape CH_ROM ts ch
  refine ⟨by rw [h1]; exact h.one_cell, by rw [h1, h2]; exact h.columns,
    by rw [h1, h3]; exact h.rows, by rw [h1]; exact h.routine⟩

theorem txt_putc.inside (ch : Word) (h : ts.CursorInside) :
    (txt_putc CH_ROM ts ch).1.CursorInside := by
  unfold txt_putc
  split
  · exact newline.spec h
  · obtain ⟨hx, hy⟩ := h
    dsimp only
    split
    · -- the row is full: the cursor goes to the next one
      have hline := newline.spec ⟨hx, hy⟩
      exact hline
    · rename_i hroom
      refine ⟨?_, hy⟩
      show ts.cx + 1 < ts.cw
      bv_omega

/-- From a cursor inside, a character of the format that is drawn shows. -/
theorem txt_putc.visible (ch : Word) (hs : ts.Shaped) (hc : ts.CursorInside)
    (hf : ts.gs.pixfmt = PIXFMT_RGB565 ∨ IsNewline ch) :
    Written.Visible CH_ROM ⟨ts, ch, (txt_putc CH_ROM ts ch).2⟩ := by
  by_cases hnl : IsNewline ch
  · exact Or.inl hnl
  · have hfmt := hf.resolve_right hnl
    have hcell := cell_inside hs hc
    refine Or.inr ⟨hcell, ?_⟩
    show (txt_putc CH_ROM ts ch).2 = _
    unfold txt_putc gfx_putc
    rw [if_neg hnl, hs.routine, if_pos hfmt]
    exact putc16.spec ch hcell

/-- A picture that is on the surface has pixels. -/
theorem glyph_ne_nil {gs : Surface} {x y : Word} (ch : Word) (h : CellInside gs x y) :
    glyph CH_ROM gs x y ch ≠ [] := by
  intro hnil
  unfold glyph at hnil
  rw [List.flatMap_eq_nil_iff] at hnil
  have hrow := hnil 0 (by simp)
  unfold glyph_row at hrow
  rw [List.flatMap_eq_nil_iff] at hrow
  have hpix := hrow 0 (by simp)
  rw [glyph_pixel _ h (by omega) (by omega)] at hpix
  exact List.cons_ne_nil _ _ hpix

/-- In another format no character shows. -/
theorem txt_putc.not_visible (ch : Word) (hs : ts.Shaped) (hf : ts.gs.pixfmt ≠ PIXFMT_RGB565)
    (hnl : ¬ IsNewline ch) :
    ¬ Written.Visible CH_ROM ⟨ts, ch, (txt_putc CH_ROM ts ch).2⟩ := by
  rintro (h | ⟨hcell, hstores⟩)
  · exact hnl h
  · have hnone : (txt_putc CH_ROM ts ch).2 = [] := by
      unfold txt_putc gfx_putc
      rw [if_neg hnl, hs.routine, if_neg hf]
    exact glyph_ne_nil ch hcell (hstores.symm.trans hnone)

/-! ## Strings -/

theorem c_str_cons {c : Byte} (rest : List Byte) (h : c ≠ 0) :
    c_str (c :: rest) = c :: c_str rest :=
  List.takeWhile_cons_of_pos (decide_eq_true h)

theorem txt_puts.shape (t : List Byte) (hs : s.ts.Shaped) :
    (txt_puts CH_ROM s t).ts.Shaped := by
  induction t generalizing s with
  | nil => exact hs
  | cons c rest ih =>
    unfold txt_puts
    split
    · exact hs
    · exact ih (txt_putc.shaped _ hs)

/-- Text that the surface can draw shows, and leaves the cursor inside. -/
theorem txt_puts.good (t : List Byte) (hs : s.ts.Shaped) (hg : s.Good CH_ROM)
    (hf : CanDraw s.ts t) : (txt_puts CH_ROM s t).Good CH_ROM := by
  induction t generalizing s with
  | nil => exact hg
  | cons c rest ih =>
    unfold txt_puts
    by_cases hz : c = 0
    · rw [if_pos hz]
      exact hg
    · rw [if_neg hz]
      have hstr := c_str_cons rest hz
      have hgs : (s.putc CH_ROM (c.setWidth 32)).ts.gs = s.ts.gs := (txt_putc.shape _).1
      apply ih (txt_putc.shaped _ hs)
      · refine ⟨txt_putc.inside _ hg.1, ?_⟩
        intro w hw
        rcases List.mem_append.mp hw with hw | hw
        · exact hg.2 w hw
        · rw [List.mem_singleton.mp hw]
          apply txt_putc.visible _ hs hg.1
          exact hf.imp id fun h => h c (by simp [hstr])
      · unfold CanDraw
        rw [hgs]
        exact hf.imp id fun h d hd => h d (by rw [hstr]; exact List.mem_cons_of_mem _ hd)

/-- Every character of the string is a call of `txt_putc`. -/
theorem txt_puts.written (t : List Byte) (hs : s.ts.Shaped) :
    (∀ w ∈ s.written, w ∈ (txt_puts CH_ROM s t).written) ∧
    ∀ c ∈ c_str t, ∃ ts : TxtSurface, ts.Shaped ∧ ts.gs = s.ts.gs ∧
      ⟨ts, c.setWidth 32, (txt_putc CH_ROM ts (c.setWidth 32)).2⟩ ∈
        (txt_puts CH_ROM s t).written := by
  induction t generalizing s with
  | nil => exact ⟨fun w hw => hw, by simp [c_str]⟩
  | cons c rest ih =>
    unfold txt_puts
    by_cases hz : c = 0
    · rw [if_pos hz]
      exact ⟨fun w hw => hw, by simp [c_str, hz]⟩
    · rw [if_neg hz]
      have hstr := c_str_cons rest hz
      have hgs : (s.putc CH_ROM (c.setWidth 32)).ts.gs = s.ts.gs := (txt_putc.shape _).1
      obtain ⟨hkeep, hnew⟩ := ih (s := s.putc CH_ROM (c.setWidth 32)) (txt_putc.shaped _ hs)
      refine ⟨fun w hw => hkeep w (List.mem_append_left _ hw), ?_⟩
      intro d hd
      rw [hstr, List.mem_cons] at hd
      rcases hd with rfl | hd
      · exact ⟨s.ts, hs, rfl, hkeep _ (List.mem_append_right _ (List.mem_singleton_self _))⟩
      · obtain ⟨ts, h1, h2, h3⟩ := hnew d hd
        exact ⟨ts, h1, h2.trans hgs, h3⟩

/-- Text that shows was text that the surface can draw. -/
theorem txt_puts.can_draw (t : List Byte) (hs : s.ts.Shaped)
    (hg : (txt_puts CH_ROM s t).Good CH_ROM) : CanDraw s.ts t := by
  by_cases hf : s.ts.gs.pixfmt = PIXFMT_RGB565
  · exact Or.inl hf
  · right
    intro c hc
    by_contra hnl
    obtain ⟨ts, h1, h2, h3⟩ := (txt_puts.written t hs).2 c hc
    exact txt_putc.not_visible _ h1 (by rw [h2]; exact hf) hnl (hg.2 _ h3)

/-! ## One call -/

theorem txt_goto.shaped (cx cy : Word) (h : ts.Shaped) : (txt_goto ts cx cy).Shaped :=
  ⟨h.one_cell, h.columns, h.rows, h.routine⟩

/-- The clamp does what it should exactly when the row needs none. -/
theorem txt_goto.spec (cx cy : Word) (h : ts.Shaped) :
    (txt_goto ts cx cy).CursorInside ↔ cy < ts.ch := by
  constructor
  · exact fun hc => hc.2
  · intro hy
    refine ⟨?_, hy⟩
    have hw := (@txt_init.spec ts.gs h.one_cell).2.1
    have hpos : (0 : Word) < ts.cw := h.columns ▸ hw
    have hrow : ¬ ts.ch ≤ cy := by bv_omega
    show (if ts.ch ≤ cy then ts.ch - 1 else if ts.cw ≤ cx then ts.cw - 1 else cx) < ts.cw
    rw [if_neg hrow]
    split <;> bv_omega

theorem Screen.step_shaped (c : Call) (hc : ∀ gs, c = .txt_init gs → OneCell gs)
    (hs : s.ts.Shaped) : (s.step CH_ROM c).ts.Shaped := by
  cases c with
  | txt_init gs => exact (txt_init.spec (hc gs rfl)).1
  | txt_goto cx cy => exact txt_goto.shaped cx cy hs
  | txt_puts t => exact txt_puts.shape t hs
  | txt_printf out => exact txt_puts.shape _ hs

/-- From a good screen, a call leads to a good one exactly when it meets its condition. -/
theorem Screen.step_good_iff (c : Call) (hc : ∀ gs, c = .txt_init gs → OneCell gs)
    (hs : s.ts.Shaped) (hg : s.Good CH_ROM) :
    (s.step CH_ROM c).Good CH_ROM ↔ c.Meets s.ts := by
  cases c with
  | txt_init gs => exact ⟨fun _ => trivial, fun _ => ⟨(txt_init.spec (hc gs rfl)).2, hg.2⟩⟩
  | txt_goto cx cy =>
    rw [Call.Meets, ← txt_goto.spec cx cy hs]
    exact ⟨fun h => h.1, fun h => ⟨h, hg.2⟩⟩
  | txt_puts t => exact ⟨txt_puts.can_draw t hs, txt_puts.good t hs hg⟩
  | txt_printf out => exact ⟨txt_puts.can_draw _ hs, txt_puts.good _ hs hg⟩

end

/-! ## Every run -/

/-- The cursor after `txt_goto` is the one asked for, or the last column or row. -/
def Clamped (ts : TxtSurface) (cx cy : Word) (ts' : TxtSurface) : Prop :=
  ts'.cx = (if ts.cw ≤ cx then ts.cw - 1 else cx) ∧
  ts'.cy = (if ts.ch ≤ cy then ts.ch - 1 else cy)

theorem txt_goto.clamped {ts : TxtSurface} (cx : Word) {cy : Word} (h : cy < ts.ch) :
    Clamped ts cx cy (txt_goto ts cx cy) := by
  have hrow : ¬ ts.ch ≤ cy := by bv_omega
  constructor
  · show (if ts.ch ≤ cy then ts.ch - 1 else _) = _
    rw [if_neg hrow]
  · rw [if_neg hrow]
    rfl

section

variable {CH_ROM : Nat → Byte} {gs : Surface} {calls pre post : List Call}

theorem run_snoc (c : Call) : run CH_ROM gs (pre ++ [c]) = (run CH_ROM gs pre).step CH_ROM c :=
  List.foldl_concat ..

/-- Every screen of a run on surfaces of at least one cell has its shape. -/
theorem run_shaped (hgs : OneCell gs) (hcs : ∀ g, .txt_init g ∈ pre → OneCell g) :
    (run CH_ROM gs pre).ts.Shaped := by
  induction pre using List.reverseRecOn with
  | nil => exact (txt_init.spec hgs).1
  | append_singleton pre c ih =>
    rw [run_snoc]
    apply Screen.step_shaped
    · rintro g rfl
      exact hcs g (by simp)
    · exact ih fun g hg => hcs g (List.mem_append_left _ hg)

/-- The cursor stays inside, `txt_goto` clamps and every character shows in a run exactly
when each `txt_goto` of it names a row of the surface and text meets a format that is
drawn. -/
theorem text_shows_while_rows_are_on_the_surface (CH_ROM : Nat → Byte) (gs : Surface)
    (calls : List Call) (hgs : OneCell gs) (hcs : ∀ g, .txt_init g ∈ calls → OneCell g) :
    ((∀ pre post, calls = pre ++ post → (run CH_ROM gs pre).Good CH_ROM) ∧
      ∀ pre cx cy post, calls = pre ++ .txt_goto cx cy :: post →
        Clamped (run CH_ROM gs pre).ts cx cy (run CH_ROM gs (pre ++ [.txt_goto cx cy])).ts) ↔
    ∀ pre c post, calls = pre ++ c :: post → c.Meets (run CH_ROM gs pre).ts := by
  have hshaped : ∀ pre post, calls = pre ++ post → (run CH_ROM gs pre).ts.Shaped := by
    rintro pre post rfl
    exact run_shaped hgs fun g hg => hcs g (List.mem_append_left _ hg)
  have hcell : ∀ pre c post, calls = pre ++ c :: post → ∀ g, c = .txt_init g → OneCell g := by
    rintro pre c post rfl g rfl
    exact hcs g (by simp)
  constructor
  · rintro ⟨hgood, _⟩ pre c post h
    have hnext := hgood (pre ++ [c]) post (by rw [h]; simp)
    rw [run_snoc] at hnext
    exact (Screen.step_good_iff c (hcell pre c post h) (hshaped pre _ h) (hgood pre _ h)).mp hnext
  · intro hmeets
    constructor
    · intro pre
      induction pre using List.reverseRecOn with
      | nil => exact fun _ _ => ⟨(txt_init.spec hgs).2, by simp [run]⟩
      | append_singleton pre c ih =>
        intro post h
        have h' : calls = pre ++ c :: post := by rw [h]; simp
        rw [run_snoc]
        exact (Screen.step_good_iff c (hcell pre c post h') (hshaped pre _ h') (ih _ h')).mpr
          (hmeets pre c post h')
    · intro pre cx cy post h
      rw [run_snoc]
      exact txt_goto.clamped cx (hmeets pre _ post h)

end

/-! ## A row below the last one -/

/-- A surface of one cell. -/
def one_cell : Surface where
  width := 8
  height := 16
  stride := 8
  pixels := 0x40000000
  pixfmt := PIXFMT_RGB565
  fgcolor := 0xFFFF
  bgcolor := 0
  plot := .plot16
  hline := .hline16
  putc := .putc16

def solid : Nat → Byte := fun _ => 0xFF

theorem a_column_beyond_the_last_one_shows :
    (run solid one_cell [.txt_goto 7 0]).Good solid ∧ (run solid one_cell [.txt_goto 7 0]).ts.cx = 0 := by
  have h := (text_shows_while_rows_are_on_the_surface solid one_cell [.txt_goto 7 0] (by decide)
    (by simp)).mpr ?_
  · exact ⟨h.1 _ [] rfl, (h.2 [] 7 0 [] rfl).1⟩
  · intro pre c post hpre
    obtain ⟨rfl, rfl, _⟩ : pre = [] ∧ c = .txt_goto 7 0 ∧ post = [] := by
      rcases pre with _ | ⟨p, pre⟩
      · simpa [eq_comm] using hpre
      · simp at hpre
    show (0 : Word) < (16 : Word) / 16
    decide

/-- The row 5 of a surface of one row is kept, and the next character is dropped. -/
theorem a_row_below_the_last_one_drops_a_character :
    OneCell one_cell ∧ one_cell.pixfmt = PIXFMT_RGB565 ∧
    ¬ (run solid one_cell [.txt_goto 0 5]).ts.CursorInside ∧
    (run solid one_cell [.txt_goto 0 5, .txt_puts [65]]).written.map (·.stores) = [[]] := by
  decide

end os_workshop.gfx
