-- The picture that the four threads of src/example/ex10-threads-cooperative.c and
-- ex11-threads-preemptive.c draw together. In whatever order their stores are interleaved, it is
-- the one that a single `render` of the whole display draws.
import OsWorkshop.Interleavings
import OsWorkshop.Mandelbrot
import OsWorkshop.Terminal

open os_workshop.memory (Byte Word Mem write write_in write_out)
open os_workshop.interleavings

namespace os_workshop.gfx

/-! ## Stores that are interleaved -/

/-- The store is one to the byte at `a`. -/
abbrev Touches (a : Word) (s : Store) : Prop := memory.dist s.1 a < 2

section

variable {m m' : Mem} {a : Word} {ss ts : List Store}

theorem draw_cons (m : Mem) (s : Store) (ss : List Store) :
    draw m (s :: ss) = draw (write m s.1 (le16 s.2)) ss := rfl

theorem write_touched {s : Store} (h : Touches a s) :
    write m s.1 (le16 s.2) a = write m' s.1 (le16 s.2) a := by
  rw [write_in _ _ _ (le16 s.2) h, write_in _ _ _ (le16 s.2) h]

theorem write_untouched {s : Store} (h : ¬ Touches a s) : write m s.1 (le16 s.2) a = m a :=
  write_out _ _ _ _ (Nat.le_of_not_lt h)

/-- A byte depends on no other byte. -/
theorem draw_congr (h : m a = m' a) : draw m ss a = draw m' ss a := by
  induction ss generalizing m m' with
  | nil => exact h
  | cons s ss ih =>
    rw [draw_cons, draw_cons]
    apply ih
    by_cases hs : Touches a s
    · exact write_touched hs
    · rw [write_untouched hs, write_untouched hs, h]

/-- Only the stores to a byte count for it. -/
theorem draw_filter (m : Mem) (ss : List Store) :
    draw m ss a = draw m (ss.filter (Touches a)) a := by
  induction ss generalizing m with
  | nil => rfl
  | cons s ss ih =>
    by_cases hs : Touches a s
    · rw [List.filter_cons_of_pos (by simpa using hs), draw_cons, draw_cons, ih]
    · rw [List.filter_cons_of_neg (by simpa using hs), draw_cons, ← ih]
      exact draw_congr (write_untouched hs)

/-- A byte that is stored to does not keep what was there. -/
theorem draw_touched {s : Store} (hs : s ∈ ss) (h : Touches a s) :
    draw m ss a = draw m' ss a := by
  induction ss generalizing m m' with
  | nil => cases hs
  | cons s' ss ih =>
    rw [draw_cons, draw_cons]
    rcases List.mem_cons.mp hs with rfl | hmem
    · exact draw_congr (write_touched h)
    · exact ih hmem

/-- A byte that always stays is not stored to. -/
theorem untouched (h : ∀ m, draw m ss a = m a) : ∀ s ∈ ss, ¬ Touches a s := by
  intro s hs htouch
  have hsame : draw (fun _ => 0) ss a = draw (fun _ => 1) ss a := draw_touched hs htouch
  rw [h, h] at hsame
  exact absurd hsame (by decide)

/-- Of a byte that only one thread stores to, the threads make what that one makes. -/
theorem draw_interleaved {ι : Type} [DecidableEq ι] {ts : ι → List Store}
    (h : Interleaving ts ss) (i : ι) (hothers : ∀ j ≠ i, ∀ m, draw m (ts j) a = m a) (m : Mem) :
    draw m ss a = draw m (ts i) a := by
  have hfilter := h.filter (Touches a) i fun j hj s hs => by
    simpa using untouched (hothers j hj) s hs
  rw [draw_filter, hfilter, ← draw_filter]

end

/-! ## Pictures that are interleaved -/

section

variable {gs : Surface} {x y : Nat} {p : Picture} {ss ss' : List Store}

/-- The entry holds the byte. -/
def InEntry (gs : Surface) (x y : Nat) (a : Word) : Prop :=
  x < gs.stride.toNat ∧ y < gs.height.toNat ∧ (a = entry gs x y ∨ a = entry gs x y + 1)

/-- A byte of the buffer is in an entry. -/
theorem byte_in_entry (hb : Buffered gs) {a : Word} (h : ¬ OffBuffer gs a) :
    ∃ x y, InEntry gs x y a := by
  unfold OffBuffer at h
  have hlt := Nat.lt_of_not_le h
  have hpos : 0 < gs.stride.toNat := by
    by_contra h0
    have hzero : gs.stride.toNat = 0 := by omega
    rw [hzero] at hlt
    omega
  have hx := Nat.mod_lt (memory.dist gs.pixels a / 2) hpos
  have hy : memory.dist gs.pixels a / 2 / gs.stride.toNat < gs.height.toNat :=
    Nat.div_lt_of_lt_mul (by omega)
  have hentry := entry_toNat hb hx hy
  have hindex : memory.dist gs.pixels a / 2 % gs.stride.toNat +
      memory.dist gs.pixels a / 2 / gs.stride.toNat * gs.stride.toNat =
        memory.dist gs.pixels a / 2 := Nat.mod_add_div' ..
  rw [hindex] at hentry
  have hfits := hb.fits
  refine ⟨_, _, hx, hy, ?_⟩
  generalize entry gs (memory.dist gs.pixels a / 2 % gs.stride.toNat) _ = e at hentry
  unfold memory.dist at hentry hlt
  bv_omega

theorem byte_of_pixel {m m' : Mem} {a : Word} (ha : InEntry gs x y a)
    (h : pixel gs m x y = pixel gs m' x y) : m a = m' a := by
  unfold pixel ld16 at h
  have hlo : ∀ b b' : Byte, (b ++ b' : BitVec 16).extractLsb' 0 8 = b' :=
    fun _ _ => BitVec.extractLsb'_append_eq_right
  have hhi : ∀ b b' : Byte, (b ++ b' : BitVec 16).extractLsb' 8 8 = b :=
    fun _ _ => BitVec.extractLsb'_append_eq_left
  rcases ha.2.2 with rfl | rfl
  · have hlow := congrArg (BitVec.extractLsb' 0 8) h
    rwa [hlo, hlo] at hlow
  · have hhigh := congrArg (BitVec.extractLsb' 8 8) h
    rwa [hhi, hhi] at hhigh

theorem pixel_of_bytes {m m' : Mem} (hx : x < gs.stride.toNat) (hy : y < gs.height.toNat)
    (h : ∀ a, InEntry gs x y a → m a = m' a) : pixel gs m x y = pixel gs m' x y := by
  unfold pixel ld16
  rw [h _ ⟨hx, hy, .inl rfl⟩, h _ ⟨hx, hy, .inr rfl⟩]

/-- A picture is a memory. -/
theorem Draws.same (hb : Buffered gs) (hs : Draws gs ss p) (hs' : Draws gs ss' p) (m : Mem) :
    draw m ss = draw m ss' := by
  funext a
  by_cases ha : OffBuffer gs a
  · rw [hs.off m a ha, hs'.off m a ha]
  · obtain ⟨x, y, hin⟩ := byte_in_entry hb ha
    apply byte_of_pixel hin
    rw [hs.entries m x y hin.1 hin.2.1, hs'.entries m x y hin.1 hin.2.1]

/-- Threads whose pictures do not overlap draw them all, in any order. -/
theorem Draws.interleaved {ι : Type} [DecidableEq ι] [Nonempty ι] {ts : ι → List Store}
    {ps : ι → Picture} (hts : ∀ i, Draws gs (ts i) (ps i)) (h : Interleaving ts ss)
    (hp : ∀ x y, ∃ i, p x y = ps i x y ∧ ∀ j ≠ i, ps j x y = none) : Draws gs ss p := by
  constructor
  · intro m x y hx hy
    obtain ⟨i, heq, hothers⟩ := hp x y
    rw [heq, ← (hts i).entries m x y hx hy]
    apply pixel_of_bytes hx hy
    intro a ha
    refine draw_interleaved h i (fun j hj m => ?_) m
    apply byte_of_pixel ha
    rw [(hts j).entries m x y hx hy, hothers j hj]
    rfl
  · intro m a ha
    obtain ⟨i⟩ := ‹Nonempty ι›
    rw [draw_interleaved h i (fun j _ m => (hts j).off m a ha) m, (hts i).off m a ha]

end

/-! ## Text (src/libgfx/src/gfx.c) -/

section

variable (CH_ROM : Nat → Byte) (gs : Surface)

def color16 (c : Word) : Word :=
  ((c >>> 3) &&& 0x1F) ||| (((c >>> 10) &&& 0x3F) <<< 5) ||| (((c >>> 19) &&& 0x1F) <<< 11)

/-- The member `color` is the one for the format. -/
def gfx_color (c : Word) : Word := if gs.pixfmt = PIXFMT_RGB565 then color16 c else 0

/-- The string ends with a NUL. -/
def gfx_puts (y : Word) : Word → List Byte → List Store
  | _, [] => []
  | x, c :: s =>
    if c = 0 then []
    else gfx_putc CH_ROM gs x y (c.setWidth 32) ++ gfx_puts y (x + CH_WIDTH) s

def C_BLACK : Word := 0x00000000
def C_WHITE : Word := 0x00FFFFFF
def C_GRAY25 : Word := 0x00404040
def C_GRAY50 : Word := 0x00808080
def C_GRAY75 : Word := 0x00C0C0C0

/-- The surface before its colours are set has any. -/
def gfx_init_display : Surface :=
  let gs := gfx_init {
    width := 640, height := 480, stride := 640, pixels := 0x40C00000, pixfmt := PIXFMT_RGB565,
    fgcolor := 0, bgcolor := 0, plot := .plot0, hline := .hline0, putc := .putc0 }
  { gs with fgcolor := gfx_color gs C_WHITE, bgcolor := gfx_color gs C_BLACK }

variable {CH_ROM gs}

/-- A line of text that fits stays in its cells. -/
theorem gfx_puts.draws (hb : Buffered gs) (hp : gs.putc = .putc16) (s : List Byte) {x y : Word}
    (hx : x.toNat + 8 * s.length ≤ gs.width.toNat) (hy : y.toNat + 16 ≤ gs.height.toNat) :
    ∃ p, Draws gs (gfx_puts CH_ROM gs y x s) p ∧
      ∀ x' y', p x' y' ≠ none → (x.toNat ≤ x' ∧ x' < x.toNat + 8 * s.length) ∧
        y.toNat ≤ y' ∧ y' < y.toNat + 16 := by
  induction s generalizing x with
  | nil => exact ⟨_, Draws.nil, fun _ _ h => absurd rfl h⟩
  | cons c s ih =>
    rw [List.length_cons] at hx ⊢
    have hwidth := gs.width.isLt
    have hnext : (x + CH_WIDTH).toNat = x.toNat + 8 := by
      unfold CH_WIDTH
      bv_omega
    have hcell : CellInside gs x y := ⟨by omega, hy⟩
    unfold gfx_puts
    split
    · exact ⟨_, Draws.nil, fun _ _ h => absurd rfl h⟩
    · obtain ⟨p, hdraws, hin⟩ := ih (by rw [hnext]; omega)
      have hputc : gfx_putc CH_ROM gs x y (c.setWidth 32) = glyph CH_ROM gs x y (c.setWidth 32) := by
        rw [← putc16.spec _ hcell]
        unfold gfx_putc
        rw [hp]
      have hglyph := @glyph.draws CH_ROM gs x y hb hcell (c.setWidth 32)
        (fun x' y' => (ink CH_ROM gs (((c.setWidth 32 : Word) &&& 0xFF).toNat * 16 +
          (y' - y.toNat)) (x' - x.toNat)).setWidth 16) (by intro i _ j _; simp)
      rw [hputc]
      refine ⟨_, hglyph.append hdraws, ?_⟩
      intro x' y' hne
      unfold Picture.over area at hne
      by_cases hpx : p x' y' = none
      · rw [hpx] at hne
        split at hne
        · omega
        · exact absurd rfl hne
      · have := hin x' y' hpx
        omega

end

end os_workshop.gfx

namespace os_workshop.mandelbrot

open os_workshop.gfx

/-! ## The four threads -/

inductive Thread
  | t1 | t2 | t3 | t4
  deriving DecidableEq

/-- What each of them does: it fills its part, writes its name at the bottom, and renders. -/
def demo (CH_ROM : Nat → Byte) (gs : Surface) (x0 y0 x1 y1 c : Word) (name : String) :
    Option (List Store) := do
  let fill ← gfx_fill gs x0 y0 x1 y1 (gfx_color gs c)
  let text := gfx_puts CH_ROM gs (y1 - 16) x0 (name.toList.map fun c => BitVec.ofNat 8 c.toNat)
  return fill ++ text ++ (← render gs x0 y0 x1 y1)

def Thread.fn (CH_ROM : Nat → Byte) (gs : Surface) : Thread → Option (List Store)
  | t1 => demo CH_ROM gs 0 0 320 240 C_WHITE "Thread One"
  | t2 => demo CH_ROM gs 320 240 640 480 C_GRAY75 "Thread Two"
  | t3 => demo CH_ROM gs 320 0 640 240 C_GRAY25 "Thread Three"
  | t4 => demo CH_ROM gs 0 240 320 480 C_GRAY50 "Thread Four"

section

variable {CH_ROM : Nat → Byte} {gs : Surface} {x0 y0 x1 y1 : Word}

/-- In the end a thread has painted its part, and nothing else. -/
theorem demo.draws (hb : Buffered gs) (hf : Fits gs) (hfmt : gs.plot = .plot16)
    (hh : gs.hline = .hline16) (hp : gs.putc = .putc16) (hx1 : x1 ≤ gs.width)
    (hy1 : y1 ≤ gs.height) (hy : y0.toNat + 16 ≤ y1.toNat) (c : Word) (name : String)
    (hx : x0.toNat + 8 * name.toList.length ≤ x1.toNat) :
    ∃ ss, demo CH_ROM gs x0 y0 x1 y1 c name = some ss ∧
      Draws gs ss (area (Box gs x0.toNat y0.toNat x1.toNat y1.toNat) (colour gs)) := by
  rw [BitVec.le_def] at hx1 hy1
  have hbottom : (y1 - 16).toNat = y1.toNat - 16 := by bv_omega
  obtain ⟨p, htext, hin⟩ := @gfx_puts.draws CH_ROM gs hb hp
    (name.toList.map fun c => BitVec.ofNat 8 c.toNat) x0 (y1 - 16) (by rw [List.length_map]; omega) (by omega)
  obtain ⟨pixels, hrender, hpixels⟩ := render.draws gs x0 y0 x1 y1 hb hf hfmt hx1 hy1
  have hfill := @plot_rows.draws gs x0 y0 x1 y1 hb hfmt (gfx_color gs c)
  refine ⟨_, ?_, ((hfill.append htext).append hpixels).congr ?_⟩
  · unfold demo
    rw [gfx_fill.spec hb hfmt hh, hrender]
    rfl
  · intro x y _ _
    rw [List.length_map] at hin
    by_cases hbox : Box gs x0.toNat y0.toNat x1.toNat y1.toNat x y
    · simp only [Picture.over, area, if_pos hbox]
      rfl
    · have hnone : p x y = none := by
        by_contra hne
        have := hin x y hne
        unfold Box at hbox
        omega
      simp only [Picture.over, area, if_neg hbox, hnone]
      rfl

end

/-- The upper left corner of a thread's part of the display. -/
def Thread.corner : Thread → Nat × Nat
  | t1 => (0, 0)
  | t2 => (320, 240)
  | t3 => (320, 0)
  | t4 => (0, 240)

abbrev Thread.Part (t : Thread) : Nat → Nat → Prop :=
  Box gfx_init_display t.corner.1 t.corner.2 (t.corner.1 + 320) (t.corner.2 + 240)

theorem display_buffered : Buffered gfx_init_display := ⟨by decide, by decide⟩

theorem display_fits : Fits gfx_init_display := ⟨by decide, by decide⟩

theorem Thread.draws (CH_ROM : Nat → Byte) (t : Thread) :
    ∃ ss, t.fn CH_ROM gfx_init_display = some ss ∧
      Draws gfx_init_display ss (area t.Part (colour gfx_init_display)) := by
  cases t
  all_goals
    exact demo.draws display_buffered display_fits rfl rfl rfl (by decide) (by decide) (by decide)
      _ _ (by decide)

/-- Each pixel of the display is in the part of one thread. -/
theorem one_part (x y : Nat) : ∃ t : Thread, (Box gfx_init_display 0 0 640 480 x y ↔ t.Part x y) ∧
    ∀ u ≠ t, ¬ u.Part x y := by
  refine ⟨if x < 320 then if y < 240 then .t1 else .t4 else if y < 240 then .t3 else .t2,
    ?_, fun u hu => ?_⟩
  · split_ifs
    all_goals
      unfold Thread.Part Box Thread.corner
      dsimp only
      omega
  · split_ifs at hu
    all_goals
      cases u
      all_goals
        unfold Thread.Part Box Thread.corner
        first
          | exact absurd rfl hu
          | dsimp only
            omega

/-- Each of the four threads is over after finitely many stores, and whatever order these are
interleaved in (one after another, for one), they leave the memory that a single `render` of the
whole display leaves. It has each pixel in the colour of its orbit. -/
theorem four_threads_paint_one_picture (CH_ROM : Nat → Byte) :
    ∃ (ts : Thread → List Store) (whole : List Store),
      (∀ t, t.fn CH_ROM gfx_init_display = some (ts t)) ∧
      render gfx_init_display 0 0 640 480 = some whole ∧
      Draws gfx_init_display whole
        (area (Box gfx_init_display 0 0 640 480) (colour gfx_init_display)) ∧
      Interleaving ts (ts .t1 ++ (ts .t2 ++ (ts .t3 ++ ts .t4))) ∧
      ∀ ss, Interleaving ts ss → ∀ m, draw m ss = draw m whole := by
  choose ts hts hdraws using Thread.draws CH_ROM
  obtain ⟨whole, hwhole, hpicture⟩ := render.draws gfx_init_display 0 0 640 480
    display_buffered display_fits rfl (by decide) (by decide)
  have horder := interleaving_of_order [.t1, .t2, .t3, .t4] ts (by decide)
    fun t ht => by cases t <;> simp at ht
  refine ⟨ts, whole, hts, hwhole, hpicture, by simpa using horder, fun ss hss m => ?_⟩
  have hall : Draws gfx_init_display ss
      (area (Box gfx_init_display 0 0 640 480) (colour gfx_init_display)) := by
    have : Nonempty Thread := ⟨.t1⟩
    apply Draws.interleaved hdraws hss
    intro x y
    obtain ⟨t, ht, hothers⟩ := one_part x y
    exact ⟨t, if_congr ht rfl rfl, fun u hu => if_neg (hothers u hu)⟩
  exact hall.same display_buffered hpicture m

end os_workshop.mandelbrot
