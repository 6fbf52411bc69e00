-- The line that is typed at the monitor (console_char of src/boot/boot.c): what
-- is kept in `cmdbuf`, what `console_line` gets, and what a terminal shows of it.
import OsWorkshop.ConsoleLine

open os_workshop.memory (Byte Word)
open os_workshop.rv32 (Data)
open os_workshop.monitor (MAXTOK)

namespace os_workshop.console

/-! ## The buffer -/

structure Cmdline where
  cmdbuf : List Byte
  cmdlen : Nat

def Cmdline.start : Cmdline where
  cmdbuf := List.replicate 128 0
  cmdlen := 0

/-- What a character leads to. -/
inductive Shown
  /-- `console_char` puts it out. -/
  | echo (c : Byte)
  /-- `console_line` is called with the buffer. -/
  | line (cmdbuf : List Byte)
  /-- `console_line` does it. -/
  | effect (e : Effect)

section

variable (T : Commands) (d : Data) (token : List Nat)

/-- The CSRs that it saves around `console_line` are left to the model of the whole monitor. -/
def console_char (ch : Word) (s : Cmdline) : Option (Cmdline × List Shown) :=
  if ch = 0x0D ∨ ch = 0x0A then do
    let cmdbuf ← store s.cmdbuf s.cmdlen 0
    let (cmdbuf', done) ← console_line T d token cmdbuf
    some (⟨cmdbuf', 0⟩, [.echo 0x0D, .echo 0x0A, .line cmdbuf] ++ done.map .effect)
  else if ch = 8 ∨ ch = 127 then
    if s.cmdlen > 0 then
      some ({ s with cmdlen := s.cmdlen - 1 }, [.echo 8, .echo 0x20, .echo 8])
    else some (s, [.echo 7])
  else if ch < 0x20 ∨ ch > 127 then some (s, [])
  else if s.cmdlen = 128 - 1 then some (s, [.echo 7])
  else do
    let cmdbuf ← store s.cmdbuf s.cmdlen (ch.setWidth 8)
    some (⟨cmdbuf, s.cmdlen + 1⟩, [.echo (ch.setWidth 8)])

/-- One character after another. -/
def serve : List Word → Cmdline → Option (Cmdline × List Shown)
  | [], s => some (s, [])
  | ch :: chs, s => do
    let (s, shown) ← console_char T d token ch s
    let (s, more) ← serve chs s
    some (s, shown ++ more)

end

/-! ## The editing rules -/

/-- The text after a character that does not end the line. -/
def edit (text : List Byte) (ch : Word) : List Byte :=
  if 32 ≤ ch ∧ ch ≤ 126 then
    if text.length = 127 then text else text ++ [ch.setWidth 8]
  else if ch = 8 ∨ ch = 127 then text.dropLast
  else text

def EndsLine (ch : Word) : Prop := ch = 0x0D ∨ ch = 0x0A

instance (ch : Word) : Decidable (EndsLine ch) := inferInstanceAs (Decidable (_ ∨ _))

/-- The lines that are complete, and the text after the last of them. -/
structure Typed where
  lines : List (List Byte)
  text : List Byte

def Typed.next (t : Typed) (ch : Word) : Typed :=
  if EndsLine ch then ⟨t.lines ++ [t.text], []⟩ else ⟨t.lines, edit t.text ch⟩

def typed (chs : List Word) : Typed := chs.foldl Typed.next ⟨[], []⟩

/-! ## The terminal -/

/-- A line of a terminal that does not wrap. Column 0 is where the prompt ends. -/
structure Screen where
  cells : Int → Byte
  cursor : Int

def Screen.blank : Screen where
  cells := fun _ => 0x20
  cursor := 0

def Screen.put (s : Screen) (c : Byte) : Screen :=
  if 32 ≤ c ∧ c ≤ 126 then ⟨Function.update s.cells s.cursor c, s.cursor + 1⟩
  else if c = 8 then ⟨s.cells, s.cursor - 1⟩
  else s

/-- What the terminal shows since the last prompt. -/
def Screen.after (s : Screen) : Shown → Screen
  | .echo c => s.put c
  | .effect .prompt => .blank
  | .effect _ | .line _ => s

def screen (shown : List Shown) : Screen := shown.foldl Screen.after .blank

/-- The text stands to the left of the cursor, and blanks do to the right. -/
structure Screen.Shows (s : Screen) (text : List Byte) : Prop where
  cursor : s.cursor = text.length
  cells : ∀ k : Int, s.cells k = if 0 ≤ k then text.getD k.toNat 0x20 else 0x20

/-- The strings that `console_line` was called with. -/
def executed (shown : List Shown) : List (Option (List Byte)) :=
  shown.filterMap fun
    | .line cmdbuf => some (cstr cmdbuf 0)
    | _ => none

theorem Screen.blank.shows : Screen.blank.Shows [] := by
  refine ⟨rfl, ?_⟩
  intro k
  simp [Screen.blank]

/-! ## Characters on the terminal -/

section

variable {s : Screen} {text : List Byte} {c : Byte}

theorem getD_concat (text : List Byte) (c : Byte) {k : Int} (hk : k ≠ text.length) (h0 : 0 ≤ k) :
    (text ++ [c]).getD k.toNat 0x20 = text.getD k.toNat 0x20 := by
  rcases Nat.lt_trichotomy k.toNat text.length with h | h | h
  · rw [List.getD_append _ _ _ _ h]
  · omega
  · rw [List.getD_eq_default _ _ (by simp; omega), List.getD_eq_default _ _ (by omega)]

/-- A printable character is added. -/
theorem Screen.Shows.push (h : s.Shows text) (hc : 32 ≤ c ∧ c ≤ 126) :
    (s.put c).Shows (text ++ [c]) := by
  unfold Screen.put
  rw [if_pos hc]
  refine ⟨by simp [h.cursor], ?_⟩
  intro k
  dsimp only
  rw [h.cursor]
  by_cases hk : k = text.length
  · subst hk
    simp
  · rw [Function.update_of_ne hk, h.cells]
    split_ifs with h0
    · exact (getD_concat text c hk h0).symm
    · rfl

theorem Screen.Shows.keep (h : s.Shows text) (h8 : c ≠ 8) (hc : ¬ (32 ≤ c ∧ c ≤ 126)) :
    (s.put c).Shows text := by
  unfold Screen.put
  rwa [if_neg hc, if_neg h8]

/-- Back, a blank over the last character, and back again. -/
theorem Screen.Shows.erase (h : s.Shows text) (hne : text ≠ []) :
    (((s.put 8).put 0x20).put 8).Shows text.dropLast := by
  obtain ⟨t, c, rfl⟩ := (List.eq_nil_or_concat' text).resolve_left hne
  have hput : ((s.put 8).put 0x20).put 8 =
      ⟨Function.update s.cells (s.cursor - 1) 0x20, s.cursor - 1 + 1 - 1⟩ := rfl
  have hcursor : s.cursor - 1 = t.length := by
    rw [h.cursor, List.length_append, List.length_singleton]
    omega
  rw [hput, hcursor, List.dropLast_concat]
  refine ⟨by simp, ?_⟩
  intro k
  dsimp only
  by_cases hk : k = t.length
  · subst hk
    simp
  · rw [Function.update_of_ne hk, h.cells]
    split_ifs with h0
    · exact getD_concat t c hk h0
    · rfl

end

/-! ## The line -/

/-- The buffer begins with the text, and the terminal shows it. -/
structure Good (s : Cmdline) (shown : List Shown) (t : Typed) : Prop where
  cmdlen : s.cmdlen = t.text.length
  cmdbuf : ∃ rest, s.cmdbuf = t.text ++ rest
  room : s.cmdbuf.length = 128
  fits : t.text.length ≤ 127
  printable : ∀ c ∈ t.text, 0x20 ≤ c ∧ c ≤ 0x7E
  lines : executed shown = t.lines.map some
  shows : (screen shown).Shows t.text

theorem Good.start : Good .start [] (typed []) where
  cmdlen := rfl
  cmdbuf := ⟨_, rfl⟩
  room := rfl
  fits := Nat.zero_le _
  printable := fun _ hc => absurd hc List.not_mem_nil
  lines := rfl
  shows := Screen.blank.shows

theorem screen_append (shown more : List Shown) :
    screen (shown ++ more) = more.foldl Screen.after (screen shown) := List.foldl_append

theorem executed_append (shown more : List Shown) :
    executed (shown ++ more) = executed shown ++ executed more :=
  List.filterMap_append

/-- Whatever the line does, the prompt is the last of it. -/
theorem prompt_is_last (T : Commands) (line : List Byte) :
    ∃ done, reference T line = done ++ [.prompt] := by
  unfold reference
  split
  · exact ⟨[], rfl⟩
  · split
    · exact ⟨[_], rfl⟩
    · split
      · exact ⟨[_], rfl⟩
      · exact ⟨[_], rfl⟩

section

variable {T : Commands} {d : Data} {token : List Nat} {s : Cmdline} {shown : List Shown}
  {t : Typed} {ch : Word}

/-- At the end of a line `console_line` gets the text, and the prompt stands on a new line. -/
theorem Good.ends_line (h : Good s shown t) (htoken : token.length = MAXTOK) (hch : EndsLine ch) :
    ∃ s' more, console_char T d token ch s = some (s', more) ∧
      Good s' (shown ++ more) (t.next ch) := by
  obtain ⟨rest, hrest⟩ := h.cmdbuf
  have hroom := h.room
  have hfits := h.fits
  rw [hrest, List.length_append] at hroom
  obtain ⟨c, rest, rfl⟩ := List.exists_cons_of_length_pos (show 0 < rest.length by omega)
  have hstore : store s.cmdbuf s.cmdlen 0 = some (t.text ++ 0 :: rest) := by
    unfold store
    rw [if_pos (by rw [h.room, h.cmdlen]; omega), h.cmdlen, hrest, set_middle]
  obtain ⟨line', hlen, hline⟩ := a_line_is_dispatched_by_its_runs T d htoken rest h.printable
  have hnul : ∀ c ∈ t.text, c ≠ 0 := by
    rintro c hc rfl
    exact absurd (h.printable 0 hc).1 (by decide)
  have hcstr := cstr_middle [] rest hnul
  obtain ⟨done, hdone⟩ := prompt_is_last T t.text
  refine ⟨⟨line' ++ 0 :: rest, 0⟩, [.echo 0x0D, .echo 0x0A, .line (t.text ++ 0 :: rest)] ++
    (reference T t.text).map .effect, ?_, ?_⟩
  · have hend : ch = 0x0D ∨ ch = 0x0A := hch
    unfold console_char
    rw [if_pos hend, hstore]
    simp only [Option.bind_eq_bind, Option.bind_some, hline]
  · unfold Typed.next
    rw [if_pos hch]
    refine ⟨rfl, ⟨_, rfl⟩, ?_, Nat.zero_le _, fun _ hc => absurd hc List.not_mem_nil, ?_, ?_⟩
    · simp only [List.length_append, List.length_cons] at hroom ⊢
      omega
    · have heffects : executed ((reference T t.text).map .effect) = [] := by
        unfold executed
        rw [List.filterMap_map, List.filterMap_eq_nil_iff]
        exact fun _ _ => rfl
      have hone : executed [.echo 0x0D, .echo 0x0A, .line (t.text ++ 0 :: rest)] =
          [cstr (t.text ++ 0 :: rest) 0] := rfl
      rw [executed_append, executed_append, h.lines, hone, heffects, List.append_nil, List.map_append]
      exact congrArg (_ ++ [·]) hcstr
    · rw [hdone, List.map_append, ← List.append_assoc, ← List.append_assoc, screen_append]
      exact Screen.blank.shows

/-- What a character does that leaves the buffer as it is, and the line open. -/
theorem Good.edits (h : Good s shown t) {s' : Cmdline} {more : List Shown} {text : List Byte}
    (hlen : s'.cmdlen = text.length) (hbuf : ∃ rest, s'.cmdbuf = text ++ rest)
    (hroom : s'.cmdbuf.length = 128) (hfits : text.length ≤ 127)
    (hprintable : ∀ c ∈ text, 0x20 ≤ c ∧ c ≤ 0x7E) (hlines : executed more = [])
    (hshows : (more.foldl Screen.after (screen shown)).Shows text) :
    Good s' (shown ++ more) ⟨t.lines, text⟩ := by
  refine ⟨hlen, hbuf, hroom, hfits, hprintable, ?_, ?_⟩
  · rw [executed_append, h.lines, hlines, List.append_nil]
  · rw [screen_append]
    exact hshows

/-- A character that shows nothing, or rings, leaves the text. -/
theorem Good.keeps (h : Good s shown t) (more : List Shown) (hmore : more = [] ∨ more = [.echo 7]) :
    Good s (shown ++ more) t := by
  rcases hmore with rfl | rfl
  · rw [List.append_nil]
    exact h
  · have hbell : ((screen shown).put 7).Shows t.text := h.shows.keep (by decide) (by decide)
    exact h.edits h.cmdlen h.cmdbuf h.room h.fits h.printable rfl hbell

theorem Good.erases (h : Good s shown t) (hne : t.text ≠ []) :
    Good { s with cmdlen := s.cmdlen - 1 } (shown ++ [.echo 8, .echo 0x20, .echo 8])
      ⟨t.lines, t.text.dropLast⟩ := by
  obtain ⟨rest, hrest⟩ := h.cmdbuf
  have hfits := h.fits
  refine h.edits ?_ ⟨t.text.getLast hne :: rest, ?_⟩ h.room ?_ ?_ rfl (h.shows.erase hne)
  · rw [List.length_dropLast, h.cmdlen]
  · rw [List.append_cons, List.dropLast_append_getLast]
    exact hrest
  · rw [List.length_dropLast]
    omega
  · exact fun c hc => h.printable c (List.mem_of_mem_dropLast hc)

theorem Good.appends (h : Good s shown t) {c : Byte} (hc : 0x20 ≤ c ∧ c ≤ 0x7E)
    (hlt : t.text.length ≠ 127) :
    ∃ cmdbuf, store s.cmdbuf s.cmdlen c = some cmdbuf ∧
      Good ⟨cmdbuf, s.cmdlen + 1⟩ (shown ++ [.echo c]) ⟨t.lines, t.text ++ [c]⟩ := by
  obtain ⟨rest, hrest⟩ := h.cmdbuf
  have hroom := h.room
  have hfits := h.fits
  rw [hrest, List.length_append] at hroom
  obtain ⟨r, rest, rfl⟩ := List.exists_cons_of_length_pos (show 0 < rest.length by omega)
  refine ⟨t.text ++ c :: rest, ?_, ?_⟩
  · unfold store
    rw [if_pos (by rw [h.room, h.cmdlen]; omega), h.cmdlen, hrest, set_middle]
  · refine h.edits ?_ ⟨rest, List.append_cons _ _ _⟩ ?_ ?_ ?_ rfl (h.shows.push hc)
    · rw [List.length_append, h.cmdlen]
      rfl
    · simp only [List.length_append, List.length_cons] at hroom ⊢
      omega
    · rw [List.length_append, List.length_singleton]
      omega
    · intro c' hc'
      rcases List.mem_append.mp hc' with hc' | hc'
      · exact h.printable c' hc'
      · rw [List.mem_singleton.mp hc']
        exact hc

/-- Every character keeps this. -/
theorem Good.next (h : Good s shown t) (htoken : token.length = MAXTOK) (ch : Word) :
    ∃ s' more, console_char T d token ch s = some (s', more) ∧
      Good s' (shown ++ more) (t.next ch) := by
  by_cases hend : EndsLine ch
  · exact h.ends_line htoken hend
  · have hopen : ¬ (ch = 0x0D ∨ ch = 0x0A) := hend
    unfold console_char Typed.next edit
    rw [if_neg hopen, if_neg hend]
    by_cases hprint : 32 ≤ ch ∧ ch ≤ 126
    · have h1 : ¬ (ch = 8 ∨ ch = 127) := by bv_omega
      have h2 : ¬ (ch < 0x20 ∨ ch > 127) := by bv_omega
      rw [if_neg h1, if_neg h2, if_pos hprint, h.cmdlen]
      split_ifs with hfull
      · exact ⟨_, _, rfl, h.keeps _ (.inr rfl)⟩
      · have hc : 0x20 ≤ ch.setWidth 8 ∧ ch.setWidth 8 ≤ 0x7E := by bv_omega
        obtain ⟨cmdbuf, hstore, hgood⟩ := h.appends hc hfull
        rw [h.cmdlen] at hstore hgood
        rw [hstore]
        exact ⟨_, _, rfl, hgood⟩
    · rw [if_neg hprint]
      split_ifs with hback hsome hout hfull
      · have hne : t.text ≠ [] := by
          rw [← List.length_pos_iff, ← h.cmdlen]
          exact hsome
        exact ⟨_, _, rfl, h.erases hne⟩
      · have hnil : t.text = [] := by
          rw [← List.length_eq_zero_iff, ← h.cmdlen]
          omega
        have hgood := h.keeps [.echo 7] (.inr rfl)
        refine ⟨_, _, rfl, ?_⟩
        rw [hnil]
        rwa [show t = ⟨t.lines, []⟩ by rw [← hnil]] at hgood
      · exact ⟨_, _, rfl, h.keeps [] (.inl rfl)⟩
      · exact absurd hout (by bv_omega)
      · exact absurd hout (by bv_omega)

/-- Every sequence of characters does. -/
theorem Good.serve (h : Good s shown t) (htoken : token.length = MAXTOK) (chs : List Word) :
    ∃ s' more, serve T d token chs s = some (s', more) ∧
      Good s' (shown ++ more) (chs.foldl Typed.next t) := by
  induction chs generalizing s shown t with
  | nil => exact ⟨s, [], rfl, by rwa [List.append_nil]⟩
  | cons ch chs ih =>
    obtain ⟨s₁, more₁, hrun₁, hgood₁⟩ := h.next (T := T) (d := d) htoken ch
    obtain ⟨s₂, more₂, hrun₂, hgood₂⟩ := ih hgood₁
    refine ⟨s₂, more₁ ++ more₂, ?_, ?_⟩
    · rw [console.serve, hrun₁]
      simp only [Option.bind_eq_bind, Option.bind_some, hrun₂]
    · rw [← List.append_assoc]
      exact hgood₂

end

/-- After every sequence of characters the buffer holds the text that was typed since the last
end of a line, and the terminal shows it; and `console_line` was called with the lines. -/
theorem what_is_shown_is_what_is_executed (T : Commands) (d : Data) {token : List Nat}
    (htoken : token.length = MAXTOK) (chs : List Word) :
    ∃ s shown, serve T d token chs .start = some (s, shown) ∧
      s.cmdlen ≤ 127 ∧ s.cmdbuf.length = 128 ∧ s.cmdbuf.take s.cmdlen = (typed chs).text ∧
      executed shown = (typed chs).lines.map some ∧ (screen shown).Shows (typed chs).text := by
  obtain ⟨s, shown, hrun, h⟩ := Good.start.serve (T := T) (d := d) htoken chs
  obtain ⟨rest, hrest⟩ := h.cmdbuf
  have hfits := h.fits
  have hlen := h.cmdlen
  refine ⟨s, shown, hrun, ?_, h.room, ?_, h.lines, h.shows⟩
  · exact hlen.le.trans hfits
  · rw [hrest, hlen]
    exact List.take_left

/-- The whole monitor keeps its line by the same rules. -/
theorem the_monitor_edits_so (addr : monitor.Symbol → Word) (bus : monitor.Bus) (ch : Word)
    (m : monitor.Console) (lines : List (List Byte)) :
    (monitor.console_char addr bus ch m).g.cmdbuf =
      ((Typed.mk lines m.g.cmdbuf).next ch).text := by
  unfold monitor.console_char Typed.next edit
  by_cases hend : ch = 0x0D ∨ ch = 0x0A
  · have hends : EndsLine ch := hend
    rw [if_pos hend, if_pos hends]
    rfl
  · have hopen : ¬ EndsLine ch := hend
    rw [if_neg hend, if_neg hopen]
    by_cases hprint : 32 ≤ ch ∧ ch ≤ 126
    · have h1 : ¬ (ch = 8 ∨ ch = 127) := by bv_omega
      have h2 : ¬ (ch < 0x20 ∨ 127 < ch) := by bv_omega
      dsimp only
      rw [if_neg h1, if_neg h2, if_pos hprint]
      split_ifs <;> rfl
    · dsimp only
      rw [if_neg hprint]
      split_ifs with hback hsome hout hfull
      · rfl
      · have hnil : m.g.cmdbuf = [] := List.length_eq_zero_iff.mp (by omega)
        change m.g.cmdbuf = m.g.cmdbuf.dropLast
        rw [hnil]
        rfl
      · rfl
      · exact absurd hout (by bv_omega)
      · exact absurd hout (by bv_omega)

/-- `dw`, a space, a letter that is taken back, and a return. -/
theorem a_line_is_typed :
    ∃ s shown, serve some_commands zeroed (List.replicate 16 0) [0x64, 0x77, 0x20, 0x78, 8, 0x0D]
        .start = some (s, shown) ∧
      s.cmdlen ≤ 127 ∧ s.cmdbuf.length = 128 ∧ s.cmdbuf.take s.cmdlen = [] ∧
      executed shown = [some [0x64, 0x77, 0x20]] ∧ (screen shown).Shows [] :=
  what_is_shown_is_what_is_executed some_commands zeroed rfl [0x64, 0x77, 0x20, 0x78, 8, 0x0D]

end os_workshop.console
