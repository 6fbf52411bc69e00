-- The serial line (src/hw/src/debug-io.c). The threads of the program print on it and interrupt
-- each other at any place, and the monitor, which prints too, interrupts them all. What is lost
-- on the way was overtaken between the look at `TXFULL` and the write.
import OsWorkshop.PrintfEngine
import OsWorkshop.Runs

open os_workshop.memory (Byte Word)
open os_workshop.printf (chr c_str)
open os_workshop.runs

namespace os_workshop.serial

/-! ## The code -/

/-- What `xputc` writes to `TX`, each octet after it has seen that `TXFULL` is clear. -/
def xputc (c : Word) : List Byte :=
  if c = (chr '\n').setWidth 32 then [chr '\r', c.setWidth 8] else [c.setWidth 8]

def xputs (s : List Byte) : List Byte := (c_str s).flatMap fun c => xputc (c.setWidth 32)

inductive Call
  | xputc (c : Word)
  | xputs (s : List Byte)

def Call.octets : Call → List Byte
  | .xputc c => serial.xputc c
  | .xputs s => serial.xputs s

/-! ## The system -/

inductive Who
  | thread (n : Nat)
  | monitor
  deriving DecidableEq

/-- Where a thread, or the monitor, is in its call: what it has left to write, and whether the
next of it is written, as `TXFULL` was clear. -/
structure Printer where
  left : List Byte := []
  polled : Bool := false

structure Line where
  printers : Who → Printer
  /-- The monitor has interrupted the program. -/
  active : Bool
  /-- The octets that the UART has, the oldest first, and those that it has sent. -/
  fifo : List (Who × Byte)
  wire : List (Who × Byte)

def Line.start : Line := ⟨fun _ => {}, false, [], []⟩

def Line.put (l : Line) (who : Who) (p : Printer) : Line :=
  { l with printers := fun w => if w = who then p else l.printers w }

/-- The threads run when the monitor does not, and any of them at any time. -/
def Line.Runs (l : Line) (who : Who) : Prop := who = .monitor ↔ l.active = true

inductive Event
  | call (who : Who) (c : Call)
  | poll (who : Who) (full : Bool)
  | write (who : Who) (o : Byte) (taken : Bool)
  | send
  | interrupt
  | ret

/-- One step, with a UART that has room for `depth` octets and drops what is written when it
is full. -/
inductive Step (depth : Nat) : Steps Line Event
  | call {l : Line} {who : Who} {c : Call} :
      l.Runs who → l.printers who = {} → Step depth l (.call who c) (l.put who ⟨c.octets, false⟩)
  | full {l : Line} {who : Who} {o : Byte} {left : List Byte} :
      l.Runs who → l.printers who = ⟨o :: left, false⟩ → depth ≤ l.fifo.length →
      Step depth l (.poll who true) l
  | clear {l : Line} {who : Who} {o : Byte} {left : List Byte} :
      l.Runs who → l.printers who = ⟨o :: left, false⟩ → l.fifo.length < depth →
      Step depth l (.poll who false) (l.put who ⟨o :: left, true⟩)
  | take {l : Line} {who : Who} {o : Byte} {left : List Byte} :
      l.Runs who → l.printers who = ⟨o :: left, true⟩ → l.fifo.length < depth →
      Step depth l (.write who o true)
        { l.put who ⟨left, false⟩ with fifo := l.fifo ++ [(who, o)] }
  | drop {l : Line} {who : Who} {o : Byte} {left : List Byte} :
      l.Runs who → l.printers who = ⟨o :: left, true⟩ → depth ≤ l.fifo.length →
      Step depth l (.write who o false) (l.put who ⟨left, false⟩)
  | send {l : Line} {x : Who × Byte} {fifo : List (Who × Byte)} :
      l.fifo = x :: fifo → Step depth l .send { l with fifo, wire := l.wire ++ [x] }
  | interrupt {l : Line} : l.active = false → Step depth l .interrupt { l with active := true }
  | ret {l : Line} :
      l.active = true → l.printers .monitor = {} → Step depth l .ret { l with active := false }

/-! ## What a run puts on the line -/

/-- What the UART took. -/
def taken (es : List Event) : List (Who × Byte) :=
  es.filterMap fun
    | .write who o true => some (who, o)
    | _ => none

def written (who : Who) (es : List Event) : List Byte :=
  es.filterMap fun
    | .write w o _ => if w = who then some o else none
    | _ => none

/-- The characters of a call. The ones of a string are those before its NUL. -/
def Call.characters : Call → List Word
  | .xputc c => [c]
  | .xputs s => (s.takeWhile (· ≠ 0)).map (·.setWidth 32)

/-- The text of the calls of `who`. -/
def text (who : Who) (es : List Event) : List Word :=
  es.flatMap fun
    | .call w c => if w = who then c.characters else []
    | _ => []

/-- The octets of a text, with a CR in front of each LF. -/
def with_returns : List Word → List Byte
  | [] => []
  | c :: cs => if c = 0x0A then 0x0D :: 0x0A :: with_returns cs else c.setWidth 8 :: with_returns cs

/-- What is to be printed. -/
def said (who : Who) (es : List Event) : List Byte := with_returns (text who es)

/-- The event is a look or a write of `who`. -/
def Event.Of (who : Who) : Event → Prop
  | .poll w _ | .write w _ _ => w = who
  | _ => False

/-- Since `who` has last seen `TXFULL` clear, it did nothing, and another one wrote. -/
def Overtaken (who : Who) (es : List Event) : Prop :=
  ∃ es1 es2, es = es1 ++ .poll who false :: es2 ∧ (∀ e ∈ es2, ¬ e.Of who) ∧
    ∃ w o, w ≠ who ∧ Event.write w o true ∈ es2

theorem taken_append (es es' : List Event) : taken (es ++ es') = taken es ++ taken es' :=
  List.filterMap_append ..

theorem written_append (who : Who) (es es' : List Event) :
    written who (es ++ es') = written who es ++ written who es' := List.filterMap_append ..

theorem with_returns_append (cs cs' : List Word) :
    with_returns (cs ++ cs') = with_returns cs ++ with_returns cs' := by
  induction cs with
  | nil => rfl
  | cons c cs ih =>
    simp only [List.cons_append, with_returns, ih]
    split <;> rfl

theorem said_append (who : Who) (es es' : List Event) :
    said who (es ++ es') = said who es ++ said who es' := by
  unfold said text
  rw [List.flatMap_append, with_returns_append]

theorem xputc_spec (c : Word) : xputc c = with_returns [c] := by
  have hlf : (chr '\n').setWidth 32 = (0x0A : Word) := by decide
  unfold xputc
  rw [hlf]
  by_cases hc : c = 0x0A
  · subst hc
    rfl
  · unfold with_returns
    rw [if_neg hc, if_neg hc]
    rfl

theorem xputs_spec (s : List Byte) :
    xputs s = with_returns ((s.takeWhile (· ≠ 0)).map (·.setWidth 32)) := by
  unfold xputs c_str
  induction s.takeWhile (· ≠ 0) with
  | nil => rfl
  | cons c s ih =>
    rw [List.flatMap_cons, List.map_cons, ih, xputc_spec, ← with_returns_append]
    rfl

/-- A call writes its characters, with the returns in front of the line feeds. -/
theorem Call.octets_spec : (c : Call) → c.octets = with_returns c.characters
  | .xputc c => xputc_spec c
  | .xputs s => xputs_spec s

/-! ## What each step keeps -/

section

variable {depth : Nat} {es : List Event} {e : Event} {l l' : Line} {who : Who}

/-- What is written, and what is left of it, is what was to be printed. -/
theorem Step.order (h : Step depth l e l') (who : Who) :
    (l.printers who).left ++ said who [e] = written who [e] ++ (l'.printers who).left := by
  cases h <;> simp only [said, text, with_returns, written, Line.put, List.flatMap_singleton,
    List.filterMap_cons, List.filterMap_nil, List.append_nil, List.nil_append]
  case call w c hruns hidle =>
    by_cases hw : who = w
    · subst hw
      simp [hidle, c.octets_spec]
    · simp [hw, Ne.symm hw, with_returns]
  case clear w o left hruns hp hlt =>
    by_cases hw : who = w
    · subst hw
      simp [hp]
    · simp [hw]
  case take w o left hruns hp hlt =>
    by_cases hw : who = w
    · subst hw
      simp [hp]
    · simp [hw, Ne.symm hw]
  case drop w o left hruns hp hle =>
    by_cases hw : who = w
    · subst hw
      simp [hp]
    · simp [hw, Ne.symm hw]

theorem Step.conserves (h : Step depth l e l') :
    l'.wire ++ l'.fifo = l.wire ++ l.fifo ++ taken [e] := by
  cases h <;> simp [taken, Line.put, *]

theorem Step.room (h : Step depth l e l') (hroom : l.fifo.length ≤ depth) :
    l'.fifo.length ≤ depth := by
  cases h <;> simp_all [Line.put]
  all_goals omega

/-- The monitor does nothing while the program runs. -/
theorem Step.idle (h : Step depth l e l') (hidle : l.active = false → l.printers .monitor = {}) :
    l'.active = false → l'.printers .monitor = {} := by
  cases h <;> simp_all [Line.put, Line.Runs]
  all_goals
    intro hactive hwho
    simp_all

/-- What the monitor has seen to be clear stays clear, as the program does not run. -/
theorem Step.stays_clear (h : Step depth l e l') (hidle : l.active = false → l.printers .monitor = {})
    (hclear : (l.printers .monitor).polled = true → l.fifo.length < depth) :
    (l'.printers .monitor).polled = true → l'.fifo.length < depth := by
  cases h
  case take w o left hruns hp hlt =>
    cases w with
    | monitor => simp [Line.put]
    | thread n =>
      have hactive : l.active = false := by simpa [Line.Runs] using hruns
      simp [Line.put, hidle hactive]
  case send x fifo hfifo =>
    intro hp
    have hlt := hclear hp
    simp only [hfifo, List.length_cons] at hlt ⊢
    omega
  all_goals
    simp_all [Line.put]
    try (split <;> simp_all)

/-! ## Looks that are out of date -/

/-- `who` has seen `TXFULL` clear, and has done nothing since. -/
def Looked (who : Who) (es : List Event) : Prop :=
  ∃ es1 es2, es = es1 ++ .poll who false :: es2 ∧ ∀ e ∈ es2, ¬ e.Of who

theorem not_of_snoc (h : ∀ e' ∈ es, ¬ e'.Of who) (he : ¬ e.Of who) :
    ∀ e' ∈ es ++ [e], ¬ e'.Of who := by
  intro e' hmem
  rcases List.mem_append.mp hmem with hmem | hmem
  · exact h e' hmem
  · rwa [List.mem_singleton.mp hmem]

theorem Looked.snoc (h : Looked who es) (he : ¬ e.Of who) : Looked who (es ++ [e]) := by
  obtain ⟨es1, es2, rfl, hnot⟩ := h
  exact ⟨es1, es2 ++ [e], by simp, not_of_snoc hnot he⟩

theorem Overtaken.snoc (h : Overtaken who es) (he : ¬ e.Of who) : Overtaken who (es ++ [e]) := by
  obtain ⟨es1, es2, rfl, hnot, w, o, hw, hmem⟩ := h
  exact ⟨es1, es2 ++ [e], by simp, not_of_snoc hnot he, w, o, hw, List.mem_append_left _ hmem⟩

theorem Looked.overtaken (h : Looked who es) {w : Who} (hw : w ≠ who) (o : Byte) :
    Overtaken who (es ++ [.write w o true]) := by
  obtain ⟨es1, es2, rfl, hnot⟩ := h
  have he : ¬ (Event.write w o true).Of who := hw
  exact ⟨es1, es2 ++ [.write w o true], by simp, not_of_snoc hnot he, w, o, hw, by simp⟩

/-- The look is out of date, or there is room. -/
def Fresh (depth : Nat) (who : Who) (es : List Event) (l : Line) : Prop :=
  Overtaken who es ∨ Looked who es ∧ l.fifo.length < depth

theorem Step.fresh (h : Step depth l e l')
    (hfresh : (l.printers who).polled = true → Fresh depth who es l) :
    (l'.printers who).polled = true → Fresh depth who (es ++ [e]) l' := by
  have hkeep : ¬ e.Of who → Fresh depth who es l → l'.fifo.length ≤ l.fifo.length →
      Fresh depth who (es ++ [e]) l' := by
    intro he hf hle
    rcases hf with hover | ⟨hlooked, hlt⟩
    · exact .inl (hover.snoc he)
    · exact .inr ⟨hlooked.snoc he, by omega⟩
  cases h
  case call w c hruns hidle =>
    by_cases hw : who = w
    · simp [Line.put, hw]
    · intro hp
      simp only [Line.put, if_neg hw] at hp
      exact hkeep id (hfresh hp) (Nat.le_refl _)
  case full w o left hruns hwp hle =>
    intro hp
    by_cases hw : who = w
    · subst hw
      simp [hwp] at hp
    · exact hkeep (Ne.symm hw) (hfresh hp) (Nat.le_refl _)
  case clear w o left hruns hwp hlt =>
    intro hp
    by_cases hw : who = w
    · subst hw
      exact .inr ⟨⟨es, [], rfl, by simp⟩, hlt⟩
    · simp only [Line.put, if_neg hw] at hp
      exact hkeep (Ne.symm hw) (hfresh hp) (Nat.le_refl _)
  case take w o left hruns hwp hlt =>
    intro hp
    by_cases hw : who = w
    · simp [Line.put, hw] at hp
    · simp only [Line.put, if_neg hw] at hp
      rcases hfresh hp with hover | ⟨hlooked, -⟩
      · exact .inl (hover.snoc (Ne.symm hw))
      · exact .inl (hlooked.overtaken (Ne.symm hw) o)
  case drop w o left hruns hwp hle =>
    intro hp
    by_cases hw : who = w
    · simp [Line.put, hw] at hp
    · simp only [Line.put, if_neg hw] at hp
      exact hkeep (Ne.symm hw) (hfresh hp) (Nat.le_refl _)
  case send x fifo hfifo =>
    exact fun hp => hkeep id (hfresh hp) (by simp [hfifo])
  case interrupt => exact fun hp => hkeep id (hfresh hp) (Nat.le_refl _)
  case ret => exact fun hp => hkeep id (hfresh hp) (Nat.le_refl _)

/-! ## Runs -/

/-- The state of the line after the events. -/
structure Good (depth : Nat) (es : List Event) (l : Line) : Prop where
  idle : l.active = false → l.printers .monitor = {}
  clear : (l.printers .monitor).polled = true → l.fifo.length < depth
  fresh : ∀ who, (l.printers who).polled = true → Fresh depth who es l
  sent : l.wire ++ l.fifo = taken es
  order : ∀ who, written who es ++ (l.printers who).left = said who es
  lost : ∀ es1 who o es2, es = es1 ++ .write who o false :: es2 →
    who ≠ .monitor ∧ Overtaken who es1

theorem Good.start : Good depth [] .start where
  idle _ := rfl
  clear := by simp [Line.start]
  fresh := by simp [Line.start]
  sent := rfl
  order _ := rfl
  lost := by simp

theorem Good.step (h : Good depth es l) (hs : Step depth l e l') : Good depth (es ++ [e]) l' where
  idle := hs.idle h.idle
  clear := hs.stays_clear h.idle h.clear
  fresh who := hs.fresh (h.fresh who)
  sent := by rw [hs.conserves, h.sent, taken_append]
  order who := by
    rw [written_append, said_append, ← h.order who, List.append_assoc, ← hs.order who,
      ← List.append_assoc]
  lost := by
    intro es1 who o es2 hes
    rcases List.eq_nil_or_concat es2 with rfl | ⟨es2, e', rfl⟩
    · -- it is the last write that was dropped
      obtain ⟨rfl, he⟩ := List.append_inj' hes rfl
      obtain rfl := List.singleton_injective he
      cases hs with
      | drop hruns hp hle =>
        refine ⟨?_, ?_⟩
        · rintro rfl
          have hlt := h.clear (by rw [hp])
          omega
        · rcases h.fresh who (by rw [hp]) with hover | ⟨-, hlt⟩
          · exact hover
          · omega
    · rw [List.concat_eq_append, ← List.cons_append, ← List.append_assoc] at hes
      exact h.lost _ _ _ _ (List.append_inj' hes rfl).1

theorem run_good (h : Run (Step depth) .start es l) : Good depth es l :=
  h.carries Good.start fun _ _ _ _ hg hs => hg.step hs

/-! ## Visits of the monitor -/

/-- The monitor is on its visit: it alone was taken, in order. -/
structure Visit (depth : Nat) (es : List Event) (l : Line) : Prop where
  active : l.active = true
  clear : (l.printers .monitor).polled = true → l.fifo.length < depth
  alone : taken es = (written .monitor es).map fun o => (.monitor, o)
  order : written .monitor es ++ (l.printers .monitor).left = said .monitor es

theorem Visit.step (h : Visit depth es l) (hs : Step depth l e l') (he : e ≠ .ret) :
    Visit depth (es ++ [e]) l' where
  active := by
    cases hs
    case ret => exact absurd rfl he
    all_goals simp [Line.put, h.active]
  clear := hs.stays_clear (by simp [h.active]) h.clear
  alone := by
    rw [taken_append, written_append, h.alone, List.map_append]
    congr 1
    cases hs
    case take w o left hruns hp hlt =>
      obtain rfl : w = .monitor := hruns.mpr h.active
      rfl
    case drop w o left hruns hp hle =>
      obtain rfl : w = .monitor := hruns.mpr h.active
      have hlt := h.clear (by rw [hp])
      omega
    all_goals rfl
  order := by
    rw [written_append, said_append, ← h.order, List.append_assoc, ← hs.order, ← List.append_assoc]

theorem run_visit (h : Run (Step depth) l es l') (hret : .ret ∉ es)
    (hactive : l.active = true) (hidle : l.printers .monitor = {}) : Visit depth es l' := by
  induction h with
  | nil => exact ⟨hactive, by simp [hidle], rfl,
      by simp [hidle, written, said, text, with_returns]⟩
  | snoc _ hlast ih =>
    rw [List.mem_append, not_or] at hret
    exact (ih hret.1).step hlast fun heq => hret.2 (by simp [heq])

/-- In every run, what the UART took goes out in order, everything to be printed is written once
and in order, and what is written to a full UART was overtaken: another one wrote after the look
at `TXFULL`. The monitor is never overtaken, and what it prints on a visit stands together. -/
theorem only_the_overtaken_is_lost (h : Run (Step depth) .start es l) :
    l.wire ++ l.fifo = taken es ∧
      (∀ who, written who es ++ (l.printers who).left = said who es) ∧
      (∀ es1 who o es2, es = es1 ++ .write who o false :: es2 →
        who ≠ .monitor ∧ Overtaken who es1) ∧
      ∀ es1 es2 es3, es = es1 ++ .interrupt :: es2 ++ .ret :: es3 → .ret ∉ es2 →
        taken es2 = (said .monitor es2).map fun o => (.monitor, o) := by
  have hg := run_good h
  refine ⟨hg.sent, hg.order, hg.lost, ?_⟩
  intro es1 es2 es3 hes hret
  have hsplit : es = es1 ++ [.interrupt] ++ es2 ++ [.ret] ++ es3 := by simp [hes]
  rw [hsplit] at h
  obtain ⟨l4, h4, -⟩ := h.split
  obtain ⟨l3, h3, hleave⟩ := h4.last
  obtain ⟨l2, h2, hvisit⟩ := h3.split
  obtain ⟨l1, h1, henter⟩ := h2.last
  cases henter with
  | interrupt hactive =>
    have hv := run_visit hvisit hret rfl ((run_good h1).idle hactive)
    cases hleave with
    | ret _ hidle =>
      have horder := hv.order
      rw [hidle, List.append_nil] at horder
      rw [hv.alone, horder]

end

/-- The thread is interrupted when it is about to write `A`, and the monitor fills the UART. -/
theorem an_interrupted_run : ∃ l, Run (Step 1) .start
    ([.call (.thread 0) (.xputc 0x41), .poll (.thread 0) false, .interrupt,
      .call .monitor (.xputc 0x42), .poll .monitor false, .write .monitor 0x42 true, .ret] ++
        [.write (.thread 0) 0x41 false]) l := by
  have hthread : ∀ l : Line, l.active = false → l.Runs (.thread 0) := by simp [Line.Runs]
  have hmonitor : ∀ l : Line, l.active = true → l.Runs .monitor := by simp [Line.Runs]
  have h1 := Run.single (@Step.call 1 _ _ (.xputc 0x41) (hthread .start rfl) rfl)
  have h2 := h1.snoc (@Step.clear 1 _ _ 0x41 [] (hthread _ rfl) rfl (by decide))
  have h3 := h2.snoc (.interrupt rfl)
  have h4 := h3.snoc (@Step.call 1 _ _ (.xputc 0x42) (hmonitor _ rfl) rfl)
  have h5 := h4.snoc (@Step.clear 1 _ _ 0x42 [] (hmonitor _ rfl) rfl (by decide))
  have h6 := h5.snoc (@Step.take 1 _ _ 0x42 [] (hmonitor _ rfl) rfl (by decide))
  have h7 := h6.snoc (.ret rfl rfl)
  exact ⟨_, h7.snoc (@Step.drop 1 _ _ 0x41 [] (hthread _ rfl) rfl (by decide))⟩

/-- `A` is lost. -/
theorem a_letter_is_lost : ∃ es l, Run (Step 1) .start (es ++ [.write (.thread 0) 0x41 false]) l ∧
    l.wire ++ l.fifo = [(.monitor, 0x42)] ∧ Overtaken (.thread 0) es := by
  obtain ⟨l, h⟩ := an_interrupted_run
  obtain ⟨hsent, -, hlost, -⟩ := only_the_overtaken_is_lost h
  exact ⟨_, l, h, hsent, (hlost _ _ _ [] rfl).2⟩

end os_workshop.serial
