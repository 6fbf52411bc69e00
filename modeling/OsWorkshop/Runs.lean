-- Runs of a system that takes one labelled step after another, and the three
-- rules that every law about runs is proved with: what each step keeps, each
-- run keeps, what each step carries on, each run carries on, and what each
-- step simulates, each run simulates.
import Mathlib.Data.List.Induction

namespace os_workshop.runs

/-- The steps of a system: from a state, with a label, to a state. -/
abbrev Steps (σ α : Type*) := σ → α → σ → Prop

/-- The run with labels `ls` from `s` ends at `t`. -/
inductive Run {σ α : Type*} (step : Steps σ α) (s : σ) : List α → σ → Prop
  | nil : Run step s [] s
  | snoc {ls : List α} {t u : σ} {l : α} :
      Run step s ls t → step t l u → Run step s (ls ++ [l]) u

section

variable {σ α : Type*} {step step' : Steps σ α} {s t u : σ} {ls ls' : List α} {l : α}

/-- A property that each step keeps holds at the end of every run. -/
theorem Run.keeps {I : σ → Prop} (h : Run step s ls t) (h0 : I s)
    (hstep : ∀ a l b, I a → step a l b → I b) : I t := by
  induction h with
  | nil => exact h0
  | snoc _ hlast ih => exact hstep _ _ _ ih hlast

/-- A property of the labels and the state that each step carries on. -/
theorem Run.carries {I : List α → σ → Prop} (h : Run step s ls t) (h0 : I [] s)
    (hstep : ∀ ls a l b, I ls a → step a l b → I (ls ++ [l]) b) : I ls t := by
  induction h with
  | nil => exact h0
  | snoc _ hlast ih => exact hstep _ _ _ _ ih hlast

theorem Run.append (h : Run step s ls t) (h' : Run step t ls' u) : Run step s (ls ++ ls') u := by
  induction h' with
  | nil => simpa using h
  | snoc _ hlast ih =>
    rw [← List.append_assoc]
    exact .snoc ih hlast

/-- The last step of a run. -/
theorem Run.last (h : Run step s (ls ++ [l]) u) : ∃ t, Run step s ls t ∧ step t l u := by
  generalize hls : ls ++ [l] = ls' at h
  cases h with
  | nil => exact absurd hls (by simp)
  | snoc hrun hlast =>
    obtain ⟨rfl, hl⟩ := List.append_inj' hls rfl
    obtain rfl : l = _ := by simpa using hl
    exact ⟨_, hrun, hlast⟩

/-- A run goes through the state between two parts of it. -/
theorem Run.split (h : Run step s (ls ++ ls') u) : ∃ t, Run step s ls t ∧ Run step t ls' u := by
  induction ls' using List.reverseRecOn generalizing u with
  | nil => exact ⟨u, by simpa using h, .nil⟩
  | append_singleton ls' l ih =>
    rw [← List.append_assoc] at h
    obtain ⟨t, ht, hlast⟩ := h.last
    obtain ⟨a, ha, hat⟩ := ih ht
    exact ⟨a, ha, .snoc hat hlast⟩

theorem Run.single (h : step s l t) : Run step s [l] t := .snoc .nil h

/-- What each step of a system can do, another one can, with the same label: then it can do what
each run does. -/
theorem Run.simulates {τ : Type*} {next : Steps τ α} {R : σ → τ → Prop} {a : τ}
    (h : Run step s ls t) (h0 : R s a)
    (hstep : ∀ s l t a, R s a → step s l t → ∃ b, next a l b ∧ R t b) :
    ∃ b, Run next a ls b ∧ R t b := by
  induction h with
  | nil => exact ⟨a, .nil, h0⟩
  | snoc _ hlast ih =>
    obtain ⟨b, hrun, hb⟩ := ih
    obtain ⟨c, hc, hR⟩ := hstep _ _ _ _ hb hlast
    exact ⟨c, .snoc hrun hc, hR⟩

end

end os_workshop.runs
