-- No preemptive thread starves: each switch, and nothing else, brings a waiting thread one
-- place nearer to the processor, also while others are created and exit.
import OsWorkshop.OwnRegisters

open os_workshop.memory
open os_workshop.runs

namespace os_workshop.preemption

/-! ## Places in the queue -/

/-- The running thread gives the processor up: its time is over, or it exits. -/
def Event.passes : Event → Bool
  | .interrupt pending .. => pending
  | .exit _ => true
  | _ => false

def passes (es : List Event) : Nat := es.countP Event.passes

theorem passes_snoc (es : List Event) (e : Event) :
    passes (es ++ [e]) = passes es + if e.passes then 1 else 0 := by
  unfold passes
  rw [List.countP_append, List.countP_singleton]

/-- What an event does to the place of a thread that waits. -/
theorem Event.apply_place {q : List Word} {t : Word} {n : Nat} (e : Event)
    (h : q[n + 1]? = some t) : (e.apply q)[if e.passes then n else n + 1]? = some t := by
  have hlt := (List.getElem?_eq_some_iff.mp h).1
  cases e with
  | own => exact h
  | create u fn arg top => exact (List.getElem?_append_left hlt).trans h
  | interrupt pending u pc x =>
    cases pending
    · exact h
    · have hplace := List.getElem?_rotate (l := q) (n := 1) (m := n) (by omega)
      rw [Nat.mod_eq_of_lt hlt] at hplace
      exact hplace.trans h
  | exit u => exact List.getElem?_tail.trans h

/-- The thread whose turn it is not is none that the event is about. -/
def Event.About (t : Word) : Event → Prop
  | .create u .. | .interrupt _ u .. | .exit u => t = u
  | .own => False

theorem Event.note_of_not_about {t : Word} {e : Event} (h : ¬ e.About t) (r : Option Record) :
    e.note t r = r := by
  cases e with
  | own | exit _ => rfl
  | create | interrupt => exact if_neg h

section

variable {P : Program} {es es' : List Event} {m0 m m' : Machine} {t : Word} {k : Nat} {e : Event}

/-- The running thread is the one at the head of the queue, and a new one is not in it yet. -/
theorem Good.not_about (hP : P.Obeys) (hg : Good P es m) (hs : P.Step m e m')
    (hfits : threads.preemptive.Fits (creations (es ++ [e]))) {n : Nat}
    (ht : (queue P es)[n + 1]? = some t) : ¬ e.About t := by
  have htail : t ∈ (queue P es).tail := by
    obtain ⟨l, hq⟩ := hg.quiet.cons
    rw [hq] at ht ⊢
    exact List.mem_of_getElem? ht
  have hrun := hg.ne_tp htail
  obtain ⟨hg', -⟩ := hg.step hP hs hfits
  cases hs with
  | own hk => exact id
  | create fn arg l hcreate hk =>
    intro hu
    have hnodup := hg'.quiet.ring.nodup
    rw [queue_snoc] at hnodup
    have happly : t ∉ queue P es := by
      rw [show t = _ from hu]
      exact fun hmem => (List.nodup_append.mp hnodup).2.2 _ hmem _ (List.mem_singleton_self _) rfl
    exact happly (List.mem_of_mem_tail htail)
  | interrupt => exact hrun
  | exit => exact hrun

/-- A thread that waits comes nearer with each switch, and keeps what it was left with. -/
theorem waits (hP : P.Obeys) (h0 : P.Start m0) (h : Run P.Step m0 (es ++ es') m)
    (hfits : threads.preemptive.Fits (creations (es ++ es')))
    (ht : (queue P es)[k + 1]? = some t) (hk : passes es' ≤ k) :
    (queue P (es ++ es'))[k - passes es' + 1]? = some t ∧ last t (es ++ es') = last t es := by
  induction es' using List.reverseRecOn generalizing m with
  | nil => simpa [passes] using ht
  | append_singleton es' e ih =>
    rw [← List.append_assoc] at h hfits ⊢
    obtain ⟨m1, hrun, hs⟩ := h.last
    have hfits1 : threads.preemptive.Fits (creations (es ++ es')) := by
      refine hfits.mono ?_
      rw [creations_snoc]
      exact Nat.le_add_right _ _
    rw [passes_snoc] at hk ⊢
    obtain ⟨hplace, hlast⟩ := ih hrun hfits1 (by omega)
    have hg := run_good hP h0 hrun hfits1
    have hnot := hg.not_about hP hs hfits hplace
    refine ⟨?_, ?_⟩
    · have hindex : k - (passes es' + if e.passes then 1 else 0) + 1 =
          if e.passes then k - passes es' else k - passes es' + 1 := by
        cases he : e.passes
        · simp
        · simp only [he, if_true] at hk ⊢
          omega
      rw [queue_snoc, hindex]
      exact e.apply_place hplace
    · rw [last_snoc, Event.note_of_not_about hnot, hlast]

/-- A thread with `k` others between it and the running one is given the processor by the switch
after the next `k`, and goes on with what it was left with. Threads that are created in the
meantime do not come before it. -/
theorem no_thread_starves (hP : P.Obeys) (h0 : P.Start m0)
    (h : Run P.Step m0 (es ++ es' ++ [e]) m)
    (hfits : threads.preemptive.Fits (creations (es ++ es' ++ [e])))
    (ht : (queue P es)[k + 1]? = some t) (hk : passes es' = k) (he : e.passes = true) :
    (queue P (es ++ es' ++ [e])).head? = some t ∧
      ∃ r, last t es = some r ∧ P.Sees t m.cpu r ∧ m.Enabled := by
  obtain ⟨m1, hrun, hs⟩ := h.last
  have hfits1 : threads.preemptive.Fits (creations (es ++ es')) := by
    refine hfits.mono ?_
    rw [creations_snoc]
    exact Nat.le_add_right _ _
  obtain ⟨hplace, hlast⟩ := waits hP h0 hrun hfits1 ht (by omega)
  have hg := run_good hP h0 hrun hfits1
  have hnot := hg.not_about hP hs hfits hplace
  have hswitches : e.Switches := by
    cases e <;> simp_all [Event.passes, Event.Switches]
  obtain ⟨-, hseen⟩ := hg.step hP hs hfits
  obtain ⟨t', r, hhead, hlast', hsees, hen⟩ := hseen hswitches
  have hturn : (queue P (es ++ es' ++ [e])).head? = some t := by
    have hnext := e.apply_place hplace
    rw [he, hk, Nat.sub_self] at hnext
    rw [queue_snoc, List.head?_eq_getElem?]
    exact hnext
  obtain rfl : t = t' := Option.some.inj (hturn.symm.trans hhead)
  rw [last_snoc, Event.note_of_not_about hnot, hlast] at hlast'
  exact ⟨hturn, r, hlast', hsees, hen⟩

/-- The new thread does not starve. -/
theorem a_new_thread_does_not_starve : ∃ t, ∃ e1 e2 : Event, ∃ m,
    Run a_program.Step a_machine ([] ++ [e1] ++ [] ++ [e2]) m ∧
      (queue a_program ([] ++ [e1] ++ [] ++ [e2])).head? = some t ∧
      ∃ r, last t ([] ++ [e1]) = some r ∧ a_program.Sees t m.cpu r ∧ m.Enabled := by
  have hfits : threads.preemptive.Fits (creations [] + 1) := by
    unfold threads.Lib.Fits
    decide
  obtain ⟨e1, e2, t, m, hrun, hq, -, ⟨_, _, _, rfl⟩, hc, -⟩ := Home.start.hands_over hfits
  rw [← List.append_nil ([] ++ [e1])] at hrun hc
  refine ⟨t, e1, _, m, hrun,
    no_thread_starves a_program_obeys a_machine_starts hrun ?_ (by rw [hq]; rfl) rfl rfl⟩
  rw [hc]
  exact hfits

end

end os_workshop.preemption
