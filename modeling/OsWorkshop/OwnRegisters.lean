-- Preemptive threads see only their own registers: over every run of interrupts,
-- creations and exits, what a thread was left with is kept until it runs again.
import OsWorkshop.ExceptionFrames
import OsWorkshop.WaitingThreads

open os_workshop.memory
open os_workshop.runs
open os_workshop.rv32
open os_workshop.frames
open os_workshop.switching
open os_workshop.threads (Layout Sys Locals run_all MEMORY_TOP st32_out fill_keep)

namespace os_workshop.preemption

open Reg Csr

/-! ## The invariant -/

/-- Where the threads and their stacks are. -/
structure Laid (m : Machine) : Prop where
  below : m.next_heap.toNat ≤ m.next_stack.toNat
  low : ∀ p ∈ m.owners, p.1.toNat + 80 ≤ m.next_heap.toNat
  high : ∀ p ∈ m.owners, m.next_stack.toNat + 4096 ≤ p.2.toNat ∧ p.2.toNat ≤ MEMORY_TOP.toNat
  apart : ∀ p ∈ m.owners, ∀ p' ∈ m.owners, p.1 ≠ p'.1 →
    p.2.toNat + 4096 ≤ p'.2.toNat ∨ p'.2.toNat + 4096 ≤ p.2.toNat
  once : ∀ p ∈ m.owners, ∀ p' ∈ m.owners, p.1 = p'.1 → p.2 = p'.2

/-- What holds in every state of a run with the events `es`, whatever the running thread does. -/
structure Resting (P : Program) (es : List Event) (m : Machine) : Prop where
  quiet : threads.Quiet threads.preemptive m.sys (queue P es) (creations es)
  laid : Laid m
  owned : ∀ a ∈ queue P es, ∃ top, (a, top) ∈ m.owners
  ready : ∀ p ∈ m.owners, p.1 ∈ (queue P es).tail →
    ∃ r, last p.1 es = some r ∧ P.Ready m.mem p.1 p.2 r

/-- And the running thread can be interrupted. -/
structure Good (P : Program) (es : List Event) (m : Machine) : Prop extends Resting P es m where
  room : m.Enabled → ∀ p ∈ m.owners, p.1 = m.tp → HasRoom P.room p.2 m.sp

/-- The thread at the head of the queue sees what it should, with interrupts enabled. -/
def Seen (P : Program) (es : List Event) (m : Machine) : Prop :=
  ∃ t r, (queue P es).head? = some t ∧ last t es = some r ∧ P.Sees t m.cpu r ∧ m.Enabled

section

variable {P : Program} {es : List Event} {m : Machine} {b top : Word} {rest : List Word}
  {r : Record} {M : Mem} {u : State}

/-- The memory of the stacks is above all threads. -/
theorem Laid.thread_not_stack (h : Laid m) {p p' : Word × Word} (hp : p ∈ m.owners)
    (hp' : p' ∈ m.owners) {a : Word} (ha : a.toNat < p.1.toNat + 80) :
    ¬ InStack p'.2 a ∧ a.toNat < MEMORY_TOP.toNat := by
  have hlow := h.low p hp
  have hhigh := h.high p' hp'
  have hbelow := h.below
  unfold InStack
  omega

theorem Laid.stack_not_stack (h : Laid m) {p p' : Word × Word} (hp : p ∈ m.owners)
    (hp' : p' ∈ m.owners) (hne : p.1 ≠ p'.1) {a : Word} (ha : InStack p.2 a) :
    ¬ InStack p'.2 a ∧ a.toNat < MEMORY_TOP.toNat := by
  have hhigh := h.high p hp
  have hapart := h.apart p hp p' hp' hne
  unfold InStack at *
  omega

theorem Laid.stack_not_thread (h : Laid m) {p p' : Word × Word} (hp : p ∈ m.owners)
    (hp' : p' ∈ m.owners) {a : Word} (ha : InStack p.2 a) : p'.1.toNat + 80 ≤ a.toNat := by
  have hlow := h.low p' hp'
  have hhigh := h.high p hp
  have hbelow := h.below
  unfold InStack at ha
  omega

/-- The words of a thread whose bytes stay. -/
theorem Laid.field_keep (h : Laid m) {x : Word} (hx : (x, top) ∈ m.owners) {m1 m2 : Mem} {i : Nat}
    (hi : i ≤ 76)
    (hm : ∀ a : Word, x.toNat + i ≤ a.toNat → a.toNat < x.toNat + i + 4 → m2 a = m1 a) :
    ld32 m2 (x + BitVec.ofNat 32 i) = ld32 m1 (x + BitVec.ofNat 32 i) := by
  have hlow := h.low _ hx
  have hbelow := h.below
  have hlt := m.next_stack.isLt
  dsimp only at hlow
  have e := threads.field_toNat (a := x) (by omega) hi
  exact ld32_keep (by omega) fun a h1 h2 => hm a (by omega) (by omega)

/-- A thread waits as before when the bytes of its context and of its stack stay. -/
theorem Laid.ready_keep (h : Laid m) {p : Word × Word} (hp : p ∈ m.owners) {m1 m2 : Mem}
    (hr : P.Ready m1 p.1 p.2 r)
    (hctxt : ∀ a : Word, p.1.toNat + 16 ≤ a.toNat → a.toNat < p.1.toNat + 80 → m2 a = m1 a)
    (hstack : ∀ a, InStack p.2 a → m2 a = m1 a) : P.Ready m2 p.1 p.2 r := by
  have hlow := h.low p hp
  have hhigh := h.high p hp
  have hbelow := h.below
  have hlt := p.2.isLt
  exact hr.keep (by omega) (by omega) hctxt hstack

/-- The library at rest depends on three words of each thread. -/
theorem quiet_same {s s' : Sys} {q : List Word} {n : Nat}
    (h : threads.Quiet threads.preemptive s q n)
    (hheap : s'.next_heap = s.next_heap) (hstack : s'.next_stack = s.next_stack)
    (htp : s'.tp = s.tp) (hword : ∀ x ∈ q, ∀ i, i = 8 ∨ i = 12 ∨ i = 28 →
      ld32 s'.mem (x + BitVec.ofNat 32 i) = ld32 s.mem (x + BitVec.ofNat 32 i)) :
    threads.Quiet threads.preemptive s' q n := by
  obtain ⟨l, rfl⟩ := h.cons
  refine ⟨hheap ▸ h.heap, hstack ▸ h.stack, hheap ▸ h.objects, ?_, htp ▸ h.head, ?_⟩
  · exact h.ring.congr (fun x hx => hword x hx 8 (.inl rfl))
      (fun x hx => hword x hx 12 (.inr (.inl rfl)))
  · intro x hx
    exact (hword x (List.mem_cons_of_mem _ hx) 28 (.inr (.inr rfl))).trans (h.tps x hx)

/-- When the thread `b` goes on, the others wait as before. -/
theorem Good.of_goes_on (hl : Laid m) (hq : queue P es = b :: rest)
    (howned : ∀ a ∈ b :: rest, ∃ top, (a, top) ∈ m.owners)
    (hquiet : threads.Quiet threads.preemptive { m.sys with mem := M, tp := b } (b :: rest)
      (creations es))
    (hready : ∀ p ∈ m.owners, p.1 ∈ rest → ∃ r, last p.1 es = some r ∧ P.Ready M p.1 p.2 r)
    (htop : (b, top) ∈ m.owners) (hlast : last b es = some r) (hon : P.GoesOn b top r M u) :
    Good P es { m with cpu := u } ∧ Seen P es { m with cpu := u } := by
  have hkeep (p : Word × Word) (hp : p ∈ m.owners) (a : Word) (ha : a.toNat < p.1.toNat + 80) :
      u.d.mem a = M a := by
    obtain ⟨hout, hram⟩ := hl.thread_not_stack hp htop ha
    exact hon.mem a hram hout
  refine ⟨⟨⟨?_, ⟨hl.below, hl.low, hl.high, hl.apart, hl.once⟩, ?_, ?_⟩, ?_⟩, ?_⟩
  · rw [hq]
    refine quiet_same hquiet rfl rfl hon.tp ?_
    intro x hx i hi
    obtain ⟨T, hT⟩ := howned x hx
    exact hl.field_keep hT (by omega) fun a _ h2 => hkeep _ hT a (by dsimp only; omega)
  · rw [hq]
    exact howned
  · rw [hq]
    intro p hp hrest
    obtain ⟨r', hr', hready'⟩ := hready p hp hrest
    have hne : p.1 ≠ b := by
      rintro rfl
      exact (List.nodup_cons.mp hquiet.ring.nodup).1 hrest
    refine ⟨r', hr', hl.ready_keep hp hready' (fun a _ h2 => hkeep p hp a h2) ?_⟩
    intro a ha
    obtain ⟨hout, hram⟩ := hl.stack_not_stack hp htop hne ha
    exact hon.mem a hram hout
  · intro _ p hp htp
    have hpb : p.1 = b := htp.trans hon.tp
    rw [hl.once p hp _ htop hpb]
    exact hon.room
  · exact ⟨b, r, by rw [hq]; rfl, hlast, hon.sees, hon.enabled⟩

/-- When `context_switch` loads the context of the thread `b`, it goes on. -/
theorem Good.of_switch {pending : Bool} {d : Data} {t : State} (hl : Laid m)
    (hq : queue P es = b :: rest) (howned : ∀ a ∈ b :: rest, ∃ top, (a, top) ∈ m.owners)
    (hquiet : threads.Quiet threads.preemptive { m.sys with mem := (loaded d).mem, tp := b }
      (b :: rest) (creations es))
    (hready : ∀ p ∈ m.owners, p.1 ∈ b :: rest →
      ∃ r, last p.1 es = some r ∧ P.Ready (loaded d).mem p.1 p.2 r)
    (ha1 : d.get a1 = b + 16) (hst : d.csr sstatus &&& SSTATUS_SPIE ≠ 0)
    (h : P.Path pending (switched d) t) (ht : P.k.im.Left t) :
    Good P es { m with cpu := sret_state t.d } ∧ Seen P es { m with cpu := sret_state t.d } := by
  obtain ⟨top, htop⟩ := howned b List.mem_cons_self
  obtain ⟨r, hlast, hr⟩ := hready _ htop List.mem_cons_self
  have hhigh := hl.high _ htop
  dsimp only at hhigh
  have hon := hr.goes_on (by dsimp only; omega) (by dsimp only; omega) ha1 hst h ht
  exact Good.of_goes_on hl hq howned hquiet
    (fun p hp hrest => hready p hp (List.mem_cons_of_mem _ hrest)) htop hlast hon

end

/-! ## Every step -/

theorem queue_snoc (P : Program) (es : List Event) (e : Event) :
    queue P (es ++ [e]) = e.apply (queue P es) := List.foldl_concat ..

theorem last_snoc (t : Word) (es : List Event) (e : Event) :
    last t (es ++ [e]) = e.note t (last t es) := List.foldl_concat ..

theorem last_interrupted (t : Word) (es : List Event) (pending : Bool) (pc : Word)
    (x : Reg → Word) :
    last t (es ++ [.interrupt pending t pc x]) = some (.interrupted pc x) := by
  rw [last_snoc]
  exact if_pos rfl

theorem last_of_another {a t : Word} (h : a ≠ t) (es : List Event) (pending : Bool) (pc : Word)
    (x : Reg → Word) : last a (es ++ [.interrupt pending t pc x]) = last a es := by
  rw [last_snoc]
  exact if_neg h

theorem creations_snoc (es : List Event) (e : Event) :
    creations (es ++ [e]) = creations es + if e.creates then 1 else 0 := by
  unfold creations
  rw [List.countP_append, List.countP_singleton]

section

variable {P : Program} {es : List Event} {m m' : Machine} {top : Word} {l : List Word}
  {M m1 m2 : Mem} {p : Word × Word} {r : Record} {pending : Bool} {cause : Word} {t : State}

theorem Resting.ne_tp (hg : Resting P es m) {x : Word} (hx : x ∈ (queue P es).tail) :
    x ≠ m.tp := by
  obtain ⟨l, hq⟩ := hg.quiet.cons
  have hnodup := hg.quiet.ring.nodup
  rw [hq] at hx hnodup
  rintro rfl
  exact (List.nodup_cons.mp hnodup).1 hx

/-- No context of a thread holds a link of the ring, -/
theorem Resting.context_not_link (hg : Resting P es m) {x a : Word} (hx : x ∈ queue P es)
    (h1 : x.toNat + 16 ≤ a.toNat) (h2 : a.toNat < x.toNat + 80) :
    ∀ y ∈ queue P es, a.toNat < y.toNat + 8 ∨ y.toNat + 16 ≤ a.toNat := by
  intro y hy
  by_cases hxy : x = y
  · subst hxy
    exact .inr h1
  · have hobj := hg.quiet.objects.apart x hx y hy hxy
    omega

/-- and no stack does. -/
theorem Resting.stack_not_link (hg : Resting P es m) (hp : p ∈ m.owners) {a : Word}
    (ha : InStack p.2 a) :
    ∀ y ∈ queue P es, a.toNat < y.toNat + 8 ∨ y.toNat + 16 ≤ a.toNat := by
  intro y hy
  obtain ⟨T, hT⟩ := hg.owned y hy
  have hover := hg.laid.stack_not_thread hp hT ha
  dsimp only at hover
  omega

/-- When the running thread has changed its context and its stack only, the other threads wait as
before. -/
theorem Good.ready_keep (hg : Good P es m) {a : Word} (ha : (a, top) ∈ m.owners)
    (haq : a ∈ queue P es) (hp : p ∈ m.owners) (hpq : p.1 ∈ queue P es) (hne : p.1 ≠ a)
    (hsame : SameBut a top m1 m2) (hr : P.Ready m1 p.1 p.2 r) : P.Ready m2 p.1 p.2 r := by
  have hobj := hg.quiet.objects.apart p.1 hpq a haq hne
  refine hg.laid.ready_keep hp hr ?_ ?_
  · intro x h1 h2
    obtain ⟨hout, hram⟩ := hg.laid.thread_not_stack hp ha h2
    exact hsame x hram hout (by omega)
  · intro x hx
    obtain ⟨hout, hram⟩ := hg.laid.stack_not_stack hp ha hne hx
    exact hsame x hram hout (.inr (hg.laid.stack_not_thread hp ha hx))

/-- And every thread is where it was in the ring. -/
theorem Good.links_keep (hg : Good P es m) {a x : Word} (ha : (a, top) ∈ m.owners)
    (haq : a ∈ queue P es) (hxq : x ∈ queue P es) (hsame : SameBut a top m1 m2) {i : Nat}
    (hi : i ≤ 12 ∨ i ≤ 76 ∧ x ≠ a) :
    ld32 m2 (x + BitVec.ofNat 32 i) = ld32 m1 (x + BitVec.ofNat 32 i) := by
  obtain ⟨T, hT⟩ := hg.owned x hxq
  refine hg.laid.field_keep hT (by omega) ?_
  intro y h1 h2
  obtain ⟨hout, hram⟩ := hg.laid.thread_not_stack hT ha (show y.toNat < x.toNat + 80 by omega)
  refine hsame y hram hout ?_
  by_cases hxa : x = a
  · have h12 := hi.resolve_right fun h => h.2 hxa
    rw [hxa] at h2
    omega
  · have hobj := hg.quiet.objects.apart x hxq a haq hxa
    omega

/-- The handler has returned: the interrupted thread itself goes on. -/
theorem Good.returns {c u : State} (hg : Good P es m) (htop : (m.tp, top) ∈ m.owners)
    (hc : P.AtHandler m top c) (hu : Returns P.room c c u) (h : P.Path pending u t)
    (ht : P.k.im.Left t) :
    Good P (es ++ [.interrupt false m.tp m.cpu.pc m.cpu.d.get]) { m with cpu := sret_state t.d } ∧
      Seen P (es ++ [.interrupt false m.tp m.cpu.pc m.cpu.d.get])
        { m with cpu := sret_state t.d } := by
  obtain ⟨l, hq⟩ := hg.quiet.cons
  have htpq : m.tp ∈ queue P es := hq ▸ List.mem_cons_self
  have hold : threads.Quiet threads.preemptive m.sys (m.sys.tp :: l) (creations es) :=
    hq ▸ hg.quiet
  have hlow := hg.laid.low _ htop
  have hhigh := hg.laid.high _ htop
  have hbelow := hg.laid.below
  dsimp only at hlow hhigh
  have hsame : SameBut m.tp top m.mem c.d.mem := fun a _ hout _ => hc.mem a hout
  have hon := hc.trapped.goes_on (by omega) hhigh.2 hc.spie hu h ht
  have hq' : queue P (es ++ [.interrupt false m.tp m.cpu.pc m.cpu.d.get]) = m.tp :: l :=
    (queue_snoc ..).trans hq
  refine Good.of_goes_on hg.laid hq' (hq ▸ hg.owned) ?_ ?_ htop (last_interrupted ..) hon
  · rw [creations_snoc]
    refine quiet_same hold rfl rfl rfl ?_
    intro x hx i hi
    obtain ⟨T, hT⟩ := hg.owned x (hq ▸ hx)
    refine hg.laid.field_keep hT (by omega) fun a _ h2 => ?_
    exact hc.mem a (hg.laid.thread_not_stack hT htop (by dsimp only; omega)).1
  · intro p hp hpl
    have htail : p.1 ∈ (queue P es).tail := by
      rw [hq]
      exact hpl
    have hne := hg.ne_tp htail
    obtain ⟨r, hr, hready⟩ := hg.ready p hp htail
    exact ⟨r, (last_of_another hne ..).trans hr,
      hg.ready_keep htop htpq hp (List.mem_of_mem_tail htail) hne hsame hready⟩

/-- When the context of the interrupted thread is saved, the ring stands with the next thread at
its head. -/
theorem Good.rotated {c u : State} (hg : Good P es m) (htop : (m.tp, top) ∈ m.owners)
    (hsus : P.Suspended M m.tp top m.cpu.pc m.cpu.d.get c u) (hsame : SameBut m.tp top m.mem M) :
    threads.Quiet threads.preemptive { m.sys with mem := M, tp := threads.next m.mem m.tp }
      ((queue P es).rotate 1) (creations es) := by
  obtain ⟨l, hq⟩ := hg.quiet.cons
  have htpq : m.tp ∈ queue P es := hq ▸ List.mem_cons_self
  have hold : threads.Quiet threads.preemptive m.sys (m.sys.tp :: l) (creations es) :=
    hq ▸ hg.quiet
  rw [hq]
  refine hold.rotated rfl rfl rfl ?_ ?_ ?_
  · exact fun x hx => hg.links_keep htop htpq (hq ▸ hx) hsame (i := 8) (.inl (by omega))
  · exact fun x hx => hg.links_keep htop htpq (hq ▸ hx) hsame (i := 12) (.inl (by omega))
  · intro x hx
    by_cases hxa : x = m.tp
    · have hword := hsus.words (.tp, 0x0C) (by decide)
      have e : m.tp + 16 + 0x0C = m.tp + 28 := BitVec.add_assoc ..
      have hctp : c.d.get .tp = m.tp := hsus.regs .tp (by decide) (by decide)
      rw [hxa, ← e]
      exact hword.trans (hsus.called.tp.trans hctp)
    · have hkeep := hg.links_keep htop htpq (hq ▸ hx) hsame (i := 28) (.inr ⟨by omega, hxa⟩)
      refine hkeep.trans (hold.tps x ?_)
      exact (List.mem_cons.mp hx).resolve_left hxa

/-- The handler has called `context_switch`: the next thread goes on. -/
theorem Good.switches {c u : State} (hg : Good P es m) (htop : (m.tp, top) ∈ m.owners)
    (hc : P.AtHandler m top c)
    (hu : P.Calls c u (c.d.get .tp + 16) (threads.next c.d.mem (c.d.get .tp) + 16))
    (h : P.Path pending u t) (ht : P.k.im.Left t) :
    Good P (es ++ [.interrupt true m.tp m.cpu.pc m.cpu.d.get]) { m with cpu := sret_state t.d } ∧
      Seen P (es ++ [.interrupt true m.tp m.cpu.pc m.cpu.d.get])
        { m with cpu := sret_state t.d } := by
  obtain ⟨l, hq⟩ := hg.quiet.cons
  have htpq : m.tp ∈ queue P es := hq ▸ List.mem_cons_self
  have hlow := hg.laid.low _ htop
  have hhigh := hg.laid.high _ htop
  have hbelow := hg.laid.below
  dsimp only at hlow hhigh
  have hctp : c.d.get .tp = m.tp := hc.trapped.regs .tp (by decide) (by decide)
  rw [hctp] at hu
  obtain ⟨hsus, hsame⟩ := suspended (by omega) hhigh.2 hc hu
  -- the thread after the running one
  have hnext : threads.next c.d.mem m.tp = threads.next m.mem m.tp := by
    refine hg.laid.field_keep htop (i := 8) (by omega) fun a _ h2 => ?_
    exact hc.mem a (hg.laid.thread_not_stack htop htop (by dsimp only; omega)).1
  have hst : u.d.csr sstatus &&& SSTATUS_SPIE ≠ 0 := by
    rw [hu.sstatus]
    exact hc.spie
  have hquiet := hg.rotated htop hsus hsame
  obtain ⟨rest, hrest⟩ := hquiet.cons
  dsimp only at hrest
  have hq' : queue P (es ++ [.interrupt true m.tp m.cpu.pc m.cpu.d.get]) =
      threads.next m.mem m.tp :: rest := (queue_snoc ..).trans hrest
  have hin : ∀ a ∈ threads.next m.mem m.tp :: rest, a ∈ queue P es := by
    intro a ha
    rw [← hrest, List.mem_rotate] at ha
    exact ha
  refine Good.of_switch hg.laid hq' (fun a ha => hg.owned a (hin a ha)) ?_ ?_
    (hu.a1.trans (by rw [hnext])) hst (path_switch h ht hu.pc) ht
  · rw [creations_snoc, ← hrest]
    exact hquiet
  · intro p hp hpq
    by_cases hpt : p.1 = m.tp
    · have htops : p.2 = top := hg.laid.once p hp _ htop hpt
      rw [hpt, htops]
      exact ⟨_, last_interrupted .., c, u, hsus⟩
    · have hpl : p.1 ∈ (queue P es).tail := by
        have hmem := hin _ hpq
        rw [hq] at hmem ⊢
        exact (List.mem_cons.mp hmem).resolve_left hpt
      obtain ⟨r, hr, hready⟩ := hg.ready p hp hpl
      exact ⟨r, (last_of_another hpt ..).trans hr,
        hg.ready_keep htop htpq hp (hin _ hpq) hpt hsame hready⟩

/-- A trap of the timer, which comes only where interrupts are enabled. -/
theorem Good.interrupt (hP : P.Obeys) (hg : Good P es m) (hat : m.cpu.pc.toNat % 4 = 0)
    (hen : m.Enabled)
    (hneg : ¬ (0 : Word).sle cause)
    (h : P.Path pending ⟨P.k.im.loc 0, trap_csrs SSTATUS_SPP m.cpu cause⟩ t)
    (ht : P.k.im.Left t) :
    Good P (es ++ [.interrupt pending m.tp m.cpu.pc m.cpu.d.get]) { m with cpu := sret_state t.d } ∧
      Seen P (es ++ [.interrupt pending m.tp m.cpu.pc m.cpu.d.get])
        { m with cpu := sret_state t.d } := by
  obtain ⟨l, hq⟩ := hg.quiet.cons
  obtain ⟨top, htop⟩ := hg.owned m.tp (hq ▸ List.mem_cons_self)
  have hlow := hg.laid.low _ htop
  have hhigh := hg.laid.high _ htop
  have hbelow := hg.laid.below
  dsimp only at hlow hhigh
  have hc : P.AtHandler m top (P.handler_entry (trap_csrs SSTATUS_SPP m.cpu cause)) :=
    at_handler hat hen hhigh.2 (hg.room hen _ htop rfl) (by omega)
  have hpath := path_trap hneg h ht
  generalize P.handler_entry (trap_csrs SSTATUS_SPP m.cpu cause) = c at *
  have hf : P.k.im.fetch c.pc = none := by
    rw [hc.entered.pc]
    exact P.k.outside .interrupt_handler rfl
  obtain ⟨u, hu, hpath⟩ := path_code hpath ht hf (by
    rw [hc.entered.pc]
    exact P.switch_apart.symm)
  cases pending with
  | false => exact hg.returns htop hc (hP hc.entered hu) hpath ht
  | true => exact hg.switches htop hc (hP hc.entered hu) hpath ht

/-- A thread by itself. -/
theorem Resting.keeps (hg : Resting P es m) (hk : P.Keeps m m') : Good P es m' := by
  have hstacks := hk.owners
  have hheap := hk.next_heap
  have hstack := hk.next_stack
  have htp : m'.sys.tp = m.sys.tp := hk.tp
  refine ⟨⟨?_, ?_, ?_, ?_⟩, hk.room⟩
  · refine quiet_same hg.quiet hheap hstack htp ?_
    intro x hx i hi
    obtain ⟨T, hT⟩ := hg.owned x hx
    refine hg.laid.field_keep hT (by omega) fun a h1 h2 => ?_
    exact (hk.mem _ hT).1 a ⟨by dsimp only; omega, by dsimp only; omega⟩
  · obtain ⟨hbelow, hlow, hhigh, hapart, honce⟩ := hg.laid
    constructor <;> simp only [hstacks, hheap, hstack] <;> assumption
  · rw [hstacks]
    exact hg.owned
  · rw [hstacks]
    intro p hp hrest
    obtain ⟨r, hr, hready⟩ := hg.ready p hp hrest
    refine ⟨r, hr, hg.laid.ready_keep hp hready ?_ ((hk.mem p hp).2 (hg.ne_tp hrest))⟩
    exact fun a h1 h2 => (hk.mem p hp).1 a ⟨by omega, h2⟩

theorem Good.own (hg : Good P es m) (hk : P.Keeps m m') : Good P (es ++ [.own]) m' := by
  have hrest : Resting P (es ++ [.own]) m := by
    refine ⟨?_, hg.laid, ?_, ?_⟩
    · rw [queue_snoc, creations_snoc]
      exact hg.quiet
    · rw [queue_snoc]
      exact hg.owned
    · rw [queue_snoc]
      intro p hp hq
      rw [last_snoc]
      exact hg.ready p hp hq
  exact hrest.keeps hk

/-- The statements of `thread_exit` write to the links of three threads only. -/
theorem unlink_bytes {s : Sys} {l : Locals} {x : Word}
    (h : ∀ y ∈ [l.next, l.prev, s.tp], y.toNat + 80 ≤ 2 ^ 32 ∧
      (x.toNat < y.toNat + 8 ∨ y.toNat + 16 ≤ x.toNat)) :
    (run_all threads.exit_unlink s l).1.mem x = s.mem x := by
  simp only [List.mem_cons, List.not_mem_nil, or_false, forall_eq_or_imp, forall_eq] at h
  obtain ⟨⟨hn, hnx⟩, ⟨hp, hpx⟩, ⟨ht, htx⟩⟩ := h
  have en := threads.field_toNat hn (i := 12) (by omega)
  have ep := threads.field_toNat hp (i := 8) (by omega)
  have et := threads.field_toNat ht (i := 12) (by omega)
  have et' := threads.field_toNat ht (i := 8) (by omega)
  have e : (run_all threads.exit_unlink s l).1.mem = st32 (st32 (st32 (st32 s.mem
      (l.next + BitVec.ofNat 32 12) l.prev) (l.prev + BitVec.ofNat 32 8) l.next)
      (s.tp + BitVec.ofNat 32 12) 0) (s.tp + BitVec.ofNat 32 8) 0 := rfl
  rw [e, st32_out (by omega) (by omega), st32_out (by omega) (by omega),
    st32_out (by omega) (by omega), st32_out (by omega) (by omega)]

/-- The state of the library at the switch of `thread_exit`. -/
theorem exit_statements {s : Sys} {l' : Locals} {b : Word} {rest : List Word} (l : Locals)
    (hg : Resting P es m) (hq : queue P es = m.tp :: b :: rest)
    (hrun : run_all (threads.exit_head threads.preemptive ++ threads.exit_unlink) m.sys l =
      (s, l')) :
    l'.next = b ∧ linked.Ring (threads.next s.mem) (threads.prev s.mem) (b :: rest) ∧
      (∀ x ∈ b :: rest, ld32 s.mem (x + 28) = x) ∧
      ∀ x : Word, (∀ y ∈ queue P es, x.toNat < y.toNat + 8 ∨ y.toNat + 16 ≤ x.toNat) →
        s.mem x = m.mem x := by
  obtain ⟨spie, hhead⟩ := threads.exit_head.spec threads.preemptive m.sys l
  rw [threads.run_all_append, hhead] at hrun
  have hstack := hg.laid.below
  have hlt := m.next_stack.isLt
  have hold : threads.Quiet threads.preemptive { m.sys with spie := spie }
      (m.sys.tp :: b :: rest) (creations es) := by
    have hquiet := hg.quiet.bits m.sys.sie spie
    rw [hq] at hquiet
    exact hquiet
  have hnext : threads.next m.mem m.tp = b := hold.ring.2.1
  have hprev : threads.prev m.mem m.tp ∈ queue P es := by
    rw [hq]
    exact hold.ring.prev_mem
  obtain ⟨M, hunlink, hring, htps⟩ := threads.exit_unlink.ring
    (l := { l with
      next := threads.next m.sys.mem m.sys.tp
      prev := threads.prev m.sys.mem m.sys.tp })
    hold (by show m.next_heap.toNat ≤ 2 ^ 32; omega) rfl rfl
  have hbytes : ∀ x : Word, (∀ y ∈ queue P es, x.toNat < y.toNat + 8 ∨ y.toNat + 16 ≤ x.toNat) →
      M x = m.mem x := by
    intro x hx
    have hkeep := @unlink_bytes { m.sys with spie := spie } { l with
      next := threads.next m.sys.mem m.sys.tp, prev := threads.prev m.sys.mem m.sys.tp } x (by
      intro y hy
      have hyq : y ∈ queue P es := by
        simp only [List.mem_cons, List.not_mem_nil, or_false] at hy
        obtain rfl | rfl | rfl := hy
        · rw [hq]
          exact hold.ring.next_mem
        · exact hprev
        · rw [hq]
          exact List.mem_cons_self
      obtain ⟨T, hT⟩ := hg.owned y hyq
      have hlow := hg.laid.low _ hT
      dsimp only at hlow
      exact ⟨by omega, hx y hyq⟩)
    rw [hunlink] at hkeep
    exact hkeep
  rw [hunlink, Prod.mk.injEq] at hrun
  obtain ⟨rfl, rfl⟩ := hrun
  exact ⟨hnext, hring, htps, hbytes⟩

/-- `thread_exit`, from its call to the next thread. -/
theorem Good.exit {s : Sys} {l' : Locals} {c : State} (l : Locals) (hg : Good P es m)
    (hmore : threads.next m.mem m.tp ≠ m.tp)
    (hrun : run_all (threads.exit_head threads.preemptive ++ threads.exit_unlink) m.sys l = (s, l'))
    (hpc : c.pc = P.context_switch) (ha0 : c.d.get a0 = m.tp + 16)
    (ha1 : c.d.get a1 = l'.next + 16) (hst : c.d.csr sstatus = exit_sstatus m.sstatus)
    (hspares : Spares m.owners m.tp s.mem c.d.mem) (h : P.Path pending c t)
    (ht : P.k.im.Left t) :
    Good P (es ++ [.exit m.tp]) { m with cpu := sret_state t.d } ∧
      Seen P (es ++ [.exit m.tp]) { m with cpu := sret_state t.d } := by
  obtain ⟨l0, hq0⟩ := hg.quiet.cons
  have hring := hg.quiet.ring
  rw [hq0] at hring
  obtain ⟨b, rest, rfl⟩ : ∃ b rest, l0 = b :: rest := by
    cases l0 with
    | nil => exact absurd (hring.next_eq_self_iff.mpr rfl) hmore
    | cons b rest => exact ⟨b, rest, rfl⟩
  have hq : queue P es = m.tp :: b :: rest := hq0
  obtain ⟨hnext, hring', htps, hbytes⟩ := exit_statements l hg.toResting hq hrun
  have htpq : m.tp ∈ queue P es := hq ▸ List.mem_cons_self
  have hin : ∀ x ∈ b :: rest, x ∈ queue P es := fun x hx => hq ▸ List.mem_cons_of_mem _ hx
  have hne : ∀ x ∈ b :: rest, x ≠ m.tp := fun x hx => hg.ne_tp (by rw [hq]; exact hx)
  obtain ⟨top, htop⟩ := hg.owned m.tp htpq
  have hlow := hg.laid.low _ htop
  have hbelow := hg.laid.below
  have hlt := m.next_stack.isLt
  dsimp only at hlow
  -- the context of the exited thread is written
  have hsame : SameBut m.tp top c.d.mem (loaded c.d).mem := loaded_same top (by omega) ha0
  have hword : ∀ x ∈ b :: rest, ∀ i, i ≤ 76 → ld32 (loaded c.d).mem (x + BitVec.ofNat 32 i) =
      ld32 s.mem (x + BitVec.ofNat 32 i) := by
    intro x hx i hi
    rw [hg.links_keep htop htpq (hin x hx) hsame (.inr ⟨hi, hne x hx⟩)]
    obtain ⟨T, hT⟩ := hg.owned x (hin x hx)
    refine hg.laid.field_keep hT hi fun a h1 h2 => ?_
    exact (hspares _ hT).1 a ⟨by dsimp only; omega, by dsimp only; omega⟩
  have hq' : queue P (es ++ [.exit m.tp]) = b :: rest := by
    rw [queue_snoc, hq]
    rfl
  refine Good.of_switch hg.laid hq' (fun x hx => hg.owned x (hin x hx)) ?_ ?_
    (ha1.trans (by rw [hnext])) (hst ▸ exit_enables _) (path_switch h ht hpc) ht
  · rw [creations_snoc]
    refine ⟨hg.quiet.heap, hg.quiet.stack, hg.quiet.objects.sub hin, ?_, rfl, ?_⟩
    · exact hring'.congr (fun x hx => hword x hx 8 (by omega))
        (fun x hx => hword x hx 12 (by omega))
    · intro x hx
      have hx' := List.mem_of_mem_tail hx
      exact (hword x hx' 28 (by omega)).trans (htps x hx')
  · intro p hp hpq
    obtain ⟨r, hr, hready⟩ := hg.ready p hp (by rw [hq]; exact hpq)
    rw [last_snoc]
    refine ⟨r, hr, ?_⟩
    -- over the statements, over the stack of the thread, and over its context
    have hstmts : P.Ready s.mem p.1 p.2 r := by
      refine hg.laid.ready_keep hp hready ?_ ?_
      · intro x h1 h2
        exact hbytes x (hg.context_not_link (hin _ hpq) h1 h2)
      · intro x hx
        exact hbytes x (hg.stack_not_link hp hx)
    have hcode : P.Ready c.d.mem p.1 p.2 r := by
      refine hg.laid.ready_keep hp hstmts ?_ ((hspares p hp).2 (hne _ hpq))
      exact fun a h1 h2 => (hspares p hp).1 a ⟨by omega, h2⟩
    exact hg.ready_keep htop htpq hp (hin _ hpq) (hne _ hpq) hsame hcode

end

/-! ## A new thread -/

section

variable {P : Program} {es : List Event} {m m' : Machine} {n : Nat} {s : Sys} {l : Locals}
  {q : List Word} {t top te back a0 pc : Word} {M : Mem}

/-- The memory after `thread_create` has set up the context and the stack of the thread. -/
def new_context (m : Mem) (t top te back a0 pc : Word) : Mem :=
  threads.first_frame (st32 (fill (st32 m (t + 28) t) (top - 4096) 0xee 4096) (t + 20) top)
    t top te back a0 pc

theorem create_context.run (lay : Layout) (fn arg : Word)
    (hroom : l.t.toNat + 80 + 128 ≤ s.next_stack.toNat) :
    run_all (threads.create_context threads.preemptive lay fn arg) s l =
      ({ s with
        mem := new_context s.mem l.t s.next_stack lay.trap_exit lay.thread_exit arg fn
        next_stack := s.next_stack - 4096 }, l) := by
  obtain ⟨M, hM⟩ : ∃ M, M = st32 (fill (st32 s.mem (l.t + 28) l.t) (s.next_stack - 4096) 0xee 4096)
      (l.t + 20) s.next_stack := ⟨_, rfl⟩
  have hsp : ld32 M (l.t + 20) = s.next_stack := by
    rw [hM]
    exact ld32_st32_same ..
  have hframe := threads.trap_frame.spec lay fn arg
    (s := { s with mem := M, next_stack := s.next_stack - 4096 }) (l := l) hsp hroom
  unfold threads.create_context new_context
  rw [threads.run_all_append, ← hM]
  have hfirst : run_all [fun s l => (s.store (l.t + 28) l.t, l),
      fun s l => ((threads.alloc_stack threads.preemptive s).1.store (l.t + 20)
        (threads.alloc_stack threads.preemptive s).2, l)] s l =
      ({ s with mem := M, next_stack := s.next_stack - 4096 }, l) := by
    rw [hM]
    rfl
  rw [hfirst]
  exact hframe

/-- Where the words of the context and of the first frame are. -/
theorem new_context.places (hroom : t.toNat + 80 + 128 ≤ top.toNat) :
    (t + 16).toNat = t.toNat + 16 ∧ (t + 20).toNat = t.toNat + 20 ∧
      (t + 28).toNat = t.toNat + 28 ∧ (top - 128).toNat = top.toNat - 128 ∧
      (top - 128 + 0x20).toNat = top.toNat - 128 + 0x20 ∧
      (top - 128 + 0x40).toNat = top.toNat - 128 + 0x40 := by
  bv_omega

/-- The words that are written last, wherever the stack is. -/
theorem new_context.entry (M : Mem) (te back a0 pc : Word)
    (hroom : t.toNat + 80 + 128 ≤ top.toNat) :
    ld32 (new_context M t top te back a0 pc) (t + 16) = te ∧
      ld32 (new_context M t top te back a0 pc) (t + 20) = top - 128 ∧
      ld32 (new_context M t top te back a0 pc) (t + 28) =
        ld32 (fill (st32 M (t + 28) t) (top - 4096) 0xee 4096) (t + 28) := by
  have hlt := top.isLt
  obtain ⟨e16, e20, e28, ef, ea, ec⟩ := new_context.places hroom
  have hframe (m : Mem) (a : Word) (h1 : t.toNat ≤ a.toNat) (h2 : a.toNat ≤ t.toNat + 76) :
      ld32 (st32 (st32 (st32 (fill m (top - 128) 0 80) (top - 128) back) (top - 128 + 0x20) a0)
        (top - 128 + 0x40) pc) a = ld32 m a := by
    rw [threads.ld32_st32_out _ _ (by omega) (by omega) (by omega),
      threads.ld32_st32_out _ _ (by omega) (by omega) (by omega),
      threads.ld32_st32_out _ _ (by omega) (by omega) (by omega),
      threads.ld32_fill_out _ _ (by omega) (by omega) (by omega)]
  unfold new_context threads.first_frame
  refine ⟨?_, ?_, ?_⟩
  · rw [hframe _ _ (by omega) (by omega),
      threads.ld32_st32_out _ _ (by omega) (by omega) (by omega), ld32_st32_same]
  · rw [hframe _ _ (by omega) (by omega), ld32_st32_same]
  · rw [hframe _ _ (by omega) (by omega),
      threads.ld32_st32_out _ _ (by omega) (by omega) (by omega),
      threads.ld32_st32_out _ _ (by omega) (by omega) (by omega),
      threads.ld32_st32_out _ _ (by omega) (by omega) (by omega)]

theorem new_context.fresh {P : Program} {fn arg : Word} (hfn : fn.toNat % 4 = 0)
    (hroom : t.toNat + 80 + 4096 ≤ top.toNat) :
    P.Fresh (new_context M t top P.lay.trap_exit P.lay.thread_exit arg fn) t top fn arg := by
  have hlt := top.isLt
  have hroom' : t.toNat + 80 + 128 ≤ top.toNat := by omega
  obtain ⟨-, -, e28, ef, ea, ec⟩ := new_context.places hroom'
  have eb : (top - 4096).toNat = top.toNat - 4096 := by bv_omega
  have esp : t + 16 + 0x04 = t + 20 := BitVec.add_assoc ..
  have etp : t + 16 + 0x0C = t + 28 := BitVec.add_assoc ..
  have e0 : top - 128 + 0x00 = top - 128 := BitVec.add_zero _
  obtain ⟨hpc, hsp, htp⟩ := new_context.entry M P.lay.trap_exit P.lay.thread_exit arg fn
    hroom'
  refine ⟨hfn, hpc, ?_, ?_, ?_, ?_, ?_⟩
  · rw [esp]
    exact hsp
  · rw [etp, htp, threads.ld32_fill_out _ _ (by omega) (by omega) (by omega), ld32_st32_same]
  · unfold new_context threads.first_frame
    rw [e0, threads.ld32_st32_out _ _ (by omega) (by omega) (by omega),
      threads.ld32_st32_out _ _ (by omega) (by omega) (by omega), ld32_st32_same]
  · unfold new_context threads.first_frame
    rw [threads.ld32_st32_out _ _ (by omega) (by omega) (by omega), ld32_st32_same]
  · exact ld32_st32_same ..

theorem new_context.bytes (hroom : t.toNat + 80 + 128 ≤ top.toNat) (htop : 4096 ≤ top.toNat)
    {x : Word} (hx : x.toNat < t.toNat + 16 ∨ t.toNat + 80 ≤ x.toNat) (hstack : ¬ InStack top x) :
    new_context M t top te back a0 pc x = M x := by
  have hlt := top.isLt
  obtain ⟨e16, e20, e28, ef, ea, ec⟩ := new_context.places hroom
  have eb : (top - 4096).toNat = top.toNat - 4096 := by bv_omega
  unfold InStack at hstack
  unfold new_context threads.first_frame
  rw [st32_out (by omega) (by omega), st32_out (by omega) (by omega),
    st32_out (by omega) (by omega), fill_keep (by omega) (by omega),
    st32_out (by omega) (by omega), st32_out (by omega) (by omega),
    st32_out (by omega) (by omega), fill_keep (by omega) (by omega),
    st32_out (by omega) (by omega)]

/-- What `thread_create` does, while the heap and the stacks have not met. -/
structure CreatedBy (P : Program) (q : List Word) (n : Nat) (fn arg : Word) (s s' : Sys) :
    Prop where
  quiet : threads.Quiet threads.preemptive s' (q ++ [s.next_heap]) (n + 1)
  next_heap : s'.next_heap = s.next_heap + 96
  next_stack : s'.next_stack = s.next_stack - 4096
  tp : s'.tp = s.tp
  fresh : P.Fresh s'.mem s.next_heap s.next_stack fn arg
  bytes : ∀ x : Word, x.toNat < s.next_heap.toNat ∨ s.next_heap.toNat + 96 ≤ x.toNat →
    ¬ InStack s.next_stack x → (∀ y ∈ q, x.toNat < y.toNat + 8 ∨ y.toNat + 16 ≤ x.toNat) →
    s'.mem x = s.mem x

theorem thread_create.run {s' : Sys} {l' : Locals} {fn arg : Word}
    (hfn : fn.toNat % 4 = 0) (h : threads.Quiet threads.preemptive s q n)
    (hfits : threads.preemptive.Fits (n + 1))
    (hrun : run_all (threads.thread_create threads.preemptive P.lay fn arg) s l = (s', l')) :
    l'.t = s.next_heap ∧ CreatedBy P q n fn arg s s' := by
  have hheap := h.heap
  have hstack := h.stack
  have h4096 : threads.preemptive.stack_size.toNat = 4096 := rfl
  unfold threads.Lib.Fits at hfits
  rw [h4096] at hfits hstack
  obtain ⟨s1, hspec, hquiet⟩ := @threads.thread_create.spec _ P.lay _ _ _ h (by decide)
    (by unfold threads.Lib.Fits; rw [h4096]; exact hfits) fn arg l
  rw [hrun, Prod.mk.injEq] at hspec
  obtain ⟨rfl, rfl⟩ := hspec
  obtain ⟨M, hlink, -, -, hbytes⟩ := threads.create_link.spec h (by omega) l
  unfold threads.thread_create at hrun
  rw [threads.run_all_append, hlink, create_context.run _ _ _ (by
    show s.next_heap.toNat + 80 + 128 ≤ s.next_stack.toNat
    omega), Prod.mk.injEq] at hrun
  obtain ⟨rfl, -⟩ := hrun
  refine ⟨rfl, hquiet, rfl, rfl, rfl, new_context.fresh hfn (by
    show s.next_heap.toNat + 80 + 4096 ≤ s.next_stack.toNat
    omega), ?_⟩
  intro x hx hout hq
  refine (new_context.bytes (by
    show s.next_heap.toNat + 80 + 128 ≤ s.next_stack.toNat
    omega) (by
    show 4096 ≤ s.next_stack.toNat
    omega) ?_ hout).trans (hbytes x hx hq)
  show x.toNat < s.next_heap.toNat + 16 ∨ s.next_heap.toNat + 80 ≤ x.toNat
  omega

/-- The new thread and its stack are between the others. -/
theorem Laid.created {s' : Sys} (h : Laid m) (hheap : s'.next_heap.toNat = m.next_heap.toNat + 96)
    (hstack : s'.next_stack.toNat + 4096 = m.next_stack.toNat)
    (hroom : s'.next_heap.toNat ≤ s'.next_stack.toNat)
    (htop : m.next_stack.toNat ≤ MEMORY_TOP.toNat) : Laid (m.created s' m.next_heap) := by
  have hfresh : ∀ p ∈ m.owners, p.1 ≠ m.next_heap := by
    intro p hp e
    have hlow := h.low p hp
    rw [e] at hlow
    omega
  refine ⟨hroom, ?_, ?_, ?_, ?_⟩
  · intro p hp
    show p.1.toNat + 80 ≤ s'.next_heap.toNat
    obtain hp | hp := List.mem_append.mp hp
    · have hlow := h.low p hp
      omega
    · rw [List.mem_singleton.mp hp]
      show m.next_heap.toNat + 80 ≤ _
      omega
  · intro p hp
    show s'.next_stack.toNat + 4096 ≤ p.2.toNat ∧ _
    obtain hp | hp := List.mem_append.mp hp
    · have hhigh := h.high p hp
      omega
    · rw [List.mem_singleton.mp hp]
      show s'.next_stack.toNat + 4096 ≤ m.next_stack.toNat ∧ m.next_stack.toNat ≤ _
      omega
  · intro p hp p' hp' hne
    obtain hp | hp := List.mem_append.mp hp <;> obtain hp' | hp' := List.mem_append.mp hp'
    · exact h.apart p hp p' hp' hne
    · rw [List.mem_singleton.mp hp']
      exact .inr (h.high p hp).1
    · rw [List.mem_singleton.mp hp]
      exact .inl (h.high p' hp').1
    · rw [List.mem_singleton.mp hp, List.mem_singleton.mp hp'] at hne
      exact absurd rfl hne
  · intro p hp p' hp' heq
    obtain hp | hp := List.mem_append.mp hp <;> obtain hp' | hp' := List.mem_append.mp hp'
    · exact h.once p hp p' hp' heq
    · rw [List.mem_singleton.mp hp'] at heq
      exact absurd heq (hfresh p hp)
    · rw [List.mem_singleton.mp hp] at heq
      exact absurd heq.symm (hfresh p' hp')
    · rw [List.mem_singleton.mp hp, List.mem_singleton.mp hp']

/-- The others wait as before. -/
theorem Resting.ready_created {s' : Sys} {fn arg : Word} {p : Word × Word} {r : Record}
    (hg : Resting P es m) (hc : CreatedBy P (queue P es) n fn arg m.sys s')
    (hroom : m.next_heap.toNat + 96 + 4096 ≤ m.next_stack.toNat) (hp : p ∈ m.owners)
    (hpq : p.1 ∈ queue P es) (hr : P.Ready m.mem p.1 p.2 r) : P.Ready s'.mem p.1 p.2 r := by
  have hlow := hg.laid.low p hp
  have hhigh := hg.laid.high p hp
  refine hg.laid.ready_keep hp hr ?_ ?_
  · intro x h1 h2
    apply hc.bytes x
    · show x.toNat < m.next_heap.toNat ∨ _
      omega
    · show ¬ InStack m.next_stack x
      unfold InStack
      omega
    · exact hg.context_not_link hpq h1 h2
  · intro x hx
    have hover := hg.stack_not_link hp hx
    unfold InStack at hx
    apply hc.bytes x
    · show _ ∨ m.next_heap.toNat + 96 ≤ x.toNat
      omega
    · show ¬ InStack m.next_stack x
      unfold InStack
      omega
    · exact hover

/-- `thread_create`, and what the running thread does until its next step. -/
theorem Good.create {s' : Sys} {l' : Locals} {fn arg : Word} (hfn : fn.toNat % 4 = 0)
    (hg : Good P es m)
    (hfits : threads.preemptive.Fits (creations es + 1))
    (hrun : run_all (threads.thread_create threads.preemptive P.lay fn arg) m.sys l = (s', l'))
    (hk : P.Keeps (m.created s' l'.t) m') :
    Good P (es ++ [.create l'.t fn arg m.next_stack]) m' := by
  obtain ⟨ht, hc⟩ := thread_create.run hfn hg.quiet hfits hrun
  have hheap : m.next_heap.toNat = 0x40100000 + 96 * creations es := hg.quiet.heap
  have hstack : m.next_stack.toNat + 4096 * creations es = 0x41FFF000 := hg.quiet.stack
  have h4096 : threads.preemptive.stack_size.toNat = 4096 := rfl
  have hmem : MEMORY_TOP.toNat = 0x42000000 := rfl
  unfold threads.Lib.Fits at hfits
  rw [h4096] at hfits
  have hheap' : s'.next_heap.toNat = m.next_heap.toNat + 96 := by
    have e : s'.next_heap = m.next_heap + 96 := hc.next_heap
    rw [e]
    bv_omega
  have hstack' : s'.next_stack.toNat + 4096 = m.next_stack.toNat := by
    have e : s'.next_stack = m.next_stack - 4096 := hc.next_stack
    rw [e]
    bv_omega
  have hfresh : ∀ p ∈ m.owners, p.1 ≠ m.next_heap := by
    intro p hp e
    have hlow := hg.laid.low p hp
    rw [e] at hlow
    omega
  have hq' : queue P (es ++ [.create m.next_heap fn arg m.next_stack]) =
      queue P es ++ [m.next_heap] := queue_snoc ..
  have ht' : l'.t = m.next_heap := ht
  rw [ht'] at hk ⊢
  have hrest : Resting P (es ++ [.create m.next_heap fn arg m.next_stack])
      (m.created s' m.next_heap) := by
    refine ⟨?_, hg.laid.created hheap' hstack' (by omega) (by omega), ?_, ?_⟩
    · rw [hq', creations_snoc]
      exact quiet_same hc.quiet rfl rfl hc.tp.symm fun _ _ _ _ => rfl
    · rw [hq']
      intro a ha
      obtain ha | ha := List.mem_append.mp ha
      · obtain ⟨T, hT⟩ := hg.owned a ha
        exact ⟨T, List.mem_append_left _ hT⟩
      · rw [List.mem_singleton.mp ha]
        exact ⟨m.next_stack, List.mem_append_right _ (List.mem_singleton_self _)⟩
    · obtain ⟨rest, hq⟩ := hg.quiet.cons
      rw [hq', hq]
      intro p hp hpq
      rw [last_snoc]
      obtain hp | hp := List.mem_append.mp hp
      · have hpq' : p.1 ∈ rest := by
          obtain hpq | hpq := List.mem_append.mp hpq
          · exact hpq
          · exact absurd (List.mem_singleton.mp hpq) (hfresh p hp)
        obtain ⟨r, hr, hready⟩ := hg.ready p hp (by rw [hq]; exact hpq')
        have hpin : p.1 ∈ queue P es := hq ▸ List.mem_cons_of_mem _ hpq'
        exact ⟨r, (if_neg (hfresh p hp)).trans hr, hg.ready_created hc (by omega) hp hpin hready⟩
      · rw [List.mem_singleton.mp hp]
        exact ⟨_, if_pos rfl, rfl, hc.fresh⟩
  exact hrest.keeps hk

/-! ## The law -/

theorem Good.step {e : Event} (hP : P.Obeys) (hg : Good P es m) (hs : P.Step m e m')
    (hfits : threads.preemptive.Fits (creations (es ++ [e]))) :
    Good P (es ++ [e]) m' ∧ (e.Switches → Seen P (es ++ [e]) m') := by
  cases hs with
  | own hk => exact ⟨hg.own hk, fun h => h.elim⟩
  | create fn arg l hfn hrun hk =>
    rw [creations_snoc] at hfits
    exact ⟨hg.create hfn hfits hrun hk, fun h => h.elim⟩
  | interrupt pending cause hat hen hneg h ht =>
    obtain ⟨hgood, hseen⟩ := hg.interrupt hP hat hen hneg h ht
    exact ⟨hgood, fun _ => hseen⟩
  | exit pending l hmore hrun hpc ha0 ha1 htp hst hspares h ht =>
    obtain ⟨hgood, hseen⟩ := hg.exit l hmore hrun hpc ha0 ha1 hst hspares h ht
    exact ⟨hgood, fun _ => hseen⟩

theorem Good.start (h : P.Start m) : Good P [] m := by
  obtain ⟨⟨heap, hstate, -⟩, -, -, -, -⟩ := @threads.Inv.start threads.preemptive _ _ h.library
  have hbelow := P.lay.thread0_below
  have hheap : m.next_heap.toNat = 0x40100000 := by
    have e : m.next_heap = threads.DRAM_BASE + 1024 * 1024 := h.library.next_heap
    rw [e]
    decide
  have hstack : m.next_stack.toNat = 0x41FFF000 := by
    have e : m.next_stack = MEMORY_TOP - 4096 := h.library.next_stack
    rw [e]
    decide
  have hmem : MEMORY_TOP.toNat = 0x42000000 := rfl
  have hone {p : Word × Word} (hp : p ∈ m.owners) : p = (P.lay.thread0, MEMORY_TOP) := by
    rw [h.owners] at hp
    exact List.mem_singleton.mp hp
  refine ⟨⟨?_, ⟨by omega, ?_, ?_, ?_, ?_⟩, ?_, ?_⟩, ?_⟩
  · cases hstate with
    | user hquiet _ => exact hquiet
  · intro p hp
    rw [hone hp]
    show P.lay.thread0.toNat + 80 ≤ _
    omega
  · intro p hp
    rw [hone hp]
    show _ + 4096 ≤ MEMORY_TOP.toNat ∧ MEMORY_TOP.toNat ≤ _
    omega
  · intro p hp p' hp' hne
    rw [hone hp, hone hp'] at hne
    exact absurd rfl hne
  · intro p hp p' hp' _
    rw [hone hp, hone hp']
  · intro a ha
    rw [List.mem_singleton.mp ha, h.owners]
    exact ⟨_, List.mem_singleton_self _⟩
  · exact fun p _ hq => absurd hq List.not_mem_nil
  · intro hen p hp _
    rw [hone hp]
    exact h.room hen

theorem run_good {m0 : Machine} (hP : P.Obeys) (h0 : P.Start m0) (h : Run P.Step m0 es m)
    (hfits : threads.preemptive.Fits (creations es)) : Good P es m := by
  induction h with
  | nil => exact Good.start h0
  | @snoc ls _ _ e _ hlast ih =>
    refine ((ih (hfits.mono ?_)).step hP hlast hfits).1
    rw [creations_snoc]
    exact Nat.le_add_right _ _

/-- Whenever a thread is given the processor, by an interrupt or by the exit of another one, it has
the pc and the registers of its last interruption. At its first time it starts at `fn` with `arg`
in `a0`, the way to `thread_exit` in `ra`, its own `thread_t` in `tp`, and `sp` at the top of its
own stack. Interrupts are enabled. -/
theorem threads_see_only_their_own_registers {m0 : Machine} {e : Event} (hP : P.Obeys)
    (h0 : P.Start m0) (h : Run P.Step m0 (es ++ [e]) m)
    (hfits : threads.preemptive.Fits (creations (es ++ [e]))) (he : e.Switches) :
    ∃ t r, (queue P (es ++ [e])).head? = some t ∧ last t (es ++ [e]) = some r ∧
      P.Sees t m.cpu r ∧ m.Enabled := by
  generalize hes : es ++ [e] = es' at h
  cases h with
  | nil => exact absurd hes (by simp)
  | @snoc ls m1 _ e' hrun hlast =>
    obtain ⟨rfl, hee⟩ := List.append_inj' hes rfl
    obtain rfl : e = e' := by simpa using hee
    have hbefore : Good P es m1 := by
      refine run_good hP h0 hrun (hfits.mono ?_)
      rw [creations_snoc]
      exact Nat.le_add_right _ _
    exact (hbefore.step hP hlast hfits).2 he

end

/-! ## Steps of a program -/

section

variable {P : Program} {m : Machine}

theorem Machine.keeps (h : m.Enabled → ∀ p ∈ m.owners, p.1 = m.tp → HasRoom P.room p.2 m.sp) :
    P.Keeps m m :=
  ⟨rfl, rfl, rfl, rfl, rfl, fun _ _ => ⟨fun _ _ => rfl, fun _ _ _ => rfl⟩, h⟩

theorem create_enables (m : Machine) (s : Sys) (t : Word) : (m.created s t).Enabled := by
  show (m.sstatus ||| SSTATUS_SIE) &&& SSTATUS_SIE ≠ 0
  rw [or_keeps_bit]
  decide

/-- A switch to a thread that is about to go to `trap_exit`. -/
theorem runs_to_exit {u : State} (pending : Bool) (hpc : u.pc = P.context_switch)
    (hback : ld32 (loaded u.d).mem (u.d.get a1) = P.lay.trap_exit) :
    P.Path pending u ⟨P.k.im.loc 41, line P.k.im.addr (vectors.exit_part .single) (loaded u.d)⟩ ∧
      P.k.im.Left ⟨P.k.im.loc 41, line P.k.im.addr (vectors.exit_part .single) (loaded u.d)⟩ := by
  have hswitch : P.Path pending u (switched u.d) := runs_switch hpc
  have htarget : switched u.d = ⟨P.k.im.loc 22, loaded u.d⟩ := by
    have hpc' := switched_pc u.d
    rw [hback, P.trap_exit, P.k.labels .trap_exit 22 rfl, aligned_back] at hpc'
    rw [← hpc']
    rfl
  rw [htarget] at hswitch
  obtain ⟨hout, hleft⟩ := runs_exit P pending (loaded u.d)
  exact ⟨hswitch.trans hout, hleft⟩

/-- An interrupt whose handler calls `context_switch` for such a thread. -/
theorem interrupt_step {u : State} (cause : Word) (hat : m.cpu.pc.toNat % 4 = 0)
    (hen : m.Enabled) (hneg : ¬ (0 : Word).sle cause)
    (hu : P.code true (P.handler_entry (trap_csrs SSTATUS_SPP m.cpu cause)) u)
    (hpc : u.pc = P.context_switch)
    (hback : ld32 (loaded u.d).mem (u.d.get a1) = P.lay.trap_exit) :
    P.Step m (.interrupt true m.tp m.cpu.pc m.cpu.d.get)
      { m with
        cpu := sret_state (line P.k.im.addr (vectors.exit_part .single) (loaded u.d)) } := by
  have hin := runs_trap P true (d := trap_csrs SSTATUS_SPP m.cpu cause) hneg
  have hcode : P.Path true (P.handler_entry (trap_csrs SSTATUS_SPP m.cpu cause)) u :=
    runs_code (P.k.outside .interrupt_handler rfl) P.switch_apart.symm hu
  obtain ⟨hout, hleft⟩ := runs_to_exit true hpc hback
  exact .interrupt true cause hat hen hneg ((hin.trans hcode).trans hout) hleft

/-- The call of `context_switch` in `thread_exit`, for the thread `b`. -/
def exit_call (P : Program) (m : Machine) (M : Mem) (b : Word) : State :=
  ⟨P.context_switch, (({ m.cpu.d with mem := M }.set .a0 (m.tp + 16)).set .a1 (b + 16)).setCsr
    .sstatus (exit_sstatus m.sstatus)⟩

theorem exit_step {s : Sys} {l l' : Locals} (hmore : threads.next m.mem m.tp ≠ m.tp)
    (hrun : run_all (threads.exit_head threads.preemptive ++ threads.exit_unlink) m.sys l = (s, l'))
    (hback : ld32 (loaded (exit_call P m s.mem l'.next).d).mem (l'.next + 16) = P.lay.trap_exit) :
    P.Step m (.exit m.tp)
      { m with
        cpu := sret_state (line P.k.im.addr (vectors.exit_part .single)
          (loaded (exit_call P m s.mem l'.next).d)) } := by
  have ha1 : (exit_call P m s.mem l'.next).d.get .a1 = l'.next + 16 :=
    get_set_same ({ m.cpu.d with mem := s.mem }.set .a0 (m.tp + 16)) _ (by decide)
  obtain ⟨hout, hleft⟩ := runs_to_exit (P := P) (u := exit_call P m s.mem l'.next) true rfl
    (by rw [ha1]; exact hback)
  exact .exit true l hmore hrun rfl rfl ha1 rfl rfl (fun _ _ => ⟨fun _ _ => rfl, fun _ _ _ => rfl⟩)
    hout hleft

end

/-! ## A program -/

/-- `interrupt_handler` compiled to a tail call. It acknowledges the timer, whose `EV_PENDING` is
at 0xF0002018. -/
def tail_call (pending : Bool) (c u : State) : Prop :=
  u = if pending then
    ⟨0x40009100, ((c.d.store 0xF0002018 1).set .a0 (c.d.get .tp + 16)).set .a1
      (threads.next c.d.mem (c.d.get .tp) + 16)⟩
  else ⟨c.d.get .ra, c.d⟩

theorem far_from_text : (vectors.a_link .single).im.fetch 0x40009100 = none := by decide

theorem far_from_handler :
    (0x40009100 : Word) ≠ (vectors.a_link .single).im.addr .interrupt_handler := by decide

theorem no_room_needed : 0 + 128 ≤ 4096 := by decide

def a_program : Program where
  lay := { threads.a_layout with trap_exit := (vectors.a_link .single).im.addr .trap_exit }
  k := vectors.a_link .single
  trap_exit := rfl
  context_switch := 0x40009100
  switch_outside := far_from_text
  switch_apart := far_from_handler
  code := tail_call
  room := 0
  room_le := no_room_needed

theorem a_program_obeys : a_program.Obeys := by
  rintro (_ | _) c u hc rfl
  · exact ⟨rfl, fun _ _ => rfl, fun _ _ _ => rfl, rfl⟩
  · have hkept (r : Reg) (h0 : r ≠ .a0) (h1 : r ≠ .a1) :
        (((c.d.store 0xF0002018 1).set .a0 (c.d.get .tp + 16)).set .a1
          (threads.next c.d.mem (c.d.get .tp) + 16)).get r = c.d.get r := by
      rw [get_set_ne _ _ h1, get_set_ne _ _ h0, get_store]
    have hsp := hkept .sp (by decide) (by decide)
    refine ⟨⟨rfl, hkept .tp (by decide) (by decide), ?_, ?_, ?_, rfl,
      .tail_call (hkept .ra (by decide) (by decide)) ?_⟩,
      (get_set_ne _ _ (by decide)).trans (get_set_same _ _ (by decide)),
      get_set_same _ _ (by decide)⟩
    · exact Nat.le_of_eq (congrArg BitVec.toNat hsp.symm)
    · exact Nat.le_of_eq (congrArg BitVec.toNat hsp)
    · intro a ha _
      have htop : MEMORY_TOP.toNat = 0x42000000 := rfl
      have hdev : (0xF0002018 : Word).toNat = 0xF0002018 := rfl
      exact st32_out (by omega) (by omega)
    · intro r hr
      have hnames : ∀ r ∈ preserved, r ≠ .a0 ∧ r ≠ .a1 := by decide
      exact hkept r (hnames r hr).1 (hnames r hr).2

/-- After `thread_init`, with interrupts masked. -/
def a_machine : Machine where
  cpu :=
    { pc := 0x40010100
      d :=
        { x := fun r => if r = .tp then 0x40010000 else if r = .sp then MEMORY_TOP else 0
          csr := fun _ => 0
          mem := threads.a_start.sys.mem } }
  next_stack := MEMORY_TOP - 4096
  next_heap := threads.DRAM_BASE + 1024 * 1024
  next_thread_id := 1
  owners := [(0x40010000, MEMORY_TOP)]

theorem a_machine_starts : a_program.Start a_machine where
  library :=
    { next_stack := rfl
      next_heap := rfl
      tp := rfl
      next := threads.a_start_starts.next
      prev := threads.a_start_starts.prev
      pc := rfl }
  owners := rfl
  room := fun _ => ⟨by decide, Nat.le_refl _⟩

section

variable {es : List Event} {m : Machine} {b top : Word}

theorem a_creation (h : Run a_program.Step a_machine es m)
    (hfits : threads.preemptive.Fits (creations es + 1))
    (hroom : ∀ p ∈ m.owners, p.1 = m.tp → HasRoom a_program.room p.2 m.sp) :
    ∃ m', a_program.Step m (.create m.next_heap 0x40010200 7 m.next_stack) m' ∧ m'.Enabled ∧
      m'.cpu.pc = m.cpu.pc := by
  have hg : Good a_program es m :=
    run_good a_program_obeys a_machine_starts h (hfits.mono (Nat.le_add_right _ 1))
  obtain ⟨s', l', hrun⟩ : ∃ s' l', run_all (threads.thread_create threads.preemptive a_program.lay
      0x40010200 7) m.sys ⟨0, 0, 0⟩ = (s', l') := ⟨_, _, rfl⟩
  obtain ⟨ht, -⟩ := thread_create.run (by decide) hg.quiet hfits hrun
  have hstep : a_program.Step m (.create l'.t 0x40010200 7 m.next_stack) (m.created s' l'.t) := by
    refine .create _ _ _ (by decide) hrun (Machine.keeps fun _ p hp htp => ?_)
    obtain hp | hp := List.mem_append.mp hp
    · exact hroom p hp htp
    · -- the running thread is below the heap's end
      rw [List.mem_singleton.mp hp, ht] at htp
      obtain ⟨rest, hq⟩ := hg.quiet.cons
      have hbelow := hg.quiet.objects.below m.tp (hq ▸ List.mem_cons_self)
      have hsame : m.sys.next_heap = m.tp := htp
      rw [hsame] at hbelow
      omega
  rw [ht] at hstep
  exact ⟨_, hstep, create_enables m s' m.sys.next_heap, rfl⟩

/-- An interrupt of the running thread, whose `next` is at `b`. -/
theorem an_interrupt (b top : Word) (hat : m.cpu.pc.toNat % 4 = 0) (hen : m.Enabled)
    (hroom : HasRoom 0 top m.sp) (hlow : m.tp.toNat + 80 + 4096 ≤ top.toNat)
    (hram : top.toNat ≤ MEMORY_TOP.toNat)
    (hnext : threads.next m.mem m.tp = b)
    (hb : b.toNat + 80 ≤ m.tp.toNat ∨ m.tp.toNat + 80 ≤ b.toNat)
    (hb' : b.toNat + 80 + 4096 ≤ top.toNat)
    (hpc : ld32 m.mem (b + 16) = a_program.lay.trap_exit) :
    ∃ m', a_program.Step m (.interrupt true m.tp m.cpu.pc m.cpu.d.get) m' ∧
      SameBut m.tp top m.mem m'.mem ∧ ld32 m'.mem (m.tp + 16) = a_program.lay.trap_exit ∧
      m'.tp = ld32 m'.mem (b + 16 + 0x0C) := by
  have hmem : MEMORY_TOP.toNat = 0x42000000 := rfl
  have hc : a_program.AtHandler m top
      (a_program.handler_entry (trap_csrs SSTATUS_SPP m.cpu 0x80000009)) :=
    at_handler hat hen hram hroom hlow
  obtain ⟨c, hce⟩ : ∃ c, c = a_program.handler_entry (trap_csrs SSTATUS_SPP m.cpu 0x80000009) :=
    ⟨_, rfl⟩
  rw [← hce] at hc
  obtain ⟨u, hu⟩ : ∃ u, tail_call true c u := ⟨_, rfl⟩
  have hcalls : a_program.Calls c u (c.d.get .tp + 16) (threads.next c.d.mem (c.d.get .tp) + 16) :=
    a_program_obeys hc.entered hu
  have hctp : c.d.get .tp = m.tp := hc.trapped.regs .tp (by decide) (by decide)
  rw [hctp] at hcalls
  obtain ⟨hsus, hsame⟩ := suspended hlow hram hc hcalls
  have hcnext : threads.next c.d.mem m.tp = b := by
    rw [← hnext]
    have e8 : (m.tp + 8).toNat = m.tp.toNat + 8 :=
      threads.field_toNat (i := 8) (by omega) (by omega)
    refine ld32_keep (by omega) fun a h1 h2 => hc.mem a ?_
    unfold InStack
    omega
  have ha1 : u.d.get a1 = b + 16 := by
    rw [hcalls.a1, hcnext]
  have hback : ld32 (loaded u.d).mem (u.d.get a1) = a_program.lay.trap_exit := by
    have e16 : (b + 16).toNat = b.toNat + 16 :=
      threads.field_toNat (i := 16) (by omega) (by omega)
    rw [ha1, ← hpc]
    refine ld32_keep (by omega) fun a h1 h2 => hsame a (by omega) ?_ (by omega)
    unfold InStack
    omega
  have hstep := interrupt_step 0x80000009 hat hen (by decide) (hce ▸ hu) hcalls.pc hback
  have hz := vectors.exit_part.spec .single a_program.k.im.addr (loaded u.d)
  refine ⟨_, hstep, ?_, ?_, ?_⟩
  · intro x hx hout hctxt
    exact (congrFun hz.mem x).trans (hsame x hx hout hctxt)
  · have hword := hsus.words (.ra, 0x00) List.mem_cons_self
    have e0 : m.tp + 16 + 0x00 = m.tp + 16 := BitVec.add_zero _
    have hra : u.d.get .ra = a_program.lay.trap_exit := by
      rw [hu]
      exact hc.trapped.back
    dsimp only at hword
    rw [e0, hra] at hword
    show ld32 (line a_program.k.im.addr (vectors.exit_part .single) (loaded u.d)).mem _ = _
    rw [hz.mem]
    exact hword
  · show (line a_program.k.im.addr (vectors.exit_part .single) (loaded u.d)).get .tp =
      ld32 (line a_program.k.im.addr (vectors.exit_part .single) (loaded u.d)).mem _
    rw [hz.mem, hz.others .tp (by decide) (by decide),
      (loaded.spec u.d).regs (.tp, 0x0C) (by decide), ha1]

/-- The running thread exits, and the other one of two goes on. -/
theorem an_exit (hg : Good a_program es m) (hq : queue a_program es = [m.tp, b])
    (hpc : ld32 m.mem (b + 16) = a_program.lay.trap_exit) :
    ∃ m', a_program.Step m (.exit m.tp) m' ∧ m'.cpu.pc.toNat % 4 = 0 := by
  obtain ⟨s, l', hrun⟩ : ∃ s l', run_all (threads.exit_head threads.preemptive ++
      threads.exit_unlink) m.sys ⟨0, 0, 0⟩ = (s, l') := ⟨_, _, rfl⟩
  obtain ⟨hnext, -, -, hbytes⟩ := exit_statements _ hg.toResting hq hrun
  have hring := hg.quiet.ring
  rw [hq] at hring
  have hne : b ≠ m.tp := by
    rintro rfl
    exact (List.nodup_cons.mp hring.nodup).1 List.mem_cons_self
  have hmore : threads.next m.mem m.tp ≠ m.tp := by
    have e : threads.next m.mem m.tp = b := hring.2.1
    rw [e]
    exact hne
  have hbq : b ∈ queue a_program es := by simp [hq]
  have htpq : m.tp ∈ queue a_program es := by simp [hq]
  obtain ⟨top, htop⟩ := hg.owned _ htpq
  obtain ⟨T, hT⟩ := hg.owned _ hbq
  have hlow := hg.laid.low _ htop
  have hbelow := hg.laid.below
  have hlt := m.next_stack.isLt
  dsimp only at hlow
  refine ⟨_, exit_step hmore hrun ?_, ?_⟩
  swap
  · show ((line _ (vectors.exit_part .single) _).csr .sepc).toNat % 4 = 0
    rw [(vectors.exit_part.spec .single _ _).pc]
    exact legal_sepc _
  have ha0 : (exit_call a_program m s.mem l'.next).d.get .a0 = m.tp + 16 := rfl
  have hsame := loaded_same top (by omega) ha0
  rw [hnext] at hsame ⊢
  refine (hg.links_keep htop htpq hbq hsame (i := 16) (.inr ⟨by omega, hne⟩)).trans ?_
  refine Eq.trans ?_ hpc
  refine hg.laid.field_keep hT (i := 16) (by omega) fun a h1 h2 => hbytes a ?_
  exact hg.context_not_link hbq h1 (by omega)

/-- `thread0` runs alone, with room on its stack. -/
structure Home (es : List Event) (m : Machine) : Prop where
  run : Run a_program.Step a_machine es m
  aligned : m.cpu.pc.toNat % 4 = 0
  alone : queue a_program es = [a_program.lay.thread0]
  room : ∀ p ∈ m.owners, p.1 = m.tp → HasRoom a_program.room p.2 m.sp

theorem Home.start : Home [] a_machine where
  run := .nil
  aligned := by decide
  alone := rfl
  room := by
    intro p hp _
    rw [List.mem_singleton.mp hp]
    exact ⟨by decide, Nat.le_refl _⟩

/-- `thread0` creates a thread and is interrupted, so that the new thread has its turn. -/
theorem Home.hands_over (h : Home es m) (hfits : threads.preemptive.Fits (creations es + 1)) :
    ∃ e1 e2 b m2, Run a_program.Step a_machine (es ++ [e1] ++ [e2]) m2 ∧
      queue a_program (es ++ [e1]) = [a_program.lay.thread0, b] ∧
      queue a_program (es ++ [e1] ++ [e2]) = [b, a_program.lay.thread0] ∧
      (∃ t pc x, e2 = .interrupt true t pc x) ∧
      creations (es ++ [e1] ++ [e2]) = creations es + 1 ∧
      ld32 m2.mem (a_program.lay.thread0 + 16) = a_program.lay.trap_exit := by
  have hg : Good a_program es m :=
    run_good a_program_obeys a_machine_starts h.run (hfits.mono (Nat.le_add_right _ 1))
  -- the creation
  obtain ⟨m1, hs1, hen1, hpc1⟩ := a_creation h.run hfits h.room
  generalize he1 : Event.create m.next_heap 0x40010200 7 m.next_stack = e1 at hs1
  have hq1 : queue a_program (es ++ [e1]) = [a_program.lay.thread0, m.next_heap] := by
    rw [queue_snoc, h.alone, ← he1]
    rfl
  have hc1 : creations (es ++ [e1]) = creations es + 1 := by
    rw [creations_snoc, ← he1]
    rfl
  obtain ⟨hg1, -⟩ := hg.step a_program_obeys hs1 (by rw [hc1]; exact hfits)
  obtain ⟨rest, hrest1⟩ := hg1.quiet.cons
  rw [hq1] at hrest1
  have htp1 : m1.tp = a_program.lay.thread0 := (List.cons.inj hrest1).1.symm
  have hq1' : queue a_program (es ++ [e1]) = [m1.tp, m.next_heap] := by rw [htp1, hq1]
  have htpq : m1.tp ∈ queue a_program (es ++ [e1]) := by simp [hq1']
  have hbq : m.next_heap ∈ queue a_program (es ++ [e1]) := by simp [hq1']
  obtain ⟨top, htop⟩ := hg1.owned _ htpq
  obtain ⟨T, hT⟩ := hg1.owned _ hbq
  have hlow := hg1.laid.low _ htop
  have hlowb := hg1.laid.low _ hT
  have hhigh := hg1.laid.high _ htop
  have hbelow := hg1.laid.below
  have hring := hg1.quiet.ring
  rw [hq1'] at hring
  have hne : m.next_heap ≠ m1.tp := by
    intro e
    rw [e] at hring
    exact (List.nodup_cons.mp hring.nodup).1 List.mem_cons_self
  dsimp only at hlow hlowb hhigh
  -- the interrupt
  have hfresh : ld32 m1.mem (m.next_heap + 16) = a_program.lay.trap_exit := by
    obtain ⟨r, hr, hready⟩ := hg1.ready _ hT (by simp [hq1'])
    rw [last_snoc, ← he1] at hr
    obtain rfl := Option.some.inj ((if_pos rfl).symm.trans hr)
    exact hready.2.pc
  obtain ⟨m2, hs2, -, hpc2, -⟩ := an_interrupt m.next_heap top (hpc1 ▸ h.aligned) hen1
    (hg1.room hen1 _ htop rfl) (by omega) hhigh.2 hring.2.1
    (hg1.quiet.objects.apart _ hbq _ htpq hne) (by omega) hfresh
  refine ⟨e1, _, m.next_heap, m2, (h.run.snoc hs1).snoc hs2, hq1, ?_, ⟨_, _, _, rfl⟩, ?_,
    htp1 ▸ hpc2⟩
  · rw [queue_snoc, hq1]
    rfl
  · rw [creations_snoc, hc1]
    rfl

/-- The new thread exits. -/
theorem Home.turn (h : Home es m) (hfits : threads.preemptive.Fits (creations es + 1)) :
    ∃ e1 e2 e3 m', Home (es ++ [e1] ++ [e2] ++ [e3]) m' ∧ e3.Switches ∧
      creations (es ++ [e1] ++ [e2] ++ [e3]) = creations es + 1 := by
  obtain ⟨e1, e2, b, m2, hrun, -, hq2, -, hc2, hpc2⟩ := h.hands_over hfits
  have hg2 : Good a_program (es ++ [e1] ++ [e2]) m2 :=
    run_good a_program_obeys a_machine_starts hrun (by rw [hc2]; exact hfits)
  obtain ⟨rest, hrest⟩ := hg2.quiet.cons
  rw [hq2] at hrest
  have htp : m2.tp = b := (List.cons.inj hrest).1.symm
  obtain ⟨m3, hs3, hpc3⟩ := an_exit (b := a_program.lay.thread0) hg2 (by rw [htp, hq2]) hpc2
  generalize he3 : Event.exit m2.tp = e3 at hs3
  have hswitches : e3.Switches := by
    rw [← he3]
    trivial
  have hq3 : queue a_program (es ++ [e1] ++ [e2] ++ [e3]) = [a_program.lay.thread0] := by
    rw [queue_snoc, hq2, ← he3]
    rfl
  have hc3 : creations (es ++ [e1] ++ [e2] ++ [e3]) = creations es + 1 := by
    rw [creations_snoc, hc2, ← he3]
    rfl
  obtain ⟨hg3, hseen⟩ := hg2.step a_program_obeys hs3 (by rw [hc3]; exact hfits)
  obtain ⟨-, -, -, -, -, hen3⟩ := hseen hswitches
  exact ⟨e1, e2, e3, m3, ⟨hrun.snoc hs3, hpc3, hq3, hg3.room hen3⟩, hswitches, hc3⟩

/-- One thread has come and gone, and `thread0` goes on with what it was interrupted with. -/
theorem thread0_sees_its_own_registers :
    ∃ es e m, Run a_program.Step a_machine (es ++ [e]) m ∧
      ∃ t r, (queue a_program (es ++ [e])).head? = some t ∧ last t (es ++ [e]) = some r ∧
        a_program.Sees t m.cpu r ∧ m.Enabled := by
  obtain ⟨e1, e2, e3, m, h, hswitches, hcount⟩ :=
    Home.start.turn (by unfold threads.Lib.Fits; decide)
  refine ⟨_, e3, m, h.run, threads_see_only_their_own_registers a_program_obeys a_machine_starts
    h.run ?_ hswitches⟩
  rw [hcount]
  unfold threads.Lib.Fits
  decide

/-- As many threads come and go as the memory has room for. -/
theorem Home.turns (n : Nat) (hn : n ≤ 7753) : ∃ es m, Home es m ∧ creations es = n := by
  induction n with
  | zero => exact ⟨[], a_machine, .start, rfl⟩
  | succ n ih =>
    obtain ⟨es, m, h, hcount⟩ := ih (by omega)
    have h4096 : threads.preemptive.stack_size.toNat = 4096 := rfl
    obtain ⟨e1, e2, e3, m', h', -, hcount'⟩ := h.turn (by
      unfold threads.Lib.Fits
      rw [h4096, hcount]
      omega)
    exact ⟨_, m', h', by rw [hcount', hcount]⟩

/-- When there have been 7753. -/
theorem Home.full (h : Home es m) (hcount : creations es = 7753) :
    Good a_program es m ∧ m.next_heap.toNat = 0x40100000 + 96 * 7753 ∧
      m.next_stack.toNat + 4096 * 7753 = 0x41FFF000 ∧ m.tp = a_program.lay.thread0 := by
  have h4096 : threads.preemptive.stack_size.toNat = 4096 := rfl
  have hg : Good a_program es m := run_good a_program_obeys a_machine_starts h.run (by
    unfold threads.Lib.Fits
    rw [h4096, hcount]
    omega)
  have hheap := hg.quiet.heap
  have hstack := hg.quiet.stack
  rw [h4096] at hstack
  rw [hcount] at hheap hstack
  refine ⟨hg, hheap, hstack, ?_⟩
  obtain ⟨rest, hrest⟩ := hg.quiet.cons
  rw [h.alone] at hrest
  exact (List.cons.inj hrest).1.symm

/-- The stack of the next thread is over its own `thread_t`, and it is filled with 0xee after the
`tp` of the context was stored there. -/
theorem Home.overlaps (h : Home es m) (hcount : creations es = 7753) :
    ∃ s : Sys, a_program.Step m (.create m.next_heap 0x40010200 7 m.next_stack)
        (m.created s m.next_heap) ∧ threads.next s.mem m.tp = m.next_heap ∧
      ld32 s.mem (m.next_heap + 16) = a_program.lay.trap_exit ∧
      ld32 s.mem (m.next_heap + 28) = 0xEEEEEEEE := by
  obtain ⟨hg, hheap, hstack, htp⟩ := h.full hcount
  have htpn : m.tp.toNat = 0x40010000 := by
    rw [htp]
    rfl
  obtain ⟨M, hlink, hring, -, -⟩ := threads.create_link.spec hg.quiet
    (by show m.next_heap.toNat + 96 ≤ 2 ^ 32; omega) ⟨0, 0, 0⟩
  rw [h.alone, ← htp] at hring
  have hroom : m.next_heap.toNat + 80 + 128 ≤ m.next_stack.toNat := by omega
  obtain ⟨hpc, -, hthread⟩ := new_context.entry M a_program.lay.trap_exit
    a_program.lay.thread_exit 7 0x40010200 hroom
  refine ⟨{ m.sys with
      mem := new_context M m.next_heap m.next_stack a_program.lay.trap_exit
        a_program.lay.thread_exit 7 0x40010200
      next_stack := m.next_stack - 4096
      next_heap := m.next_heap + 96
      next_thread_id := m.next_thread_id + 1 }, ?_, ?_, hpc, ?_⟩
  · refine @Program.Step.create _ _ _ _ ⟨m.next_heap, 0, 0⟩ _ _ ⟨0, 0, 0⟩ (by decide) ?_
      (Machine.keeps fun _ p hp hpt => ?_)
    · unfold threads.thread_create
      rw [threads.run_all_append, hlink, create_context.run _ _ _ hroom]
      rfl
    · obtain hp | hp := List.mem_append.mp hp
      · exact h.room p hp hpt
      · rw [List.mem_singleton.mp hp] at hpt
        have hsame : m.next_heap = m.tp := hpt
        rw [hsame] at hheap
        omega
  · have e8 : (m.tp + 8).toNat = m.tp.toNat + 8 :=
      threads.field_toNat (i := 8) (by omega) (by omega)
    have hlink' : threads.next M m.tp = m.next_heap := hring.2.1
    refine Eq.trans ?_ hlink'
    refine ld32_keep (by omega) fun a h1 h2 => new_context.bytes hroom (by omega) (by omega) ?_
    unfold InStack
    omega
  · obtain ⟨-, -, e28, -⟩ := new_context.places hroom
    have eb : (m.next_stack - 4096).toNat = m.next_stack.toNat - 4096 := by bv_omega
    have hlost : word 0xee 0xee 0xee 0xee = (0xEEEEEEEE : Word) := by decide
    rw [threads.ld32_fill_in _ _ (by omega) (by omega), hlost] at hthread
    exact hthread

/-- The 7754th thread starts with 0xEEEEEEEE in its `tp`. -/
theorem a_thread_starts_without_its_thread_pointer :
    ∃ es e m, Run a_program.Step a_machine (es ++ [e]) m ∧ e.Switches ∧
      ¬ ∃ t r, (queue a_program (es ++ [e])).head? = some t ∧ last t (es ++ [e]) = some r ∧
        a_program.Sees t m.cpu r ∧ m.Enabled := by
  obtain ⟨es, m, h, hcount⟩ := Home.turns 7753 (Nat.le_refl _)
  obtain ⟨hg, hheap, hstack, htp⟩ := h.full hcount
  obtain ⟨s, hs1, hnext, hpc, hthread⟩ := h.overlaps hcount
  have htpn : m.tp.toNat = 0x40010000 := by
    rw [htp]
    rfl
  obtain ⟨top, htop⟩ := hg.owned m.tp (by rw [h.alone, htp]; exact List.mem_cons_self)
  have hhigh := hg.laid.high _ htop
  dsimp only at hhigh
  -- the interrupt
  obtain ⟨m2, hs2, hsame, -, htp2⟩ := an_interrupt (m := m.created s m.next_heap)
    m.next_heap top h.aligned (create_enables m s m.next_heap) (h.room _ htop rfl)
    (by show m.tp.toNat + 80 + 4096 ≤ _; omega) hhigh.2 hnext
    (by show _ ∨ m.tp.toNat + 80 ≤ _; omega) (by omega) hpc
  have hgone : m2.tp = 0xEEEEEEEE := by
    have e12 : m.next_heap + 16 + 0x0C = m.next_heap + 28 := BitVec.add_assoc ..
    have e28 : (m.next_heap + 28).toNat = m.next_heap.toNat + 28 :=
      threads.field_toNat (i := 28) (by omega) (by omega)
    have htopn : MEMORY_TOP.toNat = 0x42000000 := rfl
    rw [htp2, e12]
    refine Eq.trans ?_ hthread
    refine ld32_keep (by omega) fun a h1 h2 => hsame a (by omega) ?_ ?_
    · unfold InStack
      omega
    · show a.toNat < m.tp.toNat + 16 ∨ m.tp.toNat + 80 ≤ a.toNat
      omega
  refine ⟨_, _, m2, (h.run.snoc hs1).snoc hs2, trivial, ?_⟩
  rintro ⟨t, r, hhead, hlast, hsees, -⟩
  rw [queue_snoc, queue_snoc, h.alone] at hhead
  obtain rfl := Option.some.inj hhead
  have hother : m.next_heap ≠ m.tp := by
    intro e
    rw [e] at hheap
    omega
  rw [last_snoc, last_snoc] at hlast
  obtain rfl := Option.some.inj (((if_neg hother).trans (if_pos rfl)).symm.trans hlast)
  have hwrong : m2.tp = m.next_heap := hsees.2.2.2.1
  rw [← hwrong, hgone] at hheap
  exact absurd hheap (by decide)

end

end os_workshop.preemption
