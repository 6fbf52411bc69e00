-- A thread that waits for the processor: what it was left with is in its context
-- and on its stack, and when context_switch loads the context, it goes on with that.
import OsWorkshop.Preemption

open os_workshop.memory
open os_workshop.runs
open os_workshop.rv32
open os_workshop.frames
open os_workshop.switching
open os_workshop.threads (MEMORY_TOP)

namespace os_workshop.preemption

open Reg Csr

/-! ## Bytes by their addresses -/

section

variable {m m' : Mem} {a : Word}

theorem ld32_keep (ha : a.toNat + 4 ≤ 2 ^ 32)
    (h : ∀ x : Word, a.toNat ≤ x.toNat → x.toNat < a.toNat + 4 → m' x = m x) :
    ld32 m' a = ld32 m a := by
  apply ld32_congr
  intro x hx
  unfold memory.dist at hx
  exact h x (by bv_omega) (by bv_omega)

/-- Words that stay over a range that a frame is apart from are bytes that stay. -/
theorem byte_of_words {F x : Word}
    (h : ∀ a, 128 ≤ memory.dist F a → memory.dist F a + 4 ≤ 2 ^ 32 → ld32 m' a = ld32 m a)
    (hx : 128 ≤ memory.dist F x) : m' x = m x := by
  by_cases hlow : memory.dist F x + 4 ≤ 2 ^ 32
  · rw [← ld32_low m' x, ← ld32_low m x, h x hx hlow]
  · -- the last byte of the word three below
    have hword : ld32 m' (x - 3) = ld32 m (x - 3) := by
      unfold memory.dist at *
      exact h (x - 3) (by bv_omega) (by bv_omega)
    have htop (n : Mem) : (ld32 n (x - 3)).extractLsb' 24 8 = n x := by
      have hthree : x - 3 + 3 = x := BitVec.sub_add_cancel x 3
      unfold ld32 word
      rw [hthree]
      ext i hi
      rw [BitVec.getElem_extractLsb', BitVec.getLsbD_append, if_neg (by omega),
        BitVec.getLsbD_append, if_neg (by omega), BitVec.getLsbD_append, if_neg (by omega)]
      have hi' : 24 + i - 8 - 8 - 8 = i := by omega
      rw [hi', BitVec.getLsbD_eq_getElem]
    rw [← htop m', ← htop m, hword]

end

/-! ## The status register -/

theorem or_keeps_bit (v b : Word) : (v ||| b) &&& b = b := by
  ext i hi
  rw [BitVec.getElem_and, BitVec.getElem_or]
  cases v[i] <;> cases b[i] <;> rfl

/-- After `sret` interrupts are enabled when `SPIE` was set. -/
theorem sret_enables {st : Word} (h : st &&& SSTATUS_SPIE ≠ 0) :
    sret_sstatus st &&& SSTATUS_SIE ≠ 0 := by
  unfold sret_sstatus
  rw [if_neg h, or_keeps_bit]
  decide

/-- A trap keeps in `SPIE` that they were enabled. -/
theorem trap_keeps_enabled {spp st : Word} (h : st &&& SSTATUS_SIE ≠ 0) :
    trap_sstatus spp st &&& SSTATUS_SPIE ≠ 0 := by
  unfold trap_sstatus
  rw [if_neg h, or_keeps_bit]
  decide

theorem exit_enables (st : Word) : exit_sstatus st &&& SSTATUS_SPIE ≠ 0 := by
  unfold exit_sstatus
  rw [← BitVec.or_assoc, or_keeps_bit]
  decide

/-! ## A thread that waits -/

/-- A new thread at `t`, whose stack ends at `top`: in its context it is about to go to `trap_exit`,
and the frame there leads to `fn`. -/
structure Program.Fresh (P : Program) (m : Mem) (t top fn arg : Word) : Prop where
  aligned : fn.toNat % 4 = 0
  pc : ld32 m (t + 16) = P.lay.trap_exit
  sp : ld32 m (t + 16 + 0x04) = top - 128
  tp : ld32 m (t + 16 + 0x0C) = t
  ra : ld32 m (top - 128 + 0x00) = P.lay.thread_exit
  a0 : ld32 m (top - 128 + 0x20) = arg
  fn : ld32 m (top - 128 + 0x40) = fn

/-- A trap at `pc` with the registers `x`, on the stack that ends at `top`, entered the handler in
`c`, and its frame is there. -/
structure Program.Trapped (P : Program) (m : Mem) (top pc : Word) (x : Reg → Word) (c : State) :
    Prop where
  aligned : pc.toNat % 4 = 0
  back : c.d.get ra = P.k.im.loc 22
  sp : c.d.get .sp = x .sp - 128
  regs : ∀ r ∈ preserved, r ≠ .sp → c.d.get r = x r
  zero : x .zero = 0
  saved : ∀ p ∈ caller_saved, ld32 m (x .sp - 128 + p.2) = x p.1
  pc : ld32 m (x .sp - 128 + 0x40) = pc
  room : HasRoom P.room top (x .sp)

/-- The thread at `t` was interrupted, and its handler called `context_switch` in `u`. Nothing of
that was overwritten. -/
structure Program.Suspended (P : Program) (m : Mem) (t top pc : Word) (x : Reg → Word)
    (c u : State) : Prop extends P.Trapped m top pc x c where
  tp : x .tp = t
  called : P.Called c u
  words : ∀ p ∈ cframe, ld32 m (t + 16 + p.2) = u.d.get p.1
  stack : ∀ a : Word, (u.d.get .sp).toNat ≤ a.toNat → a.toNat < (c.d.get .sp).toNat →
    m a = u.d.mem a

/-- The thread at `t` can go on with what it was left with. -/
def Program.Ready (P : Program) (m : Mem) (t top : Word) : Record → Prop
  | .created fn arg top' => top' = top ∧ P.Fresh m t top fn arg
  | .interrupted pc x => ∃ c u, P.Suspended m t top pc x c u

section

variable {P : Program} {m m' : Mem} {t top pc fn arg : Word} {x : Reg → Word} {c u : State}

theorem Program.Fresh.keep (h : P.Fresh m t top fn arg) (ht : t.toNat + 80 ≤ 2 ^ 32)
    (htop : 4096 ≤ top.toNat)
    (hctxt : ∀ a : Word, t.toNat + 16 ≤ a.toNat → a.toNat < t.toNat + 80 → m' a = m a)
    (hstack : ∀ a, InStack top a → m' a = m a) : P.Fresh m' t top fn arg := by
  have hword (o : Word) (ho : o.toNat ≤ 0x3C) : ld32 m' (t + 16 + o) = ld32 m (t + 16 + o) := by
    have e : (t + 16 + o).toNat = t.toNat + 16 + o.toNat := by bv_omega
    exact ld32_keep (by omega) fun a h1 h2 => hctxt a (by omega) (by omega)
  have hframe (o : Word) (ho : o.toNat ≤ 0x40) :
      ld32 m' (top - 128 + o) = ld32 m (top - 128 + o) := by
    have e : (top - 128 + o).toNat = top.toNat - 128 + o.toNat := by
      have hlt := top.isLt
      bv_omega
    have hlt := top.isLt
    exact ld32_keep (by omega) fun a h1 h2 => hstack a ⟨by omega, by omega⟩
  have h0 := hword 0 (by decide)
  have e0 : t + 16 + (0 : Word) = t + 16 := BitVec.add_zero _
  rw [e0] at h0
  exact
    { aligned := h.aligned
      pc := h0.trans h.pc
      sp := (hword _ (by decide)).trans h.sp
      tp := (hword _ (by decide)).trans h.tp
      ra := (hframe _ (by decide)).trans h.ra
      a0 := (hframe _ (by decide)).trans h.a0
      fn := (hframe _ (by decide)).trans h.fn }

theorem Program.Trapped.sp_toNat (h : P.Trapped m top pc x c) (htop : 4096 ≤ top.toNat) :
    (x .sp - 128).toNat = (x .sp).toNat - 128 := by
  obtain ⟨hlow, -⟩ := h.room
  bv_omega

/-- A trap depends on its frame. -/
theorem Program.Trapped.keep (h : P.Trapped m top pc x c) (htop : 4096 ≤ top.toNat)
    (hframe : ∀ a : Word, (x .sp).toNat ≤ a.toNat + 128 → a.toNat < (x .sp).toNat →
      m' a = m a) : P.Trapped m' top pc x c := by
  obtain ⟨hlow, hhigh⟩ := h.room
  have hlt := top.isLt
  have hF := h.sp_toNat htop
  have hword (o : Word) (ho : o.toNat ≤ 0x7C) :
      ld32 m' (x .sp - 128 + o) = ld32 m (x .sp - 128 + o) := by
    have e : (x .sp - 128 + o).toNat = (x .sp).toNat - 128 + o.toNat := by bv_omega
    exact ld32_keep (by omega) fun a h1 h2 => hframe a (by omega) (by omega)
  refine { h with saved := ?_, pc := ?_ }
  · intro p hp
    rw [hword p.2 (offsets_le _ (caller_offsets p hp))]
    exact h.saved p hp
  · rw [hword _ (by decide)]
    exact h.pc

theorem Program.Suspended.keep (h : P.Suspended m t top pc x c u) (ht : t.toNat + 80 ≤ 2 ^ 32)
    (htop : 4096 ≤ top.toNat)
    (hctxt : ∀ a : Word, t.toNat + 16 ≤ a.toNat → a.toNat < t.toNat + 80 → m' a = m a)
    (hstack : ∀ a, InStack top a → m' a = m a) : P.Suspended m' t top pc x c u := by
  obtain ⟨hlow, hhigh⟩ := h.room
  have hF := h.toTrapped.sp_toNat htop
  have htrap := h.toTrapped.keep htop fun a h1 h2 => hstack a ⟨by omega, by omega⟩
  refine { htrap with tp := h.tp, called := h.called, words := ?_, stack := ?_ }
  · intro p hp
    have hle := cframe_le p hp
    have e : (t + 16 + p.2).toNat = t.toNat + 16 + p.2.toNat := by bv_omega
    rw [ld32_keep (by omega) fun a h1 h2 => hctxt a (by omega) (by omega)]
    exact h.words p hp
  · intro a h1 h2
    have hc := h.called.low
    rw [h.sp, hF] at h2 hc
    rw [hstack a ⟨by omega, by omega⟩]
    exact h.stack a h1 (by rw [h.sp, hF]; exact h2)

/-- A waiting thread depends on its context and on its stack. -/
theorem Program.Ready.keep {r : Record} (h : P.Ready m t top r) (ht : t.toNat + 80 ≤ 2 ^ 32)
    (htop : 4096 ≤ top.toNat)
    (hctxt : ∀ a : Word, t.toNat + 16 ≤ a.toNat → a.toNat < t.toNat + 80 → m' a = m a)
    (hstack : ∀ a, InStack top a → m' a = m a) : P.Ready m' t top r := by
  cases r with
  | created fn arg top' => exact ⟨h.1, h.2.keep ht htop hctxt hstack⟩
  | interrupted pc x =>
    obtain ⟨c, u, hs⟩ := h
    exact ⟨c, u, hs.keep ht htop hctxt hstack⟩

end

/-! ## The paths of a trap -/

section

variable {P : Program} {pending : Bool} {d : Data} {s t : State}

/-- From `trap_exit` a run goes to the `sret`. -/
theorem path_exit (h : P.Path pending ⟨P.k.im.loc 22, d⟩ t) (ht : P.k.im.Left t) :
    t = ⟨P.k.im.loc 41, line P.k.im.addr (vectors.exit_part .single) d⟩ := by
  have h41 := Linked.path_line (vectors.exit_part .single) 41 h (.inr ht) ⟨_, rfl⟩ (by rfl) rfl
  exact Linked.path_return h41 (by rfl) rfl

theorem not_left (hs : P.k.im.fetch s.pc = none) : ¬ P.k.im.Left s := by
  rintro ⟨i, ins, hf, -⟩
  rw [hs] at hf
  cases hf

theorem path_switch (h : P.Path pending s t) (ht : P.k.im.Left t) (hs : s.pc = P.context_switch) :
    P.Path pending (switched s.d) t := by
  have hf : P.k.im.fetch s.pc = none := by
    rw [hs]
    exact P.switch_outside
  obtain rfl | ⟨u, hu, hpath⟩ := path_outside h hf
  · exact absurd ht (not_left hf)
  · unfold Program.outside at hu
    rw [if_pos hs] at hu
    exact hu ▸ hpath

theorem path_code (h : P.Path pending s t) (ht : P.k.im.Left t) (hf : P.k.im.fetch s.pc = none)
    (hs : s.pc ≠ P.context_switch) : ∃ u, P.code pending s u ∧ P.Path pending u t := by
  obtain rfl | ⟨u, hu, hpath⟩ := path_outside h hf
  · exact absurd ht (not_left hf)
  · unfold Program.outside at hu
    rw [if_neg hs] at hu
    exact ⟨u, hu, hpath⟩

theorem runs_exit (P : Program) (pending : Bool) (d : Data) :
    P.Path pending ⟨P.k.im.loc 22, d⟩
        ⟨P.k.im.loc 41, line P.k.im.addr (vectors.exit_part .single) d⟩ ∧
      P.k.im.Left ⟨P.k.im.loc 41, line P.k.im.addr (vectors.exit_part .single) d⟩ :=
  ⟨Linked.runs_line (vectors.exit_part .single) 41 ⟨_, rfl⟩ (by rfl) rfl,
    P.k.left_of (by rfl) rfl⟩

theorem runs_switch (hs : s.pc = P.context_switch) : P.Path pending s (switched s.d) := by
  refine .single (.outside ?_ ?_)
  · rw [hs]
    exact P.switch_outside
  · unfold Program.outside
    rw [if_pos hs]

theorem runs_code {u : State} (hf : P.k.im.fetch s.pc = none) (hs : s.pc ≠ P.context_switch)
    (hu : P.code pending s u) : P.Path pending s u := by
  refine .single (.outside hf ?_)
  unfold Program.outside
  rw [if_neg hs]
  exact hu

end

/-! ## A waiting thread goes on -/

section

variable {P : Program} {pending : Bool} {m : Mem} {t top pc fn arg : Word} {x : Reg → Word}
  {r : Record} {d : Data} {c u s : State}

/-- The thread at `t` runs in the state `u`, and memory is as `m` but for its stack. -/
structure Program.GoesOn (P : Program) (t top : Word) (r : Record) (m : Mem) (u : State) :
    Prop where
  sees : P.Sees t u r
  enabled : u.d.csr sstatus &&& SSTATUS_SIE ≠ 0
  tp : u.d.get .tp = t
  mem : ∀ a : Word, a.toNat < MEMORY_TOP.toNat → ¬ InStack top a → u.d.mem a = m a
  room : HasRoom P.room top (u.d.get .sp)

theorem preserved_of_not_caller {r : Reg} (h0 : r ≠ .zero)
    (hcaller : r ∉ caller_saved.map Prod.fst) : r ∈ preserved := by
  cases r <;> first | decide | exact absurd rfl h0 | exact absurd (by decide) hcaller

theorem aligned_back (P : Program) (i : Nat) :
    P.k.im.loc i &&& (0xFFFFFFFE : Word) = P.k.im.loc i :=
  masked (P.k.words i) (by decide)

theorem Program.Fresh.goes_on (hf : P.Fresh (loaded d).mem t top fn arg)
    (ha1 : d.get a1 = t + 16) (hst : d.csr sstatus &&& SSTATUS_SPIE ≠ 0)
    (h : P.Path pending (switched d) s) (hs : P.k.im.Left s) :
    P.GoesOn t top (.created fn arg top) (loaded d).mem (sret_state s.d) := by
  have hspec := loaded.spec d
  have hsp : (loaded d).get .sp = top - 128 := by
    rw [hspec.regs (.sp, 0x04) (by decide), ha1]
    exact hf.sp
  have htp : (loaded d).get .tp = t := by
    rw [hspec.regs (.tp, 0x0C) (by decide), ha1]
    exact hf.tp
  have hpc : switched d = ⟨P.k.im.loc 22, loaded d⟩ := by
    have hback : (switched d).pc = P.k.im.loc 22 := by
      rw [switched_pc, ha1, hf.pc, P.trap_exit, P.k.labels .trap_exit 22 rfl, aligned_back]
    rw [← hback]
    rfl
  rw [hpc] at h
  obtain rfl := path_exit h hs
  have hz := vectors.exit_part.spec .single P.k.im.addr (loaded d)
  generalize line P.k.im.addr (vectors.exit_part .single) (loaded d) = z at *
  have hsize : top - 128 + 128 = top := BitVec.sub_add_cancel top 128
  have hzsp : z.get .sp = top := by
    rw [hz.sp]
    dsimp only
    rw [hsp, hsize]
  have hztp : z.get .tp = t := (hz.others .tp (by decide) (by decide)).trans htp
  constructor
  · refine ⟨?_, ?_, ?_, hztp, hzsp⟩
    · have hfn : ld32 (loaded d).mem ((loaded d).get .sp + 0x40) = fn := hsp ▸ hf.fn
      exact hz.pc.trans ((congrArg _ hfn).trans (legal_aligned _ hf.aligned))
    · exact (hz.regs (.a0, 0x20) (by decide)).trans (hsp ▸ hf.a0)
    · exact (hz.regs (.ra, 0x00) (by decide)).trans (hsp ▸ hf.ra)
  · apply sret_enables
    rw [hz.csr sstatus (by decide) (by decide), hspec.csr]
    exact hst
  · exact hztp
  · intro a _ _
    exact congrFun hz.mem a
  · have hroom := P.room_le
    show HasRoom P.room top (z.get .sp)
    rw [hzsp]
    exact ⟨by omega, Nat.le_refl _⟩

/-- The handler comes back to `trap_exit`. -/
theorem Program.Suspended.back_in_handler (hsus : P.Suspended (loaded d).mem t top pc x c u)
    (ha1 : d.get a1 = t + 16) (h : P.Path pending (switched d) s) (hs : P.k.im.Left s) :
    ∃ w, P.Path pending w s ∧ Returns P.room c (switched d) w := by
  have hspec := loaded.spec d
  have hregs : ∀ p ∈ cframe, (loaded d).get p.1 = u.d.get p.1 := by
    intro p hp
    rw [hspec.regs p hp, ha1, hsus.words p hp]
  have hkept : ∀ r ∈ preserved, (loaded d).get r = u.d.get r := by
    have hmem : ∀ r ∈ preserved, r ∈ cframe.map Prod.fst := by decide
    intro r hr
    obtain ⟨p, hp, rfl⟩ := List.mem_map.mp (hmem r hr)
    exact hregs p hp
  have hra : ld32 (loaded d).mem (d.get a1) = u.d.get ra := by
    have hword := hsus.words (ra, 0x00) List.mem_cons_self
    have h0 : t + 16 + (0x00 : Word) = t + 16 := BitVec.add_zero _
    dsimp only at hword
    rw [h0] at hword
    rw [ha1]
    exact hword
  have hpc := switched_pc d
  rw [hra] at hpc
  cases hsus.called.back with
  | tail_call hret hsame =>
    rw [hret, hsus.back, aligned_back, ← hsus.back] at hpc
    refine ⟨switched d, h, hpc, ?_, fun _ _ _ => rfl, rfl⟩
    intro r hr
    exact (hkept r hr).trans (hsame r hr)
  | call hfetch hne heven hcode =>
    rw [heven] at hpc
    obtain ⟨w, hw, hpath⟩ := path_code h hs (hpc ▸ hfetch) (hpc ▸ hne)
    exact ⟨w, hpath, hcode pending _ w hpc hkept hsus.stack hw⟩

/-- When the handler returns, the thread goes on where it was interrupted. -/
theorem Program.Trapped.goes_on {v w : State} (htrap : P.Trapped v.d.mem top pc x c)
    (htop : 4096 ≤ top.toNat) (hram : top.toNat ≤ MEMORY_TOP.toNat)
    (hst : v.d.csr sstatus &&& SSTATUS_SPIE ≠ 0) (hret : Returns P.room c v w)
    (h : P.Path pending w s) (hs : P.k.im.Left s) :
    P.GoesOn (x .tp) top (.interrupted pc x) v.d.mem (sret_state s.d) := by
  obtain ⟨hlow, hhigh⟩ := htrap.room
  have hF := htrap.sp_toNat htop
  have hsize : x .sp - 128 + 128 = x .sp := BitVec.sub_add_cancel (x .sp) 128
  have hw : w = ⟨P.k.im.loc 22, w.d⟩ := by
    rw [← htrap.back, ← hret.pc]
  rw [hw] at h
  obtain rfl := path_exit h hs
  have hz := vectors.exit_part.spec .single P.k.im.addr w.d
  generalize line P.k.im.addr (vectors.exit_part .single) w.d = z at *
  have hwsp : w.d.get .sp = x .sp - 128 := (hret.regs .sp (by decide)).trans htrap.sp
  have hregs := hz.regs
  have hzpc := hz.pc
  have hzsp := hz.sp
  rw [hwsp] at hregs hzpc hzsp
  -- the frame of the trap is above the stack of the handler
  have hthere : P.Trapped w.d.mem top pc x c := htrap.keep htop fun a h1 h2 =>
    hret.mem a (by omega) (.inr (by rw [htrap.sp, hF]; omega))
  constructor
  · refine ⟨hzpc.trans ((congrArg _ hthere.pc).trans (legal_aligned _ htrap.aligned)), ?_⟩
    intro r
    show z.get r = x r
    by_cases hr0 : r = .zero
    · rw [hr0, htrap.zero]
      rfl
    by_cases hrsp : r = .sp
    · rw [hrsp, hzsp]
      exact hsize
    by_cases hcaller : r ∈ caller_saved.map Prod.fst
    · obtain ⟨p, hp, rfl⟩ := List.mem_map.mp hcaller
      rw [hregs p hp, hthere.saved p hp]
    · have hcallee := preserved_of_not_caller hr0 hcaller
      rw [hz.others r hrsp hcaller, hret.regs r hcallee, htrap.regs r hcallee hrsp]
  · apply sret_enables
    rw [hz.csr sstatus (by decide) (by decide), hret.sstatus]
    exact hst
  · show z.get .tp = x .tp
    rw [hz.others .tp (by decide) (by decide), hret.regs .tp (by decide),
      htrap.regs .tp (by decide) (by decide)]
  · intro a ha hout
    show z.mem a = _
    rw [hz.mem]
    refine hret.mem a ha ?_
    rw [htrap.sp, hF]
    unfold InStack at hout
    omega
  · show HasRoom P.room top (z.get .sp)
    rw [hzsp]
    dsimp only
    rw [hsize]
    exact htrap.room

theorem Program.Suspended.goes_on (hsus : P.Suspended (loaded d).mem t top pc x c u)
    (htop : 4096 ≤ top.toNat) (hram : top.toNat ≤ MEMORY_TOP.toNat)
    (ha1 : d.get a1 = t + 16) (hst : d.csr sstatus &&& SSTATUS_SPIE ≠ 0)
    (h : P.Path pending (switched d) s) (hs : P.k.im.Left s) :
    P.GoesOn t top (.interrupted pc x) (loaded d).mem (sret_state s.d) := by
  obtain ⟨w, hpath, hret⟩ := hsus.back_in_handler ha1 h hs
  have hst' : (switched d).d.csr sstatus &&& SSTATUS_SPIE ≠ 0 := by
    have hcsr : (switched d).d.csr = d.csr := (loaded.spec d).csr
    rw [hcsr]
    exact hst
  have hon := Program.Trapped.goes_on (v := switched d) hsus.toTrapped htop hram hst' hret hpath hs
  rw [hsus.tp] at hon
  exact hon

/-- A waiting thread that is switched to goes on with what it was left with. -/
theorem Program.Ready.goes_on (hr : P.Ready (loaded d).mem t top r) (htop : 4096 ≤ top.toNat)
    (hram : top.toNat ≤ MEMORY_TOP.toNat) (ha1 : d.get a1 = t + 16)
    (hst : d.csr sstatus &&& SSTATUS_SPIE ≠ 0) (h : P.Path pending (switched d) s)
    (hs : P.k.im.Left s) : P.GoesOn t top r (loaded d).mem (sret_state s.d) := by
  cases r with
  | created fn arg top' =>
    obtain ⟨rfl, hf⟩ := hr
    exact hf.goes_on ha1 hst h hs
  | interrupted pc x =>
    obtain ⟨c, u, hsus⟩ := hr
    exact hsus.goes_on htop hram ha1 hst h hs

end

/-! ## An interrupt -/

section

variable {P : Program} {pending : Bool} {m : Machine} {top cause : Word} {d : Data} {t : State}

/-- The state in which `interrupt_handler` is entered by a trap that left `d`. -/
def Program.handler_entry (P : Program) (d : Data) : State :=
  ⟨P.k.im.addr .interrupt_handler,
    (line P.k.im.addr (vectors.entry_part .single) d).set ra (P.k.im.loc 22)⟩

theorem branch_interrupt (hneg : ¬ (0 : Word).sle (d.csr scause)) :
    goes P.k.im.addr (P.k.im.loc 21) (.bge .t1 .zero .exception_entry)
      (line P.k.im.addr (vectors.entry_part .single) d) = P.k.im.loc 21 := by
  have hcause : (line P.k.im.addr (vectors.entry_part .single) d).get .t1 = d.csr scause :=
    (vectors.entry_part.spec .single P.k.im.addr d).cause
  dsimp only [goes]
  rw [get_zero, hcause, if_neg hneg]

/-- From `trap_entry` a run goes to the handler. -/
theorem path_trap (hneg : ¬ (0 : Word).sle (d.csr scause))
    (h : P.Path pending ⟨P.k.im.loc 0, d⟩ t) (ht : P.k.im.Left t) :
    P.Path pending (P.handler_entry d) t := by
  have h20 := Linked.path_line (vectors.entry_part .single) 20 h (.inr ht) ⟨_, rfl⟩ (by rfl) rfl
  have h21 := Linked.path_branch h20 (.inr ht) (by rfl) rfl rfl (branch_interrupt hneg)
  exact Linked.path_goes h21 (.inr ht) (by rfl) rfl

theorem runs_trap (P : Program) (pending : Bool) (hneg : ¬ (0 : Word).sle (d.csr scause)) :
    P.Path pending ⟨P.k.im.loc 0, d⟩ (P.handler_entry d) := by
  have h20 : P.Path pending ⟨P.k.im.loc 0, d⟩
      ⟨P.k.im.loc 20, line P.k.im.addr (vectors.entry_part .single) d⟩ :=
    Linked.runs_line (vectors.entry_part .single) 20 ⟨_, rfl⟩ (by rfl) rfl
  have h21 : P.Path pending ⟨P.k.im.loc 20, line P.k.im.addr (vectors.entry_part .single) d⟩
      ⟨P.k.im.loc 21, line P.k.im.addr (vectors.entry_part .single) d⟩ :=
    Linked.runs_one (by rfl) rfl rfl (branch_interrupt hneg)
  exact (h20.trans h21).trans (Linked.runs_one (by rfl) rfl rfl rfl)

/-- What the hardware and `trap_entry` leave to the handler. -/
structure Program.AtHandler (P : Program) (m : Machine) (top : Word) (c : State) : Prop where
  trapped : P.Trapped c.d.mem top m.cpu.pc m.cpu.d.get c
  entered : P.Entered c
  mem : ∀ a : Word, ¬ InStack top a → c.d.mem a = m.mem a
  spie : c.d.csr sstatus &&& SSTATUS_SPIE ≠ 0

theorem at_handler (hat : m.cpu.pc.toNat % 4 = 0) (hen : m.Enabled)
    (hram : top.toNat ≤ MEMORY_TOP.toNat) (hroom : HasRoom P.room top m.sp)
    (hlow : m.tp.toNat + 80 + 4096 ≤ top.toNat) :
    P.AtHandler m top (P.handler_entry (trap_csrs SSTATUS_SPP m.cpu cause)) := by
  have he := vectors.entry_part.spec .single P.k.im.addr (trap_csrs SSTATUS_SPP m.cpu cause)
  unfold Program.handler_entry
  generalize line P.k.im.addr (vectors.entry_part .single) (trap_csrs SSTATUS_SPP m.cpu cause) = e
    at *
  obtain ⟨hr1, hr2⟩ := hroom
  have hspm : m.sp = m.cpu.d.get .sp := rfl
  rw [hspm] at hr1 hr2
  have hF : (m.cpu.d.get .sp - 128).toNat = (m.cpu.d.get .sp).toNat - 128 := by bv_omega
  have hlt := top.isLt
  have hframe : vectors.frame_of .single (trap_csrs SSTATUS_SPP m.cpu cause) =
      m.cpu.d.get .sp - 128 := rfl
  have hsp := he.sp
  have hsaved := he.regs
  have hpc := he.pc
  have hrest := he.rest
  rw [hframe] at hsp hsaved hpc hrest
  have hothers (r : Reg) (h1 : r ≠ .sp) (h2 : r ≠ .t0) (h3 : r ≠ .t1) (h4 : r ≠ ra) :
      (e.set ra (P.k.im.loc 22)).get r = m.cpu.d.get r := by
    rw [get_set_ne _ _ h4, he.others r h1 h2 h3]
    rfl
  have hmem (a : Word) (ha : 128 ≤ memory.dist (m.cpu.d.get .sp - 128) a) : e.mem a = m.mem a := by
    apply byte_of_words (F := m.cpu.d.get .sp - 128) _ ha
    intro b hb hb'
    exact hrest b fun o ho => outside_frame (offsets_le o ho) hb hb'
  constructor
  · constructor
    · exact hat
    · exact get_set_same _ _ (by decide)
    · exact (get_set_ne _ _ (by decide)).trans hsp
    · intro r hr hne
      have hnames : ∀ r ∈ preserved, r ≠ .t0 ∧ r ≠ .t1 ∧ r ≠ ra := by decide
      obtain ⟨h2, h3, h4⟩ := hnames r hr
      exact hothers r hne h2 h3 h4
    · rfl
    · exact hsaved
    · exact hpc
    · exact ⟨hr1, hr2⟩
  · constructor
    · rfl
    · show ((e.set ra (P.k.im.loc 22)).get .tp).toNat + 80 + P.room ≤
        ((e.set ra (P.k.im.loc 22)).get .sp).toNat
      rw [hothers .tp (by decide) (by decide) (by decide) (by decide),
        get_set_ne _ _ (by decide), hsp, hF]
      have htpm : m.tp = m.cpu.d.get .tp := rfl
      rw [htpm] at hlow
      omega
    · show ((e.set ra (P.k.im.loc 22)).get .sp).toNat ≤ _
      rw [get_set_ne _ _ (by decide), hsp, hF]
      omega
  · intro a ha
    apply hmem
    unfold InStack at ha
    unfold memory.dist
    bv_omega
  · show e.csr sstatus &&& SSTATUS_SPIE ≠ 0
    rw [he.csr sstatus (by decide)]
    exact trap_keeps_enabled hen

/-- The running thread `a` has changed nothing but its context and its stack. -/
def SameBut (a top : Word) (m1 m2 : Mem) : Prop :=
  ∀ x : Word, x.toNat < MEMORY_TOP.toNat → ¬ InStack top x →
    x.toNat < a.toNat + 16 ∨ a.toNat + 80 ≤ x.toNat → m2 x = m1 x

theorem loaded_same {a : Word} (top : Word) (ha : a.toNat + 80 ≤ 2 ^ 32) (ha0 : d.get a0 = a + 16) :
    SameBut a top d.mem (loaded d).mem := by
  intro x _ _ hx
  have e16 : (a + 16).toNat = a.toNat + 16 := threads.field_toNat (i := 16) ha (by omega)
  apply (loaded.spec d).rest
  rw [ha0]
  unfold memory.dist
  bv_omega

/-- The interrupted thread, when the handler has called `context_switch`. -/
theorem suspended {c u : State} (hlow : m.tp.toNat + 80 + 4096 ≤ top.toNat)
    (hram : top.toNat ≤ MEMORY_TOP.toNat) (hc : P.AtHandler m top c) {dst : Word}
    (hu : P.Calls c u (m.tp + 16) dst) :
    P.Suspended (loaded u.d).mem m.tp top m.cpu.pc m.cpu.d.get c u ∧
      SameBut m.tp top m.mem (loaded u.d).mem := by
  have hspec := loaded.spec u.d
  have hlt := top.isLt
  obtain ⟨hr1, hr2⟩ := hc.trapped.room
  have hF := hc.trapped.sp_toNat (by omega)
  have hcsp := hc.trapped.sp
  have hsaved := hspec.saved
  rw [hu.a0] at hsaved
  have hswitch := loaded_same 0 (show m.tp.toNat + 80 ≤ 2 ^ 32 by omega) hu.a0
  have hnone (a : Word) : ¬ InStack 0 a := fun h => Nat.not_lt_zero _ h.2
  constructor
  · have htrap : P.Trapped (loaded u.d).mem top m.cpu.pc m.cpu.d.get c :=
      hc.trapped.keep (by omega) fun a h1 h2 => by
      rw [hswitch a (by omega) (hnone a) (by omega)]
      exact hu.mem a (by omega) (.inr (by rw [hcsp, hF]; omega))
    refine { htrap with tp := rfl, called := hu.toCalled, words := hsaved, stack := ?_ }
    intro a h1 h2
    have hc := hu.low
    rw [hcsp, hF] at h2 hc
    exact hswitch a (by omega) (hnone a) (by omega)
  · intro a hram hout ha
    rw [hswitch a hram (hnone a) ha, hu.mem a hram (by
      rw [hcsp, hF]
      unfold InStack at hout
      omega)]
    exact hc.mem a hout

end

end os_workshop.preemption
