-- Network boot from end to end: whatever the link does, the images are whole
-- in the memory of the target before it is told to start them.
import OsWorkshop.MemoryRanges
import OsWorkshop.NetbootLink
import OsWorkshop.TargetProtocol

open os_workshop.memory (Byte Word Mem Holds dist write)
open os_workshop.octets
open os_workshop.runs

namespace os_workshop.netboot

/-! ## Images in memory -/

/-- The address is in the load range of the image. -/
def Image.Covers (fs : List Byte → List Byte) (im : Image) (x : Word) : Prop :=
  dist im.addr x < (fs im.name).length

/-- The file is in the memory. -/
def Image.Loaded (fs : List Byte → List Byte) (im : Image) (m : Mem) : Prop :=
  Holds m im.addr (fs im.name)

/-- The octet that an image has for an address. -/
def Wants (args : Args) (fs : List Byte → List Byte) (x : Word) (b : Byte) : Prop :=
  ∃ im ∈ args.imagelist, (fs im.name)[dist im.addr x]? = some b

section

variable {ι : Type}

/-- The load ranges are disjoint and leave the loader of every target alone. -/
structure Loadable (args : Args) (fs : List Byte → List Byte) (L : ι → Loader) : Prop where
  apart : args.imagelist.Pairwise fun im im' => ∀ x, ¬ (im.Covers fs x ∧ im'.Covers fs x)
  outside : ∀ i, ∀ im ∈ args.imagelist, ∀ x, im.Covers fs x → ¬ (L i).own x

variable {args : Args} {fs : List Byte → List Byte} {L : ι → Loader} {x : Word} {b c : Byte}
  {im : Image}

theorem Loadable.unique (h : Loadable args fs L) (hb : Wants args fs x b)
    (hc : Wants args fs x c) : b = c := by
  obtain ⟨im, him, hb⟩ := hb
  obtain ⟨im', him', hc⟩ := hc
  by_cases he : im = im'
  · subst he
    exact Option.some.inj (hb.symm.trans hc)
  · have hsymm : Std.Symm fun im im' : Image => ∀ x, ¬ (im.Covers fs x ∧ im'.Covers fs x) :=
      ⟨fun _ _ h x hx => h x hx.symm⟩
    have hlt := (List.getElem?_eq_some_iff.mp hb).1
    have hlt' := (List.getElem?_eq_some_iff.mp hc).1
    exact absurd ⟨hlt, hlt'⟩ (h.apart.forall him him' he x)

/-- The loader takes some of the memory, so no file covers all of it. -/
theorem Loadable.size (h : Loadable args fs L) (i : ι) (him : im ∈ args.imagelist) :
    (fs im.name).length < 2 ^ 32 := by
  by_contra hn
  have hown := (L i).rxbuf_own 0 (by decide)
  refine h.outside i im him _ ?_ hown
  exact (BitVec.isLt _).trans_le (Nat.not_lt.mp hn)

/-- The octets of a piece of a file are wanted where the piece goes. -/
theorem Loadable.wants_part (h : Loadable args fs L) (i : ι) (him : im ∈ args.imagelist)
    {off r : Nat} (hr : off + r ≤ (fs im.name).length) (k : Nat)
    (hk : k < (part (fs im.name) off r).length) :
    Wants args fs (im.addr + BitVec.ofNat 32 off + BitVec.ofNat 32 k)
      (part (fs im.name) off r)[k] := by
  have hsize := h.size i him
  rw [part_length _ _ _ hr] at hk
  refine ⟨im, him, ?_⟩
  rw [← memory.add_ofNat, memory.dist_add _ _ (by omega), List.getElem?_eq_getElem (by omega)]
  simp [part]

/-! ## Messages of the host -/

/-- A piece of a file. -/
def chunk_msg (fs : List Byte → List Byte) (im : Image) (off r : Nat) : Msg where
  cmd := NB_CMD_WRITE
  arg := im.addr + BitVec.ofNat 32 off
  db := part (fs im.name) off r

def exec_msg (entry : Word) : Msg where
  cmd := NB_CMD_EXEC
  arg := entry
  db := []

theorem chunk_command (K : Loader) (seq : Word) {off r : Nat} (hr : r ≤ 1024) :
    command K NB_PORT_CTRL ((chunk_msg fs im off r).octets seq) =
      .write (im.addr + BitVec.ofNat 32 off) (part (fs im.name) off r) := by
  have hlen : (chunk_msg fs im off r).db.length ≤ r := List.length_take_le _ _
  have hw : WellFormed ((chunk_msg fs im off r).octets seq) := by
    refine ⟨?_, ?_, octets_magic _ _⟩ <;>
      · rw [msg_length]
        omega
  rw [command_on_ctrl_port hw, octets_cmd, octets_arg, octets_db]
  rfl

theorem exec_command (K : Loader) (seq entry : Word) :
    command K NB_PORT_CTRL ((exec_msg entry).octets seq) = .exec entry := by
  have hlen : (exec_msg entry).db.length = 0 := rfl
  have hw : WellFormed ((exec_msg entry).octets seq) := by
    refine ⟨?_, ?_, octets_magic _ _⟩ <;>
      · rw [msg_length]
        omega
  rw [command_on_ctrl_port hw, octets_cmd, octets_arg]
  rfl

/-- What comes to the query port is a query or nothing. -/
theorem query_port_command (K : Loader) (m : List Byte) :
    command K NB_PORT_QUERY m = .query ∨ command K NB_PORT_QUERY m = .none := by
  by_cases hw : WellFormed m
  · rw [command_on_query_port hw]
    split
    · exact .inl rfl
    · exact .inr rfl
  · exact .inr (command_refused (.inl hw))

/-- A datagram of the host: a query, a piece of a file, or the start of a target with all files
in its memory. -/
inductive Correct (args : Args) (fs : List Byte → List Byte) (mems : ι → Mem) (d : Datagram ι) :
    Prop
  | query : d.port = NB_PORT_QUERY → Correct args fs mems d
  | write (dst : Option ι) (seq : Word) (im : Image) (off r : Nat) : im ∈ args.imagelist →
      r ≤ 1024 → off + r ≤ (fs im.name).length →
      d = ⟨dst, NB_PORT_CTRL, (chunk_msg fs im off r).octets seq⟩ → Correct args fs mems d
  | exec (i : ι) (seq entry : Word) : args.imagelist.head?.map (·.addr) = some entry →
      (∀ im ∈ args.imagelist, im.Loaded fs (mems i)) →
      d = ⟨some i, NB_PORT_CTRL, (exec_msg entry).octets seq⟩ → Correct args fs mems d

/-- What a target makes of a datagram to it. -/
theorem Correct.cases {mems : ι → Mem} {d : Datagram ι} (h : Correct args fs mems d) (K : Loader)
    {i : ι} (hto : d.dst = none ∨ d.dst = some i) :
    command K d.port d.data = .query ∨ command K d.port d.data = .none ∨
    (∃ im ∈ args.imagelist, ∃ off r, off + r ≤ (fs im.name).length ∧ command K d.port d.data =
      .write (im.addr + BitVec.ofNat 32 off) (part (fs im.name) off r)) ∨
    ∃ entry, args.imagelist.head?.map (·.addr) = some entry ∧
      (∀ im ∈ args.imagelist, im.Loaded fs (mems i)) ∧
      command K d.port d.data = .exec entry := by
  cases h with
  | query hport =>
    rw [hport]
    exact (query_port_command K d.data).imp_right .inl
  | write dst seq im off r him hr hfits he =>
    subst he
    exact .inr (.inr (.inl ⟨im, him, off, r, hfits, chunk_command K seq hr⟩))
  | exec j seq entry hentry hloaded he =>
    subst he
    obtain rfl : j = i := by simpa using hto
    exact .inr (.inr (.inr ⟨entry, hentry, hloaded, exec_command K seq entry⟩))

/-! ## The memory of the targets -/

/-- The wanted octets that stand in their places stay there. -/
def Kept (args : Args) (fs : List Byte → List Byte) (m m' : Mem) : Prop :=
  ∀ x b, Wants args fs x b → m x = b → m' x = b

theorem Kept.refl (m : Mem) : Kept args fs m m := fun _ _ _ h => h

theorem Kept.holds {m m' : Mem} (h : Kept args fs m m') {a : Word} {bs : List Byte}
    (hw : ∀ k (hk : k < bs.length), Wants args fs (a + BitVec.ofNat 32 k) bs[k])
    (hm : Holds m a bs) : Holds m' a bs :=
  fun k hk => h _ _ (hw k hk) (hm k hk)

/-- The first octets of a file. -/
theorem Kept.start {m m' : Mem} (h : Kept args fs m m') (hl : Loadable args fs L) (i : ι)
    (him : im ∈ args.imagelist) {off : Nat} (hoff : off ≤ (fs im.name).length)
    (hm : Holds m im.addr ((fs im.name).take off)) :
    Holds m' im.addr ((fs im.name).take off) := by
  apply h.holds ?_ hm
  intro k hk
  have hwants := hl.wants_part i him (show 0 + off ≤ _ by omega) k (by simpa [part] using hk)
  simpa [part] using hwants

theorem Kept.loaded {m m' : Mem} (h : Kept args fs m m') (hl : Loadable args fs L) (i : ι)
    (him : im ∈ args.imagelist) (hm : im.Loaded fs m) : im.Loaded fs m' := by
  have hstart := h.start hl i him (Nat.le_refl _) (by rw [List.take_length]; exact hm)
  rwa [List.take_length] at hstart

/-- A command of the host keeps what is right, stays within the images, and what it writes stands
there. -/
theorem served.kept (hl : Loadable args fs L) (ram : Ram) {mems : ι → Mem} {d : Datagram ι} {i : ι}
    (hd : Correct args fs mems d) (hto : d.dst = none ∨ d.dst = some i) :
    Kept args fs ram.mem (served ram (command (L i) d.port d.data)).mem ∧
    (∀ x, (∀ im ∈ args.imagelist, ¬ im.Covers fs x) →
      (served ram (command (L i) d.port d.data)).mem x = ram.mem x) ∧
    ∀ addr bytes, command (L i) d.port d.data = .write addr bytes →
      Holds (served ram (command (L i) d.port d.data)).mem addr bytes := by
  obtain hc | hc | ⟨im, him, off, r, hfits, hc⟩ | ⟨entry, _, _, hc⟩ := hd.cases (L i) hto <;>
    rw [hc]
  · exact ⟨Kept.refl _, fun _ _ => rfl, fun _ _ h => nomatch h⟩
  · exact ⟨Kept.refl _, fun _ _ => rfl, fun _ _ h => nomatch h⟩
  · have hsize := hl.size i him
    refine ⟨?_, ?_, ?_⟩
    · intro x b hb hx
      exact @memory.write_wanted _ _ _ (Wants args fs) (fun _ _ _ => hl.unique)
        (hl.wants_part i him hfits) x b hb hx
    · intro x hx
      have hout := hx im him
      apply memory.write_out
      rw [part_length _ _ _ hfits]
      unfold Image.Covers memory.dist at *
      bv_omega
    · intro addr bytes h
      obtain ⟨rfl, rfl⟩ := Command.write.inj h
      exact memory.holds_write _ _ (by rw [part_length _ _ _ hfits]; omega)
  · exact ⟨Kept.refl _, fun _ _ => rfl, fun _ _ h => nomatch h⟩

/-! ## The invariant -/

/-- How many exchanges for the start of a program are over. -/
def exec_overs (es : List Event) : Nat :=
  es.countP fun
    | .exec_over => true
    | _ => false

/-- 1 while the host is in such an exchange. -/
def Pc.starts : Pc ι → Nat
  | .send_msg _ .exec _ _ | .poll _ .exec _ _ => 1
  | _ => 0

/-- The images before the image `n` are loaded, and the first `off` octets of that one. -/
structure Loading (args : Args) (fs : List Byte → List Byte) (m : Mem) (n off : Nat) : Prop where
  before : ∀ k im, k < n → args.imagelist[k]? = some im → im.Loaded fs m
  this : ∀ im, args.imagelist[n]? = some im →
    off ≤ (fs im.name).length ∧ Holds m im.addr ((fs im.name).take off)

/-- The message has the octets of the image `n` between what is loaded and `off`. -/
def Sending (args : Args) (fs : List Byte → List Byte) (m : Mem) (n off : Nat) (msg : Msg) :
    Prop :=
  ∃ im start r, args.imagelist[n]? = some im ∧ off = start + r ∧ r ≤ 1024 ∧
    off ≤ (fs im.name).length ∧ msg = chunk_msg fs im start r ∧ Loading args fs m n start

/-- Every image is loaded, and the message starts the first one. -/
def Starting (args : Args) (fs : List Byte → List Byte) (m : Mem) (msg : Msg) : Prop :=
  (∀ im ∈ args.imagelist, im.Loaded fs m) ∧
    ∃ entry, args.imagelist.head?.map (·.addr) = some entry ∧ msg = exec_msg entry

/-- What the host knows of its target. -/
def Progress (args : Args) (fs : List Byte → List Byte) (mems : ι → Mem) (sent : List (Datagram ι))
    (seq : Word) : Pc ι → Prop
  | .open_node | .exited _ => True
  | .send_file peer n off => Loading args fs (mems peer) n off
  | .send_msg peer (.chunk n off) msg _ => Sending args fs (mems peer) n off msg
  | .poll peer (.chunk n off) msg _ => Sending args fs (mems peer) n off msg ∧
      sent.getLast? = some ⟨some peer, NB_PORT_CTRL, msg.octets seq⟩
  | .send_msg peer .exec msg _ | .poll peer .exec msg _ => Starting args fs (mems peer) msg

/-- What an answer stands for: the target took the datagram, and what it wrote is still there. -/
structure Served (L : ι → Loader) (mems : ι → Mem) (a : Answer ι) : Prop where
  answers : Answers a.request.data (command (L a.origin) a.request.port a.request.data) a.data
  written : ∀ addr bytes,
    command (L a.origin) a.request.port a.request.data = .write addr bytes →
    Holds (mems a.origin) addr bytes

/-- The memories of the targets. -/
def Link.mems (l : Link ι) (i : ι) : Mem := (l.rams i).mem

structure Good (args : Args) (fs : List Byte → List Byte) (L : ι → Loader) (rams : ι → Ram)
    (es : List Event) (l : Link ι) : Prop where
  counter : l.host.seq =
    BitVec.ofNat 32 (1 + l.sent.length + (exec_overs es + l.host.pc.starts))
  numbers : ∀ (j : Nat) (d : Datagram ι), l.sent[j]? = some d →
    ∃ e, e ≤ exec_overs es + l.host.pc.starts ∧ field32 d.data 8 = BitVec.ofNat 32 (2 + j + e)
  sent : ∀ d ∈ l.sent, Correct args fs l.mems d
  requests : ∀ a ∈ l.answers, a.request ∈ l.sent ∧
    (a.request.dst = none ∨ a.request.dst = some a.origin)
  effects : ∀ a ∈ l.answers, Served L l.mems a
  outside : ∀ i x, (∀ im ∈ args.imagelist, ¬ im.Covers fs x) → l.mems i x = (rams i).mem x
  progress : Progress args fs l.mems l.sent l.host.seq l.host.pc

/-! ## What the memories keep -/

section

variable {m m' : Mem} {mems mems' : ι → Mem} {n off : Nat} {msg : Msg}

theorem Loading.kept (h : Loading args fs m n off) (hk : Kept args fs m m')
    (hl : Loadable args fs L) (i : ι) : Loading args fs m' n off := by
  refine ⟨fun k im hkn him => ?_, fun im him => ?_⟩
  · exact hk.loaded hl i (List.mem_of_getElem? him) (h.before k im hkn him)
  · obtain ⟨hoff, hholds⟩ := h.this im him
    exact ⟨hoff, hk.start hl i (List.mem_of_getElem? him) hoff hholds⟩

theorem Sending.kept (h : Sending args fs m n off msg) (hk : Kept args fs m m')
    (hl : Loadable args fs L) (i : ι) : Sending args fs m' n off msg := by
  obtain ⟨im, start, r, him, hoff, hr, hfits, hmsg, hloading⟩ := h
  exact ⟨im, start, r, him, hoff, hr, hfits, hmsg, hloading.kept hk hl i⟩

theorem Starting.kept (h : Starting args fs m msg) (hk : Kept args fs m m')
    (hl : Loadable args fs L) (i : ι) : Starting args fs m' msg :=
  ⟨fun im him => hk.loaded hl i him (h.1 im him), h.2⟩

theorem Progress.kept {sent : List (Datagram ι)} {seq : Word} {pc : Pc ι}
    (h : Progress args fs mems sent seq pc) (hk : ∀ i, Kept args fs (mems i) (mems' i))
    (hl : Loadable args fs L) : Progress args fs mems' sent seq pc := by
  match pc, h with
  | .open_node, _ | .exited _, _ => trivial
  | .send_file peer n off, h => exact Loading.kept h (hk peer) hl peer
  | .send_msg peer (.chunk n off) msg _, h => exact Sending.kept h (hk peer) hl peer
  | .poll peer (.chunk n off) msg _, h => exact ⟨Sending.kept h.1 (hk peer) hl peer, h.2⟩
  | .send_msg peer .exec msg _, h | .poll peer .exec msg _, h =>
    exact Starting.kept h (hk peer) hl peer

theorem Correct.kept {d : Datagram ι} (h : Correct args fs mems d)
    (hk : ∀ i, Kept args fs (mems i) (mems' i)) (hl : Loadable args fs L) :
    Correct args fs mems' d := by
  cases h with
  | query hport => exact .query hport
  | write dst seq im off r him hr hfits he => exact .write dst seq im off r him hr hfits he
  | exec i seq entry hentry hloaded he =>
    exact .exec i seq entry hentry (fun im him => (hk i).loaded hl i him (hloaded im him)) he

/-- A WRITE of the host has wanted octets. -/
theorem Correct.wants {d : Datagram ι} (h : Correct args fs mems d) (hl : Loadable args fs L)
    {i : ι} (hto : d.dst = none ∨ d.dst = some i) {addr : Word} {bytes : List Byte}
    (hc : command (L i) d.port d.data = .write addr bytes) (k : Nat) (hk : k < bytes.length) :
    Wants args fs (addr + BitVec.ofNat 32 k) bytes[k] := by
  obtain h | h | ⟨im, him, off, r, hfits, h⟩ | ⟨_, _, _, h⟩ := h.cases (L i) hto <;>
    rw [h] at hc
  · exact nomatch hc
  · exact nomatch hc
  · obtain ⟨rfl, rfl⟩ := Command.write.inj hc
    exact hl.wants_part i him hfits k hk
  · exact nomatch hc

end

/-! ## What each step keeps -/

section

variable {rams : ι → Ram} {es : List Event} {l l' : Link ι} {e : Event}

theorem exec_overs_append (es : List Event) (e : Event) :
    exec_overs (es ++ [e]) = exec_overs es + exec_overs [e] := List.countP_append

theorem Good.start (rams : ι → Ram) : Good args fs L rams [] (.start rams) where
  counter := rfl
  numbers := fun _ _ h => nomatch h
  sent := fun _ h => nomatch h
  requests := fun _ h => nomatch h
  effects := fun _ h => nomatch h
  outside := fun _ _ _ => rfl
  progress := trivial

/-- A step of the host that sends nothing. -/
theorem Good.moves (g : Good args fs L rams es l) {pc : Pc ι}
    (hcount : exec_overs (es ++ [e]) + pc.starts = exec_overs es + l.host.pc.starts)
    (hp : Progress args fs l.mems l.sent l.host.seq pc) :
    Good args fs L rams (es ++ [e]) (l.at pc) where
  counter := by
    have hc := g.counter
    rw [← hcount] at hc
    exact hc
  numbers := by
    have hn := g.numbers
    rw [← hcount] at hn
    exact hn
  sent := g.sent
  requests := g.requests
  effects := g.effects
  outside := g.outside
  progress := hp

/-- The end of the exchange that starts the program. -/
theorem Good.after_exec (g : Good args fs L rams es l) (hpc : l.host.pc.starts = 1) (peer : ι)
    (ok : Bool) :
    Good args fs L rams (es ++ [.exec_over]) (l.at (after_send_msg args peer ok .exec)) := by
  have hover : exec_overs (es ++ [.exec_over]) = exec_overs es + 1 :=
    exec_overs_append es .exec_over
  cases hexit : args.do_exit with
  | false =>
    refine g.moves ?_ ?_ <;> simp only [after_send_msg, hexit, Bool.false_eq_true, if_false]
    · rw [hover, hpc]
      rfl
    · trivial
  | true =>
    refine g.moves ?_ ?_ <;> simp only [after_send_msg, hexit, if_true]
    · rw [hover, hpc]
      rfl
    · trivial

/-- A step of the host that sends a message. -/
theorem Good.sends (g : Good args fs L rams es l) {dst : Option ι} {port : BitVec 16} {m : Msg}
    {pc : Pc ι}
    (hcount : exec_overs (es ++ [e]) + pc.starts = exec_overs es + l.host.pc.starts)
    (hd : Correct args fs l.mems ⟨dst, port, m.octets (l.host.seq + 1)⟩)
    (hp : Progress args fs l.mems (l.sends dst port m pc).sent (l.host.seq + 1) pc) :
    Good args fs L rams (es ++ [e]) (l.sends dst port m pc) := by
  have hseq : l.host.seq + 1 =
      BitVec.ofNat 32 (2 + l.sent.length + (exec_overs es + l.host.pc.starts)) := by
    rw [g.counter]
    bv_omega
  refine
    { counter := ?_, numbers := ?_, sent := ?_, requests := ?_, effects := g.effects,
      outside := g.outside, progress := hp }
  · show l.host.seq + 1 =
      BitVec.ofNat 32 (1 + (l.sent ++ [_]).length + (exec_overs (es ++ [e]) + pc.starts))
    rw [hseq, hcount, List.length_append, List.length_singleton]
    congr 1
    omega
  · intro j d hj
    show ∃ k, k ≤ exec_overs (es ++ [e]) + pc.starts ∧ _
    rw [hcount]
    by_cases hlt : j < l.sent.length
    · exact g.numbers j d (by rwa [Link.sends, List.getElem?_append_left hlt] at hj)
    · have hle := (List.getElem?_eq_some_iff.mp hj).1
      rw [Link.sends, List.length_append, List.length_singleton] at hle
      obtain rfl : j = l.sent.length := by omega
      rw [Link.sends, List.getElem?_concat_length] at hj
      refine ⟨_, Nat.le_refl _, ?_⟩
      rw [← Option.some.inj hj, octets_seq, hseq]
  · intro d hd'
    obtain hd' | hd' := List.mem_append.mp hd'
    · exact g.sent d hd'
    · rw [List.mem_singleton.mp hd']
      exact hd
  · intro a ha
    obtain ⟨hmem, hto⟩ := g.requests a ha
    exact ⟨List.mem_append_left _ hmem, hto⟩

/-- The message that the host is about to send. -/
theorem Good.message (g : Good args fs L rams es l) {peer : ι} {job : Job} {m : Msg} {retry : Nat}
    (hpc : l.host.pc = .send_msg peer job m retry) (seq : Word) :
    Correct args fs l.mems ⟨some peer, NB_PORT_CTRL, m.octets seq⟩ := by
  have hp := g.progress
  rw [hpc] at hp
  cases job with
  | chunk n off =>
    obtain ⟨im, start, r, him, rfl, hr, hfits, rfl, -⟩ := hp
    exact .write _ _ im start r (List.mem_of_getElem? him) hr hfits rfl
  | exec =>
    obtain ⟨hloaded, entry, hentry, rfl⟩ := hp
    exact .exec peer _ entry hentry hloaded rfl

/-- A message that is given up. -/
theorem given_up {job : Job} {peer : ι} {m : Msg} {retry : Nat}
    (hpc : l.host.pc = .send_msg peer job m retry) (es : List Event) :
    exec_overs (es ++ [job.over]) + (after_send_msg args peer false job).starts =
        exec_overs es + l.host.pc.starts ∧
      ∀ mems sent seq, Progress args fs mems sent seq (after_send_msg args peer false job) := by
  rw [exec_overs_append, hpc]
  cases job with
  | chunk n off => exact ⟨rfl, fun _ _ _ => trivial⟩
  | exec =>
    unfold after_send_msg
    cases args.do_exit <;> exact ⟨rfl, fun _ _ _ => trivial⟩

/-- The counter counts the messages, so the answer to the last message names that one alone. -/
theorem Good.last (g : Good args fs L rams es l) (hsent : l.sent.length < 2 ^ 32)
    (hover : exec_overs es + l.host.pc.starts ≤ 1) {d d' : Datagram ι} (hd : d ∈ l.sent)
    (hseq : field32 d.data 8 = l.host.seq) (hlast : l.sent.getLast? = some d') : d = d' := by
  obtain ⟨j, hj⟩ := List.getElem?_of_mem hd
  obtain ⟨e, he, hnumber⟩ := g.numbers j d hj
  have hlt := (List.getElem?_eq_some_iff.mp hj).1
  have hcount := g.counter
  rw [← hseq, hnumber] at hcount
  have hj' : j = l.sent.length - 1 := by bv_omega
  rw [List.getLast?_eq_getElem?, ← hj', hj] at hlast
  exact Option.some.inj hlast

/-- The acknowledged piece is in the memory, behind the ones before it. -/
theorem Good.acknowledged (g : Good args fs L rams es l) (hsent : l.sent.length < 2 ^ 32)
    (hover : exec_overs es ≤ 1) {a : Answer ι} {n off : Nat} {m : Msg} {retry : Nat}
    (hpc : l.host.pc = .poll a.origin (.chunk n off) m retry) (ha : a ∈ l.answers)
    (hack : read_reply l.host.seq a.data = .acknowledged) :
    Loading args fs (l.mems a.origin) n off := by
  have hp := g.progress
  rw [hpc] at hp
  obtain ⟨⟨im, start, r, him, hoff, hr, hfits, rfl, hloading⟩, hlast⟩ := hp
  have hserved := g.effects a ha
  have hseq : field32 a.request.data 8 = l.host.seq := by
    rw [← hserved.answers.seq]
    by_contra hne
    unfold read_reply at hack
    rw [if_pos hne] at hack
    split at hack <;> exact nomatch hack
  have hstarts : l.host.pc.starts = 0 := by rw [hpc]; rfl
  have heq := g.last hsent (by omega) (g.requests a ha).1 hseq hlast
  have hwritten := hserved.written (im.addr + BitVec.ofNat 32 start) (part (fs im.name) start r)
    (by rw [heq]; exact chunk_command _ _ hr)
  refine ⟨hloading.before, fun im' him' => ?_⟩
  obtain rfl := Option.some.inj (him.symm.trans him')
  obtain ⟨hstart, hholds⟩ := hloading.this im him
  refine ⟨hfits, ?_⟩
  have htake : (fs im.name).take off = (fs im.name).take start ++ part (fs im.name) start r := by
    rw [hoff]
    exact List.take_add
  have hlen : ((fs im.name).take start).length = start := by
    rw [List.length_take]
    omega
  rw [htake]
  refine hholds.append ?_
  rw [hlen]
  exact hwritten

variable [DecidableEq ι]

theorem Good.serves (g : Good args fs L rams es l) (hl : Loadable args fs L) {i : ι}
    {d : Datagram ι} {answers : List (Answer ι)} {ram : Ram} (hd : d ∈ l.sent)
    (hto : d.dst = none ∨ d.dst = some i)
    (ha : answers = [] ∨ ∃ a, Answers d.data (command (L i) d.port d.data) a ∧
      answers = [⟨i, d, a⟩])
    (hkept : Kept args fs (l.rams i).mem ram.mem)
    (hout : ∀ x, (∀ im ∈ args.imagelist, ¬ im.Covers fs x) → ram.mem x = (l.rams i).mem x)
    (hwritten : ∀ addr bytes, command (L i) d.port d.data = .write addr bytes →
      Holds ram.mem addr bytes) :
    Good args fs L rams (es ++ [.serve])
      { l with rams := Function.update l.rams i ram, answers := l.answers ++ answers } := by
  have hself : Function.update l.rams i ram i = ram := Function.update_self ..
  have hmems (j : ι) : Kept args fs (l.mems j) (Function.update l.rams i ram j).mem := by
    by_cases hj : j = i
    · subst hj
      rw [hself]
      exact hkept
    · rw [Function.update_of_ne hj]
      exact Kept.refl _
  have hcount : exec_overs (es ++ [.serve]) = exec_overs es := exec_overs_append es .serve
  refine
    { counter := ?_, numbers := ?_, sent := fun d' hd' => (g.sent d' hd').kept hmems hl,
      requests := ?_, effects := ?_, outside := ?_, progress := g.progress.kept hmems hl }
  · rw [hcount]
    exact g.counter
  · rw [hcount]
    exact g.numbers
  · intro a ha'
    obtain ha' | ha' := List.mem_append.mp ha'
    · exact g.requests a ha'
    · obtain rfl | ⟨data, -, rfl⟩ := ha
      · exact nomatch ha'
      · obtain rfl := List.mem_singleton.mp ha'
        exact ⟨hd, hto⟩
  · intro a ha'
    obtain ha' | ha' := List.mem_append.mp ha'
    · obtain ⟨hanswers, hold⟩ := g.effects a ha'
      obtain ⟨hmem, hto'⟩ := g.requests a ha'
      refine ⟨hanswers, fun addr bytes hc => ?_⟩
      exact (hmems a.origin).holds ((g.sent _ hmem).wants hl hto' hc) (hold addr bytes hc)
    · obtain rfl | ⟨data, hdata, rfl⟩ := ha
      · exact nomatch ha'
      · obtain rfl := List.mem_singleton.mp ha'
        refine ⟨hdata, fun addr bytes hc => ?_⟩
        show Holds (Function.update l.rams i ram i).mem addr bytes
        rw [hself]
        exact hwritten addr bytes hc
  · intro j x hx
    show (Function.update l.rams i ram j).mem x = _
    by_cases hj : j = i
    · subst hj
      rw [hself, hout x hx]
      exact g.outside j x hx
    · rw [Function.update_of_ne hj]
      exact g.outside j x hx

/-- Every image was read to its end. -/
theorem Loading.all {m : Mem} {n off : Nat} (h : Loading args fs m n off)
    (hn : args.imagelist.length ≤ n) : ∀ im ∈ args.imagelist, im.Loaded fs m := by
  intro im him
  obtain ⟨k, hk⟩ := List.getElem?_of_mem him
  have hlt := (List.getElem?_eq_some_iff.mp hk).1
  exact h.before k im (by omega) hk

theorem Loading.end {m : Mem} {n off : Nat} (h : Loading args fs m n off)
    (hn : args.imagelist[n]? = some im) (hoff : (fs im.name).length ≤ off) : im.Loaded fs m := by
  have hholds := (h.this im hn).2
  rwa [List.take_of_length_le hoff] at hholds

theorem Good.step (g : Good args fs L rams es l) (hl : Loadable args fs L)
    (hsent : l.sent.length < 2 ^ 32) (hover : exec_overs es ≤ 1) (hs : Step args fs L l e l') :
    Good args fs L rams (es ++ [e]) l' := by
  have hp := g.progress
  have hsame (e : Event) (he : exec_overs [e] = 0) : exec_overs (es ++ [e]) = exec_overs es := by
    rw [exec_overs_append, he, Nat.add_zero]
  cases hs with
  | name_too_long hpc _ | query_fails hpc =>
    exact g.moves (by rw [hsame .locate rfl, hpc]; rfl) trivial
  | query hpc _ =>
    exact g.sends (by rw [hsame .locate rfl, hpc]) (.query rfl) trivial
  | @hears _ a hpc ha =>
    split_ifs
    · refine g.moves (by rw [hsame .locate rfl, hpc]; rfl) ⟨fun k im hk _ => ?_, fun im _ => ?_⟩
      · exact absurd hk (Nat.not_lt_zero k)
      · exact ⟨Nat.zero_le _, Holds.nil⟩
    · have hstay : Good args fs L rams (es ++ [.locate]) (l.at l.host.pc) :=
        g.moves (by rw [hsame .locate rfl]) g.progress
      exact hstay
  | @chunk _ peer n off r h hpc _ hr hfits =>
    rw [hpc] at hp
    refine g.moves (by rw [hsame .transfer rfl, hpc]; rfl) ?_
    exact ⟨args.imagelist[n], off, r, List.getElem?_eq_getElem h, rfl, hr, hfits, rfl, hp⟩
  | @file_sent _ peer n off h hpc hend =>
    rw [hpc] at hp
    refine g.moves (by rw [hsame .transfer rfl, hpc]; rfl) ⟨fun k im hk him => ?_, fun im _ => ?_⟩
    · obtain hk | rfl := Nat.lt_succ_iff_lt_or_eq.mp hk
      · exact Loading.before hp k im hk him
      · obtain rfl := Option.some.inj ((List.getElem?_eq_getElem h).symm.trans him)
        exact Loading.end hp him hend
    · exact ⟨Nat.zero_le _, Holds.nil⟩
  | @file_fails _ peer n off hpc _ =>
    exact g.moves (by rw [hsame .transfer rfl, hpc]; rfl) trivial
  | @start_exec _ peer n off h hpc hn =>
    rw [hpc] at hp
    have hstarts : l.host.pc.starts = 0 := by rw [hpc]; rfl
    have hhead : args.imagelist.head?.map (·.addr) = some args.imagelist[0].addr := by
      rw [List.head?_eq_getElem?, List.getElem?_eq_getElem h]
      rfl
    refine
      { counter := ?_, numbers := ?_, sent := g.sent, requests := g.requests, effects := g.effects,
        outside := g.outside, progress := ⟨Loading.all hp hn, _, hhead, rfl⟩ }
    · show l.host.seq + 1 =
        BitVec.ofNat 32 (1 + l.sent.length + (exec_overs (es ++ [.transfer]) + 1))
      rw [g.counter, hsame .transfer rfl, hstarts]
      bv_omega
    · intro j d hj
      obtain ⟨k, hk, hnumber⟩ := g.numbers j d hj
      rw [hstarts] at hk
      refine ⟨k, hk.trans ?_, hnumber⟩
      rw [hsame .transfer rfl]
      exact Nat.le_succ _
  | @write _ peer job m retry hpc _ =>
    rw [hpc] at hp
    cases job with
    | chunk n off =>
      exact g.sends (by rw [hsame .transfer rfl, hpc]; rfl) (g.message hpc _)
        ⟨hp, List.getLast?_concat⟩
    | exec => exact g.sends (by rw [hsame .transfer rfl, hpc]; rfl) (g.message hpc _) hp
  | write_fails hpc _ =>
    obtain ⟨hcount, hprogress⟩ := given_up hpc es
    exact g.sends hcount (g.message hpc _) (hprogress _ _ _)
  | gives_up hpc _ =>
    obtain ⟨hcount, hprogress⟩ := given_up hpc es
    exact g.moves hcount (hprogress _ _ _)
  | @timeout _ peer job m retry hpc =>
    rw [hpc] at hp
    cases job with
    | chunk n off => exact g.moves (by rw [hsame .transfer rfl, hpc]; rfl) hp.1
    | exec => exact g.moves (by rw [hsame .transfer rfl, hpc]; rfl) hp
  | @read_chunk _ n off m retry a hpc ha =>
    rw [hpc] at hp
    cases hread : read_reply l.host.seq a.data with
    | garbled | stale => exact g.moves (by rw [hsame .transfer rfl, hpc]; rfl) hp.1
    | refused => exact g.moves (by rw [hsame .transfer rfl, hpc]; rfl) trivial
    | acknowledged =>
      exact g.moves (by rw [hsame .transfer rfl, hpc]; rfl)
        (g.acknowledged hsent hover hpc ha hread)
  | @read_exec _ m retry a hpc ha =>
    rw [hpc] at hp
    cases hread : read_reply l.host.seq a.data with
    | garbled | stale =>
      exact g.moves (by rw [if_neg (by simp), hsame .transfer rfl, hpc]; rfl) hp
    | refused =>
      rw [if_pos (.inl rfl)]
      exact g.after_exec (by rw [hpc]; rfl) a.origin false
    | acknowledged =>
      rw [if_pos (.inr rfl)]
      exact g.after_exec (by rw [hpc]; rfl) a.origin true
  | @serve _ i d answers hd hto hentry hown ha =>
    obtain ⟨hkept, hout, hwritten⟩ := served.kept hl (l.rams i) (g.sent d hd) hto
    exact g.serves hl hd hto ha hkept hout hwritten

theorem Step.sent_le (hs : Step args fs L l e l') : l.sent.length ≤ l'.sent.length := by
  cases hs with
  | query _ _ | write _ _ | write_fails _ _ => exact (List.length_append ▸ Nat.le_add_right _ _)
  | hears _ _ => split_ifs <;> exact Nat.le_refl _
  | _ => exact Nat.le_refl _

/-- In every run up to the second exchange that starts a program. -/
theorem transferred (hl : Loadable args fs L) (hrun : Run (Step args fs L) (Link.start rams) es l)
    (hsent : l.sent.length < 2 ^ 32) (hover : exec_overs es ≤ 1) : Good args fs L rams es l := by
  refine hrun.carries
    (I := fun es l => l.sent.length < 2 ^ 32 → exec_overs es ≤ 1 → Good args fs L rams es l)
    (fun _ _ => Good.start rams) ?_ hsent hover
  intro es l e l' ih hs hsent hover
  rw [exec_overs_append] at hover
  have hsent' := hs.sent_le.trans_lt hsent
  exact (ih hsent' (by omega)).step hl hsent' (by omega) hs

/-! ## The law -/

/-- The target may take the datagram. -/
def Link.Offers (l : Link ι) (i : ι) (d : Datagram ι) : Prop :=
  d ∈ l.sent ∧ (d.dst = none ∨ d.dst = some i)

/-- Whatever is lost, repeated, late or out of order: a target that takes EXEC has every file in
its memory and goes to the first image, nothing was written outside the images, at the end of
`send_file` the file is there, and no WRITE touches the loader. -/
theorem images_are_there_before_the_start (hl : Loadable args fs L)
    (hrun : Run (Step args fs L) (Link.start rams) es l) (hsent : l.sent.length < 2 ^ 32)
    (hover : exec_overs es ≤ 1) :
    (∀ i d entry, l.Offers i d → command (L i) d.port d.data = .exec entry →
      args.imagelist.head?.map (·.addr) = some entry ∧
      ∀ im ∈ args.imagelist,
        memory.read (l.rams i).mem im.addr (fs im.name).length = fs im.name) ∧
    (∀ i x, (∀ im ∈ args.imagelist, ¬ im.Covers fs x) → (l.rams i).mem x = (rams i).mem x) ∧
    (∀ peer n off im, l.host.pc = .send_file peer n off → args.imagelist[n]? = some im →
      (fs im.name).length ≤ off →
      memory.read (l.rams peer).mem im.addr (fs im.name).length = fs im.name) ∧
    ∀ i d addr bytes, l.Offers i d → command (L i) d.port d.data = .write addr bytes →
      ∀ k < bytes.length, ¬ (L i).own (addr + BitVec.ofNat 32 k) := by
  have g := transferred hl hrun hsent hover
  refine ⟨?_, g.outside, ?_, ?_⟩
  · rintro i d entry ⟨hd, hto⟩ hc
    obtain h | h | ⟨_, _, _, _, _, h⟩ | ⟨entry', hentry, hloaded, h⟩ :=
      (g.sent d hd).cases (L i) hto <;> rw [h] at hc
    · exact nomatch hc
    · exact nomatch hc
    · exact nomatch hc
    · obtain rfl := Command.exec.inj hc
      exact ⟨hentry, fun im him => (hloaded im him).read⟩
  · intro peer n off im hpc him hend
    have hp := g.progress
    rw [hpc] at hp
    exact (Loading.end hp him hend).read
  · rintro i d addr bytes ⟨hd, hto⟩ hc k hk
    obtain ⟨im, him, hx⟩ := (g.sent d hd).wants hl hto hc k hk
    exact hl.outside i im him _ (List.getElem?_eq_some_iff.mp hx).1

end

end

/-! ## A run up to the start -/

theorem Step.acknowledged {ι : Type} [DecidableEq ι] {args : Args} {fs : List Byte → List Byte}
    {L : ι → Loader} {l : Link ι} {n off retry : Nat} {m : Msg} {a : Answer ι}
    (hpc : l.host.pc = .poll a.origin (.chunk n off) m retry) (ha : a ∈ l.answers)
    (hread : read_reply l.host.seq a.data = .acknowledged) :
    Step args fs L l .transfer (l.at (.send_file a.origin n off)) := by
  have h := @Step.read_chunk _ _ args fs L _ _ _ _ _ _ hpc ha
  rw [hread] at h
  exact h

/-- The message that starts the image. -/
def a_start : Datagram Unit := ⟨some (), NB_PORT_CTRL, (exec_msg 0x40008000).octets 5⟩

/-- The piece of the file. -/
def a_piece : Datagram Unit :=
  ⟨some (), NB_PORT_CTRL, (chunk_msg two_octets an_image 0 2).octets 3⟩

/-- The answer to it. -/
def an_ack : List Byte := ({ cmd := NB_CMD_STATUS, arg := NB_OK, db := [] } : Msg).octets 3

theorem a_piece_command : command device a_piece.port a_piece.data = .write 0x40008000 [1, 2] :=
  chunk_command device 3 (by decide)

theorem a_piece_answered :
    Answers a_piece.data (command device a_piece.port a_piece.data) an_ack := by
  rw [a_piece_command]
  refine ⟨by simp, ?_⟩
  rw [show field32 a_piece.data 8 = 3 from octets_seq _ _]
  rfl

theorem a_start_is_sent :
    ∃ es l, Run (Step (asked device_name) two_octets fun _ : Unit => device)
        (Link.start fun _ => booted) es l ∧
      exec_overs es = 0 ∧ l.sent.length = 3 ∧ l.Offers () a_start := by
  have hquery : command device NB_PORT_QUERY ((query device_name).octets 2) = .query := by decide
  have hown : ∀ addr bytes, command device a_piece.port a_piece.data = .write addr bytes →
      ∀ k < bytes.length, ¬ device.own (addr + BitVec.ofNat 32 k) := by
    intro addr bytes h k hk hown
    obtain ⟨rfl, rfl⟩ := Command.write.inj (a_piece_command.symm.trans h)
    have hlen : k < 2 := hk
    have hhigh := hown.2
    bv_omega
  have r1 := Run.single (@Step.query _ _ (asked device_name) two_octets (fun _ : Unit => device)
    (Link.start fun _ => booted) rfl (by decide))
  have r2 := r1.snoc (@Step.serve Unit _ _ _ _ _ ()
    ⟨none, NB_PORT_QUERY, (query device_name).octets 2⟩
    [⟨(), ⟨none, NB_PORT_QUERY, (query device_name).octets 2⟩, an_answer⟩]
    (List.mem_singleton_self _) (.inl rfl) rfl (by rw [hquery]; simp)
    (.inr ⟨an_answer, ⟨by rw [hquery]; simp, by rw [hquery]; decide⟩, rfl⟩))
  have r3 := r2.snoc (Step.located rfl (List.mem_singleton_self _)
    (show Locates 2 an_answer by decide))
  have r4 := r3.snoc (Step.chunk (r := 2) (by decide) rfl (by decide) (by decide) (Nat.le_refl 2))
  have r5 := r4.snoc (Step.write rfl (by decide))
  have r6 := r5.snoc (@Step.serve Unit _ _ _ _ _ () a_piece [⟨(), a_piece, an_ack⟩]
    (List.mem_append_right _ (List.mem_singleton_self _)) (.inr rfl) rfl hown
    (.inr ⟨an_ack, a_piece_answered, rfl⟩))
  have r7 := r6.snoc (Step.acknowledged (a := ⟨(), a_piece, an_ack⟩) rfl
    (List.mem_append_right _ (List.mem_singleton_self _))
    (show read_reply 3 an_ack = .acknowledged by decide))
  have r8 := r7.snoc (Step.file_sent (by decide) rfl (Nat.le_refl 2))
  have r9 := r8.snoc (Step.start_exec (by decide) rfl (Nat.le_refl 1))
  have r10 := r9.snoc (Step.write rfl (by decide))
  exact ⟨_, _, r10, rfl, rfl, List.mem_append_right _ (List.mem_singleton_self _), .inr rfl⟩

theorem two_octets_loadable : Loadable (asked device_name) two_octets fun _ : Unit => device := by
  refine ⟨List.pairwise_singleton _ _, fun _ im him x hx hown => ?_⟩
  obtain rfl := List.mem_singleton.mp him
  obtain ⟨h1, h2⟩ := hown
  have hsize : (two_octets an_image.name).length = 2 := rfl
  have haddr : an_image.addr = 0x40008000 := rfl
  unfold Image.Covers memory.dist at hx
  rw [hsize, haddr] at hx
  bv_omega

/-- A query, its answer, one piece of the image, its acknowledgement, and the start. -/
theorem the_two_octets_are_there :
    Loadable (asked device_name) two_octets (fun _ : Unit => device) ∧
    ∃ es l, Run (Step (asked device_name) two_octets fun _ : Unit => device)
        (Link.start fun _ => booted) es l ∧
      exec_overs es = 0 ∧ l.sent.length = 3 ∧ l.Offers () a_start ∧
      memory.read (l.rams ()).mem 0x40008000 2 = [1, 2] ∧ (l.rams ()).mem 0x40008002 = 0 := by
  obtain ⟨es, l, hrun, hover, hlen, hoffers⟩ := a_start_is_sent
  obtain ⟨hexec, hout, -, -⟩ := images_are_there_before_the_start two_octets_loadable hrun
    (by rw [hlen]; decide) (by rw [hover]; decide)
  obtain ⟨-, hfiles⟩ := hexec () a_start 0x40008000 hoffers (exec_command device 5 0x40008000)
  have hbehind : ∀ im ∈ (asked device_name).imagelist, ¬ im.Covers two_octets 0x40008002 := by
    intro im him
    obtain rfl := List.mem_singleton.mp him
    unfold Image.Covers
    decide
  exact ⟨two_octets_loadable, es, l, hrun, hover, hlen, hoffers,
    hfiles an_image (List.mem_singleton_self _), hout () 0x40008002 hbehind⟩

end os_workshop.netboot
