-- The exchange of the host with its target (send_msg of src/tools/netboot.c)
-- on a link that keeps every datagram and their order, when one of the replies
-- comes twice or too late. Each `read` takes the oldest reply, so a reply too
-- many moves all the later ones to the wait after theirs.
import OsWorkshop.TargetMessages

open os_workshop.memory (Byte Word)
open os_workshop.octets
open os_workshop.net

namespace os_workshop.netboot

/-! ## The link -/

/-- What happens to one of the replies. They are counted from 0. -/
inductive Mishap
  | none
  /-- The reply `k` comes twice: the second time after the reply `k + lag`. -/
  | twice (k lag : Nat)
  /-- The reply `k` comes after its own wait, but before the reply to the next message. -/
  | late (k : Nat)

/-- What comes in the wait for the reply `rsp`, when `replies` were sent before it. -/
def Mishap.arrivals (e : Mishap) (replies : List (List Byte)) (rsp : List Byte) :
    List (List Byte) :=
  match e with
  | .none => [rsp]
  | .twice k lag =>
    if replies.length = k + lag then rsp :: (replies ++ [rsp])[k]?.toList else [rsp]
  | .late k =>
    if replies.length = k then []
    else if replies.length = k + 1 then replies[k]?.toList ++ [rsp]
    else [rsp]

/-- The target's replies: to the message `n`, which it got as these octets. -/
abbrev Target := Nat → List Byte → List Byte

/-- The connected socket, and the counter of the host. -/
structure Socket where
  seq : Word
  /-- What the target sent, oldest first. -/
  replies : List (List Byte)
  /-- What has come and was not read, oldest first. -/
  inbox : List (List Byte)

def Socket.opened (seq : Word) : Socket where
  seq := seq
  replies := []
  inbox := []

section

variable (e : Mishap) (target : Target)

/-! ## The host -/

/-- A datagram was read. -/
def Socket.keeps (s : Socket) (inbox : List (List Byte)) : Socket := { s with inbox := inbox }

/-- What the target says to the next message. -/
def Socket.reply (s : Socket) (m : Msg) : List Byte :=
  target s.replies.length (m.octets (s.seq + 1))

/-- A `write`, and the `poll` behind it. -/
def Socket.wrote (s : Socket) (m : Msg) : Socket where
  seq := s.seq + 1
  replies := s.replies ++ [s.reply target m]
  inbox := s.inbox ++ e.arrivals s.replies (s.reply target m)

/-- The loop of `send_msg`, with the turns that are left. -/
def send_msg_loop (m : Msg) : Nat → Socket → Int × Socket
  | 0, s => (-1, s)
  | retries + 1, s =>
    match (s.wrote e target m).inbox with
    | [] => send_msg_loop m retries (s.wrote e target m)
    | rsp :: inbox =>
      match read_reply (s.wrote e target m).seq rsp with
      | .garbled | .stale => send_msg_loop m retries ((s.wrote e target m).keeps inbox)
      | .refused => (-1, (s.wrote e target m).keeps inbox)
      | .acknowledged => (0, (s.wrote e target m).keeps inbox)

def send_msg (m : Msg) (s : Socket) : Int × Socket := send_msg_loop e target m 5 s

/-- One call after another, with their results. -/
def send_msgs : List Msg → Socket → List Int × Socket
  | [], s => ([], s)
  | m :: ms, s =>
    ((send_msg e target m s).1 :: (send_msgs ms (send_msg e target m s).2).1,
      (send_msgs ms (send_msg e target m s).2).2)

end

/-! ## Acknowledgements -/

/-- The reply says `NB_OK` to the message with this number. -/
structure Acks (seq : Word) (rsp : List Byte) : Prop where
  long : 16 ≤ rsp.length
  magic : field32 rsp 0 = NB_MAGIC
  cmd : field32 rsp 4 = NB_CMD_STATUS
  seq : field32 rsp 8 = seq
  arg : field32 rsp 12 = NB_OK

/-- The target says `NB_OK` to every message. -/
def Target.Accepts (target : Target) : Prop :=
  ∀ (n : Nat) (m : Msg) (seq : Word), Acks seq (target n (m.octets seq))

theorem Acks.read_reply {q : Word} {rsp : List Byte} (h : Acks q rsp) (seq : Word) :
    read_reply seq rsp = if q = seq then .acknowledged else .stale := by
  have hlong := h.long
  unfold netboot.read_reply
  rw [if_neg (by simp [h.magic, h.cmd]; omega), h.seq, h.arg]
  by_cases hq : q = seq <;> simp [hq]

/-- The loader answers so all the commands that it knows. -/
theorem Answers.acks {d a : List Byte} {c : Command} (h : Answers d c a) (hc : c ≠ .other) :
    Acks (field32 d 8) a := by
  refine ⟨h.long, h.magic, h.cmd, h.seq, ?_⟩
  rw [h.arg]
  cases c with
  | other => exact absurd rfl hc
  | none | query | write _ _ | exec _ => rfl

/-! ## The turns of the loop -/

section

variable {e : Mishap} {target : Target} {m : Msg} {n : Nat} {s : Socket}

theorem wrote_inbox :
    (s.wrote e target m).inbox = s.inbox ++ e.arrivals s.replies (s.reply target m) := rfl

theorem wrote_replies : (s.wrote e target m).replies = s.replies ++ [s.reply target m] := rfl

@[simp] theorem wrote_length : (s.wrote e target m).replies.length = s.replies.length + 1 := by
  simp [wrote_replies]

@[simp] theorem keeps_replies (inbox : List (List Byte)) :
    (s.keeps inbox).replies = s.replies := rfl

theorem Target.Accepts.reply (h : target.Accepts) (s : Socket) (m : Msg) :
    Acks (s.seq + 1) (s.reply target m) := h s.replies.length m (s.seq + 1)

theorem turn_timeout (h : (s.wrote e target m).inbox = []) :
    send_msg_loop e target m (n + 1) s = send_msg_loop e target m n (s.wrote e target m) := by
  rw [send_msg_loop, h]

variable {rsp : List Byte} {rest : List (List Byte)} {q : Word}

theorem turn_stale (h : (s.wrote e target m).inbox = rsp :: rest) (hrsp : Acks q rsp)
    (hq : q ≠ s.seq + 1) :
    send_msg_loop e target m (n + 1) s =
      send_msg_loop e target m n ((s.wrote e target m).keeps rest) := by
  have hread : read_reply (s.wrote e target m).seq rsp = .stale :=
    (hrsp.read_reply _).trans (if_neg hq)
  simp only [send_msg_loop, h, hread]

theorem turn_acknowledged (h : (s.wrote e target m).inbox = rsp :: rest)
    (hrsp : Acks (s.seq + 1) rsp) :
    send_msg_loop e target m (n + 1) s = (0, (s.wrote e target m).keeps rest) := by
  have hread : read_reply (s.wrote e target m).seq rsp = .acknowledged :=
    (hrsp.read_reply _).trans (if_pos rfl)
  simp only [send_msg_loop, h, hread]

/-- No reply that was sent is taken back. -/
theorem send_msg_loop_replies (n : Nat) (s : Socket) :
    s.replies.length ≤ (send_msg_loop e target m n s).2.replies.length := by
  have hwrote (s : Socket) : s.replies.length ≤ (s.wrote e target m).replies.length := by simp
  induction n generalizing s with
  | zero => exact Nat.le_refl _
  | succ n ih =>
    rw [send_msg_loop]
    split
    · exact (hwrote s).trans (ih _)
    · rename_i inbox _
      split
      · exact (hwrote s).trans (ih ((s.wrote e target m).keeps inbox))
      · exact (hwrote s).trans (ih ((s.wrote e target m).keeps inbox))
      · exact hwrote s
      · exact hwrote s

theorem send_msgs_replies (ms : List Msg) (s : Socket) :
    s.replies.length ≤ (send_msgs e target ms s).2.replies.length := by
  induction ms generalizing s with
  | nil => exact Nat.le_refl _
  | cons m ms ih => exact (send_msg_loop_replies 5 s).trans (ih _)

/-! ## One reply too many -/

/-- The socket holds a reply that the next message does not ask for, and from now on each reply
comes once and in time. -/
structure Surplus (e : Mishap) (s : Socket) : Prop where
  inbox : ∃ q rsp, s.inbox = [rsp] ∧ Acks q rsp ∧ q ≠ s.seq + 1
  quiet : ∀ (replies : List (List Byte)) (rsp : List Byte),
    s.replies.length ≤ replies.length → e.arrivals replies rsp = [rsp]

theorem ne_add_one (q : Word) : q ≠ q + 1 := by
  intro h
  bv_omega

/-- It is read, and the reply to this message becomes the one too many. -/
theorem Surplus.turn (h : Surplus e s) (htarget : target.Accepts) (m : Msg) (n : Nat) :
    ∃ s', send_msg_loop e target m (n + 1) s = send_msg_loop e target m n s' ∧
      Surplus e s' := by
  obtain ⟨q, rsp, hinbox, hrsp, hq⟩ := h.inbox
  have hread : (s.wrote e target m).inbox = rsp :: [s.reply target m] := by
    rw [wrote_inbox, hinbox, h.quiet _ _ le_rfl]
    rfl
  refine ⟨_, turn_stale hread hrsp hq, ?_, ?_⟩
  · exact ⟨s.seq + 1, _, rfl, htarget.reply s m, ne_add_one _⟩
  · intro replies rsp hlen
    apply h.quiet
    simp only [keeps_replies, wrote_length] at hlen
    omega

/-- All turns are used up on it. -/
theorem Surplus.loop (h : Surplus e s) (htarget : target.Accepts) (m : Msg) (n : Nat) :
    (send_msg_loop e target m n s).1 = -1 ∧ Surplus e (send_msg_loop e target m n s).2 := by
  induction n generalizing s with
  | zero => exact ⟨rfl, h⟩
  | succ n ih =>
    obtain ⟨s', hturn, hs'⟩ := h.turn htarget m n
    rw [hturn]
    exact ih hs'

/-- So no call succeeds any more. -/
theorem Surplus.succeed_iff (h : Surplus e s) (htarget : target.Accepts) (ms : List Msg) :
    (∀ r ∈ (send_msgs e target ms s).1, r = 0) ↔ ms = [] := by
  constructor
  · intro hall
    cases ms with
    | nil => rfl
    | cons m ms =>
      have hfirst : (send_msg e target m s).1 = 0 := hall _ List.mem_cons_self
      exact absurd ((h.loop htarget m 5).1.symm.trans hfirst) (by decide)
  · rintro rfl r hr
    exact absurd hr List.not_mem_nil

/-! ## Before it -/

/-- The counter, and the numbers of the replies, for a socket that was opened at `q`. -/
structure Counted (q : Word) (s : Socket) : Prop where
  seq : s.seq = q + BitVec.ofNat 32 s.replies.length
  replies : ∀ k rsp, s.replies[k]? = some rsp → Acks (q + BitVec.ofNat 32 (k + 1)) rsp

theorem Counted.next (h : Counted q s) : s.seq + 1 = q + BitVec.ofNat 32 (s.replies.length + 1) := by
  rw [h.seq]
  bv_omega

theorem Counted.wrote (h : Counted q s) (htarget : target.Accepts) (e : Mishap) (m : Msg) :
    Counted q (s.wrote e target m) := by
  constructor
  · rw [wrote_length]
    exact h.next
  · intro k rsp hk
    rw [wrote_replies] at hk
    rcases Nat.lt_or_ge k s.replies.length with hlt | hge
    · rw [List.getElem?_append_left hlt] at hk
      exact h.replies k rsp hk
    · rw [List.getElem?_append_right hge] at hk
      obtain ⟨hlt, rfl⟩ := List.getElem?_eq_some_iff.mp hk
      obtain rfl : k = s.replies.length := by
        simp only [List.length_singleton] at hlt
        omega
      rw [← h.next]
      simpa using htarget.reply s m

/-- No reply out of turn has come when `n` replies were sent. -/
def Mishap.Before (e : Mishap) (n : Nat) : Prop :=
  match e with
  | .none => True
  | .twice k lag => n ≤ k + lag
  | .late k => n ≤ k

/-- So many calls do not meet a reply too many. -/
def Mishap.Harmless (e : Mishap) (calls : Nat) : Prop :=
  match e with
  | .none => True
  | .twice k lag => calls ≤ k + lag + 1
  | .late k => calls ≤ k

/-- Each reply so far was read in its own wait. -/
structure Clear (e : Mishap) (q : Word) (s : Socket) : Prop where
  counted : Counted q s
  inbox : s.inbox = []
  before : e.Before s.replies.length

theorem Clear.harmless (h : Clear e q s) : e.Harmless s.replies.length := by
  have hb := h.before
  cases e with
  | none => trivial
  | twice k lag => exact Nat.le_succ_of_le hb
  | late k => exact hb

/-- A reply that comes in its wait is read, and what comes with it stays. -/
theorem Clear.reads (h : Clear e q s) (htarget : target.Accepts)
    (hcome : e.arrivals s.replies (s.reply target m) = s.reply target m :: rest) :
    send_msg e target m s = (0, (s.wrote e target m).keeps rest) := by
  apply turn_acknowledged _ (htarget.reply s m)
  rw [wrote_inbox, h.inbox, hcome]
  rfl

theorem Clear.goes_on (h : Clear e q s) (htarget : target.Accepts)
    (hcome : e.arrivals s.replies (s.reply target m) = [s.reply target m])
    (hbefore : e.Before (s.replies.length + 1)) :
    (send_msg e target m s).1 = 0 ∧ Clear e q (send_msg e target m s).2 ∧
      (send_msg e target m s).2.replies.length = s.replies.length + 1 := by
  have hw := h.counted.wrote htarget e m
  rw [h.reads htarget hcome]
  refine ⟨rfl, ⟨⟨hw.seq, hw.replies⟩, rfl, ?_⟩, by simp⟩
  dsimp only
  rw [keeps_replies, wrote_length]
  exact hbefore

/-- The second of two equal replies stays in the socket. -/
theorem Clear.twice {k lag : Nat} (h : Clear (.twice k lag) q s) (htarget : target.Accepts)
    (hn : s.replies.length = k + lag) (hsends : s.replies.length + 1 < 2 ^ 32) :
    (send_msg (.twice k lag) target m s).1 = 0 ∧
      Surplus (.twice k lag) (send_msg (.twice k lag) target m s).2 := by
  have hw := h.counted.wrote htarget (.twice k lag) m
  have hk : k < (s.wrote (.twice k lag) target m).replies.length := by
    rw [wrote_length]
    omega
  have hcopy := List.getElem?_eq_getElem hk
  have hacks := hw.replies k _ hcopy
  rw [h.reads htarget (if_pos hn)]
  refine ⟨rfl, ⟨_, _, ?_, hacks, ?_⟩, ?_⟩
  · change ((s.wrote (.twice k lag) target m).replies[k]?).toList = _
    rw [hcopy]
    rfl
  · change _ ≠ (s.wrote (.twice k lag) target m).seq + 1
    rw [hw.next, wrote_length]
    intro he
    bv_omega
  · intro replies rsp hmore
    simp only [keeps_replies, wrote_length] at hmore
    exact if_neg (by omega)

/-- A reply that comes in the next wait is read there, and the one of that wait stays. -/
theorem Clear.late (h : Clear (.late s.replies.length) q s) (htarget : target.Accepts) :
    (send_msg (.late s.replies.length) target m s).1 = -1 ∧
      Surplus (.late s.replies.length) (send_msg (.late s.replies.length) target m s).2 := by
  generalize he : Mishap.late s.replies.length = e at *
  have harrivals (replies : List (List Byte)) (rsp : List Byte) : e.arrivals replies rsp =
      if replies.length = s.replies.length then []
      else if replies.length = s.replies.length + 1 then
        replies[s.replies.length]?.toList ++ [rsp]
      else [rsp] := by
    rw [← he]
    rfl
  have hinbox : (s.wrote e target m).inbox = [] := by
    rw [wrote_inbox, h.inbox, harrivals, if_pos rfl]
    rfl
  have hread : ((s.wrote e target m).wrote e target m).inbox =
      s.reply target m :: [(s.wrote e target m).reply target m] := by
    rw [wrote_inbox, hinbox, harrivals, wrote_length, if_neg (by omega), if_pos rfl, wrote_replies]
    simp
  unfold send_msg
  rw [turn_timeout hinbox, turn_stale hread (htarget.reply s m) (ne_add_one _)]
  apply Surplus.loop _ htarget
  refine ⟨⟨_, _, rfl, htarget.reply (s.wrote e target m) m, ne_add_one _⟩, ?_⟩
  intro replies rsp hmore
  simp only [keeps_replies, wrote_length] at hmore
  rw [harrivals, if_neg (by omega), if_neg (by omega)]

/-- Whether the further calls succeed, while no reply out of turn has come. -/
theorem Clear.succeed_iff (h : Clear e q s) (htarget : target.Accepts) {ms : List Msg}
    (hsends : (send_msgs e target ms s).2.replies.length < 2 ^ 32) :
    (∀ r ∈ (send_msgs e target ms s).1, r = 0) ↔ e.Harmless (s.replies.length + ms.length) := by
  induction ms generalizing s with
  | nil => exact ⟨fun _ => h.harmless, fun _ r hr => absurd hr List.not_mem_nil⟩
  | cons m ms ih =>
    rw [send_msgs] at hsends ⊢
    have hcall := (send_msgs_replies ms (send_msg e target m s).2).trans_lt hsends
    simp only [List.forall_mem_cons, List.length_cons]
    -- the calls before the reply out of turn are one message each
    have hnext (hcome : e.arrivals s.replies (s.reply target m) = [s.reply target m])
        (hbefore : e.Before (s.replies.length + 1)) :
        ((send_msg e target m s).1 = 0 ∧
          ∀ r ∈ (send_msgs e target ms (send_msg e target m s).2).1, r = 0) ↔
        e.Harmless (s.replies.length + (ms.length + 1)) := by
      obtain ⟨hresult, hclear, hlen⟩ := h.goes_on htarget hcome hbefore
      rw [ih hclear hsends, hlen, Nat.add_right_comm, Nat.add_assoc]
      exact and_iff_right hresult
    have hbefore := h.before
    cases e with
    | none => exact hnext rfl trivial
    | twice k lag =>
      rcases Nat.lt_or_eq_of_le hbefore with hlt | heq
      · exact hnext (if_neg hlt.ne) hlt
      · have hfirst := h.reads (m := m) htarget (if_pos heq)
        obtain ⟨hresult, hsurplus⟩ := h.twice (m := m) htarget heq (by
          rw [hfirst] at hcall
          simpa using hcall)
        rw [and_iff_right hresult, hsurplus.succeed_iff htarget, ← List.length_eq_zero_iff]
        change _ ↔ s.replies.length + (ms.length + 1) ≤ k + lag + 1
        omega
    | late k =>
      rcases Nat.lt_or_eq_of_le hbefore with hlt | rfl
      · exact hnext ((if_neg hlt.ne).trans (if_neg (by omega))) hlt
      · obtain ⟨hresult, -⟩ := h.late (m := m) htarget
        rw [hresult]
        constructor
        · rintro ⟨h, -⟩
          exact absurd h (by decide)
        · intro hcalls
          change s.replies.length + (ms.length + 1) ≤ s.replies.length at hcalls
          omega

end

/-! ## All calls -/

/-- However many messages are sent, with a target that accepts them all and at most one reply
that comes twice or late: all calls of `send_msg` succeed exactly when the late reply is to no
message of them, and the second of two equal replies comes in no call but the last. -/
theorem all_calls_succeed_iff (e : Mishap) {target : Target} (htarget : target.Accepts)
    (ms : List Msg) (seq : Word)
    (hsends : (send_msgs e target ms (.opened seq)).2.replies.length < 2 ^ 32) :
    (∀ r ∈ (send_msgs e target ms (.opened seq)).1, r = 0) ↔ e.Harmless ms.length := by
  have hclear : Clear e seq (.opened seq) := by
    refine ⟨⟨by simp [Socket.opened], ?_⟩, rfl, ?_⟩
    · intro k rsp hk
      simp [Socket.opened] at hk
    · cases e with
      | none => trivial
      | twice k lag | late k => exact Nat.zero_le _
  have h := hclear.succeed_iff htarget hsends
  rw [Socket.opened] at h ⊢
  simpa using h

/-- A target that answers each message with a status and no data. -/
def nb_ok : Target := fun _ m => (status_of .query).octets (field32 m 8)

theorem nb_ok_accepts : nb_ok.Accepts := by
  intro n m seq
  have h : Answers (m.octets seq) .query (nb_ok n (m.octets seq)) := by
    refine ⟨by simp, List.take_of_length_le ?_⟩
    simp [nb_ok, msg_length, status_of]
  have hacks := h.acks (by simp)
  rwa [octets_seq] at hacks

/-- A WRITE of one octet. -/
def one_octet : Msg := { cmd := NB_CMD_WRITE, arg := 0x40008000, db := [1] }

/-- Two calls, and the second reply comes twice. -/
theorem the_last_reply_may_come_twice :
    (∀ r ∈ (send_msgs (.twice 1 0) nb_ok [one_octet, one_octet] (.opened 1)).1, r = 0) ↔
      (Mishap.twice 1 0).Harmless 2 :=
  all_calls_succeed_iff (.twice 1 0) nb_ok_accepts [one_octet, one_octet] 1 (by decide)

/-- A reply that comes twice is enough that the next call fails, and a late one that its own
call does. -/
theorem one_reply_too_many_fails_a_call :
    nb_ok.Accepts ∧
    (send_msgs (.twice 0 0) nb_ok [one_octet, one_octet] (.opened 1)).1 = [0, -1] ∧
    (send_msgs (.late 0) nb_ok [one_octet] (.opened 1)).1 = [-1] :=
  ⟨nb_ok_accepts, by decide, by decide⟩

end os_workshop.netboot
