-- The host tool and any number of targets on one link. The link keeps every
-- datagram that was ever sent, and each may be taken at any time, again or not
-- at all: so it loses, repeats, delays and reorders as it likes.
import OsWorkshop.TargetMessages

open os_workshop.memory (Byte Word Mem le32 word dist write)
open os_workshop.octets
open os_workshop.net
open os_workshop.runs

namespace os_workshop.netboot

/-! ## The program of the host -/

/-- What `send_msg` was called for: a chunk of the image `n` after which the file was read up
to `off`, or the start of the program. -/
inductive Job
  | chunk (n off : Nat)
  | exec

/-- Where the host is. From `open_node` on it has a socket that is connected to a target. -/
inductive Pc (ι : Type)
  | open_node
  | send_file (peer : ι) (n off : Nat)
  | send_msg (peer : ι) (job : Job) (msg : Msg) (retry : Nat)
  | poll (peer : ι) (job : Job) (msg : Msg) (retry : Nat)
  | exited (status : Int)

structure Host (ι : Type) where
  seq : Word
  pc : Pc ι

/-- What `main` does after `send_msg` returned. The result of the start is not looked at. -/
def after_send_msg {ι : Type} (args : Args) (peer : ι) (ok : Bool) : Job → Pc ι
  | .chunk n off => if ok then .send_file peer n off else .open_node
  | .exec => if args.do_exit then .exited 0 else .open_node

/-- What `send_msg` does after a `read`. -/
def after_read {ι : Type} (args : Args) (peer : ι) (job : Job) (msg : Msg) (retry : Nat) :
    Verdict → Pc ι
  | .garbled | .stale => .send_msg peer job msg (retry + 1)
  | .refused => after_send_msg args peer false job
  | .acknowledged => after_send_msg args peer true job

/-! ## The link -/

/-- A datagram of the host: to one target, or to all nodes of the link. -/
structure Datagram (ι : Type) where
  dst : Option ι
  port : BitVec 16
  data : List Byte

/-- A datagram of a target, with the one it answers. -/
structure Answer (ι : Type) where
  origin : ι
  request : Datagram ι
  data : List Byte

structure Link (ι : Type) where
  host : Host ι
  rams : ι → Ram
  /-- What the host sent, oldest first. -/
  sent : List (Datagram ι)
  /-- What the targets sent, oldest first. -/
  answers : List (Answer ι)

/-- Before the first step the host has called `main`. -/
def Link.start {ι : Type} (rams : ι → Ram) : Link ι where
  host := { seq := 1, pc := .open_node }
  rams := rams
  sent := []
  answers := []

/-- The host at another place of its program. -/
def Link.at {ι : Type} (l : Link ι) (pc : Pc ι) : Link ι := { l with host := { l.host with pc := pc } }

/-- The host counts `seq` up and sends a message that carries it. -/
def Link.sends {ι : Type} (l : Link ι) (dst : Option ι) (port : BitVec 16) (m : Msg) (pc : Pc ι) :
    Link ι :=
  { l with
    host := { seq := l.host.seq + 1, pc := pc }
    sent := l.sent ++ [⟨dst, port, m.octets (l.host.seq + 1)⟩] }

inductive Event
  | locate
  | transfer
  /-- The exchange that starts the program is over. -/
  | exec_over
  | serve

def Job.over : Job → Event
  | chunk _ _ => .transfer
  | exec => .exec_over

section

variable {ι : Type} [DecidableEq ι]

/-- One step of the host or of a target. Timeouts and failed calls come at any time. -/
inductive Step (args : Args) (fs : List Byte → List Byte) (L : ι → Loader) :
    Steps (Link ι) Event
  /-- `open_node`: the name is too long for a message. -/
  | name_too_long {l : Link ι} :
      l.host.pc = .open_node → 1040 < args.located.length →
      Step args fs L l .locate (l.at (.exited (-1)))
  /-- `open_node`: it is time for the next query. -/
  | query {l : Link ι} :
      l.host.pc = .open_node → args.located.length ≤ 1040 →
      Step args fs L l .locate
        (l.sends none NB_PORT_QUERY (query args.located) .open_node)
  | query_fails {l : Link ι} :
      l.host.pc = .open_node → Step args fs L l .locate (l.at (.exited (-1)))
  /-- `open_node`: a datagram from anywhere. -/
  | hears {l : Link ι} {a : Answer ι} :
      l.host.pc = .open_node → a ∈ l.answers →
      Step args fs L l .locate
        (if Locates l.host.seq a.data then l.at (.send_file a.origin 0 0) else l)
  /-- `send_file`: some octets of the file. -/
  | chunk {l : Link ι} {peer : ι} {n off r : Nat} (h : n < args.imagelist.length) :
      l.host.pc = .send_file peer n off → 0 < r → r ≤ 1024 →
      off + r ≤ (fs args.imagelist[n].name).length →
      Step args fs L l .transfer
        (l.at (.send_msg peer (.chunk n (off + r))
          { cmd := NB_CMD_WRITE
            arg := args.imagelist[n].addr + BitVec.ofNat 32 off
            db := part (fs args.imagelist[n].name) off r } 0))
  /-- `send_file`: the end of the file. -/
  | file_sent {l : Link ι} {peer : ι} {n off : Nat} (h : n < args.imagelist.length) :
      l.host.pc = .send_file peer n off → (fs args.imagelist[n].name).length ≤ off →
      Step args fs L l .transfer (l.at (.send_file peer (n + 1) 0))
  /-- `send_file`: the file cannot be opened or read. -/
  | file_fails {l : Link ι} {peer : ι} {n off : Nat} :
      l.host.pc = .send_file peer n off → n < args.imagelist.length →
      Step args fs L l .transfer (l.at .open_node)
  /-- `main`: every image is sent. `seq` is counted up once more here. -/
  | start_exec {l : Link ι} {peer : ι} {n off : Nat} (h : 0 < args.imagelist.length) :
      l.host.pc = .send_file peer n off → args.imagelist.length ≤ n →
      Step args fs L l .transfer
        { l with host :=
          { seq := l.host.seq + 1
            pc := .send_msg peer .exec
              { cmd := NB_CMD_EXEC, arg := args.imagelist[0].addr, db := [] } 0 } }
  /-- `send_msg`: a turn of its loop. -/
  | write {l : Link ι} {peer : ι} {job : Job} {m : Msg} {retry : Nat} :
      l.host.pc = .send_msg peer job m retry → retry < 5 →
      Step args fs L l .transfer
        (l.sends (some peer) NB_PORT_CTRL m (.poll peer job m retry))
  /-- `send_msg`: the call of `write` fails, whether or not the message gets on the link. -/
  | write_fails {l : Link ι} {peer : ι} {job : Job} {m : Msg} {retry : Nat} :
      l.host.pc = .send_msg peer job m retry → retry < 5 →
      Step args fs L l job.over
        (l.sends (some peer) NB_PORT_CTRL m (after_send_msg args peer false job))
  /-- `send_msg`: its loop is over. -/
  | gives_up {l : Link ι} {peer : ι} {job : Job} {m : Msg} {retry : Nat} :
      l.host.pc = .send_msg peer job m retry → 5 ≤ retry →
      Step args fs L l job.over (l.at (after_send_msg args peer false job))
  /-- `send_msg`: nothing came in time. -/
  | timeout {l : Link ι} {peer : ι} {job : Job} {m : Msg} {retry : Nat} :
      l.host.pc = .poll peer job m retry →
      Step args fs L l .transfer (l.at (.send_msg peer job m (retry + 1)))
  /-- `send_msg`: a datagram from the target that the socket is connected to. -/
  | read_chunk {l : Link ι} {n off : Nat} {m : Msg} {retry : Nat} {a : Answer ι} :
      l.host.pc = .poll a.origin (.chunk n off) m retry → a ∈ l.answers →
      Step args fs L l .transfer
        (l.at (after_read args a.origin (.chunk n off) m retry (read_reply l.host.seq a.data)))
  | read_exec {l : Link ι} {m : Msg} {retry : Nat} {a : Answer ι} :
      l.host.pc = .poll a.origin .exec m retry → a ∈ l.answers →
      Step args fs L l
        (if read_reply l.host.seq a.data = .refused ∨ read_reply l.host.seq a.data = .acknowledged
          then .exec_over else .transfer)
        (l.at (after_read args a.origin .exec m retry (read_reply l.host.seq a.data)))
  /-- A target that has not left takes a datagram, and may answer it. -/
  | serve {l : Link ι} {i : ι} {d : Datagram ι} {answers : List (Answer ι)} :
      d ∈ l.sent → d.dst = none ∨ d.dst = some i → (l.rams i).entry = none →
      (∀ addr bytes, command (L i) d.port d.data = .write addr bytes →
        ∀ k < bytes.length, ¬ (L i).own (addr + BitVec.ofNat 32 k)) →
      (answers = [] ∨ ∃ a, Answers d.data (command (L i) d.port d.data) a ∧
        answers = [⟨i, d, a⟩]) →
      Step args fs L l .serve
        { l with
          rams := Function.update l.rams i (served (l.rams i) (command (L i) d.port d.data))
          answers := l.answers ++ answers }

end

/-! ## Who is sent to -/

section

variable {ι : Type}

/-- The target has answered a query for the name. -/
def Link.Answered (l : Link ι) (i : ι) (name : List Byte) : Prop :=
  ∃ a ∈ l.answers, a.origin = i ∧ a.request.port = NB_PORT_QUERY ∧
    field32 a.request.data 4 = NB_CMD_QUERY ∧ a.request.data.drop 16 = name

/-- The target has the name that `main` asks for, and has said so. -/
def Link.Located (L : ι → Loader) (l : Link ι) (i : ι) : Prop :=
  (L i).nodename = device_name ∧ l.Answered i device_name

/-- The target that the socket of the host is connected to. -/
def Pc.peer : Pc ι → Option ι
  | .send_file peer _ _ | .send_msg peer _ _ _ | .poll peer _ _ _ => some peer
  | .open_node | .exited _ => none

/-- The host goes on with its target or with none. -/
theorem after_send_msg_peer {args : Args} {peer i : ι} {ok : Bool} {job : Job}
    (h : (after_send_msg args peer ok job).peer = some i) : peer = i := by
  cases job with
  | chunk n off =>
    cases ok
    · simp [after_send_msg, Pc.peer] at h
    · simpa [after_send_msg, Pc.peer] using h
  | exec =>
    cases hexit : args.do_exit <;> simp [after_send_msg, hexit, Pc.peer] at h

theorem after_read_peer {args : Args} {peer i : ι} {job : Job} {msg : Msg} {retry : Nat}
    {v : Verdict} (h : (after_read args peer job msg retry v).peer = some i) : peer = i := by
  cases v with
  | garbled | stale => simpa [after_read, Pc.peer] using h
  | refused | acknowledged => exact after_send_msg_peer h

/-- A datagram of the host: a query for `device` to all, or a message to a located target. -/
inductive Proper (L : ι → Loader) (l : Link ι) (d : Datagram ι) : Prop
  | query (seq : Word) : d = ⟨none, NB_PORT_QUERY, (query device_name).octets seq⟩ → Proper L l d
  | control (i : ι) : d.dst = some i → d.port = NB_PORT_CTRL → l.Located L i → Proper L l d

/-- Whatever is on the link, and the host's socket, belongs to located targets. -/
structure Discovered (L : ι → Loader) (l : Link ι) : Prop where
  sent : ∀ d ∈ l.sent, Proper L l d
  answers : ∀ a ∈ l.answers, l.Located L a.origin
  peer : ∀ i, l.host.pc.peer = some i → l.Located L i

variable {L : ι → Loader} {l l' : Link ι}

theorem Link.Located.mono {i : ι} (h : l.Located L i) (hsub : ∀ a ∈ l.answers, a ∈ l'.answers) :
    l'.Located L i := by
  obtain ⟨hname, a, ha, hq⟩ := h
  exact ⟨hname, a, hsub a ha, hq⟩

theorem Proper.mono {d : Datagram ι} (h : Proper L l d) (hsub : ∀ a ∈ l.answers, a ∈ l'.answers) :
    Proper L l' d := by
  cases h with
  | query seq h => exact .query seq h
  | control i h1 h2 h3 => exact .control i h1 h2 (h3.mono hsub)

/-- A step of the host that sends nothing and stays with its target, or with none. -/
theorem Discovered.moves (h : Discovered L l) {pc : Pc ι}
    (hpc : ∀ i, pc.peer = some i → l.host.pc.peer = some i) : Discovered L (l.at pc) :=
  ⟨fun d hd => (h.sent d hd).mono fun _ => id, h.answers, fun i hi => h.peer i (hpc i hi)⟩

theorem Discovered.sends (h : Discovered L l) {dst : Option ι} {port : BitVec 16} {m : Msg}
    {pc : Pc ι} (hd : Proper L l ⟨dst, port, m.octets (l.host.seq + 1)⟩)
    (hpc : ∀ i, pc.peer = some i → l.host.pc.peer = some i) :
    Discovered L (l.sends dst port m pc) := by
  refine ⟨?_, h.answers, fun i hi => h.peer i (hpc i hi)⟩
  intro d hmem
  rcases List.mem_append.mp hmem with hmem | hmem
  · exact (h.sent d hmem).mono fun _ => id
  · rw [List.mem_singleton.mp hmem]
    exact hd.mono fun _ => id

/-- A target that answers a query has the name in it. -/
theorem command_query {K : Loader} {m : List Byte} (h : command K NB_PORT_QUERY m ≠ .none) :
    field32 m 4 = NB_CMD_QUERY ∧ m.drop 16 = K.nodename := by
  unfold command at h
  by_contra hn
  rw [if_pos rfl, if_neg hn] at h
  split_ifs at h <;> exact h rfl

variable [DecidableEq ι]

theorem Discovered.serves (h : Discovered L l) {i : ι} {d : Datagram ι} {ram : Ram}
    {answers : List (Answer ι)} (hd : d ∈ l.sent) (hto : d.dst = none ∨ d.dst = some i)
    (ha : answers = [] ∨ ∃ a, Answers d.data (command (L i) d.port d.data) a ∧
      answers = [⟨i, d, a⟩]) :
    Discovered L { l with
      rams := Function.update l.rams i ram
      answers := l.answers ++ answers } := by
  have hsub : ∀ a ∈ l.answers, a ∈ l.answers ++ answers := fun a => List.mem_append_left _
  refine ⟨fun e he => (h.sent e he).mono hsub, ?_, fun j hj => (h.peer j hj).mono hsub⟩
  intro b hb
  rcases List.mem_append.mp hb with hb | hb
  · exact (h.answers b hb).mono hsub
  · rcases ha with rfl | ⟨a, ha, rfl⟩
    · simp at hb
    · rw [List.mem_singleton] at hb
      subst hb
      cases h.sent d hd with
      | query seq hq =>
        subst hq
        obtain ⟨hcmd, hdb⟩ := command_query ha.command
        have hname : (L i).nodename = device_name := by
          rw [← hdb, octets_db]
          rfl
        exact ⟨hname, _, List.mem_append_right _ (List.mem_singleton_self _), rfl, rfl, hcmd,
          octets_db _ _⟩
      | control j hj _ hloc =>
        obtain rfl : j = i := by simpa [hj] using hto
        exact hloc.mono hsub

/-- Every step of the host and of the targets keeps this. -/
theorem Discovered.step {args : Args} {fs : List Byte → List Byte} {e : Event}
    (h : Discovered L l) (hs : Step args fs L l e l') : Discovered L l' := by
  cases hs with
  | name_too_long _ _ => exact h.moves (by simp [Pc.peer])
  | query _ _ => exact h.sends (.query _ rfl) (by simp [Pc.peer])
  | query_fails _ => exact h.moves (by simp [Pc.peer])
  | @hears _ a _ ha =>
    split_ifs
    · refine ⟨fun d hd => (h.sent d hd).mono fun _ => id, h.answers, ?_⟩
      rintro i hi
      obtain rfl : a.origin = i := by simpa [Link.at, Pc.peer] using hi
      exact h.answers a ha
    · exact h
  | chunk _ hpc _ _ _ => exact h.moves (by simp [Pc.peer, hpc])
  | file_sent _ hpc _ => exact h.moves (by simp [Pc.peer, hpc])
  | file_fails _ _ => exact h.moves (by simp [Pc.peer])
  | start_exec _ hpc _ =>
    exact ⟨fun d hd => (h.sent d hd).mono fun _ => id, h.answers,
      fun i hi => h.peer i (by simpa [Pc.peer, hpc] using hi)⟩
  | @write _ peer _ _ _ hpc _ =>
    have hpeer : l.host.pc.peer = some peer := by rw [hpc]; rfl
    refine h.sends (.control peer rfl rfl (h.peer peer hpeer)) ?_
    intro i hi
    rw [hpeer]
    exact hi
  | @write_fails _ peer _ _ _ hpc _ =>
    have hpeer : l.host.pc.peer = some peer := by rw [hpc]; rfl
    refine h.sends (.control peer rfl rfl (h.peer peer hpeer)) ?_
    intro i hi
    obtain rfl := after_send_msg_peer hi
    exact hpeer
  | gives_up hpc _ =>
    apply h.moves
    intro i hi
    obtain rfl := after_send_msg_peer hi
    rw [hpc]
    rfl
  | timeout hpc => exact h.moves (by simp [Pc.peer, hpc])
  | read_chunk hpc _ | read_exec hpc _ =>
    apply h.moves
    intro i hi
    obtain rfl := after_read_peer hi
    rw [hpc]
    rfl
  | serve hd hto _ _ ha => exact h.serves hd hto ha

/-- The datagram that `open_node` waits for. -/
theorem Step.located {args : Args} {fs : List Byte → List Byte} {a : Answer ι}
    (hpc : l.host.pc = .open_node) (ha : a ∈ l.answers) (hl : Locates l.host.seq a.data) :
    Step args fs L l .locate (l.at (.send_file a.origin 0 0)) := by
  have h := @Step.hears _ _ args fs L _ _ hpc ha
  rw [if_pos hl] at h
  exact h

/-- In every run the link belongs to located targets. -/
theorem discovered {args : Args} {fs : List Byte → List Byte} {rams : ι → Ram} {es : List Event}
    (h : Run (Step args fs L) (Link.start rams) es l) : Discovered L l := by
  apply h.keeps
  · refine ⟨?_, ?_, ?_⟩
    · intro d hd
      exact absurd hd List.not_mem_nil
    · intro a ha
      exact absurd ha List.not_mem_nil
    · intro i hi
      exact absurd hi (by simp [Link.start, Pc.peer])
  · exact fun a e b ha hs => ha.step hs

/-- Whatever name the host is started for, in every run an image or EXEC goes to one target, and
that target has this name and has answered a query for it exactly when the name is `device`. -/
theorem images_go_to_the_node_asked_for_iff (L : ι → Loader) (fs : List Byte → List Byte)
    {args : Args} {rams : ι → Ram} {es : List Event} {l : Link ι}
    (hrun : Run (Step args fs L) (Link.start rams) es l) {d : Datagram ι} (hd : d ∈ l.sent)
    (hcmd : field32 d.data 4 = NB_CMD_WRITE ∨ field32 d.data 4 = NB_CMD_EXEC) :
    ∃ i, d.dst = some i ∧
      ((l.Answered i args.nodename ∧ (L i).nodename = args.nodename) ↔
        args.nodename = device_name) := by
  have hdisc := discovered hrun
  cases hdisc.sent d hd with
  | query seq hq =>
    subst hq
    rw [octets_cmd] at hcmd
    exact absurd hcmd (by decide)
  | control i hdst _ hloc =>
    obtain ⟨hname, hans⟩ := hloc
    refine ⟨i, hdst, ?_, ?_⟩
    · rintro ⟨_, h⟩
      rw [← h, hname]
    · intro h
      rw [h]
      exact ⟨hans, hname⟩

end

/-! ## A node that was not asked for -/

/-- Two octets for every file. -/
def two_octets : List Byte → List Byte := fun _ => [1, 2]

/-- A target named `device` that runs its loader. -/
def booted : Ram := { mem := fun _ => 0, entry := none }

/-- The image that is sent to it, at 0x40008000. -/
def an_image : Image := { name := [0x61], addr := 0x40008000 }

/-- The answer of the target to the first query. -/
def an_answer : List Byte := (status_of .query).octets 2 ++ name_text device ++ [0]

/-- A run in which the host finds the target named `device` and sends it a chunk. -/
theorem a_chunk_is_sent (args : Args) (h : args.imagelist = [an_image]) :
    ∃ es l, Run (Step args two_octets fun _ : Unit => device) (Link.start fun _ => booted) es l ∧
      ∃ d ∈ l.sent, d.dst = some () ∧ field32 d.data 4 = NB_CMD_WRITE := by
  have hquery : command device NB_PORT_QUERY ((query device_name).octets 2) = .query := by decide
  have hname : args.located = device_name := rfl
  have r1 := Run.single (@Step.query _ _ args two_octets (fun _ : Unit => device)
    (Link.start fun _ => booted) rfl (by rw [hname]; decide))
  have r2 := r1.snoc (@Step.serve Unit _ args two_octets (fun _ => device) _ ()
    ⟨none, NB_PORT_QUERY, (query device_name).octets 2⟩
    [⟨(), ⟨none, NB_PORT_QUERY, (query device_name).octets 2⟩, an_answer⟩]
    (List.mem_singleton_self _) (.inl rfl) rfl
    (by rw [hquery]; simp)
    (.inr ⟨an_answer, ⟨by rw [hquery]; simp, by rw [hquery]; decide⟩, rfl⟩))
  have hlocates : Locates 2 an_answer := by decide
  have r3 := r2.snoc (Step.located rfl (List.mem_singleton_self _) hlocates)
  have hlen : 0 < args.imagelist.length := by rw [h]; decide
  have r4 := r3.snoc (Step.chunk (r := 2) hlen rfl (by decide) (by decide) (Nat.le_refl 2))
  have r5 := r4.snoc (Step.write rfl (by decide))
  refine ⟨_, _, r5, _, List.mem_append_right _ (List.mem_singleton_self _), rfl, octets_cmd _ _⟩

/-- The arguments for the image and a name. -/
def asked (nodename : List Byte) : Args :=
  { Args.defaults with nodename := nodename, imagelist := [an_image] }

theorem a_chunk_goes_to_the_node_asked_for :
    ∃ es l, Run (Step (asked device_name) two_octets fun _ : Unit => device)
        (Link.start fun _ => booted) es l ∧
      ∃ d ∈ l.sent, ∃ i, d.dst = some i ∧ ((l.Answered i device_name ∧
        device.nodename = device_name) ↔ device_name = device_name) := by
  obtain ⟨es, l, hrun, d, hd, _, hcmd⟩ := a_chunk_is_sent (asked device_name) rfl
  exact ⟨es, l, hrun, d, hd,
    images_go_to_the_node_asked_for_iff (fun _ : Unit => device) two_octets hrun hd (.inl hcmd)⟩

/-- `other`. -/
def other_name : List Byte := [0x6F, 0x74, 0x68, 0x65, 0x72]

/-- `netboot -n other a@40008000` sends the file to the node named `device`. -/
theorem a_chunk_goes_to_a_node_not_asked_for :
    parse .defaults [[0x2D, 0x6E], other_name,
      [0x61, 0x40, 0x34, 0x30, 0x30, 0x30, 0x38, 0x30, 0x30, 0x30]] = .runs (asked other_name) ∧
    device.nodename ≠ other_name ∧
    ∃ es l, Run (Step (asked other_name) two_octets fun _ : Unit => device)
        (Link.start fun _ => booted) es l ∧
      ∃ d ∈ l.sent, d.dst = some () ∧ field32 d.data 4 = NB_CMD_WRITE :=
  ⟨rfl, by decide, a_chunk_is_sent (asked other_name) rfl⟩

end os_workshop.netboot
