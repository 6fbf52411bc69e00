-- The nodes of src/example/ex05-ethernet.c on one link. A node answers every datagram with the
-- same ten octets, and answers need no other port than requests: an answer is a datagram again,
-- which is answered, and two nodes that have started never stop.
import OsWorkshop.Ipv6Laws
import OsWorkshop.Runs

open os_workshop.memory (Byte Word le32)
open os_workshop.octets
open os_workshop.net
open os_workshop.runs

namespace os_workshop.multipass

/-! ## The code -/

/-- The string of the reply, with its NUL. -/
def MULTIPASS : List Byte := [0x6D, 0x75, 0x6C, 0x74, 0x69, 0x70, 0x61, 0x73, 0x73, 0]

/-- What is printed of a datagram: its port, where its data is, its length, and `M` for a
multicast. -/
structure Printed where
  port : BitVec 16
  data : Nat
  len : Nat
  mcast : Bool

/-- A node, with what it printed. -/
abbrev Node := Net (List Printed)

def pkt_rx_udp (ifc : Ifc) (packet : Octets) : Callback (List Printed) :=
  fun s data len port mcast =>
    net_tx_udp_reply ifc { s with app := s.app ++ [⟨port, data, len, mcast⟩] } packet data
      (.obj MULTIPASS) 10 port.toNat

/-- A node takes a frame from a slot of the MAC. Both callbacks are as in the loader. -/
def eth_rx (mac : Mac) (s : Node) (packet rxb : Octets) (rxlen : Word) : Except Fault Node :=
  net.eth_rx (net_init mac) (pkt_rx_udp (net_init mac) packet) s packet rxb rxlen

/-- A node at its start. -/
def start : Node := ⟨fun _ => 0, 0, [], [], []⟩

/-! ## What a node sends -/

/-- The reply to a datagram in the frame `r`, which stands behind its padding. -/
def reply (mac : Mac) (r : List Byte) : List Byte :=
  ip6_frame mac (part r 8 6) (part r 24 16) IP_HDR_UDP
    (with_checksum (ip6lla_from_ethmac mac) (part r 24 16) IP_HDR_UDP 6
      (udp_datagram (be16 (field16 r 58)) (part r 56 2) MULTIPASS))

/-- What a node sends for a frame. -/
def answer (mac : Mac) (f : List Byte) : List (List Byte) :=
  if f.length ≤ 1534 then
    match classify mac ([0, 0] ++ f) with
    | .datagram _ _ _ => [reply mac ([0, 0] ++ f)]
    | .echo => [echo_reply mac ([0, 0] ++ f)]
    | .solicitation => [advertisement mac ([0, 0] ++ f)]
    | .ignored => []
  else []

theorem pkt_rx_udp.spec (mac : Mac) (packet : Octets) (s : Node) {len : Nat} {port : BitVec 16}
    {mcast : Bool} (h : s.rcvd ≤ 1536) (hc : classify mac s.received = .datagram port len mcast) :
    ∃ t, pkt_rx_udp (net_init mac) packet s 64 len port mcast = .ok t ∧ t.rxbuf = s.rxbuf ∧
      t.sent = s.sent ++ [reply mac s.received] := by
  obtain ⟨-, h64, hport, -, -⟩ := classify_eq_datagram.mp hc
  rw [received_length] at h64
  have hsend := net_tx_udp_reply.spec mac { s with app := s.app ++ [⟨port, 64, len, mcast⟩] } packet
    (.obj MULTIPASS) MULTIPASS 10 port.toNat h h64 (by omega) rfl rfl
  have hpart : ∀ off n, off + n ≤ 64 → slice s.rxbuf off n = part s.received off n :=
    fun off n hle => (part_received s (by omega)).symm
  refine ⟨_, hsend, rfl, ?_⟩
  unfold reply Net.transmit
  dsimp only
  rw [hpart 8 6 (by omega), hpart 24 16 (by omega), hpart 56 2 (by omega), hport,
    BitVec.ofNat_toNat, BitVec.setWidth_eq]

theorem eth_rx.spec (mac : Mac) {s : Node} (packet : Octets) {f : List Byte} (hpad : s.Padded)
    (hlen : f.length < 2 ^ 32) :
    ∃ t, eth_rx mac s packet (slot f) (BitVec.ofNat 32 f.length) = .ok t ∧ t.Padded ∧
      t.sent = s.sent ++ answer mac f := by
  have hn : (BitVec.ofNat 32 f.length).toNat = f.length := by
    rw [BitVec.toNat_ofNat, Nat.mod_eq_of_lt hlen]
  unfold eth_rx answer
  by_cases hmax : f.length ≤ 1534
  · have hr : (s.loaded (slot f) f.length).received = [0, 0] ++ f := by
      rw [hpad.received_loaded, slice_slot]
    have hpad' : (s.loaded (slot f) f.length).Padded := by
      unfold Net.Padded Net.loaded
      rw [slice_overlay_apart _ _ _ _ _ (by omega)]
      exact hpad
    rw [net.eth_rx.spec _ _ _ _ _ _ (by omega), hn, hr, if_pos hmax]
    cases hc : classify mac ([0, 0] ++ f) with
    | ignored => exact ⟨_, rfl, hpad', by simp [Net.loaded]⟩
    | datagram port len mcast =>
      rw [← hr] at hc ⊢
      obtain ⟨t, ht, hbuf, hsent⟩ := pkt_rx_udp.spec mac packet (s.loaded (slot f) f.length)
        (by simp [Net.loaded]; omega) hc
      exact ⟨t, ht, by unfold Net.Padded; rw [hbuf]; exact hpad', hsent⟩
    | echo =>
      refine ⟨_, rfl, ?_, by rw [hr]; rfl⟩
      have hecho := echoed_rxbuf (s.loaded (slot f) f.length) 0 2 (by omega)
      exact hecho.trans hpad'
    | solicitation => exact ⟨_, rfl, hpad', by rw [hr]; rfl⟩
  · rw [eth_rx_long _ _ _ _ _ _ (by omega), if_neg hmax]
    exact ⟨s, rfl, hpad, by simp⟩

/-! ## Answers to answers -/

/-- The answer of one node to a datagram of another, between these ports. -/
def pass (A B : Mac) (src_port dst_port : BitVec 16) : List Byte :=
  ip6_frame A B.octets (ip6lla_from_ethmac B) IP_HDR_UDP
    (with_checksum (ip6lla_from_ethmac A) (ip6lla_from_ethmac B) IP_HDR_UDP 6
      (udp_datagram (be16 src_port) (be16 dst_port) MULTIPASS))

section

variable (A B : Mac) (p q : BitVec 16)

theorem classify_pass : classify B ([0, 0] ++ pass A B p q) = .datagram q 10 false := by
  have hclass := classify_reply B A (be16 p) (be16 q) MULTIPASS rfl rfl (by decide)
  rw [field16_be16] at hclass
  exact hclass

theorem pass_length : (pass A B p q).length = 72 := by
  have hlen := padded_frame_length A IP_HDR_UDP (with_checksum (ip6lla_from_ethmac A)
    (ip6lla_from_ethmac B) IP_HDR_UDP 6 (udp_datagram (be16 p) (be16 q) MULTIPASS))
    (octets_length B) (ip6lla_length B)
  rw [with_checksum_length _ _ _ _ _ (by rw [udp_datagram_length rfl rfl]; decide),
    udp_datagram_length rfl rfl] at hlen
  unfold padded_frame at hlen
  rw [List.length_append] at hlen
  exact Nat.add_left_cancel hlen

theorem pass_src_mac : part ([0, 0] ++ pass A B p q) 8 6 = A.octets := by
  unfold pass ip6_frame ip6_headers
  generalize with_checksum (ip6lla_from_ethmac A) (ip6lla_from_ethmac B) IP_HDR_UDP 6
    (udp_datagram (be16 p) (be16 q) MULTIPASS) = payload
  simp only [List.append_assoc]
  rw [← List.append_assoc [0, 0]]
  exact part_mid _ _ _ _ _ rfl rfl

theorem pass_src_ip : part ([0, 0] ++ pass A B p q) 24 16 = ip6lla_from_ethmac A :=
  frame_src_ip A _ _ rfl

/-- The ports stand at the front of the UDP header. -/
theorem pass_ports : part ([0, 0] ++ pass A B p q) 56 2 = be16 p ∧
    field16 ([0, 0] ++ pass A B p q) 58 = q := by
  have hports := frame_payload A IP_HDR_UDP (with_checksum (ip6lla_from_ethmac A)
    (ip6lla_from_ethmac B) IP_HDR_UDP 6 (udp_datagram (be16 p) (be16 q) MULTIPASS))
    (octets_length B) (ip6lla_length B)
  have hudp := udp_with_checksum (ip6lla_from_ethmac A) (ip6lla_from_ethmac B) (be16_length p)
    (be16_length q) MULTIPASS
  rw [hudp] at hports
  constructor
  · have hsrc := hports 0 2
    rw [part_left _ _ _ _ (by simp), part_left _ _ _ _ (by simp), part_left _ _ _ _ (by simp),
      part_all _ _ (be16_length p).symm] at hsrc
    exact hsrc
  · have hdst := hports 2 2
    rw [part_left _ _ _ _ (by simp), part_left _ _ _ _ (by simp), part_right _ _ _ _ (by simp),
      be16_length, Nat.sub_self, part_all _ _ (be16_length q).symm] at hdst
    have hfield := field16_part ([0, 0] ++ pass A B p q) 58 2 0 (by omega)
    change part ([0, 0] ++ pass A B p q) 58 2 = be16 q at hdst
    rw [hdst, field16_be16] at hfield
    exact hfield.symm

/-- The node that a pass goes to passes it back. -/
theorem answer_pass : answer B (pass A B p q) = [pass B A q p] := by
  obtain ⟨hsrc, hdst⟩ := pass_ports A B p q
  unfold answer
  rw [if_pos (by rw [pass_length]; omega), classify_pass]
  unfold reply
  rw [pass_src_mac, pass_src_ip, hsrc, hdst]
  rfl

/-- An address of a node is no multicast. -/
theorem takes_in_other {A B : Mac} (h : A ≠ B) :
    takes_in A B.octets (ip6lla_from_ethmac B) = none := by
  have hmac : B.octets ≠ A.octets := by
    intro he
    obtain ⟨a0, a1, a2, a3, a4, a5⟩ := A
    obtain ⟨b0, b1, b2, b3, b4, b5⟩ := B
    simp only [Mac.octets, List.cons.injEq, and_true] at he
    obtain ⟨rfl, rfl, rfl, rfl, rfl, rfl⟩ := he
    exact h rfl
  have hip : ¬ (ip6lla_from_ethmac B = mcast_ll_ip6 ∨
      ip6lla_from_ethmac B = ip6ns_from_ethmac A) := by
    rintro (he | he) <;> exact absurd (List.cons.inj he).1 (by decide)
  unfold takes_in
  rw [if_neg hmac, if_neg hip, ite_self]

/-- A node of another address sends nothing for a pass. -/
theorem answer_pass_other {C : Mac} (h : C ≠ B) : answer C (pass A B p q) = [] := by
  have hclass : classify C ([0, 0] ++ pass A B p q) = .ignored := by
    have hframe := classify_datagram C A MULTIPASS (octets_length B) (ip6lla_length B)
      (be16_length p) (be16_length q) (by decide)
    rw [takes_in_other h] at hframe
    exact hframe
  unfold answer
  rw [hclass, ite_self]

/-- Any datagram is a first pass, back to where it came from. -/
theorem answer_datagram {f : List Byte} {len : Nat} {mcast : Bool} (hlen : f.length ≤ 1534)
    (hc : classify A ([0, 0] ++ f) = .datagram p len mcast)
    (hmac : part ([0, 0] ++ f) 8 6 = B.octets)
    (hip : part ([0, 0] ++ f) 24 16 = ip6lla_from_ethmac B) :
    answer A f = [pass A B p (field16 ([0, 0] ++ f) 56)] := by
  obtain ⟨-, h64, hport, -, -⟩ := classify_eq_datagram.mp hc
  have hsrc : part ([0, 0] ++ f) 56 2 = be16 (field16 ([0, 0] ++ f) 56) := by
    unfold field16 be16
    rw [part_add _ 56 1 1, part_one _ (by omega), part_one _ (by omega),
      BitVec.extractLsb'_append_eq_left, BitVec.extractLsb'_append_eq_right]
    rfl
  unfold answer
  rw [if_pos hlen, hc]
  unfold reply pass
  rw [hmac, hip, hsrc, hport]

end

/-! ## The link -/

/-- The nodes, and every frame there was. Each may get to any node at any time, or be lost. -/
structure Link (ι : Type) where
  nodes : ι → Node
  air : List (List Byte)

inductive Event (ι : Type)
  | inject (f : List Byte)
  /-- A node takes a frame and sends the frames `out`. -/
  | take (i : ι) (f : List Byte) (out : List (List Byte))

section

variable {ι : Type} [DecidableEq ι] (mac : ι → Mac)

inductive Step : Steps (Link ι) (Event ι)
  | inject {g : Link ι} {f : List Byte} :
      f.length < 2 ^ 32 → Step g (.inject f) { g with air := g.air ++ [f] }
  | take {g : Link ι} {i : ι} {f : List Byte} {packet : Octets} {t : Node}
      {out : List (List Byte)} :
      f ∈ g.air → eth_rx (mac i) (g.nodes i) packet (slot f) (BitVec.ofNat 32 f.length) = .ok t →
      t.sent = (g.nodes i).sent ++ out →
      Step g (.take i f out) ⟨Function.update g.nodes i t, g.air ++ out⟩

def Link.start : Link ι := ⟨fun _ => multipass.start, []⟩

/-- Each node has kept its padding, and each frame fits a length register. -/
structure Sound (g : Link ι) : Prop where
  padded : ∀ i, (g.nodes i).Padded
  short : ∀ f ∈ g.air, f.length < 2 ^ 32

variable {mac} {g g' : Link ι} {es : List (Event ι)}

/-- A frame to where an accepted frame came from is as long as its payload and the headers. -/
theorem reply_length (A : Mac) {r : List Byte} (h : 60 ≤ r.length) (next : Byte)
    (payload : List Byte) :
    (ip6_frame A (part r 8 6) (part r 24 16) next payload).length = 54 + payload.length := by
  have hlen := padded_frame_length A next payload (part_length r 8 6 (by omega))
    (part_length r 24 16 (by omega))
  unfold padded_frame at hlen
  rw [List.length_append] at hlen
  have htwo : ([0, 0] : List Byte).length = 2 := rfl
  omega

theorem answer_length (A : Mac) (f : List Byte) : ∀ f' ∈ answer A f, f'.length < 2 ^ 32 := by
  intro f' hf'
  unfold answer at hf'
  split at hf'
  · rename_i hmax
    have hlen : ([0, 0] ++ f).length = f.length + 2 := by simp
    cases hc : classify A ([0, 0] ++ f) with
    | ignored =>
      rw [hc] at hf'
      cases hf'
    | datagram port len mcast =>
      have h64 := (classify_eq_datagram.mp hc).2.1
      have hudp := udp_datagram_length (be16_length (field16 ([0, 0] ++ f) 58))
        (part_length ([0, 0] ++ f) 56 2 (by omega)) MULTIPASS
      rw [hc] at hf'
      rw [List.mem_singleton.mp hf', reply, reply_length A (by omega),
        with_checksum_length _ _ _ _ _ (by rw [hudp]; decide), hudp]
      decide
    | echo =>
      obtain ⟨⟨m, hacc⟩, -⟩ := classify_eq_echo.mp hc
      rw [hc] at hf'
      rw [List.mem_singleton.mp hf', echo_reply, reply_length A hacc.long,
        with_checksum_length _ _ _ _ _ (by simp), List.length_append,
        part_length _ _ _ (by have := hacc.long; omega)]
      simp
      omega
    | solicitation =>
      obtain ⟨⟨m, hacc⟩, -⟩ := classify_eq_solicitation.mp hc
      rw [hc] at hf'
      rw [List.mem_singleton.mp hf', advertisement, reply_length A hacc.long,
        with_checksum_length _ _ _ _ _ (by simp [ndp_reply])]
      simp [ndp_reply]
  · cases hf'

/-- What a node sends is the answer to the frame, whatever it took before. -/
theorem Sound.step (h : Sound g) {e : Event ι} (hs : Step mac g e g') :
    Sound g' ∧ ∀ i f out, e = .take i f out → out = answer (mac i) f := by
  cases hs with
  | inject hlen =>
    refine ⟨⟨h.padded, ?_⟩, by simp⟩
    intro f hf
    rcases List.mem_append.mp hf with hf | hf
    · exact h.short f hf
    · rwa [List.mem_singleton.mp hf]
  | @take _ i f packet t out hair ht hout =>
    obtain ⟨t', ht', hpad, hsent⟩ := eth_rx.spec (mac i) packet (h.padded i) (h.short f hair)
    obtain rfl : t' = t := Except.ok.inj (ht'.symm.trans ht)
    have hans : out = answer (mac i) f := List.append_cancel_left (hout.symm.trans hsent)
    refine ⟨⟨?_, ?_⟩, ?_⟩
    · intro j
      by_cases hj : j = i
      · subst hj
        simpa using hpad
      · simpa [hj] using h.padded j
    · intro f' hf'
      rcases List.mem_append.mp hf' with hf' | hf'
      · exact h.short f' hf'
      · exact answer_length (mac i) f f' (hans ▸ hf')
    · rintro _ _ _ he
      cases he
      exact hans

theorem run_answers (hrun : Run (Step mac) Link.start es g) :
    Sound g ∧ ∀ i f out, .take i f out ∈ es → out = answer (mac i) f := by
  apply hrun.carries (I := fun es g => Sound g ∧ ∀ i f out, .take i f out ∈ es →
    out = answer (mac i) f)
  · exact ⟨⟨fun _ => rfl, by simp [Link.start]⟩, by simp⟩
  · rintro es g e g' ⟨hs, hes⟩ hstep
    obtain ⟨hs', he⟩ := hs.step hstep
    refine ⟨hs', fun i f out hin => ?_⟩
    rcases List.mem_append.mp hin with hin | hin
    · exact hes i f out hin
    · exact he i f out (List.mem_singleton.mp hin).symm

variable (mac) in
/-- A node can take any frame of the link at any time. -/
theorem Sound.takes (h : Sound g) {f : List Byte} (hf : f ∈ g.air) (i : ι) :
    ∃ g', Step mac g (.take i f (answer (mac i) f)) g' ∧ Sound g' ∧
      g'.air = g.air ++ answer (mac i) f := by
  obtain ⟨t, ht, _, hsent⟩ := eth_rx.spec (mac i) (fun _ => 0) (h.padded i) (h.short f hf)
  have hstep : Step mac g (.take i f (answer (mac i) f)) _ := .take hf ht hsent
  exact ⟨_, hstep, (h.step hstep).1, rfl⟩

variable (mac) in
/-- The passes between two nodes, to and fro. -/
def volley (i j : ι) (p q : BitVec 16) : Nat → List (Event ι)
  | 0 => []
  | n + 1 => .take j (pass (mac i) (mac j) p q) [pass (mac j) (mac i) q p] ::
      .take i (pass (mac j) (mac i) q p) [pass (mac i) (mac j) p q] :: volley i j p q n

theorem volley_runs {i j : ι} {p q : BitVec 16} (n : Nat) (h : Sound g)
    (hf : pass (mac i) (mac j) p q ∈ g.air) : ∃ g', Run (Step mac) g (volley mac i j p q n) g' := by
  induction n generalizing g with
  | zero => exact ⟨g, .nil⟩
  | succ n ih =>
    obtain ⟨g₁, hstep, h₁, hair⟩ := h.takes mac hf j
    rw [answer_pass] at hstep hair
    obtain ⟨g₂, hstep', h₂, hair'⟩ := h₁.takes mac (f := pass (mac j) (mac i) q p)
      (by rw [hair]; simp) i
    rw [answer_pass] at hstep' hair'
    obtain ⟨g', hrun⟩ := ih h₂ (by rw [hair']; simp)
    exact ⟨g', ((Run.single hstep).append (.single hstep')).append hrun⟩

/-- What a node sends for a frame is the same in every run. So when a node `i` takes a datagram
that comes from the address of a node `j`, both can pass the same two frames to and fro any number
of times. In every run each of these is answered by the other one, and only by the node whose
address it goes to. -/
theorem two_nodes_never_stop {i j : ι} {f : List Byte} {p : BitVec 16} {len : Nat} {mcast : Bool}
    (hrun : Run (Step mac) Link.start es g) (hair : f ∈ g.air) (hlen : f.length ≤ 1534)
    (hc : classify (mac i) ([0, 0] ++ f) = .datagram p len mcast)
    (hmac : part ([0, 0] ++ f) 8 6 = (mac j).octets)
    (hip : part ([0, 0] ++ f) 24 16 = ip6lla_from_ethmac (mac j)) :
    (∀ n, ∃ g', Run (Step mac) g
      (.take i f [pass (mac i) (mac j) p (field16 ([0, 0] ++ f) 56)] ::
        volley mac i j p (field16 ([0, 0] ++ f) 56) n) g') ∧
    ∀ es' g', Run (Step mac) Link.start es' g' → ∀ k out,
      (∀ h, .take k h out ∈ es' → out = answer (mac k) h) ∧
      ∀ q,
        (.take k (pass (mac i) (mac j) p q) out ∈ es' →
          out = if mac k = mac j then [pass (mac j) (mac i) q p] else []) ∧
        (.take k (pass (mac j) (mac i) q p) out ∈ es' →
          out = if mac k = mac i then [pass (mac i) (mac j) p q] else []) := by
  refine ⟨fun n => ?_, fun es' g' hrun' k out => ?_⟩
  · obtain ⟨g₁, hstep, h₁, hair₁⟩ := (run_answers hrun).1.takes mac hair i
    rw [answer_datagram (mac i) (mac j) p hlen hc hmac hip] at hstep hair₁
    obtain ⟨g', hvolley⟩ := volley_runs (i := i) (j := j) n h₁
      (by rw [hair₁]; exact List.mem_append_right _ List.mem_cons_self)
    exact ⟨g', (Run.single hstep).append hvolley⟩
  · have hanswer := fun h => (run_answers hrun').2 k h out
    have hpass : ∀ (A B : Mac) (r t : BitVec 16), .take k (pass A B r t) out ∈ es' →
        out = if mac k = B then [pass B A t r] else [] := by
      intro A B r t hin
      rw [hanswer _ hin]
      split
      · rename_i hk
        rw [hk, answer_pass]
      · rename_i hk
        exact answer_pass_other A B r t hk
    exact ⟨hanswer, fun q => ⟨hpass _ _ _ _, hpass _ _ _ _⟩⟩

/-- Two nodes, and a first datagram between them. -/
def two_nodes (i : Bool) : Mac := if i then other_mac else loader_mac

theorem a_pass_never_ends : ∃ g', Run (Step two_nodes)
    ⟨fun _ => start, [pass other_mac loader_mac 0x1234 7]⟩
    (.take false (pass other_mac loader_mac 0x1234 7) [pass loader_mac other_mac 7 0x1234] ::
      volley two_nodes false true 7 0x1234 100) g' := by
  have hrun : Run (Step two_nodes) Link.start [.inject (pass other_mac loader_mac 0x1234 7)]
      ⟨fun _ => start, [pass other_mac loader_mac 0x1234 7]⟩ :=
    .single (.inject (by rw [pass_length]; decide))
  have hport : field16 ([0, 0] ++ pass other_mac loader_mac 0x1234 7) 56 = 0x1234 := by decide
  have hnever := (two_nodes_never_stop (i := false) (j := true) hrun List.mem_cons_self
    (by rw [pass_length]; decide) (classify_pass other_mac loader_mac 0x1234 7)
    (pass_src_mac _ _ _ _) (pass_src_ip _ _ _ _)).1
  rw [hport] at hnever
  exact hnever 100

end

end os_workshop.multipass
