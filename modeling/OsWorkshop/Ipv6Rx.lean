-- What the IPv6 stack makes of a received frame: nothing, a datagram for the
-- application, an echo request or a neighbor solicitation, each decided by
-- the octets received and by nothing else.
import OsWorkshop.Ipv6Tx

open os_workshop.memory (Byte Word le32 word)
open os_workshop.octets

namespace os_workshop.net

variable {σ : Type}

/-! ## The pure model

A received frame stands in a list `r` with its two octets of padding before it. -/

def octet (r : List Byte) (i : Nat) : Byte := r[i]?.getD 0

/-- The number in network byte order at `off`. -/
def field16 (r : List Byte) (off : Nat) : BitVec 16 := octet r off ++ octet r (off + 1)

/-- Whether the frame goes to an address of the interface, and if so whether by multicast. -/
def addressed (mac : Mac) (r : List Byte) : Option Bool :=
  if part r 0 8 = (net_init mac).m_ifc_mac then some false
  else if part r 0 8 = (net_init mac).m_ns_mac then some true
  else if part r 0 8 = m_ll_mac then some true
  else none

/-- Whether the packet in the frame goes to an address of the interface. -/
def ours (mac : Mac) (r : List Byte) : Bool → Prop
  | false => part r 40 16 = ip6lla_from_ethmac mac
  | true => part r 40 16 = mcast_ll_ip6 ∨ part r 40 16 = ip6ns_from_ethmac mac

instance (mac : Mac) (r : List Byte) : (mcast : Bool) → Decidable (ours mac r mcast)
  | false => inferInstanceAs (Decidable (_ = _))
  | true => inferInstanceAs (Decidable (_ ∨ _))

inductive Input
  | ignored
  | datagram (port : BitVec 16) (len : Nat) (mcast : Bool)
  | echo
  | solicitation
deriving DecidableEq

def classify_icmp (mac : Mac) (r : List Byte) : Input :=
  if octet r 56 = ICMP_NDP_N_SOLICIT then
    if 80 ≤ r.length ∧ octet r 57 = 0 ∧ part r 64 16 = ip6lla_from_ethmac mac then .solicitation
    else .ignored
  else if octet r 56 = ICMP_ECHO_REQUEST then .echo else .ignored

def classify_udp (r : List Byte) (mcast : Bool) : Input :=
  if 64 ≤ r.length ∧ 8 ≤ (field16 r 60).toNat ∧ (field16 r 60).toNat ≤ r.length - 56 then
    .datagram (field16 r 58) ((field16 r 60).toNat - 8) mcast
  else .ignored

def classify_ip6 (mac : Mac) (r : List Byte) (mcast : Bool) : Input :=
  if ours mac r mcast then
    if octet r 22 = IP_HDR_ICMP then classify_icmp mac r
    else if octet r 22 = IP_HDR_UDP then classify_udp r mcast
    else .ignored
  else .ignored

/-- What a received frame is. -/
def classify (mac : Mac) (r : List Byte) : Input :=
  if 60 ≤ r.length ∧ part r 14 2 = [0x86, 0xDD] then
    match addressed mac r with
    | some mcast => classify_ip6 mac r mcast
    | none => .ignored
  else .ignored

/-- The answer to an echo request: the message with another type and checksum. -/
def echo_reply (mac : Mac) (r : List Byte) : List Byte :=
  ip6_frame mac (part r 8 6) (part r 24 16) IP_HDR_ICMP
    (with_checksum (ip6lla_from_ethmac mac) (part r 24 16) IP_HDR_ICMP 2
      ([ICMP_ECHO_REPLY, octet r 57, 0, 0] ++ part r 60 (r.length - 60)))

/-- The answer to a neighbor solicitation. -/
def advertisement (mac : Mac) (r : List Byte) : List Byte :=
  ip6_frame mac (part r 8 6) (part r 24 16) IP_HDR_ICMP
    (with_checksum (ip6lla_from_ethmac mac) (part r 24 16) IP_HDR_ICMP 2 (ndp_reply (net_init mac)))

/-- The octets of the receive buffer that the last frame filled. -/
def Net.received (s : Net σ) : List Byte := slice s.rxbuf 0 s.rcvd

/-- The receive buffer with the echo request turned into its reply. -/
def Net.echoed (s : Net σ) : Net σ :=
  { s with rxbuf := overlay (overlay s.rxbuf 56 [ICMP_ECHO_REPLY]) 58 [0, 0] }

/-- What the stack does with a frame. -/
def outcome (mac : Mac) (cb : Callback σ) (s : Net σ) : Input → Except Fault (Net σ)
  | .ignored => .ok s
  | .datagram port len mcast => cb s 64 len port mcast
  | .echo => .ok (s.echoed.transmit (echo_reply mac s.received))
  | .solicitation => .ok (s.transmit (advertisement mac s.received))

/-! ## Header fields -/

variable (mac : Mac) (s : Net σ) (packet : Octets)

@[simp] theorem received_length : s.received.length = s.rcvd := by simp [Net.received]

theorem part_one (r : List Byte) {off : Nat} (h : off < r.length) : part r off 1 = [octet r off] := by
  unfold part octet
  rw [List.drop_eq_getElem_cons h, List.getElem?_eq_getElem h]
  rfl

theorem octet_part (r : List Byte) (off n i : Nat) (h : i < n) :
    octet (part r off n) i = octet r (off + i) := by
  unfold octet part
  rw [List.getElem?_take_of_lt h, List.getElem?_drop]

theorem octet_after (r : List Byte) (i : Nat) (h : r.length ≤ i) : octet r i = 0 := by
  unfold octet
  rw [List.getElem?_eq_none h]
  rfl

theorem field16_part (r : List Byte) (off n i : Nat) (h : i + 2 ≤ n) :
    field16 (part r off n) i = field16 r (off + i) := by
  unfold field16
  rw [octet_part _ _ _ _ (by omega), octet_part _ _ _ _ (by omega), Nat.add_assoc]

theorem octet_append_right (l r : List Byte) (i : Nat) (h : l.length ≤ i) :
    octet (l ++ r) i = octet r (i - l.length) := by
  unfold octet
  rw [List.getElem?_append_right h]

theorem octet_append_left (l r : List Byte) (i : Nat) (h : i < l.length) :
    octet (l ++ r) i = octet l i := by
  unfold octet
  rw [List.getElem?_append_left h]

theorem field16_append_right (l r : List Byte) (i : Nat) (h : l.length ≤ i) :
    field16 (l ++ r) i = field16 r (i - l.length) := by
  unfold field16
  rw [octet_append_right _ _ _ h, octet_append_right _ _ _ (by omega), Nat.sub_add_comm h]

theorem field16_append_left (l r : List Byte) (i : Nat) (h : i + 2 ≤ l.length) :
    field16 (l ++ r) i = field16 l i := by
  unfold field16
  rw [octet_append_left _ _ _ (by omega), octet_append_left _ _ _ (by omega)]

@[simp] theorem field16_be16 (v : BitVec 16) : field16 (be16 v) 0 = v := be16_append v

theorem octet_received {i : Nat} (h : i < s.rcvd) : octet s.received i = s.rxbuf i := by
  simp [octet, Net.received, slice, h]

theorem part_received {off n : Nat} (h : off + n ≤ s.rcvd) :
    part s.received off n = slice s.rxbuf off n := by
  unfold Net.received
  rw [part_slice _ _ _ _ _ h, Nat.zero_add]

theorem Net.hdr.spec {off n : Nat} (h : off + n ≤ s.rcvd) (h2 : s.rcvd ≤ 1536) :
    s.hdr off n = .ok (part s.received off n) := by
  rw [s.hdr_ok off n h h2, part_received s h]

theorem Net.hdr8.spec {off : Nat} (h : off + 1 ≤ s.rcvd) (h2 : s.rcvd ≤ 1536) :
    s.hdr8 off = .ok (octet s.received off) := by
  unfold Net.hdr8
  rw [s.hdr_ok off 1 h h2, octet_received s (by omega)]
  rfl

theorem Net.hdr16.spec {off : Nat} (h : off + 2 ≤ s.rcvd) (h2 : s.rcvd ≤ 1536) :
    s.hdr16 off = .ok (octet s.received (off + 1) ++ octet s.received off) := by
  unfold Net.hdr16
  rw [s.hdr_ok off 2 h h2, octet_received s (by omega), octet_received s (by omega)]
  rfl

/-- Eight octets are the same when both their words are. -/
theorem part_words (r l : List Byte) (hr : 8 ≤ r.length) (hl : l.length = 8) :
    (part r 0 4 = part l 0 4 ∧ part r (0 + 4) 4 = part l 4 4) ↔ part r 0 8 = l := by
  have e1 : part r 0 8 = part r 0 4 ++ part r (0 + 4) 4 := part_add r 0 4 4
  have e2 : l = part l 0 4 ++ part l 4 4 := (part_all l 8 hl.symm).symm.trans (part_add l 0 4 4)
  constructor
  · rintro ⟨h1, h2⟩
    rw [e1, h1, h2, ← e2]
  · intro h
    rw [e1, e2] at h
    exact List.append_inj h (by rw [part_length _ _ _ (by omega), part_length _ _ _ (by omega)])

/-- The `type` of the Ethernet header, as it is loaded. -/
theorem type_word (r : List Byte) (h : 16 ≤ r.length) :
    octet r (14 + 1) ++ octet r 14 = swap16 ETH_TYPE_IP6 ↔ part r 14 2 = [0x86, 0xDD] := by
  have e : swap16 ETH_TYPE_IP6 = (0xDD : Byte) ++ (0x86 : Byte) := by decide
  rw [e, append_inj_iff, part_add r 14 1 1, part_one r (by omega), part_one r (by omega)]
  simp [and_comm]

/-! ## The receive path -/

variable (cb : Callback σ)

theorem net_rx_udp6.spec (mcast : Bool) (h : s.rcvd ≤ 1536) (h60 : 60 ≤ s.rcvd) :
    net_rx_udp6 cb s 56 (s.rcvd - 56) mcast = outcome mac cb s (classify_udp s.received mcast) := by
  unfold net_rx_udp6 classify_udp
  rw [received_length]
  by_cases h64 : 64 ≤ s.rcvd
  · rw [if_neg (by omega), Net.hdr16.spec s (by omega) h, ok_bind, Net.hdr16.spec s (by omega) h,
      ok_bind, swap16_append, swap16_append]
    change (do
      if (field16 s.received 60).toNat < 8 ∨ (field16 s.received 60).toNat > s.rcvd - 56 then
        pure s
      else cb s 64 (← sub (field16 s.received 60).toNat 8) (field16 s.received 58) mcast) = _
    by_cases hlen : 8 ≤ (field16 s.received 60).toNat ∧ (field16 s.received 60).toNat ≤ s.rcvd - 56
    · rw [if_neg (by omega), if_pos ⟨h64, hlen⟩, sub_ok _ _ hlen.1]
      rfl
    · rw [if_pos (by omega), if_neg (by tauto)]
      rfl
  · rw [if_pos (by omega), if_neg (by tauto)]
    rfl

theorem echoed_rxbuf (off n : Nat) (h : off + n ≤ 56) :
    slice s.echoed.rxbuf off n = slice s.rxbuf off n := by
  unfold Net.echoed
  rw [slice_overlay_apart _ _ _ _ _ (by omega), slice_overlay_apart _ _ _ _ _ (by omega)]

/-- The echo request, with its type and its checksum overwritten in place. -/
theorem echoed_message (h60 : 60 ≤ s.rcvd) :
    slice s.echoed.rxbuf 56 (s.rcvd - 56) =
      [ICMP_ECHO_REPLY, octet s.received 57, 0, 0] ++ part s.received 60 (s.rcvd - 60) := by
  have e : s.rcvd - 56 = 1 + (1 + (2 + (s.rcvd - 60))) := by omega
  have h56 : slice s.echoed.rxbuf 56 1 = [ICMP_ECHO_REPLY] := by
    unfold Net.echoed
    rw [slice_overlay_apart _ _ _ _ _ (by omega)]
    exact slice_overlay_same _ _ _ _ rfl
  have h57 : slice s.echoed.rxbuf 57 1 = [octet s.received 57] := by
    unfold Net.echoed
    rw [slice_overlay_apart _ _ _ _ _ (by omega), slice_overlay_apart _ _ _ _ _ (by simp),
      octet_received s (by omega)]
    rfl
  have h58 : slice s.echoed.rxbuf 58 2 = [0, 0] := slice_overlay_same _ _ _ _ rfl
  have h60 : slice s.echoed.rxbuf 60 (s.rcvd - 60) = part s.received 60 (s.rcvd - 60) := by
    unfold Net.echoed
    rw [slice_overlay_apart _ _ _ _ _ (by simp), slice_overlay_apart _ _ _ _ _ (by simp),
      ← part_received s (by omega)]
  rw [e, slice_append, slice_append, slice_append, h56, h57, h58, h60]
  rfl

@[simp] theorem load_rx (off n : Nat) : s.load (.rx off) n = get .rxbuf s.rxbuf off n := rfl

theorem net_rx_icmp6.spec (h : s.rcvd ≤ 1536) (h60 : 60 ≤ s.rcvd) :
    net_rx_icmp6 (net_init mac) s packet 56 (s.rcvd - 56) =
      outcome mac cb s (classify_icmp mac s.received) := by
  unfold net_rx_icmp6 classify_icmp
  rw [received_length, if_neg (by omega), Net.hdr8.spec s (by omega) h, ok_bind]
  by_cases h1 : octet s.received 56 = ICMP_NDP_N_SOLICIT
  · rw [if_pos h1, if_pos h1]
    by_cases h80 : 80 ≤ s.rcvd
    · rw [if_neg (by omega), Net.hdr8.spec s (by omega) h, ok_bind]
      by_cases hcode : octet s.received 57 = 0
      · rw [if_neg (by tauto), Net.hdr.spec s (by omega) h, ok_bind]
        by_cases htarget : part s.received 64 16 = ip6lla_from_ethmac mac
        · rw [if_neg (by tauto), if_pos ⟨h80, hcode, htarget⟩]
          have hload : s.load (.obj (ndp_reply (net_init mac))) 32 =
              .ok (ndp_reply (net_init mac)) := rfl
          have hs := net_tx_ip6_reply.spec mac s packet _ _ 32 IP_HDR_ICMP 2 h (by omega) (by omega)
            rfl hload (by omega)
          rw [← part_received s (by omega), ← part_received s (by omega)] at hs
          exact hs
        · rw [if_pos (by tauto), if_neg (by tauto)]
          rfl
      · rw [if_pos (by tauto), if_neg (by tauto)]
        rfl
    · rw [if_pos (by omega), if_neg (by tauto)]
      rfl
  · rw [if_neg h1, if_neg h1]
    by_cases h2 : octet s.received 56 = ICMP_ECHO_REQUEST
    · rw [if_pos h2, if_pos h2, if_neg (by omega), put_ok _ _ _ _ (by simp), ok_bind,
        put_ok _ _ _ _ (by simp), ok_bind]
      have hload : s.echoed.load (.rx 56) (s.rcvd - 56) =
          .ok ([ICMP_ECHO_REPLY, octet s.received 57, 0, 0] ++ part s.received 60 (s.rcvd - 60)) := by
        rw [load_rx, get_ok _ _ _ _ (by omega), echoed_message s h60]
      have hmsg : ([ICMP_ECHO_REPLY, octet s.received 57, 0, 0] ++
          part s.received 60 (s.rcvd - 60)).length = s.rcvd - 56 := by
        rw [List.length_append, part_length _ _ _ (by rw [received_length]; omega)]
        simp
        omega
      have hs := net_tx_ip6_reply.spec mac s.echoed packet _ _ (s.rcvd - 56) IP_HDR_ICMP 2 h
        (by change 56 ≤ s.rcvd; omega) (by omega) hmsg hload (by omega)
      rw [echoed_rxbuf s _ _ (by omega), echoed_rxbuf s _ _ (by omega),
        ← part_received s (by omega), ← part_received s (by omega)] at hs
      refine Eq.trans hs ?_
      unfold outcome echo_reply
      rw [received_length]
    · rw [if_neg h2, if_neg h2]
      rfl

/-- The comparisons of the destination with the addresses of the interface. -/
theorem guards_ours {α : Type} (mac : Mac) (r : List Byte) (mcast : Bool) (x y : α) :
    (if mcast then
      if part r 40 16 ≠ mcast_ll_ip6 ∧ part r 40 16 ≠ (net_init mac).mcast_ns_ip6 then x else y
    else if part r 40 16 ≠ (net_init mac).ifc_ll_ip6 then x else y) =
      if ours mac r mcast then y else x := by
  by_cases ho : ours mac r mcast
  · rw [if_pos ho]
    cases mcast with
    | false => exact if_neg (not_not.mpr ho)
    | true => exact if_neg (not_and_or.mpr (ho.imp not_not.mpr not_not.mpr))
  · rw [if_neg ho]
    cases mcast with
    | false => exact if_pos ho
    | true => exact if_pos (not_or.mp ho)

theorem net_rx_ip6.spec (mcast : Bool) (h : s.rcvd ≤ 1536) (h60 : 60 ≤ s.rcvd) :
    net_rx_ip6 (net_init mac) cb s packet 16 (s.rcvd - 16) mcast =
      outcome mac cb s (classify_ip6 mac s.received mcast) := by
  have hrest : (do
      let next_header ← s.hdr8 (16 + 6)
      if next_header = IP_HDR_ICMP then
        net_rx_icmp6 (net_init mac) s packet (16 + 40) (← sub (s.rcvd - 16) 40)
      else if next_header = IP_HDR_UDP then
        net_rx_udp6 cb s (16 + 40) (← sub (s.rcvd - 16) 40) mcast
      else return s) =
      outcome mac cb s (if octet s.received 22 = IP_HDR_ICMP then classify_icmp mac s.received
        else if octet s.received 22 = IP_HDR_UDP then classify_udp s.received mcast
        else .ignored) := by
    rw [Net.hdr8.spec s (by omega) h, ok_bind, sub_ok _ _ (by omega), ok_bind, ok_bind, Nat.sub_sub]
    by_cases h1 : octet s.received 22 = IP_HDR_ICMP
    · rw [if_pos h1, if_pos h1]
      exact net_rx_icmp6.spec mac s packet cb h h60
    · rw [if_neg h1, if_neg h1]
      by_cases h2 : octet s.received 22 = IP_HDR_UDP
      · rw [if_pos h2, if_pos h2]
        exact net_rx_udp6.spec mac s cb mcast h h60
      · rw [if_neg h2, if_neg h2]
        rfl
  unfold net_rx_ip6 classify_ip6
  rw [Net.hdr.spec s (by omega) h, ok_bind]
  refine (guards_ours mac s.received mcast _ _).trans ?_
  by_cases ho : ours mac s.received mcast
  · rw [if_pos ho, if_pos ho]
    exact hrest
  · rw [if_neg ho, if_neg ho]
    rfl

/-- The receive path: the octets received decide what happens, and a reply of the stack
itself is at most one frame. -/
theorem net_rx_eth.spec (h : s.rcvd ≤ 1536) :
    net_rx_eth (net_init mac) cb s packet 0 s.rcvd = outcome mac cb s (classify mac s.received) := by
  unfold net_rx_eth classify
  rw [received_length]
  by_cases h60 : 60 ≤ s.rcvd
  · have hw := fun l (hl : l.length = 8) => part_words s.received l (by simp; omega) hl
    rw [if_neg (by omega), Net.hdr16.spec s (by omega) h, ok_bind]
    by_cases htype : part s.received 14 2 = [0x86, 0xDD]
    · rw [if_neg (not_not.mpr ((type_word _ (by simp; omega)).mpr htype)), if_pos ⟨h60, htype⟩,
        Net.hdr.spec s (by omega) h, ok_bind, Net.hdr.spec s (by omega) h, ok_bind,
        sub_ok _ _ (by omega)]
      simp only [ok_bind, hw (net_init mac).m_ifc_mac rfl, hw (net_init mac).m_ns_mac rfl,
        hw m_ll_mac rfl]
      unfold addressed
      by_cases h1 : part s.received 0 8 = (net_init mac).m_ifc_mac
      · rw [if_pos h1, if_pos h1]
        exact net_rx_ip6.spec mac s packet cb false h h60
      · rw [if_neg h1, if_neg h1]
        by_cases h2 : part s.received 0 8 = (net_init mac).m_ns_mac
        · rw [if_pos h2, if_pos h2]
          exact net_rx_ip6.spec mac s packet cb true h h60
        · rw [if_neg h2, if_neg h2]
          by_cases h3 : part s.received 0 8 = m_ll_mac
          · rw [if_pos h3, if_pos h3]
            exact net_rx_ip6.spec mac s packet cb true h h60
          · rw [if_neg h3, if_neg h3]
            rfl
    · rw [if_pos (mt (type_word _ (by simp; omega)).mp htype), if_neg (by tauto)]
      rfl
  · rw [if_pos (by omega), if_neg (by tauto)]
    rfl

/-! ## What is accepted -/

/-- The frame passes every test up to the choice by `next_header`. -/
structure Accepted (mac : Mac) (r : List Byte) (mcast : Bool) (next : Byte) : Prop where
  long : 60 ≤ r.length
  type : part r 14 2 = [0x86, 0xDD]
  mine : addressed mac r = some mcast
  ours : ours mac r mcast
  next : octet r 22 = next

theorem classify_icmp_udp (mac : Mac) (r : List Byte) (p : BitVec 16) (n : Nat) (m : Bool) :
    classify_icmp mac r ≠ .datagram p n m := by
  unfold classify_icmp
  split_ifs <;> simp

/-- A frame that is not ignored was accepted, and is what its protocol makes of it. -/
theorem classify_accepted {mac : Mac} {r : List Byte} (h : classify mac r ≠ .ignored) :
    (∃ m, Accepted mac r m IP_HDR_ICMP ∧ classify mac r = classify_icmp mac r) ∨
    (∃ m, Accepted mac r m IP_HDR_UDP ∧ classify mac r = classify_udp r m) := by
  unfold classify at *
  split_ifs at h ⊢ with h1
  · cases ha : addressed mac r with
    | none => rw [ha] at h; exact absurd rfl h
    | some m =>
      rw [ha] at h
      unfold classify_ip6 at h ⊢
      dsimp only at h ⊢
      split_ifs at h ⊢ with h2 h3 h4
      · exact .inl ⟨m, ⟨h1.1, h1.2, ha, h2, h3⟩, rfl⟩
      · exact .inr ⟨m, ⟨h1.1, h1.2, ha, h2, h4⟩, rfl⟩
      all_goals exact absurd rfl h
  · exact absurd rfl h

theorem Accepted.icmp {mac : Mac} {r : List Byte} {m : Bool} (h : Accepted mac r m IP_HDR_ICMP) :
    classify mac r = classify_icmp mac r := by
  unfold classify
  rw [if_pos ⟨h.long, h.type⟩, h.mine]
  dsimp only
  unfold classify_ip6
  rw [if_pos h.ours, if_pos h.next]

theorem Accepted.udp {mac : Mac} {r : List Byte} {m : Bool} (h : Accepted mac r m IP_HDR_UDP) :
    classify mac r = classify_udp r m := by
  unfold classify
  rw [if_pos ⟨h.long, h.type⟩, h.mine]
  dsimp only
  unfold classify_ip6
  rw [if_pos h.ours, h.next, if_neg (by decide), if_pos rfl]

theorem classify_eq_echo {mac : Mac} {r : List Byte} : classify mac r = .echo ↔
    (∃ m, Accepted mac r m IP_HDR_ICMP) ∧ octet r 56 = ICMP_ECHO_REQUEST := by
  constructor
  · intro h
    rcases classify_accepted (by rw [h]; simp) with ⟨m, ha, he⟩ | ⟨m, ha, he⟩
    · refine ⟨⟨m, ha⟩, ?_⟩
      rw [h] at he
      unfold classify_icmp at he
      split_ifs at he with h1 h2 h3
      exact h3
    · rw [h] at he
      unfold classify_udp at he
      split_ifs at he
  · rintro ⟨⟨m, ha⟩, h⟩
    rw [ha.icmp]
    unfold classify_icmp
    rw [h, if_neg (by decide), if_pos rfl]

theorem classify_eq_solicitation {mac : Mac} {r : List Byte} : classify mac r = .solicitation ↔
    (∃ m, Accepted mac r m IP_HDR_ICMP) ∧ octet r 56 = ICMP_NDP_N_SOLICIT ∧ 80 ≤ r.length ∧
      octet r 57 = 0 ∧ part r 64 16 = ip6lla_from_ethmac mac := by
  constructor
  · intro h
    rcases classify_accepted (by rw [h]; simp) with ⟨m, ha, he⟩ | ⟨m, ha, he⟩
    · refine ⟨⟨m, ha⟩, ?_⟩
      rw [h] at he
      unfold classify_icmp at he
      split_ifs at he with h1 h2 h3
      exact ⟨h1, h2⟩
    · rw [h] at he
      unfold classify_udp at he
      split_ifs at he
  · rintro ⟨⟨m, ha⟩, h, h2⟩
    rw [ha.icmp]
    unfold classify_icmp
    rw [if_pos h, if_pos h2]

theorem classify_eq_datagram {mac : Mac} {r : List Byte} {p : BitVec 16} {n : Nat} {m : Bool} :
    classify mac r = .datagram p n m ↔
      Accepted mac r m IP_HDR_UDP ∧ 64 ≤ r.length ∧ field16 r 58 = p ∧
        (field16 r 60).toNat = n + 8 ∧ n + 64 ≤ r.length := by
  constructor
  · intro h
    rcases classify_accepted (by rw [h]; simp) with ⟨m', ha, he⟩ | ⟨m', ha, he⟩
    · exact absurd (he.symm.trans h) (classify_icmp_udp mac r p n m)
    · rw [h] at he
      unfold classify_udp at he
      split_ifs at he with h1
      simp only [Input.datagram.injEq] at he
      obtain ⟨rfl, rfl, rfl⟩ := he
      exact ⟨ha, h1.1, rfl, by omega, by omega⟩
  · rintro ⟨ha, h64, rfl, hlen, hn⟩
    rw [ha.udp]
    unfold classify_udp
    rw [if_pos ⟨h64, by omega, by omega⟩, hlen, Nat.add_sub_cancel]

/-! ## Frames from the MAC -/

/-- The state with a frame of `n` octets in the receive buffer. -/
def Net.loaded (s : Net σ) (rxb : Octets) (n : Nat) : Net σ :=
  { s with rxbuf := overlay s.rxbuf 2 (slice rxb 0 n), rcvd := n + 2 }

/-- The two octets before a frame, which the comparison by words takes in, are zero. -/
def Net.Padded (s : Net σ) : Prop := slice s.rxbuf 0 2 = [0, 0]

theorem eth_rx.spec (rxb : Octets) (rxlen : Word) (h : rxlen.toNat ≤ 1534) :
    eth_rx (net_init mac) cb s packet rxb rxlen =
      outcome mac cb (s.loaded rxb rxlen.toNat)
        (classify mac (s.loaded rxb rxlen.toNat).received) := by
  have hmax : ¬ rxlen > 1534 := Nat.not_lt.mpr h
  unfold eth_rx
  rw [if_neg hmax, put_ok _ _ _ _ (by simp; omega), ok_bind]
  exact net_rx_eth.spec mac (s.loaded rxb rxlen.toNat) packet cb (by simp [Net.loaded]; omega)

theorem eth_rx_long (rxb : Octets) (rxlen : Word) (h : 1534 < rxlen.toNat) :
    eth_rx (net_init mac) cb s packet rxb rxlen = .ok s := if_pos h

theorem received_loaded (rxb : Octets) (n : Nat) :
    (s.loaded rxb n).received = slice s.rxbuf 0 2 ++ slice rxb 0 n := by
  unfold Net.received Net.loaded
  rw [Nat.add_comm n 2, slice_append, slice_overlay_apart _ _ _ _ _ (by omega),
    slice_overlay_same _ _ _ _ (by simp)]

theorem Net.Padded.received_loaded {s : Net σ} (h : s.Padded) (rxb : Octets) (n : Nat) :
    (s.loaded rxb n).received = [0, 0] ++ slice rxb 0 n := by
  rw [net.received_loaded, h]

end os_workshop.net
