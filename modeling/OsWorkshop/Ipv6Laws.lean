-- The laws of the IPv6 stack between two nodes: a reply goes back to the
-- sender of the frame it answers, and what one node replies another node
-- receives, octet for octet.
import OsWorkshop.Ipv6Frames

open os_workshop.memory (Byte Word le32 word)
open os_workshop.octets

namespace os_workshop.net

variable {σ τ : Type}

/-! ## UDP replies -/

section

variable {src_port dst_port : List Byte} (src_ip dst_ip : List Byte)

/-- A UDP datagram with its checksum, field by field. -/
theorem udp_with_checksum (h1 : src_port.length = 2) (h2 : dst_port.length = 2)
    (data : List Byte) :
    with_checksum src_ip dst_ip IP_HDR_UDP 6 (udp_datagram src_port dst_port data) =
      (src_port ++ dst_port ++ be16 (BitVec.ofNat 16 (data.length + 8))) ++
        (le16 (stored_checksum src_ip dst_ip IP_HDR_UDP (udp_datagram src_port dst_port data)) ++ data) := by
  have e : udp_datagram src_port dst_port data =
      (src_port ++ dst_port ++ be16 (BitVec.ofNat 16 (data.length + 8))) ++ ([0, 0] ++ data) := by
    simp [udp_datagram]
  have hl : (src_port ++ dst_port ++ be16 (BitVec.ofNat 16 (data.length + 8))).length = 6 := by
    simp [h1, h2]
  have hl2 : (src_port ++ dst_port ++ be16 (BitVec.ofNat 16 (data.length + 8)) ++ [0, 0]).length =
      6 + 2 := by
    simp [h1, h2]
  unfold with_checksum
  generalize stored_checksum src_ip dst_ip IP_HDR_UDP (udp_datagram src_port dst_port data) = c
  rw [e, List.take_left' hl, ← List.append_assoc, List.drop_left' hl2, List.append_assoc]

theorem udp_datagram_length (h1 : src_port.length = 2) (h2 : dst_port.length = 2)
    (data : List Byte) :
    (udp_datagram src_port dst_port data).length = data.length + 8 := by
  simp [udp_datagram, h1, h2]
  omega

theorem udp_with_checksum_data (h1 : src_port.length = 2) (h2 : dst_port.length = 2)
    (data : List Byte) :
    part (with_checksum src_ip dst_ip IP_HDR_UDP 6 (udp_datagram src_port dst_port data)) 8
      data.length = data := by
  rw [udp_with_checksum src_ip dst_ip h1 h2 data, part_right _ _ _ _ (by simp [h1, h2]),
    part_right _ _ _ _ (by simp [h1, h2])]
  simp [h1, h2, part]

end

/-! ## The reply law -/

/-- `f` answers the received frame `r` with a packet of this interface. -/
structure Reply (mac : Mac) (r f : List Byte) (next : Byte) (payload : List Byte) : Prop where
  octets : f = part r 8 6 ++ mac.octets ++ [0x86, 0xDD] ++ [0x60, 0, 0, 0] ++
    be16 (BitVec.ofNat 16 payload.length) ++ [next] ++ [255] ++ ip6lla_from_ethmac mac ++
    part r 24 16 ++ payload
  length : f.length = 54 + payload.length
  /-- The length field holds the length itself. -/
  fits : (BitVec.ofNat 16 payload.length).toNat = payload.length

theorem Reply.of_frame (mac : Mac) (r : List Byte) (next : Byte) {payload : List Byte}
    (hr : 40 ≤ r.length) (hp : payload.length ≤ 1480) :
    Reply mac r (ip6_frame mac (part r 8 6) (part r 24 16) next payload) next payload where
  octets := by simp [ip6_frame, ip6_headers]
  length := by
    rw [ip6_frame, List.length_append, own_headers_length mac next (part_length _ _ _ (by omega))
      (part_length _ _ _ (by omega))]
  fits := by
    rw [BitVec.toNat_ofNat]
    exact Nat.mod_eq_of_lt (by omega)

/-- An accepted echo request. -/
def EchoRequest (mac : Mac) (r : List Byte) : Prop :=
  (∃ mcast, Accepted mac r mcast IP_HDR_ICMP) ∧ octet r 56 = ICMP_ECHO_REQUEST

/-- An accepted neighbor solicitation for the address of the interface. -/
def Solicitation (mac : Mac) (r : List Byte) : Prop :=
  (∃ mcast, Accepted mac r mcast IP_HDR_ICMP) ∧ octet r 56 = ICMP_NDP_N_SOLICIT ∧
    80 ≤ r.length ∧ octet r 57 = 0 ∧ part r 64 16 = ip6lla_from_ethmac mac

/-- The message of an echo reply, field by field. -/
theorem echo_with_checksum (src_ip dst_ip data : List Byte) (code : Byte) :
    with_checksum src_ip dst_ip IP_HDR_ICMP 2 ([ICMP_ECHO_REPLY, code, 0, 0] ++ data) =
      [ICMP_ECHO_REPLY, code] ++ (le16 (stored_checksum src_ip dst_ip IP_HDR_ICMP
        ([ICMP_ECHO_REPLY, code, 0, 0] ++ data)) ++ data) := by
  simp [with_checksum]

theorem an_echo_request_is_echoed (mac : Mac) (cb : Callback σ) (s : Net σ) (packet : Octets)
    (h : s.rcvd ≤ 1536) (he : EchoRequest mac s.received) :
    ∃ f p, net_rx_eth (net_init mac) cb s packet 0 s.rcvd = .ok (s.echoed.transmit f) ∧
      Reply mac s.received f IP_HDR_ICMP p ∧ p.length = s.rcvd - 56 ∧
      octet p 0 = ICMP_ECHO_REPLY ∧
      ∀ i, i ≠ 0 → i ≠ 2 → i ≠ 3 → octet p i = octet s.received (56 + i) := by
  obtain ⟨⟨m, hacc⟩, -⟩ := id he
  have h60 : 60 ≤ s.rcvd := by simpa using hacc.long
  have hp := echo_with_checksum (ip6lla_from_ethmac mac) (part s.received 24 16)
    (part s.received 60 (s.rcvd - 60)) (octet s.received 57)
  have hlen : (with_checksum (ip6lla_from_ethmac mac) (part s.received 24 16) IP_HDR_ICMP 2
      ([ICMP_ECHO_REPLY, octet s.received 57, 0, 0] ++ part s.received 60 (s.rcvd - 60))).length =
      s.rcvd - 56 := by
    rw [hp]
    simp only [List.length_append, List.length_cons, List.length_nil, le16_length]
    rw [part_length _ _ _ (by simp; omega)]
    omega
  rw [net_rx_eth.spec mac s packet cb h, classify_eq_echo.mpr he]
  refine ⟨_, _, rfl, ?_, hlen, ?_, ?_⟩
  · rw [← received_length s]
    exact Reply.of_frame mac s.received IP_HDR_ICMP (by simp; omega) (by simp at hlen ⊢; omega)
  · rw [hp]
    rfl
  · intro i h0 h2 h3
    rw [hp]
    by_cases h1 : i = 1
    · subst h1
      rfl
    · rw [octet_append_right _ _ _ (by simp; omega), octet_append_right _ _ _ (by simp; omega)]
      simp only [List.length_cons, List.length_nil, le16_length]
      by_cases hi : i < s.rcvd - 56
      · rw [octet_part _ _ _ _ (by omega)]
        congr 1
        omega
      · rw [octet_after _ _ (by rw [part_length _ _ _ (by simp; omega)]; omega),
          octet_after _ _ (by simp; omega)]

theorem a_solicitation_is_answered (mac : Mac) (cb : Callback σ) (s : Net σ) (packet : Octets)
    (h : s.rcvd ≤ 1536) (he : Solicitation mac s.received) :
    ∃ f c, net_rx_eth (net_init mac) cb s packet 0 s.rcvd = .ok (s.transmit f) ∧
      Reply mac s.received f IP_HDR_ICMP ([ICMP_NDP_N_ADVERTISE, 0] ++ le16 c ++ [0x60, 0, 0, 0] ++
        ip6lla_from_ethmac mac ++ [NDP_N_TGT_LL_ADDR, 1] ++ mac.octets) := by
  have h80 : 80 ≤ s.rcvd := by simpa using he.2.2.1
  obtain ⟨c, hp⟩ : ∃ c, with_checksum (ip6lla_from_ethmac mac) (part s.received 24 16) IP_HDR_ICMP 2
      (ndp_reply (net_init mac)) = [ICMP_NDP_N_ADVERTISE, 0] ++ le16 c ++ [0x60, 0, 0, 0] ++
        ip6lla_from_ethmac mac ++ [NDP_N_TGT_LL_ADDR, 1] ++ mac.octets := by
    have e2 : le32 0x60 = [0x60, 0, 0, 0] := by decide
    have e : ndp_reply (net_init mac) = [ICMP_NDP_N_ADVERTISE, 0] ++ ([0, 0] ++
        ([0x60, 0, 0, 0] ++ ip6lla_from_ethmac mac ++ [NDP_N_TGT_LL_ADDR, 1] ++ mac.octets)) := by
      unfold ndp_reply
      rw [e2]
      simp [net_init]
    refine ⟨stored_checksum (ip6lla_from_ethmac mac) (part s.received 24 16) IP_HDR_ICMP
      (ndp_reply (net_init mac)), ?_⟩
    unfold with_checksum
    generalize stored_checksum (ip6lla_from_ethmac mac) (part s.received 24 16) IP_HDR_ICMP
      (ndp_reply (net_init mac)) = c
    rw [e]
    simp
  rw [net_rx_eth.spec mac s packet cb h, classify_eq_solicitation.mpr he]
  refine ⟨advertisement mac s.received, c, rfl, ?_⟩
  rw [← hp]
  apply Reply.of_frame mac s.received IP_HDR_ICMP (by simp; omega)
  rw [with_checksum_length]
  · exact Nat.le_of_ble_eq_true rfl
  · exact Nat.le_of_ble_eq_true rfl

/-- Every frame is answered by the stack itself only when it asks for it, and every answer
goes back to where the frame came from. -/
theorem every_reply_answers_its_frame (mac : Mac) (cb : Callback σ) (s : Net σ) (packet : Octets)
    (h : s.rcvd ≤ 1536) :
    (EchoRequest mac s.received →
      ∃ f p, net_rx_eth (net_init mac) cb s packet 0 s.rcvd = .ok (s.echoed.transmit f) ∧
        Reply mac s.received f IP_HDR_ICMP p ∧ p.length = s.rcvd - 56 ∧
        octet p 0 = ICMP_ECHO_REPLY ∧
        ∀ i, i ≠ 0 → i ≠ 2 → i ≠ 3 → octet p i = octet s.received (56 + i)) ∧
    (Solicitation mac s.received →
      ∃ f c, net_rx_eth (net_init mac) cb s packet 0 s.rcvd = .ok (s.transmit f) ∧
        Reply mac s.received f IP_HDR_ICMP ([ICMP_NDP_N_ADVERTISE, 0] ++ le16 c ++
          [0x60, 0, 0, 0] ++ ip6lla_from_ethmac mac ++ [NDP_N_TGT_LL_ADDR, 1] ++ mac.octets)) ∧
    (¬ EchoRequest mac s.received → ¬ Solicitation mac s.received →
      net_rx_eth (net_init mac) cb s packet 0 s.rcvd = .ok s ∨
        ∃ len port mcast, net_rx_eth (net_init mac) cb s packet 0 s.rcvd = cb s 64 len port mcast) ∧
    (∀ (data : Ptr) (msg : List Byte) (port : Nat), 64 ≤ s.rcvd → s.load data msg.length = .ok msg →
      (msg.length ≤ 1472 →
        ∃ f c, net_tx_udp_reply (net_init mac) s packet 64 data msg.length port =
            .ok (s.transmit f) ∧
          Reply mac s.received f IP_HDR_UDP (be16 (BitVec.ofNat 16 port) ++
            part s.received 56 2 ++ be16 (BitVec.ofNat 16 (msg.length + 8)) ++ le16 c ++ msg)) ∧
      (1472 < msg.length →
        net_tx_udp_reply (net_init mac) s packet 64 data msg.length port = .ok s)) := by
  refine ⟨an_echo_request_is_echoed mac cb s packet h, a_solicitation_is_answered mac cb s packet h,
    ?_, ?_⟩
  · intro h1 h2
    rw [net_rx_eth.spec mac s packet cb h]
    cases hc : classify mac s.received with
    | ignored => exact .inl rfl
    | datagram port len mcast => exact .inr ⟨len, port, mcast, rfl⟩
    | echo => exact absurd (classify_eq_echo.mp hc) h1
    | solicitation => exact absurd (classify_eq_solicitation.mp hc) h2
  · intro data msg port h64 hload
    refine ⟨fun hmsg => ?_, net_tx_udp_reply_long mac s packet data msg.length port⟩
    have hsend := net_tx_udp_reply.spec mac s packet data msg msg.length port h h64 hmsg rfl hload
    rw [← part_received s (by omega), ← part_received s (by omega), ← part_received s (by omega)]
      at hsend
    obtain ⟨c, hp⟩ : ∃ c, with_checksum (ip6lla_from_ethmac mac) (part s.received 24 16) IP_HDR_UDP 6
        (udp_datagram (be16 (BitVec.ofNat 16 port)) (part s.received 56 2) msg) =
        be16 (BitVec.ofNat 16 port) ++ part s.received 56 2 ++
          be16 (BitVec.ofNat 16 (msg.length + 8)) ++ le16 c ++ msg := by
      refine ⟨stored_checksum (ip6lla_from_ethmac mac) (part s.received 24 16) IP_HDR_UDP
        (udp_datagram (be16 (BitVec.ofNat 16 port)) (part s.received 56 2) msg), ?_⟩
      rw [udp_with_checksum _ _ rfl (part_length s.received 56 2 (by simp; omega)) msg,
        ← List.append_assoc]
    rw [hp] at hsend
    refine ⟨_, c, hsend, ?_⟩
    apply Reply.of_frame mac s.received IP_HDR_UDP (by simp; omega)
    simp only [List.length_append, be16_length, le16_length]
    rw [part_length _ _ _ (by simp; omega)]
    omega

/-! ## Requests of another node -/

/-- The address that the loader passes to `net_init`. -/
def loader_mac : Mac := ⟨0x42, 0x42, 0x10, 0x20, 0x30, 0x40⟩

/-- The address that an interface has before `net_init`. -/
def other_mac : Mac := ⟨0x72, 0x72, 0xAA, 0xBB, 0xCC, 0xDD⟩

/-- The stack with a received frame in its buffer. -/
def Net.holding (r : List Byte) : Net Unit where
  rxbuf := slot r
  rcvd := r.length
  passed := []
  sent := []
  app := ()

theorem received_holding (r : List Byte) : (Net.holding r).received = r := slice_slot r

/-- An echo request of the other node to the loader. -/
def an_echo_request : List Byte :=
  padded_frame other_mac loader_mac.octets (ip6lla_from_ethmac loader_mac) IP_HDR_ICMP
    [ICMP_ECHO_REQUEST, 0, 0x12, 0x34, 0, 1, 0, 2, 0x61, 0x62, 0x63, 0x64]

/-- A neighbor solicitation of the other node for the loader. -/
def a_solicitation : List Byte :=
  padded_frame other_mac (ethmac_from_ip6mc (ip6ns_from_ethmac loader_mac))
    (ip6ns_from_ethmac loader_mac) IP_HDR_ICMP
    ([ICMP_NDP_N_SOLICIT, 0, 0, 0, 0, 0, 0, 0] ++ ip6lla_from_ethmac loader_mac)

/-- A UDP request of the other node to the loader, from port 0x1234. -/
def a_udp_request : List Byte :=
  padded_frame other_mac loader_mac.octets (ip6lla_from_ethmac loader_mac) IP_HDR_UDP
    [0x12, 0x34, 0xE4, 0xCC, 0, 9, 0, 0, 0x61]

theorem an_echo_request_is_accepted :
    EchoRequest loader_mac (Net.holding an_echo_request).received := by
  rw [received_holding]
  exact ⟨⟨false, by decide, by decide, by decide, by decide, by decide⟩, by decide⟩

theorem a_solicitation_is_accepted :
    Solicitation loader_mac (Net.holding a_solicitation).received := by
  rw [received_holding]
  exact ⟨⟨true, by decide, by decide, by decide, by decide, by decide⟩, by decide, by decide,
    by decide, by decide⟩

/-- The answers to an echo request, to a neighbor solicitation and to a datagram. -/
theorem three_replies_answer_their_frames :
    (∃ f p, net_rx_eth (net_init loader_mac) (fun s _ _ _ _ => .ok s) (Net.holding an_echo_request)
        (slot []) 0 68 = .ok ((Net.holding an_echo_request).echoed.transmit f) ∧
      Reply loader_mac (Net.holding an_echo_request).received f IP_HDR_ICMP p) ∧
    (∃ f p, net_rx_eth (net_init loader_mac) (fun s _ _ _ _ => .ok s) (Net.holding a_solicitation)
        (slot []) 0 80 = .ok ((Net.holding a_solicitation).transmit f) ∧
      Reply loader_mac (Net.holding a_solicitation).received f IP_HDR_ICMP p) ∧
    net_rx_eth (net_init loader_mac) (fun s _ _ _ _ => .ok s) (Net.holding []) (slot []) 0 0 =
      .ok (Net.holding []) ∧
    (∃ f p, net_tx_udp_reply (net_init loader_mac) (Net.holding a_udp_request) (slot []) 64
        (.obj [1, 2, 3]) 3 58572 = .ok ((Net.holding a_udp_request).transmit f) ∧
      Reply loader_mac (Net.holding a_udp_request).received f IP_HDR_UDP p) := by
  have he := every_reply_answers_its_frame loader_mac (fun s _ _ _ _ => .ok s)
    (Net.holding an_echo_request) (slot []) (by decide)
  have hs := every_reply_answers_its_frame loader_mac (fun s _ _ _ _ => .ok s)
    (Net.holding a_solicitation) (slot []) (by decide)
  have hn := every_reply_answers_its_frame loader_mac (fun s _ _ _ _ => .ok s)
    (Net.holding []) (slot []) (by decide)
  have hu := every_reply_answers_its_frame loader_mac (fun s _ _ _ _ => .ok s)
    (Net.holding a_udp_request) (slot []) (by decide)
  obtain ⟨f, p, h1, h2, -⟩ := he.1 an_echo_request_is_accepted
  obtain ⟨f', c, h3, h4⟩ := hs.2.1 a_solicitation_is_accepted
  obtain ⟨f'', c', h5, h6⟩ :=
    (hu.2.2.2 (.obj [1, 2, 3]) [1, 2, 3] 58572 (by decide) rfl).1 (by decide)
  refine ⟨⟨f, p, h1, h2⟩, ⟨f', _, h3, h4⟩, ?_, ⟨f'', _, h5, h6⟩⟩
  rcases hn.2.2.1 (fun h => absurd h.2 (by decide)) (fun h => absurd h.2.1 (by decide)) with h | h
  · exact h
  · obtain ⟨_, _, _, h⟩ := h
    exact h

/-! ## Replies between two nodes -/

/-- A UDP packet of `B` in a frame is a datagram of the message in it. -/
theorem classify_udp_frame (B : Mac) {dst_mac dst_ip src_port dst_port : List Byte}
    (msg : List Byte) (mcast : Bool) (hm : dst_mac.length = 6) (hip : dst_ip.length = 16)
    (h1 : src_port.length = 2) (h2 : dst_port.length = 2) (hmsg : msg.length ≤ 1472) :
    classify_udp (padded_frame B dst_mac dst_ip IP_HDR_UDP
      (with_checksum (ip6lla_from_ethmac B) dst_ip IP_HDR_UDP 6
        (udp_datagram src_port dst_port msg))) mcast =
      .datagram (field16 dst_port 0) msg.length mcast := by
  have hlen := with_checksum_length (ip6lla_from_ethmac B) dst_ip
    (udp_datagram src_port dst_port msg) IP_HDR_UDP 6 (by rw [udp_datagram_length h1 h2]; omega)
  rw [udp_datagram_length h1 h2] at hlen
  have hp := udp_with_checksum (ip6lla_from_ethmac B) dst_ip h1 h2 msg
  generalize with_checksum (ip6lla_from_ethmac B) dst_ip IP_HDR_UDP 6
    (udp_datagram src_port dst_port msg) = p at hlen hp ⊢
  have hhead : part p 0 6 = src_port ++ dst_port ++ be16 (BitVec.ofNat 16 (msg.length + 8)) := by
    rw [hp, part_left _ _ _ _ (by simp [h1, h2]), part_all _ _ (by simp [h1, h2])]
  have hr := padded_frame_length B IP_HDR_UDP p hm hip
  have hpay := frame_payload B IP_HDR_UDP p hm hip 0 6
  rw [hhead, Nat.add_zero] at hpay
  rw [hlen] at hr
  generalize padded_frame B dst_mac dst_ip IP_HDR_UDP p = F at hr hpay ⊢
  have hport : field16 F 58 = field16 dst_port 0 := by
    rw [← field16_part F 56 6 2 (by omega), hpay, field16_append_left _ _ _ (by simp [h1, h2]),
      field16_append_right _ _ _ (by omega), h1]
  have hulen : field16 F 60 = BitVec.ofNat 16 (msg.length + 8) := by
    rw [← field16_part F 56 6 4 (by omega), hpay, field16_append_right _ _ _ (by simp [h1, h2])]
    simp [h1, h2]
  unfold classify_udp
  rw [hr, hulen, hport, BitVec.toNat_ofNat, Nat.mod_eq_of_lt (by omega), if_pos (by omega)]
  rfl

/-- Every node that takes the packet in makes that of it. -/
theorem classify_datagram (A B : Mac) {dst_mac dst_ip src_port dst_port : List Byte}
    (msg : List Byte) (hm : dst_mac.length = 6) (hip : dst_ip.length = 16)
    (h1 : src_port.length = 2) (h2 : dst_port.length = 2) (hmsg : msg.length ≤ 1472) :
    classify A (padded_frame B dst_mac dst_ip IP_HDR_UDP
      (with_checksum (ip6lla_from_ethmac B) dst_ip IP_HDR_UDP 6
        (udp_datagram src_port dst_port msg))) =
      match takes_in A dst_mac dst_ip with
      | some mcast => .datagram (field16 dst_port 0) msg.length mcast
      | none => .ignored := by
  have hlen := with_checksum_length (ip6lla_from_ethmac B) dst_ip
    (udp_datagram src_port dst_port msg) IP_HDR_UDP 6 (by rw [udp_datagram_length h1 h2]; omega)
  rw [udp_datagram_length h1 h2] at hlen
  rw [classify_frame A B IP_HDR_UDP _ hm hip (by omega)]
  cases takes_in A dst_mac dst_ip with
  | none => rfl
  | some mcast =>
    dsimp only
    rw [if_neg (by decide), if_pos rfl, classify_udp_frame B msg mcast hm hip h1 h2 hmsg]

/-- A UDP packet of `B` to `A` is a datagram for the application of `A`. -/
theorem classify_reply (A B : Mac) (src_port dst_port msg : List Byte)
    (h1 : src_port.length = 2) (h2 : dst_port.length = 2) (hmsg : msg.length ≤ 1472) :
    classify A (padded_frame B A.octets (ip6lla_from_ethmac A) IP_HDR_UDP
      (with_checksum (ip6lla_from_ethmac B) (ip6lla_from_ethmac A) IP_HDR_UDP 6
        (udp_datagram src_port dst_port msg))) =
      .datagram (field16 dst_port 0) msg.length false := by
  have hin : takes_in A A.octets (ip6lla_from_ethmac A) = some false := by
    unfold takes_in
    rw [if_pos rfl, if_pos rfl]
  rw [classify_datagram A B msg rfl rfl h1 h2 hmsg, hin]

/-- What one node replies by UDP, the node it replies to hands to its application: the
same octets, at the port that the request came from. -/
theorem a_udp_reply_is_received (A B : Mac) (t : Net σ) (packet packet' : Octets) (data : Ptr)
    (msg : List Byte) (port : Nat) (a : Net τ) (cb : Callback τ) {p : BitVec 16} {n : Nat}
    {mcast : Bool} (hrcvd : t.rcvd ≤ 1536) (hacc : classify B t.received = .datagram p n mcast)
    (hmac : part t.received 8 6 = A.octets) (hip : part t.received 24 16 = ip6lla_from_ethmac A)
    (hload : t.load data msg.length = .ok msg) (hpad : a.Padded) :
    (msg.length ≤ 1472 →
      ∃ f, net_tx_udp_reply (net_init B) t packet 64 data msg.length port = .ok (t.transmit f) ∧
        eth_rx (net_init A) cb a packet' (slot f) (BitVec.ofNat 32 f.length) =
          cb (a.loaded (slot f) f.length) 64 msg.length (field16 t.received 56) false ∧
        slice (a.loaded (slot f) f.length).rxbuf 64 msg.length = msg) ∧
    (1472 < msg.length →
      net_tx_udp_reply (net_init B) t packet 64 data msg.length port = .ok t) := by
  refine ⟨fun hmsg => ?_, net_tx_udp_reply_long B t packet data msg.length port⟩
  have h64 : 64 ≤ t.rcvd := by
    have h := (classify_eq_datagram.mp hacc).2.1
    rwa [received_length] at h
  have hsrc : slice t.rxbuf 8 6 = A.octets := by rw [← part_received t (by omega), hmac]
  have hsrc_ip : slice t.rxbuf 24 16 = ip6lla_from_ethmac A := by
    rw [← part_received t (by omega), hip]
  have hport : field16 (slice t.rxbuf 56 2) 0 = field16 t.received 56 := by
    rw [← part_received t (by omega), field16_part _ _ _ _ (by omega)]
  have hsend := net_tx_udp_reply.spec B t packet data msg msg.length port hrcvd h64 hmsg rfl hload
  rw [hsrc, hsrc_ip] at hsend
  have hclass := classify_reply A B (be16 (BitVec.ofNat 16 port)) (slice t.rxbuf 56 2) msg rfl
    (by simp) hmsg
  have hdata := udp_with_checksum_data (ip6lla_from_ethmac B) (ip6lla_from_ethmac A)
    (be16_length (BitVec.ofNat 16 port)) (slice_length t.rxbuf 56 2) msg
  have hlen := with_checksum_length (ip6lla_from_ethmac B) (ip6lla_from_ethmac A)
    (udp_datagram (be16 (BitVec.ofNat 16 port)) (slice t.rxbuf 56 2) msg) IP_HDR_UDP 6
    (by rw [udp_datagram_length rfl (by simp)]; omega)
  rw [udp_datagram_length rfl (by simp)] at hlen
  refine ⟨_, hsend, ?_⟩
  generalize with_checksum (ip6lla_from_ethmac B) (ip6lla_from_ethmac A) IP_HDR_UDP 6
    (udp_datagram (be16 (BitVec.ofNat 16 port)) (slice t.rxbuf 56 2) msg) = p at hclass hdata hlen ⊢
  have hF := padded_frame_length B IP_HDR_UDP p (octets_length A) (ip6lla_length A)
  have hpay := frame_payload B IP_HDR_UDP p (octets_length A) (ip6lla_length A) 8 msg.length
  unfold padded_frame at hclass hF hpay
  generalize ip6_frame B A.octets (ip6lla_from_ethmac A) IP_HDR_UDP p = f at hclass hF hpay ⊢
  have hf : f.length = 62 + msg.length := by
    simp at hF
    omega
  have hr : (a.loaded (slot f) f.length).received = [0, 0] ++ f := by
    rw [hpad.received_loaded, slice_slot]
  have hn : (BitVec.ofNat 32 f.length).toNat = f.length := by
    rw [BitVec.toNat_ofNat]
    exact Nat.mod_eq_of_lt (by omega)
  constructor
  · rw [eth_rx.spec _ _ _ _ _ _ (by rw [hn]; omega), hn, hr, hclass, hport]
    rfl
  · rw [← part_received _ (by simp [Net.loaded]; omega), hr, hpay, hdata]

/-- The loader's reply to a datagram of the other node. -/
theorem a_udp_reply_of_three_octets_is_received :
    ∃ f, net_tx_udp_reply (net_init loader_mac) (Net.holding a_udp_request) (slot []) 64
        (.obj [1, 2, 3]) 3 58572 = .ok ((Net.holding a_udp_request).transmit f) ∧
      eth_rx (net_init other_mac) (fun s _ _ _ _ => .ok s) (Net.holding []) (slot []) (slot f)
          (BitVec.ofNat 32 f.length) = .ok ((Net.holding []).loaded (slot f) f.length) ∧
      slice ((Net.holding []).loaded (slot f) f.length).rxbuf 64 3 = [1, 2, 3] := by
  have hr := received_holding a_udp_request
  have h := a_udp_reply_is_received other_mac loader_mac (Net.holding a_udp_request) (slot [])
    (slot []) (.obj [1, 2, 3]) [1, 2, 3] 58572 (Net.holding []) (fun s _ _ _ _ => .ok s)
    (by decide) (by rw [hr]; exact (by decide : classify loader_mac a_udp_request =
      .datagram 58572 1 false)) (by rw [hr]; decide) (by rw [hr]; decide) rfl rfl
  exact h.1 (by decide)

end os_workshop.net
