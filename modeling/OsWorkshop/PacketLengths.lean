-- The three lengths of a received packet: the frame's, the IPv6 header's and
-- the UDP header's. The stack takes the first and the last and never looks at
-- the one in the middle.
import OsWorkshop.Ipv6Laws

open os_workshop.memory (Byte Word le32 word)
open os_workshop.octets

namespace os_workshop.net

/-! ## What the lengths should delimit -/

/-- The payload length field of the IPv6 header. -/
def payload_length (r : List Byte) : Nat := (field16 r 20).toNat

/-- An application that keeps which octets of the receive buffer it was handed. -/
def keep : Callback (List (Nat × Nat)) :=
  fun s data len _ _ => .ok { s with app := s.app ++ [(data, len)] }

/-- Only the octets of the IPv6 packet itself were handed on or carried back. -/
structure OnlyPacket (r : List Byte) (t : Net (List (Nat × Nat))) : Prop where
  delivered : ∀ c ∈ t.app, ∀ i, c.1 ≤ i → i < c.1 + c.2 → 56 ≤ i ∧ i < 56 + payload_length r
  echoed : ∀ f ∈ t.sent, octet f 54 = ICMP_ECHO_REPLY → f.length = 54 + payload_length r ∧
    ∀ i < payload_length r, i ≠ 0 → i ≠ 2 → i ≠ 3 → octet f (54 + i) = octet r (56 + i)
  dropped : r.length - 56 < payload_length r → t.app = [] ∧ t.sent = []

/-- An accepted UDP packet whose own length field fits the frame. -/
def Datagram (mac : Mac) (r : List Byte) : Prop :=
  (∃ mcast, Accepted mac r mcast IP_HDR_UDP) ∧ 64 ≤ r.length ∧ 8 ≤ (field16 r 60).toNat ∧
    (field16 r 60).toNat ≤ r.length - 56

/-- The payload length field agrees with the frame, and with the length of the datagram. -/
structure Delimited (mac : Mac) (r : List Byte) : Prop where
  echo : EchoRequest mac r → payload_length r = r.length - 56
  solicitation : Solicitation mac r → payload_length r ≤ r.length - 56
  datagram : Datagram mac r → payload_length r ≤ r.length - 56 ∧
    (8 < (field16 r 60).toNat → (field16 r 60).toNat ≤ payload_length r)

/-! ## The three kinds of packets -/

section

variable {mac : Mac} {s : Net (List (Nat × Nat))} (packet : Octets)

theorem datagram_classified {r : List Byte} (h : Datagram mac r) :
    ∃ mcast, classify mac r = .datagram (field16 r 58) ((field16 r 60).toNat - 8) mcast := by
  obtain ⟨⟨m, hacc⟩, h64, h8, hfit⟩ := h
  exact ⟨m, classify_eq_datagram.mpr ⟨hacc, h64, rfl, by omega, by omega⟩⟩

/-- An echo request is carried back whole with whatever follows it in the frame. -/
theorem echo_only_packet (h : s.rcvd ≤ 1536) (happ : s.app = []) (hsent : s.sent = [])
    (he : EchoRequest mac s.received) :
    ∃ t, net_rx_eth (net_init mac) keep s packet 0 s.rcvd = .ok t ∧
      (OnlyPacket s.received t ↔ payload_length s.received = s.rcvd - 56) := by
  obtain ⟨f, p, hrun, hreply, hlen, h0, hsame⟩ := an_echo_request_is_echoed mac keep s packet h he
  obtain ⟨⟨m, hacc⟩, -⟩ := id he
  have h60 : 60 ≤ s.rcvd := by simpa using hacc.long
  have hf (i : Nat) : octet f (54 + i) = octet p i := by
    rw [hreply.octets, octet_append_right]
    · congr 1
      simp [part_length _ _ _ (show 8 + 6 ≤ s.received.length by simp; omega),
        part_length _ _ _ (show 24 + 16 ≤ s.received.length by simp; omega)]
    · simp [part_length _ _ _ (show 8 + 6 ≤ s.received.length by simp; omega),
        part_length _ _ _ (show 24 + 16 ≤ s.received.length by simp; omega)]
  have hsends : (s.echoed.transmit f).sent = [f] := by
    change s.sent ++ [f] = [f]
    rw [hsent]
    rfl
  refine ⟨_, hrun, ?_, ?_⟩
  · intro ho
    have := (ho.echoed f (by rw [hsends]; simp) (by rw [← h0]; exact hf 0)).1
    rw [hreply.length, hlen] at this
    omega
  · intro hp
    refine ⟨?_, ?_, ?_⟩
    · intro c hc
      have happ' : (s.echoed.transmit f).app = [] := happ
      rw [happ'] at hc
      simp at hc
    · intro g hg _
      rw [hsends, List.mem_singleton] at hg
      subst hg
      refine ⟨by rw [hreply.length, hlen, hp], ?_⟩
      intro i _ hi0 hi2 hi3
      rw [hf, hsame i hi0 hi2 hi3]
    · intro hlt
      rw [received_length] at hlt
      omega

/-- A solicitation is answered whatever its payload length is. -/
theorem solicitation_only_packet (h : s.rcvd ≤ 1536) (happ : s.app = []) (hsent : s.sent = [])
    (he : Solicitation mac s.received) :
    ∃ t, net_rx_eth (net_init mac) keep s packet 0 s.rcvd = .ok t ∧
      (OnlyPacket s.received t ↔ payload_length s.received ≤ s.rcvd - 56) := by
  obtain ⟨f, c, hrun, hreply⟩ := a_solicitation_is_answered mac keep s packet h he
  have h80 : 80 ≤ s.rcvd := by simpa using he.2.2.1
  have hf : octet f 54 = ICMP_NDP_N_ADVERTISE := by
    rw [hreply.octets, octet_append_right]
    · simp [part_length _ _ _ (show 8 + 6 ≤ s.received.length by simp; omega),
        part_length _ _ _ (show 24 + 16 ≤ s.received.length by simp; omega)]
      rfl
    · simp [part_length _ _ _ (show 8 + 6 ≤ s.received.length by simp; omega),
        part_length _ _ _ (show 24 + 16 ≤ s.received.length by simp; omega)]
  have hsends : (s.transmit f).sent = [f] := by
    change s.sent ++ [f] = [f]
    rw [hsent]
    rfl
  have happ' : (s.transmit f).app = [] := happ
  refine ⟨_, hrun, ?_, ?_⟩
  · intro ho
    by_contra hn
    have hlt : s.received.length - 56 < payload_length s.received := by
      rw [received_length]
      omega
    have := (ho.dropped hlt).2
    rw [hsends] at this
    simp at this
  · intro hp
    refine ⟨?_, ?_, ?_⟩
    · intro c hc
      rw [happ'] at hc
      simp at hc
    · intro g hg hecho
      rw [hsends, List.mem_singleton] at hg
      subst hg
      rw [hf] at hecho
      exact absurd hecho (by decide)
    · intro hlt
      rw [received_length] at hlt
      omega

/-- A datagram is handed on by its own length. -/
theorem datagram_only_packet (h : s.rcvd ≤ 1536) (happ : s.app = []) (hsent : s.sent = [])
    (he : Datagram mac s.received) :
    ∃ t, net_rx_eth (net_init mac) keep s packet 0 s.rcvd = .ok t ∧
      (OnlyPacket s.received t ↔ payload_length s.received ≤ s.rcvd - 56 ∧
        (8 < (field16 s.received 60).toNat →
          (field16 s.received 60).toNat ≤ payload_length s.received)) := by
  obtain ⟨m, hc⟩ := datagram_classified he
  obtain ⟨-, -, h8, hfit⟩ := he
  rw [received_length] at hfit
  rw [net_rx_eth.spec mac s packet keep h, hc]
  refine ⟨{ s with app := s.app ++ [(64, (field16 s.received 60).toNat - 8)] }, rfl, ?_, ?_⟩
  · intro ho
    constructor
    · by_contra hn
      have hlt : s.received.length - 56 < payload_length s.received := by
        rw [received_length]
        omega
      have := (ho.dropped hlt).1
      simp at this
    · intro h8'
      have := (ho.delivered (64, (field16 s.received 60).toNat - 8) (by simp)
        (56 + (field16 s.received 60).toNat - 1) (by dsimp only; omega) (by dsimp only; omega)).2
      omega
  · rintro ⟨hp, hdata⟩
    refine ⟨?_, ?_, ?_⟩
    · intro c hc i h1 h2
      simp only [happ, List.nil_append, List.mem_singleton] at hc
      subst hc
      dsimp only at h1 h2
      have := hdata (by omega)
      omega
    · intro f hf
      simp only [hsent, List.not_mem_nil] at hf
    · intro hlt
      rw [received_length] at hlt
      omega

/-- A packet of no such kind leads to nothing. -/
theorem other_only_packet (h : s.rcvd ≤ 1536) (happ : s.app = []) (hsent : s.sent = [])
    (h1 : ¬ EchoRequest mac s.received) (h2 : ¬ Solicitation mac s.received)
    (h3 : ¬ Datagram mac s.received) :
    ∃ t, net_rx_eth (net_init mac) keep s packet 0 s.rcvd = .ok t ∧ OnlyPacket s.received t := by
  refine ⟨s, ?_, ?_, ?_, fun _ => ⟨happ, hsent⟩⟩
  · rw [net_rx_eth.spec mac s packet keep h]
    cases hc : classify mac s.received with
    | ignored => rfl
    | datagram port len mcast =>
      obtain ⟨hacc, h64, -, hlen, hfit⟩ := classify_eq_datagram.mp hc
      exact absurd ⟨⟨mcast, hacc⟩, h64, by omega, by omega⟩ h3
    | echo => exact absurd (classify_eq_echo.mp hc) h1
    | solicitation => exact absurd (classify_eq_solicitation.mp hc) h2
  · intro c hc
    rw [happ] at hc
    simp at hc
  · intro f hf
    rw [hsent] at hf
    simp at hf

end

/-! ## The law -/

/-- A packet is one of the kinds only. -/
theorem kinds_are_apart {mac : Mac} {r : List Byte} :
    (EchoRequest mac r → ¬ Solicitation mac r ∧ ¬ Datagram mac r) ∧
    (Solicitation mac r → ¬ Datagram mac r) := by
  refine ⟨fun he => ⟨fun hs => ?_, fun hd => ?_⟩, fun hs hd => ?_⟩
  · exact absurd (he.2.symm.trans hs.2.1) (by decide)
  · obtain ⟨_, ha⟩ := he.1
    obtain ⟨_, hb⟩ := hd.1
    exact absurd (ha.next.symm.trans hb.next) (by decide)
  · obtain ⟨_, ha⟩ := hs.1
    obtain ⟨_, hb⟩ := hd.1
    exact absurd (ha.next.symm.trans hb.next) (by decide)

/-- Only the octets of the IPv6 packet are processed exactly when the payload length field,
which the stack does not read, agrees with the lengths that it does read. -/
theorem only_the_packet_is_processed (mac : Mac) (s : Net (List (Nat × Nat))) (packet : Octets)
    (h : s.rcvd ≤ 1536) (happ : s.app = []) (hsent : s.sent = []) :
    ∃ t, net_rx_eth (net_init mac) keep s packet 0 s.rcvd = .ok t ∧
      (OnlyPacket s.received t ↔ Delimited mac s.received) := by
  have hn := @kinds_are_apart mac s.received
  by_cases h1 : EchoRequest mac s.received
  · obtain ⟨t, hrun, hiff⟩ := echo_only_packet packet h happ hsent h1
    refine ⟨t, hrun, hiff.trans ⟨fun hp => ⟨fun _ => ?_, fun hs => ?_, fun hd => ?_⟩, fun hd => ?_⟩⟩
    · rw [received_length, hp]
    · exact absurd hs (hn.1 h1).1
    · exact absurd hd (hn.1 h1).2
    · rw [hd.echo h1, received_length]
  · by_cases h2 : Solicitation mac s.received
    · obtain ⟨t, hrun, hiff⟩ := solicitation_only_packet packet h happ hsent h2
      refine ⟨t, hrun, hiff.trans ⟨fun hp => ⟨fun he => ?_, fun _ => ?_, fun hd => ?_⟩, fun hd => ?_⟩⟩
      · exact absurd he h1
      · rw [received_length]
        exact hp
      · exact absurd hd (hn.2 h2)
      · have := hd.solicitation h2
        rwa [received_length] at this
    · by_cases h3 : Datagram mac s.received
      · obtain ⟨t, hrun, hiff⟩ := datagram_only_packet packet h happ hsent h3
        refine ⟨t, hrun, hiff.trans ⟨fun hp => ⟨fun he => ?_, fun hs => ?_, fun _ => ?_⟩, fun hd => ?_⟩⟩
        · exact absurd he h1
        · exact absurd hs h2
        · rw [received_length]
          exact hp
        · have := hd.datagram h3
          rwa [received_length] at this
      · obtain ⟨t, hrun, ho⟩ := other_only_packet packet h happ hsent h1 h2 h3
        exact ⟨t, hrun, fun _ => ⟨fun he => absurd he h1, fun hs => absurd hs h2,
          fun hd => absurd hd h3⟩, fun _ => ho⟩

/-- An echo request with two octets of padding behind it in the frame. -/
def a_padded_echo_request : List Byte := an_echo_request ++ [0xAA, 0xBB]

/-- The stack with a received frame in its buffer, and nothing handed on yet. -/
def holding (r : List Byte) : Net (List (Nat × Nat)) where
  rxbuf := slot r
  rcvd := r.length
  passed := []
  sent := []
  app := []

theorem received_holding' (r : List Byte) : (holding r).received = r := slice_slot r

theorem a_padded_echo_request_is_accepted : EchoRequest loader_mac a_padded_echo_request :=
  ⟨⟨false, by decide, by decide, by decide, by decide, by decide⟩, by decide⟩

/-- The padding is echoed too. -/
theorem padding_is_echoed :
    ∃ t, net_rx_eth (net_init loader_mac) keep (holding a_padded_echo_request) (slot []) 0 70 = .ok t ∧
      ¬ OnlyPacket a_padded_echo_request t := by
  have hr := received_holding' a_padded_echo_request
  have he : EchoRequest loader_mac (holding a_padded_echo_request).received := by
    rw [hr]
    exact a_padded_echo_request_is_accepted
  obtain ⟨t, hrun, hiff⟩ := echo_only_packet (slot []) (by decide) rfl rfl he
  refine ⟨t, hrun, ?_⟩
  rw [hr] at hiff
  rw [hiff]
  decide

/-- An echo request without padding. -/
theorem only_an_echo_request_is_processed :
    ∃ t, net_rx_eth (net_init loader_mac) keep (holding an_echo_request) (slot []) 0 68 = .ok t ∧
      (OnlyPacket (holding an_echo_request).received t ↔
        Delimited loader_mac (holding an_echo_request).received) :=
  only_the_packet_is_processed loader_mac (holding an_echo_request) (slot []) (by decide) rfl rfl

end os_workshop.net
