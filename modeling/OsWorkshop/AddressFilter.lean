-- Which frames reach a handler (src/net/ipv6.c): the comparison of two words
-- with a padded address takes in just the frames that an octet by octet
-- comparison would, as long as the padding in the receive buffer is zero.
import OsWorkshop.TargetMessages

open os_workshop.memory (Byte Word Mem le32 word)
open os_workshop.octets
open os_workshop.runs
open os_workshop.netboot

namespace os_workshop.net

variable {σ : Type}

/-! ## The way to a handler -/

/-- The handlers that `net_rx_ip6` calls. -/
inductive Handler
  | net_rx_icmp6
  | net_rx_udp6
deriving DecidableEq

/-- `net_rx_ip6` up to its call of a handler, with the `mcast` of that call. -/
def rx_ip6_handler (ifc : Ifc) (s : Net σ) (data : Nat) (mcast : Bool) :
    Except Fault (Option (Handler × Bool)) := do
  let dst ← s.hdr (data + 24) 16
  if mcast then
    if dst ≠ mcast_ll_ip6 ∧ dst ≠ ifc.mcast_ns_ip6 then
      return none
  else
    if dst ≠ ifc.ifc_ll_ip6 then
      return none
  let next_header ← s.hdr8 (data + 6)
  if next_header = IP_HDR_ICMP then
    return some (.net_rx_icmp6, mcast)
  else if next_header = IP_HDR_UDP then
    return some (.net_rx_udp6, mcast)
  else
    return none

/-- `net_rx_eth` up to that call, with its comparisons by words. -/
def rx_eth_handler (ifc : Ifc) (s : Net σ) (data len : Nat) :
    Except Fault (Option (Handler × Bool)) := do
  if len < 60 then
    return none
  let type ← s.hdr16 (data + 14)
  if type ≠ swap16 ETH_TYPE_IP6 then
    return none
  let w0 ← s.hdr32 data
  let w1 ← s.hdr32 (data + 4)
  if w0 = field32 ifc.m_ifc_mac 0 ∧ w1 = field32 ifc.m_ifc_mac 4 then
    rx_ip6_handler ifc s (data + 16) false
  else if w0 = field32 ifc.m_ns_mac 0 ∧ w1 = field32 ifc.m_ns_mac 4 then
    rx_ip6_handler ifc s (data + 16) true
  else if w0 = field32 m_ll_mac 0 ∧ w1 = field32 m_ll_mac 4 then
    rx_ip6_handler ifc s (data + 16) true
  else
    return none

/-- The call of a handler on the received frame. -/
def call_handler (mac : Mac) (cb : Callback σ) (s : Net σ) (packet : Octets) :
    Option (Handler × Bool) → Except Fault (Net σ)
  | none => .ok s
  | some (.net_rx_icmp6, _) => net_rx_icmp6 (net_init mac) s packet 56 (s.rcvd - 56)
  | some (.net_rx_udp6, mcast) => net_rx_udp6 cb s 56 (s.rcvd - 56) mcast

/-! ## The pure model -/

def ip6_handler (mac : Mac) (r : List Byte) (mcast : Bool) : Option (Handler × Bool) :=
  if ours mac r mcast then
    if octet r 22 = IP_HDR_ICMP then some (.net_rx_icmp6, mcast)
    else if octet r 22 = IP_HDR_UDP then some (.net_rx_udp6, mcast)
    else none
  else none

/-- The handler that a received frame gets to. -/
def handler (mac : Mac) (r : List Byte) : Option (Handler × Bool) :=
  if 60 ≤ r.length ∧ part r 14 2 = [0x86, 0xDD] then
    match addressed mac r with
    | some mcast => ip6_handler mac r mcast
    | none => none
  else none

section

variable (mac : Mac) (s : Net σ) (packet : Octets) (cb : Callback σ)

theorem rx_ip6_handler.spec (mcast : Bool) (h : s.rcvd ≤ 1536) (h60 : 60 ≤ s.rcvd) :
    rx_ip6_handler (net_init mac) s 16 mcast = .ok (ip6_handler mac s.received mcast) := by
  have hrest : (do
      let next_header ← s.hdr8 (16 + 6)
      if next_header = IP_HDR_ICMP then
        return some (Handler.net_rx_icmp6, mcast)
      else if next_header = IP_HDR_UDP then
        return some (Handler.net_rx_udp6, mcast)
      else return none) =
      (Except.ok (if octet s.received 22 = IP_HDR_ICMP then some (Handler.net_rx_icmp6, mcast)
        else if octet s.received 22 = IP_HDR_UDP then some (.net_rx_udp6, mcast)
        else none) : Except Fault _) := by
    rw [Net.hdr8.spec s (by omega) h, ok_bind]
    split_ifs <;> rfl
  unfold rx_ip6_handler ip6_handler
  rw [Net.hdr.spec s (by omega) h, ok_bind]
  refine (guards_ours mac s.received mcast _ _).trans ?_
  by_cases ho : ours mac s.received mcast
  · rw [if_pos ho, if_pos ho]
    exact hrest
  · rw [if_neg ho, if_neg ho]
    rfl

theorem word_inj {a b c d a' b' c' d' : Byte} :
    word a b c d = word a' b' c' d' ↔ [a, b, c, d] = [a', b', c', d'] := by
  constructor
  · intro h
    rw [← le32_word, ← le32_word, h]
  · intro h
    simp only [List.cons.injEq, and_true] at h
    obtain ⟨rfl, rfl, rfl, rfl⟩ := h
    rfl

theorem part_four (r : List Byte) {i : Nat} (h : i + 4 ≤ r.length) :
    part r i 4 = [octet r i, octet r (i + 1), octet r (i + 2), octet r (i + 3)] := by
  rw [part_add r i 3 1, part_add r i 2 1, part_add r i 1 1, part_one r (by omega),
    part_one r (by omega), part_one r (by omega), part_one r (by omega)]
  rfl

/-- Two words are the same when their four octets are. -/
theorem field32_eq_iff {r l : List Byte} {i j : Nat} (hr : i + 4 ≤ r.length)
    (hl : j + 4 ≤ l.length) : field32 r i = field32 l j ↔ part r i 4 = part l j 4 := by
  unfold field32
  rw [word_inj, part_four r hr, part_four l hl]

/-- The comparison by words is that of all eight octets. -/
theorem words_eq_iff {r l : List Byte} (hr : 8 ≤ r.length) (hl : l.length = 8) :
    (field32 r 0 = field32 l 0 ∧ field32 r (0 + 4) = field32 l 4) ↔ part r 0 8 = l := by
  rw [field32_eq_iff (by omega) (by omega), field32_eq_iff (by omega) (by omega)]
  exact part_words r l hr hl

theorem rx_eth_handler.spec (h : s.rcvd ≤ 1536) :
    rx_eth_handler (net_init mac) s 0 s.rcvd = .ok (handler mac s.received) := by
  unfold rx_eth_handler handler
  rw [received_length]
  by_cases h60 : 60 ≤ s.rcvd
  · have hw := fun l (hl : l.length = 8) => @words_eq_iff s.received l (by simp; omega) hl
    rw [if_neg (by omega), Net.hdr16.spec s (by omega) h, ok_bind]
    by_cases htype : part s.received 14 2 = [0x86, 0xDD]
    · rw [if_neg (not_not.mpr ((type_word _ (by simp; omega)).mpr htype)), if_pos ⟨h60, htype⟩]
      rw [hdr32.spec (by omega) h, ok_bind, hdr32.spec (by omega) h, ok_bind]
      simp only [hw (net_init mac).m_ifc_mac rfl, hw (net_init mac).m_ns_mac rfl, hw m_ll_mac rfl]
      unfold addressed
      by_cases h1 : part s.received 0 8 = (net_init mac).m_ifc_mac
      · rw [if_pos h1, if_pos h1]
        exact rx_ip6_handler.spec mac s false h h60
      · rw [if_neg h1, if_neg h1]
        by_cases h2 : part s.received 0 8 = (net_init mac).m_ns_mac
        · rw [if_pos h2, if_pos h2]
          exact rx_ip6_handler.spec mac s true h h60
        · rw [if_neg h2, if_neg h2]
          by_cases h3 : part s.received 0 8 = m_ll_mac
          · rw [if_pos h3, if_pos h3]
            exact rx_ip6_handler.spec mac s true h h60
          · rw [if_neg h3, if_neg h3]
            rfl
    · rw [if_pos (mt (type_word _ (by simp; omega)).mp htype), if_neg (by tauto)]
      rfl
  · rw [if_pos (by omega), if_neg (by tauto)]
    rfl

theorem classify_of_handler (r : List Byte) : classify mac r =
    match handler mac r with
    | none => .ignored
    | some (.net_rx_icmp6, _) => classify_icmp mac r
    | some (.net_rx_udp6, mcast) => classify_udp r mcast := by
  unfold classify handler
  split_ifs
  · cases addressed mac r with
    | none => rfl
    | some mcast =>
      dsimp only
      unfold classify_ip6 ip6_handler
      split_ifs <;> rfl
  · rfl

/-- The receive path is the way to a handler, and then its call. -/
theorem net_rx_eth.calls (h : s.rcvd ≤ 1536) :
    net_rx_eth (net_init mac) cb s packet 0 s.rcvd =
      rx_eth_handler (net_init mac) s 0 s.rcvd >>= call_handler mac cb s packet := by
  rw [net_rx_eth.spec mac s packet cb h, rx_eth_handler.spec mac s h, ok_bind,
    classify_of_handler]
  have h60 : handler mac s.received ≠ none → 60 ≤ s.rcvd := by
    intro hne
    by_contra hlt
    apply hne
    unfold handler
    rw [received_length, if_neg (by tauto)]
  rcases hh : handler mac s.received with _ | ⟨⟨⟩, mcast⟩
  · rfl
  · exact (net_rx_icmp6.spec mac s packet cb h (h60 (by rw [hh]; simp))).symm
  · exact (net_rx_udp6.spec mac s cb mcast h (h60 (by rw [hh]; simp))).symm

end

/-! ## Octet by octet

A frame `f` from the MAC has `dst` at 0, the Ethernet type at 12, `next_header` at 20 and the
IPv6 destination at 38. -/

/-- The address of one interface, not of a group. -/
def Mac.Unicast (mac : Mac) : Prop := mac.m0.getLsbD 0 = false

instance (mac : Mac) : Decidable mac.Unicast := inferInstanceAs (Decidable (_ = _))

def Handler.protocol : Handler → Byte
  | .net_rx_icmp6 => 58
  | .net_rx_udp6 => 17

/-- The addresses of the frame are those of the interface, by unicast or by multicast. -/
def ToInterface (mac : Mac) (f : List Byte) : Bool → Prop
  | false =>
    part f 0 6 = [mac.m0, mac.m1, mac.m2, mac.m3, mac.m4, mac.m5] ∧
    part f 38 16 = [0xFE, 0x80, 0, 0, 0, 0, 0, 0,
      mac.m0 ^^^ 2, mac.m1, mac.m2, 0xFF, 0xFE, mac.m3, mac.m4, mac.m5]
  | true =>
    (part f 0 6 = [0x33, 0x33, 0, 0, 0, 1] ∨
      part f 0 6 = [0x33, 0x33, 0xFF, mac.m3, mac.m4, mac.m5]) ∧
    (part f 38 16 = [0xFF, 0x02, 0, 0, 0, 0, 0, 0, 0, 0, 0, 0, 0, 0, 0, 1] ∨
      part f 38 16 =
        [0xFF, 0x02, 0, 0, 0, 0, 0, 0, 0, 0, 0, 1, 0xFF, mac.m3, mac.m4, mac.m5])

section

variable {mac : Mac} {f : List Byte}

/-- Behind two octets of padding that are zero, the padded address is met when the address is. -/
theorem padded_address_iff (l : List Byte) :
    part ([0, 0] ++ f) 0 8 = [0, 0] ++ l ↔ part f 0 6 = l := by
  have e : part ([0, 0] ++ f) 0 8 = [0, 0] ++ part f 0 6 := rfl
  rw [e]
  exact List.append_right_inj _

/-- Other padding meets no address. -/
theorem addressed_of_padding {r : List Byte} (h : ∀ l, part r 0 8 ≠ [0, 0] ++ l) :
    addressed mac r = none := by
  have h1 : part r 0 8 ≠ (net_init mac).m_ifc_mac := h _
  have h2 : part r 0 8 ≠ (net_init mac).m_ns_mac := h _
  have h3 : part r 0 8 ≠ m_ll_mac := h [0x33, 0x33, 0, 0, 0, 1]
  unfold addressed
  rw [if_neg h1, if_neg h2, if_neg h3]

theorem addressed_iff (hu : mac.Unicast) (mcast : Bool) :
    addressed mac ([0, 0] ++ f) = some mcast ∧ ours mac ([0, 0] ++ f) mcast ↔
      ToInterface mac f mcast := by
  have h1 : part ([0, 0] ++ f) 0 8 = (net_init mac).m_ifc_mac ↔ part f 0 6 = mac.octets :=
    padded_address_iff _
  have h2 : part ([0, 0] ++ f) 0 8 = (net_init mac).m_ns_mac ↔
      part f 0 6 = [0x33, 0x33, 0xFF, mac.m3, mac.m4, mac.m5] := padded_address_iff _
  have h3 : part ([0, 0] ++ f) 0 8 = m_ll_mac ↔ part f 0 6 = [0x33, 0x33, 0, 0, 0, 1] :=
    padded_address_iff _
  have hdst : part ([0, 0] ++ f) 40 16 = part f 38 16 := rfl
  -- the address of an interface is no multicast address
  have hne : ∀ l, mac.octets ≠ 0x33 :: l := by
    intro l he
    have h0 : mac.m0 = 0x33 := (List.cons.inj he).1
    unfold Mac.Unicast at hu
    rw [h0] at hu
    exact absurd hu (by decide)
  unfold addressed
  simp only [h1, h2, h3]
  cases mcast with
  | false =>
    unfold ours ToInterface
    rw [hdst]
    by_cases hm : part f 0 6 = mac.octets
    · rw [if_pos hm]
      exact ⟨fun h => ⟨hm, h.2⟩, fun h => ⟨rfl, h.2⟩⟩
    · rw [if_neg hm]
      constructor
      · rintro ⟨h, -⟩
        split_ifs at h <;> simp at h
      · exact fun h => absurd h.1 hm
  | true =>
    unfold ours ToInterface
    rw [hdst]
    by_cases hm : part f 0 6 = mac.octets
    · rw [if_pos hm]
      constructor
      · rintro ⟨h, -⟩
        simp at h
      · rintro ⟨h | h, -⟩
        · exact absurd (hm.symm.trans h) (hne _)
        · exact absurd (hm.symm.trans h) (hne _)
    · rw [if_neg hm]
      constructor
      · rintro ⟨h, ho⟩
        refine ⟨?_, ho⟩
        split_ifs at h with hn hl
        · exact Or.inr hn
        · exact Or.inl hl
      · rintro ⟨h, ho⟩
        refine ⟨?_, ho⟩
        rcases h with h | h
        · rw [if_pos h, ite_self]
        · rw [if_pos h]

theorem ip6_handler_iff (r : List Byte) (m : Bool) (h : Handler) (mcast : Bool) :
    ip6_handler mac r m = some (h, mcast) ↔ octet r 22 = h.protocol ∧ m = mcast ∧ ours mac r m := by
  have hne : IP_HDR_UDP ≠ IP_HDR_ICMP := by decide
  unfold ip6_handler
  by_cases ho : ours mac r m
  · rw [if_pos ho]
    cases h with
    | net_rx_icmp6 =>
      have e : Handler.net_rx_icmp6.protocol = IP_HDR_ICMP := rfl
      rw [e]
      split_ifs with h1 h2 <;> simp [h1, ho]
    | net_rx_udp6 =>
      have e : Handler.net_rx_udp6.protocol = IP_HDR_UDP := rfl
      rw [e]
      split_ifs with h1 h2
      · simp [h1, hne.symm]
      · simp [h2, ho]
      · simp [h2]
  · rw [if_neg ho]
    simp [ho]

/-- A frame gets to a handler when its type, its next header and its addresses say so. -/
theorem handler_iff (hu : mac.Unicast) (hlen : 58 ≤ f.length) (h : Handler) (mcast : Bool) :
    handler mac ([0, 0] ++ f) = some (h, mcast) ↔
      part f 12 2 = [0x86, 0xDD] ∧ octet f 20 = h.protocol ∧ ToInterface mac f mcast := by
  have htype : part ([0, 0] ++ f) 14 2 = part f 12 2 := rfl
  have hnext : octet ([0, 0] ++ f) 22 = octet f 20 := octet_append_right _ _ _ (by simp)
  have hto := @addressed_iff mac f hu mcast
  unfold handler
  rw [List.length_append, htype]
  by_cases ht : part f 12 2 = [0x86, 0xDD]
  · rw [if_pos ⟨by simp; omega, ht⟩, ← hto]
    cases ha : addressed mac ([0, 0] ++ f) with
    | none => simp
    | some m =>
      dsimp only
      rw [ip6_handler_iff, hnext]
      constructor
      · rintro ⟨hn, rfl, ho⟩
        exact ⟨ht, hn, rfl, ho⟩
      · rintro ⟨-, hn, he, ho⟩
        obtain rfl : m = mcast := Option.some.inj he
        exact ⟨hn, rfl, ho⟩
  · rw [if_neg fun hc => ht hc.2]
    constructor
    · intro hc
      cases hc
    · exact fun hc => absurd hc.1 ht

end

/-! ## After any history -/

/-- After any history of frames, none of them an EXEC or a WRITE to the loader's own memory,
a frame gets to a handler exactly when an octet by octet comparison says so, and the padded
addresses belong to the IPv6 addresses. -/
theorem the_filter_is_exact (L : Loader) (mac : Mac) (hu : mac.Unicast) {mem : Mem}
    {as : List Arrival} {s : Net Ram} (hrun : Run (takes L mac) (power_on mem) as s)
    (packet rxb : Octets) (rxlen : Word) (hmin : 58 ≤ rxlen.toNat) (hmax : rxlen.toNat ≤ 1534) :
    (s.loaded rxb rxlen.toNat).Padded ∧
    (∃ r, rx_eth_handler (net_init mac) (s.loaded rxb rxlen.toNat) 0 (rxlen.toNat + 2) = .ok r ∧
      receive L mac s packet rxb rxlen =
        call_handler mac (pkt_rx_udp L (net_init mac) packet) (s.loaded rxb rxlen.toNat) packet r ∧
      ∀ h mcast, r = some (h, mcast) ↔
        part (slice rxb 0 rxlen.toNat) 12 2 = [0x86, 0xDD] ∧
        octet (slice rxb 0 rxlen.toNat) 20 = h.protocol ∧
        ToInterface mac (slice rxb 0 rxlen.toNat) mcast) ∧
    (net_init mac).m_ifc_mac = [0, 0] ++ (net_init mac).ifc_mac ∧
    (net_init mac).m_ns_mac = [0, 0] ++ ethmac_from_ip6mc (net_init mac).mcast_ns_ip6 ∧
    m_ll_mac = [0, 0] ++ ethmac_from_ip6mc mcast_ll_ip6 := by
  have hpad : s.Padded := hrun.keeps rfl fun _ _ _ hs ht => takes_padded L mac hs ht
  have hrcvd : (s.loaded rxb rxlen.toNat).rcvd ≤ 1536 := by simp [Net.loaded]; omega
  have hload : (s.loaded rxb rxlen.toNat).Padded := by
    apply padded_of hpad
    intro i hi
    exact overlay_out _ _ _ _ (by omega)
  have hspec := rx_eth_handler.spec mac (s.loaded rxb rxlen.toNat) hrcvd
  have hcall := net_rx_eth.calls mac (s.loaded rxb rxlen.toNat) packet
    (pkt_rx_udp L (net_init mac) packet) hrcvd
  rw [hspec, ok_bind] at hcall
  refine ⟨hload, ⟨_, hspec, ?_, ?_⟩, rfl, rfl, rfl⟩
  · rw [← hcall, net_rx_eth.spec mac _ packet _ hrcvd]
    exact eth_rx.spec mac s packet _ rxb rxlen hmax
  · intro h mcast
    rw [hpad.received_loaded]
    exact handler_iff hu (by simpa using hmin) h mcast

/-- A solicitation after an echo request gets to its handler by multicast. -/
theorem a_solicitation_gets_to_its_handler :
    ∃ s, Run (takes device loader_mac) (power_on fun _ => 0)
        [⟨slot [], slot (an_echo_request.drop 2), 66⟩] s ∧
      rx_eth_handler (net_init loader_mac) (s.loaded (slot (a_solicitation.drop 2)) 78) 0 80 =
        .ok (some (.net_rx_icmp6, true)) := by
  obtain ⟨s, hs⟩ := an_echo_request_is_taken fun _ => 0
  obtain ⟨-, ⟨r, hr, -, hiff⟩, -⟩ := the_filter_is_exact device loader_mac (by decide) hs (slot [])
    (slot (a_solicitation.drop 2)) 78 (by decide) (by decide)
  have hsome := (hiff .net_rx_icmp6 true).mpr ⟨by decide, by decide, Or.inr (by decide),
    Or.inr (by decide)⟩
  exact ⟨s, hs, hsome ▸ hr⟩

/-- With another octet in the padding no frame gets to a handler. -/
theorem nonzero_padding_shuts {σ : Type} (mac : Mac) {s : Net σ} (h : s.rxbuf 0 ≠ 0) (rxb : Octets)
    {n : Nat} (hn : n ≤ 1534) :
    rx_eth_handler (net_init mac) (s.loaded rxb n) 0 (n + 2) = .ok none := by
  have hpad : addressed mac (s.loaded rxb n).received = none := by
    apply addressed_of_padding
    intro l he
    rw [received_loaded] at he
    exact h (List.cons.inj he).1
  refine (rx_eth_handler.spec mac (s.loaded rxb n) (by simp [Net.loaded]; omega)).trans ?_
  unfold handler
  rw [hpad, ite_self]

/-- A WRITE of one octet to the start of the receive buffer. -/
def a_write_to_the_padding : List Byte :=
  (padded_frame other_mac loader_mac.octets (ip6lla_from_ethmac loader_mac) IP_HDR_UDP
    ([0x12, 0x34, 0xE4, 0xCC, 0, 25, 0, 0] ++ le32 NB_MAGIC ++ le32 NB_CMD_WRITE ++ le32 7 ++
      le32 device.rxbuf_at ++ [1])).drop 2

/-- After that WRITE an echo request to the address of the loader gets to no handler. -/
theorem a_write_to_the_padding_shuts_the_filter :
    ∃ s, receive device loader_mac (power_on fun _ => 0) (slot []) (slot a_write_to_the_padding)
        79 = .ok s ∧
      rx_eth_handler (net_init loader_mac) (s.loaded (slot (an_echo_request.drop 2)) 66) 0 68 =
        .ok none ∧
      loader_mac.Unicast ∧ part (slice (slot (an_echo_request.drop 2)) 0 66) 12 2 = [0x86, 0xDD] ∧
      octet (slice (slot (an_echo_request.drop 2)) 0 66) 20 = Handler.net_rx_icmp6.protocol ∧
      ToInterface loader_mac (slice (slot (an_echo_request.drop 2)) 0 66) false := by
  have hp : (power_on fun _ => 0).Padded := rfl
  have hw := hp.received_loaded (slot a_write_to_the_padding) 79
  have hc : classify loader_mac ([0, 0] ++ slice (slot a_write_to_the_padding) 0 79) =
      .datagram 58572 17 false := by decide
  have hcmd : command device 58572 (part ([0, 0] ++ slice (slot a_write_to_the_padding) 0 79) 64 17) =
      .write device.rxbuf_at [1] := by decide
  have hrun := eth_rx.spec loader_mac (power_on fun _ => 0) (slot [])
    (pkt_rx_udp device (net_init loader_mac) (slot [])) (slot a_write_to_the_padding) 79 (by decide)
  have h79 : (79 : Word).toNat = 79 := rfl
  rw [h79, hw, hc] at hrun
  unfold outcome at hrun
  have hrcvd : ((power_on fun _ => 0).loaded (slot a_write_to_the_padding) 79).rcvd = 81 := rfl
  generalize (power_on fun _ => 0).loaded (slot a_write_to_the_padding) 79 = u at hrun hw hrcvd
  dsimp only at hrun
  rw [pkt_rx_udp.spec device loader_mac u (slot []) 17 58572 false (by omega) (by omega), hw, hcmd]
    at hrun
  have hdone := hrun.trans (status_reply.spec loader_mac (memcpy device u device.rxbuf_at [1])
    (slot []) NB_OK (by change u.rcvd ≤ 1536; omega) (by change 80 ≤ u.rcvd; omega))
  refine ⟨_, hdone, ?_, by decide, by decide, by decide, by decide, by decide⟩
  apply nonzero_padding_shuts
  · -- the octet that was written is compared as padding
    show stated (landed device device.rxbuf_at [1] u.rxbuf) NB_OK 0 ≠ 0
    rw [stated_out _ _ (by omega)]
    unfold landed
    simp
  · omega

end os_workshop.net
