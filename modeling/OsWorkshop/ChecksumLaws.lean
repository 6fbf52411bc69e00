-- The laws of the transmitted checksums: every packet that goes out
-- verifies against its pseudo-header, and no sum on the way wraps.
import OsWorkshop.Ipv6Laws

open os_workshop.memory (Byte Word le32 word)
open os_workshop.octets
open os_workshop.checksum (leSum netSum fold_le fold_mod fold_pos fold_ones fold_swap
  leSum_append leSum_le leSum_eq_zero netSum_mod)

namespace os_workshop.net

variable {σ : Type}

/-! ## The sums of numbers -/

theorem leSum_le16 (c : BitVec 16) : leSum (le16 c) = c.toNat := by
  have h := c.isLt
  simp only [le16, leSum, BitVec.extractLsb'_toNat, Nat.shiftRight_eq_div_pow]
  omega

/-- A length below 65536 has the same sum in two octets and in four. -/
theorem leSum_be32 (n : Nat) (h : n < 65536) :
    leSum (be32 (BitVec.ofNat 32 n)) = leSum (be16 (BitVec.ofNat 16 n)) := by
  simp only [be32, be16, leSum, BitVec.extractLsb'_toNat, Nat.shiftRight_eq_div_pow,
    BitVec.toNat_ofNat]
  omega

theorem swap16_next (next : Byte) :
    ((swap16 (next.setWidth 16)).setWidth 32 : Word).toNat = leSum [0, next] := by
  have h := next.isLt
  have h16 : next.toNat % 2 ^ 16 = next.toNat := Nat.mod_eq_of_lt (by omega)
  have h8 : next.toNat / 2 ^ 8 = 0 := Nat.div_eq_of_lt h
  unfold swap16
  rw [BitVec.toNat_setWidth, toNat_octets]
  simp only [leSum, BitVec.toNat_setWidth, BitVec.extractLsb'_toNat, Nat.shiftRight_eq_div_pow,
    Nat.pow_zero, Nat.div_one, BitVec.ofNat_eq_ofNat, BitVec.toNat_ofNat, Nat.zero_mod, h16, h8]
  omega

/-! ## The stored checksum -/

section

variable {src_ip dst_ip payload : List Byte} {next : Byte}

/-- The sum that a checksum is taken of: the pseudo-header and the payload. -/
def pseudo (src_ip dst_ip : List Byte) (next : Byte) (payload : List Byte) : List Byte :=
  src_ip ++ dst_ip ++ be32 (BitVec.ofNat 32 payload.length) ++ [0, 0, 0, next] ++ payload

theorem leSum_pseudo (h1 : src_ip.length = 16) (h2 : dst_ip.length = 16)
    (hlen : payload.length ≤ 1480) : leSum (pseudo src_ip dst_ip next payload) =
      leSum [0, next] + leSum (be16 (BitVec.ofNat 16 payload.length)) +
        leSum (src_ip ++ dst_ip ++ payload) := by
  unfold pseudo
  rw [leSum_append _ _ (by simp [h1, h2]), leSum_append _ _ (by simp [h1, h2]),
    leSum_append _ _ (by simp [h1, h2]), leSum_append (src_ip ++ dst_ip) _ (by simp [h1, h2]),
    leSum_be32 _ (by omega)]
  simp only [leSum, BitVec.ofNat_eq_ofNat, BitVec.toNat_ofNat, Nat.zero_mod]
  omega

/-- The sum of `checksum_ip6`, before the complement, is the folded sum of the
pseudo-header and the payload. -/
theorem ip6_sum.spec (h1 : src_ip.length = 16) (h2 : dst_ip.length = 16)
    (hlen : payload.length ≤ 1480) (hn : next ≠ 0) :
    ∃ sum : Word, sum.toNat = checksum.fold (leSum (pseudo src_ip dst_ip next payload)) ∧
      ip6_sum src_ip dst_ip next payload = if sum = 0xffff then sum else ~~~sum := by
  have hnext : 0 < leSum [0, next] := by
    have : next.toNat ≠ 0 := fun h => hn (BitVec.eq_of_toNat_eq h)
    simp only [leSum]
    omega
  have b1 := leSum_le [0, next]
  have b2 := leSum_le (be16 (BitVec.ofNat 16 payload.length))
  have b3 := leSum_le (src_ip ++ dst_ip ++ payload)
  simp only [List.length_append, List.length_cons, List.length_nil, be16_length, h1, h2] at b1 b2 b3
  refine ⟨_, ?_, rfl⟩
  have hle := fold_le (leSum [0, next] + leSum (be16 (BitVec.ofNat 16 payload.length)))
  have hs : (fold_carries (add_words (be16 (BitVec.ofNat 16 payload.length))
      ((swap16 (next.setWidth 16)).setWidth 32))).toNat =
      checksum.fold (leSum [0, next] + leSum (be16 (BitVec.ofNat 16 payload.length))) := by
    rw [fold_carries_toNat, add_words_toNat _ _ (by rw [swap16_next]; omega), swap16_next]
  rw [leSum_pseudo h1 h2 hlen, fold_carries_toNat, add_words_toNat _ _ (by rw [hs]; omega), hs]
  have f1 := fold_mod (leSum [0, next] + leSum (be16 (BitVec.ofNat 16 payload.length)))
  have f2 := fold_pos (Nat.add_pos_left hnext (leSum (be16 (BitVec.ofNat 16 payload.length))))
  have f3 := fold_mod (leSum [0, next] + leSum (be16 (BitVec.ofNat 16 payload.length)) +
    leSum (src_ip ++ dst_ip ++ payload))
  have f4 := fold_le (leSum [0, next] + leSum (be16 (BitVec.ofNat 16 payload.length)) +
    leSum (src_ip ++ dst_ip ++ payload))
  apply checksum.fold_eq
  · omega
  · exact fold_pos (by omega)
  · exact f4
  · omega

theorem stored_checksum.spec (h1 : src_ip.length = 16) (h2 : dst_ip.length = 16)
    (hlen : payload.length ≤ 1480) (hn : next ≠ 0) :
    (leSum (pseudo src_ip dst_ip next payload) +
        (stored_checksum src_ip dst_ip next payload).toNat) % 65535 = 0 ∧
      0 < (stored_checksum src_ip dst_ip next payload).toNat := by
  obtain ⟨sum, hsum, he⟩ := ip6_sum.spec h1 h2 hlen hn
  have f1 := fold_mod (leSum (pseudo src_ip dst_ip next payload))
  have f2 := fold_le (leSum (pseudo src_ip dst_ip next payload))
  unfold stored_checksum
  rw [he, BitVec.toNat_setWidth]
  by_cases hff : sum = 0xffff
  · have hv : sum.toNat = 65535 := by rw [hff]; rfl
    rw [if_pos hff, hv]
    omega
  · have hv : sum.toNat ≠ 65535 := fun h => hff (BitVec.eq_of_toNat_eq h)
    rw [if_neg hff, BitVec.toNat_not]
    omega

/-- A payload whose checksum field is still zero verifies with its checksum in it. -/
theorem with_checksum_verifies {chk_off : Nat} (h1 : src_ip.length = 16) (h2 : dst_ip.length = 16)
    (hlen : payload.length ≤ 1480) (hn : next ≠ 0) (hoff : chk_off % 2 = 0)
    (hfit : chk_off + 2 ≤ payload.length) (hzero : part payload chk_off 2 = [0, 0]) :
    checksum.fold (netSum (pseudo src_ip dst_ip next
      (with_checksum src_ip dst_ip next chk_off payload))) = 0xFFFF := by
  obtain ⟨hmod, hpos⟩ := stored_checksum.spec h1 h2 hlen hn
  have hl := with_checksum_length src_ip dst_ip payload next chk_off hfit
  have htake : (payload.take chk_off).length % 2 = 0 := by
    rw [List.length_take]
    omega
  have hold : leSum payload = leSum (payload.take chk_off) + leSum (payload.drop (chk_off + 2)) := by
    have e : payload = payload.take chk_off ++ ([0, 0] ++ payload.drop (chk_off + 2)) := by
      rw [← hzero, part, ← List.drop_drop, List.take_append_drop, List.take_append_drop]
    calc leSum payload = leSum (payload.take chk_off ++ ([0, 0] ++ payload.drop (chk_off + 2))) := by
          rw [← e]
      _ = leSum (payload.take chk_off) + leSum (payload.drop (chk_off + 2)) := by
          rw [leSum_append _ _ htake, leSum_append [0, 0] _ rfl]
          simp [leSum]
  have hnew : leSum (with_checksum src_ip dst_ip next chk_off payload) =
      leSum payload + (stored_checksum src_ip dst_ip next payload).toNat := by
    unfold with_checksum
    rw [List.append_assoc, leSum_append _ _ htake, leSum_append _ _ (by simp), leSum_le16, hold]
    omega
  have hsum : leSum (pseudo src_ip dst_ip next (with_checksum src_ip dst_ip next chk_off payload)) =
      leSum (pseudo src_ip dst_ip next payload) +
        (stored_checksum src_ip dst_ip next payload).toNat := by
    rw [leSum_pseudo h1 h2 (by rw [hl]; exact hlen), leSum_pseudo h1 h2 hlen, hl,
      leSum_append (src_ip ++ dst_ip) _ (by simp [h1, h2]),
      leSum_append (src_ip ++ dst_ip) payload (by simp [h1, h2]), hnew]
    omega
  have hz := leSum_eq_zero (pseudo src_ip dst_ip next
    (with_checksum src_ip dst_ip next chk_off payload))
  have hm := netSum_mod (pseudo src_ip dst_ip next
    (with_checksum src_ip dst_ip next chk_off payload))
  apply fold_ones <;> omega

end

/-! ## The law -/

/-- A receiver accepts the checksum of the frame: the one's-complement sum of its
pseudo-header and of its whole upper-layer message, in network byte order, is all ones. -/
def Verifies (f : List Byte) : Prop :=
  checksum.fold (netSum (pseudo (part f 22 16) (part f 38 16) (octet f 20) (f.drop 54))) = 0xFFFF

theorem verifies_frame (mac : Mac) {dst_mac dst_ip payload : List Byte} {next : Byte}
    (h1 : dst_mac.length = 6) (h2 : dst_ip.length = 16)
    (h : checksum.fold (netSum (pseudo (ip6lla_from_ethmac mac) dst_ip next payload)) = 0xFFFF) :
    Verifies (ip6_frame mac dst_mac dst_ip next payload) := by
  have e1 : part (padded_frame mac dst_mac dst_ip next payload) 24 16 = ip6lla_from_ethmac mac :=
    frame_src_ip mac next payload h1
  have e2 := frame_dst_ip mac next payload h1 h2
  have e3 := octet_part (padded_frame mac dst_mac dst_ip next payload) 22 2 0 (by omega)
  rw [frame_next mac next payload h1] at e3
  have e4 : (ip6_frame mac dst_mac dst_ip next payload).drop 54 = payload :=
    List.drop_left' (own_headers_length mac next h1 h2 _)
  unfold padded_frame at e1 e2 e3
  rw [part_right _ _ _ _ (by simp)] at e1 e2
  rw [octet_append_right _ _ _ (by simp)] at e3
  unfold Verifies
  rw [e4]
  simp only [List.length_cons, List.length_nil, Nat.zero_add, Nat.reduceAdd, Nat.reduceSub] at e1 e2 e3
  rw [e1, e2, ← e3]
  exact h

/-- The checksum field of a message holds what was stored in it. -/
theorem field16_with_checksum {src_ip dst_ip payload : List Byte} {next : Byte} {chk_off : Nat}
    (hfit : chk_off + 2 ≤ payload.length) (h1 : src_ip.length = 16) (h2 : dst_ip.length = 16)
    (hlen : payload.length ≤ 1480) (hn : next ≠ 0) :
    field16 (with_checksum src_ip dst_ip next chk_off payload) chk_off ≠ 0 := by
  obtain ⟨-, hpos⟩ := stored_checksum.spec h1 h2 hlen hn
  have hl : (payload.take chk_off).length = chk_off := by
    rw [List.length_take]
    omega
  unfold with_checksum
  generalize stored_checksum src_ip dst_ip next payload = c at hpos ⊢
  rw [List.append_assoc, field16_append_right _ _ _ (by omega), hl, Nat.sub_self,
    field16_append_left _ _ _ (by simp)]
  intro h
  have hz : c.extractLsb' 0 8 ++ c.extractLsb' 8 8 = (0 : Byte) ++ (0 : Byte) := h
  rw [append_inj_iff] at hz
  rw [← be16_append c, hz.1, hz.2] at hpos
  exact absurd hpos (by decide)

/-- A message sent with its checksum field zero goes out in a frame that verifies. -/
theorem sent_frame_verifies (mac : Mac) {dst_mac dst_ip payload : List Byte} {next : Byte}
    {chk_off : Nat} (h1 : dst_mac.length = 6) (h2 : dst_ip.length = 16)
    (hlen : payload.length ≤ 1480) (hn : next ≠ 0) (hoff : chk_off % 2 = 0)
    (hfit : chk_off + 2 ≤ payload.length) (hzero : part payload chk_off 2 = [0, 0]) :
    Verifies (ip6_frame mac dst_mac dst_ip next
        (with_checksum (ip6lla_from_ethmac mac) dst_ip next chk_off payload)) ∧
      field16 (ip6_frame mac dst_mac dst_ip next
        (with_checksum (ip6lla_from_ethmac mac) dst_ip next chk_off payload)) (54 + chk_off) ≠ 0 := by
  constructor
  · exact verifies_frame mac h1 h2 (with_checksum_verifies rfl h2 hlen hn hoff hfit hzero)
  · unfold ip6_frame
    rw [field16_append_right _ _ _ (by rw [own_headers_length mac next h1 h2]; omega),
      own_headers_length mac next h1 h2, Nat.add_sub_cancel_left]
    exact field16_with_checksum hfit rfl h2 hlen hn

/-- The accumulator of `checksum` is the sum itself after any number of words, and the
folded result is the one of network byte order with its octets swapped. -/
theorem checksum_is_the_sum (b : Octets) (off len : Nat) (sum : Word) (hs : sum.toNat ≤ 0xFFFF)
    (h : off + len + len % 2 ≤ 1536) :
    (∀ k, (add_words ((slice b off len).take (2 * k)) sum).toNat =
      sum.toNat + leSum ((slice b off len).take (2 * k))) ∧
    ∃ c, checksum b off len sum = .ok c ∧
      checksum.swap c.toNat =
        checksum.fold (checksum.swap sum.toNat + netSum (slice b off len)) := by
  have hle (l : List Byte) (hl : l.length ≤ len) : sum.toNat + leSum l < 2 ^ 32 := by
    have := leSum_le l
    omega
  constructor
  · intro k
    exact add_words_toNat _ _ (hle _ (by simp))
  · refine ⟨_, checksum.spec b off len sum h, ?_⟩
    rw [fold_carries_toNat, add_words_toNat _ _ (hle _ (by simp))]
    have hm := netSum_mod (slice b off len)
    have hz := leSum_eq_zero (slice b off len)
    symm
    unfold checksum.swap
    apply fold_swap <;> omega

/-- Every packet that the stack sends carries a checksum that verifies and is not zero, and
no sum that it is made of wraps. -/
theorem transmitted_checksums_verify (mac : Mac) (s : Net σ) (packet : Octets)
    (h : s.rcvd ≤ 1536) :
    (∀ (data : Ptr) (msg : List Byte) (port : Nat), 64 ≤ s.rcvd →
      s.load data msg.length = .ok msg → msg.length ≤ 1472 →
      ∃ f, net_tx_udp_reply (net_init mac) s packet 64 data msg.length port =
        .ok (s.transmit f) ∧ Verifies f ∧ field16 f 60 ≠ 0) ∧
    (∀ (data : Ptr) (msg : List Byte), 56 ≤ s.rcvd → s.load data msg.length = .ok msg →
      4 ≤ msg.length → msg.length ≤ 1480 → part msg 2 2 = [0, 0] →
      ∃ f, net_tx_ip6_reply (net_init mac) s packet 56 data msg.length IP_HDR_ICMP 2 =
        .ok (s.transmit f) ∧ Verifies f ∧ field16 f 56 ≠ 0) ∧
    (∀ cb : Callback σ, EchoRequest mac s.received →
      ∃ f, net_rx_eth (net_init mac) cb s packet 0 s.rcvd = .ok (s.echoed.transmit f) ∧
        Verifies f ∧ field16 f 56 ≠ 0) ∧
    (∀ cb : Callback σ, Solicitation mac s.received →
      ∃ f, net_rx_eth (net_init mac) cb s packet 0 s.rcvd = .ok (s.transmit f) ∧
        Verifies f ∧ field16 f 56 ≠ 0) ∧
    (∀ (b : Octets) (off len : Nat) (sum : Word), sum.toNat ≤ 0xFFFF → off + len + len % 2 ≤ 1536 →
      (∀ k, (add_words ((slice b off len).take (2 * k)) sum).toNat =
        sum.toNat + leSum ((slice b off len).take (2 * k))) ∧
      ∃ c, checksum b off len sum = .ok c ∧
        checksum.swap c.toNat =
          checksum.fold (checksum.swap sum.toNat + netSum (slice b off len))) := by
  have hicmp : IP_HDR_ICMP ≠ 0 := by decide
  refine ⟨?_, ?_, ?_, ?_, checksum_is_the_sum⟩
  · intro data msg port h64 hload hmsg
    refine ⟨_, net_tx_udp_reply.spec mac s packet data msg msg.length port h h64 hmsg rfl hload, ?_⟩
    have hl := udp_datagram_length (be16_length (BitVec.ofNat 16 port)) (slice_length s.rxbuf 56 2) msg
    refine sent_frame_verifies mac (by simp) (by simp) (by omega) (by decide) rfl (by omega) ?_
    have e : udp_datagram (be16 (BitVec.ofNat 16 port)) (slice s.rxbuf 56 2) msg =
        (be16 (BitVec.ofNat 16 port) ++ slice s.rxbuf 56 2 ++
          be16 (BitVec.ofNat 16 (msg.length + 8))) ++ ([0, 0] ++ msg) := by
      simp [udp_datagram]
    rw [e]
    exact part_mid _ _ _ _ _ (by simp) rfl
  · intro data msg h56 hload h4 hmax hzero
    refine ⟨_, net_tx_ip6_reply.spec mac s packet data msg msg.length IP_HDR_ICMP 2 h h56 hmax rfl
      hload (by omega), ?_⟩
    exact sent_frame_verifies mac (by simp) (by simp) hmax hicmp rfl (by omega) hzero
  · intro cb he
    have h60 : 60 ≤ s.rcvd := by
      obtain ⟨⟨m, hacc⟩, -⟩ := he
      simpa using hacc.long
    have hl : ([ICMP_ECHO_REPLY, octet s.received 57, 0, 0] ++
        part s.received 60 (s.received.length - 60)).length = s.rcvd - 56 := by
      rw [List.length_append, part_length _ _ _ (by simp; omega)]
      simp
      omega
    rw [net_rx_eth.spec mac s packet cb h, classify_eq_echo.mpr he]
    refine ⟨_, rfl, ?_⟩
    exact sent_frame_verifies mac (part_length _ _ _ (by simp; omega))
      (part_length _ _ _ (by simp; omega)) (by omega) hicmp rfl (by omega) rfl
  · intro cb he
    have h80 : 80 ≤ s.rcvd := by simpa using he.2.2.1
    rw [net_rx_eth.spec mac s packet cb h, classify_eq_solicitation.mpr he]
    refine ⟨_, rfl, ?_⟩
    exact sent_frame_verifies mac (part_length _ _ _ (by simp; omega))
      (part_length _ _ _ (by simp; omega)) (Nat.le_of_ble_eq_true rfl) hicmp rfl
      (Nat.le_of_ble_eq_true rfl) rfl

/-- Of a datagram and of the answers to an echo request and to a neighbor solicitation. -/
theorem three_transmitted_checksums_verify :
    (∃ f, net_tx_udp_reply (net_init loader_mac) (Net.holding an_echo_request) (slot []) 64
        (.obj [1, 2, 3]) 3 58572 = .ok ((Net.holding an_echo_request).transmit f) ∧
      Verifies f ∧ field16 f 60 ≠ 0) ∧
    (∃ f, net_tx_ip6_reply (net_init loader_mac) (Net.holding an_echo_request) (slot []) 56
        (.obj [129, 0, 0, 0, 7]) 5 IP_HDR_ICMP 2 =
        .ok ((Net.holding an_echo_request).transmit f) ∧ Verifies f ∧ field16 f 56 ≠ 0) ∧
    (∃ f, net_rx_eth (net_init loader_mac) (fun s _ _ _ _ => .ok s) (Net.holding an_echo_request)
        (slot []) 0 68 = .ok ((Net.holding an_echo_request).echoed.transmit f) ∧
      Verifies f ∧ field16 f 56 ≠ 0) ∧
    (∃ f, net_rx_eth (net_init loader_mac) (fun s _ _ _ _ => .ok s) (Net.holding a_solicitation)
        (slot []) 0 80 = .ok ((Net.holding a_solicitation).transmit f) ∧
      Verifies f ∧ field16 f 56 ≠ 0) ∧
    ∃ c, checksum (slot [1, 2, 3]) 0 3 0 = .ok c := by
  have he := transmitted_checksums_verify loader_mac (Net.holding an_echo_request) (slot [])
    (by decide)
  have hs := transmitted_checksums_verify loader_mac (Net.holding a_solicitation) (slot [])
    (by decide)
  obtain ⟨c, hc, -⟩ := (he.2.2.2.2 (slot [1, 2, 3]) 0 3 0 (by decide) (by decide)).2
  exact ⟨he.1 (.obj [1, 2, 3]) [1, 2, 3] 58572 (by decide) rfl (by decide),
    he.2.1 (.obj [129, 0, 0, 0, 7]) [129, 0, 0, 0, 7] (by decide) rfl (by decide) (by decide)
      (by decide),
    he.2.2.1 _ an_echo_request_is_accepted, hs.2.2.2.1 _ a_solicitation_is_accepted, c, hc⟩

end os_workshop.net
