-- The loader never leaves a buffer: for every frame that the MAC can give it
-- each access of the receive path and of the reply path is inside its object.
import OsWorkshop.Netboot

open os_workshop.memory (Byte Word Mem le32 word dist write)
open os_workshop.octets
open os_workshop.net

namespace os_workshop.netboot

variable (L : Loader) (mac : Mac) (s : Net Ram) (packet : Octets)

/-! ## Replies of the loader -/

theorem reply_frame_congr {b c : Octets} (h : ∀ i < 64, b i = c i) (msg : List Byte) :
    reply_frame mac b msg = reply_frame mac c msg := by
  unfold reply_frame
  rw [slice_congr b c 8 6 (fun i _ hi => h i (by omega)),
    slice_congr b c 24 16 (fun i _ hi => h i (by omega)),
    slice_congr b c 56 2 (fun i _ hi => h i (by omega))]

/-- The UDP builder with data in the receive buffer. -/
theorem net_tx_udp_reply_rx (len : Nat) (h : s.rcvd ≤ 1536) (h64 : 64 ≤ s.rcvd)
    (hlen : len ≤ 1472) :
    net_tx_udp_reply (net_init mac) s packet 64 (.rx 64) len NB_PORT_CTRL.toNat =
      .ok (s.transmit (reply_frame mac s.rxbuf (slice s.rxbuf 64 len))) := by
  have hload : s.load (.rx 64) len = .ok (slice s.rxbuf 64 len) := by
    rw [load_rx, get_ok _ _ _ _ (by omega)]
  have hport : BitVec.ofNat 16 NB_PORT_CTRL.toNat = NB_PORT_CTRL := by decide
  rw [net_tx_udp_reply.spec mac s packet (.rx 64) _ len _ h h64 hlen (by simp) hload, hport]
  rfl

/-- The receive buffer with its message turned into a status. -/
def stated (b : Octets) (arg : Word) : Octets :=
  overlay (overlay b 68 (le32 NB_CMD_STATUS)) 76 (le32 arg)

theorem stated_out (b : Octets) (arg : Word) {i : Nat} (h : i < 68 ∨ 80 ≤ i) :
    stated b arg i = b i := by
  unfold stated
  rw [overlay_out _ _ _ _ (by simp; omega), overlay_out _ _ _ _ (by simp; omega)]

theorem stated_message (b : Octets) (arg : Word) :
    slice (stated b arg) 64 16 = status_message b arg := by
  have h64 : slice (stated b arg) 64 4 = slice b 64 4 :=
    slice_congr _ _ _ _ fun i _ hi => stated_out b arg (by omega)
  have h68 : slice (stated b arg) 68 4 = le32 NB_CMD_STATUS := by
    unfold stated
    rw [slice_overlay_apart _ _ _ _ _ (by simp)]
    exact slice_overlay_same _ _ _ _ rfl
  have h72 : slice (stated b arg) 72 4 = slice b 72 4 := by
    unfold stated
    rw [slice_overlay_apart _ _ _ _ _ (by simp), slice_overlay_apart _ _ _ _ _ (by simp)]
  have h76 : slice (stated b arg) 76 4 = le32 arg := slice_overlay_same _ _ _ _ rfl
  rw [slice_append _ 64 12 4, slice_append _ 64 8 4, slice_append _ 64 4 4, h64, h68, h72, h76]
  rfl

/-- A status goes to where the frame came from. -/
theorem status_reply.spec (arg : Word) (h : s.rcvd ≤ 1536) (h80 : 80 ≤ s.rcvd) :
    status_reply (net_init mac) s packet 64 arg =
      .ok ({ s with rxbuf := stated s.rxbuf arg }.transmit
        (reply_frame mac s.rxbuf (status_message s.rxbuf arg))) := by
  unfold status_reply
  rw [put_ok _ _ _ _ (by simp), ok_bind, put_ok _ _ _ _ (by simp), ok_bind]
  have hs := net_tx_udp_reply_rx mac { s with rxbuf := stated s.rxbuf arg } packet 16 h
    (by change 64 ≤ s.rcvd; omega) (by omega)
  rw [stated_message, reply_frame_congr mac (fun i hi => stated_out s.rxbuf arg (by omega))] at hs
  exact hs

/-- The receive buffer with the name of the node behind a status. -/
def named (L : Loader) (b : Octets) : Octets :=
  stated (overlay b 80 ((name_text L).take 1023 ++ [0])) NB_OK

theorem named_out (b : Octets) {i : Nat} (h : i < 68) : named L b i = b i := by
  unfold named
  rw [stated_out _ _ (by omega), overlay_out _ _ _ _ (by omega)]

/-- The answer to a query: what stands in the buffer, as far as the name is long. -/
theorem query_reply.spec (h : s.rcvd ≤ 1536) (h64 : 64 ≤ s.rcvd) :
    query_reply L (net_init mac) s packet 64 =
      .ok (if (name_text L).length + 17 ≤ 1472 then
        { s with rxbuf := named L s.rxbuf }.transmit
          (reply_frame mac s.rxbuf (slice (named L s.rxbuf) 64 ((name_text L).length + 17)))
        else { s with rxbuf := named L s.rxbuf }) := by
  unfold query_reply
  have hput : 64 + 16 + ((name_text L).take 1023 ++ [0]).length ≤ 1536 := by
    rw [List.length_append, List.length_take, List.length_singleton]
    omega
  have hlen : 16 + (name_text L).length + 1 = (name_text L).length + 17 := by omega
  dsimp only
  rw [put_ok _ _ _ _ hput, ok_bind, put_ok _ _ _ _ (by simp), ok_bind, put_ok _ _ _ _ (by simp),
    ok_bind, hlen]
  by_cases hfit : (name_text L).length + 17 ≤ 1472
  · have hs := net_tx_udp_reply_rx mac { s with rxbuf := named L s.rxbuf } packet
      ((name_text L).length + 17) h h64 hfit
    rw [reply_frame_congr mac (fun i hi => named_out L s.rxbuf (by omega))] at hs
    rw [if_pos hfit]
    exact hs
  · rw [if_neg hfit]
    exact net_tx_udp_reply_long mac _ packet _ _ _ (by omega)

/-! ## The command of a message -/

theorem hdr32.spec {σ : Type} {s : Net σ} {off : Nat} (h : off + 4 ≤ s.rcvd) (h2 : s.rcvd ≤ 1536) :
    s.hdr32 off = .ok (field32 s.received off) := by
  unfold Net.hdr32 field32
  rw [s.hdr_ok off 4 h h2, octet_received s (by omega), octet_received s (by omega),
    octet_received s (by omega), octet_received s (by omega)]
  rfl

theorem field32_part (r : List Byte) (off n i : Nat) (h : i + 4 ≤ n) :
    field32 (part r off n) i = field32 r (off + i) := by
  unfold field32
  rw [octet_part _ _ _ _ (by omega), octet_part _ _ _ _ (by omega), octet_part _ _ _ _ (by omega),
    octet_part _ _ _ _ (by omega)]
  simp only [Nat.add_assoc]

theorem drop_part (r : List Byte) (off n k : Nat) :
    (part r off n).drop k = part r (off + k) (n - k) := by
  unfold part
  rw [List.drop_take, List.drop_drop]

/-- What the loader does for a command. -/
def perform (L : Loader) (mac : Mac) (s : Net Ram) (packet : Octets) :
    Command → Except Fault (Net Ram)
  | .none => .ok s
  | .query => query_reply L (net_init mac) s packet 64
  | .write addr bytes => status_reply (net_init mac) (memcpy L s addr bytes) packet 64 NB_OK
  | .exec entry => do
    let s ← status_reply (net_init mac) s packet 64 NB_OK
    return { s with app := { s.app with entry := some entry } }
  | .other => status_reply (net_init mac) s packet 64 NB_ERR_BADCMD

/-- On the query port only a query with the name of the node is answered. -/
theorem query_port (len : Nat) (h : s.rcvd ≤ 1536) (h16 : 16 ≤ len) (hlen : 64 + len ≤ s.rcvd) :
    (do
      let cmd ← s.hdr32 (64 + 4)
      if cmd ≠ NB_CMD_QUERY then
        return s
      if len ≠ L.nodename.length + 16 then
        return s
      let db ← s.hdr (64 + 16) L.nodename.length
      if db ≠ L.nodename then
        return s
      query_reply L (net_init mac) s packet 64) =
    perform L mac s packet
      (if field32 s.received (64 + 4) = NB_CMD_QUERY ∧
        part s.received (64 + 16) (len - 16) = L.nodename then .query else .none) := by
  rw [hdr32.spec (by omega) h, ok_bind]
  by_cases hcmd : field32 s.received (64 + 4) = NB_CMD_QUERY
  · rw [if_neg (not_not.mpr hcmd)]
    by_cases hn : len = L.nodename.length + 16
    · have hl : L.nodename.length = len - 16 := by omega
      rw [if_neg (not_not.mpr hn), Net.hdr.spec s (by omega) h, ok_bind, hl]
      by_cases hdb : part s.received (64 + 16) (len - 16) = L.nodename
      · rw [if_neg (not_not.mpr hdb), if_pos ⟨hcmd, hdb⟩]
        rfl
      · rw [if_pos hdb, if_neg (fun hc => hdb hc.2)]
        rfl
    · have hdb : part s.received (64 + 16) (len - 16) ≠ L.nodename := by
        intro he
        have hl := congrArg List.length he
        rw [part_length _ _ _ (by simp; omega)] at hl
        omega
      rw [if_pos hn, if_neg (fun hc => hdb hc.2)]
      rfl
  · rw [if_pos hcmd, if_neg (fun hc => hcmd hc.1)]
    rfl

/-- On the control port every command is answered, an unknown one too. -/
theorem ctrl_port (len : Nat) (h : s.rcvd ≤ 1536) (h16 : 16 ≤ len) (hlen : 64 + len ≤ s.rcvd) :
    (do
      let cmd ← s.hdr32 (64 + 4)
      if cmd = NB_CMD_QUERY then
        query_reply L (net_init mac) s packet 64
      else if cmd = NB_CMD_WRITE then
        let arg ← s.hdr32 (64 + 12)
        let db ← s.hdr (64 + 16) (← sub len 16)
        status_reply (net_init mac) (memcpy L s arg db) packet 64 NB_OK
      else if cmd = NB_CMD_EXEC then
        let entry ← s.hdr32 (64 + 12)
        let s ← status_reply (net_init mac) s packet 64 NB_OK
        return { s with app := { s.app with entry := some entry } }
      else
        status_reply (net_init mac) s packet 64 NB_ERR_BADCMD) =
    perform L mac s packet
      (if field32 s.received (64 + 4) = NB_CMD_QUERY then .query
      else if field32 s.received (64 + 4) = NB_CMD_WRITE then
        .write (field32 s.received (64 + 12)) (part s.received (64 + 16) (len - 16))
      else if field32 s.received (64 + 4) = NB_CMD_EXEC then .exec (field32 s.received (64 + 12))
      else .other) := by
  rw [hdr32.spec (by omega) h, ok_bind, sub_ok _ _ h16, hdr32.spec (by omega) h, ok_bind, ok_bind,
    Net.hdr.spec s (by omega) h, ok_bind, ok_bind]
  split_ifs <;> rfl

theorem pkt_rx_udp.spec (len : Nat) (port : BitVec 16) (mcast : Bool) (h : s.rcvd ≤ 1536)
    (hlen : 64 + len ≤ s.rcvd) :
    pkt_rx_udp L (net_init mac) packet s 64 len port mcast =
      perform L mac s packet (command L port (part s.received 64 len)) := by
  have hm : (part s.received 64 len).length = len := part_length _ _ _ (by simpa using hlen)
  unfold pkt_rx_udp command
  rw [hm]
  by_cases h16 : 16 ≤ len ∧ len ≤ 1040
  · rw [if_neg (by omega), hdr32.spec (by omega) h, ok_bind]
    have hf (i : Nat) (hi : i + 4 ≤ 16) := field32_part s.received 64 len i (by omega)
    rw [hf 0 (by omega), hf 4 (by omega), hf 12 (by omega), drop_part]
    by_cases hmagic : field32 s.received 64 = NB_MAGIC
    · have hcond : 16 ≤ len ∧ len ≤ 1040 ∧ field32 s.received (64 + 0) = NB_MAGIC :=
        ⟨h16.1, h16.2, hmagic⟩
      rw [if_neg (not_not.mpr hmagic), if_pos hcond]
      by_cases hq : port = NB_PORT_QUERY
      · rw [if_pos hq, if_pos hq]
        exact query_port L mac s packet len h (by omega) hlen
      · rw [if_neg hq, if_neg hq]
        by_cases hc : port = NB_PORT_CTRL
        · rw [if_neg (not_not.mpr hc), if_pos hc]
          exact ctrl_port L mac s packet len h (by omega) hlen
        · rw [if_pos hc, if_neg hc]
          rfl
    · have hcond : ¬ (16 ≤ len ∧ len ≤ 1040 ∧ field32 s.received (64 + 0) = NB_MAGIC) :=
        fun hn => hmagic hn.2.2
      rw [if_pos hmagic, if_neg hcond]
      rfl
  · rw [if_pos (by omega), if_neg (by tauto)]
    rfl

/-! ## No access outside an object -/

/-- A call that ends without a fault, and passes at most one frame to `eth_tx`, which is no
longer than the MAC takes. -/
def Safe (s : Net Ram) (r : Except Fault (Net Ram)) : Prop :=
  ∃ t fs, r = .ok t ∧ t.passed = s.passed ++ fs ∧ fs.length ≤ 1 ∧ ∀ f ∈ fs, f.length ≤ 1534

theorem Safe.same : Safe s (.ok s) := ⟨s, [], rfl, by simp, by simp, by simp⟩

theorem Safe.one {t : Net Ram} {f : List Byte} (h : t.passed = s.passed ++ [f])
    (hf : f.length ≤ 1534) : Safe s (.ok t) :=
  ⟨t, [f], rfl, h, by simp, by simpa using hf⟩

theorem ip6_frame_length (dst_mac dst_ip payload : List Byte) (next : Byte)
    (h1 : dst_mac.length = 6) (h2 : dst_ip.length = 16) :
    (ip6_frame mac dst_mac dst_ip next payload).length = 54 + payload.length := by
  rw [ip6_frame, List.length_append, ip6_headers_length _ _ _ _ _ _ h1 rfl rfl h2]

theorem reply_frame_length (b : Octets) (msg : List Byte) :
    (reply_frame mac b msg).length = 62 + msg.length := by
  unfold reply_frame
  rw [ip6_frame_length mac _ _ _ _ (by simp) (by simp), with_checksum_length]
  · simp [udp_datagram]
    omega
  · simp [udp_datagram]
    omega

theorem status_safe (arg : Word) (h : s.rcvd ≤ 1536) (h80 : 80 ≤ s.rcvd) :
    Safe s (status_reply (net_init mac) s packet 64 arg) := by
  rw [status_reply.spec mac s packet arg h h80]
  apply Safe.one
  · rfl
  · rw [reply_frame_length]
    simp [status_message]

theorem query_safe (h : s.rcvd ≤ 1536) (h64 : 64 ≤ s.rcvd) :
    Safe s (query_reply L (net_init mac) s packet 64) := by
  rw [query_reply.spec L mac s packet h h64]
  split_ifs with hfit
  · apply Safe.one
    · rfl
    · rw [reply_frame_length, slice_length]
      omega
  · exact ⟨_, [], rfl, by simp, by simp, by simp⟩

theorem perform_exec (entry : Word) (h : s.rcvd ≤ 1536) (h80 : 80 ≤ s.rcvd) :
    perform L mac s packet (.exec entry) =
      .ok { ({ s with rxbuf := stated s.rxbuf NB_OK }.transmit
          (reply_frame mac s.rxbuf (status_message s.rxbuf NB_OK))) with
        app := { s.app with entry := some entry } } := by
  have e : perform L mac s packet (.exec entry) = (do
      let s ← status_reply (net_init mac) s packet 64 NB_OK
      return { s with app := { s.app with entry := some entry } }) := rfl
  rw [e, status_reply.spec mac s packet NB_OK h h80, ok_bind]
  rfl

theorem perform_safe (c : Command) (h : s.rcvd ≤ 1536) (h80 : 80 ≤ s.rcvd) :
    Safe s (perform L mac s packet c) := by
  cases c with
  | none => exact Safe.same s
  | query => exact query_safe L mac s packet h (by omega)
  | write addr bytes => exact status_safe mac (memcpy L s addr bytes) packet NB_OK h h80
  | exec entry =>
    rw [perform_exec L mac s packet entry h h80]
    apply Safe.one
    · rfl
    · rw [reply_frame_length]
      simp [status_message]
  | other => exact status_safe mac s packet NB_ERR_BADCMD h h80

theorem command_short (port : BitVec 16) (m : List Byte) (h : m.length < 16) :
    command L port m = .none := by
  unfold command
  rw [if_neg (by omega)]

theorem outcome_safe (h : s.rcvd ≤ 1536) :
    Safe s (outcome mac (pkt_rx_udp L (net_init mac) packet) s (classify mac s.received)) := by
  cases hc : classify mac s.received with
  | ignored => exact Safe.same s
  | datagram port len mcast =>
    have hlen : 64 + len ≤ s.rcvd := by
      have := (classify_eq_datagram.mp hc).2.2.2.2
      rw [received_length] at this
      omega
    change Safe s (pkt_rx_udp L (net_init mac) packet s 64 len port mcast)
    rw [pkt_rx_udp.spec L mac s packet len port mcast h hlen]
    by_cases h16 : 16 ≤ len
    · exact perform_safe L mac s packet _ h (by omega)
    · rw [command_short L port _ (by rw [part_length _ _ _ (by simpa using hlen)]; omega)]
      exact Safe.same s
  | echo =>
    obtain ⟨⟨m, hacc⟩, -⟩ := classify_eq_echo.mp hc
    have h60 : 60 ≤ s.rcvd := by simpa using hacc.long
    apply Safe.one
    · rfl
    · unfold echo_reply
      rw [ip6_frame_length mac _ _ _ _ (part_length _ _ _ (by simp; omega))
        (part_length _ _ _ (by simp; omega)), with_checksum_length _ _ _ _ _ (by simp)]
      rw [List.length_append, part_length _ _ _ (by simp; omega), received_length]
      simp
      omega
  | solicitation =>
    obtain ⟨-, -, h80, -⟩ := classify_eq_solicitation.mp hc
    rw [received_length] at h80
    apply Safe.one
    · rfl
    · unfold advertisement
      rw [ip6_frame_length mac _ _ _ _ (part_length _ _ _ (by simp; omega))
        (part_length _ _ _ (by simp; omega)),
        with_checksum_length _ _ _ _ _ (Nat.le_of_ble_eq_true rfl)]
      exact Nat.le_of_ble_eq_true rfl

/-- Whatever length the MAC reports and whatever the frame holds, the loader takes it in and
answers it without an access outside an object, without reading a header field that was not
received and without a length that goes below zero, and it never passes more than 1534
octets to `eth_tx`. -/
theorem no_access_leaves_its_object (rxb : Octets) (rxlen : Word) :
    Safe s (receive L mac s packet rxb rxlen) := by
  unfold receive
  by_cases h : rxlen.toNat ≤ 1534
  · rw [eth_rx.spec mac s packet _ rxb rxlen h]
    exact outcome_safe L mac (s.loaded rxb rxlen.toNat) packet (by simp [Net.loaded]; omega)
  · rw [eth_rx_long mac s packet _ rxb rxlen (by omega)]
    exact Safe.same s

end os_workshop.netboot
