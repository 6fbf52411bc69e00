-- The frames of one node as another node receives them: every field of the
-- headers stands where the receive path looks for it.
import OsWorkshop.Ipv6Rx

open os_workshop.memory (Byte Word le32 word)
open os_workshop.octets

namespace os_workshop.net

variable {σ : Type}

/-- A frame in a slot of the MAC. -/
def slot (f : List Byte) : Octets := fun i => f[i]?.getD 0

theorem slice_slot (f : List Byte) : slice (slot f) 0 f.length = f := by
  apply List.ext_getElem (by simp)
  intro i h1 h2
  rw [slice_get, Nat.zero_add]
  simp [slot, h2]

/-! ## The fields of a frame -/

section

variable (mac : Mac) (dst_mac dst_ip : List Byte) (next : Byte) (payload : List Byte)

/-- A frame of this interface, with the padding before it. -/
def padded_frame : List Byte := [0, 0] ++ ip6_frame mac dst_mac dst_ip next payload

variable {dst_mac dst_ip}

theorem own_headers_length (h1 : dst_mac.length = 6) (h2 : dst_ip.length = 16) (n : Nat) :
    (ip6_headers dst_mac mac.octets (ip6lla_from_ethmac mac) dst_ip n next).length = 54 :=
  ip6_headers_length _ _ _ _ _ _ h1 rfl rfl h2

theorem padded_frame_length (h1 : dst_mac.length = 6) (h2 : dst_ip.length = 16) :
    (padded_frame mac dst_mac dst_ip next payload).length = 56 + payload.length := by
  simp [padded_frame, ip6_frame, own_headers_length mac next h1 h2]
  omega

theorem frame_dst (h1 : dst_mac.length = 6) :
    part (padded_frame mac dst_mac dst_ip next payload) 0 8 = [0, 0] ++ dst_mac := by
  have e : padded_frame mac dst_mac dst_ip next payload =
      [] ++ (([0, 0] ++ dst_mac) ++ (mac.octets ++ [0x86, 0xDD] ++ [0x60, 0, 0, 0] ++
        be16 (BitVec.ofNat 16 payload.length) ++ [next] ++ [255] ++ ip6lla_from_ethmac mac ++
        dst_ip ++ payload)) := by
    simp [padded_frame, ip6_frame, ip6_headers]
  rw [e]
  exact part_mid _ _ _ _ _ rfl (by simp [h1])

theorem frame_type (h1 : dst_mac.length = 6) :
    part (padded_frame mac dst_mac dst_ip next payload) 14 2 = [0x86, 0xDD] := by
  have e : padded_frame mac dst_mac dst_ip next payload =
      ([0, 0] ++ dst_mac ++ mac.octets) ++ ([0x86, 0xDD] ++ ([0x60, 0, 0, 0] ++
        be16 (BitVec.ofNat 16 payload.length) ++ [next] ++ [255] ++ ip6lla_from_ethmac mac ++
        dst_ip ++ payload)) := by
    simp [padded_frame, ip6_frame, ip6_headers]
  rw [e]
  exact part_mid _ _ _ _ _ (by simp [h1]) rfl

theorem frame_next (h1 : dst_mac.length = 6) :
    part (padded_frame mac dst_mac dst_ip next payload) 22 2 = [next, 255] := by
  have e : padded_frame mac dst_mac dst_ip next payload =
      ([0, 0] ++ dst_mac ++ mac.octets ++ [0x86, 0xDD] ++ [0x60, 0, 0, 0] ++
        be16 (BitVec.ofNat 16 payload.length)) ++ ([next, 255] ++ (ip6lla_from_ethmac mac ++
        dst_ip ++ payload)) := by
    simp [padded_frame, ip6_frame, ip6_headers]
  rw [e]
  exact part_mid _ _ _ _ _ (by simp [h1]) rfl

theorem frame_src_ip (h1 : dst_mac.length = 6) :
    part (padded_frame mac dst_mac dst_ip next payload) 24 16 = ip6lla_from_ethmac mac := by
  have e : padded_frame mac dst_mac dst_ip next payload =
      ([0, 0] ++ dst_mac ++ mac.octets ++ [0x86, 0xDD] ++ [0x60, 0, 0, 0] ++
        be16 (BitVec.ofNat 16 payload.length) ++ [next, 255]) ++ (ip6lla_from_ethmac mac ++
        (dst_ip ++ payload)) := by
    simp [padded_frame, ip6_frame, ip6_headers]
  rw [e]
  exact part_mid _ _ _ _ _ (by simp [h1]) rfl

theorem frame_dst_ip (h1 : dst_mac.length = 6) (h2 : dst_ip.length = 16) :
    part (padded_frame mac dst_mac dst_ip next payload) 40 16 = dst_ip := by
  have e : padded_frame mac dst_mac dst_ip next payload =
      ([0, 0] ++ dst_mac ++ mac.octets ++ [0x86, 0xDD] ++ [0x60, 0, 0, 0] ++
        be16 (BitVec.ofNat 16 payload.length) ++ [next, 255] ++ ip6lla_from_ethmac mac) ++
        (dst_ip ++ payload) := by
    simp [padded_frame, ip6_frame, ip6_headers]
  rw [e]
  exact part_mid _ _ _ _ _ (by simp [h1]) h2

theorem frame_payload (h1 : dst_mac.length = 6) (h2 : dst_ip.length = 16) (off n : Nat) :
    part (padded_frame mac dst_mac dst_ip next payload) (56 + off) n = part payload off n := by
  unfold padded_frame ip6_frame
  rw [← List.append_assoc, part_right _ _ _ _ (by
    simp [own_headers_length mac next h1 h2])]
  congr 1
  simp [own_headers_length mac next h1 h2]

end

/-! ## Who takes a frame in -/

/-- Whether the interface takes in a packet to these addresses, and if so whether by
multicast. -/
def takes_in (mac : Mac) (dst_mac dst_ip : List Byte) : Option Bool :=
  if dst_mac = mac.octets then
    if dst_ip = ip6lla_from_ethmac mac then some false else none
  else if dst_mac = ethmac_from_ip6mc (ip6ns_from_ethmac mac) ∨ dst_mac = m_ll_mac.drop 2 then
    if dst_ip = mcast_ll_ip6 ∨ dst_ip = ip6ns_from_ethmac mac then some true else none
  else none

/-- A frame of another interface is judged by its addresses, and then by its payload. -/
theorem classify_frame (A B : Mac) {dst_mac dst_ip : List Byte} (next : Byte) (payload : List Byte)
    (h1 : dst_mac.length = 6) (h2 : dst_ip.length = 16) (hp : 4 ≤ payload.length) :
    classify A (padded_frame B dst_mac dst_ip next payload) =
      match takes_in A dst_mac dst_ip with
      | some mcast =>
        if next = IP_HDR_ICMP then classify_icmp A (padded_frame B dst_mac dst_ip next payload)
        else if next = IP_HDR_UDP then
          classify_udp (padded_frame B dst_mac dst_ip next payload) mcast
        else .ignored
      | none => .ignored := by
  have hr := padded_frame_length B next payload h1 h2
  have htype := @frame_type B _ dst_ip next payload h1
  have hdst := @frame_dst B _ dst_ip next payload h1
  have hip := frame_dst_ip B next payload h1 h2
  have hnext : octet (padded_frame B dst_mac dst_ip next payload) 22 = next := by
    have h := octet_part (padded_frame B dst_mac dst_ip next payload) 22 2 0 (by omega)
    rw [frame_next B next payload h1] at h
    exact h.symm
  generalize padded_frame B dst_mac dst_ip next payload = F at *
  have e1 : part F 0 8 = (net_init A).m_ifc_mac ↔ dst_mac = A.octets := by
    rw [hdst]
    exact List.append_right_inj [0, 0]
  have e2 : part F 0 8 = (net_init A).m_ns_mac ↔
      dst_mac = ethmac_from_ip6mc (ip6ns_from_ethmac A) := by
    rw [hdst]
    exact List.append_right_inj [0, 0]
  have e3 : part F 0 8 = m_ll_mac ↔ dst_mac = m_ll_mac.drop 2 := by
    rw [hdst]
    exact @List.append_right_inj _ dst_mac (m_ll_mac.drop 2) [0, 0]
  unfold classify addressed takes_in
  rw [hr, if_pos ⟨by omega, htype⟩]
  have hown : ours A F false ↔ dst_ip = ip6lla_from_ethmac A := by
    rw [← hip]
    rfl
  have hgroup : ours A F true ↔ dst_ip = mcast_ll_ip6 ∨ dst_ip = ip6ns_from_ethmac A := by
    rw [← hip]
    rfl
  simp only [e1, e2, e3]
  unfold classify_ip6
  rw [hnext]
  by_cases hm : dst_mac = A.octets
  · rw [if_pos hm, if_pos hm]
    dsimp only
    rw [if_congr hown rfl rfl]
    by_cases hd : dst_ip = ip6lla_from_ethmac A
    · rw [if_pos hd, if_pos hd]
    · rw [if_neg hd, if_neg hd]
  · rw [if_neg hm, if_neg hm]
    by_cases hg : dst_mac = ethmac_from_ip6mc (ip6ns_from_ethmac A) ∨ dst_mac = m_ll_mac.drop 2
    · have hsome : (if dst_mac = ethmac_from_ip6mc (ip6ns_from_ethmac A) then some true
          else if dst_mac = m_ll_mac.drop 2 then some true else none) = some true := by
        rcases hg with hg | hg
        · exact if_pos hg
        · rw [if_pos hg, ite_self]
      rw [hsome, if_pos hg]
      dsimp only
      rw [if_congr hgroup rfl rfl]
      by_cases hd : dst_ip = mcast_ll_ip6 ∨ dst_ip = ip6ns_from_ethmac A
      · rw [if_pos hd, if_pos hd]
      · rw [if_neg hd, if_neg hd]
    · obtain ⟨hg1, hg2⟩ := not_or.mp hg
      rw [if_neg hg1, if_neg hg2, if_neg hg]

end os_workshop.net
