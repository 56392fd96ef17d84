import Osnt.Proofs.IpForward
import Osnt.Proofs.NatChecksums
import Osnt.Scone.Icmp

/-! When an echo reply mirrors the request. The length of the reply and what its checksum covers
are taken from the frame, and a last byte that stands alone is left out of the checksum. -/
namespace Osnt.Scone.Icmp
open Lib Lib.Buffer
open Pwospf (complementSum complementSum_eq_zero_iff add_complementSum_mod)
open OrNat (sumIcmp ipProtoIcmp ipLength)
open IpForward (computeIpChecksum computeIpChecksum_eq populateEthHdr populateEthHdr_spec
  headerSum headerSum_congr headerWords verifyChecksum_of_complement ethTypeIp)

/-- The reply has the length of the request, its data and its addresses in exchange, and both its
checksums are right. -/
structure Mirrors (packet reply : Bytes) : Prop where
  length : ipLength reply = ipLength packet
  data : ∀ k, 38 ≤ k → k < 14 + ipLength packet → reply[k]? = packet[k]?
  source : load32 reply 26 = load32 packet 30
  destination : load32 reply 30 = load32 packet 26
  ipSum : Ip.verifyChecksum (reply.drop 14) 20 = 0
  icmpSum : OnesComplement.sum (2 ^ 16)
    (halfwords ((reply.drop 34).take (ipLength packet - 20))) = 0xFFFF

/-- All halfwords of a message but the checksum. -/
def icmpSum (b : Bytes) : Nat → Nat
  | 0 => 0
  | n + 1 => icmpSum b n + if n = 1 then 0 else (be16 b (34 + 2 * n)).toNat

theorem sumIcmp_eq {b : Bytes} {n : Nat} (h : 34 + 2 * n ≤ b.length) :
    sumIcmp b n = some (icmpSum b n) := by
  induction n with
  | zero => rfl
  | succ n ih =>
    rw [sumIcmp, ih (by omega), icmpSum, load16_eq, if_pos (by omega)]
    by_cases hn : n = 1
    · simp [hn]
    · simp [hn]

theorem icmpSum_congr {b b' : Bytes} {n : Nat}
    (h : ∀ i < n, i ≠ 1 → be16 b' (34 + 2 * i) = be16 b (34 + 2 * i)) :
    icmpSum b' n = icmpSum b n := by
  induction n with
  | zero => rfl
  | succ n ih =>
    rw [icmpSum, icmpSum, ih fun i hi => h i (by omega)]
    split
    · rfl
    · rename_i hn
      rw [h n (by omega) hn]

theorem icmpSum_le (b : Bytes) (n : Nat) : icmpSum b n ≤ n * 65535 := by
  induction n with
  | zero => exact Nat.zero_le _
  | succ n ih =>
    have hterm : (if n = 1 then 0 else (be16 b (34 + 2 * n)).toNat) < 65536 := by
      split
      · omega
      · exact BitVec.isLt _
    rw [icmpSum]
    omega

theorem wordSum_succ (b : Bytes) (o n : Nat) :
    wordSum b o (n + 1) = wordSum b o n + (be16 b (o + 2 * n)).toNat := by
  unfold wordSum
  rw [List.range_succ, List.map_append, List.sum_append, List.map_singleton, List.sum_singleton]

theorem wordSum_message (b : Bytes) {n : Nat} (hn : 2 ≤ n) :
    wordSum b 34 n = icmpSum b n + (be16 b 36).toNat := by
  induction n, hn using Nat.le_induction with
  | base => simp [wordSum, icmpSum, List.range_succ]
  | succ n hn ih =>
    rw [wordSum_succ, ih, icmpSum, if_neg (by omega)]
    omega

theorem wordSum_of_complement {b : Bytes} {n : Nat} (hn : 2 ≤ n) (hle : n < 65536)
    (hsum : be16 b 36 = complementSum (icmpSum b n)) :
    wordSum b 34 n % 65535 = 0 ∧ wordSum b 34 n ≠ 0 := by
  have hbound : icmpSum b n < 65535 * 65536 := by
    have := icmpSum_le b n
    omega
  have hmod := add_complementSum_mod hbound
  have hzero := complementSum_eq_zero_iff hbound
  rw [wordSum_message b hn, hsum]
  omega

theorem sum_halfwords (b : Bytes) {o n : Nat} (h : o + n = b.length) :
    (halfwords ((b.drop o).take n)).sum = wordSum b o ((n + 1) / 2) := by
  have hlen : (b.drop o).length = n := by
    rw [List.length_drop]
    omega
  rw [List.take_of_length_le hlen.le]
  unfold halfwords wordSum
  rw [hlen]
  refine congrArg List.sum (List.map_congr_left fun i _ => congrArg BitVec.toNat ?_)
  rw [be16, be16, getD_drop, getD_drop, Nat.add_assoc]

/-- With the last byte that stands alone the checksum is right if and only if that is zero. -/
theorem verifies_iff {b : Bytes} (hlen : 38 ≤ b.length) (hle : b.length < 65550)
    (hsum : be16 b 36 = complementSum (icmpSum b ((b.length - 34) / 2))) :
    OnesComplement.sum (2 ^ 16) (halfwords ((b.drop 34).take (b.length - 34))) = 0xFFFF ↔
      b.length % 2 = 0 ∨ b.getD (b.length - 1) 0 = 0 := by
  have hdigits := halfwords_lt ((b.drop 34).take (b.length - 34))
  refine (OnesComplement.sum_eq_max_iff (by decide) hdigits).trans ?_
  rw [sum_halfwords b (by omega)]
  obtain ⟨hmod, hnonzero⟩ := wordSum_of_complement (by omega) (by omega) hsum
  rcases Nat.mod_two_eq_zero_or_one b.length with heven | hodd
  · rw [show (b.length - 34 + 1) / 2 = (b.length - 34) / 2 by omega]
    exact iff_of_true ⟨hmod, hnonzero⟩ (.inl heven)
  · have hlast : (be16 b (34 + 2 * ((b.length - 34) / 2))).toNat =
        256 * (b.getD (b.length - 1) 0).toNat := by
      rw [show 34 + 2 * ((b.length - 34) / 2) = b.length - 1 by omega, be16,
        show b.length - 1 + 1 = b.length by omega, List.getD_eq_default b 0 (Nat.le_refl _),
        BitVec.toNat_append, ← Nat.shiftLeft_add_eq_or_of_lt (by decide)]
      simp [Nat.shiftLeft_eq, Nat.mul_comm]
    have hbyte := (b.getD (b.length - 1) 0).isLt
    have hzero : b.getD (b.length - 1) 0 = 0 ↔ (b.getD (b.length - 1) 0).toNat = 0 :=
      BitVec.toNat_eq
    rw [show (b.length - 34 + 1) / 2 = (b.length - 34) / 2 + 1 by omega, wordSum_succ, hlast, hzero]
    omega

/-- What stands in an echo reply. -/
structure IsReply (packet reply : Bytes) : Prop where
  length : reply.length = packet.length
  data : ∀ k ≥ 38, reply[k]? = packet[k]?
  ipLen : be16 reply 16 = BitVec.ofNat 16 (packet.length - 14)
  source : load32 reply 26 = load32 packet 30
  destination : load32 reply 30 = load32 packet 26
  ipSum : Ip.verifyChecksum (reply.drop 14) 20 = 0
  icmpSum : be16 reply 36 = complementSum (icmpSum reply ((packet.length - 34) / 2))

section
variable {packet reply : Bytes}

theorem setIcmpSum_spec {packet : Bytes} {n : Nat} (hlen : packet.length = 38 + n) :
    ∃ packet', setIcmpSum packet n = some packet' ∧ packet'.length = packet.length ∧
      (∀ k, k < 36 ∨ 38 ≤ k → packet'[k]? = packet[k]?) ∧
      be16 packet' 36 = complementSum (icmpSum packet' ((4 + n) / 2)) := by
  obtain ⟨packet₁, h₁⟩ := store16_isSome (b := packet) (o := 36) (by omega) 0
  obtain ⟨hlen₁, hframe₁, -⟩ := store16_spec h₁
  have hsum := @sumIcmp_eq packet₁ ((4 + n) / 2) (by omega)
  obtain ⟨packet₂, h₂⟩ := store16_isSome (b := packet₁) (o := 36) (by omega)
    (swap16 (complementSum (icmpSum packet₁ ((4 + n) / 2))))
  obtain ⟨hlen₂, hframe₂, hload₂⟩ := store16_spec h₂
  refine ⟨packet₂, ?_, hlen₂.trans hlen₁, fun k hk => (hframe₂ k hk).trans (hframe₁ k hk), ?_⟩
  · unfold setIcmpSum
    simp only [h₁, hsum, Option.bind_eq_bind, Option.bind_some]
    exact h₂
  · rw [be16_of_load16 hload₂, swap16_swap16]
    refine congrArg complementSum (icmpSum_congr fun i _ hi => ?_).symm
    exact be16_congr fun k hk hk' => hframe₂ k (by omega)

/-- The header that `populate_ip` writes, as far as it is read again. -/
structure IpHeader (packet : Bytes) (payloadSize : BitVec 16) (sourceIp destIp : BitVec 32) :
    Prop where
  first : packet[14]? = some 0x45
  ipLen : be16 packet 16 = 20 + payloadSize
  source : load32 packet 26 = some sourceIp
  destination : load32 packet 30 = some destIp

theorem append_bytes32 (v : BitVec 32) : v.extractLsb' 24 8 ++ v.extractLsb' 16 8 ++
    v.extractLsb' 8 8 ++ v.extractLsb' 0 8 = v := by
  apply BitVec.eq_of_getLsbD_eq
  intro i hi
  simp only [BitVec.getLsbD_append, BitVec.getLsbD_extractLsb']
  grind

theorem populateIp_spec {payloadSize : BitVec 16} {protocol : BitVec 8}
    {sourceIp destIp : BitVec 32} (hlen : 34 ≤ packet.length) :
    ∃ packet', populateIp packet 14 payloadSize protocol sourceIp destIp = some packet' ∧
      packet'.length = packet.length ∧ (∀ k ≥ 34, packet'[k]? = packet[k]?) ∧
      IpHeader packet' payloadSize sourceIp destIp := by
  have hheader : (ipHeader payloadSize protocol sourceIp destIp).length = 20 := rfl
  obtain ⟨packet', h⟩ := @storeBytes_isSome packet 14
    (ipHeader payloadSize protocol sourceIp destIp) (by omega)
  obtain ⟨hlen', hframe⟩ := storeBytes_spec h
  have hat : ∀ i < 20, packet'[14 + i]? = (ipHeader payloadSize protocol sourceIp destIp)[i]? :=
    fun i hi => storeBytes_at h hi
  refine ⟨packet', h, hlen', fun k hk => hframe k (by omega), hat 0 (by omega), ?_, ?_, ?_⟩
  · have hlow := hat 2 (by omega)
    have hhigh := hat 3 (by omega)
    rw [be16, List.getD_eq_getElem?_getD, List.getD_eq_getElem?_getD, hlow, hhigh]
    exact append_halves16 _
  · unfold load32
    rw [hat 12 (by omega), hat 13 (by omega), hat 14 (by omega), hat 15 (by omega)]
    exact congrArg some (append_bytes32 sourceIp)
  · unfold load32
    rw [hat 16 (by omega), hat 17 (by omega), hat 18 (by omega), hat 19 (by omega)]
    exact congrArg some (append_bytes32 destIp)

/-- The headers behind `compute_ip_checksum` and `populate_eth_hdr`. -/
theorem finish_spec {packet : Bytes} {payloadSize : BitVec 16} {sourceIp destIp : BitVec 32}
    (h : IpHeader packet payloadSize sourceIp destIp) (hlen : 34 ≤ packet.length)
    (addr : Arp.Mac) :
    ∃ reply, (do
      let (checksum, packet) ← computeIpChecksum packet 14
      let packet ← store16 packet 24 (swap16 checksum)
      populateEthHdr packet addr ethTypeIp) = some reply ∧
    reply.length = packet.length ∧
    (∀ k, 14 ≤ k → k < 24 ∨ 26 ≤ k → reply[k]? = packet[k]?) ∧
    Ip.verifyChecksum (reply.drop 14) 20 = 0 := by
  have hwords : headerWords packet 14 = 10 := by
    unfold headerWords
    rw [getD_of_load8 h.first]
    rfl
  obtain ⟨packet₁, hclear, h₁⟩ := @computeIpChecksum_eq packet 14 (by omega) (by omega)
  rw [hwords] at h₁
  generalize hchecksum : complementSum (headerSum packet 14 10) = checksum at h₁
  obtain ⟨hlen₁, hframe₁, -⟩ := store16_spec hclear
  obtain ⟨packet₂, h₂⟩ := store16_isSome (b := packet₁) (o := 24) (by omega) (swap16 checksum)
  obtain ⟨hlen₂, hframe₂, hload₂⟩ := store16_spec h₂
  obtain ⟨reply, h₃⟩ : ∃ reply, populateEthHdr packet₂ addr ethTypeIp = some reply := by
    obtain ⟨packet₃, h₃⟩ := @storeBytes_isSome packet₂ 6 (IpForward.macBytes addr)
      (by simp [IpForward.macBytes]; omega)
    obtain ⟨reply, h₄⟩ := store16_isSome (b := packet₃) (o := 12)
      (by rw [(storeBytes_spec h₃).1]; omega) (swap16 ethTypeIp)
    refine ⟨reply, ?_⟩
    unfold populateEthHdr
    rw [h₃]
    exact h₄
  obtain ⟨hlen₃, -, hframe₃⟩ := populateEthHdr_spec h₃
  have hframe : ∀ k, 14 ≤ k → k < 24 ∨ 26 ≤ k → reply[k]? = packet[k]? := fun k hk hout => by
    rw [hframe₃ k hk, hframe₂ k (by omega), hframe₁ k (by omega)]
  refine ⟨reply, ?_, by omega, hframe, ?_⟩
  · simp only [h₁, h₂, Option.bind_eq_bind, Option.bind_some]
    exact h₃
  · apply @verifyChecksum_of_complement reply 14 10 (by decide) (by decide)
    rw [be16_congr fun k hk _ => hframe₃ k (by omega), be16_of_load16 hload₂, swap16_swap16,
      ← hchecksum, headerSum_congr fun i hi hne => be16_congr fun k hk hk' =>
        hframe k (by omega) (by omega)]

theorem newPacket_reply (hlen : 42 ≤ packet.length) (icmpCode : BitVec 8) (ifaceIp : BitVec 32)
    (addr : Arp.Mac) :
    ∃ reply, newPacket packet icmpTypeEchoReply icmpCode ifaceIp addr = some reply ∧
      IsReply packet reply := by
  obtain ⟨n, hn⟩ : ∃ n, packet.length = 38 + n := ⟨packet.length - 38, by omega⟩
  have hpayloadLen : payloadLen packet icmpTypeEchoReply = some n := by
    unfold payloadLen
    rw [if_pos rfl, if_pos (by omega), hn, Nat.add_sub_cancel_left]
  have hpayload : payload packet icmpTypeEchoReply n = some ((packet.drop 38).take n) := by
    unfold payload slice
    rw [if_pos rfl, if_pos (by omega)]
  have hmessage : ([icmpTypeEchoReply, icmpCode, 0, 0] ++ (packet.drop 38).take n).length =
      4 + n := by
    rw [List.length_append, List.length_take, List.length_drop]
    change 4 + min n (packet.length - 38) = 4 + n
    omega
  obtain ⟨ipSrc, hipSrc⟩ : ∃ v, load32 packet 26 = some v := by
    rw [load32_eq, if_pos (by omega)]
    exact ⟨_, rfl⟩
  obtain ⟨ipDst, hipDst⟩ : ∃ v, load32 packet 30 = some v := by
    rw [load32_eq, if_pos (by omega)]
    exact ⟨_, rfl⟩
  obtain ⟨packet₁, h₁⟩ := @storeBytes_isSome (List.replicate (38 + n) 0) 34
    ([icmpTypeEchoReply, icmpCode, 0, 0] ++ (packet.drop 38).take n)
    (by rw [hmessage, List.length_replicate]; omega)
  have hlen₁ : packet₁.length = 38 + n := (storeBytes_spec h₁).1.trans List.length_replicate
  have hdata₁ : ∀ k ≥ 38, packet₁[k]? = packet[k]? := by
    intro k hk
    obtain ⟨i, rfl⟩ : ∃ i, k = 38 + i := ⟨k - 38, by omega⟩
    rcases Nat.lt_or_ge i n with hi | hi
    · rw [show 38 + i = 34 + (4 + i) by omega, storeBytes_at h₁ (by omega),
        List.getElem?_append_right (Nat.le_add_right 4 i),
        show 4 + i - [icmpTypeEchoReply, icmpCode, 0, 0].length = i from
          Nat.add_sub_cancel_left 4 i,
        List.getElem?_take_of_lt hi, List.getElem?_drop, show 34 + (4 + i) = 38 + i by omega]
    · rw [List.getElem?_eq_none (by omega), List.getElem?_eq_none (by omega)]
  obtain ⟨packet₂, h₂, hlen₂, hframe₂, hsum₂⟩ := setIcmpSum_spec hlen₁
  obtain ⟨packet₃, h₃, hlen₃, hframe₃, hheader⟩ :=
    @populateIp_spec packet₂ (4 + BitVec.ofNat 16 n) ipProtoIcmp ipDst ipSrc (by omega)
  obtain ⟨reply, h₄, hlen₄, hframe₄, hverifies⟩ := finish_spec hheader (by omega) addr
  have hwords : ∀ p ≥ 34, be16 reply p = be16 packet₂ p := fun p hp =>
    be16_congr fun k hk _ => (hframe₄ k (by omega) (by omega)).trans (hframe₃ k (by omega))
  refine ⟨reply, ?_, by omega, fun k hk => ?_, ?_, ?_, ?_, hverifies, ?_⟩
  · unfold newPacket populateIcmp
    simp only [hpayloadLen, hpayload, h₁, h₂, hipSrc, hipDst, Option.bind_eq_bind,
      Option.bind_some, true_or, if_true, h₃]
    exact h₄
  · rw [hframe₄ k (by omega) (by omega), hframe₃ k (by omega), hframe₂ k (by omega), hdata₁ k hk]
  · rw [be16_congr fun k hk hk' => hframe₄ k (by omega) (by omega), hheader.ipLen]
    apply BitVec.eq_of_toNat_eq
    simp only [BitVec.toNat_add, BitVec.toNat_ofNat, hn, BitVec.ofNat_eq_ofNat]
    omega
  · rw [load32_congr fun k hk _ => hframe₄ k (by omega) (by omega), hheader.source, hipDst]
  · rw [load32_congr fun k hk _ => hframe₄ k (by omega) (by omega), hheader.destination, hipSrc]
  · rw [hwords 36 (by omega), hsum₂, show (packet.length - 34) / 2 = (4 + n) / 2 by omega]
    exact congrArg complementSum (icmpSum_congr fun i _ _ => hwords _ (by omega)).symm

/-- The reply mirrors the request if and only if there is no padding behind it and no odd byte at
its end but a zero. -/
theorem IsReply.mirrors_iff (h : IsReply packet reply) (hlen : 42 ≤ packet.length)
    (hle : packet.length < 65550) (hinside : 14 + ipLength packet ≤ packet.length) :
    Mirrors packet reply ↔ packet.length = 14 + ipLength packet ∧
      (ipLength packet % 2 = 0 ∨ packet.getD (13 + ipLength packet) 0 = 0) := by
  have hreply : ipLength reply = packet.length - 14 := by
    rw [ipLength, h.ipLen, BitVec.toNat_ofNat, Nat.mod_eq_of_lt (by omega)]
  have hlength := h.length
  have hsum := h.icmpSum
  rw [← hlength] at hsum
  have hverifies := verifies_iff (by omega) (by omega) hsum
  have hlast : reply.getD (reply.length - 1) 0 = packet.getD (packet.length - 1) 0 := by
    rw [hlength]
    exact getD_congr (h.data _ (by omega))
  rw [hlast, hlength] at hverifies
  constructor
  · intro hmirrors
    have hsame := hmirrors.length
    have hgood := hmirrors.icmpSum
    rw [show ipLength packet - 20 = packet.length - 34 by omega] at hgood
    refine ⟨by omega, ?_⟩
    rw [show 13 + ipLength packet = packet.length - 1 by omega]
    exact (hverifies.mp hgood).imp_left fun heven => by omega
  · rintro ⟨hwhole, hlast⟩
    refine ⟨by omega, fun k hk _ => h.data k hk, h.source, h.destination, h.ipSum, ?_⟩
    rw [show 13 + ipLength packet = packet.length - 1 by omega] at hlast
    rw [show ipLength packet - 20 = packet.length - 34 by omega]
    exact hverifies.mpr (hlast.imp_left fun heven => by omega)

/-- For every echo request with a route back there is a reply, and it mirrors the request if and
only if the frame ends where the request does and no odd byte but a zero stands at the end. The
callers read frames of at most 65536 bytes. -/
theorem echo_reply_mirrors_iff (rtable : List Rtable.Entry) (ifList : List Iface.Entry)
    (addr : Nat → Arp.Mac) (hle : packet.length ≤ 65536)
    (hrequest : load8 packet 34 = some icmpTypeEchoRequest) (hshort : 28 ≤ ipLength packet)
    (hinside : ipLength packet ≤ packet.length - 14) {src nextHop : BitVec 32} {iface : String}
    (hsrc : load32 packet 26 = some src)
    (hroute : Rtable.getNextHop 32 rtable (swap32 src) = some (nextHop, iface)) {k : Nat}
    (hiface : Iface.getIface ifList iface = some k) :
    ∃ sent : Sent, processIcmpPacket rtable ifList addr packet = some (some sent) ∧
      sent.nextHop = swap32 nextHop ∧
      (Mirrors packet sent.packet ↔ packet.length = 14 + ipLength packet ∧
        (ipLength packet % 2 = 0 ∨ packet.getD (13 + ipLength packet) 0 = 0)) := by
  obtain ⟨hk, -⟩ := List.findIdx?_eq_some_iff_getElem.mp hiface
  obtain ⟨reply, hreply, hisReply⟩ := @newPacket_reply packet (by omega) icmpCodeEcho
    ifList[k].ip (addr k)
  refine ⟨⟨reply, swap32 nextHop, ifList[k].name⟩, ?_, rfl,
    hisReply.mirrors_iff (by omega) (by omega) (by omega)⟩
  unfold processIcmpPacket sendIcmpPacket
  simp only [hrequest, hsrc, hroute, hiface, List.getElem?_eq_getElem hk, hreply,
    Option.bind_eq_bind, Option.bind_some, if_true]
  rfl

end

def homeRoute : List Rtable.Entry :=
  [⟨0x0a000000, 0, 0xff000000, "eth0", true, true, Iface.eth0_lt⟩]

/-- For 10.0.0.1, with an identifier and a sequence number, some data and padding. -/
def pingFrom (ipLen : BitVec 8) (data padding : Bytes) : Bytes :=
  List.replicate 12 0 ++ [8, 0, 69, 0, 0, ipLen, 0, 0, 0, 0, 64, 1, 0, 0, 10, 0, 0, 2, 10, 0, 0, 1,
    8, 0, 0, 0, 0, 7, 0, 1] ++ data ++ padding

theorem echo_reply_mirrors_iff_ping :
    ∃ sent : Sent, processIcmpPacket homeRoute IpForward.twoPorts.ifList IpForward.portAddr
        (pingFrom 30 [65, 66] []) = some (some sent) ∧
      sent.nextHop = 0x0200000a ∧ Mirrors (pingFrom 30 [65, 66] []) sent.packet := by
  have hiface : Iface.getIface IpForward.twoPorts.ifList "eth0" = some 0 := by decide +kernel
  have hroute : Rtable.getNextHop 32 homeRoute (swap32 0x0200000a) =
      some (0x0a000002, "eth0") := by decide +kernel
  obtain ⟨sent, hsent, hhop, hiff⟩ := @echo_reply_mirrors_iff (pingFrom 30 [65, 66] []) homeRoute
    IpForward.twoPorts.ifList IpForward.portAddr (by decide +kernel) (by decide +kernel)
    (by decide +kernel) (by decide +kernel) 0x0200000a _ _ (by decide +kernel) hroute 0 hiface
  exact ⟨sent, hsent, hhop.trans (by decide +kernel),
    hiff.mpr ⟨by decide +kernel, .inl (by decide +kernel)⟩⟩

/-- Padding makes the reply longer, and an odd byte makes its checksum wrong. -/
theorem echo_reply_differs :
    (∃ sent : Sent, processIcmpPacket homeRoute IpForward.twoPorts.ifList IpForward.portAddr
        (pingFrom 28 [] (List.replicate 18 0)) = some (some sent) ∧
      ipLength sent.packet = 46) ∧
    ∃ sent : Sent, processIcmpPacket homeRoute IpForward.twoPorts.ifList IpForward.portAddr
        (pingFrom 29 [65] []) = some (some sent) ∧
      OnesComplement.sum (2 ^ 16) (halfwords ((sent.packet.drop 34).take 9)) ≠ 0xFFFF := by
  have hpadded : ((processIcmpPacket homeRoute IpForward.twoPorts.ifList IpForward.portAddr
      (pingFrom 28 [] (List.replicate 18 0))).any fun answer =>
        answer.any fun sent => ipLength sent.packet == 46) = true := by decide +kernel
  have hodd : ((processIcmpPacket homeRoute IpForward.twoPorts.ifList IpForward.portAddr
      (pingFrom 29 [65] [])).any fun answer => answer.any fun sent =>
        OnesComplement.sum (2 ^ 16) (halfwords ((sent.packet.drop 34).take 9)) != 0xFFFF) =
          true := by decide +kernel
  constructor
  · obtain ⟨answer, hanswer, hsent⟩ := (Option.any_eq_true _ _).mp hpadded
    obtain ⟨sent, rfl, hlength⟩ := (Option.any_eq_true _ _).mp hsent
    exact ⟨sent, hanswer, beq_iff_eq.mp hlength⟩
  · obtain ⟨answer, hanswer, hsent⟩ := (Option.any_eq_true _ _).mp hodd
    obtain ⟨sent, rfl, hsum⟩ := (Option.any_eq_true _ _).mp hsent
    exact ⟨sent, hanswer, bne_iff_ne.mp hsum⟩

end Osnt.Scone.Icmp
