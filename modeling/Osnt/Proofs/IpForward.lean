import Osnt.Proofs.IpChecksum

namespace Osnt.Scone.IpForward
open Lib Lib.Buffer
open OrNat (NatEntry NatType NatIpPortPair)
open PacketPath (RouterState pwospfHelloTip)

/-- The bytes before the checksum of the IP header stay. -/
structure KeepsHead (packet packet' : Bytes) : Prop where
  length : packet'.length = packet.length
  frame : ∀ k < 24, packet'[k]? = packet[k]?

section
variable {packet packet' packet'' : Bytes}

theorem KeepsHead.refl (packet : Bytes) : KeepsHead packet packet := ⟨rfl, fun _ _ => rfl⟩

theorem KeepsHead.trans (h : KeepsHead packet packet') (h' : KeepsHead packet' packet'') :
    KeepsHead packet packet'' :=
  ⟨h'.length.trans h.length, fun k hk => (h'.frame k hk).trans (h.frame k hk)⟩

theorem store16_keepsHead {o : Nat} {v : BitVec 16} (h : store16 packet o v = some packet')
    (ho : 24 ≤ o) : KeepsHead packet packet' :=
  ⟨(store16_spec h).1, fun k hk => (store16_spec h).2.1 k (.inl (Nat.lt_of_lt_of_le hk ho))⟩

theorem store32_keepsHead {o : Nat} {v : BitVec 32} (h : store32 packet o v = some packet')
    (ho : 24 ≤ o) : KeepsHead packet packet' :=
  ⟨(store32_spec h).1, fun k hk => (store32_spec h).2.1 k (.inl (Nat.lt_of_lt_of_le hk ho))⟩

theorem adjust16_keepsHead {o : Nat} {pos neg : BitVec 16}
    (h : OrNat.adjust16 packet o pos neg = some packet') (ho : 24 ≤ o) :
    KeepsHead packet packet' := by
  obtain ⟨sum, -, h⟩ := Option.bind_eq_some_iff.mp h
  exact store16_keepsHead h ho

theorem fillIcmpChecksum_keepsHead (h : OrNat.fillIcmpChecksum packet = some packet') :
    KeepsHead packet packet' := by
  obtain ⟨len, -, h⟩ := Option.bind_eq_some_iff.mp h
  obtain ⟨packet₁, h₁, h⟩ := Option.bind_eq_some_iff.mp h
  obtain ⟨sum, -, h⟩ := Option.bind_eq_some_iff.mp h
  exact (store16_keepsHead h₁ (by decide)).trans (store16_keepsHead h (by decide))

theorem rewriteChecksums_keepsHead {new old : NatIpPortPair}
    (h : OrNat.rewriteChecksums packet new old = some packet') : KeepsHead packet packet' := by
  obtain ⟨packet₁, h₁, h⟩ := Option.bind_eq_some_iff.mp h
  refine KeepsHead.trans ?_ (adjust16_keepsHead h (by decide))
  obtain ⟨ipP, -, h₁⟩ := Option.bind_eq_some_iff.mp h₁
  split at h₁
  · exact adjust16_keepsHead h₁ (by decide)
  split at h₁
  · exact adjust16_keepsHead h₁ (by decide)
  split at h₁
  · obtain ⟨icmpType, -, h₁⟩ := Option.bind_eq_some_iff.mp h₁
    split at h₁
    · exact adjust16_keepsHead h₁ (by decide)
    split at h₁
    · exact fillIcmpChecksum_keepsHead h₁
    · cases h₁
      exact .refl _
  · cases h₁
    exact .refl _

theorem populateIcmpData_keepsHead {ne : NatEntry} {natType : NatType}
    (h : OrNat.populateIcmpData packet ne natType = some packet') : KeepsHead packet packet' := by
  obtain ⟨packet₁, h₁, h⟩ := Option.bind_eq_some_iff.mp h
  obtain ⟨dataSum, -, h⟩ := Option.bind_eq_some_iff.mp h
  obtain ⟨packet₂, h₂, h⟩ := Option.bind_eq_some_iff.mp h
  obtain ⟨packet₃, h₃, h⟩ := Option.bind_eq_some_iff.mp h
  obtain ⟨dataP, -, h⟩ := Option.bind_eq_some_iff.mp h
  have hstored : KeepsHead packet packet₃ :=
    ((store32_keepsHead h₁ (by split <;> decide)).trans
      (store16_keepsHead h₂ (by decide))).trans (store16_keepsHead h₃ (by decide))
  refine hstored.trans ?_
  split at h
  · exact store16_keepsHead h (by split <;> decide)
  split at h
  · obtain ⟨dataType, -, h⟩ := Option.bind_eq_some_iff.mp h
    split at h
    · obtain ⟨packet₄, h₄, h⟩ := Option.bind_eq_some_iff.mp h
      exact (store16_keepsHead h₄ (by decide)).trans (adjust16_keepsHead h (by decide))
    · cases h
      exact .refl _
  · cases h
    exact .refl _

theorem populateNatPacket_keepsHead {ne : NatEntry} {natType : NatType}
    (h : OrNat.populateNatPacket packet ne natType = some packet') : KeepsHead packet packet' := by
  obtain ⟨packet₁, h₁, h⟩ := Option.bind_eq_some_iff.mp h
  obtain ⟨ipP, -, h⟩ := Option.bind_eq_some_iff.mp h
  refine (store32_keepsHead h₁ (by split <;> decide)).trans ?_
  split at h
  · exact store16_keepsHead h (by split <;> decide)
  split at h
  · obtain ⟨icmpType, -, h⟩ := Option.bind_eq_some_iff.mp h
    split at h
    · exact store16_keepsHead h (by decide)
    split at h
    · exact populateIcmpData_keepsHead h
    · cases h
      exact .refl _
  · cases h
    exact .refl _

/-- NAT writes nothing before the checksum of the IP header. -/
theorem processNatExtPacket_keepsHead {table table' : List NatEntry}
    (h : OrNat.processNatExtPacket table packet = some (table', packet')) :
    KeepsHead packet packet' := by
  obtain ⟨entry, -, h⟩ := Option.bind_eq_some_iff.mp h
  cases entry with
  | none =>
    cases h
    exact .refl _
  | some k =>
    obtain ⟨ne, -, h⟩ := Option.bind_eq_some_iff.mp h
    obtain ⟨packet₁, h₁, h⟩ := Option.bind_eq_some_iff.mp h
    obtain ⟨packet₂, h₂, h⟩ := Option.bind_eq_some_iff.mp h
    cases h
    exact (populateNatPacket_keepsHead h₁).trans (rewriteChecksums_keepsHead h₂)

theorem processNatIntPacket_keepsHead {table table' : List NatEntry} {extIp : BitVec 32}
    {rand : List (BitVec 16)}
    (h : OrNat.processNatIntPacket table packet extIp rand = some (table', packet')) :
    KeepsHead packet packet' := by
  obtain ⟨ipP, -, h⟩ := Option.bind_eq_some_iff.mp h
  split at h
  · obtain ⟨⟨table₁, k⟩, -, h⟩ := Option.bind_eq_some_iff.mp h
    obtain ⟨ne, -, h⟩ := Option.bind_eq_some_iff.mp h
    obtain ⟨packet₁, h₁, h⟩ := Option.bind_eq_some_iff.mp h
    obtain ⟨packet₂, h₂, h⟩ := Option.bind_eq_some_iff.mp h
    cases h
    exact (populateNatPacket_keepsHead h₁).trans (rewriteChecksums_keepsHead h₂)
  · cases h

theorem fromWan_keepsHead {rs : RouterState} {iface : Iface.Entry}
    (h : fromWan rs iface packet = some packet') : KeepsHead packet packet' := by
  unfold fromWan at h
  split at h
  · obtain ⟨⟨table', p⟩, hnat, rfl⟩ := Option.map_eq_some_iff.mp h
    exact processNatExtPacket_keepsHead hnat
  · cases h
    exact .refl _

theorem toWan_keepsHead {laterNat : List NatEntry} {rand : List (BitVec 16)} {iface : Iface.Entry}
    (h : toWan laterNat rand iface packet = some packet') : KeepsHead packet packet' := by
  unfold toWan at h
  split at h
  · obtain ⟨⟨table', p⟩, hnat, rfl⟩ := Option.map_eq_some_iff.mp h
    exact processNatIntPacket_keepsHead hnat
  · cases h
    exact .refl _

theorem KeepsHead.getD (h : KeepsHead packet packet') {k : Nat} (hk : k < 24) :
    packet'.getD k 0 = packet.getD k 0 :=
  getD_congr (h.frame k hk)

end

section
variable {packet packet' : Bytes} {ttl : BitVec 8} {shost : Arp.Mac}

theorem populateEthHdr_spec {type : BitVec 16}
    (h : populateEthHdr packet shost type = some packet') :
    packet'.length = packet.length ∧ be16 packet' 12 = type ∧
      ∀ k ≥ 14, packet'[k]? = packet[k]? := by
  obtain ⟨packet₁, h₁, h₂⟩ := Option.bind_eq_some_iff.mp h
  obtain ⟨hlen₁, hframe₁⟩ := storeBytes_spec h₁
  obtain ⟨hlen₂, hframe₂, htype⟩ := store16_spec h₂
  refine ⟨hlen₂.trans hlen₁, ?_, fun k hk => ?_⟩
  · rw [be16_of_load16 htype, swap16_swap16]
  · exact (hframe₂ k (.inr hk)).trans (hframe₁ k (.inr (by simp [macBytes]; omega)))

/-- What stands in the packet that is sent. -/
structure Rewritten (packet : Bytes) (ttl : BitVec 8) (packet' : Bytes) : Prop where
  length : packet'.length = packet.length
  ttl : packet'.getD 22 0 = ttl - 1
  type : be16 packet' 12 = ethTypeIp
  frame : ∀ k ≥ 14, k ≠ 22 → k ≠ 24 → k ≠ 25 → packet'[k]? = packet[k]?
  checksum : Ip.verifyChecksum (packet'.drop 14) 20 = 0

theorem rewriteHeaders_spec (h : rewriteHeaders packet ttl shost = some packet')
    (hlen : 34 ≤ packet.length) (hhl : (packet.getD 14 0).extractLsb' 0 4 = 5) :
    Rewritten packet ttl packet' := by
  obtain ⟨packet₁, h₁, h⟩ := Option.bind_eq_some_iff.mp h
  obtain ⟨packet₂, h₂, h⟩ := Option.bind_eq_some_iff.mp h
  obtain ⟨⟨checksum, packet₃⟩, h₃, h⟩ := Option.bind_eq_some_iff.mp h
  obtain ⟨packet₄, h₄, h₅⟩ := Option.bind_eq_some_iff.mp h
  obtain ⟨hlen₁, hframe₁, httl⟩ := store8_spec h₁
  obtain ⟨hlen₂, hframe₂, -⟩ := store16_spec h₂
  have hfirst : packet₂[14]? = packet[14]? :=
    (hframe₂ 14 (by omega)).trans (hframe₁ 14 (by omega))
  have hwords : headerWords packet₂ 14 = 10 := by
    unfold headerWords
    rw [getD_congr hfirst, hhl]
    rfl
  obtain ⟨packet₃', hclear, hcompute⟩ := @computeIpChecksum_eq packet₂ 14 (by omega) (by omega)
  obtain ⟨rfl, rfl⟩ := Prod.mk.inj (Option.some.inj (hcompute.symm.trans h₃))
  have h₃ := hclear
  obtain ⟨hlen₃, hframe₃, -⟩ := store16_spec h₃
  obtain ⟨hlen₄, hframe₄, hsum⟩ := store16_spec h₄
  obtain ⟨hlen₅, htype, hframe₅⟩ := populateEthHdr_spec h₅
  have hsame : ∀ k ≥ 14, k ≠ 24 → k ≠ 25 → packet'[k]? = packet₂[k]? := by
    intro k hk h24 h25
    rw [hframe₅ k hk, hframe₄ k (by omega), hframe₃ k (by omega)]
  have hframe : ∀ k ≥ 14, k ≠ 22 → k ≠ 24 → k ≠ 25 → packet'[k]? = packet[k]? := by
    intro k hk h22 h24 h25
    rw [hsame k hk h24 h25, hframe₂ k (by omega), hframe₁ k h22]
  refine ⟨by omega, ?_, htype, hframe, ?_⟩
  · have hkept : packet'[22]? = packet₁[22]? :=
      (hsame 22 (by omega) (by omega) (by omega)).trans (hframe₂ 22 (by omega))
    exact (getD_congr hkept).trans (getD_of_load8 httl)
  · apply @verifyChecksum_of_complement packet' 14 10 (by decide) (by decide)
    rw [be16_congr fun k hk _ => hframe₅ k (by omega), be16_of_load16 hsum, swap16_swap16,
      hwords, headerSum_congr fun i hi hne => be16_congr fun k hk hk' =>
        hsame k (by omega) (by omega) (by omega)]

end

theorem isPacketValid_headerLength {packet : Bytes} (h : Ip.isPacketValid packet = true) :
    (packet.getD 14 0).extractLsb' 0 4 = 5 := by
  unfold Ip.isPacketValid at h
  dsimp only at h
  split at h
  · cases h
  split at h
  · cases h
  rename_i hhl
  rw [getD_drop] at hhl
  exact not_not.mp hhl

section
variable {rs : RouterState} {laterNat : List NatEntry} {addr : Nat → Arp.Mac}
  {rand : List (BitVec 16)} {packet packetCopy : Bytes} {interface nextHopIface : String}
  {nextHop : BitVec 32}

/-- The steps that a packet goes through before it is sent. -/
structure Passage (rs : RouterState) (laterNat : List NatEntry) (addr : Nat → Arp.Mac)
    (rand : List (BitVec 16)) (packet : Bytes) (interface nextHopIface : String)
    (packetCopy : Bytes) where
  iface : Iface.Entry
  outIface : Iface.Entry
  k : Nat
  packet₁ : Bytes
  packet₂ : Bytes
  ttl : BitVec 8
  valid : Ip.isPacketValid packet = true
  iface_eq : PacketPath.getIface rs.ifList interface = some iface
  outIface_eq : PacketPath.getIface rs.ifList nextHopIface = some outIface
  fromWan_eq : fromWan rs iface packet = some packet₁
  length : 34 ≤ packet₁.length
  toWan_eq : toWan laterNat rand outIface packet₁ = some packet₂
  ttl_eq : load8 packet₂ 22 = some ttl
  ttl_ne : ttl ≠ 1
  rewrite_eq : rewriteHeaders packet₂ ttl (addr k) = some packetCopy

theorem forwardIp_forwarded {dst : BitVec 32}
    (h : forwardIp rs laterNat addr rand dst packet interface =
      some (.forwarded packetCopy nextHop nextHopIface)) :
    (∃ hop, Rtable.getNextHop 32 rs.rtable (swap32 dst) = some (hop, nextHopIface) ∧
      swap32 hop = nextHop) ∧ ¬ Iface.strncmpEq interface nextHopIface 32 ∧
    ∃ (outIface : Iface.Entry) (k : Nat) (packet₂ : Bytes) (ttl : BitVec 8),
      PacketPath.getIface rs.ifList nextHopIface = some outIface ∧
      toWan laterNat rand outIface packet = some packet₂ ∧ load8 packet₂ 22 = some ttl ∧
      ttl ≠ 1 ∧ rewriteHeaders packet₂ ttl (addr k) = some packetCopy := by
  unfold forwardIp at h
  split at h
  · cases h
  rename_i hop hopIface hnext
  split at h
  · cases h
  rename_i hdiffers
  obtain ⟨k, hk, h⟩ := Option.bind_eq_some_iff.mp h
  obtain ⟨outIface, hout, h⟩ := Option.bind_eq_some_iff.mp h
  obtain ⟨packet₂, hnat, h⟩ := Option.bind_eq_some_iff.mp h
  obtain ⟨ttl, httl, h⟩ := Option.bind_eq_some_iff.mp h
  split at h
  · cases h
  rename_i hne
  obtain ⟨packet₃, hrewrite, h⟩ := Option.bind_eq_some_iff.mp h
  cases h
  refine ⟨⟨hop, hnext, rfl⟩, hdiffers, outIface, k, packet₂, ttl, ?_, hnat, httl, hne, hrewrite⟩
  rw [PacketPath.getIface, hk]
  exact hout

theorem processIpPacket_forwarded
    (h : processIpPacket rs laterNat addr rand packet interface =
      some (.forwarded packetCopy nextHop nextHopIface)) :
    Nonempty (Passage rs laterNat addr rand packet interface nextHopIface packetCopy) := by
  unfold processIpPacket at h
  split at h
  · cases h
  rename_i hvalid
  obtain ⟨iface, hiface, h⟩ := Option.bind_eq_some_iff.mp h
  obtain ⟨packet₁, hfrom, h⟩ := Option.bind_eq_some_iff.mp h
  obtain ⟨dst, hdst, h⟩ := Option.bind_eq_some_iff.mp h
  split at h
  · cases h
  split at h
  · cases h
  obtain ⟨-, -, outIface, k, packet₂, ttl, hout, hto, httl, hne, hrewrite⟩ :=
    forwardIp_forwarded h
  have hlen : 34 ≤ packet₁.length := by
    rw [load32_eq] at hdst
    split at hdst
    · assumption
    · cases hdst
  exact ⟨⟨iface, outIface, k, packet₁, packet₂, ttl, by simpa using hvalid, hiface, hout, hfrom,
    hlen, hto, httl, hne, hrewrite⟩⟩

/-- The interface of that name does not lead to the WAN. -/
def NotWan (rs : RouterState) (interface : String) : Prop :=
  ∀ iface, PacketPath.getIface rs.ifList interface = some iface → iface.isWan = false

/-- The hardware would let the header pass, whatever comes with it in the first word. -/
def TtlGood (packet : Bytes) : Prop :=
  ∀ w, HeaderCheck.headerBytes w = (packet.drop 14).take 20 →
    (HeaderCheck.headerInfo w).ttlGood = true

/-- A packet that goes on as a router is to send it. -/
structure SentOn (rs : RouterState) (interface nextHopIface : String) (packet packetCopy : Bytes) :
    Prop where
  received : 2 ≤ (packet.getD 22 0).toNat
  ttl : (packetCopy.getD 22 0).toNat + 1 = (packet.getD 22 0).toNat
  checksum : Ip.verifyChecksum (packetCopy.drop 14) 20 = 0
  length : packetCopy.length = packet.length
  frame : NotWan rs interface → NotWan rs nextHopIface →
    ∀ k ≥ 12, k ≠ 22 → k ≠ 24 → k ≠ 25 → packetCopy[k]? = packet[k]?
  hardware : TtlGood packet

theorem ttlGood_of_le (h : 2 ≤ (packet.getD 22 0).toNat) : TtlGood packet := by
  intro w hw
  have hbyte : HeaderCheck.ttlByte w.tdata = packet.getD 22 0 := by
    have hget := congrArg (List.getD · 8 0) hw
    rw [getD_slice packet (by decide)] at hget
    exact hget
  rw [HeaderCheck.headerInfo, decide_eq_true_iff, hbyte]
  exact h

section Passage
variable (p : Passage rs laterNat addr rand packet interface nextHopIface packetCopy)
include p

theorem Passage.keepsHead : KeepsHead packet p.packet₂ :=
  (fromWan_keepsHead p.fromWan_eq).trans (toWan_keepsHead p.toWan_eq)

theorem Passage.received_ttl : p.ttl = packet.getD 22 0 := by
  rw [← p.keepsHead.getD (by decide)]
  exact (getD_of_load8 p.ttl_eq).symm

theorem Passage.rewritten : Rewritten p.packet₂ p.ttl packetCopy := by
  apply rewriteHeaders_spec p.rewrite_eq
  · rw [(toWan_keepsHead p.toWan_eq).length]
    exact p.length
  · rw [p.keepsHead.getD (by decide)]
    exact isPacketValid_headerLength p.valid

theorem Passage.packet₂_eq (hin : NotWan rs interface) (hout : NotWan rs nextHopIface) :
    p.packet₂ = packet := by
  have h₁ : p.packet₁ = packet := by
    have hfrom := p.fromWan_eq
    rw [fromWan, hin _ p.iface_eq] at hfrom
    exact (Option.some.inj hfrom).symm
  have hto := p.toWan_eq
  rw [toWan, hout _ p.outIface_eq, h₁] at hto
  exact (Option.some.inj hto).symm

theorem Passage.frame (htype : be16 packet 12 = ethTypeIp) (hin : NotWan rs interface)
    (hout : NotWan rs nextHopIface) {k : Nat} (hk : 12 ≤ k) (h22 : k ≠ 22) (h24 : k ≠ 24)
    (h25 : k ≠ 25) : packetCopy[k]? = packet[k]? := by
  have hsent := p.rewritten
  have h₂ := p.packet₂_eq hin hout
  by_cases hbody : 14 ≤ k
  · rw [hsent.frame k hbody h22 h24 h25, h₂]
  · have heth := getD_of_be16 (hsent.type.trans htype.symm)
    have hlength := hsent.length
    have hlong := p.length
    have hsame := (toWan_keepsHead p.toWan_eq).length
    have hk : k = 12 ∨ k = 13 := by omega
    rw [h₂] at hlength hsame
    rw [getElem?_eq_getD packetCopy (by omega), getElem?_eq_getD packet (by omega)]
    rcases hk with rfl | rfl
    · exact congrArg some heth.1
    · exact congrArg some heth.2

/-- What is sent on is right unless the hops were used up before. -/
theorem Passage.sentOn_iff (htype : be16 packet 12 = ethTypeIp) :
    SentOn rs interface nextHopIface packet packetCopy ↔ packet.getD 22 0 ≠ 0 := by
  constructor
  · intro h hzero
    have hreceived := h.received
    rw [hzero] at hreceived
    exact absurd hreceived (by decide)
  · intro hzero
    have hone := p.ttl_ne
    rw [p.received_ttl] at hone
    have hreceived : 2 ≤ (packet.getD 22 0).toNat := by
      generalize packet.getD 22 0 = v at hzero hone
      have h0 : v.toNat ≠ 0 := fun h => hzero (BitVec.eq_of_toNat_eq h)
      have h1 : v.toNat ≠ 1 := fun h => hone (BitVec.eq_of_toNat_eq h)
      omega
    refine ⟨hreceived, ?_, p.rewritten.checksum, p.rewritten.length.trans p.keepsHead.length,
      fun hin hout k hk h22 h24 h25 => p.frame htype hin hout hk h22 h24 h25,
      ttlGood_of_le hreceived⟩
    have hle : (1 : BitVec 8) ≤ packet.getD 22 0 := Nat.le_of_succ_le hreceived
    rw [p.rewritten.ttl, p.received_ttl, BitVec.toNat_sub_of_le hle]
    exact Nat.sub_add_cancel hle

end Passage

/-- Of the packets that are sent on, those that came with a TTL of zero are the ones that are not
sent on as they should. -/
theorem sent_on_iff (htype : be16 packet 12 = ethTypeIp)
    (h : processIpPacket rs laterNat addr rand packet interface =
      some (.forwarded packetCopy nextHop nextHopIface)) :
    SentOn rs interface nextHopIface packet packetCopy ↔ packet.getD 22 0 ≠ 0 := by
  obtain ⟨p⟩ := processIpPacket_forwarded h
  exact p.sentOn_iff htype

end

/-- 10.0.0.1/24 on `eth0` and 11.0.0.1/24 on `eth1`, with a default route over 11.0.0.2. -/
def twoPorts : RouterState where
  arpCache := []
  arpQueue := []
  ifList := [⟨"eth0", 0x0100000a, 0x00ffffff, true, [], false, Iface.eth0_lt⟩,
    ⟨"eth1", 0x0100000b, 0x00ffffff, true, [], false, Iface.eth1_lt⟩]
  rtable := [⟨0, 0x0b000002, 0, "eth1", true, true, Iface.eth1_lt⟩]
  natTable := []
  pwospf := ⟨0x0100000a, 0, true, []⟩
  pwospfHelloInterval := 5

/-- The interface with the number `k` has the address 00:4e:46:32:43:`k`. -/
def portAddr (k : Nat) : Arp.Mac := ⟨0, 0x4e, 0x46, 0x32, 0x43, BitVec.ofNat 8 k⟩

/-- From 10.0.0.2 to 12.0.0.1, with a TTL and the checksum of its header. -/
def hopPacket (shost : Arp.Mac) (ttl : BitVec 8) (sum : Bytes) : Bytes :=
  List.replicate 6 0 ++ macBytes shost ++
    [8, 0, 69, 0, 0, 20, 0, 0, 0, 0, ttl, 17] ++ sum ++ [10, 0, 0, 2, 12, 0, 0, 1]

theorem sent_on_iff_twoPorts :
    SentOn twoPorts "eth0" "eth1" (hopPacket (portAddr 9) 64 [100, 215])
      (hopPacket (portAddr 1) 63 [101, 215]) ↔
    (hopPacket (portAddr 9) 64 [100, 215]).getD 22 0 ≠ 0 := by
  refine @sent_on_iff twoPorts [] portAddr [] _ _ "eth0" "eth1" 0x0200000b ?_ ?_
  · decide +kernel
  · decide +kernel

/-- With a TTL of 0 a packet goes on, with 255 hops more. -/
theorem ttl_zero_sent_on :
    ¬ ∀ (rs : RouterState) (laterNat : List NatEntry) (addr : Nat → Arp.Mac)
      (rand : List (BitVec 16)) (packet packetCopy : Bytes) (interface nextHopIface : String)
      (nextHop : BitVec 32), be16 packet 12 = ethTypeIp →
      processIpPacket rs laterNat addr rand packet interface =
        some (.forwarded packetCopy nextHop nextHopIface) →
      SentOn rs interface nextHopIface packet packetCopy := by
  intro h
  have hsent := h twoPorts [] portAddr [] (hopPacket (portAddr 9) 0 [164, 215])
    (hopPacket (portAddr 1) 255 [165, 214]) "eth0" "eth1" 0x0200000b (by decide +kernel)
    (by decide +kernel)
  exact absurd hsent.received (by decide +kernel)

end Osnt.Scone.IpForward
