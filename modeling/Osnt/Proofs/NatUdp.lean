import Osnt.Proofs.NatTranslation

/-! When the checksum of a UDP packet is kept through NAT. A checksum of zero says that there is
none, which `nat_checksum` does not know. -/
namespace Osnt.Scone.OrNat
open Lib Lib.Buffer
open Pwospf (complementSum complementSum_eq_zero_iff add_complementSum_mod)

theorem swap16_eq_zero_iff (v : BitVec 16) : swap16 v = 0 ↔ v = 0 := by
  constructor
  · intro h
    rw [← swap16_swap16 v, h]
    rfl
  · rintro rfl
    rfl

theorem natChecksum_eq_zero_iff (old pos neg : BitVec 16) :
    natChecksum old pos neg = 0 ↔
      (old.toNat + pos.toNat) % 65535 = neg.toNat % 65535 ∧ (neg = 0 → old = 0 ∧ pos = 0) := by
  have hold := old.isLt
  have hpos := pos.isLt
  have hneg := neg.isLt
  have hzero : ∀ v : BitVec 16, v = 0 ↔ v.toNat = 0 := fun _ => BitVec.toNat_eq
  rw [hzero, hzero, hzero, hzero, toNat_natChecksum]
  split <;> omega

/-- The sum of the words of an address and a port. -/
def pairSum (p : NatIpPortPair) : Nat := ipWords p.ip + (swap16 p.port).toNat

theorem pairSum_lt (p : NatIpPortPair) : pairSum p < 65535 * 65536 := by
  have hfirst := (swap16 (p.ip.extractLsb' 0 16)).isLt
  have hsecond := (swap16 (p.ip.extractLsb' 16 16)).isLt
  have hport := (swap16 p.port).isLt
  unfold pairSum ipWords
  omega

theorem Consistent.checksum {ne : NatEntry} (h : Consistent ne) (natType : NatType) :
    swap16 (ne.side natType).checksum = complementSum (pairSum (ne.side natType)) := by
  rw [h natType]
  exact swap16_swap16 _

def udpLength (packet : Bytes) : Nat := (be16 packet 38).toNat

/-- A UDP packet with all that its length says. -/
structure Datagram (packet : Bytes) : Prop where
  proto : load8 packet 23 = some ipProtoUdp
  header : 8 ≤ udpLength packet
  whole : 34 + udpLength packet ≤ packet.length

/-- What the checksum of UDP covers: the pseudo-header, the header and the data. -/
def udpCovered (packet : Bytes) : List Nat :=
  [(be16 packet 26).toNat, (be16 packet 28).toNat, (be16 packet 30).toNat, (be16 packet 32).toNat,
    ipProtoUdp.toNat, udpLength packet] ++ halfwords ((packet.drop 34).take (udpLength packet))

def UdpVerifies (packet : Bytes) : Prop :=
  OnesComplement.sum (2 ^ 16) (udpCovered packet) = 0xFFFF

/-- No checksum remains none, and a checksum that is right remains one. -/
def KeepsUdp (packet packet' : Bytes) : Prop :=
  (be16 packet 40 = 0 → be16 packet' 40 = 0) ∧
    (be16 packet 40 ≠ 0 → UdpVerifies packet → be16 packet' 40 ≠ 0 ∧ UdpVerifies packet')

/-- The sums of the sides agree if there is no checksum; else they do not differ by it, unless the
difference is cached as zero. -/
structure UdpBalanced (ne : NatEntry) (natType : NatType) (packet : Bytes) : Prop where
  unchecked : be16 packet 40 = 0 →
    pairSum (ne.side natType) % 65535 = pairSum (ne.side natType.other) % 65535 ∧
      (pairSum (ne.side natType) = 0 → pairSum (ne.side natType.other) = 0)
  checked : be16 packet 40 ≠ 0 → UdpVerifies packet →
    ((be16 packet 40).toNat + pairSum (ne.side natType.other)) % 65535 =
      pairSum (ne.side natType) % 65535 →
    pairSum (ne.side natType.other) % 65535 = 0 ∧ pairSum (ne.side natType.other) ≠ 0

section
variable {packet packet' : Bytes} {ne : NatEntry} {natType : NatType}

theorem Datagram.portful (h : Datagram packet) : Portful packet 34 36 40 := by
  have := h.header
  have := h.whole
  exact .udp h.proto (by omega)

theorem udpVerifies_iff (packet : Bytes) :
    UdpVerifies packet ↔ (udpCovered packet).sum % 65535 = 0 := by
  have hsum : (udpCovered packet).sum ≠ 0 := by
    unfold udpCovered ipProtoUdp
    simp
  have hdigits : ∀ x ∈ udpCovered packet, x < 2 ^ 16 := by
    intro x hx
    rcases List.mem_append.mp hx with hx | hx
    · exact pseudo_lt (BitVec.isLt _) hx
    · exact halfwords_lt _ x hx
  exact (OnesComplement.sum_eq_max_iff (by decide) hdigits).trans (and_iff_left hsum)

theorem sum_udpCovered (packet : Bytes) :
    (udpCovered packet).sum = (be16 packet 26).toNat + (be16 packet 28).toNat +
      ((be16 packet 30).toNat + (be16 packet 32).toNat) + 17 + udpLength packet +
      (halfwords ((packet.drop 34).take (udpLength packet))).sum := by
  unfold udpCovered ipProtoUdp
  rw [List.sum_append]
  simp
  omega

/-- Of a UDP packet the address, the port and both checksums are replaced. -/
structure Rewritten (packet packet₁ packet' : Bytes) (portOff : Nat) (natType : NatType)
    (new old : NatIpPortPair) : Prop where
  readdressed : Readdressed (ipAt natType) portOff packet packet₁ new
  length : packet'.length = packet.length
  frame : ∀ k, k < 24 ∨ 26 ≤ k → k < 40 ∨ 42 ≤ k → packet'[k]? = packet₁[k]?
  sum : be16 packet' 40 =
    swap16 (natChecksum (swap16 (be16 packet 40)) new.checksum old.checksum)

theorem Datagram.translate (h : Datagram packet) (ne : NatEntry) (natType : NatType)
    {portOff : Nat} (hport : portOff = if natType = .external then 34 else 36) :
    ∃ packet₁ packet', OrNat.translate ne natType packet = some packet' ∧
      Rewritten packet packet₁ packet' portOff natType (ne.side natType)
        (ne.side natType.other) := by
  have hlen := h.portful.bounds
  have hat := ipAt_eq natType
  have hportOff : portOff = 34 ∨ portOff = 36 := by
    rw [hport]
    exact ite_eq_or_eq _ _ _
  obtain ⟨packet₁, h₁, hlen₁, hip₁, hport₁, hframe₁⟩ :=
    h.portful.populate ne natType (rfl : ipAt natType = _) hport
  obtain ⟨packet₂, h₂, -⟩ := @adjust16_spec packet₁ 40 (by omega) (ne.side natType).checksum
    (ne.side natType.other).checksum
  obtain ⟨packet₃, h₃, hlen₃, hframe₃⟩ := @adjust16_spec packet₂ 24
    (by rw [(adjust16_mod h₂).1]; omega) (ne.side natType).checksumIp
    (ne.side natType.other).checksum
  obtain ⟨old, hold, hstore⟩ := Option.bind_eq_some_iff.mp h₂
  obtain ⟨hlen₂, hframe₂, hload₂⟩ := store16_spec hstore
  have hproto : load8 packet₁ 23 = some ipProtoUdp :=
    (hframe₁ 23 (by omega) (by omega)).trans h.proto
  have hstored : swap16 (be16 packet 40) = old := by
    rw [← be16_congr fun k hk hk' => hframe₁ k (by omega) (by omega), be16_of_load16 hold,
      swap16_swap16]
  refine ⟨packet₁, packet₃, ?_, ⟨hlen₁, hip₁, hport₁, hframe₁⟩, by omega, fun k hk hk' => ?_, ?_⟩
  · unfold OrNat.translate rewriteChecksums rewritePayloadChecksum
    simp only [h₁, hproto, Option.bind_eq_bind, Option.bind_some]
    change (adjust16 packet₁ 40 _ _ >>= _) = _
    rw [h₂]
    exact h₃
  · rw [hframe₃ k hk, hframe₂ k hk']
  · rw [be16_congr fun k hk hk' => hframe₃ k (by omega), be16_of_load16 hload₂, hstored]

/-- What is covered changes by the checksum and by the address and the port. -/
theorem Datagram.sum (h : Datagram packet) {packet₁ : Bytes} {portOff : Nat}
    {new old : NatIpPortPair} (hportOff : portOff = 34 ∨ portOff = 36)
    (hold : load32 packet (ipAt natType) = some old.ip)
    (hold' : load16 packet portOff = some old.port)
    (hnew : Rewritten packet packet₁ packet' portOff natType new old) :
    (udpCovered packet').sum + (be16 packet 40).toNat + pairSum old =
      (udpCovered packet).sum + (be16 packet' 40).toNat + pairSum new := by
  have hheader := h.header
  have hwhole := h.whole
  have hat := ipAt_eq natType
  obtain ⟨hlen₁, hip₁, hport₁, hframe₁⟩ := hnew.readdressed
  have hlength : udpLength packet' = udpLength packet :=
    congrArg BitVec.toNat (be16_congr fun k hk hk' =>
      (hnew.frame k (by omega) (by omega)).trans (hframe₁ k (by omega) (by omega)))
  have hport := sum_part_change (o := 34) (n := udpLength packet) hlen₁
    (by omega : portOff + 2 ≤ packet.length) (by omega) (by omega) (by omega)
    fun k hk _ hout => hframe₁ k (by omega) hout
  have hsum := sum_part_change (o := 34) (n := udpLength packet) (p := 40)
    (hnew.length.trans hlen₁.symm) (by omega) (by omega) (by omega) (by omega)
    fun k hk _ hout => hnew.frame k (by omega) hout
  have hwords : ∀ p, 26 ≤ p → p + 2 ≤ 34 → be16 packet' p = be16 packet₁ p := fun p hp hp' =>
    be16_congr fun k hk hk' => hnew.frame k (by omega) (by omega)
  have hsame : ∀ p, 26 ≤ p → p + 2 ≤ 34 → p + 2 ≤ ipAt natType ∨ ipAt natType + 4 ≤ p →
      be16 packet₁ p = be16 packet p := fun p hp hp' hout =>
    be16_congr fun k hk hk' => hframe₁ k (by omega) (by omega)
  have hsum₁ : be16 packet₁ 40 = be16 packet 40 :=
    be16_congr fun k hk hk' => hframe₁ k (by omega) (by omega)
  have holdIp := ipWords_of_load32 hold
  have hnewIp := ipWords_of_load32 hip₁
  have holdPort := port_of_load16 hold'
  have hnewPort := port_of_load16 hport₁
  rw [sum_udpCovered, sum_udpCovered, hlength, hwords 26 (by omega) (by omega),
    hwords 28 (by omega) (by omega), hwords 30 (by omega) (by omega),
    hwords 32 (by omega) (by omega)]
  rw [hsum₁] at hsum
  unfold pairSum
  rcases hat with hat | hat
  · simp only [hat, Nat.reduceAdd] at holdIp hnewIp
    rw [hsame 30 (by omega) (by omega) (by omega), hsame 32 (by omega) (by omega) (by omega)]
    omega
  · simp only [hat, Nat.reduceAdd] at holdIp hnewIp
    rw [hsame 26 (by omega) (by omega) (by omega), hsame 28 (by omega) (by omega) (by omega)]
    omega

theorem Rewritten.sum_eq_zero_iff {packet₁ : Bytes} {portOff : Nat} (hne : Consistent ne)
    (hnew : Rewritten packet packet₁ packet' portOff natType (ne.side natType)
      (ne.side natType.other)) :
    be16 packet' 40 = 0 ↔
      ((be16 packet 40).toNat + pairSum (ne.side natType.other)) % 65535 =
          pairSum (ne.side natType) % 65535 ∧
        (pairSum (ne.side natType.other) % 65535 = 0 ∧ pairSum (ne.side natType.other) ≠ 0 →
          be16 packet 40 = 0 ∧
            pairSum (ne.side natType) % 65535 = 0 ∧ pairSum (ne.side natType) ≠ 0) := by
  have hzero : ∀ natType : NatType, (ne.side natType).checksum = 0 ↔
      pairSum (ne.side natType) % 65535 = 0 ∧ pairSum (ne.side natType) ≠ 0 := fun natType => by
    rw [← complementSum_eq_zero_iff (pairSum_lt _), ← hne.checksum, ← swap16_eq_zero_iff]
    exact BitVec.toNat_eq
  have hmod : ∀ natType : NatType,
      (pairSum (ne.side natType) + 256 * (ne.side natType).checksum.toNat) % 65535 = 0 :=
    fun natType => by
      have hsum := add_complementSum_mod (pairSum_lt (ne.side natType))
      have hswap := swap16_mod (ne.side natType).checksum
      rw [hne.checksum] at hswap
      omega
  have hnew' := hmod natType
  have hold' := hmod natType.other
  have hswap := swap16_mod (be16 packet 40)
  rw [hnew.sum, swap16_eq_zero_iff, natChecksum_eq_zero_iff, hzero, hzero, swap16_eq_zero_iff]
  apply and_congr_left'
  omega

theorem Datagram.keepsUdp_iff (h : Datagram packet) {packet₁ : Bytes} {portOff : Nat}
    (hne : Consistent ne) (hportOff : portOff = 34 ∨ portOff = 36)
    (hold : load32 packet (ipAt natType) = some (ne.side natType.other).ip)
    (hold' : load16 packet portOff = some (ne.side natType.other).port)
    (hnew : Rewritten packet packet₁ packet' portOff natType (ne.side natType)
      (ne.side natType.other)) :
    KeepsUdp packet packet' ↔ UdpBalanced ne natType packet := by
  have hsum := h.sum hportOff hold hold' hnew
  have hmod := swap16_natChecksum_mod (swap16 (be16 packet 40)) (ne.side natType).checksum
    (ne.side natType.other).checksum
  rw [← hnew.sum, swap16_swap16] at hmod
  have hpos := (hne.mod natType).2.1
  have hneg := (hne.mod natType.other).2.1
  have hverifies : UdpVerifies packet → UdpVerifies packet' := by
    rw [udpVerifies_iff, udpVerifies_iff]
    unfold pairSum at hsum
    omega
  have hzero := hnew.sum_eq_zero_iff hne
  constructor
  · rintro ⟨hnone, hsome⟩
    refine ⟨fun hsum₀ => ?_, fun hsum₀ hgood hdiffer => ?_⟩
    · have hboth := hzero.mp (hnone hsum₀)
      rw [hsum₀] at hboth
      simp only [BitVec.ofNat_eq_ofNat, BitVec.toNat_ofNat] at hboth
      omega
    · have hkept := (hsome hsum₀ hgood).1
      by_contra hcached
      exact hkept (hzero.mpr ⟨hdiffer, fun hold => absurd hold hcached⟩)
  · rintro ⟨hnone, hsome⟩
    refine ⟨fun hsum₀ => hzero.mpr ?_, fun hsum₀ hgood => ⟨fun hkept => ?_, hverifies hgood⟩⟩
    · obtain ⟨hagree, hnull⟩ := hnone hsum₀
      rw [hsum₀]
      refine ⟨hagree.symm ▸ congrArg (· % 65535) (Nat.zero_add _), fun hold => ⟨rfl, ?_⟩⟩
      omega
    · obtain ⟨hdiffer, hcached⟩ := hzero.mp hkept
      exact hsum₀ (hcached (hsome hsum₀ hgood hdiffer)).1

/-- The checksum of a UDP packet is kept if and only if the entry, if there is one, is balanced. -/
theorem udp_checksum_kept_iff {table : List NatEntry} (hconsistent : ∀ ne ∈ table, Consistent ne)
    {e : Event} (h : Datagram e.packet) (hends : e.Ends table) :
    ∃ (table' : List NatEntry) (packet' : Bytes), step table e = some (table', packet') ∧
      (KeepsUdp e.packet packet' ↔
        ∀ ne, entryFor table e = some ne → UdpBalanced ne e.side e.packet) := by
  rcases step_spec (.portful h.portful) hends with ⟨hnone, hstep⟩ | ⟨ne, table', hentry, hstep⟩
  · refine ⟨table, e.packet, hstep, fun _ ne hne => ?_, fun _ => ⟨id, fun hsum h => ⟨hsum, h⟩⟩⟩
    rw [hnone] at hne
    cases hne
  · obtain ⟨packet₁, packet', htranslate, hnew⟩ :=
      h.translate ne e.side (rfl : (if e.side = .external then 34 else 36) = _)
    have hiff := h.keepsUdp_iff (hentry.consistent hconsistent) (ite_eq_or_eq _ _ _) hentry.ip
      (hentry.port 34 36 40 h.portful) hnew
    refine ⟨table', packet', ?_, hiff.trans ⟨fun h ne' hne' => ?_, fun h => h ne hentry.entry⟩⟩
    · rw [hstep, htranslate]
      rfl
    · obtain rfl : ne = ne' := Option.some.inj (hentry.entry.symm.trans hne')
      exact h

end

/-- To port 53 of 93.184.216.34, with one byte of data. -/
def datagramFrom (sum : Bytes) : Bytes :=
  List.replicate 12 0 ++ [8, 0, 69, 0, 0, 29, 0, 0, 0, 0, 64, 17, 58, 244, 10, 0, 0, 2, 93, 184,
    216, 34, 4, 1, 0, 53, 0, 9] ++ sum ++ [65]

theorem udp_checksum_kept_iff_first :
    ∃ (table' : List NatEntry) (packet' : Bytes),
      step [] (.int (datagramFrom [122, 201]) 0x010000c0 [2000]) = some (table', packet') ∧
      UdpVerifies (datagramFrom [122, 201]) ∧ KeepsUdp (datagramFrom [122, 201]) packet' := by
  have h : Datagram (datagramFrom [122, 201]) :=
    ⟨by decide +kernel, by decide +kernel, by decide +kernel⟩
  obtain ⟨table', packet', hstep, hiff⟩ := @udp_checksum_kept_iff []
    (fun _ hne => absurd hne List.not_mem_nil) (.int (datagramFrom [122, 201]) 0x010000c0 [2000])
    h (fun _ => by decide +kernel)
  refine ⟨table', packet', hstep, show OnesComplement.sum _ _ = _ by decide +kernel,
    hiff.mpr fun ne hne => ?_⟩
  have hentry : entryFor [] (.int (datagramFrom [122, 201]) 0x010000c0 [2000]) =
      some ⟨computeNatChecksums 0x010000c0 0xd007, computeNatChecksums 0x0200000a 0x0104, 0⟩ := by
    decide +kernel
  obtain rfl := Option.some.inj (hentry.symm.trans hne)
  exact ⟨fun hnone => absurd hnone (by decide +kernel),
    fun _ _ hdiffer => absurd hdiffer (by decide +kernel)⟩

/-- A packet without a checksum gets one. -/
theorem udp_checksum_appears :
    be16 (datagramFrom [0, 0]) 40 = 0 ∧
    ∃ (table' : List NatEntry) (packet' : Bytes),
      step [] (.int (datagramFrom [0, 0]) 0x010000c0 [2000]) = some (table', packet') ∧
      be16 packet' 40 ≠ 0 := by
  have hstep : (step [] (.int (datagramFrom [0, 0]) 0x010000c0 [2000])).any
      (fun answer => be16 answer.2 40 != 0) = true := by decide +kernel
  obtain ⟨⟨table', packet'⟩, hanswer, hsum⟩ := (Option.any_eq_true _ _).mp hstep
  exact ⟨by decide +kernel, table', packet', hanswer, bne_iff_ne.mp hsum⟩

end Osnt.Scone.OrNat
