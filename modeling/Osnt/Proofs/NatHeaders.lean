import Osnt.Proofs.IpChecksum
import Osnt.Proofs.NatTranslation

/-! When the header checksums are good behind NAT. The outer one is adjusted by the difference of
the addresses on one side and that of the addresses and the ports on the other, and in an ICMP
error it has been cleared before. -/
namespace Osnt.Scone.OrNat
open Lib Lib.Buffer
open IpForward (verifyChecksum_iff_wordSum)

/-- The outer header passes `verify_checksum`. -/
def HeaderVerifies (packet : Bytes) : Prop := Ip.verifyChecksum (packet.drop 14) 20 = 0

/-- The halfwords of the embedded header, options included. -/
def dataWords (packet : Bytes) : Nat := 2 * ((packet.getD 42 0).extractLsb' 0 4).toNat

/-- The embedded header passes `verify_checksum`. -/
def DataVerifies (packet : Bytes) : Prop :=
  Ip.verifyChecksum (packet.drop 42) (2 * dataWords packet) = 0

/-- The headers of a packet are good behind its translation, the embedded one if it was. -/
def KeepsHeaders (packet packet' : Bytes) : Prop :=
  HeaderVerifies packet' ∧ (isError packet = true → DataVerifies packet → DataVerifies packet')

/-- The port that is replaced counts as nothing, or as the checksum that is cleared, and the
embedded header loses as much as it gains. -/
structure Balanced (ne : NatEntry) (natType : NatType) (packet : Bytes) : Prop where
  outer : (swap16 (ne.side natType.other).port).toNat % 65535 =
    (if isError packet then be16 packet 24 else 0 : BitVec 16).toNat % 65535
  data : isError packet = true → DataVerifies packet →
    removed packet natType (ne.side natType) (dataWords packet) % 65535 =
      added packet natType (ne.side natType) (ne.side natType.other) (dataWords packet) % 65535

section
variable {packet packet' : Bytes} {ne : NatEntry} {natType : NatType}

theorem headerVerifies_iff (packet : Bytes) :
    HeaderVerifies packet ↔ wordSum packet 14 10 % 65535 = 0 ∧ wordSum packet 14 10 ≠ 0 :=
  @verifyChecksum_iff_wordSum packet 14 10 (by omega)

theorem dataVerifies_iff (packet : Bytes) :
    DataVerifies packet ↔ wordSum packet 42 (dataWords packet) % 65535 = 0 ∧
      wordSum packet 42 (dataWords packet) ≠ 0 := by
  refine verifyChecksum_iff_wordSum packet 42 ?_
  have := ((packet.getD 42 0).extractLsb' 0 4).isLt
  unfold dataWords
  omega

theorem wordSum_header (b : Bytes) :
    wordSum b 14 10 = wordSum b 14 5 + (be16 b 24).toNat +
      ((be16 b 26).toNat + (be16 b 28).toNat) + ((be16 b 30).toNat + (be16 b 32).toNat) := by
  simp [wordSum, List.range_succ, Nat.add_assoc]

/-- The outer header gains the port, and loses its checksum if that was cleared. -/
theorem Moved.header (h : Moved packet packet' natType (ne.side natType)) (hne : Consistent ne)
    (hold : load32 packet (ipAt natType) = some (ne.side natType.other).ip)
    (hsum : OuterAdjusted packet packet' (ne.side natType) (ne.side natType.other)) :
    (wordSum packet' 14 10 + (be16 packet 24).toNat) % 65535 =
      (wordSum packet 14 10 + (if isError packet then 0 else be16 packet 24 : BitVec 16).toNat +
        (swap16 (ne.side natType.other).port).toNat) % 65535 := by
  have hkept : ∀ p, 14 ≤ p → p + 2 ≤ 34 → p + 2 ≤ 24 ∨ 26 ≤ p →
      p + 2 ≤ ipAt natType ∨ ipAt natType + 4 ≤ p → be16 packet' p = be16 packet p :=
    fun p hp hp' hout hout' =>
      be16_congr fun k hk hk' => h.frame k (by omega) (by omega) (by omega)
  have hat := ipAt_eq natType
  have hfirst : wordSum packet' 14 5 = wordSum packet 14 5 := by
    unfold wordSum
    refine congrArg List.sum (List.map_congr_left fun i hi => ?_)
    have := List.mem_range.mp hi
    rw [hkept (14 + 2 * i) (by omega) (by omega) (by omega) (by omega)]
  have hold := ipWords_of_load32 hold
  have hnew := ipWords_of_load32 h.ip
  have hip := (hne.mod natType).1
  have hboth := (hne.mod natType.other).2.1
  unfold OuterAdjusted at hsum
  rw [wordSum_header, wordSum_header, hfirst]
  generalize (if isError packet then 0 else be16 packet 24 : BitVec 16).toNat = cleared at *
  rcases hat with hat | hat
  · simp only [hat, Nat.reduceAdd] at hold hnew
    rw [hkept 30 (by omega) (by omega) (by omega) (by omega),
      hkept 32 (by omega) (by omega) (by omega) (by omega)]
    omega
  · simp only [hat, Nat.reduceAdd] at hold hnew
    rw [hkept 26 (by omega) (by omega) (by omega) (by omega),
      hkept 28 (by omega) (by omega) (by omega) (by omega)]
    omega

theorem Whole.header_ne_zero (h : Whole packet) (hmoved : Moved packet packet' natType
    (ne.side natType)) : wordSum packet' 14 10 ≠ 0 := by
  obtain ⟨ipP, hipP, -, hnonzero⟩ := h.protocol
  have hat := ipAt_eq natType
  have hproto : load8 packet' 23 = some ipP :=
    (hmoved.frame 23 (by omega) (by omega) (by omega)).trans hipP
  refine wordSum_ne_zero (k := 23) (by omega) (by omega) ?_
  rw [getD_of_load8 hproto]
  exact hnonzero

theorem DataMoved.verifies_iff (h : DataMoved packet packet' ne natType) (hne : Consistent ne)
    (herror : isError packet = true) (hverifies : DataVerifies packet) :
    DataVerifies packet' ↔
      removed packet natType (ne.side natType) (dataWords packet) % 65535 =
        added packet natType (ne.side natType) (ne.side natType.other) (dataWords packet) %
          65535 := by
  obtain ⟨hfirst, hsum⟩ := h herror
  have hsum := hsum hne (dataWords packet)
  have hbyte : packet'.getD 42 0 = packet.getD 42 0 := getD_congr hfirst
  have hwords : dataWords packet' = dataWords packet := by
    unfold dataWords
    rw [hbyte]
  obtain ⟨hmod, hnonzero⟩ := (dataVerifies_iff packet).mp hverifies
  have hpos : dataWords packet ≠ 0 := fun hzero => hnonzero (by
    rw [hzero]
    rfl)
  have hlength : packet.getD 42 0 ≠ 0 := fun hzero => hpos (by
    unfold dataWords
    rw [hzero]
    rfl)
  have hnonzero' : wordSum packet' 42 (dataWords packet) ≠ 0 :=
    wordSum_ne_zero (k := 42) (by omega) (by omega) (hbyte ▸ hlength)
  rw [dataVerifies_iff, hwords]
  constructor
  · rintro ⟨hmod', -⟩
    omega
  · intro hbalanced
    exact ⟨by omega, hnonzero'⟩

/-- Behind the translation with an entry the headers are good if and only if it is balanced. -/
theorem Whole.keepsHeaders_iff (h : Whole packet) (hne : Consistent ne)
    (houter : HeaderVerifies packet) (hmoved : Moved packet packet' natType (ne.side natType))
    (hold : load32 packet (ipAt natType) = some (ne.side natType.other).ip)
    (hsum : OuterAdjusted packet packet' (ne.side natType) (ne.side natType.other))
    (hdata : DataMoved packet packet' ne natType) :
    KeepsHeaders packet packet' ↔ Balanced ne natType packet := by
  have hheader := hmoved.header hne hold hsum
  obtain ⟨hmod, -⟩ := (headerVerifies_iff packet).mp houter
  have hcleared : (if isError packet then 0 else be16 packet 24 : BitVec 16).toNat +
      (if isError packet then be16 packet 24 else 0 : BitVec 16).toNat =
        (be16 packet 24).toNat := by
    cases isError packet with
    | true => exact Nat.zero_add _
    | false => rfl
  have houter' : HeaderVerifies packet' ↔ (swap16 (ne.side natType.other).port).toNat % 65535 =
      (if isError packet then be16 packet 24 else 0 : BitVec 16).toNat % 65535 := by
    rw [headerVerifies_iff]
    constructor
    · rintro ⟨hmod', -⟩
      omega
    · intro hport
      exact ⟨by omega, h.header_ne_zero hmoved⟩
  constructor
  · rintro ⟨hheader', hdata'⟩
    refine ⟨houter'.mp hheader', fun herror hverifies => ?_⟩
    exact (hdata.verifies_iff hne herror hverifies).mp (hdata' herror hverifies)
  · rintro ⟨hport, hwords⟩
    refine ⟨houter'.mpr hport, fun herror hverifies => ?_⟩
    exact (hdata.verifies_iff hne herror hverifies).mpr (hwords herror hverifies)

/-- The headers behind a packet from inside or outside are good if and only if its entry, if there
is one, is balanced. -/
theorem headers_verify_iff {table : List NatEntry} (hconsistent : ∀ ne ∈ table, Consistent ne)
    {e : Event} (hwhole : Whole e.packet) (hends : e.Ends table)
    (houter : HeaderVerifies e.packet) :
    ∃ (table' : List NatEntry) (packet' : Bytes), step table e = some (table', packet') ∧
      (KeepsHeaders e.packet packet' ↔
        ∀ ne, entryFor table e = some ne → Balanced ne e.side e.packet) := by
  rcases step_spec hwhole hends with ⟨hnone, hstep⟩ | ⟨ne, table', hentry, hstep⟩
  · refine ⟨table, e.packet, hstep, fun _ ne hne => ?_, fun _ => ⟨houter, fun _ h => h⟩⟩
    rw [hnone] at hne
    cases hne
  · obtain ⟨packet', htranslate, hmoved, hsum, hdata⟩ := hwhole.translate ne e.side
    have hiff := hwhole.keepsHeaders_iff (hentry.consistent hconsistent) houter hmoved hentry.ip
      hsum hdata
    refine ⟨table', packet', ?_, hiff.trans ⟨fun h ne' hne' => ?_, fun h => h ne hentry.entry⟩⟩
    · rw [hstep, htranslate]
      rfl
    · obtain rfl : ne = ne' := Option.some.inj (hentry.entry.symm.trans hne')
      exact h

end

/-- An echo request for 93.184.216.34 with identifier 0. -/
def echoFrom : Bytes :=
  List.replicate 12 0 ++ [8, 0, 69, 0, 0, 28, 0, 0, 0, 0, 64, 1, 59, 5, 10, 0, 0, 2, 93, 184, 216,
    34, 8, 0, 247, 254, 0, 0, 0, 1]

theorem headers_verify_iff_echo :
    ∃ (table' : List NatEntry) (packet' : Bytes),
      step [] (.int echoFrom 0x010000c0 [2000]) = some (table', packet') ∧
      KeepsHeaders echoFrom packet' := by
  have hwhole : Whole echoFrom :=
    .portful (.echo (by decide +kernel) 8 (by decide +kernel) rfl (by decide +kernel))
  obtain ⟨table', packet', hstep, hiff⟩ := @headers_verify_iff []
    (fun _ hne => absurd hne List.not_mem_nil) (.int echoFrom 0x010000c0 [2000]) hwhole
    (fun _ => by decide +kernel)
    (show Ip.verifyChecksum (echoFrom.drop 14) 20 = 0 by decide +kernel)
  refine ⟨table', packet', hstep, hiff.mpr fun ne hne => ⟨?_, fun herror => ?_⟩⟩
  · have hport : (entryFor [] (.int echoFrom 0x010000c0 [2000])).map
        (fun ne => ne.natInt.port) = some 0 := by decide +kernel
    rw [hne] at hport
    have hport : (ne.side .internal).port = 0 := Option.some.inj hport
    have herror : isError echoFrom = false := by decide +kernel
    change (swap16 (ne.side .internal).port).toNat % 65535 = (if isError echoFrom then _ else _ :
      BitVec 16).toNat % 65535
    rw [hport, herror]
    rfl
  · exact absurd herror (by decide +kernel)

/-- The outer header of a segment from port 1025 is good before and not behind. -/
theorem header_fails_behind_nat :
    HeaderVerifies (segmentFrom [58, 243] [10, 0, 0, 2] [4, 1] [42, 179]) ∧
    ∃ (table' : List NatEntry) (packet' : Bytes),
      step [] (.int (segmentFrom [58, 243] [10, 0, 0, 2] [4, 1] [42, 179]) 0x010000c0 [2000]) =
        some (table', packet') ∧ ¬ HeaderVerifies packet' := by
  refine ⟨show Ip.verifyChecksum _ 20 = 0 by decide +kernel, [firstEntry],
    segmentFrom [136, 244] [192, 0, 0, 1] [7, 208] [112, 228], by decide +kernel, ?_⟩
  exact show ¬ Ip.verifyChecksum _ 20 = 0 by decide +kernel

end Osnt.Scone.OrNat
