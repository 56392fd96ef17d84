import Osnt.Proofs.NatChecksums

/-! What NAT does to the headers of a packet: the outer one, and the one of the packet that an ICMP
error carries. -/
namespace Osnt.Scone.OrNat
open Lib Lib.Buffer

def NatType.other : NatType → NatType
  | .external => .internal
  | .internal => .external

/-- An entry with the differences of its addresses and ports. -/
def Consistent (ne : NatEntry) : Prop :=
  ∀ natType, ne.side natType = computeNatChecksums (ne.side natType).ip (ne.side natType).port

theorem Built.consistent {ne : NatEntry} (h : Built ne) : Consistent ne := h.side

theorem Consistent.mod {ne : NatEntry} (h : Consistent ne) (natType : NatType) :
    ((swap16 (ne.side natType).checksumIp).toNat + ipWords (ne.side natType).ip) % 65535 = 0 ∧
    ((swap16 (ne.side natType).checksum).toNat + ipWords (ne.side natType).ip +
      (swap16 (ne.side natType).port).toNat) % 65535 = 0 ∧
    ((swap16 (ne.side natType).checksumPort).toNat + (swap16 (ne.side natType).port).toNat) %
      65535 = 0 := by
  rw [h natType]
  generalize (ne.side natType).ip = ip
  generalize (ne.side natType).port = port
  have hboth := computeNatChecksums_mod 0 ip port
  have hport := computeNatChecksums_mod 36 ip port
  have hzero : ipWords ip + (swap16 (0 : BitVec 16)).toNat = ipWords ip := rfl
  have hip := computeNatChecksums_mod 0 ip 0
  refine ⟨?_, ?_, hport⟩
  · change ((swap16 (computeNatChecksums ip 0).checksum).toNat +
      (ipWords ip + (swap16 (0 : BitVec 16)).toNat)) % 65535 = 0 at hip
    rw [hzero] at hip
    exact hip
  · change ((swap16 (computeNatChecksums ip port).checksum).toNat +
      (ipWords ip + (swap16 port).toNat)) % 65535 = 0 at hboth
    rw [Nat.add_assoc]
    exact hboth

/-- Where its address and its port are that are replaced. -/
def dataIp (natType : NatType) : Nat := if natType = .external then 58 else 54

def dataPort (natType : NatType) : Nat := if natType = .external then 64 else 62

inductive DataKind
  | ports
  | echo
  | other
deriving DecidableEq

/-- What follows the embedded header, if it has no options. -/
def dataKind (packet : Bytes) : DataKind :=
  if (load8 packet 51).any isTcpOrUdp then .ports
  else if load8 packet 51 = some ipProtoIcmp ∧ (load8 packet 62).any isEcho then .echo
  else .other

def portRemoved (packet : Bytes) (natType : NatType) (new : NatIpPortPair) (m : Nat) : Nat :=
  match dataKind packet with
  | .ports => within 42 m (dataPort natType) (be16 packet (dataPort natType)).toNat
  | .echo => within 42 m 66 (be16 packet 66).toNat + within 42 m 64 (swap16 new.port).toNat
  | .other => 0

def portAdded (packet : Bytes) (natType : NatType) (new old : NatIpPortPair) (m : Nat) : Nat :=
  match dataKind packet with
  | .ports => within 42 m (dataPort natType) (swap16 new.port).toNat
  | .echo => within 42 m 66 (swap16 new.port).toNat + within 42 m 64 (swap16 old.port).toNat
  | .other => 0

def removed (packet : Bytes) (natType : NatType) (new : NatIpPortPair) (m : Nat) : Nat :=
  within 42 m (dataIp natType) (be16 packet (dataIp natType)).toNat +
    within 42 m (dataIp natType + 2) (be16 packet (dataIp natType + 2)).toNat +
    within 42 m 52 (ipWords new.ip) + portRemoved packet natType new m

def added (packet : Bytes) (natType : NatType) (new old : NatIpPortPair) (m : Nat) : Nat :=
  within 42 m (dataIp natType) (swap16 (new.ip.extractLsb' 0 16)).toNat +
    within 42 m (dataIp natType + 2) (swap16 (new.ip.extractLsb' 16 16)).toNat +
    within 42 m 52 (ipWords old.ip) + portAdded packet natType new old m

section
variable {packet packet' packet₁ packet₂ : Bytes} {o p : Nat}

theorem wordSum_store16 {v : BitVec 16} (h : store16 packet p v = some packet') (hle : o ≤ p)
    (heven : (p - o) % 2 = 0) (m : Nat) :
    wordSum packet' o m + within o m p (be16 packet p).toNat =
      wordSum packet o m + within o m p (swap16 v).toNat := by
  obtain ⟨-, hframe, hload⟩ := store16_spec h
  have hchange := @wordSum_change _ _ o m p hle heven fun k _ hk => hframe k hk
  rw [be16_of_load16 hload] at hchange
  exact hchange

theorem wordSum_store32 {v : BitVec 32} (h : store32 packet p v = some packet') (hle : o ≤ p)
    (heven : (p - o) % 2 = 0) (m : Nat) :
    wordSum packet' o m + (within o m p (be16 packet p).toNat +
        within o m (p + 2) (be16 packet (p + 2)).toNat) =
      wordSum packet o m + (within o m p (swap16 (v.extractLsb' 0 16)).toNat +
        within o m (p + 2) (swap16 (v.extractLsb' 16 16)).toNat) := by
  obtain ⟨packet₁, h₁, h₂⟩ := Option.bind_eq_some_iff.mp h
  have hsum₁ := wordSum_store16 h₁ hle heven m
  have hsum₂ := wordSum_store16 h₂ (o := o) (by omega) (by omega) m
  have hkept : be16 packet₁ (p + 2) = be16 packet (p + 2) :=
    be16_congr fun k hk _ => (store16_spec h₁).2.1 k (.inr hk)
  rw [hkept] at hsum₂
  omega

/-- A checksum among what is added up takes in what the differences stand for. -/
theorem wordSum_adjust16 {pos neg : BitVec 16} {new old : Nat}
    (h : adjust16 packet p pos neg = some packet') (hle : o ≤ p) (heven : (p - o) % 2 = 0)
    (hpos : ((swap16 pos).toNat + new) % 65535 = 0) (hneg : ((swap16 neg).toNat + old) % 65535 = 0)
    (m : Nat) :
    (wordSum packet' o m + within o m p new) % 65535 =
      (wordSum packet o m + within o m p old) % 65535 := by
  obtain ⟨-, hframe, hmod⟩ := adjust16_mod h
  have hchange := @wordSum_change _ _ o m p hle heven fun k _ hk => hframe k hk
  unfold within at hchange ⊢
  split
  · rename_i hin
    rw [if_pos hin, if_pos hin] at hchange
    omega
  · rename_i hout
    rw [if_neg hout, if_neg hout] at hchange
    omega

/-- The bytes that are not replaced in an ICMP error. -/
def KeepsRest (packet packet' : Bytes) : Prop :=
  packet'.length = packet.length ∧
    ∀ k, k < 24 ∨ 26 ≤ k ∧ k < 52 ∨ 68 ≤ k → packet'[k]? = packet[k]?

/-- The ports, or the identifier and the checksum, behind the embedded header. -/
theorem populateData_spec (hlen : 68 ≤ packet.length) (ne : NatEntry) (natType : NatType) :
    ∃ packet', (do
      let dataP ← load8 packet 51
      if isTcpOrUdp dataP then
        store16 packet (if natType = .external then 64 else 62) (ne.side natType).port
      else if dataP = ipProtoIcmp then
        let dataType ← load8 packet 62
        if isEcho dataType then
          let packet ← store16 packet 66 (ne.side natType).port
          adjust16 packet 64 (ne.side natType).checksumPort (ne.side natType.other).checksumPort
        else return packet
      else return packet) = some packet' ∧
    packet'.length = packet.length ∧ (∀ k, k < 62 ∨ 68 ≤ k → packet'[k]? = packet[k]?) ∧
    (Consistent ne → ∀ m,
      (wordSum packet' 42 m + portRemoved packet natType (ne.side natType) m) % 65535 =
        (wordSum packet 42 m +
          portAdded packet natType (ne.side natType) (ne.side natType.other) m) % 65535) := by
  obtain ⟨dataP, hdataP⟩ : ∃ v, load8 packet 51 = some v :=
    ⟨_, List.getElem?_eq_getElem (show 51 < packet.length by omega)⟩
  obtain ⟨dataType, hdataType⟩ : ∃ v, load8 packet 62 = some v :=
    ⟨_, List.getElem?_eq_getElem (show 62 < packet.length by omega)⟩
  simp only [hdataP, hdataType, Option.bind_eq_bind, Option.bind_some]
  unfold portRemoved portAdded dataKind
  rw [hdataP, hdataType, Option.any_some, Option.any_some]
  cases hproto : isTcpOrUdp dataP with
  | true =>
    have hport : dataPort natType = 62 ∨ dataPort natType = 64 := (ite_eq_or_eq _ _ _).symm
    obtain ⟨packet₁, h₁⟩ := store16_isSome (b := packet) (o := dataPort natType) (by omega)
      (ne.side natType).port
    obtain ⟨hlen₁, hframe₁, -⟩ := store16_spec h₁
    refine ⟨packet₁, h₁, hlen₁, fun k hk => hframe₁ k (by omega), fun _ m => ?_⟩
    exact congrArg (· % 65535) (wordSum_store16 h₁ (by omega) (by omega) m)
  | false =>
    rw [if_neg Bool.false_ne_true, if_neg Bool.false_ne_true]
    rcases eq_or_ne dataP ipProtoIcmp with hicmp | hicmp
    · rw [if_pos hicmp]
      cases hecho : isEcho dataType with
      | true =>
        obtain ⟨packet₁, h₁⟩ := store16_isSome (b := packet) (o := 66) (by omega)
          (ne.side natType).port
        obtain ⟨hlen₁, hframe₁, -⟩ := store16_spec h₁
        obtain ⟨packet₂, h₂, hlen₂, hframe₂⟩ := @adjust16_spec packet₁ 64 (by omega)
          (ne.side natType).checksumPort (ne.side natType.other).checksumPort
        refine ⟨packet₂, ?_, hlen₂.trans hlen₁, fun k hk => ?_, fun hne m => ?_⟩
        · rw [if_pos rfl, h₁]
          exact h₂
        · rw [hframe₂ k (by omega), hframe₁ k (by omega)]
        · have hsum₁ := wordSum_store16 h₁ (o := 42) (by omega) (by omega) m
          have hsum₂ := wordSum_adjust16 h₂ (o := 42) (by omega) (by omega)
            (hne.mod natType).2.2 (hne.mod natType.other).2.2 m
          rw [if_pos ⟨congrArg some hicmp, rfl⟩]
          dsimp only
          omega
      | false =>
        rw [if_neg Bool.false_ne_true, if_neg (by simp)]
        exact ⟨packet, rfl, rfl, fun _ _ => rfl, fun _ _ => rfl⟩
    · rw [if_neg hicmp, if_neg fun h => hicmp (Option.some.inj h.1)]
      exact ⟨packet, rfl, rfl, fun _ _ => rfl, fun _ _ => rfl⟩

theorem old_eq (ne : NatEntry) (natType : NatType) :
    (if natType = .external then ne.natInt else ne.natExt) = ne.side natType.other := by
  cases natType with
  | external => rfl
  | internal => rfl

theorem dataKind_congr (h51 : packet'[51]? = packet[51]?) (h62 : packet'[62]? = packet[62]?) :
    dataKind packet' = dataKind packet := by
  unfold dataKind load8
  rw [h51, h62]

theorem isEcho_of_isIcmpError {icmpType : BitVec 8} (h : isIcmpError icmpType = true) :
    isEcho icmpType = false := by
  unfold isIcmpError at h
  rcases (Bool.or_eq_true _ _).mp h with h | h
  · rw [beq_iff_eq.mp h]
    rfl
  · rw [beq_iff_eq.mp h]
    rfl

section
variable (h51 : packet'[51]? = packet[51]?) (hports : ∀ k, 62 ≤ k → packet'[k]? = packet[k]?)
  (natType : NatType) (new old : NatIpPortPair) (m : Nat)
include h51 hports

/-- What the ports weigh depends on the embedded protocol and what follows the embedded header. -/
theorem portRemoved_congr :
    portRemoved packet' natType new m = portRemoved packet natType new m := by
  have hport : dataPort natType = 64 ∨ dataPort natType = 62 := ite_eq_or_eq _ _ _
  have hword : ∀ p, 62 ≤ p → be16 packet' p = be16 packet p := fun p hp =>
    be16_congr fun k hk _ => hports k (by omega)
  unfold portRemoved
  rw [dataKind_congr h51 (hports 62 (Nat.le_refl _)), hword 66 (by omega),
    hword (dataPort natType) (by omega)]

theorem portAdded_congr :
    portAdded packet' natType new old m = portAdded packet natType new old m := by
  unfold portAdded
  rw [dataKind_congr h51 (hports 62 (Nat.le_refl _))]

end

theorem populateIcmpData_spec (hlen : 68 ≤ packet.length) (ne : NatEntry) (natType : NatType) :
    ∃ packet', populateIcmpData packet ne natType = some packet' ∧ KeepsRest packet packet' ∧
      load16 packet' 24 = some 0 ∧
      (Consistent ne → ∀ m,
        (wordSum packet' 42 m + removed packet natType (ne.side natType) m) % 65535 =
          (wordSum packet 42 m +
            added packet natType (ne.side natType) (ne.side natType.other) m) % 65535) := by
  have hip : dataIp natType = 58 ∨ dataIp natType = 54 := ite_eq_or_eq _ _ _
  have hport : dataPort natType = 64 ∨ dataPort natType = 62 := ite_eq_or_eq _ _ _
  obtain ⟨packet₁, h₁⟩ := store32_isSome (b := packet) (o := dataIp natType) (by omega)
    (ne.side natType).ip
  obtain ⟨hlen₁, hframe₁, -⟩ := store32_spec h₁
  obtain ⟨dataSum, hdataSum⟩ := load16_isSome packet₁ (o := 52) (by omega)
  obtain ⟨packet₂, h₂⟩ := store16_isSome (b := packet₁) (o := 24) (by omega) 0
  obtain ⟨hlen₂, hframe₂, hload₂⟩ := store16_spec h₂
  obtain ⟨packet₃, h₃⟩ := store16_isSome (b := packet₂) (o := 52) (by omega)
    (natChecksum dataSum (ne.side natType).checksumIp (ne.side natType.other).checksumIp)
  obtain ⟨hlen₃, hframe₃, -⟩ := store16_spec h₃
  have hadjust : adjust16 packet₂ 52 (ne.side natType).checksumIp
      (ne.side natType.other).checksumIp = some packet₃ := by
    unfold adjust16
    rw [load16_congr fun k hk _ => hframe₂ k (by omega), hdataSum]
    exact h₃
  obtain ⟨packet₄, h₄, hlen₄, hframe₄, hsum₄⟩ :=
    @populateData_spec packet₃ (by omega) ne natType
  have hframe : ∀ k, k < 24 ∨ 26 ≤ k → k < 52 ∨ 62 ≤ k → packet₃[k]? = packet[k]? := by
    intro k hk hk'
    rw [hframe₃ k (by omega), hframe₂ k hk, hframe₁ k (by omega)]
  refine ⟨packet₄, ?_, ⟨by omega, fun k hk => ?_⟩, ?_, fun hne m => ?_⟩
  · unfold populateIcmpData
    change (store32 packet (dataIp natType) (ne.side natType).ip >>= _) = _
    simp only [old_eq, h₁, hdataSum, h₂, Option.bind_eq_bind, Option.bind_some]
    change (store16 packet₂ 52 (natChecksum dataSum (ne.side natType).checksumIp
      (ne.side natType.other).checksumIp) >>= _) = _
    rw [h₃]
    exact h₄
  · rw [hframe₄ k (by omega), hframe k (by omega) (by omega)]
  · rw [load16_congr fun k hk _ => hframe₄ k (by omega),
      load16_congr fun k hk _ => hframe₃ k (by omega)]
    exact hload₂
  · have hsum₁ := wordSum_store32 h₁ (o := 42) (by omega) (by omega) m
    have hsum₂ : wordSum packet₂ 42 m = wordSum packet₁ 42 m :=
      wordSum_congr fun k hk => hframe₂ k (by omega)
    have hsum₃ := wordSum_adjust16 hadjust (o := 42) (by omega) (by omega)
      (hne.mod natType).1 (hne.mod natType.other).1 m
    have hsum₄ := hsum₄ hne m
    have h51 : packet₃[51]? = packet[51]? := hframe 51 (by omega) (by omega)
    have hports : ∀ k, 62 ≤ k → packet₃[k]? = packet[k]? := fun k hk =>
      hframe k (by omega) (by omega)
    rw [portRemoved_congr h51 hports, portAdded_congr h51 hports] at hsum₄
    unfold removed added
    omega

theorem sumIcmp_isSome {n : Nat} (h : 34 + 2 * n ≤ packet.length) :
    ∃ sum, sumIcmp packet n = some sum := by
  induction n with
  | zero => exact ⟨0, rfl⟩
  | succ n ih =>
    obtain ⟨sum, hsum⟩ := ih (by omega)
    obtain ⟨short, hshort⟩ := load16_isSome packet (o := 34 + 2 * n) (by omega)
    unfold sumIcmp
    rw [hsum, hshort]
    simp only [Option.bind_eq_bind, Option.bind_some]
    split
    · exact ⟨_, rfl⟩
    · exact ⟨_, rfl⟩

theorem fillIcmpChecksum_spec (hlen : 38 ≤ packet.length)
    (hmessage : 14 + ipLength packet ≤ packet.length) :
    ∃ packet', fillIcmpChecksum packet = some packet' ∧ packet'.length = packet.length ∧
      ∀ k, k < 36 ∨ 38 ≤ k → packet'[k]? = packet[k]? := by
  obtain ⟨len, hload⟩ := load16_isSome packet (o := 16) (by omega)
  have hlen' : (swap16 len).toNat = ipLength packet := by
    rw [ipLength, be16_of_load16 hload]
  obtain ⟨packet₁, h₁⟩ := store16_isSome (b := packet) (o := 36) (by omega) 0
  obtain ⟨hlen₁, hframe₁, -⟩ := store16_spec h₁
  obtain ⟨sum, hsum⟩ := @sumIcmp_isSome packet₁ (((swap16 len).toNat - 20) / 2) (by omega)
  obtain ⟨packet₂, h₂⟩ := store16_isSome (b := packet₁) (o := 36) (by omega)
    (swap16 (Pwospf.complementSum sum))
  obtain ⟨hlen₂, hframe₂, -⟩ := store16_spec h₂
  refine ⟨packet₂, ?_, hlen₂.trans hlen₁, fun k hk => (hframe₂ k hk).trans (hframe₁ k hk)⟩
  unfold fillIcmpChecksum
  rw [hload]
  simp only [Option.bind_eq_bind, Option.bind_some, h₁, hsum]
  exact h₂

end

/-- An ICMP error: time exceeded or destination unreachable. -/
def isError (packet : Bytes) : Bool :=
  load8 packet 23 == some ipProtoIcmp && (load8 packet 34).any isIcmpError

/-- A packet in which all is there that is read. -/
inductive Whole (packet : Bytes) : Prop
  | portful {src dst sum : Nat} (h : Portful packet src dst sum)
  | error (proto : load8 packet 23 = some ipProtoIcmp) (icmpType : BitVec 8)
    (type : load8 packet 34 = some icmpType) (error : isIcmpError icmpType = true)
    (message : 14 + ipLength packet ≤ packet.length) (data : 68 ≤ packet.length)
  | icmp (proto : load8 packet 23 = some ipProtoIcmp) (icmpType : BitVec 8)
    (type : load8 packet 34 = some icmpType) (noEcho : isEcho icmpType = false)
    (noError : isIcmpError icmpType = false)

/-- A packet gets one side of an entry for the other. -/
def translate (ne : NatEntry) (natType : NatType) (packet : Bytes) : Option Bytes := do
  let packet ← populateNatPacket packet ne natType
  rewriteChecksums packet (ne.side natType) (ne.side natType.other)

/-- Where the address is that is replaced. -/
def ipAt (natType : NatType) : Nat := if natType = .external then 26 else 30

/-- The outer header behind `populate_nat_packet` and, but for its checksum, from then on. -/
structure Moved (packet packet' : Bytes) (natType : NatType) (new : NatIpPortPair) : Prop where
  length : packet'.length = packet.length
  ip : load32 packet' (ipAt natType) = some new.ip
  frame : ∀ k, k < 34 → k < 24 ∨ 26 ≤ k → k < ipAt natType ∨ ipAt natType + 4 ≤ k →
    packet'[k]? = packet[k]?

/-- The embedded packet of an ICMP error. -/
def DataMoved (packet packet' : Bytes) (ne : NatEntry) (natType : NatType) : Prop :=
  isError packet = true → packet'[42]? = packet[42]? ∧ (Consistent ne → ∀ m,
    (wordSum packet' 42 m + removed packet natType (ne.side natType) m) % 65535 =
      (wordSum packet 42 m + added packet natType (ne.side natType) (ne.side natType.other) m) %
        65535)

/-- There is a packet behind `populate_nat_packet` and the checksum of the payload. -/
def Replaces (packet : Bytes) (ne : NatEntry) (natType : NatType) : Prop :=
  ∃ packet₁ packet₂, populateNatPacket packet ne natType = some packet₁ ∧
    rewritePayloadChecksum packet₁ (ne.side natType) (ne.side natType.other) = some packet₂ ∧
    Moved packet packet₂ natType (ne.side natType) ∧ 34 < packet.length ∧
    be16 packet₂ 24 = (if isError packet then 0 else be16 packet 24) ∧
    DataMoved packet packet₂ ne natType

section
variable {packet packet' packet₁ packet₂ : Bytes} {src dst sum : Nat}

theorem ipAt_eq (natType : NatType) : ipAt natType = 26 ∨ ipAt natType = 30 := ite_eq_or_eq _ _ _

theorem Portful.not_error (h : Portful packet src dst sum) : isError packet = false := by
  unfold isError
  cases h with
  | tcp proto length =>
    rw [proto]
    rfl
  | udp proto length =>
    rw [proto]
    rfl
  | echo proto icmpType type echo length =>
    rw [type, Option.any_some, Bool.and_eq_false_iff]
    refine .inr ?_
    unfold isEcho at echo
    rcases (Bool.or_eq_true _ _).mp echo with h | h
    · rw [beq_iff_eq.mp h]
      rfl
    · rw [beq_iff_eq.mp h]
      rfl

theorem DataMoved.of_not_error (h : isError packet = false) (ne : NatEntry) (natType : NatType) :
    DataMoved packet packet' ne natType := by
  intro herror
  rw [h] at herror
  cases herror

theorem Portful.replaces (h : Portful packet src dst sum) (ne : NatEntry) (natType : NatType) :
    Replaces packet ne natType := by
  have hbounds := h.bounds
  have hip := ipAt_eq natType
  obtain ⟨packet₁, h₁, hlen₁, hip₁, hport₁, hframe₁⟩ :=
    h.populate ne natType (rfl : ipAt natType = _) rfl
  have hport : 34 ≤ (if natType = .external then src else dst) := by split <;> omega
  have hfirst : ∀ k, k < 34 → k < ipAt natType ∨ ipAt natType + 4 ≤ k →
      packet₁[k]? = packet[k]? := fun k hk hk' => hframe₁ k hk' (by omega)
  have hh : Portful packet₁ src dst sum := by
    refine h.of_frame hlen₁ (hfirst 23 (by omega) (by omega)) fun hsrc => ?_
    apply hframe₁ 34 (by omega)
    cases h with
    | tcp _ _ => cases hsrc
    | udp _ _ => cases hsrc
    | echo _ _ _ _ _ =>
      rw [ite_self]
      omega
  obtain ⟨packet₂, h₂, hlen₂, hframe₂⟩ :=
    hh.payloadChecksum (ne.side natType) (ne.side natType.other)
  refine ⟨packet₁, packet₂, h₁, h₂, ⟨hlen₂.trans hlen₁, ?_, ?_⟩, by omega, ?_,
    .of_not_error h.not_error ne natType⟩
  · rw [load32_congr fun k _ hk => hframe₂ k (by omega)]
    exact hip₁
  · intro k hk _ hk'
    rw [hframe₂ k (by omega), hfirst k hk hk']
  · rw [h.not_error]
    refine be16_congr fun k hk hk' => ?_
    rw [hframe₂ k (by omega), hfirst k (by omega) (by omega)]

theorem error_replaces (proto : load8 packet 23 = some ipProtoIcmp) {icmpType : BitVec 8}
    (type : load8 packet 34 = some icmpType) (error : isIcmpError icmpType = true)
    (message : 14 + ipLength packet ≤ packet.length) (data : 68 ≤ packet.length) (ne : NatEntry)
    (natType : NatType) : Replaces packet ne natType := by
  have hip := ipAt_eq natType
  have herror : isError packet = true := by
    unfold isError
    rw [proto, type, Option.any_some, error]
    rfl
  have hecho := isEcho_of_isIcmpError error
  obtain ⟨packet₀, h₀⟩ := store32_isSome (b := packet) (o := ipAt natType) (by omega)
    (ne.side natType).ip
  obtain ⟨hlen₀, hframe₀, hload₀⟩ := store32_spec h₀
  obtain ⟨packet₁, h₁, ⟨hlen₁, hframe₁⟩, hsum₁, hdata₁⟩ :=
    @populateIcmpData_spec packet₀ (by omega) ne natType
  have hlength : ipLength packet₁ = ipLength packet :=
    congrArg BitVec.toNat (be16_congr fun k hk hk' => by
      rw [hframe₁ k (by omega), hframe₀ k (by omega)])
  obtain ⟨packet₂, h₂, hlen₂, hframe₂⟩ :=
    @fillIcmpChecksum_spec packet₁ (by omega) (by omega)
  have hproto₀ : load8 packet₀ 23 = some ipProtoIcmp := (hframe₀ 23 (by omega)).trans proto
  have htype₀ : load8 packet₀ 34 = some icmpType := (hframe₀ 34 (by omega)).trans type
  have hproto₁ : load8 packet₁ 23 = some ipProtoIcmp := (hframe₁ 23 (by omega)).trans hproto₀
  have htype₁ : load8 packet₁ 34 = some icmpType := (hframe₁ 34 (by omega)).trans htype₀
  have hicmp : isTcpOrUdp ipProtoIcmp = false := rfl
  refine ⟨packet₁, packet₂, ?_, ?_, ⟨by omega, ?_, ?_⟩, by omega, ?_,
    fun _ => ⟨?_, fun hne m => ?_⟩⟩
  · unfold populateNatPacket
    change (store32 packet (ipAt natType) (ne.side natType).ip >>= _) = _
    simp only [h₀, hproto₀, htype₀, hicmp, hecho, error, Option.bind_eq_bind, Option.bind_some,
      Bool.false_eq_true, if_false, if_true]
    exact h₁
  · unfold rewritePayloadChecksum
    simp only [hproto₁, htype₁, hecho, error, Option.bind_eq_bind, Option.bind_some,
      Bool.false_eq_true, if_false, if_true]
    exact h₂
  · rw [load32_congr fun k hk hk' => (hframe₂ k (by omega)).trans (hframe₁ k (by omega))]
    exact hload₀
  · intro k hk hk' hout
    rw [hframe₂ k (by omega), hframe₁ k (by omega), hframe₀ k hout]
  · have hzero : be16 packet₁ 24 = 0 := be16_of_load16 hsum₁
    rw [herror, if_pos rfl, ← hzero]
    exact be16_congr fun k hk hk' => hframe₂ k (by omega)
  · rw [hframe₂ 42 (by omega), hframe₁ 42 (by omega), hframe₀ 42 (by omega)]
  · have hbehind : ∀ k, 34 ≤ k → packet₀[k]? = packet[k]? := fun k hk => hframe₀ k (by omega)
    have h51 := hbehind 51 (by omega)
    have hports : ∀ k, 62 ≤ k → packet₀[k]? = packet[k]? := fun k hk => hbehind k (by omega)
    have hwords : ∀ p, 34 ≤ p → be16 packet₀ p = be16 packet p := fun p hp =>
      be16_congr fun k hk _ => hbehind k (by omega)
    have hat : dataIp natType = 58 ∨ dataIp natType = 54 := ite_eq_or_eq _ _ _
    have hremoved : removed packet₀ natType (ne.side natType) m =
        removed packet natType (ne.side natType) m := by
      unfold removed
      rw [portRemoved_congr h51 hports, hwords (dataIp natType) (by omega),
        hwords (dataIp natType + 2) (by omega)]
    have hadded : added packet₀ natType (ne.side natType) (ne.side natType.other) m =
        added packet natType (ne.side natType) (ne.side natType.other) m := by
      unfold added
      rw [portAdded_congr h51 hports]
    have hsum₂ : wordSum packet₂ 42 m = wordSum packet₁ 42 m :=
      wordSum_congr fun k hk => hframe₂ k (by omega)
    have hsum₀ : wordSum packet₀ 42 m = wordSum packet 42 m :=
      wordSum_congr fun k hk => hbehind k (by omega)
    have hdata := hdata₁ hne m
    rw [hremoved, hadded, hsum₀] at hdata
    rw [hsum₂]
    exact hdata

/-- Of another ICMP message only the outer header is changed. -/
theorem icmp_replaces (proto : load8 packet 23 = some ipProtoIcmp) {icmpType : BitVec 8}
    (type : load8 packet 34 = some icmpType) (noEcho : isEcho icmpType = false)
    (noError : isIcmpError icmpType = false) (ne : NatEntry) (natType : NatType) :
    Replaces packet ne natType := by
  have hip := ipAt_eq natType
  have hlen : 34 < packet.length := (List.getElem?_eq_some_iff.mp type).1
  have herror : isError packet = false := by
    unfold isError
    rw [proto, type, Option.any_some, noError]
    rfl
  obtain ⟨packet₀, h₀⟩ := store32_isSome (b := packet) (o := ipAt natType) (by omega)
    (ne.side natType).ip
  obtain ⟨hlen₀, hframe₀, hload₀⟩ := store32_spec h₀
  have hproto₀ : load8 packet₀ 23 = some ipProtoIcmp := (hframe₀ 23 (by omega)).trans proto
  have htype₀ : load8 packet₀ 34 = some icmpType := (hframe₀ 34 (by omega)).trans type
  have hicmp : isTcpOrUdp ipProtoIcmp = false := rfl
  refine ⟨packet₀, packet₀, ?_, ?_, ⟨hlen₀, hload₀, fun k _ _ hk => hframe₀ k hk⟩, hlen, ?_,
    .of_not_error herror ne natType⟩
  · unfold populateNatPacket
    change (store32 packet (ipAt natType) (ne.side natType).ip >>= _) = _
    simp only [h₀, hproto₀, htype₀, hicmp, noEcho, noError, Option.bind_eq_bind, Option.bind_some,
      Bool.false_eq_true, if_false, if_true]
    rfl
  · unfold rewritePayloadChecksum
    simp only [hproto₀, htype₀, noEcho, noError, Option.bind_eq_bind, Option.bind_some,
      Bool.false_eq_true, if_false, if_true]
    rfl
  · rw [herror]
    exact be16_congr fun k hk hk' => hframe₀ k (by omega)

theorem Whole.replaces (h : Whole packet) (ne : NatEntry) (natType : NatType) :
    Replaces packet ne natType := by
  cases h with
  | portful h => exact h.replaces ne natType
  | error proto icmpType type error message data =>
    exact error_replaces proto type error message data ne natType
  | icmp proto icmpType type noEcho noError =>
    exact icmp_replaces proto type noEcho noError ne natType

/-- The checksum of the outer header takes in the differences. -/
def OuterAdjusted (packet packet' : Bytes) (new old : NatIpPortPair) : Prop :=
  ((be16 packet' 24).toNat + (swap16 old.checksum).toNat) % 65535 =
    ((if isError packet then 0 else be16 packet 24 : BitVec 16).toNat +
      (swap16 new.checksumIp).toNat) % 65535

theorem Whole.translate (h : Whole packet) (ne : NatEntry) (natType : NatType) :
    ∃ packet', OrNat.translate ne natType packet = some packet' ∧
      Moved packet packet' natType (ne.side natType) ∧
      OuterAdjusted packet packet' (ne.side natType) (ne.side natType.other) ∧
      DataMoved packet packet' ne natType := by
  have hip := ipAt_eq natType
  obtain ⟨packet₁, packet₂, h₁, h₂, hmoved, hlen, hsum, hdata⟩ := h.replaces ne natType
  have hlength := hmoved.length
  obtain ⟨packet₃, h₃, -⟩ := @adjust16_spec packet₂ 24 (by omega) (ne.side natType).checksumIp
    (ne.side natType.other).checksum
  obtain ⟨hlen₃, hframe₃, hmod₃⟩ := adjust16_mod h₃
  refine ⟨packet₃, ?_, ⟨hlen₃.trans hlength, ?_, fun k hk hk' hout => ?_⟩, ?_, fun herror => ?_⟩
  · unfold OrNat.translate rewriteChecksums
    simp only [h₁, h₂, Option.bind_eq_bind, Option.bind_some]
    exact h₃
  · rw [load32_congr fun k hk _ => hframe₃ k (by omega)]
    exact hmoved.ip
  · rw [hframe₃ k hk', hmoved.frame k hk hk' hout]
  · rw [hsum] at hmod₃
    exact hmod₃
  · obtain ⟨hfirst, hwords⟩ := hdata herror
    refine ⟨(hframe₃ 42 (by omega)).trans hfirst, fun hne m => ?_⟩
    rw [wordSum_congr fun k hk => hframe₃ k (by omega)]
    exact hwords hne m

theorem Whole.length (h : Whole packet) : 34 < packet.length := by
  cases h with
  | portful h =>
    have := h.bounds
    omega
  | error _ _ type _ _ _ => exact (List.getElem?_eq_some_iff.mp type).1
  | icmp _ _ type _ _ => exact (List.getElem?_eq_some_iff.mp type).1

theorem Whole.protocol (h : Whole packet) : ∃ ipP, load8 packet 23 = some ipP ∧
    (isTcpOrUdp ipP || ipP == ipProtoIcmp) = true ∧ ipP ≠ 0 := by
  cases h with
  | portful h =>
    cases h with
    | tcp proto _ => exact ⟨_, proto, rfl, by decide⟩
    | udp proto _ => exact ⟨_, proto, rfl, by decide⟩
    | echo proto _ _ _ _ => exact ⟨_, proto, rfl, by decide⟩
  | error proto _ _ _ _ _ => exact ⟨_, proto, rfl, by decide⟩
  | icmp proto _ _ _ _ => exact ⟨_, proto, rfl, by decide⟩

theorem load32_isSome {o : Nat} (h : o + 4 ≤ packet.length) :
    ∃ v, load32 packet o = some v := by
  rw [load32_eq, if_pos h]
  exact ⟨_, rfl⟩

theorem Whole.pair (h : Whole packet) (natType : NatType) :
    ∃ (ip : BitVec 32) (port : BitVec 16),
      load32 packet (if natType = .external then 30 else 26) = some ip ∧
      getNatIpPortPair packet natType = some (ip, port) := by
  have hlen := h.length
  obtain ⟨ip, hip⟩ := @load32_isSome packet (if natType = .external then 30 else 26)
    (by split <;> omega)
  cases h with
  | portful h =>
    obtain ⟨pair, hpair⟩ := h.pair_isSome natType
    exact ⟨pair.1, pair.2, (h.pair_loads hpair).1, hpair⟩
  | error proto icmpType type error message data =>
    obtain ⟨port, hport⟩ : ∃ port, getNatPortFromIcmp packet natType = some port := by
      obtain ⟨dataP, hdataP⟩ : ∃ v, load8 packet 51 = some v :=
        ⟨_, List.getElem?_eq_getElem (show 51 < packet.length by omega)⟩
      obtain ⟨port, hport⟩ := load16_isSome packet
        (o := if natType = .external then 62 else 64) (by split <;> omega)
      obtain ⟨id, hid⟩ := load16_isSome packet (o := 38) (by omega)
      obtain ⟨dataId, hdataId⟩ := load16_isSome packet (o := 66) (by omega)
      unfold getNatPortFromIcmp
      simp only [type, hdataP, hport, hid, hdataId, Option.bind_eq_bind, Option.bind_some, error,
        if_true]
      split
      · exact ⟨_, rfl⟩
      split
      · exact ⟨_, rfl⟩
      split <;> exact ⟨_, rfl⟩
    refine ⟨ip, port, hip, ?_⟩
    unfold getNatIpPortPair
    simp only [hip, proto, hport, Option.bind_eq_bind, Option.bind_some]
    rfl
  | icmp proto icmpType type noEcho noError =>
    have hport : getNatPortFromIcmp packet natType = some 0 := by
      unfold getNatPortFromIcmp
      simp only [type, noEcho, noError, Option.bind_eq_bind, Option.bind_some]
      rfl
    refine ⟨ip, 0, hip, ?_⟩
    unfold getNatIpPortPair
    simp only [hip, proto, hport, Option.bind_eq_bind, Option.bind_some]
    rfl

theorem Whole.srcPort (h : Whole packet) : ∃ port, getSrcPortNumber packet = some port := by
  cases h with
  | portful h =>
    rw [h.srcPort]
    exact load16_isSome packet h.bounds.1
  | error proto icmpType type error message data =>
    obtain ⟨id, hid⟩ := load16_isSome packet (o := 38) (by omega)
    obtain ⟨port, hport⟩ := load16_isSome packet (o := 62) (by omega)
    have hicmp : isTcpOrUdp ipProtoIcmp = false := rfl
    unfold getSrcPortNumber
    simp only [proto, type, hid, hport, hicmp, error, Option.bind_eq_bind, Option.bind_some,
      Bool.false_eq_true, if_false, if_true]
    split
    · exact ⟨_, rfl⟩
    · exact ⟨_, rfl⟩
  | icmp proto icmpType type noEcho noError =>
    refine ⟨0, ?_⟩
    unfold getSrcPortNumber
    simp only [proto, type, noEcho, noError, Option.bind_eq_bind, Option.bind_some]
    rfl

end

def Event.packet : Event → Bytes
  | .int packet _ _ => packet
  | .ext packet => packet

/-- The side that the packet of an event gets. -/
def Event.side : Event → NatType
  | .int _ _ _ => .external
  | .ext _ => .internal

/-- The entry for the packet of an event: it may be new, or missing for a packet from outside. -/
def entryFor (table : List NatEntry) : Event → Option NatEntry
  | .int packet extIp rand => do
    let (table, k) ← findOrCreate table packet extIp rand
    table[k]?
  | .ext packet => do
    let k ← (getNatTableEntry table packet .external).join
    table[k]?

/-- The search for a port comes to an end, if there is one. -/
def Event.Ends (table : List NatEntry) : Event → Prop
  | .int packet _ rand =>
    getNatTableEntry table packet .internal = some none → (drawPort table rand).isSome = true
  | .ext _ => True

/-- An entry for a packet holds the address and the port that are replaced. -/
structure EntryFor (table : List NatEntry) (e : Event) (ne : NatEntry) : Prop where
  entry : entryFor table e = some ne
  ip : load32 e.packet (ipAt e.side) = some (ne.side e.side.other).ip
  port : ∀ src dst sum, Portful e.packet src dst sum →
    load16 e.packet (if e.side = .external then src else dst) = some (ne.side e.side.other).port
  consistent : (∀ ne ∈ table, Consistent ne) → Consistent ne

section
variable {table : List NatEntry} {packet : Bytes}

theorem createNatTableEntry_consistent {extIp : BitVec 32} {rand : List (BitVec 16)}
    {ne : NatEntry} (h : createNatTableEntry table packet extIp rand = some ne) :
    Consistent ne :=
  (show Built ne from ⟨table, packet, extIp, rand, ne, h, rfl, rfl⟩).consistent

theorem findOrCreate_found {extIp : BitVec 32} {rand : List (BitVec 16)} {k : Nat}
    (hget : getNatTableEntry table packet .internal = some (some k)) :
    findOrCreate table packet extIp rand = some (table, k) := by
  unfold findOrCreate
  rw [hget]
  rfl

theorem findOrCreate_created {extIp : BitVec 32} {rand : List (BitVec 16)} {ne : NatEntry}
    (hget : getNatTableEntry table packet .internal = some none)
    (hcreate : createNatTableEntry table packet extIp rand = some ne) :
    findOrCreate table packet extIp rand = some (table ++ [ne], table.length) := by
  unfold findOrCreate
  rw [hget]
  simp only [Option.bind_eq_bind, Option.bind_some, hcreate]
  rfl

theorem created {extIp : BitVec 32} {rand : List (BitVec 16)}
    {ip : BitVec 32} {new port : BitVec 16} (hip : load32 packet 26 = some ip)
    (hport : getSrcPortNumber packet = some port) (hnew : drawPort table rand = some new) :
    createNatTableEntry table packet extIp rand =
      some ⟨computeNatChecksums extIp (swap16 new), computeNatChecksums ip port, 0⟩ := by
  unfold createNatTableEntry
  simp only [hnew, hip, hport, Option.bind_eq_bind, Option.bind_some]
  rfl

/-- A packet from inside has an entry, and is translated with it. -/
theorem Whole.int (h : Whole packet) {extIp : BitVec 32} {rand : List (BitVec 16)}
    (hends : (Event.int packet extIp rand).Ends table) :
    ∃ (table₁ : List NatEntry) (k : Nat) (ne : NatEntry),
      findOrCreate table packet extIp rand = some (table₁, k) ∧ table₁[k]? = some ne ∧
      EntryFor table (.int packet extIp rand) ne ∧
      processNatIntPacket table packet extIp rand =
        (OrNat.translate ne .external packet).map fun packet' =>
          (table₁.modify k NatEntry.hit, packet') := by
  obtain ⟨ip, port, hip, hpair⟩ := h.pair .internal
  obtain ⟨ipP, hipP, hproto, -⟩ := h.protocol
  obtain ⟨srcPort, hsrcPort⟩ := h.srcPort
  have hget := getNatTableEntry_eq table hpair
  have hprocess : ∀ {table₁ : List NatEntry} {k : Nat} {ne : NatEntry},
      findOrCreate table packet extIp rand = some (table₁, k) → table₁[k]? = some ne →
      processNatIntPacket table packet extIp rand =
        (OrNat.translate ne .external packet).map fun packet' =>
          (table₁.modify k NatEntry.hit, packet') := by
    intro table₁ k ne hfind hne
    unfold processNatIntPacket OrNat.translate
    simp only [Option.bind_eq_bind, hipP, Option.bind_some, hproto, if_true, hfind, hne]
    cases populateNatPacket packet ne .external with
    | none => rfl
    | some packet₁ =>
      simp only [Option.bind_some]
      change _ = Option.map _ (rewriteChecksums packet₁ ne.natExt ne.natInt)
      cases rewriteChecksums packet₁ ne.natExt ne.natInt with
      | none => rfl
      | some packet₂ => rfl
  cases hfind : table.findIdx? fun ne => foundNatTableMatch ne (ip, port) .internal with
  | some k =>
    rw [hfind] at hget
    have hfound := @findOrCreate_found _ _ extIp rand _ hget
    obtain ⟨ne, hne, hpair'⟩ := getNatTableEntry_eq_some hget
    have hint : (ip, port) = ne.int := Option.some.inj (hpair.symm.trans hpair')
    refine ⟨table, k, ne, hfound, hne, ⟨?_, ?_, fun src dst sum hports => ?_, fun hall => ?_⟩,
      hprocess hfound hne⟩
    · change (findOrCreate table packet extIp rand >>= _) = _
      rw [hfound]
      exact hne
    · exact hip.trans (congrArg some (congrArg Prod.fst hint))
    · exact (hports.pair_loads hpair).2.trans (congrArg some (congrArg Prod.snd hint))
    · exact hall ne (List.mem_of_getElem? hne)
  | none =>
    rw [hfind] at hget
    obtain ⟨new, hnew⟩ := Option.isSome_iff_exists.mp (hends hget)
    have hip : load32 packet 26 = some ip := hip
    have hcreate := @created table packet extIp rand ip new srcPort hip hsrcPort hnew
    have hfound := findOrCreate_created hget hcreate
    have hne := @List.getElem?_concat_length _ table
      ⟨computeNatChecksums extIp (swap16 new), computeNatChecksums ip srcPort, 0⟩
    refine ⟨_, _, _, hfound, hne, ⟨?_, hip, fun src dst sum hports => hports.srcPort ▸ hsrcPort,
      fun _ => createNatTableEntry_consistent hcreate⟩, hprocess hfound hne⟩
    change (findOrCreate table packet extIp rand >>= _) = _
    rw [hfound]
    exact hne

/-- A packet from outside is translated with the entry that is found, or let through. -/
theorem Whole.ext (h : Whole packet) (table : List NatEntry) :
    (entryFor table (.ext packet) = none ∧
      processNatExtPacket table packet = some (table, packet)) ∨
    ∃ (k : Nat) (ne : NatEntry), EntryFor table (.ext packet) ne ∧
      processNatExtPacket table packet =
        (OrNat.translate ne .internal packet).map fun packet' =>
          (table.modify k NatEntry.hit, packet') := by
  obtain ⟨ip, port, hip, hpair⟩ := h.pair .external
  have hget := getNatTableEntry_eq table hpair
  cases hfind : table.findIdx? fun ne => foundNatTableMatch ne (ip, port) .external with
  | none =>
    rw [hfind] at hget
    refine .inl ⟨?_, ?_⟩
    · change ((getNatTableEntry table packet .external).join >>= _) = _
      rw [hget]
      rfl
    · unfold processNatExtPacket
      rw [hget]
      rfl
  | some k =>
    rw [hfind] at hget
    obtain ⟨ne, hne, hpair'⟩ := getNatTableEntry_eq_some hget
    have hext : (ip, port) = ne.ext := Option.some.inj (hpair.symm.trans hpair')
    refine .inr ⟨k, ne, ⟨?_, hip.trans (congrArg some (congrArg Prod.fst hext)),
      fun src dst sum hports =>
        (hports.pair_loads hpair).2.trans (congrArg some (congrArg Prod.snd hext)),
      fun hall => hall ne (List.mem_of_getElem? hne)⟩, ?_⟩
    · change ((getNatTableEntry table packet .external).join >>= _) = _
      rw [hget]
      exact hne
    · unfold processNatExtPacket OrNat.translate
      simp only [Option.bind_eq_bind, hget, Option.bind_some, hne]
      cases populateNatPacket packet ne .internal with
      | none => rfl
      | some packet₁ =>
        simp only [Option.bind_some]
        change _ = Option.map _ (rewriteChecksums packet₁ ne.natInt ne.natExt)
        cases rewriteChecksums packet₁ ne.natInt ne.natExt with
        | none => rfl
        | some packet₂ => rfl

/-- What comes of an event is the packet of its entry, or of none. -/
theorem step_spec {e : Event} (h : Whole e.packet) (hends : e.Ends table) :
    (entryFor table e = none ∧ step table e = some (table, e.packet)) ∨
    ∃ (ne : NatEntry) (table' : List NatEntry), EntryFor table e ne ∧
      step table e = (OrNat.translate ne e.side e.packet).map fun packet' => (table', packet') := by
  cases e with
  | int packet extIp rand =>
    obtain ⟨table₁, k, ne, -, -, hentry, hprocess⟩ := Whole.int h hends
    exact .inr ⟨ne, _, hentry, hprocess⟩
  | ext packet =>
    rcases Whole.ext h table with hnone | ⟨k, ne, hentry, hprocess⟩
    · exact .inl hnone
    · exact .inr ⟨ne, _, hentry, hprocess⟩

end

end Osnt.Scone.OrNat
