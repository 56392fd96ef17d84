import Osnt.Lib.Halfwords
import Osnt.Proofs.OrNat
import Osnt.Proofs.PwospfChecksum

namespace Osnt.Scone.OrNat
open Lib Lib.Buffer
open Pwospf (complementSum add_complementSum_mod)

/-- The borrow of the subtraction comes back in at the low end. -/
theorem toNat_borrow {word : BitVec 32} (neg : BitVec 16) (hword : word.toNat ≤ 65535) :
    ((if 0xFFFF < word - neg.setWidth 32 then word - neg.setWidth 32 - 1
      else word - neg.setWidth 32).setWidth 16).toNat =
        if neg.toNat ≤ word.toNat then word.toNat - neg.toNat
        else 65535 + word.toNat - neg.toNat := by
  have hneg := neg.isLt
  have hwidth : (neg.setWidth 32).toNat = neg.toNat :=
    BitVec.toNat_setWidth_of_le (by decide)
  have hsub : (word - neg.setWidth 32).toNat =
      (4294967296 - neg.toNat + word.toNat) % 4294967296 := by
    rw [BitVec.toNat_sub, hwidth]
  have hover : 0xFFFF < word - neg.setWidth 32 ↔ 65535 < (word - neg.setWidth 32).toNat := Iff.rfl
  split
  · rename_i hlt
    rw [hover, hsub] at hlt
    have hone : (word - neg.setWidth 32 - 1).toNat =
        (4294967296 - 1 + (4294967296 - neg.toNat + word.toNat) % 4294967296) % 4294967296 := by
      rw [BitVec.toNat_sub, hsub]
      rfl
    rw [BitVec.toNat_setWidth, hone, if_neg (by omega)]
    omega
  · rename_i hle
    rw [hover, hsub] at hle
    rw [BitVec.toNat_setWidth, hsub, if_pos (by omega)]
    omega

theorem toNat_natChecksum (old pos neg : BitVec 16) :
    (natChecksum old pos neg).toNat =
      if neg.toNat ≤ (old.toNat + pos.toNat) / 65536 + (old.toNat + pos.toNat) % 65536 then
        (old.toNat + pos.toNat) / 65536 + (old.toNat + pos.toNat) % 65536 - neg.toNat
      else 65535 + ((old.toNat + pos.toNat) / 65536 + (old.toNat + pos.toNat) % 65536) -
        neg.toNat := by
  have hold := old.isLt
  have hpos := pos.isLt
  have hword : ((old.setWidth 32 + pos.setWidth 32) >>> 16 +
      (old.setWidth 32 + pos.setWidth 32 &&& 0xFFFF)).toNat =
      (old.toNat + pos.toNat) / 65536 + (old.toNat + pos.toNat) % 65536 := by
    have hand : (old.toNat + pos.toNat) % 4294967296 &&& 65535 =
        (old.toNat + pos.toNat) % 4294967296 % 2 ^ 16 := Nat.and_two_pow_sub_one_eq_mod _ 16
    simp [Nat.shiftRight_eq_div_pow, hand]
    omega
  have hborrow := toNat_borrow neg (hword.trans_le (by omega))
  rw [hword] at hborrow
  exact hborrow

theorem natChecksum_mod (old pos neg : BitVec 16) :
    ((natChecksum old pos neg).toNat + neg.toNat) % 65535 =
      (old.toNat + pos.toNat) % 65535 := by
  have hold := old.isLt
  have hpos := pos.isLt
  have hneg := neg.isLt
  rw [toNat_natChecksum]
  split <;> omega

/-- The same in the other byte order, in which the checksums are added up. -/
theorem swap16_natChecksum_mod (old pos neg : BitVec 16) :
    ((swap16 (natChecksum old pos neg)).toNat + (swap16 neg).toNat) % 65535 =
      ((swap16 old).toNat + (swap16 pos).toNat) % 65535 := by
  have hmod := natChecksum_mod old pos neg
  have hsum := swap16_mod (natChecksum old pos neg)
  have hold := swap16_mod old
  have hpos := swap16_mod pos
  have hneg := swap16_mod neg
  omega

/-- The words of an address, as they are added up. -/
def ipWords (ip : BitVec 32) : Nat :=
  (swap16 (ip.extractLsb' 0 16)).toNat + (swap16 (ip.extractLsb' 16 16)).toNat

/-- What a checksum at `sum` covers of an address and a port: of an ICMP echo the identifier
only. -/
def covers (sum : Nat) (ip : BitVec 32) (port : BitVec 16) : Nat :=
  if sum = 36 then (swap16 port).toNat else ipWords ip + (swap16 port).toNat

/-- The difference that is used for a checksum at `sum`. -/
def cached (sum : Nat) (p : NatIpPortPair) : BitVec 16 :=
  if sum = 36 then p.checksumPort else p.checksum

theorem toNat_swap16_not (v : BitVec 16) :
    (swap16 (~~~v)).toNat + (swap16 v).toNat = 65535 := by
  have hlt := v.isLt
  have hnot := toNat_swap16 (~~~v)
  rw [BitVec.toNat_not] at hnot
  have hv := toNat_swap16 v
  omega

theorem computeNatChecksums_mod (sum : Nat) (ip : BitVec 32) (port : BitVec 16) :
    ((swap16 (cached sum (computeNatChecksums ip port))).toNat + covers sum ip port) % 65535 =
      0 := by
  unfold cached covers
  split
  · have hport : (computeNatChecksums ip port).checksumPort = ~~~port := rfl
    have := toNat_swap16_not port
    rw [hport]
    omega
  · have hfirst := (swap16 (ip.extractLsb' 0 16)).isLt
    have hsecond := (swap16 (ip.extractLsb' 16 16)).isLt
    have hport := (swap16 port).isLt
    have hsum := @add_complementSum_mod (ipWords ip + (swap16 port).toNat) (by
      rw [ipWords]
      omega)
    rw [Nat.add_comm, computeNatChecksums, swap16_swap16]
    exact hsum

/-- An entry of `create_nat_table_entry`, whatever hits it has had since. -/
def Built (ne : NatEntry) : Prop :=
  ∃ (table : List NatEntry) (packet : Bytes) (extIp : BitVec 32) (rand : List (BitVec 16))
    (made : NatEntry), createNatTableEntry table packet extIp rand = some made ∧
      ne.natExt = made.natExt ∧ ne.natInt = made.natInt

theorem Built.side {ne : NatEntry} (h : Built ne) (natType : NatType) :
    ne.side natType = computeNatChecksums (ne.side natType).ip (ne.side natType).port := by
  obtain ⟨table, packet, extIp, rand, made, hmade, hext, hint⟩ := h
  obtain ⟨port, -, hmade⟩ := Option.bind_eq_some_iff.mp hmade
  obtain ⟨ipSrc, -, hmade⟩ := Option.bind_eq_some_iff.mp hmade
  obtain ⟨srcPort, -, hmade⟩ := Option.bind_eq_some_iff.mp hmade
  cases hmade
  cases natType with
  | external =>
    change ne.natExt = computeNatChecksums ne.natExt.ip ne.natExt.port
    rw [hext]
    rfl
  | internal =>
    change ne.natInt = computeNatChecksums ne.natInt.ip ne.natInt.port
    rw [hint]
    rfl

theorem Built.mod {ne : NatEntry} (h : Built ne) (sum : Nat) (natType : NatType) :
    ((swap16 (cached sum (ne.side natType))).toNat +
      covers sum (ne.side natType).ip (ne.side natType).port) % 65535 = 0 := by
  have hmod := computeNatChecksums_mod sum (ne.side natType).ip (ne.side natType).port
  rwa [← h.side natType] at hmod

/-- The length in the IP header. -/
def ipLength (packet : Bytes) : Nat := (be16 packet 16).toNat

/-- What is behind the IP header, as far as the packet says. -/
def payload (packet : Bytes) : Bytes := (packet.drop 34).take (ipLength packet - 20)

/-- The pseudo-header of TCP: both addresses, the protocol and the length of the segment. -/
def pseudoHeader (packet : Bytes) : List Nat :=
  [(be16 packet 26).toNat, (be16 packet 28).toNat, (be16 packet 30).toNat, (be16 packet 32).toNat,
    ipProtoTcp.toNat, ipLength packet - 20]

/-- What the checksum of a TCP segment, or of an ICMP message, covers. -/
def covered (packet : Bytes) : List Nat :=
  (if load8 packet 23 = some ipProtoTcp then pseudoHeader packet else []) ++
    halfwords (payload packet)

/-- The checksum is right: with it, the one's complement sum is all ones. -/
def Verifies (packet : Bytes) : Prop := OnesComplement.sum (2 ^ 16) (covered packet) = 0xFFFF

instance (packet : Bytes) : Decidable (Verifies packet) := inferInstanceAs (Decidable (_ = _))

/-- A TCP segment or an ICMP echo with all its header: where its source and destination ports, or
its identifier, and its checksum are. -/
inductive Segment (packet : Bytes) : Nat → Nat → Nat → Prop
  | tcp (proto : load8 packet 23 = some ipProtoTcp) (header : 40 ≤ ipLength packet)
    (whole : 14 + ipLength packet ≤ packet.length) : Segment packet 34 36 50
  | echo (proto : load8 packet 23 = some ipProtoIcmp) (icmpType : BitVec 8)
    (type : load8 packet 34 = some icmpType) (echo : isEcho icmpType = true)
    (header : 28 ≤ ipLength packet) (whole : 14 + ipLength packet ≤ packet.length) :
    Segment packet 38 38 36

/-- Of an ICMP message, there is a byte besides the checksum that is not zero. -/
def Live (packet : Bytes) : Prop :=
  load8 packet 23 = some ipProtoIcmp → ∃ k, k ≠ 2 ∧ k ≠ 3 ∧ (payload packet).getD k 0 ≠ 0

section
variable {packet packet' packet₁ packet₂ : Bytes} {src dst sum : Nat}

theorem Segment.portful (h : Segment packet src dst sum) : Portful packet src dst sum := by
  cases h with
  | tcp proto header whole => exact .tcp proto (by omega)
  | echo proto icmpType type echo header whole => exact .echo proto icmpType type echo (by omega)

theorem Segment.of_frame (h : Segment packet src dst sum) (hlength : packet'.length = packet.length)
    (hip : ipLength packet' = ipLength packet) (hproto : packet'[23]? = packet[23]?)
    (htype : src = 38 → packet'[34]? = packet[34]?) : Segment packet' src dst sum := by
  cases h with
  | tcp proto header whole => exact .tcp (hproto.trans proto) (by omega) (by omega)
  | echo proto icmpType type echo header whole =>
    exact .echo (hproto.trans proto) icmpType ((htype rfl).trans type) echo (by omega) (by omega)

theorem Segment.inside (h : Segment packet src dst sum) {p : Nat}
    (hp : p = src ∨ p = dst ∨ p = sum) :
    34 ≤ p ∧ (p - 34) % 2 = 0 ∧ p + 2 ≤ 34 + (ipLength packet - 20) ∧ p + 2 ≤ packet.length := by
  cases h with
  | tcp proto header whole => omega
  | echo proto icmpType type echo header whole => omega

theorem ipWords_of_load32 {ip : BitVec 32} {o : Nat} (h : load32 packet o = some ip) :
    ipWords ip = (be16 packet o).toNat + (be16 packet (o + 2)).toNat := by
  rw [load32_eq_load16] at h
  obtain ⟨lo, hlo, h⟩ := Option.bind_eq_some_iff.mp h
  obtain ⟨hi, hhi, h⟩ := Option.bind_eq_some_iff.mp h
  cases h
  rw [ipWords, be16_of_load16 hlo, be16_of_load16 hhi, BitVec.extractLsb'_append_eq_left,
    BitVec.extractLsb'_append_eq_right]

theorem port_of_load16 {port : BitVec 16} {o : Nat} (h : load16 packet o = some port) :
    (swap16 port).toNat = (be16 packet o).toNat := by
  rw [be16_of_load16 h]

theorem sum_covered (packet : Bytes) (h : Segment packet src dst sum) :
    (covered packet).sum = (halfwords (payload packet)).sum + if sum = 36 then 0 else
      (be16 packet 26).toNat + (be16 packet 28).toNat + (be16 packet 30).toNat +
        (be16 packet 32).toNat + 6 + (ipLength packet - 20) := by
  rw [covered, List.sum_append]
  cases h with
  | tcp proto header whole =>
    simp [proto, pseudoHeader, ipProtoTcp]
    omega
  | echo proto icmpType type echo header whole =>
    have hne : ipProtoIcmp ≠ ipProtoTcp := by decide
    simp [proto, hne]

/-- A new address at `ipOff` and a new port at `portOff`. -/
structure Readdressed (ipOff portOff : Nat) (packet packet' : Bytes) (new : NatIpPortPair) :
    Prop where
  length : packet'.length = packet.length
  ip : load32 packet' ipOff = some new.ip
  port : load16 packet' portOff = some new.port
  frame : ∀ k, k < ipOff ∨ ipOff + 4 ≤ k → k < portOff ∨ portOff + 2 ≤ k →
    packet'[k]? = packet[k]?

theorem Segment.readdressed (h : Segment packet src dst sum) {ipOff portOff : Nat}
    (hip : ipOff = 26 ∨ ipOff = 30) (hport : portOff = src ∨ portOff = dst) {new : NatIpPortPair}
    (hnew : Readdressed ipOff portOff packet packet' new) :
    Segment packet' src dst sum ∧ be16 packet' sum = be16 packet sum ∧
      ipLength packet' = ipLength packet := by
  have hdisjoint := h.portful.disjoint
  have hinside := h.inside (p := portOff) (hport.imp_right .inl)
  have hsum := h.inside (p := sum) (.inr (.inr rfl))
  have hlength : ipLength packet' = ipLength packet :=
    congrArg BitVec.toNat (be16_congr fun k hk hk' => hnew.frame k (by omega) (by omega))
  refine ⟨h.of_frame hnew.length hlength (hnew.frame 23 (by omega) (by omega)) fun hsrc => ?_,
    be16_congr fun k hk hk' => hnew.frame k (by omega) ?_, hlength⟩
  · have hdst : portOff = 38 := by
      cases h with
      | tcp _ _ _ => cases hsrc
      | echo _ _ _ _ _ _ => omega
    exact hnew.frame 34 (by omega) (by omega)
  · rcases hport with rfl | rfl <;> omega

/-- The sum changes by what is covered of the address and of the port. -/
theorem Segment.sum_readdressed (h : Segment packet src dst sum) {ipOff portOff : Nat}
    (hip : ipOff = 26 ∨ ipOff = 30) (hport : portOff = src ∨ portOff = dst)
    {old new : NatIpPortPair} (hold : load32 packet ipOff = some old.ip)
    (hold' : load16 packet portOff = some old.port)
    (hnew : Readdressed ipOff portOff packet packet' new) :
    (covered packet').sum + covers sum old.ip old.port =
      (covered packet).sum + covers sum new.ip new.port := by
  obtain ⟨h', -, hlength⟩ := h.readdressed hip hport hnew
  have hinside := h.inside (p := portOff) (hport.imp_right .inl)
  have hpayload := sum_part_change hnew.length hinside.2.2.2 hinside.1 hinside.2.1 hinside.2.2.1
    fun k hk _ hout => hnew.frame k (by omega) hout
  have holdIp := ipWords_of_load32 hold
  have hnewIp := ipWords_of_load32 hnew.ip
  have holdPort := port_of_load16 hold'
  have hnewPort := port_of_load16 hnew.port
  rw [sum_covered packet h, sum_covered packet' h', payload, payload, hlength, covers, covers]
  split
  · omega
  · have hsame : ∀ p, 26 ≤ p → p + 2 ≤ 34 → p + 2 ≤ ipOff ∨ ipOff + 4 ≤ p →
        be16 packet' p = be16 packet p := fun p hp hp' hout =>
      be16_congr fun k hk hk' => hnew.frame k (by omega) (by omega)
    rcases hip with rfl | rfl <;> simp only [Nat.reduceAdd] at holdIp hnewIp
    · rw [hsame 30 (by omega) (by omega) (by omega), hsame 32 (by omega) (by omega) (by omega)]
      omega
    · rw [hsame 26 (by omega) (by omega) (by omega), hsame 28 (by omega) (by omega) (by omega)]
      omega

theorem adjust16_mod {o : Nat} {pos neg : BitVec 16}
    (h : adjust16 packet o pos neg = some packet') :
    packet'.length = packet.length ∧ (∀ k, k < o ∨ o + 2 ≤ k → packet'[k]? = packet[k]?) ∧
      ((be16 packet' o).toNat + (swap16 neg).toNat) % 65535 =
        ((be16 packet o).toNat + (swap16 pos).toNat) % 65535 := by
  obtain ⟨old, hold, h⟩ := Option.bind_eq_some_iff.mp h
  obtain ⟨hlength, hframe, hload⟩ := store16_spec h
  refine ⟨hlength, hframe, ?_⟩
  rw [be16_of_load16 hold, be16_of_load16 hload]
  exact swap16_natChecksum_mod old pos neg

theorem Segment.payloadChecksum (h : Segment packet src dst sum) (new old : NatIpPortPair) :
    rewritePayloadChecksum packet new old =
      adjust16 packet sum (cached sum new) (cached sum old) := by
  unfold rewritePayloadChecksum
  cases h with
  | tcp proto header whole => simp only [proto, Option.bind_eq_bind, Option.bind_some]; rfl
  | echo proto icmpType type echo header whole =>
    simp only [proto, type, echo, Option.bind_eq_bind, Option.bind_some]
    rfl

/-- The checksum changes by the difference, and nothing else that it covers does. -/
theorem Segment.sum_checksums (h : Segment packet src dst sum) {new old : NatIpPortPair}
    (hsums : rewriteChecksums packet new old = some packet') :
    Segment packet' src dst sum ∧
      (covered packet').sum + (be16 packet sum).toNat =
        (covered packet).sum + (be16 packet' sum).toNat ∧
      ((be16 packet' sum).toNat + (swap16 (cached sum old)).toNat) % 65535 =
        ((be16 packet sum).toNat + (swap16 (cached sum new)).toNat) % 65535 ∧
      ∀ k, k < 24 ∨ 26 ≤ k → k < sum ∨ sum + 2 ≤ k → packet'[k]? = packet[k]? := by
  obtain ⟨packet₁, h₁, h₂⟩ := Option.bind_eq_some_iff.mp hsums
  rw [h.payloadChecksum] at h₁
  obtain ⟨hlength₁, hframe₁, hmod⟩ := adjust16_mod h₁
  obtain ⟨hlength₂, hframe₂, -⟩ := adjust16_mod h₂
  have hdisjoint := h.portful.disjoint
  have hinside := h.inside (p := sum) (.inr (.inr rfl))
  have hlength := hlength₂.trans hlength₁
  have hframe : ∀ k, k < 24 ∨ 26 ≤ k → k < sum ∨ sum + 2 ≤ k → packet'[k]? = packet[k]? :=
    fun k hk hk' => (hframe₂ k hk).trans (hframe₁ k hk')
  have hip : ipLength packet' = ipLength packet :=
    congrArg BitVec.toNat (be16_congr fun k hk hk' => hframe k (by omega) (by omega))
  have h' : Segment packet' src dst sum :=
    h.of_frame hlength hip (hframe 23 (by omega) (by omega)) fun hsrc =>
      hframe 34 (by omega) (by have := hdisjoint.2.2 hsrc; omega)
  have hsum : be16 packet' sum = be16 packet₁ sum :=
    be16_congr fun k hk hk' => hframe₂ k (by omega)
  have hpayload := sum_part_change hlength hinside.2.2.2 hinside.1 hinside.2.1 hinside.2.2.1
    fun k hk _ hout => hframe k (by omega) hout
  have hhead : ∀ p, 26 ≤ p → p + 2 ≤ 34 → be16 packet' p = be16 packet p := fun p hp hp' =>
    be16_congr fun k hk hk' => hframe k (by omega) (by omega)
  refine ⟨h', ?_, hsum ▸ hmod, hframe⟩
  rw [sum_covered packet h, sum_covered packet' h', payload, payload, hip,
    hhead 26 (by omega) (by omega), hhead 28 (by omega) (by omega), hhead 30 (by omega) (by omega),
    hhead 32 (by omega) (by omega)]
  omega

/-- The sum of what is covered is as it was, and the checksum has changed by what is covered of the
addresses and of the ports. -/
structure Kept (sum : Nat) (packet packet' : Bytes) (old new : Pair) : Prop where
  covered : (covered packet').sum % 65535 = (covered packet).sum % 65535
  checksum : ((be16 packet' sum).toNat + covers sum new.1 new.2) % 65535 =
    ((be16 packet sum).toNat + covers sum old.1 old.2) % 65535

theorem Segment.kept (h : Segment packet src dst sum) {ne : NatEntry} (hne : Built ne)
    {natType other : NatType} {ipOff portOff : Nat}
    (hip : ipOff = if natType = .external then 26 else 30)
    (hport : portOff = if natType = .external then src else dst)
    (hold : load32 packet ipOff = some (ne.side other).ip)
    (hold' : load16 packet portOff = some (ne.side other).port)
    (hpopulate : populateNatPacket packet ne natType = some packet₁)
    (hsums : rewriteChecksums packet₁ (ne.side natType) (ne.side other) = some packet₂) :
    Segment packet₂ src dst sum ∧
      Kept sum packet packet₂ ((ne.side other).ip, (ne.side other).port)
        ((ne.side natType).ip, (ne.side natType).port) := by
  obtain ⟨p, hp, hlength, hip₁, hport₁, hframe⟩ := h.portful.populate ne natType hip hport
  obtain rfl : p = packet₁ := Option.some.inj (hp.symm.trans hpopulate)
  have hnew : Readdressed ipOff portOff packet p (ne.side natType) :=
    ⟨hlength, hip₁, hport₁, hframe⟩
  have hipOff : ipOff = 26 ∨ ipOff = 30 := by
    rw [hip]
    exact ite_eq_or_eq _ _ _
  have hportOff : portOff = src ∨ portOff = dst := by
    rw [hport]
    exact ite_eq_or_eq _ _ _
  obtain ⟨h₁, hsame, -⟩ := h.readdressed hipOff hportOff hnew
  have hmoved := h.sum_readdressed hipOff hportOff hold hold' hnew
  obtain ⟨h₂, hcovered, hmod, -⟩ := h₁.sum_checksums hsums
  have hcached := hne.mod sum natType
  have hcached' := hne.mod sum other
  rw [hsame] at hcovered hmod
  refine ⟨h₂, ?_, ?_⟩
  · omega
  · change (_ + covers sum (ne.side natType).ip (ne.side natType).port) % 65535 =
      (_ + covers sum (ne.side other).ip (ne.side other).port) % 65535
    omega

theorem Portful.pair_loads (h : Portful packet src dst sum) {natType : NatType} {pair : Pair}
    (hpair : getNatIpPortPair packet natType = some pair) :
    load32 packet (if natType = .external then 30 else 26) = some pair.1 ∧
      load16 packet (if natType = .external then dst else src) = some pair.2 := by
  rw [h.pair] at hpair
  obtain ⟨ip, hip, hpair⟩ := Option.bind_eq_some_iff.mp hpair
  obtain ⟨port, hport, hpair⟩ := Option.bind_eq_some_iff.mp hpair
  cases hpair
  exact ⟨hip, hport⟩

theorem Portful.pair_isSome (h : Portful packet src dst sum) (natType : NatType) :
    ∃ pair : Pair, getNatIpPortPair packet natType = some pair := by
  have hbounds := h.bounds
  have hip : (if natType = .external then 30 else 26) + 4 ≤ packet.length := by split <;> omega
  have hport : (if natType = .external then dst else src) + 2 ≤ packet.length := by
    split <;> omega
  obtain ⟨port, hport⟩ := load16_isSome packet hport
  refine ⟨(swap32 (be32 packet (if natType = .external then 30 else 26)), port), ?_⟩
  rw [h.pair, load32_eq, if_pos hip, hport]
  rfl

/-- With an entry whose internal side it is from, a packet is translated outwards. -/
theorem Segment.out (h : Segment packet src dst sum) {ne : NatEntry} (hne : Built ne)
    (hpair : getNatIpPortPair packet .internal = some ne.int) :
    ∃ packet₁ packet₂, populateNatPacket packet ne .external = some packet₁ ∧
      rewriteChecksums packet₁ ne.natExt ne.natInt = some packet₂ ∧
      Segment packet₂ src dst sum ∧ getNatIpPortPair packet₂ .internal = some ne.ext ∧
      Kept sum packet packet₂ ne.int ne.ext := by
  obtain ⟨packet₁, packet₂, hpopulate, hsums, -, hpair₂⟩ := h.portful.translate_out ne
  obtain ⟨hip, hport⟩ := h.portful.pair_loads hpair
  obtain ⟨h₂, hkept⟩ := @Segment.kept _ _ _ _ _ _ h ne hne .external .internal 26 src rfl rfl
    hip hport hpopulate hsums
  exact ⟨packet₁, packet₂, hpopulate, hsums, h₂, hpair₂, hkept⟩

/-- With an entry whose external side it is for, a packet is translated inwards. -/
theorem Segment.into (h : Segment packet src dst sum) {ne : NatEntry} (hne : Built ne)
    (hpair : getNatIpPortPair packet .external = some ne.ext) :
    ∃ packet₁ packet₂, populateNatPacket packet ne .internal = some packet₁ ∧
      rewriteChecksums packet₁ ne.natInt ne.natExt = some packet₂ ∧
      Segment packet₂ src dst sum ∧ getNatIpPortPair packet₂ .external = some ne.int ∧
      Kept sum packet packet₂ ne.ext ne.int := by
  obtain ⟨packet₁, packet₂, hpopulate, hsums, -, hpair₂⟩ := h.portful.translate_in ne
  obtain ⟨hip, hport⟩ := h.portful.pair_loads hpair
  obtain ⟨h₂, hkept⟩ := @Segment.kept _ _ _ _ _ _ h ne hne .internal .external 30 dst rfl rfl
    hip hport hpopulate hsums
  exact ⟨packet₁, packet₂, hpopulate, hsums, h₂, hpair₂, hkept⟩

end

section
variable {table table' : List NatEntry} {packet packet' : Bytes} {extIp : BitVec 32}
  {rand : List (BitVec 16)} {src dst sum : Nat}

/-- Every entry is one of `create_nat_table_entry`. -/
def AllBuilt (table : List NatEntry) : Prop := ∀ ne ∈ table, Built ne

theorem AllBuilt.hit (h : AllBuilt table) (k : Nat) : AllBuilt (table.modify k NatEntry.hit) := by
  intro ne hne
  obtain ⟨j, hj⟩ := List.mem_iff_getElem?.mp hne
  rw [List.getElem?_modify] at hj
  obtain ⟨ne', hne', rfl⟩ := Option.map_eq_some_iff.mp hj
  have hbuilt := h ne' (List.mem_of_getElem? hne')
  split
  · exact hbuilt
  · exact hbuilt

theorem AllBuilt.findOrCreate (h : AllBuilt table) {k : Nat}
    (hfind : findOrCreate table packet extIp rand = some (table', k)) :
    AllBuilt table' := by
  obtain ⟨-, rfl⟩ | ⟨-, ne, hcreate, rfl, -⟩ := findOrCreate_cases hfind
  · exact h
  · intro ne' hne'
    rcases List.mem_append.mp hne' with hne' | hne'
    · exact h ne' hne'
    · obtain rfl := List.mem_singleton.mp hne'
      exact ⟨table, packet, extIp, rand, ne', hcreate, rfl, rfl⟩

/-- What a translation does to a segment, by the table that it leaves. -/
structure Translated (natType : NatType) (src dst sum : Nat) (packet : Bytes)
    (table' : List NatEntry) (packet' : Bytes) : Prop where
  built : AllBuilt table'
  segment : Segment packet' src dst sum
  kept : ∃ old new : Pair, getNatIpPortPair packet natType = some old ∧
    getNatIpPortPair packet' natType = some new ∧ Kept sum packet packet' old new

theorem Segment.int (h : Segment packet src dst sum) (hbuilt : AllBuilt table)
    (hint : processNatIntPacket table packet extIp rand = some (table', packet')) :
    Translated .internal src dst sum packet table' packet' := by
  obtain ⟨ipP, -, hint⟩ := Option.bind_eq_some_iff.mp hint
  split at hint
  · obtain ⟨⟨table₁, k⟩, hfind, hint⟩ := Option.bind_eq_some_iff.mp hint
    obtain ⟨ne, hne, hint⟩ := Option.bind_eq_some_iff.mp hint
    obtain ⟨packet₁, hpopulate, hint⟩ := Option.bind_eq_some_iff.mp hint
    obtain ⟨packet₂, hsums, hint⟩ := Option.bind_eq_some_iff.mp hint
    cases hint
    have hbuilt₁ := hbuilt.findOrCreate hfind
    obtain ⟨ne', hne', hpair⟩ := findOrCreate_entry hfind
    obtain rfl : ne' = ne := Option.some.inj (hne'.symm.trans hne)
    have hpair := hpair _ _ _ h.portful
    obtain ⟨p₁, p₂, hpopulate', hsums', h₂, hpair₂, hkept⟩ :=
      h.out (hbuilt₁ ne' (List.mem_of_getElem? hne)) hpair
    obtain rfl : p₁ = packet₁ := Option.some.inj (hpopulate'.symm.trans hpopulate)
    obtain rfl : p₂ = packet' := Option.some.inj (hsums'.symm.trans hsums)
    exact ⟨hbuilt₁.hit k, h₂, ne'.int, ne'.ext, hpair, hpair₂, hkept⟩
  · cases hint

theorem findOrCreate_isSome (h : Portful packet src dst sum) (extIp : BitVec 32) {port : BitVec 16}
    (hport : drawPort table rand = some port) :
    ∃ made : List NatEntry × Nat, findOrCreate table packet extIp rand = some made := by
  obtain ⟨pair, hpair⟩ := h.pair_isSome .internal
  obtain ⟨hip, hsrc⟩ := h.pair_loads hpair
  have hcreate : createNatTableEntry table packet extIp rand = some
      ⟨computeNatChecksums extIp (swap16 port), computeNatChecksums pair.1 pair.2, 0⟩ := by
    unfold createNatTableEntry
    rw [if_neg (by decide)] at hip hsrc
    rw [hport, h.srcPort, hsrc]
    simp only [Option.bind_eq_bind, Option.bind_some, hip]
    rfl
  unfold findOrCreate
  rw [getNatTableEntry_eq table hpair, hcreate]
  cases table.findIdx? fun ne => foundNatTableMatch ne pair .internal with
  | none => exact ⟨_, rfl⟩
  | some k => exact ⟨_, rfl⟩

/-- A packet from inside goes out, unless the search for a port does not end. -/
theorem Segment.int_isSome (h : Segment packet src dst sum) (hbuilt : AllBuilt table)
    (extIp : BitVec 32) {port : BitVec 16} (hport : drawPort table rand = some port) :
    (processNatIntPacket table packet extIp rand).isSome := by
  obtain ⟨⟨table₁, k⟩, hfind⟩ := findOrCreate_isSome h.portful extIp hport
  have hbuilt₁ := hbuilt.findOrCreate hfind
  obtain ⟨ne, hne, hpair⟩ := findOrCreate_entry hfind
  obtain ⟨packet₁, packet₂, hpopulate, hsums, -⟩ :=
    h.out (hbuilt₁ ne (List.mem_of_getElem? hne)) (hpair _ _ _ h.portful)
  obtain ⟨ipP, hipP, hproto⟩ : ∃ ipP, load8 packet 23 = some ipP ∧
      (isTcpOrUdp ipP || ipP == ipProtoIcmp) = true := by
    cases h with
    | tcp proto _ _ => exact ⟨_, proto, rfl⟩
    | echo proto _ _ _ _ _ => exact ⟨_, proto, rfl⟩
  unfold processNatIntPacket
  simp only [Option.bind_eq_bind, hipP, Option.bind_some, hproto, if_true, hfind, hne, hpopulate,
    hsums]
  rfl

/-- A packet from outside is always let through, translated if there is an entry for it. -/
theorem Segment.ext (h : Segment packet src dst sum) (hbuilt : AllBuilt table) :
    ∃ table' packet', processNatExtPacket table packet = some (table', packet') ∧
      Translated .external src dst sum packet table' packet' := by
  obtain ⟨pair, hpair⟩ := h.portful.pair_isSome .external
  unfold processNatExtPacket
  have hget := getNatTableEntry_eq table hpair
  cases hfind : table.findIdx? fun ne => foundNatTableMatch ne pair .external with
  | none =>
    refine ⟨table, packet, ?_, hbuilt, h, pair, pair, hpair, hpair, rfl, rfl⟩
    rw [hget, hfind]
    rfl
  | some k =>
    rw [hfind] at hget
    obtain ⟨ne, hne, hpair⟩ := getNatTableEntry_eq_some hget
    obtain ⟨packet₁, packet₂, hpopulate, hsums, h₂, hpair₂, hkept⟩ :=
      h.into (hbuilt ne (List.mem_of_getElem? hne)) hpair
    refine ⟨table.modify k NatEntry.hit, packet₂, ?_, hbuilt.hit k, h₂, ne.ext, ne.int, hpair,
      hpair₂, hkept⟩
    simp only [Option.bind_eq_bind, hget, Option.bind_some, hne, hpopulate, hsums]
    rfl

end

section
variable {packet packet' : Bytes} {src dst sum : Nat}

theorem pseudo_lt {proto : BitVec 8} {length x : Nat} (hlength : length < 2 ^ 16)
    (hx : x ∈ [(be16 packet 26).toNat, (be16 packet 28).toNat, (be16 packet 30).toNat,
      (be16 packet 32).toNat, proto.toNat, length]) : x < 2 ^ 16 := by
  simp only [List.mem_cons, List.not_mem_nil, or_false] at hx
  rcases hx with rfl | rfl | rfl | rfl | rfl | rfl
  · exact BitVec.isLt _
  · exact BitVec.isLt _
  · exact BitVec.isLt _
  · exact BitVec.isLt _
  · exact Nat.lt_trans proto.isLt (by decide)
  · exact hlength

theorem verifies_iff (packet : Bytes) :
    Verifies packet ↔ (covered packet).sum % 65535 = 0 ∧ (covered packet).sum ≠ 0 := by
  refine OnesComplement.sum_eq_max_iff (by decide) fun x hx => ?_
  rcases List.mem_append.mp hx with hx | hx
  · split at hx
    · have hlength : ipLength packet < 2 ^ 16 := BitVec.isLt _
      exact pseudo_lt (by omega) hx
    · cases hx
  · exact halfwords_lt _ x hx

theorem Segment.sum_ne_zero (h : Segment packet src dst sum) (hlive : Live packet) :
    (covered packet).sum ≠ 0 := by
  rw [sum_covered packet h]
  cases h with
  | tcp proto header whole =>
    rw [if_neg (by decide)]
    omega
  | echo proto icmpType type echo header whole =>
    obtain ⟨k, -, -, hk⟩ := hlive proto
    intro hzero
    exact hk (getD_eq_zero_of_sum hzero k)

theorem Translated.verifies {natType : NatType} {table' : List NatEntry}
    (h : Translated natType src dst sum packet table' packet') (hverifies : Verifies packet)
    (hlive : Live packet') : Verifies packet' := by
  obtain ⟨old, new, -, -, hkept⟩ := h.kept
  rw [verifies_iff] at hverifies ⊢
  exact ⟨hkept.covered.trans hverifies.1, h.segment.sum_ne_zero hlive⟩

/-- Where a byte comes from when source and destination are exchanged. -/
def exchangedAt (src dst k : Nat) : Nat :=
  if 26 ≤ k ∧ k < 30 then k + 4
  else if 30 ≤ k ∧ k < 34 then k - 4
  else if src ≤ k ∧ k < src + 2 then k - src + dst
  else if dst ≤ k ∧ k < dst + 2 then k - dst + src
  else k

/-- The packet with source and destination exchanged. -/
def exchange (src dst : Nat) (packet : Bytes) : Bytes :=
  (List.range packet.length).map fun k => packet.getD (exchangedAt src dst k) 0

theorem Segment.exchangedAt_lt (h : Segment packet src dst sum) (k : Nat) :
    exchangedAt src dst k < packet.length ↔ k < packet.length := by
  have hbounds := h.portful.bounds
  unfold exchangedAt
  split
  · omega
  split
  · omega
  split
  · omega
  split
  · omega
  · rfl

theorem Segment.getElem?_exchange (h : Segment packet src dst sum) (k : Nat) :
    (exchange src dst packet)[k]? = packet[exchangedAt src dst k]? := by
  rcases Nat.lt_or_ge k packet.length with hk | hk
  · rw [exchange, List.getElem?_map, List.getElem?_range hk]
    exact (getElem?_eq_getD packet ((h.exchangedAt_lt k).mpr hk)).symm
  · have hat := not_congr (h.exchangedAt_lt k)
    rw [List.getElem?_eq_none (Nat.le_of_not_lt (hat.mpr (Nat.not_lt.mpr hk)))]
    apply List.getElem?_eq_none
    rw [exchange, List.length_map, List.length_range]
    exact hk

theorem exchangedAt_eq {k : Nat} (haddr : k < 26 ∨ 34 ≤ k) (hsrc : k < src ∨ src + 2 ≤ k)
    (hdst : k < dst ∨ dst + 2 ≤ k) : exchangedAt src dst k = k := by
  rw [exchangedAt, if_neg (by omega), if_neg (by omega), if_neg (by omega), if_neg (by omega)]

/-- The reply is for where the packet came from, and has its checksum. -/
theorem Segment.exchange (h : Segment packet src dst sum) :
    Segment (exchange src dst packet) src dst sum ∧
      be16 (OrNat.exchange src dst packet) sum = be16 packet sum ∧
      getNatIpPortPair (OrNat.exchange src dst packet) .external =
        getNatIpPortPair packet .internal := by
  have hbounds := h.portful.bounds
  have hdisjoint := h.portful.disjoint
  have hframe : ∀ k, k < 26 ∨ 34 ≤ k → k < src ∨ src + 2 ≤ k → k < dst ∨ dst + 2 ≤ k →
      (OrNat.exchange src dst packet)[k]? = packet[k]? := by
    intro k haddr hsrc hdst
    rw [h.getElem?_exchange, exchangedAt_eq haddr hsrc hdst]
  have hlength : (OrNat.exchange src dst packet).length = packet.length := by
    rw [OrNat.exchange, List.length_map, List.length_range]
  have hip : ipLength (OrNat.exchange src dst packet) = ipLength packet :=
    congrArg BitVec.toNat (be16_congr fun k hk hk' => hframe k (by omega) (by omega) (by omega))
  have h' : Segment (OrNat.exchange src dst packet) src dst sum := by
    refine h.of_frame hlength hip (hframe 23 (by omega) (by omega) (by omega)) fun hsrc => ?_
    have hdst : dst = 38 := by
      cases h with
      | tcp _ _ _ => cases hsrc
      | echo _ _ _ _ _ _ => rfl
    exact hframe 34 (by omega) (by omega) (by omega)
  have haddress : load32 (OrNat.exchange src dst packet) 30 = load32 packet 26 := by
    simp only [load32, h.getElem?_exchange]
    rfl
  have hport : load16 (OrNat.exchange src dst packet) dst = load16 packet src := by
    simp only [load16, h.getElem?_exchange]
    cases h with
    | tcp _ _ _ => rfl
    | echo _ _ _ _ _ _ => rfl
  refine ⟨h', be16_congr fun k hk hk' => hframe k (by omega) (by omega) (by omega), ?_⟩
  rw [h'.portful.pair, h.portful.pair, if_pos rfl, if_pos rfl, if_neg (by decide),
    if_neg (by decide), haddress, hport]

/-- The checksum stays good, if the packet is not all zeros behind its translation. -/
structure StillVerifies (src dst sum : Nat) (packet : Bytes) (table' : List NatEntry)
    (packet' : Bytes) : Prop where
  built : AllBuilt table'
  segment : Segment packet' src dst sum
  verifies : Verifies packet → Live packet' → Verifies packet'

/-- Two checksums are the same, or are both a zero. -/
def SameSum (a b : BitVec 16) : Prop := a = b ∨ (a = 0 ∨ a = 0xFFFF) ∧ (b = 0 ∨ b = 0xFFFF)

theorem sameSum_of_mod {a b : BitVec 16} (h : a.toNat % 65535 = b.toNat % 65535) : SameSum a b := by
  have ha := a.isLt
  have hb := b.isLt
  have hmax : (0xFFFF : BitVec 16).toNat = 65535 := rfl
  have hzero : (0 : BitVec 16).toNat = 0 := rfl
  unfold SameSum
  simp only [← BitVec.toNat_inj, hmax, hzero]
  omega

/-- A reply to the translated packet that is led back to where the packet came from has the
checksum of the packet. -/
def ComesBack (src dst sum : Nat) (packet packet' : Bytes) : Prop :=
  ∀ table, AllBuilt table → ∃ (table' : List NatEntry) (back : Bytes),
    processNatExtPacket table (exchange src dst packet') = some (table', back) ∧
    (getNatIpPortPair back .external = getNatIpPortPair packet .internal →
      SameSum (be16 back sum) (be16 packet sum))

theorem Translated.comesBack {table' : List NatEntry}
    (h : Translated .internal src dst sum packet table' packet') :
    ComesBack src dst sum packet packet' := by
  intro table hbuilt
  obtain ⟨hreply, hsum, hpair⟩ := h.segment.exchange
  obtain ⟨table₁, back, hext, hback⟩ := hreply.ext hbuilt
  refine ⟨table₁, back, hext, fun hreturns => ?_⟩
  obtain ⟨int, ext, hint, hext', hout⟩ := h.kept
  obtain ⟨ext₁, int₁, hext₁, hint₁, hin⟩ := hback.kept
  obtain rfl : ext = ext₁ := Option.some.inj (hext'.symm.trans (hpair.symm.trans hext₁))
  obtain rfl : int₁ = int := Option.some.inj (hint₁.symm.trans (hreturns.trans hint))
  have hout := hout.checksum
  have hin := hin.checksum
  rw [hsum] at hin
  apply sameSum_of_mod
  omega

/-- NAT keeps the checksums of TCP and of ICMP echos good on the way out and on the way in, and
what has changed on the way out is undone on the way in. -/
theorem nat_checksums_verify {table : List NatEntry} (hbuilt : AllBuilt table)
    (h : Segment packet src dst sum) (extIp : BitVec 32) (rand : List (BitVec 16)) :
    (∀ table' packet', processNatIntPacket table packet extIp rand = some (table', packet') →
      StillVerifies src dst sum packet table' packet' ∧ ComesBack src dst sum packet packet') ∧
    ((drawPort table rand).isSome → (processNatIntPacket table packet extIp rand).isSome) ∧
    ∃ table' packet', processNatExtPacket table packet = some (table', packet') ∧
      StillVerifies src dst sum packet table' packet' := by
  refine ⟨fun table' packet' hint => ?_, fun hport => ?_, ?_⟩
  · have hout := h.int hbuilt hint
    exact ⟨⟨hout.built, hout.segment, hout.verifies⟩, hout.comesBack⟩
  · obtain ⟨port, hport⟩ := Option.isSome_iff_exists.mp hport
    exact h.int_isSome hbuilt extIp hport
  · obtain ⟨table', packet', hext, hin⟩ := h.ext hbuilt
    exact ⟨table', packet', hext, hin.built, hin.segment, hin.verifies⟩

end

/-- To port 80 of 93.184.216.34, with one byte of data. -/
def segmentFrom (ipSum ip port sum : Bytes) : Bytes :=
  List.replicate 12 0 ++ [8, 0, 69, 0, 0, 41, 0, 0, 0, 0, 64, 6] ++ ipSum ++ ip ++
    [93, 184, 216, 34] ++ port ++ [0, 80, 0, 0, 0, 1, 0, 0, 0, 0, 80, 2, 255, 255] ++ sum ++
    [0, 0, 65]

/-- Port 1025 of the host is port 2000 outside. -/
def firstEntry : NatEntry :=
  ⟨computeNatChecksums 0x010000c0 0xd007, computeNatChecksums 0x0200000a 0x0104, 1⟩

theorem nat_checksums_verify_first :
    StillVerifies 34 36 50 (segmentFrom [0, 0] [10, 0, 0, 2] [4, 1] [42, 179]) [firstEntry]
      (segmentFrom [78, 1] [192, 0, 0, 1] [7, 208] [112, 228]) ∧
    ∃ (table : List NatEntry) (back : Bytes),
      processNatExtPacket [firstEntry]
        (exchange 34 36 (segmentFrom [78, 1] [192, 0, 0, 1] [7, 208] [112, 228])) =
          some (table, back) ∧
      getNatIpPortPair back .external = some (0x0200000a, 0x0104) ∧
      SameSum (be16 back 50) 0x2ab3 := by
  have hsegment : Segment (segmentFrom [0, 0] [10, 0, 0, 2] [4, 1] [42, 179]) 34 36 50 :=
    .tcp (by decide +kernel) (by decide +kernel) (by decide +kernel)
  have hbuilt : AllBuilt [] := fun _ hne => absurd hne List.not_mem_nil
  obtain ⟨hstill, hback⟩ := (nat_checksums_verify hbuilt hsegment 0x010000c0 [2000]).1
    [firstEntry] (segmentFrom [78, 1] [192, 0, 0, 1] [7, 208] [112, 228]) (by decide +kernel)
  obtain ⟨table, back, hext, hsame⟩ := hback _ hstill.built
  have hpair : (processNatExtPacket [firstEntry]
      (exchange 34 36 (segmentFrom [78, 1] [192, 0, 0, 1] [7, 208] [112, 228]))).bind
        (fun answer => getNatIpPortPair answer.2 .external) = some (0x0200000a, 0x0104) := by
    decide +kernel
  rw [hext] at hpair
  refine ⟨hstill, table, back, hext, hpair, hsame (Eq.trans hpair ?_)⟩
  decide +kernel

end Osnt.Scone.OrNat
