import Osnt.Scone.LsuNetwork
import Osnt.Proofs.Icmp
import Osnt.Proofs.PwospfInterfaceList
import Osnt.Proofs.PwospfSequence

namespace Osnt.Scone.LsuNetwork
open Lib Lib.Buffer Pwospf

theorem forwardCopy_of {packet body copy : Bytes} {len ttl : BitVec 16}
    (hload : load16 packet 36 = some len)
    (hslice : slice packet 34 (swap16 len).toNat = some body)
    (hupdate : updateTtl body ttl = some copy) : forwardCopy packet ttl = some (.copy copy) := by
  simp only [forwardCopy, hload, hslice, hupdate, Option.bind_eq_bind, Option.bind_some]
  rfl

/-- An LSU with what is left of its TTL. -/
def stamped (A : RouterState) (seq : BitVec 16) (interfaces : List PwospfInterface)
    (ttl : BitVec 16) : Bytes :=
  put16 (lsuBody A seq interfaces) 26 (swap16 ttl)

/-- With its checksum. -/
def carried (A : RouterState) (seq : BitVec 16) (interfaces : List PwospfInterface)
    (ttl : BitVec 16) : Bytes :=
  put16 (stamped A seq interfaces ttl) 12 (swap16 (rightSum (stamped A seq interfaces ttl) 0))

section Carried
variable (A : RouterState) (seq ttl : BitVec 16) (interfaces : List PwospfInterface)

theorem length_stamped : (stamped A seq interfaces ttl).length = 32 + 12 * interfaces.length := by
  rw [stamped, length_put16, length_lsuBody]

theorem length_carried : (carried A seq interfaces ttl).length = 32 + 12 * interfaces.length := by
  rw [carried, length_put16, length_stamped]

theorem claimedLen_stamped (hshort : 32 + 12 * interfaces.length < 2 ^ 16) :
    claimedLen (stamped A seq interfaces ttl) 0 = 32 + 12 * interfaces.length := by
  have hbody := claimedLen_lsuBody A seq interfaces
  rw [claimedLen, stamped, be16_put16 _ _ (by omega)]
  rw [claimedLen] at hbody
  rw [hbody, Nat.mod_eq_of_lt (by omega)]
  omega

theorem carried_new : carried A seq interfaces 64 = lsuPacket A seq interfaces := by
  have hsame : stamped A seq interfaces 64 = lsuBody A seq interfaces := rfl
  rw [carried, hsame, lsuPacket]

/-- The checksum is of what is in the packet, whatever stands in its field. -/
theorem fill_stamped (v : BitVec 16) (hshort : 32 + 12 * interfaces.length < 2 ^ 16) :
    fillChecksum (put16 (stamped A seq interfaces ttl) 12 v) =
      some (carried A seq interfaces ttl) := by
  have hlen := length_stamped A seq ttl interfaces
  have hclaimed : claimedLen (put16 (stamped A seq interfaces ttl) 12 v) 0 =
      32 + 12 * interfaces.length := by
    rw [← claimedLen_stamped A seq ttl interfaces hshort, claimedLen, be16_put16 _ _ (by omega),
      claimedLen]
  have hspan := span_le ((32 + 12 * interfaces.length) / 2)
  have hsum := rightSum_put16 (stamped A seq interfaces ttl) 0 v
  rw [Nat.zero_add] at hsum
  rw [fillChecksum_eq, hclaimed, length_put16, if_pos (by omega), put16_put16, hsum, carried]

variable {hdr : Bytes} (hhdr : hdr.length = 34)
include hhdr

theorem cleared_carried : cleared (hdr ++ carried A seq interfaces ttl) =
    hdr ++ put16 (stamped A seq interfaces ttl) 12 0 := by
  have h := put16_append_right hdr (carried A seq interfaces ttl) 12 0
  rw [hhdr] at h
  rw [cleared, h, carried, put16_put16]

theorem cleared_eq_arriving : cleared (hdr ++ carried A seq interfaces ttl) =
    arriving hdr (lsuPacket A seq interfaces) ttl := by
  have h := put16_append_right hdr (put16 (lsuPacket A seq interfaces) 26 (swap16 ttl)) 12 0
  rw [hhdr] at h
  rw [cleared_carried A seq ttl interfaces hhdr, arriving, cleared, h, lsuPacket,
    put16_comm (o := 12) (k := 26) _ _ _ (by omega), put16_put16, stamped]

theorem acceptable_carried (B : RouterState) :
    Acceptable B (hdr ++ carried A seq interfaces ttl) ↔
      A.areaId = B.areaId ∧ swap32 A.routerId ≠ B.routerId := by
  have hver := getD_framed hhdr (carried A seq interfaces ttl) 0
  have hatype := be16_framed hhdr (carried A seq interfaces ttl) 14
  have haid := be32_framed hhdr (carried A seq interfaces ttl) 8
  have hrid := be32_framed hhdr (carried A seq interfaces ttl) 4
  have hgood : ChecksumGood (carried A seq interfaces ttl) 0 := ChecksumGood.fill _ (by
    rw [length_stamped]
    omega)
  rw [carried, getD_put16 _ _ (by omega), stamped, getD_put16 _ _ (by omega),
    lsuBody_version] at hver
  rw [carried, be16_put16 _ _ (by omega), stamped, be16_put16 _ _ (by omega),
    lsuBody_atype] at hatype
  rw [carried, be32_put16 _ _ (by omega), stamped, be32_put16 _ _ (by omega), lsuBody_aid] at haid
  rw [carried, be32_put16 _ _ (by omega), stamped, be32_put16 _ _ (by omega), lsuBody_rid] at hrid
  constructor
  · intro h
    exact ⟨haid.symm.trans h.area, fun he => h.other (hrid.trans he)⟩
  · rintro ⟨harea, hother⟩
    exact ⟨hver, checksumGood_framed hhdr _ hgood, hatype, haid.trans harea,
      fun he => hother (hrid.symm.trans he)⟩

/-- An LSU is handed on to `process_pwospf_lsu_packet` unless it is of another area or is taken for
one of our own. -/
theorem processPwospfPacket_carried (B : RouterState)
    (hshort : 32 + 12 * interfaces.length < 2 ^ 16) :
    processPwospfPacket B (hdr ++ carried A seq interfaces ttl) =
      if A.areaId = B.areaId ∧ swap32 A.routerId ≠ B.routerId then
        processPwospfLsuPacket B (arriving hdr (lsuPacket A seq interfaces) ttl)
      else some (.dropped B) := by
  have hlen : (hdr ++ carried A seq interfaces ttl).length = 66 + 12 * interfaces.length := by
    rw [List.length_append, length_carried, hhdr]
    omega
  have hclaimed : claimedLen (hdr ++ carried A seq interfaces ttl) 34 =
      32 + 12 * interfaces.length := by
    rw [claimedLen_framed hhdr, ← claimedLen_stamped A seq ttl interfaces hshort, claimedLen,
      carried, be16_put16 _ _ (by omega), claimedLen]
  have hspan := span_le ((32 + 12 * interfaces.length) / 2)
  have hcheck : Checkable (hdr ++ carried A seq interfaces ttl) := by
    refine ⟨by omega, fun _ => ⟨by omega, ?_⟩, fun _ _ => by omega⟩
    rw [hclaimed]
    omega
  have htype := getD_framed hhdr (carried A seq interfaces ttl) 1
  have hbody : (lsuBody A seq interfaces).getD 1 0 = pwospfTypeLinkStateUpdate := rfl
  rw [carried, getD_put16 _ _ (by omega), stamped, getD_put16 _ _ (by omega), hbody] at htype
  rw [processPwospfPacket_of_checkable B _ hcheck, cleared_eq_arriving A seq ttl interfaces hhdr]
  refine if_congr ?_ rfl rfl
  rw [acceptable_carried A seq ttl interfaces hhdr B]
  exact ⟨fun h => h.1, fun h => ⟨h, htype⟩⟩

/-- The copy that is passed on is the LSU with its new TTL. -/
theorem forwardCopy_arriving (ttl' : BitVec 16) (hshort : 32 + 12 * interfaces.length < 2 ^ 16) :
    forwardCopy (arriving hdr (lsuPacket A seq interfaces) ttl) ttl' =
      some (.copy (carried A seq interfaces ttl')) := by
  have hlen := length_stamped A seq ttl interfaces
  have hclaimed := claimedLen_stamped A seq ttl interfaces hshort
  rw [← cleared_eq_arriving A seq ttl interfaces hhdr, cleared_carried A seq ttl interfaces hhdr]
  have hload : load16 (hdr ++ put16 (stamped A seq interfaces ttl) 12 0) 36 =
      some (swap16 (be16 (stamped A seq interfaces ttl) 2)) := by
    have hfield := be16_framed hhdr (put16 (stamped A seq interfaces ttl) 12 0) 2
    rw [load16_eq, if_pos (by rw [List.length_append, length_put16]; omega), hfield,
      be16_put16 _ _ (by omega)]
  have hnum : (be16 (stamped A seq interfaces ttl) 2).toNat = 32 + 12 * interfaces.length :=
    hclaimed
  have hslice : slice (hdr ++ put16 (stamped A seq interfaces ttl) 12 0) 34
      (32 + 12 * interfaces.length) = some (put16 (stamped A seq interfaces ttl) 12 0) := by
    rw [slice, if_pos (by rw [List.length_append, length_put16]; omega),
      List.drop_left' hhdr, List.take_of_length_le (by rw [length_put16]; omega)]
  have hupdate : updateTtl (put16 (stamped A seq interfaces ttl) 12 0) ttl' =
      some (carried A seq interfaces ttl') := by
    have hstore : store16 (put16 (stamped A seq interfaces ttl) 12 0) 26 (swap16 ttl') =
        some (put16 (stamped A seq interfaces ttl') 12 0) := by
      rw [store16, if_pos (by rw [length_put16]; omega),
        put16_comm (o := 12) (k := 26) _ _ _ (by omega), stamped, put16_put16, stamped]
    rw [updateTtl, hstore, Option.bind_eq_bind, Option.bind_some]
    exact fill_stamped A seq ttl' interfaces 0 hshort
  exact forwardCopy_of hload (by rw [swap16_swap16, hnum]; exact hslice) hupdate

theorem advertised_arriving (hshort : 32 + 12 * interfaces.length < 2 ^ 16) :
    advertised (arriving hdr (lsuPacket A seq interfaces) ttl) =
      some (interfaces.map PwospfInterface.adv) := by
  obtain ⟨front, hfront, hsplit⟩ : ∃ front : Bytes, front.length = 66 ∧
      arriving hdr (lsuPacket A seq interfaces) ttl =
        front ++ constructPwospfLsuAdv interfaces := by
    refine ⟨hdr ++ put16 (put16 (lsuHead A seq interfaces.length) 26 (swap16 ttl)) 12 0, ?_, ?_⟩
    · rw [List.length_append, length_put16, length_put16, length_lsuHead, hhdr]
    · rw [← cleared_eq_arriving A seq ttl interfaces hhdr,
        cleared_carried A seq ttl interfaces hhdr, stamped, lsuBody_eq,
        put16_append_left _ _ _ (by rw [length_lsuHead]; omega),
        put16_append_left _ _ _ (by rw [length_put16, length_lsuHead]; omega), List.append_assoc]
  have hlen := length_arriving A seq ttl interfaces hhdr
  have hnum : be32 (arriving hdr (lsuPacket A seq interfaces) ttl) 62 =
      BitVec.ofNat 32 interfaces.length := by
    have h := be32_framed hhdr (put16 (stamped A seq interfaces ttl) 12 0) 28
    rw [← cleared_eq_arriving A seq ttl interfaces hhdr,
      cleared_carried A seq ttl interfaces hhdr, h, be32_put16 _ _ (by omega), stamped,
      be32_put16 _ _ (by omega), lsuBody_num]
  have hadvs := loadAdvs_constructPwospfLsuAdv front interfaces
  rw [hfront, ← hsplit] at hadvs
  unfold advertised
  rw [load32_eq, if_pos (by omega), hnum, Option.bind_eq_bind, Option.bind_some, swap32_swap32,
    BitVec.toNat_ofNat, Nat.mod_eq_of_lt (by omega)]
  exact hadvs

/-- The subnets have no host bits, as those of interfaces have not. -/
def Masked (interfaces : List PwospfInterface) : Prop :=
  ∀ i ∈ interfaces, i.subnet &&& i.mask = i.subnet

omit hhdr in
theorem adv_content {interfaces : List PwospfInterface} (h : Masked interfaces) :
    (interfaces.map PwospfInterface.adv).map LsuAdv.content =
      interfaces.map PwospfInterface.content := by
  rw [List.map_map]
  refine List.map_congr_left fun i hi => ?_
  exact congrArg (·, i.mask, i.routerId) (h i hi)

/-- The list that is held afterwards is the advertised one, and without a change of it nothing is
reported. -/
theorem populate_arriving {held after : List PwospfInterface} {changed : Bool}
    (hmasked : Masked interfaces) (hshort : 32 + 12 * interfaces.length < 2 ^ 16)
    (h : populatePwospfRouterInterfaceList held (arriving hdr (lsuPacket A seq interfaces) ttl) =
      some (after, changed)) :
    (∀ t, t ∈ after.map PwospfInterface.content ↔ t ∈ interfaces.map PwospfInterface.content) ∧
      (held ≠ [] → (∀ t, t ∈ held.map PwospfInterface.content ↔
        t ∈ interfaces.map PwospfInterface.content) → changed = false) := by
  have hload := advertised_arriving A seq ttl interfaces hhdr hshort
  have hcontent := adv_content hmasked
  have hmask : ∀ adv ∈ interfaces.map PwospfInterface.adv, adv.Masked := by
    intro adv hadv
    obtain ⟨i, hi, rfl⟩ := List.mem_map.mp hadv
    exact hmasked i hi
  by_cases hne : held = []
  · subst hne
    refine ⟨fun t => ?_, fun hnot => absurd rfl hnot⟩
    unfold populatePwospfRouterInterfaceList at h
    unfold advertised at hload
    obtain ⟨num, hnum, hadvs⟩ := Option.bind_eq_some_iff.mp hload
    rw [hnum, Option.bind_eq_bind, Option.bind_some, hadvs] at h
    obtain ⟨rfl, rfl⟩ := Prod.mk.inj (Option.some.inj h)
    rw [← hcontent, List.map_map, List.map_map, List.map_map]
    exact Iff.rfl
  · obtain ⟨added, c, hadded, hpop, -⟩ := populate_known hne hload
    rw [hpop] at h
    obtain ⟨rfl, rfl⟩ := Prod.mk.inj (Option.some.inj h)
    refine ⟨fun t => ?_, fun _ hsame => ?_⟩
    · rw [mem_after_iff, hcontent]
      refine ⟨And.right, fun ht => ⟨?_, ht⟩⟩
      rw [← hcontent] at ht
      obtain ⟨adv, hadv, rfl⟩ := List.mem_map.mp ht
      exact (hadded.mem_iff adv).mpr (.inr ⟨adv, hadv, hmask adv hadv, rfl⟩)
    · rw [← hcontent] at hsame
      have hagain := populate_same hne hload hsame
      rw [hpop] at hagain
      exact (Prod.mk.inj (Option.some.inj hagain)).2

end Carried

/-- A packet for a neighbour. -/
structure Framed (packet : Bytes) (sourceIp destIp : BitVec 32) (pwospf : Bytes) : Prop where
  valid : Ip.isPacketValid packet = true
  protocol : load8 packet 23 = some PacketPath.ipProtoPwospf
  source : load32 packet 26 = some sourceIp
  dest : load32 packet 30 = some destIp
  payload : ∃ hdr : Bytes, hdr.length = 34 ∧ packet = hdr ++ pwospf

theorem isPacketValid_of {packet : Bytes} (hfirst : packet[14]? = some 0x45)
    (hhigh : packet[20]? = some 0x40) (hlow : packet[21]? = some 0)
    (hsum : Ip.verifyChecksum (packet.drop 14) 20 = 0) : Ip.isPacketValid packet = true := by
  have hver : (packet.drop 14).getD 0 0 = 0x45 := by
    rw [getD_drop, List.getD_eq_getElem?_getD, hfirst]
    rfl
  have hfrag : Ip.ntohsAt (packet.drop 14) 3 = 0x4000 := by
    rw [Ip.ntohsAt, getD_drop, getD_drop, List.getD_eq_getElem?_getD, List.getD_eq_getElem?_getD,
      hhigh, hlow]
    rfl
  have hlen : 4 * ((0x45 : BitVec 8).extractLsb' 0 4).toNat = 20 := rfl
  unfold Ip.isPacketValid
  simp only [hver, hfrag, hlen, hsum]
  decide

theorem encapsulate_framed {pwospf : Bytes} (hlen : 4 ≤ pwospf.length)
    (hclaimed : claimedLen pwospf 0 = pwospf.length) (addr : Arp.Mac)
    (sourceIp destIp : BitVec 32) :
    ∃ packet, encapsulate pwospf addr sourceIp destIp = some packet ∧
      Framed packet sourceIp destIp pwospf := by
  have hload : load16 pwospf 2 = some (swap16 (be16 pwospf 2)) := by
    rw [load16_eq, if_pos (by omega)]
  have hnum : (be16 pwospf 2).toNat = pwospf.length := by
    rw [← hclaimed, claimedLen]
  have hslice : slice pwospf 0 pwospf.length = some pwospf := by
    rw [slice, if_pos (by omega), List.drop_zero, List.take_length]
  obtain ⟨packet₁, h₁⟩ := @storeBytes_isSome (List.replicate (34 + pwospf.length) 0) 34 pwospf
    (by rw [List.length_replicate])
  obtain ⟨hlen₁, -⟩ := storeBytes_spec h₁
  rw [List.length_replicate] at hlen₁
  obtain ⟨packet₂, h₂, hlen₂, hframe₂, hheader⟩ :=
    @Icmp.populateIp_spec packet₁ (be16 pwospf 2) PacketPath.ipProtoPwospf sourceIp destIp
      (by omega)
  obtain ⟨packet, h₃, hlen₃, hframe₃, hsum⟩ := Icmp.finish_spec hheader (by omega) addr
  have hat : ∀ k < 20, packet₂[14 + k]? =
      (Icmp.ipHeader (be16 pwospf 2) PacketPath.ipProtoPwospf sourceIp destIp)[k]? :=
    fun k hk => storeBytes_at h₂ hk
  have hkept : ∀ k, k < 10 → packet[14 + k]? =
      (Icmp.ipHeader (be16 pwospf 2) PacketPath.ipProtoPwospf sourceIp destIp)[k]? := fun k hk =>
    (hframe₃ (14 + k) (by omega) (by omega)).trans (hat k (by omega))
  refine ⟨packet, ?_, ?_, ?_, ?_, ?_, packet.take 34, ?_, ?_⟩
  · unfold encapsulate
    rw [hload, Option.bind_eq_bind, Option.bind_some, swap16_swap16, hnum, hslice]
    simp only [Option.bind_eq_bind, Option.bind_some, h₁, h₂]
    exact h₃
  · exact isPacketValid_of (hkept 0 (by omega)) (hkept 6 (by omega)) (hkept 7 (by omega)) hsum
  · exact hkept 9 (by omega)
  · rw [load32_congr fun k hk _ => hframe₃ k (by omega) (by omega)]
    exact hheader.source
  · rw [load32_congr fun k hk _ => hframe₃ k (by omega) (by omega)]
    exact hheader.destination
  · rw [List.length_take]
    omega
  · have hdrop : packet.drop 34 = pwospf := by
      refine List.ext_getElem? fun k => ?_
      rw [List.getElem?_drop, hframe₃ (34 + k) (by omega) (by omega), hframe₂ (34 + k) (by omega)]
      by_cases hk : k < pwospf.length
      · exact storeBytes_at h₁ hk
      · rw [List.getElem?_eq_none (by omega), List.getElem?_eq_none (by omega)]
    rw [← hdrop, List.take_append_drop]

end Osnt.Scone.LsuNetwork
