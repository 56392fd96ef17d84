import Osnt.Proofs.PwospfChecksum

namespace Osnt.Scone.Pwospf
open Lib Lib.Buffer

theorem length_advBytes (i : PwospfInterface) : (advBytes i).length = 12 := rfl

theorem length_constructPwospfLsuAdv (interfaces : List PwospfInterface) :
    (constructPwospfLsuAdv interfaces).length = 12 * interfaces.length := by
  induction interfaces with
  | nil => rfl
  | cons i interfaces ih =>
    have hcons : constructPwospfLsuAdv (i :: interfaces) =
        advBytes i ++ constructPwospfLsuAdv interfaces := rfl
    rw [hcons, List.length_append, length_advBytes, ih, List.length_cons]
    omega

/-- The two headers of an LSU. -/
def lsuHead (rs : RouterState) (seq : BitVec 16) (num : Nat) : Bytes :=
  populatePwospf pwospfTypeLinkStateUpdate (BitVec.ofNat 16 (32 + num * 12)) rs.routerId
    rs.areaId ++ populatePwospfLsu seq (BitVec.ofNat 32 num)

theorem length_lsuHead (rs : RouterState) (seq : BitVec 16) (num : Nat) :
    (lsuHead rs seq num).length = 32 := rfl

theorem lsuBody_eq (rs : RouterState) (seq : BitVec 16) (interfaces : List PwospfInterface) :
    lsuBody rs seq interfaces =
      lsuHead rs seq interfaces.length ++ constructPwospfLsuAdv interfaces := rfl

section Fields
variable (rs : RouterState) (seq : BitVec 16) (interfaces : List PwospfInterface)

theorem length_lsuBody : (lsuBody rs seq interfaces).length = 32 + 12 * interfaces.length := by
  rw [lsuBody_eq, List.length_append, length_lsuHead, length_constructPwospfLsuAdv]

theorem lsuBody_version : (lsuBody rs seq interfaces).getD 0 0 = pwospfVersion := rfl

theorem lsuBody_len :
    be16 (lsuBody rs seq interfaces) 2 = BitVec.ofNat 16 (32 + interfaces.length * 12) :=
  be16_of_drop rfl

theorem lsuBody_rid : be32 (lsuBody rs seq interfaces) 4 = swap32 rs.routerId := be32_of_drop rfl

theorem lsuBody_aid : be32 (lsuBody rs seq interfaces) 8 = rs.areaId :=
  (@be32_of_drop _ _ _ (swap32 rs.areaId) rfl).trans (swap32_swap32 _)

theorem lsuBody_atype : be16 (lsuBody rs seq interfaces) 14 = 0 := be16_of_drop rfl

theorem lsuBody_seq : be16 (lsuBody rs seq interfaces) 24 = seq := be16_of_drop rfl

theorem lsuBody_num :
    be32 (lsuBody rs seq interfaces) 28 = BitVec.ofNat 32 interfaces.length :=
  (@be32_of_drop _ _ _ (swap32 (BitVec.ofNat 32 interfaces.length)) rfl).trans (swap32_swap32 _)

/-- The packet with its checksum. -/
def lsuPacket : Bytes :=
  put16 (lsuBody rs seq interfaces) 12 (swap16 (rightSum (lsuBody rs seq interfaces) 0))

theorem length_lsuPacket :
    (lsuPacket rs seq interfaces).length = 32 + 12 * interfaces.length := by
  rw [lsuPacket, length_put16, length_lsuBody]

theorem lsuPacket_eq :
    lsuPacket rs seq interfaces =
      put16 (lsuHead rs seq interfaces.length) 12
        (swap16 (rightSum (lsuBody rs seq interfaces) 0)) ++ constructPwospfLsuAdv interfaces := by
  rw [lsuPacket]
  generalize swap16 (rightSum (lsuBody rs seq interfaces) 0) = sum
  rw [lsuBody_eq, put16_append_left]
  rw [length_lsuHead]
  omega

theorem claimedLen_lsuBody :
    claimedLen (lsuBody rs seq interfaces) 0 = (32 + interfaces.length * 12) % 2 ^ 16 := by
  rw [claimedLen, Nat.zero_add, lsuBody_len, BitVec.toNat_ofNat]

theorem fillChecksum_lsuBody :
    fillChecksum (lsuBody rs seq interfaces) = some (lsuPacket rs seq interfaces) := by
  have hlen := length_lsuBody rs seq interfaces
  have hspan := span_le (claimedLen (lsuBody rs seq interfaces) 0 / 2)
  have hmod := Nat.mod_le (32 + interfaces.length * 12) (2 ^ 16)
  rw [claimedLen_lsuBody] at hspan
  rw [fillChecksum_eq, claimedLen_lsuBody, if_pos (by omega), lsuPacket]

theorem be16_lsuPacket {o : Nat} (ho : o + 2 ≤ 12 ∨ 14 ≤ o) :
    be16 (lsuPacket rs seq interfaces) o = be16 (lsuBody rs seq interfaces) o :=
  be16_put16 _ _ ho

theorem be32_lsuPacket {o : Nat} (ho : o + 4 ≤ 12 ∨ 14 ≤ o) :
    be32 (lsuPacket rs seq interfaces) o = be32 (lsuBody rs seq interfaces) o :=
  be32_put16 _ _ ho

theorem getD_lsuPacket {o : Nat} (ho : o < 12 ∨ 14 ≤ o) :
    (lsuPacket rs seq interfaces).getD o 0 = (lsuBody rs seq interfaces).getD o 0 :=
  getD_put16 _ _ ho

theorem checksumGood_lsuPacket : ChecksumGood (lsuPacket rs seq interfaces) 0 := by
  apply ChecksumGood.fill
  rw [length_lsuBody]
  omega

end Fields

theorem constructPwospfLsuPacket_eq (rs : RouterState) (router : PwospfRouter)
    (h : getRouterByRid rs.routerId rs.pwospfRouterList = some router) :
    constructPwospfLsuPacket rs =
      some (lsuPacket rs router.seq router.interfaceList,
        rs.setOurs fun r => { r with seq := r.seq + 1 }) := by
  unfold constructPwospfLsuPacket
  simp only [h, Option.bind_eq_bind, Option.bind_some, fillChecksum_lsuBody]
  rfl

section Framed
variable {hdr : Bytes} (hhdr : hdr.length = 34) (b : Bytes)
include hhdr

theorem getD_framed (o : Nat) : (hdr ++ b).getD (34 + o) 0 = b.getD o 0 := by
  rw [← hhdr, getD_append_right]

theorem be16_framed (o : Nat) : be16 (hdr ++ b) (34 + o) = be16 b o := by
  rw [← hhdr, be16_append_right]

theorem be32_framed (o : Nat) : be32 (hdr ++ b) (34 + o) = be32 b o := by
  rw [← hhdr, be32_append_right]

theorem claimedLen_framed : claimedLen (hdr ++ b) 34 = claimedLen b 0 := by
  have h := be16_framed hhdr b 2
  rw [claimedLen, h, claimedLen]

theorem checksumGood_framed (h : ChecksumGood b 0) : ChecksumGood (hdr ++ b) 34 := by
  have hsum := rightSum_append_right hdr b 0
  have hfield := be16_framed hhdr b 12
  rw [hhdr] at hsum
  unfold ChecksumGood at h ⊢
  rw [hfield, hsum]
  exact h

end Framed

/-- What `construct_pwospf_lsu_adv` says of an interface. -/
def PwospfInterface.adv (i : PwospfInterface) : LsuAdv := ⟨i.subnet, i.mask, i.routerId⟩

theorem loadAdv_advBytes (front rest : Bytes) (i : PwospfInterface) :
    loadAdv (front ++ (advBytes i ++ rest)) front.length = some i.adv := by
  have hlen : (front ++ (advBytes i ++ rest)).length = front.length + (12 + rest.length) := by
    rw [List.length_append, List.length_append, length_advBytes]
  have h0 := be32_append_right front (advBytes i ++ rest) 0
  have h4 := be32_append_right front (advBytes i ++ rest) 4
  have h8 := be32_append_right front (advBytes i ++ rest) 8
  have hsub : be32 (advBytes i ++ rest) 0 = swap32 i.subnet := rfl
  have hmask : be32 (advBytes i ++ rest) 4 = swap32 i.mask := rfl
  have hrid : be32 (advBytes i ++ rest) 8 = swap32 i.routerId := rfl
  rw [Nat.add_zero] at h0
  unfold loadAdv
  rw [load32_eq, load32_eq, load32_eq, hlen, if_pos (by omega), if_pos (by omega),
    if_pos (by omega), h0, h4, h8, hsub, hmask, hrid]
  simp only [Option.bind_eq_bind, Option.bind_some, swap32_swap32]
  rfl

/-- The advertisements of a list of interfaces are read back one by one. -/
theorem loadAdvs_constructPwospfLsuAdv (front : Bytes) (interfaces : List PwospfInterface) :
    loadAdvs (front ++ constructPwospfLsuAdv interfaces) front.length interfaces.length =
      some (interfaces.map PwospfInterface.adv) := by
  induction interfaces generalizing front with
  | nil => rfl
  | cons i interfaces ih =>
    have hcons : constructPwospfLsuAdv (i :: interfaces) =
        advBytes i ++ constructPwospfLsuAdv interfaces := rfl
    have htail := ih (front ++ advBytes i)
    rw [List.append_assoc, List.length_append, length_advBytes] at htail
    rw [hcons, List.length_cons, loadAdvs, loadAdv_advBytes]
    simp only [Option.bind_eq_bind, Option.bind_some, htail]
    rfl

/-- An interface as `populate_pwospf_router_interface_list` enters it. -/
def PwospfInterface.decoded (i : PwospfInterface) : PwospfInterface :=
  ⟨i.subnet &&& i.mask, i.mask, i.routerId, false⟩

section Received
variable (A B : RouterState) (seq : BitVec 16) (interfaces : List PwospfInterface)
variable {hdr : Bytes} (hhdr : hdr.length = 34)
include hhdr

theorem length_framed :
    (hdr ++ lsuPacket A seq interfaces).length = 66 + 12 * interfaces.length := by
  rw [List.length_append, length_lsuPacket, hhdr]
  omega

theorem checkable_framed : Checkable (hdr ++ lsuPacket A seq interfaces) := by
  have hlen := length_framed A seq interfaces hhdr
  have hclaimed : claimedLen (hdr ++ lsuPacket A seq interfaces) 34 =
      (32 + interfaces.length * 12) % 2 ^ 16 := by
    rw [claimedLen_framed hhdr, claimedLen, be16_lsuPacket A seq interfaces (by omega),
      Nat.zero_add, lsuBody_len, BitVec.toNat_ofNat]
  have hspan := span_le ((32 + interfaces.length * 12) % 2 ^ 16 / 2)
  have hmod := Nat.mod_le (32 + interfaces.length * 12) (2 ^ 16)
  refine ⟨by omega, fun _ => ⟨by omega, ?_⟩, fun _ _ => by omega⟩
  rw [hclaimed]
  omega

/-- The receiver compares its own id with the other byte order of the sender's. -/
theorem acceptable_framed (harea : A.areaId = B.areaId) :
    Acceptable B (hdr ++ lsuPacket A seq interfaces) ↔ swap32 A.routerId ≠ B.routerId := by
  have hver := getD_framed hhdr (lsuPacket A seq interfaces) 0
  have hatype := be16_framed hhdr (lsuPacket A seq interfaces) 14
  have haid := be32_framed hhdr (lsuPacket A seq interfaces) 8
  have hrid := be32_framed hhdr (lsuPacket A seq interfaces) 4
  rw [getD_lsuPacket A seq interfaces (by omega), lsuBody_version] at hver
  rw [be16_lsuPacket A seq interfaces (by omega), lsuBody_atype] at hatype
  rw [be32_lsuPacket A seq interfaces (by omega), lsuBody_aid] at haid
  rw [be32_lsuPacket A seq interfaces (by omega), lsuBody_rid] at hrid
  constructor
  · intro h
    rw [← hrid]
    exact h.other
  · intro h
    rw [← hrid] at h
    exact ⟨hver, checksumGood_framed hhdr _ (checksumGood_lsuPacket A seq interfaces), hatype,
      haid.trans harea, h⟩

theorem isPwospfPacketValid_framed (harea : A.areaId = B.areaId) :
    isPwospfPacketValid B (hdr ++ lsuPacket A seq interfaces) =
      some (decide (swap32 A.routerId ≠ B.routerId),
        cleared (hdr ++ lsuPacket A seq interfaces)) := by
  have hcheck := checkable_framed A seq interfaces hhdr
  have hacc := acceptable_framed A B seq interfaces hhdr harea
  have hver := getD_framed hhdr (lsuPacket A seq interfaces) 0
  have hgood := checksumGood_framed hhdr _ (checksumGood_lsuPacket A seq interfaces)
  have hlen := length_framed A seq interfaces hhdr
  rw [getD_lsuPacket A seq interfaces (by omega), lsuBody_version] at hver
  rw [isPwospfPacketValid_summed B _ hver (hcheck.summed hver) hgood, if_pos (by omega)]
  congr 2
  apply decide_eq_decide.mpr
  rw [← hacc]
  constructor
  · intro ⟨ha, hb, hc⟩
    exact ⟨hver, hgood, ha, hb, hc⟩
  · intro h
    exact ⟨h.atype, h.area, h.other⟩

theorem populate_framed (hnum : interfaces.length < 2 ^ 32) :
    populatePwospfRouterInterfaceList [] (cleared (hdr ++ lsuPacket A seq interfaces)) =
      some (interfaces.map PwospfInterface.decoded, true) := by
  have hlen := length_framed A seq interfaces hhdr
  -- everything before the advertisements, with both checksum stores
  obtain ⟨front, hfront, hsplit⟩ : ∃ front : Bytes, front.length = 66 ∧
      cleared (hdr ++ lsuPacket A seq interfaces) = front ++ constructPwospfLsuAdv interfaces := by
    refine ⟨put16 (hdr ++ put16 (lsuHead A seq interfaces.length) 12
      (swap16 (rightSum (lsuBody A seq interfaces) 0))) 46 0, ?_, ?_⟩
    · rw [length_put16, List.length_append, length_put16, length_lsuHead, hhdr]
    · rw [cleared, lsuPacket_eq, ← List.append_assoc, put16_append_left]
      rw [List.length_append, length_put16, length_lsuHead, hhdr]
      omega
  have hnumField : be32 (cleared (hdr ++ lsuPacket A seq interfaces)) 62 =
      BitVec.ofNat 32 interfaces.length := by
    have h := be32_framed hhdr (lsuPacket A seq interfaces) 28
    rw [be32_cleared _ (by omega), h, be32_lsuPacket A seq interfaces (by omega), lsuBody_num]
  have hadvs := loadAdvs_constructPwospfLsuAdv front interfaces
  rw [hfront, ← hsplit] at hadvs
  unfold populatePwospfRouterInterfaceList
  rw [load32_eq, length_cleared, if_pos (by omega), hnumField]
  simp only [Option.bind_eq_bind, Option.bind_some, swap32_swap32, BitVec.toNat_ofNat,
    Nat.mod_eq_of_lt hnum, hadvs, List.isEmpty_nil, if_true, List.map_map]
  rfl

end Received

/-- `B` accepts the LSU that `A` builds, behind the headers `hdr`, and decodes `A`'s interfaces. -/
def RoundTrip (A B : RouterState) (hdr : Bytes) (interfaces : List PwospfInterface) : Prop :=
  ∃ packet A' left, constructPwospfLsuPacket A = some (packet, A') ∧
    isPwospfPacketValid B (hdr ++ packet) = some (true, left) ∧
    populatePwospfRouterInterfaceList [] left =
      some (interfaces.map PwospfInterface.decoded, true)

/-- The id of the sender is stored in one byte order and compared in the other one. -/
theorem lsu_round_trip_iff (A B : RouterState) (hdr : Bytes) (router : PwospfRouter)
    (hhdr : hdr.length = 34) (harea : A.areaId = B.areaId)
    (hrouter : getRouterByRid A.routerId A.pwospfRouterList = some router)
    (hlen : 32 + 12 * router.interfaceList.length < 2 ^ 16) :
    RoundTrip A B hdr router.interfaceList ↔ swap32 A.routerId ≠ B.routerId := by
  have hbuild := constructPwospfLsuPacket_eq A router hrouter
  have hvalid := isPwospfPacketValid_framed A B router.seq router.interfaceList hhdr harea
  constructor
  · rintro ⟨packet, A', left, hpacket, haccept, -⟩
    rw [hbuild] at hpacket
    cases hpacket
    rw [hvalid] at haccept
    simp only [Option.some.injEq, Prod.mk.injEq, decide_eq_true_eq] at haccept
    exact haccept.1
  · intro hne
    refine ⟨_, _, _, hbuild, ?_, populate_framed A router.seq router.interfaceList hhdr ?_⟩
    · rw [hvalid, decide_eq_true hne]
    · omega

/-- Router 10.0.0.2 with one interface, towards 10.0.0.1. -/
def senderTwo : RouterState :=
  ⟨0x0200000a, 0, true, [⟨0x0200000a, 0, 7, [⟨0x0000000a, 0x00ffffff, 0x0100000a, true⟩]⟩]⟩

theorem lsu_round_trip_two : RoundTrip senderTwo ⟨0x0100000a, 0, true, []⟩ (List.replicate 34 0)
    [⟨0x0000000a, 0x00ffffff, 0x0100000a, true⟩] :=
  (lsu_round_trip_iff senderTwo ⟨0x0100000a, 0, true, []⟩ (List.replicate 34 0)
    ⟨0x0200000a, 0, 7, [⟨0x0000000a, 0x00ffffff, 0x0100000a, true⟩]⟩ rfl rfl rfl
    (by decide)).mpr (by decide)

/-- Router 2.0.0.10 refuses the LSU of router 10.0.0.2 as its own. -/
theorem lsu_refused_as_own :
    senderTwo.areaId = 0 ∧ senderTwo.routerId ≠ 0x0a000002 ∧
      ¬ RoundTrip senderTwo ⟨0x0a000002, 0, true, []⟩ (List.replicate 34 0)
        [⟨0x0000000a, 0x00ffffff, 0x0100000a, true⟩] := by
  refine ⟨rfl, by decide, ?_⟩
  rintro ⟨packet, A', left, hpacket, haccept, -⟩
  rw [constructPwospfLsuPacket_eq senderTwo _ rfl] at hpacket
  cases hpacket
  rw [isPwospfPacketValid_framed senderTwo ⟨0x0a000002, 0, true, []⟩ _ _ rfl rfl] at haccept
  simp only [Option.some.injEq, Prod.mk.injEq, decide_eq_true_eq] at haccept
  exact absurd haccept.1 (by decide)

end Osnt.Scone.Pwospf
