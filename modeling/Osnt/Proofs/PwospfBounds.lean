import Osnt.Proofs.PwospfChecksum
import Osnt.Scone.Ip

/-! Which packets are parsed within their bounds. The lengths that a packet claims are not compared
with the length it has, so that the condition is on both. -/
namespace Osnt.Scone.Pwospf
open Lib Lib.Buffer

/-- The router id as it lies in memory: this is how routers are looked up. -/
def origin (packet : Bytes) : BitVec 32 := swap32 (be32 packet 38)

def lsuSeq (packet : Bytes) : BitVec 16 := be16 packet 58

def lsuTtl (packet : Bytes) : BitVec 16 := be16 packet 60

def claimedNum (packet : Bytes) : Nat := (be32 packet 62).toNat

/-- An LSU of an unknown router, or with a larger sequence number than the last one taken in. -/
def Fresh (routers : List PwospfRouter) (packet : Bytes) : Prop :=
  ∀ router, getRouterByRid (origin packet) routers = some router → router.seq < lsuSeq packet

instance (routers : List PwospfRouter) (packet : Bytes) : Decidable (Fresh routers packet) :=
  match h : getRouterByRid (origin packet) routers with
  | none => isTrue fun router hr => by rw [h] at hr; cases hr
  | some router =>
    if hlt : router.seq < lsuSeq packet then
      isTrue fun r hr => by rw [h] at hr; cases hr; exact hlt
    else isFalse fun hf => hlt (hf router h)

theorem fresh_of_unknown {routers : List PwospfRouter} {packet : Bytes}
    (h : getRouterByRid (origin packet) routers = none) : Fresh routers packet := by
  intro router hr
  rw [h] at hr
  cases hr

theorem fresh_iff_of_known {routers : List PwospfRouter} {packet : Bytes} {router : PwospfRouter}
    (h : getRouterByRid (origin packet) routers = some router) :
    Fresh routers packet ↔ router.seq < lsuSeq packet := by
  constructor
  · intro hf
    exact hf router h
  · intro hlt r hr
    rw [h] at hr
    cases hr
    exact hlt

theorem loadAdv_isSome (b : Bytes) (o : Nat) :
    (loadAdv b o).isSome = true ↔ o + 12 ≤ b.length := by
  unfold loadAdv
  simp only [load32_eq, Option.bind_eq_bind]
  by_cases h : o + 12 ≤ b.length
  · rw [if_pos (by omega), if_pos (by omega), if_pos (by omega)]
    simp [h]
  · have hlast : ¬ o + 8 + 4 ≤ b.length := by omega
    simp only [hlast, if_false]
    split <;> split <;> simp

/-- The advertisements end within the buffer just when they can all be read. -/
theorem loadAdvs_isSome (b : Bytes) (o n : Nat) (ho : o ≤ b.length) :
    (loadAdvs b o n).isSome = true ↔ o + 12 * n ≤ b.length := by
  induction n generalizing o with
  | zero => simpa [loadAdvs] using ho
  | succ n ih =>
    rw [loadAdvs]
    by_cases h : o + 12 ≤ b.length
    · obtain ⟨adv, hadv⟩ := Option.isSome_iff_exists.mp ((loadAdv_isSome b o).mpr h)
      have htail := ih (o + 12) h
      rw [hadv]
      cases hadvs : loadAdvs b (o + 12) n with
      | none =>
        rw [hadvs] at htail
        simp at htail
        simp
        omega
      | some advs =>
        rw [hadvs] at htail
        simp at htail
        simp
        omega
    · have hnone : loadAdv b o = none := by
        rw [← Option.not_isSome_iff_eq_none, loadAdv_isSome]
        exact h
      rw [hnone]
      simp
      omega

theorem populate_isSome (interfaces : List PwospfInterface) (packet : Bytes) :
    (populatePwospfRouterInterfaceList interfaces packet).isSome = true ↔
      66 + 12 * claimedNum packet ≤ packet.length := by
  unfold populatePwospfRouterInterfaceList
  rw [load32_eq]
  by_cases h66 : 66 ≤ packet.length
  · have hadvs := loadAdvs_isSome packet 66 (claimedNum packet) h66
    rw [if_pos h66, ← hadvs]
    simp only [Option.bind_eq_bind, Option.bind_some, swap32_swap32]
    change ((loadAdvs packet 66 (claimedNum packet)).bind _).isSome = true ↔ _
    cases loadAdvs packet 66 (claimedNum packet) with
    | none => simp
    | some advs =>
      simp only [Option.bind_some]
      split <;> simp
  · rw [if_neg h66]
    simp
    omega

theorem updateRouterList_isSome (routers : List PwospfRouter) (packet : Bytes) :
    (updateRouterList routers packet (origin packet)).isSome = true ↔
      60 ≤ packet.length ∧
        (Fresh routers packet → 66 + 12 * claimedNum packet ≤ packet.length) := by
  unfold updateRouterList
  cases hget : getRouterByRid (origin packet) routers with
  | none =>
    have hfresh := fresh_of_unknown hget
    have hpop := populate_isSome [] packet
    simp only [load32_eq, load16_eq, Option.bind_eq_bind]
    by_cases h60 : 60 ≤ packet.length
    · have h46 : 42 + 4 ≤ packet.length := by omega
      simp only [h46, h60, if_true, Option.bind_some]
      cases hp : populatePwospfRouterInterfaceList [] packet with
      | none =>
        rw [hp] at hpop
        simpa [hfresh] using hpop
      | some r =>
        rw [hp] at hpop
        simpa [hfresh] using hpop
    · simp only [h60, if_false]
      split <;> simp
  | some router =>
    have hfresh := fresh_iff_of_known hget
    have hpop := populate_isSome router.interfaceList packet
    simp only [load16_eq, Option.bind_eq_bind]
    by_cases h60 : 60 ≤ packet.length
    · simp only [h60, if_true, Option.bind_some, swap16_swap16]
      change Option.isSome (ite (router.seq ≠ lsuSeq packet ∧ router.seq < lsuSeq packet) _ _) =
        true ↔ _
      by_cases hlt : router.seq < lsuSeq packet
      · rw [if_pos ⟨fun he => absurd hlt (by simp [he]), hlt⟩]
        cases hp : populatePwospfRouterInterfaceList router.interfaceList packet with
        | none =>
          rw [hp] at hpop
          simpa [hfresh, hlt] using hpop
        | some r =>
          rw [hp] at hpop
          simpa [hfresh, hlt] using hpop
      · rw [if_neg (fun h => hlt h.2)]
        simp [hfresh, hlt]
    · simp [h60]

theorem updateRouterList_rebroadcast {routers after : List PwospfRouter} {packet : Bytes}
    {rebroadcast update : Bool}
    (h : updateRouterList routers packet (origin packet) = some (after, rebroadcast, update)) :
    rebroadcast = true ↔ Fresh routers packet := by
  have h60 := ((updateRouterList_isSome routers packet).mp (by rw [h]; rfl)).1
  unfold updateRouterList at h
  cases hget : getRouterByRid (origin packet) routers with
  | none =>
    rw [hget] at h
    simp only [Option.bind_eq_bind, Option.bind_eq_some_iff] at h
    obtain ⟨_, _, _, _, _, _, heq⟩ := h
    cases heq
    exact ⟨fun _ => fresh_of_unknown hget, fun _ => rfl⟩
  | some router =>
    rw [hget] at h
    simp only [load16_eq, Option.bind_eq_bind, h60, if_true, Option.bind_some, swap16_swap16] at h
    rw [fresh_iff_of_known hget]
    split at h
    · rename_i hlt
      obtain ⟨_, _, heq⟩ := Option.bind_eq_some_iff.mp h
      cases heq
      exact ⟨fun _ => hlt.2, fun _ => rfl⟩
    · rename_i hlt
      cases h
      refine ⟨fun h => absurd h Bool.false_ne_true, fun h => absurd ⟨?_, h⟩ hlt⟩
      intro he
      exact absurd h (by simp [he, lsuSeq])

theorem forwardCopy_isSome (packet : Bytes) (ttl : BitVec 16) (h : 38 ≤ packet.length) :
    (forwardCopy packet ttl).isSome = true ↔ 34 + claimedLen packet 34 ≤ packet.length := by
  unfold forwardCopy slice
  rw [load16_eq, if_pos h]
  simp only [Option.bind_eq_bind, Option.bind_some, swap16_swap16]
  change (Option.bind (if 34 + claimedLen packet 34 ≤ packet.length then _ else _) _).isSome =
    true ↔ _
  split
  · rename_i hle
    exact ⟨fun _ => hle, fun _ => rfl⟩
  · rename_i hle
    exact ⟨fun h => absurd h Bool.false_ne_true, fun h => absurd h hle⟩

/-- The lengths that taking in an LSU needs: of its header, and of the advertisements and the copy
if the LSU is fresh. -/
structure Takeable (rs : RouterState) (packet : Bytes) : Prop where
  header : 62 ≤ packet.length
  advs : Fresh rs.pwospfRouterList packet → 66 + 12 * claimedNum packet ≤ packet.length
  copy : Fresh rs.pwospfRouterList packet → lsuTtl packet ≠ 1 →
    34 + claimedLen packet 34 ≤ packet.length

theorem ttl_pos_iff (v : BitVec 16) : 0 < v - 1 ↔ v ≠ 1 := by
  constructor
  · rintro h rfl
    exact absurd h (by decide)
  · intro h
    bv_omega

theorem forwardLsu_isSome (packet : Bytes) (rebroadcast : Bool) :
    (forwardLsu packet rebroadcast).isSome = true ↔
      62 ≤ packet.length ∧ (rebroadcast = true → lsuTtl packet ≠ 1 →
        34 + claimedLen packet 34 ≤ packet.length) := by
  unfold forwardLsu
  rw [load16_eq]
  by_cases h62 : 62 ≤ packet.length
  · rw [if_pos h62]
    simp only [Option.bind_eq_bind, Option.bind_some, swap16_swap16]
    change Option.isSome (ite (rebroadcast = true ∧ 0 < lsuTtl packet - 1) _ _) = true ↔ _
    by_cases hfwd : rebroadcast = true ∧ 0 < lsuTtl packet - 1
    · rw [if_pos hfwd]
      have hne := (ttl_pos_iff _).mp hfwd.2
      refine (forwardCopy_isSome packet (lsuTtl packet - 1) (by omega)).trans ?_
      exact ⟨fun h => ⟨h62, fun _ _ => h⟩, fun h => h.2 hfwd.1 hne⟩
    · rw [if_neg hfwd]
      refine ⟨fun _ => ⟨h62, fun hreb hne => ?_⟩, fun _ => rfl⟩
      exact absurd ⟨hreb, (ttl_pos_iff _).mpr hne⟩ hfwd
  · rw [if_neg h62]
    exact ⟨fun h => absurd h Bool.false_ne_true, fun h => absurd h.1 h62⟩

theorem processPwospfLsuPacket_isSome (rs : RouterState) (packet : Bytes)
    (h42 : 42 ≤ packet.length) :
    (processPwospfLsuPacket rs packet).isSome = true ↔
      (rs.routerId ≠ origin packet → Takeable rs packet) := by
  unfold processPwospfLsuPacket
  rw [load32_eq, if_pos h42]
  simp only [Option.bind_eq_bind, Option.bind_some]
  change Option.isSome (ite (rs.routerId = origin packet) _ _) = true ↔ _
  by_cases hours : rs.routerId = origin packet
  · rw [if_pos hours]
    exact ⟨fun _ h => absurd hours h, fun _ => rfl⟩
  rw [if_neg hours]
  have hupd := updateRouterList_isSome rs.pwospfRouterList packet
  change (Option.bind (updateRouterList rs.pwospfRouterList packet (origin packet)) _).isSome =
    true ↔ _
  cases hu : updateRouterList rs.pwospfRouterList packet (origin packet) with
  | none =>
    rw [hu] at hupd
    refine ⟨fun h => absurd h Bool.false_ne_true, fun h => ?_⟩
    have ht := h hours
    have hsome := hupd.mpr ⟨by have := ht.header; omega, ht.advs⟩
    exact absurd hsome Bool.false_ne_true
  | some r =>
    obtain ⟨after, rebroadcast, update⟩ := r
    rw [hu] at hupd
    have hreb := updateRouterList_rebroadcast hu
    have hlen := hupd.mp rfl
    have hfwd := forwardLsu_isSome packet rebroadcast
    rw [Option.bind_some]
    change (Option.bind (forwardLsu packet rebroadcast) _).isSome = true ↔ _
    cases hf : forwardLsu packet rebroadcast with
    | none =>
      rw [hf] at hfwd
      refine ⟨fun h => absurd h Bool.false_ne_true, fun h => ?_⟩
      have ht := h hours
      have hsome := hfwd.mpr ⟨ht.header, fun hr => ht.copy (hreb.mp hr)⟩
      exact absurd hsome Bool.false_ne_true
    | some f =>
      rw [hf] at hfwd
      have hfwd := hfwd.mp rfl
      exact ⟨fun _ _ => ⟨hfwd.1, hlen.2, fun hfresh => hfwd.2 (hreb.mpr hfresh)⟩, fun _ => rfl⟩

@[simp] theorem origin_cleared (packet : Bytes) : origin (cleared packet) = origin packet := by
  rw [origin, be32_cleared packet (by omega), origin]

@[simp] theorem lsuSeq_cleared (packet : Bytes) : lsuSeq (cleared packet) = lsuSeq packet :=
  be16_cleared packet (by omega)

@[simp] theorem lsuTtl_cleared (packet : Bytes) : lsuTtl (cleared packet) = lsuTtl packet :=
  be16_cleared packet (by omega)

@[simp] theorem claimedNum_cleared (packet : Bytes) :
    claimedNum (cleared packet) = claimedNum packet := by
  rw [claimedNum, be32_cleared packet (by omega), claimedNum]

@[simp] theorem claimedLen_cleared (packet : Bytes) :
    claimedLen (cleared packet) 34 = claimedLen packet 34 := by
  rw [claimedLen, be16_cleared packet (by omega), claimedLen]

theorem fresh_cleared (routers : List PwospfRouter) (packet : Bytes) :
    Fresh routers (cleared packet) ↔ Fresh routers packet := by
  unfold Fresh
  rw [origin_cleared, lsuSeq_cleared]

theorem takeable_cleared (rs : RouterState) (packet : Bytes) :
    Takeable rs (cleared packet) ↔ Takeable rs packet := by
  have hfresh := fresh_cleared rs.pwospfRouterList packet
  constructor
  · intro h
    refine ⟨by simpa using h.header, fun hf => ?_, fun hf hne => ?_⟩
    · simpa using h.advs (hfresh.mpr hf)
    · simpa using h.copy (hfresh.mpr hf) (by simpa using hne)
  · intro h
    refine ⟨by simpa using h.header, fun hf => ?_, fun hf hne => ?_⟩
    · simpa using h.advs (hfresh.mp hf)
    · simpa using h.copy (hfresh.mp hf) (by simpa using hne)

/-- The packet is an LSU that passes the checks. -/
structure ValidLsu (rs : RouterState) (packet : Bytes) : Prop where
  acceptable : Acceptable rs packet
  type : packet.getD 35 0 = pwospfTypeLinkStateUpdate

/-- The lengths that a packet needs, as far as each step is reached. -/
structure WithinBounds (rs : RouterState) (packet : Bytes) : Prop where
  checkable : Checkable packet
  takeable : ValidLsu rs packet → rs.routerId ≠ origin packet → Takeable rs packet

/-- A packet that passes the checks is handed on with its checksum field cleared. -/
theorem processPwospfPacket_of_checkable (rs : RouterState) (packet : Bytes)
    (h : Checkable packet) :
    processPwospfPacket rs packet =
      if Acceptable rs packet ∧ packet.getD 35 0 = pwospfTypeLinkStateUpdate then
        processPwospfLsuPacket rs (cleared packet)
      else some (.dropped rs) := by
  obtain ⟨left, hvalid, hleft⟩ := isPwospfPacketValid_of_checkable rs packet h
  unfold processPwospfPacket
  rw [hvalid]
  by_cases hok : Acceptable rs packet
  · have h48 := (h.summed hok.version).1
    have htype : load8 (cleared packet) 35 = some (packet.getD 35 0) := by
      rw [load8_eq, length_cleared, if_pos (by omega), cleared, getD_put16 packet 0 (by omega)]
    simp only [hleft hok, Option.bind_eq_bind, Option.bind_some, hok, decide_true, htype, true_and]
    simp
  · simp [hok]

/-- No access leaves the packet just when its lengths are within bounds. -/
theorem parsed_within_iff (rs : RouterState) (packet : Bytes) :
    (processPwospfPacket rs packet).isSome = true ↔ WithinBounds rs packet := by
  by_cases hcheck : Checkable packet
  · rw [processPwospfPacket_of_checkable rs packet hcheck]
    by_cases hlsu : Acceptable rs packet ∧ packet.getD 35 0 = pwospfTypeLinkStateUpdate
    · have h48 := (hcheck.summed hlsu.1.version).1
      rw [if_pos hlsu, processPwospfLsuPacket_isSome rs (cleared packet) (by simp; omega),
        origin_cleared, takeable_cleared]
      exact ⟨fun h => ⟨hcheck, fun _ => h⟩, fun h => h.takeable ⟨hlsu.1, hlsu.2⟩⟩
    · rw [if_neg hlsu]
      refine ⟨fun _ => ⟨hcheck, fun hv => ?_⟩, fun _ => rfl⟩
      exact absurd ⟨hv.acceptable, hv.type⟩ hlsu
  · have hvalid : isPwospfPacketValid rs packet = none := by
      rw [← Option.not_isSome_iff_eq_none, isPwospfPacketValid_isSome]
      exact hcheck
    unfold processPwospfPacket
    rw [hvalid]
    exact ⟨fun h => absurd h Bool.false_ne_true, fun h => absurd h.checkable hcheck⟩

/-- An LSU header without the 40 bytes that it claims to be followed by. -/
def shortLsu : Bytes :=
  [0, 0, 0, 0, 0, 1, 0, 0, 0, 0, 0, 2, 8, 0,
   69, 0, 0, 44, 0, 0, 0, 0, 64, 89, 144, 114, 10, 0, 0, 2, 224, 0, 0, 5,
   2, 4, 0, 64, 10, 0, 0, 2, 0, 0, 0, 0, 0, 0, 0, 0, 0, 0, 0, 0, 0, 0, 0, 0]

/-- The IP header of the packet is right, and the checksum loop runs out of the packet. -/
theorem short_lsu_overread :
    Ip.isPacketValid shortLsu = true ∧ ∀ rs, processPwospfPacket rs shortLsu = none := by
  refine ⟨by decide +kernel, fun rs => ?_⟩
  have hver : shortLsu.getD 34 0 = pwospfVersion := by decide +kernel
  have hlen : ¬ (48 ≤ shortLsu.length ∧
      34 + span (claimedLen shortLsu 34 / 2) ≤ shortLsu.length) := by
    decide +kernel
  rw [processPwospfPacket, isPwospfPacketValid_short rs shortLsu hver hlen]
  rfl

end Osnt.Scone.Pwospf
