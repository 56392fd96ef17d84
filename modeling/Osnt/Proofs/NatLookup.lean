import Osnt.Proofs.NatTranslation

/-! When a second copy of a packet from inside finds the entry of the first. The port that a lookup
is for and the port of a new entry are read in two places each. -/
namespace Osnt.Scone.OrNat
open Lib Lib.Buffer

/-- An IPv4 packet: one of the protocols that are translated, or of another. -/
inductive Ipv4Packet (packet : Bytes) : Prop
  | whole (h : Whole packet)
  | other (ipP : BitVec 8) (proto : load8 packet 23 = some ipP)
    (other : (isTcpOrUdp ipP || ipP == ipProtoIcmp) = false)

def isTranslated (packet : Bytes) : Bool :=
  (load8 packet 23).any fun ipP => isTcpOrUdp ipP || ipP == ipProtoIcmp

/-- A second copy finds the entry of the first, is translated as that was, and leaves the table as
long as it is. -/
structure SecondCopy (table : List NatEntry) (packet : Bytes) (extIp : BitVec 32)
    (rand : List (BitVec 16)) (table' : List NatEntry) (packet' : Bytes) : Prop where
  found : ∃ (table₁ : List NatEntry) (k : Nat),
    findOrCreate table packet extIp rand = some (table₁, k) ∧
      getNatTableEntry table' packet .internal = some (some k)
  again : ∀ (extIp' : BitVec 32) (rand' : List (BitVec 16)), ∃ table'' : List NatEntry,
    processNatIntPacket table' packet extIp' rand' = some (table'', packet') ∧
      table''.length = table'.length

/-- The packet is dealt with, without a missing entry: it is unchanged if it is of another protocol,
and translated the same way a second time if it is not. -/
def Settled (table : List NatEntry) (packet : Bytes) (extIp : BitVec 32)
    (rand : List (BitVec 16)) : Prop :=
  ∃ (table' : List NatEntry) (packet' : Bytes),
    processNatIntPacket table packet extIp rand = some (table', packet') ∧
      if isTranslated packet then SecondCopy table packet extIp rand table' packet'
      else packet' = packet

/-- The packet is translated, and there is an entry for it, or there is a port for a new one and the
new one is for the port that a lookup is for. -/
structure KeyAgrees (table : List NatEntry) (packet : Bytes) (rand : List (BitVec 16)) :
    Prop where
  translated : isTranslated packet = true
  entry : getNatTableEntry table packet .internal = some none →
    (drawPort table rand).isSome = true ∧
      (getNatIpPortPair packet .internal).map Prod.snd = getSrcPortNumber packet

section
variable {table : List NatEntry} {packet : Bytes} {extIp : BitVec 32} {rand : List (BitVec 16)}

theorem translate_hit (ne : NatEntry) (natType : NatType) (packet : Bytes) :
    translate ne.hit natType packet = translate ne natType packet := rfl

theorem getNatTableEntry_hit (table : List NatEntry) (k : Nat) (packet : Bytes)
    (natType : NatType) :
    getNatTableEntry (table.modify k NatEntry.hit) packet natType =
      getNatTableEntry table packet natType := by
  unfold getNatTableEntry
  refine congrArg _ (funext fun pair => congrArg some ?_)
  have hmap := map_modify_of_fixed (fun ne => foundNatTableMatch ne pair natType) NatEntry.hit
    (fun ne => by cases natType <;> rfl) table k
  have hfind := congrArg (List.findIdx? id) hmap
  rw [List.findIdx?_map, List.findIdx?_map] at hfind
  exact hfind

theorem isTranslated_of_whole (h : Whole packet) : isTranslated packet = true := by
  obtain ⟨ipP, hipP, hproto, -⟩ := h.protocol
  unfold isTranslated
  rw [hipP]
  exact hproto

/-- Where the entry of the first copy is found again, the second is translated alike. -/
theorem Whole.secondCopy (h : Whole packet) {table₁ : List NatEntry} {k : Nat} {ne : NatEntry}
    {packet' : Bytes} (hfind : findOrCreate table packet extIp rand = some (table₁, k))
    (hne : table₁[k]? = some ne) (htranslate : OrNat.translate ne .external packet = some packet')
    (hagain : getNatTableEntry table₁ packet .internal = some (some k)) :
    SecondCopy table packet extIp rand (table₁.modify k NatEntry.hit) packet' := by
  have hget : getNatTableEntry (table₁.modify k NatEntry.hit) packet .internal =
      some (some k) := by
    rw [getNatTableEntry_hit]
    exact hagain
  refine ⟨⟨table₁, k, hfind, hget⟩, fun extIp' rand' => ?_⟩
  have hends : (Event.int packet extIp' rand').Ends (table₁.modify k NatEntry.hit) := by
    intro hnone
    rw [hget] at hnone
    cases hnone
  obtain ⟨table₂, k', ne', hfind', hne', -, hprocess⟩ := h.int hends
  obtain ⟨rfl, rfl⟩ := Prod.mk.inj (Option.some.inj (hfind'.symm.trans (findOrCreate_found hget)))
  have hhit : ne' = ne.hit := by
    rw [List.getElem?_modify_eq, hne] at hne'
    exact (Option.some.inj hne').symm
  refine ⟨(table₁.modify k' NatEntry.hit).modify k' NatEntry.hit, ?_, List.length_modify _ _ _⟩
  rw [hprocess, hhit, translate_hit, htranslate]
  rfl

/-- A new entry is found if it is for the port that the lookup is for, and only then. -/
theorem getNatTableEntry_created {ip : BitVec 32} {port srcPort new : BitVec 16}
    (hpair : getNatIpPortPair packet .internal = some (ip, port))
    (hget : getNatTableEntry table packet .internal = some none) :
    getNatTableEntry (table ++ [⟨computeNatChecksums extIp new,
      computeNatChecksums ip srcPort, 0⟩]) packet .internal =
        some (if srcPort = port then some table.length else none) := by
  rw [getNatTableEntry_eq _ hpair] at hget
  have hnone := Option.some.inj hget
  rw [getNatTableEntry_eq _ hpair, List.findIdx?_append, hnone, List.findIdx?_cons,
    List.findIdx?_nil, Option.none_or]
  have hmatch : foundNatTableMatch ⟨computeNatChecksums extIp new,
      computeNatChecksums ip srcPort, 0⟩ (ip, port) .internal = decide (srcPort = port) := by
    change (ip == ip && srcPort == port) = _
    rw [beq_self_eq_true, Bool.true_and]
    rfl
  rw [hmatch]
  split
  · rename_i hsame
    rw [if_pos (of_decide_eq_true hsame)]
    exact congrArg some (congrArg some (Nat.zero_add _))
  · rename_i hdiffer
    rw [if_neg fun hsame => hdiffer (decide_eq_true hsame)]
    rfl

/-- An entry that is made has a port that could be drawn. -/
theorem drawPort_of_created {table₁ : List NatEntry} {k : Nat}
    (hnone : getNatTableEntry table packet .internal = some none)
    (hfind : findOrCreate table packet extIp rand = some (table₁, k)) :
    ∃ new, drawPort table rand = some new := by
  obtain ⟨hget, -⟩ | ⟨-, ne, hcreate, -⟩ := findOrCreate_cases hfind
  · cases hnone.symm.trans hget
  · obtain ⟨new, hnew, -⟩ := createNatTableEntry_spec hcreate
    exact ⟨new, hnew⟩

theorem Whole.keyAgrees (h : Whole packet) (hsettled : Settled table packet extIp rand) :
    KeyAgrees table packet rand := by
  obtain ⟨ip, port, hip, hpair⟩ := h.pair .internal
  obtain ⟨srcPort, hsrcPort⟩ := h.srcPort
  have hip : load32 packet 26 = some ip := hip
  have htranslated := isTranslated_of_whole h
  unfold Settled at hsettled
  simp only [htranslated, if_true] at hsettled
  obtain ⟨table', packet', hprocess, ⟨table₁, k, hfind, hagain⟩, -⟩ := hsettled
  refine ⟨htranslated, fun hnone => ?_⟩
  obtain ⟨new, hnew⟩ := drawPort_of_created hnone hfind
  have hends : (Event.int packet extIp rand).Ends table := fun _ => by rw [hnew]; rfl
  obtain ⟨table₁, k', ne, hfind', hne, -, hprocess'⟩ := h.int hends
  have hcreated := findOrCreate_created hnone
    (created hip hsrcPort hnew : createNatTableEntry table packet extIp rand = _)
  rw [hfind'] at hfind hcreated
  obtain ⟨rfl, rfl⟩ := Prod.mk.inj (Option.some.inj hcreated)
  obtain ⟨-, rfl⟩ := Prod.mk.inj (Option.some.inj hfind)
  obtain ⟨answer, -, hanswer⟩ := Option.map_eq_some_iff.mp (hprocess'.symm.trans hprocess)
  obtain ⟨rfl, -⟩ := Prod.mk.inj hanswer
  rw [getNatTableEntry_hit, getNatTableEntry_created hpair hnone] at hagain
  refine ⟨by rw [hnew]; rfl, ?_⟩
  rw [hpair, hsrcPort]
  split at hagain
  · rename_i hsame
    exact congrArg some hsame.symm
  · cases hagain

theorem Whole.settled (h : Whole packet) (hkey : KeyAgrees table packet rand) :
    Settled table packet extIp rand := by
  obtain ⟨ip, port, hip, hpair⟩ := h.pair .internal
  obtain ⟨srcPort, hsrcPort⟩ := h.srcPort
  have hip : load32 packet 26 = some ip := hip
  obtain ⟨-, hentry⟩ := hkey
  have hends : (Event.int packet extIp rand).Ends table := fun hnone => (hentry hnone).1
  obtain ⟨table₁, k, ne, hfind, hne, -, hprocess⟩ := h.int hends
  obtain ⟨packet', htranslate, -⟩ := h.translate ne .external
  unfold Settled
  simp only [isTranslated_of_whole h, if_true]
  refine ⟨table₁.modify k NatEntry.hit, packet', ?_, ?_⟩
  · rw [hprocess, htranslate]
    rfl
  · refine h.secondCopy hfind hne htranslate ?_
    cases hget : table.findIdx? fun ne => foundNatTableMatch ne (ip, port) .internal with
    | some j =>
      have hget := (getNatTableEntry_eq table hpair).trans (congrArg some hget)
      rw [findOrCreate_found hget] at hfind
      cases hfind
      exact hget
    | none =>
      have hget := (getNatTableEntry_eq table hpair).trans (congrArg some hget)
      obtain ⟨hport, hsame⟩ := hentry hget
      obtain ⟨new, hnew⟩ := Option.isSome_iff_exists.mp hport
      rw [findOrCreate_created hget (created hip hsrcPort hnew)] at hfind
      cases hfind
      rw [hpair, hsrcPort] at hsame
      rw [getNatTableEntry_created hpair hget, if_pos (Option.some.inj hsame).symm]

theorem Whole.settled_iff (h : Whole packet) :
    Settled table packet extIp rand ↔ KeyAgrees table packet rand :=
  ⟨h.keyAgrees, h.settled⟩

/-- For every table and every packet: it is dealt with as it should if and only if it is of a
protocol that is translated and either has an entry or gets one that the next lookup finds. -/
theorem settled_iff_keyAgrees (table : List NatEntry) (h : Ipv4Packet packet) (extIp : BitVec 32)
    (rand : List (BitVec 16)) : Settled table packet extIp rand ↔ KeyAgrees table packet rand := by
  cases h with
  | whole h => exact h.settled_iff
  | other ipP proto other =>
    have htranslated : isTranslated packet = false := by
      unfold isTranslated
      rw [proto]
      exact other
    have hprocess : processNatIntPacket table packet extIp rand = none := by
      unfold processNatIntPacket
      simp only [proto, other, Option.bind_eq_bind, Option.bind_some, Bool.false_eq_true, if_false]
    constructor
    · rintro ⟨table', packet', hsome, -⟩
      rw [hprocess] at hsome
      cases hsome
    · intro hagrees
      have hsome := hagrees.translated
      rw [htranslated] at hsome
      cases hsome

/-- For a packet with ports of its own the two keys are one. -/
theorem Portful.keyAgrees {src dst sum : Nat} (h : Portful packet src dst sum)
    (hport : getNatTableEntry table packet .internal = some none →
      (drawPort table rand).isSome = true) : KeyAgrees table packet rand := by
  refine ⟨isTranslated_of_whole (.portful h), fun hnone => ⟨hport hnone, ?_⟩⟩
  obtain ⟨pair, hpair⟩ := h.pair_isSome .internal
  rw [hpair, h.srcPort]
  exact (h.pair_loads hpair).2.symm

end

/-- That its port 1025 is not open, for a segment from port 80 of 93.184.216.34. -/
def unreachableFrom : Bytes :=
  List.replicate 12 0 ++ [8, 0, 69, 0, 0, 56, 0, 0, 0, 0, 64, 1, 58, 233, 10, 0, 0, 2, 93, 184,
    216, 34, 3, 3, 0, 0, 0, 0, 0, 0, 69, 0, 0, 40, 0, 0, 0, 0, 64, 6, 58, 244, 93, 184, 216, 34,
    10, 0, 0, 2, 0, 80, 4, 1, 0, 0, 0, 0]

theorem settled_iff_keyAgrees_first :
    Settled [] (segmentFrom [0, 0] [10, 0, 0, 2] [4, 1] [42, 179]) 0x010000c0 [2000] := by
  have h : Portful (segmentFrom [0, 0] [10, 0, 0, 2] [4, 1] [42, 179]) 34 36 50 :=
    .tcp (by decide +kernel) (by decide +kernel)
  exact (settled_iff_keyAgrees [] (.whole (.portful h)) 0x010000c0 [2000]).mpr
    (h.keyAgrees fun _ => by decide +kernel)

/-- A second copy of the message gets an entry of its own, and a packet of protocol 89 meets no
entry at all. -/
theorem second_copy_leaks :
    (∃ (table table' : List NatEntry) (packet packet' : Bytes),
      processNatIntPacket [] unreachableFrom 0x010000c0 [2000] = some (table, packet) ∧
      processNatIntPacket table unreachableFrom 0x010000c0 [2001] = some (table', packet') ∧
      table.length = 1 ∧ table'.length = 2) ∧
    processNatIntPacket [] (unreachableFrom.set 23 89) 0x010000c0 [2000] = none := by
  have hgrows : ((processNatIntPacket [] unreachableFrom 0x010000c0 [2000]).any fun first =>
      first.1.length == 1 &&
        (processNatIntPacket first.1 unreachableFrom 0x010000c0 [2001]).any fun second =>
          second.1.length == 2) = true := by decide +kernel
  obtain ⟨⟨table, packet⟩, hfirst, hgrows⟩ := (Option.any_eq_true _ _).mp hgrows
  obtain ⟨hone, hgrows⟩ := (Bool.and_eq_true _ _).mp hgrows
  obtain ⟨⟨table', packet'⟩, hsecond, htwo⟩ := (Option.any_eq_true _ _).mp hgrows
  exact ⟨⟨table, table', packet, packet', hfirst, hsecond, beq_iff_eq.mp hone,
    beq_iff_eq.mp htwo⟩, by decide +kernel⟩

end Osnt.Scone.OrNat
