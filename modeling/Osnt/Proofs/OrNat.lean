import Mathlib.Data.List.Nodup
import Osnt.Lib.FirstMatch
import Osnt.Scone.OrNat

namespace Osnt.Scone.OrNat
open Lib Lib.Buffer

/-- A whole TCP or UDP packet or ICMP echo: where its source and destination ports and its checksum
are. -/
inductive Portful (packet : Bytes) : Nat → Nat → Nat → Prop
  | tcp (proto : load8 packet 23 = some ipProtoTcp) (length : 52 ≤ packet.length) :
    Portful packet 34 36 50
  | udp (proto : load8 packet 23 = some ipProtoUdp) (length : 42 ≤ packet.length) :
    Portful packet 34 36 40
  | echo (proto : load8 packet 23 = some ipProtoIcmp) (icmpType : BitVec 8)
    (type : load8 packet 34 = some icmpType) (echo : isEcho icmpType = true)
    (length : 40 ≤ packet.length) : Portful packet 38 38 36

section
variable {packet packet' : Bytes} {src dst sum : Nat}

theorem Portful.of_frame (h : Portful packet src dst sum)
    (hlength : packet'.length = packet.length) (hproto : packet'[23]? = packet[23]?)
    (htype : src = 38 → packet'[34]? = packet[34]?) : Portful packet' src dst sum := by
  cases h with
  | tcp proto length => exact .tcp (hproto.trans proto) (hlength ▸ length)
  | udp proto length => exact .udp (hproto.trans proto) (hlength ▸ length)
  | echo proto icmpType type echo length =>
    exact .echo (hproto.trans proto) icmpType ((htype rfl).trans type) echo (hlength ▸ length)

theorem load16_isSome (b : Bytes) {o : Nat} (h : o + 2 ≤ b.length) : ∃ v, load16 b o = some v := by
  rw [load16_eq, if_pos h]
  exact ⟨_, rfl⟩

theorem adjust16_spec {o : Nat} (h : o + 2 ≤ packet.length) (pos neg : BitVec 16) :
    ∃ packet', adjust16 packet o pos neg = some packet' ∧ packet'.length = packet.length ∧
      ∀ k, k < o ∨ o + 2 ≤ k → packet'[k]? = packet[k]? := by
  obtain ⟨sum, hsum⟩ := load16_isSome packet h
  obtain ⟨packet', hstore⟩ := store16_isSome h (natChecksum sum pos neg)
  obtain ⟨hlength, hframe, _⟩ := store16_spec hstore
  refine ⟨packet', ?_, hlength, hframe⟩
  unfold adjust16
  rw [hsum]
  exact hstore

theorem Portful.bounds (h : Portful packet src dst sum) :
    src + 2 ≤ packet.length ∧ dst + 2 ≤ packet.length ∧ sum + 2 ≤ packet.length ∧
      33 < src ∧ 33 < dst ∧ 33 < sum ∧ 38 ≤ packet.length := by
  cases h with
  | tcp _ length => omega
  | udp _ length => omega
  | echo _ _ _ _ length => omega

theorem Portful.disjoint (h : Portful packet src dst sum) :
    (sum + 2 ≤ src ∨ src + 2 ≤ sum) ∧ (sum + 2 ≤ dst ∨ dst + 2 ≤ sum) ∧
      (src = 38 → 34 < sum) := by
  cases h with
  | tcp _ _ => omega
  | udp _ _ => omega
  | echo _ _ _ _ _ => omega

theorem Portful.payloadChecksum (h : Portful packet src dst sum) (new old : NatIpPortPair) :
    ∃ packet', rewritePayloadChecksum packet new old = some packet' ∧
      packet'.length = packet.length ∧
      ∀ k, k < sum ∨ sum + 2 ≤ k → packet'[k]? = packet[k]? := by
  have hsum := h.bounds.2.2.1
  unfold rewritePayloadChecksum
  cases h with
  | tcp proto length =>
    simp only [Option.bind_eq_bind, proto, Option.bind_some]
    exact adjust16_spec hsum new.checksum old.checksum
  | udp proto length =>
    simp only [Option.bind_eq_bind, proto, Option.bind_some]
    exact adjust16_spec hsum new.checksum old.checksum
  | echo proto icmpType type echo length =>
    simp only [Option.bind_eq_bind, proto, Option.bind_some, type, echo]
    exact adjust16_spec hsum new.checksumPort old.checksumPort

theorem Portful.checksums (h : Portful packet src dst sum) (new old : NatIpPortPair) :
    ∃ packet', rewriteChecksums packet new old = some packet' ∧
      packet'.length = packet.length ∧
      ∀ k, k < 24 ∨ 26 ≤ k → k < sum ∨ sum + 2 ≤ k → packet'[k]? = packet[k]? := by
  have hbounds := h.bounds
  obtain ⟨packet₁, hpayload, hlength₁, hframe₁⟩ := h.payloadChecksum new old
  obtain ⟨packet₂, hip, hlength₂, hframe₂⟩ := @adjust16_spec packet₁ 24
    (by omega) new.checksumIp old.checksum
  refine ⟨packet₂, ?_, hlength₂.trans hlength₁, fun k hk hk' => ?_⟩
  · unfold rewriteChecksums
    rw [hpayload]
    exact hip
  · rw [hframe₂ k hk, hframe₁ k hk']

theorem Portful.pair (h : Portful packet src dst sum) (natType : NatType) :
    getNatIpPortPair packet natType = do
      let ip ← load32 packet (if natType = .external then 30 else 26)
      let port ← load16 packet (if natType = .external then dst else src)
      return (ip, port) := by
  unfold getNatIpPortPair
  cases h with
  | tcp proto length => simp only [proto, Option.bind_eq_bind, Option.bind_some]; rfl
  | udp proto length => simp only [proto, Option.bind_eq_bind, Option.bind_some]; rfl
  | echo proto icmpType type echo length =>
    unfold getNatPortFromIcmp
    simp only [proto, type, echo, Option.bind_eq_bind, Option.bind_some, ite_self]
    rfl

theorem Portful.srcPort (h : Portful packet src dst sum) :
    getSrcPortNumber packet = load16 packet src := by
  unfold getSrcPortNumber
  cases h with
  | tcp proto length => simp only [proto, Option.bind_eq_bind, Option.bind_some]; rfl
  | udp proto length => simp only [proto, Option.bind_eq_bind, Option.bind_some]; rfl
  | echo proto icmpType type echo length =>
    simp only [proto, type, echo, Option.bind_eq_bind, Option.bind_some]
    rfl

/-- What a packet gets on its way. -/
def NatEntry.side (ne : NatEntry) (natType : NatType) : NatIpPortPair :=
  if natType = .external then ne.natExt else ne.natInt

theorem Portful.populate (h : Portful packet src dst sum) (ne : NatEntry) (natType : NatType)
    {ipOff portOff : Nat} (hip : ipOff = if natType = .external then 26 else 30)
    (hport : portOff = if natType = .external then src else dst) :
    ∃ packet', populateNatPacket packet ne natType = some packet' ∧
      packet'.length = packet.length ∧ load32 packet' ipOff = some (ne.side natType).ip ∧
      load16 packet' portOff = some (ne.side natType).port ∧
      ∀ k, k < ipOff ∨ ipOff + 4 ≤ k → k < portOff ∨ portOff + 2 ≤ k →
        packet'[k]? = packet[k]? := by
  have hbounds := h.bounds
  have hipOff : ipOff = 26 ∨ ipOff = 30 := by
    rw [hip]
    split
    · exact .inl rfl
    · exact .inr rfl
  have hportOff : 33 < portOff ∧ portOff + 2 ≤ packet.length := by
    rw [hport]
    split
    · exact ⟨hbounds.2.2.2.1, hbounds.1⟩
    · exact ⟨hbounds.2.2.2.2.1, hbounds.2.1⟩
  obtain ⟨packet₁, hstore₁⟩ := store32_isSome (b := packet) (o := ipOff) (by omega)
    (ne.side natType).ip
  obtain ⟨hlength₁, hframe₁, hload₁⟩ := store32_spec hstore₁
  obtain ⟨packet₂, hstore₂⟩ := store16_isSome (b := packet₁) (o := portOff) (by omega)
    (ne.side natType).port
  obtain ⟨hlength₂, hframe₂, hload₂⟩ := store16_spec hstore₂
  have h₁ : Portful packet₁ src dst sum :=
    h.of_frame hlength₁ (hframe₁ 23 (by omega)) fun _ => hframe₁ 34 (by omega)
  refine ⟨packet₂, ?_, hlength₂.trans hlength₁, ?_, hload₂, fun k hk hk' => ?_⟩
  · unfold populateNatPacket
    rw [← hip]
    change (store32 packet ipOff (ne.side natType).ip >>= _) = _
    rw [hstore₁]
    subst hport
    cases h₁ with
    | tcp proto length =>
      simp only [proto, Option.bind_eq_bind, Option.bind_some]
      exact hstore₂
    | udp proto length =>
      simp only [proto, Option.bind_eq_bind, Option.bind_some]
      exact hstore₂
    | echo proto icmpType type echo length =>
      rw [ite_self] at hstore₂
      simp only [proto, type, echo, Option.bind_eq_bind, Option.bind_some]
      exact hstore₂
  · rw [load32_congr fun k _ hk => hframe₂ k (by omega)]
    exact hload₁
  · rw [hframe₂ k hk', hframe₁ k hk]

theorem Portful.translate (h : Portful packet src dst sum) (ne : NatEntry) (natType : NatType)
    {ipOff portOff : Nat} (hip : ipOff = if natType = .external then 26 else 30)
    (hport : portOff = if natType = .external then src else dst) (new old : NatIpPortPair) :
    ∃ packet₁ packet₂, populateNatPacket packet ne natType = some packet₁ ∧
      rewriteChecksums packet₁ new old = some packet₂ ∧ Portful packet₂ src dst sum ∧
      load32 packet₂ ipOff = some (ne.side natType).ip ∧
      load16 packet₂ portOff = some (ne.side natType).port := by
  have hdisjoint := h.disjoint
  have hbounds := h.bounds
  have hipOff : ipOff = 26 ∨ ipOff = 30 := by
    rw [hip]
    split
    · exact .inl rfl
    · exact .inr rfl
  have hportOff : 33 < portOff ∧ (sum + 2 ≤ portOff ∨ portOff + 2 ≤ sum) ∧
      (src = 38 → portOff = 38) := by
    rw [hport]
    split
    · exact ⟨hbounds.2.2.2.1, hdisjoint.1, id⟩
    · refine ⟨hbounds.2.2.2.2.1, hdisjoint.2.1, fun hsrc => ?_⟩
      cases h with
      | tcp _ _ => cases hsrc
      | udp _ _ => cases hsrc
      | echo _ _ _ _ _ => rfl
  obtain ⟨packet₁, hpopulate, hlength₁, hip₁, hport₁, hframe₁⟩ := h.populate ne natType hip hport
  have h₁ : Portful packet₁ src dst sum :=
    h.of_frame hlength₁ (hframe₁ 23 (by omega) (by omega)) fun hsrc =>
      hframe₁ 34 (by omega) (by have := hportOff.2.2 hsrc; omega)
  obtain ⟨packet₂, hchecksums, hlength₂, hframe₂⟩ := h₁.checksums new old
  refine ⟨packet₁, packet₂, hpopulate, hchecksums, ?_, ?_, ?_⟩
  · exact h₁.of_frame hlength₂ (hframe₂ 23 (by omega) (by omega)) fun hsrc =>
      hframe₂ 34 (by omega) (by have := hdisjoint.2.2 hsrc; omega)
  · rw [load32_congr fun k _ hk => hframe₂ k (by omega) (by omega)]
    exact hip₁
  · rw [load16_congr fun k _ hk => hframe₂ k (by omega) (by omega)]
    exact hport₁

/-- On its way out a packet comes to be from the external side of its entry. -/
theorem Portful.translate_out (h : Portful packet src dst sum) (ne : NatEntry) :
    ∃ packet₁ packet₂, populateNatPacket packet ne .external = some packet₁ ∧
      rewriteChecksums packet₁ ne.natExt ne.natInt = some packet₂ ∧
      Portful packet₂ src dst sum ∧ getNatIpPortPair packet₂ .internal = some ne.ext := by
  obtain ⟨packet₁, packet₂, hpopulate, hchecksums, h₂, hip, hport⟩ :=
    h.translate ne .external (if_pos rfl).symm (if_pos rfl).symm ne.natExt ne.natInt
  refine ⟨packet₁, packet₂, hpopulate, hchecksums, h₂, ?_⟩
  rw [h₂.pair]
  simp only [reduceCtorEq, if_false, hip, hport, Option.bind_eq_bind, Option.bind_some]
  rfl

/-- On its way in a packet comes to be for the internal side of its entry. -/
theorem Portful.translate_in (h : Portful packet src dst sum) (ne : NatEntry) :
    ∃ packet₁ packet₂, populateNatPacket packet ne .internal = some packet₁ ∧
      rewriteChecksums packet₁ ne.natInt ne.natExt = some packet₂ ∧
      Portful packet₂ src dst sum ∧ getNatIpPortPair packet₂ .external = some ne.int := by
  obtain ⟨packet₁, packet₂, hpopulate, hchecksums, h₂, hip, hport⟩ :=
    h.translate ne .internal (if_neg (by decide)).symm (if_neg (by decide)).symm
      ne.natInt ne.natExt
  refine ⟨packet₁, packet₂, hpopulate, hchecksums, h₂, ?_⟩
  rw [h₂.pair]
  simp only [if_true, hip, hport, Option.bind_eq_bind, Option.bind_some]
  rfl

end

abbrev Pair := BitVec 32 × BitVec 16

def NatEntry.binding (ne : NatEntry) : Pair × Pair := (ne.ext, ne.int)

def bindings (table : List NatEntry) : List (Pair × Pair) := table.map NatEntry.binding

/-- No two entries have the same external side, and the external ports are above 1024. -/
structure Unambiguous (table : List NatEntry) : Prop where
  distinct : (table.map NatEntry.ext).Nodup
  above : ∀ ne ∈ table, 1024 < swap16 ne.natExt.port

theorem bindings_hit (table : List NatEntry) (k : Nat) :
    bindings (table.modify k NatEntry.hit) = bindings table :=
  map_modify_of_fixed NatEntry.binding NatEntry.hit (fun _ => rfl) table k

theorem map_ext_eq (table : List NatEntry) :
    table.map NatEntry.ext = (bindings table).map Prod.fst := by
  unfold bindings
  rw [List.map_map]
  rfl

theorem Unambiguous.of_bindings {table table' : List NatEntry} (h : Unambiguous table)
    (heq : bindings table' = bindings table) : Unambiguous table' := by
  refine ⟨?_, fun ne hne => ?_⟩
  · rw [map_ext_eq, heq, ← map_ext_eq]
    exact h.distinct
  · have hmem : ne.binding ∈ bindings table' := List.mem_map_of_mem hne
    rw [heq] at hmem
    obtain ⟨ne', hne', hbinding⟩ := List.mem_map.mp hmem
    have hport : ne'.natExt.port = ne.natExt.port := congrArg (fun b => b.1.2) hbinding
    rw [← hport]
    exact h.above ne' hne'

theorem foundNatTableMatch_iff (ne : NatEntry) (pair : Pair) (natType : NatType) :
    foundNatTableMatch ne pair natType = true ↔
      (if natType = .external then ne.ext else ne.int) = pair := by
  cases natType with
  | external =>
    unfold foundNatTableMatch
    rw [Bool.and_eq_true, beq_iff_eq, beq_iff_eq, if_pos rfl]
    exact (@Prod.ext_iff _ _ ne.ext pair).symm
  | internal =>
    unfold foundNatTableMatch
    rw [Bool.and_eq_true, beq_iff_eq, beq_iff_eq, if_neg NatType.noConfusion]
    exact (@Prod.ext_iff _ _ ne.int pair).symm

theorem getNatTableEntry_eq (table : List NatEntry) {packet : Bytes} {natType : NatType}
    {pair : Pair} (hpair : getNatIpPortPair packet natType = some pair) :
    getNatTableEntry table packet natType =
      some (table.findIdx? fun ne => foundNatTableMatch ne pair natType) := by
  unfold getNatTableEntry
  rw [hpair]
  rfl

/-- A lookup gives an entry whose side is the one looked for. -/
theorem getNatTableEntry_eq_some {table : List NatEntry} {packet : Bytes} {natType : NatType}
    {k : Nat} (h : getNatTableEntry table packet natType = some (some k)) :
    ∃ ne, table[k]? = some ne ∧
      getNatIpPortPair packet natType =
        some (if natType = .external then ne.ext else ne.int) := by
  obtain ⟨pair, hpair, hfind⟩ := Option.bind_eq_some_iff.mp h
  obtain ⟨hlt, hmatch, _⟩ := List.findIdx?_eq_some_iff_getElem.mp (Option.some.inj hfind)
  refine ⟨_, List.getElem?_eq_getElem hlt, ?_⟩
  rw [(foundNatTableMatch_iff _ pair natType).mp hmatch]
  exact hpair

/-- Whatever comes for the external side goes to the internal side. -/
def Returns (table : List NatEntry) (ext int : Pair) : Prop :=
  ∀ reply src dst sum, Portful reply src dst sum →
    getNatIpPortPair reply .external = some ext →
    ∃ table' reply', processNatExtPacket table reply = some (table', reply') ∧
      getNatIpPortPair reply' .external = some int

theorem Unambiguous.returns {table : List NatEntry} (h : Unambiguous table) {ext int : Pair}
    (hmem : (ext, int) ∈ bindings table) : Returns table ext int := by
  intro reply src dst sum hreply hpair
  obtain ⟨ne, hne, hbinding⟩ := List.mem_map.mp hmem
  obtain ⟨j, hj⟩ := List.mem_iff_getElem?.mp hne
  obtain ⟨hext, hint⟩ := Prod.mk.inj hbinding
  -- the first entry that matches is the only one
  obtain ⟨k, hk⟩ : ∃ k, getNatTableEntry table reply .external = some (some k) := by
    rw [getNatTableEntry_eq table hpair]
    cases hfind : table.findIdx? fun ne => foundNatTableMatch ne ext .external with
    | some k => exact ⟨k, rfl⟩
    | none =>
      have hfalse := List.findIdx?_eq_none_iff.mp hfind ne hne
      rw [(foundNatTableMatch_iff ne ext .external).mpr hext] at hfalse
      cases hfalse
  obtain ⟨ne', hne', hpair'⟩ := getNatTableEntry_eq_some hk
  have hext' : ne'.ext = ext := Option.some.inj (hpair'.symm.trans hpair)
  have hjk := eq_of_getElem?_of_nodup h.distinct hj hne' (hext.trans hext'.symm)
  subst hjk
  obtain rfl := Option.some.inj (hj.symm.trans hne')
  obtain ⟨reply₁, reply₂, hpopulate, hchecksums, _, hpair₂⟩ := hreply.translate_in ne
  refine ⟨table.modify j NatEntry.hit, reply₂, ?_, hpair₂.trans (congrArg some hint)⟩
  unfold processNatExtPacket
  simp only [Option.bind_eq_bind, hk, Option.bind_some, hj, hpopulate, hchecksums]
  rfl

/-- A port that is drawn is not yet the external port of an entry with the same address. -/
def DrawsFresh (table : List NatEntry) : Event → Prop
  | .int packet extIp rand => getNatTableEntry table packet .internal = some none →
      ∀ port, drawPort table rand = some port → ∀ ne ∈ table, ne.ext ≠ (extIp, swap16 port)
  | .ext _ => True

section
variable {table table' : List NatEntry} {packet : Bytes} {extIp : BitVec 32}
  {rand : List (BitVec 16)}

theorem createNatTableEntry_spec {ne : NatEntry}
    (h : createNatTableEntry table packet extIp rand = some ne) :
    ∃ port, drawPort table rand = some port ∧ ne.ext = (extIp, swap16 port) ∧
      ∀ src dst sum, Portful packet src dst sum →
        getNatIpPortPair packet .internal = some ne.int := by
  obtain ⟨port, hport, h⟩ := Option.bind_eq_some_iff.mp h
  obtain ⟨ipSrc, hipSrc, h⟩ := Option.bind_eq_some_iff.mp h
  obtain ⟨srcPort, hsrcPort, h⟩ := Option.bind_eq_some_iff.mp h
  cases h
  refine ⟨port, hport, rfl, fun src dst sum hportful => ?_⟩
  have hload : load16 packet src = some srcPort := hportful.srcPort.symm.trans hsrcPort
  rw [hportful.pair]
  simp only [reduceCtorEq, if_false, hipSrc, hload, Option.bind_eq_bind, Option.bind_some]
  rfl

theorem drawPort_above {port : BitVec 16} (h : drawPort table rand = some port) : 1024 < port := by
  have hport := List.find?_some h
  exact of_decide_eq_true (Bool.and_eq_true_iff.mp hport).1

/-- The entry for a packet on its way out is in the table, or is added behind it. -/
theorem findOrCreate_cases {k : Nat}
    (h : findOrCreate table packet extIp rand = some (table', k)) :
    getNatTableEntry table packet .internal = some (some k) ∧ table' = table ∨
      getNatTableEntry table packet .internal = some none ∧
        ∃ ne, createNatTableEntry table packet extIp rand = some ne ∧
          table' = table ++ [ne] ∧ k = table.length := by
  obtain ⟨found, hget, h⟩ := Option.bind_eq_some_iff.mp h
  cases found with
  | some j =>
    cases h
    exact .inl ⟨hget, rfl⟩
  | none =>
    obtain ⟨ne, hcreate, h⟩ := Option.bind_eq_some_iff.mp h
    cases h
    exact .inr ⟨hget, ne, hcreate, rfl, rfl⟩

theorem findOrCreate_entry {k : Nat}
    (h : findOrCreate table packet extIp rand = some (table', k)) :
    ∃ ne, table'[k]? = some ne ∧ ∀ src dst sum, Portful packet src dst sum →
      getNatIpPortPair packet .internal = some ne.int := by
  obtain ⟨hget, rfl⟩ | ⟨-, ne, hcreate, rfl, rfl⟩ := findOrCreate_cases h
  · obtain ⟨ne, hne, hpair⟩ := getNatTableEntry_eq_some hget
    exact ⟨ne, hne, fun _ _ _ _ => hpair⟩
  · obtain ⟨-, -, -, hint⟩ := createNatTableEntry_spec hcreate
    exact ⟨ne, List.getElem?_concat_length, hint⟩

theorem Unambiguous.findOrCreate (h : Unambiguous table)
    (hfresh : DrawsFresh table (.int packet extIp rand)) {k : Nat}
    (hfind : findOrCreate table packet extIp rand = some (table', k)) :
    Unambiguous table' ∧ ∀ b ∈ bindings table, b ∈ bindings table' := by
  obtain ⟨-, rfl⟩ | ⟨hget, ne, hcreate, rfl, -⟩ := findOrCreate_cases hfind
  · exact ⟨h, fun _ hb => hb⟩
  · obtain ⟨port, hport, hext, -⟩ := createNatTableEntry_spec hcreate
    refine ⟨⟨?_, fun ne' hne' => ?_⟩, fun b hb => ?_⟩
    · rw [List.map_append, List.map_singleton, List.nodup_append]
      refine ⟨h.distinct, List.nodup_singleton _, fun a ha b hb hab => ?_⟩
      obtain ⟨ne', hne', rfl⟩ := List.mem_map.mp ha
      apply hfresh hget port hport ne' hne'
      rw [hab, List.mem_singleton.mp hb, hext]
    · rcases List.mem_append.mp hne' with hne' | hne'
      · exact h.above ne' hne'
      · obtain rfl := List.mem_singleton.mp hne'
        have hswap : ne'.natExt.port = swap16 port := congrArg Prod.snd hext
        rw [hswap, swap16_swap16]
        exact drawPort_above hport
    · unfold bindings
      rw [List.map_append]
      exact List.mem_append_left _ hb

end

/-- What a packet on its way out was given, with what it had before. -/
def Gives (packet' : Bytes) (b : Pair × Pair) : Event → Prop
  | .int packet _ _ => (∃ src dst sum, Portful packet src dst sum) ∧
      getNatIpPortPair packet' .internal = some b.1 ∧ getNatIpPortPair packet .internal = some b.2
  | .ext _ => False

structure Translates (table table' : List NatEntry) (packet' : Bytes) (event : Event) : Prop where
  unambiguous : Unambiguous table'
  kept : ∀ b ∈ bindings table, b ∈ bindings table'
  given : ∀ b, Gives packet' b event → b ∈ bindings table'

theorem Unambiguous.step {table table' : List NatEntry} {event : Event} {packet' : Bytes}
    (h : Unambiguous table) (hfresh : DrawsFresh table event)
    (hstep : step table event = some (table', packet')) :
    Translates table table' packet' event := by
  cases event with
  | ext packet =>
    obtain ⟨found, hget, hstep⟩ := Option.bind_eq_some_iff.mp hstep
    cases found with
    | none =>
      cases hstep
      exact ⟨h, fun _ hb => hb, fun _ hb => hb.elim⟩
    | some k =>
      obtain ⟨ne, _, hstep⟩ := Option.bind_eq_some_iff.mp hstep
      obtain ⟨packet₁, _, hstep⟩ := Option.bind_eq_some_iff.mp hstep
      obtain ⟨packet₂, _, hstep⟩ := Option.bind_eq_some_iff.mp hstep
      cases hstep
      have hbindings := bindings_hit table k
      refine ⟨h.of_bindings hbindings, fun b hb => ?_, fun _ hb => hb.elim⟩
      rw [hbindings]
      exact hb
  | int packet extIp rand =>
    obtain ⟨ipP, _, hstep⟩ := Option.bind_eq_some_iff.mp hstep
    split at hstep
    · obtain ⟨⟨table₁, k⟩, hfind, hstep⟩ := Option.bind_eq_some_iff.mp hstep
      obtain ⟨ne, hne, hstep⟩ := Option.bind_eq_some_iff.mp hstep
      obtain ⟨packet₁, hpopulate, hstep⟩ := Option.bind_eq_some_iff.mp hstep
      obtain ⟨packet₂, hchecksums, hstep⟩ := Option.bind_eq_some_iff.mp hstep
      cases hstep
      obtain ⟨h₁, hkept⟩ := h.findOrCreate hfresh hfind
      obtain ⟨ne', hne', hint⟩ := findOrCreate_entry hfind
      obtain rfl := Option.some.inj (hne'.symm.trans hne)
      have hbindings := bindings_hit table₁ k
      refine ⟨h₁.of_bindings hbindings, fun b hb => ?_, fun b hgives => ?_⟩
      · rw [hbindings]
        exact hkept b hb
      · obtain ⟨⟨src, dst, sum, hportful⟩, hext', hint'⟩ := hgives
        obtain ⟨packet₁', packet₂', hpopulate', hchecksums', _, hext⟩ :=
          hportful.translate_out ne'
        obtain rfl := Option.some.inj (hpopulate'.symm.trans hpopulate)
        obtain rfl := Option.some.inj (hchecksums'.symm.trans hchecksums)
        have hb : b = ne'.binding := Prod.ext (Option.some.inj (hext'.symm.trans hext))
          (Option.some.inj (hint'.symm.trans (hint src dst sum hportful)))
        rw [hbindings, hb]
        exact List.mem_map_of_mem (List.mem_of_getElem? hne')
    · cases hstep

def AllDrawFresh : List NatEntry → List Event → Prop
  | _, [] => True
  | table, event :: events => ∀ table' packet', step table event = some (table', packet') →
    DrawsFresh table event ∧ AllDrawFresh table' events

/-- The table is unambiguous in every state of a run, and the replies to all that has been sent out
return to where it came from. -/
def AllReturn : List NatEntry → (Pair × Pair → Prop) → List Event → Prop
  | table, sent, [] => Unambiguous table ∧ ∀ b, sent b → Returns table b.1 b.2
  | table, sent, event :: events =>
    (Unambiguous table ∧ ∀ b, sent b → Returns table b.1 b.2) ∧
    ∀ table' packet', step table event = some (table', packet') →
      AllReturn table' (fun b => sent b ∨ Gives packet' b event) events

theorem AllReturn.unambiguous {table : List NatEntry} {sent : Pair × Pair → Prop}
    {events : List Event} (h : AllReturn table sent events) : Unambiguous table := by
  cases events with
  | nil => exact h.1
  | cons event events => exact h.1.1

theorem drawsFresh_of_unambiguous {table table' : List NatEntry} {event : Event} {packet' : Bytes}
    (hstep : step table event = some (table', packet')) (h : Unambiguous table') :
    DrawsFresh table event := by
  cases event with
  | ext packet => trivial
  | int packet extIp rand =>
    intro hget port hport ne hne heq
    obtain ⟨ipP, _, hstep⟩ := Option.bind_eq_some_iff.mp hstep
    split at hstep
    · obtain ⟨⟨table₁, k⟩, hfind, hstep⟩ := Option.bind_eq_some_iff.mp hstep
      obtain ⟨ne₁, _, hstep⟩ := Option.bind_eq_some_iff.mp hstep
      obtain ⟨packet₁, _, hstep⟩ := Option.bind_eq_some_iff.mp hstep
      obtain ⟨packet₂, _, hstep⟩ := Option.bind_eq_some_iff.mp hstep
      cases hstep
      obtain ⟨found, hget', hfind⟩ := Option.bind_eq_some_iff.mp hfind
      obtain rfl := Option.some.inj (hget.symm.trans hget')
      obtain ⟨new, hcreate, hfind⟩ := Option.bind_eq_some_iff.mp hfind
      cases hfind
      obtain ⟨port', hport', hext, _⟩ := createNatTableEntry_spec hcreate
      obtain rfl := Option.some.inj (hport.symm.trans hport')
      have hdistinct := h.distinct
      rw [map_ext_eq, bindings_hit, ← map_ext_eq, List.map_append, List.nodup_append] at hdistinct
      exact hdistinct.2.2 ne.ext (List.mem_map_of_mem hne) new.ext (List.mem_singleton_self _)
        (heq.trans hext.symm)
    · cases hstep

theorem Unambiguous.run_iff {events : List Event} {table : List NatEntry}
    {sent : Pair × Pair → Prop} (h : Unambiguous table)
    (hsent : ∀ b, sent b → b ∈ bindings table) :
    AllReturn table sent events ↔ AllDrawFresh table events := by
  have hreturns : ∀ b, sent b → Returns table b.1 b.2 := fun b hb => h.returns (hsent b hb)
  induction events generalizing table sent with
  | nil => exact iff_of_true ⟨h, hreturns⟩ trivial
  | cons event events ih =>
    have hnext : ∀ table' packet', OrNat.step table event = some (table', packet') →
        DrawsFresh table event →
          (AllReturn table' (fun b => sent b ∨ Gives packet' b event) events ↔
            AllDrawFresh table' events) := by
      intro table' packet' hstep hfresh
      have hstep' := h.step hfresh hstep
      have hsent' : ∀ b, sent b ∨ Gives packet' b event → b ∈ bindings table' := by
        rintro b (hb | hgives)
        · exact hstep'.kept b (hsent b hb)
        · exact hstep'.given b hgives
      exact ih hstep'.unambiguous hsent' fun b hb => hstep'.unambiguous.returns (hsent' b hb)
    constructor
    · rintro ⟨_, hall⟩ table' packet' hstep
      have hreturn := hall table' packet' hstep
      have hfresh := drawsFresh_of_unambiguous hstep hreturn.unambiguous
      exact ⟨hfresh, (hnext table' packet' hstep hfresh).mp hreturn⟩
    · intro hall
      refine ⟨⟨h, hreturns⟩, fun table' packet' hstep => ?_⟩
      obtain ⟨hfresh, hrest⟩ := hall table' packet' hstep
      exact (hnext table' packet' hstep hfresh).mpr hrest

/-- The bindings are unambiguous over a run, and replies return, exactly if no port is drawn for a
packet that an entry with the same external address already has. -/
theorem nat_bindings_unambiguous_iff (events : List Event) :
    AllReturn [] (fun _ => False) events ↔ AllDrawFresh [] events :=
  Unambiguous.run_iff ⟨List.nodup_nil, fun _ hne => nomatch hne⟩ fun _ hb => hb.elim

/-- A TCP packet of the host 10.0.1.`n`. -/
def tcpFrom (n : BitVec 8) : Bytes :=
  List.replicate 23 0 ++ [6, 0, 0, 10, 0, 1, n, 8, 8, 8, 8, 0x13, 0x88, 0, 80] ++
    List.replicate 16 0

/-- Two hosts draw the same port, 0x1234, which the table holds as 0x3412. -/
def drawTwice : List Event :=
  [.int (tcpFrom 2) 0x0100a8c0 [0x1234], .int (tcpFrom 3) 0x0100a8c0 [0x1234]]

theorem one_port_for_two_hosts : ¬ AllReturn [] (fun _ => False) drawTwice := by
  intro hreturn
  have hview : ((step [] (.int (tcpFrom 2) 0x0100a8c0 [0x1234])).bind fun r =>
      (step r.1 (.int (tcpFrom 3) 0x0100a8c0 [0x1234])).map fun r => r.1.map NatEntry.ext) =
      some [(0x0100a8c0, 0x3412), (0x0100a8c0, 0x3412)] := by decide +kernel
  obtain ⟨⟨table₁, packet₁⟩, hstep₁, hview⟩ := Option.bind_eq_some_iff.mp hview
  obtain ⟨⟨table₂, packet₂⟩, hstep₂, hview⟩ := Option.map_eq_some_iff.mp hview
  have hdistinct := ((hreturn.2 table₁ packet₁ hstep₁).2 table₂ packet₂ hstep₂).1.distinct
  rw [hview] at hdistinct
  exact absurd hdistinct (by decide)

end Osnt.Scone.OrNat
