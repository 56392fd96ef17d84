import Osnt.Lib.Flooding
import Osnt.Lib.Story
import Osnt.Proofs.LsuNetwork

/-! The entries of the routers and the packets on their way as a state of `Osnt.Lib.Flooding`, and
what taking an LSU in and sending one do to it. -/
namespace Osnt.Scone.LsuNetwork
open Lib Lib.Buffer Pwospf

/-- The interfaces of an LSU. -/
abbrev Text := List (BitVec 32 × BitVec 32 × BitVec 32)

section Wiring
variable {ι : Type} (routers : ι → Router) (owner : BitVec 32 → ι)

/-- The routers of an area that broadcast LSUs. Each has an interface, and no address is used twice;
no id is another one's, not even with its bytes swapped. -/
structure Wired : Prop where
  boots : ∀ i, Boots (routers i)
  linked : ∀ i, (routers i).ifList ≠ []
  ids : ∀ i j, (routers i).pwospf.routerId = (routers j).pwospf.routerId → i = j
  swapped : ∀ i j, swap32 (routers i).pwospf.routerId ≠ (routers j).pwospf.routerId
  area : ∀ i j, (routers i).pwospf.areaId = (routers j).pwospf.areaId
  broadcasts : ∀ i, (routers i).pwospf.pwospfLsuBroadcast = true
  owns : ∀ i, ∀ iface ∈ (routers i).ifList, iface.isActive = true → owner iface.ip = i

/-- The routers that a router sends its LSUs to. -/
def nbrs (i : ι) : List ι := ((routers i).targets none).map fun t => owner t.2.2

end Wiring

def pairOwner (ip : BitVec 32) : Bool := ip == pairIp true

theorem pair_wired : Wired pair pairOwner where
  boots := pair_boots
  linked := by decide
  ids := by decide +kernel
  swapped := by decide +kernel
  area := by decide
  broadcasts := by decide
  owns := by decide +kernel

theorem targets_some (r : Router) (srcIp : BitVec 32) :
    r.targets (some srcIp) = (r.targets none).filter fun t => some srcIp != some t.2.2 := by
  unfold Router.targets
  rw [List.filter_flatMap]
  refine List.flatMap_congr fun x _ => ?_
  obtain ⟨iface, k⟩ := x
  by_cases hactive : iface.isActive = true
  · have hall : ∀ nbr : Iface.NbrRouter, (none != some nbr.ip) = true := fun _ => rfl
    simp [hactive, List.filter_map, Function.comp_def, hall]
  · simp [hactive]

theorem targets_source {r : Router} {srcIp : Option (BitVec 32)}
    {t : Arp.Mac × BitVec 32 × BitVec 32} (h : t ∈ r.targets srcIp) :
    ∃ iface ∈ r.ifList, iface.isActive = true ∧ iface.ip = t.2.1 := by
  obtain ⟨⟨iface, k⟩, hmem, ht⟩ := List.mem_flatMap.mp h
  have hiface := List.mem_zipIdx' hmem
  dsimp only at ht
  by_cases hactive : iface.isActive = true
  · rw [if_pos hactive] at ht
    obtain ⟨nbr, -, rfl⟩ := List.mem_map.mp ht
    exact ⟨iface, hiface.2 ▸ List.getElem_mem _, hactive, rfl⟩
  · rw [if_neg hactive] at ht
    cases ht

theorem targets_none {r : Router} {srcIp : Option (BitVec 32)}
    {t : Arp.Mac × BitVec 32 × BitVec 32} (h : t ∈ r.targets srcIp) : t ∈ r.targets none := by
  cases srcIp with
  | none => exact h
  | some srcIp =>
    rw [targets_some] at h
    exact List.mem_of_mem_filter h

/-- Of the neighbours only the sender of an LSU does not get it. -/
theorem nbrs_passOn {ι : Type} (routers : ι → Router) (owner : BitVec 32 → ι) (i : ι)
    (srcIp : BitVec 32) :
    (((routers i).targets (some srcIp)).map fun t => owner t.2.2).Sublist (nbrs routers owner i) ∧
      ∀ j ∈ nbrs routers owner i,
        j = owner srcIp ∨ j ∈ ((routers i).targets (some srcIp)).map fun t => owner t.2.2 := by
  rw [targets_some]
  refine ⟨List.filter_sublist.map _, fun j hj => ?_⟩
  obtain ⟨t, ht, rfl⟩ := List.mem_map.mp hj
  by_cases hsrc : srcIp = t.2.2
  · exact .inl (congrArg owner hsrc.symm)
  · exact .inr (List.mem_map_of_mem (List.mem_filter.mpr ⟨ht, by simp [hsrc]⟩))

theorem forall₂_erase {α β : Type} {R : α → β → Prop} {l : List α} {l' : List β}
    (h : List.Forall₂ R l l') {k : Nat} {a : α} (hget : l[k]? = some a) :
    ∃ front b back, l' = front ++ b :: back ∧ R a b ∧
      List.Forall₂ R (l.eraseIdx k) (front ++ back) := by
  induction h generalizing k with
  | nil => simp at hget
  | @cons x y l l' hxy hall ih =>
    cases k with
    | zero =>
      obtain rfl : x = a := by simpa using hget
      exact ⟨[], y, l', rfl, hxy, hall⟩
    | succ k =>
      obtain ⟨front, b, back, rfl, hab, hrest⟩ := ih (k := k) (by simpa using hget)
      exact ⟨y :: front, b, back, rfl, hab, .cons hxy hrest⟩

/-- What someone with the first updates of a router has of it. -/
inductive Knows (h : Story Text) : Option Content → Nat → Prop
  | nothing : Knows h none 0
  | entry {c : Content} {n : Nat} {text : Text} (hseq : c.seq = BitVec.ofNat 16 n)
      (hsmall : n < 2 ^ 16) (hword : h.Says n text) (hsame : ∀ t, t ∈ c.interfaces ↔ t ∈ text) :
      Knows h (some c) (n + 1)

/-- Our own entry after `n` LSUs. -/
structure Voice (h : Story Text) (own : Content) (n : Nat) : Prop where
  sendable : Sendable own
  interfaces : own.interfaces = h.current
  seq : own.seq = BitVec.ofNat 16 n
  count : h.said.length = n
  nonempty : ∀ text ∈ h.texts, text ≠ []

section Mirror
variable {ι : Type} (routers : ι → Router) (owner : BitVec 32 → ι)

/-- A packet that is a message. -/
structure Carrying (h : ι → Story Text) (packet : Bytes) (m : Flooding.Message ι)
    (seq ttl : BitVec 16) (interfaces : List PwospfInterface) (sourceIp destIp : BitVec 32) :
    Prop where
  framed : Framed packet sourceIp destIp (carried (routers m.origin).pwospf seq interfaces ttl)
  src : owner sourceIp = m.src
  dst : owner destIp = m.dst
  target : ∃ i, ∃ t ∈ (routers i).targets none, t.2.2 = destIp
  number : m.number = seq.toNat + 1
  ttl : m.ttl = ttl.toNat
  pos : 0 < m.ttl
  told : (h m.origin).Says seq.toNat (interfaces.map PwospfInterface.content)
  masked : Masked interfaces
  short : 32 + 12 * interfaces.length < 2 ^ 16

def Carries (h : ι → Story Text) (packet : Bytes) (m : Flooding.Message ι) : Prop :=
  ∃ seq ttl interfaces sourceIp destIp,
    Carrying routers owner h packet m seq ttl interfaces sourceIp destIp

/-- The entries of the routers and the packets on their way are a state of the flooding. -/
structure Mirrors (h : ι → Story Text) (entry : ι → ι → Option Content) (flight : List Bytes)
    (s : Flooding.State ι) : Prop where
  own : ∀ i, ∃ own, entry i i = some own ∧ Voice (h i) own (s.level i i) ∧
    ∀ n, s.level i i = n + 1 → (h i).Says n (h i).current
  held : ∀ x y, x ≠ y → Knows (h y) (entry x y) (s.level x y)
  flight : List.Forall₂ (Carries routers owner h) flight s.flight

variable {routers owner} {h h' : ι → Story Text}

theorem Knows.mono {g g' : Story Text} (hgrow : ∀ n text, g.Says n text → g'.Says n text)
    {entry : Option Content} {n : Nat} (hk : Knows g entry n) : Knows g' entry n := by
  cases hk with
  | nothing => exact .nothing
  | entry hseq hsmall hword hsame => exact .entry hseq hsmall (hgrow _ _ hword) hsame

theorem Carries.mono (hgrow : ∀ j n text, (h j).Says n text → (h' j).Says n text) {packet : Bytes}
    {m : Flooding.Message ι} (hc : Carries routers owner h packet m) :
    Carries routers owner h' packet m := by
  obtain ⟨seq, ttl, interfaces, sourceIp, destIp, hcarry⟩ := hc
  exact ⟨seq, ttl, interfaces, sourceIp, destIp, { hcarry with told := hgrow _ _ _ hcarry.told }⟩

/-- The packets of a router are messages to its neighbours. -/
theorem carries_targets (hw : Wired routers owner) {i j : ι} {seq ttl : BitVec 16} (httl : ttl ≠ 0)
    {interfaces : List PwospfInterface}
    (hword : (h j).Says seq.toNat (interfaces.map PwospfInterface.content))
    (hmasked : Masked interfaces) (hshort : 32 + 12 * interfaces.length < 2 ^ 16)
    {targets : List (Arp.Mac × BitVec 32 × BitVec 32)} {srcIp : Option (BitVec 32)}
    (htargets : ∀ t ∈ targets, t ∈ (routers i).targets srcIp) {packets : List Bytes}
    (hall : List.Forall₂ (fun t packet => Framed packet t.2.1 t.2.2
      (carried (routers j).pwospf seq interfaces ttl)) targets packets) :
    List.Forall₂ (Carries routers owner h) packets
      (targets.map fun t => ⟨i, owner t.2.2, j, seq.toNat + 1, ttl.toNat⟩) := by
  induction hall with
  | nil => exact .nil
  | @cons t packet targets packets hframed hall ih =>
    refine .cons ⟨seq, ttl, interfaces, t.2.1, t.2.2, ?_⟩ (ih fun x hx => htargets x (.tail _ hx))
    obtain ⟨iface, hmem, hactive, hip⟩ := targets_source (htargets t List.mem_cons_self)
    refine ⟨hframed, hip ▸ hw.owns i iface hmem hactive, rfl,
      ⟨i, t, targets_none (htargets t List.mem_cons_self), rfl⟩, rfl, rfl, ?_, hword, hmasked,
      hshort⟩
    exact Nat.pos_of_ne_zero fun h0 => httl (BitVec.eq_of_toNat_eq h0)

variable {entry entry' : ι → ι → Option Content} {flight : List Bytes} {s : Flooding.State ι}
  [DecidableEq ι]

theorem Mirrors.say (hm : Mirrors routers owner h entry flight s) (hw : Wired routers owner) (i : ι)
    {g : Story Text} {own : Content} (hgrow : ∀ n text, (h i).Says n text → g.Says n text)
    (hvoice : Voice g own (s.level i i)) (hsmall : s.level i i < 2 ^ 16)
    {interfaces : List PwospfInterface}
    (hsame : interfaces.map PwospfInterface.content = own.interfaces)
    {packets : List Bytes}
    (hpackets : List.Forall₂ (fun t packet => Framed packet t.2.1 t.2.2
      (carried (routers i).pwospf own.seq interfaces 64)) ((routers i).targets none) packets)
    (hentry : ∀ x y, ¬ (x = i ∧ y = i) → entry' x y = entry x y)
    (hself : entry' i i = some { own with seq := own.seq + 1 }) :
    Mirrors routers owner (Function.update h i g.say) entry' (flight ++ packets)
      (Flooding.originate (nbrs routers owner) 64 i s) := by
  have hgrows : ∀ j n text, (h j).Says n text → (Function.update h i g.say j).Says n text := by
    intro j n text htext
    by_cases hj : j = i
    · subst hj
      rw [Function.update_self]
      exact (hgrow n text htext).say
    · rw [Function.update_of_ne hj]
      exact htext
  have hnumber : own.seq.toNat = s.level i i := by
    rw [hvoice.seq, BitVec.toNat_ofNat, Nat.mod_eq_of_lt hsmall]
  have htold : g.say.Says own.seq.toNat own.interfaces := by
    rw [hnumber, ← hvoice.count, hvoice.interfaces]
    exact g.says_say
  refine ⟨fun x => ?_, fun x y hxy => ?_, ?_⟩
  · by_cases hx : x = i
    · subst hx
      rw [Function.update_self]
      change ∃ own', _ ∧ Voice _ own' (Flooding.raise s.level x x (s.level x x + 1) x x) ∧
        ∀ n, Flooding.raise s.level x x (s.level x x + 1) x x = n + 1 → _
      rw [Flooding.raise_self]
      refine ⟨_, hself, ⟨⟨hvoice.sendable.short, hvoice.sendable.masked⟩, hvoice.interfaces, ?_, ?_,
        hvoice.nonempty⟩, ?_⟩
      · change own.seq + 1 = _
        rw [hvoice.seq]
        exact (BitVec.ofNat_add ..).symm
      · rw [Story.length_say, hvoice.count]
      · intro n hn
        rw [hnumber, hvoice.interfaces, Nat.succ.inj hn] at htold
        exact htold
    · rw [Function.update_of_ne hx]
      change ∃ own', _ ∧ Voice _ own' (Flooding.raise s.level i i (s.level i i + 1) x x) ∧
        ∀ n, Flooding.raise s.level i i (s.level i i + 1) x x = n + 1 → _
      rw [Flooding.raise_of_ne _ (fun h => hx h.1), hentry x x (fun h => hx h.1)]
      exact hm.own x
  · change Knows _ _ (Flooding.raise s.level i i (s.level i i + 1) x y)
    have hne : ¬ (x = i ∧ y = i) := fun h => hxy (h.1.trans h.2.symm)
    rw [Flooding.raise_of_ne _ hne, hentry x y hne]
    exact (hm.held x y hxy).mono (hgrows y)
  · refine List.rel_append (hm.flight.imp fun _ _ => Carries.mono hgrows) ?_
    rw [nbrs, List.map_map]
    obtain ⟨hmasked, hshort⟩ := hvoice.sendable.of_content hsame
    have hword : (Function.update h i g.say i).Says own.seq.toNat
        (interfaces.map PwospfInterface.content) := by
      rw [Function.update_self, hsame]
      exact htold
    have hcarries := carries_targets hw (by decide) hword hmasked hshort (fun t ht => ht) hpackets
    rw [hnumber] at hcarries
    exact hcarries

theorem Knows.lt {g : Story Text} {e : Option Content} {n : Nat} (hk : Knows g e n)
    {seq : BitVec 16} (hnew : ∀ c, e = some c → c.seq < seq) : n < seq.toNat + 1 := by
  cases hk with
  | nothing => exact Nat.succ_pos _
  | @entry c n text hseq hsmall =>
    have hlt := hnew c rfl
    rw [hseq, BitVec.lt_def, BitVec.toNat_ofNat, Nat.mod_eq_of_lt hsmall] at hlt
    exact Nat.succ_lt_succ hlt

theorem Knows.le {g : Story Text} {e : Option Content} {n : Nat} (hk : Knows g e n)
    {seq : BitVec 16} {c : Content} (hc : e = some c) (hold : ¬ c.seq < seq) :
    seq.toNat + 1 ≤ n := by
  cases hk with
  | nothing => cases hc
  | @entry c' n text hseq hsmall =>
    obtain rfl := Option.some.inj hc
    rw [hseq, BitVec.lt_def, BitVec.toNat_ofNat, Nat.mod_eq_of_lt hsmall] at hold
    exact Nat.succ_le_succ (Nat.not_lt.mp hold)

theorem Mirrors.accept {level : ι → ι → Nat} {front back : List (Flooding.Message ι)}
    {m : Flooding.Message ι} {k : Nat} {packet : Bytes}
    (hm : Mirrors routers owner h entry flight ⟨level, front ++ m :: back⟩)
    (hw : Wired routers owner) {seq ttl : BitVec 16} {interfaces : List PwospfInterface}
    {sourceIp destIp : BitVec 32}
    (hcarry : Carrying routers owner h packet m seq ttl interfaces sourceIp destIp)
    (hrest : List.Forall₂ (Carries routers owner h) (flight.eraseIdx k) (front ++ back))
    (hother : m.dst ≠ m.origin)
    (hentry : ∀ x y, ¬ (x = m.dst ∧ y = m.origin) → entry' x y = entry x y)
    {rid : BitVec 32} {held : Text} (hself : entry' m.dst m.origin = some ⟨rid, seq, held⟩)
    (hheld : ∀ t, t ∈ held ↔ t ∈ interfaces.map PwospfInterface.content) {copies : List Bytes}
    (hcopies : if ttl = 1 then copies = [] else
      List.Forall₂ (fun t packet => Framed packet t.2.1 t.2.2
        (carried (routers m.origin).pwospf seq interfaces (ttl - 1)))
        ((routers m.dst).targets (some sourceIp)) copies) :
    Mirrors routers owner h entry' (flight.eraseIdx k ++ copies)
      ⟨Flooding.raise level m.dst m.origin m.number, front ++ back ++
        if 1 < m.ttl then (((routers m.dst).targets (some sourceIp)).map fun t => owner t.2.2).map
          fun j => ⟨m.dst, j, m.origin, m.number, m.ttl - 1⟩ else []⟩ := by
  refine ⟨fun x => ?_, fun x y hxy => ?_, List.rel_append hrest ?_⟩
  · have hne : ¬ (x = m.dst ∧ x = m.origin) := fun h => hother (h.1.symm.trans h.2)
    dsimp only
    rw [Flooding.raise_of_ne _ hne, hentry x x hne]
    exact hm.own x
  · dsimp only
    by_cases hat : x = m.dst ∧ y = m.origin
    · obtain ⟨rfl, rfl⟩ := hat
      rw [Flooding.raise_self, hself, hcarry.number]
      exact .entry (BitVec.ofNat_toNat 16 seq ▸ (by simp)) seq.isLt hcarry.told hheld
    · rw [Flooding.raise_of_ne _ hat, hentry x y hat]
      exact hm.held x y hxy
  · have hpos : 0 < ttl.toNat := hcarry.ttl ▸ hcarry.pos
    by_cases hone : ttl = 1
    · rw [if_pos hone] at hcopies
      rw [hcopies, if_neg (by rw [hcarry.ttl, hone]; decide)]
      exact .nil
    · rw [if_neg hone] at hcopies
      have hnot : ttl.toNat ≠ 1 := fun h1 => hone (BitVec.eq_of_toNat_eq h1)
      have hless : (ttl - 1).toNat = m.ttl - 1 := by
        rw [hcarry.ttl]
        bv_omega
      have hne : ttl - 1 ≠ 0 := fun h0 => by
        rw [h0, hcarry.ttl] at hless
        change 0 = _ at hless
        omega
      rw [if_pos (by rw [hcarry.ttl]; omega), List.map_map]
      have hcarries := carries_targets hw hne hcarry.told hcarry.masked hcarry.short
        (fun t ht => ht) hcopies
      rw [hless, ← hcarry.number] at hcarries
      exact hcarries

end Mirror

end Osnt.Scone.LsuNetwork
