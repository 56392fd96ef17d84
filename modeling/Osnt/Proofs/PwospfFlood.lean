import Osnt.Proofs.PwospfRouterList

/-! Flooding of LSUs through one router: what it passes on in a run of packets and time-outs. -/
namespace Osnt.Scone.Pwospf
open Lib Lib.Buffer

/-- The length and the number of advertisements that a packet claims agree with its length. -/
structure WellFormed (packet : Bytes) : Prop where
  claimed : 34 + claimedLen packet 34 ≤ packet.length
  advs : 32 + 12 * claimedNum packet ≤ claimedLen packet 34

theorem WellFormed.length {packet : Bytes} (h : WellFormed packet) :
    66 + 12 * claimedNum packet ≤ packet.length := by
  have hclaimed := h.claimed
  have hadvs := h.advs
  omega

theorem WellFormed.checkable {packet : Bytes} (h : WellFormed packet) : Checkable packet := by
  have hlen := h.length
  have hclaimed := h.claimed
  have hspan := span_le (claimedLen packet 34 / 2)
  exact ⟨by omega, fun _ => ⟨by omega, by omega⟩, fun _ _ => by omega⟩

theorem WellFormed.takeable {packet : Bytes} (h : WellFormed packet) (rs : RouterState) :
    Takeable rs packet := by
  have hlen := h.length
  exact ⟨by omega, fun _ => hlen, fun _ _ => h.claimed⟩

theorem WellFormed.cleared {packet : Bytes} (h : WellFormed packet) :
    WellFormed (cleared packet) := by
  refine ⟨?_, ?_⟩
  · simpa using h.claimed
  · simpa using h.advs

def copyOrigin (copy : Bytes) : BitVec 32 := swap32 (be32 copy 4)

def copySeq (copy : Bytes) : BitVec 16 := be16 copy 24

def copyTtl (copy : Bytes) : BitVec 16 := be16 copy 26

/-- A copy says what the packet says, but for the TTL, and has a good checksum. -/
structure CopyOf (packet : Bytes) (ttl : BitVec 16) (copy : Bytes) : Prop where
  origin : copyOrigin copy = origin packet
  seq : copySeq copy = lsuSeq packet
  ttl : copyTtl copy = ttl
  checksum : ChecksumGood copy 0

theorem forwardCopy_wellFormed {packet : Bytes} (h : WellFormed packet) (ttl : BitVec 16) :
    ∃ copy, forwardCopy packet ttl = some (.copy copy) ∧ CopyOf packet ttl copy := by
  have hlen := h.length
  have hclaimed := h.claimed
  have hadvs := h.advs
  let taken := (packet.drop 34).take (claimedLen packet 34)
  let stamped := put16 taken 26 (swap16 ttl)
  have htaken : taken.length = claimedLen packet 34 := by
    rw [List.length_take, List.length_drop]
    omega
  have hstamped : stamped.length = claimedLen packet 34 := by
    rw [length_put16, htaken]
  have hfield : claimedLen stamped 0 = claimedLen packet 34 := by
    have hput : be16 stamped 2 = be16 taken 2 := be16_put16 taken _ (by omega)
    have hslice : be16 taken 2 = be16 packet 36 := be16_slice packet (by omega)
    rw [claimedLen, Nat.zero_add, hput, hslice, claimedLen]
  have hspan := span_le (claimedLen packet 34 / 2)
  have hupdate : updateTtl taken ttl =
      some (put16 stamped 12 (swap16 (rightSum stamped 0))) := by
    have hstore : store16 taken 26 (swap16 ttl) = some stamped := by
      rw [store16, if_pos (by omega)]
    have hfill := fillChecksum_eq stamped
    rw [hfield, hstamped, if_pos (by omega)] at hfill
    unfold updateTtl
    rw [hstore]
    exact hfill
  refine ⟨put16 stamped 12 (swap16 (rightSum stamped 0)), ?_, ?_, ?_, ?_, ?_⟩
  · have hload : load16 packet 36 = some (swap16 (be16 packet 36)) := by
      rw [load16_eq, if_pos (by omega)]
    have hnum : (be16 packet 36).toNat = claimedLen packet 34 := rfl
    have hslice : slice packet 34 (claimedLen packet 34) = some taken := by
      rw [slice, if_pos hclaimed]
    unfold forwardCopy
    simp only [hload, Option.bind_eq_bind, Option.bind_some, swap16_swap16, hnum, hslice, hupdate]
    rfl
  · rw [copyOrigin, be32_put16 _ _ (by omega), be32_put16 _ _ (by omega),
      be32_slice packet (by omega), origin]
  · rw [copySeq, be16_put16 _ _ (by omega), be16_put16 _ _ (by omega),
      be16_slice packet (by omega), lsuSeq]
  · rw [copyTtl, be16_put16 _ _ (by omega), be16_put16_self _ _ (by omega), swap16_swap16]
  · apply ChecksumGood.fill
    omega

theorem forwardLsu_wellFormed {packet : Bytes} (h : WellFormed packet) {f : Forward}
    (hf : forwardLsu packet true = some f) :
    (lsuTtl packet = 1 ∧ f = .none) ∨
      (lsuTtl packet ≠ 1 ∧ ∃ copy, f = .copy copy ∧ CopyOf packet (lsuTtl packet - 1) copy) := by
  have hlen := h.length
  obtain ⟨copy, hcopy, hof⟩ := forwardCopy_wellFormed h (lsuTtl packet - 1)
  have hpos := ttl_pos_iff (lsuTtl packet)
  unfold forwardLsu at hf
  rw [load16_eq, if_pos (by omega)] at hf
  simp only [Option.bind_eq_bind, Option.bind_some, swap16_swap16] at hf
  change ite (True ∧ 0 < lsuTtl packet - 1) (forwardCopy packet (lsuTtl packet - 1)) _ = _ at hf
  by_cases hone : lsuTtl packet = 1
  · rw [if_neg (fun h => hpos.mp h.2 hone)] at hf
    cases hf
    exact .inl ⟨hone, rfl⟩
  · rw [if_pos ⟨trivial, hpos.mpr hone⟩, hcopy] at hf
    cases hf
    exact .inr ⟨hone, copy, rfl, hof⟩

/-- The sequence number of the last LSU taken in from a router. -/
def RouterState.lastSeq (rs : RouterState) (rid : BitVec 32) : Option (BitVec 16) :=
  (rs.entry rid).map Content.seq

theorem fresh_iff_lastSeq (rs : RouterState) (packet : Bytes) :
    Fresh rs.pwospfRouterList packet ↔
      ∀ q, rs.lastSeq (origin packet) = some q → q < lsuSeq packet := by
  unfold Fresh RouterState.lastSeq RouterState.entry
  cases getRouterByRid (origin packet) rs.pwospfRouterList with
  | none => simp
  | some router => simp [PwospfRouter.content]

/-- What a valid packet does to the numbers held, and whether it is passed on. -/
inductive RelayStep (rs : RouterState) (packet : Bytes) (o : Outcome) : Prop
  | ignored (hrs : o.rs = rs) (hforwarded : o.forwarded = .none)
      (hnot : rs.routerId ≠ origin packet → ¬ Fresh rs.pwospfRouterList packet)
  | taken (hother : rs.routerId ≠ origin packet) (hfresh : Fresh rs.pwospfRouterList packet)
      (hids : o.rs.routerId = rs.routerId ∧ o.rs.areaId = rs.areaId)
      (hlast : o.rs.lastSeq (origin packet) = some (lsuSeq packet))
      (hframes : ∀ rid, rid ≠ origin packet → rid ≠ rs.routerId →
        o.rs.lastSeq rid = rs.lastSeq rid)
      (hforwarded : (lsuTtl packet = 1 ∧ o.forwarded = .none) ∨
        (lsuTtl packet ≠ 1 ∧ ∃ copy, o.forwarded = .copy copy ∧
          CopyOf packet (lsuTtl packet - 1) copy))

theorem RelayStep.ids {rs : RouterState} {packet : Bytes} {o : Outcome}
    (h : RelayStep rs packet o) : o.rs.routerId = rs.routerId ∧ o.rs.areaId = rs.areaId := by
  cases h with
  | ignored hrs _ _ => rw [hrs]; exact ⟨rfl, rfl⟩
  | taken _ _ hids _ _ _ => exact hids

theorem copyOf_cleared {packet copy : Bytes} {ttl : BitVec 16}
    (h : CopyOf (cleared packet) ttl copy) : CopyOf packet ttl copy :=
  ⟨h.origin.trans (origin_cleared packet), h.seq.trans (lsuSeq_cleared packet), h.ttl, h.checksum⟩

theorem processPwospfPacket_valid {rs : RouterState} {packet : Bytes} (hvalid : ValidLsu rs packet)
    (hwf : WellFormed packet) :
    ∃ o, processPwospfPacket rs packet = some o ∧ LsuStep rs (cleared packet) o := by
  have hlen := hwf.length
  have heq := processPwospfPacket_of_checkable rs packet hwf.checkable
  have hsome := processPwospfLsuPacket_isSome rs (cleared packet) (by simp; omega)
  obtain ⟨o, ho⟩ := Option.isSome_iff_exists.mp (hsome.mpr fun _ => hwf.cleared.takeable rs)
  refine ⟨o, ?_, lsu_step_cases (by simp; omega) ho⟩
  rw [heq, if_pos ⟨hvalid.acceptable, hvalid.type⟩, ho]

theorem relay_step_cases {rs : RouterState} {packet : Bytes} (hvalid : ValidLsu rs packet)
    (hwf : WellFormed packet) :
    ∃ o, processPwospfPacket rs packet = some o ∧ RelayStep rs packet o := by
  obtain ⟨o, ho, hstep⟩ := processPwospfPacket_valid hvalid hwf
  refine ⟨o, ho, ?_⟩
  cases hstep with
  | own hown ho =>
    rw [origin_cleared] at hown
    subst ho
    exact .ignored rfl rfl fun h => absurd hown h
  | stale hother hstale hrs haccepted hforwarded =>
    rw [fresh_cleared] at hstale
    exact .ignored hrs hforwarded fun _ => hstale
  | fresh interfaces changed hother hfresh hpopulate haccepted hforwarded hentry hframes hids =>
    rw [origin_cleared] at hother hentry hframes
    rw [fresh_cleared] at hfresh
    refine .taken hother hfresh hids ?_ (fun rid hne hrid => ?_) ?_
    · rw [RouterState.lastSeq, hentry]
      exact congrArg some (lsuSeq_cleared packet)
    · rw [RouterState.lastSeq, hframes rid hne hrid, RouterState.lastSeq]
    · have hcases := forwardLsu_wellFormed hwf.cleared hforwarded
      rw [lsuTtl_cleared] at hcases
      rcases hcases with hnone | ⟨hne, copy, hcopy, hof⟩
      · exact .inl hnone
      · exact .inr ⟨hne, copy, hcopy, copyOf_cleared hof⟩

/-- Every packet of a run is a valid LSU. -/
def AllValid (rs : RouterState) (events : List Event) : Prop :=
  ∀ packet, Event.packet packet ∈ events → ValidLsu rs packet ∧ WellFormed packet

theorem ValidLsu.of_ids {rs rs' : RouterState} {packet : Bytes} (h : ValidLsu rs packet)
    (hids : rs'.routerId = rs.routerId ∧ rs'.areaId = rs.areaId) : ValidLsu rs' packet := by
  obtain ⟨⟨hver, hsum, hatype, harea, hother⟩, htype⟩ := h
  exact ⟨⟨hver, hsum, hatype, harea.trans hids.2.symm, fun he => hother (he.trans hids.1)⟩, htype⟩

theorem AllValid.of_ids {rs rs' : RouterState} {events : List Event} (h : AllValid rs events)
    (hids : rs'.routerId = rs.routerId ∧ rs'.areaId = rs.areaId) : AllValid rs' events := by
  intro packet hmem
  obtain ⟨hvalid, hwf⟩ := h packet hmem
  exact ⟨hvalid.of_ids hids, hwf⟩

theorem AllValid.tail {rs : RouterState} {event : Event} {events : List Event}
    (h : AllValid rs (event :: events)) : AllValid rs events :=
  fun packet hmem => h packet (List.mem_cons_of_mem _ hmem)

/-- What is left of a run behind a flood. -/
def Flood.left (flooded : Flood) (events : List Event) : List Event :=
  if flooded = .aborts then [] else events

theorem Flood.mem_left {flooded : Flood} {events : List Event} {event : Event}
    (h : event ∈ flooded.left events) : event ∈ events := by
  unfold Flood.left at h
  split at h
  · cases h
  · exact h

/-- The copy that one packet adds to those passed on. -/
inductive Adds (packet : Bytes) (f : Forward) (rest sent : List (Bytes × Bytes)) : Prop
  | nothing (hf : f = .none) (hsent : sent = rest)
  | copy (copy : Bytes) (hf : f = .copy copy) (hsent : sent = (packet, copy) :: rest)

/-- A run of valid packets and what it passes on, step by step. -/
inductive RelayRun : RouterState → List Event → List (Bytes × Bytes) → Prop
  | nil (rs : RouterState) : RelayRun rs [] []
  | packet {rs : RouterState} {packet : Bytes} {o : Outcome} {events : List Event}
      {rest sent : List (Bytes × Bytes)} (ho : processPwospfPacket rs packet = some o)
      (hstep : RelayStep rs packet o) (hadds : Adds packet o.forwarded rest sent)
      (htail : RelayRun o.rs (o.flooded.left events) rest) :
      RelayRun rs (.packet packet :: events) sent
  | timeout {rs : RouterState} {timedOut : BitVec 32 → Bool} {events : List Event}
      {sent : List (Bytes × Bytes)}
      (htail : RelayRun (lsuTimeout timedOut rs).1
        ((lsuTimeout timedOut rs).2.left events) sent) :
      RelayRun rs (.timeout timedOut :: events) sent

theorem RelayStep.adds {rs : RouterState} {packet : Bytes} {o : Outcome}
    (h : RelayStep rs packet o) (rest : List (Bytes × Bytes)) :
    ∃ sent, Adds packet o.forwarded rest sent := by
  cases h with
  | ignored _ hforwarded _ => exact ⟨rest, .nothing hforwarded rfl⟩
  | taken _ _ _ _ _ hforwarded =>
    rcases hforwarded with ⟨-, hnone⟩ | ⟨-, copy, hcopy, -⟩
    · exact ⟨rest, .nothing hnone rfl⟩
    · exact ⟨_, .copy copy hcopy rfl⟩

/-- A failed assertion ends the run without another copy. -/
theorem relay_left {rs : RouterState} {events : List Event} (flooded : Flood)
    (h : ∃ sent, relay rs events = some sent ∧ RelayRun rs events sent) :
    ∃ sent, (if flooded = .aborts then some [] else relay rs events) = some sent ∧
      RelayRun rs (flooded.left events) sent := by
  unfold Flood.left
  by_cases haborts : flooded = .aborts
  · rw [if_pos haborts, if_pos haborts]
    exact ⟨[], rfl, .nil rs⟩
  · rw [if_neg haborts, if_neg haborts]
    exact h

theorem relay_run {rs : RouterState} {events : List Event} (hvalid : AllValid rs events) :
    ∃ sent, relay rs events = some sent ∧ RelayRun rs events sent := by
  induction events generalizing rs with
  | nil => exact ⟨[], rfl, .nil rs⟩
  | cons event events ih =>
    cases event with
    | packet packet =>
      obtain ⟨hv, hwf⟩ := hvalid packet List.mem_cons_self
      obtain ⟨o, ho, hstep⟩ := relay_step_cases hv hwf
      obtain ⟨rest, hrest, hrun⟩ := relay_left o.flooded (ih (hvalid.tail.of_ids hstep.ids))
      obtain ⟨sent, hadds⟩ := hstep.adds rest
      refine ⟨sent, ?_, .packet ho hstep hadds hrun⟩
      cases hadds with
      | nothing hf hsent =>
        subst hsent
        simp only [relay, ho, hrest, hf, Option.bind_eq_bind, Option.bind_some]
        rfl
      | copy copy hf hsent =>
        subst hsent
        simp only [relay, ho, hrest, hf, Option.bind_eq_bind, Option.bind_some]
        rfl
    | timeout timedOut =>
      obtain ⟨sent, hsent, hrun⟩ := relay_left (lsuTimeout timedOut rs).2
        (ih (hvalid.tail.of_ids (lsuTimeout_ids timedOut rs)))
      exact ⟨sent, hsent, .timeout hrun⟩

/-- The sequence numbers of a router's LSUs among those passed on. -/
def seqsOf (rid : BitVec 32) (sent : List (Bytes × Bytes)) : List (BitVec 16) :=
  (sent.filter fun p => copyOrigin p.2 == rid).map fun p => copySeq p.2

theorem seqsOf_cons (rid : BitVec 32) (packet copy : Bytes) (rest : List (Bytes × Bytes)) :
    seqsOf rid ((packet, copy) :: rest) =
      if copyOrigin copy = rid then copySeq copy :: seqsOf rid rest else seqsOf rid rest := by
  unfold seqsOf
  by_cases h : copyOrigin copy = rid
  · simp [h]
  · simp [h]

/-- The router is not dropped. -/
def Stays (rid : BitVec 32) (events : List Event) : Prop :=
  ∀ timedOut, Event.timeout timedOut ∈ events → timedOut rid = false

theorem RelayRun.copies {rs : RouterState} {events : List Event} {sent : List (Bytes × Bytes)}
    (h : RelayRun rs events sent) :
    ∀ p ∈ sent, lsuTtl p.1 ≠ 1 ∧ CopyOf p.1 (lsuTtl p.1 - 1) p.2 := by
  induction h with
  | nil rs =>
    intro p hp
    cases hp
  | packet ho hstep hadds htail ih =>
    cases hadds with
    | nothing hf hsent => rw [hsent]; exact ih
    | copy copy hf hsent =>
      subst hsent
      intro p hp
      rcases List.mem_cons.mp hp with rfl | hp
      · cases hstep with
        | ignored _ hforwarded _ =>
          rw [hforwarded] at hf
          cases hf
        | taken _ _ _ _ _ hforwarded =>
          rcases hforwarded with ⟨-, hnone⟩ | ⟨hne, copy', hcopy, hof⟩
          · rw [hnone] at hf
            cases hf
          · rw [hcopy] at hf
            cases hf
            exact ⟨hne, hof⟩
      · exact ih p hp
  | timeout htail ih => exact ih

/-- The number is larger than all that the router holds for `rid`, which is not the router
itself. -/
def Exceeds (rs : RouterState) (rid : BitVec 32) (s : BitVec 16) : Prop :=
  rid ≠ rs.routerId ∧ ∀ q, rs.lastSeq rid = some q → q < s

/-- A number larger than those held after an LSU was taken in is larger than its number, if it is
of the same router, and than those held before. -/
theorem exceeds_before {rs rs' : RouterState} {packet : Bytes} {rid : BitVec 32} {s : BitVec 16}
    (h : Exceeds rs' rid s) (hfresh : Fresh rs.pwospfRouterList packet)
    (hid : rs'.routerId = rs.routerId)
    (hlast : rs'.lastSeq (origin packet) = some (lsuSeq packet))
    (hframes : ∀ rid, rid ≠ origin packet → rid ≠ rs.routerId →
      rs'.lastSeq rid = rs.lastSeq rid) :
    Exceeds rs rid s ∧ (rid = origin packet → lsuSeq packet < s) := by
  obtain ⟨hne, hgt⟩ := h
  rw [hid] at hne
  by_cases hrid : rid = origin packet
  · have hlt := hgt (lsuSeq packet) (hrid ▸ hlast)
    refine ⟨⟨hne, fun q hq => ?_⟩, fun _ => hlt⟩
    exact BitVec.lt_trans ((fresh_iff_lastSeq rs packet).mp hfresh q (hrid ▸ hq)) hlt
  · refine ⟨⟨hne, fun q hq => hgt q ?_⟩, fun he => absurd he hrid⟩
    rw [hframes rid hrid hne]
    exact hq

/-- The numbers passed on for a router grow, from the number held for it on. -/
theorem RelayRun.increasing {rs : RouterState} {events : List Event}
    {sent : List (Bytes × Bytes)} (h : RelayRun rs events sent) {rid : BitVec 32}
    (hstays : Stays rid events) :
    (seqsOf rid sent).Pairwise (· < ·) ∧
      ∀ s ∈ seqsOf rid sent, Exceeds rs rid s := by
  induction h with
  | nil rs => exact ⟨List.Pairwise.nil, fun s hs => nomatch hs⟩
  | @packet rs packet o events rest sent ho hstep hadds htail ih =>
    obtain ⟨hpair, hbound⟩ := ih fun timedOut hmem =>
      hstays timedOut (List.mem_cons_of_mem _ (Flood.mem_left hmem))
    cases hstep with
    | ignored hrs hforwarded hnot =>
      cases hadds with
      | copy copy hf _ => rw [hforwarded] at hf; cases hf
      | nothing hf hsent =>
        rw [hsent, ← hrs]
        exact ⟨hpair, hbound⟩
    | taken hother hfresh hids hlast hframes hforwarded =>
      have hrest := fun s hs => exceeds_before (hbound s hs) hfresh hids.1 hlast hframes
      cases hadds with
      | nothing hf hsent =>
        rw [hsent]
        exact ⟨hpair, fun s hs => (hrest s hs).1⟩
      | copy copy hf hsent =>
        rcases hforwarded with ⟨-, hnone⟩ | ⟨-, copy', hcopy, hof⟩
        · rw [hnone] at hf
          cases hf
        rw [hcopy] at hf
        cases hf
        subst hsent
        by_cases hrid : rid = origin packet
        · rw [seqsOf_cons, if_pos (hof.origin.trans hrid.symm), hof.seq]
          refine ⟨List.pairwise_cons.mpr ⟨fun s hs => (hrest s hs).2 hrid, hpair⟩, ?_⟩
          intro s hs
          rcases List.mem_cons.mp hs with rfl | hs
          · refine ⟨fun he => hother (he.symm.trans hrid), fun q hq => ?_⟩
            exact (fresh_iff_lastSeq rs packet).mp hfresh q (hrid ▸ hq)
          · exact (hrest s hs).1
        · rw [seqsOf_cons, if_neg (fun he => hrid (he.symm.trans hof.origin))]
          exact ⟨hpair, fun s hs => (hrest s hs).1⟩
  | @timeout rs timedOut events sent htail ih =>
    obtain ⟨hpair, hbound⟩ := ih fun t hmem =>
      hstays t (List.mem_cons_of_mem _ (Flood.mem_left hmem))
    refine ⟨hpair, fun s hs => ?_⟩
    obtain ⟨hne, hgt⟩ := hbound s hs
    rw [(lsuTimeout_ids timedOut rs).1] at hne
    refine ⟨hne, fun q hq => hgt q ?_⟩
    rw [RouterState.lastSeq,
      lsuTimeout_entry timedOut rs hne (hstays timedOut List.mem_cons_self)]
    exact hq

/-- What is passed on: growing sequence numbers for each router that is not dropped, positive TTLs
below those received, and good checksums. -/
structure FloodBounded (events : List Event) (sent : List (Bytes × Bytes)) : Prop where
  increasing : ∀ rid, Stays rid events → (seqsOf rid sent).Pairwise (· < ·)
  ttl : ∀ p ∈ sent, 1 ≤ copyTtl p.2 ∧ copyTtl p.2 < lsuTtl p.1
  checksum : ∀ p ∈ sent, ChecksumGood p.2 0

/-- No fresh LSU of another router is received with a TTL of 0 while the run goes on. -/
def FreshTtlsPositive : RouterState → List Event → Prop
  | _, [] => True
  | rs, .packet packet :: events =>
    (rs.routerId ≠ origin packet → Fresh rs.pwospfRouterList packet → lsuTtl packet ≠ 0) ∧
      ∀ o, processPwospfPacket rs packet = some o → o.flooded ≠ .aborts →
        FreshTtlsPositive o.rs events
  | rs, .timeout timedOut :: events =>
    (lsuTimeout timedOut rs).2 ≠ .aborts → FreshTtlsPositive (lsuTimeout timedOut rs).1 events

theorem freshTtlsPositive_left (rs : RouterState) (flooded : Flood) (events : List Event) :
    FreshTtlsPositive rs (flooded.left events) ↔
      (flooded ≠ .aborts → FreshTtlsPositive rs events) := by
  unfold Flood.left
  by_cases haborts : flooded = .aborts
  · rw [if_pos haborts]
    exact ⟨fun _ hne => absurd haborts hne, fun _ => trivial⟩
  · rw [if_neg haborts]
    exact ⟨fun h _ => h, fun h => h haborts⟩

theorem RelayRun.ttls {rs : RouterState} {events : List Event} {sent : List (Bytes × Bytes)}
    (h : RelayRun rs events sent) :
    (∀ p ∈ sent, lsuTtl p.1 ≠ 0) ↔ FreshTtlsPositive rs events := by
  induction h with
  | nil rs => exact ⟨fun _ => trivial, fun _ p hp => nomatch hp⟩
  | @packet rs packet o events rest sent ho hstep hadds htail ih =>
    have htails : (∀ o', processPwospfPacket rs packet = some o' →
        o'.flooded ≠ .aborts → FreshTtlsPositive o'.rs events) ↔
          (o.flooded ≠ .aborts → FreshTtlsPositive o.rs events) := by
      constructor
      · intro h
        exact h o ho
      · intro h o' ho'
        rw [ho] at ho'
        cases ho'
        exact h
    rw [FreshTtlsPositive, htails, ← freshTtlsPositive_left, ← ih]
    cases hstep with
    | ignored hrs hforwarded hnot =>
      cases hadds with
      | copy copy hf _ => rw [hforwarded] at hf; cases hf
      | nothing hf hsent =>
        rw [hsent]
        exact ⟨fun h => ⟨fun hne hfresh => absurd hfresh (hnot hne), h⟩, fun h => h.2⟩
    | taken hother hfresh hids hlast hframes hforwarded =>
      rcases hforwarded with ⟨hone, hnone⟩ | ⟨-, copy', hcopy, -⟩
      · cases hadds with
        | copy copy hf _ => rw [hnone] at hf; cases hf
        | nothing hf hsent =>
          rw [hsent, hone]
          exact ⟨fun h => ⟨fun _ _ => by decide, h⟩, fun h => h.2⟩
      · cases hadds with
        | nothing hf _ => rw [hcopy] at hf; cases hf
        | copy copy hf hsent =>
          rw [hsent, List.forall_mem_cons]
          exact ⟨fun h => ⟨fun _ _ => h.1, h.2⟩, fun h => ⟨h.1 hother hfresh, h.2⟩⟩
  | @timeout rs timedOut events sent htail ih =>
    rw [FreshTtlsPositive, ← freshTtlsPositive_left, ← ih]

theorem pred_lt_iff (v : BitVec 16) : v - 1 < v ↔ v ≠ 0 := by
  constructor
  · rintro h rfl
    exact absurd h (by decide)
  · intro h
    bv_omega

theorem one_le_pred (v : BitVec 16) (h : v ≠ 1) : 1 ≤ v - 1 := by
  have hpos := (ttl_pos_iff v).mpr h
  bv_omega

/-- Flooding is bounded just when no fresh LSU comes with a TTL of 0: one less than that is the
largest TTL. -/
theorem flood_bounded_iff (rs : RouterState) (events : List Event) (hvalid : AllValid rs events) :
    ∃ sent, relay rs events = some sent ∧
      (FloodBounded events sent ↔ FreshTtlsPositive rs events) := by
  obtain ⟨sent, hsent, hrun⟩ := relay_run hvalid
  refine ⟨sent, hsent, ?_⟩
  rw [← hrun.ttls]
  constructor
  · intro h p hp
    have hlt := (h.ttl p hp).2
    rw [(hrun.copies p hp).2.ttl] at hlt
    exact (pred_lt_iff _).mp hlt
  · intro h
    refine ⟨fun rid hstays => (hrun.increasing hstays).1, fun p hp => ?_, fun p hp => ?_⟩
    · obtain ⟨hne, hof⟩ := hrun.copies p hp
      rw [hof.ttl]
      exact ⟨one_le_pred _ hne, (pred_lt_iff _).mpr (h p hp)⟩
    · exact (hrun.copies p hp).2.checksum

/-- Router 10.0.0.1, which knows of nobody yet. -/
def aloneOne : RouterState := ⟨0x0100000a, 0, false, []⟩

/-- The first LSU of router 10.0.0.2, without advertisements, and with a TTL of 64. -/
def firstLsu : Bytes :=
  List.replicate 34 0 ++
    [2, 4, 0, 32, 10, 0, 0, 2, 0, 0, 0, 0, 0xf3, 0x98, 0, 0, 0, 0, 0, 0, 0, 0, 0, 0,
      0, 1, 0, 64, 0, 0, 0, 0]

/-- The same LSU with a TTL of 0. -/
def spentLsu : Bytes :=
  List.replicate 34 0 ++
    [2, 4, 0, 32, 10, 0, 0, 2, 0, 0, 0, 0, 0xf3, 0xd8, 0, 0, 0, 0, 0, 0, 0, 0, 0, 0,
      0, 1, 0, 0, 0, 0, 0, 0]

theorem allValid_singleton {rs : RouterState} {packet : Bytes} (hvalid : ValidLsu rs packet)
    (hwf : WellFormed packet) : AllValid rs [.packet packet] := by
  intro p hp
  have he := Event.packet.inj (List.mem_singleton.mp hp)
  subst he
  exact ⟨hvalid, hwf⟩

theorem flood_bounded_first : ∃ sent, relay aloneOne [.packet firstLsu] = some sent ∧
    FloodBounded [.packet firstLsu] sent := by
  have hvalid : ValidLsu aloneOne firstLsu := ⟨by decide +kernel, by decide +kernel⟩
  have hwf : WellFormed firstLsu := ⟨by decide +kernel, by decide +kernel⟩
  obtain ⟨sent, hsent, hiff⟩ := flood_bounded_iff aloneOne [.packet firstLsu]
    (allValid_singleton hvalid hwf)
  exact ⟨sent, hsent, hiff.mpr ⟨fun _ _ => by decide +kernel, fun _ _ _ => trivial⟩⟩

/-- An LSU that comes with a TTL of 0 is passed on with the largest TTL. -/
theorem spent_lsu_revived : AllValid aloneOne [.packet spentLsu] ∧
    ∃ sent, relay aloneOne [.packet spentLsu] = some sent ∧
      ¬ FloodBounded [.packet spentLsu] sent := by
  have hvalid : ValidLsu aloneOne spentLsu := ⟨by decide +kernel, by decide +kernel⟩
  have hwf : WellFormed spentLsu := ⟨by decide +kernel, by decide +kernel⟩
  have hall := allValid_singleton hvalid hwf
  obtain ⟨sent, hsent, hrun⟩ := relay_run hall
  refine ⟨hall, sent, hsent, fun h => ?_⟩
  have hzero : lsuTtl spentLsu = 0 := by decide +kernel
  refine (hrun.ttls.mp fun p hp => ?_).1 (by decide) (fresh_of_unknown rfl) hzero
  have hlt := (h.ttl p hp).2
  rw [(hrun.copies p hp).2.ttl] at hlt
  exact (pred_lt_iff _).mp hlt

end Osnt.Scone.Pwospf
