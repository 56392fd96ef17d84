import Osnt.Proofs.LsuPackets

/-! What an LSU makes of a router, and of a network of routers: every entry of a router list is one
that its router has sent out. -/
namespace Osnt.Scone.LsuNetwork
open Lib Lib.Buffer Pwospf

/-- What becomes of our own entry: nothing, or one more LSU is built of it. -/
inductive Floods (rs : RouterState) (own : Content) (rs' : RouterState) : Flood → Prop
  | silent (hown : rs'.entry rs.routerId = some own) : Floods rs own rs' .none
  | built (interfaces : List PwospfInterface)
      (hsame : interfaces.map PwospfInterface.content = own.interfaces)
      (hown : rs'.entry rs.routerId = some { own with seq := own.seq + 1 }) :
      Floods rs own rs' (.lsu (lsuPacket rs own.seq interfaces))

theorem startLsuBcastFlood_floods {rs : RouterState} {own : Content}
    (h : rs.entry rs.routerId = some own) :
    Floods rs own (startLsuBcastFlood rs).1 (startLsuBcastFlood rs).2 ∧
      (rs.pwospfLsuBroadcast = true → (startLsuBcastFlood rs).2 ≠ .none) ∧
      (startLsuBcastFlood rs).1.pwospfLsuBroadcast = rs.pwospfLsuBroadcast := by
  obtain ⟨router, hget, rfl⟩ := Option.map_eq_some_iff.mp h
  unfold startLsuBcastFlood
  cases hflag : rs.pwospfLsuBroadcast with
  | false =>
    rw [if_neg (by simp)]
    exact ⟨.silent h, fun hf => absurd hf (by simp), hflag⟩
  | true =>
    have hours := getRouterByRid_setOurs rs (fun r => { r with seq := r.seq + 1 }) fun _ => rfl
    rw [hget] at hours
    rw [if_pos rfl, constructPwospfLsuPacket_eq rs router hget]
    exact ⟨.built router.interfaceList rfl (congrArg (Option.map PwospfRouter.content) hours),
      fun _ => by simp, hflag⟩

theorem Floods.of_list {rs rs' : RouterState} {own : Content} {routers : List PwospfRouter}
    {flooded : Flood} (h : Floods { rs with pwospfRouterList := routers } own rs' flooded) :
    Floods rs own rs' flooded := by
  cases h with
  | silent hown => exact .silent hown
  | built interfaces hsame hown =>
    have hpacket : lsuPacket { rs with pwospfRouterList := routers } own.seq interfaces =
        lsuPacket rs own.seq interfaces := lsuPacket_congr rfl rfl own.seq interfaces
    rw [hpacket]
    exact .built interfaces hsame hown

theorem propagatePwospfChanges_floods {rs : RouterState} {own : Content}
    (h : rs.entry rs.routerId = some own) :
    Floods rs own (propagatePwospfChanges rs).1 (propagatePwospfChanges rs).2 ∧
      (rs.pwospfLsuBroadcast = true → (propagatePwospfChanges rs).2 ≠ .none) ∧
      (propagatePwospfChanges rs).1.pwospfLsuBroadcast = rs.pwospfLsuBroadcast := by
  unfold propagatePwospfChanges
  have hentry := (entry_determined rs rs.routerId).trans h
  generalize (List.range rs.pwospfRouterList.length).foldl determineActiveInterfaces
    rs.pwospfRouterList = list at hentry ⊢
  obtain ⟨hfloods, hflag, hkept⟩ :=
    @startLsuBcastFlood_floods { rs with pwospfRouterList := list } own hentry
  exact ⟨hfloods.of_list, hflag, hkept⟩

theorem lsuTimeout_floods (timedOut : BitVec 32 → Bool) {rs : RouterState} {own : Content}
    (h : rs.entry rs.routerId = some own) :
    Floods rs own (lsuTimeout timedOut rs).1 (lsuTimeout timedOut rs).2 := by
  unfold lsuTimeout
  dsimp only
  split
  · generalize hlist : rs.pwospfRouterList.filter
      (fun r => r.routerId == rs.routerId || !timedOut r.routerId) = list
    have hentry : RouterState.entry { rs with pwospfRouterList := list } rs.routerId =
        some own := by
      rw [← h, ← hlist]
      unfold RouterState.entry getRouterByRid
      rw [List.find?_filter]
      congr 2
      funext r
      by_cases hr : r.routerId = rs.routerId
      · simp [hr]
      · simp [hr]
    obtain ⟨hfloods, -⟩ :=
      @propagatePwospfChanges_floods { rs with pwospfRouterList := list } own hentry
    exact hfloods.of_list
  · exact .silent h

/-- A fresh LSU: the list behind it, and our own LSU if anything is reported. -/
theorem processPwospfLsuPacket_fresh {rs : RouterState} {packet : Bytes} {o : Outcome}
    (h42 : 42 ≤ packet.length) (h : processPwospfLsuPacket rs packet = some o)
    (hother : rs.routerId ≠ origin packet) (hfresh : Fresh rs.pwospfRouterList packet) :
    ∃ after update,
      updateRouterList rs.pwospfRouterList packet (origin packet) = some (after, true, update) ∧
      forwardLsu packet true = some o.forwarded ∧
      (o.rs, o.flooded) =
        if update then propagatePwospfChanges { rs with pwospfRouterList := after }
        else ({ rs with pwospfRouterList := after }, .none) := by
  unfold processPwospfLsuPacket at h
  rw [load32_eq, if_pos h42, Option.bind_eq_bind, Option.bind_some] at h
  change ite (rs.routerId = origin packet) _ _ = _ at h
  rw [if_neg hother] at h
  obtain ⟨⟨after, rebroadcast, update⟩, hu, h⟩ := Option.bind_eq_some_iff.mp h
  have hreb := (updateRouterList_rebroadcast hu).mpr hfresh
  subst hreb
  obtain ⟨forwarded, hfwd, h⟩ := Option.bind_eq_some_iff.mp h
  cases h
  exact ⟨after, update, hu, hfwd, rfl⟩

theorem processPwospfLsuPacket_stale {rs : RouterState} {packet : Bytes} {o : Outcome}
    (h62 : 62 ≤ packet.length) (h : processPwospfLsuPacket rs packet = some o)
    (hother : rs.routerId ≠ origin packet) (hstale : ¬ Fresh rs.pwospfRouterList packet) :
    o = .dropped rs := by
  unfold processPwospfLsuPacket at h
  rw [load32_eq, if_pos (by omega), Option.bind_eq_bind, Option.bind_some] at h
  change ite (rs.routerId = origin packet) _ _ = _ at h
  rw [if_neg hother] at h
  change Option.bind (updateRouterList rs.pwospfRouterList packet (origin packet)) _ = _ at h
  rw [updateRouterList_stale (by omega) hstale, Option.bind_some] at h
  simp only [forwardLsu_false packet h62] at h
  cases h
  rfl

theorem fresh_iff_entry (rs : RouterState) (packet : Bytes) :
    Fresh rs.pwospfRouterList packet ↔
      ∀ c, rs.entry (origin packet) = some c → c.seq < lsuSeq packet := by
  unfold Fresh RouterState.entry
  cases getRouterByRid (origin packet) rs.pwospfRouterList with
  | none => simp
  | some router => simp [PwospfRouter.content]

/-- Of a router that is known a change of its list is reported. -/
theorem updateRouterList_update {routers after : List PwospfRouter} {packet : Bytes}
    {router : PwospfRouter} {update : Bool}
    (hget : getRouterByRid (origin packet) routers = some router)
    (h : updateRouterList routers packet (origin packet) = some (after, true, update)) :
    ∃ interfaces, populatePwospfRouterInterfaceList router.interfaceList packet =
      some (interfaces, update) := by
  unfold updateRouterList at h
  rw [hget] at h
  obtain ⟨seq, -, h⟩ := Option.bind_eq_some_iff.mp h
  split at h
  · obtain ⟨⟨interfaces, changed⟩, hpop, h⟩ := Option.bind_eq_some_iff.mp h
    cases h
    exact ⟨interfaces, hpop⟩
  · cases h

/-- What an LSU of `A` does at a router: it is ignored, or it is taken in and passed on. -/
inductive Processed (rs : RouterState) (own : Content) (A : RouterState) (seq : BitVec 16)
    (interfaces : List PwospfInterface) (ttl : BitVec 16) (o : Outcome) : Prop
  | ignored (hrs : o.rs = rs) (hforwarded : o.forwarded = .none) (hflooded : o.flooded = .none)
      (hold : A.areaId = rs.areaId → swap32 A.routerId ≠ rs.routerId → rs.routerId ≠ A.routerId →
        ∃ c, rs.entry A.routerId = some c ∧ ¬ c.seq < seq)
  | accepted (hother : rs.routerId ≠ A.routerId)
      (hnew : ∀ c, rs.entry A.routerId = some c → c.seq < seq)
      (hids : o.rs.routerId = rs.routerId ∧ o.rs.areaId = rs.areaId ∧
        o.rs.pwospfLsuBroadcast = rs.pwospfLsuBroadcast)
      (hentry : ∃ held, o.rs.entry A.routerId = some ⟨A.routerId, seq, held⟩ ∧
        ∀ t, t ∈ held ↔ t ∈ interfaces.map PwospfInterface.content)
      (hframes : ∀ rid, rid ≠ A.routerId → rid ≠ rs.routerId → o.rs.entry rid = rs.entry rid)
      (hforwarded : o.forwarded =
        if ttl = 1 then .none else .copy (carried A seq interfaces (ttl - 1)))
      (hfloods : Floods rs own o.rs o.flooded)
      (hquiet : ∀ c, rs.entry A.routerId = some c → c.interfaces ≠ [] →
        (∀ t, t ∈ c.interfaces ↔ t ∈ interfaces.map PwospfInterface.content) → o.flooded = .none)

section Processing
variable {rs : RouterState} {own : Content} {A : RouterState} {seq ttl : BitVec 16}
  {interfaces : List PwospfInterface} {hdr : Bytes}

theorem forwardLsu_arriving (hhdr : hdr.length = 34)
    (hshort : 32 + 12 * interfaces.length < 2 ^ 16) {f : Forward}
    (h : forwardLsu (arriving hdr (lsuPacket A seq interfaces) ttl) true = some f) :
    f = if ttl = 1 then .none else .copy (carried A seq interfaces (ttl - 1)) := by
  have hlen := length_arriving A seq ttl interfaces hhdr
  have httl : be16 (arriving hdr (lsuPacket A seq interfaces) ttl) 60 = ttl := by
    have hfield := be16_framed hhdr (put16 (lsuPacket A seq interfaces) 26 (swap16 ttl)) 26
    rw [arriving, be16_cleared _ (by omega), hfield, be16_put16_self, swap16_swap16]
    rw [length_lsuPacket]
    omega
  have hpos := ttl_pos_iff ttl
  unfold forwardLsu at h
  rw [load16_eq, if_pos (by omega), httl, Option.bind_eq_bind, Option.bind_some,
    swap16_swap16] at h
  dsimp only at h
  by_cases hone : ttl = 1
  · rw [if_neg fun hc => hpos.mp hc.2 hone] at h
    cases h
    rw [if_pos hone]
  · rw [if_pos ⟨rfl, hpos.mpr hone⟩,
      forwardCopy_arriving A seq ttl interfaces hhdr (ttl - 1) hshort] at h
    cases h
    rw [if_neg hone]

/-- What a fresh LSU of another router does about our own. -/
theorem reported {after : List PwospfRouter} {packet : Bytes} {update : Bool} {o : Outcome}
    (hown : rs.entry rs.routerId = some own) (hother : rs.routerId ≠ origin packet)
    (hfresh : Fresh rs.pwospfRouterList packet)
    (hu : updateRouterList rs.pwospfRouterList packet (origin packet) = some (after, true, update))
    (hout : (o.rs, o.flooded) =
      if update then propagatePwospfChanges { rs with pwospfRouterList := after }
      else ({ rs with pwospfRouterList := after }, .none)) :
    Floods rs own o.rs o.flooded ∧ o.rs.pwospfLsuBroadcast = rs.pwospfLsuBroadcast ∧
      (update = false → o.flooded = .none) := by
  have hentry : RouterState.entry { rs with pwospfRouterList := after } rs.routerId = some own := by
    obtain ⟨-, -, -, -, hframes⟩ := updateRouterList_fresh hfresh hu
    rw [← hown]
    exact congrArg (Option.map PwospfRouter.content) (hframes rs.routerId hother)
  obtain ⟨hfloods, -, hflag⟩ :=
    @propagatePwospfChanges_floods { rs with pwospfRouterList := after } own hentry
  cases update with
  | false =>
    obtain ⟨hrs, hnone⟩ := Prod.mk.inj hout
    rw [hrs, hnone]
    exact ⟨.silent hentry, rfl, fun _ => rfl⟩
  | true =>
    obtain ⟨hrs, hsome⟩ := Prod.mk.inj hout
    rw [hrs, hsome]
    exact ⟨hfloods.of_list, hflag, fun h => absurd h (by simp)⟩

theorem processed_carried (hown : rs.entry rs.routerId = some own) (hhdr : hdr.length = 34)
    (hmasked : Masked interfaces) (hshort : 32 + 12 * interfaces.length < 2 ^ 16) :
    ∃ o, processPwospfPacket rs (hdr ++ carried A seq interfaces ttl) = some o ∧
      Processed rs own A seq interfaces ttl o := by
  rw [processPwospfPacket_carried A seq ttl interfaces hhdr rs hshort]
  by_cases haccept : A.areaId = rs.areaId ∧ swap32 A.routerId ≠ rs.routerId
  · rw [if_pos haccept]
    obtain ⟨o, ho, hstep⟩ := processPwospfLsuPacket_arriving A seq ttl interfaces hhdr rs
    have horigin := origin_arriving A seq ttl interfaces hhdr
    have hseq := lsuSeq_arriving A seq ttl interfaces hhdr
    have hlen := length_arriving A seq ttl interfaces hhdr
    refine ⟨o, ho, ?_⟩
    cases hstep with
    | own hown' ho' =>
      rw [horigin] at hown'
      rw [ho']
      exact .ignored rfl rfl rfl fun _ _ hne => absurd hown' hne
    | stale hother hstale hrs haccepted hforwarded =>
      have hdropped := processPwospfLsuPacket_stale (by omega) ho hother hstale
      rw [hdropped]
      refine .ignored rfl rfl rfl fun _ _ _ => ?_
      rw [fresh_iff_entry, horigin, hseq] at hstale
      push Not at hstale
      obtain ⟨c, hc, hnot⟩ := hstale
      exact ⟨c, hc, hnot⟩
    | fresh held changed hother hfresh hpopulate haccepted hforwarded hentry hframes hids =>
      obtain ⟨after, update, hu, -, hout⟩ :=
        processPwospfLsuPacket_fresh (by omega) ho hother hfresh
      have hnew := (fresh_iff_entry rs _).mp hfresh
      have hfloods := reported hown hother hfresh hu hout
      rw [horigin] at hother hentry hframes hnew hu
      rw [hseq] at hentry hnew
      refine .accepted hother hnew ⟨hids.1, hids.2, hfloods.2.1⟩ ⟨_, hentry, ?_⟩ hframes
        (forwardLsu_arriving hhdr hshort hforwarded) hfloods.1 ?_
      · exact (populate_arriving A seq ttl interfaces hhdr hmasked hshort hpopulate).1
      · intro c hc hne hsame
        obtain ⟨router, hget, rfl⟩ := Option.map_eq_some_iff.mp hc
        rw [← horigin] at hget hu
        obtain ⟨interfaces', hpop⟩ := updateRouterList_update hget hu
        have hunchanged := (populate_arriving A seq ttl interfaces hhdr hmasked hshort hpop).2
          (fun hnil => hne (by rw [PwospfRouter.content, hnil]; rfl)) hsame
        exact hfloods.2.2 hunchanged
  · rw [if_neg haccept]
    exact ⟨_, rfl, .ignored rfl rfl rfl fun harea hswap => absurd ⟨harea, hswap⟩ haccept⟩

end Processing

theorem mapM_forall₂ {α β : Type} {f : α → Option β} {R : α → β → Prop} {l : List α}
    (h : ∀ a ∈ l, ∃ b, f a = some b ∧ R a b) : ∃ bs, l.mapM f = some bs ∧ List.Forall₂ R l bs := by
  induction l with
  | nil => exact ⟨[], rfl, .nil⟩
  | cons a l ih =>
    obtain ⟨b, hb, hab⟩ := h a (by simp)
    obtain ⟨bs, hbs, hall⟩ := ih fun x hx => h x (by simp [hx])
    exact ⟨b :: bs, by simp [hb, hbs], .cons hab hall⟩

theorem exists_of_forall₂ {α β : Type} {R : α → β → Prop} {l : List α} {bs : List β}
    (h : List.Forall₂ R l bs) : ∀ b ∈ bs, ∃ a ∈ l, R a b := by
  induction h with
  | nil => simp
  | cons hab _ ih =>
    intro x hx
    rcases List.mem_cons.mp hx with rfl | hx
    · exact ⟨_, List.mem_cons_self, hab⟩
    · obtain ⟨a, ha, hax⟩ := ih x hx
      exact ⟨a, List.mem_cons_of_mem _ ha, hax⟩

/-- Every neighbour gets the LSU, from the address of the interface that it is behind. -/
theorem broadcast_framed (r : Router) {pwospf : Bytes} (hlen : 4 ≤ pwospf.length)
    (hclaimed : claimedLen pwospf 0 = pwospf.length) (srcIp : Option (BitVec 32)) :
    ∃ packets, r.broadcastPwospfLsuPacket pwospf srcIp = some packets ∧
      List.Forall₂ (fun t packet => Framed packet t.2.1 t.2.2 pwospf) (r.targets srcIp) packets :=
  mapM_forall₂ fun t _ => encapsulate_framed hlen hclaimed t.1 t.2.1 t.2.2

theorem claimedLen_carried (A : RouterState) (seq ttl : BitVec 16)
    {interfaces : List PwospfInterface} (hshort : 32 + 12 * interfaces.length < 2 ^ 16) :
    claimedLen (carried A seq interfaces ttl) 0 = (carried A seq interfaces ttl).length := by
  rw [length_carried, ← claimedLen_stamped A seq ttl interfaces hshort, claimedLen, carried,
    be16_put16 _ _ (by omega), claimedLen]

theorem broadcast_carried (r : Router) (A : RouterState) (seq ttl : BitVec 16)
    {interfaces : List PwospfInterface} (hshort : 32 + 12 * interfaces.length < 2 ^ 16)
    (srcIp : Option (BitVec 32)) :
    ∃ packets, r.broadcastPwospfLsuPacket (carried A seq interfaces ttl) srcIp = some packets ∧
      List.Forall₂ (fun t packet => Framed packet t.2.1 t.2.2 (carried A seq interfaces ttl))
        (r.targets srcIp) packets := by
  refine broadcast_framed r ?_ (claimedLen_carried A seq ttl hshort) srcIp
  rw [length_carried]
  omega

theorem processIpPacket_framed {r : Router} {own : Content} {A : RouterState} {seq ttl : BitVec 16}
    {interfaces : List PwospfInterface} {packet : Bytes} {sourceIp destIp : BitVec 32}
    (hown : r.pwospf.entry r.pwospf.routerId = some own)
    (h : Framed packet sourceIp destIp (carried A seq interfaces ttl)) (hmasked : Masked interfaces)
    (hshort : 32 + 12 * interfaces.length < 2 ^ 16) :
    ∃ o, r.processIpPacket packet = some o ∧ Processed r.pwospf own A seq interfaces ttl o := by
  obtain ⟨hdr, hhdr, rfl⟩ := h.payload
  obtain ⟨o, ho, hprocessed⟩ := processed_carried hown hhdr hmasked hshort
  refine ⟨o, ?_, hprocessed⟩
  unfold Router.processIpPacket
  rw [h.valid, h.protocol]
  simpa using ho

/-- Of our own entry an LSU can be built. -/
structure Sendable (own : Content) : Prop where
  short : 32 + 12 * own.interfaces.length < 2 ^ 16
  masked : ∀ t ∈ own.interfaces, t.1 &&& t.2.1 = t.1

theorem Sendable.of_content {own : Content} (h : Sendable own) {interfaces : List PwospfInterface}
    (hsame : interfaces.map PwospfInterface.content = own.interfaces) :
    Masked interfaces ∧ 32 + 12 * interfaces.length < 2 ^ 16 := by
  have hshort := h.short
  rw [← hsame, List.length_map] at hshort
  refine ⟨fun i hi => ?_, hshort⟩
  exact h.masked i.content (hsame ▸ List.mem_map_of_mem hi)

/-- An LSU that router `A` has built. -/
structure Issued (built : List Bytes) (A : RouterState) (seq : BitVec 16)
    (interfaces : List PwospfInterface) : Prop where
  built : lsuPacket A seq interfaces ∈ built
  masked : Masked interfaces
  short : 32 + 12 * interfaces.length < 2 ^ 16

section Network
variable {ι : Type} (routers : ι → Router)

/-- An entry says what some router with that id has said. -/
def Backed (built : ι → List Bytes) (rid : BitVec 32) (c : Content) : Prop :=
  ∃ j interfaces, (routers j).pwospf.routerId = rid ∧
    Issued (built j) (routers j).pwospf c.seq interfaces ∧
    ∀ t, t ∈ c.interfaces ↔ t ∈ interfaces.map PwospfInterface.content

/-- A packet carries an LSU of some router. -/
def OnWay (built : ι → List Bytes) (packet : Bytes) : Prop :=
  ∃ j seq interfaces ttl sourceIp destIp, Issued (built j) (routers j).pwospf seq interfaces ∧
    Framed packet sourceIp destIp (carried (routers j).pwospf seq interfaces ttl)

structure Healthy (st : State ι) : Prop where
  ids : ∀ i, (st.routers i).pwospf.routerId = (routers i).pwospf.routerId ∧
    (st.routers i).pwospf.areaId = (routers i).pwospf.areaId
  own : ∀ i, ∃ own, (st.routers i).pwospf.entry (routers i).pwospf.routerId = some own ∧
    Sendable own
  held : ∀ i rid c, rid ≠ (routers i).pwospf.routerId →
    (st.routers i).pwospf.entry rid = some c → Backed routers st.built rid c
  flight : ∀ packet ∈ st.flight, OnWay routers st.built packet

variable {routers} {built built' : ι → List Bytes}

theorem Issued.mono {seq : BitVec 16} {interfaces : List PwospfInterface} {A : RouterState}
    {packets packets' : List Bytes} (hmore : packets ⊆ packets')
    (h : Issued packets A seq interfaces) : Issued packets' A seq interfaces :=
  ⟨hmore h.built, h.masked, h.short⟩

theorem Backed.mono (hmore : ∀ j, built j ⊆ built' j) {rid : BitVec 32} {c : Content}
    (h : Backed routers built rid c) : Backed routers built' rid c := by
  obtain ⟨j, interfaces, hid, hissued, hsame⟩ := h
  exact ⟨j, interfaces, hid, hissued.mono (hmore j), hsame⟩

theorem OnWay.mono (hmore : ∀ j, built j ⊆ built' j) {packet : Bytes}
    (h : OnWay routers built packet) : OnWay routers built' packet := by
  obtain ⟨j, seq, interfaces, ttl, sourceIp, destIp, hissued, hframed⟩ := h
  exact ⟨j, seq, interfaces, ttl, sourceIp, destIp, hissued.mono (hmore j), hframed⟩

variable [DecidableEq ι]

/-- What `emit` changes. -/
structure Emitted (st : State ι) (i : ι) (rs : RouterState) (copies : List Bytes)
    (flooded : Flood) (sent : List Bytes) (st' : State ι) : Prop where
  self : (st'.routers i).pwospf = rs
  others : ∀ x, x ≠ i → (st'.routers x).pwospf = (st.routers x).pwospf
  links : ∀ x, (st'.routers x).ifList = (st.routers x).ifList ∧
    (st'.routers x).addr = (st.routers x).addr
  flight : st'.flight = st.flight ++ copies ++ sent
  built : st'.built i = st.built i ++ flooded.packets
  builds : ∀ x, x ≠ i → st'.built x = st.built x
  sent : st'.sent = st.sent + copies.length + sent.length

theorem emit_eq {st : State ι} {i : ι} (rs : RouterState) (copies : List Bytes)
    {sent : List Bytes} {flooded : Flood} (h : (st.routers i).flood flooded = some sent) :
    ∃ st', st.emit i rs copies flooded = some st' ∧
      Emitted st i rs copies flooded sent st' := by
  refine ⟨_, by rw [State.emit, h]; rfl, ?_, ?_, ?_, rfl, Function.update_self ..,
    fun x hx => Function.update_of_ne hx .., rfl⟩
  · change (Function.update st.routers i { st.routers i with pwospf := rs } i).pwospf = rs
    rw [Function.update_self]
  · intro x hx
    change (Function.update st.routers i { st.routers i with pwospf := rs } x).pwospf = _
    rw [Function.update_of_ne hx]
  · intro x
    change (Function.update st.routers i { st.routers i with pwospf := rs } x).ifList = _ ∧
      (Function.update st.routers i { st.routers i with pwospf := rs } x).addr = _
    by_cases hx : x = i
    · subst hx
      rw [Function.update_self]
      exact ⟨rfl, rfl⟩
    · rw [Function.update_of_ne hx]
      exact ⟨rfl, rfl⟩

theorem Emitted.more {st st' : State ι} {i : ι} {rs : RouterState} {copies sent : List Bytes}
    {flooded : Flood} (h : Emitted st i rs copies flooded sent st') (x : ι) :
    st.built x ⊆ st'.built x := by
  by_cases hx : x = i
  · subst hx
    rw [h.built]
    exact List.subset_append_left _ _
  · rw [h.builds x hx]
    exact List.Subset.refl _

/-- A router that keeps what others have said, and says nothing wrong. -/
theorem Healthy.emit {st : State ι} (h : Healthy routers st) (i : ι) {rs rs' : RouterState}
    {own : Content} {copies : List Bytes} {flooded : Flood}
    (hrs : rs.routerId = (routers i).pwospf.routerId ∧ rs.areaId = (routers i).pwospf.areaId)
    (hids : rs'.routerId = rs.routerId ∧ rs'.areaId = rs.areaId) (hown : Sendable own)
    (hfloods : Floods rs own rs' flooded)
    (hheld : ∀ rid c, rid ≠ rs.routerId → rs'.entry rid = some c → Backed routers st.built rid c)
    (hcopies : ∀ packet ∈ copies, OnWay routers st.built packet) :
    ∃ st', st.emit i rs' copies flooded = some st' ∧ Healthy routers st' := by
  obtain ⟨sent, hsent, hway, hentry⟩ : ∃ sent, (st.routers i).flood flooded = some sent ∧
      (∀ packet ∈ sent, ∃ seq interfaces sourceIp destIp,
        Issued flooded.packets (routers i).pwospf seq interfaces ∧
        Framed packet sourceIp destIp (carried (routers i).pwospf seq interfaces 64)) ∧
      ∃ own', rs'.entry rs.routerId = some own' ∧ Sendable own' := by
    cases hfloods with
    | silent hentry => exact ⟨[], rfl, by simp, own, hentry, hown⟩
    | built interfaces hsame hentry =>
      obtain ⟨hmasked, hshort⟩ := hown.of_content hsame
      obtain ⟨sent, hsent, hall⟩ :=
        broadcast_carried (st.routers i) rs own.seq 64 hshort none
      rw [carried_new] at hsent
      refine ⟨sent, hsent, fun packet hp => ?_, _, hentry, hown.short, hown.masked⟩
      obtain ⟨t, -, hframed⟩ := exists_of_forall₂ hall packet hp
      have hcongr := lsuPacket_congr hrs.1 hrs.2 own.seq interfaces
      refine ⟨own.seq, interfaces, t.2.1, t.2.2, ⟨?_, hmasked, hshort⟩, ?_⟩
      · rw [← hcongr]
        exact List.mem_singleton_self _
      · rw [carried_new] at hframed ⊢
        rw [← hcongr]
        exact hframed
  obtain ⟨st', hst', hemit⟩ := emit_eq rs' copies hsent
  refine ⟨st', hst', ?_, ?_, ?_, ?_⟩
  · intro x
    by_cases hx : x = i
    · subst hx
      rw [hemit.self]
      exact ⟨hids.1.trans hrs.1, hids.2.trans hrs.2⟩
    · rw [hemit.others x hx]
      exact h.ids x
  · intro x
    by_cases hx : x = i
    · subst hx
      rw [hemit.self, ← hrs.1]
      exact hentry
    · rw [hemit.others x hx]
      exact h.own x
  · intro x rid c hrid hc
    by_cases hx : x = i
    · subst hx
      rw [hemit.self] at hc
      exact (hheld rid c (hrs.1 ▸ hrid) hc).mono hemit.more
    · rw [hemit.others x hx] at hc
      exact (h.held x rid c hrid hc).mono hemit.more
  · intro packet hp
    rw [hemit.flight] at hp
    rcases List.mem_append.mp hp with hp | hp
    · rcases List.mem_append.mp hp with hp | hp
      · exact (h.flight packet hp).mono hemit.more
      · exact (hcopies packet hp).mono hemit.more
    · obtain ⟨seq, interfaces, sourceIp, destIp, hissued, hframed⟩ := hway packet hp
      refine ⟨i, seq, interfaces, 64, sourceIp, destIp, hissued.mono ?_, hframed⟩
      rw [hemit.built]
      exact List.subset_append_right _ _

theorem Healthy.deliver {st : State ι} (h : Healthy routers st) (i : ι) {packet : Bytes}
    (hp : OnWay routers st.built packet) :
    ∃ st', st.deliver i packet = some st' ∧ Healthy routers st' := by
  obtain ⟨own, hown, hsend⟩ := h.own i
  obtain ⟨j, seq, interfaces, ttl, sourceIp, destIp, hissued, hframed⟩ := hp
  rw [← (h.ids i).1] at hown
  obtain ⟨o, ho, hprocessed⟩ := processIpPacket_framed hown hframed hissued.masked hissued.short
  have hnothing : (st.routers i).passOn packet .none = some [] := rfl
  cases hprocessed with
  | ignored hrs hforwarded hflooded hold =>
    have hnone : ∀ copy ∈ ([] : List Bytes), OnWay routers st.built copy := by simp
    obtain ⟨st', hst', hhealthy⟩ := h.emit i (h.ids i) ⟨rfl, rfl⟩ hsend (.silent hown)
      (fun rid c hrid => h.held i rid c ((h.ids i).1 ▸ hrid)) hnone
    refine ⟨st', ?_, hhealthy⟩
    simp only [State.deliver, ho, hforwarded, hnothing, hrs, hflooded, Option.bind_eq_bind,
      Option.bind_some]
    exact hst'
  | accepted hother hnew hids hentry hframes hforwarded hfloods hquiet =>
    obtain ⟨copies, hcopies, hway⟩ : ∃ copies, (st.routers i).passOn packet o.forwarded =
        some copies ∧ ∀ copy ∈ copies, OnWay routers st.built copy := by
      rw [hforwarded]
      by_cases hone : ttl = 1
      · rw [if_pos hone]
        exact ⟨[], rfl, by simp⟩
      · rw [if_neg hone]
        obtain ⟨copies, hcopies, hall⟩ := broadcast_carried (st.routers i) (routers j).pwospf seq
          (ttl - 1) hissued.short (some sourceIp)
        refine ⟨copies, ?_, fun copy hcopy => ?_⟩
        · rw [Router.passOn, hframed.source, Option.bind_eq_bind, Option.bind_some, hcopies]
        · obtain ⟨t, -, ht⟩ := exists_of_forall₂ hall copy hcopy
          exact ⟨j, seq, interfaces, ttl - 1, t.2.1, t.2.2, hissued, ht⟩
    obtain ⟨held, hheld, hsame⟩ := hentry
    have hbacked : ∀ rid c, rid ≠ (st.routers i).pwospf.routerId → o.rs.entry rid = some c →
        Backed routers st.built rid c := by
      intro rid c hrid hc
      by_cases hj : rid = (routers j).pwospf.routerId
      · subst hj
        rw [hheld] at hc
        obtain rfl := Option.some.inj hc
        exact ⟨j, interfaces, rfl, hissued, hsame⟩
      · rw [hframes rid hj hrid] at hc
        exact h.held i rid c ((h.ids i).1 ▸ hrid) hc
    obtain ⟨st', hst', hhealthy⟩ :=
      h.emit i (h.ids i) ⟨hids.1, hids.2.1⟩ hsend hfloods hbacked hway
    refine ⟨st', ?_, hhealthy⟩
    simp only [State.deliver, ho, hcopies, Option.bind_eq_bind, Option.bind_some]
    exact hst'

/-- A router as it starts, with few enough interfaces for one packet. -/
def Boots (r : Router) : Prop :=
  ∃ routerId areaId pwospfLsuBroadcast ifList addr,
    r = boot routerId areaId pwospfLsuBroadcast ifList addr ∧ 32 + 12 * ifList.length < 2 ^ 16

/-- Interfaces are numbered with their subnets, and an LSU of them fits in a packet. -/
def Event.Proper {ι : Type} : Event ι → Prop
  | .readvertise _ interfaces => Masked interfaces ∧ 32 + 12 * interfaces.length < 2 ^ 16
  | _ => True

theorem Boots.entry {r : Router} (h : Boots r) :
    (∃ own, r.pwospf.entry r.pwospf.routerId = some own ∧ Sendable own ∧ own.seq = 0 ∧
      own.interfaces.length = r.ifList.length) ∧
    ∀ rid, rid ≠ r.pwospf.routerId → r.pwospf.entry rid = none := by
  obtain ⟨routerId, areaId, flag, ifList, addr, rfl, hshort⟩ := h
  refine ⟨⟨⟨routerId, 0, ifList.map fun x => (x.ip &&& x.mask, x.mask, 0)⟩, ?_, ⟨?_, ?_⟩, rfl, ?_⟩,
    fun rid hrid => ?_⟩
  · simp [RouterState.entry, boot, Hello.initRouterList, getRouterByRid, PwospfRouter.content,
      PwospfInterface.content, Function.comp_def]
  · rw [List.length_map]
    exact hshort
  · intro t ht
    obtain ⟨x, -, rfl⟩ := List.mem_map.mp ht
    exact BitVec.eq_of_getLsbD_eq fun k _ => by simp
  · rw [List.length_map]
    rfl
  · have hne : ¬ routerId = rid := fun he => hrid he.symm
    simp [RouterState.entry, boot, Hello.initRouterList, getRouterByRid, hne]

omit [DecidableEq ι] in
theorem healthy_start (h : ∀ i, Boots (routers i)) : Healthy routers (start routers) where
  ids _ := ⟨rfl, rfl⟩
  own i := by
    obtain ⟨⟨own, hown, hsend, -⟩, -⟩ := (h i).entry
    exact ⟨own, hown, hsend⟩
  held i rid c hrid hc := by
    have hnone := (h i).entry.2 rid hrid
    exact absurd (hnone.symm.trans hc) (by simp)
  flight packet hp := by cases hp

theorem entry_setInterfaces {rs : RouterState} {own : Content} (interfaces : List PwospfInterface)
    (hown : rs.entry rs.routerId = some own) :
    (rs.setOurs fun r => { r with interfaceList := interfaces }).entry rs.routerId =
      some { own with interfaces := interfaces.map PwospfInterface.content } := by
  obtain ⟨router, hget, rfl⟩ := Option.map_eq_some_iff.mp hown
  have hours := getRouterByRid_setOurs rs (fun r => { r with interfaceList := interfaces })
    fun _ => rfl
  rw [hget] at hours
  exact congrArg (Option.map PwospfRouter.content) hours

theorem setInterfaces_entry (rs : RouterState) (interfaces : List PwospfInterface)
    {rid : BitVec 32} (hrid : rid ≠ rs.routerId) :
    (rs.setOurs fun r => { r with interfaceList := interfaces }).entry rid = rs.entry rid :=
  congrArg (Option.map PwospfRouter.content)
    (getRouterByRid_setRouter hrid (fun r => { r with interfaceList := interfaces })
      (fun _ => rfl) rs.pwospfRouterList)

theorem entry_of_lsuTimeout {timedOut : BitVec 32 → Bool} {rs : RouterState} {rid : BitVec 32}
    {c : Content} (hrid : rid ≠ rs.routerId) (h : (lsuTimeout timedOut rs).1.entry rid = some c) :
    rs.entry rid = some c := by
  by_cases hkept : timedOut rid = false
  · rw [← lsuTimeout_entry timedOut rs hrid hkept]
    exact h
  · unfold lsuTimeout at h
    dsimp only at h
    split at h
    · have hframes := propagatePwospfChanges_frames { rs with
        pwospfRouterList := rs.pwospfRouterList.filter
          fun r => r.routerId == rs.routerId || !timedOut r.routerId }
      obtain ⟨r, hget, -⟩ := Option.map_eq_some_iff.mp ((hframes.entry rid hrid).symm.trans h)
      have hmem := List.mem_filter.mp (List.mem_of_find?_eq_some hget)
      have hr := getRouterByRid_routerId hget
      rw [hr] at hmem
      simp [hrid, hkept] at hmem
    · exact h

/-- A packet comes to the router that it is for, or nothing happens. -/
theorem step_deliver (st : State ι) (k : Nat) (i : ι) :
    st.step (.deliver k i) = some st ∨
      ∃ packet, st.flight[k]? = some packet ∧ (st.routers i).isFor packet = true ∧
        st.step (.deliver k i) =
          { st with flight := st.flight.eraseIdx k }.deliver i packet := by
  cases hget : st.flight[k]? with
  | none => exact .inl (by simp only [State.step, hget])
  | some packet =>
    by_cases hfor : (st.routers i).isFor packet = true
    · exact .inr ⟨packet, rfl, hfor, by simp only [State.step, hget, hfor, if_true]⟩
    · exact .inl (by simp only [State.step, hget, if_neg hfor])

omit [DecidableEq ι] in
theorem Healthy.drop {st : State ι} (h : Healthy routers st) (k : Nat) :
    Healthy routers { st with flight := st.flight.eraseIdx k } :=
  ⟨h.ids, h.own, h.held, fun packet hp => h.flight packet (List.mem_of_mem_eraseIdx hp)⟩

theorem Healthy.step {st : State ι} (h : Healthy routers st) (e : Event ι) (he : e.Proper) :
    ∃ st', st.step e = some st' ∧ Healthy routers st' := by
  have hnone : ∀ copy ∈ ([] : List Bytes), OnWay routers st.built copy := by simp
  have hheld : ∀ i rid c, rid ≠ (st.routers i).pwospf.routerId →
      (st.routers i).pwospf.entry rid = some c → Backed routers st.built rid c :=
    fun i rid c hrid => h.held i rid c ((h.ids i).1 ▸ hrid)
  have howns : ∀ i, ∃ own, (st.routers i).pwospf.entry (st.routers i).pwospf.routerId = some own ∧
      Sendable own := fun i => (h.ids i).1 ▸ h.own i
  cases e with
  | flood i =>
    obtain ⟨own, hown, hsend⟩ := howns i
    have hframes := startLsuBcastFlood_frames (st.routers i).pwospf
    refine h.emit i (h.ids i) ⟨hframes.routerId, hframes.areaId⟩ hsend
      (startLsuBcastFlood_floods hown).1 (fun rid c hrid hc => ?_) hnone
    exact hheld i rid c hrid ((hframes.entry rid hrid).symm.trans hc)
  | deliver k i =>
    rcases step_deliver st k i with hidle | ⟨packet, hget, -, hstep⟩
    · exact ⟨st, hidle, h⟩
    · rw [hstep]
      exact (h.drop k).deliver i (h.flight packet (List.mem_of_getElem? hget))
  | readvertise i interfaces =>
    obtain ⟨own, hown, -⟩ := howns i
    have hnew := entry_setInterfaces interfaces hown
    have hframes := propagatePwospfChanges_frames
      ((st.routers i).pwospf.setOurs fun r => { r with interfaceList := interfaces })
    refine h.emit i (h.ids i) ⟨hframes.routerId, hframes.areaId⟩ ⟨?_, fun t ht => ?_⟩
      (propagatePwospfChanges_floods hnew).1.of_list (fun rid c hrid hc => ?_) hnone
    · rw [List.length_map]
      exact he.2
    · obtain ⟨x, hx, rfl⟩ := List.mem_map.mp ht
      exact he.1 x hx
    · have hkept := (hframes.entry rid hrid).trans (setInterfaces_entry _ interfaces hrid)
      exact hheld i rid c hrid (hkept.symm.trans hc)
  | timeout i timedOut =>
    obtain ⟨own, hown, hsend⟩ := howns i
    exact h.emit i (h.ids i) (lsuTimeout_ids timedOut _) hsend (lsuTimeout_floods timedOut hown)
      (fun rid c hrid hc => hheld i rid c hrid (entry_of_lsuTimeout hrid hc)) hnone
  | relink i ifList =>
    have hsame : ∀ x, (Function.update st.routers i { st.routers i with ifList } x).pwospf =
        (st.routers x).pwospf := by
      intro x
      by_cases hx : x = i
      · subst hx
        rw [Function.update_self]
      · rw [Function.update_of_ne hx]
    refine ⟨_, rfl, fun x => ?_, fun x => ?_, fun x => ?_, h.flight⟩
    · change (Function.update st.routers i _ x).pwospf.routerId = _ ∧ _
      rw [hsame x]
      exact h.ids x
    · change ∃ own, (Function.update st.routers i _ x).pwospf.entry _ = some own ∧ _
      rw [hsame x]
      exact h.own x
    · change ∀ rid c, _ → (Function.update st.routers i _ x).pwospf.entry rid = some c → _
      rw [hsame x]
      exact h.held x
  | lose k => exact ⟨_, rfl, h.drop k⟩
  | duplicate k =>
    refine ⟨_, rfl, h.ids, h.own, h.held, fun packet hp => ?_⟩
    rcases List.mem_append.mp hp with hp | hp
    · exact h.flight packet hp
    · exact h.flight packet (List.mem_of_getElem? (Option.mem_toList.mp hp))

theorem Healthy.run {st : State ι} (h : Healthy routers st) (events : List (Event ι))
    (hproper : ∀ e ∈ events, e.Proper) :
    ∃ st', st.run events = some st' ∧ Healthy routers st' := by
  induction events generalizing st with
  | nil => exact ⟨st, rfl, h⟩
  | cons e events ih =>
    obtain ⟨st₁, hst₁, h₁⟩ := h.step e (hproper e List.mem_cons_self)
    obtain ⟨st', hst', h'⟩ := ih h₁ fun x hx => hproper x (List.mem_cons_of_mem e hx)
    refine ⟨st', ?_, h'⟩
    unfold State.run at hst' ⊢
    rw [List.foldlM_cons, hst₁]
    exact hst'

/-- However packets are lost, repeated and overtaken by others: no router reads beyond the end of a
packet, and whatever a router holds about another one is what that one has sent out, under the
number that it sent it out. -/
theorem lsus_authentic (hboots : ∀ i, Boots (routers i)) (events : List (Event ι))
    (hproper : ∀ e ∈ events, e.Proper) :
    ∃ st, (start routers).run events = some st ∧
      ∀ i rid c, rid ≠ (routers i).pwospf.routerId → (st.routers i).pwospf.entry rid = some c →
        ∃ j interfaces, (routers j).pwospf.routerId = rid ∧
          lsuPacket (routers j).pwospf c.seq interfaces ∈ st.built j ∧
          ∀ t, t ∈ c.interfaces ↔ t ∈ interfaces.map PwospfInterface.content := by
  obtain ⟨st, hst, h⟩ := (healthy_start hboots).run events hproper
  refine ⟨st, hst, fun i rid c hrid hc => ?_⟩
  obtain ⟨j, interfaces, hid, hissued, hsame⟩ := h.held i rid c hrid hc
  exact ⟨j, interfaces, hid, hissued.built, hsame⟩

end Network

def pairId (i : Bool) : BitVec 32 := if i then 2 else 1

def pairIp (i : Bool) : BitVec 32 := if i then 0x0200000A else 0x0100000A

/-- Two routers with a link between them. -/
def pair (i : Bool) : Router :=
  boot (pairId i) 0 true
    [⟨"eth0", pairIp i, 0x00FFFFFF, true, [⟨pairId (!i), pairIp (!i), 0⟩], false, Iface.eth0_lt⟩]
    fun _ => if i then ⟨0, 0, 0, 0, 0, 2⟩ else ⟨0, 0, 0, 0, 0, 1⟩

theorem pair_boots (i : Bool) : Boots (pair i) :=
  ⟨_, _, _, _, _, rfl, by change 32 + 12 * 1 < 2 ^ 16; decide⟩

theorem lsus_authentic_pair : ∃ st,
    (start pair).run [.flood false, .duplicate 0, .deliver 0 true, .lose 0,
      .timeout true fun _ => false] = some st ∧
    ∀ i rid c, rid ≠ (pair i).pwospf.routerId → (st.routers i).pwospf.entry rid = some c →
      ∃ j interfaces, (pair j).pwospf.routerId = rid ∧
        lsuPacket (pair j).pwospf c.seq interfaces ∈ st.built j ∧
        ∀ t, t ∈ c.interfaces ↔ t ∈ interfaces.map PwospfInterface.content :=
  lsus_authentic pair_boots _ (by simp [Event.Proper])

end Osnt.Scone.LsuNetwork
