import Osnt.Lib.FirstMatch
import Osnt.Proofs.PwospfBounds
import Osnt.Proofs.PwospfRoundTrip

namespace Osnt.Scone.Pwospf
open Lib Lib.Buffer

/-- All of an interface but the flag that `determine_active_interfaces` sets. -/
def PwospfInterface.content (i : PwospfInterface) : BitVec 32 × BitVec 32 × BitVec 32 :=
  (i.subnet, i.mask, i.routerId)

/-- An entry of the router list as far as LSUs determine it. -/
structure Content where
  routerId : BitVec 32
  seq : BitVec 16
  interfaces : List (BitVec 32 × BitVec 32 × BitVec 32)
deriving DecidableEq

def PwospfRouter.content (r : PwospfRouter) : Content :=
  ⟨r.routerId, r.seq, r.interfaceList.map PwospfInterface.content⟩

/-- The contents of the entry that `get_router_by_rid` finds. -/
def RouterState.entry (rs : RouterState) (rid : BitVec 32) : Option Content :=
  (getRouterByRid rid rs.pwospfRouterList).map PwospfRouter.content

theorem getRouterByRid_content (rid : BitVec 32) (routers : List PwospfRouter) :
    (getRouterByRid rid routers).map PwospfRouter.content =
      (routers.map PwospfRouter.content).find? fun c => c.routerId == rid := by
  rw [List.find?_map]
  rfl

theorem setActive_content (routers : List PwospfRouter) (k j : Nat) (active : Bool) :
    (setActive routers k j active).map PwospfRouter.content =
      routers.map PwospfRouter.content := by
  apply map_modify_of_fixed
  intro r
  have hmap := map_modify_of_fixed PwospfInterface.content
    (fun i => { i with isActive := active }) (fun _ => rfl) r.interfaceList j
  exact congrArg (Content.mk r.routerId r.seq) hmap

theorem foldl_content {α : Type} (f : List PwospfRouter → α → List PwospfRouter)
    (h : ∀ routers x,
      (f routers x).map PwospfRouter.content = routers.map PwospfRouter.content)
    (xs : List α) (routers : List PwospfRouter) :
    (xs.foldl f routers).map PwospfRouter.content = routers.map PwospfRouter.content := by
  induction xs generalizing routers with
  | nil => rfl
  | cons x xs ih => rw [List.foldl_cons, ih, h]

theorem determineActiveInterface_content (k j : Nat) (routers : List PwospfRouter) :
    (determineActiveInterface k routers j).map PwospfRouter.content =
      routers.map PwospfRouter.content := by
  unfold determineActiveInterface
  dsimp only
  split
  · exact setActive_content routers k j false
  · split
    · exact setActive_content routers k j false
    · rw [foldl_content]
      · exact setActive_content routers k j false
      · intro routers q
        split
        · rfl
        · split
          · rw [setActive_content, setActive_content]
          · rfl

theorem determineActiveInterfaces_content (routers : List PwospfRouter) (k : Nat) :
    (determineActiveInterfaces routers k).map PwospfRouter.content =
      routers.map PwospfRouter.content := by
  unfold determineActiveInterfaces
  apply foldl_content
  intro routers j
  exact determineActiveInterface_content k j routers

theorem getRouterByRid_setRouter {rid rid' : BitVec 32} (h : rid ≠ rid')
    (f : PwospfRouter → PwospfRouter) (hf : ∀ r, (f r).routerId = r.routerId)
    (routers : List PwospfRouter) :
    getRouterByRid rid (setRouter rid' f routers) = getRouterByRid rid routers := by
  induction routers with
  | nil => rfl
  | cons r routers ih =>
    unfold getRouterByRid at ih ⊢
    unfold setRouter
    split
    · rename_i hr
      have hne : (r.routerId == rid) = false := by
        rw [beq_eq_false_iff_ne, eq_of_beq hr]
        exact h.symm
      rw [List.find?_cons, List.find?_cons, hf r, hne]
    · rw [List.find?_cons, List.find?_cons, ih]

theorem getRouterByRid_setRouter_self (rid : BitVec 32) (f : PwospfRouter → PwospfRouter)
    (hf : ∀ r, (f r).routerId = r.routerId) (routers : List PwospfRouter) :
    getRouterByRid rid (setRouter rid f routers) = (getRouterByRid rid routers).map f := by
  induction routers with
  | nil => rfl
  | cons r routers ih =>
    unfold getRouterByRid at ih ⊢
    unfold setRouter
    split
    · rename_i hr
      rw [List.find?_cons, List.find?_cons, hf r, hr]
      rfl
    · rename_i hr
      rw [List.find?_cons, List.find?_cons, Bool.eq_false_iff.mpr hr, ih]

theorem getRouterByRid_setOurs (rs : RouterState) (f : PwospfRouter → PwospfRouter)
    (hf : ∀ r, (f r).routerId = r.routerId) :
    getRouterByRid (rs.setOurs f).routerId (rs.setOurs f).pwospfRouterList =
      (getRouterByRid rs.routerId rs.pwospfRouterList).map f :=
  getRouterByRid_setRouter_self rs.routerId f hf rs.pwospfRouterList

theorem getRouterByRid_routerId {rid : BitVec 32} {routers : List PwospfRouter}
    {r : PwospfRouter} (h : getRouterByRid rid routers = some r) : r.routerId = rid := by
  have hr := List.find?_some (p := fun r : PwospfRouter => r.routerId == rid) h
  exact eq_of_beq hr

/-- A change of our own state leaves the ids and the entries of the others. -/
structure Frames (rs rs' : RouterState) : Prop where
  routerId : rs'.routerId = rs.routerId
  areaId : rs'.areaId = rs.areaId
  entry : ∀ rid, rid ≠ rs.routerId → rs'.entry rid = rs.entry rid

theorem Frames.refl (rs : RouterState) : Frames rs rs := ⟨rfl, rfl, fun _ _ => rfl⟩

theorem startLsuBcastFlood_frames (rs : RouterState) : Frames rs (startLsuBcastFlood rs).1 := by
  unfold startLsuBcastFlood
  split
  · cases hget : getRouterByRid rs.routerId rs.pwospfRouterList with
    | none =>
      have hnone : constructPwospfLsuPacket rs = none := by
        unfold constructPwospfLsuPacket
        rw [hget]
        rfl
      rw [hnone]
      exact Frames.refl rs
    | some router =>
      rw [constructPwospfLsuPacket_eq rs router hget]
      refine ⟨rfl, rfl, fun rid hrid => ?_⟩
      have hget := getRouterByRid_setRouter hrid (fun r => { r with seq := r.seq + 1 })
        (fun _ => rfl) rs.pwospfRouterList
      exact congrArg (Option.map PwospfRouter.content) hget
  · exact Frames.refl rs

theorem entry_determined (rs : RouterState) (rid : BitVec 32) :
    RouterState.entry { rs with
      pwospfRouterList :=
        (List.range rs.pwospfRouterList.length).foldl determineActiveInterfaces
          rs.pwospfRouterList } rid = rs.entry rid := by
  unfold RouterState.entry
  rw [getRouterByRid_content, getRouterByRid_content,
    foldl_content _ determineActiveInterfaces_content]

theorem propagatePwospfChanges_frames (rs : RouterState) :
    Frames rs (propagatePwospfChanges rs).1 := by
  unfold propagatePwospfChanges
  obtain ⟨hid, harea, hentry⟩ := startLsuBcastFlood_frames { rs with
    pwospfRouterList :=
      (List.range rs.pwospfRouterList.length).foldl determineActiveInterfaces rs.pwospfRouterList }
  exact ⟨hid, harea, fun rid hrid => (hentry rid hrid).trans (entry_determined rs rid)⟩

theorem startLsuBcastFlood_goes_on {rs : RouterState} (hours : rs.entry rs.routerId ≠ none) :
    (startLsuBcastFlood rs).2 ≠ .aborts := by
  obtain ⟨own, hown⟩ := Option.ne_none_iff_exists'.mp hours
  obtain ⟨router, hget, -⟩ := Option.map_eq_some_iff.mp hown
  unfold startLsuBcastFlood
  split
  · rw [constructPwospfLsuPacket_eq rs router hget]
    exact Flood.noConfusion
  · exact Flood.noConfusion

theorem propagate_goes_on {rs : RouterState} (hours : rs.entry rs.routerId ≠ none) :
    (propagatePwospfChanges rs).2 ≠ .aborts := by
  rw [← entry_determined] at hours
  exact startLsuBcastFlood_goes_on hours

theorem lsuTimeout_entry (timedOut : BitVec 32 → Bool) (rs : RouterState) {rid : BitVec 32}
    (hrid : rid ≠ rs.routerId) (hkept : timedOut rid = false) :
    (lsuTimeout timedOut rs).1.entry rid = rs.entry rid := by
  unfold lsuTimeout
  dsimp only
  split
  · have hframes := propagatePwospfChanges_frames { rs with
      pwospfRouterList := rs.pwospfRouterList.filter
        fun r => r.routerId == rs.routerId || !timedOut r.routerId }
    refine (hframes.entry rid hrid).trans ?_
    unfold RouterState.entry getRouterByRid
    rw [List.find?_filter]
    congr 2
    funext r
    by_cases hr : r.routerId = rid
    · simp [hr, hkept]
    · simp [hr]
  · rfl

theorem lsuTimeout_ids (timedOut : BitVec 32 → Bool) (rs : RouterState) :
    (lsuTimeout timedOut rs).1.routerId = rs.routerId ∧
      (lsuTimeout timedOut rs).1.areaId = rs.areaId := by
  unfold lsuTimeout
  dsimp only
  split
  · have hframes := propagatePwospfChanges_frames { rs with
      pwospfRouterList := rs.pwospfRouterList.filter
        fun r => r.routerId == rs.routerId || !timedOut r.routerId }
    exact ⟨hframes.routerId, hframes.areaId⟩
  · exact ⟨rfl, rfl⟩

/-- The interfaces held for a router so far. -/
def heldInterfaces (rid : BitVec 32) (routers : List PwospfRouter) : List PwospfInterface :=
  ((getRouterByRid rid routers).map PwospfRouter.interfaceList).getD []

theorem updateRouterList_stale {routers : List PwospfRouter} {packet : Bytes}
    (h60 : 60 ≤ packet.length) (hstale : ¬ Fresh routers packet) :
    updateRouterList routers packet (origin packet) = some (routers, false, false) := by
  cases hget : getRouterByRid (origin packet) routers with
  | none => exact absurd (fresh_of_unknown hget) hstale
  | some router =>
    rw [fresh_iff_of_known hget] at hstale
    unfold updateRouterList
    rw [hget]
    simp only [load16_eq, Option.bind_eq_bind, h60, if_true, Option.bind_some, swap16_swap16]
    change ite (router.seq ≠ lsuSeq packet ∧ router.seq < lsuSeq packet) _ _ = _
    rw [if_neg (fun h => hstale h.2)]
    rfl

/-- A fresh LSU sets the entry of its origin, and no other one. -/
theorem updateRouterList_fresh {routers after : List PwospfRouter} {packet : Bytes}
    {rebroadcast update : Bool} (hfresh : Fresh routers packet)
    (h : updateRouterList routers packet (origin packet) = some (after, rebroadcast, update)) :
    ∃ interfaces changed,
      populatePwospfRouterInterfaceList (heldInterfaces (origin packet) routers) packet =
        some (interfaces, changed) ∧
      (getRouterByRid (origin packet) after).map PwospfRouter.content =
        some ⟨origin packet, lsuSeq packet, interfaces.map PwospfInterface.content⟩ ∧
      ∀ rid, rid ≠ origin packet → getRouterByRid rid after = getRouterByRid rid routers := by
  have h60 := ((updateRouterList_isSome routers packet).mp (by rw [h]; rfl)).1
  unfold updateRouterList at h
  cases hget : getRouterByRid (origin packet) routers with
  | none =>
    have hheld : heldInterfaces (origin packet) routers = [] := by
      unfold heldInterfaces
      rw [hget]
      rfl
    rw [hget] at h
    simp only [load16_eq, load32_eq, Option.bind_eq_bind, h60, if_true, Option.bind_some,
      swap16_swap16] at h
    obtain ⟨aid, -, h⟩ := Option.bind_eq_some_iff.mp h
    obtain ⟨⟨interfaces, changed⟩, hpop, h⟩ := Option.bind_eq_some_iff.mp h
    cases h
    refine ⟨interfaces, changed, hheld ▸ hpop, ?_, fun rid hrid => ?_⟩
    · unfold getRouterByRid at hget ⊢
      rw [List.find?_append, hget, Option.none_or, List.find?_singleton, beq_self_eq_true]
      rfl
    · have hne : (origin packet == rid) = false := beq_eq_false_iff_ne.mpr hrid.symm
      unfold getRouterByRid
      rw [List.find?_append, List.find?_singleton, hne]
      exact Option.or_none
  | some router =>
    have hlt := (fresh_iff_of_known hget).mp hfresh
    have hheld : heldInterfaces (origin packet) routers = router.interfaceList := by
      unfold heldInterfaces
      rw [hget]
      rfl
    rw [hget] at h
    simp only [load16_eq, Option.bind_eq_bind, h60, if_true, Option.bind_some, swap16_swap16] at h
    change ite (router.seq ≠ lsuSeq packet ∧ router.seq < lsuSeq packet) _ _ = _ at h
    rw [if_pos ⟨fun he => absurd hlt (by simp [he]), hlt⟩] at h
    obtain ⟨⟨interfaces, changed⟩, hpop, h⟩ := Option.bind_eq_some_iff.mp h
    cases h
    refine ⟨interfaces, changed, hheld ▸ hpop, ?_, fun rid hrid => ?_⟩
    · rw [getRouterByRid_setRouter_self, hget]
      · have hid := getRouterByRid_routerId hget
        simp only [Option.map_some, PwospfRouter.content, hid, lsuSeq]
      · intro r
        rfl
    · apply getRouterByRid_setRouter hrid
      intro r
      rfl

/-- What `process_pwospf_lsu_packet` can do. -/
inductive LsuStep (rs : RouterState) (packet : Bytes) (o : Outcome) : Prop
  | own (hown : rs.routerId = origin packet) (ho : o = .dropped rs)
  | stale (hother : rs.routerId ≠ origin packet) (hstale : ¬ Fresh rs.pwospfRouterList packet)
      (hrs : o.rs = rs) (haccepted : o.accepted = false) (hforwarded : o.forwarded = .none)
  | fresh (interfaces : List PwospfInterface) (changed : Bool)
      (hother : rs.routerId ≠ origin packet) (hfresh : Fresh rs.pwospfRouterList packet)
      (hpopulate : populatePwospfRouterInterfaceList
        (heldInterfaces (origin packet) rs.pwospfRouterList) packet = some (interfaces, changed))
      (haccepted : o.accepted = true) (hforwarded : forwardLsu packet true = some o.forwarded)
      (hentry : o.rs.entry (origin packet) =
        some ⟨origin packet, lsuSeq packet, interfaces.map PwospfInterface.content⟩)
      (hframes : ∀ rid, rid ≠ origin packet → rid ≠ rs.routerId → o.rs.entry rid = rs.entry rid)
      (hids : o.rs.routerId = rs.routerId ∧ o.rs.areaId = rs.areaId)

theorem forwardLsu_false (packet : Bytes) (h62 : 62 ≤ packet.length) :
    forwardLsu packet false = some .none := by
  unfold forwardLsu
  rw [load16_eq, if_pos h62]
  simp

theorem lsu_step_cases {rs : RouterState} {packet : Bytes} {o : Outcome}
    (h42 : 42 ≤ packet.length) (h : processPwospfLsuPacket rs packet = some o) :
    LsuStep rs packet o := by
  have hlens := (processPwospfLsuPacket_isSome rs packet h42).mp (by rw [h]; rfl)
  unfold processPwospfLsuPacket at h
  rw [load32_eq, if_pos h42] at h
  simp only [Option.bind_eq_bind, Option.bind_some] at h
  change ite (rs.routerId = origin packet) _ _ = _ at h
  by_cases hown : rs.routerId = origin packet
  · rw [if_pos hown] at h
    cases h
    exact .own hown rfl
  rw [if_neg hown] at h
  have htake := hlens hown
  have h62 := htake.header
  change Option.bind (updateRouterList rs.pwospfRouterList packet (origin packet)) _ = _ at h
  by_cases hfresh : Fresh rs.pwospfRouterList packet
  · obtain ⟨⟨after, rebroadcast, update⟩, hu, h⟩ := Option.bind_eq_some_iff.mp h
    have hreb := (updateRouterList_rebroadcast hu).mpr hfresh
    obtain ⟨interfaces, changed, hpop, hself, hothers⟩ := updateRouterList_fresh hfresh hu
    subst hreb
    obtain ⟨forwarded, hfwd, h⟩ := Option.bind_eq_some_iff.mp h
    cases h
    have hframes : Frames { rs with pwospfRouterList := after }
        (if update = true then propagatePwospfChanges { rs with pwospfRouterList := after }
          else ({ rs with pwospfRouterList := after }, .none)).1 := by
      split
      · exact propagatePwospfChanges_frames _
      · exact Frames.refl _
    refine .fresh interfaces changed hown hfresh hpop rfl hfwd ?_ (fun rid hne hrid => ?_)
      ⟨hframes.routerId, hframes.areaId⟩
    · exact (hframes.entry _ (Ne.symm hown)).trans hself
    · exact (hframes.entry rid hrid).trans (congrArg _ (hothers rid hne))
  · rw [updateRouterList_stale (by omega) hfresh, Option.bind_some] at h
    simp only [forwardLsu_false packet h62, Option.bind_some] at h
    cases h
    exact .stale hown hfresh rfl rfl rfl

end Osnt.Scone.Pwospf
