import Osnt.Proofs.Dijkstra

namespace Osnt.Scone.Dijkstra
open Pwospf (PwospfInterface)

/-- What the link-state database says of a router, without the working fields. -/
def Router.content (r : Router) : Nat × BitVec 32 × List PwospfInterface :=
  (r.addr, r.routerId, r.interfaceList)

theorem Keeps.content {g : Router → Router} (hg : Keeps g) (routers : List Router) :
    (routers.map g).map Router.content = routers.map Router.content := by
  rw [List.map_map]
  refine List.map_congr_left fun r _ => ?_
  rw [Function.comp_apply, Router.content, hg.addr, hg.routerId, hg.interfaceList]
  rfl

theorem keeps_setAt {f : Router → Router} (hf : Keeps f) (addr : Nat) (routers : List Router) :
    (setAt addr f routers).map Router.content = routers.map Router.content :=
  (hf.ite fun r => r.addr = addr).content routers

theorem updateNeighbor_content (w : Router) (routers : List Router) (i : PwospfInterface) :
    (updateNeighbor w routers i).map Router.content = routers.map Router.content := by
  unfold updateNeighbor
  split
  · split
    · split
      · refine keeps_setAt ?_ _ _
        exact ⟨fun _ => rfl, fun _ => rfl, fun _ => rfl⟩
      · rfl
    · rfl
  · rfl

theorem updateNeighbors_content (w : Router) (is : List PwospfInterface) (routers : List Router) :
    (is.foldl (updateNeighbor w) routers).map Router.content = routers.map Router.content := by
  induction is generalizing routers with
  | nil => rfl
  | cons i is ih => exact (ih _).trans (updateNeighbor_content w routers i)

theorem settle_content (w : Router) (routers : List Router) :
    (settle w routers).map Router.content = routers.map Router.content :=
  (updateNeighbors_content w _ _).trans (keeps_setAt keeps_found _ _)

theorem settleAll_content {fuel : Nat} {w : Router} {routers left : List Router}
    (h : settleAll fuel w routers = some left) :
    left.map Router.content = routers.map Router.content := by
  induction fuel generalizing w routers with
  | zero => cases h
  | succ fuel ih =>
    unfold settleAll at h
    split at h
    · exact (ih h).trans (settle_content w routers)
    · cases h
      exact settle_content w routers

theorem computeDistances_content {s : BitVec 32} {routers left : List Router}
    (h : computeDistances s routers = some left) :
    left.map Router.content = routers.map Router.content := by
  have hreset := (keeps_reset s).content routers
  unfold computeDistances at h
  dsimp only at h
  split at h
  · exact (settleAll_content h).trans hreset
  · cases h
    exact hreset

theorem computeRtable_some {s : BitVec 32} {routers left : List Router} {ifList : List IfaceEntry}
    {routes : List RtableEntry} (h : computeRtable s routers ifList = some (routes, left)) :
    computeDistances s routers = some left ∧
      ∃ wrappers, buildRouteWrapperList s left = some wrappers ∧
        unwrapAll ifList wrappers = some routes := by
  unfold computeRtable at h
  simp only [Option.bind_eq_bind, Option.bind_eq_some_iff] at h
  obtain ⟨left', hdist, wrappers, hbuild, entries, hentries, hpair⟩ := h
  cases hpair
  exact ⟨hdist, wrappers, hbuild, hentries⟩

/-- A router without its pointer. -/
def forget (r : Router) : Router := { r with prevRouter := none }

structure SameButPrev (a b : Router) : Prop where
  addr : a.addr = b.addr
  interfaceList : a.interfaceList = b.interfaceList
  distance : a.distance = b.distance
  shortestPathFound : a.shortestPathFound = b.shortestPathFound

theorem sameButPrev_of_forget {a b : Router} (h : forget a = forget b) : SameButPrev a b := by
  simp only [forget, Router.mk.injEq] at h
  obtain ⟨haddr, -, hlist, hdist, hfound, -⟩ := h
  exact ⟨haddr, hlist, hdist, hfound⟩

/-- Lists with the same image agree position by position. -/
theorem at_of_map_eq {α β : Type} {f : α → β} {as bs : List α} (h : as.map f = bs.map f) (i : Nat) :
    (as[i]? = none ∧ bs[i]? = none) ∨
      ∃ a b, as[i]? = some a ∧ bs[i]? = some b ∧ f a = f b := by
  have hi : as[i]?.map f = bs[i]?.map f := by
    rw [← List.getElem?_map, ← List.getElem?_map, h]
  cases ha : as[i]? with
  | none =>
    rw [ha] at hi
    exact .inl ⟨rfl, Option.map_eq_none_iff.mp hi.symm⟩
  | some a =>
    rw [ha] at hi
    obtain ⟨b, hb, hab⟩ := Option.map_eq_some_iff.mp hi.symm
    exact .inr ⟨a, b, rfl, hb, hab.symm⟩

theorem find_forget (p : Router → Bool) (hp : ∀ r, p (forget r) = p r) (routers : List Router) :
    (routers.map forget).find? p = (routers.find? p).map forget := by
  rw [List.find?_map]
  congr 2
  funext r
  exact hp r

theorem nearer_forget (best : Option Router × Nat) (r : Router) :
    nearer (best.1.map forget, best.2) (forget r) =
      ((nearer best r).1.map forget, (nearer best r).2) := by
  change (if r.shortestPathFound = false ∧ r.distance < best.2 then _ else _) = _
  unfold nearer
  split
  · rfl
  · rfl

theorem getShortest_forget (routers : List Router) :
    getShortest (routers.map forget) = (getShortest routers).map forget := by
  suffices hfold : ∀ best : Option Router × Nat,
      (routers.map forget).foldl nearer (best.1.map forget, best.2) =
        ((routers.foldl nearer best).1.map forget, (routers.foldl nearer best).2) from
    congrArg Prod.fst (hfold (none, maxDistance))
  induction routers with
  | nil => exact fun _ => rfl
  | cons r routers ih =>
    intro best
    rw [List.map_cons, List.foldl_cons, List.foldl_cons, nearer_forget]
    exact ih (nearer best r)

/-- Two lists of routers that differ in the pointers only. Those of the second are as in the first
or as in a third list. -/
structure Twins (left as bs : List Router) : Prop where
  same : as.map forget = bs.map forget
  prev : ∀ i : Nat, bs[i]?.map Router.prevRouter = as[i]?.map Router.prevRouter ∨
    bs[i]?.map Router.prevRouter = left[i]?.map Router.prevRouter

/-- What is written to a router does not depend on its pointer, and the pointer is either set or
kept. -/
structure Blind (f : Router → Router) : Prop where
  same : ∀ a b, forget a = forget b → forget (f a) = forget (f b)
  prev : ∀ a b, forget a = forget b → (f a).prevRouter = (f b).prevRouter ∨
    ((f a).prevRouter = a.prevRouter ∧ (f b).prevRouter = b.prevRouter)

theorem Blind.ite {f : Router → Router} (hf : Blind f) (addr : Nat) :
    Blind fun r => if r.addr = addr then f r else r := by
  refine ⟨fun a b hab => ?_, fun a b hab => ?_⟩
  · have haddr := (sameButPrev_of_forget hab).addr
    rw [haddr]
    split
    · exact hf.same a b hab
    · exact hab
  · have haddr := (sameButPrev_of_forget hab).addr
    rw [haddr]
    split
    · exact hf.prev a b hab
    · exact .inr ⟨rfl, rfl⟩

theorem blind_found : Blind fun r => { r with shortestPathFound := true } :=
  ⟨fun _ _ hab => congrArg (fun r => { r with shortestPathFound := true }) hab,
    fun _ _ _ => .inr ⟨rfl, rfl⟩⟩

theorem blind_reached (distance addr : Nat) :
    Blind fun r => { r with distance := distance, prevRouter := some addr } :=
  ⟨fun _ _ hab => congrArg (fun r => { r with distance := distance }) hab,
    fun _ _ _ => .inl rfl⟩

section Twins
variable {left as bs : List Router} (h : Twins left as bs)
include h

theorem Twins.map {f : Router → Router} (hf : Blind f) : Twins left (as.map f) (bs.map f) := by
  refine ⟨List.ext_getElem? fun i => ?_, fun i => ?_⟩
  · simp only [List.getElem?_map]
    rcases at_of_map_eq h.same i with ⟨ha, hb⟩ | ⟨a, b, ha, hb, hab⟩
    · rw [ha, hb]
    · rw [ha, hb]
      exact congrArg some (hf.same a b hab)
  · have hprev := h.prev i
    simp only [List.getElem?_map]
    rcases at_of_map_eq h.same i with ⟨ha, hb⟩ | ⟨a, b, ha, hb, hab⟩
    · rw [ha, hb]
      exact .inl rfl
    · rw [ha, hb] at hprev
      rw [ha, hb]
      rcases hf.prev a b hab with heq | ⟨hka, hkb⟩
      · exact .inl (congrArg some heq.symm)
      · simp only [Option.map_some] at hprev ⊢
        rw [hka, hkb]
        exact hprev

theorem Twins.getRouterByRid (rid : BitVec 32) :
    (getRouterByRid rid as).map forget = (getRouterByRid rid bs).map forget := by
  unfold Dijkstra.getRouterByRid
  rw [← find_forget _ (fun _ => rfl), ← find_forget _ (fun _ => rfl), h.same]

theorem Twins.getShortest : (getShortest as).map forget = (getShortest bs).map forget := by
  rw [← getShortest_forget, ← getShortest_forget, h.same]

theorem Twins.updateNeighbor {w w' : Router} (hw : forget w = forget w') (i : PwospfInterface) :
    Twins left (updateNeighbor w as i) (updateNeighbor w' bs i) := by
  have hdist := (sameButPrev_of_forget hw).distance
  have haddr := (sameButPrev_of_forget hw).addr
  have hget := h.getRouterByRid i.routerId
  unfold Dijkstra.updateNeighbor
  rw [hdist, haddr]
  split
  · cases ha : Dijkstra.getRouterByRid i.routerId as with
    | none =>
      rw [ha] at hget
      rw [Option.map_eq_none_iff.mp hget.symm]
      exact h
    | some v =>
      rw [ha] at hget
      obtain ⟨v', hv', hvv⟩ := Option.map_eq_some_iff.mp hget.symm
      have hv := sameButPrev_of_forget hvv
      rw [hv']
      dsimp only
      rw [hv.shortestPathFound, hv.distance, hv.addr]
      split
      · exact h.map ((blind_reached _ _).ite v.addr)
      · exact h
  · exact h

end Twins

theorem Twins.updateNeighbors {left as bs : List Router} {w w' : Router}
    (hw : forget w = forget w') (is : List PwospfInterface) (h : Twins left as bs) :
    Twins left (is.foldl (Dijkstra.updateNeighbor w) as)
      (is.foldl (Dijkstra.updateNeighbor w') bs) := by
  induction is generalizing as bs with
  | nil => exact h
  | cons i is ih => exact ih (h.updateNeighbor hw i)

theorem Twins.settle {left as bs : List Router} {w w' : Router} (hw : forget w = forget w')
    (h : Twins left as bs) : Twins left (settle w as) (settle w' bs) := by
  have haddr := (sameButPrev_of_forget hw).addr
  have hlist := (sameButPrev_of_forget hw).interfaceList
  unfold Dijkstra.settle updateNeighborDistance
  rw [haddr, hlist]
  exact Twins.updateNeighbors hw _ (h.map (blind_found.ite w'.addr))

theorem Twins.settleAll {left as bs as' : List Router} {fuel : Nat} {w w' : Router}
    (hw : forget w = forget w') (h : Twins left as bs)
    (hrun : settleAll fuel w as = some as') :
    ∃ bs', settleAll fuel w' bs = some bs' ∧ Twins left as' bs' := by
  induction fuel generalizing w w' as bs with
  | zero => cases hrun
  | succ fuel ih =>
    have hnext := h.settle hw
    have hshort := hnext.getShortest
    unfold Dijkstra.settleAll at hrun ⊢
    cases ha : Dijkstra.getShortest (Dijkstra.settle w as) with
    | none =>
      rw [ha] at hshort hrun
      cases hrun
      rw [Option.map_eq_none_iff.mp hshort.symm]
      exact ⟨_, rfl, hnext⟩
    | some u =>
      rw [ha] at hshort hrun
      obtain ⟨u', hu', huu⟩ := Option.map_eq_some_iff.mp hshort.symm
      rw [hu']
      exact ih huu.symm hnext hrun

theorem Twins.eq {left bs : List Router} (h : Twins left left bs) : bs = left := by
  refine List.ext_getElem? fun i => ?_
  have hprev := (h.prev i).elim id id
  rcases at_of_map_eq h.same i with ⟨hl, hb⟩ | ⟨l, b, hl, hb, hlb⟩
  · rw [hl, hb]
  · rw [hl, hb] at hprev ⊢
    have hback : ∀ r : Router, { forget r with prevRouter := r.prevRouter } = r := fun _ => rfl
    rw [← hback b, ← hlb, Option.some.inj hprev, hback]

/-- What the start of a run leaves of a router with an id. -/
theorem forget_reset {s : BitVec 32} {a b : Router} (hcontent : a.content = b.content)
    (hid : a.routerId ≠ 0 ∨ a.routerId = s) : forget (reset s a) = forget (reset s b) := by
  obtain ⟨addr, routerId, interfaceList, distance, found, prev⟩ := a
  obtain ⟨addr', routerId', interfaceList', distance', found', prev'⟩ := b
  cases hcontent
  by_cases hs : routerId = s
  · rw [reset_ours hs, reset_ours hs]
    rfl
  · have hne : routerId ≠ 0 := hid.resolve_right hs
    rw [reset_other hs hne, reset_other hs hne]
    rfl

theorem prevRouter_reset (s : BitVec 32) (r : Router) : (reset s r).prevRouter = r.prevRouter := by
  unfold reset
  split
  · rfl
  · split
    · rfl
    · rfl

theorem twins_reset {s : BitVec 32} {routers left : List Router}
    (hcontent : left.map Router.content = routers.map Router.content)
    (hid : ∀ r ∈ left, r.routerId ≠ 0 ∨ r.routerId = s) :
    Twins left (routers.map (reset s)) (left.map (reset s)) := by
  refine ⟨List.ext_getElem? fun i => ?_, fun i => .inr ?_⟩
  · simp only [List.getElem?_map]
    rcases at_of_map_eq hcontent i with ⟨hl, hr⟩ | ⟨l, r, hl, hr, hlr⟩
    · rw [hl, hr]
    · rw [hl, hr]
      exact congrArg some (forget_reset hlr (hid l (List.mem_of_getElem? hl))).symm
  · rw [List.getElem?_map, Option.map_map]
    congr 1
    funext r
    exact prevRouter_reset s r

theorem computeDistances_again {s : BitVec 32} {routers left : List Router}
    (h : computeDistances s routers = some left)
    (hid : ∀ r ∈ left, r.routerId ≠ 0 ∨ r.routerId = s) : computeDistances s left = some left := by
  have hcontent := computeDistances_content h
  have htwins := twins_reset hcontent hid
  have hlen : left.length = routers.length := by
    have hlen := congrArg List.length hcontent
    rwa [List.length_map, List.length_map] at hlen
  have hget := htwins.getRouterByRid s
  unfold computeDistances at h ⊢
  dsimp only at h ⊢
  rw [List.length_map] at h ⊢
  cases hr : getRouterByRid s (routers.map (reset s)) with
  | none =>
    rw [hr] at hget h
    rw [Option.map_eq_none_iff.mp hget.symm]
    cases h
    exact congrArg some htwins.eq
  | some w =>
    rw [hr] at hget h
    obtain ⟨w', hw', hww⟩ := Option.map_eq_some_iff.mp hget.symm
    rw [hw', hlen]
    obtain ⟨bs, hbs, hdone⟩ := htwins.settleAll hww.symm h
    rw [hdone.eq] at hbs
    exact hbs

/-- A second run finds the same routes, if no router is without an id. -/
theorem computeRtable_again {s : BitVec 32} {routers left : List Router} {ifList : List IfaceEntry}
    {routes : List RtableEntry} (h : computeRtable s routers ifList = some (routes, left))
    (hid : ∀ r ∈ left, r.routerId ≠ 0 ∨ r.routerId = s) :
    computeRtable s left ifList = some (routes, left) := by
  obtain ⟨hdist, wrappers, hbuild, hentries⟩ := computeRtable_some h
  unfold computeRtable
  simp only [computeDistances_again hdist hid, Option.bind_eq_bind, Option.bind_some, hbuild,
    hentries]
  rfl

end Osnt.Scone.Dijkstra
