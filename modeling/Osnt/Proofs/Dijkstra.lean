import Mathlib.Data.List.Nodup
import Osnt.Lib.Hops
import Osnt.Scone.Dijkstra

namespace Osnt.Scone.Dijkstra
open Lib Lib.Hops
open Pwospf (PwospfInterface)

/-- The routers are at different addresses and have different ids, none of them 0. -/
structure Distinct (routers : List Router) : Prop where
  addrs : (routers.map Router.addr).Nodup
  ids : (routers.map Router.routerId).Nodup
  nonzero : ∀ r ∈ routers, r.routerId ≠ 0

/-- An active adjacency between two routers of the list. -/
def Hop (routers : List Router) (a b : BitVec 32) : Prop :=
  (∃ r ∈ routers, r.routerId = a ∧
    ∃ i ∈ r.interfaceList, i.routerId ≠ 0 ∧ i.isActive = true ∧ i.routerId = b) ∧
  ∃ v ∈ routers, v.routerId = b

theorem getRouterByRid_some {rid : BitVec 32} {routers : List Router} {r : Router}
    (h : getRouterByRid rid routers = some r) : r ∈ routers ∧ r.routerId = rid := by
  have hr := List.find?_some (p := fun r : Router => r.routerId == rid) h
  exact ⟨List.mem_of_find?_eq_some h, eq_of_beq hr⟩

theorem getRouterAt_some {addr : Nat} {routers : List Router} {r : Router}
    (h : getRouterAt addr routers = some r) : r ∈ routers ∧ r.addr = addr := by
  have hr := List.find?_some (p := fun r : Router => r.addr == addr) h
  exact ⟨List.mem_of_find?_eq_some h, eq_of_beq hr⟩

theorem getRouterByRid_of_mem {routers : List Router} (h : Distinct routers) {r : Router}
    (hr : r ∈ routers) : getRouterByRid r.routerId routers = some r := by
  cases hget : getRouterByRid r.routerId routers with
  | none =>
    have hno := List.find?_eq_none.mp hget r hr
    simp at hno
  | some r' =>
    obtain ⟨hr', hid⟩ := getRouterByRid_some hget
    rw [List.inj_on_of_nodup_map h.ids hr' hr hid]

theorem getRouterAt_of_mem {routers : List Router} (h : Distinct routers) {r : Router}
    (hr : r ∈ routers) : getRouterAt r.addr routers = some r := by
  cases hget : getRouterAt r.addr routers with
  | none =>
    have hno := List.find?_eq_none.mp hget r hr
    simp at hno
  | some r' =>
    obtain ⟨hr', haddr⟩ := getRouterAt_some hget
    rw [List.inj_on_of_nodup_map h.addrs hr' hr haddr]

/-- A change that keeps the address, the id and the interfaces of every router. -/
structure Keeps (g : Router → Router) : Prop where
  addr : ∀ r, (g r).addr = r.addr
  routerId : ∀ r, (g r).routerId = r.routerId
  interfaceList : ∀ r, (g r).interfaceList = r.interfaceList

section Keeps
variable {g : Router → Router} (hg : Keeps g)
include hg

theorem Keeps.getRouterByRid_map (rid : BitVec 32) (routers : List Router) :
    getRouterByRid rid (routers.map g) = (getRouterByRid rid routers).map g := by
  unfold getRouterByRid
  rw [List.find?_map]
  congr 2
  funext r
  exact congrArg (· == rid) (hg.routerId r)

theorem Keeps.getRouterAt_map (addr : Nat) (routers : List Router) :
    getRouterAt addr (routers.map g) = (getRouterAt addr routers).map g := by
  unfold getRouterAt
  rw [List.find?_map]
  congr 2
  funext r
  exact congrArg (· == addr) (hg.addr r)

theorem Keeps.distinct {routers : List Router} (h : Distinct routers) :
    Distinct (routers.map g) := by
  have haddr : Router.addr ∘ g = Router.addr := funext hg.addr
  have hid : Router.routerId ∘ g = Router.routerId := funext hg.routerId
  refine ⟨?_, ?_, ?_⟩
  · rw [List.map_map, haddr]
    exact h.addrs
  · rw [List.map_map, hid]
    exact h.ids
  · intro r hr
    obtain ⟨r₀, hr₀, rfl⟩ := List.mem_map.mp hr
    rw [hg.routerId]
    exact h.nonzero r₀ hr₀

theorem Keeps.hop (routers : List Router) : Hop (routers.map g) = Hop routers := by
  funext a b
  apply propext
  simp only [Hop, List.mem_map, exists_exists_and_eq_and, hg.routerId, hg.interfaceList]

end Keeps

/-- An active interface towards the router. -/
def toward (interfaces : List PwospfInterface) (rid : BitVec 32) : Bool :=
  interfaces.any fun i => decide (i.routerId ≠ 0) && i.isActive && i.routerId == rid

/-- `r` behind an interface of `w`, if that makes it nearer. -/
def relaxed (w : Router) (r : Router) : Router :=
  if r.shortestPathFound = false ∧ (w.distance + 1) % 2 ^ 32 < r.distance then
    { r with
      distance := (w.distance + 1) % 2 ^ 32
      prevRouter := some w.addr }
  else r

theorem keeps_relaxed (w : Router) : Keeps (relaxed w) := by
  refine ⟨fun r => ?_, fun r => ?_, fun r => ?_⟩
  · unfold relaxed
    split <;> rfl
  · unfold relaxed
    split <;> rfl
  · unfold relaxed
    split <;> rfl

theorem Keeps.ite {g : Router → Router} (hg : Keeps g) (p : Router → Prop) [DecidablePred p] :
    Keeps fun r => if p r then g r else r := by
  refine ⟨fun r => ?_, fun r => ?_, fun r => ?_⟩
  · split
    · exact hg.addr r
    · rfl
  · split
    · exact hg.routerId r
    · rfl
  · split
    · exact hg.interfaceList r
    · rfl

theorem relaxed_relaxed (w r : Router) : relaxed w (relaxed w r) = relaxed w r := by
  by_cases h : r.shortestPathFound = false ∧ (w.distance + 1) % 2 ^ 32 < r.distance
  · have hr : relaxed w r = { r with
        distance := (w.distance + 1) % 2 ^ 32
        prevRouter := some w.addr } := if_pos h
    rw [hr]
    exact if_neg fun h' => Nat.lt_irrefl _ h'.2
  · have hr : relaxed w r = r := if_neg h
    rw [hr, hr]

theorem updateNeighbor_eq (w : Router) {routers : List Router} (h : Distinct routers)
    (i : PwospfInterface) :
    updateNeighbor w routers i =
      routers.map fun r => if toward [i] r.routerId = true then relaxed w r else r := by
  have htoward : ∀ rid, toward [i] rid = true ↔
      (i.routerId ≠ 0 ∧ i.isActive = true) ∧ i.routerId = rid := by
    intro rid
    simp [toward]
  unfold updateNeighbor
  by_cases hi : i.routerId ≠ 0 ∧ i.isActive = true
  · rw [if_pos hi]
    cases hget : getRouterByRid i.routerId routers with
    | none =>
      have hall := List.find?_eq_none.mp hget
      refine (List.map_id routers).symm.trans (List.map_congr_left fun r hr => ?_)
      have hne := hall r hr
      rw [beq_iff_eq] at hne
      exact (if_neg fun ht => hne ((htoward _).mp ht).2.symm).symm
    | some v =>
      obtain ⟨hv, hid⟩ := getRouterByRid_some hget
      have hmap : routers.map (fun r => if toward [i] r.routerId = true then relaxed w r else r) =
          routers.map fun r => if r.addr = v.addr then relaxed w v else r := by
        apply List.map_congr_left
        intro r hr
        by_cases haddr : r.addr = v.addr
        · have hrv := List.inj_on_of_nodup_map h.addrs hr hv haddr
          subst hrv
          rw [if_pos ((htoward _).mpr ⟨hi, hid.symm⟩), if_pos rfl]
        · rw [if_neg haddr, if_neg]
          intro ht
          have hrv := List.inj_on_of_nodup_map h.ids hr hv
            (((htoward _).mp ht).2.symm.trans hid.symm)
          exact haddr (congrArg Router.addr hrv)
      rw [hmap]
      dsimp only
      split
      · rename_i hcond
        apply List.map_congr_left
        intro r hr
        by_cases haddr : r.addr = v.addr
        · have hrv := List.inj_on_of_nodup_map h.addrs hr hv haddr
          subst hrv
          rw [if_pos rfl, if_pos rfl, relaxed, if_pos hcond]
        · rw [if_neg haddr, if_neg haddr]
      · rename_i hcond
        refine (List.map_id routers).symm.trans (List.map_congr_left fun r hr => ?_)
        by_cases haddr : r.addr = v.addr
        · have hrv := List.inj_on_of_nodup_map h.addrs hr hv haddr
          subst hrv
          rw [if_pos rfl, relaxed, if_neg hcond]
          rfl
        · rw [if_neg haddr]
          rfl
  · rw [if_neg hi]
    refine (List.map_id routers).symm.trans (List.map_congr_left fun r _ => ?_)
    exact (if_neg fun ht => hi ((htoward _).mp ht).1).symm

theorem toward_cons (i : PwospfInterface) (is : List PwospfInterface) (rid : BitVec 32) :
    toward (i :: is) rid = (toward [i] rid || toward is rid) := by
  simp [toward]

theorem updateNeighbors_eq (w : Router) {routers : List Router} (h : Distinct routers)
    (is : List PwospfInterface) :
    is.foldl (updateNeighbor w) routers =
      routers.map fun r => if toward is r.routerId = true then relaxed w r else r := by
  induction is generalizing routers with
  | nil => simp [toward]
  | cons i is ih =>
    have hkeeps := (keeps_relaxed w).ite fun r => toward [i] r.routerId = true
    rw [List.foldl_cons, updateNeighbor_eq w h i, ih (hkeeps.distinct h), List.map_map]
    apply List.map_congr_left
    intro r _
    have hid := hkeeps.routerId r
    have hcons := toward_cons i is r.routerId
    rw [Function.comp_apply, hid, hcons]
    by_cases h1 : toward [i] r.routerId = true
    · by_cases h2 : toward is r.routerId = true
      · simp [h1, h2, relaxed_relaxed]
      · simp [h1, h2]
    · simp [h1]

/-- A router after a turn for `w`. -/
def settled (w : Router) (r : Router) : Router :=
  let r := if r.addr = w.addr then { r with shortestPathFound := true } else r
  if toward w.interfaceList r.routerId = true then relaxed w r else r

theorem keeps_found : Keeps fun r => { r with shortestPathFound := true } :=
  ⟨fun _ => rfl, fun _ => rfl, fun _ => rfl⟩

theorem keeps_settled (w : Router) : Keeps (settled w) := by
  have h1 := keeps_found.ite fun r => r.addr = w.addr
  have h2 := (keeps_relaxed w).ite fun r => toward w.interfaceList r.routerId = true
  exact ⟨fun r => (h2.addr _).trans (h1.addr r), fun r => (h2.routerId _).trans (h1.routerId r),
    fun r => (h2.interfaceList _).trans (h1.interfaceList r)⟩

theorem settle_eq (w : Router) {routers : List Router} (h : Distinct routers) :
    settle w routers = routers.map (settled w) := by
  have h1 := keeps_found.ite fun r => r.addr = w.addr
  unfold settle updateNeighborDistance setAt
  rw [updateNeighbors_eq w (h1.distinct h), List.map_map]
  rfl

theorem nearer_spec (routers : List Router) (best : Option Router × Nat) :
    (routers.foldl nearer best).2 ≤ best.2 ∧
    (∀ r ∈ routers, r.shortestPathFound = false → (routers.foldl nearer best).2 ≤ r.distance) ∧
    (routers.foldl nearer best = best ∨
      ∃ u ∈ routers, u.shortestPathFound = false ∧ u.distance < best.2 ∧
        routers.foldl nearer best = (some u, u.distance)) := by
  induction routers generalizing best with
  | nil => exact ⟨Nat.le_refl _, fun _ hr => absurd hr List.not_mem_nil, .inl rfl⟩
  | cons r routers ih =>
    rw [List.foldl_cons]
    obtain ⟨hle, hall, hwhich⟩ := ih (nearer best r)
    by_cases hr : r.shortestPathFound = false ∧ r.distance < best.2
    · have hbest : nearer best r = (some r, r.distance) := if_pos hr
      rw [hbest] at hle hall hwhich ⊢
      refine ⟨by omega, ?_, .inr ?_⟩
      · intro r' hr' hf
        rcases List.mem_cons.mp hr' with rfl | hr'
        · exact hle
        · exact hall r' hr' hf
      · rcases hwhich with hsame | ⟨u, hu, huf, hlt, heq⟩
        · exact ⟨r, List.mem_cons_self, hr.1, hr.2, hsame⟩
        · exact ⟨u, List.mem_cons_of_mem _ hu, huf, Nat.lt_trans hlt hr.2, heq⟩
    · have hbest : nearer best r = best := if_neg hr
      rw [hbest] at hle hall hwhich ⊢
      refine ⟨hle, ?_, ?_⟩
      · intro r' hr' hf
        rcases List.mem_cons.mp hr' with rfl | hr'
        · have hge : best.2 ≤ r'.distance := by
            by_contra hlt
            exact hr ⟨hf, by omega⟩
          omega
        · exact hall r' hr' hf
      · rcases hwhich with hsame | ⟨u, hu, hrest⟩
        · exact .inl hsame
        · exact .inr ⟨u, List.mem_cons_of_mem _ hu, hrest⟩

theorem getShortest_none {routers : List Router} (h : getShortest routers = none) :
    ∀ r ∈ routers, r.shortestPathFound = false → maxDistance ≤ r.distance := by
  obtain ⟨-, hall, hwhich⟩ := nearer_spec routers (none, maxDistance)
  intro r hr hf
  rcases hwhich with hsame | ⟨u, -, -, -, heq⟩
  · have hle := hall r hr hf
    rw [hsame] at hle
    exact hle
  · rw [getShortest, heq] at h
    cases h

theorem getShortest_some {routers : List Router} {u : Router}
    (h : getShortest routers = some u) :
    u ∈ routers ∧ u.shortestPathFound = false ∧ u.distance < maxDistance ∧
      ∀ r ∈ routers, r.shortestPathFound = false → u.distance ≤ r.distance := by
  obtain ⟨-, hall, hwhich⟩ := nearer_spec routers (none, maxDistance)
  rcases hwhich with hsame | ⟨u', hu', hf, hlt, heq⟩
  · rw [getShortest, hsame] at h
    cases h
  · rw [getShortest, heq] at h
    cases h
    rw [heq] at hall
    exact ⟨hu', hf, hlt, hall⟩

/-- What the list says of each id. -/
def labels (routers : List Router) : Labels (BitVec 32) where
  dist v := (getRouterByRid v routers).bind fun r =>
    if r.distance < maxDistance then some r.distance else none
  found v := ∃ r, getRouterByRid v routers = some r ∧ r.shortestPathFound = true
  prev v := (getRouterByRid v routers).bind fun r =>
    r.prevRouter.bind fun a => (getRouterAt a routers).map Router.routerId

theorem labels_dist_some {routers : List Router} {v : BitVec 32} {d : Nat}
    (h : (labels routers).dist v = some d) :
    ∃ r ∈ routers, r.routerId = v ∧ r.distance = d ∧ d < maxDistance := by
  obtain ⟨r, hget, hd⟩ := Option.bind_eq_some_iff.mp h
  obtain ⟨hr, hid⟩ := getRouterByRid_some hget
  split at hd
  · rename_i hlt
    cases hd
    exact ⟨r, hr, hid, rfl, hlt⟩
  · cases hd

theorem labels_found_iff {routers : List Router} (h : Distinct routers) {r : Router}
    (hr : r ∈ routers) :
    (labels routers).found r.routerId ↔ r.shortestPathFound = true := by
  change (∃ r', getRouterByRid r.routerId routers = some r' ∧ r'.shortestPathFound = true) ↔ _
  rw [getRouterByRid_of_mem h hr]
  exact ⟨fun ⟨_, he, hf⟩ => by cases he; exact hf, fun hf => ⟨r, rfl, hf⟩⟩

theorem toward_iff_hop {routers : List Router} (h : Distinct routers) {w r : Router}
    (hw : w ∈ routers) (hr : r ∈ routers) :
    toward w.interfaceList r.routerId = true ↔ Hop routers w.routerId r.routerId := by
  unfold toward Hop
  rw [List.any_eq_true]
  constructor
  · rintro ⟨i, hi, hcond⟩
    simp only [Bool.and_eq_true, decide_eq_true_eq, beq_iff_eq] at hcond
    exact ⟨⟨w, hw, rfl, i, hi, hcond.1.1, hcond.1.2, hcond.2⟩, r, hr, rfl⟩
  · rintro ⟨⟨w', hw', hid, i, hi, hne, hact, hrid⟩, -⟩
    rw [List.inj_on_of_nodup_map h.ids hw' hw hid] at hi
    refine ⟨i, hi, ?_⟩
    simp only [hact, hrid, Bool.and_true, decide_eq_true_eq, beq_self_eq_true]
    exact hrid ▸ hne

/-- What a turn does to a router that is there: nothing, to find it, or to bring it nearer. -/
inductive SettledCases (w r : Router) : Prop
  | self (haddr : r.addr = w.addr) (heq : settled w r = { r with shortestPathFound := true })
  | nearer (haddr : r.addr ≠ w.addr) (hnot : r.shortestPathFound = false)
      (htoward : toward w.interfaceList r.routerId = true) (hlt : w.distance + 1 < r.distance)
      (heq : settled w r = { r with
        distance := w.distance + 1
        prevRouter := some w.addr })
  | kept (haddr : r.addr ≠ w.addr) (heq : settled w r = r)
      (hwhy : r.shortestPathFound = true ∨ toward w.interfaceList r.routerId = false ∨
        r.distance ≤ w.distance + 1)

theorem settled_cases {w : Router} (hw : w.distance + 1 < 2 ^ 32) (r : Router) :
    SettledCases w r := by
  have hmod : (w.distance + 1) % 2 ^ 32 = w.distance + 1 := Nat.mod_eq_of_lt hw
  by_cases haddr : r.addr = w.addr
  · refine .self haddr ?_
    simp [settled, haddr, relaxed]
  by_cases hcond : r.shortestPathFound = false ∧ toward w.interfaceList r.routerId = true ∧
      w.distance + 1 < r.distance
  · refine .nearer haddr hcond.1 hcond.2.1 hcond.2.2 ?_
    simp only [settled, if_neg haddr, if_pos hcond.2.1, relaxed, hmod,
      if_pos (And.intro hcond.1 hcond.2.2)]
  · refine .kept haddr ?_ ?_
    · simp only [settled, if_neg haddr, relaxed, hmod]
      by_cases ht : toward w.interfaceList r.routerId = true
      · rw [if_pos ht, if_neg fun h => hcond ⟨h.1, ht, h.2⟩]
      · rw [if_neg ht]
    · by_cases hf : r.shortestPathFound = true
      · exact .inl hf
      by_cases ht : toward w.interfaceList r.routerId = true
      · refine .inr (.inr ?_)
        by_contra hlt
        exact hcond ⟨by simpa using hf, ht, by omega⟩
      · exact .inr (.inl (by simpa using ht))

theorem labels_dist_eq {routers : List Router} (h : Distinct routers) {r : Router}
    (hr : r ∈ routers) :
    (labels routers).dist r.routerId =
      if r.distance < maxDistance then some r.distance else none := by
  change (getRouterByRid r.routerId routers).bind _ = _
  rw [getRouterByRid_of_mem h hr, Option.bind_some]

theorem labels_prev_eq {routers : List Router} (h : Distinct routers) {r : Router}
    (hr : r ∈ routers) :
    (labels routers).prev r.routerId =
      r.prevRouter.bind fun a => (getRouterAt a routers).map Router.routerId := by
  change (getRouterByRid r.routerId routers).bind _ = _
  rw [getRouterByRid_of_mem h hr, Option.bind_some]

section Map
variable {g : Router → Router} (hg : Keeps g) {routers : List Router} (h : Distinct routers)
variable {r : Router} (hr : r ∈ routers)
include hg h hr

theorem labels_map_dist :
    (labels (routers.map g)).dist r.routerId =
      if (g r).distance < maxDistance then some (g r).distance else none := by
  have heq := labels_dist_eq (hg.distinct h) (List.mem_map_of_mem hr)
  rw [hg.routerId] at heq
  exact heq

theorem labels_map_found_iff :
    (labels (routers.map g)).found r.routerId ↔ (g r).shortestPathFound = true := by
  have hiff := labels_found_iff (hg.distinct h) (List.mem_map_of_mem hr)
  rw [hg.routerId] at hiff
  exact hiff

theorem labels_map_prev :
    (labels (routers.map g)).prev r.routerId =
      (g r).prevRouter.bind fun a => (getRouterAt a routers).map Router.routerId := by
  have heq := labels_prev_eq (hg.distinct h) (List.mem_map_of_mem hr)
  rw [hg.routerId] at heq
  rw [heq]
  congr 1
  funext a
  rw [hg.getRouterAt_map, Option.map_map]
  congr 1
  funext r'
  exact hg.routerId r'

end Map

theorem labels_of_unknown {routers : List Router} {v : BitVec 32}
    (h : ∀ r ∈ routers, r.routerId ≠ v) :
    (labels routers).dist v = none ∧ ¬ (labels routers).found v ∧
      (labels routers).prev v = none := by
  have hget : getRouterByRid v routers = none := by
    apply List.find?_eq_none.mpr
    intro r hr he
    exact h r hr (eq_of_beq he)
  refine ⟨?_, ?_, ?_⟩
  · change (getRouterByRid v routers).bind _ = none
    rw [hget]
    rfl
  · rintro ⟨r, hr, -⟩
    rw [hget] at hr
    cases hr
  · change (getRouterByRid v routers).bind _ = none
    rw [hget]
    rfl

theorem unknown_settled (w : Router) {routers : List Router} {v : BitVec 32}
    (hv : ¬ ∃ r ∈ routers, r.routerId = v) :
    (∀ r ∈ routers, r.routerId ≠ v) ∧ ∀ r ∈ routers.map (settled w), r.routerId ≠ v := by
  have hno : ∀ r ∈ routers, r.routerId ≠ v := fun r hr he => hv ⟨r, hr, he⟩
  refine ⟨hno, fun r hr => ?_⟩
  obtain ⟨r₀, hr₀, rfl⟩ := List.mem_map.mp hr
  rw [(keeps_settled w).routerId]
  exact hno r₀ hr₀

theorem settle_relaxes {w : Router} {routers : List Router} (h : Distinct routers)
    (hw : w ∈ routers) (hdist : w.distance + 1 < maxDistance) (v : BitVec 32) :
    Relaxes (Hop routers) w.routerId w.distance (labels routers)
      (labels (routers.map (settled w))) v := by
  have hkeeps := keeps_settled w
  by_cases hv : ∃ r ∈ routers, r.routerId = v
  · obtain ⟨r, hr, rfl⟩ := hv
    have hdist' := labels_map_dist hkeeps h hr
    have hprev' := labels_map_prev hkeeps h hr
    have hfound' := labels_map_found_iff hkeeps h hr
    have hhop := toward_iff_hop h hw hr
    unfold maxDistance at hdist
    cases settled_cases (w := w) (by omega) r with
    | self haddr heq =>
      rw [heq] at hdist' hprev' hfound'
      refine .kept (.inl (hfound'.mpr rfl)) ?_ ?_
      · rw [hdist', labels_dist_eq h hr]
      · rw [hprev', labels_prev_eq h hr]
    | nearer haddr hnot htoward hlt heq =>
      rw [heq] at hdist' hprev' hfound'
      refine .nearer ?_ (hhop.mp htoward) ?_ ?_ ?_
      · rw [hfound', hnot]
        exact Bool.false_ne_true
      · intro dv hdv
        rw [labels_dist_eq h hr] at hdv
        split at hdv
        · cases hdv
          exact hlt
        · cases hdv
      · rw [hdist', if_pos (show w.distance + 1 < maxDistance from hdist)]
      · rw [hprev', Option.bind_some, getRouterAt_of_mem h hw]
        rfl
    | kept haddr heq hwhy =>
      rw [heq] at hdist' hprev' hfound'
      refine .kept ?_ ?_ ?_
      · rcases hwhy with hf | ht | hle
        · exact .inl (hfound'.mpr hf)
        · refine .inr (.inl fun hedge => ?_)
          rw [hhop.mpr hedge] at ht
          cases ht
        · refine .inr (.inr ⟨r.distance, ?_, hle⟩)
          rw [labels_dist_eq h hr, if_pos (by unfold maxDistance; omega)]
      · rw [hdist', labels_dist_eq h hr]
      · rw [hprev', labels_prev_eq h hr]
  · obtain ⟨hno, hno'⟩ := unknown_settled w hv
    obtain ⟨hd, -, hp⟩ := labels_of_unknown hno
    obtain ⟨hd', -, hp'⟩ := labels_of_unknown hno'
    refine .kept (.inr (.inl ?_)) (hd'.trans hd.symm) (hp'.trans hp.symm)
    rintro ⟨-, r, hr, he⟩
    exact hno r hr he

theorem settle_found {w : Router} {routers : List Router} (h : Distinct routers)
    (hw : w ∈ routers) (hdist : w.distance + 1 < 2 ^ 32) (v : BitVec 32) :
    (labels (routers.map (settled w))).found v ↔
      (labels routers).found v ∨ v = w.routerId := by
  have hkeeps := keeps_settled w
  by_cases hv : ∃ r ∈ routers, r.routerId = v
  · obtain ⟨r, hr, rfl⟩ := hv
    rw [labels_map_found_iff hkeeps h hr, labels_found_iff h hr]
    cases settled_cases hdist r with
    | self haddr heq =>
      have hrw := List.inj_on_of_nodup_map h.addrs hr hw haddr
      rw [heq]
      exact ⟨fun _ => .inr (congrArg _ hrw), fun _ => rfl⟩
    | nearer haddr hnot _ _ heq =>
      rw [heq]
      refine ⟨.inl, fun hor => hor.elim id fun he => ?_⟩
      exact absurd (congrArg Router.addr (List.inj_on_of_nodup_map h.ids hr hw he)) haddr
    | kept haddr heq _ =>
      rw [heq]
      refine ⟨.inl, fun hor => hor.elim id fun he => ?_⟩
      exact absurd (congrArg Router.addr (List.inj_on_of_nodup_map h.ids hr hw he)) haddr
  · obtain ⟨hno, hno'⟩ := unknown_settled w hv
    refine ⟨fun hf => absurd hf (labels_of_unknown hno').2.1, fun hor => ?_⟩
    rcases hor with hf | he
    · exact absurd hf (labels_of_unknown hno).2.1
    · exact absurd he.symm (hno w hw)

/-- What the loop leaves of a router: one that is found stays as it is, one that is in sight stays
in sight, and one that stays out of sight keeps its pointer. -/
structure Drift (r r' : Router) : Prop where
  addr : r'.addr = r.addr
  routerId : r'.routerId = r.routerId
  interfaceList : r'.interfaceList = r.interfaceList
  found : r.shortestPathFound = true →
    r'.shortestPathFound = true ∧ r'.distance = r.distance ∧ r'.prevRouter = r.prevRouter
  near : r.distance < maxDistance → r'.distance < maxDistance
  far : ¬ r'.distance < maxDistance → r'.distance = r.distance ∧ r'.prevRouter = r.prevRouter

theorem Drift.refl (r : Router) : Drift r r :=
  ⟨rfl, rfl, rfl, fun h => ⟨h, rfl, rfl⟩, fun h => h, fun _ => ⟨rfl, rfl⟩⟩

theorem Drift.trans {r r' r'' : Router} (h : Drift r r') (h' : Drift r' r'') : Drift r r'' := by
  refine ⟨h'.addr.trans h.addr, h'.routerId.trans h.routerId,
    h'.interfaceList.trans h.interfaceList, fun hf => ?_, fun hn => h'.near (h.near hn),
    fun hfar => ?_⟩
  · obtain ⟨hf', hd, hp⟩ := h.found hf
    obtain ⟨hf'', hd', hp'⟩ := h'.found hf'
    exact ⟨hf'', hd'.trans hd, hp'.trans hp⟩
  · obtain ⟨hd', hp'⟩ := h'.far hfar
    obtain ⟨hd, hp⟩ := h.far fun hn => hfar (h'.near hn)
    exact ⟨hd'.trans hd, hp'.trans hp⟩

theorem drift_settled {w : Router} (hw : w.distance + 1 < maxDistance) (r : Router) :
    Drift r (settled w r) := by
  have hw' : w.distance + 1 < 2 ^ 32 := by
    unfold maxDistance at hw
    omega
  cases settled_cases hw' r with
  | self haddr heq =>
    rw [heq]
    exact ⟨rfl, rfl, rfl, fun _ => ⟨rfl, rfl, rfl⟩, fun h => h, fun _ => ⟨rfl, rfl⟩⟩
  | nearer haddr hnot ht hlt heq =>
    rw [heq]
    refine ⟨rfl, rfl, rfl, fun hf => ?_, fun _ => hw, fun hfar => absurd hw hfar⟩
    rw [hnot] at hf
    exact absurd hf Bool.false_ne_true
  | kept haddr heq hwhy =>
    rw [heq]
    exact Drift.refl r

/-- The loop takes a list to one that differs by drifting routers. -/
def Drifts (g : Router → Router) : Prop := ∀ r, Drift r (g r)

theorem Drifts.keeps {g : Router → Router} (h : Drifts g) : Keeps g :=
  ⟨fun r => (h r).addr, fun r => (h r).routerId, fun r => (h r).interfaceList⟩

/-- The search before a turn: `w` is in hand, at its distance. -/
structure InHand (s : BitVec 32) (w : Router) (routers : List Router) : Prop where
  mem : w ∈ routers
  search : Search (Hop routers) s (fun v => (labels routers).found v ∧ v ≠ w.routerId)
    (fun v => v = w.routerId) (labels routers)
  dist : IsDist (Hop routers) s w.routerId w.distance
  prev : w.routerId ≠ s → ReachedFrom (Hop routers)
    (fun v => (labels routers).found v ∧ v ≠ w.routerId) (labels routers) w.routerId w.distance
  source : (labels routers).found s ∨ w.routerId = s

/-- The search after the loop: every router in sight is found. -/
structure Searched (s : BitVec 32) (routers : List Router) : Prop where
  search : Search (Hop routers) s (labels routers).found (fun _ => False) (labels routers)
  source : (labels routers).found s
  done : ∀ v d, (labels routers).dist v = some d → (labels routers).found v

/-- Every router within reach that has an interface is fewer than 65535 hops away. -/
def Near (s : BitVec 32) (routers : List Router) : Prop :=
  ∀ r ∈ routers, r.interfaceList ≠ [] → ∀ n, Walk (Hop routers) n s r.routerId →
    ∃ m < 0xFFFF, Walk (Hop routers) m s r.routerId

theorem Near.dist_lt {s : BitVec 32} {routers : List Router} {d : Nat} (h : Near s routers)
    {r : Router} (hr : r ∈ routers) (hne : r.interfaceList ≠ [])
    (hd : IsDist (Hop routers) s r.routerId d) : d < 0xFFFF := by
  obtain ⟨m, hm, hwalk⟩ := h r hr hne d hd.1
  exact Nat.lt_of_le_of_lt (hd.2 m hwalk) hm

/-- No distance reaches the one of a router that has not been reached. -/
def Bounded (s : BitVec 32) (routers : List Router) : Prop :=
  ∀ v d, IsDist (Hop routers) s v d → d + 1 < maxDistance

theorem Near.bounded {s : BitVec 32} {routers : List Router} (h : Near s routers) :
    Bounded s routers := by
  intro v d hd
  obtain ⟨hwalk, hmin⟩ := hd
  cases hwalk with
  | nil => decide
  | @snoc d _ u _ hwalk hhop =>
    -- the last hop is over an interface of the router before
    have hdist : IsDist (Hop routers) s u d :=
      ⟨hwalk, fun m hm => Nat.le_of_succ_le_succ (hmin (m + 1) (.snoc hm hhop))⟩
    obtain ⟨⟨r, hr, hid, i, hi, -⟩, -⟩ := hhop
    rw [← hid] at hdist
    have hlt := h.dist_lt hr (List.ne_nil_of_mem hi) hdist
    unfold maxDistance
    omega

/-- With fewer than `0xFFFFFFFF` routers no shortest path is that long. -/
theorem bounded_of_length {s : BitVec 32} {routers : List Router}
    (hours : ∃ r ∈ routers, r.routerId = s) (hlen : routers.length < 2 ^ 32 - 1) :
    Bounded s routers := by
  intro v d hd
  have hmem : ∀ u m, Walk (Hop routers) m s u → u ∈ routers.map Router.routerId := by
    intro u m hwalk
    cases hwalk with
    | nil => exact List.mem_map.mpr hours
    | snoc _ e => exact List.mem_map.mpr e.2
  have hle := hd.length_le hmem
  rw [List.length_map] at hle
  unfold maxDistance
  omega

/-- After a turn the search has settled the router in hand. -/
theorem InHand.settle {s : BitVec 32} {w : Router} {routers : List Router}
    (h : InHand s w routers) (hdistinct : Distinct routers) (hbound : Bounded s routers) :
    Search (Hop routers) s (labels (routers.map (settled w))).found (fun _ => False)
      (labels (routers.map (settled w))) ∧ (labels (routers.map (settled w))).found s := by
  have hmax : w.distance + 1 < maxDistance := hbound _ _ h.dist
  have hfound := settle_found hdistinct h.mem (by unfold maxDistance at hmax; omega)
  have hdw : (labels routers).dist w.routerId = some w.distance := by
    rw [labels_dist_eq hdistinct h.mem, if_pos (by omega)]
  refine ⟨h.search.settle (settle_relaxes hdistinct h.mem hmax) (fun v => ?_) hdw h.dist h.prev, ?_⟩
  · rw [hfound v]
    by_cases hv : v = w.routerId
    · simp [hv]
    · simp [hv]
  · rw [hfound s]
    rcases h.source with hf | he
    · exact .inl hf
    · exact .inr he.symm

theorem inHand_next {s : BitVec 32} {u : Router} {routers : List Router}
    (hdistinct : Distinct routers)
    (hsearch : Search (Hop routers) s (labels routers).found (fun _ => False) (labels routers))
    (hs : (labels routers).found s) (hu : getShortest routers = some u) :
    InHand s u routers := by
  obtain ⟨hmem, hnot, hlt, hmin⟩ := getShortest_some hu
  have hunf : ¬ (labels routers).found u.routerId := by
    rw [labels_found_iff hdistinct hmem, hnot]
    exact Bool.false_ne_true
  have hP : (fun v => (labels routers).found v ∧ v ≠ u.routerId) = (labels routers).found := by
    funext v
    apply propext
    exact ⟨fun h => h.1, fun h => ⟨h, fun he => hunf (he ▸ h)⟩⟩
  have hus : u.routerId ≠ s := fun he => hunf (he ▸ hs)
  have hdu : (labels routers).dist u.routerId = some u.distance := by
    rw [labels_dist_eq hdistinct hmem, if_pos hlt]
  have hdist := hsearch.isDist hs hus hunf hdu fun v dv hv hdv => by
    obtain ⟨r, hr, rfl, rfl, -⟩ := labels_dist_some hdv
    rw [labels_found_iff hdistinct hr, Bool.not_eq_true] at hv
    exact hmin r hr hv
  have hreached := hsearch.reached u.routerId u.distance not_false hus hdu
  refine ⟨hmem, ?_, hdist, ?_, .inl hs⟩
  · rw [hP]
    exact ⟨hsearch.settled, fun v d _ => hsearch.reached v d not_false, hsearch.relaxed⟩
  · rw [hP]
    exact fun _ => hreached

theorem countP_lt_countP {α : Type} {p q : α → Bool} {l : List α}
    (h : ∀ x ∈ l, p x = true → q x = true) {a : α} (ha : a ∈ l) (hq : q a = true)
    (hp : p a = false) : l.countP p < l.countP q := by
  induction l with
  | nil => cases ha
  | cons x l ih =>
    have hmono := List.countP_mono_left fun y hy => h y (List.mem_cons_of_mem x hy)
    have hx := h x List.mem_cons_self
    rw [List.countP_cons, List.countP_cons]
    rcases List.mem_cons.mp ha with rfl | ha
    · simp only [hp, hq, Bool.false_eq_true, if_false, if_true]
      omega
    · have hlt := ih (fun y hy => h y (List.mem_cons_of_mem x hy)) ha
      by_cases hpx : p x = true
      · rw [if_pos hpx, if_pos (hx hpx)]
        omega
      · rw [if_neg hpx]
        omega

/-- The routers that turns are still needed for, with `w` in hand. -/
def unsettled (w : Router) (routers : List Router) : Nat :=
  routers.countP fun r => !r.shortestPathFound && r.addr != w.addr

theorem unsettled_lt {w u : Router} {routers : List Router} (hdist : w.distance + 1 < 2 ^ 32)
    (hu : u ∈ routers.map (settled w)) (hnot : u.shortestPathFound = false) :
    unsettled u (routers.map (settled w)) < unsettled w routers := by
  obtain ⟨u₀, hu₀, rfl⟩ := List.mem_map.mp hu
  have himp : ∀ r, (settled w r).shortestPathFound = false →
      r.shortestPathFound = false ∧ r.addr ≠ w.addr := by
    intro r hf
    cases settled_cases hdist r with
    | self haddr heq =>
      rw [heq] at hf
      cases hf
    | nearer haddr hn _ _ _ => exact ⟨hn, haddr⟩
    | kept haddr heq _ =>
      rw [heq] at hf
      exact ⟨hf, haddr⟩
  unfold unsettled
  rw [List.countP_map]
  apply countP_lt_countP _ hu₀
  · obtain ⟨hf, haddr⟩ := himp u₀ hnot
    simp [hf, haddr]
  · simp
  · intro r _ hr
    rw [Function.comp_apply, Bool.and_eq_true, Bool.not_eq_true'] at hr
    obtain ⟨hf, haddr⟩ := himp r hr.1
    simp [hf, haddr]

theorem settleAll_spec {s : BitVec 32} (fuel : Nat) (w : Router) (routers : List Router)
    (hdistinct : Distinct routers) (hbound : Bounded s routers) (hhand : InHand s w routers)
    (hfuel : unsettled w routers < fuel) :
    ∃ g, settleAll fuel w routers = some (routers.map g) ∧ Drifts g ∧
      Searched s (routers.map g) := by
  induction fuel generalizing w routers with
  | zero => exact absurd hfuel (Nat.not_lt_zero _)
  | succ fuel ih =>
    have hmax : w.distance + 1 < maxDistance := hbound _ _ hhand.dist
    have hkeeps := keeps_settled w
    have hhop := hkeeps.hop routers
    have hdistinct' := hkeeps.distinct hdistinct
    obtain ⟨hsearch, hs⟩ := hhand.settle hdistinct hbound
    rw [← hhop] at hsearch
    rw [settleAll, settle_eq w hdistinct]
    cases hnext : getShortest (routers.map (settled w)) with
    | none =>
      refine ⟨settled w, rfl, drift_settled hmax, hsearch, hs, fun v d hd => ?_⟩
      obtain ⟨r, hr, rfl, rfl, hrmax⟩ := labels_dist_some hd
      rw [labels_found_iff hdistinct' hr]
      by_contra hnot
      have hge := getShortest_none hnext r hr (by simpa using hnot)
      omega
    | some u =>
      obtain ⟨hu, hnot, -, -⟩ := getShortest_some hnext
      have hmeasure := unsettled_lt (by unfold maxDistance at hmax; omega) hu hnot
      have hbound' : Bounded s (routers.map (settled w)) := by
        unfold Bounded
        rw [hhop]
        exact hbound
      obtain ⟨g, hg, hdrifts, hdone⟩ := ih u _ hdistinct' hbound'
        (inHand_next hdistinct' hsearch hs hnext) (by omega)
      rw [List.map_map] at hg hdone
      exact ⟨g ∘ settled w, hg, fun r => (drift_settled hmax r).trans (hdrifts _), hdone⟩

theorem keeps_reset (s : BitVec 32) : Keeps (reset s) := by
  refine ⟨fun r => ?_, fun r => ?_, fun r => ?_⟩
  · unfold reset
    split
    · rfl
    · split <;> rfl
  · unfold reset
    split
    · rfl
    · split <;> rfl
  · unfold reset
    split
    · rfl
    · split <;> rfl

theorem reset_ours {s : BitVec 32} {r : Router} (h : r.routerId = s) :
    reset s r = { r with distance := 0, shortestPathFound := true } := if_pos h

theorem reset_other {s : BitVec 32} {r : Router} (h : r.routerId ≠ s) (hne : r.routerId ≠ 0) :
    reset s r = { r with distance := maxDistance, shortestPathFound := false } := by
  rw [reset, if_neg h, if_pos hne]

theorem inHand_start {s : BitVec 32} {routers : List Router} (h : Distinct routers) {ours : Router}
    (hours : ours ∈ routers) (hid : ours.routerId = s) :
    InHand s (reset s ours) (routers.map (reset s)) := by
  have hkeeps := keeps_reset s
  have hid' : (reset s ours).routerId = s := (hkeeps.routerId ours).trans hid
  -- nobody else is found or in sight
  have hothers : ∀ v, v ≠ s → ¬ (labels (routers.map (reset s))).found v ∧
      (labels (routers.map (reset s))).dist v = none := by
    intro v hv
    by_cases hmem : ∃ r ∈ routers, r.routerId = v
    · obtain ⟨r, hr, rfl⟩ := hmem
      have heq := reset_other hv (h.nonzero r hr)
      rw [labels_map_found_iff hkeeps h hr, labels_map_dist hkeeps h hr, heq]
      exact ⟨Bool.false_ne_true, if_neg (Nat.lt_irrefl _)⟩
    · have hno : ∀ r ∈ routers.map (reset s), r.routerId ≠ v := by
        intro r hr he
        obtain ⟨r₀, hr₀, rfl⟩ := List.mem_map.mp hr
        exact hmem ⟨r₀, hr₀, (hkeeps.routerId r₀).symm.trans he⟩
      obtain ⟨hd, hf, -⟩ := labels_of_unknown hno
      exact ⟨hf, hd⟩
  have hdist : (reset s ours).distance = 0 := by rw [reset_ours hid]
  refine ⟨List.mem_map_of_mem hours, ⟨?_, ?_, ?_⟩, ?_, ?_, .inr hid'⟩
  · intro v hv
    rw [hid'] at hv
    exact absurd hv.1 (hothers v hv.2).1
  · intro v d hv _ hd
    rw [hid'] at hv
    rw [(hothers v hv).2] at hd
    cases hd
  · intro w v dw hw
    rw [hid'] at hw
    exact absurd hw.1 (hothers w hw.2).1
  · rw [hid', hdist]
    exact isDist_self s
  · intro hne
    exact absurd hid' hne

/-- The first part of `compute_rtable` ends with every router within reach found. -/
theorem computeDistances_spec {s : BitVec 32} {routers : List Router} (h : Distinct routers)
    (hours : ∃ r ∈ routers, r.routerId = s) (hbound : Bounded s routers) :
    ∃ g, computeDistances s routers = some (routers.map g) ∧ Keeps g ∧
      (∀ r, Drift (reset s r) (g r)) ∧ Searched s (routers.map g) := by
  obtain ⟨ours, hmem, hid⟩ := hours
  have hkeeps := keeps_reset s
  have hget : getRouterByRid s (routers.map (reset s)) = some (reset s ours) := by
    rw [hkeeps.getRouterByRid_map, ← hid, getRouterByRid_of_mem h hmem]
    rfl
  have hbound' : Bounded s (routers.map (reset s)) := by
    unfold Bounded
    rw [hkeeps.hop]
    exact hbound
  have hfuel : unsettled (reset s ours) (routers.map (reset s)) <
      (routers.map (reset s)).length + 1 := Nat.lt_succ_of_le List.countP_le_length
  obtain ⟨g, hg, hdrifts, hdone⟩ := settleAll_spec _ _ _ (hkeeps.distinct h) hbound'
    (inHand_start h hmem hid) hfuel
  rw [List.map_map] at hg hdone
  refine ⟨g ∘ reset s, ?_, ?_, fun r => hdrifts _, hdone⟩
  · unfold computeDistances
    dsimp only
    rw [hget]
    exact hg
  · have hgk := hdrifts.keeps
    exact ⟨fun r => (hgk.addr _).trans (hkeeps.addr r),
      fun r => (hgk.routerId _).trans (hkeeps.routerId r),
      fun r => (hgk.interfaceList _).trans (hkeeps.interfaceList r)⟩

/-- The list that `compute_rtable` builds the routes from: the distances of the routers within
reach, with pointers back along shortest paths, and the pointers of the others as they were. -/
structure Found (s : BitVec 32) (routers : List Router) (g : Router → Router) : Prop where
  keeps : Keeps g
  dist : ∀ r ∈ routers, (g r).distance < maxDistance →
    IsDist (Hop routers) s r.routerId (g r).distance
  reach : ∀ r ∈ routers, ∀ n, Walk (Hop routers) n s r.routerId → (g r).distance < maxDistance
  prev : ∀ r ∈ routers, (g r).distance < maxDistance → r.routerId ≠ s →
    ∃ p ∈ routers, (g r).prevRouter = some p.addr ∧ (g r).distance = (g p).distance + 1 ∧
      Hop routers p.routerId r.routerId
  far : ∀ r ∈ routers, ¬ (g r).distance < maxDistance →
    (g r).distance = maxDistance ∧ (g r).prevRouter = r.prevRouter
  ours : ∀ r ∈ routers, r.routerId = s → (g r).distance = 0 ∧ (g r).prevRouter = r.prevRouter

theorem computeDistances_found {s : BitVec 32} {routers : List Router} (h : Distinct routers)
    (hours : ∃ r ∈ routers, r.routerId = s) (hbound : Bounded s routers) :
    ∃ g, computeDistances s routers = some (routers.map g) ∧ Found s routers g := by
  obtain ⟨g, hg, hkeeps, hdrift, hdone⟩ := computeDistances_spec h hours hbound
  have hhop := hkeeps.hop routers
  have hsearch := hdone.search
  rw [hhop] at hsearch
  have hdist : ∀ r ∈ routers, (g r).distance < maxDistance →
      (labels (routers.map g)).dist r.routerId = some (g r).distance := by
    intro r hr hlt
    rw [labels_map_dist hkeeps h hr, if_pos hlt]
  refine ⟨g, hg, hkeeps, ?_, ?_, ?_, ?_, ?_⟩
  · intro r hr hlt
    obtain ⟨d, hd, hisDist⟩ := hsearch.settled _ (hdone.done _ _ (hdist r hr hlt))
    rw [hdist r hr hlt] at hd
    cases hd
    exact hisDist
  · intro r hr n hwalk
    have hfound := hsearch.reachable hdone.source hdone.done _ n hwalk
    obtain ⟨d, hd, -⟩ := hsearch.settled _ hfound
    rw [labels_map_dist hkeeps h hr] at hd
    by_contra hge
    rw [if_neg hge] at hd
    cases hd
  · intro r hr hlt hne
    obtain ⟨w, dw, -, hdw, hsucc, hedge, hprev⟩ :=
      hsearch.reached _ _ not_false hne (hdist r hr hlt)
    rw [labels_map_prev hkeeps h hr] at hprev
    obtain ⟨a, ha, hat⟩ := Option.bind_eq_some_iff.mp hprev
    obtain ⟨p, hp, rfl⟩ := Option.map_eq_some_iff.mp hat
    obtain ⟨hpmem, rfl⟩ := getRouterAt_some hp
    have hpdist := labels_map_dist hkeeps h hpmem
    rw [hpdist] at hdw
    split at hdw
    · cases hdw
      exact ⟨p, hpmem, ha, hsucc, hedge⟩
    · cases hdw
  · intro r hr hfar
    obtain ⟨hd, hp⟩ := (hdrift r).far hfar
    by_cases hid : r.routerId = s
    · rw [reset_ours hid] at hd
      rw [hd] at hfar
      exact absurd (show 0 < maxDistance by decide) hfar
    · rw [reset_other hid (h.nonzero r hr)] at hd hp
      exact ⟨hd, hp⟩
  · intro r hr hid
    have hdr := (hdrift r).found
    rw [reset_ours hid] at hdr
    exact ⟨(hdr rfl).2.1, (hdr rfl).2.2⟩

/-- A router is within reach. -/
def Reachable (s : BitVec 32) (routers : List Router) (r : Router) : Prop :=
  ∃ n, Walk (Hop routers) n s r.routerId

theorem Found.reachable_iff {s : BitVec 32} {routers : List Router} {g : Router → Router}
    (hfound : Found s routers g) {r : Router} (hr : r ∈ routers) :
    Reachable s routers r ↔ (g r).distance < maxDistance :=
  ⟨fun ⟨n, hn⟩ => hfound.reach r hr n hn, fun h => ⟨_, (hfound.dist r hr h).1⟩⟩

/-- What the loop of `compute_rtable` leaves in the list: the least numbers of hops, and pointers to
a router one hop nearer. -/
structure Shortest (s : BitVec 32) (routers : List Router) (g : Router → Router) : Prop where
  keeps : Keeps g
  dist : ∀ r ∈ routers, Reachable s routers r →
    IsDist (Hop routers) s r.routerId (g r).distance
  far : ∀ r ∈ routers, (g r).distance = 0xFFFFFFFF ↔ ¬ Reachable s routers r
  prev : ∀ r ∈ routers, Reachable s routers r → r.routerId ≠ s →
    ∃ p ∈ routers, (g r).prevRouter = some p.addr ∧ (g r).distance = (g p).distance + 1 ∧
      Hop routers p.routerId r.routerId

/-- The loop ends with the distances in the graph of active adjacencies. -/
theorem distances_shortest {s : BitVec 32} {routers : List Router} (h : Distinct routers)
    (hours : ∃ r ∈ routers, r.routerId = s) (hlen : routers.length < 2 ^ 32 - 1) :
    ∃ g, computeDistances s routers = some (routers.map g) ∧ Shortest s routers g := by
  obtain ⟨g, hg, hfound⟩ := computeDistances_found h hours (bounded_of_length hours hlen)
  refine ⟨g, hg, hfound.keeps, fun r hr hreach => ?_, fun r hr => ?_, fun r hr hreach hne => ?_⟩
  · exact hfound.dist r hr ((hfound.reachable_iff hr).mp hreach)
  · rw [hfound.reachable_iff hr]
    constructor
    · intro hd
      rw [hd]
      exact Nat.lt_irrefl _
    · exact fun hfar => (hfound.far r hr hfar).1
  · exact hfound.prev r hr ((hfound.reachable_iff hr).mp hreach) hne

/-- We, a neighbour that answers, and a router behind it that does not. -/
def lineOfThree : List Router :=
  [⟨0, 1, [⟨0x0a, 0xff, 2, true⟩], 0, false, none⟩,
    ⟨1, 2, [⟨0x0a, 0xff, 1, true⟩, ⟨0x0b, 0xff, 3, false⟩], 0, false, none⟩,
    ⟨2, 3, [⟨0x0b, 0xff, 2, true⟩], 0, false, none⟩]

theorem line_distances_shortest :
    ∃ g, computeDistances 1 lineOfThree = some (lineOfThree.map g) ∧ Shortest 1 lineOfThree g :=
  distances_shortest ⟨by decide, by decide, by decide⟩ (by decide) (by decide)

end Osnt.Scone.Dijkstra
