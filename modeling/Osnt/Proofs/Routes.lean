import Mathlib.Data.List.Perm.Subperm
import Osnt.Proofs.Dijkstra

namespace Osnt.Scone.Dijkstra
open Lib Lib.Hops
open Pwospf (PwospfInterface)

/-- `n` pointers lead from the router back to us, and the one before us is `x`. -/
inductive Back (routers : List Router) : Nat → Router → BitVec 32 → Prop
  | last {r p : Router} {a : Nat} (hprev : r.prevRouter = some a)
      (hat : getRouterAt a routers = some p) (hzero : p.distance = 0) :
      Back routers 1 r r.routerId
  | more {r p : Router} {a n : Nat} {x : BitVec 32} (hprev : r.prevRouter = some a)
      (hat : getRouterAt a routers = some p) (hne : p.distance ≠ 0) (h : Back routers n p x) :
      Back routers (n + 1) r x

theorem Back.walkBack {routers : List Router} {n : Nat} {r : Router} {x : BitVec 32}
    (h : Back routers n r x) {fuel : Nat} (hfuel : n ≤ fuel) :
    walkBack routers fuel r = some x := by
  induction h generalizing fuel with
  | last hprev hat hzero =>
    obtain ⟨fuel, rfl⟩ : ∃ k, fuel = k + 1 := ⟨fuel - 1, by omega⟩
    simp [Dijkstra.walkBack, hprev, hat, hzero]
  | more hprev hat hne h ih =>
    obtain ⟨fuel, rfl⟩ : ∃ k, fuel = k + 1 := ⟨fuel - 1, by omega⟩
    have htail := ih (Nat.le_of_succ_le_succ hfuel)
    simp [Dijkstra.walkBack, hprev, hat, hne, htail]

theorem Back.unique {routers : List Router} {n m : Nat} {r : Router} {x y : BitVec 32}
    (h : Back routers n r x) (h' : Back routers m r y) : n = m := by
  induction h generalizing m with
  | last hprev hat hzero =>
    cases h' with
    | last _ _ _ => rfl
    | more hprev' hat' hne' _ =>
      rw [hprev] at hprev'
      cases hprev'
      rw [hat] at hat'
      cases hat'
      exact absurd hzero hne'
  | more hprev hat hne _ ih =>
    cases h' with
    | last hprev' hat' hzero' =>
      rw [hprev] at hprev'
      cases hprev'
      rw [hat] at hat'
      cases hat'
      exact absurd hzero' hne
    | more hprev' hat' _ h' =>
      rw [hprev] at hprev'
      cases hprev'
      rw [hat] at hat'
      cases hat'
      rw [ih h']

theorem Back.visited {routers : List Router} (hdistinct : Distinct routers) {n : Nat} {r : Router}
    {x : BitVec 32} (h : Back routers n r x) (hr : r ∈ routers) :
    ∃ visited : List Nat, visited.length = n ∧ visited.Nodup ∧
      ∀ a ∈ visited, ∃ q ∈ routers, q.addr = a ∧ ∃ m ≤ n, Back routers m q x := by
  induction h with
  | @last r p a hprev hat hzero =>
    refine ⟨[r.addr], rfl, List.nodup_singleton _, fun b hb => ?_⟩
    rw [List.mem_singleton] at hb
    exact ⟨r, hr, hb.symm, 1, Nat.le_refl _, .last hprev hat hzero⟩
  | @more r p a n x hprev hat hne hback ih =>
    obtain ⟨visited, hlen, hnodup, hall⟩ := ih (getRouterAt_some hat).1
    have hself := Back.more hprev hat hne hback
    refine ⟨r.addr :: visited, by rw [List.length_cons, hlen], ?_, fun b hb => ?_⟩
    · refine List.nodup_cons.mpr ⟨fun hmem => ?_, hnodup⟩
      obtain ⟨q, hq, haddr, m, hm, hbackq⟩ := hall _ hmem
      have hqr := List.inj_on_of_nodup_map hdistinct.addrs hq hr haddr
      subst hqr
      have huniq := hbackq.unique hself
      omega
    · rcases List.mem_cons.mp hb with rfl | hb
      · exact ⟨r, hr, rfl, n + 1, Nat.le_refl _, hself⟩
      · obtain ⟨q, hq, haddr, m, hm, hbackq⟩ := hall b hb
        exact ⟨q, hq, haddr, m, by omega, hbackq⟩

/-- So the loop needs no more turns than there are routers. -/
theorem Back.le_length {routers : List Router} (hdistinct : Distinct routers) {n : Nat} {r : Router}
    {x : BitVec 32} (h : Back routers n r x) (hr : r ∈ routers) : n ≤ routers.length := by
  obtain ⟨visited, rfl, hnodup, hall⟩ := h.visited hdistinct hr
  have hsub : visited ⊆ routers.map Router.addr := by
    intro a ha
    obtain ⟨q, hq, haddr, -⟩ := hall a ha
    exact List.mem_map.mpr ⟨q, hq, haddr⟩
  have hle := (hnodup.subperm hsub).length_le
  rw [List.length_map] at hle
  exact hle

theorem nextRid_of_back {routers : List Router} (hdistinct : Distinct routers) {n : Nat}
    {r : Router} {x : BitVec 32} (h : Back routers n r x) (hr : r ∈ routers)
    (i : PwospfInterface) : nextRid routers r i = some x := by
  have hwalk := h.walkBack (h.le_length hdistinct hr)
  have hsome : ∃ a, r.prevRouter = some a := by
    cases h with
    | last hprev _ _ => exact ⟨_, hprev⟩
    | more hprev _ _ _ => exact ⟨_, hprev⟩
  obtain ⟨a, ha⟩ := hsome
  unfold nextRid
  rw [ha]
  exact hwalk

section Found
variable {s : BitVec 32} {routers : List Router} {g : Router → Router}
variable (hdistinct : Distinct routers) (hfound : Found s routers g)
include hfound

theorem Found.ours_of_zero {r : Router} (hr : r ∈ routers) (hzero : (g r).distance = 0) :
    r.routerId = s := by
  have hdist := hfound.dist r hr (by rw [hzero]; decide)
  rw [hzero] at hdist
  exact walk_zero hdist.1

include hdistinct

theorem Found.getRouterAt {p : Router} (hp : p ∈ routers) :
    getRouterAt p.addr (routers.map g) = some (g p) := by
  rw [hfound.keeps.getRouterAt_map, getRouterAt_of_mem hdistinct hp]
  rfl

/-- The way back from a router within reach is the shortest path to it. -/
theorem Found.back (d : Nat) {r : Router} (hr : r ∈ routers) (hd : (g r).distance = d + 1)
    (hlt : d + 1 < maxDistance) :
    ∃ x, Back (routers.map g) (d + 1) (g r) x ∧ Hop routers s x ∧
      Walk (Hop routers) d x r.routerId := by
  induction d generalizing r with
  | zero =>
    have hne : r.routerId ≠ s := by
      intro he
      rw [(hfound.ours r hr he).1] at hd
      omega
    obtain ⟨p, hp, hprev, hdist, hhop⟩ := hfound.prev r hr (by omega) hne
    have hzero : (g p).distance = 0 := by omega
    refine ⟨(g r).routerId, .last hprev (hfound.getRouterAt hdistinct hp) hzero, ?_, ?_⟩
    · rw [hfound.keeps.routerId, ← hfound.ours_of_zero hp hzero]
      exact hhop
    · rw [hfound.keeps.routerId]
      exact .nil _
  | succ d ih =>
    have hne : r.routerId ≠ s := by
      intro he
      rw [(hfound.ours r hr he).1] at hd
      omega
    obtain ⟨p, hp, hprev, hdist, hhop⟩ := hfound.prev r hr (by omega) hne
    obtain ⟨x, hback, hfirst, hwalk⟩ := ih hp (by omega) (by omega)
    exact ⟨x, .more hprev (hfound.getRouterAt hdistinct hp) (by omega) hback, hfirst,
      .snoc hwalk hhop⟩

theorem Found.back_of_pointer {r p : Router} (hp : p ∈ routers)
    (hprev : (g r).prevRouter = some p.addr) (hreach : Reachable s routers p) :
    ∃ n x, Back (routers.map g) n (g r) x := by
  have hat := hfound.getRouterAt hdistinct hp
  have hlt := (hfound.reachable_iff hp).mp hreach
  by_cases hzero : (g p).distance = 0
  · exact ⟨1, _, .last hprev hat hzero⟩
  · obtain ⟨d, hd⟩ : ∃ d, (g p).distance = d + 1 := ⟨(g p).distance - 1, by omega⟩
    obtain ⟨x, hback, -, -⟩ := hfound.back hdistinct d hp hd (by omega)
    exact ⟨d + 1 + 1, x, .more hprev hat hzero hback⟩

end Found

/-- The pointers that earlier runs have left in a router out of reach lead, along routers that are
still there, to one within reach. -/
inductive Leads (s : BitVec 32) (routers : List Router) : Router → Prop
  | reached {r p : Router} (hprev : r.prevRouter = some p.addr) (hp : p ∈ routers)
      (hreach : Reachable s routers p) : Leads s routers r
  | stale {r p : Router} (hprev : r.prevRouter = some p.addr) (hp : p ∈ routers)
      (hleads : Leads s routers p) : Leads s routers r

theorem Found.back_of_leads {s : BitVec 32} {routers : List Router} {g : Router → Router}
    (hdistinct : Distinct routers) (hfound : Found s routers g) {r : Router}
    (h : Leads s routers r) (hr : r ∈ routers) (hfar : ¬ Reachable s routers r) :
    ∃ n x, Back (routers.map g) n (g r) x := by
  induction h with
  | @reached r p hprev hp hreach =>
    rw [hfound.reachable_iff hr] at hfar
    exact hfound.back_of_pointer hdistinct hp ((hfound.far r hr hfar).2.trans hprev) hreach
  | @stale r p hprev hp _ ih =>
    rw [hfound.reachable_iff hr] at hfar
    have hprev' := (hfound.far r hr hfar).2.trans hprev
    by_cases hreach : Reachable s routers p
    · exact hfound.back_of_pointer hdistinct hp hprev' hreach
    · obtain ⟨n, x, hback⟩ := ih hp hreach
      rw [hfound.reachable_iff hp] at hreach
      have hne : (g p).distance ≠ 0 := by
        rw [(hfound.far p hp hreach).1]
        decide
      exact ⟨n + 1, x, .more hprev' (hfound.getRouterAt hdistinct hp) hne hback⟩

/-- The pointers left in a router out of reach lead, along routers out of reach, to us; the one
before us is `x`. -/
inductive LeadsToUs (s : BitVec 32) (routers : List Router) : Router → BitVec 32 → Prop
  | last {r p : Router} (hprev : r.prevRouter = some p.addr) (hp : p ∈ routers)
      (hours : p.routerId = s) : LeadsToUs s routers r r.routerId
  | more {r p : Router} {x : BitVec 32} (hprev : r.prevRouter = some p.addr) (hp : p ∈ routers)
      (hfar : ¬ Reachable s routers p) (h : LeadsToUs s routers p x) : LeadsToUs s routers r x

theorem Found.back_of_leadsToUs {s : BitVec 32} {routers : List Router} {g : Router → Router}
    (hdistinct : Distinct routers) (hfound : Found s routers g) {r : Router} {x : BitVec 32}
    (h : LeadsToUs s routers r x) (hr : r ∈ routers) (hfar : ¬ Reachable s routers r) :
    ∃ n, Back (routers.map g) n (g r) x := by
  induction h with
  | @last r p hprev hp hours =>
    rw [hfound.reachable_iff hr] at hfar
    have hprev' := (hfound.far r hr hfar).2.trans hprev
    rw [← hfound.keeps.routerId r]
    exact ⟨1, .last hprev' (hfound.getRouterAt hdistinct hp) (hfound.ours p hp hours).1⟩
  | @more r p x hprev hp hfarp _ ih =>
    obtain ⟨n, hback⟩ := ih hp hfarp
    rw [hfound.reachable_iff hr] at hfar
    rw [hfound.reachable_iff hp] at hfarp
    have hprev' := (hfound.far r hr hfar).2.trans hprev
    have hne : (g p).distance ≠ 0 := by
      rw [(hfound.far p hp hfarp).1]
      decide
    exact ⟨n + 1, .more hprev' (hfound.getRouterAt hdistinct hp) hne hback⟩

/-- The subnet of an interface and its mask. -/
def subnetOf (i : PwospfInterface) : BitVec 32 × BitVec 32 := (i.subnet &&& i.mask, i.mask)

def RouteWrapper.subnet (wrapper : RouteWrapper) : BitVec 32 × BitVec 32 :=
  (wrapper.ip, wrapper.mask)

theorem isFor_iff (i : PwospfInterface) (wrapper : RouteWrapper) :
    wrapper.isFor i = true ↔ wrapper.subnet = subnetOf i := by
  simp [RouteWrapper.isFor, RouteWrapper.subnet, subnetOf]

theorem subnet_replaceWrapper (i : PwospfInterface) {f : RouteWrapper → RouteWrapper}
    (hf : ∀ wrapper, (f wrapper).subnet = wrapper.subnet) (head : List RouteWrapper) :
    (replaceWrapper i f head).map RouteWrapper.subnet = head.map RouteWrapper.subnet := by
  induction head with
  | nil => rfl
  | cons wrapper head ih =>
    unfold replaceWrapper
    split
    · rw [List.map_cons, List.map_cons, hf]
    · rw [List.map_cons, List.map_cons, ih]

theorem mem_replaceWrapper {i : PwospfInterface} {f : RouteWrapper → RouteWrapper}
    {head : List RouteWrapper} (hnodup : (head.map RouteWrapper.subnet).Nodup) {x : RouteWrapper}
    (hx : x ∈ replaceWrapper i f head) :
    (x ∈ head ∧ x.subnet ≠ subnetOf i) ∨
      ∃ wrapper, head.find? (RouteWrapper.isFor i) = some wrapper ∧ x = f wrapper := by
  induction head with
  | nil => cases hx
  | cons wrapper head ih =>
    rw [List.map_cons, List.nodup_cons] at hnodup
    unfold replaceWrapper at hx
    split at hx
    · rename_i hfor
      rcases List.mem_cons.mp hx with rfl | hx
      · exact .inr ⟨wrapper, by rw [List.find?_cons_of_pos hfor], rfl⟩
      · refine .inl ⟨List.mem_cons_of_mem _ hx, fun he => hnodup.1 ?_⟩
        rw [(isFor_iff i wrapper).mp hfor, ← he]
        exact List.mem_map_of_mem hx
    · rename_i hfor
      rcases List.mem_cons.mp hx with rfl | hx
      · exact .inl ⟨List.mem_cons_self, fun he => hfor ((isFor_iff i x).mpr he)⟩
      · rcases ih hnodup.2 hx with ⟨hmem, hne⟩ | ⟨wrapper', hfind, heq⟩
        · exact .inl ⟨List.mem_cons_of_mem _ hmem, hne⟩
        · exact .inr ⟨wrapper', by rw [List.find?_cons_of_neg hfor, hfind], heq⟩

section Add
variable {ourRid : BitVec 32} {routers : List Router} {head head' : List RouteWrapper}
variable {r : Router} {i : PwospfInterface}

/-- What one interface does to the wrappers: nothing, to take the wrapper of its subnet over, or to
add one. -/
inductive AddCases (ourRid : BitVec 32) (routers : List Router) (r : Router)
    (i : PwospfInterface) (head head' : List RouteWrapper) : Prop
  | kept (w : RouteWrapper) (hw : w ∈ head) (hk : w.subnet = subnetOf i)
      (hle : w.distance ≤ r.distance) (heq : head' = head)
  | taken (w : RouteWrapper) (hw : w ∈ head) (hk : w.subnet = subnetOf i)
      (hlt : r.distance < w.distance) (next : BitVec 32) (hnext : nextRid routers r i = some next)
      (heq : head' = replaceWrapper i
        (fun wrapper => { wrapper with
          distance := r.distance % 2 ^ 16
          nextRid := next
          directlyConnected := wrapper.directlyConnected || ourRid == r.routerId }) head)
  | added (hno : ∀ w ∈ head, w.subnet ≠ subnetOf i) (next : BitVec 32)
      (hnext : nextRid routers r i = some next)
      (heq : head' = head ++ [⟨i.subnet &&& i.mask, i.mask, r.distance % 2 ^ 16, next,
        ourRid == r.routerId⟩])

theorem addRouteWrapper_cases (h : addRouteWrapper ourRid routers r head i = some head') :
    AddCases ourRid routers r i head head' := by
  unfold addRouteWrapper at h
  cases hfind : head.find? (RouteWrapper.isFor i) with
  | some w =>
    have hw := List.mem_of_find?_eq_some hfind
    have hk := (isFor_iff i w).mp (List.find?_some hfind)
    rw [hfind] at h
    dsimp only at h
    split at h
    · rename_i hle
      exact .kept w hw hk hle (Option.some.inj h).symm
    · rename_i hlt
      obtain ⟨next, hnext, heq⟩ := Option.bind_eq_some_iff.mp h
      exact .taken w hw hk (Nat.lt_of_not_le hlt) next hnext (Option.some.inj heq).symm
  | none =>
    rw [hfind] at h
    obtain ⟨next, hnext, heq⟩ := Option.bind_eq_some_iff.mp h
    refine .added (fun w hw he => ?_) next hnext (Option.some.inj heq).symm
    exact List.find?_eq_none.mp hfind w hw ((isFor_iff i w).mpr he)

theorem AddCases.nodup (h : AddCases ourRid routers r i head head')
    (hnodup : (head.map RouteWrapper.subnet).Nodup) :
    (head'.map RouteWrapper.subnet).Nodup := by
  cases h with
  | kept w hw hk hle heq => rwa [heq]
  | taken w hw hk hlt next hnext heq =>
    rw [heq, subnet_replaceWrapper]
    · exact hnodup
    · exact fun _ => rfl
  | added hno next hnext heq =>
    rw [heq, List.map_append, List.nodup_append]
    refine ⟨hnodup, List.nodup_singleton _, fun x hx y hy hxy => ?_⟩
    obtain ⟨w, hw, rfl⟩ := List.mem_map.mp hx
    rw [List.map_singleton, List.mem_singleton] at hy
    exact hno w hw (hxy.trans hy)

/-- The wrapper that a replacement puts in the place of another. -/
theorem mem_replaced {f : RouteWrapper → RouteWrapper} {w : RouteWrapper} (hw : w ∈ head)
    (hnodup : (head.map RouteWrapper.subnet).Nodup) (hk : w.subnet = subnetOf i) :
    f w ∈ replaceWrapper i f head := by
  induction head with
  | nil => cases hw
  | cons x head ih =>
    rw [List.map_cons, List.nodup_cons] at hnodup
    unfold replaceWrapper
    rcases List.mem_cons.mp hw with rfl | hw
    · rw [if_pos ((isFor_iff i w).mpr hk)]
      exact List.mem_cons_self
    · rw [if_neg]
      · exact List.mem_cons_of_mem _ (ih hw hnodup.2)
      · intro hx
        refine hnodup.1 ?_
        rw [(isFor_iff i x).mp hx, ← hk]
        exact List.mem_map_of_mem hw

theorem AddCases.frame (h : AddCases ourRid routers r i head head') {w : RouteWrapper}
    (hne : w.subnet ≠ subnetOf i) (hnodup : (head.map RouteWrapper.subnet).Nodup) :
    w ∈ head' ↔ w ∈ head := by
  cases h with
  | kept _ _ _ _ heq => rw [heq]
  | taken x hx hk hlt next hnext heq =>
    rw [heq]
    constructor
    · intro hw
      rcases mem_replaceWrapper hnodup hw with ⟨hmem, -⟩ | ⟨y, hy, rfl⟩
      · exact hmem
      · exact absurd ((isFor_iff i y).mp (List.find?_some hy)) hne
    · clear hx hk hlt hnodup heq
      intro hw
      induction head with
      | nil => cases hw
      | cons y head ih =>
        unfold replaceWrapper
        rcases List.mem_cons.mp hw with rfl | hw
        · rw [if_neg (mt (isFor_iff i w).mp hne)]
          exact List.mem_cons_self
        · split
          · exact List.mem_cons_of_mem _ hw
          · exact List.mem_cons_of_mem _ (ih hw)
  | added hno next hnext heq =>
    rw [heq, List.mem_append, List.mem_singleton]
    refine ⟨fun hw => hw.resolve_right ?_, .inl⟩
    rintro rfl
    exact hne rfl

/-- The subnet of the interface has a wrapper from then on. -/
theorem AddCases.subnet_mem (h : AddCases ourRid routers r i head head')
    {k : BitVec 32 × BitVec 32} (hk : k ∈ head.map RouteWrapper.subnet ∨ k = subnetOf i) :
    k ∈ head'.map RouteWrapper.subnet := by
  cases h with
  | kept w hw hwk hle heq =>
    rw [heq]
    rcases hk with hk | rfl
    · exact hk
    · exact List.mem_map.mpr ⟨w, hw, hwk⟩
  | taken w hw hwk hlt next hnext heq =>
    rw [heq, subnet_replaceWrapper]
    · rcases hk with hk | rfl
      · exact hk
      · exact List.mem_map.mpr ⟨w, hw, hwk⟩
    · exact fun _ => rfl
  | added hno next hnext heq =>
    rw [heq, List.map_append]
    rcases hk with hk | rfl
    · exact List.mem_append_left _ hk
    · exact List.mem_append_right _ List.mem_cons_self

theorem addRouteWrapper_isSome {next : BitVec 32} (hnext : nextRid routers r i = some next)
    (head : List RouteWrapper) :
    ∃ head', addRouteWrapper ourRid routers r head i = some head' := by
  unfold addRouteWrapper
  cases head.find? (RouteWrapper.isFor i) with
  | some w =>
    dsimp only
    split
    · exact ⟨_, rfl⟩
    · rw [hnext]
      exact ⟨_, rfl⟩
  | none =>
    dsimp only
    rw [hnext]
    exact ⟨_, rfl⟩

end Add

/-- A wrapper stands for the interface `i` of `r`, a nearest one among those seen. -/
structure Holds (ourRid : BitVec 32) (routers : List Router)
    (seen : List (Router × PwospfInterface)) (wrapper : RouteWrapper) (r : Router)
    (i : PwospfInterface) : Prop where
  mem : (r, i) ∈ seen
  subnet : wrapper.subnet = subnetOf i
  distance : wrapper.distance = r.distance % 2 ^ 16
  next : nextRid routers r i = some wrapper.nextRid
  direct : wrapper.directlyConnected = true ↔ ourRid = r.routerId
  nearest : ∀ r' i', (r', i') ∈ seen → subnetOf i' = subnetOf i → r.distance ≤ r'.distance

/-- The wrappers after the interfaces in `seen`: one for each subnet, for a nearest interface. -/
structure Wrapped (ourRid : BitVec 32) (routers : List Router)
    (seen : List (Router × PwospfInterface)) (head : List RouteWrapper) : Prop where
  nodup : (head.map RouteWrapper.subnet).Nodup
  holder : ∀ wrapper ∈ head, ∃ r i, Holds ourRid routers seen wrapper r i
  covered : ∀ r i, (r, i) ∈ seen → ∃ wrapper ∈ head, wrapper.subnet = subnetOf i

/-- The distances fit in 16 bits, but for those of the routers out of reach, and only we are at
distance 0. -/
structure Fits (ourRid : BitVec 32) (r : Router) : Prop where
  fits : r.distance < 0xFFFF ∨ r.distance = maxDistance
  ours : r.routerId = ourRid → r.distance = 0

section Step
variable {ourRid : BitVec 32} {routers : List Router} {seen : List (Router × PwospfInterface)}
variable {head : List RouteWrapper} {r : Router} {i : PwospfInterface}

/-- A wrapper for another subnet stands for the same interface as before. -/
theorem Holds.other {wrapper : RouteWrapper} {r' : Router} {i' : PwospfInterface}
    (h : Holds ourRid routers seen wrapper r' i') (hne : wrapper.subnet ≠ subnetOf i) :
    Holds ourRid routers (seen ++ [(r, i)]) wrapper r' i' := by
  refine ⟨List.mem_append_left _ h.mem, h.subnet, h.distance, h.next, h.direct, ?_⟩
  intro r'' i'' hmem hsub
  rcases List.mem_append.mp hmem with hmem | hmem
  · exact h.nearest r'' i'' hmem hsub
  · rw [List.mem_singleton] at hmem
    cases hmem
    exact absurd (h.subnet.trans hsub.symm) hne

/-- An interface that is not nearer leaves the wrapper of its subnet. -/
theorem Holds.farther {wrapper : RouteWrapper} {r' : Router} {i' : PwospfInterface}
    (h : Holds ourRid routers seen wrapper r' i') (hfits' : Fits ourRid r')
    (hfits : Fits ourRid r) (hle : wrapper.distance ≤ r.distance) :
    Holds ourRid routers (seen ++ [(r, i)]) wrapper r' i' := by
  refine ⟨List.mem_append_left _ h.mem, h.subnet, h.distance, h.next, h.direct, ?_⟩
  intro r'' i'' hmem heq
  rcases List.mem_append.mp hmem with hmem | hmem
  · exact h.nearest r'' i'' hmem heq
  · rw [List.mem_singleton] at hmem
    cases hmem
    rw [h.distance] at hle
    have hfits' := hfits'.fits
    have hfits := hfits.fits
    unfold maxDistance at hfits hfits'
    omega

/-- A nearer interface takes the wrapper of its subnet over. -/
theorem Holds.nearer {wrapper : RouteWrapper} {r' : Router} {i' : PwospfInterface}
    {next : BitVec 32} (h : Holds ourRid routers seen wrapper r' i')
    (hsub : wrapper.subnet = subnetOf i) (hfits' : Fits ourRid r')
    (hnext : nextRid routers r i = some next) (hlt : r.distance < wrapper.distance) :
    Holds ourRid routers (seen ++ [(r, i)])
      { wrapper with
        distance := r.distance % 2 ^ 16
        nextRid := next
        directlyConnected := wrapper.directlyConnected || ourRid == r.routerId } r i := by
  rw [h.distance] at hlt
  have hmod := Nat.mod_le r'.distance (2 ^ 16)
  refine ⟨List.mem_append_right _ List.mem_cons_self, hsub, rfl, hnext, ?_, ?_⟩
  · -- our own wrapper is never taken over
    have hnot : wrapper.directlyConnected = false := by
      rw [Bool.eq_false_iff]
      intro hdirect
      have hzero := hfits'.ours (h.direct.mp hdirect).symm
      rw [hzero] at hlt
      exact absurd hlt (Nat.not_lt_zero _)
    rw [hnot, Bool.false_or]
    exact beq_iff_eq
  · intro r'' i'' hmem heq
    rcases List.mem_append.mp hmem with hmem | hmem
    · have hle := h.nearest r'' i'' hmem (heq.trans (hsub.symm.trans h.subnet))
      omega
    · rw [List.mem_singleton] at hmem
      cases hmem
      exact Nat.le_refl _

/-- The wrapper of the interface's subnet stands for a nearest interface again. -/
theorem Wrapped.holder_same (h : Wrapped ourRid routers seen head)
    (hseen : ∀ r' i', (r', i') ∈ seen → Fits ourRid r') (hfits : Fits ourRid r)
    {head' : List RouteWrapper} (hc : AddCases ourRid routers r i head head') {x : RouteWrapper}
    (hx : x ∈ head') (hsub : x.subnet = subnetOf i) :
    ∃ r' i', Holds ourRid routers (seen ++ [(r, i)]) x r' i' := by
  cases hc with
  | kept w hw hk hle heq =>
    rw [heq] at hx
    obtain rfl := List.inj_on_of_nodup_map h.nodup hx hw (hsub.trans hk.symm)
    obtain ⟨r', i', hholds⟩ := h.holder x hx
    exact ⟨r', i', hholds.farther (hseen r' i' hholds.mem) hfits hle⟩
  | taken w hw hk hlt next hnext heq =>
    rw [heq] at hx
    rcases mem_replaceWrapper h.nodup hx with ⟨-, hne⟩ | ⟨w', hfind, rfl⟩
    · exact absurd hsub hne
    · have hw' := List.mem_of_find?_eq_some hfind
      have hk' := (isFor_iff i w').mp (List.find?_some hfind)
      obtain rfl := List.inj_on_of_nodup_map h.nodup hw' hw (hk'.trans hk.symm)
      obtain ⟨r', i', hholds⟩ := h.holder w' hw'
      exact ⟨r, i, hholds.nearer hk' (hseen r' i' hholds.mem) hnext hlt⟩
  | added hno next hnext heq =>
    rw [heq] at hx
    rcases List.mem_append.mp hx with hx | hx
    · exact absurd hsub (hno x hx)
    · rw [List.mem_singleton] at hx
      subst hx
      refine ⟨r, i, List.mem_append_right _ List.mem_cons_self, rfl, rfl, hnext, beq_iff_eq, ?_⟩
      intro r'' i'' hmem heq
      rcases List.mem_append.mp hmem with hmem | hmem
      · obtain ⟨wrapper, hw, he⟩ := h.covered r'' i'' hmem
        exact absurd (he.trans heq) (hno wrapper hw)
      · rw [List.mem_singleton] at hmem
        cases hmem
        exact Nat.le_refl _

theorem Wrapped.step (h : Wrapped ourRid routers seen head)
    (hseen : ∀ r' i', (r', i') ∈ seen → Fits ourRid r') (hfits : Fits ourRid r)
    {next : BitVec 32} (hnext : nextRid routers r i = some next) :
    ∃ head', addRouteWrapper ourRid routers r head i = some head' ∧
      Wrapped ourRid routers (seen ++ [(r, i)]) head' := by
  obtain ⟨head', hadd⟩ := addRouteWrapper_isSome hnext head
  have hc := addRouteWrapper_cases hadd
  refine ⟨head', hadd, hc.nodup h.nodup, fun x hx => ?_, fun r' i' hmem => ?_⟩
  · by_cases hsub : x.subnet = subnetOf i
    · exact h.holder_same hseen hfits hc hx hsub
    · obtain ⟨r', i', hholds⟩ := h.holder x ((hc.frame hsub h.nodup).mp hx)
      exact ⟨r', i', hholds.other hsub⟩
  · apply List.mem_map.mp
    apply hc.subnet_mem
    rcases List.mem_append.mp hmem with hmem | hmem
    · exact .inl (List.mem_map.mpr (h.covered r' i' hmem))
    · rw [List.mem_singleton] at hmem
      cases hmem
      exact .inr rfl

end Step

/-- The interfaces of a list of routers, in the order in which they are taken. -/
def advertisements (routers : List Router) : List (Router × PwospfInterface) :=
  routers.flatMap fun r => r.interfaceList.map fun i => (r, i)

theorem mem_advertisements {routers : List Router} {r : Router} {i : PwospfInterface} :
    (r, i) ∈ advertisements routers ↔ r ∈ routers ∧ i ∈ r.interfaceList := by
  unfold advertisements
  rw [List.mem_flatMap]
  constructor
  · rintro ⟨r', hr', hmem⟩
    obtain ⟨i', hi', heq⟩ := List.mem_map.mp hmem
    cases heq
    exact ⟨hr', hi'⟩
  · rintro ⟨hr, hi⟩
    exact ⟨r, hr, List.mem_map.mpr ⟨i, hi, rfl⟩⟩

theorem addRouteWrappers_spec {ourRid : BitVec 32} {routers : List Router} {r : Router}
    (is : List PwospfInterface) (hfits : is ≠ [] → Fits ourRid r)
    (hnext : ∀ i ∈ is, ∃ next, nextRid routers r i = some next)
    (seen : List (Router × PwospfInterface)) (head : List RouteWrapper)
    (hseen : ∀ r' i', (r', i') ∈ seen → Fits ourRid r')
    (h : Wrapped ourRid routers seen head) :
    ∃ head', is.foldlM (addRouteWrapper ourRid routers r) head = some head' ∧
      Wrapped ourRid routers (seen ++ is.map fun i => (r, i)) head' := by
  induction is generalizing seen head with
  | nil => exact ⟨head, rfl, by simpa using h⟩
  | cons i is ih =>
    obtain ⟨next, hn⟩ := hnext i List.mem_cons_self
    have hfits' := hfits (List.cons_ne_nil i is)
    obtain ⟨head₁, hstep, hwrapped⟩ := h.step hseen hfits' hn
    have hseen₁ : ∀ r' i', (r', i') ∈ seen ++ [(r, i)] → Fits ourRid r' := by
      intro r' i' hmem
      rcases List.mem_append.mp hmem with hmem | hmem
      · exact hseen r' i' hmem
      · rw [List.mem_singleton] at hmem
        cases hmem
        exact hfits'
    obtain ⟨head', hrest, hdone⟩ := ih (fun _ => hfits')
      (fun j hj => hnext j (List.mem_cons_of_mem _ hj)) _ _ hseen₁ hwrapped
    refine ⟨head', ?_, ?_⟩
    · rw [List.foldlM_cons, hstep]
      exact hrest
    · rw [List.map_cons]
      rwa [List.append_assoc] at hdone

theorem buildRouteWrapperList_spec {ourRid : BitVec 32} {routers : List Router}
    (hfits : ∀ r ∈ routers, r.interfaceList ≠ [] → Fits ourRid r)
    (hnext : ∀ r ∈ routers, ∀ i ∈ r.interfaceList, ∃ next, nextRid routers r i = some next) :
    ∃ wrappers, buildRouteWrapperList ourRid routers = some wrappers ∧
      Wrapped ourRid routers (advertisements routers) wrappers := by
  -- the routers taken so far, and those to come
  suffices hfold : ∀ (rest done : List Router) (head : List RouteWrapper),
      (∀ r ∈ rest, r ∈ routers) → (∀ r ∈ done, r ∈ routers) →
      Wrapped ourRid routers (advertisements done) head →
      ∃ head', rest.foldlM (addRouteWrappers ourRid routers) head = some head' ∧
        Wrapped ourRid routers (advertisements (done ++ rest)) head' by
    have hnil : Wrapped ourRid routers (advertisements []) [] :=
      ⟨List.nodup_nil, fun wrapper hw => absurd hw List.not_mem_nil,
        fun r i hmem => absurd hmem List.not_mem_nil⟩
    exact hfold routers [] [] (fun _ hr => hr) (fun _ hr => absurd hr List.not_mem_nil) hnil
  intro rest
  induction rest with
  | nil =>
    intro done head _ _ h
    exact ⟨head, rfl, by rwa [List.append_nil]⟩
  | cons r rest ih =>
    intro done head hrest hdone h
    have hr := hrest r List.mem_cons_self
    have hseen : ∀ r' i', (r', i') ∈ advertisements done → Fits ourRid r' := by
      intro r' i' hmem
      obtain ⟨hr', hi'⟩ := mem_advertisements.mp hmem
      exact hfits r' (hdone r' hr') (List.ne_nil_of_mem hi')
    obtain ⟨head₁, hstep, hwrapped⟩ := addRouteWrappers_spec r.interfaceList (hfits r hr)
      (hnext r hr) (advertisements done) head hseen h
    have hadv : advertisements done ++ r.interfaceList.map (fun i => (r, i)) =
        advertisements (done ++ [r]) := by
      simp [advertisements]
    rw [hadv] at hwrapped
    obtain ⟨head', hfold, hfinal⟩ := ih (done ++ [r]) head₁
      (fun r' hr' => hrest r' (List.mem_cons_of_mem _ hr'))
      (fun r' hr' => (List.mem_append.mp hr').elim (hdone r') fun he => by
        rw [List.mem_singleton] at he
        exact he ▸ hr) hwrapped
    refine ⟨head', ?_, by rwa [List.append_assoc] at hfinal⟩
    rw [List.foldlM_cons]
    change ((r.interfaceList.foldlM (addRouteWrapper ourRid routers r) head).bind _) = _
    rw [hstep]
    exact hfold

theorem unwrapAll_spec {ifList : List IfaceEntry} {P : RtableEntry → Prop}
    (wrappers : List RouteWrapper)
    (h : ∀ wrapper ∈ wrappers, ∃ entry, unwrap ifList wrapper = some entry ∧
      ∀ e, entry = some e → P e) :
    ∃ entries, unwrapAll ifList wrappers = some entries ∧ ∀ e ∈ entries, P e := by
  induction wrappers with
  | nil => exact ⟨[], rfl, fun e he => absurd he List.not_mem_nil⟩
  | cons wrapper wrappers ih =>
    obtain ⟨entry, hentry, hP⟩ := h wrapper List.mem_cons_self
    obtain ⟨entries, hentries, hall⟩ := ih fun w hw => h w (List.mem_cons_of_mem _ hw)
    refine ⟨entry.toList ++ entries, ?_, fun e he => ?_⟩
    · rw [unwrapAll, hentry, hentries]
      rfl
    · rcases List.mem_append.mp he with he | he
      · exact hP e (Option.mem_toList.mp he)
      · exact hall e he

theorem getIfaceByRid_of_nbr {rid : BitVec 32} {ifList : List IfaceEntry} (hrid : rid ≠ 0)
    (h : ∃ iface ∈ ifList, ∃ nbr ∈ iface.nbrRouters, nbr.routerId = rid) :
    ∃ iface ∈ ifList, getIfaceByRid rid ifList = some iface ∧
      ∃ nbr ∈ iface.nbrRouters, getNbrByRid iface rid = some nbr ∧ nbr.routerId = rid := by
  obtain ⟨iface, hiface, nbr, hnbr, hid⟩ := h
  unfold getIfaceByRid
  rw [if_neg hrid]
  cases hfind : ifList.find? fun i => i.nbrRouters.any fun nbr => nbr.routerId == rid with
  | none =>
    refine absurd ?_ (List.find?_eq_none.mp hfind iface hiface)
    exact List.any_eq_true.mpr ⟨nbr, hnbr, beq_iff_eq.mpr hid⟩
  | some found =>
    have hany := List.find?_some hfind
    obtain ⟨nbr', hnbr', hid'⟩ := List.any_eq_true.mp hany
    refine ⟨found, List.mem_of_find?_eq_some hfind, rfl, ?_⟩
    unfold getNbrByRid
    cases hget : found.nbrRouters.find? fun nbr => nbr.routerId == rid with
    | none => exact absurd hid' (List.find?_eq_none.mp hget nbr' hnbr')
    | some nbr'' =>
      have hid'' := List.find?_some hget
      exact ⟨nbr'', List.mem_of_find?_eq_some hget, rfl, eq_of_beq hid''⟩

def Advertises (r : Router) (subnet mask : BitVec 32) : Prop :=
  ∃ i ∈ r.interfaceList, subnetOf i = (subnet, mask)

/-- A route is for a subnet within reach; it is direct if the subnet is ours, and goes to the first
hop of a shortest path to a nearest router that advertises it otherwise. -/
structure RightRoute (s : BitVec 32) (routers : List Router) (ifList : List IfaceEntry)
    (e : RtableEntry) : Prop where
  reachable : ∃ r ∈ routers, Reachable s routers r ∧ Advertises r e.ip e.mask
  ours : ∀ r ∈ routers, r.routerId = s → Advertises r e.ip e.mask → e.gw = 0
  others : (∀ r ∈ routers, r.routerId = s → ¬ Advertises r e.ip e.mask) →
    ∃ r ∈ routers, ∃ n x, Advertises r e.ip e.mask ∧
      IsDist (Hop routers) s r.routerId (n + 1) ∧ Hop routers s x ∧
      Walk (Hop routers) n x r.routerId ∧
      (∀ r' ∈ routers, Advertises r' e.ip e.mask →
        ∀ m, Walk (Hop routers) m s r'.routerId → n + 1 ≤ m) ∧
      ∃ iface ∈ ifList, ∃ nbr ∈ iface.nbrRouters, nbr.routerId = x ∧ e.gw = nbr.ip

/-- The input of a run: our own entry is there, with its pointer as it was made, and our active
neighbours are in the interface list. -/
structure Input (s : BitVec 32) (routers : List Router) (ifList : List IfaceEntry) : Prop where
  distinct : Distinct routers
  present : ∃ r ∈ routers, r.routerId = s
  nbrs : ∀ r ∈ routers, r.routerId = s → ∀ i ∈ r.interfaceList, i.isActive = true →
    i.routerId ≠ 0 → ∃ iface ∈ ifList, ∃ nbr ∈ iface.nbrRouters, nbr.routerId = i.routerId

/-- The candidate route of a router out of reach finds no interface: neither the router that its
pointers lead to is a neighbour of ours, nor is the subnet that of one of our interfaces. -/
structure Dropped (s : BitVec 32) (routers : List Router) (ifList : List IfaceEntry) (r : Router)
    (i : PwospfInterface) : Prop where
  next : ∃ x, (r.prevRouter = none ∧ x = i.routerId ∨ LeadsToUs s routers r x) ∧
    getIfaceByRid x ifList = none
  subnet : getIfaceBySubnetMask (i.subnet &&& i.mask) i.mask ifList = none

/-- What keeps the candidate routes of routers out of reach away from the result: the distances of
those within reach fit in 16 bits, every subnet out of reach is also within reach or its candidate
is dropped, and the pointers left in routers out of reach lead to no router that is gone. Only
routers with an interface have candidates. -/
structure Harmless (s : BitVec 32) (routers : List Router) (ifList : List IfaceEntry) : Prop where
  near : Near s routers
  covered : ∀ r ∈ routers, ¬ Reachable s routers r → ∀ i ∈ r.interfaceList,
    (∃ r' ∈ routers, Reachable s routers r' ∧ Advertises r' (i.subnet &&& i.mask) i.mask) ∨
      Dropped s routers ifList r i
  stale : ∀ r ∈ routers, r.interfaceList ≠ [] → ¬ Reachable s routers r →
    r.prevRouter = none ∨ Leads s routers r

/-- A wrapper stands for an interface of a router of the list, a nearest one for its subnet. -/
structure StandsFor (s : BitVec 32) (routers : List Router) (g : Router → Router)
    (wrapper : RouteWrapper) (r : Router) (i : PwospfInterface) : Prop where
  mem : r ∈ routers
  iface : i ∈ r.interfaceList
  subnet : wrapper.subnet = subnetOf i
  next : nextRid (routers.map g) (g r) i = some wrapper.nextRid
  direct : wrapper.directlyConnected = true ↔ r.routerId = s
  nearest : ∀ q ∈ routers, Advertises q wrapper.ip wrapper.mask →
    (g r).distance ≤ (g q).distance

theorem StandsFor.advertises {s : BitVec 32} {routers : List Router} {g : Router → Router}
    {wrapper : RouteWrapper} {r : Router} {i : PwospfInterface}
    (h : StandsFor s routers g wrapper r i) : Advertises r wrapper.ip wrapper.mask :=
  ⟨i, h.iface, h.subnet.symm⟩

theorem Found.standsFor {s : BitVec 32} {routers : List Router} {g : Router → Router}
    (hfound : Found s routers g) {wrappers : List RouteWrapper}
    (hwrapped : Wrapped s (routers.map g) (advertisements (routers.map g)) wrappers)
    {wrapper : RouteWrapper} (hw : wrapper ∈ wrappers) :
    ∃ r i, StandsFor s routers g wrapper r i := by
  obtain ⟨r', i, hholds⟩ := hwrapped.holder wrapper hw
  obtain ⟨hr', hi⟩ := mem_advertisements.mp hholds.mem
  obtain ⟨r, hr, rfl⟩ := List.mem_map.mp hr'
  rw [hfound.keeps.interfaceList] at hi
  refine ⟨r, i, hr, hi, hholds.subnet, hholds.next, ?_, ?_⟩
  · rw [hholds.direct, hfound.keeps.routerId]
    exact eq_comm
  · rintro q hq ⟨j, hj, hsub⟩
    refine hholds.nearest (g q) j (mem_advertisements.mpr ⟨List.mem_map_of_mem hq, ?_⟩)
      (hsub.trans hholds.subnet)
    rw [hfound.keeps.interfaceList]
    exact hj

section Run
variable {s : BitVec 32} {routers : List Router} {ifList : List IfaceEntry} {g : Router → Router}

theorem fits_of_found (hok : Harmless s routers ifList) (hfound : Found s routers g) {r : Router}
    (hr : r ∈ routers) (hne : r.interfaceList ≠ []) : Fits s (g r) := by
  refine ⟨?_, fun he => ?_⟩
  · by_cases hlt : (g r).distance < maxDistance
    · exact .inl (hok.near.dist_lt hr hne (hfound.dist r hr hlt))
    · exact .inr (hfound.far r hr hlt).1
  · rw [hfound.keeps.routerId] at he
    exact (hfound.ours r hr he).1

variable (hin : Input s routers ifList) (hok : Harmless s routers ifList)
variable (hfound : Found s routers g)
variable (hours : ∀ r ∈ routers, r.routerId = s → r.prevRouter = none)

/-- The route of a wrapper that stands for an interface of ours. -/
theorem unwrap_ours {r : Router} {i : PwospfInterface} {wrapper : RouteWrapper}
    (h : StandsFor s routers g wrapper r i) (hs : r.routerId = s) :
    ∃ entry, unwrap ifList wrapper = some entry ∧
      ∀ e, entry = some e → RightRoute s routers ifList e := by
  have hdirect : wrapper.directlyConnected = true := h.direct.mpr hs
  have hreach : Reachable s routers r := by
    refine ⟨0, ?_⟩
    rw [hs]
    exact .nil s
  have hright : ∀ name, RightRoute s routers ifList
      ⟨wrapper.ip, 0, wrapper.mask, name, false, true⟩ :=
    fun name => ⟨⟨r, h.mem, hreach, h.advertises⟩, fun _ _ _ _ => rfl,
      fun hno => absurd h.advertises (hno r h.mem hs)⟩
  unfold unwrap
  split
  · exact ⟨none, rfl, fun e he => nomatch he⟩
  · rw [if_pos hdirect]
    refine ⟨_, rfl, fun e he => ?_⟩
    cases he
    exact hright _

include hfound

theorem unwrap_dropped {r : Router} {i : PwospfInterface} {wrapper : RouteWrapper}
    (hdistinct : Distinct routers) (hr : r ∈ routers) (hfar : ¬ Reachable s routers r)
    (hnext : nextRid (routers.map g) (g r) i = some wrapper.nextRid)
    (hsub : wrapper.subnet = subnetOf i) (hdrop : Dropped s routers ifList r i) :
    unwrap ifList wrapper = some none := by
  obtain ⟨⟨x, hx, hrid⟩, hmask⟩ := hdrop
  have hxnext : wrapper.nextRid = x := by
    rcases hx with ⟨hnone, rfl⟩ | hleads
    · rw [hfound.reachable_iff hr] at hfar
      unfold nextRid at hnext
      rw [(hfound.far r hr hfar).2, hnone] at hnext
      exact (Option.some.inj hnext).symm
    · obtain ⟨n, hback⟩ := hfound.back_of_leadsToUs hdistinct hleads hr hfar
      have hnext' := nextRid_of_back (hfound.keeps.distinct hdistinct) hback
        (List.mem_map_of_mem hr) i
      rw [hnext] at hnext'
      exact Option.some.inj hnext'
  rw [RouteWrapper.subnet, subnetOf, Prod.mk.injEq] at hsub
  unfold unwrap
  rw [hxnext, hrid, hsub.1, hsub.2, hmask]
  rfl

include hin

/-- The route of a wrapper that stands for an interface of another router within reach. -/
theorem unwrap_other {r : Router} {i : PwospfInterface} {wrapper : RouteWrapper}
    (h : StandsFor s routers g wrapper r i) (hs : r.routerId ≠ s) (hreach : Reachable s routers r) :
    ∃ entry, unwrap ifList wrapper = some entry ∧
      ∀ e, entry = some e → RightRoute s routers ifList e := by
  have hr := h.mem
  have hlt := (hfound.reachable_iff hr).mp hreach
  have hdirect : ¬ wrapper.directlyConnected = true := fun hd => hs (h.direct.mp hd)
  have hne : (g r).distance ≠ 0 := fun hz => hs (hfound.ours_of_zero hr hz)
  obtain ⟨d, hd⟩ : ∃ d, (g r).distance = d + 1 := ⟨(g r).distance - 1, by omega⟩
  obtain ⟨x, hback, hfirst, hwalk⟩ := hfound.back hin.distinct d hr hd (by omega)
  have hx : wrapper.nextRid = x := by
    have hnext := nextRid_of_back (hfound.keeps.distinct hin.distinct) hback
      (List.mem_map_of_mem hr) i
    rw [h.next] at hnext
    exact Option.some.inj hnext
  -- the first hop is an active neighbour of ours
  have hhop := hfirst
  obtain ⟨⟨ours, hmem, hid, j, hj, hj0, hactive, hjx⟩, -⟩ := hfirst
  have hnbr := hin.nbrs ours hmem hid j hj hactive hj0
  rw [hjx] at hnbr hj0
  obtain ⟨iface, hiface, hget, nbr, hnbrmem, hgetnbr, hnbrid⟩ := getIfaceByRid_of_nbr hj0 hnbr
  refine ⟨some ⟨wrapper.ip, nbr.ip, wrapper.mask, iface.name, false, true⟩, ?_, fun e he => ?_⟩
  · unfold unwrap
    rw [hx, hget, Option.some_or]
    dsimp only
    rw [if_neg hdirect, hgetnbr]
    rfl
  · cases he
    refine ⟨⟨r, hr, hreach, h.advertises⟩, fun q hq hqs hqadv => ?_, fun _ => ?_⟩
    · have hle := h.nearest q hq hqadv
      rw [(hfound.ours q hq hqs).1] at hle
      omega
    · have hdist := hfound.dist r hr hlt
      rw [hd] at hdist
      refine ⟨r, hr, d, x, h.advertises, hdist, hhop, hwalk, fun q hq hqadv m hm => ?_,
        iface, hiface, nbr, hnbrmem, hnbrid, rfl⟩
      have hqlt := hfound.reach q hq m hm
      have hle := h.nearest q hq hqadv
      have hmin := (hfound.dist q hq hqlt).2 m hm
      omega

include hok

theorem unwrap_right {wrappers : List RouteWrapper}
    (hwrapped : Wrapped s (routers.map g) (advertisements (routers.map g)) wrappers)
    {wrapper : RouteWrapper} (hw : wrapper ∈ wrappers) :
    ∃ entry, unwrap ifList wrapper = some entry ∧
      ∀ e, entry = some e → RightRoute s routers ifList e := by
  obtain ⟨r, i, h⟩ := hfound.standsFor hwrapped hw
  have hr := h.mem
  by_cases hreach : Reachable s routers r
  case neg =>
    rcases hok.covered r hr hreach i h.iface with ⟨q, hq, hqreach, hqadv⟩ | hdrop
    · -- the wrapper of a subnet within reach stands for a router within reach
      have hsub := h.subnet
      rw [RouteWrapper.subnet, subnetOf, Prod.mk.injEq] at hsub
      rw [← hsub.1, ← hsub.2] at hqadv
      have hle := h.nearest q hq hqadv
      rw [hfound.reachable_iff hr] at hreach
      rw [hfound.reachable_iff hq] at hqreach
      omega
    · refine ⟨none, ?_, fun e he => nomatch he⟩
      exact unwrap_dropped hfound hin.distinct hr hreach h.next h.subnet hdrop
  by_cases hs : r.routerId = s
  · exact unwrap_ours h hs
  · exact unwrap_other hin hfound h hs hreach

include hours

theorem nextRid_of_found {r : Router} (hr : r ∈ routers) {i : PwospfInterface}
    (hi : i ∈ r.interfaceList) : ∃ next, nextRid (routers.map g) (g r) i = some next := by
  have hdistinct := hfound.keeps.distinct hin.distinct
  have hmem : g r ∈ routers.map g := List.mem_map_of_mem hr
  by_cases hreach : Reachable s routers r
  · have hlt := (hfound.reachable_iff hr).mp hreach
    by_cases hs : r.routerId = s
    · refine ⟨i.routerId, ?_⟩
      unfold nextRid
      rw [(hfound.ours r hr hs).2, hours r hr hs]
    · have hne : (g r).distance ≠ 0 := fun hz => hs (hfound.ours_of_zero hr hz)
      obtain ⟨d, hd⟩ : ∃ d, (g r).distance = d + 1 := ⟨(g r).distance - 1, by omega⟩
      obtain ⟨x, hback, -, -⟩ := hfound.back hin.distinct d hr hd (by omega)
      exact ⟨x, nextRid_of_back hdistinct hback hmem i⟩
  · rcases hok.stale r hr (List.ne_nil_of_mem hi) hreach with hnone | hleads
    · refine ⟨i.routerId, ?_⟩
      rw [hfound.reachable_iff hr] at hreach
      unfold nextRid
      rw [(hfound.far r hr hreach).2, hnone]
    · obtain ⟨n, x, hback⟩ := hfound.back_of_leads hin.distinct hleads hr hreach
      exact ⟨x, nextRid_of_back hdistinct hback hmem i⟩

end Run

theorem computeRtable_right {s : BitVec 32} {routers : List Router} {ifList : List IfaceEntry}
    (hin : Input s routers ifList) (hok : Harmless s routers ifList)
    (hours : ∀ r ∈ routers, r.routerId = s → r.prevRouter = none) :
    ∃ routes left, computeRtable s routers ifList = some (routes, left) ∧
      (∀ e ∈ routes, RightRoute s routers ifList e) ∧
      ∀ r ∈ left, r.routerId = s → r.prevRouter = none := by
  obtain ⟨g, hg, hfound⟩ := computeDistances_found hin.distinct hin.present hok.near.bounded
  have hfits : ∀ r ∈ routers.map g, r.interfaceList ≠ [] → Fits s r := by
    intro r hr hne
    obtain ⟨r₀, hr₀, rfl⟩ := List.mem_map.mp hr
    rw [hfound.keeps.interfaceList] at hne
    exact fits_of_found hok hfound hr₀ hne
  have hnext : ∀ r ∈ routers.map g, ∀ i ∈ r.interfaceList,
      ∃ next, nextRid (routers.map g) r i = some next := by
    intro r hr i hi
    obtain ⟨r₀, hr₀, rfl⟩ := List.mem_map.mp hr
    rw [hfound.keeps.interfaceList] at hi
    exact nextRid_of_found hin hok hfound hours hr₀ hi
  obtain ⟨wrappers, hbuild, hwrapped⟩ := buildRouteWrapperList_spec hfits hnext
  obtain ⟨entries, hentries, hright⟩ := unwrapAll_spec (P := RightRoute s routers ifList) wrappers
    fun wrapper hw => unwrap_right hin hok hfound hwrapped hw
  refine ⟨entries, routers.map g, ?_, hright, ?_⟩
  · unfold computeRtable
    simp only [hg, Option.bind_eq_bind, Option.bind_some, hbuild, hentries]
    rfl
  · intro r hr hid
    obtain ⟨r₀, hr₀, rfl⟩ := List.mem_map.mp hr
    rw [hfound.keeps.routerId] at hid
    exact (hfound.ours r₀ hr₀ hid).2.trans (hours r₀ hr₀ hid)

/-- What may happen to a router between two runs: its interfaces change, or it is a new one. -/
def ChangedFrom (left : List Router) (r : Router) : Prop :=
  (∃ r₀ ∈ left, ∃ interfaceList, r = { r₀ with interfaceList := interfaceList }) ∨
    (r.distance = 0 ∧ r.shortestPathFound = false ∧ r.prevRouter = none)

/-- The router lists and interface lists of successive runs: each run finds the routers as the run
before has left them, but for what has happened in between. -/
def Linked (s : BitVec 32) : List Router → List (List Router × List IfaceEntry) → Prop
  | _, [] => True
  | left, (routers, ifList) :: history =>
    (∀ r ∈ routers, ChangedFrom left r) ∧
      ∀ routes left', computeRtable s routers ifList = some (routes, left') →
        Linked s left' history

/-- Every run returns, and with right routes only. -/
def AllRight (s : BitVec 32) : List (List Router × List IfaceEntry) → Prop
  | [] => True
  | (routers, ifList) :: history =>
    (∃ routes left, computeRtable s routers ifList = some (routes, left) ∧
      ∀ e ∈ routes, RightRoute s routers ifList e) ∧ AllRight s history

theorem ours_of_changed {s : BitVec 32} {left routers : List Router}
    (hleft : ∀ r ∈ left, r.routerId = s → r.prevRouter = none)
    (hchanged : ∀ r ∈ routers, ChangedFrom left r) :
    ∀ r ∈ routers, r.routerId = s → r.prevRouter = none := by
  intro r hr hid
  rcases hchanged r hr with ⟨r₀, hr₀, interfaceList, rfl⟩ | ⟨-, -, hnone⟩
  · exact hleft r₀ hr₀ hid
  · exact hnone

theorem allRight_of_linked {s : BitVec 32} (history : List (List Router × List IfaceEntry))
    (left : List Router) (hleft : ∀ r ∈ left, r.routerId = s → r.prevRouter = none)
    (hlinked : Linked s left history) (hin : ∀ input ∈ history, Input s input.1 input.2)
    (hok : ∀ input ∈ history, Harmless s input.1 input.2) : AllRight s history := by
  induction history generalizing left with
  | nil => trivial
  | cons input history ih =>
    obtain ⟨routers, ifList⟩ := input
    obtain ⟨hchanged, hnext⟩ := hlinked
    obtain ⟨routes, left', hrun, hright, hleft'⟩ := computeRtable_right
      (hin _ List.mem_cons_self) (hok _ List.mem_cons_self) (ours_of_changed hleft hchanged)
    refine ⟨⟨routes, left', hrun, hright⟩, ?_⟩
    exact ih left' hleft' (hnext routes left' hrun)
      (fun input h => hin input (List.mem_cons_of_mem _ h))
      (fun input h => hok input (List.mem_cons_of_mem _ h))

/-- In any sequence of runs in which the candidates of routers out of reach are harmless, all the
routes are right. -/
theorem all_routes_right {s : BitVec 32} {history : List (List Router × List IfaceEntry)}
    (hlinked : Linked s [] history) (hin : ∀ input ∈ history, Input s input.1 input.2)
    (hok : ∀ input ∈ history, Harmless s input.1 input.2) : AllRight s history :=
  allRight_of_linked history [] (fun _ hr => absurd hr List.not_mem_nil) hlinked hin hok

def ourIfs : List IfaceEntry := [⟨"eth0", 0x0100010a, 0xffff, [⟨2, 0x0200010a⟩]⟩]

def ourIfsAlone : List IfaceEntry := [⟨"eth0", 0x0100010a, 0xffff, []⟩]

def pairUp : List Router :=
  [⟨16, 1, [⟨0x010a, 0xffff, 2, true⟩], 0, false, none⟩,
   ⟨32, 2, [⟨0x010a, 0xffff, 1, true⟩, ⟨0x020a, 0xffff, 0, true⟩], 0, false, none⟩]

/-- The pair as the first run leaves it. -/
def pairSettled : List Router :=
  [⟨16, 1, [⟨0x010a, 0xffff, 2, true⟩], 0, true, none⟩,
   ⟨32, 2, [⟨0x010a, 0xffff, 1, true⟩, ⟨0x020a, 0xffff, 0, true⟩], 1, true, some 16⟩]

def pairDown : List Router :=
  [⟨16, 1, [⟨0x010a, 0xffff, 2, false⟩], 0, true, none⟩,
   ⟨32, 2, [⟨0x010a, 0xffff, 1, true⟩, ⟨0x020a, 0xffff, 0, true⟩], 1, true, some 16⟩]

theorem pairUp_left {routes : List RtableEntry} {left : List Router}
    (h : computeRtable 1 pairUp ourIfs = some (routes, left)) : left = pairSettled := by
  have hrun : computeRtable 1 pairUp ourIfs =
      some ([⟨0x010a, 0, 0xffff, "eth0", false, true⟩,
        ⟨0x020a, 0x0200010a, 0xffff, "eth0", false, true⟩], pairSettled) := by
    decide +kernel
  rw [hrun] at h
  cases h
  rfl

theorem pair_linked (ifList : List IfaceEntry) :
    Linked 1 [] [(pairUp, ourIfs), (pairDown, ifList)] := by
  refine ⟨fun r hr => .inr ?_, fun routes left hrun => ⟨fun r hr => .inl ?_, fun _ _ _ => trivial⟩⟩
  · revert r
    decide
  · rw [pairUp_left hrun]
    simp only [pairDown, List.mem_cons, List.not_mem_nil, or_false] at hr
    rcases hr with rfl | rfl
    · exact ⟨_, List.mem_cons_self, [⟨0x010a, 0xffff, 2, false⟩], rfl⟩
    · exact ⟨_, List.mem_cons_of_mem _ List.mem_cons_self,
        [⟨0x010a, 0xffff, 1, true⟩, ⟨0x020a, 0xffff, 0, true⟩], rfl⟩

theorem pairUp_input : Input 1 pairUp ourIfs := by
  refine ⟨⟨by decide, by decide, by decide⟩, by decide, by decide⟩

theorem pairDown_input (ifList : List IfaceEntry) : Input 1 pairDown ifList := by
  refine ⟨⟨by decide, by decide, by decide⟩, by decide, ?_⟩
  intro r hr hid i hi hactive
  simp only [pairDown, List.mem_cons, List.not_mem_nil, or_false] at hr
  rcases hr with rfl | rfl
  · rw [List.mem_singleton] at hi
    subst hi
    exact absurd hactive (by decide)
  · exact absurd hid (by decide)

theorem pairUp_hop : Hop pairUp 1 2 := by
  unfold Hop
  decide

theorem pairUp_reach {v : BitVec 32} {n : Nat} (h : Walk (Hop pairUp) n 1 v) :
    ∃ m < 0xFFFF, Walk (Hop pairUp) m 1 v := by
  have hids : v = 1 ∨ v = 2 := by
    cases h with
    | nil => exact .inl rfl
    | snoc _ hhop =>
      obtain ⟨-, r, hr, rfl⟩ := hhop
      revert r
      decide
  rcases hids with rfl | rfl
  · exact ⟨0, by decide, .nil 1⟩
  · exact ⟨1, by decide, .snoc (.nil 1) pairUp_hop⟩

theorem pairDown_reach {v : BitVec 32} {n : Nat} (h : Walk (Hop pairDown) n 1 v) : v = 1 := by
  induction n generalizing v with
  | zero => exact walk_zero h
  | succ n ih =>
    cases h with
    | snoc hwalk hhop =>
      rw [ih hwalk] at hhop
      obtain ⟨⟨r, hr, hid, i, hi, -, hactive, -⟩, -⟩ := hhop
      have hdown : ∀ r ∈ pairDown, r.routerId = 1 → ∀ i ∈ r.interfaceList, i.isActive = false := by
        decide
      rw [hdown r hr hid i hi] at hactive
      exact absurd hactive Bool.false_ne_true

theorem pairUp_harmless : Harmless 1 pairUp ourIfs := by
  have hreach : ∀ r ∈ pairUp, Reachable 1 pairUp r := by
    intro r hr
    simp only [pairUp, List.mem_cons, List.not_mem_nil, or_false] at hr
    rcases hr with rfl | rfl
    · exact ⟨0, .nil 1⟩
    · exact ⟨1, .snoc (.nil 1) pairUp_hop⟩
  exact ⟨fun r _ _ n h => pairUp_reach h, fun r hr hfar => absurd (hreach r hr) hfar,
    fun r hr _ hfar => absurd (hreach r hr) hfar⟩

theorem pairDown_harmless : Harmless 1 pairDown ourIfsAlone := by
  have hours : ∀ r ∈ pairDown, r.routerId = 1 → Reachable 1 pairDown r := by
    intro r _ hid
    refine ⟨0, ?_⟩
    rw [hid]
    exact .nil 1
  refine ⟨fun r _ _ n h => ⟨0, by decide, ?_⟩, fun r hr hfar i hi => ?_,
    fun r hr _ hfar => .inr ?_⟩
  · rw [pairDown_reach h]
    exact .nil 1
  · have htwo := hours r hr
    simp only [pairDown, List.mem_cons, List.not_mem_nil, or_false] at hr
    rcases hr with rfl | rfl
    · exact absurd (htwo rfl) hfar
    · simp only [List.mem_cons, List.not_mem_nil, or_false] at hi
      rcases hi with rfl | rfl
      · exact .inl ⟨_, List.mem_cons_self, ⟨0, .nil 1⟩, _, List.mem_cons_self, rfl⟩
      · refine .inr ⟨⟨2, .inr ?_, by decide⟩, by decide⟩
        exact LeadsToUs.last (p := ⟨16, 1, [⟨0x010a, 0xffff, 2, false⟩], 0, true, none⟩) rfl
          List.mem_cons_self rfl
  · have htwo := hours r hr
    simp only [pairDown, List.mem_cons, List.not_mem_nil, or_false] at hr
    rcases hr with rfl | rfl
    · exact absurd (htwo rfl) hfar
    · exact Leads.reached (p := ⟨16, 1, [⟨0x010a, 0xffff, 2, false⟩], 0, true, none⟩) rfl
        List.mem_cons_self ⟨0, .nil 1⟩

/-- Router 2 has also gone from our neighbours: its subnet is dropped. -/
theorem pair_routes_right : AllRight 1 [(pairUp, ourIfs), (pairDown, ourIfsAlone)] := by
  refine all_routes_right (pair_linked _) (fun input h => ?_) (fun input h => ?_)
  · simp only [List.mem_cons, List.not_mem_nil, or_false] at h
    rcases h with rfl | rfl
    · exact pairUp_input
    · exact pairDown_input _
  · simp only [List.mem_cons, List.not_mem_nil, or_false] at h
    rcases h with rfl | rfl
    · exact pairUp_harmless
    · exact pairDown_harmless

/-- Router 2 still is a neighbour of ours: its subnet keeps its route. -/
theorem stale_route_kept : Linked 1 [] [(pairUp, ourIfs), (pairDown, ourIfs)] ∧
    Input 1 pairUp ourIfs ∧ Input 1 pairDown ourIfs ∧
      ¬ AllRight 1 [(pairUp, ourIfs), (pairDown, ourIfs)] := by
  refine ⟨pair_linked _, pairUp_input, pairDown_input _, ?_⟩
  rintro ⟨-, ⟨routes, left, hrun, hright⟩, -⟩
  have hroute : ∃ e ∈ routes, e.ip = 0x020a := by
    have hsome : ((computeRtable 1 pairDown ourIfs).any
        fun result => result.1.any fun e => e.ip == 0x020a) = true := by
      decide +kernel
    rw [hrun] at hsome
    obtain ⟨e, he, hip⟩ := List.any_eq_true.mp hsome
    exact ⟨e, he, eq_of_beq hip⟩
  obtain ⟨e, he, hip⟩ := hroute
  obtain ⟨r, hr, ⟨n, hwalk⟩, i, hi, hsub⟩ := (hright e he).reachable
  have hid := pairDown_reach hwalk
  rw [subnetOf, Prod.mk.injEq, hip] at hsub
  have hnone : ∀ r ∈ pairDown, r.routerId = 1 → ∀ i ∈ r.interfaceList,
      i.subnet &&& i.mask ≠ 0x020a := by
    decide
  exact hnone r hr hid i hi hsub.1

end Osnt.Scone.Dijkstra
