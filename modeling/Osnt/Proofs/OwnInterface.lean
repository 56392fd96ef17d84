import Mathlib.Data.List.Induction
import Osnt.Proofs.Routes

/-! By which interface the routes for our own subnets leave. The wrapper of such a subnet stands
for the first of our entries for it, and the interface is looked up by that entry's neighbour
before it is looked up by the subnet. -/
namespace Osnt.Scone.Dijkstra
open Lib Lib.Hops
open Pwospf (PwospfInterface)

/-- An interface of a router is added to the wrappers. -/
def addAdvertised (ourRid : BitVec 32) (routers : List Router) (head : List RouteWrapper)
    (a : Router × PwospfInterface) : Option (List RouteWrapper) :=
  addRouteWrapper ourRid routers a.1 head a.2

/-- The two nested loops are one over the interfaces of all routers. -/
theorem buildRouteWrapperList_eq (ourRid : BitVec 32) (routers : List Router) :
    buildRouteWrapperList ourRid routers =
      (advertisements routers).foldlM (addAdvertised ourRid routers) [] := by
  have hall : ∀ (rest : List Router) (head : List RouteWrapper),
      rest.foldlM (addRouteWrappers ourRid routers) head =
        (advertisements rest).foldlM (addAdvertised ourRid routers) head := by
    intro rest
    induction rest with
    | nil => exact fun _ => rfl
    | cons r rest ih =>
      intro head
      rw [List.foldlM_cons, advertisements, List.flatMap_cons, List.foldlM_append,
        List.foldlM_map]
      exact congrArg _ (funext ih)
  exact hall routers []

/-- How the wrappers stand to the interfaces taken so far for the subnet `k`. -/
inductive Standing (routers : List Router) (k : BitVec 32 × BitVec 32)
    (done : List (Router × PwospfInterface)) (head : List RouteWrapper) : Prop
  | absent (hno : ∀ a ∈ done, subnetOf a.2 ≠ k) (hhead : ∀ w ∈ head, w.subnet ≠ k)
  | far (hsome : ∃ a ∈ done, subnetOf a.2 = k)
      (hfar : ∀ a ∈ done, subnetOf a.2 = k → a.1.distance ≠ 0) (w : RouteWrapper) (hw : w ∈ head)
      (hk : w.subnet = k) (hpos : w.distance ≠ 0) (hlt : w.distance < 2 ^ 16)
  | own (a : Router × PwospfInterface)
      (ha : done.find? (fun a => subnetOf a.2 == k && a.1.distance == 0) = some a)
      (w : RouteWrapper) (hw : w ∈ head) (hk : w.subnet = k) (hzero : w.distance = 0)
      (hnext : nextRid routers a.1 a.2 = some w.nextRid)

section Step
variable {ourRid : BitVec 32} {routers : List Router} {head head' : List RouteWrapper}
variable {r : Router} {i : PwospfInterface}
variable {k : BitVec 32 × BitVec 32} {done : List (Router × PwospfInterface)}

theorem Standing.other (h : Standing routers k done head)
    (hc : AddCases ourRid routers r i head head')
    (hnodup : (head.map RouteWrapper.subnet).Nodup) (hne : subnetOf i ≠ k) :
    Standing routers k (done ++ [(r, i)]) head' := by
  have hframe : ∀ w : RouteWrapper, w.subnet = k → (w ∈ head' ↔ w ∈ head) :=
    fun w hw => hc.frame (fun he => hne (he.symm.trans hw)) hnodup
  have hnew : ∀ a ∈ done ++ [(r, i)], subnetOf a.2 = k → a ∈ done := by
    intro a ha hk
    rcases List.mem_append.mp ha with ha | ha
    · exact ha
    · rw [List.mem_singleton] at ha
      subst ha
      exact absurd hk hne
  cases h with
  | absent hno hhead =>
    exact .absent (fun a ha hk => hno a (hnew a ha hk) hk)
      (fun w hw hk => hhead w ((hframe w hk).mp hw) hk)
  | far hsome hfar w hw hk hpos hlt =>
    obtain ⟨a, ha, hak⟩ := hsome
    exact .far ⟨a, List.mem_append_left _ ha, hak⟩ (fun a ha hak => hfar a (hnew a ha hak) hak) w
      ((hframe w hk).mpr hw) hk hpos hlt
  | own a ha w hw hk hzero hnext =>
    exact .own a (by rw [List.find?_append, ha, Option.some_or]) w ((hframe w hk).mpr hw) hk hzero
      hnext

theorem far_concat (hfar : ∀ a ∈ done, subnetOf a.2 = k → a.1.distance ≠ 0)
    (hr : r.distance ≠ 0) :
    ∀ a ∈ done ++ [(r, i)], subnetOf a.2 = k → a.1.distance ≠ 0 := by
  intro a ha hak
  rcases List.mem_append.mp ha with ha | ha
  · exact hfar a ha hak
  · rw [List.mem_singleton] at ha
    subst ha
    exact hr

/-- The wrapper has been given to an interface of the subnet, and there was none at distance 0
before. -/
theorem Standing.given (hfar : ∀ a ∈ done, subnetOf a.2 = k → a.1.distance ≠ 0)
    (hk : subnetOf i = k) {w : RouteWrapper} (hw : w ∈ head') (hwk : w.subnet = k)
    (hdistance : w.distance = r.distance % 2 ^ 16) (hnext : nextRid routers r i = some w.nextRid)
    (hmod : r.distance % 2 ^ 16 = 0 → r.distance = 0) :
    Standing routers k (done ++ [(r, i)]) head' := by
  by_cases hzero : r.distance = 0
  · refine .own (r, i) ?_ w hw hwk (by rw [hdistance, hzero]; rfl) hnext
    have hnone : done.find? (fun a => subnetOf a.2 == k && a.1.distance == 0) = none := by
      refine List.find?_eq_none.mpr (fun a ha hp => ?_)
      rw [Bool.and_eq_true, beq_iff_eq, beq_iff_eq] at hp
      exact hfar a ha hp.1 hp.2
    rw [List.find?_append, hnone, Option.none_or, List.find?_cons_of_pos]
    simp [hk, hzero]
  · have hlt := Nat.mod_lt r.distance (Nat.two_pow_pos 16)
    refine .far ⟨_, List.mem_append_right _ List.mem_cons_self, hk⟩ (far_concat hfar hzero) w hw hwk
      (fun h0 => ?_) (hdistance ▸ hlt)
    rw [hdistance] at h0
    exact hzero (hmod h0)

/-- An interface of the subnet: the first one at distance 0 has the wrapper from then on, unless the
distance that the wrapper was made with had all 16 bits clear. -/
theorem Standing.same (h : Standing routers k done head)
    (hc : AddCases ourRid routers r i head head')
    (hnodup : (head.map RouteWrapper.subnet).Nodup) (hk : subnetOf i = k)
    (hfirst : (∀ a ∈ done, subnetOf a.2 ≠ k) → r.distance % 2 ^ 16 = 0 → r.distance = 0) :
    Standing routers k (done ++ [(r, i)]) head' := by
  cases h with
  | absent hno hhead =>
    cases hc with
    | kept w hw hwk _ _ => exact absurd (hwk.trans hk) (hhead w hw)
    | taken w hw hwk _ _ _ _ => exact absurd (hwk.trans hk) (hhead w hw)
    | added _ next hnext heq =>
      have hmem : (⟨i.subnet &&& i.mask, i.mask, r.distance % 2 ^ 16, next,
          ourRid == r.routerId⟩ : RouteWrapper) ∈ head' := by
        rw [heq]
        exact List.mem_append_right _ List.mem_cons_self
      exact .given (fun a ha hak => absurd hak (hno a ha)) hk hmem hk rfl hnext (hfirst hno)
  | far _ hfar w hw hwk hpos hlt =>
    cases hc with
    | kept x hx hxk hle heq =>
      obtain rfl := List.inj_on_of_nodup_map hnodup hx hw (hxk.trans (hk.trans hwk.symm))
      have hne : r.distance ≠ 0 := by omega
      exact .far ⟨_, List.mem_append_right _ List.mem_cons_self, hk⟩ (far_concat hfar hne) x
        (heq ▸ hx) hwk hpos hlt
    | taken x hx hxk hless next hnext heq =>
      obtain rfl := List.inj_on_of_nodup_map hnodup hx hw (hxk.trans (hk.trans hwk.symm))
      have hmem := mem_replaced (f := fun wrapper => { wrapper with
          distance := r.distance % 2 ^ 16
          nextRid := next
          directlyConnected := wrapper.directlyConnected || ourRid == r.routerId })
        hx hnodup hxk
      rw [← heq] at hmem
      exact .given hfar hk hmem hwk rfl hnext (by omega)
    | added hno _ _ _ => exact absurd (hwk.trans hk.symm) (hno w hw)
  | own a ha w hw hwk hzero hnext =>
    have hkeep : head' = head → Standing routers k (done ++ [(r, i)]) head' := fun heq =>
      .own a (by rw [List.find?_append, ha, Option.some_or]) w (heq ▸ hw) hwk hzero hnext
    cases hc with
    | kept _ _ _ _ heq => exact hkeep heq
    | taken x hx hxk hless _ _ _ =>
      obtain rfl := List.inj_on_of_nodup_map hnodup hx hw (hxk.trans (hk.trans hwk.symm))
      omega
    | added hno _ _ _ => exact absurd (hwk.trans hk.symm) (hno w hw)

theorem standing_run
    (hfirst : ∀ a, done.find? (fun a => subnetOf a.2 == k) = some a →
      a.1.distance % 2 ^ 16 = 0 → a.1.distance = 0)
    (h : done.foldlM (addAdvertised ourRid routers) [] = some head) :
    (head.map RouteWrapper.subnet).Nodup ∧ Standing routers k done head := by
  induction done using List.reverseRecOn generalizing head with
  | nil =>
    obtain rfl := Option.some.inj h
    exact ⟨List.nodup_nil, .absent (fun a ha => absurd ha List.not_mem_nil)
      (fun w hw => absurd hw List.not_mem_nil)⟩
  | append_singleton done a ih =>
    rw [List.foldlM_append] at h
    obtain ⟨before, hbefore, hstep⟩ := Option.bind_eq_some_iff.mp h
    obtain ⟨after, hafter, heq⟩ := Option.bind_eq_some_iff.mp hstep
    obtain rfl := Option.some.inj heq
    have hc := addRouteWrapper_cases hafter
    obtain ⟨hnodup, hstanding⟩ := ih (fun x hx => hfirst x (by
      rw [List.find?_append, hx, Option.some_or])) hbefore
    refine ⟨hc.nodup hnodup, ?_⟩
    by_cases hk : subnetOf a.2 = k
    · refine hstanding.same hc hnodup hk (fun hno => ?_)
      refine hfirst a ?_
      have hnone : done.find? (fun a => subnetOf a.2 == k) = none :=
        List.find?_eq_none.mpr (fun x hx hp => hno x hx (beq_iff_eq.mp hp))
      rw [List.find?_append, hnone, Option.none_or, List.find?_cons_of_pos]
      exact beq_iff_eq.mpr hk
    · exact hstanding.other hc hnodup hk

end Step

/-- The interface is on the subnet. -/
def Owns (iface : IfaceEntry) (i : PwospfInterface) : Prop :=
  (iface.ip &&& iface.mask, iface.mask) = subnetOf i

/-- Each of our subnets is that of exactly one interface. -/
def OneEach (s : BitVec 32) (routers : List Router) (ifList : List IfaceEntry) : Prop :=
  ∀ r ∈ routers, r.routerId = s → ∀ i ∈ r.interfaceList,
    ∃ iface ∈ ifList, Owns iface i ∧ ∀ other ∈ ifList, Owns other i → other = iface

/-- Every route for one of our subnets names the interface that is on it. -/
def OwnNamed (s : BitVec 32) (routers : List Router) (ifList : List IfaceEntry)
    (routes : List RtableEntry) : Prop :=
  ∀ e ∈ routes, ∀ r ∈ routers, r.routerId = s → ∀ i ∈ r.interfaceList,
    subnetOf i = (e.ip, e.mask) → ∀ iface ∈ ifList, Owns iface i → e.iface = iface.name

/-- The first of our entries for each subnet has a neighbour that is on no interface, or the first
interface that it is on is the one on the subnet. -/
def NeighboursAgree (s : BitVec 32) (routers : List Router) (ifList : List IfaceEntry) : Prop :=
  ∀ r ∈ routers, r.routerId = s → ∀ i,
    r.interfaceList.find? (fun j => subnetOf j == subnetOf i) = some i →
    ∀ found, getIfaceByRid i.routerId ifList = some found →
      ∀ iface ∈ ifList, Owns iface i → found.name = iface.name

/-- The router that is the first of the list to advertise one of our subnets is not a multiple of
65536 hops away, but for us. -/
def Unwrapped (s : BitVec 32) (routers : List Router) : Prop :=
  ∀ r ∈ routers, r.routerId = s → ∀ i ∈ r.interfaceList, ∀ a,
    (advertisements routers).find? (fun a => subnetOf a.2 == subnetOf i) = some a →
    ∀ n, IsDist (Hop routers) s a.1.routerId n → n % 2 ^ 16 = 0 → n = 0

/-- Our entry is made before all others and stays at the head of the list. -/
theorem unwrapped_of_head {s : BitVec 32} {ours : Router} {rest : List Router}
    (hours : ours.routerId = s) (hrest : ∀ r ∈ rest, r.routerId ≠ s) :
    Unwrapped s (ours :: rest) := by
  intro r hr hs i hi a ha n hn _
  have hhead : r = ours := (List.mem_cons.mp hr).resolve_right (fun h => hrest r h hs)
  subst hhead
  have hfirst : a.1 = r := by
    rw [advertisements, List.flatMap_cons, List.find?_append, List.find?_map] at ha
    cases hfind : r.interfaceList.find? fun j => subnetOf j == subnetOf i with
    | none => exact absurd (beq_self_eq_true _) (List.find?_eq_none.mp hfind i hi)
    | some j =>
      have hcomp : r.interfaceList.find? ((fun a : Router × PwospfInterface =>
          subnetOf a.2 == subnetOf i) ∘ fun j => (r, j)) = some j := hfind
      rw [hcomp, Option.map_some, Option.some_or] at ha
      exact (congrArg Prod.fst (Option.some.inj ha)).symm
  rw [hfirst, hs] at hn
  exact hn.unique (isDist_self s)

theorem advertisements_map {g : Router → Router} (hg : Keeps g) (routers : List Router) :
    advertisements (routers.map g) = (advertisements routers).map fun a => (g a.1, a.2) := by
  simp [advertisements, List.flatMap_map, List.map_flatMap, hg.interfaceList, Function.comp_def]

/-- A search that only one router can satisfy is one through its interfaces. -/
theorem find_advertisements {p : Router × PwospfInterface → Bool} {routers : List Router}
    {r : Router} (hr : r ∈ routers) (honly : ∀ r' ∈ routers, ∀ i, p (r', i) = true → r' = r) :
    (advertisements routers).find? p =
      (r.interfaceList.find? fun i => p (r, i)).map fun i => (r, i) := by
  induction routers with
  | nil => cases hr
  | cons x rest ih =>
    rw [advertisements, List.flatMap_cons, List.find?_append, List.find?_map]
    by_cases hx : x = r
    · subst hx
      cases hfind : x.interfaceList.find? fun i => p (x, i) with
      | some i =>
        have hcomp : x.interfaceList.find? (p ∘ fun i => (x, i)) = some i := hfind
        rw [hcomp]
        rfl
      | none =>
        have hcomp : x.interfaceList.find? (p ∘ fun i => (x, i)) = none := hfind
        rw [hcomp]
        refine List.find?_eq_none.mpr (fun a ha hp => ?_)
        obtain ⟨r', hr', hmem⟩ := List.mem_flatMap.mp ha
        obtain ⟨i, hi, rfl⟩ := List.mem_map.mp hmem
        obtain rfl := honly r' (List.mem_cons_of_mem _ hr') i hp
        exact List.find?_eq_none.mp hfind i hi hp
    · have hnone : x.interfaceList.find? (p ∘ fun i => (x, i)) = none :=
        List.find?_eq_none.mpr (fun i _ hp => hx (honly x List.mem_cons_self i hp))
      rw [hnone]
      exact ih ((List.mem_cons.mp hr).resolve_left (Ne.symm hx))
        (fun r' hr' => honly r' (List.mem_cons_of_mem _ hr'))

theorem unwrapAll_mem {ifList : List IfaceEntry} {wrappers : List RouteWrapper}
    {entries : List RtableEntry} (h : unwrapAll ifList wrappers = some entries) :
    (∀ w ∈ wrappers, ∃ entry, unwrap ifList w = some entry) ∧
      ∀ e, e ∈ entries ↔ ∃ w ∈ wrappers, unwrap ifList w = some (some e) := by
  induction wrappers generalizing entries with
  | nil =>
    obtain rfl := Option.some.inj h
    simp
  | cons w wrappers ih =>
    obtain ⟨entry, hentry, h⟩ := Option.bind_eq_some_iff.mp h
    obtain ⟨rest, hrest, h⟩ := Option.bind_eq_some_iff.mp h
    obtain rfl := Option.some.inj h
    obtain ⟨hall, hmem⟩ := ih hrest
    refine ⟨fun x hx => ?_, fun e => ?_⟩
    · rcases List.mem_cons.mp hx with rfl | hx
      · exact ⟨entry, hentry⟩
      · exact hall x hx
    · rw [List.mem_append, Option.mem_toList, hmem]
      constructor
      · rintro (he | ⟨x, hx, hxe⟩)
        · exact ⟨w, List.mem_cons_self, by rw [hentry, Option.mem_def.mp he]⟩
        · exact ⟨x, List.mem_cons_of_mem _ hx, hxe⟩
      · rintro ⟨x, hx, hxe⟩
        rcases List.mem_cons.mp hx with rfl | hx
        · rw [hentry] at hxe
          exact .inl (Option.some.inj hxe)
        · exact .inr ⟨x, hx, hxe⟩

/-- The route of a wrapper is for its subnet and leaves by the interface that was found. -/
theorem unwrap_iface {ifList : List IfaceEntry} {w : RouteWrapper} {iface : IfaceEntry}
    {entry : Option RtableEntry}
    (hget : (getIfaceByRid w.nextRid ifList).or (getIfaceBySubnetMask w.ip w.mask ifList) =
      some iface) (h : unwrap ifList w = some entry) :
    ∃ e, entry = some e ∧ (e.ip, e.mask) = w.subnet ∧ e.iface = iface.name := by
  rw [unwrap, hget] at h
  dsimp only at h
  split at h
  · exact ⟨_, (Option.some.inj h).symm, rfl, rfl⟩
  · obtain ⟨nbr, -, he⟩ := Option.bind_eq_some_iff.mp h
    exact ⟨_, (Option.some.inj he).symm, rfl, rfl⟩

theorem iface_of_unwrap {ifList : List IfaceEntry} {w : RouteWrapper} {e : RtableEntry}
    (h : unwrap ifList w = some (some e)) :
    ∃ iface, (getIfaceByRid w.nextRid ifList).or (getIfaceBySubnetMask w.ip w.mask ifList) =
      some iface ∧ (e.ip, e.mask) = w.subnet ∧ e.iface = iface.name := by
  cases hget : (getIfaceByRid w.nextRid ifList).or
      (getIfaceBySubnetMask w.ip w.mask ifList) with
  | none =>
    rw [unwrap, hget] at h
    cases h
  | some iface =>
    obtain ⟨e', he, hroute⟩ := unwrap_iface hget h
    obtain rfl := Option.some.inj he
    exact ⟨iface, rfl, hroute⟩

theorem getIfaceBySubnetMask_some {ifList : List IfaceEntry} {subnet mask : BitVec 32}
    {iface : IfaceEntry} (h : getIfaceBySubnetMask subnet mask ifList = some iface) :
    iface ∈ ifList ∧ (iface.ip &&& iface.mask, iface.mask) = (subnet, mask) := by
  have hp := List.find?_some h
  rw [Bool.and_eq_true, beq_iff_eq, beq_iff_eq] at hp
  exact ⟨List.mem_of_find?_eq_some h, Prod.ext hp.1 hp.2⟩

section Run
variable {s : BitVec 32} {routers : List Router} {ifList : List IfaceEntry}
variable {routes : List RtableEntry} {left : List Router}

/-- The wrappers of a run, with the one for each of our subnets: it is for the neighbour of our
first entry. -/
theorem own_wrapper (hdistinct : Distinct routers) (hlen : routers.length < 2 ^ 32 - 1)
    (hprev : ∀ r ∈ routers, r.routerId = s → r.prevRouter = none) (hwrap : Unwrapped s routers)
    (h : computeRtable s routers ifList = some (routes, left)) {r : Router} (hr : r ∈ routers)
    (hs : r.routerId = s) {i : PwospfInterface} (hi : i ∈ r.interfaceList) :
    ∃ wrappers w i₁, unwrapAll ifList wrappers = some routes ∧
      (wrappers.map RouteWrapper.subnet).Nodup ∧ w ∈ wrappers ∧ w.subnet = subnetOf i ∧
      r.interfaceList.find? (fun j => subnetOf j == subnetOf i) = some i₁ ∧
      w.nextRid = i₁.routerId := by
  have hours : ∃ r ∈ routers, r.routerId = s := ⟨r, hr, hs⟩
  obtain ⟨g, hg, hfound⟩ := computeDistances_found hdistinct hours (bounded_of_length hours hlen)
  unfold computeRtable at h
  simp only [hg, Option.bind_eq_bind, Option.bind_some] at h
  obtain ⟨wrappers, hbuild, h⟩ := Option.bind_eq_some_iff.mp h
  obtain ⟨entries, hentries, h⟩ := Option.bind_eq_some_iff.mp h
  obtain ⟨rfl, -⟩ := Prod.mk.inj (Option.some.inj h)
  rw [buildRouteWrapperList_eq, advertisements_map hfound.keeps] at hbuild
  have hzero : ∀ r' ∈ routers, (g r').distance = 0 → r' = r := by
    intro r' hr' hd
    exact List.inj_on_of_nodup_map hdistinct.ids hr' hr
      ((hfound.ours_of_zero hr' hd).trans hs.symm)
  have hr0 : (g r).distance = 0 := (hfound.ours r hr hs).1
  have hfirst : ∀ a, ((advertisements routers).map fun a => (g a.1, a.2)).find?
      (fun a => subnetOf a.2 == subnetOf i) = some a →
      a.1.distance % 2 ^ 16 = 0 → a.1.distance = 0 := by
    intro a ha hmod
    rw [List.find?_map] at ha
    obtain ⟨b, hb, rfl⟩ := Option.map_eq_some_iff.mp ha
    have hbmem := (mem_advertisements.mp (List.mem_of_find?_eq_some hb)).1
    by_cases hlt : (g b.1).distance < maxDistance
    · exact hwrap r hr hs i hi b hb _ (hfound.dist _ hbmem hlt) hmod
    · have hfar := (hfound.far _ hbmem hlt).1
      have hmod' : (g b.1).distance % 2 ^ 16 = 0 := hmod
      rw [hfar] at hmod'
      exact absurd hmod' (by decide)
  obtain ⟨hnodup, hstanding⟩ := standing_run hfirst hbuild
  have hmem : (g r, i) ∈ (advertisements routers).map fun a => (g a.1, a.2) :=
    List.mem_map.mpr ⟨(r, i), mem_advertisements.mpr ⟨hr, hi⟩, rfl⟩
  cases hstanding with
  | absent hno _ => exact absurd rfl (hno _ hmem)
  | far _ hfar _ _ _ _ _ => exact absurd hr0 (hfar _ hmem rfl)
  | own a ha w hw hk _ hnext =>
    rw [List.find?_map] at ha
    obtain ⟨b, hb, rfl⟩ := Option.map_eq_some_iff.mp ha
    have honly := find_advertisements
      (p := fun a => subnetOf a.2 == subnetOf i && (g a.1).distance == 0) hr
      (fun r' hr' j hp => hzero r' hr' (beq_iff_eq.mp (Bool.and_eq_true_iff.mp hp).2))
    have hours₁ := honly.symm.trans hb
    obtain ⟨i₁, hi₁, rfl⟩ := Option.map_eq_some_iff.mp hours₁
    refine ⟨wrappers, w, i₁, hentries, hnodup, hw, hk, ?_, ?_⟩
    · simpa [Function.comp_def, hr0] using hi₁
    · unfold nextRid at hnext
      rw [(hfound.ours r hr hs).2, hprev r hr hs] at hnext
      exact (Option.some.inj hnext).symm

/-- Where no 16-bit distance wraps round to ours, the routes for our subnets leave by their own
interfaces exactly when the neighbours of our entries do not lead elsewhere. -/
theorem own_named_iff (hdistinct : Distinct routers) (hlen : routers.length < 2 ^ 32 - 1)
    (hprev : ∀ r ∈ routers, r.routerId = s → r.prevRouter = none) (hwrap : Unwrapped s routers)
    (hone : OneEach s routers ifList)
    (h : computeRtable s routers ifList = some (routes, left)) :
    OwnNamed s routers ifList routes ↔ NeighboursAgree s routers ifList := by
  constructor
  · intro hnamed r hr hs i hfirst found hget iface hiface howns
    obtain ⟨wrappers, w, i₁, hall, -, hw, hk, hi₁, hnext⟩ :=
      own_wrapper hdistinct hlen hprev hwrap h hr hs (List.mem_of_find?_eq_some hfirst)
    obtain rfl := Option.some.inj (hi₁.symm.trans hfirst)
    obtain ⟨hunwrap, hmem⟩ := unwrapAll_mem hall
    obtain ⟨entry, hentry⟩ := hunwrap w hw
    obtain ⟨e, rfl, hsub, hname⟩ := unwrap_iface (by rw [hnext, hget, Option.some_or]) hentry
    rw [← hname]
    exact hnamed e ((hmem e).mpr ⟨w, hw, hentry⟩) r hr hs i₁ (List.mem_of_find?_eq_some hfirst)
      (hk.symm.trans hsub.symm) iface hiface howns
  · intro hagree e he r hr hs i hi hsub iface hiface howns
    obtain ⟨wrappers, w, i₁, hall, hnodup, hw, hk, hi₁, hnext⟩ :=
      own_wrapper hdistinct hlen hprev hwrap h hr hs hi
    obtain ⟨x, hx, hxe⟩ := ((unwrapAll_mem hall).2 e).mp he
    obtain ⟨found, hget, hxsub, hname⟩ := iface_of_unwrap hxe
    obtain rfl := List.inj_on_of_nodup_map hnodup hx hw (hxsub.symm.trans (hsub.symm.trans hk.symm))
    have hi₁sub : subnetOf i₁ = subnetOf i := by
      have hp := List.find?_some hi₁
      exact beq_iff_eq.mp hp
    have howns₁ : Owns iface i₁ := howns.trans hi₁sub.symm
    rw [hname]
    cases hrid : getIfaceByRid x.nextRid ifList with
    | some found' =>
      rw [hrid, Option.some_or] at hget
      obtain rfl := Option.some.inj hget
      rw [hnext] at hrid
      exact hagree r hr hs i₁ (by rw [hi₁sub]; exact hi₁) found' hrid iface hiface howns₁
    | none =>
      rw [hrid, Option.none_or] at hget
      obtain ⟨hmem, hon⟩ := getIfaceBySubnetMask_some hget
      obtain ⟨only, -, -, honly⟩ := hone r hr hs i hi
      rw [honly found hmem (hon.trans hk), honly iface hiface howns]

end Run

/-- We, first in the list, and a neighbour on each of the given subnets. -/
def neighbourOn (subnets : List (BitVec 32)) : List Router :=
  [⟨0, 1, subnets.map fun subnet => ⟨subnet, 0xff, 2, true⟩, 0, false, none⟩,
    ⟨1, 2, subnets.map fun subnet => ⟨subnet, 0xff, 1, true⟩, 0, false, none⟩]

/-- Our interfaces, with that neighbour on both. -/
def bothIfs : List IfaceEntry :=
  [⟨"eth0", 0x0a, 0xff, [⟨2, 0x0a⟩]⟩, ⟨"eth1", 0x0b, 0xff, [⟨2, 0x0b⟩]⟩]

instance (iface : IfaceEntry) (i : PwospfInterface) : Decidable (Owns iface i) :=
  inferInstanceAs (Decidable (_ = _))

instance (s : BitVec 32) (routers : List Router) (ifList : List IfaceEntry) :
    Decidable (OneEach s routers ifList) :=
  inferInstanceAs (Decidable (∀ r ∈ routers, _ → ∀ i ∈ r.interfaceList, ∃ iface ∈ ifList, _ ∧
    ∀ other ∈ ifList, _))

instance (s : BitVec 32) (routers : List Router) (ifList : List IfaceEntry)
    (routes : List RtableEntry) : Decidable (OwnNamed s routers ifList routes) :=
  inferInstanceAs (Decidable (∀ e ∈ routes, ∀ r ∈ routers, _ → ∀ i ∈ r.interfaceList, _ →
    ∀ iface ∈ ifList, _))

/-- One link to the neighbour: the route leaves by its own interface. -/
theorem own_named_iff_single :
    OwnNamed 1 (neighbourOn [0x0a]) bothIfs [⟨0x0a, 0, 0xff, "eth0", false, true⟩] ↔
      NeighboursAgree 1 (neighbourOn [0x0a]) bothIfs := by
  have hrun : (computeRtable 1 (neighbourOn [0x0a]) bothIfs).map Prod.fst =
      some [⟨0x0a, 0, 0xff, "eth0", false, true⟩] := by decide +kernel
  obtain ⟨⟨routes, left⟩, hleft, rfl⟩ := Option.map_eq_some_iff.mp hrun
  exact own_named_iff ⟨by decide, by decide, by decide⟩ (by decide) (by decide)
    (unwrapped_of_head rfl (by decide)) (by decide) hleft

/-- Two links to the neighbour: the route of the second subnet leaves by the first interface. -/
theorem parallel_links_misnamed :
    OneEach 1 (neighbourOn [0x0a, 0x0b]) bothIfs ∧
      ∃ routes left, computeRtable 1 (neighbourOn [0x0a, 0x0b]) bothIfs = some (routes, left) ∧
        ¬ OwnNamed 1 (neighbourOn [0x0a, 0x0b]) bothIfs routes := by
  have hrun : (computeRtable 1 (neighbourOn [0x0a, 0x0b]) bothIfs).map Prod.fst =
      some [⟨0x0a, 0, 0xff, "eth0", false, true⟩, ⟨0x0b, 0, 0xff, "eth0", false, true⟩] := by
    decide +kernel
  obtain ⟨⟨routes, left⟩, hleft, hroutes⟩ := Option.map_eq_some_iff.mp hrun
  refine ⟨by decide, routes, left, hleft, ?_⟩
  obtain rfl : routes = _ := hroutes
  decide

end Osnt.Scone.Dijkstra
