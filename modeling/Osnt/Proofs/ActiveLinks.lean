import Mathlib.Data.Multiset.MapFold
import Osnt.Lib.Marks
import Osnt.Proofs.PwospfRouterList

namespace Osnt.Scone.Pwospf
open Lib

/-- The pass over the router list. -/
def activePass (routers : List PwospfRouter) : List PwospfRouter :=
  (List.range routers.length).foldl determineActiveInterfaces routers

theorem activePass_content (routers : List PwospfRouter) :
    (activePass routers).map PwospfRouter.content = routers.map PwospfRouter.content :=
  foldl_content _ determineActiveInterfaces_content _ _

def entryOf (routers : List PwospfRouter) (p : Nat × Nat) : Option PwospfInterface :=
  routers[p.1]?.bind fun r => r.interfaceList[p.2]?

def Active (routers : List PwospfRouter) (p : Nat × Nat) : Prop :=
  ∃ i, entryOf routers p = some i ∧ i.isActive = true

/-- Both are on one link, and have a neighbour. -/
def Faces (i o : PwospfInterface) : Prop :=
  i.subnet = o.subnet ∧ i.mask = o.mask ∧ ¬(i.routerId = 0 ∨ o.routerId = 0)

instance (i o : PwospfInterface) : Decidable (Faces i o) :=
  inferInstanceAs (Decidable (_ ∧ _ ∧ _))

/-- The interface at `p` finds the one at `q`, of the router it names. -/
def Points (routers : List PwospfRouter) (p q : Nat × Nat) : Prop :=
  ∃ i r o, entryOf routers p = some i ∧ routers[q.1]? = some r ∧ r.routerId = i.routerId ∧
    r.interfaceList[q.2]? = some o ∧ Faces i o

theorem router_of_content {routers routers' : List PwospfRouter}
    (h : routers.map PwospfRouter.content = routers'.map PwospfRouter.content) {k : Nat}
    {r : PwospfRouter} (hr : routers[k]? = some r) :
    ∃ r', routers'[k]? = some r' ∧ r'.content = r.content := by
  have hk := congrArg (fun l => l[k]?) h
  simp only [List.getElem?_map, hr, Option.map_some] at hk
  exact Option.map_eq_some_iff.mp hk.symm

theorem interface_of_content {r r' : PwospfRouter} (h : r'.content = r.content) {j : Nat}
    {i : PwospfInterface} (hi : r.interfaceList[j]? = some i) :
    ∃ i', r'.interfaceList[j]? = some i' ∧ i'.content = i.content := by
  have hj := congrArg (fun c => c.interfaces[j]?) h
  simp only [PwospfRouter.content, List.getElem?_map, hi, Option.map_some] at hj
  exact Option.map_eq_some_iff.mp hj

theorem entryOf_of_content {routers routers' : List PwospfRouter}
    (h : routers.map PwospfRouter.content = routers'.map PwospfRouter.content) {p : Nat × Nat}
    {i : PwospfInterface} (hi : entryOf routers p = some i) :
    ∃ i', entryOf routers' p = some i' ∧ i'.content = i.content := by
  obtain ⟨r, hr, hi⟩ := Option.bind_eq_some_iff.mp hi
  obtain ⟨r', hr', hc⟩ := router_of_content h hr
  obtain ⟨i', hi', hci⟩ := interface_of_content hc hi
  exact ⟨i', Option.bind_eq_some_iff.mpr ⟨r', hr', hi'⟩, hci⟩

theorem Faces.of_content {i i' o o' : PwospfInterface} (h : Faces i o)
    (hi : i'.content = i.content) (ho : o'.content = o.content) : Faces i' o' := by
  simp only [PwospfInterface.content, Prod.mk.injEq] at hi ho
  rw [Faces, hi.1, hi.2.1, hi.2.2, ho.1, ho.2.1, ho.2.2]
  exact h

theorem Points.of_content {routers routers' : List PwospfRouter} {p q : Nat × Nat}
    (hp : Points routers p q)
    (h : routers.map PwospfRouter.content = routers'.map PwospfRouter.content) :
    Points routers' p q := by
  obtain ⟨i, r, o, hi, hr, hid, ho, hfaces⟩ := hp
  obtain ⟨i', hi', hci⟩ := entryOf_of_content h hi
  obtain ⟨r', hr', hcr⟩ := router_of_content h hr
  obtain ⟨o', ho', hco⟩ := interface_of_content hcr ho
  refine ⟨i', r', o', hi', hr', ?_, ho', hfaces.of_content hci hco⟩
  exact (congrArg Content.routerId hcr).trans (hid.trans (congrArg (·.2.2) hci).symm)

theorem points_congr {routers routers' : List PwospfRouter}
    (h : routers.map PwospfRouter.content = routers'.map PwospfRouter.content) :
    Points routers = Points routers' := by
  funext p q
  exact propext ⟨fun hp => hp.of_content h, fun hp => hp.of_content h.symm⟩

theorem entryOf_setActive (routers : List PwospfRouter) (p q : Nat × Nat) (active : Bool) :
    entryOf (setActive routers p.1 p.2 active) q =
      if q = p then (entryOf routers q).map fun i => { i with isActive := active }
      else entryOf routers q := by
  unfold entryOf setActive
  rw [List.getElem?_modify]
  cases routers[q.1]? with
  | none => simp
  | some r =>
    by_cases hk : p.1 = q.1
    · by_cases hj : p.2 = q.2
      · have he : q = p := Prod.ext hk.symm hj.symm
        simp [hk, hj, he]
      · have hne : q ≠ p := fun he => hj (by rw [he])
        simp [hk, hj, hne]
    · have hne : q ≠ p := fun he => hk (by rw [he])
      simp [hk, hne]

theorem active_setActive_true {routers : List PwospfRouter} {p : Nat × Nat}
    {i : PwospfInterface} (hp : entryOf routers p = some i) (q : Nat × Nat) :
    Active (setActive routers p.1 p.2 true) q ↔ q = p ∨ Active routers q := by
  unfold Active
  rw [entryOf_setActive]
  by_cases he : q = p
  · subst he
    simp [hp]
  · simp [he]

theorem active_setActive_false (routers : List PwospfRouter) (p q : Nat × Nat) :
    Active (setActive routers p.1 p.2 false) q ↔ q ≠ p ∧ Active routers q := by
  unfold Active
  rw [entryOf_setActive]
  by_cases he : q = p
  · simp [he]
  · simp [he]

/-- The interface at `p` against the `x`-th one of the `a`-th router. -/
def faceOther (p : Nat × Nat) (this : PwospfInterface) (a : Nat) (routers : List PwospfRouter)
    (x : Nat) : List PwospfRouter :=
  match (routers[a]?.bind fun r => r.interfaceList[x]?) with
  | none => routers
  | some other =>
    if this.subnet = other.subnet ∧ this.mask = other.mask ∧
        ¬(this.routerId = 0 ∨ other.routerId = 0) then
      setActive (setActive routers p.1 p.2 true) a x true
    else routers

/-- The `x`-th interface of the `a`-th router faces this one. -/
def Hits (routers : List PwospfRouter) (this : PwospfInterface) (a x : Nat) : Prop :=
  ∃ o, entryOf routers (a, x) = some o ∧ Faces this o

theorem Hits.of_content {routers routers' : List PwospfRouter} {this : PwospfInterface}
    {a x : Nat} (hx : Hits routers this a x)
    (h : routers.map PwospfRouter.content = routers'.map PwospfRouter.content) :
    Hits routers' this a x := by
  obtain ⟨o, ho, hfaces⟩ := hx
  obtain ⟨o', ho', hc⟩ := entryOf_of_content h ho
  exact ⟨o', ho', hfaces.of_content rfl hc⟩

theorem faceOther_content (p : Nat × Nat) (this : PwospfInterface) (a : Nat)
    (routers : List PwospfRouter) (x : Nat) :
    (faceOther p this a routers x).map PwospfRouter.content =
      routers.map PwospfRouter.content := by
  unfold faceOther
  split
  · rfl
  · split
    · rw [setActive_content, setActive_content]
    · rfl

theorem active_faceOther {routers : List PwospfRouter} {p : Nat × Nat} {i : PwospfInterface}
    (hp : entryOf routers p = some i) (this : PwospfInterface) (a x : Nat) (q : Nat × Nat) :
    Active (faceOther p this a routers x) q ↔
      (Hits routers this a x ∧ (q = p ∨ q = (a, x))) ∨ Active routers q := by
  unfold faceOther Hits
  change Active (match entryOf routers (a, x) with
    | none => routers
    | some other => if Faces this other then
        setActive (setActive routers p.1 p.2 true) a x true else routers) q ↔ _
  cases ho : entryOf routers (a, x) with
  | none => simp
  | some o =>
    by_cases hfaces : Faces this o
    · obtain ⟨o', ho', -⟩ :=
        entryOf_of_content (setActive_content routers p.1 p.2 true).symm ho
      dsimp only
      rw [if_pos hfaces, active_setActive_true ho', active_setActive_true hp]
      simp only [Option.some.injEq, exists_eq_left', hfaces, true_and]
      rw [or_left_comm, or_assoc]
    · dsimp only
      rw [if_neg hfaces]
      simp [hfaces]

theorem active_foldl_faceOther {p : Nat × Nat} (this : PwospfInterface) (a : Nat) (xs : List Nat)
    {routers : List PwospfRouter} {i : PwospfInterface} (hp : entryOf routers p = some i)
    (q : Nat × Nat) :
    Active (xs.foldl (faceOther p this a) routers) q ↔
      (∃ x ∈ xs, Hits routers this a x ∧ (q = p ∨ q = (a, x))) ∨ Active routers q := by
  induction xs generalizing routers i with
  | nil => simp
  | cons x xs ih =>
    have hsame := faceOther_content p this a routers x
    have hhits (y : Nat) : Hits (faceOther p this a routers x) this a y ↔
        Hits routers this a y :=
      ⟨fun h => h.of_content hsame, fun h => h.of_content hsame.symm⟩
    obtain ⟨i', hp', -⟩ := entryOf_of_content hsame.symm hp
    rw [List.foldl_cons, ih hp', active_faceOther hp]
    simp only [hhits, List.exists_mem_cons_iff]
    rw [or_left_comm, or_assoc]

/-- The ids of the routers are distinct. -/
def DistinctIds (routers : List PwospfRouter) : Prop :=
  (routers.map PwospfRouter.routerId).Nodup

instance (routers : List PwospfRouter) : Decidable (DistinctIds routers) :=
  inferInstanceAs (Decidable (List.Nodup _))

theorem map_routerId_of_content {routers routers' : List PwospfRouter}
    (h : routers.map PwospfRouter.content = routers'.map PwospfRouter.content) :
    routers.map PwospfRouter.routerId = routers'.map PwospfRouter.routerId := by
  have hids := congrArg (List.map Content.routerId) h
  rwa [List.map_map, List.map_map] at hids

theorem DistinctIds.of_content {routers routers' : List PwospfRouter}
    (hdistinct : DistinctIds routers)
    (h : routers'.map PwospfRouter.content = routers.map PwospfRouter.content) :
    DistinctIds routers' := by
  rw [DistinctIds, map_routerId_of_content h]
  exact hdistinct

theorem not_points_of_unknown {routers : List PwospfRouter} {p : Nat × Nat}
    {i : PwospfInterface} (hp : entryOf routers p = some i)
    (h : routers.findIdx? (fun r => r.routerId == i.routerId) = none) (o : Nat × Nat) :
    ¬ Points routers p o := by
  rintro ⟨i', r, -, hi', hr, hid, -⟩
  obtain rfl := Option.some.inj (hp.symm.trans hi')
  have hne := List.findIdx?_eq_none_iff.mp h r (List.mem_of_getElem? hr)
  exact beq_eq_false_iff_ne.mp hne hid

theorem points_iff_hits {routers : List PwospfRouter} (hdistinct : DistinctIds routers)
    {p : Nat × Nat} {i : PwospfInterface} (hp : entryOf routers p = some i) {a : Nat}
    {r : PwospfRouter} (hr : routers[a]? = some r) (hid : r.routerId = i.routerId)
    (o : Nat × Nat) : Points routers p o ↔ ∃ x, Hits routers i a x ∧ o = (a, x) := by
  constructor
  · rintro ⟨i', r', o', hi', hr', hid', ho', hfaces⟩
    obtain rfl := Option.some.inj (hp.symm.trans hi')
    have hidx : a = o.1 := eq_of_getElem?_of_nodup hdistinct hr hr' (hid.trans hid'.symm)
    subst hidx
    exact ⟨o.2, ⟨o', Option.bind_eq_some_iff.mpr ⟨r', hr', ho'⟩, hfaces⟩, rfl⟩
  · rintro ⟨x, ⟨o', ho', hfaces⟩, rfl⟩
    obtain ⟨r', hr', ho'⟩ := Option.bind_eq_some_iff.mp ho'
    obtain rfl := Option.some.inj (hr.symm.trans hr')
    exact ⟨i, r, o', hp, hr', hid, ho', hfaces⟩

/-- How many interfaces the `k`-th router has. -/
def interfaceCount (routers : List PwospfRouter) (k : Nat) : Nat :=
  (routers[k]?.map fun r => r.interfaceList.length).getD 0

theorem lt_interfaceCount_iff {routers : List PwospfRouter} {p : Nat × Nat} :
    p.2 < interfaceCount routers p.1 ↔ ∃ i, entryOf routers p = some i := by
  unfold interfaceCount entryOf
  cases routers[p.1]? with
  | none => simp
  | some r => simp [List.getElem?_eq_some_iff]

theorem interfaceCount_of_content {routers routers' : List PwospfRouter}
    (h : routers.map PwospfRouter.content = routers'.map PwospfRouter.content) (k : Nat) :
    interfaceCount routers k = interfaceCount routers' k := by
  have hcount (l : List PwospfRouter) : interfaceCount l k =
      ((l.map PwospfRouter.content)[k]?.map fun c => c.interfaces.length).getD 0 := by
    simp [interfaceCount, PwospfRouter.content, Function.comp_def]
  rw [hcount, hcount, h]

theorem active_visit {routers : List PwospfRouter} (hdistinct : DistinctIds routers)
    {p : Nat × Nat} {i : PwospfInterface} (hp : entryOf routers p = some i) (q : Nat × Nat) :
    Active (determineActiveInterface p.1 routers p.2) q ↔
      visitMarks (Points routers) (Active routers) p q := by
  have hsame := setActive_content routers p.1 p.2 false
  have hthis : entryOf (setActive routers p.1 p.2 false) p =
      some { i with isActive := false } := by
    rw [entryOf_setActive, if_pos rfl, hp]
    rfl
  have hbind : ((setActive routers p.1 p.2 false)[p.1]?.bind fun r => r.interfaceList[p.2]?) =
      some { i with isActive := false } := hthis
  unfold determineActiveInterface
  dsimp only
  rw [hbind, visitMarks, ← points_congr hsame]
  dsimp only
  cases ha : (setActive routers p.1 p.2 false).findIdx? (fun r => r.routerId == i.routerId) with
  | none =>
    simp only [active_setActive_false, not_points_of_unknown hthis ha, exists_false, and_false,
      false_or]
  | some a =>
    obtain ⟨halt, hid, -⟩ := List.findIdx?_eq_some_iff_getElem.mp ha
    have hpoints := points_iff_hits (hdistinct.of_content hsame) hthis
      (List.getElem?_eq_getElem halt) (eq_of_beq hid)
    have hfold := active_foldl_faceOther { i with isActive := false } a
      (List.range (interfaceCount (setActive routers p.1 p.2 false) a)) hthis q
    refine hfold.trans ?_
    rw [active_setActive_false]
    constructor
    · rintro (⟨x, -, hx, rfl | rfl⟩ | h)
      · exact .inr (.inl ⟨rfl, (a, x), (hpoints _).mpr ⟨x, hx, rfl⟩⟩)
      · exact .inl ((hpoints _).mpr ⟨x, hx, rfl⟩)
      · exact .inr (.inr h)
    · have hrange (x : Nat) (hx : Hits (setActive routers p.1 p.2 false)
          { i with isActive := false } a x) :
          x ∈ List.range (interfaceCount (setActive routers p.1 p.2 false) a) := by
        obtain ⟨o, ho, -⟩ := hx
        exact List.mem_range.mpr (lt_interfaceCount_iff.mpr ⟨o, ho⟩)
      rintro (h | ⟨rfl, o, h⟩ | h)
      · obtain ⟨x, hx, rfl⟩ := (hpoints _).mp h
        exact .inl ⟨x, hrange x hx, hx, .inr rfl⟩
      · obtain ⟨x, hx, -⟩ := (hpoints _).mp h
        exact .inl ⟨x, hrange x hx, hx, .inl rfl⟩
      · exact .inr h

def positionsOf (routers : List PwospfRouter) (k : Nat) : List (Nat × Nat) :=
  (List.range (interfaceCount routers k)).map (Prod.mk k)

/-- The positions in the order in which they are visited. -/
def positions (routers : List PwospfRouter) : List (Nat × Nat) :=
  (List.range routers.length).flatMap (positionsOf routers)

theorem mem_positionsOf {routers : List PwospfRouter} {k : Nat} {p : Nat × Nat} :
    p ∈ positionsOf routers k ↔ p.1 = k ∧ ∃ i, entryOf routers p = some i := by
  rw [positionsOf, List.mem_map]
  constructor
  · rintro ⟨j, hj, rfl⟩
    exact ⟨rfl, lt_interfaceCount_iff.mp (List.mem_range.mp hj)⟩
  · rintro ⟨rfl, hi⟩
    exact ⟨p.2, List.mem_range.mpr (lt_interfaceCount_iff.mpr hi), rfl⟩

theorem mem_positions {routers : List PwospfRouter} {p : Nat × Nat} :
    p ∈ positions routers ↔ ∃ i, entryOf routers p = some i := by
  rw [positions, List.mem_flatMap]
  constructor
  · rintro ⟨k, -, hp⟩
    exact (mem_positionsOf.mp hp).2
  · rintro ⟨i, hi⟩
    obtain ⟨r, hr, -⟩ := Option.bind_eq_some_iff.mp hi
    exact ⟨p.1, List.mem_range.mpr (List.getElem?_eq_some_iff.mp hr).1,
      mem_positionsOf.mpr ⟨rfl, i, hi⟩⟩

/-- The router list while the positions are visited, with the marks that it has. -/
structure Visited (start routers : List PwospfRouter) (marked : Nat × Nat → Prop) : Prop where
  content : routers.map PwospfRouter.content = start.map PwospfRouter.content
  active : Active routers = marked

theorem Visited.visit {start routers : List PwospfRouter} {marked : Nat × Nat → Prop}
    (h : Visited start routers marked) (hdistinct : DistinctIds start) {p : Nat × Nat}
    (hp : p ∈ positions start) :
    Visited start (determineActiveInterface p.1 routers p.2)
      (visitMarks (Points start) marked p) := by
  obtain ⟨i, hi⟩ := mem_positions.mp hp
  obtain ⟨i', hi', -⟩ := entryOf_of_content h.content.symm hi
  refine ⟨(determineActiveInterface_content p.1 p.2 routers).trans h.content, funext fun q => ?_⟩
  rw [← h.active, ← points_congr h.content]
  exact propext (active_visit (hdistinct.of_content h.content) hi' q)

theorem Visited.visits {start routers : List PwospfRouter} {marked : Nat × Nat → Prop}
    (h : Visited start routers marked) (hdistinct : DistinctIds start) {ps : List (Nat × Nat)}
    (hps : ∀ p ∈ ps, p ∈ positions start) :
    Visited start (ps.foldl (fun routers p => determineActiveInterface p.1 routers p.2) routers)
      (marks (Points start) marked ps) := by
  induction ps generalizing routers marked with
  | nil => exact h
  | cons p ps ih =>
    obtain ⟨hp, hps⟩ := List.forall_mem_cons.mp hps
    exact ih (h.visit hdistinct hp) hps

/-- The two loops are one over the positions: no visit changes how many there are. -/
theorem foldl_determineActiveInterfaces {start routers : List PwospfRouter}
    (h : routers.map PwospfRouter.content = start.map PwospfRouter.content) (ks : List Nat) :
    ks.foldl determineActiveInterfaces routers = (ks.flatMap (positionsOf start)).foldl
      (fun routers p => determineActiveInterface p.1 routers p.2) routers := by
  induction ks generalizing routers with
  | nil => rfl
  | cons k ks ih =>
    have hk : determineActiveInterfaces routers k = (positionsOf start k).foldl
        (fun routers p => determineActiveInterface p.1 routers p.2) routers := by
      rw [positionsOf, ← interfaceCount_of_content h, List.foldl_map]
      rfl
    rw [List.foldl_cons, List.flatMap_cons, List.foldl_append, ← hk]
    exact ih ((determineActiveInterfaces_content routers k).trans h)

theorem activePass_active {routers : List PwospfRouter} (hdistinct : DistinctIds routers) :
    Active (activePass routers) =
      marks (Points routers) (Active routers) (positions routers) := by
  have hfold := @foldl_determineActiveInterfaces routers routers rfl (List.range routers.length)
  rw [activePass, hfold]
  exact (Visited.visits ⟨rfl, rfl⟩ hdistinct fun _ hp => hp).active

/-- Router `a` has an entry on this link with neighbour id `b`. -/
def HasEntry (routers : List PwospfRouter) (a subnet mask b : BitVec 32) : Prop :=
  ∃ r ∈ routers, r.routerId = a ∧
    (subnet, mask, b) ∈ r.interfaceList.map PwospfInterface.content

/-- The neighbour `b` of router `a` on this link has an entry there whose neighbour is `a`. Id 0
stands for no neighbour. -/
def Mutual (routers : List PwospfRouter) (a subnet mask b : BitVec 32) : Prop :=
  a ≠ 0 ∧ b ≠ 0 ∧ HasEntry routers b subnet mask a

instance (routers : List PwospfRouter) (a subnet mask b : BitVec 32) :
    Decidable (HasEntry routers a subnet mask b) :=
  inferInstanceAs (Decidable (∃ r ∈ routers, _ ∧ _))

instance (routers : List PwospfRouter) (a subnet mask b : BitVec 32) :
    Decidable (Mutual routers a subnet mask b) :=
  inferInstanceAs (Decidable (_ ∧ _ ∧ _))

/-- Wherever `b` is named on a link on which it names `c`, both the entry of `a` that names it and
its own are answered. -/
def Answered (routers : List PwospfRouter) : Prop :=
  ∀ a subnet mask b c, HasEntry routers a subnet mask b → HasEntry routers b subnet mask c →
    b ≠ 0 → c ≠ 0 → Mutual routers a subnet mask b ∧ Mutual routers b subnet mask c

theorem hasEntry_iff {routers : List PwospfRouter} {a subnet mask b : BitVec 32} :
    HasEntry routers a subnet mask b ↔ ∃ (q : Nat × Nat) (r : PwospfRouter)
      (i : PwospfInterface), routers[q.1]? = some r ∧ r.routerId = a ∧
      r.interfaceList[q.2]? = some i ∧ i.content = (subnet, mask, b) := by
  constructor
  · rintro ⟨r, hr, hid, hi⟩
    obtain ⟨i, hi, hc⟩ := List.mem_map.mp hi
    obtain ⟨k, hk⟩ := List.mem_iff_getElem?.mp hr
    obtain ⟨j, hj⟩ := List.mem_iff_getElem?.mp hi
    exact ⟨(k, j), r, i, hk, hid, hj, hc⟩
  · rintro ⟨q, r, i, hr, hid, hi, hc⟩
    exact ⟨r, List.mem_of_getElem? hr, hid, List.mem_map.mpr ⟨i, List.mem_of_getElem? hi, hc⟩⟩

theorem hasEntry_of_getElem? {routers : List PwospfRouter} {q : Nat × Nat} {r : PwospfRouter}
    {i : PwospfInterface} (hr : routers[q.1]? = some r) (hi : r.interfaceList[q.2]? = some i) :
    HasEntry routers r.routerId i.subnet i.mask i.routerId :=
  hasEntry_iff.mpr ⟨q, r, i, hr, rfl, hi, rfl⟩

/-- An interface points at another one if its neighbour has any neighbour on the link. -/
theorem points_any_iff {routers : List PwospfRouter} {p : Nat × Nat} {i : PwospfInterface}
    (hp : entryOf routers p = some i) :
    (∃ q, Points routers p q) ↔
      i.routerId ≠ 0 ∧ ∃ c, c ≠ 0 ∧ HasEntry routers i.routerId i.subnet i.mask c := by
  constructor
  · rintro ⟨q, i', r, o, hi', hr, hid, ho, hsub, hmask, hids⟩
    obtain rfl := Option.some.inj (hp.symm.trans hi')
    obtain ⟨hi0, ho0⟩ := not_or.mp hids
    refine ⟨hi0, o.routerId, ho0, ?_⟩
    rw [hsub, hmask, ← hid]
    exact hasEntry_of_getElem? hr ho
  · rintro ⟨hi0, c, hc0, hentry⟩
    obtain ⟨q, r, o, hr, hid, ho, hc⟩ := hasEntry_iff.mp hentry
    simp only [PwospfInterface.content, Prod.mk.injEq] at hc
    obtain ⟨hsub, hmask, rfl⟩ := hc
    exact ⟨q, i, r, o, hp, hr, hid, ho, hsub.symm, hmask.symm, not_or.mpr ⟨hi0, hc0⟩⟩

theorem Answered.points_any_iff {routers : List PwospfRouter} (h : Answered routers)
    {p : Nat × Nat} {r : PwospfRouter} {i : PwospfInterface} (hr : routers[p.1]? = some r)
    (hi : r.interfaceList[p.2]? = some i) :
    (∃ q, Points routers p q) ↔ Mutual routers r.routerId i.subnet i.mask i.routerId := by
  rw [Pwospf.points_any_iff (Option.bind_eq_some_iff.mpr ⟨r, hr, hi⟩)]
  constructor
  · rintro ⟨hi0, c, hc0, hentry⟩
    exact (h _ _ _ _ _ (hasEntry_of_getElem? hr hi) hentry hi0 hc0).1
  · rintro ⟨hr0, hi0, hentry⟩
    exact ⟨hi0, r.routerId, hr0, hentry⟩

/-- Those that are pointed at point at someone, so that the order of the visits is no matter. -/
theorem Answered.points_back {routers : List PwospfRouter} (h : Answered routers)
    {p q : Nat × Nat} (hpq : Points routers p q) : ∃ o, Points routers q o := by
  obtain ⟨i, r, o, hi, hr, hid, ho, hsub, hmask, hids⟩ := hpq
  obtain ⟨hi0, ho0⟩ := not_or.mp hids
  obtain ⟨r', hr', hi'⟩ := Option.bind_eq_some_iff.mp hi
  have hnamed := hasEntry_of_getElem? hr' hi'
  rw [hsub, hmask, ← hid] at hnamed
  rw [h.points_any_iff hr ho]
  exact (h _ _ _ _ _ hnamed (hasEntry_of_getElem? hr ho) (hid ▸ hi0) ho0).2

theorem activePass_getElem? {routers : List PwospfRouter} {r : PwospfRouter} {i : PwospfInterface}
    (hr : r ∈ activePass routers) (hi : i ∈ r.interfaceList) :
    ∃ (q : Nat × Nat) (r' : PwospfRouter) (i' : PwospfInterface),
      routers[q.1]? = some r' ∧ r'.interfaceList[q.2]? = some i' ∧
      r'.routerId = r.routerId ∧ i'.content = i.content ∧
      (Active (activePass routers) q ↔ i.isActive = true) := by
  obtain ⟨k, hk⟩ := List.mem_iff_getElem?.mp hr
  obtain ⟨j, hj⟩ := List.mem_iff_getElem?.mp hi
  obtain ⟨r', hr', hcr⟩ := router_of_content (activePass_content routers) hk
  obtain ⟨i', hi', hci⟩ := interface_of_content hcr hj
  refine ⟨(k, j), r', i', hr', hi', congrArg Content.routerId hcr, hci, ?_⟩
  have hentry : entryOf (activePass routers) (k, j) = some i :=
    Option.bind_eq_some_iff.mpr ⟨r, hk, hj⟩
  simp [Active, hentry]

theorem Answered.active_iff {routers : List PwospfRouter} (h : Answered routers)
    (hdistinct : DistinctIds routers) {r : PwospfRouter} {i : PwospfInterface}
    (hr : r ∈ activePass routers) (hi : i ∈ r.interfaceList) :
    i.isActive = true ↔ Mutual routers r.routerId i.subnet i.mask i.routerId := by
  obtain ⟨q, r', i', hr', hi', hid, hc, hactive⟩ := activePass_getElem? hr hi
  have hq : q ∈ positions routers :=
    mem_positions.mpr ⟨i', Option.bind_eq_some_iff.mpr ⟨r', hr', hi'⟩⟩
  simp only [PwospfInterface.content, Prod.mk.injEq] at hc
  rw [← hactive, activePass_active hdistinct,
    marks_settled (fun _ _ hpq => h.points_back hpq) hq, h.points_any_iff hr' hi', hid, hc.1,
    hc.2.1, hc.2.2]

/-- The routers and their interfaces in no order. -/
def unordered (routers : List PwospfRouter) : Multiset (BitVec 32 × Multiset PwospfInterface) :=
  (routers : Multiset PwospfRouter).map fun r => (r.routerId, (r.interfaceList : Multiset _))

theorem mem_of_unordered {routers routers' : List PwospfRouter}
    (h : unordered routers' = unordered routers) {r : PwospfRouter} (hr : r ∈ routers) :
    ∃ r' ∈ routers', r'.routerId = r.routerId ∧
      ∀ i, i ∈ r'.interfaceList ↔ i ∈ r.interfaceList := by
  have hmem : (r.routerId, (r.interfaceList : Multiset PwospfInterface)) ∈ unordered routers' := by
    rw [h]
    exact Multiset.mem_map_of_mem _ hr
  obtain ⟨r', hr', he⟩ := Multiset.mem_map.mp hmem
  obtain ⟨hid, hperm⟩ := Prod.mk.inj he
  exact ⟨r', hr', hid, fun i => (Multiset.coe_eq_coe.mp hperm).mem_iff⟩

theorem HasEntry.of_unordered {routers routers' : List PwospfRouter}
    (h : unordered routers' = unordered routers) {a subnet mask b : BitVec 32}
    (hentry : HasEntry routers a subnet mask b) : HasEntry routers' a subnet mask b := by
  obtain ⟨r, hr, hid, hi⟩ := hentry
  obtain ⟨r', hr', hid', hsame⟩ := mem_of_unordered h hr
  obtain ⟨i, hi, hc⟩ := List.mem_map.mp hi
  exact ⟨r', hr', hid'.trans hid, List.mem_map.mpr ⟨i, (hsame i).mpr hi, hc⟩⟩

theorem hasEntry_unordered {routers routers' : List PwospfRouter}
    (h : unordered routers' = unordered routers) : HasEntry routers' = HasEntry routers := by
  funext a subnet mask b
  exact propext ⟨fun hentry => hentry.of_unordered h.symm, fun hentry => hentry.of_unordered h⟩

theorem mutual_unordered {routers routers' : List PwospfRouter}
    (h : unordered routers' = unordered routers) : Mutual routers' = Mutual routers := by
  funext a subnet mask b
  rw [Mutual, hasEntry_unordered h]
  rfl

theorem DistinctIds.of_unordered {routers routers' : List PwospfRouter}
    (hdistinct : DistinctIds routers) (h : unordered routers' = unordered routers) :
    DistinctIds routers' := by
  have hids := congrArg (Multiset.map Prod.fst) h
  rw [unordered, unordered, Multiset.map_map, Multiset.map_map, Multiset.map_coe,
    Multiset.map_coe, Multiset.coe_eq_coe] at hids
  exact hids.nodup_iff.mpr hdistinct

/-- The property of the pass: activity is mutual, and the same for every order of the routers and
of their interfaces. -/
structure LinksMutual (routers : List PwospfRouter) : Prop where
  active_iff : ∀ r ∈ activePass routers, ∀ i ∈ r.interfaceList,
    i.isActive = true ↔ Mutual routers r.routerId i.subnet i.mask i.routerId
  any_order : ∀ routers', unordered routers' = unordered routers →
    unordered (activePass routers') = unordered (activePass routers)

/-- An interface of router `a` as a pass leaves it that makes just the answered ones active. -/
def settled (routers : List PwospfRouter) (a : BitVec 32) (c : BitVec 32 × BitVec 32 × BitVec 32) :
    PwospfInterface :=
  ⟨c.1, c.2.1, c.2.2, decide (Mutual routers a c.1 c.2.1 c.2.2)⟩

theorem settled_unordered {routers routers' : List PwospfRouter}
    (h : unordered routers' = unordered routers) : settled routers' = settled routers := by
  funext a c
  have hmutual := congrFun (congrFun (congrFun (congrFun (mutual_unordered h) a) c.1) c.2.1) c.2.2
  exact congrArg (PwospfInterface.mk c.1 c.2.1 c.2.2) (Bool.decide_congr (Iff.of_eq hmutual))

theorem Answered.unordered_activePass {routers : List PwospfRouter} (h : Answered routers)
    (hdistinct : DistinctIds routers) :
    unordered (activePass routers) =
      (unordered routers).map fun r => (r.1, r.2.map fun i => settled routers r.1 i.content) := by
  have hlist (r : PwospfRouter) (hr : r ∈ activePass routers) :
      r.interfaceList = (r.interfaceList.map PwospfInterface.content).map
        (settled routers r.routerId) := by
    rw [List.map_map]
    refine (List.map_id _).symm.trans (List.map_congr_left fun i hi => ?_)
    have hactive := Bool.decide_congr (h.active_iff hdistinct hr hi)
    rw [Bool.decide_coe] at hactive
    exact congrArg (PwospfInterface.mk i.subnet i.mask i.routerId) hactive
  have hpass : (activePass routers).map
        (fun r => (r.routerId, (r.interfaceList : Multiset PwospfInterface))) =
      ((activePass routers).map PwospfRouter.content).map fun c =>
        (c.routerId, ((c.interfaces.map (settled routers c.routerId) : List PwospfInterface) :
          Multiset PwospfInterface)) := by
    rw [List.map_map]
    exact List.map_congr_left fun r hr =>
      congrArg (fun l => (r.routerId, ((l : List PwospfInterface) : Multiset PwospfInterface)))
        (hlist r hr)
  rw [unordered, Multiset.map_coe, hpass, activePass_content, List.map_map, unordered,
    Multiset.map_map, Multiset.map_coe]
  refine congrArg _ (List.map_congr_left fun r _ => Prod.ext rfl ?_)
  rw [Function.comp_apply, Function.comp_apply, Multiset.map_coe, PwospfRouter.content,
    List.map_map]
  rfl

theorem Answered.of_unordered {routers routers' : List PwospfRouter} (h : Answered routers)
    (hord : unordered routers' = unordered routers) : Answered routers' := by
  rw [Answered, hasEntry_unordered hord, mutual_unordered hord]
  exact h

theorem Answered.linksMutual {routers : List PwospfRouter} (h : Answered routers)
    (hdistinct : DistinctIds routers) : LinksMutual routers := by
  refine ⟨fun r hr i hi => h.active_iff hdistinct hr hi, fun routers' hord => ?_⟩
  rw [(h.of_unordered hord).unordered_activePass (hdistinct.of_unordered hord),
    h.unordered_activePass hdistinct, hord, settled_unordered hord]

theorem unordered_append (before after : List PwospfRouter) (r : PwospfRouter)
    (interfaces : List PwospfInterface) (h : interfaces.Perm r.interfaceList) :
    unordered (before ++ after ++ [{ r with interfaceList := interfaces }]) =
      unordered (before ++ r :: after) := by
  have hr : ((r.routerId, (interfaces : Multiset PwospfInterface)) : _ × _) =
      (r.routerId, (r.interfaceList : Multiset PwospfInterface)) :=
    congrArg (Prod.mk r.routerId) (Multiset.coe_eq_coe.mpr h)
  simp only [unordered, Multiset.map_coe, Multiset.coe_eq_coe, List.map_append, List.map_cons,
    List.map_nil, hr, List.append_assoc]
  exact List.Perm.append_left _ List.perm_append_comm

theorem positions_last (others : List PwospfRouter) (r : PwospfRouter)
    (before : List PwospfInterface) (i : PwospfInterface) :
    ∃ front, positions (others ++ [{ r with interfaceList := before ++ [i] }]) =
      front ++ [(others.length, before.length)] := by
  have hcount : interfaceCount (others ++ [{ r with interfaceList := before ++ [i] }])
      others.length = before.length + 1 := by
    simp [interfaceCount]
  refine ⟨(List.range others.length).flatMap
    (positionsOf (others ++ [{ r with interfaceList := before ++ [i] }])) ++
      (List.range before.length).map (Prod.mk others.length), ?_⟩
  rw [positions, List.length_append, List.length_singleton, List.range_succ, List.flatMap_append,
    List.flatMap_singleton, positionsOf, hcount, List.range_succ, List.map_append,
    List.map_singleton, ← List.append_assoc]

theorem exists_last {routers : List PwospfRouter} {a subnet mask b : BitVec 32}
    (h : HasEntry routers a subnet mask b) :
    ∃ routers' front p r i, unordered routers' = unordered routers ∧
      positions routers' = front ++ [p] ∧ routers'[p.1]? = some r ∧ r.routerId = a ∧
      r.interfaceList[p.2]? = some i ∧ i.content = (subnet, mask, b) := by
  obtain ⟨r, hr, hid, hi⟩ := h
  obtain ⟨i, hi, hc⟩ := List.mem_map.mp hi
  obtain ⟨before, after, rfl⟩ := List.append_of_mem hr
  obtain ⟨bi, ai, hsplit⟩ := List.append_of_mem hi
  have hperm : (bi ++ ai ++ [i]).Perm r.interfaceList := by
    rw [hsplit, List.append_assoc]
    exact List.Perm.append_left _ List.perm_append_comm
  obtain ⟨front, hfront⟩ := positions_last (before ++ after) r (bi ++ ai) i
  exact ⟨_, front, _, _, i, unordered_append before after r _ hperm, hfront,
    List.getElem?_concat_length, hid, List.getElem?_concat_length, hc⟩

theorem LinksMutual.mutual_of_active {routers routers' : List PwospfRouter}
    (h : LinksMutual routers) (hord : unordered routers' = unordered routers) {q : Nat × Nat}
    {r : PwospfRouter} {i : PwospfInterface} (hr : routers'[q.1]? = some r)
    (hi : r.interfaceList[q.2]? = some i) (hactive : Active (activePass routers') q) :
    Mutual routers r.routerId i.subnet i.mask i.routerId := by
  obtain ⟨i₁, hentry, hflag⟩ := hactive
  obtain ⟨r₁, hr₁, hi₁⟩ := Option.bind_eq_some_iff.mp hentry
  obtain ⟨r₀, hr₀, hcr⟩ := router_of_content (activePass_content routers') hr₁
  obtain rfl := Option.some.inj (hr.symm.trans hr₀)
  obtain ⟨i₀, hi₀, hci⟩ := interface_of_content hcr hi₁
  obtain rfl := Option.some.inj (hi.symm.trans hi₀)
  obtain ⟨r₂, hr₂, hid, hsame⟩ :=
    mem_of_unordered (h.any_order routers' hord).symm (List.mem_of_getElem? hr₁)
  have hmutual := (h.active_iff r₂ hr₂ i₁ ((hsame i₁).mpr (List.mem_of_getElem? hi₁))).mp hflag
  have hsame_id : r.routerId = r₁.routerId := congrArg Content.routerId hcr
  simp only [PwospfInterface.content, Prod.mk.injEq] at hci
  rw [hci.1, hci.2.1, hci.2.2, hsame_id, ← hid]
  exact hmutual

/-- The activity of links is mutual and the same in every order just when every entry that names a
router with a neighbour on the link, and the entry of that router there, are answered. -/
theorem links_mutual_iff {routers : List PwospfRouter} (hdistinct : DistinctIds routers) :
    LinksMutual routers ↔ Answered routers := by
  refine ⟨fun h a subnet mask b c hab hbc hb hc => ?_, fun h => h.linksMutual hdistinct⟩
  obtain ⟨routers', front, p, r, i, hord, hlast, hr, rfl, hi, hci⟩ := exists_last hab
  obtain ⟨q, r', o, hr', hid, ho, hco⟩ := hasEntry_iff.mp (hbc.of_unordered hord)
  simp only [PwospfInterface.content, Prod.mk.injEq] at hci hco
  obtain ⟨rfl, rfl, rfl⟩ := hci
  obtain ⟨hsub, hmask, rfl⟩ := hco
  have hpoints : Points routers' p q := ⟨i, r', o, Option.bind_eq_some_iff.mpr ⟨r, hr, hi⟩, hr',
    hid, ho, hsub.symm, hmask.symm, not_or.mpr ⟨hb, hc⟩⟩
  have hmarks := @marks_last _ _ (Active routers') front _ _ hpoints
  rw [← hlast, ← activePass_active (hdistinct.of_unordered hord)] at hmarks
  have hother := h.mutual_of_active hord hr' ho hmarks.1
  rw [hsub, hmask, hid] at hother
  exact ⟨h.mutual_of_active hord hr hi hmarks.2, hother⟩

/-- A router with one interface, on the link 0x0a/0xff. -/
def onLink (rid nbr : BitVec 32) (active : Bool) : PwospfRouter :=
  ⟨rid, 0, 0, [⟨0x0a, 0xff, nbr, active⟩]⟩

theorem links_mutual_iff_pair :
    LinksMutual [onLink 1 2 false, onLink 2 1 false] ↔
      Answered [onLink 1 2 false, onLink 2 1 false] :=
  links_mutual_iff (by decide)

/-- Router 1 names router 2, which names a third one on their link. The entry of router 1 becomes
active all the same, and that of router 2 if router 1 is visited after it. -/
theorem unanswered_link_active :
    DistinctIds [onLink 1 2 false, onLink 2 3 false] ∧
      activePass [onLink 1 2 false, onLink 2 3 false] = [onLink 1 2 true, onLink 2 3 false] ∧
      activePass [onLink 2 3 false, onLink 1 2 false] = [onLink 2 3 true, onLink 1 2 true] ∧
      ¬ LinksMutual [onLink 1 2 false, onLink 2 3 false] := by
  have hrun : activePass [onLink 1 2 false, onLink 2 3 false] =
      [onLink 1 2 true, onLink 2 3 false] := by decide
  refine ⟨by decide, hrun, by decide, fun h => ?_⟩
  have hactive := h.active_iff (onLink 1 2 true) (hrun ▸ List.mem_cons_self) _ List.mem_cons_self
  exact absurd (hactive.mp rfl) (by decide)

end Osnt.Scone.Pwospf
