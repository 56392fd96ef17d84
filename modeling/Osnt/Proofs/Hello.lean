import Osnt.Scone.Hello
import Osnt.Proofs.PwospfRouterList

namespace Osnt.Scone.Hello
open Lib Lib.Buffer Pwospf Iface

/-- The interfaces of our own entry of the router list. -/
def ourInterfaces (pwospf : Pwospf.RouterState) : Option (List PwospfInterface) :=
  (getRouterByRid pwospf.routerId pwospf.pwospfRouterList).map PwospfRouter.interfaceList

theorem ourInterfaces_setOurs (pwospf : Pwospf.RouterState) (g : PwospfRouter → PwospfRouter)
    (hid : ∀ r, (g r).routerId = r.routerId) (f : List PwospfInterface → List PwospfInterface)
    (hf : ∀ r, (g r).interfaceList = f r.interfaceList) :
    ourInterfaces (pwospf.setOurs g) = (ourInterfaces pwospf).map f := by
  unfold ourInterfaces
  rw [getRouterByRid_setOurs pwospf g hid, Option.map_map, Option.map_map]
  exact congrFun (congrArg Option.map (funext hf)) _

/-- All that is booked: the entries without the flags. -/
def booked (pwospf : Pwospf.RouterState) : Option (List (BitVec 32 × BitVec 32 × BitVec 32)) :=
  (ourInterfaces pwospf).map fun es => es.map PwospfInterface.content

theorem booked_eq (pwospf : Pwospf.RouterState) :
    booked pwospf = (pwospf.entry pwospf.routerId).map Content.interfaces := by
  unfold booked ourInterfaces RouterState.entry
  rw [Option.map_map, Option.map_map]
  rfl

theorem startLsuBcastFlood_booked (pwospf : Pwospf.RouterState) :
    booked (startLsuBcastFlood pwospf).1 = booked pwospf := by
  unfold startLsuBcastFlood
  split
  · cases hget : getRouterByRid pwospf.routerId pwospf.pwospfRouterList with
    | none =>
      have hnone : constructPwospfLsuPacket pwospf = none := by
        unfold constructPwospfLsuPacket
        rw [hget]
        rfl
      rw [hnone]
    | some router =>
      rw [constructPwospfLsuPacket_eq pwospf router hget]
      have hours := ourInterfaces_setOurs pwospf (fun r => { r with seq := r.seq + 1 })
        (fun _ => rfl) id (fun _ => rfl)
      rw [Option.map_id] at hours
      exact congrArg (Option.map _) hours
  · rfl

theorem propagatePwospfChanges_booked (pwospf : Pwospf.RouterState) :
    booked (propagatePwospfChanges pwospf).1 = booked pwospf := by
  unfold propagatePwospfChanges
  rw [startLsuBcastFlood_booked, booked_eq, booked_eq]
  unfold RouterState.entry
  rw [getRouterByRid_content, getRouterByRid_content,
    foldl_content _ determineActiveInterfaces_content]

/-- No assertion of the flood fails once our entry is there. -/
theorem propagated_eq {pwospf : Pwospf.RouterState} {es : List PwospfInterface}
    (hours : ourInterfaces pwospf = some es) :
    propagated pwospf = some (propagatePwospfChanges pwospf).1 := by
  obtain ⟨router, hrouter, -⟩ := Option.map_eq_some_iff.mp hours
  have hentry : pwospf.entry pwospf.routerId ≠ none := by
    rw [RouterState.entry, hrouter]
    exact Option.some_ne_none _
  unfold propagated
  split
  · next haborts => exact absurd (congrArg Prod.snd haborts) (propagate_goes_on hentry)
  · next hflood => rw [hflood]

theorem ourInterfaces_propagate {pwospf : Pwospf.RouterState} {es : List PwospfInterface}
    (hours : ourInterfaces pwospf = some es) :
    ∃ es', ourInterfaces (propagatePwospfChanges pwospf).1 = some es' ∧
      es'.map PwospfInterface.content = es.map PwospfInterface.content := by
  have hbooked := propagatePwospfChanges_booked pwospf
  unfold booked at hbooked
  rw [hours, Option.map_some] at hbooked
  exact Option.map_eq_some_iff.mp hbooked

/-- The ids in the entries for a subnet. -/
def ridsOn (net : BitVec 32 × BitVec 32) (es : List PwospfInterface) : List (BitVec 32) :=
  (es.filter (isOn net)).map PwospfInterface.routerId

theorem ridsOn_append (net : BitVec 32 × BitVec 32) (es es' : List PwospfInterface) :
    ridsOn net (es ++ es') = ridsOn net es ++ ridsOn net es' := by
  unfold ridsOn
  rw [List.filter_append, List.map_append]

theorem ridsOn_cons_of_isOn {net : BitVec 32 × BitVec 32} {i : PwospfInterface}
    (h : isOn net i = true) (es : List PwospfInterface) :
    ridsOn net (i :: es) = i.routerId :: ridsOn net es := by
  unfold ridsOn
  rw [List.filter_cons_of_pos h, List.map_cons]

theorem ridsOn_eq_of_content (net : BitVec 32 × BitVec 32) {es es' : List PwospfInterface}
    (h : es.map PwospfInterface.content = es'.map PwospfInterface.content) :
    ridsOn net es = ridsOn net es' := by
  have hcontent : ∀ es : List PwospfInterface, ridsOn net es =
      ((es.map PwospfInterface.content).filter fun c => c.1 == net.1 && c.2.1 == net.2).map
        fun c => c.2.2 := by
    intro es
    rw [List.filter_map, List.map_map]
    rfl
  rw [hcontent, hcontent, h]

theorem isOn_unique {net net' : BitVec 32 × BitVec 32} {i : PwospfInterface} (hne : net' ≠ net)
    (h : isOn net i = true) : isOn net' i = false := by
  unfold isOn at h ⊢
  rw [Bool.and_eq_true, beq_iff_eq, beq_iff_eq] at h
  rw [Bool.and_eq_false_iff, beq_eq_false_iff_ne, beq_eq_false_iff_ne]
  by_contra hcon
  rw [not_or, not_not, not_not] at hcon
  exact hne (Prod.ext (hcon.1.symm.trans h.1) (hcon.2.symm.trans h.2))

theorem zero_mem_ridsOn_iff (net : BitVec 32 × BitVec 32) (es : List PwospfInterface) :
    (0 : BitVec 32) ∈ ridsOn net es ↔ es.any (isBlank net) = true := by
  unfold ridsOn isBlank
  rw [List.any_eq_true, List.mem_map]
  constructor
  · rintro ⟨i, hi, hrid⟩
    obtain ⟨hmem, hon⟩ := List.mem_filter.mp hi
    exact ⟨i, hmem, by rw [hon, hrid]; rfl⟩
  · rintro ⟨i, hmem, hi⟩
    obtain ⟨hon, hrid⟩ := Bool.and_eq_true_iff.mp hi
    exact ⟨i, List.mem_filter.mpr ⟨hmem, hon⟩, eq_of_beq hrid⟩

/-- The entries for a subnet are those of the neighbours there, or a single blank one. -/
def Booked (net : BitVec 32 × BitVec 32) (rids : List (BitVec 32)) (es : List PwospfInterface) :
    Prop :=
  (ridsOn net es).Perm (if rids = [] then [0] else rids)

theorem Booked.of_perm {net : BitVec 32 × BitVec 32} {rids rids' : List (BitVec 32)}
    {es : List PwospfInterface} (h : Booked net rids es) (hperm : rids.Perm rids') :
    Booked net rids' es := by
  unfold Booked at h ⊢
  by_cases hnil : rids = []
  · subst hnil
    rw [List.nil_perm.mp hperm]
    exact h
  · have hnil' : rids' ≠ [] := fun he => hnil (List.perm_nil.mp (he ▸ hperm))
    rw [if_neg hnil] at h
    rw [if_neg hnil']
    exact h.trans hperm

theorem Booked.of_ridsOn {net : BitVec 32 × BitVec 32} {rids : List (BitVec 32)}
    {es es' : List PwospfInterface} (h : Booked net rids es)
    (heq : ridsOn net es' = ridsOn net es) : Booked net rids es' := by
  unfold Booked at h ⊢
  rw [heq]
  exact h

theorem Booked.perm {net : BitVec 32 × BitVec 32} {rids : List (BitVec 32)}
    {es : List PwospfInterface} (h : Booked net rids es) (hne : rids ≠ []) :
    (ridsOn net es).Perm rids := by
  unfold Booked at h
  rwa [if_neg hne] at h

theorem ridsOn_modifyFirst_single {net : BitVec 32 × BitVec 32} {es : List PwospfInterface}
    {p : PwospfInterface → Bool} (hp : ∀ i, p i = true → isOn net i = true) {old : BitVec 32}
    (hold : ridsOn net es = [old]) (hex : ∃ i ∈ es, p i = true) (rid : BitVec 32) :
    ridsOn net (modifyFirst p (fun i => { i with routerId := rid }) es) = [rid] := by
  obtain ⟨before, i, after, rfl, _, hi, hmod⟩ :=
    modifyFirst_split (f := fun i : PwospfInterface => { i with routerId := rid }) hex
  have hon := hp i hi
  have hon' : isOn net { i with routerId := rid } = true := hon
  rw [ridsOn_append, ridsOn_cons_of_isOn hon] at hold
  have hlength := congrArg List.length hold
  rw [List.length_append, List.length_cons, List.length_singleton] at hlength
  have hbefore : ridsOn net before = [] := List.eq_nil_of_length_eq_zero (by omega)
  have hafter : ridsOn net after = [] := List.eq_nil_of_length_eq_zero (by omega)
  rw [hmod, ridsOn_append, ridsOn_cons_of_isOn hon', hbefore, hafter]
  rfl

theorem ridsOn_modifyFirst_of_ne {net net' : BitVec 32 × BitVec 32} (hne : net' ≠ net)
    {p : PwospfInterface → Bool} (hp : ∀ i, p i = true → isOn net i = true) (rid : BitVec 32)
    (es : List PwospfInterface) :
    ridsOn net' (modifyFirst p (fun i => { i with routerId := rid }) es) = ridsOn net' es := by
  have hfilter := filter_modifyFirst_of_disjoint (f := fun i => { i with routerId := rid })
    (isOn net') (fun i hi => ⟨isOn_unique hne (hp i hi), isOn_unique hne (hp i hi)⟩) es
  exact congrArg (List.map PwospfInterface.routerId) hfilter

theorem ridsOn_eraseP (net : BitVec 32 × BitVec 32) (rid : BitVec 32)
    (es : List PwospfInterface) :
    ridsOn net (es.eraseP fun i => isOn net i && rid == i.routerId) =
      (ridsOn net es).erase rid := by
  induction es with
  | nil => rfl
  | cons i es ih =>
    cases hon : isOn net i with
    | false =>
      have hskip : ∀ es, ridsOn net (i :: es) = ridsOn net es := by
        intro es
        unfold ridsOn
        rw [List.filter_cons, hon]
        rfl
      rw [List.eraseP_cons, hon, Bool.false_and, hskip es, ← ih]
      exact hskip _
    | true =>
      rw [List.eraseP_cons, hon, Bool.true_and, ridsOn_cons_of_isOn hon]
      by_cases hrid : rid = i.routerId
      · rw [hrid, beq_self_eq_true, List.erase_cons_head]
        rfl
      · have hbeq : (rid == i.routerId) = false := beq_eq_false_iff_ne.mpr hrid
        have hbeq' : (i.routerId == rid) = false := beq_eq_false_iff_ne.mpr (Ne.symm hrid)
        rw [hbeq, List.erase_cons_tail (by rw [hbeq']; exact Bool.false_ne_true), ← ih]
        exact ridsOn_cons_of_isOn hon _

/-- An operation on our entry for one subnet, which leaves the others. -/
structure Rebooked (net : BitVec 32 × BitVec 32) (rids : List (BitVec 32))
    (es : List PwospfInterface) (pwospf' : Pwospf.RouterState) : Prop where
  ours : ∃ es', ourInterfaces pwospf' = some es' ∧ Booked net rids es' ∧
    ∀ net', net' ≠ net → ridsOn net' es' = ridsOn net' es

theorem Rebooked.setOurs {net : BitVec 32 × BitVec 32} {rids : List (BitVec 32)}
    {es : List PwospfInterface} {pwospf : Pwospf.RouterState}
    (hours : ourInterfaces pwospf = some es) (f : List PwospfInterface → List PwospfInterface)
    (hbooked : Booked net rids (f es))
    (hothers : ∀ net', net' ≠ net → ridsOn net' (f es) = ridsOn net' es) :
    Rebooked net rids es
      (pwospf.setOurs fun r => { r with interfaceList := f r.interfaceList }) := by
  refine ⟨f es, ?_, hbooked, hothers⟩
  rw [ourInterfaces_setOurs pwospf (fun r => { r with interfaceList := f r.interfaceList })
    (fun _ => rfl) f (fun _ => rfl), hours]
  rfl

theorem Rebooked.trans {net : BitVec 32 × BitVec 32} {rids : List (BitVec 32)}
    {es es' : List PwospfInterface} {pwospf : Pwospf.RouterState} (h : Rebooked net rids es' pwospf)
    (hothers : ∀ net', net' ≠ net → ridsOn net' es' = ridsOn net' es) :
    Rebooked net rids es pwospf := by
  obtain ⟨es'', hours, hbooked, hothers'⟩ := h.ours
  exact ⟨es'', hours, hbooked, fun net' hne => (hothers' net' hne).trans (hothers net' hne)⟩

theorem Rebooked.propagate {net : BitVec 32 × BitVec 32} {rids : List (BitVec 32)}
    {es : List PwospfInterface} {pwospf : Pwospf.RouterState} (h : Rebooked net rids es pwospf) :
    Rebooked net rids es (propagatePwospfChanges pwospf).1 := by
  obtain ⟨es', hours, hbooked, hothers⟩ := h.ours
  obtain ⟨es'', hours'', hcontent⟩ := ourInterfaces_propagate hours
  refine ⟨es'', hours'', hbooked.of_ridsOn (ridsOn_eq_of_content net hcontent), ?_⟩
  intro net' hne
  exact (ridsOn_eq_of_content net' hcontent).trans (hothers net' hne)

theorem isOn_of_isBlank {net : BitVec 32 × BitVec 32} (i : PwospfInterface)
    (h : isBlank net i = true) : isOn net i = true := (Bool.and_eq_true_iff.mp h).1

theorem bookIn_spec {pwospf : Pwospf.RouterState} {net : BitVec 32 × BitVec 32}
    {rids : List (BitVec 32)} {es : List PwospfInterface} (hours : ourInterfaces pwospf = some es)
    (hbooked : Booked net rids es) (hrids : ∀ r ∈ rids, r ≠ 0) (rid : BitVec 32) :
    ∃ pwospf', bookIn pwospf net rid = some pwospf' ∧ Rebooked net (rids ++ [rid]) es pwospf' := by
  obtain ⟨r, hget, rfl⟩ := Option.map_eq_some_iff.mp hours
  unfold bookIn
  rw [hget]
  simp only [Option.bind_eq_bind, Option.bind_some]
  by_cases hblank : r.interfaceList.any (isBlank net) = true
  · -- a blank entry is there only without a neighbour, and then it is the only one
    have hzero := (zero_mem_ridsOn_iff net r.interfaceList).mpr hblank
    have hnil : rids = [] := by
      by_contra hne
      exact hrids 0 ((hbooked.perm hne).mem_iff.mp hzero) rfl
    subst hnil
    have hsingle : ridsOn net r.interfaceList = [0] := List.perm_singleton.mp hbooked
    rw [if_pos hblank]
    refine ⟨_, rfl, Rebooked.setOurs hours (modifyFirst (isBlank net) _) ?_ fun net' hne => ?_⟩
    · unfold Booked
      rw [ridsOn_modifyFirst_single isOn_of_isBlank hsingle (List.any_eq_true.mp hblank)]
      exact List.Perm.refl _
    · exact ridsOn_modifyFirst_of_ne hne isOn_of_isBlank rid _
  · have hne : rids ≠ [] := by
      rintro rfl
      have hsingle : ridsOn net r.interfaceList = [0] := List.perm_singleton.mp hbooked
      have hzero : (0 : BitVec 32) ∈ ridsOn net r.interfaceList := by
        rw [hsingle]
        exact List.mem_singleton_self 0
      exact hblank ((zero_mem_ridsOn_iff net r.interfaceList).mp hzero)
    have hperm := hbooked.perm hne
    have hes : r.interfaceList ≠ [] := by
      intro hes
      rw [hes] at hperm
      exact hne (List.nil_perm.mp hperm)
    have hon : isOn net ⟨net.1, net.2, rid, false⟩ = true := by
      unfold isOn
      rw [beq_self_eq_true, beq_self_eq_true]
      rfl
    rw [if_neg hblank, if_neg hes]
    refine ⟨_, rfl, Rebooked.setOurs hours (fun es => es ++ [⟨net.1, net.2, rid, false⟩]) ?_
      fun net' hne' => ?_⟩
    · unfold Booked
      rw [if_neg (List.append_ne_nil_of_right_ne_nil _ (List.cons_ne_nil _ _)), ridsOn_append,
        ridsOn_cons_of_isOn hon]
      exact hperm.append_right [rid]
    · rw [ridsOn_append]
      have hoff : ridsOn net' [⟨net.1, net.2, rid, false⟩] = [] := by
        unfold ridsOn
        rw [List.filter_cons, isOn_unique hne' hon]
        rfl
      rw [hoff, List.append_nil]

theorem bookOut_spec {pwospf : Pwospf.RouterState} {net : BitVec 32 × BitVec 32}
    {rids : List (BitVec 32)} {es : List PwospfInterface} (hours : ourInterfaces pwospf = some es)
    (hbooked : Booked net rids es) {rid : BitVec 32} (hrid : rid ∈ rids) :
    ∃ pwospf', bookOut pwospf net rid = some pwospf' ∧
      Rebooked net (rids.erase rid) es pwospf' := by
  obtain ⟨r, hget, rfl⟩ := Option.map_eq_some_iff.mp hours
  have hperm := hbooked.perm (List.ne_nil_of_mem hrid)
  have hcount : r.interfaceList.countP (isOn net) = rids.length := by
    rw [← hperm.length_eq, List.countP_eq_length_filter]
    exact (List.length_map _).symm
  have hpos := List.length_pos_of_mem hrid
  unfold bookOut
  rw [hget]
  simp only [Option.bind_eq_bind, Option.bind_some, hcount]
  rw [if_neg (by omega)]
  by_cases hone : rids.length = 1
  · obtain ⟨rid', rfl⟩ := List.length_eq_one_iff.mp hone
    obtain rfl := List.mem_singleton.mp hrid
    have hsingle : ridsOn net r.interfaceList = [rid] := List.perm_singleton.mp hperm
    have hex : ∃ i ∈ r.interfaceList, isOn net i = true := by
      apply List.countP_pos_iff.mp
      omega
    rw [if_pos hone]
    refine ⟨_, rfl, Rebooked.setOurs hours (modifyFirst (isOn net) _) ?_ fun net' hne => ?_⟩
    · unfold Booked
      rw [ridsOn_modifyFirst_single (fun _ h => h) hsingle hex, List.erase_cons_head]
      exact List.Perm.refl _
    · exact ridsOn_modifyFirst_of_ne hne (fun _ h => h) 0 _
  · rw [if_neg hone]
    refine ⟨_, rfl, Rebooked.setOurs hours
      (List.eraseP fun i => isOn net i && rid == i.routerId) ?_ fun net' hne => ?_⟩
    · have hleft : rids.erase rid ≠ [] := by
        intro hnil
        have hlength := List.length_erase_of_mem hrid
        rw [hnil, List.length_nil] at hlength
        omega
      unfold Booked
      rw [if_neg hleft, ridsOn_eraseP]
      exact hperm.erase rid
    · have hfilter := filter_eraseP_of_disjoint (p := fun i => isOn net i && rid == i.routerId)
        (isOn net') (fun i hi => isOn_unique hne (Bool.and_eq_true_iff.mp hi).1) r.interfaceList
      exact congrArg (List.map PwospfInterface.routerId) hfilter

theorem timeoutLoop_spec (limit : Int) (net : BitVec 32 × BitVec 32) (time : Nat → Int)
    {before cur : List NbrRouter} (n : Nat) {pwospf : Pwospf.RouterState}
    {es : List PwospfInterface} (hours : ourInterfaces pwospf = some es)
    (hbooked : Booked net ((before ++ cur).map NbrRouter.routerId) es) :
    ∃ kept pwospf' timedOut,
      timeoutLoop limit net time n cur pwospf = some (kept, pwospf', timedOut) ∧
      kept.Sublist cur ∧ Rebooked net ((before ++ kept).map NbrRouter.routerId) es pwospf' := by
  -- the neighbours before `cur` have been looked at and stay
  induction cur generalizing n before pwospf es with
  | nil =>
    exact ⟨[], pwospf, false, rfl, List.Sublist.refl _, es, hours, hbooked, fun _ _ => rfl⟩
  | cons nbr cur ih =>
    unfold timeoutLoop
    split
    · have hmem : nbr.routerId ∈ (before ++ nbr :: cur).map NbrRouter.routerId :=
        List.mem_map_of_mem (List.mem_append_right _ List.mem_cons_self)
      obtain ⟨pwospf₁, hout, es₁, hours₁, hbooked₁, hothers₁⟩ := bookOut_spec hours hbooked hmem
      have hperm : (((before ++ nbr :: cur).map NbrRouter.routerId).erase nbr.routerId).Perm
          ((before ++ cur).map NbrRouter.routerId) := by
        have hmiddle := (@List.perm_middle _ nbr before cur).map NbrRouter.routerId
        have herase := hmiddle.erase nbr.routerId
        rwa [List.map_cons, List.erase_cons_head] at herase
      obtain ⟨kept, pwospf₂, timedOut, hloop, hsub, hre⟩ :=
        ih (n + 1) hours₁ (hbooked₁.of_perm hperm)
      refine ⟨kept, pwospf₂, true, ?_, hsub.cons nbr, hre.trans hothers₁⟩
      rw [hout]
      simp only [Option.bind_eq_bind, Option.bind_some, hloop]
      rfl
    · have hsplit : ∀ l, before ++ nbr :: l = (before ++ [nbr]) ++ l := by
        intro l
        rw [List.append_assoc]
        rfl
      rw [hsplit] at hbooked
      obtain ⟨kept, pwospf', timedOut, hloop, hsub, hre⟩ := ih (n + 1) hours hbooked
      refine ⟨nbr :: kept, pwospf', timedOut, ?_, hsub.cons_cons nbr, ?_⟩
      · rw [hloop]
        rfl
      · rw [hsplit]
        exact hre

/-- What does not change of an interface. -/
def ident (i : Iface.Entry) : String × BitVec 32 × BitVec 32 := (i.name, i.ip, i.mask)

theorem nets_of_idents {ifList ifList' : List Iface.Entry}
    (h : ifList'.map ident = ifList.map ident) :
    ifList'.map Entry.net = ifList.map Entry.net := by
  have hnet : ∀ l : List Iface.Entry,
      l.map Entry.net = (l.map ident).map fun id => (id.2.1 &&& id.2.2, id.2.2) := by
    intro l
    rw [List.map_map]
    rfl
  rw [hnet, hnet, h]

theorem getIface_of_idents {ifList ifList' : List Iface.Entry}
    (h : ifList'.map ident = ifList.map ident) (interface : String) :
    getIface ifList' interface = getIface ifList interface := by
  have hname : ∀ l : List Iface.Entry,
      getIface l interface = (l.map ident).findIdx? fun id => strncmpEq interface id.1 32 := by
    intro l
    rw [List.findIdx?_map]
    rfl
  rw [hname, hname, h]

/-- The bookkeeping of all interfaces, which are those of `ifList`. -/
structure Accounted (ifList : List Iface.Entry) (st : State) : Prop where
  idents : st.ifList.map ident = ifList.map ident
  ours : ∃ es, ourInterfaces st.pwospf = some es ∧
    ∀ i ∈ st.ifList, Booked i.net (i.nbrRouters.map NbrRouter.routerId) es
  nonzero : ∀ i ∈ st.ifList, ∀ nbr ∈ i.nbrRouters, nbr.routerId ≠ 0

theorem setNbrRouters_idents (st : State) (k : Nat) (nbrs : List NbrRouter) :
    (st.setNbrRouters k nbrs).ifList.map ident = st.ifList.map ident :=
  map_modify_of_fixed ident (fun i => { i with nbrRouters := nbrs }) (fun _ => rfl) st.ifList k

/-- A change of one interface together with our entry for its subnet. -/
theorem Accounted.set {ifList : List Iface.Entry} {st : State} (h : Accounted ifList st)
    (hnodup : (ifList.map Entry.net).Nodup) {k : Nat} {iface : Iface.Entry}
    (hk : st.ifList[k]? = some iface) {nbrs : List NbrRouter}
    (hnbrs : ∀ nbr ∈ nbrs, nbr.routerId ≠ 0) {es : List PwospfInterface}
    (hes : ∀ i ∈ st.ifList, Booked i.net (i.nbrRouters.map NbrRouter.routerId) es)
    {pwospf : Pwospf.RouterState}
    (hre : Rebooked iface.net (nbrs.map NbrRouter.routerId) es pwospf) :
    Accounted ifList { st.setNbrRouters k nbrs with pwospf } := by
  obtain ⟨es', hours', hbooked', hothers⟩ := hre.ours
  have hmem := fun i => mem_modify_iff hk (fun i => { i with nbrRouters := nbrs }) i
  refine ⟨(setNbrRouters_idents st k nbrs).trans h.idents, ⟨es', hours', fun i hi => ?_⟩,
    fun i hi => ?_⟩
  · rcases (hmem i).mp hi with rfl | ⟨j, hjk, hj⟩
    · exact hbooked'
    · have hne : i.net ≠ iface.net := by
        intro heq
        have hnodup' : (st.ifList.map Entry.net).Nodup := by
          rw [nets_of_idents h.idents]
          exact hnodup
        exact hjk (eq_of_getElem?_of_nodup hnodup' hj hk heq)
      exact (hes i (List.mem_of_getElem? hj)).of_ridsOn (hothers i.net hne)
  · rcases (hmem i).mp hi with rfl | ⟨j, _, hj⟩
    · exact hnbrs
    · exact h.nonzero i (List.mem_of_getElem? hj)

theorem setLastRcvdHello_routerId (hello : HelloPacket) (now : Int) (nbrs : List NbrRouter) :
    (setLastRcvdHello hello now nbrs).map NbrRouter.routerId = nbrs.map NbrRouter.routerId := by
  have hfixed := map_modifyFirst_of_fixed (p := isSender hello)
    (f := fun nbr => { nbr with lastRcvdHello := now }) NbrRouter.routerId (fun _ _ => rfl)
    nbrs.reverse
  unfold setLastRcvdHello
  rw [List.map_reverse, hfixed, List.map_reverse, List.reverse_reverse]

theorem routerId_ne_zero_of_map {nbrs nbrs' : List NbrRouter}
    (h : nbrs'.map NbrRouter.routerId = nbrs.map NbrRouter.routerId)
    (hnbrs : ∀ nbr ∈ nbrs, nbr.routerId ≠ 0) : ∀ nbr ∈ nbrs', nbr.routerId ≠ 0 := by
  intro nbr hnbr
  have hmem := List.mem_map_of_mem (f := NbrRouter.routerId) hnbr
  rw [h] at hmem
  obtain ⟨nbr', hnbr', heq⟩ := List.mem_map.mp hmem
  exact heq ▸ hnbrs nbr' hnbr'

section
variable {ifList : List Iface.Entry} {st : State}

theorem Accounted.hello (h : Accounted ifList st) (hnodup : (ifList.map Entry.net).Nodup)
    {packet : Bytes} {hello : HelloPacket} (hread : readHello packet = some hello)
    (hrid : hello.rid ≠ 0) {interface : String} (hiface : getIface ifList interface ≠ none)
    (now : Int) :
    ∃ st', processPwospfHelloPacket st packet interface now = some st' ∧
      Accounted ifList st' := by
  obtain ⟨es, hours, hes⟩ := h.ours
  rw [← getIface_of_idents h.idents] at hiface
  obtain ⟨k, hk⟩ := Option.ne_none_iff_exists'.mp hiface
  obtain ⟨hlt, _⟩ := List.findIdx?_eq_some_iff_getElem.mp hk
  obtain ⟨iface, hget⟩ : ∃ iface, st.ifList[k]? = some iface := ⟨_, List.getElem?_eq_getElem hlt⟩
  have hmem := List.mem_of_getElem? hget
  unfold processPwospfHelloPacket
  simp only [Option.bind_eq_bind, hread, hk, hget, Option.bind_some]
  split
  · exact ⟨st, rfl, h⟩
  split
  · exact ⟨st, rfl, h⟩
  split
  · have hmap := setLastRcvdHello_routerId hello now iface.nbrRouters
    refine ⟨_, rfl, h.set hnodup hget (routerId_ne_zero_of_map hmap (h.nonzero iface hmem)) hes ?_⟩
    rw [hmap]
    exact ⟨es, hours, hes iface hmem, fun _ _ => rfl⟩
  · have hrids : ∀ r ∈ iface.nbrRouters.map NbrRouter.routerId, r ≠ 0 := by
      intro r hr
      obtain ⟨nbr, hnbr, rfl⟩ := List.mem_map.mp hr
      exact h.nonzero iface hmem nbr hnbr
    obtain ⟨pwospf', hin, hre⟩ := bookIn_spec hours (hes iface hmem) hrids hello.rid
    obtain ⟨es', hours', -⟩ := hre.ours
    simp only [hin, Option.bind_some, propagated_eq hours']
    refine ⟨_, rfl, h.set hnodup hget ?_ hes ?_⟩
    · intro nbr hnbr
      rcases List.mem_append.mp hnbr with hnbr | hnbr
      · exact h.nonzero iface hmem nbr hnbr
      · obtain rfl := List.mem_singleton.mp hnbr
        exact hrid
    · rw [List.map_append]
      exact hre.propagate

theorem Accounted.timeout (h : Accounted ifList st) (hnodup : (ifList.map Entry.net).Nodup)
    {k : Nat} (hk : k < ifList.length) (time : Nat → Int) :
    ∃ st' timedOut, determineTimedoutInterface st k time = some (st', timedOut) ∧
      Accounted ifList st' := by
  obtain ⟨es, hours, hes⟩ := h.ours
  have hlt : k < st.ifList.length := by
    have hlength := congrArg List.length h.idents
    rw [List.length_map, List.length_map] at hlength
    omega
  obtain ⟨iface, hget⟩ : ∃ iface, st.ifList[k]? = some iface := ⟨_, List.getElem?_eq_getElem hlt⟩
  have hmem := List.mem_of_getElem? hget
  obtain ⟨kept, pwospf', timedOut, hloop, hsub, hre⟩ :=
    @timeoutLoop_spec (3 * st.pwospfHelloInterval.toNat) iface.net time [] _ 0 _ _ hours
      (hes iface hmem)
  refine ⟨{ st.setNbrRouters k kept with pwospf := pwospf' }, timedOut, ?_, ?_⟩
  · unfold determineTimedoutInterface
    simp only [Option.bind_eq_bind, hget, Option.bind_some, hloop]
    rfl
  · exact h.set hnodup hget (fun nbr hnbr => h.nonzero iface hmem nbr (hsub.subset hnbr)) hes hre

theorem Accounted.propagate (h : Accounted ifList st) :
    Accounted ifList { st with pwospf := (propagatePwospfChanges st.pwospf).1 } := by
  obtain ⟨es, hours, hes⟩ := h.ours
  obtain ⟨es', hours', hcontent⟩ := ourInterfaces_propagate hours
  refine ⟨h.idents, ⟨es', hours', fun i hi => ?_⟩, h.nonzero⟩
  exact (hes i hi).of_ridsOn (ridsOn_eq_of_content i.net hcontent)

end

/-- What can happen on the interfaces of `ifList`: HELLO packets with a router id other than 0,
and timeouts. -/
def Event.Possible (ifList : List Iface.Entry) : Event → Prop
  | .hello packet interface _ =>
    (∃ hello, readHello packet = some hello ∧ hello.rid ≠ 0) ∧ getIface ifList interface ≠ none
  | .timeout k _ => k < ifList.length
  | .propagate => True

theorem Accounted.step {ifList : List Iface.Entry} {st : State} (h : Accounted ifList st)
    (hnodup : (ifList.map Entry.net).Nodup) {e : Event} (he : e.Possible ifList) :
    ∃ st', step st e = some st' ∧ Accounted ifList st' := by
  cases e with
  | hello packet interface now =>
    obtain ⟨⟨hello, hread, hrid⟩, hiface⟩ := he
    exact h.hello hnodup hread hrid hiface now
  | timeout k time =>
    obtain ⟨st', timedOut, hstep, hst'⟩ := h.timeout hnodup he time
    exact ⟨st', congrArg (Option.map Prod.fst) hstep, hst'⟩
  | propagate =>
    obtain ⟨es, hours, -⟩ := h.ours
    exact ⟨_, congrArg (Option.map _) (propagated_eq hours), h.propagate⟩

theorem Accounted.run {ifList : List Iface.Entry} (hnodup : (ifList.map Entry.net).Nodup)
    {events : List Event} {st : State} (h : Accounted ifList st)
    (hevents : ∀ e ∈ events, e.Possible ifList) :
    ∃ st', run st events = some st' ∧ Accounted ifList st' := by
  induction events generalizing st with
  | nil => exact ⟨st, rfl, h⟩
  | cons e events ih =>
    obtain ⟨st₁, hstep, h₁⟩ := h.step hnodup (hevents e List.mem_cons_self)
    obtain ⟨st₂, hrun, h₂⟩ := ih h₁ fun e' he' => hevents e' (List.mem_cons_of_mem _ he')
    refine ⟨st₂, ?_, h₂⟩
    unfold Hello.run
    rw [hstep]
    exact hrun

/-- The router before the first HELLO packet. -/
def start (routerId areaId : BitVec 32) (pwospfLsuBroadcast : Bool) (helloInterval : BitVec 16)
    (ifList : List Iface.Entry) : State :=
  ⟨initRouterList routerId areaId pwospfLsuBroadcast ifList, helloInterval, ifList⟩

/-- The entries that `init_router_list` makes. -/
def blanks (ifList : List Iface.Entry) : List PwospfInterface :=
  ifList.map fun i => ⟨i.ip &&& i.mask, i.mask, 0, false⟩

theorem ridsOn_blanks_of_notMem {net : BitVec 32 × BitVec 32} {ifList : List Iface.Entry}
    (h : net ∉ ifList.map Entry.net) : ridsOn net (blanks ifList) = [] := by
  unfold ridsOn
  rw [List.map_eq_nil_iff, List.filter_eq_nil_iff]
  intro e he hon
  obtain ⟨i, hi, rfl⟩ := List.mem_map.mp he
  obtain ⟨hsubnet, hmask⟩ := Bool.and_eq_true_iff.mp hon
  apply h
  exact List.mem_map.mpr ⟨i, hi, Prod.ext (eq_of_beq hsubnet) (eq_of_beq hmask)⟩

theorem ridsOn_blanks {ifList : List Iface.Entry} (hnodup : (ifList.map Entry.net).Nodup)
    {i : Iface.Entry} (hi : i ∈ ifList) : ridsOn i.net (blanks ifList) = [0] := by
  obtain ⟨before, after, rfl⟩ := List.append_of_mem hi
  rw [List.map_append, List.map_cons] at hnodup
  have hnotMem := List.perm_middle.nodup_iff.mp hnodup
  rw [List.nodup_cons, ← List.map_append] at hnotMem
  have hboth : ridsOn i.net (blanks (before ++ after)) = [] := ridsOn_blanks_of_notMem hnotMem.1
  unfold blanks at hboth ⊢
  rw [List.map_append, ridsOn_append, List.append_eq_nil_iff] at hboth
  have hon : isOn i.net ⟨i.ip &&& i.mask, i.mask, 0, false⟩ = true := by
    unfold isOn Entry.net
    rw [beq_self_eq_true, beq_self_eq_true]
    rfl
  rw [List.map_append, ridsOn_append, List.map_cons, ridsOn_cons_of_isOn hon, hboth.1, hboth.2]
  rfl

theorem accounted_start (routerId areaId : BitVec 32) (pwospfLsuBroadcast : Bool)
    (helloInterval : BitVec 16) {ifList : List Iface.Entry}
    (hnodup : (ifList.map Entry.net).Nodup) (hempty : ∀ i ∈ ifList, i.nbrRouters = []) :
    Accounted ifList (start routerId areaId pwospfLsuBroadcast helloInterval ifList) := by
  refine ⟨rfl, ⟨blanks ifList, ?_, fun i hi => ?_⟩, fun i hi => ?_⟩
  · simp only [ourInterfaces, start, initRouterList, getRouterByRid, List.find?_cons,
      beq_self_eq_true]
    rfl
  · unfold Booked
    rw [hempty i hi, ridsOn_blanks hnodup hi]
    exact List.Perm.refl _
  · rw [hempty i hi]
    intro nbr hnbr
    cases hnbr

/-- Whatever HELLO packets come and whatever times out, no assertion fails, and the entries of our
LSU for an interface are those of its neighbours, or a single one without a neighbour. -/
theorem nbr_routers_accounted (routerId areaId : BitVec 32) (pwospfLsuBroadcast : Bool)
    (helloInterval : BitVec 16) (ifList : List Iface.Entry)
    (hnodup : (ifList.map Entry.net).Nodup) (hempty : ∀ i ∈ ifList, i.nbrRouters = [])
    (events : List Event) (hevents : ∀ e ∈ events, e.Possible ifList) :
    ∃ st es, run (start routerId areaId pwospfLsuBroadcast helloInterval ifList) events = some st ∧
      st.ifList.map ident = ifList.map ident ∧ ourInterfaces st.pwospf = some es ∧
      ∀ i ∈ st.ifList,
        (i.nbrRouters ≠ [] → (ridsOn i.net es).Perm (i.nbrRouters.map NbrRouter.routerId)) ∧
        (i.nbrRouters = [] → ridsOn i.net es = [0]) := by
  have hstart := accounted_start routerId areaId pwospfLsuBroadcast helloInterval hnodup hempty
  obtain ⟨st, hrun, hst⟩ := hstart.run hnodup hevents
  obtain ⟨es, hours, hes⟩ := hst.ours
  refine ⟨st, es, hrun, hst.idents, hours, fun i hi => ⟨fun hne => ?_, fun hnil => ?_⟩⟩
  · exact (hes i hi).perm fun h => hne (List.map_eq_nil_iff.mp h)
  · have hbooked := hes i hi
    unfold Booked at hbooked
    rw [hnil] at hbooked
    exact List.perm_singleton.mp hbooked

def twoIfaces : List Iface.Entry :=
  [⟨"eth0", 0x0100000a, 0x00ffffff, true, [], false, eth0_lt⟩,
    ⟨"eth1", 0x0101000a, 0x00ffffff, true, [], false, eth1_lt⟩]

/-- A HELLO packet of the router with the id 10.0.0.`n`. -/
def helloOf (n : BitVec 8) : Bytes :=
  List.replicate 26 0 ++ [10, 0, 0, n] ++ List.replicate 8 0 ++ [10, 0, 0, n] ++
    List.replicate 16 0 ++ [255, 255, 255, 0, 0, 5, 0, 0]

/-- Two neighbours behind one interface, of which one times out. -/
def comeAndGo : List Event :=
  [.hello (helloOf 2) "eth0" 0, .hello (helloOf 3) "eth0" 10, .timeout 0 fun _ => 20]

theorem possible_comeAndGo : ∀ e ∈ comeAndGo, e.Possible twoIfaces := by
  intro e he
  simp only [comeAndGo, List.mem_cons, List.not_mem_nil, or_false] at he
  rcases he with rfl | rfl | rfl
  · exact ⟨⟨_, rfl, by decide⟩, by decide⟩
  · exact ⟨⟨_, rfl, by decide⟩, by decide⟩
  · change 0 < 2
    decide

theorem nbr_routers_accounted_comeAndGo :
    ∃ st es, run (start 0x0100000a 0 false 5 twoIfaces) comeAndGo = some st ∧
      st.ifList.map ident = twoIfaces.map ident ∧ ourInterfaces st.pwospf = some es ∧
      ∀ i ∈ st.ifList,
        (i.nbrRouters ≠ [] → (ridsOn i.net es).Perm (i.nbrRouters.map NbrRouter.routerId)) ∧
        (i.nbrRouters = [] → ridsOn i.net es = [0]) :=
  nbr_routers_accounted 0x0100000a 0 false 5 twoIfaces (by decide) (by decide) comeAndGo
    possible_comeAndGo

end Osnt.Scone.Hello
