import Osnt.Scone.IfaceRoutes
import Osnt.Proofs.Rtable
import Osnt.Proofs.Hello

namespace Osnt.Scone.IfaceRoutes
open Lib
open Pwospf (PwospfInterface getRouterByRid propagatePwospfChanges)
open Iface (getIface strncmpEq)
open Hello (ourInterfaces ourInterfaces_setOurs ourInterfaces_propagate)

theorem strncmpEq_iff_eq {a b : String} (hb : b.length < 32) :
    strncmpEq a b 32 = true ↔ a = b := by
  unfold strncmpEq
  rw [beq_iff_eq, List.take_of_length_le (Nat.le_of_lt hb)]
  constructor
  · intro h
    have hlength := congrArg List.length h
    rw [List.length_take, String.length_toList, String.length_toList] at hlength
    rw [List.take_of_length_le (by rw [String.length_toList]; omega)] at h
    exact String.toList_inj.mp h
  · rintro rfl
    exact List.take_of_length_le (Nat.le_of_lt hb)

/-- A route belongs to an interface for `deactivate_routes` if its name begins with the name of the
interface. -/
theorem isMatched_iff (interface : String) (e : Rtable.Entry) :
    isMatched interface e = true ↔ interface.toList <+: e.iface.toList := by
  unfold isMatched strncmpEq
  rw [beq_iff_eq, List.prefix_iff_eq_take, ← String.length_toList, List.take_length]
  exact eq_comm

theorem isMatched_self {interface : String} {e : Rtable.Entry} (h : e.iface = interface) :
    isMatched interface e = true := by
  refine (isMatched_iff interface e).mpr ?_
  exact h ▸ List.prefix_refl _

theorem getIface_eq_some {ifList : List Iface.Entry} {interface : String} {k : Nat}
    (h : getIface ifList interface = some k) :
    ∃ iface, ifList[k]? = some iface ∧ iface.name = interface := by
  obtain ⟨hlt, hname, _⟩ := List.findIdx?_eq_some_iff_getElem.mp h
  have heq := (strncmpEq_iff_eq (Iface.Entry.name_lt _)).mp hname
  exact ⟨_, List.getElem?_eq_getElem hlt, heq.symm⟩

/-- There is an active interface of that name. -/
def IsUp (ifList : List Iface.Entry) (name : String) : Prop :=
  ∃ i ∈ ifList, i.name = name ∧ i.isActive = true

/-- A static route is active if and only if its interface is. -/
def Follows (st : State) : Prop :=
  ∀ e ∈ st.routes.rtable, e.isStatic = true → (e.isActive = true ↔ IsUp st.ifList e.iface)

theorem setActive_names (ifList : List Iface.Entry) (k : Nat) (b : Bool) :
    (setActive ifList k b).map Iface.Entry.name = ifList.map Iface.Entry.name :=
  map_modify_of_fixed Iface.Entry.name (fun i => { i with isActive := b }) (fun _ => rfl)
    ifList k

section
variable {ifList : List Iface.Entry} {k : Nat} {iface : Iface.Entry}

theorem mem_setActive_iff (hk : ifList[k]? = some iface) (b : Bool) (i : Iface.Entry) :
    i ∈ setActive ifList k b ↔
      i = { iface with isActive := b } ∨ ∃ j, j ≠ k ∧ ifList[j]? = some i :=
  mem_modify_iff hk (fun i => { i with isActive := b }) i

/-- The names are different: only the one interface changes its state. -/
theorem isUp_setActive_of_ne (hk : ifList[k]? = some iface) (b : Bool) {name : String}
    (hne : name ≠ iface.name) : IsUp (setActive ifList k b) name ↔ IsUp ifList name := by
  constructor
  · rintro ⟨i, hi, hname, hactive⟩
    rcases (mem_setActive_iff hk b i).mp hi with rfl | ⟨j, _, hj⟩
    · exact absurd hname.symm hne
    · exact ⟨i, List.mem_of_getElem? hj, hname, hactive⟩
  · rintro ⟨i, hi, hname, hactive⟩
    obtain ⟨j, hj⟩ := List.mem_iff_getElem?.mp hi
    have hjk : j ≠ k := by
      rintro rfl
      obtain rfl := Option.some.inj (hk.symm.trans hj)
      exact hne hname.symm
    exact ⟨i, (mem_setActive_iff hk b i).mpr (.inr ⟨j, hjk, hj⟩), hname, hactive⟩

theorem isUp_setActive (hk : ifList[k]? = some iface)
    (hnames : (ifList.map Iface.Entry.name).Nodup) (b : Bool) :
    IsUp (setActive ifList k b) iface.name ↔ b = true := by
  constructor
  · rintro ⟨i, hi, hname, hactive⟩
    rcases (mem_setActive_iff hk b i).mp hi with rfl | ⟨j, hjk, hj⟩
    · exact hactive
    · exact absurd (eq_of_getElem?_of_nodup hnames hj hk hname) hjk
  · rintro rfl
    exact ⟨_, (mem_setActive_iff hk true _).mpr (.inl rfl), rfl, rfl⟩

end

/-- What a step asks for. A route may only be added to an active interface. If the name of a route
goes on after the name of an interface that is switched, the route must already be as the switch
leaves it. -/
def Condition (st : State) : Op → Prop
  | .addRoute _ _ _ interface _ => IsUp st.ifList interface
  | .delRoute _ _ => True
  | .ifaceUp interface => (∃ i ∈ st.ifList, i.name = interface ∧ i.isActive = false) →
      ∀ e ∈ st.routes.rtable, interface.toList <+: e.iface.toList → e.iface ≠ interface →
        e.isActive = true
  | .ifaceDown interface => (∃ i ∈ st.ifList, i.name = interface ∧ i.isActive = true) →
      ∀ e ∈ st.routes.rtable, interface.toList <+: e.iface.toList → e.iface ≠ interface →
        e.isStatic = true ∧ e.isActive = false

/-- The routes of the other interfaces. -/
def others (interface : String) (rtable : List Rtable.Entry) : List Rtable.Entry :=
  rtable.filter fun e => e.iface != interface

/-- A switch changes and removes no route of another interface. -/
def OthersKept (st st' : State) : Op → Prop
  | .addRoute _ _ _ _ _ => True
  | .delRoute _ _ => True
  | .ifaceUp interface =>
    (others interface st'.routes.rtable).Perm (others interface st.routes.rtable)
  | .ifaceDown interface =>
    (others interface st'.routes.rtable).Perm (others interface st.routes.rtable)

/-- Every step of a run meets its condition. -/
def AllMeet : State → List Op → Prop
  | _, [] => True
  | st, op :: ops => Condition st op ∧ ∀ st', step st op = some st' → AllMeet st' ops

/-- The routes follow the interfaces in every state of a run, and every switch leaves the routes of
the other interfaces. -/
def AllFollow : State → List Op → Prop
  | st, [] => Follows st
  | st, op :: ops =>
    Follows st ∧ ∀ st', step st op = some st' → OthersKept st st' op ∧ AllFollow st' ops

/-- Under the condition of a switch, the routes of the interface get its state and the others
stay. -/
structure SwitchedTo (b : Bool) (interface : String) (rtable rtable' : List Rtable.Entry) :
    Prop where
  kept : (others interface rtable').Perm (others interface rtable)
  switched : ∀ e ∈ rtable', e.iface = interface → e.isStatic = true → e.isActive = b

theorem others_filterMap {interface : String} {f : Rtable.Entry → Option Rtable.Entry}
    {rtable : List Rtable.Entry}
    (hothers : ∀ e ∈ rtable, e.iface ≠ interface → f e = some e)
    (hsame : ∀ e ∈ rtable, ∀ e', e.iface = interface → f e = some e' → e'.iface = interface) :
    others interface (rtable.filterMap f) = others interface rtable := by
  unfold others
  rw [List.filter_filterMap, ← List.filterMap_eq_filter]
  apply List.filterMap_congr
  intro e he
  by_cases hiface : e.iface = interface
  · have hright : Option.guard (fun e : Rtable.Entry => e.iface != interface) e = none := by
      rw [Option.guard_eq_none_iff, hiface, bne_self_eq_false]
    rw [hright]
    cases hf : f e with
    | none => rfl
    | some e' =>
      rw [Option.filter_some, hsame e he e' hiface hf, bne_self_eq_false]
      rfl
  · have hright : Option.guard (fun e : Rtable.Entry => e.iface != interface) e = some e :=
      Option.guard_eq_some_iff.mpr ⟨rfl, bne_iff_ne.mpr hiface⟩
    rw [hothers e he hiface, Option.filter_some, if_pos (bne_iff_ne.mpr hiface)]
    exact hright.symm

theorem activateRoutes_switched {interface : String} {rtable : List Rtable.Entry}
    (h : ∀ e ∈ rtable, interface.toList <+: e.iface.toList → e.iface ≠ interface →
      e.isActive = true) :
    SwitchedTo true interface rtable (activateRoutes interface rtable) := by
  constructor
  · unfold activateRoutes
    rw [← List.filterMap_eq_map]
    apply List.Perm.of_eq
    apply others_filterMap
    · intro e he hne
      rw [Function.comp_apply]
      split
      · rename_i hmatched
        rw [← h e he ((isMatched_iff interface e).mp hmatched) hne]
      · rfl
    · intro e _ e' hiface heq
      rw [Function.comp_apply, if_pos (isMatched_self hiface)] at heq
      cases heq
      exact hiface
  · intro e' he' hiface _
    obtain ⟨e, _, rfl⟩ := List.mem_map.mp he'
    split at hiface
    · rw [if_pos ‹_›]
    · exact absurd (isMatched_self hiface) ‹_›

theorem deactivateRoutes_switched {interface : String} {rtable : List Rtable.Entry}
    (h : ∀ e ∈ rtable, interface.toList <+: e.iface.toList → e.iface ≠ interface →
      e.isStatic = true ∧ e.isActive = false) :
    SwitchedTo false interface rtable (deactivateRoutes interface rtable) := by
  constructor
  · apply List.Perm.of_eq
    apply others_filterMap
    · intro e he hne
      split
      · rename_i hmatched
        obtain ⟨hstatic, hactive⟩ := h e he ((isMatched_iff interface e).mp hmatched) hne
        rw [if_pos hstatic, ← hactive]
      · rfl
    · intro e _ e' hiface heq
      rw [if_pos (isMatched_self hiface)] at heq
      split at heq
      · cases heq
        exact hiface
      · cases heq
  · intro e' he' hiface _
    obtain ⟨e, _, heq⟩ := List.mem_filterMap.mp he'
    split at heq
    · split at heq
      · cases heq
        rfl
      · cases heq
    · rename_i hmatched
      cases heq
      exact absurd (isMatched_self hiface) hmatched

theorem trigger_spec {routes routes' : Rtable.RouterState} {rtable : List Rtable.Entry}
    (h : trigger routes rtable = some routes') :
    routes'.rtable.Perm rtable ∧ routes'.isNetfpga = routes.isNetfpga := by
  obtain ⟨sorted, hsort, h⟩ := Option.bind_eq_some_iff.mp h
  have hperm := (BubbleSort.loop_spec Rtable.swap hsort).1
  split at h
  · obtain ⟨hw, _, h⟩ := Option.bind_eq_some_iff.mp h
    cases h
    exact ⟨hperm, rfl⟩
  · cases h
    exact ⟨hperm, rfl⟩

theorem trigger_isSome {routes : Rtable.RouterState} (hnet : routes.isNetfpga = false)
    (rtable : List Rtable.Entry) : ∃ routes', trigger routes rtable = some routes' := by
  obtain ⟨sorted, hsort⟩ := BubbleSort.loop_isSome Rtable.swap_asymm
    (Nat.lt_succ_of_le (BubbleSort.inversions_le Rtable.swap rtable))
  refine ⟨{ routes with rtable := sorted }, ?_⟩
  unfold trigger Rtable.triggerRtableModified
  simp only [Option.bind_eq_bind, hsort, Option.bind_some, hnet]
  rfl

/-- The state of the router between the commands, when no HELLO packet has come. -/
structure Sound (st : State) : Prop where
  names : (st.ifList.map Iface.Entry.name).Nodup
  noNbrs : ∀ i ∈ st.ifList, i.nbrRouters = []
  ours : ourInterfaces st.pwospf ≠ none
  follows : Follows st

/-- What an effective switch of an interface does. -/
structure Switches (b : Bool) (interface : String)
    (f : List Rtable.Entry → List Rtable.Entry) (st st' : State) : Prop where
  ifaces : ∃ k iface, st.ifList[k]? = some iface ∧ iface.name = interface ∧
    iface.isActive = !b ∧ st'.ifList = setActive st.ifList k b
  routes : trigger st.routes (f st.routes.rtable) = some st'.routes
  ours : ourInterfaces st'.pwospf ≠ none

theorem ourInterfaces_setOurs_ne_none {pwospf : Pwospf.RouterState}
    (h : ourInterfaces pwospf ≠ none) (f : List PwospfInterface → List PwospfInterface) :
    ourInterfaces (pwospf.setOurs fun r => { r with interfaceList := f r.interfaceList }) ≠
      none := by
  rw [ourInterfaces_setOurs pwospf (fun r => { r with interfaceList := f r.interfaceList })
    (fun _ => rfl) f (fun _ => rfl)]
  intro hnone
  exact h (Option.map_eq_none_iff.mp hnone)

theorem ourInterfaces_propagate_ne_none {pwospf : Pwospf.RouterState}
    (h : ourInterfaces pwospf ≠ none) :
    ourInterfaces (propagatePwospfChanges pwospf).1 ≠ none := by
  obtain ⟨es, hes⟩ := Option.ne_none_iff_exists'.mp h
  obtain ⟨es', hes', _⟩ := ourInterfaces_propagate hes
  rw [hes']
  exact Option.some_ne_none es'

section
variable {st st' : State} {interface : String} {r : Nat}

theorem ourRouter_of_ours (h : ourInterfaces st.pwospf ≠ none) :
    ∃ ourRouter, getRouterByRid st.pwospf.routerId st.pwospf.pwospfRouterList = some ourRouter := by
  obtain ⟨es, hes⟩ := Option.ne_none_iff_exists'.mp h
  obtain ⟨ourRouter, hget, _⟩ := Option.map_eq_some_iff.mp hes
  exact ⟨ourRouter, hget⟩

theorem ifaceUp_cases (hours : ourInterfaces st.pwospf ≠ none)
    (h : ifaceUp st interface = some (st', r)) :
    st' = st ∨ Switches true interface (activateRoutes interface) st st' := by
  unfold ifaceUp at h
  split at h
  · cases h
    exact .inl rfl
  · rename_i k hk
    obtain ⟨iface, hget, hname⟩ := getIface_eq_some hk
    simp only [Option.bind_eq_bind, hget, Option.bind_some] at h
    split at h
    · cases h
      exact .inl rfl
    rename_i hactive
    obtain ⟨routes, htrigger, h⟩ := Option.bind_eq_some_iff.mp h
    split at h
    · cases h
    obtain ⟨ourRouter, _, h⟩ := Option.bind_eq_some_iff.mp h
    cases h
    refine .inr ⟨⟨k, iface, hget, hname, Bool.eq_false_iff.mpr hactive, rfl⟩, htrigger, ?_⟩
    apply ourInterfaces_propagate_ne_none
    split
    · exact hours
    · exact ourInterfaces_setOurs_ne_none hours
        (fun es => es ++ [⟨iface.ip &&& iface.mask, iface.mask, 0, false⟩])

theorem ifaceDown_cases (hours : ourInterfaces st.pwospf ≠ none)
    (h : ifaceDown st interface = some (st', r)) :
    st' = st ∨ Switches false interface (deactivateRoutes interface) st st' := by
  unfold ifaceDown at h
  split at h
  · cases h
    exact .inl rfl
  · rename_i k hk
    obtain ⟨iface, hget, hname⟩ := getIface_eq_some hk
    simp only [Option.bind_eq_bind, hget, Option.bind_some] at h
    split at h
    · cases h
      exact .inl rfl
    rename_i hactive
    obtain ⟨routes, htrigger, h⟩ := Option.bind_eq_some_iff.mp h
    split at h
    · cases h
    obtain ⟨ourRouter, _, h⟩ := Option.bind_eq_some_iff.mp h
    cases h
    refine .inr ⟨⟨k, iface, hget, hname, eq_true_of_ne_false hactive, rfl⟩, htrigger, ?_⟩
    have hkept := ourInterfaces_setOurs_ne_none hours
      (fun _ => ourRouter.interfaceList.filter fun pi => pi.subnet != (iface.ip &&& iface.mask))
    split
    · exact ourInterfaces_propagate_ne_none hkept
    · exact hkept

/-- A switch keeps the routes in step with the interfaces. -/
theorem Sound.switch (h : Sound st) {b : Bool} {f : List Rtable.Entry → List Rtable.Entry}
    (hst : Switches b interface f st st')
    (hto : SwitchedTo b interface st.routes.rtable (f st.routes.rtable)) :
    Sound st' ∧ (others interface st'.routes.rtable).Perm (others interface st.routes.rtable) := by
  obtain ⟨k, iface, hk, hname, _, hifList⟩ := hst.ifaces
  obtain ⟨hperm, _⟩ := trigger_spec hst.routes
  have hothers : (others interface st'.routes.rtable).Perm (others interface st.routes.rtable) :=
    (hperm.filter _).trans hto.kept
  refine ⟨⟨?_, ?_, hst.ours, ?_⟩, hothers⟩
  · rw [hifList, setActive_names]
    exact h.names
  · rw [hifList]
    intro i hi
    rcases (mem_setActive_iff hk b i).mp hi with rfl | ⟨j, _, hj⟩
    · exact h.noNbrs iface (List.mem_of_getElem? hk)
    · exact h.noNbrs i (List.mem_of_getElem? hj)
  · intro e he hstatic
    rw [hifList]
    by_cases hiface : e.iface = interface
    · have hactive := hto.switched e (hperm.mem_iff.mp he) hiface hstatic
      rw [hactive, hiface, ← hname]
      exact (isUp_setActive hk h.names b).symm
    · have hmem : e ∈ others interface st'.routes.rtable :=
        List.mem_filter.mpr ⟨he, bne_iff_ne.mpr hiface⟩
      have hold := (List.mem_filter.mp (hothers.mem_iff.mp hmem)).1
      rw [isUp_setActive_of_ne hk b (hname ▸ hiface)]
      exact h.follows e hold hstatic

theorem Sound.setRoutes (h : Sound st) {routes : Rtable.RouterState} {rtable : List Rtable.Entry}
    (htrigger : trigger st.routes rtable = some routes)
    (hfollows : ∀ e ∈ rtable, e.isStatic = true → (e.isActive = true ↔ IsUp st.ifList e.iface)) :
    Sound { st with routes } := by
  refine ⟨h.names, h.noNbrs, h.ours, fun e he => ?_⟩
  exact hfollows e ((trigger_spec htrigger).1.mem_iff.mp he)

end

theorem Sound.step {st st' : State} {op : Op} (h : Sound st) (hcond : Condition st op)
    (hstep : step st op = some st') : Sound st' ∧ OthersKept st st' op := by
  cases op with
  | addRoute dest gateway mask interface hlt =>
    obtain ⟨routes, htrigger, heq⟩ := Option.bind_eq_some_iff.mp hstep
    cases heq
    refine ⟨h.setRoutes htrigger fun e he hstatic => ?_, trivial⟩
    rcases List.mem_append.mp he with he | he
    · exact h.follows e he hstatic
    · obtain rfl := List.mem_singleton.mp he
      exact iff_of_true rfl hcond
  | delRoute dest mask =>
    obtain ⟨⟨st₁, n⟩, hdel, heq⟩ := Option.map_eq_some_iff.mp hstep
    obtain ⟨routes, htrigger, hret⟩ := Option.bind_eq_some_iff.mp hdel
    cases hret
    cases heq
    refine ⟨h.setRoutes htrigger fun e he hstatic => ?_, trivial⟩
    exact h.follows e (List.mem_filter.mp he).1 hstatic
  | ifaceUp interface =>
    obtain ⟨⟨st₁, n⟩, hup, heq⟩ := Option.map_eq_some_iff.mp hstep
    cases heq
    rcases ifaceUp_cases h.ours hup with rfl | hswitch
    · exact ⟨h, List.Perm.refl _⟩
    · obtain ⟨k, iface, hk, hname, hactive, _⟩ := hswitch.ifaces
      have hto := hcond ⟨iface, List.mem_of_getElem? hk, hname, hactive⟩
      exact h.switch hswitch (activateRoutes_switched hto)
  | ifaceDown interface =>
    obtain ⟨⟨st₁, n⟩, hdown, heq⟩ := Option.map_eq_some_iff.mp hstep
    cases heq
    rcases ifaceDown_cases h.ours hdown with rfl | hswitch
    · exact ⟨h, List.Perm.refl _⟩
    · obtain ⟨k, iface, hk, hname, hactive, _⟩ := hswitch.ifaces
      have hto := hcond ⟨iface, List.mem_of_getElem? hk, hname, hactive⟩
      exact h.switch hswitch (deactivateRoutes_switched hto)

section
variable {st : State}

theorem Sound.ifaceUp_isSome (h : Sound st) (hnet : st.routes.isNetfpga = false)
    (interface : String) : ∃ result, ifaceUp st interface = some result := by
  unfold ifaceUp
  split
  · exact ⟨_, rfl⟩
  · rename_i k hk
    obtain ⟨iface, hget, _⟩ := getIface_eq_some hk
    obtain ⟨ourRouter, hours⟩ := ourRouter_of_ours h.ours
    obtain ⟨routes, htrigger⟩ := trigger_isSome hnet (activateRoutes interface st.routes.rtable)
    have hnbrs := h.noNbrs iface (List.mem_of_getElem? hget)
    simp only [Option.bind_eq_bind, hget, Option.bind_some, htrigger, hours, hnbrs]
    split
    · exact ⟨_, rfl⟩
    · exact ⟨_, rfl⟩

theorem Sound.ifaceDown_isSome (h : Sound st) (hnet : st.routes.isNetfpga = false)
    (interface : String) : ∃ result, ifaceDown st interface = some result := by
  unfold ifaceDown
  split
  · exact ⟨_, rfl⟩
  · rename_i k hk
    obtain ⟨iface, hget, _⟩ := getIface_eq_some hk
    obtain ⟨ourRouter, hours⟩ := ourRouter_of_ours h.ours
    obtain ⟨routes, htrigger⟩ := trigger_isSome hnet (deactivateRoutes interface st.routes.rtable)
    have hnbrs := h.noNbrs iface (List.mem_of_getElem? hget)
    simp only [Option.bind_eq_bind, hget, Option.bind_some, htrigger, hours, hnbrs]
    split
    · exact ⟨_, rfl⟩
    · exact ⟨_, rfl⟩

theorem Sound.step_isSome (h : Sound st) (hnet : st.routes.isNetfpga = false) (op : Op) :
    ∃ st', IfaceRoutes.step st op = some st' := by
  cases op with
  | addRoute dest gateway mask interface hlt =>
    obtain ⟨routes, htrigger⟩ := trigger_isSome hnet
      (st.routes.rtable ++ [⟨dest, gateway, mask, interface, true, true, hlt⟩])
    refine ⟨{ st with routes }, ?_⟩
    unfold IfaceRoutes.step addRoute
    simp only [Option.bind_eq_bind, htrigger, Option.bind_some]
    rfl
  | delRoute dest mask =>
    obtain ⟨routes, htrigger⟩ := trigger_isSome hnet
      (st.routes.rtable.filter fun e => !(dest == e.ip && mask == e.mask))
    refine ⟨{ st with routes }, ?_⟩
    unfold IfaceRoutes.step delRoute
    simp only [Option.bind_eq_bind, htrigger, Option.bind_some]
    rfl
  | ifaceUp interface =>
    obtain ⟨result, hup⟩ := h.ifaceUp_isSome hnet interface
    exact ⟨result.1, congrArg (Option.map Prod.fst) hup⟩
  | ifaceDown interface =>
    obtain ⟨result, hdown⟩ := h.ifaceDown_isSome hnet interface
    exact ⟨result.1, congrArg (Option.map Prod.fst) hdown⟩

theorem step_isNetfpga (hours : ourInterfaces st.pwospf ≠ none) {op : Op} {st' : State}
    (hstep : IfaceRoutes.step st op = some st') :
    st'.routes.isNetfpga = st.routes.isNetfpga := by
  cases op with
  | addRoute dest gateway mask interface hlt =>
    obtain ⟨routes, htrigger, heq⟩ := Option.bind_eq_some_iff.mp hstep
    cases heq
    exact (trigger_spec htrigger).2
  | delRoute dest mask =>
    obtain ⟨⟨st₁, n⟩, hdel, heq⟩ := Option.map_eq_some_iff.mp hstep
    obtain ⟨routes, htrigger, hret⟩ := Option.bind_eq_some_iff.mp hdel
    cases hret
    cases heq
    exact (trigger_spec htrigger).2
  | ifaceUp interface =>
    obtain ⟨⟨st₁, n⟩, hup, heq⟩ := Option.map_eq_some_iff.mp hstep
    cases heq
    rcases ifaceUp_cases hours hup with rfl | hswitch
    · rfl
    · exact (trigger_spec hswitch.routes).2
  | ifaceDown interface =>
    obtain ⟨⟨st₁, n⟩, hdown, heq⟩ := Option.map_eq_some_iff.mp hstep
    cases heq
    rcases ifaceDown_cases hours hdown with rfl | hswitch
    · rfl
    · exact (trigger_spec hswitch.routes).2

end

theorem Sound.run {ops : List Op} {st : State} (h : Sound st) (hmeet : AllMeet st ops) :
    AllFollow st ops := by
  induction ops generalizing st with
  | nil => exact h.follows
  | cons op ops ih =>
    refine ⟨h.follows, fun st' hstep => ?_⟩
    obtain ⟨hsound, hkept⟩ := h.step hmeet.1 hstep
    exact ⟨hkept, ih hsound (hmeet.2 st' hstep)⟩

theorem Sound.run_isSome {ops : List Op} {st : State} (h : Sound st) (hmeet : AllMeet st ops)
    (hnet : st.routes.isNetfpga = false) : ∃ st', IfaceRoutes.run st ops = some st' := by
  induction ops generalizing st with
  | nil => exact ⟨st, rfl⟩
  | cons op ops ih =>
    obtain ⟨st₁, hstep⟩ := h.step_isSome hnet op
    have hnet₁ := (step_isNetfpga h.ours hstep).trans hnet
    obtain ⟨st₂, hrun⟩ := ih (h.step hmeet.1 hstep).1 (hmeet.2 st₁ hstep) hnet₁
    refine ⟨st₂, ?_⟩
    unfold IfaceRoutes.run
    rw [hstep]
    exact hrun

/-- In every run whose steps meet their conditions the static routes follow the interfaces. Without
the hardware, which knows only four interfaces, every run goes to its end. -/
theorem static_routes_follow_ifaces (st : State) (hsound : Sound st) (ops : List Op)
    (hmeet : AllMeet st ops) :
    AllFollow st ops ∧ (st.routes.isNetfpga = false → ∃ st', run st ops = some st') :=
  ⟨hsound.run hmeet, hsound.run_isSome hmeet⟩

/-- Two interfaces and a static route through the second one. -/
def ethOneAndTen : State :=
  ⟨[⟨"eth1", 0x0100000a, 0x00ffffff, true, [], false, Iface.eth1_lt⟩,
      ⟨"eth10", 0x0101000a, 0x00ffffff, true, [], false, by decide⟩],
    ⟨[⟨0x0a020000, 0x0a010002, 0xffffff00, "eth10", true, true, by decide⟩], false, []⟩,
    ⟨0x0100000a, 0, false, [⟨0x0100000a, 0, 0, []⟩]⟩⟩

theorem sound_ethOneAndTen : Sound ethOneAndTen := by
  refine ⟨by decide, by decide, by decide, ?_⟩
  intro e he _
  obtain rfl := List.mem_singleton.mp he
  exact iff_of_true rfl ⟨_, List.mem_cons_of_mem _ List.mem_cons_self, rfl, rfl⟩

theorem static_routes_follow_ethOneAndTen :
    AllFollow ethOneAndTen [.ifaceDown "eth10"] ∧
      (ethOneAndTen.routes.isNetfpga = false →
        ∃ st', run ethOneAndTen [.ifaceDown "eth10"] = some st') := by
  apply static_routes_follow_ifaces ethOneAndTen sound_ethOneAndTen
  refine ⟨fun _ e he _ hne => ?_, fun _ _ => trivial⟩
  obtain rfl := List.mem_singleton.mp he
  exact absurd rfl hne

/-- `eth1` goes down and takes the route through `eth10` with it. -/
theorem route_of_ethTen_lost : Sound ethOneAndTen ∧
    ¬ AllFollow ethOneAndTen [.ifaceDown "eth1"] := by
  refine ⟨sound_ethOneAndTen, fun hfollow => ?_⟩
  have hview : (step ethOneAndTen (.ifaceDown "eth1")).map (fun st =>
      (st.routes.rtable.map fun e => (e.iface, e.isStatic, e.isActive),
        st.ifList.map fun i => (i.name, i.isActive))) =
      some ([("eth10", true, false)], [("eth1", false), ("eth10", true)]) := by decide +kernel
  obtain ⟨st', hstep, hview⟩ := Option.map_eq_some_iff.mp hview
  obtain ⟨hroutes, hifaces⟩ := Prod.mk.inj hview
  have he : ("eth10", true, false) ∈
      st'.routes.rtable.map fun e => (e.iface, e.isStatic, e.isActive) := by
    rw [hroutes]
    exact List.mem_singleton_self _
  have hi : ("eth10", true) ∈ st'.ifList.map fun i => (i.name, i.isActive) := by
    rw [hifaces]
    exact List.mem_cons_of_mem _ List.mem_cons_self
  obtain ⟨e, hmem, he⟩ := List.mem_map.mp he
  obtain ⟨i, himem, hi⟩ := List.mem_map.mp hi
  simp only [Prod.mk.injEq] at he hi
  have hup := ((hfollow.2 st' hstep).2 e hmem he.2.1).mpr ⟨i, himem, hi.1.trans he.1.symm, hi.2⟩
  rw [he.2.2] at hup
  cases hup

end Osnt.Scone.IfaceRoutes
