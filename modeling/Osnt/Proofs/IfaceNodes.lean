import Mathlib.Tactic.ByContra
import Osnt.Proofs.IfaceRoutes
import Osnt.Scone.IfaceNodes

namespace Osnt.Scone.IfaceNodes
open Lib Lib.Linked
open Pwospf (PwospfInterface getRouterByRid propagatePwospfChanges)
open Iface (getIface)
open IfaceRoutes (State trigger activateRoutes deactivateRoutes isRoutePresent)
open Hello (ourInterfaces booked)

@[simp] theorem ok_bind {α β : Type} (x : α) (f : α → Except Halt β) :
    (Except.ok x >>= f) = f x := rfl

@[simp] theorem error_bind {α β : Type} (halt : Halt) (f : α → Except Halt β) :
    (Except.error halt >>= f) = .error halt := rfl

@[simp] theorem pure_eq_ok {α : Type} (x : α) : (pure x : Except Halt α) = .ok x := rfl

section
variable {α : Type} {l : NodeList α} {cells before after : List (Addr × α)} {a : Addr} {x : α}

theorem deref_of_some {memory : Memory α} {node : Node α} (h : memory a = some node) :
    deref memory a = .ok node := by
  rw [deref, h]
  rfl

theorem nodeRemove_eq (h : Holds l (before ++ (a, x) :: after)) :
    nodeRemove l a = .ok (unlink l a (last before) (first after)) := by
  have hapart := apart_of_nodup h.nodup
  have hnode := h.node before a x after rfl
  have hprev (p : Addr) (hp : last before = some p) : ∃ node, l.memory p = some node ∧ p ≠ a :=
    have ⟨node, hn⟩ := @Holds.exists_node _ _ _ h p (by simp [mem_of_last hp])
    ⟨node, hn, hapart.before_ne p (mem_of_last hp)⟩
  have hnext (n : Addr) (hn : first after = some n) : ∃ node, l.memory n = some node ∧ n ≠ a :=
    have ⟨node, hm⟩ := @Holds.exists_node _ _ _ h n (by simp [mem_of_first hn])
    ⟨node, hm, hapart.after_ne n (mem_of_first hn)⟩
  simp only [nodeRemove, deref_of_some hnode, ok_bind, pure_eq_ok]
  cases hp : last before with
  | none =>
    cases hn : first after with
    | none =>
      refine congrArg Except.ok ?_
      simp only [unlink, NodeList.mk.injEq, if_true, and_true]
      funext c
      simp [free]
    | some n =>
      obtain ⟨second, hsecond, hne⟩ := hnext n hn
      simp only [deref_of_some hsecond, ok_bind]
      refine congrArg Except.ok ?_
      simp only [unlink, NodeList.mk.injEq, if_true, and_true]
      funext c
      by_cases hc : c = n
      · subst hc
        simp [free, store, hsecond, hne]
      · simp [free, store, hc, Ne.symm hc]
  | some p =>
    obtain ⟨prior, hprior, hpa⟩ := hprev p hp
    cases hn : first after with
    | none =>
      simp only [deref_of_some hprior, ok_bind]
      refine congrArg Except.ok ?_
      simp only [unlink, NodeList.mk.injEq, reduceCtorEq, if_false, and_true]
      funext c
      by_cases hc : c = p
      · subst hc
        simp [free, store, hprior, hpa]
      · simp [free, store, hc, Ne.symm hc]
    | some n =>
      obtain ⟨second, hsecond, hne⟩ := hnext n hn
      have hnp : n ≠ p := fun he =>
        hapart.disjoint p (mem_of_last hp) (he ▸ mem_of_first hn)
      have hafter : store l.memory p { prior with next := some n } n = some second := by
        rw [store, if_neg hnp]
        exact hsecond
      simp only [deref_of_some hprior, deref_of_some hafter, ok_bind]
      refine congrArg Except.ok ?_
      simp only [unlink, NodeList.mk.injEq, reduceCtorEq, if_false, and_true]
      funext c
      by_cases hc : c = p
      · subst hc
        simp [free, store, hprior, hpa, hnp.symm]
      · by_cases hc' : c = n
        · subst hc'
          simp [free, store, hsecond, hne, hnp.symm]
        · simp [free, store, hc, hc', Ne.symm hc, Ne.symm hc']

theorem clearNodes_nil (h : Holds l []) (fuel : Nat) : clearNodes fuel l = .ok l := by
  unfold clearNodes
  rw [h.head]
  rfl

theorem removeCur_ne_ok (fuel : Nat) (l l' : NodeList α) (cur : Addr) :
    removeCur fuel l cur ≠ .ok l' := by
  induction fuel generalizing l with
  | zero => nofun
  | succ fuel ih =>
    rw [removeCur]
    cases nodeRemove l cur with
    | error halt => nofun
    | ok l₁ => exact ih l₁

theorem clearNodes_ne_ok (h : Holds l cells) (hne : cells ≠ []) (fuel : Nat) (l' : NodeList α) :
    clearNodes fuel l ≠ .ok l' := by
  cases cells with
  | nil => exact absurd rfl hne
  | cons c cells =>
    unfold clearNodes
    rw [h.head]
    exact removeCur_ne_ok fuel l l' c.1

/-- The loop over the interfaces takes those out that it is to remove, and no others. -/
theorem removeWhere_spec (p : α → Bool) (kept rest : List (Addr × α))
    (h : Holds l (kept ++ rest)) {fuel : Nat} (hfuel : rest.length ≤ fuel) :
    ∃ l', removeWhere p fuel l (first rest) = .ok (l', rest.any fun c => p c.2) ∧
      Holds l' (kept ++ rest.filter fun c => !p c.2) := by
  induction rest generalizing l kept fuel with
  | nil => exact ⟨l, by cases fuel <;> rfl, h⟩
  | cons c rest ih =>
    cases fuel with
    | zero => simp at hfuel
    | succ fuel =>
      have hfuel : rest.length ≤ fuel := by simpa using hfuel
      have hnode := h.node kept c.1 c.2 rest rfl
      simp only [first_cons, removeWhere, deref_of_some hnode, ok_bind, pure_eq_ok]
      cases hc : p c.2 with
      | true =>
        obtain ⟨l', hrun, hholds⟩ := ih kept h.unlink hfuel
        refine ⟨l', ?_, ?_⟩
        · rw [if_pos rfl, nodeRemove_eq h, ok_bind, hrun, List.any_cons, hc]
          rfl
        · rw [List.filter_cons, hc]
          exact hholds
      | false =>
        obtain ⟨l', hrun, hholds⟩ := ih (kept ++ [c]) (by simpa using h) hfuel
        refine ⟨l', ?_, ?_⟩
        · rw [List.any_cons, hc]
          exact hrun
        · rw [List.filter_cons, hc]
          simpa using hholds

theorem readList_eq (h : Holds l cells) {fuel : Nat} (hfuel : cells.length ≤ fuel) :
    readList fuel l = .ok (cells.map Prod.snd) := by
  have hread := h.readFrom [] cells rfl hfuel
  rw [readList, h.head, hread]
  rfl

theorem lastNode_eq {memory : Memory α} (hnode : ∀ before a x after,
      cells = before ++ (a, x) :: after → memory a = some ⟨x, last before, first after⟩)
    (before : List (Addr × α)) (c : Addr × α) (after : List (Addr × α))
    (hcells : cells = before ++ c :: after) {fuel : Nat} (hfuel : after.length < fuel) :
    ∃ b, last cells = some b ∧ lastNode memory fuel c.1 = .ok b := by
  induction after generalizing before c fuel with
  | nil =>
    obtain ⟨fuel, rfl⟩ := Nat.exists_eq_succ_of_ne_zero (by omega : fuel ≠ 0)
    refine ⟨c.1, by rw [hcells, last_concat], ?_⟩
    rw [lastNode, deref_of_some (hnode before c.1 c.2 [] hcells)]
    rfl
  | cons d after ih =>
    obtain ⟨fuel, rfl⟩ := Nat.exists_eq_succ_of_ne_zero (by omega : fuel ≠ 0)
    obtain ⟨b, hlast, hrun⟩ := ih (before ++ [c]) d (by simpa using hcells)
      (by simpa using hfuel)
    refine ⟨b, hlast, ?_⟩
    rw [lastNode, deref_of_some (hnode before c.1 c.2 (d :: after) hcells)]
    exact hrun

theorem pushNew_eq (h : Holds l cells) (ha : a ∉ cells.map Prod.fst) {fuel : Nat}
    (hfuel : cells.length ≤ fuel) : pushNew fuel l a x = .ok (link l a x (last cells)) := by
  cases cells with
  | nil =>
    simp only [pushNew, h.head, first_nil]
    refine congrArg Except.ok ?_
    simp only [link, NodeList.mk.injEq, last_nil, reduceCtorEq, if_false]
    exact ⟨rfl, by rw [h.head]; rfl⟩
  | cons c cells =>
    have hnode (before : List (Addr × α)) (b : Addr) (y : α) (after : List (Addr × α))
        (hcells : c :: cells = before ++ (b, y) :: after) :
        store l.memory a ⟨x, none, none⟩ b = some ⟨y, last before, first after⟩ := by
      have hne : b ≠ a := by
        rintro rfl
        exact ha (by simp [hcells])
      rw [store, if_neg hne]
      exact h.node before b y after hcells
    obtain ⟨b, hlast, hrun⟩ := lastNode_eq hnode [] c cells rfl hfuel
    obtain ⟨node, hb⟩ := h.exists_node (mem_of_last hlast)
    have hba : b ≠ a := fun he => ha (he ▸ mem_of_last hlast)
    have hstored : store l.memory a ⟨x, none, none⟩ b = some node := by
      rw [store, if_neg hba]
      exact hb
    have hnew : store (store l.memory a ⟨x, none, none⟩) b { node with next := some a } a =
        some ⟨x, none, none⟩ := by
      rw [store, if_neg hba.symm, store, if_pos rfl]
    simp only [pushNew, h.head, first_cons, nodePushBack, hrun]
    simp only [ok_bind, deref_of_some hstored, deref_of_some hnew, pure_eq_ok, hlast]
    refine congrArg Except.ok ?_
    simp only [link, NodeList.mk.injEq, h.head, first_cons, Option.some_or, and_true]
    funext d
    by_cases hda : d = a
    · simp [store, hda]
    · by_cases hdb : d = b
      · subst hdb
        simp [store, hda, hb]
      · simp [store, hda, hdb, Ne.symm hdb]

end

/-- The layout has a node for every neighbour of the interface and every interface of our entry, and
a free one. -/
structure Layout.Fits (m : Layout) (st : State) (iface : Iface.Entry) : Prop where
  nbrRouters : m.nbrRouters.Nodup
  nbrRouters_length : m.nbrRouters.length = iface.nbrRouters.length
  interfaceList : m.interfaceList.Nodup
  interfaceList_length : ∀ es, ourInterfaces st.pwospf = some es →
    m.interfaceList.length = es.length
  new : m.new ∉ m.interfaceList

theorem holds_zip {α : Type} {addrs : List Addr} {xs : List α} (hnodup : addrs.Nodup)
    (hlen : addrs.length = xs.length) : Holds (layOut (addrs.zip xs)) (addrs.zip xs) := by
  apply holds_layOut
  rwa [List.map_fst_zip (Nat.le_of_eq hlen)]

theorem map_snd_zip_of_length {α : Type} {addrs : List Addr} {xs : List α}
    (hlen : addrs.length = xs.length) : (addrs.zip xs).map Prod.snd = xs :=
  List.map_snd_zip (Nat.le_of_eq hlen.symm)

theorem modify_congr {α : Type} {xs : List α} {k : Nat} {x : α} (hk : xs[k]? = some x)
    {f g : α → α} (h : f x = g x) : xs.modify k f = xs.modify k g := by
  obtain ⟨before, after, -, hmodify, -⟩ := split_at hk
  rw [hmodify, hmodify, h]

theorem setOurs_congr {pwospf : Pwospf.RouterState} {r : Pwospf.PwospfRouter}
    (hr : getRouterByRid pwospf.routerId pwospf.pwospfRouterList = some r)
    {f g : Pwospf.PwospfRouter → Pwospf.PwospfRouter} (h : f r = g r) :
    pwospf.setOurs f = pwospf.setOurs g := by
  have hset (routers : List Pwospf.PwospfRouter)
      (hr : getRouterByRid pwospf.routerId routers = some r) :
      Pwospf.setRouter pwospf.routerId f routers = Pwospf.setRouter pwospf.routerId g routers := by
    induction routers with
    | nil => cases hr
    | cons r' routers ih =>
      unfold Pwospf.setRouter
      unfold getRouterByRid at ih hr
      rw [List.find?_cons] at hr
      split
      · rename_i hid
        rw [hid] at hr
        cases hr
        rw [h]
      · rename_i hid
        rw [Bool.eq_false_iff.mpr hid] at hr
        rw [ih hr]
  unfold Pwospf.RouterState.setOurs
  rw [hset _ hr]

theorem setOurs_eq_self {pwospf : Pwospf.RouterState} {r : Pwospf.PwospfRouter}
    (hr : getRouterByRid pwospf.routerId pwospf.pwospfRouterList = some r)
    {f : Pwospf.PwospfRouter → Pwospf.PwospfRouter} (h : f r = r) : pwospf.setOurs f = pwospf := by
  have hset (routers : List Pwospf.PwospfRouter) : Pwospf.setRouter pwospf.routerId id routers =
      routers := by
    induction routers with
    | nil => rfl
    | cons r' routers ih =>
      unfold Pwospf.setRouter
      split
      · rfl
      · rw [ih]
  rw [setOurs_congr hr (show f r = id r from h), Pwospf.RouterState.setOurs, hset]

section
variable {m : Layout} {st : State} {interface : String} {k : Nat} {iface : Iface.Entry}
  {result : State × Nat}

theorem clearNodes_layOut_nil (hfits : m.Fits st iface) (hnbrs : iface.nbrRouters = [])
    (fuel : Nat) :
    ∃ l, clearNodes fuel (layOut (m.nbrRouters.zip iface.nbrRouters)) = .ok l ∧
      readList fuel l = .ok [] := by
  have hholds := holds_zip hfits.nbrRouters hfits.nbrRouters_length
  rw [hnbrs, List.zip_nil_right] at hholds ⊢
  exact ⟨_, clearNodes_nil hholds fuel, readList_eq hholds (Nat.zero_le _)⟩

theorem clearNodes_layOut_cons (hfits : m.Fits st iface) (hnbrs : iface.nbrRouters ≠ [])
    (fuel : Nat) :
    ∃ halt, clearNodes fuel (layOut (m.nbrRouters.zip iface.nbrRouters)) = .error halt := by
  have hholds := holds_zip hfits.nbrRouters hfits.nbrRouters_length
  have hne : m.nbrRouters.zip iface.nbrRouters ≠ [] := by
    intro hnil
    have hlen := congrArg List.length hnil
    rw [List.length_zip, hfits.nbrRouters_length, Nat.min_self] at hlen
    exact hnbrs (List.eq_nil_of_length_eq_zero hlen)
  cases hclear : clearNodes fuel (layOut (m.nbrRouters.zip iface.nbrRouters)) with
  | error halt => exact ⟨halt, rfl⟩
  | ok l => exact absurd hclear (clearNodes_ne_ok hholds hne fuel l)

theorem removeWhere_layOut {addrs : List Addr} {es : List PwospfInterface} (hnodup : addrs.Nodup)
    (hlen : addrs.length = es.length) (p : PwospfInterface → Bool) {fuel : Nat}
    (hfuel : es.length ≤ fuel) :
    ∃ l, removeWhere p fuel (layOut (addrs.zip es)) (layOut (addrs.zip es)).head =
        .ok (l, es.any p) ∧ readList fuel l = .ok (es.filter fun i => !p i) := by
  have hholds := holds_zip hnodup hlen
  have hsnd := map_snd_zip_of_length hlen
  have hziplen : (addrs.zip es).length = es.length := by
    rw [List.length_zip, hlen, Nat.min_self]
  obtain ⟨l, hrun, hkept⟩ := removeWhere_spec p [] (addrs.zip es) hholds (hziplen.trans_le hfuel)
  refine ⟨l, ?_, ?_⟩
  · have hany : ((addrs.zip es).any fun c => p c.2) = es.any p := by
      conv_rhs => rw [← hsnd]
      rw [List.any_map]
      rfl
    rw [hholds.head, hrun, hany]
  · have hle := (List.length_filter_le (fun c => !p c.2) (addrs.zip es)).trans
      (hziplen.trans_le hfuel)
    rw [readList_eq hkept hle]
    conv_rhs => rw [← hsnd]
    rw [List.filter_map]
    rfl

theorem pushNew_layOut {addrs : List Addr} {es : List PwospfInterface} (hnodup : addrs.Nodup)
    (hlen : addrs.length = es.length) {new : Addr} (hnew : new ∉ addrs) (pi : PwospfInterface)
    {fuel : Nat} (hfuel : es.length < fuel) :
    ∃ l, pushNew fuel (layOut (addrs.zip es)) new pi = .ok l ∧
      readList fuel l = .ok (es ++ [pi]) := by
  have hholds := holds_zip hnodup hlen
  have hziplen : (addrs.zip es).length = es.length := by
    rw [List.length_zip, hlen, Nat.min_self]
  have hfst : new ∉ (addrs.zip es).map Prod.fst := by
    rwa [List.map_fst_zip (Nat.le_of_eq hlen)]
  refine ⟨_, pushNew_eq hholds hfst (hziplen.trans_le hfuel.le), ?_⟩
  rw [readList_eq (hholds.link hfst) (by simp [hziplen]; omega), List.map_append,
    map_snd_zip_of_length hlen]
  rfl

theorem setIface_nil (hget : st.ifList[k]? = some iface) (hnbrs : iface.nbrRouters = [])
    (isActive : Bool) :
    setIface st.ifList k isActive [] = IfaceRoutes.setActive st.ifList k isActive := by
  apply modify_congr hget
  rw [hnbrs]

theorem any_iff_filter_lt (p : PwospfInterface → Bool) (es : List PwospfInterface) :
    (es.any p = true) ↔ (es.filter fun i => !p i).length < es.length := by
  rw [List.length_filter_lt_length_iff_exists, List.any_eq_true]
  simp only [Bool.not_eq_true', Bool.not_eq_false]

/-- `iface_down` over the nodes returns what the function over the lists does. -/
theorem ifaceDown_toOption (hk : getIface st.ifList interface = some k)
    (hget : st.ifList[k]? = some iface) (hfits : m.Fits st iface) {fuel : Nat}
    (hfuel : ∀ es, ourInterfaces st.pwospf = some es → es.length < fuel) :
    (ifaceDown m fuel st interface).toOption = IfaceRoutes.ifaceDown st interface := by
  unfold ifaceDown IfaceRoutes.ifaceDown
  simp only [hk, hget, orHalt, ok_bind, Option.bind_eq_bind, Option.bind_some]
  by_cases hactive : iface.isActive = false
  · rw [if_pos hactive, if_pos hactive]
    rfl
  rw [if_neg hactive, if_neg hactive]
  cases trigger st.routes (deactivateRoutes interface st.routes.rtable) with
  | none => rfl
  | some routes =>
    simp only [ok_bind, Option.bind_some]
    by_cases hnbrs : iface.nbrRouters = []
    · obtain ⟨l, hclear, hread⟩ := clearNodes_layOut_nil hfits hnbrs fuel
      rw [hclear, if_neg (not_not_intro hnbrs)]
      simp only [ok_bind, hread]
      cases hours : getRouterByRid st.pwospf.routerId st.pwospf.pwospfRouterList with
      | none => rfl
      | some ourRouter =>
        have hes : ourInterfaces st.pwospf = some ourRouter.interfaceList :=
          Option.map_eq_some_iff.mpr ⟨ourRouter, hours, rfl⟩
        obtain ⟨nodes, hremove, hkept⟩ := removeWhere_layOut hfits.interfaceList
          (hfits.interfaceList_length _ hes) (fun pi => pi.subnet == iface.ip &&& iface.mask)
          (hfuel _ hes).le
        simp only [ok_bind, hremove, hkept, any_iff_filter_lt, Option.bind_some,
          setIface_nil hget hnbrs]
        rfl
    · obtain ⟨halt, hclear⟩ := clearNodes_layOut_cons hfits hnbrs fuel
      rw [hclear, if_pos hnbrs]
      rfl

/-- `iface_up` over the nodes returns what the function over the lists does. -/
theorem ifaceUp_toOption (hk : getIface st.ifList interface = some k)
    (hget : st.ifList[k]? = some iface) (hfits : m.Fits st iface) {fuel : Nat}
    (hfuel : ∀ es, ourInterfaces st.pwospf = some es → es.length < fuel) :
    (ifaceUp m fuel st interface).toOption = IfaceRoutes.ifaceUp st interface := by
  unfold ifaceUp IfaceRoutes.ifaceUp
  simp only [hk, hget, orHalt, ok_bind, Option.bind_eq_bind, Option.bind_some]
  by_cases hactive : iface.isActive = true
  · rw [if_pos hactive, if_pos hactive]
    rfl
  rw [if_neg hactive, if_neg hactive]
  cases trigger st.routes (activateRoutes interface st.routes.rtable) with
  | none => rfl
  | some routes =>
    simp only [ok_bind, Option.bind_some]
    by_cases hnbrs : iface.nbrRouters = []
    · obtain ⟨l, hclear, hread⟩ := clearNodes_layOut_nil hfits hnbrs fuel
      rw [hclear, if_neg (not_not_intro hnbrs)]
      simp only [ok_bind, hread]
      cases hours : getRouterByRid st.pwospf.routerId st.pwospf.pwospfRouterList with
      | none => rfl
      | some ourRouter =>
        have hes : ourInterfaces st.pwospf = some ourRouter.interfaceList :=
          Option.map_eq_some_iff.mpr ⟨ourRouter, hours, rfl⟩
        have hlen := hfits.interfaceList_length _ hes
        simp only [ok_bind, Option.bind_some, setIface_nil hget hnbrs]
        by_cases hpresent : isRoutePresent ourRouter.interfaceList
            ⟨iface.ip &&& iface.mask, iface.mask, 0, false⟩ = true
        · have hholds := holds_zip hfits.interfaceList hlen
          have hread := @readList_eq _ _ _ hholds fuel
            (by rw [List.length_zip, hlen, Nat.min_self]; exact (hfuel _ hes).le)
          rw [map_snd_zip_of_length hlen] at hread
          simp only [hpresent, if_true, pure_eq_ok, ok_bind, hread]
          rw [setOurs_eq_self hours (f := fun r =>
            { r with interfaceList := ourRouter.interfaceList }) rfl]
          rfl
        · obtain ⟨nodes, hpush, hread⟩ := pushNew_layOut hfits.interfaceList hlen hfits.new
            ⟨iface.ip &&& iface.mask, iface.mask, 0, false⟩ (hfuel _ hes)
          simp only [hpresent, ok_bind, hpush, hread]
          rw [setOurs_congr hours (f := fun r => { r with interfaceList :=
              ourRouter.interfaceList ++ [⟨iface.ip &&& iface.mask, iface.mask, 0, false⟩] })
            (g := fun r => { r with interfaceList :=
              r.interfaceList ++ [⟨iface.ip &&& iface.mask, iface.mask, 0, false⟩] }) rfl]
          rfl
    · obtain ⟨halt, hclear⟩ := clearNodes_layOut_cons hfits hnbrs fuel
      rw [hclear, if_pos hnbrs]
      rfl

end

/-- With the hardware, every route leaves by a port that it knows, which is asserted whenever the
routes are written. -/
def PortsKnown (routes : Rtable.RouterState) : Prop :=
  routes.isNetfpga = true →
    ∀ e ∈ routes.rtable, ∃ port, Rtable.getOneHotPortNumber e.iface = some port

theorem PortsKnown.trigger {routes : Rtable.RouterState} {rtable : List Rtable.Entry}
    (h : PortsKnown { routes with rtable }) :
    ∃ routes', trigger routes rtable = some routes' ∧ PortsKnown routes' := by
  cases htrigger : IfaceRoutes.trigger routes rtable with
  | none =>
    cases hnet : routes.isNetfpga with
    | true =>
      obtain ⟨e, he, -, hport⟩ := Rtable.trigger_eq_none (Nat.lt_succ_self _) htrigger
      obtain ⟨port, hsome⟩ := h hnet e he
      cases hport.symm.trans hsome
    | false =>
      obtain ⟨routes', hsome⟩ := IfaceRoutes.trigger_isSome hnet rtable
      cases htrigger.symm.trans hsome
  | some routes' =>
    obtain ⟨hperm, hsame⟩ := IfaceRoutes.trigger_spec htrigger
    refine ⟨routes', rfl, fun hnet e he => h (hsame ▸ hnet) e ?_⟩
    exact hperm.mem_iff.mp he

theorem PortsKnown.deactivateRoutes {routes : Rtable.RouterState} (h : PortsKnown routes)
    (interface : String) :
    PortsKnown { routes with rtable := deactivateRoutes interface routes.rtable } := by
  intro hnet e he
  obtain ⟨e', he', hsome⟩ := List.mem_filterMap.mp he
  split at hsome
  · split at hsome
    · cases hsome
      exact h hnet e' he'
    · cases hsome
  · cases hsome
    exact h hnet e he'

theorem PortsKnown.activateRoutes {routes : Rtable.RouterState} (h : PortsKnown routes)
    (interface : String) :
    PortsKnown { routes with rtable := activateRoutes interface routes.rtable } := by
  intro hnet e he
  obtain ⟨e', he', heq⟩ := List.mem_map.mp he
  have hiface : e.iface = e'.iface := by
    rw [← heq]
    split
    · rfl
    · rfl
  exact hiface ▸ h hnet e' he'

/-- The neighbours of the `k`-th interface. -/
def nbrsOf (st : State) (k : Nat) : Option (List Iface.NbrRouter) :=
  st.ifList[k]?.map Iface.Entry.nbrRouters

theorem getIface_setActive (ifList : List Iface.Entry) (k : Nat) (isActive : Bool)
    (interface : String) :
    getIface (IfaceRoutes.setActive ifList k isActive) interface = getIface ifList interface := by
  have hnames (l : List Iface.Entry) : getIface l interface =
      (l.map Iface.Entry.name).findIdx? fun name => Iface.strncmpEq interface name 32 := by
    rw [List.findIdx?_map]
    rfl
  rw [hnames, hnames, IfaceRoutes.setActive_names]

theorem getElem?_setActive {ifList : List Iface.Entry} {k : Nat} {iface : Iface.Entry}
    (hget : ifList[k]? = some iface) (isActive : Bool) :
    (IfaceRoutes.setActive ifList k isActive)[k]? = some { iface with isActive } := by
  rw [IfaceRoutes.setActive, List.getElem?_modify, hget]
  exact congrArg some (if_pos rfl)

section
variable {st st' : State} {interface : String} {k r : Nat} {iface : Iface.Entry}

/-- What `iface_down` does to an active interface, if it returns. -/
structure Downed (st : State) (interface : String) (k : Nat) (iface : Iface.Entry)
    (st' : State) : Prop where
  noNbrs : iface.nbrRouters = []
  ifList : st'.ifList = IfaceRoutes.setActive st.ifList k false
  routes : trigger st.routes (deactivateRoutes interface st.routes.rtable) = some st'.routes
  booked : ∃ cs, booked st.pwospf = some cs ∧
    booked st'.pwospf = some (cs.filter fun c => c.1 != iface.ip &&& iface.mask)

/-- What `iface_up` does to an interface that is not active, if it returns. -/
structure Upped (st : State) (interface : String) (k : Nat) (iface : Iface.Entry)
    (st' : State) : Prop where
  noNbrs : iface.nbrRouters = []
  ifList : st'.ifList = IfaceRoutes.setActive st.ifList k true
  routes : trigger st.routes (activateRoutes interface st.routes.rtable) = some st'.routes
  booked : ∃ cs, booked st.pwospf = some cs ∧ booked st'.pwospf =
    some (if (iface.net.1, iface.net.2, 0) ∈ cs then cs else cs ++ [(iface.net.1, iface.net.2, 0)])

theorem booked_setOurs (pwospf : Pwospf.RouterState) (es : List PwospfInterface)
    {ourRouter : Pwospf.PwospfRouter}
    (hours : getRouterByRid pwospf.routerId pwospf.pwospfRouterList = some ourRouter) :
    booked (pwospf.setOurs fun r => { r with interfaceList := es }) =
      some (es.map PwospfInterface.content) := by
  rw [booked, Hello.ourInterfaces_setOurs pwospf (fun r => { r with interfaceList := es })
    (fun _ => rfl) (fun _ => es) (fun _ => rfl), ourInterfaces, hours]
  rfl

theorem booked_of_ours {pwospf : Pwospf.RouterState} {ourRouter : Pwospf.PwospfRouter}
    (hours : getRouterByRid pwospf.routerId pwospf.pwospfRouterList = some ourRouter) :
    booked pwospf = some (ourRouter.interfaceList.map PwospfInterface.content) := by
  rw [booked, ourInterfaces, hours]
  rfl

theorem downed_of_some (hk : getIface st.ifList interface = some k)
    (hget : st.ifList[k]? = some iface) (hactive : iface.isActive = true)
    (h : IfaceRoutes.ifaceDown st interface = some (st', r)) :
    r = 0 ∧ Downed st interface k iface st' := by
  unfold IfaceRoutes.ifaceDown at h
  simp only [hk, hget, Option.bind_eq_bind, Option.bind_some, hactive] at h
  obtain ⟨routes, hroutes, h⟩ := Option.bind_eq_some_iff.mp h
  split at h
  · cases h
  · rename_i hnbrs
    obtain ⟨ourRouter, hours, h⟩ := Option.bind_eq_some_iff.mp h
    cases h
    refine ⟨rfl, not_not.mp hnbrs, rfl, hroutes, _, booked_of_ours hours, ?_⟩
    rw [List.filter_map]
    split
    · rw [Hello.propagatePwospfChanges_booked, booked_setOurs _ _ hours]
      rfl
    · rw [booked_setOurs _ _ hours]
      rfl

theorem isRoutePresent_iff (es : List PwospfInterface) (pi : PwospfInterface) :
    isRoutePresent es pi = true ↔ pi.content ∈ es.map PwospfInterface.content := by
  simp only [isRoutePresent, List.any_eq_true, List.mem_map, PwospfInterface.content,
    Bool.and_eq_true, beq_iff_eq, Prod.mk.injEq, and_assoc]

theorem upped_of_some (hk : getIface st.ifList interface = some k)
    (hget : st.ifList[k]? = some iface) (hactive : iface.isActive = false)
    (h : IfaceRoutes.ifaceUp st interface = some (st', r)) :
    r = 0 ∧ Upped st interface k iface st' := by
  unfold IfaceRoutes.ifaceUp at h
  simp only [hk, hget, Option.bind_eq_bind, Option.bind_some, hactive] at h
  obtain ⟨routes, hroutes, h⟩ := Option.bind_eq_some_iff.mp h
  split at h
  · cases h
  · rename_i hnbrs
    obtain ⟨ourRouter, hours, h⟩ := Option.bind_eq_some_iff.mp h
    cases h
    refine ⟨rfl, not_not.mp hnbrs, rfl, hroutes, _, booked_of_ours hours, ?_⟩
    rw [Hello.propagatePwospfChanges_booked]
    split
    · rename_i hpresent
      have hmem : (iface.net.1, iface.net.2, 0) ∈
          ourRouter.interfaceList.map PwospfInterface.content :=
        (isRoutePresent_iff _ _).mp hpresent
      rw [booked_of_ours hours, if_pos hmem]
    · rename_i habsent
      have hnot : (iface.net.1, iface.net.2, 0) ∉
          ourRouter.interfaceList.map PwospfInterface.content :=
        fun hmem => habsent ((isRoutePresent_iff _ _).mpr hmem)
      rw [if_neg hnot, setOurs_congr hours
          (f := fun r => { r with interfaceList := r.interfaceList ++ [_] })
          (g := fun r => { r with interfaceList := ourRouter.interfaceList ++ [_] }) rfl,
        booked_setOurs _ _ hours, List.map_append]
      rfl

theorem ours_of_booked {pwospf : Pwospf.RouterState} {cs : List (BitVec 32 × BitVec 32 × BitVec 32)}
    (h : booked pwospf = some cs) : ∃ ourRouter,
      getRouterByRid pwospf.routerId pwospf.pwospfRouterList = some ourRouter := by
  obtain ⟨es, hes, -⟩ := Option.map_eq_some_iff.mp h
  obtain ⟨ourRouter, hours, -⟩ := Option.map_eq_some_iff.mp hes
  exact ⟨ourRouter, hours⟩

theorem ifaceDown_returns (hk : getIface st.ifList interface = some k)
    (hget : st.ifList[k]? = some iface) (hports : PortsKnown st.routes)
    (hnbrs : iface.nbrRouters = []) {cs : List (BitVec 32 × BitVec 32 × BitVec 32)}
    (hbooked : booked st.pwospf = some cs) :
    ∃ result, IfaceRoutes.ifaceDown st interface = some result := by
  obtain ⟨routes, hroutes, -⟩ := (hports.deactivateRoutes interface).trigger
  obtain ⟨ourRouter, hours⟩ := ours_of_booked hbooked
  unfold IfaceRoutes.ifaceDown
  simp only [hk, hget, Option.bind_eq_bind, Option.bind_some, hroutes, hnbrs, hours]
  split
  · exact ⟨_, rfl⟩
  · exact ⟨_, rfl⟩

theorem ifaceUp_returns (hk : getIface st.ifList interface = some k)
    (hget : st.ifList[k]? = some iface) (hports : PortsKnown st.routes)
    (hnbrs : iface.nbrRouters = []) {cs : List (BitVec 32 × BitVec 32 × BitVec 32)}
    (hbooked : booked st.pwospf = some cs) :
    ∃ result, IfaceRoutes.ifaceUp st interface = some result := by
  obtain ⟨routes, hroutes, -⟩ := (hports.activateRoutes interface).trigger
  obtain ⟨ourRouter, hours⟩ := ours_of_booked hbooked
  unfold IfaceRoutes.ifaceUp
  simp only [hk, hget, Option.bind_eq_bind, Option.bind_some, hroutes, hnbrs, hours]
  split
  · exact ⟨_, rfl⟩
  · exact ⟨_, rfl⟩

end

/-- With enough fuel the call returns this. -/
def Returns {α : Type} (call : Nat → Except Halt α) (result : α) : Prop :=
  ∃ enough, ∀ fuel, enough ≤ fuel → call fuel = .ok result

theorem returns_iff {α : Type} {call : Nat → Except Halt α} {o : Option α} {bound : Nat}
    (h : ∀ fuel, bound ≤ fuel → (call fuel).toOption = o) (result : α) :
    Returns call result ↔ o = some result := by
  constructor
  · rintro ⟨enough, hrun⟩
    rw [← h (max bound enough) (Nat.le_max_left _ _), hrun _ (Nat.le_max_right _ _)]
    rfl
  · rintro rfl
    refine ⟨bound, fun fuel hfuel => ?_⟩
    have hsome := h fuel hfuel
    cases hcall : call fuel with
    | error halt =>
      rw [hcall] at hsome
      cases hsome
    | ok x =>
      rw [hcall] at hsome
      cases hsome
      rfl

section
variable (m : Layout) (st : State) (interface : String) (k : Nat) (iface : Iface.Entry)

/-- The interface is brought up, and has no neighbours then. -/
def ComesUp (st' : State) : Prop :=
  Returns (fun fuel => ifaceUp m fuel st interface) (st', 0) ∧ nbrsOf st' k = some []

/-- The interface is taken down: it has no neighbours then, and just the entries of ours on its
subnet and mask are gone. It can be brought up again, which leaves one blank entry there. -/
def GoesDown (st' : State) : Prop :=
  Returns (fun fuel => ifaceDown m fuel st interface) (st', 0) ∧ nbrsOf st' k = some [] ∧
    booked st'.pwospf =
      (booked st.pwospf).map (List.filter fun c => (c.1, c.2.1) != iface.net) ∧
    ∀ m', m'.Fits st' { iface with isActive := false } →
      ∃ st'', ComesUp m' st' interface k st'' ∧
        (booked st''.pwospf).map (List.count (iface.net.1, iface.net.2, 0)) = some 1

/-- Switching the interface comes to an end, with the right entries. -/
structure Completes : Prop where
  down : iface.isActive = true → ∃ st', GoesDown m st interface k iface st'
  up : iface.isActive = false → ∃ st', ComesUp m st interface k st'

/-- There are no neighbours, we have an entry, and its interfaces on the subnet of an interface that
is taken down have its mask. -/
def Switchable : Prop :=
  iface.nbrRouters = [] ∧ ∃ cs, booked st.pwospf = some cs ∧
    (iface.isActive = true → ∀ c ∈ cs, c.1 = iface.net.1 → c.2.1 = iface.net.2)

end

section
variable {m : Layout} {st st' : State} {interface : String} {k : Nat} {iface : Iface.Entry}

theorem exists_fuel (pwospf : Pwospf.RouterState) : ∃ bound, ∀ fuel, bound ≤ fuel →
    ∀ es, ourInterfaces pwospf = some es → es.length < fuel := by
  refine ⟨((ourInterfaces pwospf).map List.length).getD 0 + 1, fun fuel hfuel es hes => ?_⟩
  rw [hes] at hfuel
  exact hfuel

theorem returns_ifaceDown_iff (hk : getIface st.ifList interface = some k)
    (hget : st.ifList[k]? = some iface) (hfits : m.Fits st iface) (result : State × Nat) :
    Returns (fun fuel => ifaceDown m fuel st interface) result ↔
      IfaceRoutes.ifaceDown st interface = some result := by
  obtain ⟨bound, hbound⟩ := exists_fuel st.pwospf
  exact returns_iff (fun fuel h => ifaceDown_toOption hk hget hfits (hbound fuel h)) result

theorem returns_ifaceUp_iff (hk : getIface st.ifList interface = some k)
    (hget : st.ifList[k]? = some iface) (hfits : m.Fits st iface) (result : State × Nat) :
    Returns (fun fuel => ifaceUp m fuel st interface) result ↔
      IfaceRoutes.ifaceUp st interface = some result := by
  obtain ⟨bound, hbound⟩ := exists_fuel st.pwospf
  exact returns_iff (fun fuel h => ifaceUp_toOption hk hget hfits (hbound fuel h)) result

theorem nbrsOf_setActive (hget : st.ifList[k]? = some iface) (hnbrs : iface.nbrRouters = [])
    {isActive : Bool} (h : st'.ifList = IfaceRoutes.setActive st.ifList k isActive) :
    nbrsOf st' k = some [] := by
  rw [nbrsOf, h, getElem?_setActive hget]
  exact congrArg some hnbrs

theorem comesUp (hk : getIface st.ifList interface = some k) (hget : st.ifList[k]? = some iface)
    (hactive : iface.isActive = false) (hports : PortsKnown st.routes) (hfits : m.Fits st iface)
    (hnbrs : iface.nbrRouters = []) {cs : List (BitVec 32 × BitVec 32 × BitVec 32)}
    (hbooked : booked st.pwospf = some cs) :
    ∃ st', ComesUp m st interface k st' ∧ Upped st interface k iface st' := by
  obtain ⟨⟨st', r⟩, hup⟩ := ifaceUp_returns hk hget hports hnbrs hbooked
  obtain ⟨rfl, hupped⟩ := upped_of_some hk hget hactive hup
  exact ⟨st', ⟨(returns_ifaceUp_iff hk hget hfits _).mpr hup,
    nbrsOf_setActive hget hnbrs hupped.ifList⟩, hupped⟩

/-- Without a foreign mask on the subnet, the comparison of the subnet alone is enough. -/
theorem filter_subnet_eq_iff {cs : List (BitVec 32 × BitVec 32 × BitVec 32)}
    {net : BitVec 32 × BitVec 32} :
    (cs.filter fun c => c.1 != net.1) = (cs.filter fun c => (c.1, c.2.1) != net) ↔
      ∀ c ∈ cs, c.1 = net.1 → c.2.1 = net.2 := by
  constructor
  · intro heq c hc hsub
    by_contra hmask
    have hmem : c ∈ cs.filter fun c => (c.1, c.2.1) != net :=
      List.mem_filter.mpr ⟨hc, bne_iff_ne.mpr fun h => hmask (congrArg Prod.snd h)⟩
    rw [← heq, List.mem_filter, bne_iff_ne] at hmem
    exact hmem.2 hsub
  · intro h
    refine List.filter_congr fun c hc => Bool.eq_iff_iff.mpr ?_
    rw [bne_iff_ne, bne_iff_ne]
    exact not_congr ⟨fun hsub => Prod.ext hsub (h c hc hsub), fun he => congrArg Prod.fst he⟩

theorem Completes.switchable (h : Completes m st interface k iface)
    (hk : getIface st.ifList interface = some k) (hget : st.ifList[k]? = some iface)
    (hfits : m.Fits st iface) : Switchable st iface := by
  cases hactive : iface.isActive with
  | true =>
    obtain ⟨st', hreturns, -, hkept, -⟩ := h.down hactive
    have hdown := (returns_ifaceDown_iff hk hget hfits _).mp hreturns
    obtain ⟨-, hdowned⟩ := downed_of_some hk hget hactive hdown
    obtain ⟨cs, hcs, hcs'⟩ := hdowned.booked
    refine ⟨hdowned.noNbrs, cs, hcs, fun _ => filter_subnet_eq_iff.mp ?_⟩
    rw [hcs, hcs', Option.map_some] at hkept
    exact Option.some.inj hkept
  | false =>
    obtain ⟨st', hreturns, -⟩ := h.up hactive
    have hup := (returns_ifaceUp_iff hk hget hfits _).mp hreturns
    obtain ⟨-, hupped⟩ := upped_of_some hk hget hactive hup
    obtain ⟨cs, hcs, -⟩ := hupped.booked
    exact ⟨hupped.noNbrs, cs, hcs, by simp [hactive]⟩

/-- An interface that has been taken down comes up again with one entry of its own. -/
theorem comesUp_of_downed (hdowned : Downed st interface k iface st')
    (hk : getIface st.ifList interface = some k) (hget : st.ifList[k]? = some iface)
    (hports : PortsKnown st.routes) {m' : Layout}
    (hfits' : m'.Fits st' { iface with isActive := false }) :
    ∃ st'', ComesUp m' st' interface k st'' ∧
      (booked st''.pwospf).map (List.count (iface.net.1, iface.net.2, 0)) = some 1 := by
  have hk' : getIface st'.ifList interface = some k := by
    rw [hdowned.ifList, getIface_setActive]
    exact hk
  have hget' : st'.ifList[k]? = some { iface with isActive := false } := by
    rw [hdowned.ifList]
    exact getElem?_setActive hget false
  have hports' : PortsKnown st'.routes := by
    obtain ⟨routes, hroutes, hknown⟩ := (hports.deactivateRoutes interface).trigger
    obtain rfl := Option.some.inj (hroutes.symm.trans hdowned.routes)
    exact hknown
  obtain ⟨cs, -, hbooked⟩ := hdowned.booked
  obtain ⟨st'', hup, hupped⟩ :=
    comesUp hk' hget' rfl hports' hfits' hdowned.noNbrs hbooked
  obtain ⟨cs', hcs', hafter⟩ : ∃ cs', booked st'.pwospf = some cs' ∧
      booked st''.pwospf = some (if (iface.net.1, iface.net.2, 0) ∈ cs' then cs'
        else cs' ++ [(iface.net.1, iface.net.2, 0)]) := hupped.booked
  obtain rfl := Option.some.inj (hbooked.symm.trans hcs')
  refine ⟨st'', hup, ?_⟩
  have hnot : (iface.net.1, iface.net.2, 0) ∉
      cs.filter fun c => c.1 != iface.ip &&& iface.mask := by
    simp [Iface.Entry.net]
  rw [hafter, if_neg hnot, Option.map_some, List.count_append, List.count_eq_zero.mpr hnot,
    List.count_singleton_self]

/-- Switching an interface completes just when it has no neighbours, we have an entry in the router
list, and, if it is taken down, no other mask is in use with its subnet there. -/
theorem completes_iff (hk : getIface st.ifList interface = some k)
    (hget : st.ifList[k]? = some iface) (hports : PortsKnown st.routes)
    (hfits : m.Fits st iface) :
    Completes m st interface k iface ↔ Switchable st iface := by
  constructor
  · exact fun h => h.switchable hk hget hfits
  · rintro ⟨hnbrs, cs, hcs, hmasks⟩
    refine ⟨fun hactive => ?_, fun hactive => ?_⟩
    · obtain ⟨⟨st', r⟩, hdown⟩ := ifaceDown_returns hk hget hports hnbrs hcs
      obtain ⟨rfl, hdowned⟩ := downed_of_some hk hget hactive hdown
      obtain ⟨cs₁, hcs₁, hbooked⟩ := hdowned.booked
      obtain rfl := Option.some.inj (hcs.symm.trans hcs₁)
      refine ⟨st', (returns_ifaceDown_iff hk hget hfits _).mpr hdown,
        nbrsOf_setActive hget hnbrs hdowned.ifList, ?_,
        fun m' hfits' => comesUp_of_downed hdowned hk hget hports hfits'⟩
      rw [hbooked, hcs, Option.map_some]
      exact congrArg some (filter_subnet_eq_iff.mpr (hmasks hactive))
    · obtain ⟨st', hup, -⟩ := comesUp hk hget hactive hports hfits hnbrs hcs
      exact ⟨st', hup⟩

end

/-- An active interface eth0 with 10.0.0.1/8. -/
def ethTen (nbrRouters : List Iface.NbrRouter) : Iface.Entry :=
  ⟨"eth0", 0x0100000a, 0x000000ff, true, nbrRouters, false, Iface.eth0_lt⟩

/-- A router with that interface, without routes, and with these interfaces in its own entry. -/
def ethTenState (nbrRouters : List Iface.NbrRouter) (interfaceList : List PwospfInterface) :
    State :=
  ⟨[ethTen nbrRouters], ⟨[], false, []⟩, ⟨1, 0, false, [⟨1, 0, 0, interfaceList⟩]⟩⟩

/-- 10.0.0.0/8 without a neighbour. -/
def wideTen : PwospfInterface := ⟨0x0000000a, 0x000000ff, 0, false⟩

/-- 10.0.0.0/16 without a neighbour. -/
def narrowTen : PwospfInterface := ⟨0x0000000a, 0x0000ffff, 0, false⟩

theorem fits_ethTen {nbrs : List Addr} {nbrRouters : List Iface.NbrRouter} {entries : List Addr}
    {interfaceList : List PwospfInterface} {new : Addr} (hnbrs : nbrs.Nodup)
    (hnbrs_length : nbrs.length = nbrRouters.length) (hentries : entries.Nodup)
    (hentries_length : entries.length = interfaceList.length) (hnew : new ∉ entries) :
    Layout.Fits ⟨nbrs, entries, new⟩ (ethTenState nbrRouters interfaceList)
      (ethTen nbrRouters) := by
  refine ⟨hnbrs, hnbrs_length, hentries, fun es hes => ?_, hnew⟩
  have hours : ourInterfaces (ethTenState nbrRouters interfaceList).pwospf = some interfaceList :=
    rfl
  obtain rfl := Option.some.inj (hours.symm.trans hes)
  exact hentries_length

theorem completes_iff_alone :
    Completes ⟨[], [10, 20], 30⟩ (ethTenState [] [wideTen, ⟨0x0b, 0xff, 2, true⟩]) "eth0" 0
        (ethTen []) ↔
      Switchable (ethTenState [] [wideTen, ⟨0x0b, 0xff, 2, true⟩]) (ethTen []) :=
  completes_iff (by decide) rfl (fun hnet => absurd hnet (by decide))
    (fits_ethTen (by decide) rfl (by decide) rfl (by decide))

/-- With one neighbour the loop follows the node that it has freed. With an entry for a smaller
network of the same address, that one is removed too. -/
theorem iface_down_fails :
    (∀ fuel, ifaceDown ⟨[5], [10], 30⟩ (fuel + 2) (ethTenState [⟨2, 0x0200000a, 0⟩] [wideTen])
      "eth0" = .error .badPointer) ∧
    ¬ Completes ⟨[5], [10], 30⟩ (ethTenState [⟨2, 0x0200000a, 0⟩] [wideTen]) "eth0" 0
      (ethTen [⟨2, 0x0200000a, 0⟩]) ∧
    ¬ Completes ⟨[], [10, 20], 30⟩ (ethTenState [] [wideTen, narrowTen]) "eth0" 0 (ethTen []) := by
  have hfault (fuel : Nat) : ifaceDown ⟨[5], [10], 30⟩ (fuel + 2)
      (ethTenState [⟨2, 0x0200000a, 0⟩] [wideTen]) "eth0" = .error .badPointer := rfl
  refine ⟨hfault, fun h => ?_, fun h => ?_⟩
  · obtain ⟨st', ⟨enough, hreturns⟩, -⟩ := h.down rfl
    have hrun := hreturns (enough + 2) (Nat.le_add_right _ _)
    cases (hfault enough).symm.trans hrun
  · obtain ⟨st', hreturns, -, hkept, -⟩ := h.down rfl
    have hfits := @fits_ethTen [] [] [10, 20] [wideTen, narrowTen] 30 (by decide) rfl (by decide)
      rfl (by decide)
    have hk : getIface (ethTenState [] [wideTen, narrowTen]).ifList "eth0" = some 0 := by decide
    have hdown := (returns_ifaceDown_iff hk rfl hfits _).mp hreturns
    have hlost : (IfaceRoutes.ifaceDown (ethTenState [] [wideTen, narrowTen]) "eth0").map
        (fun r => booked r.1.pwospf) = some (some []) := by decide +kernel
    rw [hdown] at hlost
    exact absurd (hkept.symm.trans (Option.some.inj hlost)) (by decide)

end Osnt.Scone.IfaceNodes
