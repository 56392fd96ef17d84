import Osnt.Scone.Iface
import Osnt.Scone.Rtable
import Osnt.Scone.Pwospf

/-! `iface_up` and `iface_down` of `or_iface.c`, with the routes of `or_rtable.c` that they switch
on and off.

A failed `assert` and a pointer that is `NULL` or has been freed when it is followed give
`none`. -/
namespace Osnt.Scone.IfaceRoutes
open Pwospf (PwospfInterface getRouterByRid propagatePwospfChanges)
open Iface (getIface strncmpEq)

structure State where
  ifList : List Iface.Entry
  routes : Rtable.RouterState
  pwospf : Pwospf.RouterState

/-- `trigger_rtable_modified`, with as many passes as the sort can take. -/
def trigger (routes : Rtable.RouterState) (rtable : List Rtable.Entry) :
    Option Rtable.RouterState :=
  Rtable.triggerRtableModified (rtable.length * rtable.length + 1) { routes with rtable }

/-- `add_route`: a static route, which is active. -/
def addRoute (st : State) (dest gateway mask : BitVec 32) (interface : String)
    (h : interface.length < 32) : Option State := do
  let routes ← trigger st.routes
    (st.routes.rtable ++ [⟨dest, gateway, mask, interface, true, true, h⟩])
  return { st with routes }

/-- `del_route`, and the number of routes deleted. -/
def delRoute (st : State) (dest mask : BitVec 32) : Option (State × Nat) := do
  let kept := st.routes.rtable.filter fun e => !(dest == e.ip && mask == e.mask)
  let routes ← trigger st.routes kept
  return ({ st with routes }, st.routes.rtable.length - kept.length)

/-- The comparison of a route with an interface, as far as the name of the interface goes. -/
def isMatched (interface : String) (e : Rtable.Entry) : Bool :=
  strncmpEq e.iface interface interface.length

/-- The loop of `deactivate_routes`: static routes are switched off, the others removed. -/
def deactivateRoutes (interface : String) (rtable : List Rtable.Entry) : List Rtable.Entry :=
  rtable.filterMap fun e =>
    if isMatched interface e then
      if e.isStatic then some { e with isActive := false } else none
    else some e

/-- The loop of `activate_routes`. -/
def activateRoutes (interface : String) (rtable : List Rtable.Entry) : List Rtable.Entry :=
  rtable.map fun e => if isMatched interface e then { e with isActive := true } else e

/-- `is_route_present`. -/
def isRoutePresent (interfaces : List PwospfInterface) (iface : PwospfInterface) : Bool :=
  interfaces.any fun i =>
    i.subnet == iface.subnet && i.mask == iface.mask && i.routerId == iface.routerId

def setActive (ifList : List Iface.Entry) (k : Nat) (isActive : Bool) : List Iface.Entry :=
  ifList.modify k fun i => { i with isActive }

/-- `iface_up`, and what it returns. -/
def ifaceUp (st : State) (interface : String) : Option (State × Nat) :=
  match getIface st.ifList interface with
  | none => some (st, 1)
  | some k => do
    let iface ← st.ifList[k]?
    if iface.isActive then return (st, 0)
    let routes ← trigger st.routes (activateRoutes interface st.routes.rtable)
    -- the loop over the neighbours frees a node and uses it again
    if iface.nbrRouters ≠ [] then none
    let ourRouter ← getRouterByRid st.pwospf.routerId st.pwospf.pwospfRouterList
    let pi : PwospfInterface := ⟨iface.ip &&& iface.mask, iface.mask, 0, false⟩
    let pwospf :=
      if isRoutePresent ourRouter.interfaceList pi then st.pwospf
      else st.pwospf.setOurs fun r => { r with interfaceList := r.interfaceList ++ [pi] }
    -- our entry is there, so that no assertion of the flood fails
    return (⟨setActive st.ifList k true, routes, (propagatePwospfChanges pwospf).1⟩, 0)

/-- `iface_down`, and what it returns. -/
def ifaceDown (st : State) (interface : String) : Option (State × Nat) :=
  match getIface st.ifList interface with
  | none => some (st, 1)
  | some k => do
    let iface ← st.ifList[k]?
    if iface.isActive = false then return (st, 0)
    let routes ← trigger st.routes (deactivateRoutes interface st.routes.rtable)
    if iface.nbrRouters ≠ [] then none
    let ourRouter ← getRouterByRid st.pwospf.routerId st.pwospf.pwospfRouterList
    let kept := ourRouter.interfaceList.filter fun pi => pi.subnet != (iface.ip &&& iface.mask)
    let pwospf := st.pwospf.setOurs fun r => { r with interfaceList := kept }
    let pwospf :=
      if kept.length < ourRouter.interfaceList.length then (propagatePwospfChanges pwospf).1
      else pwospf
    return (⟨setActive st.ifList k false, routes, pwospf⟩, 0)

inductive Op
  | addRoute (dest gateway mask : BitVec 32) (interface : String) (h : interface.length < 32)
  | delRoute (dest mask : BitVec 32)
  | ifaceUp (interface : String)
  | ifaceDown (interface : String)

def step (st : State) : Op → Option State
  | .addRoute dest gateway mask interface h => addRoute st dest gateway mask interface h
  | .delRoute dest mask => (delRoute st dest mask).map Prod.fst
  | .ifaceUp interface => (ifaceUp st interface).map Prod.fst
  | .ifaceDown interface => (ifaceDown st interface).map Prod.fst

def run : State → List Op → Option State
  | st, [] => some st
  | st, op :: ops => do
    let st ← step st op
    run st ops

end Osnt.Scone.IfaceRoutes
