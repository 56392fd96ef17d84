import Osnt.Lib.Linked
import Osnt.Scone.IfaceRoutes

/-! `iface_up` and `iface_down` of `or_iface.c` once more, now with the nodes of the lists that they
change: the neighbours of the interface, and the interfaces of our own entry of the router list.
The other lists are as in `Osnt.Scone.IfaceRoutes`. -/
namespace Osnt.Scone.IfaceNodes
open Lib.Linked
open Pwospf (PwospfInterface getRouterByRid propagatePwospfChanges)
open Iface (getIface)
open IfaceRoutes (State trigger activateRoutes deactivateRoutes isRoutePresent)

/-- Why a call does not return. -/
inductive Halt
  /-- A pointer that is `NULL` or has been freed is followed. -/
  | badPointer
  /-- An `assert` fails. -/
  | assertion
  /-- The fuel is used up. -/
  | running
deriving DecidableEq, Repr

def orHalt {α : Type} (halt : Halt) : Option α → Except Halt α
  | some x => .ok x
  | none => .error halt

section
variable {α : Type}

/-- The node `a` points to. -/
def deref (memory : Memory α) (a : Addr) : Except Halt (Node α) := orHalt .badPointer (memory a)

/-- `node_remove`. -/
def nodeRemove (l : NodeList α) (n : Addr) : Except Halt (NodeList α) := do
  let node ← deref l.memory n
  match node.prev, node.next with
  | none, none => return ⟨free l.memory n, none⟩
  | none, some next =>
    let second ← deref l.memory next
    return ⟨free (store l.memory next { second with prev := none }) n, some next⟩
  | some prev, none =>
    let before ← deref l.memory prev
    return ⟨free (store l.memory prev { before with next := none }) n, l.head⟩
  | some prev, some next =>
    let before ← deref l.memory prev
    let memory := store l.memory prev { before with next := some next }
    let after ← deref memory next
    return ⟨free (store memory next { after with prev := some prev }) n, l.head⟩

/-- The loop of `node_push_back`. -/
def lastNode (memory : Memory α) : Nat → Addr → Except Halt Addr
  | 0, _ => .error .running
  | fuel + 1, cur => do
    let node ← deref memory cur
    match node.next with
    | none => return cur
    | some next => lastNode memory fuel next

/-- `node_push_back`. -/
def nodePushBack (fuel : Nat) (memory : Memory α) (head n : Addr) : Except Halt (Memory α) := do
  let cur ← lastNode memory fuel head
  let node ← deref memory cur
  let memory := store memory cur { node with next := some n }
  let new ← deref memory n
  return store memory n { new with prev := some cur }

/-- All that a walk over the list reads. -/
def readList (fuel : Nat) (l : NodeList α) : Except Halt (List α) :=
  orHalt .badPointer (readFrom l.memory fuel l.head)

/-- The loop that is to clear the neighbours: `cur` stays the node that it was at the start. -/
def removeCur : Nat → NodeList α → Addr → Except Halt (NodeList α)
  | 0, _, _ => .error .running
  | fuel + 1, l, cur => do
    let l ← nodeRemove l cur
    removeCur fuel l cur

def clearNodes (fuel : Nat) (l : NodeList α) : Except Halt (NodeList α) :=
  match l.head with
  | none => .ok l
  | some cur => removeCur fuel l cur

/-- The loop over the interfaces of our own entry, and whether it has removed one. -/
def removeWhere (p : α → Bool) : Nat → NodeList α → Option Addr → Except Halt (NodeList α × Bool)
  | _, l, none => .ok (l, false)
  | 0, _, some _ => .error .running
  | fuel + 1, l, some cur => do
    let node ← deref l.memory cur
    if p node.data then
      let l ← nodeRemove l cur
      let (l, _) ← removeWhere p fuel l node.next
      return (l, true)
    else removeWhere p fuel l node.next

/-- A new node at `n` for a list that may be empty. -/
def pushNew (fuel : Nat) (l : NodeList α) (n : Addr) (data : α) : Except Halt (NodeList α) :=
  let memory := store l.memory n ⟨data, none, none⟩
  match l.head with
  | none => .ok ⟨memory, some n⟩
  | some head => do
    let memory ← nodePushBack fuel memory head n
    return ⟨memory, some head⟩

end

/-- Where the nodes are: of the neighbours, of the interfaces of our own entry, and of the one that
may be allocated. -/
structure Layout where
  nbrRouters : List Addr
  interfaceList : List Addr
  new : Addr

def setIface (ifList : List Iface.Entry) (k : Nat) (isActive : Bool)
    (nbrRouters : List Iface.NbrRouter) : List Iface.Entry :=
  ifList.modify k fun i => { i with isActive, nbrRouters }

/-- `iface_up`, and what it returns. -/
def ifaceUp (m : Layout) (fuel : Nat) (st : State) (interface : String) :
    Except Halt (State × Nat) :=
  match getIface st.ifList interface with
  | none => .ok (st, 1)
  | some k => do
    let iface ← orHalt .badPointer st.ifList[k]?
    if iface.isActive then return (st, 0)
    let routes ← orHalt .assertion (trigger st.routes (activateRoutes interface st.routes.rtable))
    let nbrs ← clearNodes fuel (layOut (m.nbrRouters.zip iface.nbrRouters))
    let nbrRouters ← readList fuel nbrs
    let ourRouter ←
      orHalt .badPointer (getRouterByRid st.pwospf.routerId st.pwospf.pwospfRouterList)
    let pi : PwospfInterface := ⟨iface.ip &&& iface.mask, iface.mask, 0, false⟩
    let nodes := layOut (m.interfaceList.zip ourRouter.interfaceList)
    let nodes ←
      if isRoutePresent ourRouter.interfaceList pi then pure nodes
      else pushNew fuel nodes m.new pi
    let interfaceList ← readList fuel nodes
    let pwospf := st.pwospf.setOurs fun r => { r with interfaceList }
    -- our entry is there, so that no assertion of the flood fails
    return (⟨setIface st.ifList k true nbrRouters, routes, (propagatePwospfChanges pwospf).1⟩, 0)

/-- `iface_down`, and what it returns. -/
def ifaceDown (m : Layout) (fuel : Nat) (st : State) (interface : String) :
    Except Halt (State × Nat) :=
  match getIface st.ifList interface with
  | none => .ok (st, 1)
  | some k => do
    let iface ← orHalt .badPointer st.ifList[k]?
    if iface.isActive = false then return (st, 0)
    let routes ← orHalt .assertion (trigger st.routes (deactivateRoutes interface st.routes.rtable))
    let nbrs ← clearNodes fuel (layOut (m.nbrRouters.zip iface.nbrRouters))
    let nbrRouters ← readList fuel nbrs
    let ourRouter ←
      orHalt .badPointer (getRouterByRid st.pwospf.routerId st.pwospf.pwospfRouterList)
    let nodes := layOut (m.interfaceList.zip ourRouter.interfaceList)
    let (nodes, ifaceRemoved) ←
      removeWhere (fun pi => pi.subnet == iface.ip &&& iface.mask) fuel nodes nodes.head
    let interfaceList ← readList fuel nodes
    let pwospf := st.pwospf.setOurs fun r => { r with interfaceList }
    let pwospf := if ifaceRemoved then (propagatePwospfChanges pwospf).1 else pwospf
    return (⟨setIface st.ifList k false nbrRouters, routes, pwospf⟩, 0)

end Osnt.Scone.IfaceNodes
