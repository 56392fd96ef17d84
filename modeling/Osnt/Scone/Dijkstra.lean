import Osnt.Scone.Pwospf

/-! `or_dijkstra.c` of the SCONE router: the dynamic routes from the router list.

Routers are structures in memory: `prev_router` is the address of one, which may have been freed
since. A `NULL` or a freed pointer that is followed, a loop that does not end and a failed `assert`
give `none`. Addresses are in network order throughout. -/
namespace Osnt.Scone.Dijkstra
open Pwospf (PwospfInterface)

/-- `pwospf_router` as far as the routes depend on it, at its address. -/
structure Router where
  addr : Nat
  routerId : BitVec 32
  interfaceList : List PwospfInterface
  distance : Nat
  shortestPathFound : Bool
  prevRouter : Option Nat
deriving DecidableEq, Repr

structure NbrRouter where
  routerId : BitVec 32
  ip : BitVec 32
deriving DecidableEq, Repr

structure IfaceEntry where
  name : String
  ip : BitVec 32
  mask : BitVec 32
  nbrRouters : List NbrRouter
deriving DecidableEq, Repr

structure RtableEntry where
  ip : BitVec 32
  gw : BitVec 32
  mask : BitVec 32
  iface : String
  isStatic : Bool
  isActive : Bool
deriving DecidableEq, Repr

/-- The distance of a router that has not been reached. -/
def maxDistance : Nat := 0xFFFFFFFF

def getRouterByRid (rid : BitVec 32) (routers : List Router) : Option Router :=
  routers.find? fun r => r.routerId == rid

/-- The router that a pointer points to, if it is still there. -/
def getRouterAt (addr : Nat) (routers : List Router) : Option Router :=
  routers.find? fun r => r.addr == addr

/-- A write through a pointer. -/
def setAt (addr : Nat) (f : Router → Router) (routers : List Router) : List Router :=
  routers.map fun r => if r.addr = addr then f r else r

/-- The start: we are at distance 0, and all the others are not reached. A router without an id is
left as it is. -/
def reset (ourRouterId : BitVec 32) (r : Router) : Router :=
  if r.routerId = ourRouterId then { r with distance := 0, shortestPathFound := true }
  else if r.routerId ≠ 0 then { r with distance := maxDistance, shortestPathFound := false }
  else r

/-- The loop of `get_shortest`: the best router so far, and its distance. -/
def nearer (best : Option Router × Nat) (r : Router) : Option Router × Nat :=
  if r.shortestPathFound = false ∧ r.distance < best.2 then (some r, r.distance) else best

def getShortest (routers : List Router) : Option Router :=
  (routers.foldl nearer (none, maxDistance)).1

/-- One interface of `w` in `update_neighbor_distance`. -/
def updateNeighbor (w : Router) (routers : List Router) (i : PwospfInterface) : List Router :=
  if i.routerId ≠ 0 ∧ i.isActive = true then
    match getRouterByRid i.routerId routers with
    | some v =>
      if v.shortestPathFound = false ∧ (w.distance + 1) % 2 ^ 32 < v.distance then
        setAt v.addr
          (fun v => { v with
            distance := (w.distance + 1) % 2 ^ 32
            prevRouter := some w.addr })
          routers
      else routers
    | none => routers
  else routers

def updateNeighborDistance (w : Router) (routers : List Router) : List Router :=
  w.interfaceList.foldl (updateNeighbor w) routers

/-- One turn of the loop of `compute_rtable`. -/
def settle (w : Router) (routers : List Router) : List Router :=
  updateNeighborDistance w (setAt w.addr (fun r => { r with shortestPathFound := true }) routers)

/-- The loop of `compute_rtable`, for at most so many turns. -/
def settleAll : Nat → Router → List Router → Option (List Router)
  | 0, _, _ => none
  | fuel + 1, w, routers =>
    match getShortest (settle w routers) with
    | some next => settleAll fuel next (settle w routers)
    | none => some (settle w routers)

/-- The first part of `compute_rtable`. A turn settles one router, so that there are no more turns
than routers. -/
def computeDistances (ourRouterId : BitVec 32) (routers : List Router) : Option (List Router) :=
  let routers := routers.map (reset ourRouterId)
  match getRouterByRid ourRouterId routers with
  | some w => settleAll (routers.length + 1) w routers
  | none => some routers

/-- The walk along `prev_router` until the next router is the source. A walk that takes more turns
than there are routers goes round in circles. -/
def walkBack (routers : List Router) : Nat → Router → Option (BitVec 32)
  | 0, _ => none
  | fuel + 1, cur => do
    let addr ← cur.prevRouter
    let prev ← getRouterAt addr routers
    if prev.distance = 0 then return cur.routerId else walkBack routers fuel prev

/-- `next_rid` of a route over the interface `i` of `r`. -/
def nextRid (routers : List Router) (r : Router) (i : PwospfInterface) : Option (BitVec 32) :=
  match r.prevRouter with
  | none => some i.routerId
  | some _ => walkBack routers routers.length r

/-- `route_wrapper`; the distance has 16 bits. -/
structure RouteWrapper where
  ip : BitVec 32
  mask : BitVec 32
  distance : Nat
  nextRid : BitVec 32
  directlyConnected : Bool
deriving DecidableEq, Repr

/-- The wrapper is for the subnet of the interface: `get_route_wrapper`. -/
def RouteWrapper.isFor (i : PwospfInterface) (wrapper : RouteWrapper) : Bool :=
  wrapper.ip == (i.subnet &&& i.mask) && wrapper.mask == i.mask

/-- The first wrapper for the subnet is replaced. -/
def replaceWrapper (i : PwospfInterface) (f : RouteWrapper → RouteWrapper) :
    List RouteWrapper → List RouteWrapper
  | [] => []
  | wrapper :: head =>
    if wrapper.isFor i then f wrapper :: head else wrapper :: replaceWrapper i f head

/-- One interface of `add_route_wrappers`. -/
def addRouteWrapper (ourRid : BitVec 32) (routers : List Router) (r : Router)
    (head : List RouteWrapper) (i : PwospfInterface) : Option (List RouteWrapper) :=
  match head.find? (RouteWrapper.isFor i) with
  | some wrapper =>
    if wrapper.distance ≤ r.distance then some head
    else do
      let next ← nextRid routers r i
      return replaceWrapper i
        (fun wrapper => { wrapper with
          distance := r.distance % 2 ^ 16
          nextRid := next
          directlyConnected := wrapper.directlyConnected || ourRid == r.routerId })
        head
  | none => do
    let next ← nextRid routers r i
    return head ++ [⟨i.subnet &&& i.mask, i.mask, r.distance % 2 ^ 16, next, ourRid == r.routerId⟩]

def addRouteWrappers (ourRid : BitVec 32) (routers : List Router) (head : List RouteWrapper)
    (r : Router) : Option (List RouteWrapper) :=
  r.interfaceList.foldlM (addRouteWrapper ourRid routers r) head

def buildRouteWrapperList (ourRid : BitVec 32) (routers : List Router) :
    Option (List RouteWrapper) :=
  routers.foldlM (addRouteWrappers ourRid routers) []

def getNbrByRid (iface : IfaceEntry) (rid : BitVec 32) : Option NbrRouter :=
  iface.nbrRouters.find? fun nbr => nbr.routerId == rid

def getIfaceByRid (rid : BitVec 32) (ifList : List IfaceEntry) : Option IfaceEntry :=
  if rid = 0 then none
  else ifList.find? fun i => i.nbrRouters.any fun nbr => nbr.routerId == rid

def getIfaceBySubnetMask (subnet mask : BitVec 32) (ifList : List IfaceEntry) :
    Option IfaceEntry :=
  ifList.find? fun i => i.ip &&& i.mask == subnet && i.mask == mask

/-- The route of a wrapper, if an interface is found for it. -/
def unwrap (ifList : List IfaceEntry) (wrapper : RouteWrapper) : Option (Option RtableEntry) :=
  match (getIfaceByRid wrapper.nextRid ifList).or
      (getIfaceBySubnetMask wrapper.ip wrapper.mask ifList) with
  | none => some none
  | some iface =>
    if wrapper.directlyConnected then
      some (some ⟨wrapper.ip, 0, wrapper.mask, iface.name, false, true⟩)
    else do
      let nbr ← getNbrByRid iface wrapper.nextRid
      return some ⟨wrapper.ip, nbr.ip, wrapper.mask, iface.name, false, true⟩

def unwrapAll (ifList : List IfaceEntry) : List RouteWrapper → Option (List RtableEntry)
  | [] => some []
  | wrapper :: wrappers => do
    let entry ← unwrap ifList wrapper
    let entries ← unwrapAll ifList wrappers
    return entry.toList ++ entries

/-- `compute_rtable`: the routes, and the router list as it is left. -/
def computeRtable (ourRouterId : BitVec 32) (routers : List Router) (ifList : List IfaceEntry) :
    Option (List RtableEntry × List Router) := do
  let routers ← computeDistances ourRouterId routers
  let wrappers ← buildRouteWrapperList ourRouterId routers
  let entries ← unwrapAll ifList wrappers
  return (entries, routers)

end Osnt.Scone.Dijkstra
