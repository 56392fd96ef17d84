import Osnt.Scone.Pwospf
import Osnt.Scone.Iface

/-! The neighbours of the SCONE router: `or_pwospf.c` learns of them from HELLO packets and forgets
those it has not heard of for too long. They are booked twice, with the interface behind which they
are and, for the LSUs, in our own entry of the router list.

A failed `assert`, a `NULL` pointer that is followed and an access beyond the end of a packet give
`none`. -/
namespace Osnt.Scone.Hello
open Lib Lib.Buffer Pwospf Iface

structure State where
  pwospf : Pwospf.RouterState
  pwospfHelloInterval : BitVec 16
  ifList : List Iface.Entry

def State.setNbrRouters (st : State) (k : Nat) (nbrRouters : List NbrRouter) : State :=
  { st with ifList := st.ifList.modify k fun i => { i with nbrRouters } }

/-- `init_router_list`: our own entry, with what is directly connected to us. -/
def initRouterList (routerId areaId : BitVec 32) (pwospfLsuBroadcast : Bool)
    (ifList : List Iface.Entry) : Pwospf.RouterState :=
  ⟨routerId, areaId, pwospfLsuBroadcast,
    [⟨routerId, areaId, 0, ifList.map fun i => ⟨i.ip &&& i.mask, i.mask, 0, false⟩⟩]⟩

/-- What the handler reads of a packet. -/
structure HelloPacket where
  ipSrc : BitVec 32
  rid : BitVec 32
  mask : BitVec 32
  hint : BitVec 16

def readHello (packet : Bytes) : Option HelloPacket := do
  let ipSrc ← load32 packet 26
  let rid ← load32 packet 38
  let mask ← load32 packet 58
  let hint ← load16 packet 62
  return ⟨ipSrc, rid, mask, swap16 hint⟩

def isOn (net : BitVec 32 × BitVec 32) (i : PwospfInterface) : Bool :=
  i.subnet == net.1 && i.mask == net.2

/-- An interface of our own entry without a neighbour. -/
def isBlank (net : BitVec 32 × BitVec 32) (i : PwospfInterface) : Bool :=
  isOn net i && i.routerId == 0

/-- A new neighbour goes to an interface without one, else to a new interface. -/
def bookIn (pwospf : Pwospf.RouterState) (net : BitVec 32 × BitVec 32) (rid : BitVec 32) :
    Option Pwospf.RouterState := do
  let r ← getRouterByRid pwospf.routerId pwospf.pwospfRouterList
  if r.interfaceList.any (isBlank net) then
    return pwospf.setOurs fun r => { r with
      interfaceList := modifyFirst (isBlank net) (fun i => { i with routerId := rid })
        r.interfaceList }
  else
    -- `assert(r->interface_list)`
    if r.interfaceList = [] then none
    return pwospf.setOurs fun r => { r with
      interfaceList := r.interfaceList ++ [⟨net.1, net.2, rid, false⟩] }

def isSender (hello : HelloPacket) (nbr : NbrRouter) : Bool :=
  nbr.ip == hello.ipSrc && nbr.routerId == hello.rid

/-- The time of the last neighbour that the search has found. -/
def setLastRcvdHello (hello : HelloPacket) (now : Int) (nbrs : List NbrRouter) : List NbrRouter :=
  (modifyFirst (isSender hello) (fun nbr => { nbr with lastRcvdHello := now })
    nbrs.reverse).reverse

def processPwospfHelloPacket (st : State) (packet : Bytes) (interface : String) (now : Int) :
    Option State := do
  let hello ← readHello packet
  if st.pwospfHelloInterval ≠ hello.hint then return st
  let k ← getIface st.ifList interface
  let iface ← st.ifList[k]?
  if iface.mask ≠ hello.mask then return st
  if iface.nbrRouters.any (isSender hello) then
    return st.setNbrRouters k (setLastRcvdHello hello now iface.nbrRouters)
  else
    let pwospf ← bookIn st.pwospf iface.net hello.rid
    let pwospf ← propagated pwospf
    return { st.setNbrRouters k (iface.nbrRouters ++ [⟨hello.rid, hello.ipSrc, now⟩]) with pwospf }

/-- The entry of a neighbour that has timed out: the only one of the subnet is made blank, else the
first one with the id of the neighbour is removed. -/
def bookOut (pwospf : Pwospf.RouterState) (net : BitVec 32 × BitVec 32) (rid : BitVec 32) :
    Option Pwospf.RouterState := do
  let r ← getRouterByRid pwospf.routerId pwospf.pwospfRouterList
  let count := r.interfaceList.countP (isOn net)
  -- `assert(count > 0)`
  if count = 0 then none
  if count = 1 then
    return pwospf.setOurs fun r => { r with
      interfaceList := modifyFirst (isOn net) (fun i => { i with routerId := 0 })
        r.interfaceList }
  else
    return pwospf.setOurs fun r => { r with
      interfaceList := r.interfaceList.eraseP fun i => isOn net i && rid == i.routerId }

/-- The loop of `determine_timedout_interface` over the neighbours from `cur` on, after `n` calls
of `time`; the neighbours that stay, the router list and whether one has timed out. -/
def timeoutLoop (limit : Int) (net : BitVec 32 × BitVec 32) (time : Nat → Int) :
    Nat → List NbrRouter → Pwospf.RouterState →
      Option (List NbrRouter × Pwospf.RouterState × Bool)
  | _, [], pwospf => some ([], pwospf, false)
  | n, nbr :: cur, pwospf =>
    if limit < time n - nbr.lastRcvdHello then do
      let pwospf ← bookOut pwospf net nbr.routerId
      let (kept, pwospf, _) ← timeoutLoop limit net time (n + 1) cur pwospf
      return (kept, pwospf, true)
    else do
      let (kept, pwospf, timedOut) ← timeoutLoop limit net time (n + 1) cur pwospf
      return (nbr :: kept, pwospf, timedOut)

/-- `determine_timedout_interface` for the `k`-th interface. -/
def determineTimedoutInterface (st : State) (k : Nat) (time : Nat → Int) :
    Option (State × Bool) := do
  let iface ← st.ifList[k]?
  let (kept, pwospf, timedOut) ← timeoutLoop (3 * st.pwospfHelloInterval.toNat) iface.net time 0
    iface.nbrRouters st.pwospf
  return ({ st.setNbrRouters k kept with pwospf }, timedOut)

inductive Event
  | hello (packet : Bytes) (interface : String) (now : Int)
  | timeout (k : Nat) (time : Nat → Int)
  /-- What the senders of HELLO packets do after a timeout. -/
  | propagate

def step (st : State) : Event → Option State
  | .hello packet interface now => processPwospfHelloPacket st packet interface now
  | .timeout k time => (determineTimedoutInterface st k time).map Prod.fst
  | .propagate => (propagated st.pwospf).map fun pwospf => { st with pwospf }

def run : State → List Event → Option State
  | st, [] => some st
  | st, e :: events => do
    let st ← step st e
    run st events

end Osnt.Scone.Hello
