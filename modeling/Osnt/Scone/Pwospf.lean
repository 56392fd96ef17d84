import Osnt.Lib.Buffer

/-! `or_pwospf.c` of the SCONE router: link state updates (LSUs) are built, checked, taken into the
router list and passed on.

Packets are buffers with checked accesses, so that `none` is an access beyond the end of a buffer.
The host is little-endian. Times are left out; the interface list and the handler of HELLO packets
are in `Osnt.Scone.Hello`. -/
namespace Osnt.Scone.Pwospf
open Lib Lib.Buffer

structure PwospfInterface where
  subnet : BitVec 32
  mask : BitVec 32
  routerId : BitVec 32
  isActive : Bool
deriving DecidableEq, Repr

structure PwospfRouter where
  routerId : BitVec 32
  areaId : BitVec 32
  seq : BitVec 16
  interfaceList : List PwospfInterface
deriving DecidableEq, Repr

structure RouterState where
  routerId : BitVec 32
  areaId : BitVec 32
  pwospfLsuBroadcast : Bool
  pwospfRouterList : List PwospfRouter
deriving DecidableEq, Repr

def pwospfVersion : BitVec 8 := 2

def pwospfTypeLinkStateUpdate : BitVec 8 := 4

def getRouterByRid (rid : BitVec 32) (routers : List PwospfRouter) : Option PwospfRouter :=
  routers.find? fun r => r.routerId == rid

/-- An update of the router that `get_router_by_rid` finds. -/
def setRouter (rid : BitVec 32) (f : PwospfRouter → PwospfRouter) :
    List PwospfRouter → List PwospfRouter
  | [] => []
  | r :: rs => if r.routerId == rid then f r :: rs else r :: setRouter rid f rs

/-- An update of our own entry. -/
def RouterState.setOurs (rs : RouterState) (f : PwospfRouter → PwospfRouter) : RouterState :=
  { rs with pwospfRouterList := setRouter rs.routerId f rs.pwospfRouterList }

/-- The loop over the claimed number of halfwords; the authentication fields are skipped. -/
def sumShorts (b : Bytes) (pwospf : Nat) : Nat → Option Nat
  | 0 => some 0
  | n + 1 => do
    let sum ← sumShorts b pwospf n
    if n < 8 ∨ 11 < n then
      let short ← load16 b (pwospf + 2 * n)
      return sum + (swap16 short).toNat
    else return sum

/-- The carries are added twice, and the low half is complemented. -/
def complementSum (sum : Nat) : BitVec 16 :=
  let sum := sum / 2 ^ 16 + sum % 2 ^ 16
  let sum := sum + sum / 2 ^ 16
  ~~~(BitVec.ofNat 16 sum)

/-- `compute_pwospf_checksum` of the header at offset `pwospf`, whose checksum field it clears. -/
def computePwospfChecksum (b : Bytes) (pwospf : Nat) : Option (BitVec 16 × Bytes) := do
  let b ← store16 b (pwospf + 12) 0
  let len ← load16 b (pwospf + 2)
  let sum ← sumShorts b pwospf ((swap16 len).toNat / 2)
  return (complementSum sum, b)

/-- `is_pwospf_packet_valid`, and the packet with the checksum field as it is left. -/
def isPwospfPacketValid (rs : RouterState) (packet : Bytes) : Option (Bool × Bytes) := do
  let ver ← load8 packet 34
  if ver ≠ pwospfVersion then return (false, packet)
  let pcktSum ← load16 packet 46
  let (sum, packet) ← computePwospfChecksum packet 34
  if swap16 pcktSum ≠ sum then return (false, packet)
  let atype ← load16 packet 48
  if swap16 atype ≠ 0 then return (false, packet)
  let aid ← load32 packet 42
  if swap32 aid ≠ rs.areaId then return (false, packet)
  let rid ← load32 packet 38
  if swap32 rid = rs.routerId then return (false, packet)
  return (true, packet)

/-- `pwospf_lsu_adv`. -/
structure LsuAdv where
  sub : BitVec 32
  mask : BitVec 32
  rid : BitVec 32
deriving DecidableEq, Repr

def loadAdv (b : Bytes) (o : Nat) : Option LsuAdv := do
  let sub ← load32 b o
  let mask ← load32 b (o + 4)
  let rid ← load32 b (o + 8)
  return ⟨sub, mask, rid⟩

/-- The advertisements from offset `o` on, as many as the packet claims. -/
def loadAdvs (b : Bytes) (o : Nat) : Nat → Option (List LsuAdv)
  | 0 => some []
  | n + 1 => do
    let adv ← loadAdv b o
    let advs ← loadAdvs b (o + 12) n
    return adv :: advs

def PwospfInterface.matchesAdv (i : PwospfInterface) (adv : LsuAdv) : Bool :=
  i.subnet == (adv.sub &&& adv.mask) && i.mask == adv.mask && i.routerId == adv.rid

/-- An advertisement that is not in the list goes to its end, with the subnet as it came. -/
def addAdv (interfaces : List PwospfInterface) (adv : LsuAdv) : List PwospfInterface :=
  if interfaces.any (fun i => i.matchesAdv adv) then interfaces
  else interfaces ++ [⟨adv.sub &&& adv.sub, adv.mask, adv.rid, false⟩]

/-- `populate_pwospf_router_interface_list`. Both loops over a list that is not empty read every
byte of every advertisement, so that it makes no difference to read them first. -/
def populatePwospfRouterInterfaceList (interfaces : List PwospfInterface) (packet : Bytes) :
    Option (List PwospfInterface × Bool) := do
  let num ← load32 packet 62
  let advs ← loadAdvs packet 66 (swap32 num).toNat
  if interfaces.isEmpty then
    return (advs.map fun adv => ⟨adv.sub &&& adv.mask, adv.mask, adv.rid, false⟩, true)
  else
    let grown := advs.foldl addAdv interfaces
    let kept := grown.filter fun i => advs.any fun adv => i.matchesAdv adv
    return (kept, decide (interfaces.length < grown.length) || decide (kept.length < grown.length))

/-- `populate_pwospf`: the header as it lies in memory. -/
def populatePwospf (type : BitVec 8) (len : BitVec 16) (rid aid : BitVec 32) : Bytes :=
  [pwospfVersion, type] ++ bytes16 (swap16 len) ++ bytes32 rid ++ bytes32 (swap32 aid) ++
    bytes16 0 ++ bytes16 0 ++ bytes32 0 ++ bytes32 0

def populatePwospfLsu (seq : BitVec 16) (num : BitVec 32) : Bytes :=
  bytes16 (swap16 seq) ++ bytes16 (swap16 64) ++ bytes32 (swap32 num)

/-- `construct_pwospf_lsu_adv`, interface by interface. -/
def advBytes (i : PwospfInterface) : Bytes :=
  bytes32 i.subnet ++ bytes32 i.mask ++ bytes32 i.routerId

def constructPwospfLsuAdv (interfaces : List PwospfInterface) : Bytes := interfaces.flatMap advBytes

/-- The packet before the checksum is filled in. -/
def lsuBody (rs : RouterState) (seq : BitVec 16) (interfaces : List PwospfInterface) : Bytes :=
  populatePwospf pwospfTypeLinkStateUpdate (BitVec.ofNat 16 (32 + interfaces.length * 12))
      rs.routerId rs.areaId ++
    populatePwospfLsu seq (BitVec.ofNat 32 interfaces.length) ++ constructPwospfLsuAdv interfaces

/-- `pwospf->pwospf_sum = htons(compute_pwospf_checksum(pwospf))`. -/
def fillChecksum (b : Bytes) : Option Bytes := do
  let (sum, b) ← computePwospfChecksum b 0
  store16 b 12 (swap16 sum)

/-- `construct_pwospf_lsu_packet`; there is none if we are not in the router list. -/
def constructPwospfLsuPacket (rs : RouterState) : Option (Bytes × RouterState) := do
  let ourRouter ← getRouterByRid rs.routerId rs.pwospfRouterList
  let packet ← fillChecksum (lsuBody rs ourRouter.seq ourRouter.interfaceList)
  return (packet, rs.setOurs fun r => { r with seq := r.seq + 1 })

/-- The flag of the `j`-th interface of the `k`-th router. -/
def setActive (routers : List PwospfRouter) (k j : Nat) (active : Bool) : List PwospfRouter :=
  routers.modify k fun r =>
    { r with interfaceList := r.interfaceList.modify j fun i => { i with isActive := active } }

/-- One interface of `determine_active_interfaces`: it is active, and so is the other end, if the
router behind it has an interface in the same subnet. -/
def determineActiveInterface (k : Nat) (routers : List PwospfRouter) (j : Nat) :
    List PwospfRouter :=
  let cleared := setActive routers k j false
  match (cleared[k]?.bind fun r => r.interfaceList[j]?) with
  | none => cleared
  | some this =>
    match cleared.findIdx? (fun r => r.routerId == this.routerId) with
    | none => cleared
    | some a =>
      (List.range ((cleared[a]?.map fun r => r.interfaceList.length).getD 0)).foldl
        (fun routers q =>
          match (routers[a]?.bind fun r => r.interfaceList[q]?) with
          | none => routers
          | some other =>
            if this.subnet = other.subnet ∧ this.mask = other.mask ∧
                ¬(this.routerId = 0 ∨ other.routerId = 0) then
              setActive (setActive routers k j true) a q true
            else routers)
        cleared

def determineActiveInterfaces (routers : List PwospfRouter) (k : Nat) : List PwospfRouter :=
  (List.range ((routers[k]?.map fun r => r.interfaceList.length).getD 0)).foldl
    (determineActiveInterface k) routers

/-- An LSU of our own, if there is one. `aborts` is a failed `assert(our_router)`, which ends the
run. -/
inductive Flood
  | none
  | lsu (packet : Bytes)
  | aborts
deriving DecidableEq, Repr

/-- The packets handed to `broadcast_pwospf_lsu_packet`. -/
def Flood.packets : Flood → List Bytes
  | .lsu packet => [packet]
  | _ => []

/-- `start_lsu_bcast_flood`: our own LSU, if we are to send any. -/
def startLsuBcastFlood (rs : RouterState) : RouterState × Flood :=
  if rs.pwospfLsuBroadcast then
    match constructPwospfLsuPacket rs with
    | some (packet, rs) => (rs, .lsu packet)
    | none => (rs, .aborts)
  else (rs, .none)

def propagatePwospfChanges (rs : RouterState) : RouterState × Flood :=
  startLsuBcastFlood { rs with
    pwospfRouterList :=
      (List.range rs.pwospfRouterList.length).foldl determineActiveInterfaces rs.pwospfRouterList }

/-- The state behind `propagate_pwospf_changes`, if it returns. -/
def propagated (rs : RouterState) : Option RouterState :=
  match propagatePwospfChanges rs with
  | (_, .aborts) => none
  | (rs, _) => some rs

/-- `pwospf_lsu_timeout_thread`: the routers not heard of for too long are dropped, never ours. -/
def lsuTimeout (timedOut : BitVec 32 → Bool) (rs : RouterState) : RouterState × Flood :=
  let kept := rs.pwospfRouterList.filter fun r => r.routerId == rs.routerId || !timedOut r.routerId
  if kept.length < rs.pwospfRouterList.length then
    propagatePwospfChanges { rs with pwospfRouterList := kept }
  else (rs, .none)

/-- The router list after an LSU, whether the LSU is to be passed on and whether it has changed
anything. -/
def updateRouterList (routers : List PwospfRouter) (packet : Bytes) (rid : BitVec 32) :
    Option (List PwospfRouter × Bool × Bool) :=
  match getRouterByRid rid routers with
  | some router => do
    let seq ← load16 packet 58
    if router.seq ≠ swap16 seq ∧ router.seq < swap16 seq then
      let (interfaces, changed) ← populatePwospfRouterInterfaceList router.interfaceList packet
      let routers := setRouter rid
        (fun r => { r with seq := swap16 seq, interfaceList := interfaces }) routers
      return (routers, true, changed)
    else return (routers, false, false)
  -- `add_new_router_neighbor`
  | none => do
    let aid ← load32 packet 42
    let seq ← load16 packet 58
    let (interfaces, _) ← populatePwospfRouterInterfaceList [] packet
    return (routers ++ [⟨rid, swap32 aid, swap16 seq, interfaces⟩], true, true)

/-- What is handed to `broadcast_pwospf_lsu_packet`. `overrun` is a copy too short for the header
that is written into it. -/
inductive Forward
  | none
  | copy (b : Bytes)
  | overrun
deriving DecidableEq, Repr

/-- The new TTL and checksum of a copy. -/
def updateTtl (copy : Bytes) (ttl : BitVec 16) : Option Bytes := do
  let copy ← store16 copy 26 (swap16 ttl)
  fillChecksum copy

/-- The copy that is passed on: as many bytes as the packet claims. -/
def forwardCopy (packet : Bytes) (ttl : BitVec 16) : Option Forward := do
  let len ← load16 packet 36
  let copy ← slice packet 34 (swap16 len).toNat
  return match updateTtl copy ttl with
    | some copy => .copy copy
    | none => .overrun

/-- Only an LSU with a valid TTL is passed on. -/
def forwardLsu (packet : Bytes) (rebroadcast : Bool) : Option Forward := do
  let received ← load16 packet 60
  let ttl := swap16 received - 1
  if rebroadcast ∧ 0 < ttl then forwardCopy packet ttl else return .none

/-- The state behind a packet; whether the packet was taken in; what is passed on, and the LSU of
our own. -/
structure Outcome where
  rs : RouterState
  accepted : Bool
  forwarded : Forward
  flooded : Flood

def Outcome.dropped (rs : RouterState) : Outcome := ⟨rs, false, .none, .none⟩

def processPwospfLsuPacket (rs : RouterState) (packet : Bytes) : Option Outcome := do
  let rid ← load32 packet 38
  if rs.routerId = rid then return .dropped rs
  let (routers, rebroadcast, update) ← updateRouterList rs.pwospfRouterList packet rid
  let forwarded ← forwardLsu packet rebroadcast
  let rs := { rs with pwospfRouterList := routers }
  let (rs, flooded) := if update then propagatePwospfChanges rs else (rs, .none)
  return ⟨rs, rebroadcast, forwarded, flooded⟩

def processPwospfPacket (rs : RouterState) (packet : Bytes) : Option Outcome := do
  let (valid, packet) ← isPwospfPacketValid rs packet
  if valid = false then return .dropped rs
  let type ← load8 packet 35
  if type = pwospfTypeLinkStateUpdate then processPwospfLsuPacket rs packet
  else return .dropped rs

inductive Event
  | packet (bytes : Bytes)
  | timeout (timedOut : BitVec 32 → Bool)

/-- The packets that are passed on, each with its copy, in a run without a failing access. A failed
assertion ends the run. -/
def relay : RouterState → List Event → Option (List (Bytes × Bytes))
  | _, [] => some []
  | rs, .packet bytes :: events => do
    let o ← processPwospfPacket rs bytes
    let sent ← (if o.flooded = .aborts then some [] else relay o.rs events)
    match o.forwarded with
    | .none => return sent
    | .copy copy => return (bytes, copy) :: sent
    | .overrun => none
  | rs, .timeout timedOut :: events =>
    let (rs, flooded) := lsuTimeout timedOut rs
    if flooded = .aborts then some [] else relay rs events

/-- The LSUs that a router builds one after the other, one for each list of interfaces that it
then has. -/
def issue : RouterState → List (List PwospfInterface) → Option (List Bytes)
  | _, [] => some []
  | rs, interfaces :: later => do
    let rs := rs.setOurs fun r => { r with interfaceList := interfaces }
    let (packet, rs) ← constructPwospfLsuPacket rs
    let packets ← issue rs later
    return packet :: packets

end Osnt.Scone.Pwospf
