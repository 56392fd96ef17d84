import Osnt.Scone.Hello
import Osnt.Scone.Icmp

/-! A network of SCONE routers that flood LSUs: `broadcast_pwospf_lsu_packet` of `or_pwospf.c`, with
the queue of the LSUs, the ARP queues and the links as one place where packets are on their way.

A packet comes to a router that has its destination address. The NAT of a packet from the WAN is
left out. An access beyond the end of a buffer and a failed assertion give `none`. -/
namespace Osnt.Scone.LsuNetwork
open Lib Lib.Buffer Pwospf
open IpForward (computeIpChecksum populateEthHdr ethTypeIp)
open PacketPath (ipProtoPwospf)

/-- A router as far as LSUs go. Hardware addresses are by the positions of the interfaces. -/
structure Router where
  ifList : List Iface.Entry
  addr : Nat → Arp.Mac
  pwospf : RouterState

/-- The packet for one neighbour. -/
def encapsulate (pwospf : Bytes) (addr : Arp.Mac) (sourceIp destIp : BitVec 32) : Option Bytes := do
  let len ← load16 pwospf 2
  let payload ← slice pwospf 0 (swap16 len).toNat
  let packet ← storeBytes (List.replicate (34 + (swap16 len).toNat) 0) 34 payload
  let packet ← Icmp.populateIp packet 14 (swap16 len) ipProtoPwospf sourceIp destIp
  let (checksum, packet) ← computeIpChecksum packet 14
  let packet ← store16 packet 24 (swap16 checksum)
  populateEthHdr packet addr ethTypeIp

namespace Router
variable (r : Router)

/-- Where `broadcast_pwospf_lsu_packet` sends: from which addresses, and to which. -/
def targets (srcIp : Option (BitVec 32)) : List (Arp.Mac × BitVec 32 × BitVec 32) :=
  r.ifList.zipIdx.flatMap fun (iface, k) =>
    if iface.isActive then
      (iface.nbrRouters.filter fun nbr => srcIp != some nbr.ip).map fun nbr =>
        (r.addr k, iface.ip, nbr.ip)
    else []

/-- `broadcast_pwospf_lsu_packet`: the packets that go to `pwospf_lsu_queue`. -/
def broadcastPwospfLsuPacket (pwospf : Bytes) (srcIp : Option (BitVec 32)) : Option (List Bytes) :=
  (r.targets srcIp).mapM fun (addr, sourceIp, destIp) => encapsulate pwospf addr sourceIp destIp

/-- The packet has an address of ours. -/
def isFor (packet : Bytes) : Bool :=
  match load32 packet 30 with
  | some dst => Iface.ifaceMatchIp r.ifList dst
  | none => false

/-- `process_ip_packet` on a packet for us, as far as PWOSPF goes. -/
def processIpPacket (packet : Bytes) : Option Outcome := do
  if Ip.isPacketValid packet = false then return .dropped r.pwospf
  let ipP ← load8 packet 23
  if ipP = ipProtoPwospf then processPwospfPacket r.pwospf packet
  else return .dropped r.pwospf

/-- The copies of an LSU for the other neighbours. -/
def passOn (packet : Bytes) : Forward → Option (List Bytes)
  | .none => some []
  | .copy pwospf => do
    let ipSrc ← load32 packet 26
    r.broadcastPwospfLsuPacket pwospf (some ipSrc)
  | .overrun => none

/-- Our own LSU to all neighbours, if there is one. -/
def flood : Flood → Option (List Bytes)
  | .none => some []
  | .lsu pwospf => r.broadcastPwospfLsuPacket pwospf none
  | .aborts => none

end Router

/-- A router with what is directly connected to it, as it starts. -/
def boot (routerId areaId : BitVec 32) (pwospfLsuBroadcast : Bool) (ifList : List Iface.Entry)
    (addr : Nat → Arp.Mac) : Router :=
  ⟨ifList, addr, Hello.initRouterList routerId areaId pwospfLsuBroadcast ifList⟩

/-- The routers, the packets on their way, and what has been so far: the LSUs that each router has
built, and how many packets were sent. -/
structure State (ι : Type) where
  routers : ι → Router
  flight : List Bytes
  built : ι → List Bytes
  sent : Nat

def start {ι : Type} (routers : ι → Router) : State ι := ⟨routers, [], fun _ => [], 0⟩

inductive Event (ι : Type)
  /-- `pwospf_lsu_thread` or the CLI. -/
  | flood (i : ι)
  /-- The `k`-th packet on its way comes to a router. -/
  | deliver (k : Nat) (i : ι)
  /-- HELLO packets or their time-outs change what we are connected to. -/
  | readvertise (i : ι) (interfaces : List PwospfInterface)
  /-- `pwospf_lsu_timeout_thread`. -/
  | timeout (i : ι) (timedOut : BitVec 32 → Bool)
  /-- The interfaces and their neighbours change. -/
  | relink (i : ι) (ifList : List Iface.Entry)
  | lose (k : Nat)
  | duplicate (k : Nat)

namespace State
variable {ι : Type} [DecidableEq ι] (st : State ι)

/-- What a router does, and the packets it sends. -/
def emit (i : ι) (rs : RouterState) (copies : List Bytes) (flooded : Flood) :
    Option (State ι) := do
  let own ← (st.routers i).flood flooded
  return {
    routers := Function.update st.routers i { st.routers i with pwospf := rs }
    flight := st.flight ++ copies ++ own
    built := Function.update st.built i (st.built i ++ flooded.packets)
    sent := st.sent + copies.length + own.length }

def deliver (i : ι) (packet : Bytes) : Option (State ι) := do
  let o ← (st.routers i).processIpPacket packet
  let copies ← (st.routers i).passOn packet o.forwarded
  st.emit i o.rs copies o.flooded

/-- An event that cannot be leaves the state as it is. -/
def step : Event ι → Option (State ι)
  | .flood i =>
    let (rs, flooded) := startLsuBcastFlood (st.routers i).pwospf
    st.emit i rs [] flooded
  | .deliver k i =>
    match st.flight[k]? with
    | none => some st
    | some packet =>
      if (st.routers i).isFor packet then
        { st with flight := st.flight.eraseIdx k }.deliver i packet
      else some st
  | .readvertise i interfaces =>
    let (rs, flooded) := propagatePwospfChanges
      ((st.routers i).pwospf.setOurs fun r => { r with interfaceList := interfaces })
    st.emit i rs [] flooded
  | .timeout i timedOut =>
    let (rs, flooded) := lsuTimeout timedOut (st.routers i).pwospf
    st.emit i rs [] flooded
  | .relink i ifList =>
    some { st with routers := Function.update st.routers i { st.routers i with ifList } }
  | .lose k => some { st with flight := st.flight.eraseIdx k }
  | .duplicate k => some { st with flight := st.flight ++ st.flight[k]?.toList }

def run (events : List (Event ι)) : Option (State ι) := events.foldlM step st

end State

end Osnt.Scone.LsuNetwork
