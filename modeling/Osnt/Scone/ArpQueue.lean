import Osnt.Scone.Arp
import Osnt.Scone.Iface
import Osnt.Scone.Rtable

/-! The packets of the SCONE router that wait for an ARP reply: `send_ip` of `or_main.c`, the ARP
queue of `or_arp.c` and the ICMP errors for packets that have waited in vain.

Each step is a section of code between taking and giving back the locks of the cache and the queue.
Of a packet there are the header fields that are read; checksums, the payload and what the link
makes of a frame are left out. A failed `assert` gives `none`. -/
namespace Osnt.Scone.ArpQueue
open Lib Lib.Buffer Arp

/-- What is read of a packet. Addresses are as they lie in memory. -/
structure Header where
  ipTtl : BitVec 8
  ipP : BitVec 8
  ipSrc : BitVec 32
  ipDst : BitVec 32
  icmpType : BitVec 8
  icmpCode : BitVec 8
deriving DecidableEq, Repr

/-- A packet in its own memory. The ticket tells which of the packets handed to `send_ip` it is. -/
structure Packet where
  ticket : Nat
  hdr : Header
deriving DecidableEq, Repr

/-- `arp_queue_entry`. -/
structure QueueEntry where
  outIfaceName : String
  nextHop : BitVec 32
  requests : Nat
  lastReqTime : Int
  packets : List Packet
deriving DecidableEq, Repr

/-- A packet given to the link. `fromQueue` if it had waited. -/
structure Sent where
  packet : Packet
  nextHop : BitVec 32
  arpHa : Mac
  outIface : String
  fromQueue : Bool

/-- A packet given up, with the requests of its entry. -/
structure Discarded where
  packet : Packet
  nextHop : BitVec 32
  requests : Nat

/-- The parts of the router state that a packet meets on its way out; the replies that are between
the two sections of `process_arp_reply`; and what has happened so far. -/
structure State where
  arp : Arp.State
  arpQueue : List QueueEntry
  ifList : List Iface.Entry
  rtable : List Rtable.Entry
  pending : List (BitVec 32)
  timeCalls : Nat
  arpRequests : List (BitVec 32 × String)
  sent : List Sent
  discarded : List Discarded
  /-- The next hop of every packet handed to `send_ip`, by its ticket. -/
  handed : List (BitVec 32)

/-- `get_from_arp_cache`. -/
def State.getFromArpCache (st : State) (nextHop : BitVec 32) : Option CacheEntry :=
  inArpCache st.arp.arpCache nextHop

/-- `get_from_arp_queue`. -/
def getFromArpQueue (arpQueue : List QueueEntry) (nextHop : BitVec 32) : Option QueueEntry :=
  arpQueue.find? fun aqe => aqe.nextHop == nextHop

/-- `arp_queue_entry_add_packet`. -/
def QueueEntry.addPacket (packet : Packet) (aqe : QueueEntry) : QueueEntry :=
  { aqe with packets := aqe.packets ++ [packet] }

/-- `node_remove` of the first packet. -/
def QueueEntry.removeHead (aqe : QueueEntry) : QueueEntry :=
  { aqe with packets := aqe.packets.tail }

def sendArpRequest (st : State) (tip : BitVec 32) (interface : String) : State :=
  { st with arpRequests := st.arpRequests ++ [(tip, interface)] }

section
/- What the calls of `time` give, one after the other. -/
variable (time : Nat → Int)

def arpQueueAdd (st : State) (packet : Packet) (outIfaceName : String) (nextHop : BitVec 32) :
    State :=
  if (getFromArpQueue st.arpQueue nextHop).isSome then
    { st with
      arpQueue := modifyFirst (fun aqe => aqe.nextHop == nextHop) (QueueEntry.addPacket packet)
        st.arpQueue }
  else
    sendArpRequest
      { st with
        timeCalls := st.timeCalls + 1
        arpQueue := st.arpQueue ++ [⟨outIfaceName, nextHop, 1, time st.timeCalls, [packet]⟩] }
      nextHop outIfaceName

/-- `send_ip`, of a packet that has been here before or not. -/
def sendIp (st : State) (packet : Packet) (nextHop : BitVec 32) (outIface : String)
    (fromQueue : Bool) : State :=
  match st.getFromArpCache nextHop with
  | some ace => { st with sent := st.sent ++ [⟨packet, nextHop, ace.arpHa, outIface, fromQueue⟩] }
  | none => arpQueueAdd time st packet outIface nextHop

/-- A new packet is handed to `send_ip`. -/
def sendNew (st : State) (hdr : Header) (nextHop : BitVec 32) (outIface : String) : State :=
  sendIp time { st with handed := st.handed ++ [nextHop] } ⟨st.handed.length, hdr⟩ nextHop outIface
    false

def ipProtoIcmp : BitVec 8 := 1
def icmpTypeEchoReply : BitVec 8 := 0
def icmpTypeDestinationUnreachable : BitVec 8 := 3
def icmpTypeEchoRequest : BitVec 8 := 8
def icmpCodeHostUnreachable : BitVec 8 := 1
def icmpCodePortUnreachable : BitVec 8 := 3

/-- `send_icmp_packet`, about a packet that has come from elsewhere. -/
def sendIcmpPacket (st : State) (src : Header) (icmpType icmpCode : BitVec 8) : Option State :=
  match Rtable.getNextHop 32 st.rtable (swap32 src.ipSrc) with
  | none => some st
  | some (nextHop, iface) => do
    -- `assert(iface_struct)`
    let k ← Iface.getIface st.ifList iface
    let ifaceStruct ← st.ifList[k]?
    let ipSrc :=
      if icmpType = icmpTypeEchoReply ∨
          (icmpType = icmpTypeDestinationUnreachable ∧ icmpCode = icmpCodePortUnreachable) then
        src.ipDst
      else ifaceStruct.ip
    return sendNew time st ⟨64, ipProtoIcmp, ipSrc, src.ipSrc, icmpType, icmpCode⟩ (swap32 nextHop)
      ifaceStruct.name

/-- The inner loop of `send_queued_packets`, over the packets of the entry at a position. The next
packet is determined before `send_ip` is called. -/
def sendPackets : Nat → State → Nat → Option State
  | 0, _, _ => none
  | fuel + 1, st, n => do
    let aqe ← st.arpQueue[n]?
    match aqe.packets with
    | [] => return st
    | cur :: next =>
      let st := sendIp time st cur aqe.nextHop aqe.outIfaceName true
      let st := { st with arpQueue := st.arpQueue.modify n QueueEntry.removeHead }
      if next.isEmpty then return st else sendPackets fuel st n

/-- `send_queued_packets`, from the entry it has come to. -/
def sendQueuedPackets : Nat → State → BitVec 32 → Nat → Option State
  | 0, _, _, _ => none
  | fuel + 1, st, destIp, n =>
    match st.arpQueue[n]? with
    | none => some st
    | some aqe =>
      let last := n + 1 == st.arpQueue.length
      if destIp = aqe.nextHop then do
        let st ← sendPackets time fuel st n
        let st := { st with arpQueue := st.arpQueue.eraseIdx n }
        if last then return st else sendQueuedPackets fuel st destIp n
      else if last then some st
      else sendQueuedPackets fuel st destIp (n + 1)

/-- Whether a packet that is given up is reported to its source. -/
def reported (st : State) (hdr : Header) : Bool :=
  (hdr.ipP != ipProtoIcmp || hdr.icmpType == icmpTypeEchoReply ||
      hdr.icmpType == icmpTypeEchoRequest) &&
    !Iface.ifaceMatchIp st.ifList hdr.ipSrc

/-- The packet as it was before it was decremented for the next hop. -/
def Header.restoreTtl (hdr : Header) : Header :=
  if hdr.ipTtl.toNat < 255 then { hdr with ipTtl := hdr.ipTtl + 1 } else hdr

def reportHostUnreachable (st : State) (hdr : Header) : Option State :=
  if reported st hdr then
    sendIcmpPacket time st hdr.restoreTtl icmpTypeDestinationUnreachable icmpCodeHostUnreachable
  else some st

/-- The inner loop of `process_arp_queue`. The next packet is determined after the report. -/
def discardPackets : Nat → State → Nat → Option State
  | 0, _, _ => none
  | fuel + 1, st, n => do
    let aqe ← st.arpQueue[n]?
    match aqe.packets with
    | [] => return st
    | cur :: _ =>
      let st ← reportHostUnreachable time st cur.hdr
      discardPackets fuel
        { st with
          arpQueue := st.arpQueue.modify n QueueEntry.removeHead
          discarded := st.discarded ++ [⟨cur, aqe.nextHop, aqe.requests⟩] } n

/-- Another request. -/
def QueueEntry.requestAgain (now : Int) (aqe : QueueEntry) : QueueEntry :=
  { aqe with lastReqTime := now, requests := aqe.requests + 1 }

/-- What `process_arp_queue` does with the entry at a position, and the position of the entry after
it. -/
def processEntry (fuel : Nat) (st : State) (n : Nat) (aqe : QueueEntry) : Option (State × Nat) :=
  let now := time st.timeCalls
  let st := { st with timeCalls := st.timeCalls + 1 }
  if 1 < now - aqe.lastReqTime then
    if aqe.requests < 5 then
      let st :=
        { st with
          timeCalls := st.timeCalls + 1
          arpQueue := st.arpQueue.modify n (QueueEntry.requestAgain (time st.timeCalls)) }
      some (sendArpRequest st aqe.nextHop aqe.outIfaceName, n + 1)
    else do
      let st ← discardPackets time fuel st n
      return ({ st with arpQueue := st.arpQueue.eraseIdx n }, n)
  else some (st, n + 1)

/-- `process_arp_queue`, from the entry it has come to. -/
def processArpQueue : Nat → State → Nat → Option State
  | 0, _, _ => none
  | fuel + 1, st, n =>
    match st.arpQueue[n]? with
    | none => some st
    | some aqe => do
      let last := n + 1 == st.arpQueue.length
      let (st, next) ← processEntry time fuel st n aqe
      if last then return st else processArpQueue fuel st next

/-- The sections of code that take the locks: `send_ip` on behalf of anybody, what changes the
cache, the second section of `process_arp_reply`, a pass over the queue, and what changes the
interfaces and the routes. -/
inductive Event
  | sendIp (hdr : Header) (nextHop : BitVec 32) (outIface : String)
  | cache (event : Arp.Event)
  | sendQueuedPackets (destIp : BitVec 32)
  | processArpQueue
  | tables (ifList : List Iface.Entry) (rtable : List Rtable.Entry)

/-- A reply whose first section `update_arp_cache` is. -/
def replyOf : Arp.Event → List (BitVec 32)
  | .packet packet _ => (getArpHdr packet).toList.filterMap fun arp =>
      if arp.op = arpOpReply then some arp.sip else none
  | _ => []

/-- A section of code from lock to unlock, if it gets there. -/
inductive Step : State → Event → State → Prop
  | sendIp (st : State) (hdr : Header) (nextHop : BitVec 32) (outIface : String) :
    Step st (.sendIp hdr nextHop outIface) (sendNew time st hdr nextHop outIface)
  | cache {st : State} {event : Arp.Event} {arp : Arp.State} :
    Arp.step st.arp event = some arp →
    Step st (.cache event) { st with arp, pending := st.pending ++ replyOf event }
  | sendQueuedPackets {st st' : State} {destIp : BitVec 32} {fuel : Nat} :
    destIp ∈ st.pending →
    sendQueuedPackets time fuel { st with pending := st.pending.erase destIp } destIp 0 = some st' →
    Step st (.sendQueuedPackets destIp) st'
  | processArpQueue {st st' : State} {fuel : Nat} :
    processArpQueue time fuel st 0 = some st' → Step st .processArpQueue st'
  | tables (st : State) (ifList : List Iface.Entry) (rtable : List Rtable.Entry) :
    Step st (.tables ifList rtable) { st with ifList, rtable }

end
end Osnt.Scone.ArpQueue
