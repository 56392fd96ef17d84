import Osnt.Lib.LockOrder
import Osnt.Scone.ArpQueue
import Osnt.Scone.Hello
import Osnt.Scone.Ip
import Osnt.Scone.OrNat

/-! The locks that the SCONE router takes for an IP packet: `process_ip_packet` and `send_ip_packet`
of `or_ip.c`, with the handlers of `or_pwospf.c` and the NAT steps inside.

What is written is kept as far as the rest of the call reads it; the packets that are sent are in
`Osnt.Scone.ArpQueue`. The TCP stack takes none of the locks. A failed `assert`, a `NULL` pointer
that is followed and an access beyond the end of a packet end the program. -/
namespace Osnt.Scone.PacketPath
open Lib Lib.Buffer

/-- In the order in which they are to be taken. `sping_queue_lock` is only held for one append. -/
inductive Lock
  | arpCache
  | arpQueue
  | ifList
  | rtable
  | natTable
  | pwospfRouterList
  | pwospfLsuQueue
  | writeLock
  | spingQueue
deriving DecidableEq, Repr

def Lock.rank : Lock → Nat
  | .arpCache => 0
  | .arpQueue => 1
  | .ifList => 2
  | .rtable => 3
  | .natTable => 4
  | .pwospfRouterList => 5
  | .pwospfLsuQueue => 6
  | .writeLock => 7
  | .spingQueue => 8

instance : Preorder Lock := Preorder.lift Lock.rank

instance (k l : Lock) : Decidable (k < l) := inferInstanceAs (Decidable (k.rank < l.rank))

abbrev Path := Locking Lock

def lockArpCacheRd : Path Unit := .lock .arpCache .rd
def unlockArpCache : Path Unit := .unlock .arpCache
def lockArpQueueWr : Path Unit := .lock .arpQueue .wr
def unlockArpQueue : Path Unit := .unlock .arpQueue
def lockIfListRd : Path Unit := .lock .ifList .rd
def lockIfListWr : Path Unit := .lock .ifList .wr
def unlockIfList : Path Unit := .unlock .ifList
def lockRtableRd : Path Unit := .lock .rtable .rd
def lockRtableWr : Path Unit := .lock .rtable .wr
def unlockRtable : Path Unit := .unlock .rtable
def lockNatTable : Path Unit := .lock .natTable .wr
def unlockNatTable : Path Unit := .unlock .natTable
def lockMutexPwospfRouterList : Path Unit := .lock .pwospfRouterList .wr
def unlockMutexPwospfRouterList : Path Unit := .unlock .pwospfRouterList
def lockMutexPwospfLsuQueue : Path Unit := .lock .pwospfLsuQueue .wr
def unlockMutexPwospfLsuQueue : Path Unit := .unlock .pwospfLsuQueue
def lockMutexSpingQueue : Path Unit := .lock .spingQueue .wr
def unlockMutexSpingQueue : Path Unit := .unlock .spingQueue

/-- The router state as far as a call reads it. -/
structure RouterState where
  arpCache : List Arp.CacheEntry
  arpQueue : List ArpQueue.QueueEntry
  ifList : List Iface.Entry
  rtable : List Rtable.Entry
  natTable : List OrNat.NatEntry
  pwospf : Pwospf.RouterState
  pwospfHelloInterval : BitVec 16

/-- `get_iface`. -/
def getIface (ifList : List Iface.Entry) (interface : String) : Option Iface.Entry := do
  let k ← Iface.getIface ifList interface
  ifList[k]?

/-- `send_packet`, around `sr_cpu_output`. -/
def sendPacket : Path Unit := do
  Locking.lock Lock.writeLock .wr
  Locking.unlock Lock.writeLock

def sendArpRequest (rs : RouterState) (interface : String) : Path Unit := do
  let _inter ← getIface rs.ifList interface
  sendPacket

def arpQueueAdd (rs : RouterState) (outIfaceName : String) (nextHop : BitVec 32) : Path Unit :=
  if (ArpQueue.getFromArpQueue rs.arpQueue nextHop).isSome then pure ()
  else sendArpRequest rs outIfaceName

def sendIp (rs : RouterState) (nextHop : BitVec 32) (outIface : String) : Path Unit :=
  if (Arp.inArpCache rs.arpCache nextHop).isSome then sendPacket
  else arpQueueAdd rs outIface nextHop

/-- `send_icmp_packet`, of any type and code. -/
def sendIcmpPacket (rs : RouterState) (srcPacket : Bytes) : Path Unit := do
  let ipSrc ← load32 srcPacket 26
  match Rtable.getNextHop 32 rs.rtable (swap32 ipSrc) with
  | none => pure ()
  | some (nextHop, iface) => do
    let ifaceStruct ← getIface rs.ifList iface
    sendIp rs (swap32 nextHop) ifaceStruct.name

def processIcmpEchoReplyPacket : Path Unit := do
  lockMutexSpingQueue
  unlockMutexSpingQueue

def processIcmpPacket (rs : RouterState) (packet : Bytes) : Path Unit := do
  let icmpType ← load8 packet 34
  if icmpType = ArpQueue.icmpTypeEchoRequest then sendIcmpPacket rs packet
  else if icmpType = ArpQueue.icmpTypeEchoReply then processIcmpEchoReplyPacket
  else pure ()

/-- `broadcast_pwospf_lsu_packet`: an entry in the queue for each neighbour but the source. -/
def broadcastPwospfLsuPacket (ifList : List Iface.Entry) (srcIp : Option (BitVec 32)) :
    Path Unit :=
  ifList.forM fun iface =>
    if iface.isActive then
      iface.nbrRouters.forM fun nbr =>
        if srcIp = some nbr.ip then pure ()
        else do
          lockMutexPwospfLsuQueue
          unlockMutexPwospfLsuQueue
    else pure ()

def startLsuBcastFlood (pwospf : Pwospf.RouterState) (ifList : List Iface.Entry) : Path Unit :=
  if pwospf.pwospfLsuBroadcast then do
    -- `assert(our_router)`
    let _lsu ← Pwospf.constructPwospfLsuPacket pwospf
    broadcastPwospfLsuPacket ifList none
  else pure ()

/-- `propagate_pwospf_changes`; `dijkstra_trigger` takes no lock. -/
def propagatePwospfChanges (pwospf : Pwospf.RouterState) (ifList : List Iface.Entry) : Path Unit :=
  startLsuBcastFlood
    { pwospf with
      pwospfRouterList := (List.range pwospf.pwospfRouterList.length).foldl
        Pwospf.determineActiveInterfaces pwospf.pwospfRouterList }
    ifList

/-- A new neighbour behind an interface is taken in; of one that is known there is only the time to
be set. -/
def bookNeighbour (rs : RouterState) (hello : Hello.HelloPacket) (interface : String)
    (iface : Iface.Entry) (now : Int) : Path Unit :=
  if iface.nbrRouters.any (Hello.isSender hello) then pure ()
  else do
    let k ← Iface.getIface rs.ifList interface
    let pwospf ← Hello.bookIn rs.pwospf iface.net hello.rid
    propagatePwospfChanges pwospf (rs.ifList.modify k fun i =>
      { i with nbrRouters := iface.nbrRouters ++ [⟨hello.rid, hello.ipSrc, now⟩] })

section
/- The router state that a call finds behind the locks that it takes first, and behind those that it
takes later, when others may have changed it. -/
variable (rs later : RouterState)

def processPwospfHelloPacket (packet : Bytes) (interface : String) (now : Int) : Path Unit := do
  let hello ← Hello.readHello packet
  if rs.pwospfHelloInterval ≠ hello.hint then return
  unlockRtable
  unlockIfList
  lockIfListWr
  lockRtableRd
  lockMutexPwospfRouterList
  let iface ← getIface later.ifList interface
  -- back without an unlock
  if iface.mask ≠ hello.mask then return
  bookNeighbour later hello interface iface now
  unlockMutexPwospfRouterList

/-- The copies of an LSU for the other neighbours. -/
def passOn (ipSrc : BitVec 32) : Pwospf.Forward → Path Unit
  | .none => pure ()
  | .copy _ => broadcastPwospfLsuPacket rs.ifList (some ipSrc)
  | .overrun => liftM (none : Option Unit)

/-- The LSU of our own, if anything has changed. -/
def flood (pwospf : Pwospf.RouterState) (update : Bool) : Path Unit :=
  if update then propagatePwospfChanges pwospf rs.ifList else pure ()

def processPwospfLsuPacket (packet : Bytes) : Path Unit := do
  let rid ← load32 packet 38
  if rs.pwospf.routerId = rid then return
  unlockRtable
  lockRtableWr
  lockMutexPwospfRouterList
  let (routers, rebroadcast, update) ←
    Pwospf.updateRouterList later.pwospf.pwospfRouterList packet rid
  let forwarded ← Pwospf.forwardLsu packet rebroadcast
  let ipSrc ← load32 packet 26
  passOn rs ipSrc forwarded
  flood rs { later.pwospf with pwospfRouterList := routers } update
  unlockMutexPwospfRouterList

def pwospfTypeHello : BitVec 8 := 1

def processPwospfPacket (packet : Bytes) (interface : String) (now : Int) : Path Unit := do
  let (valid, packet) ← Pwospf.isPwospfPacketValid rs.pwospf packet
  if valid = false then return
  let type ← load8 packet 35
  if type = pwospfTypeHello then processPwospfHelloPacket rs later packet interface now
  else if type = Pwospf.pwospfTypeLinkStateUpdate then processPwospfLsuPacket rs later packet
  else pure ()

def ipProtoPwospf : BitVec 8 := 0x59

/-- `PWOSPF_HELLO_TIP`. -/
def pwospfHelloTip : BitVec 32 := 0xe0000005

/-- The packet behind `process_nat_ext_packet`, if it has come from the WAN. -/
def fromWan (iface : Iface.Entry) (packet : Bytes) : Path Bytes :=
  if iface.isWan then do
    lockNatTable
    let (_, packet) ← OrNat.processNatExtPacket rs.natTable packet
    unlockNatTable
    return packet
  else return packet

/-- The packet behind `process_nat_int_packet`, if it goes to the WAN. -/
def toWan (iface : Iface.Entry) (packet : Bytes) (rand : List (BitVec 16)) : Path Bytes :=
  if iface.isWan then do
    lockNatTable
    let (_, packet) ← OrNat.processNatIntPacket later.natTable packet iface.ip rand
    unlockNatTable
    return packet
  else return packet

/-- A packet for one of our interfaces. -/
def receiveIp (packet : Bytes) (interface : String) (now : Int) : Path Unit := do
  let ipP ← load8 packet 23
  -- `sr_transport_input`
  if ipP = OrNat.ipProtoTcp then return
  if ipP = OrNat.ipProtoIcmp then processIcmpPacket rs packet
  else if ipP = ipProtoPwospf then processPwospfPacket rs later packet interface now
  -- port unreachable, for UDP, and protocol unreachable
  else sendIcmpPacket rs packet

/-- A packet for another host. -/
def forwardIp (dst : BitVec 32) (packet : Bytes) (interface : String) (rand : List (BitVec 16)) :
    Path Unit :=
  match Rtable.getNextHop 32 rs.rtable (swap32 dst) with
  -- net unknown
  | none => sendIcmpPacket rs packet
  | some (nextHop, nextHopIface) =>
    -- net unreachable
    if Iface.strncmpEq interface nextHopIface 32 then sendIcmpPacket rs packet
    else do
      let iface ← getIface rs.ifList nextHopIface
      let packet ← toWan later iface packet rand
      let ttl ← load8 packet 22
      -- time exceeded
      if ttl = 1 then sendIcmpPacket rs packet
      else sendIp rs (swap32 nextHop) nextHopIface

/-- What `process_ip_packet` does between taking and giving back its four locks. -/
def dispatchIp (packet : Bytes) (interface : String) (rand : List (BitVec 16)) (now : Int) :
    Path Unit := do
  let iface ← getIface rs.ifList interface
  let packet ← fromWan rs iface packet
  let dst ← load32 packet 30
  if Iface.ifaceMatchIp rs.ifList dst then receiveIp rs later packet interface now
  else if dst = swap32 pwospfHelloTip then processPwospfPacket rs later packet interface now
  else forwardIp rs later dst packet interface rand

/-- `process_ip_packet`. The ports that `rand` gives and the time are arguments. -/
def processIpPacket (packet : Bytes) (interface : String) (rand : List (BitVec 16)) (now : Int) :
    Path Unit := do
  if Ip.isPacketValid packet = false then return
  lockArpCacheRd
  lockArpQueueWr
  lockIfListRd
  lockRtableRd
  dispatchIp rs later packet interface rand now
  unlockRtable
  unlockIfList
  unlockArpQueue
  unlockArpCache

/-- `send_ip_packet`, for a packet to `dest`. -/
def sendIpPacket (dest : BitVec 32) : Path Unit := do
  lockArpCacheRd
  lockArpQueueWr
  lockIfListRd
  lockRtableRd
  match Rtable.getNextHop 32 rs.rtable (swap32 dest) with
  -- back without an unlock
  | none => return
  | some (nextHop, iface) =>
    let ifaceStruct ← getIface rs.ifList iface
    sendIp rs (swap32 nextHop) ifaceStruct.name
    unlockRtable
    unlockIfList
    unlockArpQueue
    unlockArpCache

end

inductive Call
  | processIpPacket (rs later : RouterState) (packet : Bytes) (interface : String)
      (rand : List (BitVec 16)) (now : Int)
  | sendIpPacket (rs : RouterState) (dest : BitVec 32)

def Call.path : Call → Path Unit
  | .processIpPacket rs later packet interface rand now =>
    PacketPath.processIpPacket rs later packet interface rand now
  | .sendIpPacket rs dest => PacketPath.sendIpPacket rs dest

/-- A thread makes one call after the other. -/
def thread (calls : List Call) : Path Unit := calls.forM Call.path

end Osnt.Scone.PacketPath
