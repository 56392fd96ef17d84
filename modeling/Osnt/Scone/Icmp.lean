import Osnt.Scone.IpForward

/-! `send_icmp_packet` of `or_icmp.c`, with `populate_icmp` and `populate_ip` of `or_utils.c`: the
ICMP messages of the router about packets that have come to it.

An access beyond the end of a buffer and a failed `assert` give `none`. -/
namespace Osnt.Scone.Icmp
open Lib Lib.Buffer
open Pwospf (complementSum)
open OrNat (sumIcmp ipProtoIcmp)
open IpForward (computeIpChecksum populateEthHdr ethTypeIp)

def icmpTypeEchoReply : BitVec 8 := 0
def icmpTypeDestinationUnreachable : BitVec 8 := 3
def icmpTypeEchoRequest : BitVec 8 := 8
def icmpCodeEcho : BitVec 8 := 0
def icmpCodePortUnreachable : BitVec 8 := 3

def ipFragDf : BitVec 16 := 0x4000

/-- A value in network order. -/
def bytes16 (v : BitVec 16) : Bytes := [v.extractLsb' 8 8, v.extractLsb' 0 8]

/-- An address as it lies in memory. -/
def bytes32 (v : BitVec 32) : Bytes :=
  [v.extractLsb' 0 8, v.extractLsb' 8 8, v.extractLsb' 16 8, v.extractLsb' 24 8]

/-- The fields that `populate_ip` sets, one after the other; the others are zero. -/
def ipHeader (payloadSize : BitVec 16) (protocol : BitVec 8) (sourceIp destIp : BitVec 32) :
    Bytes :=
  [0x45, 0] ++ bytes16 (20 + payloadSize) ++ [0, 0] ++ bytes16 ipFragDf ++ [0x40, protocol, 0, 0] ++
    bytes32 sourceIp ++ bytes32 destIp

/-- `populate_ip`: the header at `ip`, with no checksum yet. -/
def populateIp (packet : Bytes) (ip : Nat) (payloadSize : BitVec 16) (protocol : BitVec 8)
    (sourceIp destIp : BitVec 32) : Option Bytes :=
  storeBytes packet ip (ipHeader payloadSize protocol sourceIp destIp)

/-- `populate_icmp`: the header at `icmp`, with no checksum yet, and the payload. -/
def populateIcmp (packet : Bytes) (icmp : Nat) (icmpType icmpCode : BitVec 8) (payload : Bytes) :
    Option Bytes :=
  storeBytes packet icmp ([icmpType, icmpCode, 0, 0] ++ payload)

/-- `new_icmp->icmp_sum = htons(compute_icmp_checksum(new_icmp, payload_len))`. -/
def setIcmpSum (packet : Bytes) (payloadLen : Nat) : Option Bytes := do
  let packet ← store16 packet 36 0
  let sum ← sumIcmp packet ((4 + payloadLen) / 2)
  store16 packet 36 (swap16 (complementSum sum))

/-- `icmp_payload_len`. -/
def payloadLen (srcPacket : Bytes) (icmpType : BitVec 8) : Option Nat :=
  if icmpType = icmpTypeEchoReply then
    if 38 ≤ srcPacket.length then some (srcPacket.length - 38) else none
  else some 32

/-- What the message carries: the rest of the request, or four zeros and the head of the packet. -/
def payload (srcPacket : Bytes) (icmpType : BitVec 8) (len : Nat) : Option Bytes :=
  if icmpType = icmpTypeEchoReply then slice srcPacket 38 len
  else (slice srcPacket 14 (len - 4)).map (List.replicate 4 0 ++ ·)

/-- A packet for `send_ip`. -/
structure Sent where
  packet : Bytes
  nextHop : BitVec 32
  outIface : String
deriving DecidableEq, Repr

/-- The message with its headers. -/
def newPacket (srcPacket : Bytes) (icmpType icmpCode : BitVec 8) (ifaceIp : BitVec 32)
    (addr : Arp.Mac) : Option Bytes := do
  let len ← payloadLen srcPacket icmpType
  let packet := List.replicate (38 + len) 0
  let payload ← payload srcPacket icmpType len
  let packet ← populateIcmp packet 34 icmpType icmpCode payload
  let packet ← setIcmpSum packet len
  let ipSrc ← load32 srcPacket 26
  let ipDst ← load32 srcPacket 30
  let source :=
    if icmpType = icmpTypeEchoReply ∨
        (icmpType = icmpTypeDestinationUnreachable ∧ icmpCode = icmpCodePortUnreachable) then
      ipDst
    else ifaceIp
  let packet ← populateIp packet 14 (4 + BitVec.ofNat 16 len) ipProtoIcmp source ipSrc
  let (checksum, packet) ← computeIpChecksum packet 14
  let packet ← store16 packet 24 (swap16 checksum)
  populateEthHdr packet addr ethTypeIp

section
/- The routing table, the interfaces and their hardware addresses by their positions. -/
variable (rtable : List Rtable.Entry) (ifList : List Iface.Entry) (addr : Nat → Arp.Mac)

/-- `send_icmp_packet`, which sends nothing if there is no route. -/
def sendIcmpPacket (srcPacket : Bytes) (icmpType icmpCode : BitVec 8) : Option (Option Sent) := do
  let ipSrc ← load32 srcPacket 26
  match Rtable.getNextHop 32 rtable (swap32 ipSrc) with
  | none => return none
  | some (nextHop, iface) =>
    let k ← Iface.getIface ifList iface
    let ifaceStruct ← ifList[k]?
    let packet ← newPacket srcPacket icmpType icmpCode ifaceStruct.ip (addr k)
    return some ⟨packet, swap32 nextHop, ifaceStruct.name⟩

/-- What `process_icmp_packet` sends. An echo reply goes to the queue of the pings instead. -/
def processIcmpPacket (packet : Bytes) : Option (Option Sent) := do
  let icmpType ← load8 packet 34
  if icmpType = icmpTypeEchoRequest then
    sendIcmpPacket rtable ifList addr packet icmpTypeEchoReply icmpCodeEcho
  else return none

end

end Osnt.Scone.Icmp
