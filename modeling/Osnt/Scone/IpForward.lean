import Osnt.Scone.PacketPath

/-! `process_ip_packet` of `or_ip.c` once more, with the packet that it forwards: the TTL, the
checksum and the Ethernet header that are written before `send_ip` gets the copy.

An access beyond the end of a packet and a `NULL` pointer that is followed give `none`. -/
namespace Osnt.Scone.IpForward
open Lib Lib.Buffer
open Pwospf (complementSum)
open PacketPath (RouterState pwospfHelloTip)

/-- The loop of `compute_ip_checksum` over the header at `ip`; the checksum itself is skipped. -/
def sumHeader (b : Bytes) (ip : Nat) : Nat → Option Nat
  | 0 => some 0
  | n + 1 => do
    let sum ← sumHeader b ip n
    if n ≠ 5 then
      let short ← load16 b (ip + 2 * n)
      return sum + (swap16 short).toNat
    else return sum

/-- `compute_ip_checksum`, and the packet with the field cleared. -/
def computeIpChecksum (b : Bytes) (ip : Nat) : Option (BitVec 16 × Bytes) := do
  let b ← store16 b (ip + 10) 0
  let verHl ← load8 b ip
  let sum ← sumHeader b ip ((verHl.extractLsb' 0 4).toNat * 2)
  return (complementSum sum, b)

def ethTypeIp : BitVec 16 := 0x0800

def macBytes (mac : Arp.Mac) : Bytes := [mac.b0, mac.b1, mac.b2, mac.b3, mac.b4, mac.b5]

/-- `populate_eth_hdr` without a destination. -/
def populateEthHdr (packet : Bytes) (shost : Arp.Mac) (type : BitVec 16) : Option Bytes := do
  let packet ← storeBytes packet 6 (macBytes shost)
  store16 packet 12 (swap16 type)

/-- What becomes of a packet. -/
inductive Outcome
  | dropped
  /-- It is for us: for one of our addresses, or for the PWOSPF address. -/
  | received (packet : Bytes)
  /-- An ICMP message goes back. -/
  | icmp (packet : Bytes) (icmpType icmpCode : BitVec 8)
  /-- The copy goes to `send_ip`. -/
  | forwarded (packetCopy : Bytes) (nextHop : BitVec 32) (nextHopIface : String)
deriving DecidableEq, Repr

def icmpTypeDestinationUnreachable : BitVec 8 := 3
def icmpCodeNetUnreachable : BitVec 8 := 0
def icmpCodeNetUnknown : BitVec 8 := 6
def icmpTypeTimeExceeded : BitVec 8 := 11
def icmpCodeTtlExceeded : BitVec 8 := 0

/-- The new TTL, checksum and Ethernet header. -/
def rewriteHeaders (packet : Bytes) (ttl : BitVec 8) (shost : Arp.Mac) : Option Bytes := do
  let packet ← store8 packet 22 (ttl - 1)
  let packet ← store16 packet 24 0
  let (checksum, packet) ← computeIpChecksum packet 14
  let packet ← store16 packet 24 (swap16 checksum)
  populateEthHdr packet shost ethTypeIp

section
/- The router state, the NAT table once the packet is to leave, which other threads may have
changed, the hardware addresses of the interfaces by their positions, and what `rand` gives. -/
variable (rs : RouterState) (laterNat : List OrNat.NatEntry) (addr : Nat → Arp.Mac)
  (rand : List (BitVec 16))

/-- The packet behind `process_nat_ext_packet`, if it has come from the WAN. -/
def fromWan (iface : Iface.Entry) (packet : Bytes) : Option Bytes :=
  if iface.isWan then (OrNat.processNatExtPacket rs.natTable packet).map Prod.snd else some packet

/-- The packet behind `process_nat_int_packet`, if it goes to the WAN. -/
def toWan (iface : Iface.Entry) (packet : Bytes) : Option Bytes :=
  if iface.isWan then
    (OrNat.processNatIntPacket laterNat packet iface.ip rand).map Prod.snd
  else some packet

/-- A packet for another host. -/
def forwardIp (dst : BitVec 32) (packet : Bytes) (interface : String) : Option Outcome :=
  match Rtable.getNextHop 32 rs.rtable (swap32 dst) with
  | none => some (.icmp packet icmpTypeDestinationUnreachable icmpCodeNetUnknown)
  | some (nextHop, nextHopIface) =>
    if Iface.strncmpEq interface nextHopIface 32 then
      some (.icmp packet icmpTypeDestinationUnreachable icmpCodeNetUnreachable)
    else do
      let k ← Iface.getIface rs.ifList nextHopIface
      let iface ← rs.ifList[k]?
      let packet ← toWan laterNat rand iface packet
      let ttl ← load8 packet 22
      if ttl = 1 then return .icmp packet icmpTypeTimeExceeded icmpCodeTtlExceeded
      else
        let packet ← rewriteHeaders packet ttl (addr k)
        return .forwarded packet (swap32 nextHop) nextHopIface

/-- `process_ip_packet`. -/
def processIpPacket (packet : Bytes) (interface : String) : Option Outcome := do
  if Ip.isPacketValid packet = false then return .dropped
  let iface ← PacketPath.getIface rs.ifList interface
  let packet ← fromWan rs iface packet
  let dst ← load32 packet 30
  if Iface.ifaceMatchIp rs.ifList dst then return .received packet
  else if dst = swap32 pwospfHelloTip then return .received packet
  else forwardIp rs laterNat addr rand dst packet interface

end

end Osnt.Scone.IpForward
