import Osnt.Scone.Pwospf

/-! `or_nat.c` of the SCONE router, with `populate_nat_packet` of `or_utils.c`: packets on their way
out get the address of the WAN interface and a port of their own, packets on their way in get back
what stood there.

Addresses, ports and checksums are as they lie in memory, in network order. An access beyond the
end of a packet, a `NULL` pointer that is followed and a search for a port that has not come to an
end give `none`. The times and averages of an entry, which only the maintenance thread reads, are
left out. -/
namespace Osnt.Scone.OrNat
open Lib Lib.Buffer
open Pwospf (complementSum)

inductive NatType
  | external
  | internal
deriving DecidableEq, Repr

structure NatIpPortPair where
  ip : BitVec 32
  port : BitVec 16
  checksum : BitVec 16
  checksumIp : BitVec 16
  checksumPort : BitVec 16
deriving DecidableEq, Repr

structure NatEntry where
  natExt : NatIpPortPair
  natInt : NatIpPortPair
  hits : BitVec 32
deriving DecidableEq, Repr

def ipProtoIcmp : BitVec 8 := 1

def ipProtoTcp : BitVec 8 := 6

def ipProtoUdp : BitVec 8 := 17

/-- `ICMP_TYPE_ECHO_REQUEST` and `ICMP_TYPE_ECHO_REPLY`. -/
def isEcho (icmpType : BitVec 8) : Bool := icmpType == 8 || icmpType == 0

/-- `ICMP_TYPE_TIME_EXCEEDED` and `ICMP_TYPE_DESTINATION_UNREACHABLE`. -/
def isIcmpError (icmpType : BitVec 8) : Bool := icmpType == 11 || icmpType == 3

def isTcpOrUdp (ipP : BitVec 8) : Bool := ipP == ipProtoTcp || ipP == ipProtoUdp

/-- `compute_nat_checksums`. -/
def computeNatChecksums (ip : BitVec 32) (port : BitVec 16) : NatIpPortPair :=
  let first := (swap16 (ip.extractLsb' 0 16)).toNat
  let second := (swap16 (ip.extractLsb' 16 16)).toNat
  ⟨ip, port, swap16 (complementSum (first + second + (swap16 port).toNat)),
    swap16 (complementSum (first + second)), ~~~port⟩

/-- `nat_checksum`. -/
def natChecksum (old pos neg : BitVec 16) : BitVec 16 :=
  let word := old.setWidth 32 + pos.setWidth 32
  let word := (word >>> 16) + (word &&& 0xFFFF)
  let word := word - neg.setWidth 32
  let word := if 0xFFFF < word then word - 1 else word
  word.setWidth 16

/-- The loop of `compute_icmp_checksum`; the checksum itself is skipped. -/
def sumIcmp (packet : Bytes) : Nat → Option Nat
  | 0 => some 0
  | n + 1 => do
    let sum ← sumIcmp packet n
    if n = 1 then return sum
    let short ← load16 packet (34 + 2 * n)
    return sum + (swap16 short).toNat

/-- `icmp->icmp_sum = htons(compute_icmp_checksum(icmp, payload_len))` for the length in the IP
header. -/
def fillIcmpChecksum (packet : Bytes) : Option Bytes := do
  let len ← load16 packet 16
  let packet ← store16 packet 36 0
  let sum ← sumIcmp packet (((swap16 len).toNat - 20) / 2)
  store16 packet 36 (swap16 (complementSum sum))

def adjust16 (packet : Bytes) (o : Nat) (pos neg : BitVec 16) : Option Bytes := do
  let sum ← load16 packet o
  store16 packet o (natChecksum sum pos neg)

/-- The checksum of the payload, after `old` has become `new`. -/
def rewritePayloadChecksum (packet : Bytes) (new old : NatIpPortPair) : Option Bytes := do
  let ipP ← load8 packet 23
  if ipP = ipProtoTcp then adjust16 packet 50 new.checksum old.checksum
  else if ipP = ipProtoUdp then adjust16 packet 40 new.checksum old.checksum
  else if ipP = ipProtoIcmp then
    let icmpType ← load8 packet 34
    if isEcho icmpType then adjust16 packet 36 new.checksumPort old.checksumPort
    else if isIcmpError icmpType then fillIcmpChecksum packet
    else return packet
  else return packet

/-- The same and the checksum of the IP header. -/
def rewriteChecksums (packet : Bytes) (new old : NatIpPortPair) : Option Bytes := do
  let packet ← rewritePayloadChecksum packet new old
  adjust16 packet 24 new.checksumIp old.checksum

/-- `get_nat_port_from_icmp`. -/
def getNatPortFromIcmp (packet : Bytes) (natType : NatType) : Option (BitVec 16) := do
  let icmpType ← load8 packet 34
  if isEcho icmpType then load16 packet 38
  else if isIcmpError icmpType then
    let dataP ← load8 packet 51
    if isTcpOrUdp dataP then load16 packet (if natType = .external then 62 else 64)
    else if dataP = ipProtoIcmp then load16 packet 66
    else return 0
  else return 0

/-- `get_nat_ip_port_pair`. -/
def getNatIpPortPair (packet : Bytes) (natType : NatType) : Option (BitVec 32 × BitVec 16) := do
  let ip ← load32 packet (if natType = .external then 30 else 26)
  let ipP ← load8 packet 23
  if isTcpOrUdp ipP then
    let port ← load16 packet (if natType = .external then 36 else 34)
    return (ip, port)
  else if ipP = ipProtoIcmp then
    let port ← getNatPortFromIcmp packet natType
    return (ip, port)
  else return (0, 0)

def NatEntry.ext (ne : NatEntry) : BitVec 32 × BitVec 16 := (ne.natExt.ip, ne.natExt.port)

def NatEntry.int (ne : NatEntry) : BitVec 32 × BitVec 16 := (ne.natInt.ip, ne.natInt.port)

/-- `found_nat_table_match`. -/
def foundNatTableMatch (ne : NatEntry) (pair : BitVec 32 × BitVec 16) : NatType → Bool
  | .external => ne.natExt.ip == pair.1 && ne.natExt.port == pair.2
  | .internal => ne.natInt.ip == pair.1 && ne.natInt.port == pair.2

/-- `get_nat_table_entry`: the position of the first entry that matches. -/
def getNatTableEntry (table : List NatEntry) (packet : Bytes) (natType : NatType) :
    Option (Option Nat) := do
  let pair ← getNatIpPortPair packet natType
  return table.findIdx? fun ne => foundNatTableMatch ne pair natType

/-- `is_unique_nat_ext_port`. -/
def isUniqueNatExtPort (table : List NatEntry) (port : BitVec 16) : Bool :=
  table.all fun ne => ne.natExt.port != port

/-- `get_src_port_number`. -/
def getSrcPortNumber (packet : Bytes) : Option (BitVec 16) := do
  let ipP ← load8 packet 23
  if isTcpOrUdp ipP then load16 packet 34
  else if ipP = ipProtoIcmp then
    let icmpType ← load8 packet 34
    if isEcho icmpType then load16 packet 38
    else if isIcmpError icmpType then load16 packet 62
    else return 0
  else return 0

/-- The first of the values of `rand` that is taken for a port. -/
def drawPort (table : List NatEntry) (rand : List (BitVec 16)) : Option (BitVec 16) :=
  rand.find? fun port => decide (1024 < port) && isUniqueNatExtPort table port

/-- `create_nat_table_entry`. -/
def createNatTableEntry (table : List NatEntry) (packet : Bytes) (extIp : BitVec 32)
    (rand : List (BitVec 16)) : Option NatEntry := do
  let port ← drawPort table rand
  let ipSrc ← load32 packet 26
  let srcPort ← getSrcPortNumber packet
  return ⟨computeNatChecksums extIp (swap16 port), computeNatChecksums ipSrc srcPort, 0⟩

/-- What `populate_nat_packet` writes into the packet that an ICMP error carries. -/
def populateIcmpData (packet : Bytes) (ne : NatEntry) (natType : NatType) : Option Bytes := do
  let new := if natType = .external then ne.natExt else ne.natInt
  let old := if natType = .external then ne.natInt else ne.natExt
  let packet ← store32 packet (if natType = .external then 58 else 54) new.ip
  let dataSum ← load16 packet 52
  -- the checksum of the outer header is cleared
  let packet ← store16 packet 24 0
  let packet ← store16 packet 52 (natChecksum dataSum new.checksumIp old.checksumIp)
  let dataP ← load8 packet 51
  if isTcpOrUdp dataP then store16 packet (if natType = .external then 64 else 62) new.port
  else if dataP = ipProtoIcmp then
    let dataType ← load8 packet 62
    if isEcho dataType then
      let packet ← store16 packet 66 new.port
      adjust16 packet 64 new.checksumPort old.checksumPort
    else return packet
  else return packet

/-- `populate_nat_packet`. -/
def populateNatPacket (packet : Bytes) (ne : NatEntry) (natType : NatType) : Option Bytes := do
  let new := if natType = .external then ne.natExt else ne.natInt
  let packet ← store32 packet (if natType = .external then 26 else 30) new.ip
  let ipP ← load8 packet 23
  if isTcpOrUdp ipP then store16 packet (if natType = .external then 34 else 36) new.port
  else if ipP = ipProtoIcmp then
    let icmpType ← load8 packet 34
    if isEcho icmpType then store16 packet 38 new.port
    else if isIcmpError icmpType then populateIcmpData packet ne natType
    else return packet
  else return packet

def NatEntry.hit (ne : NatEntry) : NatEntry := { ne with hits := ne.hits + 1 }

/-- `process_nat_ext_packet`: the table and the packet behind it. -/
def processNatExtPacket (table : List NatEntry) (packet : Bytes) :
    Option (List NatEntry × Bytes) := do
  match ← getNatTableEntry table packet .external with
  | none => return (table, packet)
  | some k =>
    let ne ← table[k]?
    let packet ← populateNatPacket packet ne .internal
    let packet ← rewriteChecksums packet ne.natInt ne.natExt
    return (table.modify k NatEntry.hit, packet)

/-- The entry for a packet on its way out, which may be new. -/
def findOrCreate (table : List NatEntry) (packet : Bytes) (extIp : BitVec 32)
    (rand : List (BitVec 16)) : Option (List NatEntry × Nat) := do
  match ← getNatTableEntry table packet .internal with
  | some k => return (table, k)
  | none =>
    let ne ← createNatTableEntry table packet extIp rand
    return (table ++ [ne], table.length)

/-- `process_nat_int_packet`. For another protocol there is no entry to follow. -/
def processNatIntPacket (table : List NatEntry) (packet : Bytes) (extIp : BitVec 32)
    (rand : List (BitVec 16)) : Option (List NatEntry × Bytes) := do
  let ipP ← load8 packet 23
  if isTcpOrUdp ipP || ipP == ipProtoIcmp then
    let (table, k) ← findOrCreate table packet extIp rand
    let ne ← table[k]?
    let packet ← populateNatPacket packet ne .external
    let packet ← rewriteChecksums packet ne.natExt ne.natInt
    return (table.modify k NatEntry.hit, packet)
  else none

inductive Event
  | int (packet : Bytes) (extIp : BitVec 32) (rand : List (BitVec 16))
  | ext (packet : Bytes)

def step (table : List NatEntry) : Event → Option (List NatEntry × Bytes)
  | .int packet extIp rand => processNatIntPacket table packet extIp rand
  | .ext packet => processNatExtPacket table packet

end Osnt.Scone.OrNat
