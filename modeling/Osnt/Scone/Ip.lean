/-! `or_ip.c` of the SCONE router. A buffer is a list of bytes; a read beyond its end, which the
callers exclude, gives zero. -/
namespace Osnt.Scone.Ip

/-- `ntohs` of the `i`-th halfword of a buffer. -/
def ntohsAt (data : List (BitVec 8)) (i : Nat) : BitVec 16 :=
  data.getD (2 * i) 0 ++ data.getD (2 * i + 1) 0

/-- `verify_checksum`: 0 for a good checksum and 1 for a bad one. -/
def verifyChecksum (data : List (BitVec 8)) (dataLength : Nat) : Int :=
  let sum2Comp : BitVec 32 :=
    (List.range (dataLength / 2)).foldl (fun sum i => sum + (ntohsAt data i).setWidth 32) 0
  let sum1Comp : BitVec 16 := ((sum2Comp >>> 16) + (sum2Comp &&& 0xFFFF)).setWidth 16
  if sum1Comp = 0xFFFF then 0 else 1

/-- `is_packet_valid`: IPv4 without options, not a fragment, and with a good checksum. The IP header
lies behind the Ethernet header. -/
def isPacketValid (packet : List (BitVec 8)) : Bool :=
  let ip := packet.drop 14
  let fragField := ntohsAt ip 3
  if (ip.getD 0 0).extractLsb' 4 4 ≠ 4 then false
  else if (ip.getD 0 0).extractLsb' 0 4 ≠ 5 then false
  else if fragField &&& 0x2000 ≠ 0 ∨ fragField &&& 0x1fff ≠ 0 then false
  else if verifyChecksum ip (4 * ((ip.getD 0 0).extractLsb' 0 4).toNat) ≠ 0 then false
  else true

end Osnt.Scone.Ip
