import Osnt.Axis
import Mathlib.Algebra.Group.Nat.Defs

/-! The stamps `load_pcap_ts` of `generator.py` sends in front of the packets of a
trace, over integer ticks of 4 ns. -/
namespace Osnt.HostStamps

/-- `pkt_time_diff`: a second for the first packet, for every other one the ticks since
the packet before it. -/
def pktTimeDiff : List Nat → List Nat
  | [] => []
  | t :: ts => 250000000 :: List.zipWith (· - ·) ts (t :: ts)

/-- `TS_SIGNATURE`. -/
def tsSignature : List (BitVec 8) := [0xde, 0xad, 0xbe, 0xef, 0x00, 0x00, 0x00, 0x00]

/-- `ts_pkt_out`: the signature and sixteen hex digits of the stamp. -/
def tsPktOut (stamp : Nat) : List (BitVec 8) :=
  tsSignature ++ (List.range 8).map (fun k => BitVec.ofNat 8 (stamp / 256 ^ (7 - k)))

/-- Bytes as they lie on the data lines, the first one lowest. -/
def lanes (bs : List (BitVec 8)) : BitVec 512 :=
  bs.foldr (fun b d => d <<< 8 ||| b.setWidth 512) 0

/-- A frame of at most 64 bytes as one word of the stream. -/
def frameWord (tuser : BitVec 128) (bs : List (BitVec 8)) : Word where
  tdata := lanes bs
  tkeep := BitVec.ofNat 64 (2 ^ bs.length - 1)
  tuser := tuser
  tlast := true

/-- The packets of a trace, each with its stamp. -/
def stamped (times : List Nat) (packets : List (List Word)) : List (Nat × List Word) :=
  (pktTimeDiff times).zip packets

/-- What the host sends for a trace: every packet behind its stamp frame. -/
def hostStream (tuser : BitVec 128) (pkts : List (Nat × List Word)) : List Word :=
  pkts.flatMap (fun p => frameWord tuser (tsPktOut p.1) :: p.2)

end Osnt.HostStamps
