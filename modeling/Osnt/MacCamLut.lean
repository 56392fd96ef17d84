import Osnt.Lib.FifoTable
import Osnt.Lib.Machine
import Mathlib.Algebra.Group.Nat.Defs
import Mathlib.Data.Fintype.Basic

/-! `mac_cam_lut.v` of the lite switch: a table of `2 ^ LUT_DEPTH_BITS` rows that learns the port of
each source address. -/
namespace Osnt.MacCamLut
open Lib FifoTable

/-- What is asked for a packet. -/
structure Request where
  dstMac : BitVec 48
  srcMac : BitVec 48
  srcPort : BitVec 8
deriving DecidableEq, Inhabited, Repr

/-- A row of `lut`. -/
structure Entry where
  ports : BitVec 8
  mac : BitVec 48
deriving DecidableEq, Inhabited, Repr

/-- Registers; the parameter is `LUT_DEPTH_BITS`. -/
structure Lut (d : Nat) where
  lut : BitVec d → Entry
  lutWrAddr : BitVec d
  dstPorts : BitVec 8
  lookupDone : Bool
  lutHit : Bool
  lutMiss : Bool
deriving Inhabited

/-- Inputs in one cycle. -/
structure Input where
  lookupReq : Bool
  req : Request
  reset : Bool

/-- `DEFAULT_MISS_OUTPUT_PORTS`: the MACs, not the CPU queues. -/
def defaultMissOutputPorts : BitVec 8 := 0x05

namespace Lut
variable {d : Nat} (s : Lut d)

/-- Row `i` holds an address. -/
def matchesRow (mac : BitVec 48) (i : Nat) : Bool := (s.lut (BitVec.ofNat d i)).mac == mac

/-- `lut_lookup_hit[i]` and `lut_learn_hit[i]`: some row up to `i` holds the address. -/
def hit (mac : BitVec 48) : Nat → Bool
  | 0 => s.matchesRow mac 0
  | i + 1 => if s.matchesRow mac (i + 1) then true else hit mac i

/-- `rd_oq[i]`: the ports of the last row up to `i` that holds the address. -/
def rdOq (mac : BitVec 48) : Nat → BitVec 8
  | 0 => if s.matchesRow mac 0 then (s.lut (BitVec.ofNat d 0)).ports else 0
  | i + 1 =>
    if s.matchesRow mac (i + 1) then (s.lut (BitVec.ofNat d (i + 1))).ports else rdOq mac i

def lookupHit (r : Request) : Bool := s.hit r.dstMac (2 ^ d - 1)

def learnHit (r : Request) : Bool := s.hit r.srcMac (2 ^ d - 1)

/-- After a reset all rows hold address 0, and no port. -/
def cleared : Lut d := ⟨fun _ => ⟨0, 0⟩, 0, 0, false, false, false⟩

def step (i : Input) : Lut d :=
  if i.reset then cleared
  else
    { lut := fun a =>
        if i.lookupReq then
          if (s.lut a).mac == i.req.srcMac || (!s.learnHit i.req && s.lutWrAddr == a) then
            ⟨i.req.srcPort, i.req.srcMac⟩
          else s.lut a
        else s.lut a
      lutWrAddr := if i.lookupReq && !s.learnHit i.req then s.lutWrAddr + 1 else s.lutWrAddr
      dstPorts :=
        if i.lookupReq then
          if s.lookupHit i.req then s.rdOq i.req.dstMac (2 ^ d - 1) &&& ~~~ i.req.srcPort
          else defaultMissOutputPorts &&& ~~~ i.req.srcPort
        else s.dstPorts
      lookupDone := i.lookupReq
      lutHit := i.lookupReq && s.lookupHit i.req
      lutMiss := i.lookupReq && !s.lookupHit i.req }

end Lut

def machine (d : Nat) : Machine (Lut d) Input := ⟨Lut.step⟩

/-! What the block is for. -/

/-- The ports of each address, of the addresses the one that came first at the head. -/
abbrev PortTable := Table (BitVec 48) (BitVec 8)

def emptyTable (d : Nat) : PortTable := List.replicate (2 ^ d) (0, 0)

/-- What a request teaches. -/
def lesson (r : Request) : BitVec 48 × BitVec 8 := (r.srcMac, r.srcPort)

/-- The ports of a packet: those of its destination, or the MACs if that is unknown, and never the
one it came from. -/
def answer (t : PortTable) (r : Request) : BitVec 8 :=
  (find t r.dstMac).getD defaultMissOutputPorts &&& ~~~ r.srcPort

/-- The answers to requests in a row, each learned after its answer. -/
def answers : PortTable → List Request → List (BitVec 8)
  | _, [] => []
  | t, r :: rs => answer t r :: answers (learn t (lesson r)) rs

/-- The requests of a cycle. -/
def asked {d : Nat} (_ : Lut d) (i : Input) : List Request := if i.lookupReq then [i.req] else []

/-- The answers shown in a cycle. -/
def replied {d : Nat} (s : Lut d) (_ : Input) : List (BitVec 8) :=
  if s.lookupDone then [s.dstPorts] else []

end Osnt.MacCamLut
