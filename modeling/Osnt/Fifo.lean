import Mathlib.Logic.Function.Basic
import Mathlib.Algebra.Group.Nat.Defs

/-! `small_fifo.v` and the three-stage read side of `fallthrough_small_fifo.v`.

`MAX_DEPTH_BITS` is the parameter `d`. The storage array and the output register
of `small_fifo` have no reset, so their contents are arbitrary after one. -/
namespace Osnt

/-- Registers of `small_fifo`. -/
structure SmallFifo (α : Type) (d : Nat) where
  queue : BitVec d → α
  rdPtr : BitVec d
  wrPtr : BitVec d
  depth : BitVec (d + 1)
  dout : α
deriving Inhabited

namespace SmallFifo
variable {α : Type} {d : Nat}

def full (s : SmallFifo α d) : Bool := s.depth.toNat == 2 ^ d

def nearlyFull (s : SmallFifo α d) : Bool := decide (2 ^ d - 1 ≤ s.depth.toNat)

def progFull (threshold : Nat) (s : SmallFifo α d) : Bool := decide (threshold ≤ s.depth.toNat)

def empty (s : SmallFifo α d) : Bool := s.depth == 0

def reset (s : SmallFifo α d) : SmallFifo α d :=
  { s with rdPtr := 0, wrPtr := 0, depth := 0 }

/-- One clock edge. There is no guard: a write to a full queue laps it and a read
of an empty one underflows the depth. -/
def step (s : SmallFifo α d) (wrEn : Bool) (din : α) (rdEn : Bool) : SmallFifo α d where
  queue := if wrEn then Function.update s.queue s.wrPtr din else s.queue
  dout := if rdEn then s.queue s.rdPtr else s.dout
  wrPtr := if wrEn then s.wrPtr + 1 else s.wrPtr
  rdPtr := if rdEn then s.rdPtr + 1 else s.rdPtr
  depth :=
    if wrEn && !rdEn then s.depth + 1
    else if !wrEn && rdEn then s.depth - 1
    else s.depth

end SmallFifo

/-- Registers of `fallthrough_small_fifo`: the plain FIFO and two output stages. -/
structure FallthroughFifo (α : Type) (d : Nat) where
  fifo : SmallFifo α d
  fifoValid : Bool
  middleValid : Bool
  doutValid : Bool
  middleDout : α
  dout : α
deriving Inhabited

namespace FallthroughFifo
variable {α : Type} {d : Nat}

def full (s : FallthroughFifo α d) : Bool := s.fifo.full

def nearlyFull (s : FallthroughFifo α d) : Bool := s.fifo.nearlyFull

def progFull (threshold : Nat) (s : FallthroughFifo α d) : Bool := s.fifo.progFull threshold

def empty (s : FallthroughFifo α d) : Bool := !s.doutValid

def willUpdateDout (s : FallthroughFifo α d) (rdEn : Bool) : Bool :=
  (s.middleValid || s.fifoValid) && (rdEn || !s.doutValid)

def willUpdateMiddle (s : FallthroughFifo α d) (rdEn : Bool) : Bool :=
  s.fifoValid && (s.middleValid == s.willUpdateDout rdEn)

def fifoRdEn (s : FallthroughFifo α d) : Bool :=
  !s.fifo.empty && !(s.middleValid && s.doutValid && s.fifoValid)

def reset [Inhabited α] (s : FallthroughFifo α d) : FallthroughFifo α d where
  fifo := s.fifo.reset
  fifoValid := false
  middleValid := false
  doutValid := false
  middleDout := default
  dout := default

/-- One clock edge out of reset. -/
def step (s : FallthroughFifo α d) (wrEn : Bool) (din : α) (rdEn : Bool) :
    FallthroughFifo α d where
  fifo := s.fifo.step wrEn din s.fifoRdEn
  middleDout := if s.willUpdateMiddle rdEn then s.fifo.dout else s.middleDout
  dout :=
    if s.willUpdateDout rdEn then (if s.middleValid then s.middleDout else s.fifo.dout)
    else s.dout
  fifoValid :=
    if s.fifoRdEn then true
    else if s.willUpdateMiddle rdEn || s.willUpdateDout rdEn then false
    else s.fifoValid
  middleValid :=
    if s.willUpdateMiddle rdEn then true
    else if s.willUpdateDout rdEn then false
    else s.middleValid
  doutValid :=
    if s.willUpdateDout rdEn then true
    else if rdEn then false
    else s.doutValid

end FallthroughFifo
end Osnt
