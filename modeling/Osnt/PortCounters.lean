import Osnt.OutputQueues
import Osnt.PacketCounters

/-! The port counters of `output_queues.v` behind its queues. -/
namespace Osnt.PortCounters
open OutputQueues
open PacketCounters (low top bit assign pktCounter)

/-- The registers of a port. -/
structure PortRegs where
  pktstored : BitVec 32
  bytesstored : BitVec 32
  pktremoved : BitVec 32
  bytesremoved : BitVec 32
  pktdropped : BitVec 32
  bytesdropped : BitVec 32
  pktinqueue : BitVec 32
deriving DecidableEq, Inhabited

/-- Which of the registers of a port are cleared. -/
structure PortClears where
  pktstored : Bool
  bytesstored : Bool
  pktremoved : Bool
  bytesremoved : Bool
  pktdropped : Bool
  bytesdropped : Bool
  pktinqueue : Bool

/-- A counter of bytes. They have 32 bits, so the sum that is compared has 32 bits. -/
def byteCounter (clear : Bool) (reg : BitVec 32) (bytes : BitVec 32) : BitVec 32 :=
  let sum := (low reg).setWidth 32 + bytes
  assign clear (low sum)
    (if sum > (BitVec.allOnes 31).setWidth 32 then true else top reg)

/-- The assignments of a port, from the pulses of a cycle. What is dropped adds the bit of
`bytes_dropped` that has the number of the port. -/
def PortRegs.step (r : PortRegs) (s : Queues) (i : OutputQueues.Input) (q : Fin 3)
    (clearCounters : Bool) (clear : PortClears) : PortRegs where
  pktstored :=
    pktCounter (clearCounters || clear.pktstored) r.pktstored
      (low r.pktstored + bit (s.pktStored q))
  bytesstored :=
    byteCounter (clearCounters || clear.bytesstored) r.bytesstored
      (if s.pktStored q then s.bytesStored else 0)
  pktremoved :=
    pktCounter (clearCounters || clear.pktremoved) r.pktremoved
      (low r.pktremoved + bit (s.metadataComb i q).pktRemoved)
  bytesremoved :=
    byteCounter (clearCounters || clear.bytesremoved) r.bytesremoved
      (s.metadataComb i q).bytesRemoved
  pktdropped :=
    pktCounter (clearCounters || clear.pktdropped) r.pktdropped
      (low r.pktdropped + bit (s.pktDropped q))
  bytesdropped :=
    pktCounter (clearCounters || clear.bytesdropped) r.bytesdropped
      (low r.bytesdropped + bit (s.bytesDropped.getLsbD q))
  pktinqueue :=
    pktCounter (clearCounters || clear.pktinqueue) r.pktinqueue
      (low r.pktinqueue + bit (s.pktStored q) - bit (s.metadataComb i q).pktRemoved)

/-- The queues, the two stages of `resetn_sync` and the registers. -/
structure Sys where
  queues : Queues
  resetnSyncD : Bool
  resetnSync : Bool
  regs : Fin 3 → PortRegs
deriving Inhabited

structure Input where
  stream : OutputQueues.Input
  resetRegisters : Bool
  clearCounters : Bool
  clear : Fin 3 → PortClears

namespace Sys

def reset (s : Sys) : Sys where
  queues := s.queues.reset
  resetnSyncD := false
  resetnSync := false
  regs _ := ⟨0, 0, 0, 0, 0, 0, 0⟩

def step (s : Sys) (i : Input) : Sys where
  queues := s.queues.step i.stream
  resetnSyncD := true
  resetnSync := s.resetnSyncD
  regs q :=
    if !s.resetnSync || i.resetRegisters then ⟨0, 0, 0, 0, 0, 0, 0⟩
    else (s.regs q).step s.queues i.stream q i.clearCounters (i.clear q)

def machine : Lib.Machine Sys Input := ⟨step⟩

end Sys

/-- A cycle that clears nothing. -/
def plain (i : OutputQueues.Input) : Input :=
  ⟨i, false, false, fun _ => ⟨false, false, false, false, false, false, false⟩⟩

end Osnt.PortCounters
