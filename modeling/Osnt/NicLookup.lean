import Osnt.Fifo
import Osnt.Lookup
import Osnt.SwitchLookup

/-! `nic_output_port_lookup.v`: what comes from a MAC goes to its CPU queue, what comes from a CPU
queue goes to its MAC. -/
namespace Osnt.NicLookup
open SwitchLookup (withPorts)

inductive State where
  | moduleHeader | inPacket
deriving DecidableEq, Inhabited, Repr

structure Regs where
  inputFifo : FallthroughFifo Word 2
  state : State
deriving Inhabited

/-- `tuser[SRC_PORT_POS+7 : SRC_PORT_POS]`. -/
def srcPort (w : Word) : BitVec 8 := w.tuser.extractLsb' 16 8

/-- A packet is from the CPU if it is on an odd numbered port. -/
def pktIsFromCpu (src : BitVec 8) : Bool :=
  src.getLsbD 1 || src.getLsbD 3 || src.getLsbD 5 || src.getLsbD 7

/-- The destination ports: MAC 0 for a packet without a source. -/
def dstPort (src : BitVec 8) : BitVec 8 :=
  if src = 0 then 1
  else if pktIsFromCpu src then (0 : BitVec 1) ++ src.extractLsb' 1 7
  else src.extractLsb' 0 7 ++ (0 : BitVec 1)

namespace Regs
variable (s : Regs) (i : LookupInput)

def reset : Regs := ⟨s.inputFifo.reset, .moduleHeader⟩

def sTready : Bool := !s.inputFifo.nearlyFull

def mTvalid : Bool := !s.inputFifo.empty

def mWord : Word :=
  match s.state with
  | .moduleHeader =>
    if s.mTvalid then withPorts s.inputFifo.dout (dstPort (srcPort s.inputFifo.dout))
    else s.inputFifo.dout
  | .inPacket => s.inputFifo.dout

def stateNext : State :=
  match s.state with
  | .moduleHeader =>
    if s.mTvalid then
      if s.inputFifo.dout.tlast && s.mTvalid && i.tready then .moduleHeader
      else if i.tready then .inPacket
      else .moduleHeader
    else .moduleHeader
  | .inPacket =>
    if s.inputFifo.dout.tlast && s.mTvalid && i.tready then .moduleHeader else .inPacket

def step : Regs where
  inputFifo := s.inputFifo.step (i.tvalid && !s.inputFifo.nearlyFull) i.word
    (i.tready && !s.inputFifo.empty)
  state := s.stateNext i

end Regs

/-! What the block is for. -/

/-- The transmit queues, two MACs and the CPU, that a packet from the ports `src` is for. -/
def goesTo (src : BitVec 8) : Fin 3 → Bool
  | 0 => src == 0 || src.getLsbD 1
  | 1 => src.getLsbD 3
  | 2 =>
    if pktIsFromCpu src then src.getLsbD 2 || src.getLsbD 4 else src.getLsbD 0 || src.getLsbD 2

/-- The ports a packet comes from, in the side band of its first word. -/
def source (pkt : List Word) : BitVec 8 := (pkt.head?.map srcPort).getD 0

def lookup : Lookup Regs := ⟨Regs.step, Regs.sTready, Regs.mTvalid, Regs.mWord⟩

end Osnt.NicLookup
