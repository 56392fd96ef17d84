import Osnt.Axis
import Osnt.Fifo
import Osnt.Lib.Machine

/-! `inter_packet_delay.v`: a packet waits in the input FIFO until the tick counter
has reached the value loaded when the packet before it left. -/
namespace Osnt.InterPacketDelay

inductive State where
  | header | body
deriving DecidableEq, Inhabited, Repr

/-- Registers of the module. -/
structure Ipd where
  fifo : FallthroughFifo Word 2
  state : State
  timerTicks : BitVec 64
  delayVal : BitVec 64
deriving Inhabited

/-- Inputs of the module in one cycle. -/
structure Input where
  swRst : Bool
  ipdEn : Bool
  useRegVal : Bool
  delayRegVal : BitVec 32
  tvalid : Bool
  word : Word
  tready : Bool

/-- What the module drives combinationally in a cycle. -/
structure Next where
  mTvalid : Bool
  mWord : Word
  sTready : Bool
  rdEn : Bool
  wrEn : Bool
  delayVal : BitVec 64
  state : State

namespace Ipd

def reset (s : Ipd) : Ipd := ⟨s.fifo.reset, .header, 0, 0⟩

/-- The delay the packet at the head of the FIFO asks for after itself. -/
def delayOf (s : Ipd) (i : Input) : BitVec 32 :=
  if i.useRegVal then i.delayRegVal else s.fifo.dout.tuser.extractLsb' 32 32

def comb (s : Ipd) (i : Input) : Next :=
  if !i.ipdEn then
    { mTvalid := i.tvalid
      mWord := i.word
      sTready := i.tready
      rdEn := false
      wrEn := false
      delayVal := s.delayVal
      state := .header }
  else
    let sTready := !s.fifo.nearlyFull
    let wrEn := sTready && i.tvalid
    let idle : Next :=
      { mTvalid := false
        mWord := { s.fifo.dout with tlast := false }
        sTready := sTready
        rdEn := false
        wrEn := wrEn
        delayVal := s.delayVal
        state := s.state }
    match s.state with
    | .header =>
      if !s.fifo.empty && s.delayVal.ule s.timerTicks then
        if i.tready then
          { idle with
            mTvalid := true
            mWord := s.fifo.dout
            rdEn := true
            delayVal := s.timerTicks + (s.delayOf i).setWidth 64
            state := if s.fifo.dout.tlast then .header else .body }
        else { idle with mTvalid := true }
      else idle
    | .body =>
      if !s.fifo.empty then
        if i.tready then
          { idle with
            mTvalid := true
            mWord := s.fifo.dout
            rdEn := true
            state := if s.fifo.dout.tlast then .header else .body }
        else { idle with mTvalid := true }
      else idle

def step (s : Ipd) (i : Input) : Ipd :=
  if i.swRst then s.reset
  else
    { fifo := s.fifo.step (s.comb i).wrEn i.word (s.comb i).rdEn
      state := (s.comb i).state
      timerTicks := s.timerTicks + 1
      delayVal := (s.comb i).delayVal }

def machine : Lib.Machine Ipd Input := ⟨step⟩

/-- Words taken from the source in a cycle. -/
def accepted (s : Ipd) (i : Input) : List Word :=
  if i.tvalid && (s.comb i).sTready then [i.word] else []

/-- Words handed over at the output in a cycle. -/
def handed (s : Ipd) (i : Input) : List Word :=
  if (s.comb i).mTvalid && i.tready then [(s.comb i).mWord] else []

end Ipd
end Osnt.InterPacketDelay
