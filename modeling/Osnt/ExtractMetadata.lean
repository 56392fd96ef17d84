import Osnt.Axis
import Osnt.Fifo
import Osnt.Lib.Framing
import Osnt.Lib.Machine

/-! `extract_metadata.v`: the first word of a packet carries its metadata; it is taken off, and the
timestamp in it goes to the side band of the word behind it. -/
namespace Osnt.ExtractMetadata
open Lib

inductive State where
  | rdTuserBits | rdPktBits
deriving DecidableEq, Inhabited, Repr

/-- Registers of the module. -/
structure Extract where
  fifo : FallthroughFifo Word 2
  state : State
  timestamp : BitVec 32
deriving Inhabited

/-- Inputs of the module in one cycle. -/
structure Input where
  swRst : Bool
  emEnable : Bool
  tvalid : Bool
  word : Word
  tready : Bool

/-- What the module drives combinationally in a cycle. -/
structure Next where
  mTvalid : Bool
  mWord : Word
  sTready : Bool
  rdEn : Bool
  wrEn : Bool
  timestamp : BitVec 32
  state : State

/-- `fifo_tdata[31:0]`. -/
def tdataTimestamp (w : Word) : BitVec 32 := w.tdata.extractLsb' 0 32

/-- The word with its timestamp field, `tuser[63:32]`, replaced. -/
def setTimestamp (ts : BitVec 32) (w : Word) : Word :=
  { w with tuser := w.tuser.extractLsb' 64 64 ++ ts ++ w.tuser.extractLsb' 0 32 }

namespace Extract

def reset (s : Extract) : Extract := ⟨s.fifo.reset, .rdTuserBits, 0⟩

def comb (s : Extract) (i : Input) : Next :=
  if !i.emEnable then
    { mTvalid := i.tvalid
      mWord := i.word
      sTready := i.tready
      rdEn := false
      wrEn := false
      timestamp := s.timestamp
      state := s.state }
  else
    let sTready := !s.fifo.nearlyFull
    let idle : Next :=
      { mTvalid := false
        mWord := { setTimestamp s.timestamp s.fifo.dout with tlast := false }
        sTready := sTready
        rdEn := false
        wrEn := sTready && i.tvalid
        timestamp := s.timestamp
        state := s.state }
    match s.state with
    | .rdTuserBits =>
      -- The word is not looked at further: it may be the last of its packet.
      if !s.fifo.empty then
        { idle with
          timestamp := tdataTimestamp s.fifo.dout
          rdEn := true
          state := .rdPktBits }
      else idle
    | .rdPktBits =>
      if !s.fifo.empty then
        if i.tready then
          if s.fifo.dout.tlast then
            { idle with
              mTvalid := true
              mWord := setTimestamp s.timestamp s.fifo.dout
              rdEn := true
              timestamp := 0
              state := .rdTuserBits }
          else
            { idle with
              mTvalid := true
              rdEn := true
              timestamp := 0 }
        else { idle with mTvalid := true }
      else idle

def step (s : Extract) (i : Input) : Extract :=
  if i.swRst then s.reset
  else
    { fifo := s.fifo.step (s.comb i).wrEn i.word (s.comb i).rdEn
      state := (s.comb i).state
      timestamp := (s.comb i).timestamp }

def machine : Machine Extract Input := ⟨step⟩

/-- Words taken from the source in a cycle. -/
def accepted (s : Extract) (i : Input) : List Word :=
  if i.tvalid && (s.comb i).sTready then [i.word] else []

/-- Words handed over at the output in a cycle. -/
def handed (s : Extract) (i : Input) : List Word :=
  if (s.comb i).mTvalid && i.tready then [(s.comb i).mWord] else []

end Extract

/-! What the block is for. -/

/-- The words of a packet behind the first, whose timestamp the next one carries. -/
def unwrap : List Word → List Word
  | [] => []
  | [_] => []
  | w :: v :: vs => setTimestamp (tdataTimestamp w) v :: vs.map (setTimestamp 0)

/-- Every packet of a stream without its first word, and of the open one as much as there is. -/
def unwrapped (ws : List Word) : List Word := framewise Word.tlast unwrap ws

end Osnt.ExtractMetadata
