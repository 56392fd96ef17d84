import Osnt.Axis
import Osnt.Fifo
import Osnt.Lib.Machine

/-! `rate_limiter_simple.v`: after each packet the output is kept idle for the length of the
packet shifted by the configured rate. -/
namespace Osnt.RateLimiter

inductive State where
  | waitForPkt | waitForIpg
deriving DecidableEq, Inhabited, Repr

/-- Registers of the module. -/
structure Limiter where
  fifo : FallthroughFifo Word 2
  state : State
  timerTicks : BitVec 64
deriving Inhabited

/-- Inputs of the module in one cycle. -/
structure Input where
  swRst : Bool
  rateLimEn : Bool
  rateInBits : BitVec 32
  tvalid : Bool
  word : Word
  tready : Bool

/-- What the module drives combinationally in a cycle. -/
structure Next where
  mTvalid : Bool
  mWord : Word
  sTready : Bool
  rdEn : Bool
  wrEn : Bool
  timerTicks : BitVec 64
  state : State

namespace Limiter

def reset (s : Limiter) : Limiter := ⟨s.fifo.reset, .waitForPkt, 0⟩

def comb (s : Limiter) (i : Input) : Next :=
  if !i.rateLimEn then
    { mTvalid := i.tvalid
      mWord := i.word
      sTready := i.tready
      rdEn := false
      wrEn := false
      timerTicks := s.timerTicks
      state := .waitForPkt }
  else
    let sTready := !s.fifo.nearlyFull
    let idle : Next :=
      { mTvalid := false
        mWord := { s.fifo.dout with tlast := false }
        sTready := sTready
        rdEn := false
        wrEn := sTready && i.tvalid
        timerTicks := s.timerTicks
        state := .waitForPkt }
    match s.state with
    | .waitForPkt =>
      if !s.fifo.empty then
        if i.tready then
          if s.fifo.dout.tlast then
            { idle with
              mTvalid := true
              mWord := s.fifo.dout
              rdEn := true
              timerTicks := (s.timerTicks + 1) <<< i.rateInBits
              state := .waitForIpg }
          else
            { idle with
              mTvalid := true
              rdEn := true
              timerTicks := s.timerTicks + 1 }
        else { idle with mTvalid := true }
      else idle
    | .waitForIpg =>
      if (1 : BitVec 64).ult s.timerTicks then
        { idle with
          timerTicks := s.timerTicks - 1
          state := .waitForIpg }
      else { idle with timerTicks := 0 }

def step (s : Limiter) (i : Input) : Limiter :=
  if i.swRst then s.reset
  else
    { fifo := s.fifo.step (s.comb i).wrEn i.word (s.comb i).rdEn
      state := (s.comb i).state
      timerTicks := (s.comb i).timerTicks }

def machine : Lib.Machine Limiter Input := ⟨step⟩

/-- Words taken from the source in a cycle. -/
def accepted (s : Limiter) (i : Input) : List Word :=
  if i.tvalid && (s.comb i).sTready then [i.word] else []

/-- Words handed over at the output in a cycle. -/
def handed (s : Limiter) (i : Input) : List Word :=
  if (s.comb i).mTvalid && i.tready then [(s.comb i).mWord] else []

end Limiter
end Osnt.RateLimiter
