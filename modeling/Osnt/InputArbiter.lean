import Osnt.Axis
import Osnt.Fifo
import Osnt.Lib.Machine

/-! `input_arbiter.v` with its three queues: packets of three streams, round robin, on
one output. -/
namespace Osnt.InputArbiter

inductive State where
  | idle | wrPkt
deriving DecidableEq, Inhabited, Repr

/-- Registers of the arbiter. -/
structure Arbiter where
  fifo : Fin 3 → FallthroughFifo Word 5
  curQueue : BitVec 2
  state : State
deriving Inhabited

/-- Inputs of the arbiter in one cycle. -/
structure Input where
  tvalid : Fin 3 → Bool
  word : Fin 3 → Word
  tready : Bool

/-- What the state machine drives in a cycle; `rdEn` is that of the current queue. -/
structure Next where
  state : State
  curQueue : BitVec 2
  rdEn : Bool

namespace Arbiter

def reset (s : Arbiter) : Arbiter := ⟨fun q => (s.fifo q).reset, 0, .idle⟩

/-- The queue the current index selects. The index has room for a fourth queue that does
not exist; it is never reached. -/
def cur (s : Arbiter) : Fin 3 :=
  if h : s.curQueue.toNat < 3 then ⟨s.curQueue.toNat, h⟩ else 0

def sTready (s : Arbiter) (q : Fin 3) : Bool := !(s.fifo q).nearlyFull

def wrEn (s : Arbiter) (i : Input) (q : Fin 3) : Bool := i.tvalid q && !(s.fifo q).nearlyFull

/-- `extended_empty`: the empty flags of the queues, twice. -/
def extendedEmpty (s : Arbiter) (k : Nat) : Bool := (s.fifo (Fin.ofNat 3 k)).empty

/-- `extended_next_queue`: the next queue that is not empty, looking beyond the last. -/
def extendedNextQueue (s : Arbiter) : Nat :=
  let c := s.curQueue.toNat
  if !s.extendedEmpty (c + 1) then c + 1
  else if !s.extendedEmpty (c + 2) then c + 2
  else if !s.extendedEmpty (c + 3) then c + 3
  else c + 1

def nextQueue (s : Arbiter) : BitVec 2 :=
  BitVec.ofNat 2 (if s.extendedNextQueue > 2 then s.extendedNextQueue - 3 else s.extendedNextQueue)

def mWord (s : Arbiter) : Word := (s.fifo s.cur).dout

def mTvalid (s : Arbiter) : Bool := !(s.fifo s.cur).empty

def comb (s : Arbiter) (i : Input) : Next :=
  match s.state with
  | .idle =>
    if !(s.fifo s.cur).empty then
      if i.tready && s.mWord.tlast then ⟨.idle, s.nextQueue, true⟩
      else if i.tready then ⟨.wrPkt, s.curQueue, true⟩
      else ⟨.idle, s.curQueue, false⟩
    else ⟨.idle, s.nextQueue, false⟩
  | .wrPkt =>
    if i.tready && s.mWord.tlast then ⟨.idle, s.nextQueue, true⟩
    else if i.tready && !(s.fifo s.cur).empty then ⟨.wrPkt, s.curQueue, true⟩
    else ⟨.wrPkt, s.curQueue, false⟩

def rdEn (s : Arbiter) (i : Input) (q : Fin 3) : Bool := decide (q = s.cur) && (s.comb i).rdEn

def step (s : Arbiter) (i : Input) : Arbiter where
  fifo q := (s.fifo q).step (s.wrEn i q) (i.word q) (s.rdEn i q)
  curQueue := (s.comb i).curQueue
  state := (s.comb i).state

def machine : Lib.Machine Arbiter Input := ⟨step⟩

/-- Words taken on a slave port in a cycle. -/
def accepted (q : Fin 3) (s : Arbiter) (i : Input) : List Word :=
  if i.tvalid q && s.sTready q then [i.word q] else []

/-- Words handed over on `m_axis` in a cycle, with the queue they come from. -/
def handed (s : Arbiter) (i : Input) : List (Fin 3 × Word) :=
  if s.mTvalid && i.tready then [(s.cur, s.mWord)] else []

end Arbiter
end Osnt.InputArbiter
