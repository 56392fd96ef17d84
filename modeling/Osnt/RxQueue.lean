import Osnt.Axis
import Osnt.Lib.Machine
import Osnt.Lib.Framing

/-! `osnt_rx_queue.v`: the queue behind a MAC, which cannot be stalled.

The queue is written with `clk156` and read with `clk`; a run is a sequence of edges of
the two clocks in any order. `u_rxqueue` is an ideal FIFO that discards writes when full,
of depth `RXQUEUE_DEPTH`, here `d`. -/
namespace Osnt.RxQueue
open Lib

/-- A word from the MAC and the value of `stamp_counter` in its cycle. -/
structure Arrival where
  word : Word
  stamp : BitVec 64
deriving DecidableEq, Inhabited

namespace Arrival

def tlast (a : Arrival) : Bool := a.word.tlast

/-- The word with `stamp_counter` in place of the low 64 bits of the data. -/
def stamped (a : Arrival) : Word :=
  { a.word with tdata := a.word.tdata.extractLsb' 64 448 ++ a.stamp }

end Arrival

/-- An edge of `clk156` with the signals of the MAC, or of `clk` with `o_tready`. -/
inductive Edge
  | clk156 (tvalid : Bool) (tuserErr : Bool) (a : Arrival)
  | clk (tready : Bool)

inductive State
  | idle
  | pkt
deriving DecidableEq, Repr

/-- Registers of the queue and the contents of `u_rxqueue`. -/
structure Rx where
  state : State
  rxPktDropReg : Bool
  fifo : List Word

def reset : Rx := ⟨.idle, false, []⟩

namespace Rx
variable (d : Nat) (s : Rx)

def fifoFull : Bool := decide (d ≤ s.fifo.length)

/-- `prog_full`, raised at `RXQUEUE_DEPTH - 10` words. -/
def fifoAlmostFull : Bool := decide (d - 10 ≤ s.fifo.length)

def rxGoodFrame (tuserErr : Bool) : Bool := tuserErr

def rxPktDrop (tvalid tuserErr : Bool) : Bool :=
  (tvalid && s.state == .idle && s.fifoAlmostFull d) ||
    (tvalid && s.state == .idle && !rxGoodFrame tuserErr)

def rxPktDropFrame (tvalid tuserErr : Bool) : Bool :=
  s.rxPktDrop d tvalid tuserErr || s.rxPktDropReg

def fifoWrEn (tvalid tuserErr : Bool) : Bool := tvalid && !s.rxPktDropFrame d tvalid tuserErr

def insertStampCounter (tvalid tuserErr : Bool) : Bool :=
  tvalid && s.state == .idle && !s.rxPktDropFrame d tvalid tuserErr

def rxFifoWord (tvalid tuserErr : Bool) (a : Arrival) : Word :=
  if s.insertStampCounter d tvalid tuserErr then a.stamped else a.word

/-- The words that an edge of `clk156` stores. -/
def stored (tvalid tuserErr : Bool) (a : Arrival) : List Word :=
  if s.fifoWrEn d tvalid tuserErr && !s.fifoFull d then [s.rxFifoWord d tvalid tuserErr a] else []

/-- The next state and `rx_pkt_drop_reg`. -/
def next (tvalid tuserErr tlast : Bool) : State × Bool :=
  match s.state with
  | .idle =>
    if tvalid && tlast && s.rxPktDropFrame d tvalid tuserErr then (.idle, false)
    else if tvalid && s.rxPktDropFrame d tvalid tuserErr then (.idle, true)
    else if tvalid && tlast && !s.rxPktDropFrame d tvalid tuserErr then (.idle, s.rxPktDropReg)
    else if tvalid && !s.rxPktDropFrame d tvalid tuserErr then (.pkt, s.rxPktDropReg)
    else (.idle, s.rxPktDropReg)
  | .pkt =>
    if tvalid && tlast && !s.fifoFull d then (.idle, s.rxPktDropReg)
    else (.pkt, s.rxPktDropReg)

def step : Edge → Rx
  | .clk156 tvalid tuserErr a =>
    { state := (s.next d tvalid tuserErr a.tlast).1
      rxPktDropReg := (s.next d tvalid tuserErr a.tlast).2
      fifo := s.fifo ++ s.stored d tvalid tuserErr a }
  | .clk tready => if tready then { s with fifo := s.fifo.tail } else s

/-- The words handed over in an edge of `clk`: `o_tvalid` is high whenever the FIFO is not
empty. -/
def delivered : Edge → List Word
  | .clk156 _ _ _ => []
  | .clk tready => if tready then s.fifo.head?.toList else []

/-- A word of a packet under way comes while the FIFO is full. -/
def overrun : Edge → Bool
  | .clk156 tvalid _ _ => tvalid && s.state == .pkt && s.fifoFull d
  | .clk _ => false

end Rx

def machine (d : Nat) : Machine Rx Edge := ⟨Rx.step d⟩

def after (d : Nat) (es : List Edge) : Rx := (machine d).run reset es

/-- Everything handed over on the output in a run from reset. -/
def output (d : Nat) (es : List Edge) : List Word :=
  (machine d).collect Rx.delivered reset es

/-- The words that come from the MAC, each with its stamp. -/
def received : List Edge → List Arrival :=
  List.flatMap fun
    | .clk156 tvalid _ a => if tvalid then [a] else []
    | .clk _ => []

/-- What a packet looks like on the output: only its first word is stamped. -/
def stampPacket : List Arrival → List Word
  | [] => []
  | a :: as => a.stamped :: as.map Arrival.word

/-- The output is made of some of the packets received, in order and each as a whole, and
possibly of all that has come of the one still open. -/
def WholePackets (arrivals : List Arrival) (out : List Word) : Prop :=
  ∃ sel : List (List Arrival), sel.Sublist (frames Arrival.tlast arrivals).closed ∧
    (out = (sel.map stampPacket).flatten ∨
      out = (sel.map stampPacket).flatten ++
        stampPacket (frames Arrival.tlast arrivals).rest)

/-- Edges of `clk` at which the receiver is ready, enough to read the queue empty. -/
def drain (d : Nat) (es : List Edge) : List Edge :=
  List.replicate (after d es).fifo.length (.clk true)

/-- At every point of the run, what has been and is still to be delivered are whole packets. -/
def DeliversWhole (d : Nat) (es : List Edge) : Prop :=
  ∀ past, past <+: es → WholePackets (received past) (output d (past ++ drain d past))

/-- No word of a packet under way comes while the FIFO is full. -/
def NeverOverrun (d : Nat) (es : List Edge) : Prop :=
  (machine d).Along (fun s e => s.overrun d e = false) reset es

/-- `i_tuser_err` is held good. -/
def Good (es : List Edge) : Prop :=
  ∀ tvalid tuserErr a, .clk156 tvalid tuserErr a ∈ es → Rx.rxGoodFrame tuserErr = true

end Osnt.RxQueue
