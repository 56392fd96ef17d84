import Osnt.Axis
import Osnt.Lib.Machine
import Osnt.Lib.CrossingFifo

/-! `tx_queue.v`: the queue in front of a MAC, written with `clk` and drained with `clk156`.

`u_tx_fifo` holds the words and `tx_info_fifo` one entry for each packet that is complete. The
two FIFOs cross the clocks separately, so a run is a sequence of edges of the two clocks and of
crossings, in any order. -/
namespace Osnt.TxQueue
open Lib

inductive State
  | idle
  | sendPkt
deriving DecidableEq, Repr

/-- An edge of `clk` with the input port, an edge of `clk156` with `o_tready` and what
`u_tx_fifo` shows on `dout` when it is empty, or a crossing of one of the FIFOs. -/
inductive Event
  | clk (tvalid : Bool) (word : Word)
  | clk156 (tready : Bool) (junk : Word)
  | revealWord
  | revealInfo
  | freeWord
  | freeInfo

/-- The two FIFOs and the state of the draining machine. -/
structure Tx where
  fifo : CrossingFifo Word
  infoFifo : CrossingFifo Unit
  state : State

def reset : Tx := ⟨.new, .new, .idle⟩

/-- The combinational outputs of the draining machine. -/
structure Drive where
  stateNext : State
  tvalid : Bool
  tlast : Bool
  fifoRdEn : Bool
  infoFifoRdEn : Bool
  txDequeuedPkt : Bool
  be : Bool

/-- The defaults at the head of the process. -/
def Drive.none : Drive := ⟨.idle, false, false, false, false, false, false⟩

namespace Tx
variable (depth : Nat) (s : Tx)

/-- `prog_full` of `u_tx_fifo`, raised at 118 of its 128 words. -/
def fifoAlmostFull : Bool := decide (128 - 10 ≤ s.fifo.occupied)

/-- `full` of `tx_info_fifo`, which holds `depth` entries. -/
def infoFifoFull : Bool := decide (depth ≤ s.infoFifo.occupied)

def iTready : Bool := !s.fifoAlmostFull && !s.infoFifoFull depth

/-- `dout` of `u_tx_fifo`. -/
def dout (junk : Word) : Word := s.fifo.shown.head?.getD junk

/-- The draining process. -/
def drive (tready : Bool) (junk : Word) : Drive :=
  match s.state with
  | .idle =>
    if !s.infoFifo.empty && !s.fifo.empty then
      if tready then
        { stateNext := if (s.dout junk).tlast then .idle else .sendPkt
          tvalid := true
          tlast := (s.dout junk).tlast
          fifoRdEn := true
          infoFifoRdEn := true
          txDequeuedPkt := true
          be := true }
      else { Drive.none with stateNext := .sendPkt, tvalid := true, infoFifoRdEn := true }
    else Drive.none
  | .sendPkt =>
    if tready && !s.fifo.empty then
      { stateNext := if (s.dout junk).tlast then .idle else .sendPkt
        tvalid := true
        tlast := (s.dout junk).tlast
        fifoRdEn := true
        infoFifoRdEn := false
        txDequeuedPkt := true
        be := true }
    else { Drive.none with stateNext := .sendPkt, tvalid := true }

def step : Event → Tx
  | .clk tvalid word =>
    if tvalid && s.iTready depth then
      { s with
        fifo := s.fifo.write word
        infoFifo := if word.tlast then s.infoFifo.write () else s.infoFifo }
    else s
  | .clk156 tready junk =>
    { fifo := if (s.drive tready junk).fifoRdEn then s.fifo.read else s.fifo
      infoFifo := if (s.drive tready junk).infoFifoRdEn then s.infoFifo.read else s.infoFifo
      state := (s.drive tready junk).stateNext }
  | .revealWord => { s with fifo := s.fifo.reveal }
  | .revealInfo => { s with infoFifo := s.infoFifo.reveal }
  | .freeWord => { s with fifo := s.fifo.free }
  | .freeInfo => { s with infoFifo := s.infoFifo.free }

/-- The word taken in on the input. -/
def enqueued : Event → List Word
  | .clk tvalid word => if tvalid && s.iTready depth then [word] else []
  | _ => []

/-- The word the MAC accepts, with the `o_tlast` it comes with. -/
def accepted : Event → List Word
  | .clk156 tready junk =>
    if (s.drive tready junk).tvalid && tready then
      [{ s.dout junk with tlast := (s.drive tready junk).tlast }]
    else []
  | _ => []

/-- The word that leaves `u_tx_fifo`. -/
def popped : Event → List Word
  | .clk156 tready junk => if (s.drive tready junk).fifoRdEn then s.fifo.shown.head?.toList else []
  | _ => []

/-- The MAC is ready for a word of a packet under way, and none shows. -/
def starved : Event → Bool
  | .clk156 tready _ => s.state == .sendPkt && tready && s.fifo.empty
  | _ => false

/-- The packets whose last word shows. -/
def packetsShown : Nat := s.fifo.shown.countP Word.tlast

/-- The packets whose entry shows, and the one under way. -/
def announced : Nat := s.infoFifo.shown.length + if s.state = .sendPkt then 1 else 0

/-- An entry shows only when the last word of its packet does. -/
def inOrder : Event → Bool
  | .revealInfo => s.infoFifo.crossing.isEmpty || decide (s.announced < s.packetsShown)
  | _ => true

end Tx

def machine (depth : Nat) : Machine Tx Event := ⟨Tx.step depth⟩

def after (depth : Nat) (es : List Event) : Tx := (machine depth).run reset es

def enqueued (depth : Nat) (es : List Event) : List Word :=
  (machine depth).collect (Tx.enqueued depth) reset es

def accepted (depth : Nat) (es : List Event) : List Word :=
  (machine depth).collect Tx.accepted reset es

/-- In every cycle the MAC accepts exactly what leaves the FIFO, and what it has accepted and
what waits is at all times what was enqueued. -/
def HandsOver (depth : Nat) (es : List Event) : Prop :=
  (machine depth).Along (fun s e => s.accepted e = s.popped e) reset es ∧
    ∀ past, past <+: es →
      accepted depth past ++ (after depth past).fifo.items = enqueued depth past

/-- Whenever the MAC is ready for a word of a packet under way, one shows. -/
def NeverStarved (depth : Nat) (es : List Event) : Prop :=
  (machine depth).Along (fun s e => s.starved e = false) reset es

end Osnt.TxQueue
