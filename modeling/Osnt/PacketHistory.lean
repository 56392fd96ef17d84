import Mathlib.Logic.Function.Basic
import Osnt.Lib.Machine
import Osnt.Lib.Framing

/-! `packet_history.v` with `pkt_parser.v`: two words with what was seen of the last sixteen
packets are put in front of every packet.

The stream is 1024 bits wide, as `switch_meta_history.tcl` sets it. `input_fifo` and `tuple_fifo`
are ideal fall-through FIFOs of 16 words that raise `prog_full` at 10; nothing is written to
`input_fifo` beyond that, and a write to a full `tuple_fifo` is lost. -/
namespace Osnt.PacketHistory
open Lib

/-- One beat of the stream. -/
structure Beat where
  tdata : BitVec 1024
  tkeep : BitVec 128
  tuser : BitVec 128
  tlast : Bool
deriving DecidableEq, Inhabited

/-- `TUPLE_WIDTH` bits: both addresses, both ports and the length. -/
abbrev Tuple := BitVec 112

/-- What `pkt_parser` takes from the first word of a packet. -/
def Beat.tuple (w : Beat) : Tuple :=
  w.tdata.extractLsb' 208 32 ++ w.tdata.extractLsb' 240 32 ++ w.tdata.extractLsb' 272 16 ++
    w.tdata.extractLsb' 288 16 ++ w.tuser.extractLsb' 0 16

inductive ParserState
  | idle
  | waitNext
deriving DecidableEq, Repr

/-- Registers of `pkt_parser`. -/
structure Parser where
  state : ParserState
  tuple : Tuple
  tupleValid : Bool

/-- The parser watches the bus, but not whether the word on it is taken. -/
def Parser.step (p : Parser) (tvalid : Bool) (w : Beat) : Parser :=
  match p.state with
  | .idle =>
    if tvalid then ⟨if w.tlast then .idle else .waitNext, w.tuple, true⟩
    else { p with tupleValid := false }
  | .waitNext =>
    { p with state := if w.tlast then .idle else .waitNext, tupleValid := false }

inductive State
  | firstBatch
  | secondBatch
  | sendPacket
deriving DecidableEq, Repr

/-- Registers of the block and the contents of its FIFOs. -/
structure History where
  parser : Parser
  inputFifo : List Beat
  tupleFifo : List Tuple
  memHistory : BitVec 4 → Tuple
  ptrPos : BitVec 4
  wrMemEn : Bool
  state : State

def reset : History where
  parser := ⟨.idle, 0, false⟩
  inputFifo := []
  tupleFifo := []
  memHistory := fun _ => 0
  ptrPos := 0
  wrMemEn := false
  state := .firstBatch

/-- The inputs of a cycle; `dout` is what `input_fifo` shows when it is empty. -/
structure Ports where
  sTvalid : Bool
  sWord : Beat
  mTready : Bool
  dout : Beat

/-- `m_axis_tdata` in `FIRST_BATCH`. -/
def firstData (mem : BitVec 4 → Tuple) (ptrPos : BitVec 4) : BitVec 1024 :=
  (mem 0 ++ mem 1 ++ mem 2 ++ mem 3 ++ mem 4 ++ mem 5 ++ mem 6 ++ mem 7 ++ mem 8 ++
    ptrPos).setWidth 1024

/-- `m_axis_tdata` in `SECOND_BATCH`. -/
def secondData (mem : BitVec 4 → Tuple) : BitVec 1024 :=
  mem 9 ++ mem 10 ++ mem 11 ++ mem 12 ++ mem 13 ++ mem 14 ++ mem 15 ++ 0#240

/-- The ports are set in the first history word: port 0 and port 1 are each other's way out. -/
def outPorts (tuser : BitVec 128) : BitVec 128 :=
  if tuser.getLsbD 16 then tuser ||| 1#128 <<< 26
  else if tuser.getLsbD 18 then tuser ||| 1#128 <<< 24
  else tuser

namespace History
variable (s : History) (i : Ports)

def sTready : Bool := !decide (10 ≤ s.inputFifo.length) && !decide (10 ≤ s.tupleFifo.length)

def inputWrEn : Bool := i.sTvalid && s.sTready

def inputRdEn : Bool := s.state == .sendPacket && !s.inputFifo.isEmpty && i.mTready

def tupleRdEn : Bool := s.state == .secondBatch && i.mTready

def wrMemEnNext : Bool := s.state == .firstBatch && !s.tupleFifo.isEmpty && i.mTready

/-- What `input_fifo` shows. -/
def inFifo : Beat := s.inputFifo.headD i.dout

def firstWord : Beat where
  tdata := firstData s.memHistory s.ptrPos
  tkeep := BitVec.allOnes 128
  tuser := outPorts (s.inFifo i).tuser
  tlast := false

def secondWord : Beat where
  tdata := secondData s.memHistory
  tkeep := BitVec.allOnes 128
  tuser := (s.inFifo i).tuser
  tlast := false

/-- The word that is handed over on `m_axis`; `m_axis_tvalid` waits for `m_axis_tready`. -/
def sent : List Beat :=
  match s.state with
  | .firstBatch => if s.wrMemEnNext i then [s.firstWord i] else []
  | .secondBatch => if s.tupleRdEn i then [s.secondWord i] else []
  | .sendPacket => if s.inputRdEn i then [s.inFifo i] else []

def stateNext : State :=
  match s.state with
  | .firstBatch => if s.wrMemEnNext i then .secondBatch else .firstBatch
  | .secondBatch => if s.tupleRdEn i then .sendPacket else .secondBatch
  | .sendPacket => if s.inputRdEn i && (s.inFifo i).tlast then .firstBatch else .sendPacket

/-- The words that `input_fifo` is written with. -/
def accepted : List Beat := if s.inputWrEn i then [i.sWord] else []

/-- The words that are read from `input_fifo`. -/
def forwarded : List Beat := if s.inputRdEn i then [s.inFifo i] else []

/-- The tuples that `tuple_fifo` is written with. -/
def written : List Tuple :=
  if s.parser.tupleValid && decide (s.tupleFifo.length < 16) then [s.parser.tuple] else []

/-- The writes to the memory. -/
def recorded : List (BitVec 4 × Tuple) :=
  if s.wrMemEn then [(s.ptrPos, s.parser.tuple)] else []

def step : History where
  parser := s.parser.step i.sTvalid i.sWord
  inputFifo := (if s.inputRdEn i then s.inputFifo.tail else s.inputFifo) ++ s.accepted i
  tupleFifo := (if s.tupleRdEn i then s.tupleFifo.tail else s.tupleFifo) ++ s.written
  memHistory :=
    if s.wrMemEn then Function.update s.memHistory s.ptrPos s.parser.tuple else s.memHistory
  ptrPos := if s.tupleRdEn i then s.ptrPos + 1 else s.ptrPos
  wrMemEn := s.wrMemEnNext i
  state := s.stateNext i

end History

structure Sys where
  rem : List Beat
  held : Bool
  history : History

/-- A cycle: whether the source shows its next word, what is on the bus when it does not, and
the other side. -/
structure Input where
  go : Bool
  idle : Beat
  mTready : Bool
  dout : Beat

namespace Sys
variable (s : Sys) (i : Input)

def sTvalid : Bool := (s.held || i.go) && !s.rem.isEmpty

def bus : Beat := if s.sTvalid i then s.rem.headD i.idle else i.idle

def ports : Ports := ⟨s.sTvalid i, s.bus i, i.mTready, i.dout⟩

def takes : Bool := s.history.inputWrEn (s.ports i)

def step : Sys where
  rem := if s.takes i then s.rem.tail else s.rem
  held := s.sTvalid i && !s.takes i
  history := s.history.step (s.ports i)

end Sys

def machine : Machine Sys Input := ⟨Sys.step⟩

/-- A source with some packets in front of the block. -/
def start (pkts : List (List Beat)) : Sys := ⟨pkts.flatten, false, reset⟩

/-! What the block is for. -/

/-- Two history words that meet a condition each, depending on the number of the packet. -/
def IsHistory (P Q : Nat → Beat → Prop) (k : Nat) (h : List Beat) : Prop :=
  ∃ a b, h = [a, b] ∧ P k a ∧ Q k b

/-- Each packet comes in order behind its history words. -/
def Delivers (P Q : Nat → Beat → Prop) (pkts : List (List Beat)) (out : List Beat) : Prop :=
  ∃ hs, hs.length = pkts.length ∧ (∀ k h, hs[k]? = some h → IsHistory P Q k h) ∧
    out <+: headed hs pkts

/-- The tuple of a packet. -/
def tupleAt (pkts : List (List Beat)) (k : Nat) : Tuple :=
  ((pkts[k]?.bind List.head?).map Beat.tuple).getD 0

/-- The tuple of the most recent packet before the `k`-th whose number is `j` modulo 16. -/
def slot (pkts : List (List Beat)) (k : Nat) (j : BitVec 4) : Tuple :=
  match (List.range k).reverse.find? (fun l => l % 16 == j.toNat) with
  | some l => tupleAt pkts l
  | none => 0

section Run
variable (pkts : List (List Beat)) (ins : List Input)

def after : Sys := machine.run (start pkts) ins

def acceptedBy : List Beat :=
  machine.collect (fun s i => s.history.accepted (s.ports i)) (start pkts) ins

def sentBy : List Beat :=
  machine.collect (fun s i => s.history.sent (s.ports i)) (start pkts) ins

def writtenBy : List Tuple := machine.collect (fun s _ => s.history.written) (start pkts) ins

def recordedBy : List (BitVec 4 × Tuple) :=
  machine.collect (fun s _ => s.history.recorded) (start pkts) ins

/-- The words of packets handed over. -/
def forwardedBy : List Beat :=
  machine.collect (fun s i => s.history.forwarded (s.ports i)) (start pkts) ins

/-- The source shows no further word and everything is taken at once. -/
def drain : Input := ⟨false, default, true, default⟩

/-- The packets come behind two words each, with one tuple written for each, and what has been
accepted gets out. -/
structure Framed : Prop where
  delivers : Delivers (fun _ a => a.tlast = false) (fun _ b => b.tlast = false) pkts
    (sentBy pkts ins)
  tuples : (after pkts ins).held = false → (after pkts ins).history.parser.tupleValid = false →
    (writtenBy pkts ins).length = (openers Beat.tlast true (acceptedBy pkts ins)).length
  drains : ∃ n, let s := after pkts (ins ++ List.replicate n drain)
    s.history.inputFifo = [] ∧ s.history.tupleFifo = [] ∧ s.history.parser.tupleValid = false

/-- The history words show the pointer and the slots, and between packets each packet handed over
has been recorded once. -/
structure Recorded : Prop where
  delivers : Delivers
    (fun k a => a.tdata = firstData (slot pkts k) (BitVec.ofNat 4 k))
    (fun k b => b.tdata = secondData (slot pkts k)) pkts (sentBy pkts ins)
  recorded : (after pkts ins).history.state = .firstBatch →
    recordedBy pkts ins = (List.range (frames Beat.tlast (forwardedBy pkts ins)).closed.length).map
      fun k => (BitVec.ofNat 4 k, tupleAt pkts k)

/-- The end of a packet is taken in the cycle it is shown in: `tlast` is not seen with a word that
has to wait, nor by the parser between two words of a packet. -/
def Prompt (s : Sys) (i : Input) : Prop :=
  (s.bus i).tlast = true → s.sTvalid i = true ∨ s.history.parser.state = .waitNext →
    s.takes i = true

instance (s : Sys) (i : Input) : Decidable (Prompt s i) :=
  inferInstanceAs (Decidable (_ → _ → _))

/-- When the memory is written, the parser holds the tuple of the packet at hand, and the second
word is not kept waiting if it shows the slot. -/
def InTurn (s : Sys) (i : Input) : Prop :=
  s.history.wrMemEn = true →
    s.history.tupleFifo.head? = some s.history.parser.tuple ∧
      (i.mTready = true ∨ s.history.ptrPos < 9 ∨
        s.history.memHistory s.history.ptrPos = s.history.parser.tuple)

instance (s : Sys) (i : Input) : Decidable (InTurn s i) :=
  inferInstanceAs (Decidable (_ → _))

end Run
end Osnt.PacketHistory
