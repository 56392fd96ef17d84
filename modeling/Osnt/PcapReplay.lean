import Osnt.Bram
import Osnt.Fifo
import Osnt.Lib.Machine

/-! One queue of `osnt_bram_pcap_replay_uengine.v`: the machine that writes the
memory, the machine that replays it, the pcap FIFO and the send machine.

The two queues of the engine are the same logic on their own registers; they
differ in the source port that opens a load (`8'h02`, `8'h08`) and in the ports
stamped into the side band of what is sent (`16'h0102`, `16'h0408`). -/
namespace Osnt.PcapReplay

inductive WrState where
  | idle | wr | done
deriving DecidableEq, Inhabited, Repr

inductive RdState where
  | idle | rd
deriving DecidableEq, Inhabited, Repr

inductive SendState where
  | idle | send
deriving DecidableEq, Inhabited, Repr

/-- What tells the two queues apart. -/
structure Ports where
  srcPort : BitVec 8
  dstTag : BitVec 16

def queue0 : Ports := ⟨0x02, 0x0102⟩

def queue1 : Ports := ⟨0x08, 0x0408⟩

/-- Inputs of a queue in one cycle. `tuserSrcPort` is the live `s_axis_tuser[23:16]`;
`pre` is the word on `pre_axis`, if its tvalid is high. -/
structure Input where
  swRst : Bool
  tuserSrcPort : BitVec 8
  pre : Option Word
  wrDone : Bool
  startReplay : Bool
  replayCount : BitVec 32
  tready : Bool

/-- Registers of the write machine. -/
structure WrMachine where
  addr : MemAddr
  state : WrState
deriving Inhabited

/-- What the write machine drives combinationally in a cycle. -/
structure WrNext where
  addrNext : MemAddr
  we : Bool
  data : MemWord
  stateNext : WrState

namespace WrMachine

def reset : WrMachine := ⟨1, .idle⟩

def next (port : BitVec 8) (m : WrMachine) (i : Input) : WrNext :=
  match m.state with
  | .idle =>
    match i.pre with
    | some w =>
      if i.tuserSrcPort = port then ⟨m.addr + 1, true, .pack w, .wr⟩ else ⟨1, false, 0, .idle⟩
    | none => ⟨1, false, 0, .idle⟩
  | .wr =>
    if i.swRst then ⟨1, true, 0, .idle⟩
    else if i.wrDone then ⟨m.addr + 1, true, .marker, .done⟩
    else
      match i.pre with
      | some w => ⟨m.addr + 1, true, .pack w, .wr⟩
      | none => ⟨m.addr, false, 0, .wr⟩
  | .done => ⟨1, true, 0, .idle⟩

def step (port : BitVec 8) (m : WrMachine) (i : Input) : WrMachine :=
  if i.swRst then reset else ⟨(m.next port i).addrNext, (m.next port i).stateNext⟩

end WrMachine

/-- Registers of one queue. -/
structure Queue where
  wr : WrMachine
  memWrAddr : MemAddr
  memWren : Bool
  memWrData : MemWord
  rStartReplay : Bool
  memRdAddr : MemAddr
  count : BitVec 32
  rdState : RdState
  rRden : Bool
  rFifoNearlyFull : Bool
  fifo : FallthroughFifo Word 5
  sendState : SendState
deriving Inhabited

/-- What the read machine drives combinationally in a cycle. -/
structure RdNext where
  addrNext : MemAddr
  rden : Bool
  countNext : BitVec 32
  stateNext : RdState

namespace Queue

/-- Registers after a cycle with `axis_aresetn` low. -/
def reset (q : Queue) : Queue where
  wr := .reset
  memWrAddr := 0
  memWren := false
  memWrData := 0
  rStartReplay := false
  memRdAddr := 1
  count := 0
  rdState := .idle
  rRden := false
  rFifoNearlyFull := false
  fifo := q.fifo.reset
  sendState := .idle

/-- `w_q0_start`: the start bit rises. -/
def start (q : Queue) (i : Input) : Bool := i.startReplay && !q.rStartReplay

def rdNext (q : Queue) (i : Input) (dina : MemWord) : RdNext :=
  match q.rdState with
  | .idle =>
    if q.start i && !q.fifo.nearlyFull && i.replayCount != 0 then ⟨q.memRdAddr + 1, true, 0, .rd⟩
    else ⟨1, false, 0, .idle⟩
  | .rd =>
    if i.swRst then ⟨1, false, 0, .idle⟩
    else if dina.isMarker && !q.fifo.nearlyFull then
      if (q.count + 1).ult i.replayCount then ⟨1, true, q.count + 1, .rd⟩
      else ⟨1, true, 0, .idle⟩
    else if !q.fifo.nearlyFull then ⟨q.memRdAddr + 1, true, q.count, .rd⟩
    else ⟨q.memRdAddr, false, q.count, .rd⟩

/-- `w_fifo_nearly_full0`: the stall has just ended. -/
def stallEnds (q : Queue) : Bool := !q.fifo.nearlyFull && q.rFifoNearlyFull

/-- The gate in front of the FIFO inputs. -/
def fifoGate (q : Queue) (i : Input) (dina : MemWord) : Bool :=
  (q.rRden && (q.rdNext i dina).rden) || q.stallEnds

def fifoIn (q : Queue) (i : Input) (dina : MemWord) : Word :=
  if q.fifoGate i dina then dina.unpack else default

def fifoInTvalid (q : Queue) (i : Input) (dina : MemWord) : Bool :=
  q.fifoGate i dina && dina.tvalid

def fifoWrEn (q : Queue) (i : Input) (dina : MemWord) : Bool :=
  q.fifoInTvalid i dina && !q.fifo.nearlyFull

def tvalid (q : Queue) : Bool :=
  match q.sendState with
  | .idle => false
  | .send => !q.fifo.empty

/-- The word on `m_axis` while the send machine is in its send state. -/
def tword (p : Ports) (q : Queue) : Word :=
  { q.fifo.dout with tuser := q.fifo.dout.tuser.extractLsb' 32 96 ++ p.dstTag ++ 0#16 }

def fifoRden (q : Queue) (i : Input) : Bool :=
  match q.sendState with
  | .idle => false
  | .send => i.tready && !q.fifo.empty

def sendNext (q : Queue) (i : Input) : SendState :=
  match q.sendState with
  | .idle => if i.tready && !q.fifo.empty && i.replayCount != 0 then .send else .idle
  | .send => if i.tready && !q.fifo.empty && q.fifo.dout.tlast then .idle else .send

def memAddr (q : Queue) : MemAddr := if q.memWren then q.memWrAddr else q.memRdAddr

def memEn (q : Queue) (i : Input) (dina : MemWord) : Bool := q.memWren || (q.rdNext i dina).rden

def memWe (q : Queue) : Bool := q.memWren

/-- One clock edge out of reset; `dina` is the memory's read data in this cycle. -/
def step (p : Ports) (q : Queue) (i : Input) (dina : MemWord) : Queue where
  wr := q.wr.step p.srcPort i
  memWrAddr := q.wr.addr
  memWren := (q.wr.next p.srcPort i).we
  memWrData := (q.wr.next p.srcPort i).data
  rStartReplay := i.startReplay
  memRdAddr := if i.swRst then 1 else (q.rdNext i dina).addrNext
  count := if i.swRst then 0 else (q.rdNext i dina).countNext
  rdState := if i.swRst then .idle else (q.rdNext i dina).stateNext
  rRden := (q.rdNext i dina).rden
  rFifoNearlyFull := q.fifo.nearlyFull
  fifo := q.fifo.step (q.fifoWrEn i dina) (q.fifoIn i dina) (q.fifoRden i)
  sendState := q.sendNext i

/-- Words written into the pcap FIFO in a cycle. -/
def pushed (q : Queue) (i : Input) (dina : MemWord) : List Word :=
  if q.fifoWrEn i dina then [q.fifoIn i dina] else []

/-- Words handed over on `m_axis` in a cycle. -/
def handed (p : Ports) (q : Queue) (i : Input) : List Word :=
  if q.tvalid && i.tready then [q.tword p] else []

end Queue

/-- A queue wired straight to its memory. -/
structure Direct where
  q : Queue
  bram : Bram
deriving Inhabited

namespace Direct

/-- The engine is reset; the memory keeps what it holds. -/
def reset (s : Direct) : Direct := { s with q := s.q.reset }

def step (p : Ports) (s : Direct) (i : Input) : Direct where
  q := s.q.step p i s.bram.rddata
  bram := s.bram.step s.q.memAddr (s.q.memEn i s.bram.rddata) s.q.memWe s.q.memWrData

def machine (p : Ports) : Lib.Machine Direct Input := ⟨Direct.step p⟩

end Direct
end Osnt.PcapReplay
