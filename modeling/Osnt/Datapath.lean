import Osnt.PcapReplay

/-! The pipelining registers of `nf_datapath.v` around queue 0 of the replay
engine: one stage between the engine and its memory, in both directions, and one
between the engine and the inter-packet delay, valid and data forward, ready
backward. All modules of the datapath run on one clock. -/
namespace Osnt.Datapath
open PcapReplay

/-- `ip2bram_*0_reg`. -/
structure BramRegs where
  addr : MemAddr
  dout : MemWord
  din : MemWord
  en : Bool
  we : Bool
deriving Inhabited

/-- A queue that reaches its memory through the register stage. -/
structure Piped where
  q : Queue
  regs : BramRegs
  bram : Bram
deriving Inhabited

namespace Piped

def reset (s : Piped) : Piped := { s with q := s.q.reset, regs := ⟨0, 0, 0, false, false⟩ }

/-- One clock edge: the engine sees the registered read data, the memory the
registered port. -/
def step (p : Ports) (s : Piped) (i : Input) : Piped where
  q := s.q.step p i s.regs.din
  regs :=
    { addr := s.q.memAddr
      dout := s.q.memWrData
      din := s.bram.rddata
      en := s.q.memEn i s.regs.din
      we := s.q.memWe }
  bram := s.bram.step s.regs.addr s.regs.en s.regs.we s.regs.dout

def machine (p : Ports) : Lib.Machine Piped Input := ⟨Piped.step p⟩

end Piped

/-- `m0_axis_pcap_*_reg`: what the receiver sees of the engine, and the ready the
engine sees of the receiver. -/
structure AxisRegs where
  word : Word
  tvalid : Bool
  tready : Bool
deriving Inhabited

/-- A queue of the engine and the stream registers behind it. -/
structure Linked where
  q : Queue
  regs : AxisRegs
deriving Inhabited

/-- Inputs of the link in one cycle: those of the queue, its memory's read data,
and the receiver's `s0_axis_tready`. -/
structure LinkInput where
  inp : Input
  dina : MemWord
  tready : Bool

namespace Linked

def reset (s : Linked) : Linked where
  q := s.q.reset
  regs := ⟨default, false, false⟩

/-- The queue runs on the registered ready. -/
def queueInput (s : Linked) (i : LinkInput) : Input := { i.inp with tready := s.regs.tready }

/-- The word the engine shows in this cycle; zero while its send machine is idle. -/
def shown (p : Ports) (s : Linked) : Word :=
  match s.q.sendState with
  | .idle => default
  | .send => s.q.tword p

def step (p : Ports) (s : Linked) (i : LinkInput) : Linked where
  q := s.q.step p (s.queueInput i) i.dina
  regs := ⟨s.shown p, s.q.tvalid, i.tready⟩

def machine (p : Ports) : Lib.Machine Linked LinkInput := ⟨Linked.step p⟩

/-- Words the engine considers sent in a cycle. -/
def sent (p : Ports) (s : Linked) (i : LinkInput) : List Word := s.q.handed p (s.queueInput i)

/-- Words the receiver accepts in a cycle. -/
def accepted (s : Linked) (i : LinkInput) : List Word :=
  if s.regs.tvalid && i.tready then [s.regs.word] else []

end Linked
end Osnt.Datapath
