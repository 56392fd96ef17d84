import Osnt.PcapReplay

/-! `pre_pcap_bram_store.v`: the input FIFO, the stamp parser between the two width
converters, and the output FIFO; and the two write machines of the replay engine
that take its words.

The converters are generated cores. What they do in a cycle is an input of the
model. -/
namespace Osnt.PrePcapStore

/-- One beat of the 128-bit stream between the converters. -/
structure Beat where
  tdata : BitVec 128
  tkeep : BitVec 16
  tuser : BitVec 128
  tlast : Bool
deriving DecidableEq, Inhabited, Repr

namespace Beat

/-- `ts_signature_en`. -/
def tsSignatureEn (b : Beat) : Bool := b.tdata.extractLsb' 0 64 == 0x00000000efbeadde#64

/-- The stamp, most significant byte first in bytes 12 to 15 of the frame. -/
def tsValue (b : Beat) : BitVec 32 :=
  b.tdata.extractLsb' 96 8 ++ b.tdata.extractLsb' 104 8 ++ b.tdata.extractLsb' 112 8 ++
    b.tdata.extractLsb' 120 8

def tuserTs (b : Beat) : BitVec 128 := 0#64 ++ b.tsValue ++ b.tuser.extractLsb' 0 32

end Beat

inductive ConvState where
  | idle | drop | wait | send | pass
deriving DecidableEq, Inhabited, Repr

/-- Registers of the stamp parser. -/
structure Conv where
  state : ConvState
  tuser : BitVec 128
deriving DecidableEq, Inhabited, Repr

/-- What the parser drives in a cycle: the beat it offers to the 128-to-512
converter, its ready towards the 512-to-128 converter, and its next registers. -/
structure ConvNext where
  out : Option Beat
  tready : Bool
  next : Conv

namespace Conv

def reset : Conv := ⟨.idle, 0⟩

/-- `inp` is the beat on the 512-to-128 converter's output, if its tvalid is high;
`ready` is the ready of the 128-to-512 converter. -/
def comb (c : Conv) (inp : Option Beat) (ready : Bool) : ConvNext :=
  match c.state, inp with
  | .idle, none => ⟨none, false, ⟨.idle, 0⟩⟩
  | .idle, some b => ⟨none, false, ⟨if b.tsSignatureEn then .drop else .pass, 0⟩⟩
  | .drop, none => ⟨none, false, ⟨.drop, c.tuser⟩⟩
  | .drop, some b => ⟨none, true, ⟨if b.tlast then .send else .wait, b.tuserTs⟩⟩
  | .wait, none => ⟨none, false, ⟨.wait, c.tuser⟩⟩
  | .wait, some b => ⟨none, true, ⟨if b.tlast then .send else .wait, c.tuser⟩⟩
  | .send, none => ⟨none, false, ⟨.send, c.tuser⟩⟩
  | .send, some b =>
    ⟨some { b with tuser := c.tuser.extractLsb' 32 96 ++ b.tuser.extractLsb' 0 32 }, ready,
      ⟨if ready && b.tlast then .idle else .send, if ready then 0 else c.tuser⟩⟩
  | .pass, none => ⟨none, false, ⟨.pass, 0⟩⟩
  | .pass, some b => ⟨some b, ready, ⟨if ready && b.tlast then .idle else .pass, 0⟩⟩

end Conv

/-- Inputs of the store in one cycle. `conv512Tready` and `conv512Out` are the two
sides of the 512-to-128 converter, `conv128Tready` and `conv128Out` those of the
128-to-512 converter; an output is there if its tvalid is high. -/
structure StoreInput where
  tvalid : Bool
  word : Word
  conv512Tready : Bool
  conv512Out : Option Beat
  conv128Tready : Bool
  conv128Out : Option Word
  mTready : Bool

/-- Registers of the store. -/
structure Store where
  sFifo : FallthroughFifo Word 5
  conv : Conv
  mFifo : FallthroughFifo Word 5
deriving Inhabited

namespace Store

def reset (s : Store) : Store := ⟨s.sFifo.reset, .reset, s.mFifo.reset⟩

/-- The ready towards the host is tied high. -/
def sTready (_ : Store) : Bool := true

/-- Write enable of `pcap_s_fifo`. -/
def sWrEn (s : Store) (i : StoreInput) : Bool := i.tvalid && !s.sFifo.nearlyFull

def sRdEn (s : Store) (i : StoreInput) : Bool := !s.sFifo.empty && i.conv512Tready

/-- Write enable of `pcap_m_fifo`, which is also the converter's hand-over. -/
def mWrEn (s : Store) (i : StoreInput) : Bool := i.conv128Out.isSome && !s.mFifo.nearlyFull

def mRdEn (s : Store) (i : StoreInput) : Bool := i.mTready && !s.mFifo.empty

/-- The word on `m_axis`, if its tvalid is high. -/
def mWord (s : Store) : Option Word := if s.mFifo.empty then none else some s.mFifo.dout

def step (s : Store) (i : StoreInput) : Store where
  sFifo := s.sFifo.step (s.sWrEn i) i.word (s.sRdEn i)
  conv := (s.conv.comb i.conv512Out i.conv128Tready).next
  mFifo := s.mFifo.step (s.mWrEn i) (i.conv128Out.getD default) (s.mRdEn i)

def machine : Lib.Machine Store StoreInput := ⟨step⟩

/-! What passes each interface in a cycle. -/

/-- Words taken from the host by the handshake. -/
def accepted (s : Store) (i : StoreInput) : List Word :=
  if i.tvalid && s.sTready then [i.word] else []

/-- Words written into `pcap_s_fifo`. -/
def stored (s : Store) (i : StoreInput) : List Word := if s.sWrEn i then [i.word] else []

/-- Words handed to the 512-to-128 converter. -/
def toConv512 (s : Store) (i : StoreInput) : List Word :=
  if s.sRdEn i then [s.sFifo.dout] else []

/-- Beats the parser takes from the 512-to-128 converter. -/
def fromConv512 (s : Store) (i : StoreInput) : List Beat :=
  if (s.conv.comb i.conv512Out i.conv128Tready).tready then i.conv512Out.toList else []

/-- Beats the parser hands to the 128-to-512 converter. -/
def toConv128 (s : Store) (i : StoreInput) : List Beat :=
  if i.conv128Tready then (s.conv.comb i.conv512Out i.conv128Tready).out.toList else []

/-- Words taken from the 128-to-512 converter. -/
def fromConv128 (s : Store) (i : StoreInput) : List Word :=
  if s.mWrEn i then i.conv128Out.toList else []

end Store

/-- The store and the two write machines behind it. -/
structure Loader where
  store : Store
  wr0 : PcapReplay.WrMachine
  wr1 : PcapReplay.WrMachine
deriving Inhabited

/-- Inputs of the loader; `pre_axis_tready` is tied high. -/
structure LoaderInput where
  axis : StoreInput
  swRst : Bool
  q0WrDone : Bool
  q1WrDone : Bool

namespace Loader
open PcapReplay

def reset (s : Loader) : Loader := ⟨s.store.reset, .reset, .reset⟩

/-- What a write machine sees: the word the store shows and, undelayed, the source
port of whatever stands on the host's stream. -/
def wrInput (s : Loader) (i : LoaderInput) (wrDone : Bool) : Input where
  swRst := i.swRst
  tuserSrcPort := i.axis.word.tuser.extractLsb' 16 8
  pre := s.store.mWord
  wrDone := wrDone
  startReplay := false
  replayCount := 0
  tready := false

def storeInput (i : LoaderInput) : StoreInput := { i.axis with mTready := true }

def step (s : Loader) (i : LoaderInput) : Loader where
  store := s.store.step (storeInput i)
  wr0 := s.wr0.step queue0.srcPort (s.wrInput i i.q0WrDone)
  wr1 := s.wr1.step queue1.srcPort (s.wrInput i i.q1WrDone)

def machine : Lib.Machine Loader LoaderInput := ⟨step⟩

/-- Words written to BRAM 0 in a cycle. -/
def written0 (s : Loader) (i : LoaderInput) : List MemWord :=
  let n := s.wr0.next queue0.srcPort (s.wrInput i i.q0WrDone)
  if n.we then [n.data] else []

/-- Words written to BRAM 1 in a cycle. -/
def written1 (s : Loader) (i : LoaderInput) : List MemWord :=
  let n := s.wr1.next queue1.srcPort (s.wrInput i i.q1WrDone)
  if n.we then [n.data] else []

end Loader
end Osnt.PrePcapStore
