import Osnt.Axis
import Osnt.Fifo
import Osnt.Lib.Machine
import Mathlib.Data.Fintype.Basic

/-! `output_queues.v` at 512 bits: each packet goes whole to every queue its destination
bits select, or to none of them. -/
namespace Osnt.OutputQueues

/-- `BUFFER_THRESHOLD`: room for `MAX_PACKET_SIZE` behind it, in words. -/
def bufferThreshold : Nat := (4096 - 1600) / (512 / 8)

/-- What a data FIFO stores of a word. -/
structure DataWord where
  tdata : BitVec 512
  tkeep : BitVec 64
  tlast : Bool
deriving DecidableEq, Inhabited, Repr

def dataWord (w : Word) : DataWord := ⟨w.tdata, w.tkeep, w.tlast⟩

inductive State where
  | idle | wrPkt | drop
deriving DecidableEq, Inhabited, Repr

inductive MetadataState where
  | waitHeader | waitEop
deriving DecidableEq, Inhabited, Repr

/-- Registers, one bit of a mask for each queue. -/
structure Queues where
  data : Fin 3 → FallthroughFifo DataWord 6
  metadata : Fin 3 → FallthroughFifo (BitVec 128) 6
  metadataState : Fin 3 → MetadataState
  state : State
  curQueue : Fin 3 → Bool
  bytesStored : BitVec 32
  pktStored : Fin 3 → Bool
  bytesDropped : BitVec 32
  pktDropped : Fin 3 → Bool
deriving Inhabited

/-- Inputs in one cycle. -/
structure Input where
  tvalid : Bool
  word : Word
  tready : Fin 3 → Bool

/-- What the write side drives in a cycle. -/
structure Next where
  state : State
  curQueue : Fin 3 → Bool
  bytesStored : BitVec 32
  pktStored : Fin 3 → Bool
  bytesDropped : BitVec 32
  pktDropped : Fin 3 → Bool

/-- What the read side of a queue drives in a cycle. -/
structure MetadataNext where
  state : MetadataState
  rdEn : Bool
  pktRemoved : Bool
  bytesRemoved : BitVec 32

/-- Queues the destination bits select. -/
def oq (tuser : BitVec 128) : Fin 3 → Bool
  | 0 => tuser.getLsbD 24
  | 1 => tuser.getLsbD 26
  | 2 => tuser.getLsbD 25 || tuser.getLsbD 27

/-- The length field of a packet's side band. -/
def lengthField (tuser : BitVec 128) : BitVec 32 := (tuser.extractLsb' 0 16).setWidth 32

def noQueue : Fin 3 → Bool := fun _ => false

namespace Queues

def reset (s : Queues) : Queues where
  data q := (s.data q).reset
  metadata q := (s.metadata q).reset
  metadataState _ := .waitHeader
  state := .idle
  curQueue := noQueue
  bytesStored := 0
  pktStored := noQueue
  bytesDropped := 0
  pktDropped := noQueue

/-- `s_axis_tready` is tied high: a packet without room is dropped, not held. -/
def sTready (_ : Queues) : Bool := true

def nearlyFullFifo (s : Queues) (q : Fin 3) : Bool := (s.data q).progFull bufferThreshold

def metadataNearlyFullFifo (s : Queues) (q : Fin 3) : Bool := (s.metadata q).nearlyFull

/-- No selected queue is nearly full. -/
def admits (s : Queues) (tuser : BitVec 128) : Bool :=
  decide (∀ q, ((s.nearlyFullFifo q || s.metadataNearlyFullFifo q) && oq tuser q) = false)

def comb (s : Queues) (i : Input) : Next :=
  let sel := oq i.word.tuser
  let len := lengthField i.word.tuser
  match s.state with
  | .idle =>
    if i.tvalid && i.word.tlast then
      if s.admits i.word.tuser then ⟨.idle, sel, len, sel, 0, noQueue⟩
      else ⟨.idle, sel, 0, noQueue, len, sel⟩
    else if i.tvalid && !i.word.tlast then
      if s.admits i.word.tuser then ⟨.wrPkt, sel, len, sel, 0, noQueue⟩
      else ⟨.drop, sel, 0, noQueue, len, sel⟩
    else ⟨.idle, sel, 0, noQueue, 0, noQueue⟩
  | .wrPkt =>
    if i.tvalid && i.word.tlast then ⟨.idle, s.curQueue, 0, noQueue, 0, noQueue⟩
    else ⟨.wrPkt, s.curQueue, 0, noQueue, 0, noQueue⟩
  | .drop =>
    if i.tvalid && i.word.tlast then ⟨.idle, s.curQueue, 0, noQueue, 0, noQueue⟩
    else ⟨.drop, s.curQueue, 0, noQueue, 0, noQueue⟩

def wrEn (s : Queues) (i : Input) : Fin 3 → Bool :=
  if !(i.tvalid && s.sTready) then noQueue
  else
    match s.state with
    | .idle => if s.admits i.word.tuser then oq i.word.tuser else noQueue
    | .wrPkt => s.curQueue
    | .drop => noQueue

def metadataWrEn (s : Queues) (i : Input) : Fin 3 → Bool :=
  if !(i.tvalid && s.sTready) then noQueue
  else
    match s.state with
    | .idle => if s.admits i.word.tuser then oq i.word.tuser else noQueue
    | .wrPkt => noQueue
    | .drop => noQueue

def mTvalid (s : Queues) (q : Fin 3) : Bool := !(s.data q).empty

/-- The word on `m_axis_q`; its side band comes from the metadata FIFO. -/
def mWord (s : Queues) (q : Fin 3) : Word where
  tdata := (s.data q).dout.tdata
  tkeep := (s.data q).dout.tkeep
  tuser := (s.metadata q).dout
  tlast := (s.data q).dout.tlast

def rdEn (s : Queues) (i : Input) (q : Fin 3) : Bool := i.tready q && !(s.data q).empty

def metadataComb (s : Queues) (i : Input) (q : Fin 3) : MetadataNext :=
  let len := lengthField (s.metadata q).dout
  match s.metadataState q with
  | .waitHeader =>
    if s.rdEn i q && (s.data q).dout.tlast then ⟨.waitHeader, true, true, len⟩
    else if s.rdEn i q then ⟨.waitEop, true, true, len⟩
    else ⟨.waitHeader, false, false, 0⟩
  | .waitEop =>
    if s.rdEn i q && (s.data q).dout.tlast then ⟨.waitHeader, false, false, 0⟩
    else ⟨.waitEop, false, false, 0⟩

def step (s : Queues) (i : Input) : Queues where
  data q := (s.data q).step (s.wrEn i q) (dataWord i.word) (s.rdEn i q)
  metadata q :=
    (s.metadata q).step (s.metadataWrEn i q) i.word.tuser (s.metadataComb i q).rdEn
  metadataState q := (s.metadataComb i q).state
  state := (s.comb i).state
  curQueue := (s.comb i).curQueue
  bytesStored := (s.comb i).bytesStored
  pktStored := (s.comb i).pktStored
  bytesDropped := (s.comb i).bytesDropped
  pktDropped := (s.comb i).pktDropped

def machine : Lib.Machine Queues Input := ⟨step⟩

/-- Words taken on `s_axis` in a cycle. -/
def accepted (s : Queues) (i : Input) : List Word :=
  if i.tvalid && s.sTready then [i.word] else []

/-- Words put into a data FIFO in a cycle, with the side band they arrived with. -/
def stored (q : Fin 3) (s : Queues) (i : Input) : List Word :=
  if s.wrEn i q then [i.word] else []

/-- Words handed over on `m_axis_q` in a cycle, less their side band. -/
def handed (q : Fin 3) (s : Queues) (i : Input) : List DataWord :=
  if s.mTvalid q && i.tready q then [dataWord (s.mWord q)] else []

end Queues
end Osnt.OutputQueues
