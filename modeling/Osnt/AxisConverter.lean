import Osnt.Lib.DelayQueue
import Osnt.Lib.Machine
import Mathlib.Data.Nat.Log
import Mathlib.Algebra.Group.Nat.Defs

/-! `nf_axis_converter_main.v`: one input FIFO, a second FIFO with one record for each
packet, and a read side for each relation of the two widths.

Both FIFOs are vendor macros, taken as ideal fall-through FIFOs that show a word `lat`
cycles after it was written. Widths are counted in byte lanes. -/
namespace Osnt.AxisConverter
open Lib Lib.DelayQueue

/-- A byte of a word and its `tkeep` bit. -/
structure Lane where
  data : BitVec 8
  keep : Bool
deriving DecidableEq, Inhabited, Repr

/-- A word of `n` byte lanes. -/
structure Beat (n : Nat) where
  lanes : Vector Lane n
  tuser : BitVec 128
  tlast : Bool
deriving DecidableEq, Repr

/-- What a read side drives in a cycle in which the input FIFO shows a word. -/
structure Drive (ρ : Type) (m : Nat) where
  inFifoRdEn : Bool
  infoFifoRdEn : Bool
  tvalid : Bool
  lanes : Vector Lane m
  tlast : Bool
  next : ρ

/-- A read side: its registers, and what it drives given the word the input FIFO shows,
`info_fifo_empty` and `m_axis_tready`. -/
structure Reader (s m : Nat) where
  Regs : Type
  reset : Regs
  comb : Regs → Beat s → Bool → Bool → Drive Regs m

theorem lane_lt {n r : Nat} (c : BitVec r) (j : Fin n) : n * c.toNat + j.val < n * 2 ^ r := by
  have hc : c.toNat + 1 ≤ 2 ^ r := c.isLt
  calc n * c.toNat + j.val < n * c.toNat + n := Nat.add_lt_add_left j.isLt _
    _ = n * (c.toNat + 1) := (Nat.mul_succ _ _).symm
    _ ≤ n * 2 ^ r := Nat.mul_le_mul_left n hc

/-- The lanes of a wide word that begin at word `c`. -/
def slice {n r : Nat} (w : Vector Lane (n * 2 ^ r)) (c : BitVec r) : Vector Lane n :=
  Vector.ofFn (fun j => w.get ⟨n * c.toNat + j.val, lane_lt c j⟩)

/-- A wide word with the lanes that begin at word `c` replaced. -/
def overlay {n r : Nat} (prev : Vector Lane (n * 2 ^ r)) (c : BitVec r) (w : Vector Lane n) :
    Vector Lane (n * 2 ^ r) :=
  Vector.ofFn (fun i =>
    if h : n * c.toNat ≤ i.val ∧ i.val < n * c.toNat + n then
      w.get ⟨i.val - n * c.toNat, by omega⟩
    else prev.get i)

def noLanes (m : Nat) : Vector Lane m := Vector.replicate m ⟨0, false⟩

/-- No lane is kept. -/
def keepsNone {n : Nat} (w : Vector Lane n) : Bool := w.toList.all (fun l => !l.keep)

/-- Registers of `MASTER_WIDER`: the words gathered so far. -/
structure Gather (n r : Nat) where
  counter : BitVec r
  firstTime : Bool
  prev : Vector Lane (n * 2 ^ r)

/-- Registers of `SAME`. -/
structure Pass where
  firstTime : Bool

/-- Registers of the two blocks with a wider slave: the part of the word to show next. -/
structure Scatter (r : Nat) where
  counter : BitVec r
  firstTime : Bool

def masterWider (n r : Nat) : Reader n (n * 2 ^ r) where
  Regs := Gather n r
  reset := ⟨0, true, noLanes _⟩
  comb s w infoEmpty tready :=
    let lanes := overlay s.prev s.counter w.lanes
    if s.counter.toNat = 2 ^ r - 1 then
      if s.firstTime then
        if !infoEmpty then
          if tready then ⟨true, true, true, lanes, w.tlast, ⟨0, w.tlast, noLanes _⟩⟩
          else ⟨false, false, true, lanes, w.tlast, s⟩
        else ⟨false, false, false, lanes, false, s⟩
      else if tready then ⟨true, false, true, lanes, w.tlast, ⟨0, w.tlast, noLanes _⟩⟩
      else ⟨false, false, true, lanes, w.tlast, s⟩
    else if w.tlast && s.firstTime && !infoEmpty then
      if tready then ⟨true, true, true, lanes, true, ⟨0, true, noLanes _⟩⟩
      else ⟨false, false, true, lanes, true, s⟩
    else if w.tlast then
      -- Taken without the packet's record if that is not there yet.
      if tready then ⟨true, false, true, lanes, true, ⟨0, true, noLanes _⟩⟩
      else ⟨false, false, true, lanes, true, s⟩
    else ⟨true, false, false, lanes, false, ⟨s.counter + 1, s.firstTime, lanes⟩⟩

/-- `SAME`. Every lane of the output is overwritten, so the registers for a partial word
play no part; the end of a first word is driven only while the receiver is ready. -/
def same (n : Nat) : Reader n n where
  Regs := Pass
  reset := ⟨true⟩
  comb s w infoEmpty tready :=
    if s.firstTime then
      if !infoEmpty then
        if tready then ⟨true, true, true, w.lanes, w.tlast, ⟨w.tlast⟩⟩
        else ⟨false, false, true, w.lanes, false, s⟩
      else ⟨false, false, false, w.lanes, false, s⟩
    else if tready then ⟨true, false, true, w.lanes, w.tlast, ⟨w.tlast⟩⟩
    else ⟨false, false, true, w.lanes, w.tlast, s⟩

/-- `SPECIAL_CASE`: one byte at a time. A first byte never ends its packet. -/
def special (r : Nat) : Reader (1 * 2 ^ r) 1 where
  Regs := Scatter r
  reset := ⟨0, true⟩
  comb s w infoEmpty tready :=
    let lanes := slice w.lanes s.counter
    let counterPlus1 := s.counter + 1
    let done := s.counter.toNat = 2 ^ r - 1
    if s.firstTime then
      if !infoEmpty then
        if tready then ⟨false, true, true, lanes, false, ⟨counterPlus1, false⟩⟩
        else ⟨false, false, true, lanes, false, s⟩
      else ⟨false, false, false, lanes, false, s⟩
    else
      let tlast := w.tlast && (decide done || keepsNone (slice w.lanes counterPlus1))
      if tready then
        if done then ⟨true, false, true, lanes, tlast, ⟨0, w.tlast⟩⟩
        else if w.tlast && keepsNone (slice w.lanes counterPlus1) then
          ⟨true, false, true, lanes, tlast, ⟨0, true⟩⟩
        else ⟨false, false, true, lanes, tlast, ⟨counterPlus1, false⟩⟩
      else ⟨false, false, true, lanes, tlast, s⟩

/-- `SLAVE_WIDER`. A word ends early where the next part of it keeps no lane; for the
first part that is decided without looking at `tlast`. -/
def slaveWider (n r : Nat) : Reader (n * 2 ^ r) n where
  Regs := Scatter r
  reset := ⟨0, true⟩
  comb s w infoEmpty tready :=
    let lanes := slice w.lanes s.counter
    let counterPlus1 := s.counter + 1
    let nextEmpty := keepsNone (slice w.lanes counterPlus1)
    if s.firstTime then
      if !infoEmpty then
        if tready then
          if nextEmpty then ⟨true, true, true, lanes, true, ⟨0, true⟩⟩
          else ⟨false, true, true, lanes, false, ⟨counterPlus1, false⟩⟩
        else ⟨false, false, true, lanes, false, s⟩
      else ⟨false, false, false, lanes, false, s⟩
    else if tready then
      if s.counter.toNat = 2 ^ r - 1 then ⟨true, false, true, lanes, w.tlast, ⟨0, w.tlast⟩⟩
      else if w.tlast && nextEmpty then ⟨true, false, true, lanes, true, ⟨0, true⟩⟩
      else ⟨false, false, true, lanes, false, ⟨counterPlus1, false⟩⟩
    else ⟨false, false, true, lanes, false, s⟩

/-- The generate branches, by the lanes of the slave and of the master. -/
inductive Widths : Nat → Nat → Type where
  | masterWider (n r : Nat) (hr : 0 < r) : Widths n (n * 2 ^ r)
  | same (n : Nat) : Widths n n
  | special (r : Nat) (hr : 0 < r) : Widths (1 * 2 ^ r) 1
  | slaveWider (n r : Nat) (hn : 1 < n) (hr : 0 < r) : Widths (n * 2 ^ r) n

def reader {s m : Nat} : Widths s m → Reader s m
  | .masterWider n r _ => AxisConverter.masterWider n r
  | .same n => AxisConverter.same n
  | .special r _ => AxisConverter.special r
  | .slaveWider n r _ _ => AxisConverter.slaveWider n r

/-- Parameters: `C_DEFAULT_VALUE_ENABLE`, `C_DEFAULT_DST_PORT`, and the latency of both
FIFOs. -/
structure Params where
  defaultValueEnable : Bool
  dstPort : BitVec 8
  lat : Nat

inductive MetadataState where
  | waitStart | waitEnd
deriving DecidableEq, Inhabited, Repr

/-- Registers. A record is the packet's length in the low bits or its `tuser`, as the
parameter has it. -/
structure Converter {s m : Nat} (R : Reader s m) where
  inFifo : DelayQueue (Beat s)
  infoFifo : DelayQueue (BitVec 128)
  lengthPrev : BitVec 16
  metadataState : MetadataState
  tuserInputD : BitVec 128
  regs : R.Regs

/-- Inputs in one cycle; `infoIdle` is what an empty record FIFO shows. -/
structure Input (s : Nat) where
  tvalid : Bool
  word : Beat s
  tready : Bool
  interfaceNumber : BitVec 8
  interfaceNumberEn : Bool
  infoIdle : BitVec 128

/-- `2**IN_FIFO_DEPTH_BIT`, with room for a packet of `MAX_PKT_SIZE` bytes. -/
def inFifoDepth (s : Nat) : Nat := 2 ^ Nat.clog 2 (4000 / s)

def infoFifoDepth : Nat := 32

/-- `local_sum`: one more than the highest lane that is kept. -/
def localSum (lanes : List Lane) : Nat :=
  lanes.zipIdx.foldl (fun n e => if e.1.keep then e.2 + 1 else n) 0

namespace Converter
variable {s m : Nat} {R : Reader s m} (p : Params)

def reset : Converter R where
  inFifo := []
  infoFifo := []
  lengthPrev := 0
  metadataState := .waitStart
  tuserInputD := 0
  regs := R.reset

def sTready (t : Converter R) : Bool :=
  !decide (inFifoDepth s - 5 ≤ t.inFifo.length) && !decide (infoFifoDepth - 5 ≤ t.infoFifo.length)

def wrEn (t : Converter R) (i : Input s) : Bool := i.tvalid && t.sTready

def infoFifoWrEn (t : Converter R) (i : Input s) : Bool := t.wrEn i && i.word.tlast

def lengthIn (t : Converter R) (i : Input s) : BitVec 16 :=
  t.lengthPrev + BitVec.ofNat 16 (localSum i.word.lanes.toList)

def lengthPrevNext (t : Converter R) (i : Input s) : BitVec 16 :=
  if t.wrEn i then (if i.word.tlast then 0 else t.lengthIn i) else t.lengthPrev

def tuserInput (t : Converter R) (i : Input s) : BitVec 128 :=
  match t.metadataState with
  | .waitStart => if t.wrEn i then i.word.tuser else t.tuserInputD
  | .waitEnd => t.tuserInputD

def metadataStateNext (t : Converter R) (i : Input s) : MetadataState :=
  match t.metadataState with
  | .waitStart =>
    if t.wrEn i && i.word.tlast then .waitStart else if t.wrEn i then .waitEnd else .waitStart
  | .waitEnd => if t.wrEn i && i.word.tlast then .waitStart else .waitEnd

/-- The record written at the end of a packet. -/
def infoDin (t : Converter R) (i : Input s) : BitVec 128 :=
  if p.defaultValueEnable then (t.lengthIn i).setWidth 128 else t.tuserInput i

/-- Nothing is driven while the input FIFO is empty. -/
def drive (t : Converter R) (i : Input s) : Drive R.Regs m :=
  match t.inFifo.front p.lat with
  | some w => R.comb t.regs w (t.infoFifo.front p.lat).isNone i.tready
  | none => ⟨false, false, false, noLanes m, false, t.regs⟩

def mTuser (t : Converter R) (i : Input s) : BitVec 128 :=
  let info := (t.infoFifo.front p.lat).getD i.infoIdle
  let head := ((t.inFifo.front p.lat).map Beat.tuser).getD 0
  let spt := if i.interfaceNumberEn then i.interfaceNumber else head.extractLsb' 16 8
  let dpt := if i.interfaceNumberEn then p.dstPort else head.extractLsb' 24 8
  if p.defaultValueEnable then 0#96 ++ dpt ++ spt ++ info.extractLsb' 0 16 else info

def step (t : Converter R) (i : Input s) : Converter R where
  inFifo := t.inFifo.tick (t.drive p i).inFifoRdEn (if t.wrEn i then some i.word else none)
  infoFifo := t.infoFifo.tick (t.drive p i).infoFifoRdEn
    (if t.infoFifoWrEn i then some (t.infoDin p i) else none)
  lengthPrev := t.lengthPrevNext i
  metadataState := t.metadataStateNext i
  tuserInputD := t.tuserInput i
  regs := (t.drive p i).next

def machine : Machine (Converter R) (Input s) := ⟨step p⟩

/-- Words taken on `s_axis` in a cycle. -/
def accepted (t : Converter R) (i : Input s) : List (Beat s) :=
  if i.tvalid && t.sTready then [i.word] else []

/-- Words handed over on `m_axis` in a cycle. -/
def handed (t : Converter R) (i : Input s) : List (Beat m) :=
  let d := t.drive p i
  if d.tvalid && i.tready then [⟨d.lanes, t.mTuser p i, d.tlast⟩] else []

/-- Records taken from the record FIFO in a cycle. -/
def popped (t : Converter R) (i : Input s) : List (BitVec 128) :=
  if (t.drive p i).infoFifoRdEn then t.infoFifo.vals.take 1 else []

end Converter
end Osnt.AxisConverter
