import Osnt.Axis
import Osnt.Lib.Machine
import Osnt.Lib.Framing
import Osnt.Lib.OnesComplement

/-! `preprocess_control.v` and `ip_checksum_ttl.v` of the router at 512 bits: the header of a
packet is checked in the cycles after its first word has been accepted.

`info_fifo` and `cksm_fifo` are seen by what is written to them. -/
namespace Osnt.HeaderCheck
open Lib

/-- The states of `preprocess_control`. -/
inductive State
  | word1
  | stop0
  | stop1
  | waitEop
deriving DecidableEq, Repr

namespace State

def ready (s : State) : Bool := s != .stop0 && s != .stop1

/-- `word_IP_DST_HI`, which at this width is also `word_IP_DST_LO`: the word with the IP header. -/
def wordIpDstHi (s : State) (valid : Bool) : Bool := s == .word1 && valid

def next (s : State) (valid tlast : Bool) : State :=
  match s with
  | .word1 => if valid then (if tlast then .stop0 else .waitEop) else .word1
  | .stop0 => .stop1
  | .stop1 => .word1
  | .waitEop => if valid && tlast then .stop0 else .waitEop

end State

/-- `tdata[W-112-16*j-1 : W-128-16*j]`, the `j`-th halfword of the IP header. -/
def halfword (tdata : BitVec 512) (j : Nat) : BitVec 16 := tdata.extractLsb' (384 - 16 * j) 16

/-- `tdata[W-112-1 : W-120]`, version and header length. -/
def versionByte (tdata : BitVec 512) : BitVec 8 := tdata.extractLsb' 392 8

/-- `tdata[W-176-1 : W-184]`. -/
def ttlByte (tdata : BitVec 512) : BitVec 8 := tdata.extractLsb' 328 8

/-- Registers of `ip_checksum_ttl`. -/
structure Regs where
  checksum : BitVec 20
  adjustedChecksum : BitVec 17
  checksumDone : Bool
  infoReady : Bool
  ttlNew : BitVec 8
  ttlGood : Bool
  hdrHasOptions : Bool
  addCarry : Bool
  addCarryD1 : Bool
  addCarryD0 : Bool
  cksmSum0 : BitVec 20
  cksmSum1 : BitVec 20
  cksmSum2 : BitVec 20
  cksmSum3 : BitVec 20

def resetRegs : Regs := ⟨0, 0, false, false, 0, false, false, false, false, false, 0, 0, 0, 0⟩

/-- An entry of `info_fifo`. -/
structure Info where
  newChecksum : BitVec 16
  ttlGood : Bool
  newTtl : BitVec 8
  hdrHasOptions : Bool
deriving DecidableEq, Repr

namespace Regs
variable (r : Regs)

def cksmTemp : BitVec 20 := r.cksmSum0 + r.cksmSum1

def cksmTemp2 : BitVec 20 := r.cksmSum2 + r.cksmSum3

/-- One clock edge out of reset; of two assignments to a register the later one counts. -/
def step (wordIpDstHi : Bool) (tdata : BitVec 512) : Regs :=
  let h (j : Nat) : BitVec 20 := (halfword tdata j).setWidth 20
  { checksum :=
      if r.addCarry then
        (r.checksum.extractLsb' 16 4).setWidth 20 + (r.checksum.extractLsb' 0 16).setWidth 20
      else if r.addCarryD0 then r.cksmTemp + r.cksmTemp2
      else r.checksum
    adjustedChecksum :=
      if r.addCarry then
        (r.adjustedChecksum.extractLsb' 0 16).setWidth 17 +
          (r.adjustedChecksum.extractLsb' 16 1).setWidth 17
      else if wordIpDstHi then (halfword tdata 5).setWidth 17 + 0x100
      else r.adjustedChecksum
    checksumDone := r.addCarryD1
    infoReady := r.addCarry
    ttlNew :=
      if wordIpDstHi then (if ttlByte tdata = 0 then 0 else ttlByte tdata - 1) else r.ttlNew
    ttlGood := if wordIpDstHi then decide (1 < ttlByte tdata) else r.ttlGood
    hdrHasOptions := if wordIpDstHi then decide (versionByte tdata ≠ 0x45) else r.hdrHasOptions
    addCarry := r.addCarryD0 && !r.addCarryD1
    addCarryD1 := r.addCarry
    addCarryD0 := wordIpDstHi
    cksmSum0 := if wordIpDstHi then h 0 + h 1 + h 2 else r.cksmSum0
    cksmSum1 := if wordIpDstHi then h 3 + h 4 else r.cksmSum1
    cksmSum2 := if wordIpDstHi then h 5 + h 6 else r.cksmSum2
    cksmSum3 := if wordIpDstHi then h 7 + h 8 + h 9 else r.cksmSum3 }

/-- What is written to `info_fifo`. -/
def infoWrite : List Info :=
  if r.infoReady then
    [⟨r.adjustedChecksum.extractLsb' 0 16, r.ttlGood, r.ttlNew, r.hdrHasOptions⟩]
  else []

/-- What is written to `cksm_fifo`: the conjunction of the low 16 bits. -/
def cksmWrite : List Bool :=
  if r.checksumDone then [r.checksum.extractLsb' 0 16 == BitVec.allOnes 16] else []

end Regs

/-- One cycle of the input port; `room` is low while one of the FIFOs of the lookup is nearly
full. -/
structure Input where
  tvalid : Bool
  room : Bool
  word : Word

structure Sys where
  ctl : State
  regs : Regs

def reset : Sys := ⟨.word1, resetRegs⟩

namespace Sys
variable (s : Sys) (i : Input)

/-- `s_axis_tvalid & s_axis_tready`. -/
def valid : Bool := i.tvalid && (i.room && s.ctl.ready)

def step : Sys where
  ctl := s.ctl.next (s.valid i) i.word.tlast
  regs := s.regs.step (s.ctl.wordIpDstHi (s.valid i)) i.word.tdata

def accepted : List Word := if s.valid i then [i.word] else []

end Sys

def machine : Machine Sys Input := ⟨Sys.step⟩

def after (ins : List Input) : Sys := machine.run reset ins

/-- The first words of the packets accepted. -/
def firstWords (ins : List Input) : List Word :=
  openers Word.tlast true (machine.collect Sys.accepted reset ins)

def infos (ins : List Input) : List Info :=
  machine.collect (fun s _ => s.regs.infoWrite) reset ins

def cksms (ins : List Input) : List Bool :=
  machine.collect (fun s _ => s.regs.cksmWrite) reset ins

/-! What the blocks are for. -/

/-- The ten halfwords of an IP header without options. -/
def halfwords (w : Word) : List Nat := (List.range 10).map fun j => (halfword w.tdata j).toNat

/-- The one's complement sum of the header is all ones. -/
def checksumGood (w : Word) : Bool :=
  decide (OnesComplement.sum (2 ^ 16) (halfwords w) = 0xFFFF)

/-- The header as the router is to send it: one hop less, and the checksum adjusted for that. -/
def headerInfo (w : Word) : Info where
  newChecksum := BitVec.ofNat 16 (OnesComplement.add (2 ^ 16) (halfword w.tdata 5).toNat 0x100)
  ttlGood := decide (1 < (ttlByte w.tdata).toNat)
  newTtl := BitVec.ofNat 8 ((ttlByte w.tdata).toNat - 1)
  hdrHasOptions := decide (versionByte w.tdata ≠ 0x45)

/-- The 20 bytes of the header in the order they come on the wire. -/
def headerBytes (w : Word) : List (BitVec 8) :=
  (List.range 20).map fun j => w.tdata.extractLsb' (392 - 8 * j) 8

end Osnt.HeaderCheck
