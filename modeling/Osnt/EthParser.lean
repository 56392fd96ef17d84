import Osnt.HeaderCheck
import Osnt.Lib.Server

/-! `eth_parser.v` of the router at 512 bits: a destination address is searched for among those of
the four ports while the packets behind it come in.

`parser_fifo` is a first-word-fall-through FIFO of a given depth; `eth_fifo` is seen by what is
written to it. The addresses `mac_0` to `mac_3` are set before the run. -/
namespace Osnt.EthParser
open Lib

/-- The states of the search. -/
inductive State
  | idle
  | doSearch
  | flushEntry
deriving DecidableEq, Repr

/-- The address registers of the ports. -/
structure Macs where
  mac0 : BitVec 48
  mac1 : BitVec 48
  mac2 : BitVec 48
  mac3 : BitVec 48

def ethArp : BitVec 16 := 0x0806

def ethIp : BitVec 16 := 0x0800

/-- `tdata[DST_MAC_POS-1 : DST_MAC_POS-48]`. -/
def dstMacOf (tdata : BitVec 512) : BitVec 48 := tdata.extractLsb' 464 48

/-- `tdata[ETHTYPE_POS-1 : ETHTYPE_POS-16]`. -/
def ethertypeOf (tdata : BitVec 512) : BitVec 16 := tdata.extractLsb' 400 16

/-- An entry of `parser_fifo`. -/
structure Header where
  dstMac : BitVec 48
  ethertype : BitVec 16
deriving DecidableEq, Repr

/-- An entry of `eth_fifo`. -/
structure Record where
  isForUs : Bool
  isArpPkt : Bool
  isIpPkt : Bool
  isBroadcast : Bool
  macDstPortNum : BitVec 3
deriving DecidableEq, Repr

def Macs.sel (macs : Macs) (macCount : BitVec 3) : BitVec 48 :=
  match macCount.toNat with
  | 1 => macs.mac1
  | 2 => macs.mac2
  | 3 => macs.mac3
  | 4 => BitVec.allOnes 48
  | _ => macs.mac0

structure Regs where
  dstMac : BitVec 48
  ethertype : BitVec 16
  searchReq : Bool
  state : State
  macCount : BitVec 3
  parserFifo : List Header

def resetRegs : Regs := ⟨0, 0, false, .idle, 0, []⟩

namespace Regs
variable (macs : Macs) (r : Regs)

/-- What `parser_fifo` shows; it is only looked at while there is an entry. -/
def front : Header := r.parserFifo.head?.getD ⟨0, 0⟩

def broadcastBit : Bool := r.front.dstMac.getLsbD 40

def hit : Bool := macs.sel r.macCount == r.front.dstMac || r.broadcastBit

def portFound : Bool := r.state == .doSearch && r.hit macs

def wrEn : Bool := r.state == .doSearch && (r.hit macs || r.macCount == 0)

def rdParser : Bool := r.state == .flushEntry

/-- The input of `eth_fifo`: the address is the queued one, the ethertype that of the register. -/
def record : Record where
  isForUs := r.portFound macs
  isArpPkt := r.ethertype == ethArp
  isIpPkt := r.ethertype == ethIp
  isBroadcast := r.broadcastBit
  macDstPortNum := (r.macCount.extractLsb' 0 2) ++ (0 : BitVec 1)

def stateNext : State :=
  match r.state with
  | .idle => if r.parserFifo.isEmpty then .idle else .doSearch
  | .doSearch => if r.hit macs || r.macCount == 0 then .flushEntry else .doSearch
  | .flushEntry => .idle

def macCountNext : BitVec 3 :=
  match r.state with
  | .idle => if r.parserFifo.isEmpty then r.macCount else 4
  | .doSearch => r.macCount - 1
  | .flushEntry => r.macCount

/-- One clock edge out of reset; a full `parser_fifo` refuses the write. -/
def step (depth : Nat) (wordIpDstHi : Bool) (tdata : BitVec 512) : Regs where
  dstMac := if wordIpDstHi then dstMacOf tdata else r.dstMac
  ethertype := if wordIpDstHi then ethertypeOf tdata else r.ethertype
  searchReq := wordIpDstHi
  state := r.stateNext macs
  macCount := r.macCountNext
  parserFifo :=
    (if r.rdParser then r.parserFifo.tail else r.parserFifo) ++
      if r.searchReq && decide (r.parserFifo.length < depth) then [⟨r.dstMac, r.ethertype⟩] else []

/-- What is written to `eth_fifo`. -/
def ethWrite : List Record := if r.wrEn macs then [r.record macs] else []

end Regs

/-- The parser beside the header check; `preprocess_control` drives both. -/
structure Sys where
  check : HeaderCheck.Sys
  regs : Regs

def reset : Sys := ⟨HeaderCheck.reset, resetRegs⟩

def Sys.step (depth : Nat) (macs : Macs) (s : Sys) (i : HeaderCheck.Input) : Sys where
  check := s.check.step i
  regs := s.regs.step macs depth (s.check.ctl.wordIpDstHi (s.check.valid i)) i.word.tdata

def machine (depth : Nat) (macs : Macs) : Machine Sys HeaderCheck.Input := ⟨Sys.step depth macs⟩

/-- No write to `parser_fifo` finds it full. -/
def NeverOverflow (depth : Nat) (macs : Macs) (ins : List HeaderCheck.Input) : Prop :=
  (machine depth macs).Along (fun s _ => s.regs.searchReq = true → s.regs.parserFifo.length < depth)
    reset ins

instance (depth : Nat) (macs : Macs) (ins : List HeaderCheck.Input) :
    Decidable (NeverOverflow depth macs ins) :=
  inferInstanceAs (Decidable ((machine depth macs).Along
    (fun s _ => s.regs.searchReq = true → s.regs.parserFifo.length < depth) reset ins))

/-- The records written, each with the cycle it is written in. -/
def recordSchedule (depth : Nat) (macs : Macs) (ins : List HeaderCheck.Input) :
    List (Nat × Record) :=
  (machine depth macs).schedule (fun s _ => s.regs.ethWrite macs) reset ins

def records (depth : Nat) (macs : Macs) (ins : List HeaderCheck.Input) : List Record :=
  (machine depth macs).collect (fun s _ => s.regs.ethWrite macs) reset ins

/-- The first words of the packets, each with the cycle it is accepted in. -/
def starts (ins : List HeaderCheck.Input) : List (Nat × Word) :=
  HeaderCheck.machine.schedule
    (fun s i => if s.ctl.wordIpDstHi (s.valid i) then [i.word] else []) HeaderCheck.reset ins

/-! What a record is to say, and how long the search for it takes. -/

section Spec
variable (macs : Macs) (w : Word)

def groupBit : Bool := (dstMacOf w.tdata).getLsbD 40

/-- The port with the address of the packet; of several the highest. -/
def ownPort : Option (BitVec 3) :=
  if dstMacOf w.tdata = macs.mac3 then some 6
  else if dstMacOf w.tdata = macs.mac2 then some 4
  else if dstMacOf w.tdata = macs.mac1 then some 2
  else if dstMacOf w.tdata = macs.mac0 then some 0
  else none

/-- Whether the packet is ARP, and whether it is IP. -/
def etherKind : Bool × Bool := (ethertypeOf w.tdata == ethArp, ethertypeOf w.tdata == ethIp)

/-- The record is that of the packet that begins with `w`. -/
structure Describes (r : Record) : Prop where
  forUs : r.isForUs = (groupBit w || (ownPort macs w).isSome)
  kind : (r.isArpPkt, r.isIpPkt) = etherKind w
  broadcast : r.isBroadcast = groupBit w
  port : groupBit w = false → ∀ p ∈ ownPort macs w, r.macDstPortNum = p

instance (r : Record) : Decidable (Describes macs w r) :=
  decidable_of_iff
    (r.isForUs = (groupBit w || (ownPort macs w).isSome) ∧
      (r.isArpPkt, r.isIpPkt) = etherKind w ∧ r.isBroadcast = groupBit w ∧
      (groupBit w = false → ∀ p ∈ ownPort macs w, r.macDstPortNum = p))
    ⟨fun ⟨a, b, c, d⟩ => ⟨a, b, c, d⟩, fun ⟨a, b, c, d⟩ => ⟨a, b, c, d⟩⟩

/-- Each record written is that of its packet. -/
def AllDescribed (depth : Nat) (ins : List HeaderCheck.Input) : Prop :=
  ∀ p ∈ (HeaderCheck.firstWords ins).zip (records depth macs ins), Describes macs p.1 p.2

instance (depth : Nat) (ins : List HeaderCheck.Input) : Decidable (AllDescribed macs depth ins) :=
  inferInstanceAs (Decidable (∀ p ∈ (HeaderCheck.firstWords ins).zip (records depth macs ins),
    Describes macs p.1 p.2))

/-- Cycles from the first comparison of a search to the one that ends it. -/
def searchCycles : Nat :=
  if groupBit w then 0
  else match ownPort macs w with
    | none => 4
    | some p => 4 - p.toNat / 2

end Spec

section Spacing
variable (macs : Macs)

/-- The packets, each with the cycle in which its record is due: the first comparison is made three
cycles after the first word, or after the record before. -/
def searches (ps : List (Nat × Word)) : List (Nat × Word) :=
  Server.due 3 3 (searchCycles macs) 0 ps

/-- The last packet begun before cycle `e`. -/
def latestBefore (ps : List (Nat × Word)) (e : Nat) : Option Word :=
  (ps.filter fun p => p.1 < e).getLast?.map Prod.snd

/-- Whenever a record is due, the last packet begun is of the same kind as the packet searched for:
both ARP, both IP or neither. -/
def KindsKept (ins : List HeaderCheck.Input) : Prop :=
  ∀ e ∈ searches macs (starts ins), e.1 < ins.length →
    ∀ u ∈ latestBefore (starts ins) e.1, etherKind u = etherKind e.2

instance (ins : List HeaderCheck.Input) : Decidable (KindsKept macs ins) :=
  inferInstanceAs (Decidable (∀ e ∈ searches macs (starts ins), e.1 < ins.length →
    ∀ u ∈ latestBefore (starts ins) e.1, etherKind u = etherKind e.2))

end Spacing
end Osnt.EthParser
