import Osnt.Axis
import Osnt.Lib.Machine
import Osnt.Lib.Framing

/-! `op_lut_process_sm.v`: the last stage of the router's lookup, which sends a packet on with
its headers rewritten, to the CPU, or drops it.

It reads the words of the packets from a fall-through FIFO and one record for each packet from
five FIFOs written by the preprocessing blocks and read together. The state `MOVE_TUSER` is never
entered and is left out. -/
namespace Osnt.ProcessSm
open Lib

/-- What the preprocessing blocks say about a packet. -/
structure Record where
  isIpPkt : Bool
  isForUs : Bool
  isBroadcast : Bool
  macDstPortNum : BitVec 3
  nextHopMac : BitVec 48
  outputPort : BitVec 8
  arpLookupHit : Bool
  lpmLookupHit : Bool
  isFromCpu : Bool
  toCpuOutputPort : BitVec 8
  fromCpuOutputPort : BitVec 8
  inputPortNum : BitVec 3
  ipChecksumIsGood : Bool
  ipHdrHasOptions : Bool
  ipNewChecksum : BitVec 16
  ipTtlIsGood : Bool
  ipNewTtl : BitVec 8
  destIpHit : Bool
deriving DecidableEq, Inhabited

/-- The addresses of the four receive queues. -/
structure Macs where
  mac0 : BitVec 48
  mac1 : BitVec 48
  mac2 : BitVec 48
  mac3 : BitVec 48

def Macs.srcMacSel (m : Macs) (outputPort : BitVec 8) : BitVec 48 :=
  if outputPort = 0x01 then m.mac0
  else if outputPort = 0x04 then m.mac1
  else if outputPort = 0x10 then m.mac2
  else if outputPort = 0x40 then m.mac3
  else m.mac0

/-- The counter outputs, each a pulse. -/
structure Pulses where
  pktSentFromCpu : Bool := false
  pktSentToCpuOptionsVer : Bool := false
  pktSentToCpuBadTtl : Bool := false
  pktSentToCpuDestIpHit : Bool := false
  pktForwarded : Bool := false
  pktDroppedChecksum : Bool := false
  pktSentToCpuNonIp : Bool := false
  pktSentToCpuArpMiss : Bool := false
  pktSentToCpuLpmMiss : Bool := false
  pktDroppedWrongDstMac : Bool := false
deriving DecidableEq

/-- The ten counters. -/
inductive Counter
  | sentFromCpu
  | sentToCpuOptionsVer
  | sentToCpuBadTtl
  | sentToCpuDestIpHit
  | forwarded
  | droppedChecksum
  | sentToCpuNonIp
  | sentToCpuArpMiss
  | sentToCpuLpmMiss
  | droppedWrongDstMac
deriving DecidableEq, Repr

/-- The counters that are pulsed. -/
def Pulses.high (p : Pulses) : List Counter :=
  [(p.pktSentFromCpu, Counter.sentFromCpu), (p.pktSentToCpuOptionsVer, .sentToCpuOptionsVer),
    (p.pktSentToCpuBadTtl, .sentToCpuBadTtl), (p.pktSentToCpuDestIpHit, .sentToCpuDestIpHit),
    (p.pktForwarded, .forwarded), (p.pktDroppedChecksum, .droppedChecksum),
    (p.pktSentToCpuNonIp, .sentToCpuNonIp), (p.pktSentToCpuArpMiss, .sentToCpuArpMiss),
    (p.pktSentToCpuLpmMiss, .sentToCpuLpmMiss),
    (p.pktDroppedWrongDstMac, .droppedWrongDstMac)].filterMap
    fun (on, c) => if on then some c else none

inductive State
  | waitPreprocessRdy
  | changePkt
  | sendPkt
  | dropPkt
deriving DecidableEq, Repr

/-- The registers; `outWord` is `out_tdata`, `out_tuser`, `out_keep` and `out_tlast`. -/
structure Regs where
  state : State
  outTvalid : Bool
  outWord : Word
  toFromCpu : Bool
  dstPort : BitVec 8

def resetRegs : Regs := ⟨.waitPreprocessRdy, false, ⟨0, 0, 0, false⟩, false, 0⟩

/-- The registers' next values, the read enables and the counter pulses. -/
structure Drive where
  next : Regs
  rdPreprocessInfo : Bool
  inFifoRdEn : Bool
  pulses : Pulses

/-- The word with `dst_port` in the destination-port byte of `tuser`. -/
def setDstPort (port : BitVec 8) (w : Word) : Word :=
  { w with tuser := w.tuser.extractLsb' 32 96 ++ port ++ w.tuser.extractLsb' 0 24 }

/-- The first word of a forwarded packet, with both addresses, the TTL and the checksum new. -/
def changePkt (m : Macs) (r : Record) (w : Word) : Word :=
  { w with tdata := r.nextHopMac ++ m.srcMacSel r.outputPort ++ w.tdata.extractLsb' 336 80 ++
      r.ipNewTtl ++ w.tdata.extractLsb' 320 8 ++ r.ipNewChecksum ++ w.tdata.extractLsb' 0 304 }

namespace Regs
variable (m : Macs) (s : Regs)

/-- The defaults at the head of the process: a word is presented to the register but not valid. -/
def hold (w : Word) : Drive :=
  { next := { s with outTvalid := false, outWord := w }
    rdPreprocessInfo := false
    inFifoRdEn := false
    pulses := {} }

/-- To `SEND_PKT`, with the record read. -/
def toSend (w : Word) (port : BitVec 8) (pulses : Pulses) : Drive :=
  { next := ⟨.sendPkt, false, w, true, port⟩
    rdPreprocessInfo := true
    inFifoRdEn := false
    pulses }

/-- To `DROP_PKT`, with the record read. -/
def toDrop (w : Word) (pulses : Pulses) : Drive :=
  { next := { s with state := .dropPkt, outTvalid := false, outWord := w }
    rdPreprocessInfo := true
    inFifoRdEn := false
    pulses }

/-- The pulses for a packet whose route or header sends it to the CPU, in order of priority. -/
def cpuPulses (r : Record) : Pulses :=
  { pktSentToCpuDestIpHit := r.destIpHit
    pktSentToCpuBadTtl := !r.ipTtlIsGood && !r.destIpHit
    pktSentToCpuOptionsVer := r.ipHdrHasOptions && r.ipTtlIsGood && !r.destIpHit
    pktSentToCpuLpmMiss :=
      !r.lpmLookupHit && !r.ipHdrHasOptions && r.ipTtlIsGood && !r.destIpHit
    pktSentToCpuArpMiss :=
      !r.arpLookupHit && r.lpmLookupHit && !r.ipHdrHasOptions && r.ipTtlIsGood && !r.destIpHit }

/-- `WAIT_PREPROCESS_RDY` with a record. -/
def classify (w : Word) (r : Record) : Drive :=
  if r.isFromCpu then toSend w r.fromCpuOutputPort { pktSentFromCpu := true }
  else if r.isForUs && (r.inputPortNum == r.macDstPortNum || r.isBroadcast) then
    if r.isIpPkt then
      if r.ipChecksumIsGood then
        if r.destIpHit ||
            (r.ipHdrHasOptions || !r.ipTtlIsGood || !r.arpLookupHit || !r.lpmLookupHit) then
          toSend w r.toCpuOutputPort (cpuPulses r)
        else if !r.isBroadcast then
          { next := ⟨.changePkt, false, w, false, r.outputPort⟩
            rdPreprocessInfo := false
            inFifoRdEn := false
            pulses := { pktForwarded := true } }
        else s.toDrop w { pktDroppedWrongDstMac := true }
      else s.toDrop w { pktDroppedChecksum := true }
    else toSend w r.toCpuOutputPort { pktSentToCpuNonIp := true }
  else s.toDrop w { pktDroppedWrongDstMac := true }

/-- A word goes to the output register. -/
def emit (w : Word) (rd : Bool) : Drive :=
  { next := { s with state := if w.tlast then .waitPreprocessRdy else .sendPkt
                     outTvalid := true
                     outWord := setDstPort s.dstPort w }
    rdPreprocessInfo := rd
    inFifoRdEn := true
    pulses := {} }

/-- The combinational process, with the valid bits and the heads of the FIFOs. -/
def drive (inFifoVld : Bool) (w : Word) (preprocessVld : Bool) (r : Record) (outTready : Bool) :
    Drive :=
  match s.state with
  | .waitPreprocessRdy => if preprocessVld then s.classify w r else s.hold w
  | .changePkt =>
    if inFifoVld && outTready then s.emit (changePkt m r w) true else s.hold w
  | .sendPkt => if inFifoVld && outTready then s.emit w false else s.hold w
  | .dropPkt =>
    if inFifoVld then
      { next := { s with state := if w.tlast then .waitPreprocessRdy else .dropPkt
                         outTvalid := false
                         outWord := w }
        rdPreprocessInfo := false
        inFifoRdEn := true
        pulses := {} }
    else s.hold w

end Regs

/-- One cycle of the surroundings: which FIFOs have something to show, what is on the wires of
those that have not, and whether the receiver is ready. -/
structure Input where
  inFifoVld : Bool
  ethParserInfoVld : Bool
  arpMacVld : Bool
  isFromCpuVld : Bool
  ipChecksumVld : Bool
  destIpFilterVld : Bool
  word : Word
  record : Record
  outTready : Bool

/-- The machine, the words still to be read and the records still to be read. -/
structure Sys where
  regs : Regs
  words : List Word
  recs : List Record

namespace Sys
variable (m : Macs) (s : Sys) (i : Input)

def inFifoVld : Bool := i.inFifoVld && !s.words.isEmpty

def preprocessVld : Bool :=
  i.ethParserInfoVld && i.arpMacVld && i.isFromCpuVld && i.ipChecksumVld && i.destIpFilterVld &&
    !s.recs.isEmpty

def drive : Drive :=
  s.regs.drive m (s.inFifoVld i) (s.words.headD i.word) (s.preprocessVld i) (s.recs.headD i.record)
    i.outTready

def step : Sys where
  regs := (s.drive m i).next
  words := if (s.drive m i).inFifoRdEn then s.words.tail else s.words
  recs := if (s.drive m i).rdPreprocessInfo then s.recs.tail else s.recs

def popped : List Word := if (s.drive m i).inFifoRdEn then s.words.head?.toList else []

def rdPulse : List Unit := if (s.drive m i).rdPreprocessInfo then [()] else []

def counted : List Counter := (s.drive m i).pulses.high

/-- The word loaded into the output register. -/
def emitted : List Word :=
  if (s.drive m i).next.outTvalid then [(s.drive m i).next.outWord] else []

/-- The word the output register shows. -/
def shown : List Word := if s.regs.outTvalid then [s.regs.outWord] else []

/-- The word accepted downstream. -/
def accepted : List Word := if s.regs.outTvalid && i.outTready then [s.regs.outWord] else []

end Sys

/-- A packet and the record for it. -/
structure Job where
  pkt : List Word
  record : Record

/-- What the stage is for: where a packet goes. -/
inductive Action
  | drop
  | send (port : BitVec 8)
  | forward (port : BitVec 8)

/-- To the CPU although the header is good: the destination is ours, or the hardware cannot
forward the packet. -/
def Record.needsCpu (r : Record) : Bool :=
  r.destIpHit || r.ipHdrHasOptions || !r.ipTtlIsGood || !r.arpLookupHit || !r.lpmLookupHit

/-- The packet came in by the port its address belongs to. -/
def Record.accepts (r : Record) : Bool :=
  r.isForUs && (r.inputPortNum == r.macDstPortNum || r.isBroadcast)

def Record.action (r : Record) : Action :=
  if r.isFromCpu then .send r.fromCpuOutputPort
  else if !r.accepts then .drop
  else if !r.isIpPkt then .send r.toCpuOutputPort
  else if !r.ipChecksumIsGood then .drop
  else if r.needsCpu then .send r.toCpuOutputPort
  else if r.isBroadcast then .drop
  else .forward r.outputPort

/-- The one counter a packet is counted by. -/
def Record.counter (r : Record) : Counter :=
  if r.isFromCpu then .sentFromCpu
  else if !r.accepts then .droppedWrongDstMac
  else if !r.isIpPkt then .sentToCpuNonIp
  else if !r.ipChecksumIsGood then .droppedChecksum
  else if r.destIpHit then .sentToCpuDestIpHit
  else if !r.ipTtlIsGood then .sentToCpuBadTtl
  else if r.ipHdrHasOptions then .sentToCpuOptionsVer
  else if !r.lpmLookupHit then .sentToCpuLpmMiss
  else if !r.arpLookupHit then .sentToCpuArpMiss
  else if r.isBroadcast then .droppedWrongDstMac
  else .forwarded

/-- The words of a packet as they are to be sent. -/
def Job.sent (m : Macs) (j : Job) : List Word :=
  match j.record.action with
  | .drop => []
  | .send port => j.pkt.map (setDstPort port)
  | .forward port => (j.pkt.modifyHead (changePkt m j.record)).map (setDstPort port)

def start (jobs : List Job) : Sys :=
  ⟨resetRegs, (jobs.map Job.pkt).flatten, jobs.map Job.record⟩

def machine (m : Macs) : Machine Sys Input := ⟨Sys.step m⟩

def after (m : Macs) (jobs : List Job) (ins : List Input) : Sys := (machine m).run (start jobs) ins

/-- What can be seen of a run. -/
structure Trace where
  popped : List Word
  reads : Nat
  counters : List Counter
  out : List Word

/-- A run as it is seen downstream: the words accepted and the one on offer. -/
def observe (m : Macs) (jobs : List Job) (ins : List Input) : Trace where
  popped := (machine m).collect (Sys.popped m) (start jobs) ins
  reads := ((machine m).collect (Sys.rdPulse m) (start jobs) ins).length
  counters := (machine m).collect (Sys.counted m) (start jobs) ins
  out := (machine m).collect Sys.accepted (start jobs) ins ++ (after m jobs ins).shown

/-- The packets popped as a whole. -/
def Trace.whole (t : Trace) : Nat := (frames Word.tlast t.popped).closed.length

/-- The words popped of the next packet. -/
def Trace.part (t : Trace) : Nat := (frames Word.tlast t.popped).rest.length

/-- What is to be sent of the packets popped so far. -/
def due (m : Macs) (jobs : List Job) (whole part : Nat) : List Word :=
  ((jobs.take whole).map (Job.sent m)).flatten ++
    (((jobs.drop whole).head?.map (Job.sent m)).getD []).take part

/-- Every packet is popped whole before the next is begun, counted once and its record read once,
and sent as it is to be. -/
structure Conserved (m : Macs) (jobs : List Job) (t : Trace) : Prop where
  popped : t.popped <+: (jobs.map Job.pkt).flatten
  counters : t.counters = (jobs.take t.counters.length).map (fun j => j.record.counter)
  counted_whole : t.whole ≤ t.reads ∧ t.reads ≤ t.counters.length ∧
    t.counters.length ≤ t.whole + 1
  counted_part : 0 < t.part → t.reads = t.whole + 1
  out : t.out = due m jobs t.whole t.part

/-- In every cycle in which a word is on offer the receiver is ready. -/
def NeverStalled (m : Macs) (jobs : List Job) (ins : List Input) : Prop :=
  (machine m).Along (fun s i => s.regs.outTvalid = true → i.outTready = true) (start jobs) ins

end Osnt.ProcessSm
