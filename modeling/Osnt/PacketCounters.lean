import Osnt.Lib.Machine

/-! Packet counters of `input_arbiter.v`, `output_queues.v`, `osnt_mac_attachment.v` and
`switch_output_port_lookup.v`: registers of 32 bits (`REG_*_WIDTH`), 31 of which count. -/
namespace Osnt.PacketCounters

/-- `reg[30:0]`. -/
def low (reg : BitVec 32) : BitVec 31 := reg.setWidth 31

/-- `reg[31]`. -/
def top (reg : BitVec 32) : Bool := reg.getLsbD 31

/-- An event as an operand of a sum. -/
def bit (event : Bool) : BitVec 31 := (BitVec.ofBool event).setWidth 31

/-- The two assignments of a counter. -/
def assign (clear : Bool) (sum : BitVec 31) (exceeded : Bool) : BitVec 32 :=
  .cons (if clear then false else exceeded) (if clear then 0 else sum)

/-- `sum > {31{1'b1}} ? 1'b1 : held`. Neither operand has more than 31 bits, so the sum is taken in
31 bits. -/
def exceeds (sum : BitVec 31) (held : Bool) : Bool :=
  if sum > BitVec.allOnes 31 then true else held

/-- A counter whose bit 31 follows from the sum that is stored. -/
def pktCounter (clear : Bool) (reg : BitVec 32) (sum : BitVec 31) : BitVec 32 :=
  assign clear sum (exceeds sum (top reg))

/-- What clears the registers of a module. `reset` is `~resetn_sync | reset_registers`. -/
structure Clears where
  reset : Bool
  clearCounters : Bool

namespace InputArbiter

structure Regs where
  pktinReg : BitVec 32
  pktoutReg : BitVec 32

/-- Inputs in a cycle. The ends of packets are `tlast && tvalid && tready` of each port. -/
structure Input where
  clears : Clears
  pktinRegClear : Bool
  pktoutRegClear : Bool
  sAxis0End : Bool
  sAxis1End : Bool
  sAxis2End : Bool
  mAxisEnd : Bool

/-- The comparison for bit 31 of `pktin_reg` has the counter in its sum twice. -/
def step (s : Regs) (i : Input) : Regs :=
  if i.clears.reset then ⟨0, 0⟩
  else
    let clearIn := i.clears.clearCounters || i.pktinRegClear
    let clearOut := i.clears.clearCounters || i.pktoutRegClear
    { pktinReg :=
        assign clearIn
          (low s.pktinReg + bit i.sAxis0End + bit i.sAxis1End + bit i.sAxis2End)
          (exceeds (low s.pktinReg + low s.pktinReg + bit i.sAxis0End + bit i.sAxis1End +
            bit i.sAxis2End) (top s.pktinReg))
      pktoutReg := pktCounter clearOut s.pktoutReg (low s.pktoutReg + bit i.mAxisEnd) }

def machine : Lib.Machine Regs Input := ⟨step⟩

end InputArbiter

namespace OutputQueues

structure Regs where
  pktinReg : BitVec 32
  pktoutReg : BitVec 32

structure Input where
  clears : Clears
  pktinRegClear : Bool
  pktoutRegClear : Bool
  sAxisEnd : Bool
  mAxis0End : Bool
  mAxis1End : Bool
  mAxis2End : Bool

def step (s : Regs) (i : Input) : Regs :=
  if i.clears.reset then ⟨0, 0⟩
  else
    let clearIn := i.clears.clearCounters || i.pktinRegClear
    let clearOut := i.clears.clearCounters || i.pktoutRegClear
    { pktinReg := pktCounter clearIn s.pktinReg (low s.pktinReg + bit i.sAxisEnd)
      pktoutReg :=
        pktCounter clearOut s.pktoutReg
          (low s.pktoutReg + bit i.mAxis0End + bit i.mAxis1End + bit i.mAxis2End) }

def machine : Lib.Machine Regs Input := ⟨step⟩

end OutputQueues

namespace MacAttachment

structure Regs where
  rxMacPktinReg : BitVec 32
  txMacPktinReg : BitVec 32

/-- `rxEnd` is `m_axis_mac_tvalid && m_axis_mac_tlast`: the receiving side of the MAC has no
`tready`. -/
structure Input where
  clears : Clears
  rxMacPktinRegClear : Bool
  txMacPktinRegClear : Bool
  rxEnd : Bool
  txEnd : Bool

def step (s : Regs) (i : Input) : Regs :=
  if i.clears.reset then ⟨0, 0⟩
  else
    let clearRx := i.clears.clearCounters || i.rxMacPktinRegClear
    let clearTx := i.clears.clearCounters || i.txMacPktinRegClear
    { rxMacPktinReg := pktCounter clearRx s.rxMacPktinReg (low s.rxMacPktinReg + bit i.rxEnd)
      txMacPktinReg := pktCounter clearTx s.txMacPktinReg (low s.txMacPktinReg + bit i.txEnd) }

def machine : Lib.Machine Regs Input := ⟨step⟩

end MacAttachment

namespace SwitchLookup

structure Regs where
  pktinReg : BitVec 32
  luthitReg : BitVec 32
  lutmissReg : BitVec 32

structure Input where
  clears : Clears
  pktinRegClear : Bool
  luthitRegClear : Bool
  lutmissRegClear : Bool
  sAxisEnd : Bool
  lutHit : Bool
  lutMiss : Bool
  lookupDone : Bool

/-- Bit 31 of `luthit_reg` keeps that of `pktin_reg`. -/
def step (s : Regs) (i : Input) : Regs :=
  if i.clears.reset then ⟨0, 0, 0⟩
  else
    let clearIn := i.clears.clearCounters || i.pktinRegClear
    let clearHit := i.clears.clearCounters || i.luthitRegClear
    let clearMiss := i.clears.clearCounters || i.lutmissRegClear
    let hits := low s.luthitReg + bit (i.lutHit && i.lookupDone)
    { pktinReg := pktCounter clearIn s.pktinReg (low s.pktinReg + bit i.sAxisEnd)
      luthitReg := assign clearHit hits (exceeds hits (top s.pktinReg))
      lutmissReg :=
        pktCounter clearMiss s.lutmissReg
          (low s.lutmissReg + bit (i.lutMiss && i.lookupDone)) }

def machine : Lib.Machine Regs Input := ⟨step⟩

end SwitchLookup
end Osnt.PacketCounters
