import Osnt.Fifo
import Osnt.Lookup
import Osnt.MacCamLut
import Osnt.SwitchLookup

/-! `switch_lite_output_port_lookup.v` with its `eth_parser`: the ports of each packet are those
that `mac_cam_lut` knows for its destination address. -/
namespace Osnt.SwitchLite
open Lib MacCamLut
open SwitchLookup (State withPorts stamp)

inductive ParserState where
  | readMacAddresses | waitEop
deriving DecidableEq, Inhabited, Repr

/-- Registers of `eth_parser`. -/
structure EthParser where
  dstMac : BitVec 48
  srcMac : BitVec 48
  ethDone : Bool
  srcPort : BitVec 8
  state : ParserState
deriving Inhabited

/-- The addresses and the source port in the first word of a packet. -/
def request (w : Word) : Request :=
  ⟨w.tdata.extractLsb' 0 48, w.tdata.extractLsb' 48 48, w.tuser.extractLsb' 16 8⟩

namespace EthParser

def reset : EthParser := ⟨0, 0, false, 0, .readMacAddresses⟩

def step (s : EthParser) (valid : Bool) (w : Word) : EthParser :=
  match s.state with
  | .readMacAddresses =>
    if valid && w.tlast then
      ⟨(request w).dstMac, (request w).srcMac, true, (request w).srcPort, .readMacAddresses⟩
    else if valid then
      ⟨(request w).dstMac, (request w).srcMac, true, (request w).srcPort, .waitEop⟩
    else ⟨0, 0, false, 0, .readMacAddresses⟩
  | .waitEop =>
    if valid && w.tlast then ⟨0, 0, false, 0, .readMacAddresses⟩ else ⟨0, 0, false, 0, .waitEop⟩

end EthParser

/-- `C_LUT_DEPTH_BITS` is 4. -/
structure Regs where
  inputFifo : FallthroughFifo Word 4
  ethParser : EthParser
  macCamLut : Lut 4
  dstPortFifo : FallthroughFifo (BitVec 8) 2
  state : State

instance : Inhabited Regs := ⟨⟨default, default, default, default, .wait⟩⟩

namespace Regs
variable (s : Regs) (i : LookupInput)

def reset : Regs := ⟨s.inputFifo.reset, .reset, .cleared, s.dstPortFifo.reset, .wait⟩

def sTready : Bool := !s.inputFifo.nearlyFull

def sendPacket : Bool :=
  match s.state with
  | .wait => !s.dstPortFifo.empty
  | .send => true

def mTvalid : Bool := !s.inputFifo.empty && s.sendPacket

def mWord : Word :=
  match s.state with
  | .wait =>
    if !s.dstPortFifo.empty then withPorts s.inputFifo.dout s.dstPortFifo.dout
    else s.inputFifo.dout
  | .send => s.inputFifo.dout

/-- The ports are taken as soon as they are there, whether the word is taken or not. -/
def dstPortRd : Bool :=
  match s.state with
  | .wait => !s.dstPortFifo.empty
  | .send => false

def stateNext : State :=
  match s.state with
  | .wait =>
    if !s.dstPortFifo.empty then
      if s.inputFifo.dout.tlast && s.mTvalid && i.tready then .wait else .send
    else .wait
  | .send => if s.inputFifo.dout.tlast && s.mTvalid && i.tready then .wait else .send

/-- What `eth_parser` asks of `mac_cam_lut`; the tables are not reset. -/
def lutIn : MacCamLut.Input :=
  ⟨s.ethParser.ethDone, ⟨s.ethParser.dstMac, s.ethParser.srcMac, s.ethParser.srcPort⟩, false⟩

def step : Regs where
  inputFifo := s.inputFifo.step (i.tvalid && s.sTready) i.word (i.tready && s.mTvalid)
  ethParser := s.ethParser.step (i.tvalid && s.sTready) i.word
  macCamLut := s.macCamLut.step s.lutIn
  dstPortFifo := s.dstPortFifo.step s.macCamLut.lookupDone s.macCamLut.dstPorts s.dstPortRd
  state := s.stateNext i

end Regs

def lookup : Lookup Regs := ⟨Regs.step, Regs.sTready, Regs.mTvalid, Regs.mWord⟩

/-! What the block is for. -/

/-- The requests of the packets of a stream. -/
def requests (ws : List Word) : List Request := (openers Word.tlast true ws).map request

/-- The packets of a stream, each with the ports that the learning table of 16 rows has for it. -/
def forwarded (ws : List Word) : List Word :=
  stamp true ws (answers (emptyTable 4) (requests ws))

/-- The request of a packet. -/
def requestOf (pkt : List Word) : Request := (pkt.head?.map request).getD default

/-- The ports of packets in a row. -/
def ports (pkts : List (List Word)) : List (BitVec 8) :=
  answers (emptyTable 4) (pkts.map requestOf)

end Osnt.SwitchLite
