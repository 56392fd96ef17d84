import Osnt.Axis
import Osnt.Fifo
import Osnt.Lib.Machine
import Osnt.Lib.Framing

/-! `switch_output_port_lookup.v`: packets wait in `input_fifo` for the ports that the lookup of
their first word returns.

`eth_parser` and `mac_cam_lut` are seen by their timing: the lookup of a packet is issued with its
first word and its result returns a fixed number of cycles later. Which ports it returns comes with
the input. -/
namespace Osnt.SwitchLookup
open Lib

/-- The states of the output side. -/
inductive State
  | wait
  | send
deriving DecidableEq, Repr

/-- `m_axis_tuser[DST_PORT_POS+7 : DST_PORT_POS] = dst_ports_latched`. -/
def withPorts (w : Word) (ports : BitVec 8) : Word :=
  { w with tuser := w.tuser.extractLsb' 32 96 ++ ports ++ w.tuser.extractLsb' 0 24 }

/-- The FIFOs, the lookups under way, whether `eth_parser` is inside a packet, and the state. -/
structure Sys where
  inputFifo : FallthroughFifo Word 4
  dstPortFifo : FallthroughFifo (BitVec 8) 2
  lookups : List (Option (BitVec 8))
  inPacket : Bool
  state : State

/-- One cycle of the two streams; `ports` is what the lookup returns if it is issued now. -/
structure Input where
  tvalid : Bool
  word : Word
  ports : BitVec 8
  tready : Bool

/-- Out of reset, with a lookup that takes `latency` cycles. -/
def reset (latency : Nat) : Sys where
  inputFifo := FallthroughFifo.reset default
  dstPortFifo := FallthroughFifo.reset default
  lookups := List.replicate latency none
  inPacket := false
  state := .wait

namespace Sys
variable (s : Sys) (i : Input)

/-- `s_axis_tvalid & s_axis_tready`. -/
def accepts : Bool := i.tvalid && !s.inputFifo.nearlyFull

/-- The lookup issued in this cycle, by its result. -/
def issued : Option (BitVec 8) := if s.accepts i && !s.inPacket then some i.ports else none

/-- `lookup_done` and `dst_ports`. -/
def lookupDone : Option (BitVec 8) := (s.lookups ++ [s.issued i]).head?.join

def sendPacket : Bool :=
  match s.state with
  | .wait => !s.dstPortFifo.empty
  | .send => true

def mValid : Bool := !s.inputFifo.empty && s.sendPacket

/-- The word on the output. -/
def mWord : Word :=
  match s.state with
  | .wait => withPorts s.inputFifo.dout s.dstPortFifo.dout
  | .send => s.inputFifo.dout

/-- `in_fifo_rd_en`: the word on the output is taken. -/
def inRd : Bool := i.tready && s.mValid

def dstPortRd : Bool := s.state == .wait && s.inRd i

def step : Sys where
  inputFifo := s.inputFifo.step (s.accepts i) i.word (s.inRd i)
  dstPortFifo :=
    s.dstPortFifo.step (s.lookupDone i).isSome ((s.lookupDone i).getD 0) (s.dstPortRd i)
  lookups := (s.lookups ++ [s.issued i]).tail
  inPacket := if s.accepts i then !i.word.tlast else s.inPacket
  state :=
    if s.inRd i then (if s.inputFifo.dout.tlast then .wait else .send) else s.state

def accepted : List Word := if s.accepts i then [i.word] else []

def output : List Word := if s.inRd i then [s.mWord] else []

end Sys

def machine : Machine Sys Input := ⟨Sys.step⟩

section Runs
variable (latency : Nat) (ins : List Input)

def after : Sys := machine.run (reset latency) ins

def accepted : List Word := machine.collect Sys.accepted (reset latency) ins

/-- The results of the lookups issued, packet by packet. -/
def asked : List (BitVec 8) :=
  machine.collect (fun s i => (s.issued i).toList) (reset latency) ins

/-- The results that have returned. -/
def results : List (BitVec 8) :=
  machine.collect (fun s i => (s.lookupDone i).toList) (reset latency) ins

def outputs : List Word := machine.collect Sys.output (reset latency) ins

/-- Packets begun on the output. -/
def begun : Nat := (openers Word.tlast true (outputs latency ins)).length

end Runs

/-! What the block is for. -/

/-- The words of a stream with the ports of each packet on its first word. -/
def stamp : Bool → List Word → List (BitVec 8) → List Word
  | _, [], _ => []
  | false, w :: ws, ps => w :: stamp w.tlast ws ps
  | true, _ :: _, [] => []
  | true, w :: ws, p :: ps => withPorts w p :: stamp w.tlast ws ps

section Spec
variable (latency : Nat) (ins : List Input)

/-- Each packet leaves with the ports of its own lookup. -/
def Paired : Prop :=
  outputs latency ins <+: stamp true (accepted latency ins) (asked latency ins)

/-- No result is written to a full `dst_port_fifo`. -/
def NeverFull : Prop :=
  machine.Along (fun s i => (s.lookupDone i).isSome = true → s.dstPortFifo.full = false)
    (reset latency) ins

/-- When a result returns, at most six wait for their packet to begin on the output, and at most
five if one has begun in the cycle before. -/
def Roomy : Prop :=
  ∀ past i, past ++ [i] <+: ins → ((after latency past).lookupDone i).isSome = true →
    (results latency past).length +
        (if begun latency past.dropLast < begun latency past then 1 else 0) ≤
      begun latency past + 6

end Spec
end Osnt.SwitchLookup
