import Osnt.CamLut
import Osnt.Lib.Server

/-! `ip_lpm.v` with the lookup of `ip_arp.v` behind it, at 512 bits and with eight queues: the
destination address of a packet is looked up in the route table, and the next hop found there in the
ARP table, before the next address is taken.

`dest_fifo` is an ideal first-word-fall-through FIFO; what it shows while it is empty is left open
and comes with the input. The depths of the two tables are `n + 1` and `m + 1`. -/
namespace Osnt.IpLpm
open Lib

/-- The states of the lookup. -/
inductive State
  | wait
  | process
deriving DecidableEq, Repr

/-- `tdata[DEST_IP_POS-1 : DEST_IP_POS-32]`. -/
def destIpOf (tdata : BitVec 512) : BitVec 32 := tdata.extractLsb' 240 32

/-- Entries of the route table are an output port and the address of the next hop. -/
def portOf (data : BitVec 40) : BitVec 8 := data.extractLsb' 32 8

def nextHopOf (data : BitVec 40) : BitVec 32 := data.extractLsb' 0 32

def lpmParams : CamLut.Params 32 40 := ⟨1, ⟨0, 0, 0⟩⟩

def arpParams : CamLut.Params 32 48 := ⟨0, ⟨0, 0, 0⟩⟩

/-- Registers of `ip_lpm`, and the machines of the two tables. -/
structure Sys (n m : Nat) where
  dstIp : BitVec 32
  dstIpVld : Bool
  destFifo : List (BitVec 32)
  state : State
  lpmOutputPort : BitVec 8
  nextHopIp : BitVec 32
  lpmHit : Bool
  lpmVld : Bool
  lpm : CamLut.Sm 32 40 n
  arp : CamLut.Sm 32 48 m

/-- One cycle: the word on the bus, what `dest_fifo` shows if it is empty, and the software ports of
the two tables, whose lookup ports are driven from here. -/
structure Input (n m : Nat) where
  wordIpDstHi : Bool
  tdata : BitVec 512
  emptyDout : BitVec 32
  lpm : CamLut.Input 32 40 n
  arp : CamLut.Input 32 48 m

namespace Sys
variable {n m : Nat} (s : Sys n m) (i : Input n m)

/-- The output of `dest_fifo`. -/
def dstIpFifo : BitVec 32 := s.destFifo.head?.getD i.emptyDout

/-- `dst_ip_ready`, which is also `rd_dest`: the lookup is issued and the address popped. -/
def dstIpReady : Bool := s.state == .wait && !s.destFifo.isEmpty

def lpmInput : CamLut.Input 32 40 n :=
  { i.lpm with lookupReq := s.dstIpReady, key := ⟨s.dstIpFifo i, 0⟩ }

def arpInput : CamLut.Input 32 48 m :=
  { i.arp with lookupReq := s.lpmVld, key := ⟨s.nextHopIp, 0⟩ }

/-- `lookup_data` of the route table. -/
def lpmResult : BitVec 40 := s.lpm.lookupData lpmParams

/-- One clock edge out of reset; `arp_done` is the answer of the ARP table. -/
def step : Sys n m where
  dstIp := if i.wordIpDstHi then destIpOf i.tdata else s.dstIp
  dstIpVld := i.wordIpDstHi
  destFifo :=
    (if s.dstIpReady then s.destFifo.tail else s.destFifo) ++ if s.dstIpVld then [s.dstIp] else []
  state :=
    match s.state with
    | .wait => if s.destFifo.isEmpty then .wait else .process
    | .process => if s.arp.lookupAck then .wait else .process
  lpmOutputPort := portOf s.lpmResult
  nextHopIp :=
    if nextHopOf s.lpmResult = 0 then s.dstIpFifo i else nextHopOf s.lpmResult
  lpmHit := s.lpm.lookupHit
  lpmVld := s.lpm.lookupAck
  lpm := s.lpm.step lpmParams (s.lpmInput i)
  arp := s.arp.step arpParams (s.arpInput i)

/-- The next hop presented with `lpm_vld`. -/
def pulse : List (BitVec 32) := if s.lpmVld then [s.nextHopIp] else []

/-- The answer of the route table, `lookup_hit` and `lookup_data`. -/
def answer : List (Bool × BitVec 40) :=
  if s.lpm.lookupAck then [(s.lpm.lookupHit, s.lpmResult)] else []

end Sys

def machine {n m : Nat} : Machine (Sys n m) (Input n m) := ⟨Sys.step⟩

/-- Nothing is under way, and the tables have been initialised with whatever content. -/
structure Start {n m : Nat} (s : Sys n m) : Prop where
  dstIpVld : s.dstIpVld = false
  destFifo : s.destFifo = []
  state : s.state = .wait
  lpmVld : s.lpmVld = false
  lpmState : s.lpm.state = .ready
  arpState : s.arp.state = .ready
  lpmPipe : s.lpm.lookupLatched = false ∧ s.lpm.camLookupDone = false ∧
    s.lpm.camMatchEncoded = false ∧ s.lpm.lookupAck = false
  arpPipe : s.arp.lookupLatched = false ∧ s.arp.camLookupDone = false ∧
    s.arp.camMatchEncoded = false ∧ s.arp.lookupAck = false

section Runs
variable {n m : Nat} (s : Sys n m) (ins : List (Input n m))

/-- The destination addresses of the packets, each with the cycle it comes in. -/
def starts : List (Nat × BitVec 32) :=
  machine.schedule (fun _ (i : Input n m) => if i.wordIpDstHi then [destIpOf i.tdata] else []) s ins

/-- The next hops presented with `lpm_vld`, each with its cycle. -/
def pulseSchedule : List (Nat × BitVec 32) := machine.schedule (fun s _ => s.pulse) s ins

def answers : List (Bool × BitVec 40) := machine.collect (fun s _ => s.answer) s ins

end Runs

/-! What the block is for. -/

/-- The next hop of a packet: its own destination if the route has none. -/
def nextHop (dst : BitVec 32) (answer : Bool × BitVec 40) : BitVec 32 :=
  if nextHopOf answer.2 = 0 then dst else nextHopOf answer.2

/-- The table and the rows of the CAM are those of `base`, and no write is under way. -/
structure Settled {n : Nat} (base : CamLut.Table 32 40 n) (t : CamLut.Sm 32 40 n) : Prop where
  state : t.state = .ready
  rows : ∀ r, t.camRows r = ((base r).cmpData, (base r).cmpDmask)
  lut : t.lutNext = base
  works : t.camWorks = none

/-- The answer of the table to a destination address. -/
def routeOf {n : Nat} (base : CamLut.Table 32 40 n) (dst : BitVec 32) : Bool × BitVec 40 :=
  CamLut.Table.answer lpmParams base ⟨dst, 0⟩

/-- The packets, each with the cycle in which its address is looked up: at the earliest two cycles
after it came, and ten cycles after the lookup before. -/
def lookups (ps : List (Nat × BitVec 32)) : List (Nat × BitVec 32) :=
  Server.due 2 10 (fun _ => 0) 0 ps

section Spec
variable {n m : Nat} (s : Sys n m) (ins : List (Input n m))

/-- The `k`-th next hop presented is that of the `k`-th packet and its answer. -/
def AllRight : Prop :=
  ∀ (k : Nat) (e p : Nat × BitVec 32) (r : Bool × BitVec 40), (pulseSchedule s ins)[k]? = some e →
    (starts s ins)[k]? = some p → (answers s ins)[k]? = some r → e.2 = nextHop p.2 r

/-- What `dest_fifo` shows in cycle `c` when the first `k` addresses have been taken: the next
address, if it has come by then. -/
def shownAt (k c : Nat) : BitVec 32 :=
  match (starts s ins)[k]? with
  | some q => if q.1 + 2 ≤ c then q.2 else (ins[c]?.map Input.emptyDout).getD 0
  | none => (ins[c]?.map Input.emptyDout).getD 0

/-- Whenever the route found for the `k`-th packet has no next hop, what `dest_fifo` shows four
cycles after the lookup is the address of the packet again. -/
def SameAddressNext : Prop :=
  ∀ (k : Nat) (e : Nat × BitVec 32) (r : Bool × BitVec 40), (lookups (starts s ins))[k]? = some e →
    e.1 + 5 < ins.length → (answers s ins)[k]? = some r → nextHopOf r.2 = 0 →
    shownAt s ins (k + 1) (e.1 + 4) = e.2

end Spec
end Osnt.IpLpm
