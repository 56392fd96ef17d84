import Mathlib.Logic.Function.Basic
import Mathlib.Data.List.FinRange
import Osnt.Lib.Machine

/-! `unencoded_cam_lut_sm.v`: a lookup table behind a ternary CAM, with a pipeline of four
cycles for lookups and a port for the software.

`CMP_WIDTH` is `cw`, `DATA_WIDTH` is `dw` and `LUT_DEPTH` is `n + 1`. The CAM itself is not part
of the repository: it compares in one cycle with its current rows, a write occupies it for some
cycles in which `BUSY` is high, and is seen by compares from some cycle of these on. -/
namespace Osnt.CamLut
open Lib

/-- An entry of the lookup table: the compared data, its don't-care bits and what is found. -/
structure Entry (cw dw : Nat) where
  cmpDmask : BitVec cw
  cmpData : BitVec cw
  data : BitVec dw
deriving DecidableEq

/-- What a lookup compares with. -/
structure Key (cw : Nat) where
  cmpData : BitVec cw
  cmpDmask : BitVec cw

/-- A row agrees in all bits that neither it nor the lookup masks. -/
def Key.hits {cw : Nat} (k : Key cw) (cmpData cmpDmask : BitVec cw) : Bool :=
  (cmpData ^^^ k.cmpData) &&& ~~~cmpDmask &&& ~~~k.cmpDmask == 0

/-- A write to one row. -/
structure Write (cw dw n : Nat) where
  addr : Fin (n + 1)
  entry : Entry cw dw

/-- `DEFAULT_DATA` and the values written to all rows after a reset. -/
structure Params (cw dw : Nat) where
  defaultData : BitVec dw
  resetEntry : Entry cw dw

inductive State
  | reset
  | ready
deriving DecidableEq

/-- Registers of the machine, the table, and the CAM: its rows, the outputs of its last compare
and the write that occupies it. -/
structure Sm (cw dw n : Nat) where
  state : State
  resetCount : Nat
  lookupLatched : Bool
  camMatchFound : Bool
  camLookupDone : Bool
  rdReqLatched : Bool
  camMatchEncoded : Bool
  camMatchFoundD1 : Bool
  camMatchUnencodedAddr : Fin (n + 1) → Bool
  lutRdAddr : Fin (n + 1)
  lutRdData : Entry cw dw
  lookupAck : Bool
  lookupHit : Bool
  rdAck : Bool
  wrAck : Bool
  camWe : Bool
  camWr : Write cw dw n
  lut : Fin (n + 1) → Entry cw dw
  camRows : Fin (n + 1) → BitVec cw × BitVec cw
  camMatchAddr : Fin (n + 1) → Bool
  camPending : Option (Write cw dw n)

/-- One cycle of the three ports; `camBusy` keeps `BUSY` high beyond the write, and `camLands`
lets the write under way be seen from the next cycle on. -/
structure Input (cw dw n : Nat) where
  lookupReq : Bool
  key : Key cw
  rdReq : Bool
  rdAddr : Fin (n + 1)
  wrReq : Bool
  wr : Write cw dw n
  camBusy : Bool
  camLands : Bool

section
variable {cw dw n : Nat}

/-- `cam_match_encoded_addr`: the loop runs down from `LUT_DEPTH - 2`, so the smallest index
that is set stands at the end. -/
def encode (v : Fin (n + 1) → Bool) : Fin (n + 1) :=
  (List.finRange n).foldr (fun i addr => if v i.castSucc then i.castSucc else addr) (Fin.last n)

namespace Sm
variable (p : Params cw dw) (s : Sm cw dw n) (i : Input cw dw n)

def busy : Bool := s.camPending.isSome || i.camBusy

/-- A write is accepted. -/
def accepts : Bool :=
  s.state == .ready && i.wrReq && !s.busy i && !s.lookupLatched && !s.camMatchFound &&
    !s.camMatchFoundD1

/-- The write that the CAM is working on in this cycle; `WE` is ignored while it is busy. -/
def camWorks : Option (Write cw dw n) :=
  if s.camPending.isSome then s.camPending else if s.camWe then some s.camWr else none

/-- The write that the compares see from the next cycle on. -/
def landing : Option (Write cw dw n) := if i.camLands then s.camWorks else none

/-- The CAM and the table, which take their inputs in every state. -/
def memories : Sm cw dw n :=
  { s with
    camRows := match s.landing i with
      | some wr => Function.update s.camRows wr.addr (wr.entry.cmpData, wr.entry.cmpDmask)
      | none => s.camRows
    camPending := if i.camLands then none else s.camWorks
    camMatchAddr := fun r => i.key.hits (s.camRows r).1 (s.camRows r).2
    lut := if s.camWe then Function.update s.lut s.camWr.addr s.camWr.entry else s.lut }

/-- `RESET`: all rows are written, one after the other. -/
def stepReset : Sm cw dw n :=
  if s.busy i then s.memories i
  else if s.resetCount = n + 1 then { s.memories i with state := .ready, camWe := false }
  else
    { s.memories i with
      resetCount := s.resetCount + 1
      camWe := true
      camWr := ⟨Fin.ofNat (n + 1) s.resetCount, p.resetEntry⟩ }

/-- `READY`: the pipeline of the lookups, reads and writes. -/
def stepReady : Sm cw dw n :=
  { s.memories i with
    lookupLatched := i.lookupReq
    camMatchFound := s.lookupLatched && (List.finRange (n + 1)).any s.camMatchAddr
    camLookupDone := s.lookupLatched
    camMatchUnencodedAddr := s.camMatchAddr
    camMatchEncoded := s.camLookupDone
    camMatchFoundD1 := s.camMatchFound
    lutRdAddr :=
      if !s.camMatchFound && i.rdReq then i.rdAddr else encode s.camMatchUnencodedAddr
    rdReqLatched := !s.camMatchFound && i.rdReq
    lookupAck := s.camMatchEncoded
    lookupHit := s.camMatchFoundD1
    lutRdData := s.lut s.lutRdAddr
    rdAck := s.rdReqLatched
    camWe := s.accepts i
    wrAck := s.accepts i
    camWr := if s.accepts i then i.wr else s.camWr }

def step : Sm cw dw n :=
  match s.state with
  | .reset => s.stepReset p i
  | .ready => s.stepReady i

def lookupData : BitVec dw :=
  if s.lookupHit && s.lookupAck then s.lutRdData.data else p.defaultData

end Sm

/-! What the block is for. -/

abbrev Table (cw dw n : Nat) := Fin (n + 1) → Entry cw dw

/-- The smallest index that is set. -/
def first (v : Fin (n + 1) → Bool) : Option (Fin (n + 1)) := (List.finRange (n + 1)).find? v

/-- The rows of a version of the table that a lookup matches. -/
def Table.matching (t : Table cw dw n) (k : Key cw) (r : Fin (n + 1)) : Bool :=
  k.hits (t r).cmpData (t r).cmpDmask

/-- The answer of one version of the table: whether there is a match, and the data of the one
with the smallest index. -/
def Table.answer (p : Params cw dw) (t : Table cw dw n) (k : Key cw) : Bool × BitVec dw :=
  match first (t.matching k) with
  | some r => (true, (t r).data)
  | none => (false, p.defaultData)

/-- The version of the table after some writes. -/
def Table.apply (t : Table cw dw n) (ws : List (Write cw dw n)) : Table cw dw n :=
  ws.foldl (fun t wr => Function.update t wr.addr wr.entry) t

def machine (p : Params cw dw) : Machine (Sm cw dw n) (Input cw dw n) := ⟨Sm.step p⟩

/-- The writes accepted. -/
def Sm.accepted (s : Sm cw dw n) (i : Input cw dw n) : List (Write cw dw n) :=
  if s.accepts i then [i.wr] else []

/-- The writes whose table has been overtaken by what the compares see. -/
def Sm.landed (s : Sm cw dw n) (i : Input cw dw n) : List (Write cw dw n) := (s.landing i).toList

/-- The table at the end of a cycle: whatever the CAM is working on is in it. -/
def Sm.lutNext (s : Sm cw dw n) : Table cw dw n :=
  if s.camWe then Function.update s.lut s.camWr.addr s.camWr.entry else s.lut

/-- `READY`, the CAM showing the keys of a version of the table that the machine is ahead of by the
write under way, if there is one. -/
structure Ready (s : Sm cw dw n) (base : Table cw dw n) : Prop where
  state : s.state = .ready
  rows : ∀ r, s.camRows r = ((base r).cmpData, (base r).cmpDmask)
  lut : s.lutNext = base.apply s.camWorks.toList

section Run
variable (p : Params cw dw) (s : Sm cw dw n) (base : Table cw dw n)

def after (ins : List (Input cw dw n)) : Sm cw dw n := (machine p).run s ins

/-- The write under way at the start, and those accepted since. -/
def acceptedBy (ins : List (Input cw dw n)) : List (Write cw dw n) :=
  s.camWorks.toList ++ (machine p).collect Sm.accepted s ins

def landedBy (ins : List (Input cw dw n)) : List (Write cw dw n) :=
  (machine p).collect Sm.landed s ins

/-- The lookup requested after `past` is answered in the fourth cycle behind it, from a version
of the table between what had landed at the request and what is accepted by the answer. -/
def Atomic (past : List (Input cw dw n)) (i a b d : Input cw dw n) : Prop :=
  (after p s (past ++ [i, a, b, d])).lookupAck = true ∧
    ∃ ws, landedBy p s past <+: ws ∧ ws <+: acceptedBy p s (past ++ [i, a, b, d]) ∧
      ((after p s (past ++ [i, a, b, d])).lookupHit,
        (after p s (past ++ [i, a, b, d])).lookupData p) =
      Table.answer p (Table.apply base ws) i.key

/-- The write that is accepted in this cycle, or has been and is not yet seen by compares. -/
def Sm.inFlight (s : Sm cw dw n) (i : Input cw dw n) : Option (Write cw dw n) :=
  if s.accepts i then some i.wr else s.camWorks

/-- No write is under way to the row that the lookup hits, unless the lookup cannot tell: the new
entry matches as well, or has the same data, or the next match has the data of the new entry. -/
def Safe (past : List (Input cw dw n)) (i : Input cw dw n) : Prop :=
  ∀ wr, (after p s past).inFlight i = some wr →
    first ((Table.apply base (landedBy p s past)).matching i.key) = some wr.addr →
    i.key.hits wr.entry.cmpData wr.entry.cmpDmask = true ∨
      wr.entry.data = (Table.apply base (landedBy p s past) wr.addr).data ∨
      Table.answer p (Table.apply base (landedBy p s past ++ [wr])) i.key =
        (true, wr.entry.data)

/-- No write is accepted while the one before is handed to the CAM. -/
def Spaced (ins : List (Input cw dw n)) : Prop :=
  (machine p).Along (fun s i => s.camWe = true → s.accepts i = false) s ins

/-- A condition on every lookup of a run that is answered in it. -/
def EachLookup (ins : List (Input cw dw n))
    (P : List (Input cw dw n) → Input cw dw n → Input cw dw n → Input cw dw n → Input cw dw n →
      Prop) : Prop :=
  ∀ past i a b d later, ins = past ++ i :: a :: b :: d :: later → i.lookupReq = true →
    P past i a b d

end Run
end
end Osnt.CamLut
