import Osnt.InputArbiter
import Osnt.Lib.Framing
import Osnt.Lookup
import Osnt.OutputQueues

/-! `nf_datapath.v` of the reference designs: the arbiter, an output port lookup and the output
queues, each wired straight to the next. -/
namespace Osnt.ReferenceDatapath

structure Sys (ρ : Type) where
  inputArbiter : InputArbiter.Arbiter
  outputPortLookup : ρ
  bramOutputQueues : OutputQueues.Queues
deriving Inhabited

/-- The three streams from the receive queues, and which transmit queues are ready. -/
structure Input where
  tvalid : Fin 3 → Bool
  word : Fin 3 → Word
  tready : Fin 3 → Bool

namespace Sys
variable {ρ : Type} (L : Lookup ρ) (s : Sys ρ) (i : Input)

def arbiterIn : InputArbiter.Input := ⟨i.tvalid, i.word, L.sTready s.outputPortLookup⟩

/-- `s_axis_opl_*`. -/
def lookupIn : LookupInput :=
  ⟨s.inputArbiter.mTvalid, s.inputArbiter.mWord, s.bramOutputQueues.sTready⟩

/-- `m_axis_opl_*`. -/
def queuesIn : OutputQueues.Input :=
  ⟨L.mTvalid s.outputPortLookup, L.mWord s.outputPortLookup, i.tready⟩

def step : Sys ρ where
  inputArbiter := s.inputArbiter.step (s.arbiterIn L i)
  outputPortLookup := L.step s.outputPortLookup s.lookupIn
  bramOutputQueues := s.bramOutputQueues.step (s.queuesIn L i)

/-- Out of reset; the lookup brings its own. -/
def reset (l : ρ) : Sys ρ := ⟨s.inputArbiter.reset, l, s.bramOutputQueues.reset⟩

def machine : Lib.Machine (Sys ρ) Input := ⟨step L⟩

end Sys

section Runs
variable {ρ : Type} (L : Lookup ρ) (s : Sys ρ) (l : ρ) (ins : List Input)

/-- The datapath after some cycles out of reset. -/
abbrev after : Sys ρ := (Sys.machine L).run (s.reset l) ins

/-- Words taken from a receive queue. -/
def accepted (q : Fin 3) : List Word :=
  (Sys.machine L).collect (fun t i => t.inputArbiter.accepted q (t.arbiterIn L i)) (s.reset l) ins

/-- Words handed to a transmit queue, less their side band. -/
def handed (p : Fin 3) : List OutputQueues.DataWord :=
  (Sys.machine L).collect (fun t i => t.bramOutputQueues.handed p (t.queuesIn L i)) (s.reset l) ins

/-- The packets taken from a receive queue, and the one that has not ended. -/
def packets (q : Fin 3) : Lib.Frames Word := Lib.frames Word.tlast (accepted L s l ins q)

end Runs
end Osnt.ReferenceDatapath
