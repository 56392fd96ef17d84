import Osnt.OutputQueues

/-! An output port lookup as `nf_datapath.v` sees it: a stream in, the same stream out with the
destination ports of each packet in the side band of its first word. -/
namespace Osnt
open OutputQueues (dataWord)

/-- Inputs of an output port lookup in one cycle. -/
structure LookupInput where
  tvalid : Bool
  word : Word
  tready : Bool

/-- One clock edge on the registers, and what is driven on the two streams. -/
structure Lookup (ρ : Type) where
  step : ρ → LookupInput → ρ
  sTready : ρ → Bool
  mTvalid : ρ → Bool
  mWord : ρ → Word

/-- The output queues that destination ports stand for: MAC 0, MAC 1, and the CPU for odd ones. -/
def portQueue (ports : BitVec 8) : Fin 3 → Bool
  | 0 => ports.getLsbD 0
  | 1 => ports.getLsbD 2
  | 2 => ports.getLsbD 1 || ports.getLsbD 3

namespace Lookup
variable {ρ : Type} (L : Lookup ρ)

def machine : Lib.Machine ρ LookupInput := ⟨L.step⟩

/-- Words taken on `s_axis` in a cycle. -/
def accepted (s : ρ) (i : LookupInput) : List Word :=
  if i.tvalid && L.sTready s then [i.word] else []

/-- Words handed over on `m_axis` in a cycle. -/
def handed (s : ρ) (i : LookupInput) : List Word :=
  if L.mTvalid s && i.tready then [L.mWord s] else []

/-- What a lookup is for, from registers `l` on: behind a receiver that is always ready it takes a
word in every cycle, what it hands over is what it has taken with the side bands that `label`
gives, and it keeps nothing back. -/
structure Labels (l : ρ) (label : List Word → List Word) : Prop where
  ready : ∀ is : List LookupInput, (∀ i ∈ is, i.tready = true) →
    L.sTready (L.machine.run l is) = true
  order : ∀ is : List LookupInput, (∀ i ∈ is, i.tready = true) →
    L.machine.collect L.handed l is <+: label (L.machine.collect L.accepted l is)
  flush : ∃ n, ∀ is js : List LookupInput, (∀ i ∈ is, i.tready = true) →
    (∀ j ∈ js, j.tvalid = false ∧ j.tready = true) → n ≤ js.length →
    L.machine.collect L.handed l (is ++ js) = label (L.machine.collect L.accepted l is)
  data : ∀ ws : List Word, (label ws).map dataWord = ws.map dataWord

end Lookup
end Osnt
