import Mathlib.Data.List.Infix

/-! A FIFO between two clocks. A word that is written can be read only when it has crossed to
the reading side, and the place of a word that is read is free only when that has crossed back;
both take arbitrarily long. -/
namespace Osnt.Lib

/-- The words that can be read, those on their way, and the places not yet given back. -/
structure CrossingFifo (α : Type) where
  shown : List α
  crossing : List α
  freeing : Nat
deriving Repr

namespace CrossingFifo
variable {α : Type}

def new : CrossingFifo α := ⟨[], [], 0⟩

/-- Everything written and not read. -/
def items (q : CrossingFifo α) : List α := q.shown ++ q.crossing

/-- How full the FIFO looks from the writing side. -/
def occupied (q : CrossingFifo α) : Nat := q.shown.length + q.crossing.length + q.freeing

def empty (q : CrossingFifo α) : Bool := q.shown.isEmpty

def write (q : CrossingFifo α) (w : α) : CrossingFifo α := { q with crossing := q.crossing ++ [w] }

/-- The oldest word on its way can now be read. -/
def reveal (q : CrossingFifo α) : CrossingFifo α :=
  { q with shown := q.shown ++ q.crossing.head?.toList, crossing := q.crossing.tail }

def read (q : CrossingFifo α) : CrossingFifo α :=
  { q with shown := q.shown.tail, freeing := q.freeing + 1 }

/-- The place of one word that was read is given back. -/
def free (q : CrossingFifo α) : CrossingFifo α := { q with freeing := q.freeing - 1 }

@[simp] theorem items_new : (new : CrossingFifo α).items = [] := rfl

@[simp] theorem items_write (q : CrossingFifo α) (w : α) : (q.write w).items = q.items ++ [w] := by
  simp [items, write]

@[simp] theorem items_reveal (q : CrossingFifo α) : q.reveal.items = q.items := by
  obtain ⟨shown, crossing, freeing⟩ := q
  cases crossing <;> simp [items, reveal]

@[simp] theorem items_free (q : CrossingFifo α) : q.free.items = q.items := rfl

theorem items_read {q : CrossingFifo α} {w : α} {ws : List α} (h : q.shown = w :: ws) :
    q.items = w :: q.read.items := by
  simp [items, read, h]

end CrossingFifo
end Osnt.Lib
