import Osnt.Lib.Buffer

/-! Strings with a zero at their end, in buffers, and blocks of memory of a given size. -/
namespace Osnt.Lib

/-- What an allocation gives: as many bytes as asked for, with whatever was in them. -/
abbrev Malloc := ∀ size : Nat, Vector (BitVec 8) size

namespace CString
open Buffer

/-- The number of bytes before the zero; a buffer without one is read beyond its end. -/
def strlen (b : Bytes) : Option Nat := b.findIdx? fun c => c == 0

/-- The string in a buffer. -/
def text (b : Bytes) : Bytes := b.takeWhile fun c => c != 0

theorem strlen_append {s : Bytes} (hs : 0 ∉ s) (behind : Bytes) :
    strlen (s ++ 0 :: behind) = some s.length := by
  induction s with
  | nil => rfl
  | cons c s ih =>
    have hne : (c == 0) = false := by
      rw [beq_eq_false_iff_ne]
      rintro rfl
      exact hs (List.mem_cons_self ..)
    have hrest : (s ++ 0 :: behind).findIdx? (fun c => c == 0) = some s.length :=
      ih fun h => hs (List.mem_cons_of_mem _ h)
    unfold strlen
    rw [List.cons_append, List.findIdx?_cons, hne, hrest]
    rfl

theorem text_append {s : Bytes} (hs : 0 ∉ s) (behind : Bytes) : text (s ++ 0 :: behind) = s := by
  unfold text
  rw [List.takeWhile_append_of_pos, List.takeWhile_cons_of_neg (by simp), List.append_nil]
  intro c hc
  rw [bne_iff_ne]
  rintro rfl
  exact hs hc

theorem load8_append (done : Bytes) (c : BitVec 8) (rest : Bytes) :
    load8 (done ++ c :: rest) done.length = some c := by
  simp [load8]

theorem store8_append (done : Bytes) (c : BitVec 8) {room : Bytes} (h : room ≠ []) :
    store8 (done ++ room) done.length c = some ((done ++ [c]) ++ room.tail) := by
  obtain ⟨old, room, rfl⟩ := List.exists_cons_of_ne_nil h
  unfold store8
  rw [if_pos (by simp), List.set_append_right _ _ (Nat.le_refl _), Nat.sub_self]
  simp

end CString
end Osnt.Lib
