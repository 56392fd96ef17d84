import Mathlib.Data.List.Induction

/-! Marks that are left by visits. Whoever is visited marks those it points at, and itself if it
points at any; otherwise it loses its own mark. -/
namespace Osnt.Lib
variable {α : Type} (points : α → α → Prop)

def visitMarks (marked : α → Prop) (p : α) : α → Prop := fun q =>
  points p q ∨ (q = p ∧ ∃ o, points p o) ∨ (q ≠ p ∧ marked q)

/-- The marks after visits in this order. -/
def marks (marked : α → Prop) (ps : List α) : α → Prop := ps.foldl (visitMarks points) marked

variable {points} {marked : α → Prop} {ps : List α} {p q : α}

theorem marks_concat :
    marks points marked (ps ++ [p]) = visitMarks points (marks points marked ps) p := by
  rw [marks, List.foldl_append]
  rfl

/-- The last visit stands, for the one that is visited and for those it points at. -/
theorem marks_last (h : points p q) :
    marks points marked (ps ++ [p]) q ∧ marks points marked (ps ++ [p]) p := by
  rw [marks_concat]
  exact ⟨.inl h, .inr (.inl ⟨rfl, q, h⟩)⟩

/-- The order makes no difference if those that are pointed at point at someone too. -/
theorem marks_settled (h : ∀ p q, points p q → ∃ o, points q o) (hp : p ∈ ps) :
    marks points marked ps p ↔ ∃ o, points p o := by
  induction ps using List.reverseRecOn with
  | nil => cases hp
  | append_singleton ps last ih =>
    rw [marks_concat]
    constructor
    · rintro (hpoints | ⟨rfl, hany⟩ | ⟨hne, hbefore⟩)
      · exact h last p hpoints
      · exact hany
      · rcases List.mem_append.mp hp with hmem | hmem
        · exact (ih hmem).mp hbefore
        · exact absurd (List.mem_singleton.mp hmem) hne
    · intro hany
      by_cases he : p = last
      · exact .inr (.inl ⟨he, he ▸ hany⟩)
      · rcases List.mem_append.mp hp with hmem | hmem
        · exact .inr (.inr ⟨he, (ih hmem).mpr hany⟩)
        · exact absurd (List.mem_singleton.mp hmem) he

end Osnt.Lib
