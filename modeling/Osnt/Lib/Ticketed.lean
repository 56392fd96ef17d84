import Mathlib.Data.List.Basic

/-! Things with tickets that wait in groups: the tickets are given out one after the other, and what
is taken from a group is its first. -/
namespace Osnt.Lib
variable {κ : Type} [DecidableEq κ]

/-- In every group the tickets increase. -/
def InOrder (xs : List (κ × Nat)) : Prop :=
  ∀ k, (xs.filter fun x => x.1 = k).Pairwise fun a b => a.2 < b.2

namespace InOrder

theorem nil : InOrder ([] : List (κ × Nat)) := fun _ => List.Pairwise.nil

theorem sublist {xs ys : List (κ × Nat)} (h : InOrder ys) (hsub : xs.Sublist ys) : InOrder xs :=
  fun k => (h k).sublist (hsub.filter _)

theorem insert {ds a b : List (κ × Nat)} {k : κ} {n : Nat} (h : InOrder (ds ++ (a ++ b)))
    (hb : ∀ x ∈ b, x.1 ≠ k) (hfresh : ∀ x ∈ ds ++ (a ++ b), x.2 < n) :
    InOrder (ds ++ (a ++ (k, n) :: b)) := by
  intro k'
  by_cases hk : k = k'
  · subst hk
    have hnil : (b.filter fun x => x.1 = k) = [] := by
      rw [List.filter_eq_nil_iff]
      exact fun x hx => by simpa using hb x hx
    have hold := h k
    simp only [List.filter_append, hnil, List.append_nil] at hold
    simp only [List.filter_append, List.filter_cons, decide_true, if_true, hnil]
    rw [← List.append_assoc, List.pairwise_append]
    refine ⟨hold, List.pairwise_singleton _ _, ?_⟩
    intro x hx y hy
    rw [List.mem_singleton] at hy
    subst hy
    apply hfresh
    rcases List.mem_append.mp hx with hx | hx
    · exact List.mem_append_left _ (List.mem_filter.mp hx).1
    · exact List.mem_append_right _ (List.mem_append_left _ (List.mem_filter.mp hx).1)
  · have hold := h k'
    simp only [List.filter_append, List.filter_cons, hk, decide_false] at hold ⊢
    exact hold

/-- The first of a group goes behind those that have gone before. -/
theorem move {ds a b : List (κ × Nat)} {x : κ × Nat} (ha : ∀ y ∈ a, y.1 ≠ x.1)
    (h : InOrder (ds ++ (a ++ x :: b))) : InOrder (ds ++ [x] ++ (a ++ b)) := by
  intro k
  have hold := h k
  by_cases hk : x.1 = k
  · have hnil : (a.filter fun y => y.1 = k) = [] := by
      rw [List.filter_eq_nil_iff]
      exact fun y hy => by simpa [← hk] using ha y hy
    simp only [List.filter_append, List.filter_cons, hk, decide_true, if_true, hnil,
      List.nil_append, List.filter_nil] at hold ⊢
    rw [List.append_assoc]
    exact hold
  · simp only [List.filter_append, List.filter_cons, hk, decide_false,
      List.filter_nil] at hold ⊢
    simpa using hold

end InOrder

end Osnt.Lib
