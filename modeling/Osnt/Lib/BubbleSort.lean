import Mathlib.Data.List.Perm.Basic
import Mathlib.Data.List.Chain

/-! Bubble sort of a list: passes over neighbours until one changes nothing. `swap a b` says that
`a` may not stand right before `b`. -/
namespace Osnt.Lib.BubbleSort
variable {α : Type} (swap : α → α → Bool)

/-- One pass with `a` in hand, and whether it changed anything. -/
def bubble : α → List α → List α × Bool
  | a, [] => ([a], false)
  | a, b :: xs =>
    if swap a b then (b :: (bubble a xs).1, true)
    else (a :: (bubble b xs).1, (bubble b xs).2)

def pass : List α → List α × Bool
  | [] => ([], false)
  | a :: xs => bubble swap a xs

/-- Passes while they change something; `none` if that takes more than `fuel` of them. -/
def loop : Nat → List α → Option (List α)
  | 0, _ => none
  | fuel + 1, xs =>
    if (pass swap xs).2 then loop fuel (pass swap xs).1 else some (pass swap xs).1

/-- The pairs that stand in the wrong order. -/
def inversions : List α → Nat
  | [] => 0
  | a :: xs => xs.countP (swap a) + inversions xs

theorem bubble_perm (a : α) (xs : List α) : (bubble swap a xs).1.Perm (a :: xs) := by
  induction xs generalizing a with
  | nil => exact .refl _
  | cons b xs ih =>
    rw [bubble]
    split
    · exact ((ih a).cons b).trans (.swap a b xs)
    · exact (ih b).cons a

theorem pass_perm (xs : List α) : (pass swap xs).1.Perm xs := by
  cases xs with
  | nil => exact .refl _
  | cons a xs => exact bubble_perm swap a xs

/-- A pass that changes nothing has found every two neighbours in order. -/
theorem bubble_settled {a : α} {xs : List α} (h : (bubble swap a xs).2 = false) :
    (bubble swap a xs).1 = a :: xs ∧ (a :: xs).IsChain (fun x y => swap x y = false) := by
  induction xs generalizing a with
  | nil => exact ⟨rfl, .singleton a⟩
  | cons b xs ih =>
    rw [bubble] at h ⊢
    cases hs : swap a b with
    | true => simp [hs] at h
    | false =>
      simp only [hs, Bool.false_eq_true, if_false] at h ⊢
      obtain ⟨he, hc⟩ := ih h
      exact ⟨by rw [he], .cons_cons hs hc⟩

theorem pass_settled {xs : List α} (h : (pass swap xs).2 = false) :
    (pass swap xs).1 = xs ∧ xs.IsChain (fun x y => swap x y = false) := by
  cases xs with
  | nil => exact ⟨rfl, .nil⟩
  | cons a xs => exact bubble_settled swap h

/-- What the sort returns has the same elements, with every two neighbours in order. -/
theorem loop_spec {fuel : Nat} {xs ys : List α} (h : loop swap fuel xs = some ys) :
    ys.Perm xs ∧ ys.IsChain (fun x y => swap x y = false) := by
  induction fuel generalizing xs with
  | zero => cases h
  | succ fuel ih =>
    rw [loop] at h
    cases hp : (pass swap xs).2 with
    | true =>
      rw [hp, if_pos rfl] at h
      exact ⟨(ih h).1.trans (pass_perm swap xs), (ih h).2⟩
    | false =>
      obtain ⟨he, hc⟩ := pass_settled swap hp
      simp only [hp, Bool.false_eq_true, if_false, Option.some.injEq] at h
      rw [← h, he]
      exact ⟨.refl _, hc⟩

/-! Elements that are never swapped with each other keep their order. -/

section Stable
variable {swap} {p : α → Bool} (hkeep : ∀ a b, swap a b = true → p a = true → p b = false)
include hkeep

theorem bubble_filter (a : α) (xs : List α) :
    (bubble swap a xs).1.filter p = (a :: xs).filter p := by
  induction xs generalizing a with
  | nil => rfl
  | cons b xs ih =>
    rw [bubble]
    split
    · rename_i hs
      simp only [List.filter_cons, ih a]
      cases ha : p a with
      | false => simp
      | true => simp [hkeep a b hs ha]
    · simp only [List.filter_cons, ih b]

theorem pass_filter (xs : List α) : (pass swap xs).1.filter p = xs.filter p := by
  cases xs with
  | nil => rfl
  | cons a xs => exact bubble_filter hkeep a xs

theorem loop_filter {fuel : Nat} {xs ys : List α} (h : loop swap fuel xs = some ys) :
    ys.filter p = xs.filter p := by
  induction fuel generalizing xs with
  | zero => cases h
  | succ fuel ih =>
    rw [loop] at h
    split at h
    · exact (ih h).trans (pass_filter hkeep xs)
    · obtain rfl := Option.some.inj h
      exact pass_filter hkeep xs

end Stable

/-- What the sort returns does not depend on how many passes it is allowed. -/
theorem loop_unique {fuel fuel' : Nat} {xs ys zs : List α} (h : loop swap fuel xs = some ys)
    (h' : loop swap fuel' xs = some zs) : ys = zs := by
  induction fuel generalizing fuel' xs with
  | zero => cases h
  | succ fuel ih =>
    cases fuel' with
    | zero => cases h'
    | succ fuel' =>
      rw [loop] at h h'
      split at h
      · rename_i hchanged
        rw [if_pos hchanged] at h'
        exact ih h h'
      · rename_i hsettled
        rw [if_neg hsettled] at h'
        exact Option.some.inj (h.symm.trans h')

section Terminates
variable {swap} (hasymm : ∀ a b, swap a b = true → swap b a = false)
include hasymm

/-- A pass sets a pair right for every swap, and no pair wrong. -/
theorem bubble_inversions (a : α) (xs : List α) :
    inversions swap (bubble swap a xs).1 ≤ inversions swap (a :: xs) ∧
      ((bubble swap a xs).2 = true →
        inversions swap (bubble swap a xs).1 < inversions swap (a :: xs)) := by
  induction xs generalizing a with
  | nil => exact ⟨Nat.le_refl _, fun h => by cases h⟩
  | cons b xs ih =>
    have hcount : ∀ c x ys, ((bubble swap x ys).1).countP (swap c) = (x :: ys).countP (swap c) :=
      fun c x ys => (bubble_perm swap x ys).countP_eq _
    rw [bubble]
    cases hs : swap a b with
    | true =>
      have hle := (ih a).1
      simp only [if_true, inversions, hcount, List.countP_cons, hs, hasymm a b hs,
        Bool.false_eq_true, if_false] at hle ⊢
      omega
    | false =>
      obtain ⟨hle, hlt⟩ := ih b
      simp only [Bool.false_eq_true, if_false, inversions, hcount, List.countP_cons, hs]
        at hle hlt ⊢
      refine ⟨by omega, fun h => ?_⟩
      have := hlt h
      omega

theorem pass_inversions {xs : List α} (h : (pass swap xs).2 = true) :
    inversions swap (pass swap xs).1 < inversions swap xs := by
  cases xs with
  | nil => cases h
  | cons a xs => exact (bubble_inversions hasymm a xs).2 h

theorem loop_isSome {fuel : Nat} {xs : List α} (h : inversions swap xs < fuel) :
    ∃ ys, loop swap fuel xs = some ys := by
  induction fuel generalizing xs with
  | zero => omega
  | succ fuel ih =>
    rw [loop]
    cases hp : (pass swap xs).2 with
    | true =>
      have := pass_inversions hasymm hp
      exact ih (by omega)
    | false => exact ⟨_, rfl⟩

end Terminates

theorem inversions_le (xs : List α) : inversions swap xs ≤ xs.length * xs.length := by
  induction xs with
  | nil => exact Nat.le_refl 0
  | cons a xs ih =>
    have hc : xs.countP (swap a) ≤ xs.length := List.countP_le_length
    rw [inversions, List.length_cons, Nat.add_mul, Nat.mul_add]
    omega

end Osnt.Lib.BubbleSort
