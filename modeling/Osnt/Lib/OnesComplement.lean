import Mathlib.Algebra.BigOperators.Group.List.Basic
import Mathlib.Algebra.GroupWithZero.Nat
import Mathlib.Data.List.Induction

/-! One's complement sums of digits to a base: the carry comes back in at the low end. -/
namespace Osnt.Lib.OnesComplement

/-- The low digit with everything above it added. -/
def fold (b n : Nat) : Nat := n % b + n / b

def add (b x y : Nat) : Nat := fold b (x + y)

def sum (b : Nat) (xs : List Nat) : Nat := xs.foldl (add b) 0

variable {b : Nat}

/-- The weight of a carry is one more than a multiple of `b - 1`. -/
theorem fold_mod (hb : 2 ≤ b) (n : Nat) : fold b n % (b - 1) = n % (b - 1) := by
  obtain ⟨c, rfl⟩ : ∃ c, b = c + 1 := ⟨b - 1, by omega⟩
  have hn : n = fold (c + 1) n + n / (c + 1) * c := by
    have := Nat.div_add_mod n (c + 1)
    have hmul : (c + 1) * (n / (c + 1)) = n / (c + 1) * c + n / (c + 1) := by
      rw [Nat.add_mul, Nat.one_mul, Nat.mul_comm]
    rw [fold]
    omega
  rw [Nat.add_sub_cancel]
  conv_rhs => rw [hn, Nat.add_mul_mod_self_right]

theorem fold_eq_zero_iff {n : Nat} : fold b n = 0 ↔ n = 0 := by
  constructor
  · intro h
    obtain ⟨hm, hd⟩ := Nat.add_eq_zero_iff.mp h
    have := Nat.div_add_mod n b
    rw [hm, hd] at this
    omega
  · rintro rfl
    simp [fold]

theorem add_lt {x y : Nat} (hx : x < b) (hy : y < b) : add b x y < b := by
  rw [add, fold]
  rcases Nat.lt_or_ge (x + y) b with h | h
  · rw [Nat.mod_eq_of_lt h, Nat.div_eq_of_lt h]
    exact h
  · have hlt : x + y - b < b := by omega
    rw [Nat.mod_eq_sub_mod h, Nat.mod_eq_of_lt hlt, Nat.div_eq_sub_div (by omega) h,
      Nat.div_eq_of_lt hlt]
    omega

theorem sum_concat (xs : List Nat) (x : Nat) : sum b (xs ++ [x]) = add b (sum b xs) x := by
  simp [sum]

/-- A sum of digits is a digit, of the same class modulo `b - 1` and zero only if all are. -/
theorem sum_spec (hb : 2 ≤ b) {xs : List Nat} (h : ∀ x ∈ xs, x < b) :
    sum b xs < b ∧ sum b xs % (b - 1) = xs.sum % (b - 1) ∧ (sum b xs = 0 ↔ xs.sum = 0) := by
  induction xs using List.reverseRecOn with
  | nil => exact ⟨by rw [sum, List.foldl_nil]; omega, rfl, Iff.rfl⟩
  | append_singleton xs x ih =>
    obtain ⟨hlt, hmod, hz⟩ := ih (fun y hy => h y (by simp [hy]))
    rw [sum_concat, List.sum_append, List.sum_singleton]
    refine ⟨add_lt hlt (h x (by simp)), ?_, ?_⟩
    · rw [add, fold_mod hb, Nat.add_mod, hmod, ← Nat.add_mod]
    · rw [add, fold_eq_zero_iff]
      omega

/-- Of the two digits of the class of zero, the largest is the one that is not zero. -/
theorem digit_eq_max_iff (hb : 2 ≤ b) {n : Nat} (h : n < b) :
    n = b - 1 ↔ n % (b - 1) = 0 ∧ n ≠ 0 := by
  constructor
  · rintro rfl
    exact ⟨Nat.mod_self _, by omega⟩
  · rintro ⟨hm, hn⟩
    by_contra hne
    rw [Nat.mod_eq_of_lt (by omega)] at hm
    exact hn hm

theorem sum_eq_max_iff (hb : 2 ≤ b) {xs : List Nat} (h : ∀ x ∈ xs, x < b) :
    sum b xs = b - 1 ↔ xs.sum % (b - 1) = 0 ∧ xs.sum ≠ 0 := by
  obtain ⟨hlt, hmod, hz⟩ := sum_spec hb h
  rw [digit_eq_max_iff hb hlt, hmod, Ne, hz]

/-- One carry is enough to recognise the largest digit, if what is above the low digit of `n` is
itself below it. -/
theorem fold_eq_max_iff (hb : 2 ≤ b) {n : Nat} (h : n / b < b - 1) :
    fold b n % b = b - 1 ↔ n % (b - 1) = 0 ∧ n ≠ 0 := by
  have hlow : n % b < b := Nat.mod_lt _ (by omega)
  have hz : n ≠ 0 ↔ fold b n ≠ 0 := not_congr fold_eq_zero_iff.symm
  rw [← fold_mod hb n, hz]
  rcases Nat.lt_or_ge (fold b n) b with hf | hf
  · rw [Nat.mod_eq_of_lt hf]
    exact digit_eq_max_iff hb hf
  · have hle : fold b n ≤ 2 * b - 3 := by
      rw [fold]
      omega
    have hb' : fold b n % b = fold b n - b := by
      rw [Nat.mod_eq_sub_mod hf, Nat.mod_eq_of_lt (by omega)]
    have hc : fold b n % (b - 1) = fold b n - (b - 1) := by
      rw [Nat.mod_eq_sub_mod (by omega), Nat.mod_eq_of_lt (by omega)]
    rw [hb', hc]
    omega

/-- The sum with one carry at the end shows the same verdict as the sum with a carry at every
addition. -/
theorem fold_sum_eq_max_iff (hb : 2 ≤ b) {xs : List Nat} (h : ∀ x ∈ xs, x < b)
    (hsum : xs.sum / b < b - 1) : fold b xs.sum % b = b - 1 ↔ sum b xs = b - 1 := by
  rw [fold_eq_max_iff hb hsum, sum_eq_max_iff hb h]

end Osnt.Lib.OnesComplement
