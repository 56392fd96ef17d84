import Mathlib.Data.List.Infix
import Mathlib.Logic.Function.Basic
import Mathlib.Algebra.Group.Nat.Defs

/-! Consecutive cells of a memory addressed by a wrapping counter. -/
namespace Osnt.Lib
variable {α : Type} {d : Nat}

/-- The `n` cells from `a` on, in address order, the address wrapping at `2^d`. -/
def window (f : BitVec d → α) (a : BitVec d) : Nat → List α
  | 0 => []
  | n + 1 => f a :: window f (a + 1) n

/-- Consecutive writes from `a` on. -/
def storeFrom (f : BitVec d → α) (a : BitVec d) : List α → BitVec d → α
  | [] => f
  | v :: vs => storeFrom (Function.update f a v) (a + 1) vs

@[simp] theorem length_window (f : BitVec d → α) (a : BitVec d) (n : Nat) :
    (window f a n).length = n := by
  induction n generalizing a with
  | zero => rfl
  | succ n ih => simp [window, ih]

theorem succ_add_ofNat (a : BitVec d) (k : Nat) :
    a + 1 + BitVec.ofNat d k = a + BitVec.ofNat d (k + 1) := by
  rw [BitVec.add_assoc, Nat.add_comm k 1, BitVec.ofNat_add]
  rfl

theorem add_ofNat_succ (a : BitVec d) (k : Nat) :
    a + BitVec.ofNat d k + 1 = a + BitVec.ofNat d (k + 1) := by
  rw [← succ_add_ofNat, BitVec.add_assoc, BitVec.add_comm _ 1, ← BitVec.add_assoc]

/-- Two offsets below the address space reach different cells. -/
theorem add_ofNat_inj {a : BitVec d} {i j : Nat} (hi : i < 2 ^ d) (hj : j < 2 ^ d)
    (h : a + BitVec.ofNat d i = a + BitVec.ofNat d j) : i = j := by
  have h' := congrArg BitVec.toNat ((BitVec.add_right_inj a).mp h)
  simpa [Nat.mod_eq_of_lt hi, Nat.mod_eq_of_lt hj] using h'

theorem window_getElem (f : BitVec d → α) (a : BitVec d) (n k : Nat) (hk : k < n) :
    (window f a n)[k]? = some (f (a + BitVec.ofNat d k)) := by
  induction n generalizing a k with
  | zero => omega
  | succ n ih =>
    cases k with
    | zero => simp [window]
    | succ k =>
      rw [window, List.getElem?_cons_succ, ih (a + 1) k (by omega), succ_add_ofNat]

theorem window_concat (f : BitVec d → α) (a : BitVec d) (n : Nat) :
    window f a (n + 1) = window f a n ++ [f (a + BitVec.ofNat d n)] := by
  induction n generalizing a with
  | zero => simp [window]
  | succ n ih =>
    rw [window, ih (a + 1), succ_add_ofNat]
    rfl

theorem window_update (f : BitVec d → α) (a : BitVec d) (n k : Nat) (v : α)
    (hn : n ≤ k) (hk : k < 2 ^ d) :
    window (Function.update f (a + BitVec.ofNat d k) v) a n = window f a n := by
  apply List.ext_getElem?
  intro j
  by_cases hj : j < n
  · rw [window_getElem _ _ _ _ hj, window_getElem _ _ _ _ hj, Function.update_of_ne]
    intro he
    have := add_ofNat_inj (by omega) hk he
    omega
  · rw [List.getElem?_eq_none (by simp; omega), List.getElem?_eq_none (by simp; omega)]

theorem window_comp {β : Type} (f : BitVec d → α) (g : α → β) (a : BitVec d) (n : Nat) :
    window (fun i => g (f i)) a n = (window f a n).map g := by
  induction n generalizing a with
  | zero => rfl
  | succ n ih => rw [window, window, ih, List.map_cons]

theorem mem_window_all (f : BitVec d → α) (a : BitVec d) {v : α} :
    v ∈ window f a (2 ^ d) ↔ ∃ i, f i = v := by
  constructor
  · intro h
    obtain ⟨k, hk⟩ := List.getElem?_of_mem h
    have hlt : k < 2 ^ d := by
      have hlen := (List.getElem?_eq_some_iff.mp hk).1
      rwa [length_window] at hlen
    rw [window_getElem _ _ _ _ hlt, Option.some.injEq] at hk
    exact ⟨_, hk⟩
  · rintro ⟨i, rfl⟩
    have hget := window_getElem f a (2 ^ d) (i - a).toNat (i - a).isLt
    rw [BitVec.ofNat_toNat, BitVec.setWidth_eq, BitVec.add_comm, BitVec.sub_add_cancel] at hget
    exact List.mem_of_getElem? hget

/-- A write to the first cell of the whole memory makes it the last. -/
theorem window_rotate (f : BitVec d → α) (a : BitVec d) (v : α) :
    window (Function.update f a v) (a + 1) (2 ^ d) = (window f a (2 ^ d)).tail ++ [v] := by
  obtain ⟨n, hn⟩ : ∃ n, 2 ^ d = n + 1 := ⟨2 ^ d - 1, by have := Nat.two_pow_pos d; omega⟩
  have hlap : a + 1 + BitVec.ofNat d n = a := by
    have hzero : BitVec.ofNat d (2 ^ d) = 0 := by
      apply BitVec.eq_of_toNat_eq
      rw [BitVec.toNat_ofNat, Nat.mod_self]
      exact (BitVec.toNat_zero ..).symm
    rw [succ_add_ofNat, ← hn, hzero]
    exact BitVec.add_zero a
  have hkeep := window_update f (a + 1) n n v (Nat.le_refl n) (by omega)
  rw [hlap] at hkeep
  rw [hn, window_concat, hlap, hkeep, Function.update_self]
  rfl

theorem storeFrom_concat (f : BitVec d → α) (a : BitVec d) (vs : List α) (v : α) :
    storeFrom f a (vs ++ [v]) =
      Function.update (storeFrom f a vs) (a + BitVec.ofNat d vs.length) v := by
  induction vs generalizing f a with
  | nil => simp [storeFrom]
  | cons u vs ih =>
    rw [List.cons_append, storeFrom, ih, succ_add_ofNat]
    rfl

/-- Stored values are read back as long as they do not lap the address space. -/
theorem window_storeFrom (f : BitVec d → α) (a : BitVec d) (vs : List α)
    (h : vs.length ≤ 2 ^ d) : window (storeFrom f a vs) a vs.length = vs := by
  induction vs using List.reverseRecOn with
  | nil => rfl
  | append_singleton vs v ih =>
    simp only [List.length_append, List.length_singleton] at h ⊢
    rw [window_concat, storeFrom_concat, window_update _ _ _ _ _ (Nat.le_refl _) (by omega),
      ih (by omega)]
    simp

/-- A cell beyond the stored values keeps its old content. -/
theorem storeFrom_beyond (f : BitVec d → α) (a : BitVec d) (vs : List α) (k : Nat)
    (hn : vs.length ≤ k) (hk : k < 2 ^ d) :
    storeFrom f a vs (a + BitVec.ofNat d k) = f (a + BitVec.ofNat d k) := by
  induction vs using List.reverseRecOn with
  | nil => rfl
  | append_singleton vs v ih =>
    simp only [List.length_append, List.length_singleton] at hn
    rw [storeFrom_concat, Function.update_of_ne, ih (by omega)]
    intro he
    have := add_ofNat_inj hk (by omega) he
    omega

end Osnt.Lib
