import Mathlib.Data.List.GetD
import Mathlib.Algebra.Group.Nat.Defs

/-! Byte buffers with checked accesses on a little-endian host: an access beyond the end of the
buffer fails. -/
namespace Osnt.Lib

abbrev Bytes := List (BitVec 8)

namespace Buffer

/-- The other byte order of 16 bits: `ntohs` and `htons`. -/
def swap16 (v : BitVec 16) : BitVec 16 := v.extractLsb' 0 8 ++ v.extractLsb' 8 8

/-- The other byte order of 32 bits: `ntohl` and `htonl`. -/
def swap32 (v : BitVec 32) : BitVec 32 :=
  v.extractLsb' 0 8 ++ v.extractLsb' 8 8 ++ v.extractLsb' 16 8 ++ v.extractLsb' 24 8

/-- The bytes of a 16-bit value in memory. -/
def bytes16 (v : BitVec 16) : Bytes := [v.extractLsb' 0 8, v.extractLsb' 8 8]

/-- The bytes of a 32-bit value in memory. -/
def bytes32 (v : BitVec 32) : Bytes :=
  [v.extractLsb' 0 8, v.extractLsb' 8 8, v.extractLsb' 16 8, v.extractLsb' 24 8]

def load8 (b : Bytes) (o : Nat) : Option (BitVec 8) := b[o]?

def load16 (b : Bytes) (o : Nat) : Option (BitVec 16) := do
  let lo ← b[o]?
  let hi ← b[o + 1]?
  return hi ++ lo

def load32 (b : Bytes) (o : Nat) : Option (BitVec 32) := do
  let b0 ← b[o]?
  let b1 ← b[o + 1]?
  let b2 ← b[o + 2]?
  let b3 ← b[o + 3]?
  return b3 ++ b2 ++ b1 ++ b0

/-- A 16-bit value over the bytes at `o`, as far as the buffer goes. -/
def put16 (b : Bytes) (o : Nat) (v : BitVec 16) : Bytes :=
  (b.set o (v.extractLsb' 0 8)).set (o + 1) (v.extractLsb' 8 8)

def store16 (b : Bytes) (o : Nat) (v : BitVec 16) : Option Bytes :=
  if o + 2 ≤ b.length then some (put16 b o v) else none

def store32 (b : Bytes) (o : Nat) (v : BitVec 32) : Option Bytes := do
  let b ← store16 b o (v.extractLsb' 0 16)
  store16 b (o + 2) (v.extractLsb' 16 16)

def store8 (b : Bytes) (o : Nat) (v : BitVec 8) : Option Bytes :=
  if o + 1 ≤ b.length then some (b.set o v) else none

/-- `memcpy` of some bytes to `o`. -/
def storeBytes (b : Bytes) (o : Nat) : Bytes → Option Bytes
  | [] => some b
  | v :: vs => do
    let b ← store8 b o v
    storeBytes b (o + 1) vs

/-- `memcpy` from `n` bytes at `o` to a buffer of its own. -/
def slice (b : Bytes) (o n : Nat) : Option Bytes :=
  if o + n ≤ b.length then some ((b.drop o).take n) else none

/-- What 16 bits at `o` say in network order, with zeros behind the end of the buffer. -/
def be16 (b : Bytes) (o : Nat) : BitVec 16 := b.getD o 0 ++ b.getD (o + 1) 0

def be32 (b : Bytes) (o : Nat) : BitVec 32 :=
  b.getD o 0 ++ b.getD (o + 1) 0 ++ b.getD (o + 2) 0 ++ b.getD (o + 3) 0

@[simp] theorem swap16_swap16 (v : BitVec 16) : swap16 (swap16 v) = v := by
  apply BitVec.eq_of_getLsbD_eq
  intro i hi
  simp only [swap16, BitVec.getLsbD_append, BitVec.getLsbD_extractLsb']
  grind

@[simp] theorem swap32_swap32 (v : BitVec 32) : swap32 (swap32 v) = v := by
  apply BitVec.eq_of_getLsbD_eq
  intro i hi
  simp only [swap32, BitVec.getLsbD_append, BitVec.getLsbD_extractLsb']
  grind

@[simp] theorem length_bytes16 (v : BitVec 16) : (bytes16 v).length = 2 := rfl

@[simp] theorem length_bytes32 (v : BitVec 32) : (bytes32 v).length = 4 := rfl

theorem swap16_append (x y : BitVec 8) : swap16 (x ++ y) = y ++ x := by
  apply BitVec.eq_of_getLsbD_eq
  intro i hi
  simp only [swap16, BitVec.getLsbD_append, BitVec.getLsbD_extractLsb']
  grind

theorem swap32_append (x y z w : BitVec 8) :
    swap32 (x ++ y ++ z ++ w) = w ++ z ++ y ++ x := by
  apply BitVec.eq_of_getLsbD_eq
  intro i hi
  simp only [swap32, BitVec.getLsbD_append, BitVec.getLsbD_extractLsb']
  grind

theorem getElem?_eq_getD (b : Bytes) {o : Nat} (h : o < b.length) :
    b[o]? = some (b.getD o 0) := by
  rw [List.getD_eq_getElem _ _ h, List.getElem?_eq_getElem h]

theorem load8_eq (b : Bytes) (o : Nat) :
    load8 b o = if o + 1 ≤ b.length then some (b.getD o 0) else none := by
  unfold load8
  split
  · rename_i h
    exact getElem?_eq_getD b h
  · rename_i h
    exact List.getElem?_eq_none (by omega)

theorem load16_eq (b : Bytes) (o : Nat) :
    load16 b o = if o + 2 ≤ b.length then some (swap16 (be16 b o)) else none := by
  unfold load16
  split
  · rename_i h
    rw [getElem?_eq_getD b (by omega), getElem?_eq_getD b (by omega), be16, swap16_append]
    rfl
  · rename_i h
    have h1 : b[o + 1]? = none := List.getElem?_eq_none (by omega)
    rw [h1]
    cases b[o]? <;> rfl

theorem load32_eq (b : Bytes) (o : Nat) :
    load32 b o = if o + 4 ≤ b.length then some (swap32 (be32 b o)) else none := by
  unfold load32
  split
  · rename_i h
    rw [getElem?_eq_getD b (by omega), getElem?_eq_getD b (by omega),
      getElem?_eq_getD b (by omega), getElem?_eq_getD b (by omega), be32, swap32_append]
    rfl
  · rename_i h
    have h3 : b[o + 3]? = none := List.getElem?_eq_none (by omega)
    rw [h3]
    cases b[o]? <;> cases b[o + 1]? <;> cases b[o + 2]? <;> rfl

theorem getD_append_right (a b : Bytes) (o : Nat) :
    (a ++ b).getD (a.length + o) 0 = b.getD o 0 := by
  rw [List.getD_append_right _ _ _ _ (Nat.le_add_right _ _), Nat.add_sub_cancel_left]

theorem be16_append_right (a b : Bytes) (o : Nat) : be16 (a ++ b) (a.length + o) = be16 b o := by
  rw [be16, be16, Nat.add_assoc, getD_append_right, getD_append_right]

theorem be32_append_right (a b : Bytes) (o : Nat) : be32 (a ++ b) (a.length + o) = be32 b o := by
  have h1 := getD_append_right a b (o + 1)
  have h2 := getD_append_right a b (o + 2)
  have h3 := getD_append_right a b (o + 3)
  rw [← Nat.add_assoc] at h1 h2 h3
  rw [be32, be32, getD_append_right, h1, h2, h3]

theorem getD_slice (b : Bytes) {o n k : Nat} (h : k < n) :
    ((b.drop o).take n).getD k 0 = b.getD (o + k) 0 := by
  rw [List.getD_eq_getElem?_getD, List.getElem?_take_of_lt h, List.getElem?_drop,
    List.getD_eq_getElem?_getD]

theorem be16_slice (b : Bytes) {o n k : Nat} (h : k + 2 ≤ n) :
    be16 ((b.drop o).take n) k = be16 b (o + k) := by
  rw [be16, be16, getD_slice b (by omega), getD_slice b (by omega), Nat.add_assoc]

theorem be32_slice (b : Bytes) {o n k : Nat} (h : k + 4 ≤ n) :
    be32 ((b.drop o).take n) k = be32 b (o + k) := by
  rw [be32, be32, getD_slice b (by omega), getD_slice b (by omega), getD_slice b (by omega),
    getD_slice b (by omega)]
  rfl

theorem be16_bytes16 (v : BitVec 16) (b : Bytes) : be16 (bytes16 (swap16 v) ++ b) 0 = v := by
  apply BitVec.eq_of_getLsbD_eq
  intro i hi
  simp only [be16, bytes16, List.cons_append, List.nil_append, List.getD_cons_zero,
    List.getD_cons_succ, swap16, BitVec.getLsbD_append, BitVec.getLsbD_extractLsb']
  grind

theorem be32_bytes32 (v : BitVec 32) (b : Bytes) : be32 (bytes32 v ++ b) 0 = swap32 v := rfl

theorem getD_drop (b : Bytes) (o k : Nat) : (b.drop o).getD k 0 = b.getD (o + k) 0 := by
  rw [List.getD_eq_getElem?_getD, List.getElem?_drop, List.getD_eq_getElem?_getD]

theorem be16_of_drop {b rest : Bytes} {o : Nat} {v : BitVec 16}
    (h : b.drop o = bytes16 (swap16 v) ++ rest) : be16 b o = v := by
  rw [← be16_bytes16 v rest, ← h]
  unfold be16
  rw [getD_drop, getD_drop]
  rfl

theorem be32_of_drop {b rest : Bytes} {o : Nat} {v : BitVec 32}
    (h : b.drop o = bytes32 v ++ rest) : be32 b o = swap32 v := by
  rw [← be32_bytes32 v rest, ← h]
  unfold be32
  rw [getD_drop, getD_drop, getD_drop, getD_drop]
  rfl

@[simp] theorem length_put16 (b : Bytes) (o : Nat) (v : BitVec 16) :
    (put16 b o v).length = b.length := by
  simp [put16]

theorem getD_put16 (b : Bytes) {o k : Nat} (v : BitVec 16) (hk : k < o ∨ o + 2 ≤ k) :
    (put16 b o v).getD k 0 = b.getD k 0 := by
  unfold put16
  rw [List.getD_eq_getElem?_getD, List.getElem?_set_ne (by omega), List.getElem?_set_ne (by omega),
    List.getD_eq_getElem?_getD]

theorem be16_put16 (b : Bytes) {o k : Nat} (v : BitVec 16) (hk : k + 2 ≤ o ∨ o + 2 ≤ k) :
    be16 (put16 b o v) k = be16 b k := by
  rw [be16, be16, getD_put16 b v (by omega), getD_put16 b v (by omega)]

theorem be32_put16 (b : Bytes) {o k : Nat} (v : BitVec 16) (hk : k + 4 ≤ o ∨ o + 2 ≤ k) :
    be32 (put16 b o v) k = be32 b k := by
  rw [be32, be32, getD_put16 b v (by omega), getD_put16 b v (by omega), getD_put16 b v (by omega),
    getD_put16 b v (by omega)]

theorem be16_put16_self (b : Bytes) {o : Nat} (v : BitVec 16) (h : o + 2 ≤ b.length) :
    be16 (put16 b o v) o = swap16 v := by
  have hlo : (put16 b o v).getD o 0 = v.extractLsb' 0 8 := by
    unfold put16
    rw [List.getD_eq_getElem?_getD, List.getElem?_set_ne (by omega),
      List.getElem?_set_self (by omega)]
    rfl
  have hhi : (put16 b o v).getD (o + 1) 0 = v.extractLsb' 8 8 := by
    unfold put16
    rw [List.getD_eq_getElem?_getD, List.getElem?_set_self (by rw [List.length_set]; omega)]
    rfl
  rw [be16, hlo, hhi, swap16]

theorem put16_put16 (b : Bytes) (o : Nat) (v w : BitVec 16) :
    put16 (put16 b o v) o w = put16 b o w := by
  unfold put16
  rw [List.set_comm _ _ (by omega), List.set_set, List.set_comm _ _ (by omega), List.set_set]

theorem put16_append_left (a b : Bytes) {o : Nat} (v : BitVec 16) (h : o + 2 ≤ a.length) :
    put16 (a ++ b) o v = put16 a o v ++ b := by
  unfold put16
  rw [List.set_append_left _ _ (by omega),
    List.set_append_left _ _ (by rw [List.length_set]; omega)]

theorem put16_append_right (a b : Bytes) (o : Nat) (v : BitVec 16) :
    put16 (a ++ b) (a.length + o) v = a ++ put16 b o v := by
  unfold put16
  rw [List.set_append_right _ _ (by omega), List.set_append_right _ _ (by omega),
    Nat.add_sub_cancel_left, Nat.add_assoc, Nat.add_sub_cancel_left]

theorem put16_comm (b : Bytes) {o k : Nat} (v w : BitVec 16) (h : o + 2 ≤ k) :
    put16 (put16 b o v) k w = put16 (put16 b k w) o v := by
  unfold put16
  rw [List.set_comm (i := o + 1) (j := k) _ _ (by omega), List.set_comm (i := o) (j := k) _ _
    (by omega), List.set_comm (i := o + 1) (j := k + 1) _ _ (by omega),
    List.set_comm (i := o) (j := k + 1) _ _ (by omega)]

theorem append_halves16 (v : BitVec 16) : v.extractLsb' 8 8 ++ v.extractLsb' 0 8 = v := by
  apply BitVec.eq_of_getLsbD_eq
  intro i hi
  simp only [BitVec.getLsbD_append, BitVec.getLsbD_extractLsb']
  grind

theorem append_halves32 (v : BitVec 32) : v.extractLsb' 16 16 ++ v.extractLsb' 0 16 = v := by
  apply BitVec.eq_of_getLsbD_eq
  intro i hi
  simp only [BitVec.getLsbD_append, BitVec.getLsbD_extractLsb']
  grind

theorem append_pairs (b3 b2 b1 b0 : BitVec 8) :
    b3 ++ b2 ++ b1 ++ b0 = (b3 ++ b2) ++ (b1 ++ b0) := by
  apply BitVec.eq_of_getLsbD_eq
  intro i hi
  simp only [BitVec.getLsbD_append]
  grind

theorem store16_spec {b b' : Bytes} {o : Nat} {v : BitVec 16} (h : store16 b o v = some b') :
    b'.length = b.length ∧ (∀ k, k < o ∨ o + 2 ≤ k → b'[k]? = b[k]?) ∧
      load16 b' o = some v := by
  unfold store16 at h
  split at h
  · rename_i hle
    cases h
    refine ⟨length_put16 b o v, fun k hk => ?_, ?_⟩
    · unfold put16
      rw [List.getElem?_set_ne (by omega), List.getElem?_set_ne (by omega)]
    · unfold load16 put16
      rw [List.getElem?_set_ne (by omega), List.getElem?_set_self (by omega),
        List.getElem?_set_self (by rw [List.length_set]; omega)]
      exact congrArg some (append_halves16 v)
  · cases h

theorem store16_isSome {b : Bytes} {o : Nat} (h : o + 2 ≤ b.length) (v : BitVec 16) :
    ∃ b', store16 b o v = some b' := ⟨_, if_pos h⟩

theorem store8_spec {b b' : Bytes} {o : Nat} {v : BitVec 8} (h : store8 b o v = some b') :
    b'.length = b.length ∧ (∀ k, k ≠ o → b'[k]? = b[k]?) ∧ load8 b' o = some v := by
  unfold store8 at h
  split at h
  · rename_i hle
    cases h
    refine ⟨List.length_set, fun k hk => List.getElem?_set_ne hk.symm, ?_⟩
    exact List.getElem?_set_self hle
  · cases h

theorem storeBytes_spec {b b' vs : Bytes} {o : Nat} (h : storeBytes b o vs = some b') :
    b'.length = b.length ∧ ∀ k, k < o ∨ o + vs.length ≤ k → b'[k]? = b[k]? := by
  induction vs generalizing b o with
  | nil =>
    cases h
    exact ⟨rfl, fun _ _ => rfl⟩
  | cons v vs ih =>
    obtain ⟨b₁, h₁, h₂⟩ := Option.bind_eq_some_iff.mp h
    obtain ⟨hlen₁, hframe₁, -⟩ := store8_spec h₁
    obtain ⟨hlen₂, hframe₂⟩ := ih h₂
    refine ⟨hlen₂.trans hlen₁, fun k hk => ?_⟩
    rw [List.length_cons] at hk
    rw [hframe₂ k (by omega), hframe₁ k (by omega)]

/-- What a store needs is enough, and what has been stored is there. -/
theorem storeBytes_isSome {b : Bytes} {o : Nat} (vs : Bytes) (h : o + vs.length ≤ b.length) :
    ∃ b', storeBytes b o vs = some b' := by
  induction vs generalizing b o with
  | nil => exact ⟨b, rfl⟩
  | cons v vs ih =>
    rw [List.length_cons] at h
    have h₁ : store8 b o v = some (b.set o v) := if_pos (by omega)
    obtain ⟨b', hb'⟩ := @ih (b.set o v) (o + 1) (by rw [List.length_set]; omega)
    refine ⟨b', ?_⟩
    unfold storeBytes
    rw [h₁]
    exact hb'

theorem storeBytes_at {b b' vs : Bytes} {o i : Nat} (h : storeBytes b o vs = some b')
    (hi : i < vs.length) : b'[o + i]? = vs[i]? := by
  induction vs generalizing b o i with
  | nil => exact absurd hi (Nat.not_lt_zero i)
  | cons v vs ih =>
    obtain ⟨b₁, h₁, h₂⟩ := Option.bind_eq_some_iff.mp h
    cases i with
    | zero =>
      rw [Nat.add_zero, (storeBytes_spec h₂).2 o (by omega)]
      exact (store8_spec h₁).2.2
    | succ i =>
      rw [List.length_cons] at hi
      rw [Nat.add_comm i, ← Nat.add_assoc, ih h₂ (by omega), Nat.add_comm 1,
        List.getElem?_cons_succ]

theorem load16_congr {b b' : Bytes} {o : Nat} (h : ∀ k, o ≤ k → k < o + 2 → b'[k]? = b[k]?) :
    load16 b' o = load16 b o := by
  unfold load16
  rw [h o (by omega) (by omega), h (o + 1) (by omega) (by omega)]

theorem load32_congr {b b' : Bytes} {o : Nat} (h : ∀ k, o ≤ k → k < o + 4 → b'[k]? = b[k]?) :
    load32 b' o = load32 b o := by
  unfold load32
  rw [h o (by omega) (by omega), h (o + 1) (by omega) (by omega), h (o + 2) (by omega) (by omega),
    h (o + 3) (by omega) (by omega)]

theorem getD_congr {b b' : Bytes} {k : Nat} (h : b'[k]? = b[k]?) : b'.getD k 0 = b.getD k 0 := by
  rw [List.getD_eq_getElem?_getD, List.getD_eq_getElem?_getD, h]

theorem getD_of_load8 {b : Bytes} {k : Nat} {v : BitVec 8} (h : load8 b k = some v) :
    b.getD k 0 = v :=
  congrArg (Option.getD · 0) h

theorem be16_of_load16 {b : Bytes} {o : Nat} {v : BitVec 16} (h : load16 b o = some v) :
    be16 b o = swap16 v := by
  rw [load16_eq] at h
  split at h
  · cases h
    exact (swap16_swap16 _).symm
  · cases h

theorem be16_congr {b b' : Bytes} {o : Nat} (h : ∀ k, o ≤ k → k < o + 2 → b'[k]? = b[k]?) :
    be16 b' o = be16 b o := by
  rw [be16, be16, getD_congr (h o (by omega) (by omega)),
    getD_congr (h (o + 1) (by omega) (by omega))]

theorem getD_of_be16 {b b' : Bytes} {o : Nat} (h : be16 b' o = be16 b o) :
    b'.getD o 0 = b.getD o 0 ∧ b'.getD (o + 1) 0 = b.getD (o + 1) 0 := by
  have hhigh := congrArg (BitVec.extractLsb' 8 8) h
  have hlow := congrArg (BitVec.extractLsb' 0 8) h
  rw [be16, be16, BitVec.extractLsb'_append_eq_left, BitVec.extractLsb'_append_eq_left] at hhigh
  rw [be16, be16, BitVec.extractLsb'_append_eq_right, BitVec.extractLsb'_append_eq_right] at hlow
  exact ⟨hhigh, hlow⟩

theorem load32_eq_load16 (b : Bytes) (o : Nat) :
    load32 b o = do
      let lo ← load16 b o
      let hi ← load16 b (o + 2)
      return hi ++ lo := by
  unfold load32 load16
  cases b[o]? with
  | none => rfl
  | some b0 =>
    cases b[o + 1]? with
    | none => rfl
    | some b1 =>
      cases b[o + 2]? with
      | none => rfl
      | some b2 =>
        cases b[o + 3]? with
        | none => rfl
        | some b3 => exact congrArg some (append_pairs b3 b2 b1 b0)

theorem store32_spec {b b' : Bytes} {o : Nat} {v : BitVec 32} (h : store32 b o v = some b') :
    b'.length = b.length ∧ (∀ k, k < o ∨ o + 4 ≤ k → b'[k]? = b[k]?) ∧
      load32 b' o = some v := by
  obtain ⟨b₁, h₁, h₂⟩ := Option.bind_eq_some_iff.mp h
  obtain ⟨hlen₁, hframe₁, hload₁⟩ := store16_spec h₁
  obtain ⟨hlen₂, hframe₂, hload₂⟩ := store16_spec h₂
  refine ⟨hlen₂.trans hlen₁, fun k hk => ?_, ?_⟩
  · rw [hframe₂ k (by omega), hframe₁ k (by omega)]
  · have hlow : load16 b' o = some (v.extractLsb' 0 16) := by
      rw [load16_congr fun k _ hk => hframe₂ k (by omega)]
      exact hload₁
    rw [load32_eq_load16, hlow, hload₂]
    exact congrArg some (append_halves32 v)

theorem store32_isSome {b : Bytes} {o : Nat} (h : o + 4 ≤ b.length) (v : BitVec 32) :
    ∃ b', store32 b o v = some b' := by
  obtain ⟨b₁, h₁⟩ := store16_isSome (b := b) (o := o) (by omega) (v.extractLsb' 0 16)
  obtain ⟨b₂, h₂⟩ := store16_isSome (b := b₁) (o := o + 2) (by rw [(store16_spec h₁).1]; omega)
    (v.extractLsb' 16 16)
  refine ⟨b₂, ?_⟩
  unfold store32
  rw [h₁]
  exact h₂

end Buffer
end Osnt.Lib
