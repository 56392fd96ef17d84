import Osnt.Lib.Buffer
import Osnt.Lib.OnesComplement

/-! The halfwords that an Internet checksum adds up. -/
namespace Osnt.Lib.Buffer

/-- The halfwords in network order; a last byte that stands alone is the high one of its own. -/
def halfwords (b : Bytes) : List Nat :=
  (List.range ((b.length + 1) / 2)).map fun i => (be16 b (2 * i)).toNat

theorem halfwords_lt (b : Bytes) : ∀ x ∈ halfwords b, x < 2 ^ 16 := by
  intro x hx
  obtain ⟨i, -, rfl⟩ := List.mem_map.mp hx
  exact BitVec.isLt _

theorem sum_map_range_change {f g : Nat → Nat} {n i : Nat} (hi : i < n)
    (h : ∀ j < n, j ≠ i → g j = f j) :
    ((List.range n).map g).sum + f i = ((List.range n).map f).sum + g i := by
  induction n with
  | zero => exact absurd hi (Nat.not_lt_zero i)
  | succ n ih =>
    simp only [List.range_succ, List.map_append, List.sum_append, List.map_cons, List.map_nil,
      List.sum_cons, List.sum_nil]
    rcases Nat.lt_or_ge i n with hlt | hge
    · have hsum := ih hlt fun j hj => h j (by omega)
      have hlast := h n (by omega) (by omega)
      omega
    · obtain rfl : i = n := by omega
      have hfirst : ((List.range i).map g) = (List.range i).map f := by
        refine List.map_congr_left fun j hj => ?_
        have hj := List.mem_range.mp hj
        exact h j (by omega) (by omega)
      rw [hfirst]
      omega

section
variable {b b' : Bytes} {o n p : Nat}

/-- A halfword of a part of a buffer counts once in the sum of the part. -/
theorem sum_part_change (hlen : b'.length = b.length) (hin : p + 2 ≤ b.length) (hle : o ≤ p)
    (heven : (p - o) % 2 = 0) (hpart : p + 2 ≤ o + n)
    (h : ∀ k, o ≤ k → k < o + n → k < p ∨ p + 2 ≤ k → b'[k]? = b[k]?) :
    (halfwords ((b'.drop o).take n)).sum + (be16 b p).toNat =
      (halfwords ((b.drop o).take n)).sum + (be16 b' p).toNat := by
  obtain ⟨i, rfl⟩ : ∃ i, p = o + 2 * i := ⟨(p - o) / 2, by omega⟩
  have hlength : ((b'.drop o).take n).length = ((b.drop o).take n).length := by
    simp only [List.length_take, List.length_drop, hlen]
  have hlt : i < (((b.drop o).take n).length + 1) / 2 := by
    rw [List.length_take, List.length_drop]
    omega
  rw [← be16_slice b (show 2 * i + 2 ≤ n by omega), ← be16_slice b' (show 2 * i + 2 ≤ n by omega),
    halfwords, halfwords, hlength]
  have hsame : ∀ j, j ≠ i →
      be16 ((b'.drop o).take n) (2 * j) = be16 ((b.drop o).take n) (2 * j) := by
    intro j hne
    apply be16_congr
    intro k hk hk'
    rw [List.getElem?_take, List.getElem?_take]
    split
    · rw [List.getElem?_drop, List.getElem?_drop]
      exact h (o + k) (by omega) (by omega) (by omega)
    · rfl
  exact @sum_map_range_change (fun i => (be16 ((b.drop o).take n) (2 * i)).toNat)
    (fun i => (be16 ((b'.drop o).take n) (2 * i)).toNat) _ i hlt
    fun j _ hne => congrArg BitVec.toNat (hsame j hne)

end

theorem getD_eq_zero_of_sum {b : Bytes} (h : (halfwords b).sum = 0) (k : Nat) : b.getD k 0 = 0 := by
  rcases Nat.lt_or_ge k b.length with hk | hk
  · have hmem : (be16 b (2 * (k / 2))).toNat ∈ halfwords b :=
      List.mem_map.mpr ⟨k / 2, List.mem_range.mpr (by omega), rfl⟩
    have hzero := List.sum_eq_zero_iff_forall_eq_nat.mp h _ hmem
    have hword : be16 b (2 * (k / 2)) = be16 [] (2 * (k / 2)) := by
      rw [be16, be16, List.getD_nil, List.getD_nil]
      exact BitVec.eq_of_toNat_eq hzero
    have hbytes := getD_of_be16 hword
    rw [List.getD_nil, List.getD_nil] at hbytes
    rcases Nat.mod_two_eq_zero_or_one k with hmod | hmod
    · have hk' : 2 * (k / 2) = k := by omega
      rw [hk'] at hbytes
      exact hbytes.1
    · have hk' : 2 * (k / 2) + 1 = k := by omega
      rw [hk'] at hbytes
      exact hbytes.2
  · exact List.getD_eq_default _ _ hk

/-- The sum of the `m` halfwords from `o` on. -/
def wordSum (b : Bytes) (o m : Nat) : Nat :=
  ((List.range m).map fun i => (be16 b (o + 2 * i)).toNat).sum

/-- What a halfword at `p` counts in it. -/
def within (o m p x : Nat) : Nat := if p + 2 ≤ o + 2 * m then x else 0

section
variable {b b' : Bytes} {o m p : Nat}

theorem wordSum_congr (h : ∀ k, o ≤ k → b'[k]? = b[k]?) : wordSum b' o m = wordSum b o m := by
  unfold wordSum
  refine congrArg List.sum (List.map_congr_left fun i _ => congrArg BitVec.toNat ?_)
  exact be16_congr fun k hk _ => h k (by omega)

/-- One halfword is changed, in what is added up or behind it. -/
theorem wordSum_change (hle : o ≤ p) (heven : (p - o) % 2 = 0)
    (h : ∀ k, o ≤ k → k < p ∨ p + 2 ≤ k → b'[k]? = b[k]?) :
    wordSum b' o m + within o m p (be16 b p).toNat =
      wordSum b o m + within o m p (be16 b' p).toNat := by
  obtain ⟨i, rfl⟩ : ∃ i, p = o + 2 * i := ⟨(p - o) / 2, by omega⟩
  have hsame : ∀ j, j ≠ i → (be16 b' (o + 2 * j)).toNat = (be16 b (o + 2 * j)).toNat := by
    intro j hne
    apply congrArg BitVec.toNat
    apply be16_congr
    intro k hk hk'
    exact h k (by omega) (by omega)
  unfold within
  split
  · exact @sum_map_range_change (fun i => (be16 b (o + 2 * i)).toNat)
      (fun i => (be16 b' (o + 2 * i)).toNat) m i (by omega) fun j _ hne => hsame j hne
  · apply congrArg (· + 0)
    apply congrArg List.sum
    refine List.map_congr_left fun j hj => hsame j ?_
    have := List.mem_range.mp hj
    omega

theorem wordSum_ne_zero {k : Nat} (hle : o ≤ k) (hlt : k < o + 2 * m) (h : b.getD k 0 ≠ 0) :
    wordSum b o m ≠ 0 := by
  intro hzero
  have hmem : (be16 b (o + 2 * ((k - o) / 2))).toNat ∈
      (List.range m).map fun i => (be16 b (o + 2 * i)).toNat :=
    List.mem_map.mpr ⟨(k - o) / 2, List.mem_range.mpr (by omega), rfl⟩
  have hword := List.sum_eq_zero_iff_forall_eq_nat.mp hzero _ hmem
  have hnil : be16 b (o + 2 * ((k - o) / 2)) = be16 [] (o + 2 * ((k - o) / 2)) := by
    rw [be16, be16, List.getD_nil, List.getD_nil]
    exact BitVec.eq_of_toNat_eq hword
  obtain ⟨hlow, hhigh⟩ := getD_of_be16 hnil
  rw [List.getD_nil] at hlow hhigh
  rcases Nat.mod_two_eq_zero_or_one (k - o) with hmod | hmod
  · rw [show o + 2 * ((k - o) / 2) = k by omega] at hlow
    exact h hlow
  · rw [show o + 2 * ((k - o) / 2) + 1 = k by omega] at hhigh
    exact h hhigh

end

theorem toNat_swap16 (v : BitVec 16) :
    (swap16 v).toNat = v.toNat % 256 * 256 + v.toNat / 256 := by
  have hlt := v.isLt
  rw [swap16, BitVec.toNat_append, BitVec.extractLsb'_toNat, BitVec.extractLsb'_toNat,
    ← Nat.shiftLeft_add_eq_or_of_lt (Nat.mod_lt _ (by decide))]
  simp only [Nat.shiftLeft_eq, Nat.shiftRight_eq_div_pow]
  omega

/-- In one's complement arithmetic the other byte order is a factor of 256. -/
theorem swap16_mod (v : BitVec 16) : (swap16 v).toNat % 65535 = 256 * v.toNat % 65535 := by
  have := toNat_swap16 v
  omega

end Osnt.Lib.Buffer
