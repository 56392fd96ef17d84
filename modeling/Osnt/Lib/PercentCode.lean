import Osnt.Lib.Buffer

/-! Percent code: a byte that is not kept becomes `%` and two hexadecimal digits. The decoder also
reads `+` as a space, and leaves a `%` alone that has no two bytes behind it. -/
namespace Osnt.Lib.PercentCode

/-- A hexadecimal digit in upper case. -/
def digit (v : BitVec 8) : BitVec 8 := if v < 10 then 48 + v else 55 + v

/-- What a digit stands for, in either case; other bytes count as zero. -/
def value (c : BitVec 8) : BitVec 8 :=
  if 48 ≤ c ∧ c ≤ 57 then c - 48
  else if 65 ≤ c ∧ c ≤ 70 then c - 55
  else if 97 ≤ c ∧ c ≤ 102 then c - 87
  else 0

section
variable (keep : BitVec 8 → Bool)

def encodeByte (c : BitVec 8) : Bytes :=
  if keep c then [c] else [37, digit (c >>> 4), digit (c &&& 15)]

def encode (s : Bytes) : Bytes := s.flatMap (encodeByte keep)

end

def joined (high low : BitVec 8) : BitVec 8 := value high <<< 4 ||| value low

/-- A byte that is not part of an escape. -/
def lone (c : BitVec 8) : BitVec 8 := if c = 43 then 32 else c

def decode : Bytes → Bytes
  | [] => []
  | c :: high :: low :: rest =>
    if c = 37 then joined high low :: decode rest else lone c :: decode (high :: low :: rest)
  | c :: rest => lone c :: decode rest

theorem joined_digits : ∀ c : BitVec 8, joined (digit (c >>> 4)) (digit (c &&& 15)) = c := by
  decide +kernel

theorem digits_ne : ∀ c : BitVec 8,
    (digit (c >>> 4) ≠ 0 ∧ digit (c &&& 15) ≠ 0) ∧ digit (c &&& 15) ≠ 37 := by
  decide +kernel

theorem decode_lone {c : BitVec 8} (hc : c ≠ 37) (rest : Bytes) :
    decode (c :: rest) = lone c :: decode rest := by
  cases rest with
  | nil => rfl
  | cons high rest =>
    cases rest with
    | nil => rfl
    | cons low rest => rw [decode, if_neg hc]

theorem length_decode_le (s : Bytes) : (decode s).length ≤ s.length := by
  induction s using decode.induct with
  | case1 => exact Nat.le_refl 0
  | case2 high low rest ih =>
    rw [decode, if_pos rfl]
    simp only [List.length_cons]
    omega
  | case3 c high low rest hc ih =>
    rw [decode, if_neg hc]
    simp only [List.length_cons] at ih ⊢
    omega
  | case4 c rest hshort ih =>
    rw [decode]
    · simp only [List.length_cons]
      omega
    · exact hshort

section
variable {keep : BitVec 8 → Bool}

theorem decode_encodeByte (hpercent : keep 37 = false) (hplus : keep 43 = false) (c : BitVec 8)
    (rest : Bytes) : decode (encodeByte keep c ++ rest) = c :: decode rest := by
  unfold encodeByte
  cases hc : keep c with
  | false =>
    change decode (37 :: digit (c >>> 4) :: digit (c &&& 15) :: rest) = c :: decode rest
    rw [decode, if_pos rfl, joined_digits]
  | true =>
    have hne : c ≠ 37 := by
      rintro rfl
      rw [hpercent] at hc
      cases hc
    have hne' : c ≠ 43 := by
      rintro rfl
      rw [hplus] at hc
      cases hc
    change decode (c :: rest) = c :: decode rest
    rw [decode_lone hne, lone, if_neg hne']

theorem mem_encodeByte {c : BitVec 8} (h : 0 ∈ encodeByte keep c) : c = 0 := by
  obtain ⟨⟨hhigh, hlow⟩, -⟩ := digits_ne c
  unfold encodeByte at h
  split at h
  · exact (List.mem_singleton.mp h).symm
  · rcases List.mem_cons.mp h with h | h
    · cases h
    rcases List.mem_cons.mp h with h | h
    · exact absurd h.symm hhigh
    · exact absurd (List.mem_singleton.mp h).symm hlow

theorem getLast?_encodeByte (hpercent : keep 37 = false) (c : BitVec 8) :
    ∃ last, (encodeByte keep c).getLast? = some last ∧ last ≠ 37 := by
  unfold encodeByte
  split
  · rename_i hc
    refine ⟨c, rfl, ?_⟩
    rintro rfl
    rw [hpercent] at hc
    cases hc
  · exact ⟨_, rfl, (digits_ne c).2⟩

theorem length_encodeByte (c : BitVec 8) :
    (encodeByte keep c).length = if keep c then 1 else 3 := by
  unfold encodeByte
  split <;> rfl

@[simp] theorem encode_cons (c : BitVec 8) (s : Bytes) :
    encode keep (c :: s) = encodeByte keep c ++ encode keep s := rfl

/-- Decoding undoes encoding, if `%` and `+` are not kept. -/
theorem decode_encode (hpercent : keep 37 = false) (hplus : keep 43 = false) (s : Bytes) :
    decode (encode keep s) = s := by
  induction s with
  | nil => rfl
  | cons c s ih => rw [encode_cons, decode_encodeByte hpercent hplus, ih]

theorem zero_notMem_encode {s : Bytes} (h : 0 ∉ s) : 0 ∉ encode keep s := by
  intro hmem
  obtain ⟨c, hc, hzero⟩ := List.mem_flatMap.mp hmem
  obtain rfl := mem_encodeByte hzero
  exact h hc

theorem length_encode (s : Bytes) :
    (encode keep s).length = s.length + 2 * s.countP fun c => !keep c := by
  induction s with
  | nil => rfl
  | cons c s ih =>
    rw [encode_cons, List.length_append, length_encodeByte, ih, List.countP_cons, List.length_cons]
    cases keep c with
    | true =>
      simp only [if_true, Bool.not_true, Bool.false_eq_true, if_false]
      omega
    | false =>
      simp only [Bool.false_eq_true, if_false, Bool.not_false, if_true]
      omega

theorem encode_ne_concat (hpercent : keep 37 = false) (s before : Bytes) :
    encode keep s ≠ before ++ [37] := by
  intro h
  rcases List.eq_nil_or_concat s with rfl | ⟨front, c, rfl⟩
  · exact absurd h.symm (by simp [encode])
  · obtain ⟨last, hlast, hne⟩ := getLast?_encodeByte hpercent c
    have hends := congrArg List.getLast? h
    unfold encode at hends
    rw [List.concat_eq_append, List.flatMap_append, List.flatMap_singleton, List.getLast?_append,
      List.getLast?_concat, hlast, Option.some_or] at hends
    exact hne (Option.some.inj hends)

end

end Osnt.Lib.PercentCode
