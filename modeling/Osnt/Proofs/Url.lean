import Osnt.Lib.PercentCode
import Osnt.Scone.Url

namespace Osnt.Scone.Url
open Lib Lib.Buffer Lib.CString
open PercentCode (digit value joined lone encodeByte encode decode)

theorem sprintfX_high : ∀ c : BitVec 8,
    sprintfX 2 ((c.signExtend 32).sshiftRight 4 &&& 0x0F) = some [digit (c >>> 4), 0] := by
  decide +kernel

theorem sprintfX_low : ∀ c : BitVec 8,
    sprintfX 2 (c.signExtend 32 &&& 0x0F) = some [digit (c &&& 15), 0] := by
  decide +kernel

theorem sscanfX_zero : ∀ c : BitVec 8, sscanfX c 0 = (value c).setWidth 32 := by
  decide +kernel

theorem sscanfX_pair (high low : BitVec 8) :
    (sscanfX high 0 <<< 4 ||| sscanfX low 0).setWidth 8 = joined high low := by
  rw [sscanfX_zero, sscanfX_zero]
  unfold joined
  ext i hi
  simp

theorem addInt_eq {a b : Nat} (h : a + b < 2 ^ 31) : addInt a b = some (a + b) := if_pos h

theorem addInt_eq_some {a b n : Nat} (h : addInt a b = some n) : n = a + b ∧ n < 2 ^ 31 := by
  unfold addInt at h
  split at h
  · rename_i hlt
    obtain rfl := Option.some.inj h
    exact ⟨rfl, hlt⟩
  · cases h

theorem asInt_le (n : Nat) : (asInt n).toNat ≤ n := by
  have hmod := Nat.mod_le n (2 ^ 32)
  unfold asInt
  rw [BitVec.toInt_eq_toNat_cond, BitVec.toNat_ofNat]
  split <;> omega

theorem asInt_eq {n : Nat} (h : n < 2 ^ 31) : (asInt n).toNat = n := by
  have hmod : n % 2 ^ 32 = n := Nat.mod_eq_of_lt (by omega)
  unfold asInt
  rw [BitVec.toInt_eq_toNat_cond, BitVec.toNat_ofNat, hmod, if_pos (by omega)]
  rfl

section
variable {out room : Bytes}

theorem encodeChar_eq (c : BitVec 8) (hroom : (encodeByte isAlnum c).length ≤ room.length)
    (hfits : (out ++ encodeByte isAlnum c).length < 2 ^ 31) :
    encodeChar (out ++ room) out.length c =
      some (out ++ encodeByte isAlnum c ++ room.drop (encodeByte isAlnum c).length,
        (out ++ encodeByte isAlnum c).length) := by
  unfold encodeChar
  unfold encodeByte at hroom hfits ⊢
  cases hc : isAlnum c with
  | true =>
    simp only [hc, if_true, List.length_append, List.length_singleton] at hroom hfits ⊢
    have hne : room ≠ [] := List.ne_nil_of_length_pos hroom
    rw [store8_append out c hne, List.drop_one]
    simp only [Option.bind_eq_bind, Option.bind_some, addInt_eq hfits]
    rfl
  | false =>
    simp only [hc, Bool.false_eq_true, if_false, List.length_append, List.length_cons,
      List.length_nil] at hroom hfits ⊢
    obtain ⟨x, y, z, room, rfl⟩ : ∃ x y z rest, room = x :: y :: z :: rest := by
      match room, hroom with
      | x :: y :: z :: rest, _ => exact ⟨x, y, z, rest, rfl⟩
    have h₁ := store8_append out 37 (List.cons_ne_nil x (y :: z :: room))
    have h₂ := store8_append (out ++ [(37 : BitVec 8)]) (digit (c >>> 4))
      (List.cons_ne_nil y (z :: room))
    have h₃ := store8_append (out ++ [(37 : BitVec 8)] ++ [digit (c >>> 4)]) (digit (c &&& 15))
      (List.cons_ne_nil z room)
    have hfirst : ∀ d : BitVec 8, load8 [d, 0] 0 = some d := fun _ => rfl
    simp only [List.length_append, List.length_singleton, List.tail_cons, Nat.add_assoc,
      Nat.reduceAdd] at h₁ h₂ h₃
    rw [h₁]
    simp only [Option.bind_eq_bind, Option.bind_some, sprintfX_high, sprintfX_low, hfirst, h₂, h₃,
      addInt_eq (show out.length + 1 < 2 ^ 31 by omega),
      addInt_eq (show out.length + 2 < 2 ^ 31 by omega), addInt_eq hfits]
    simp

theorem encodeChar_pos {ret ret' : Bytes} {pos pos' : Nat} {c : BitVec 8}
    (h : encodeChar ret pos c = some (ret', pos')) :
    pos' = pos + (encodeByte isAlnum c).length ∧ pos' < 2 ^ 31 := by
  unfold encodeChar at h
  unfold encodeByte
  split at h
  · rename_i hc
    simp only [Option.bind_eq_bind, Option.bind_eq_some_iff] at h
    obtain ⟨_, -, _, hpos, h⟩ := h
    cases h
    rw [if_pos hc]
    exact addInt_eq_some hpos
  · rename_i hc
    simp only [Option.bind_eq_bind, Option.bind_eq_some_iff] at h
    obtain ⟨_, -, _, -, _, -, _, -, _, -, _, -, _, -, _, -, _, -, _, hpos, h⟩ := h
    cases h
    rw [if_neg hc]
    exact addInt_eq_some hpos

theorem encodeLoop_eq {done s tail : Bytes} (hroom : (encode isAlnum s).length ≤ room.length)
    (hfits : (out ++ encode isAlnum s).length < 2 ^ 31) :
    encodeLoop (done ++ (s ++ tail)) s.length done.length (out ++ room) out.length =
      some (out ++ encode isAlnum s ++ room.drop (encode isAlnum s).length,
        (out ++ encode isAlnum s).length) := by
  induction s generalizing done out room with
  | nil =>
    rw [show encode isAlnum [] = [] from rfl, List.append_nil]
    rfl
  | cons c s ih =>
    rw [PercentCode.encode_cons, List.length_append] at hroom
    have hlen : (out ++ encodeByte isAlnum c ++ encode isAlnum s).length < 2 ^ 31 := by
      rwa [PercentCode.encode_cons, ← List.append_assoc] at hfits
    have hchar := @encodeChar_eq out room c (by omega) (by
      rw [List.length_append] at hlen
      omega)
    have hrest := @ih (out ++ encodeByte isAlnum c) (room.drop (encodeByte isAlnum c).length)
      (done ++ [c]) (by rw [List.length_drop]; omega) hlen
    rw [List.append_assoc done, List.singleton_append, List.length_append,
      List.length_singleton, List.drop_drop, ← List.length_append] at hrest
    rw [List.length_cons, encodeLoop, List.cons_append, load8_append]
    simp only [Option.bind_eq_bind, Option.bind_some, hchar, hrest]
    rw [PercentCode.encode_cons, List.append_assoc out]

theorem encodeLoop_pos {done s tail ret ret' : Bytes} {pos pos' : Nat} (hpos : pos < 2 ^ 31)
    (h : encodeLoop (done ++ (s ++ tail)) s.length done.length ret pos = some (ret', pos')) :
    pos' = pos + (encode isAlnum s).length ∧ pos' < 2 ^ 31 := by
  induction s generalizing done ret pos with
  | nil =>
    obtain ⟨-, rfl⟩ := Prod.mk.inj (Option.some.inj h)
    exact ⟨rfl, hpos⟩
  | cons c s ih =>
    rw [List.length_cons, encodeLoop, List.cons_append, load8_append, Option.bind_eq_bind,
      Option.bind_some] at h
    obtain ⟨⟨ret₁, pos₁⟩, hchar, h⟩ := Option.bind_eq_some_iff.mp h
    obtain ⟨rfl, hlt⟩ := encodeChar_pos hchar
    have hrest := @ih (done ++ [c]) ret₁ _ hlt (by
      rw [List.append_assoc done, List.singleton_append, List.length_append]
      exact h)
    rw [PercentCode.encode_cons, List.length_append]
    omega

theorem decodeLoop_escape {done rest : Bytes} {len : Nat} (high low : BitVec 8)
    (hlen : done.length + 2 < len) (hint : len < 2 ^ 31) (hroom : room ≠ [])
    (hout : out.length ≤ done.length) :
    decodeLoop (done ++ 37 :: high :: low :: rest) len done.length (out ++ room) out.length =
      decodeLoop (done ++ [37, high, low] ++ rest) len (done ++ [37, high, low]).length
        (out ++ [joined high low] ++ room.tail) (out ++ [joined high low]).length := by
  have hhigh : load8 (done ++ 37 :: high :: low :: rest) (done.length + 1) = some high := by
    simp [load8]
  have hlow : load8 (done ++ 37 :: high :: low :: rest) (done.length + 2) = some low := by
    simp [load8]
  rw [decodeLoop, if_pos (by omega), load8_append]
  simp only [Option.bind_eq_bind, Option.bind_some, if_true,
    addInt_eq (show done.length + 2 < 2 ^ 31 by omega), Option.map_some, decide_eq_true hlen, hhigh,
    hlow, sscanfX_pair, store8_append out _ hroom,
    addInt_eq (show out.length + 1 < 2 ^ 31 by omega)]
  simp

theorem decodeLoop_lone {done rest : Bytes} {len : Nat} (c : BitVec 8)
    (hlen : done.length < len) (hint : len < 2 ^ 31)
    (hlone : c = 37 → len ≤ done.length + 2 ∧ done.length + 2 < 2 ^ 31) (hroom : room ≠ [])
    (hout : out.length ≤ done.length) :
    decodeLoop (done ++ c :: rest) len done.length (out ++ room) out.length =
      decodeLoop (done ++ [c] ++ rest) len (done ++ [c]).length
        (out ++ [lone c] ++ room.tail) (out ++ [lone c]).length := by
  have hstore := store8_append out (if c = 43 then 32 else c) hroom
  have hpos := addInt_eq (show out.length + 1 < 2 ^ 31 by omega)
  rw [decodeLoop, if_pos hlen, load8_append]
  by_cases hc : c = 37
  · obtain ⟨hend, hfits⟩ := hlone hc
    simp only [Option.bind_eq_bind, Option.bind_some, if_pos hc, addInt_eq hfits, Option.map_some,
      decide_eq_false (Nat.not_lt.mpr hend), Bool.false_eq_true, if_false, hstore, hpos]
    simp [lone]
  · simp only [Option.bind_eq_bind, Option.bind_some, if_neg hc, Bool.false_eq_true, if_false,
      hstore, hpos]
    simp [lone]

end

/-- What the loop writes for `t`, wherever it stands. Only a `%` at the very end of a string of the
greatest length would overflow. -/
def Decodes (t : Bytes) : Prop :=
  ∀ done tail out room : Bytes, (done ++ t).length < 2 ^ 31 →
    (∀ before, t = before ++ [37] → (done ++ t).length + 1 < 2 ^ 31) →
    t.length ≤ room.length → out.length ≤ done.length →
    decodeLoop (done ++ (t ++ tail)) (done ++ t).length done.length (out ++ room) out.length =
      some (out ++ decode t ++ room.drop (decode t).length, (out ++ decode t).length)

theorem Decodes.escape {high low : BitVec 8} {t : Bytes} (h : Decodes t) :
    Decodes (37 :: high :: low :: t) := by
  intro done tail out room hint hlast hroom hout
  have hsame : done ++ [37, high, low] ++ t = done ++ 37 :: high :: low :: t := by simp
  have hlen : (done ++ 37 :: high :: low :: t).length = done.length + 3 + t.length := by
    simp
    omega
  have hroom : 3 + t.length ≤ room.length := by
    simp only [List.length_cons] at hroom
    omega
  have hne : room ≠ [] := List.ne_nil_of_length_pos (by omega)
  have hrest := h (done ++ [37, high, low]) tail (out ++ [joined high low]) room.tail
    (by rwa [hsame]) (fun before hbefore => by
      rw [hsame]
      exact hlast (37 :: high :: low :: before) (by rw [hbefore]; rfl))
    (by rw [List.length_tail]; omega) (by simp; omega)
  rw [hsame] at hrest
  rw [List.cons_append, List.cons_append, List.cons_append,
    decodeLoop_escape high low (by omega) hint hne hout, hrest, decode, if_pos rfl]
  simp

theorem Decodes.lone {c : BitVec 8} {t : Bytes} (h : Decodes t) (hshort : c = 37 → t.length < 2)
    (hdecode : decode (c :: t) = lone c :: decode t) : Decodes (c :: t) := by
  intro done tail out room hint hlast hroom hout
  have hsame : done ++ [c] ++ t = done ++ c :: t := by simp
  have hlen : (done ++ c :: t).length = done.length + 1 + t.length := by
    simp
    omega
  rw [List.length_cons] at hroom
  have hne : room ≠ [] := List.ne_nil_of_length_pos (by omega)
  have hlone : c = 37 →
      (done ++ c :: t).length ≤ done.length + 2 ∧ done.length + 2 < 2 ^ 31 := by
    intro hc
    have htwo := hshort hc
    refine ⟨by omega, ?_⟩
    -- Two bytes from the `%` on reach the end; with one, it is the last.
    cases t with
    | nil =>
      have := hlast [] (by rw [hc]; rfl)
      omega
    | cons d t =>
      rw [List.length_cons] at hlen
      omega
  have hrest := h (done ++ [c]) tail (out ++ [PercentCode.lone c]) room.tail (by rwa [hsame])
    (fun before hbefore => by
      rw [hsame]
      exact hlast (c :: before) (by rw [hbefore]; rfl))
    (by rw [List.length_tail]; omega) (by simp; omega)
  rw [hsame] at hrest
  rw [List.cons_append, decodeLoop_lone c (by omega) hint hlone hne hout, hrest, hdecode]
  simp

theorem decodes (t : Bytes) : Decodes t := by
  induction t using PercentCode.decode.induct with
  | case1 =>
    intro done tail out room _ _ _ _
    rw [decodeLoop, if_neg (by simp)]
    simp [decode]
  | case2 high low t ih => exact ih.escape
  | case3 c high low t hc ih =>
    exact ih.lone (fun h => absurd h hc) (PercentCode.decode_lone hc _)
  | case4 c t hshort ih =>
    have hlen : t.length < 2 := by
      rcases t with _ | ⟨high, _ | ⟨low, t⟩⟩
      · exact Nat.zero_lt_two
      · exact Nat.one_lt_two
      · exact absurd rfl (hshort high low t)
    refine ih.lone (fun _ => hlen) ?_
    rw [decode]
    exact hshort

/-- What `urlencode` gets to see: a length that does not fit in an `int` is taken for another. -/
def seen (s : Bytes) : Bytes := s.take (asInt s.length).toNat

theorem length_seen (s : Bytes) : (seen s).length = (asInt s.length).toNat := by
  unfold seen
  rw [List.length_take, Nat.min_eq_left (asInt_le _)]

theorem seen_eq {s : Bytes} (h : s.length < 2 ^ 31) : seen s = s := by
  unfold seen
  rw [asInt_eq h, List.take_length]

theorem seen_append (s behind : Bytes) :
    seen s ++ (s.drop (asInt s.length).toNat ++ 0 :: behind) = s ++ 0 :: behind := by
  unfold seen
  rw [← List.append_assoc, List.take_append_drop]

/-- How many bytes the encoded string has. -/
def encodedLength (s : Bytes) : Nat := s.length + 2 * s.countP fun c => !isAlnum c

theorem length_encode (s : Bytes) : (encode isAlnum s).length = encodedLength s :=
  PercentCode.length_encode s

theorem encodedLength_le (s : Bytes) : encodedLength s ≤ 3 * s.length := by
  have hcount := List.countP_le_length (p := fun c => !isAlnum c) (l := s)
  unfold encodedLength
  omega

section
variable (malloc : Malloc) {s : Bytes} (hs : 0 ∉ s) (behind : Bytes)
include hs

theorem urlencode_eq (hfits : encodedLength (seen s) < 2 ^ 31) :
    ∃ rest, urlencode malloc (s ++ 0 :: behind) =
      some (encode isAlnum (seen s) ++ 0 :: rest) := by
  have hle := encodedLength_le (seen s)
  have hread := asInt_le s.length
  rw [length_seen] at hle
  have hsize : (malloc (3 * s.length + 1)).toList.length = 3 * s.length + 1 :=
    Vector.length_toList
  have hloop := @encodeLoop_eq [] (malloc (3 * s.length + 1)).toList [] (seen s)
    (s.drop (asInt s.length).toNat ++ 0 :: behind) (by rw [length_encode]; omega)
    (by rwa [List.nil_append, length_encode])
  rw [seen_append, length_seen] at hloop
  have hroom : (malloc (3 * s.length + 1)).toList.drop (encode isAlnum (seen s)).length ≠ [] := by
    apply List.ne_nil_of_length_pos
    rw [List.length_drop, length_encode]
    omega
  refine ⟨((malloc (3 * s.length + 1)).toList.drop (encode isAlnum (seen s)).length).tail, ?_⟩
  unfold urlencode
  rw [strlen_append hs]
  simp only [Option.bind_eq_bind, Option.bind_some]
  simp only [List.nil_append, List.length_nil] at hloop
  rw [hloop]
  simp only [Option.bind_some]
  rw [store8_append _ _ hroom, List.append_assoc]
  rfl

theorem urlencode_fits {ret : Bytes} (h : urlencode malloc (s ++ 0 :: behind) = some ret) :
    encodedLength (seen s) < 2 ^ 31 := by
  unfold urlencode at h
  rw [strlen_append hs, Option.bind_eq_bind, Option.bind_some] at h
  obtain ⟨⟨ret₁, pos⟩, hloop, -⟩ := Option.bind_eq_some_iff.mp h
  rw [← seen_append, ← length_seen] at hloop
  obtain ⟨hpos, hlt⟩ := @encodeLoop_pos [] (seen s) _ _ _ _ _ (by decide) hloop
  rw [length_encode] at hpos
  omega

theorem urldecode_eq (hint : s.length < 2 ^ 31)
    (hlast : ∀ before, s = before ++ [37] → s.length + 1 < 2 ^ 31) :
    ∃ rest, urldecode malloc (s ++ 0 :: behind) = some (decode s ++ 0 :: rest) := by
  have hloop := decodes s [] (0 :: behind) [] (malloc (s.length + 1)).toList hint hlast (by simp)
    (Nat.le_refl 0)
  have hle := PercentCode.length_decode_le s
  have hroom : (malloc (s.length + 1)).toList.drop (decode s).length ≠ [] := by
    apply List.ne_nil_of_length_pos
    rw [List.length_drop, Vector.length_toList]
    omega
  refine ⟨((malloc (s.length + 1)).toList.drop (decode s).length).tail, ?_⟩
  unfold urldecode
  rw [strlen_append hs]
  simp only [Option.bind_eq_bind, Option.bind_some, asInt_eq hint]
  simp only [List.nil_append, List.length_nil] at hloop
  rw [hloop]
  simp only [Option.bind_some]
  rw [store8_append _ _ hroom, List.append_assoc]
  rfl

end

theorem round_trip_seen (malloc malloc' : Malloc) {s : Bytes} (hs : 0 ∉ s) (behind : Bytes)
    (hfits : encodedLength (seen s) < 2 ^ 31) :
    ∃ encoded decoded, urlencode malloc (s ++ 0 :: behind) = some encoded ∧
      urldecode malloc' encoded = some decoded ∧ text decoded = seen s := by
  have hseen : 0 ∉ seen s := fun h => hs (List.mem_of_mem_take h)
  obtain ⟨rest, hencode⟩ := urlencode_eq malloc hs behind hfits
  obtain ⟨rest', hdecode⟩ := urldecode_eq malloc' (PercentCode.zero_notMem_encode hseen) rest
    (by rwa [length_encode]) fun before hends =>
      absurd hends (PercentCode.encode_ne_concat rfl (seen s) before)
  rw [PercentCode.decode_encode rfl rfl] at hdecode
  exact ⟨_, _, hencode, hdecode, text_append hseen rest'⟩

/-- For every string: the round trip gives it back, and both functions stay within what they have
allocated, if and only if the length of the encoded string fits in an `int`. -/
theorem url_round_trip_iff (malloc malloc' : Malloc) {s : Bytes} (hs : 0 ∉ s) (behind : Bytes) :
    ((∃ encoded decoded, urlencode malloc (s ++ 0 :: behind) = some encoded ∧
          urldecode malloc' encoded = some decoded ∧ text decoded = s) ∧
        ∃ decoded, urldecode malloc' (s ++ 0 :: behind) = some decoded) ↔
      encodedLength s < 2 ^ 31 := by
  constructor
  · rintro ⟨⟨encoded, decoded, hencode, hdecode, hback⟩, -⟩
    have hfits := urlencode_fits malloc hs behind hencode
    obtain ⟨encoded', decoded', hencode', hdecode', hseen⟩ :=
      round_trip_seen malloc malloc' hs behind hfits
    obtain rfl := Option.some.inj (hencode.symm.trans hencode')
    obtain rfl := Option.some.inj (hdecode.symm.trans hdecode')
    rwa [← hseen, hback] at hfits
  · intro hfits
    have hcount : s.length ≤ encodedLength s := Nat.le_add_right _ _
    have hlen : s.length < 2 ^ 31 := Nat.lt_of_le_of_lt hcount hfits
    have hround := round_trip_seen malloc malloc' hs behind
    rw [seen_eq hlen] at hround
    -- A `%` counts three bytes when it is encoded.
    have hlast : ∀ before, s = before ++ [37] → s.length + 1 < 2 ^ 31 := by
      rintro before rfl
      have hone : 1 ≤ (before ++ [37]).countP fun c => !isAlnum c := by
        rw [List.countP_append]
        exact Nat.le_add_left 1 _
      unfold encodedLength at hfits
      omega
    obtain ⟨rest, hdecode⟩ := urldecode_eq malloc' hs behind hlen hlast
    exact ⟨hround hfits, _, hdecode⟩

/-- Memory that has been cleared. -/
def zeroed : Malloc := fun size => Vector.replicate size 0

/-- `a%+` and a byte above 127. -/
theorem url_round_trip_iff_mixed :
    (∃ encoded decoded, urlencode zeroed [97, 37, 43, 200, 0] = some encoded ∧
        urldecode zeroed encoded = some decoded ∧ text decoded = [97, 37, 43, 200]) ∧
      ∃ decoded, urldecode zeroed [97, 37, 43, 200, 0] = some decoded :=
  (@url_round_trip_iff zeroed zeroed [97, 37, 43, 200] (by decide) []).mpr (by decide)

theorem seen_replicate (c : BitVec 8) : seen (List.replicate (2 ^ 31) c) = [] := by
  have hnegative : (asInt (2 ^ 31)).toNat = 0 := by decide +kernel
  unfold seen
  rw [List.length_replicate, hnegative, List.take_zero]

/-- The length of 2 GiB of `a` is negative as an `int`: nothing is encoded, and the empty string
comes back. -/
theorem long_string_lost :
    0 ∉ List.replicate (2 ^ 31) (97 : BitVec 8) ∧
      ∃ encoded decoded, urlencode zeroed (List.replicate (2 ^ 31) 97 ++ [0]) = some encoded ∧
        urldecode zeroed encoded = some decoded ∧ text decoded = [] ∧
        text decoded ≠ List.replicate (2 ^ 31) 97 := by
  have hs : 0 ∉ List.replicate (2 ^ 31) (97 : BitVec 8) := by
    intro hmem
    exact absurd (List.eq_of_mem_replicate hmem) (by decide)
  have hround := round_trip_seen zeroed zeroed hs []
  rw [seen_replicate] at hround
  obtain ⟨encoded, decoded, hencode, hdecode, hempty⟩ := hround (by decide)
  refine ⟨hs, encoded, decoded, hencode, hdecode, hempty, ?_⟩
  rw [hempty]
  intro hsame
  have hlength := congrArg List.length hsame
  rw [List.length_replicate] at hlength
  cases hlength

end Osnt.Scone.Url
