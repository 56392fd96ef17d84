import Osnt.Scone.Pwospf

namespace Osnt.Scone.Pwospf
open Lib Lib.Buffer

/-- What the checksum loop adds up: all halfwords but the checksum and the authentication. -/
def summed (b : Bytes) (pwospf : Nat) : Nat → Nat
  | 0 => 0
  | n + 1 => summed b pwospf n +
      if n = 6 ∨ (8 ≤ n ∧ n ≤ 11) then 0 else (be16 b (pwospf + 2 * n)).toNat

/-- How far the loop over `n` halfwords reads. -/
def span (n : Nat) : Nat := if 8 < n ∧ n ≤ 12 then 16 else 2 * n

/-- The length that a PWOSPF header claims. -/
def claimedLen (b : Bytes) (pwospf : Nat) : Nat := (be16 b (pwospf + 2)).toNat

def rightSum (b : Bytes) (pwospf : Nat) : BitVec 16 :=
  complementSum (summed b pwospf (claimedLen b pwospf / 2))

/-- The checksum field holds the checksum. -/
def ChecksumGood (b : Bytes) (pwospf : Nat) : Prop := be16 b (pwospf + 12) = rightSum b pwospf

instance (b : Bytes) (pwospf : Nat) : Decidable (ChecksumGood b pwospf) :=
  inferInstanceAs (Decidable (_ = _))

theorem add_complementSum_mod {sum : Nat} (h : sum < 65535 * 65536) :
    (sum + (complementSum sum).toNat) % 65535 = 0 := by
  have hcomplement : (complementSum sum).toNat =
      65535 - (sum / 65536 + sum % 65536 + (sum / 65536 + sum % 65536) / 65536) % 65536 := by
    simp [complementSum]
  rcases Nat.lt_or_ge (sum / 65536 + sum % 65536) 65536 with hcarry | hcarry
  · have htotal : sum + (complementSum sum).toNat = 65535 * (sum / 65536 + 1) := by
      rw [hcomplement, Nat.div_eq_of_lt hcarry, Nat.add_zero, Nat.mod_eq_of_lt hcarry]
      omega
    rw [htotal, Nat.mul_mod_right]
  · have htotal : sum + (complementSum sum).toNat = 65535 * (sum / 65536 + 2) := by
      have hone : (sum / 65536 + sum % 65536) / 65536 = 1 := by omega
      rw [hcomplement, hone]
      omega
    rw [htotal, Nat.mul_mod_right]

/-- Only a sum that is a multiple of 0xFFFF, and not zero, has the complement zero. -/
theorem complementSum_eq_zero_iff {sum : Nat} (h : sum < 65535 * 65536) :
    (complementSum sum).toNat = 0 ↔ sum % 65535 = 0 ∧ sum ≠ 0 := by
  have hcomplement : (complementSum sum).toNat =
      65535 - (sum / 65536 + sum % 65536 + (sum / 65536 + sum % 65536) / 65536) % 65536 := by
    simp [complementSum]
  have hsum := Nat.div_add_mod sum 65536
  have hlow := Nat.mod_lt sum (show 65536 > 0 by decide)
  have hhigh : sum / 65536 < 65535 := by omega
  rw [hcomplement]
  generalize sum / 65536 = high at *
  generalize sum % 65536 = low at *
  subst hsum
  rcases Nat.lt_or_ge (high + low) 65536 with hcarry | hcarry
  · rw [Nat.div_eq_of_lt hcarry, Nat.add_zero, Nat.mod_eq_of_lt hcarry]
    omega
  · have hone : (high + low) / 65536 = 1 := by omega
    rw [hone]
    omega

theorem span_succ (n p len : Nat) (h : p + span n ≤ len) :
    p + span (n + 1) ≤ len ↔ (n < 8 ∨ 11 < n → p + 2 * n + 2 ≤ len) := by
  unfold span at h ⊢
  split <;> split at h <;> omega

theorem span_mono (n : Nat) : span n ≤ span (n + 1) := by
  unfold span
  split <;> split <;> omega

theorem span_le (n : Nat) : span n ≤ 2 * n := by
  unfold span
  split <;> omega

theorem sumShorts_eq (b : Bytes) (p n : Nat) (hp : p ≤ b.length) :
    sumShorts (put16 b (p + 12) 0) p n =
      if p + span n ≤ b.length then some (summed b p n) else none := by
  induction n with
  | zero => rw [if_pos (by simpa [span] using hp)]; rfl
  | succ n ih =>
    rw [sumShorts, ih]
    by_cases hn : p + span n ≤ b.length
    · rw [if_pos hn]
      have hiff := span_succ n p b.length hn
      by_cases hread : n < 8 ∨ 11 < n
      · rw [load16_eq, length_put16]
        by_cases hle : p + 2 * n + 2 ≤ b.length
        · rw [if_pos (hiff.mpr fun _ => hle), if_pos hle]
          by_cases hsix : n = 6
          · subst hsix
            have hz : be16 (put16 b (p + 12) 0#16) (p + 12) = 0#16 := be16_put16_self b 0 hle
            simp [summed, hz]
          · have hskip : ¬ (n = 6 ∨ (8 ≤ n ∧ n ≤ 11)) := by omega
            rw [be16_put16 b 0 (by omega)]
            simp [summed, hskip, hread]
        · rw [if_neg (fun h => hle (hiff.mp h hread)), if_neg hle]
          simp [hread]
      · have hskip : n = 6 ∨ (8 ≤ n ∧ n ≤ 11) := by omega
        rw [if_pos (hiff.mpr fun h => absurd h hread)]
        simp [summed, hskip, hread]
    · have hmono := span_mono n
      rw [if_neg hn, if_neg (by omega)]
      rfl

theorem summed_put16 (b : Bytes) (p n : Nat) (v : BitVec 16) :
    summed (put16 b (p + 12) v) p n = summed b p n := by
  induction n with
  | zero => rfl
  | succ n ih =>
    rw [summed, summed, ih]
    split
    · rfl
    · rw [be16_put16 b v (by omega)]

theorem summed_append_right (a b : Bytes) (p n : Nat) :
    summed (a ++ b) (a.length + p) n = summed b p n := by
  induction n with
  | zero => rfl
  | succ n ih => rw [summed, summed, ih, Nat.add_assoc, be16_append_right]

theorem computePwospfChecksum_eq (b : Bytes) (p : Nat) :
    computePwospfChecksum b p =
      if p + 14 ≤ b.length ∧ p + span (claimedLen b p / 2) ≤ b.length then
        some (rightSum b p, put16 b (p + 12) 0)
      else none := by
  unfold computePwospfChecksum store16
  by_cases hlen : p + 14 ≤ b.length
  · have hlen' : p + 12 + 2 ≤ b.length := by omega
    have hfield : be16 (put16 b (p + 12) 0) (p + 2) = be16 b (p + 2) := be16_put16 b 0 (by omega)
    have hload : load16 (put16 b (p + 12) 0) (p + 2) = some (swap16 (be16 b (p + 2))) := by
      rw [load16_eq, length_put16, if_pos (by omega), hfield]
    have hsum := sumShorts_eq b p (claimedLen b p / 2) (by omega)
    rw [if_pos hlen']
    simp only [Option.bind_eq_bind, Option.bind_some, hload, swap16_swap16]
    change (sumShorts (put16 b (p + 12) 0) p (claimedLen b p / 2)).bind _ = _
    rw [hsum]
    by_cases hspan : p + span (claimedLen b p / 2) ≤ b.length
    · rw [if_pos hspan, if_pos (And.intro hlen hspan)]
      rfl
    · have hnot : ¬ (p + 14 ≤ b.length ∧ p + span (claimedLen b p / 2) ≤ b.length) :=
        fun h => hspan h.2
      rw [if_neg hspan, if_neg hnot]
      rfl
  · have hnot : ¬ (p + 14 ≤ b.length ∧ p + span (claimedLen b p / 2) ≤ b.length) :=
      fun h => hlen h.1
    rw [if_neg hnot, if_neg (by omega)]
    rfl

theorem rightSum_put16 (b : Bytes) (p : Nat) (v : BitVec 16) :
    rightSum (put16 b (p + 12) v) p = rightSum b p := by
  have hclaimed : claimedLen (put16 b (p + 12) v) p = claimedLen b p := by
    rw [claimedLen, be16_put16 b v (by omega), claimedLen]
  rw [rightSum, hclaimed, summed_put16, rightSum]

theorem rightSum_append_right (a b : Bytes) (p : Nat) :
    rightSum (a ++ b) (a.length + p) = rightSum b p := by
  have hclaimed : claimedLen (a ++ b) (a.length + p) = claimedLen b p := by
    rw [claimedLen, Nat.add_assoc, be16_append_right, claimedLen]
  rw [rightSum, hclaimed, summed_append_right, rightSum]

theorem fillChecksum_eq (b : Bytes) :
    fillChecksum b =
      if 14 ≤ b.length ∧ span (claimedLen b 0 / 2) ≤ b.length then
        some (put16 b 12 (swap16 (rightSum b 0)))
      else none := by
  have hcomp := computePwospfChecksum_eq b 0
  simp only [Nat.zero_add] at hcomp
  unfold fillChecksum
  rw [hcomp]
  split
  · rename_i h
    have hstore : store16 (put16 b 12 0) 12 (swap16 (rightSum b 0)) =
        some (put16 b 12 (swap16 (rightSum b 0))) := by
      rw [store16, length_put16, if_pos (by omega), put16_put16]
    simpa using hstore
  · rfl

theorem ChecksumGood.fill (b : Bytes) (h : 14 ≤ b.length) :
    ChecksumGood (put16 b 12 (swap16 (rightSum b 0))) 0 := by
  have hself := be16_put16_self b (swap16 (rightSum b 0)) (o := 12) (by omega)
  have hsum := rightSum_put16 b 0 (swap16 (rightSum b 0))
  unfold ChecksumGood
  rw [hsum, hself, swap16_swap16]

/-- The packet with its checksum field cleared, as the check leaves it. -/
def cleared (packet : Bytes) : Bytes := put16 packet 46 0

/-- What `is_pwospf_packet_valid` asks of a packet. -/
structure Acceptable (rs : RouterState) (packet : Bytes) : Prop where
  version : packet.getD 34 0 = pwospfVersion
  checksum : ChecksumGood packet 34
  atype : be16 packet 48 = 0
  area : be32 packet 42 = rs.areaId
  other : be32 packet 38 ≠ rs.routerId

instance (rs : RouterState) (packet : Bytes) : Decidable (Acceptable rs packet) :=
  decidable_of_iff
    (packet.getD 34 0 = pwospfVersion ∧ ChecksumGood packet 34 ∧ be16 packet 48 = 0 ∧
      be32 packet 42 = rs.areaId ∧ be32 packet 38 ≠ rs.routerId)
    ⟨fun ⟨a, b, c, d, e⟩ => ⟨a, b, c, d, e⟩, fun ⟨a, b, c, d, e⟩ => ⟨a, b, c, d, e⟩⟩

/-- The lengths that the checks need: of the version, of the halfwords summed up, and of the
authentication type, as far as each check is reached. -/
structure Checkable (packet : Bytes) : Prop where
  version : 35 ≤ packet.length
  summed : packet.getD 34 0 = pwospfVersion →
    48 ≤ packet.length ∧ 34 + span (claimedLen packet 34 / 2) ≤ packet.length
  atype : packet.getD 34 0 = pwospfVersion → ChecksumGood packet 34 → 50 ≤ packet.length

theorem be32_cleared (packet : Bytes) {o : Nat} (h : o + 4 ≤ 46 ∨ 48 ≤ o) :
    be32 (cleared packet) o = be32 packet o := be32_put16 packet 0 h

theorem be16_cleared (packet : Bytes) {o : Nat} (h : o + 2 ≤ 46 ∨ 48 ≤ o) :
    be16 (cleared packet) o = be16 packet o := be16_put16 packet 0 h

@[simp] theorem length_cleared (packet : Bytes) : (cleared packet).length = packet.length :=
  length_put16 packet 46 0

theorem isPwospfPacketValid_summed (rs : RouterState) (packet : Bytes)
    (hver : packet.getD 34 0 = pwospfVersion)
    (hlen : 48 ≤ packet.length ∧ 34 + span (claimedLen packet 34 / 2) ≤ packet.length)
    (hsum : ChecksumGood packet 34) :
    isPwospfPacketValid rs packet =
      if 50 ≤ packet.length then
        some (decide (be16 packet 48 = 0 ∧ be32 packet 42 = rs.areaId ∧
          be32 packet 38 ≠ rs.routerId), cleared packet)
      else none := by
  have hcomp : computePwospfChecksum packet 34 = some (rightSum packet 34, cleared packet) := by
    rw [computePwospfChecksum_eq, if_pos hlen]
    rfl
  have hfield : be16 packet 46 = rightSum packet 34 := hsum
  have h48 : be16 (cleared packet) 48 = be16 packet 48 := be16_cleared packet (by omega)
  have h42 : be32 (cleared packet) 42 = be32 packet 42 := be32_cleared packet (by omega)
  have h38 : be32 (cleared packet) 38 = be32 packet 38 := be32_cleared packet (by omega)
  have hlen42 : 42 + 4 ≤ packet.length := by omega
  have hlen38 : 38 + 4 ≤ packet.length := by omega
  unfold isPwospfPacketValid
  rw [load8_eq, if_pos (by omega), load16_eq packet 46, if_pos (by omega), hcomp]
  simp only [Option.bind_eq_bind, Option.bind_some, hver, swap16_swap16, hfield, load16_eq,
    load32_eq, length_cleared, h48, h42, h38, hlen42, hlen38, if_true, ne_eq, not_true_eq_false,
    if_false, swap32_swap32]
  by_cases h50 : 50 ≤ packet.length
  · rw [if_pos h50, if_pos h50]
    by_cases ha : be16 packet 48 = 0#16
    · by_cases hb : be32 packet 42 = rs.areaId
      · by_cases hc : be32 packet 38 = rs.routerId <;> simp [ha, hb, hc]
      · simp [ha, hb]
    · simp [ha]
  · rw [if_neg h50, if_neg h50]
    rfl

/-- A packet that fails the checksum is refused once the sum is computed. -/
theorem isPwospfPacketValid_wrongSum (rs : RouterState) (packet : Bytes)
    (hver : packet.getD 34 0 = pwospfVersion)
    (hlen : 48 ≤ packet.length ∧ 34 + span (claimedLen packet 34 / 2) ≤ packet.length)
    (hsum : ¬ ChecksumGood packet 34) :
    isPwospfPacketValid rs packet = some (false, cleared packet) := by
  have hcomp : computePwospfChecksum packet 34 = some (rightSum packet 34, cleared packet) := by
    rw [computePwospfChecksum_eq, if_pos hlen]
    rfl
  have hfield : be16 packet 46 ≠ rightSum packet 34 := hsum
  unfold isPwospfPacketValid
  rw [load8_eq, if_pos (by omega), load16_eq packet 46, if_pos (by omega), hcomp]
  simp only [Option.bind_eq_bind, Option.bind_some, hver, swap16_swap16, ne_eq, hfield,
    not_true_eq_false, not_false_eq_true, if_true, if_false]
  rfl

theorem isPwospfPacketValid_version (rs : RouterState) (packet : Bytes)
    (hlen : 35 ≤ packet.length) (hver : packet.getD 34 0 ≠ pwospfVersion) :
    isPwospfPacketValid rs packet = some (false, packet) := by
  unfold isPwospfPacketValid
  rw [load8_eq, if_pos hlen]
  simp only [Option.bind_eq_bind, Option.bind_some, if_pos hver]
  rfl

theorem isPwospfPacketValid_short (rs : RouterState) (packet : Bytes)
    (hver : packet.getD 34 0 = pwospfVersion)
    (hlen : ¬ (48 ≤ packet.length ∧ 34 + span (claimedLen packet 34 / 2) ≤ packet.length)) :
    isPwospfPacketValid rs packet = none := by
  have hcomp : computePwospfChecksum packet 34 = none := by
    rw [computePwospfChecksum_eq, if_neg hlen]
  unfold isPwospfPacketValid
  rw [load8_eq, load16_eq packet 46, hcomp]
  split
  · simp only [Option.bind_eq_bind, Option.bind_some, hver, ne_eq, not_true_eq_false, if_false]
    split <;> rfl
  · rfl

/-- The checks stay within the packet just when it has the lengths they need. -/
theorem isPwospfPacketValid_isSome (rs : RouterState) (packet : Bytes) :
    (isPwospfPacketValid rs packet).isSome = true ↔ Checkable packet := by
  by_cases h35 : 35 ≤ packet.length
  · by_cases hver : packet.getD 34 0 = pwospfVersion
    · by_cases hlen : 48 ≤ packet.length ∧ 34 + span (claimedLen packet 34 / 2) ≤ packet.length
      · by_cases hsum : ChecksumGood packet 34
        · rw [isPwospfPacketValid_summed rs packet hver hlen hsum]
          constructor
          · intro h
            by_cases h50 : 50 ≤ packet.length
            · exact ⟨h35, fun _ => hlen, fun _ _ => h50⟩
            · rw [if_neg h50] at h
              cases h
          · intro h
            rw [if_pos (h.atype hver hsum)]
            rfl
        · rw [isPwospfPacketValid_wrongSum rs packet hver hlen hsum]
          exact ⟨fun _ => ⟨h35, fun _ => hlen, fun _ hg => absurd hg hsum⟩, fun _ => rfl⟩
      · rw [isPwospfPacketValid_short rs packet hver hlen]
        exact ⟨fun h => absurd h Bool.false_ne_true, fun h => absurd (h.summed hver) hlen⟩
    · rw [isPwospfPacketValid_version rs packet h35 hver]
      exact ⟨fun _ => ⟨h35, fun hv => absurd hv hver, fun hv => absurd hv hver⟩, fun _ => rfl⟩
  · have hnone : isPwospfPacketValid rs packet = none := by
      unfold isPwospfPacketValid
      rw [load8_eq, if_neg (by omega)]
      rfl
    rw [hnone]
    exact ⟨fun h => absurd h Bool.false_ne_true, fun h => absurd h.version h35⟩

/-- A packet that can be checked is accepted just when it is acceptable. -/
theorem isPwospfPacketValid_of_checkable (rs : RouterState) (packet : Bytes)
    (h : Checkable packet) :
    ∃ left, isPwospfPacketValid rs packet = some (decide (Acceptable rs packet), left) ∧
      (Acceptable rs packet → left = cleared packet) := by
  by_cases hver : packet.getD 34 0 = pwospfVersion
  · have hlen := h.summed hver
    by_cases hsum : ChecksumGood packet 34
    · have h50 := h.atype hver hsum
      refine ⟨cleared packet, ?_, fun _ => rfl⟩
      rw [isPwospfPacketValid_summed rs packet hver hlen hsum, if_pos h50]
      congr 2
      apply decide_eq_decide.mpr
      constructor
      · intro ⟨ha, hb, hc⟩
        exact ⟨hver, hsum, ha, hb, hc⟩
      · intro hok
        exact ⟨hok.atype, hok.area, hok.other⟩
    · refine ⟨cleared packet, ?_, fun _ => rfl⟩
      rw [isPwospfPacketValid_wrongSum rs packet hver hlen hsum]
      have hno : ¬ Acceptable rs packet := fun hok => hsum hok.checksum
      simp [hno]
  · have hno : ¬ Acceptable rs packet := fun hok => hver hok.version
    refine ⟨packet, ?_, fun hok => absurd hok hno⟩
    rw [isPwospfPacketValid_version rs packet h.version hver]
    simp [hno]

end Osnt.Scone.Pwospf
