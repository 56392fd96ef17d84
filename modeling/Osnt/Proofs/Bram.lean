import Osnt.Bram

namespace Osnt.MemWord

theorem getLsbD_pack (w : Word) (i : Nat) :
    (pack w).getLsbD i =
      if i < 512 then w.tdata.getLsbD i
      else if i < 576 then w.tkeep.getLsbD (i - 512)
      else if i < 704 then w.tuser.getLsbD (i - 576)
      else if i = 704 then w.tlast
      else decide (i = 705) := by
  have h : (pack w).getLsbD i = BitVec.getLsbD
      (0#30 ++ 1#1 ++ BitVec.ofBool w.tlast ++ w.tuser ++ w.tkeep ++ w.tdata) i := rfl
  rw [h]
  simp only [BitVec.getLsbD_append]
  by_cases h1 : i < 512
  · simp [h1]
  by_cases h2 : i < 576
  · have hkeep : i - 512 < 64 := by omega
    simp [h1, h2, hkeep]
  by_cases h3 : i < 704
  · have hkeep : ¬ i - 512 < 64 := by omega
    have huser : i - 512 - 64 = i - 576 := by omega
    have hlow : i - 576 < 128 := by omega
    simp [h1, h2, h3, hkeep, huser, hlow]
  by_cases h4 : i = 704
  · simp [h4]
  · have habove : ¬ i - 512 < 64 ∧ ¬ i - 512 - 64 < 128 ∧ ¬ i - 512 - 64 - 128 < 1 := by
      refine ⟨?_, ?_, ?_⟩ <;> omega
    simp [h1, h2, h3, h4, habove]
    omega

@[simp] theorem tvalid_pack (w : Word) : (pack w).tvalid = true := by
  rw [tvalid, getLsbD_pack]
  rfl

@[simp] theorem isMarker_pack (w : Word) : (pack w).isMarker = false := by
  rw [isMarker, getLsbD_pack]
  rfl

@[simp] theorem tvalid_marker : marker.tvalid = false := by decide +kernel

@[simp] theorem isMarker_marker : marker.isMarker = true := by decide +kernel

@[simp] theorem tvalid_zero : tvalid 0#736 = false := by simp [tvalid]

@[simp] theorem isMarker_zero : isMarker 0#736 = false := by simp [isMarker]

/-- Nothing of a word is lost on its way through the memory. -/
@[simp] theorem unpack_pack (w : Word) : (pack w).unpack = w := by
  obtain ⟨d, k, u, l⟩ := w
  simp only [unpack, Word.mk.injEq]
  refine ⟨?_, ?_, ?_, ?_⟩
  · ext i hi
    simp [BitVec.getElem_extractLsb', getLsbD_pack, hi]
  · ext i hi
    rw [BitVec.getElem_extractLsb', getLsbD_pack, if_neg (by omega), if_pos (by omega)]
    simp [hi]
  · ext i hi
    rw [BitVec.getElem_extractLsb', getLsbD_pack, if_neg (by omega), if_neg (by omega),
      if_pos (by omega)]
    simp [hi]
  · rw [getLsbD_pack]
    rfl

theorem pack_ne_zero (w : Word) : pack w ≠ 0 := by
  intro h
  have := tvalid_pack w
  simp [h] at this

end Osnt.MemWord
