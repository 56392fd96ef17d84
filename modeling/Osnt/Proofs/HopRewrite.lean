import Osnt.ProcessSm
import Osnt.Proofs.HeaderCheck

/-! The header of a forwarded packet: the TTL and the checksum that one block of the router computes
and another puts in place. -/
namespace Osnt.ProcessSm
open Lib HeaderCheck

section
variable (m : Macs) (r : Record) (w : Word)

/-- The bits of the first 54 bytes of a forwarded packet that are not those it came with. -/
theorem getLsbD_changePkt {i : Nat} (hi : i < 416) :
    (changePkt m r w).tdata.getLsbD i =
      if 304 ≤ i ∧ i < 320 then r.ipNewChecksum.getLsbD (i - 304)
      else if 328 ≤ i ∧ i < 336 then r.ipNewTtl.getLsbD (i - 328)
      else w.tdata.getLsbD i := by
  simp only [changePkt, BitVec.getLsbD_append, BitVec.getLsbD_extractLsb']
  grind

/-- Outside of the TTL and the checksum the header is as it was. -/
theorem extract_changePkt {start len : Nat}
    (h : start + len ≤ 304 ∨ 320 ≤ start ∧ start + len ≤ 328 ∨ 336 ≤ start ∧ start + len ≤ 416) :
    (changePkt m r w).tdata.extractLsb' start len = w.tdata.extractLsb' start len := by
  apply BitVec.eq_of_getLsbD_eq
  intro i hi
  rw [BitVec.getLsbD_extractLsb', BitVec.getLsbD_extractLsb',
    getLsbD_changePkt m r w (by omega), if_neg (by omega), if_neg (by omega)]

@[simp] theorem ttlByte_changePkt : ttlByte (changePkt m r w).tdata = r.ipNewTtl := by
  apply BitVec.eq_of_getLsbD_eq
  intro i hi
  rw [ttlByte, BitVec.getLsbD_extractLsb', getLsbD_changePkt m r w (by omega), if_neg (by omega),
    if_pos (by omega), Nat.add_sub_cancel_left]
  simp [hi]

theorem halfword_checksum : halfword (changePkt m r w).tdata 5 = r.ipNewChecksum := by
  apply BitVec.eq_of_getLsbD_eq
  intro i hi
  rw [halfword, BitVec.getLsbD_extractLsb', getLsbD_changePkt m r w (by omega),
    if_pos (by omega), Nat.add_sub_cancel_left]
  simp [hi]

end

theorem halfword_ttl (w : Word) : (halfword w.tdata 4).toNat =
    256 * (ttlByte w.tdata).toNat + (w.tdata.extractLsb' 320 8).toNat := by
  have hshift : w.tdata.toNat >>> 328 = w.tdata.toNat >>> 320 / 2 ^ 8 := by
    rw [← Nat.shiftRight_eq_div_pow, ← Nat.shiftRight_add]
  rw [halfword, ttlByte, BitVec.extractLsb'_toNat, BitVec.extractLsb'_toNat,
    BitVec.extractLsb'_toNat, hshift]
  omega

section
variable {m : Macs} {r : Record} {w : Word}

/-- One hop less in the TTL and 256 more in the checksum leave the class of the sum as it was. -/
theorem sum_changePkt (hc : r.ipNewChecksum = (headerInfo w).newChecksum)
    (ht : r.ipNewTtl = (headerInfo w).newTtl)
    (hsum : OnesComplement.sum (2 ^ 16) (halfwords w) = 0xFFFF)
    (httl : 1 < (ttlByte w.tdata).toNat) :
    OnesComplement.sum (2 ^ 16) (halfwords (changePkt m r w)) = 0xFFFF := by
  have hother : ∀ j < 10, j ≠ 4 → j ≠ 5 →
      halfword (changePkt m r w).tdata j = halfword w.tdata j := by
    intro j hj h4 h5
    exact extract_changePkt m r w (by omega)
  have hck : (halfword (changePkt m r w).tdata 5).toNat =
      OnesComplement.add (2 ^ 16) (halfword w.tdata 5).toNat 0x100 := by
    rw [halfword_checksum, hc, headerInfo, BitVec.toNat_ofNat]
    exact Nat.mod_eq_of_lt (OnesComplement.add_lt (BitVec.isLt _) (by decide))
  have hnew : r.ipNewTtl.toNat = (ttlByte w.tdata).toNat - 1 := by
    rw [ht, headerInfo, BitVec.toNat_ofNat]
    exact Nat.mod_eq_of_lt (Nat.lt_of_le_of_lt (Nat.sub_le _ _) (ttlByte w.tdata).isLt)
  have hmod := OnesComplement.fold_mod (b := 2 ^ 16) (by decide)
    ((halfword w.tdata 5).toNat + 0x100)
  rw [← OnesComplement.add] at hmod
  have hproto : (changePkt m r w).tdata.extractLsb' 320 8 = w.tdata.extractLsb' 320 8 :=
    extract_changePkt m r w (by omega)
  have hold := halfword_ttl w
  have hhop := halfword_ttl (changePkt m r w)
  rw [ttlByte_changePkt, hproto, hnew] at hhop
  obtain ⟨hclass, -⟩ := (OnesComplement.sum_eq_max_iff (by decide) (halfword_lt w)).mp hsum
  refine (OnesComplement.sum_eq_max_iff (by decide) (halfword_lt _)).mpr ?_
  rw [halfwords_eq] at hclass ⊢
  rw [hother 0 (by omega) (by omega) (by omega), hother 1 (by omega) (by omega) (by omega),
    hother 2 (by omega) (by omega) (by omega), hother 3 (by omega) (by omega) (by omega),
    hother 6 (by omega) (by omega) (by omega), hother 7 (by omega) (by omega) (by omega),
    hother 8 (by omega) (by omega) (by omega), hother 9 (by omega) (by omega) (by omega), hck]
  simp only [List.sum_cons, List.sum_nil] at hclass ⊢
  omega

end

/-- What leaves for a good header with hops left: the checksum is good again, the TTL is one less,
and no other byte of the header has changed. -/
theorem forwarded_header {ins : List HeaderCheck.Input} {k : Nat} {info : Info} {w : Word}
    (hinfo : (infos ins)[k]? = some info) (hw : (firstWords ins)[k]? = some w)
    (hsum : OnesComplement.sum (2 ^ 16) (halfwords w) = 0xFFFF)
    (httl : 1 < (ttlByte w.tdata).toNat) (m : Macs) {r : Record}
    (hc : r.ipNewChecksum = info.newChecksum) (ht : r.ipNewTtl = info.newTtl) {s : Regs}
    (hs : s.state = .changePkt) (preprocessVld : Bool) :
    OnesComplement.sum (2 ^ 16)
        (halfwords (s.drive m true w preprocessVld r true).next.outWord) = 0xFFFF ∧
      (ttlByte (s.drive m true w preprocessVld r true).next.outWord.tdata).toNat + 1 =
        (ttlByte w.tdata).toNat ∧
      ∀ j < 20, j ≠ 8 → j ≠ 10 → j ≠ 11 →
        (headerBytes (s.drive m true w preprocessVld r true).next.outWord)[j]? =
          (headerBytes w)[j]? := by
  obtain ⟨p, -, hdue, -⟩ := phase_run ins
  have heq : info = headerInfo w := by
    have hall : ((firstWords ins).map headerInfo)[k]? = some info := by
      obtain ⟨hk, -⟩ := List.getElem?_eq_some_iff.mp hinfo
      rw [← hdue, List.getElem?_append_left hk, hinfo]
    rw [List.getElem?_map, hw] at hall
    exact (Option.some.inj hall).symm
  subst heq
  have hout : (s.drive m true w preprocessVld r true).next.outWord =
      setDstPort s.dstPort (changePkt m r w) := by
    simp [Regs.drive, hs, Regs.emit]
  rw [hout]
  refine ⟨sum_changePkt hc ht hsum httl, ?_, fun j hj h8 h10 h11 => ?_⟩
  · have hnew : ttlByte (setDstPort s.dstPort (changePkt m r w)).tdata = (headerInfo w).newTtl :=
      (ttlByte_changePkt m r w).trans ht
    have hlt := (ttlByte w.tdata).isLt
    rw [hnew, headerInfo, BitVec.toNat_ofNat]
    omega
  · have hbyte := @extract_changePkt m r w (392 - 8 * j) 8 (by omega)
    rw [headerBytes, headerBytes, List.getElem?_map, List.getElem?_map, List.getElem?_range hj]
    exact congrArg some hbyte

/-- The first word of a packet with a header of TTL 64 and its checksum. -/
def goodWord : Word := ⟨0x4500 <<< 384 ||| 0x4006 <<< 320 ||| 0x7AF9 <<< 304, 0, 0, true⟩

def goodRun : List HeaderCheck.Input :=
  ⟨true, true, goodWord⟩ :: List.replicate 3 ⟨false, true, goodWord⟩

theorem forwarded_header_good :
    OnesComplement.sum (2 ^ 16) (halfwords ((⟨.changePkt, false, goodWord, false, 1⟩ : Regs).drive
      ⟨0, 0, 0, 0⟩ true goodWord false
      { (default : Record) with ipNewChecksum := 0x7BF9, ipNewTtl := 63 } true).next.outWord) =
        0xFFFF :=
  (@forwarded_header goodRun 0 ⟨0x7BF9, true, 63, false⟩ goodWord (by decide +kernel)
    (by decide +kernel) (by decide +kernel) (by decide +kernel) _ _ rfl rfl _ rfl false).1

end Osnt.ProcessSm
