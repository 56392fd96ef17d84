import Mathlib.Algebra.Order.BigOperators.Group.List
import Mathlib.Algebra.Order.Group.Nat
import Osnt.HeaderCheck
import Osnt.Scone.Ip

/-! The header check as a pipeline of four cycles. The two stop states behind each packet keep
first words three cycles apart, so a register is never loaded while it is still needed. -/
namespace Osnt.HeaderCheck
open Lib

theorem halfwords_eq (w : Word) : halfwords w =
    [(halfword w.tdata 0).toNat, (halfword w.tdata 1).toNat, (halfword w.tdata 2).toNat,
      (halfword w.tdata 3).toNat, (halfword w.tdata 4).toNat, (halfword w.tdata 5).toNat,
      (halfword w.tdata 6).toNat, (halfword w.tdata 7).toNat, (halfword w.tdata 8).toNat,
      (halfword w.tdata 9).toNat] := rfl

theorem halfword_lt (w : Word) : ∀ x ∈ halfwords w, x < 2 ^ 16 := by
  intro x hx
  obtain ⟨j, -, rfl⟩ := List.mem_map.mp hx
  exact BitVec.isLt _

theorem halfwords_sum_le (w : Word) : (halfwords w).sum ≤ 10 * 65535 := by
  have h := List.sum_le_card_nsmul (halfwords w) 65535
    (fun x hx => Nat.le_of_lt_succ (halfword_lt w x hx))
  simpa [halfwords] using h

/-- The header fields behind the first word: the four partial sums and the fields that need no
sum. -/
structure Loaded (w : Word) (r : Regs) : Prop where
  sums : (r.cksmTemp + r.cksmTemp2).toNat = (halfwords w).sum
  adjusted : r.adjustedChecksum.toNat = (halfword w.tdata 5).toNat + 0x100
  ttlNew : r.ttlNew = (headerInfo w).newTtl
  ttlGood : r.ttlGood = (headerInfo w).ttlGood
  options : r.hdrHasOptions = (headerInfo w).hdrHasOptions

/-- A cycle later the partial sums are added up. -/
structure Summed (w : Word) (r : Regs) : Prop where
  checksum : r.checksum.toNat = (halfwords w).sum
  adjusted : r.adjustedChecksum.toNat = (halfword w.tdata 5).toNat + 0x100
  ttlNew : r.ttlNew = (headerInfo w).newTtl
  ttlGood : r.ttlGood = (headerInfo w).ttlGood
  options : r.hdrHasOptions = (headerInfo w).hdrHasOptions

/-- A verdict stands in `checksum`. -/
def Verdict (w : Word) (r : Regs) : Prop :=
  (r.checksum.extractLsb' 0 16 == BitVec.allOnes 16) = checksumGood w

/-- And another cycle later the carries are added, and the entry of `info_fifo` is complete. -/
structure Folded (w : Word) (r : Regs) : Prop where
  verdict : Verdict w r
  entry : (⟨r.adjustedChecksum.extractLsb' 0 16, r.ttlGood, r.ttlNew, r.hdrHasOptions⟩ : Info) =
    headerInfo w

theorem loaded_step (w : Word) {r : Regs} (hc : r.addCarry = false) :
    Loaded w (r.step true w.tdata) := by
  have h : ∀ j, (halfword w.tdata j).toNat < 65536 := fun j => BitVec.isLt _
  refine ⟨?_, ?_, ?_, ?_, ?_⟩
  · have h0 := h 0
    have h1 := h 1
    have h2 := h 2
    have h3 := h 3
    have h4 := h 4
    have h5 := h 5
    have h6 := h 6
    have h7 := h 7
    have h8 := h 8
    have h9 := h 9
    simp only [Regs.step, Regs.cksmTemp, Regs.cksmTemp2, if_true, BitVec.toNat_add,
      BitVec.toNat_setWidth, halfwords_eq, List.sum_cons, List.sum_nil]
    omega
  · have h5 := h 5
    simp only [Regs.step, hc, Bool.false_eq_true, if_false, if_true, BitVec.toNat_add,
      BitVec.toNat_setWidth, BitVec.ofNat_eq_ofNat, BitVec.toNat_ofNat]
    omega
  · have ht := (ttlByte w.tdata).isLt
    simp only [Regs.step, if_true, headerInfo]
    split
    · next hz => simp [hz]
    · next hz =>
      have hz : (ttlByte w.tdata).toNat ≠ 0 := fun he => hz (BitVec.eq_of_toNat_eq he)
      apply BitVec.eq_of_toNat_eq
      simp only [BitVec.toNat_sub, BitVec.ofNat_eq_ofNat, BitVec.toNat_ofNat]
      omega
  · simp [Regs.step, headerInfo, BitVec.lt_def]
  · rfl

theorem Loaded.step {w : Word} {r : Regs} (h : Loaded w r) (hc : r.addCarry = false)
    (hd : r.addCarryD0 = true) (tdata : BitVec 512) : Summed w (r.step false tdata) := by
  refine ⟨?_, ?_, h.ttlNew, h.ttlGood, h.options⟩
  · simp [Regs.step, hc, hd, ← h.sums]
  · simp [Regs.step, hc, ← h.adjusted]

/-- Below the width of the register the carry is not cut off. -/
theorem fold_no_carry {n a k : Nat} (ha : 2 ^ 16 ≤ 2 ^ a - 2 ^ k) (h : n / 2 ^ 16 < 2 ^ k)
    (hk : 2 ^ k ≤ 2 ^ a) :
    (n / 2 ^ 16 % 2 ^ k % 2 ^ a + n % 2 ^ 16 % 2 ^ a) % 2 ^ a =
      OnesComplement.fold (2 ^ 16) n := by
  have hm : n % 2 ^ 16 < 2 ^ 16 := Nat.mod_lt _ (by decide)
  have hhi : n / 2 ^ 16 % 2 ^ k = n / 2 ^ 16 := Nat.mod_eq_of_lt h
  have hhi' : n / 2 ^ 16 % 2 ^ a = n / 2 ^ 16 := Nat.mod_eq_of_lt (by omega)
  have hlo : n % 2 ^ 16 % 2 ^ a = n % 2 ^ 16 := Nat.mod_eq_of_lt (by omega)
  rw [hhi, hhi', hlo, Nat.mod_eq_of_lt (by omega), OnesComplement.fold, Nat.add_comm]

theorem toNat_fold (c : BitVec 20) :
    (((c.extractLsb' 16 4).setWidth 20 + (c.extractLsb' 0 16).setWidth 20 : BitVec 20).extractLsb' 0
      16).toNat = OnesComplement.fold (2 ^ 16) c.toNat % 2 ^ 16 := by
  have hlt := c.isLt
  simp only [BitVec.extractLsb'_toNat, BitVec.toNat_add, BitVec.toNat_setWidth,
    Nat.shiftRight_eq_div_pow, Nat.pow_zero, Nat.div_one]
  rw [fold_no_carry (by decide) (by omega) (by decide)]

/-- One carry brings the sum of ten halfwords down to 16 bits as far as the verdict goes. -/
theorem verdict_fold {w : Word} {c : BitVec 20} (h : c.toNat = (halfwords w).sum) :
    (((c.extractLsb' 16 4).setWidth 20 + (c.extractLsb' 0 16).setWidth 20 : BitVec 20).extractLsb' 0
      16 == BitVec.allOnes 16) = checksumGood w := by
  have hsum : (halfwords w).sum / 2 ^ 16 < 2 ^ 16 - 1 := by
    have := halfwords_sum_le w
    omega
  have hfold := OnesComplement.fold_sum_eq_max_iff (b := 2 ^ 16) (by decide) (halfword_lt w) hsum
  rw [checksumGood, Bool.eq_iff_iff, beq_iff_eq, decide_eq_true_iff]
  refine Iff.trans ?_ hfold
  rw [← h, ← toNat_fold, BitVec.toNat_eq, BitVec.toNat_allOnes]

theorem Summed.step {w : Word} {r : Regs} (h : Summed w r) (hc : r.addCarry = true)
    (tdata : BitVec 512) : Folded w (r.step false tdata) := by
  refine ⟨?_, ?_⟩
  · simp only [Verdict, Regs.step, hc, if_true]
    exact verdict_fold h.checksum
  · have hadj : (r.step false tdata).adjustedChecksum.extractLsb' 0 16 =
        (headerInfo w).newChecksum := by
      have h5 := (halfword w.tdata 5).isLt
      have ha := h.adjusted
      apply BitVec.eq_of_toNat_eq
      simp only [Regs.step, hc, if_true, headerInfo, OnesComplement.add,
        BitVec.extractLsb'_toNat, BitVec.toNat_add, BitVec.toNat_setWidth, BitVec.toNat_ofNat,
        Nat.shiftRight_eq_div_pow, Nat.pow_zero, Nat.div_one, ha]
      rw [Nat.add_comm (_ % 2 ^ 16 % _), fold_no_carry (by decide) (by omega) (by decide)]
    rw [hadj]
    simp only [Regs.step, Bool.false_eq_true, if_false, h.ttlNew, h.ttlGood, h.options]

/-- The bits that follow a header through the stages. -/
structure Regs.Flags (r : Regs) (d0 carry d1 done : Bool) : Prop where
  addCarryD0 : r.addCarryD0 = d0
  addCarry : r.addCarry = carry
  addCarryD1 : r.addCarryD1 = d1
  infoReady : r.infoReady = d1
  checksumDone : r.checksumDone = done

theorem Regs.Flags.step {r : Regs} {d0 carry d1 done : Bool} (h : r.Flags d0 carry d1 done)
    (hi : Bool) (tdata : BitVec 512) : (r.step hi tdata).Flags hi (d0 && !d1) carry d1 := by
  refine ⟨rfl, ?_, h.addCarry, h.addCarry, h.addCarryD1⟩
  rw [← h.addCarryD0, ← h.addCarryD1]
  rfl

/-- Where the headers under way are: at most one in the first three stages, and possibly one
before it whose verdict is being written. -/
inductive Phase
  | quiet
  | first (w : Word)
  | second (w : Word)
  | third (w : Word)
  | fourth (w : Word)
  | fourthFirst (old w : Word)

namespace Phase

/-- One cycle; a header comes in only where the one before is three stages ahead. -/
def next : Phase → Option Word → Phase
  | quiet, none => quiet
  | quiet, some v => first v
  | first w, _ => second w
  | second w, _ => third w
  | third w, none => fourth w
  | third w, some v => fourthFirst w v
  | fourth _, none => quiet
  | fourth _, some v => first v
  | fourthFirst _ w, _ => second w

/-- The headers whose entry of `info_fifo` is to be written, the next one now or later. -/
def infoDue : Phase → List Word
  | quiet | fourth _ => []
  | first w | second w | third w | fourthFirst _ w => [w]

def cksmDue : Phase → List Word
  | quiet => []
  | first w | second w | third w | fourth w => [w]
  | fourthFirst old w => [old, w]

/-- The header whose entry is written in this cycle. -/
def infoNow : Phase → List Word
  | third w => [w]
  | _ => []

def cksmNow : Phase → List Word
  | fourth w => [w]
  | fourthFirst old _ => [old]
  | _ => []

/-- A header may come in. -/
def open_ : Phase → Bool
  | quiet | third _ | fourth _ => true
  | _ => false

theorem infoDue_next (p : Phase) (v : Option Word) (h : v.isSome → p.open_ = true) :
    p.infoDue ++ v.toList = p.infoNow ++ (p.next v).infoDue := by
  cases p <;> cases v <;> simp_all [infoDue, infoNow, next, open_]

theorem cksmDue_next (p : Phase) (v : Option Word) (h : v.isSome → p.open_ = true) :
    p.cksmDue ++ v.toList = p.cksmNow ++ (p.next v).cksmDue := by
  cases p <;> cases v <;> simp_all [cksmDue, cksmNow, next, open_]

/-- The registers of a phase, and the states in which the control can be. -/
def Matches (s : Sys) : Phase → Prop
  | quiet => s.regs.Flags false false false false
  | first w => s.regs.Flags true false false false ∧ Loaded w s.regs ∧
      (s.ctl = .stop0 ∨ s.ctl = .waitEop)
  | second w => s.regs.Flags false true false false ∧ Summed w s.regs ∧ s.ctl ≠ .word1
  | third w => s.regs.Flags false false true false ∧ Folded w s.regs
  | fourth w => s.regs.Flags false false false true ∧ Verdict w s.regs
  | fourthFirst old w => s.regs.Flags true false false true ∧ Verdict old s.regs ∧
      Loaded w s.regs ∧ (s.ctl = .stop0 ∨ s.ctl = .waitEop)

end Phase

/-- The header accepted in a cycle. -/
def Sys.header (s : Sys) (i : Input) : Option Word :=
  if s.ctl.wordIpDstHi (s.valid i) then some i.word else none

theorem step_none {s : Sys} {i : Input} (h : s.header i = none) :
    (s.step i).regs = s.regs.step false i.word.tdata := by
  cases hh : s.ctl.wordIpDstHi (s.valid i) with
  | true => simp [Sys.header, hh] at h
  | false => rw [Sys.step, hh]

/-- The word behind a header comes at the earliest in the third cycle after it. -/
theorem step_some {s : Sys} {i : Input} {v : Word} (h : s.header i = some v) :
    (s.step i).regs = s.regs.step true v.tdata ∧
      ((s.step i).ctl = .stop0 ∨ (s.step i).ctl = .waitEop) ∧ s.ctl = .word1 := by
  cases hh : s.ctl.wordIpDstHi (s.valid i) with
  | false => simp [Sys.header, hh] at h
  | true =>
    obtain rfl : i.word = v := by simpa [Sys.header, hh] using h
    obtain ⟨hc, hv⟩ : s.ctl = .word1 ∧ s.valid i = true := by
      simpa [State.wordIpDstHi] using hh
    refine ⟨by rw [Sys.step, hh], ?_, hc⟩
    cases hl : i.word.tlast <;> simp [Sys.step, State.next, hc, hv, hl]

theorem ctl_ne_word1 {s : Sys} (i : Input) (h : s.ctl = .stop0 ∨ s.ctl = .waitEop) :
    (s.step i).ctl ≠ .word1 := by
  rcases h with h | h
  · simp [Sys.step, State.next, h]
  · simp only [Sys.step, State.next, h]
    split <;> simp

theorem Verdict.step {w : Word} {r : Regs} (h : Verdict w r) (hc : r.addCarry = false)
    (hd : r.addCarryD0 = false) (hi : Bool) (tdata : BitVec 512) :
    Verdict w (r.step hi tdata) := by
  simpa [Verdict, Regs.step, hc, hd] using h

theorem Phase.Matches.step_none {s : Sys} {p : Phase} (h : p.Matches s) {i : Input}
    (hv : s.header i = none) : (p.next none).Matches (s.step i) := by
  have hregs := HeaderCheck.step_none hv
  cases p with
  | quiet =>
    simp only [next, Matches, hregs]
    exact Regs.Flags.step h false i.word.tdata
  | first w =>
    obtain ⟨hf, hl, hc⟩ := h
    refine ⟨hregs ▸ hf.step false _, hregs ▸ hl.step hf.addCarry hf.addCarryD0 _, ?_⟩
    exact ctl_ne_word1 i hc
  | second w =>
    obtain ⟨hf, hs, -⟩ := h
    exact ⟨hregs ▸ hf.step false _, hregs ▸ hs.step hf.addCarry _⟩
  | third w =>
    obtain ⟨hf, hd⟩ := h
    exact ⟨hregs ▸ hf.step false _, hregs ▸ hd.verdict.step hf.addCarry hf.addCarryD0 false _⟩
  | fourth w =>
    obtain ⟨hf, -⟩ := h
    simp only [next, Matches, hregs]
    exact hf.step false i.word.tdata
  | fourthFirst old w =>
    obtain ⟨hf, -, hl, hc⟩ := h
    refine ⟨hregs ▸ hf.step false _, hregs ▸ hl.step hf.addCarry hf.addCarryD0 _, ?_⟩
    exact ctl_ne_word1 i hc

/-- and with one, which finds the first two stages empty. -/
theorem Phase.Matches.step_some {s : Sys} {p : Phase} (h : p.Matches s) {i : Input} {v : Word}
    (hv : s.header i = some v) : p.open_ = true ∧ (p.next (some v)).Matches (s.step i) := by
  obtain ⟨hregs, hctl, hw⟩ := HeaderCheck.step_some hv
  cases p with
  | quiet =>
    refine ⟨rfl, hregs ▸ Regs.Flags.step h true _, ?_, hctl⟩
    exact hregs ▸ loaded_step v h.addCarry
  | first w =>
    have hc := h.2.2
    simp [hw] at hc
  | second w => exact absurd hw h.2.2
  | third w =>
    obtain ⟨hf, hd⟩ := h
    refine ⟨rfl, hregs ▸ hf.step true _, ?_, hregs ▸ loaded_step v hf.addCarry, hctl⟩
    exact hregs ▸ hd.verdict.step hf.addCarry hf.addCarryD0 true _
  | fourth w =>
    obtain ⟨hf, -⟩ := h
    exact ⟨rfl, hregs ▸ hf.step true _, hregs ▸ loaded_step v hf.addCarry, hctl⟩
  | fourthFirst old w =>
    have hc := h.2.2.2
    simp [hw] at hc

theorem Phase.Matches.step {s : Sys} {p : Phase} (h : p.Matches s) (i : Input) :
    ((s.header i).isSome → p.open_ = true) ∧ (p.next (s.header i)).Matches (s.step i) := by
  cases hv : s.header i with
  | none => exact ⟨by simp, h.step_none hv⟩
  | some v => exact ⟨fun _ => (h.step_some hv).1, (h.step_some hv).2⟩

theorem Phase.Matches.writes {s : Sys} {p : Phase} (h : p.Matches s) :
    s.regs.infoWrite = p.infoNow.map headerInfo ∧
      s.regs.cksmWrite = p.cksmNow.map checksumGood := by
  cases p with
  | quiet => exact ⟨by simp [Regs.infoWrite, infoNow, h.infoReady],
      by simp [Regs.cksmWrite, cksmNow, h.checksumDone]⟩
  | first w => exact ⟨by simp [Regs.infoWrite, infoNow, h.1.infoReady],
      by simp [Regs.cksmWrite, cksmNow, h.1.checksumDone]⟩
  | second w => exact ⟨by simp [Regs.infoWrite, infoNow, h.1.infoReady],
      by simp [Regs.cksmWrite, cksmNow, h.1.checksumDone]⟩
  | third w => exact ⟨by simp [Regs.infoWrite, infoNow, h.1.infoReady, h.2.entry],
      by simp [Regs.cksmWrite, cksmNow, h.1.checksumDone]⟩
  | fourth w =>
    have hv := h.2
    rw [Verdict] at hv
    exact ⟨by simp [Regs.infoWrite, infoNow, h.1.infoReady],
      by simp only [Regs.cksmWrite, cksmNow, h.1.checksumDone, hv]; rfl⟩
  | fourthFirst old w =>
    have hv := h.2.1
    rw [Verdict] at hv
    exact ⟨by simp [Regs.infoWrite, infoNow, h.1.infoReady],
      by simp only [Regs.cksmWrite, cksmNow, h.1.checksumDone, hv]; rfl⟩

theorem ctl_of_valid {s : Sys} {i : Input} (h : s.valid i = true) :
    s.ctl = .word1 ∨ s.ctl = .waitEop := by
  simp only [Sys.valid, Bool.and_eq_true] at h
  have hr := h.2.2
  cases hc : s.ctl <;> simp [State.ready, hc] at hr ⊢

/-- The control is inside a packet exactly if the next word accepted does not begin one. -/
theorem opens_ctl (ins : List Input) :
    opens Word.tlast true (machine.collect Sys.accepted reset ins) =
      ((after ins).ctl != .waitEop) := by
  induction ins using List.reverseRecOn with
  | nil => rfl
  | append_singleton ins i ih =>
    have hafter : after (ins ++ [i]) = (after ins).step i := Machine.run_concat _ _ _ _
    have hacc : machine.collect Sys.accepted reset (ins ++ [i]) =
        machine.collect Sys.accepted reset ins ++ (after ins).accepted i :=
      Machine.collect_concat _ _ _ _ _
    rw [hafter, hacc]
    cases hv : (after ins).valid i with
    | false =>
      rw [Sys.accepted, hv, if_neg (by simp), List.append_nil, ih]
      cases hc : (after ins).ctl <;> simp only [Sys.step, State.next, hv, hc] <;> rfl
    | true =>
      rw [Sys.accepted, hv, if_pos rfl, opens_concat]
      rcases ctl_of_valid hv with hc | hc <;> cases hl : i.word.tlast <;>
        simp [Sys.step, State.next, hv, hc, hl]

theorem firstWords_concat (ins : List Input) (i : Input) :
    firstWords (ins ++ [i]) = firstWords ins ++ ((after ins).header i).toList := by
  have hacc : machine.collect Sys.accepted reset (ins ++ [i]) =
      machine.collect Sys.accepted reset ins ++ (after ins).accepted i :=
    Machine.collect_concat _ _ _ _ _
  rw [firstWords, hacc]
  cases hv : (after ins).valid i with
  | false => simp [Sys.accepted, Sys.header, State.wordIpDstHi, hv, firstWords]
  | true =>
    rw [Sys.accepted, hv, if_pos rfl, openers_concat, opens_ctl, firstWords]
    rcases ctl_of_valid hv with hc | hc <;> simp [Sys.header, State.wordIpDstHi, hv, hc]

/-- What is written and what is due make up the headers of the packets accepted. -/
theorem phase_run (ins : List Input) :
    ∃ p : Phase, p.Matches (after ins) ∧
      infos ins ++ p.infoDue.map headerInfo = (firstWords ins).map headerInfo ∧
      cksms ins ++ p.cksmDue.map checksumGood = (firstWords ins).map checksumGood := by
  induction ins using List.reverseRecOn with
  | nil => exact ⟨.quiet, ⟨rfl, rfl, rfl, rfl, rfl⟩, rfl, rfl⟩
  | append_singleton ins i ih =>
    obtain ⟨p, hp, hinfo, hcksm⟩ := ih
    obtain ⟨hopen, hnext⟩ := hp.step i
    obtain ⟨hiw, hcw⟩ := hp.writes
    have hafter : after (ins ++ [i]) = (after ins).step i := Machine.run_concat _ _ _ _
    have hinfos : infos (ins ++ [i]) = infos ins ++ (after ins).regs.infoWrite :=
      Machine.collect_concat _ _ _ _ _
    have hcksms : cksms (ins ++ [i]) = cksms ins ++ (after ins).regs.cksmWrite :=
      Machine.collect_concat _ _ _ _ _
    refine ⟨p.next ((after ins).header i), hafter ▸ hnext, ?_, ?_⟩
    · rw [hinfos, hiw, firstWords_concat, List.map_append, ← hinfo, List.append_assoc,
        List.append_assoc, ← List.map_append, ← List.map_append, p.infoDue_next _ hopen]
    · rw [hcksms, hcw, firstWords_concat, List.map_append, ← hcksm, List.append_assoc,
        List.append_assoc, ← List.map_append, ← List.map_append, p.cksmDue_next _ hopen]

theorem Phase.flush (p : Phase) (a b c : Option Word) :
    p.infoDue.length ≤ p.infoNow.length + ((p.next a).infoNow.length +
        (((p.next a).next b).infoNow.length + (((p.next a).next b).next c).infoNow.length)) ∧
      p.cksmDue.length ≤ p.cksmNow.length + ((p.next a).cksmNow.length +
        (((p.next a).next b).cksmNow.length + (((p.next a).next b).next c).cksmNow.length)) := by
  cases p <;> cases a <;> cases b <;> cases c <;>
    simp [infoDue, cksmDue, infoNow, cksmNow, next]

theorem flush_run {s : Sys} {p : Phase} (h : p.Matches s) {later : List Input}
    (hlen : 4 ≤ later.length) :
    p.infoDue.length ≤ (machine.collect (fun s _ => s.regs.infoWrite) s later).length ∧
      p.cksmDue.length ≤ (machine.collect (fun s _ => s.regs.cksmWrite) s later).length := by
  match later, hlen with
  | i :: j :: k :: l :: rest, _ =>
    have h1 := (h.step i).2
    have h2 := (h1.step j).2
    have h3 := (h2.step k).2
    obtain ⟨hi, hc⟩ := p.flush (s.header i) ((s.step i).header j) (((s.step i).step j).header k)
    have hlen : ∀ {t : Sys} {q : Phase}, q.Matches t → t.regs.infoWrite.length = q.infoNow.length ∧
        t.regs.cksmWrite.length = q.cksmNow.length := by
      intro t q hq
      rw [hq.writes.1, hq.writes.2, List.length_map, List.length_map]
      exact ⟨rfl, rfl⟩
    have hm : ∀ t i, machine.step t i = t.step i := fun _ _ => rfl
    simp only [Machine.collect_cons, List.length_append, hm, (hlen h).1, (hlen h).2, (hlen h1).1,
      (hlen h1).2, (hlen h2).1, (hlen h2).2, (hlen h3).1, (hlen h3).2]
    omega

theorem ntohsAt_headerBytes (w : Word) {j : Nat} (hj : j < 10) :
    Scone.Ip.ntohsAt (headerBytes w) j = halfword w.tdata j := by
  have hget : ∀ k, k < 20 → (headerBytes w).getD k 0 = w.tdata.extractLsb' (392 - 8 * k) 8 := by
    intro k hk
    simp [headerBytes, List.getD_eq_getElem?_getD, hk]
  have hhi : 392 - 8 * (2 * j) = 384 - 16 * j + 8 := by omega
  have hlo : 392 - 8 * (2 * j + 1) = 384 - 16 * j := by omega
  rw [Scone.Ip.ntohsAt, hget _ (by omega), hget _ (by omega), hhi, hlo, halfword]
  exact BitVec.extractLsb'_append_extractLsb'_eq_extractLsb' rfl

/-- The 32-bit sum of a buffer of at most 65536 halfwords does not overflow. -/
theorem toNat_sum2Comp (data : List (BitVec 8)) {n : Nat} (hn : n ≤ 65536) :
    ((List.range n).foldl (fun sum i => sum + (Scone.Ip.ntohsAt data i).setWidth 32)
        (0 : BitVec 32)).toNat =
      ((List.range n).map fun i => (Scone.Ip.ntohsAt data i).toNat).sum ∧
    ((List.range n).map fun i => (Scone.Ip.ntohsAt data i).toNat).sum ≤ n * 65535 := by
  induction n with
  | zero => simp
  | succ n ih =>
    obtain ⟨hsum, hle⟩ := ih (by omega)
    have hlt := (Scone.Ip.ntohsAt data n).isLt
    rw [List.range_succ, List.foldl_append, List.map_append, List.sum_append]
    simp only [List.foldl_cons, List.foldl_nil, List.map_cons, List.map_nil, List.sum_cons,
      List.sum_nil, BitVec.toNat_add, BitVec.toNat_setWidth, hsum]
    omega

theorem toNat_sum1Comp (sum : BitVec 32) :
    (((sum >>> 16) + (sum &&& 0xFFFF)).setWidth 16).toNat =
      OnesComplement.fold (2 ^ 16) sum.toNat % 2 ^ 16 := by
  have hand : sum.toNat &&& 65535 = sum.toNat % 2 ^ 16 := Nat.and_two_pow_sub_one_eq_mod _ 16
  simp only [BitVec.toNat_setWidth, BitVec.toNat_add, BitVec.toNat_ushiftRight, BitVec.toNat_and,
    Nat.shiftRight_eq_div_pow, BitVec.ofNat_eq_ofNat, BitVec.toNat_ofNat, Nat.reduceMod,
    Nat.reducePow, hand, OnesComplement.fold]
  omega

/-- `verify_checksum` accepts what has a one's complement sum of all ones. -/
theorem verifyChecksum_eq_zero_iff (data : List (BitVec 8)) {n : Nat} (hn : n / 2 ≤ 65535) :
    Scone.Ip.verifyChecksum data n = 0 ↔ OnesComplement.sum (2 ^ 16)
      ((List.range (n / 2)).map fun i => (Scone.Ip.ntohsAt data i).toNat) = 0xFFFF := by
  obtain ⟨hsum, hle⟩ := toNat_sum2Comp data (n := n / 2) (by omega)
  have hmul : n / 2 * 65535 ≤ 65535 * 65535 := Nat.mul_le_mul_right _ hn
  have hhigh : ((List.range (n / 2)).map fun i => (Scone.Ip.ntohsAt data i).toNat).sum / 2 ^ 16 <
      2 ^ 16 - 1 := by omega
  have hdigit : ∀ x ∈ (List.range (n / 2)).map fun i => (Scone.Ip.ntohsAt data i).toNat,
      x < 2 ^ 16 := by
    intro x hx
    obtain ⟨i, -, rfl⟩ := List.mem_map.mp hx
    exact BitVec.isLt _
  refine Iff.trans ?_ (OnesComplement.fold_sum_eq_max_iff (by decide) hdigit hhigh)
  rw [← hsum, ← toNat_sum1Comp, Scone.Ip.verifyChecksum]
  simp only [ite_eq_left_iff, Int.one_ne_zero, imp_false, not_not]
  exact BitVec.toNat_eq

theorem verifyChecksum_headerBytes (w : Word) :
    Scone.Ip.verifyChecksum (headerBytes w) 20 = 0 ↔ checksumGood w = true := by
  have hmap : ((List.range (20 / 2)).map fun i => (Scone.Ip.ntohsAt (headerBytes w) i).toNat) =
      halfwords w := by
    refine List.map_congr_left (fun j hj => ?_)
    rw [ntohsAt_headerBytes w (List.mem_range.mp hj)]
  rw [verifyChecksum_eq_zero_iff _ (by decide), hmap, checksumGood, decide_eq_true_iff]

/-- For every pacing, the entries of the two FIFOs are those of the packets accepted, one for each
in order; each is written within four cycles, and the verdict is that of the software. -/
theorem header_check (ins : List Input) :
    infos ins <+: (firstWords ins).map headerInfo ∧
      cksms ins <+: (firstWords ins).map checksumGood ∧
      (∀ later, 4 ≤ later.length → (firstWords ins).length ≤ (infos (ins ++ later)).length ∧
        (firstWords ins).length ≤ (cksms (ins ++ later)).length) ∧
      ∀ w, checksumGood w = true ↔ Scone.Ip.verifyChecksum (headerBytes w) 20 = 0 := by
  obtain ⟨p, hp, hinfo, hcksm⟩ := phase_run ins
  refine ⟨⟨_, hinfo⟩, ⟨_, hcksm⟩, fun later hlen => ?_,
    fun w => (verifyChecksum_headerBytes w).symm⟩
  obtain ⟨hi, hc⟩ := flush_run hp hlen
  have hni := congrArg List.length hinfo
  have hnc := congrArg List.length hcksm
  simp only [List.length_append, List.length_map] at hni hnc
  rw [infos, cksms, Machine.collect_append, Machine.collect_append, List.length_append,
    List.length_append]
  constructor
  · rw [← hni]
    exact Nat.add_le_add_left hi _
  · rw [← hnc]
    exact Nat.add_le_add_left hc _

end Osnt.HeaderCheck
