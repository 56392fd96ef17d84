import Osnt.SwitchLookup
import Osnt.Proofs.Fifo

/-! Packets and lookup results of the switch: they stay paired as long as `dst_port_fifo` is not
written while full, and when that is. -/
namespace Osnt.SwitchLookup
open Lib

@[simp] theorem withPorts_tlast (w : Word) (ports : BitVec 8) :
    (withPorts w ports).tlast = w.tlast := rfl

/-- A result for each packet of the first stream splits the stamps. -/
theorem stamp_append (first : Bool) (ws vs : List Word) (ps qs : List (BitVec 8))
    (h : ps.length = (openers Word.tlast first ws).length) :
    stamp first (ws ++ vs) (ps ++ qs) =
      stamp first ws ps ++ stamp (opens Word.tlast first ws) vs qs := by
  induction ws generalizing first ps with
  | nil =>
    obtain rfl : ps = [] := List.length_eq_zero_iff.mp h
    cases first <;> rfl
  | cons w ws ih =>
    cases first with
    | false =>
      rw [List.cons_append, stamp, stamp, ih w.tlast ps h]
      rfl
    | true =>
      cases ps with
      | nil => simp [openers] at h
      | cons p ps =>
        have hlen : ps.length = (openers Word.tlast w.tlast ws).length := by
          simpa [openers] using h
        rw [List.cons_append, List.cons_append, stamp, stamp, ih w.tlast ps hlen]
        rfl

theorem openers_stamp (first : Bool) (ws : List Word) (ps : List (BitVec 8))
    (h : ps.length = (openers Word.tlast first ws).length) :
    (openers Word.tlast first (stamp first ws ps)).length = ps.length := by
  induction ws generalizing first ps with
  | nil =>
    obtain rfl : ps = [] := List.length_eq_zero_iff.mp h
    cases first <;> rfl
  | cons w ws ih =>
    cases first with
    | false => exact ih w.tlast ps h
    | true =>
      cases ps with
      | nil => simp [openers] at h
      | cons p ps =>
        have hlen : ps.length = (openers Word.tlast w.tlast ws).length := by
          simpa [openers] using h
        have hnext := ih w.tlast ps hlen
        rw [stamp, openers, withPorts_tlast, if_pos rfl, List.length_append, hnext]
        exact Nat.add_comm 1 ps.length

section Step
variable (s : Sys) (i : Input)

theorem doutValid_of_inRd {s : Sys} {i : Input} (h : s.inRd i = true) :
    s.inputFifo.doutValid = true := by
  simp only [Sys.inRd, Sys.mValid, FallthroughFifo.empty, Bool.and_eq_true, Bool.not_not] at h
  exact h.2.1

/-- A packet begins only if `dst_port_fifo` shows a result. -/
theorem doutValid_of_dstPortRd {s : Sys} {i : Input} (h : s.dstPortRd i = true) :
    s.dstPortFifo.doutValid = true := by
  simp only [Sys.dstPortRd, Sys.inRd, Sys.mValid, Bool.and_eq_true, beq_iff_eq] at h
  obtain ⟨hw, -, -, hs⟩ := h
  simpa [Sys.sendPacket, hw, FallthroughFifo.empty] using hs

theorem inRd_and_valid : (s.inRd i && s.inputFifo.doutValid) = s.inRd i := by
  cases hrd : s.inRd i with
  | false => rfl
  | true => rw [doutValid_of_inRd hrd, Bool.and_self]

theorem dstPortRd_and_valid : (s.dstPortRd i && s.dstPortFifo.doutValid) = s.dstPortRd i := by
  cases hrd : s.dstPortRd i with
  | false => rfl
  | true => rw [doutValid_of_dstPortRd hrd, Bool.and_self]

/-- The lookups under way and the one issued, less the one that returns. -/
theorem lookups_balance : s.lookups.filterMap id ++ (s.issued i).toList =
    (s.lookupDone i).toList ++ (s.step i).lookups.filterMap id := by
  have hsplit : s.lookups.filterMap id ++ (s.issued i).toList =
      (s.lookups ++ [s.issued i]).filterMap id := by
    rw [List.filterMap_append]
    cases s.issued i <;> rfl
  rw [hsplit, Sys.lookupDone, Sys.step]
  cases hl : s.lookups ++ [s.issued i] with
  | nil => simp at hl
  | cons o os => cases o <;> rfl

/-- Whether a packet begins with the word taken in a cycle. -/
inductive Moves : Prop
  | rests (rd : s.inRd i = false)
  | begins (rd : s.inRd i = true) (state : s.state = .wait)
  | goesOn (rd : s.inRd i = true) (state : s.state = .send)

theorem moves : Moves s i := by
  cases hrd : s.inRd i with
  | false => exact .rests hrd
  | true =>
    cases hst : s.state with
    | wait => exact .begins hrd hst
    | send => exact .goesOn hrd hst

end Step

/-- What has left and what is inside after `past`: the words `raw` have left `input_fifo`, the
results `used` have left `dst_port_fifo`. -/
structure Synced (latency : Nat) (past : List Input) (raw : List Word) (used : List (BitVec 8)) :
    Prop where
  words : (after latency past).inputFifo.Sound
  wordsLeft : accepted latency past = raw ++ (after latency past).inputFifo.contents
  ports : (after latency past).dstPortFifo.Sound
  portsLeft : results latency past = used ++ (after latency past).dstPortFifo.contents
  underWay : asked latency past =
    results latency past ++ (after latency past).lookups.filterMap id
  state : (after latency past).state = if opens Word.tlast true raw then .wait else .send
  each : used.length = (openers Word.tlast true raw).length
  outputs : outputs latency past = stamp true raw used
  packed : (after latency past).dstPortFifo.Packed
    (decide (begun latency past.dropLast < begun latency past))

section Runs
variable {latency : Nat} {past : List Input}

theorem synced_reset : Synced latency [] [] [] := by
  have hcw : (reset latency).inputFifo.contents = [] := FallthroughFifo.contents_reset _
  have hcp : (reset latency).dstPortFifo.contents = [] := FallthroughFifo.contents_reset _
  refine ⟨FallthroughFifo.sound_reset _, hcw.symm, FallthroughFifo.sound_reset _, hcp.symm, ?_, rfl,
    rfl, rfl, ?_⟩
  · simp [asked, results, after, reset]
  · intro hdeep
    have hzero : (after latency []).dstPortFifo.fifo.depth.toNat = 0 := rfl
    omega

/-- The packets begun on the output are those whose result has been used. -/
theorem Synced.begun_eq {raw : List Word} {used : List (BitVec 8)}
    (h : Synced latency past raw used) : begun latency past = used.length := by
  rw [begun, h.outputs, openers_stamp true raw used h.each]

theorem after_concat (i : Input) : after latency (past ++ [i]) = (after latency past).step i :=
  Machine.run_concat _ _ _ _

/-- What a cycle does to the two FIFOs and the lookups, whatever leaves. -/
theorem Synced.flow {raw : List Word} {used : List (BitVec 8)} (h : Synced latency past raw used)
    {i : Input} (hw : ((after latency past).lookupDone i).isSome = true →
      (after latency past).dstPortFifo.full = false) :
    (after latency (past ++ [i])).inputFifo.Sound ∧
      (after latency (past ++ [i])).dstPortFifo.Sound ∧
      accepted latency (past ++ [i]) = raw ++ (if (after latency past).inRd i then
        [(after latency past).inputFifo.dout] else []) ++
          (after latency (past ++ [i])).inputFifo.contents ∧
      results latency (past ++ [i]) = used ++ (if (after latency past).dstPortRd i then
        [(after latency past).dstPortFifo.dout] else []) ++
          (after latency (past ++ [i])).dstPortFifo.contents ∧
      asked latency (past ++ [i]) = results latency (past ++ [i]) ++
        (after latency (past ++ [i])).lookups.filterMap id := by
  have hin : (after latency past).accepts i = true →
      (after latency past).inputFifo.full = false := by
    intro hacc
    simp only [Sys.accepts, Bool.and_eq_true, Bool.not_eq_true'] at hacc
    exact FallthroughFifo.full_of_nearlyFull hacc.2
  have hbw := h.words.balance ((after latency past).accepts i) ((after latency past).inRd i)
    i.word hin
  have hbp := h.ports.balance ((after latency past).lookupDone i).isSome
    ((after latency past).dstPortRd i) (((after latency past).lookupDone i).getD 0) hw
  rw [inRd_and_valid] at hbw
  rw [dstPortRd_and_valid] at hbp
  have hdone : (if ((after latency past).lookupDone i).isSome = true then
      [((after latency past).lookupDone i).getD 0] else []) =
      ((after latency past).lookupDone i).toList := by
    cases (after latency past).lookupDone i <;> rfl
  rw [hdone] at hbp
  have hacc : accepted latency (past ++ [i]) =
      accepted latency past ++ (after latency past).accepted i :=
    Machine.collect_concat _ _ _ _ _
  have hres : results latency (past ++ [i]) =
      results latency past ++ ((after latency past).lookupDone i).toList :=
    Machine.collect_concat _ _ _ _ _
  have hask : asked latency (past ++ [i]) =
      asked latency past ++ ((after latency past).issued i).toList :=
    Machine.collect_concat _ _ _ _ _
  rw [after_concat]
  refine ⟨h.words.step _ _ _ hin, h.ports.step _ _ _ hw, ?_, ?_, ?_⟩
  · rw [hacc, h.wordsLeft, List.append_assoc, List.append_assoc]
    exact congrArg (raw ++ ·) hbw.symm
  · rw [hres, h.portsLeft, List.append_assoc, List.append_assoc]
    exact congrArg (used ++ ·) hbp.symm
  · rw [hask, hres, h.underWay, List.append_assoc, List.append_assoc, lookups_balance]

/-- The state and the output after a cycle in which `word` leaves `input_fifo` and `ports` leave
`dst_port_fifo`. -/
theorem Synced.leave {raw : List Word} {used : List (BitVec 8)} (h : Synced latency past raw used)
    (i : Input) :
    let s := after latency past
    let raw' := raw ++ if s.inRd i then [s.inputFifo.dout] else []
    let used' := used ++ if s.dstPortRd i then [s.dstPortFifo.dout] else []
    (s.step i).state = (if opens Word.tlast true raw' then .wait else .send) ∧
      used'.length = (openers Word.tlast true raw').length ∧
      SwitchLookup.outputs latency (past ++ [i]) = stamp true raw' used' := by
  intro s raw' used'
  have hout : SwitchLookup.outputs latency (past ++ [i]) =
      SwitchLookup.outputs latency past ++ s.output i := Machine.collect_concat _ _ _ _ _
  have hst : s.state = if opens Word.tlast true raw then .wait else .send := h.state
  rw [hout, h.outputs]
  cases moves s i with
  | rests rd =>
    have hport : s.dstPortRd i = false := by simp [Sys.dstPortRd, rd]
    simp only [raw', used', rd, hport, Sys.output, Sys.step, Bool.false_eq_true, if_false,
      List.append_nil]
    exact ⟨hst, h.each, trivial⟩
  | begins rd state =>
    have hport : s.dstPortRd i = true := by simp [Sys.dstPortRd, rd, state]
    have hopen : opens Word.tlast true raw = true := by
      by_contra hne
      rw [state, if_neg hne] at hst
      cases hst
    simp only [raw', used', rd, hport, Sys.output, Sys.step, if_true, opens_concat, openers_concat,
      hopen, List.length_append, h.each, List.length_singleton, true_and]
    rw [stamp_append true raw _ used _ h.each, hopen, Sys.mWord, state]
    rfl
  | goesOn rd state =>
    have hport : s.dstPortRd i = false := by simp [Sys.dstPortRd, state]
    have hopen : opens Word.tlast true raw = false := by
      by_contra hne
      rw [state, if_pos (eq_true_of_ne_false hne)] at hst
      cases hst
    simp only [raw', used', rd, hport, Sys.output, Sys.step, if_true, opens_concat, openers_concat,
      hopen, Bool.false_eq_true, if_false, List.append_nil, h.each, true_and]
    rw [← List.append_nil used, stamp_append true raw _ used [] h.each, hopen, List.append_nil,
      Sys.mWord, state]
    rfl

/-- A cycle in which `dst_port_fifo` is not written while full. -/
theorem Synced.step {raw : List Word} {used : List (BitVec 8)} (h : Synced latency past raw used)
    {i : Input} (hw : ((after latency past).lookupDone i).isSome = true →
      (after latency past).dstPortFifo.full = false) :
    ∃ raw' used', Synced latency (past ++ [i]) raw' used' := by
  obtain ⟨hwords, hports, hacc, hres, hask⟩ := h.flow hw
  obtain ⟨hstate, heach, hout⟩ := h.leave i
  have hpacked := h.packed.step h.ports ((after latency past).lookupDone i).isSome
    ((after latency past).dstPortRd i) (((after latency past).lookupDone i).getD 0) hw
  rw [dstPortRd_and_valid] at hpacked
  have hbegun : begun latency (past ++ [i]) = (used ++ if (after latency past).dstPortRd i then
      [(after latency past).dstPortFifo.dout] else []).length := by
    rw [begun, hout, openers_stamp true _ _ heach]
  refine ⟨_, _, hwords, hacc, hports, hres, hask, ?_, heach, hout, ?_⟩
  · rw [after_concat]
    exact hstate
  · have hpop : decide (used.length < (used ++ if (after latency past).dstPortRd i then
        [(after latency past).dstPortFifo.dout] else []).length) =
        (after latency past).dstPortRd i := by
      cases (after latency past).dstPortRd i <;> simp
    rw [List.dropLast_concat, hbegun, h.begun_eq, after_concat, hpop]
    exact hpacked

theorem synced_run {ins : List Input} (h : NeverFull latency ins) :
    ∃ raw used, Synced latency ins raw used := by
  induction ins using List.reverseRecOn with
  | nil => exact ⟨[], [], synced_reset⟩
  | append_singleton past i ih =>
    obtain ⟨hpast, hnow⟩ := machine.along_concat.mp h
    obtain ⟨raw, used, hs⟩ := ih hpast
    exact hs.step hnow

/-- Whether `dst_port_fifo` is full, from the results returned and the packets begun. -/
theorem Synced.full_iff {raw : List Word} {used : List (BitVec 8)}
    (h : Synced latency past raw used) : (after latency past).dstPortFifo.full = true ↔
      ¬ (results latency past).length +
        (if begun latency past.dropLast < begun latency past then 1 else 0) ≤
          begun latency past + 6 := by
  have hfull := h.packed.full_iff h.ports (by decide)
  have hlen := congrArg List.length h.portsLeft
  rw [List.length_append, ← h.begun_eq] at hlen
  rw [hfull]
  split
  · rename_i hlt
    rw [decide_eq_true hlt, Bool.toNat_true]
    omega
  · rename_i hge
    rw [decide_eq_false hge, Bool.toNat_false]
    omega

theorem neverFull_iff_roomy (ins : List Input) : NeverFull latency ins ↔ Roomy latency ins := by
  induction ins using List.reverseRecOn with
  | nil =>
    refine ⟨fun _ past i hpre => ?_, fun _ => trivial⟩
    simp at hpre
  | append_singleton past i ih =>
    have hnow : NeverFull latency past →
        ((((after latency past).lookupDone i).isSome = true →
            (after latency past).dstPortFifo.full = false) ↔
          (((after latency past).lookupDone i).isSome = true →
            (results latency past).length +
              (if begun latency past.dropLast < begun latency past then 1 else 0) ≤
                begun latency past + 6)) := by
      intro hpast
      obtain ⟨raw, used, hs⟩ := synced_run hpast
      have hfull := hs.full_iff
      rw [← Bool.not_eq_true, hfull, Decidable.not_not]
    have hmore : Roomy latency (past ++ [i]) ↔ Roomy latency past ∧
        (((after latency past).lookupDone i).isSome = true → (results latency past).length +
          (if begun latency past.dropLast < begun latency past then 1 else 0) ≤
            begun latency past + 6) := by
      constructor
      · intro h
        exact ⟨fun before j hpre => h before j (hpre.trans (List.prefix_append _ _)),
          h past i List.prefix_rfl⟩
      · rintro ⟨hold, hlast⟩ before j hpre
        rcases List.prefix_concat_iff.mp hpre with heq | hpre
        · obtain ⟨rfl, hj⟩ := List.append_inj' heq rfl
          obtain rfl : j = i := by simpa using hj
          exact hlast
        · exact hold before j hpre
    rw [hmore, ← ih]
    constructor
    · intro h
      obtain ⟨hpast, hi⟩ := machine.along_concat.mp h
      exact ⟨hpast, (hnow hpast).mp hi⟩
    · rintro ⟨hpast, hi⟩
      exact machine.along_concat.mpr ⟨hpast, (hnow hpast).mpr hi⟩

/-- For every stream, spacing and back-pressure: each packet leaves with the ports of its own lookup
and no result finds `dst_port_fifo` full exactly if there is room whenever a result returns. -/
theorem paired_iff_roomy (latency : Nat) (ins : List Input) :
    (NeverFull latency ins ∧ Paired latency ins) ↔ Roomy latency ins := by
  constructor
  · rintro ⟨hfull, -⟩
    exact (neverFull_iff_roomy ins).mp hfull
  · intro h
    have hfull := (neverFull_iff_roomy ins).mpr h
    obtain ⟨raw, used, hs⟩ := synced_run hfull
    refine ⟨hfull, ?_⟩
    rw [Paired, hs.outputs, hs.wordsLeft, hs.underWay, hs.portsLeft, List.append_assoc,
      stamp_append true raw _ used _ hs.each]
    exact List.prefix_append _ _

end Runs

def sampleWord (n : Nat) : Word := ⟨BitVec.ofNat 512 n, 1, 0, true⟩

/-- The packets, with ports 1 to 8; six cycles after the last one the output begins to take them. -/
def stalled : List Input :=
  (List.range 8).map (fun n => ⟨true, sampleWord n, BitVec.ofNat 8 (n + 1), false⟩) ++
    List.replicate 6 ⟨false, sampleWord 0, 0, false⟩ ++
    List.replicate 4 ⟨false, sampleWord 0, 0, true⟩

/-- The eighth result is written to the full FIFO, and packets leave with the ports of others. -/
theorem results_lost : ¬ (NeverFull 3 stalled ∧ Paired 3 stalled) ∧ ¬ Paired 3 stalled := by
  have hlost : ¬ Paired 3 stalled := by
    unfold Paired
    decide +kernel
  exact ⟨fun h => hlost h.2, hlost⟩

end Osnt.SwitchLookup
