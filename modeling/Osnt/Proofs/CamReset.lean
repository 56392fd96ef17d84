import Osnt.Proofs.CamLut

/-! `unencoded_cam_lut_sm` from reset to `READY`: the rows are written one after the other, each
when the CAM has taken the one before, and `READY` is entered in a state that the results on
lookups start from. -/
namespace Osnt.CamLut
open Lib
variable {cw dw n : Nat} {p : Params cw dw} {s : Sm cw dw n}

/-- Rows below the count are written, or the CAM still has them to do. -/
structure Resetting (p : Params cw dw) (s : Sm cw dw n) : Prop where
  state : s.state = .reset
  count : s.resetCount ≤ n + 1
  camWe : s.resetCount = 0 → s.camWe = false
  pending : 0 < s.resetCount → ∀ w, s.camPending = some w → w.entry = p.resetEntry
  camWr : s.camWe = true → s.camWr.entry = p.resetEntry
  rows : ∀ r : Fin (n + 1), r.val < s.resetCount →
    s.camRows r = (p.resetEntry.cmpData, p.resetEntry.cmpDmask) ∨
      s.camPending = some ⟨r, p.resetEntry⟩ ∨ s.camWe = true ∧ s.camWr = ⟨r, p.resetEntry⟩
  lut : ∀ r : Fin (n + 1), r.val < s.resetCount → s.lutNext r = p.resetEntry

theorem Resetting.camWorks (h : Resetting p s) (hpos : 0 < s.resetCount) {w : Write cw dw n}
    (hw : s.camWorks = some w) : w.entry = p.resetEntry := by
  rw [Sm.camWorks] at hw
  split at hw
  · exact h.pending hpos w hw
  · split at hw
    next hwe =>
      rw [← Option.some.inj hw]
      exact h.camWr hwe
    next => cases hw

/-- A row that shows the reset values or is being written with them does so after the cycle. -/
theorem Resetting.rows_memories (h : Resetting p s) (i : Input cw dw n) {r : Fin (n + 1)}
    (hr : r.val < s.resetCount)
    (hrow : s.camRows r = (p.resetEntry.cmpData, p.resetEntry.cmpDmask) ∨
      s.camWorks = some ⟨r, p.resetEntry⟩) :
    (s.memories i).camRows r = (p.resetEntry.cmpData, p.resetEntry.cmpDmask) ∨
      (s.memories i).camPending = some ⟨r, p.resetEntry⟩ := by
  have hpend : (s.memories i).camPending = if i.camLands then none else s.camWorks := rfl
  cases hl : i.camLands with
  | false =>
    have hland : s.landing i = none := by simp [Sm.landing, hl]
    rw [camRows_none hland, hpend, hl]
    exact hrow
  | true =>
    left
    have hland : s.landing i = s.camWorks := by simp [Sm.landing, hl]
    cases hw : s.camWorks with
    | none =>
      rw [camRows_none (hland.trans hw)]
      rw [hw] at hrow
      simpa using hrow
    | some w =>
      have hentry := h.camWorks (Nat.zero_lt_of_lt hr) hw
      rw [camRows_some (hland.trans hw)]
      by_cases hrw : r = w.addr
      · rw [hrw, Function.update_self, hentry]
      · have hne : s.camWorks ≠ some ⟨r, p.resetEntry⟩ := by
          rw [hw]
          rintro ⟨⟩
          exact hrw rfl
        rw [Function.update_of_ne hrw]
        exact hrow.resolve_right hne

theorem Resetting.pending_memories (h : Resetting p s) (i : Input cw dw n)
    (hpos : 0 < s.resetCount) {w : Write cw dw n} (hw : (s.memories i).camPending = some w) :
    w.entry = p.resetEntry := by
  have hpend : (s.memories i).camPending = if i.camLands then none else s.camWorks := rfl
  rw [hpend] at hw
  cases hl : i.camLands with
  | true => simp [hl] at hw
  | false => exact h.camWorks hpos (by simpa [hl] using hw)

theorem Resetting.busy (h : Resetting p s) {i : Input cw dw n} (hb : s.busy i = true) :
    Resetting p (s.step p i) := by
  have hstep : s.step p i = s.memories i := by
    rw [Sm.step, h.state]
    exact if_pos hb
  have hlut : (s.memories i).lutNext = s.lutNext := by
    have hlut : (s.memories i).lut = s.lutNext := rfl
    have hwe : (s.memories i).camWe = s.camWe := rfl
    have hwr : (s.memories i).camWr = s.camWr := rfl
    rw [Sm.lutNext, hlut, hwe, hwr, Sm.lutNext]
    cases s.camWe <;> simp
  rw [hstep]
  refine ⟨h.state, h.count, h.camWe, fun hpos w hw => h.pending_memories i hpos hw, h.camWr, ?_, ?_⟩
  · intro r hr
    rcases h.rows r hr with hrow | hp | hwr
    · exact (h.rows_memories i hr (.inl hrow)).imp_right .inl
    · have hw : s.camWorks = some ⟨r, p.resetEntry⟩ := by
        rw [Sm.camWorks, hp]
        rfl
      exact (h.rows_memories i hr (.inr hw)).imp_right .inl
    · exact .inr (.inr hwr)
  · intro r hr
    rw [hlut]
    exact h.lut r hr

/-- When the CAM is not busy, it has what was still to do. -/
theorem Resetting.rows_idle (h : Resetting p s) {i : Input cw dw n} (hb : s.busy i = false)
    {r : Fin (n + 1)} (hr : r.val < s.resetCount) :
    (s.memories i).camRows r = (p.resetEntry.cmpData, p.resetEntry.cmpDmask) ∨
      (s.memories i).camPending = some ⟨r, p.resetEntry⟩ := by
  have hnone : s.camPending = none := by
    simpa using (Bool.or_eq_false_iff.mp hb).1
  refine h.rows_memories i hr ?_
  rw [Sm.camWorks]
  rcases h.rows r hr with hrow | hp | ⟨hwe, hwr⟩
  · exact .inl hrow
  · rw [hnone] at hp
    cases hp
  · simp [hnone, hwe, hwr]

theorem Resetting.next (h : Resetting p s) {i : Input cw dw n} (hb : s.busy i = false)
    (hc : s.resetCount ≠ n + 1) : Resetting p (s.step p i) := by
  have hstep : s.step p i = { s.memories i with
      resetCount := s.resetCount + 1
      camWe := true
      camWr := ⟨Fin.ofNat (n + 1) s.resetCount, p.resetEntry⟩ } := by
    rw [Sm.step, h.state]
    simp only [Sm.stepReset, hb, hc, if_false, Bool.false_eq_true]
  have hle := h.count
  have haddr : (Fin.ofNat (n + 1) s.resetCount).val = s.resetCount :=
    Nat.mod_eq_of_lt (by omega)
  rw [hstep]
  refine ⟨h.state, Nat.lt_of_le_of_ne h.count hc, fun h0 => absurd h0 (Nat.succ_ne_zero _), ?_,
    fun _ => rfl, ?_, ?_⟩
  · intro _ w hw
    by_cases h0 : s.resetCount = 0
    · have hnone : s.camPending = none := by
        simpa using (Bool.or_eq_false_iff.mp hb).1
      have hpend : (s.memories i).camPending = none := by
        simp [Sm.memories, Sm.camWorks, hnone, h.camWe h0]
      rw [hpend] at hw
      cases hw
    · exact h.pending_memories i (by omega) hw
  · intro r hr
    rcases Nat.lt_succ_iff_lt_or_eq.mp hr with hlt | heq
    · exact (h.rows_idle hb hlt).imp_right .inl
    · have hrow : Fin.ofNat (n + 1) s.resetCount = r := Fin.ext (haddr.trans heq.symm)
      rw [hrow]
      exact .inr (.inr ⟨rfl, rfl⟩)
  · intro r hr
    have hlut : (s.memories i).lut = s.lutNext := rfl
    rw [Sm.lutNext, if_pos rfl, hlut]
    by_cases heq : r = Fin.ofNat (n + 1) s.resetCount
    · rw [heq, Function.update_self]
    · rw [Function.update_of_ne heq]
      refine h.lut r (Nat.lt_of_le_of_ne (Nat.le_of_lt_succ hr) fun hval => heq ?_)
      exact Fin.ext (hval.trans haddr.symm)

/-- `READY` is entered with all rows written, up to the one the CAM is working on. -/
theorem Resetting.ready (h : Resetting p s) {i : Input cw dw n} (hb : s.busy i = false)
    (hc : s.resetCount = n + 1) : ∃ base, Ready (s.step p i) base := by
  have hstep : s.step p i = { s.memories i with state := .ready, camWe := false } := by
    rw [Sm.step, h.state]
    simp only [Sm.stepReset, hb, hc, if_false, if_true, Bool.false_eq_true]
  have hlt : ∀ r : Fin (n + 1), r.val < s.resetCount := fun r => by omega
  rw [hstep]
  refine ⟨fun r => ⟨((s.memories i).camRows r).2, ((s.memories i).camRows r).1,
    p.resetEntry.data⟩, rfl, fun _ => rfl, ?_⟩
  have hlut : (s.memories i).lut = fun _ => p.resetEntry := funext fun r => h.lut r (hlt r)
  rw [Sm.lutNext, if_neg Bool.false_ne_true, hlut, Sm.camWorks, if_neg Bool.false_ne_true]
  cases hw : (s.memories i).camPending with
  | none =>
    funext r
    have hrow := h.rows_idle hb (hlt r)
    rw [hw] at hrow
    simp [Table.apply, hrow.resolve_right (Option.some_ne_none _).symm]
  | some w =>
    have hentry : w.entry = p.resetEntry := h.pending_memories i (by omega) hw
    funext r
    by_cases hr : r = w.addr
    · simp [Table.apply, hr, hentry]
    · have hrow := h.rows_idle hb (hlt r)
      rw [hw] at hrow
      have hne : ¬ some w = some ⟨r, p.resetEntry⟩ := by
        rintro ⟨⟩
        exact hr rfl
      simp [Table.apply, Function.update_of_ne hr, hrow.resolve_right hne]

theorem Resetting.step (h : Resetting p s) (i : Input cw dw n) :
    Resetting p (s.step p i) ∨ ∃ base, Ready (s.step p i) base := by
  cases hb : s.busy i with
  | true => exact .inl (h.busy hb)
  | false =>
    by_cases hc : s.resetCount = n + 1
    · exact .inr (h.ready hb hc)
    · exact .inl (h.next hb hc)

theorem resetting_start (hst : s.state = .reset) (hc : s.resetCount = 0) (hwe : s.camWe = false) :
    Resetting p s := by
  have hnone : ∀ r : Fin (n + 1), ¬ r.val < s.resetCount := by
    simp [hc]
  refine ⟨hst, by omega, fun _ => hwe, ?_, ?_, ?_, ?_⟩
  · intro hpos
    omega
  · intro h
    rw [hwe] at h
    cases h
  · exact fun r hr => absurd hr (hnone r)
  · exact fun r hr => absurd hr (hnone r)

/-- From reset on, rows are written up to the count, or `READY` has been entered in a state that
the results on lookups start from. -/
theorem resetting_or_ready (hst : s.state = .reset) (hc : s.resetCount = 0) (hwe : s.camWe = false)
    (ins : List (Input cw dw n)) :
    Resetting p (after p s ins) ∨ ∃ past base, past <+: ins ∧ Ready (after p s past) base := by
  refine (machine p).run_invariant ins
    (fun past t => Resetting p t ∨ ∃ q base, q <+: past ∧ Ready (after p s q) base)
    (.inl (resetting_start hst hc hwe)) ?_
  intro past i h
  rcases h with h | ⟨q, base, hq, hready⟩
  · rcases h.step i with hnext | ⟨base, hready⟩
    · exact .inl hnext
    · refine .inr ⟨past ++ [i], base, List.prefix_rfl, ?_⟩
      rw [after, Machine.run_concat]
      exact hready
  · exact .inr ⟨q, base, hq.trans (List.prefix_append _ _), hready⟩

end Osnt.CamLut
