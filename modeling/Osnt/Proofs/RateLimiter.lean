import Mathlib.Algebra.Group.Nat.Defs
import Osnt.Lib.Framing
import Osnt.RateLimiter
import Osnt.Proofs.Fifo

namespace Osnt.RateLimiter
open Lib

/-- Inputs under which the stage limits to one rate. -/
def Limiting (r : BitVec 32) (i : Input) : Prop :=
  i.swRst = false ∧ i.rateLimEn = true ∧ i.rateInBits = r

/-- A cycle with nothing at the input and a ready output. -/
def draining (r : BitVec 32) : Input := ⟨false, true, r, false, default, true⟩

/-- Every packet's gap fits the counter. -/
def Countable (r : BitVec 32) (ws : List Word) : Prop :=
  ∀ pkt ∈ (frames Word.tlast ws).closed, pkt.length * 2 ^ r.toNat < 2 ^ 64

theorem Countable.of_append {r : BitVec 32} {ws vs : List Word} (h : Countable r (ws ++ vs)) :
    Countable r ws :=
  fun pkt hp => h pkt ((closed_append Word.tlast ws vs).subset hp)

namespace Limiter
variable {r : BitVec 32}

/-- Between packets, with the gap behind the last one over. -/
def Idle (s : Limiter) : Prop := s.state = .waitForPkt ∧ s.timerTicks = 0

/-- A cycle hands over the word on the FIFO's output or nothing. -/
theorem comb_cases (s : Limiter) {i : Input} (h : Limiting r i) :
    (s.state = .waitForPkt ∧ s.handed i = [] ∧ (s.comb i).rdEn = false ∧
        (s.comb i).mTvalid = s.fifo.doutValid ∧ (s.comb i).timerTicks = s.timerTicks ∧
        (s.comb i).state = .waitForPkt) ∨
      (s.state = .waitForPkt ∧ s.handed i = [s.fifo.dout] ∧ (s.comb i).rdEn = true ∧
        (s.comb i).mTvalid = s.fifo.doutValid ∧ s.fifo.doutValid = true ∧
        ((s.fifo.dout.tlast = false ∧ (s.comb i).timerTicks = s.timerTicks + 1 ∧
            (s.comb i).state = .waitForPkt) ∨
          (s.fifo.dout.tlast = true ∧ (s.comb i).timerTicks = (s.timerTicks + 1) <<< r ∧
            (s.comb i).state = .waitForIpg))) ∨
      (s.state = .waitForIpg ∧ s.handed i = [] ∧ (s.comb i).rdEn = false ∧
        (s.comb i).mTvalid = false ∧
        ((1 < s.timerTicks.toNat ∧ (s.comb i).timerTicks = s.timerTicks - 1 ∧
            (s.comb i).state = .waitForIpg) ∨
          (s.timerTicks.toNat ≤ 1 ∧ (s.comb i).timerTicks = 0 ∧
            (s.comb i).state = .waitForPkt))) := by
  obtain ⟨_, hen, rfl⟩ := h
  cases hs : s.state with
  | waitForPkt =>
    cases hd : s.fifo.doutValid <;> cases ht : i.tready <;> cases hl : s.fifo.dout.tlast <;>
      simp [handed, comb, hen, hs, FallthroughFifo.empty, hd, ht, hl]
    · rw [← hl]
  | waitForIpg =>
    by_cases hu : 1 < s.timerTicks.toNat
    · simp [handed, comb, hen, hs, BitVec.ult, hu]
    · simp [handed, comb, hen, hs, BitVec.ult, hu]
      omega

/-- The input side does not depend on what the output side does. -/
theorem comb_input (s : Limiter) {i : Input} (h : Limiting r i) :
    (s.comb i).sTready = !s.fifo.nearlyFull ∧
      (s.comb i).wrEn = (!s.fifo.nearlyFull && i.tvalid) := by
  obtain ⟨_, hen, _⟩ := h
  cases hs : s.state with
  | waitForPkt =>
    cases hd : s.fifo.doutValid <;> cases ht : i.tready <;> cases hl : s.fifo.dout.tlast <;>
      simp [comb, hen, hs, FallthroughFifo.empty, hd, ht, hl]
  | waitForIpg =>
    by_cases hu : 1 < s.timerTicks.toNat <;> simp [comb, hen, hs, BitVec.ult, hu]

theorem step_of_limiting (s : Limiter) {i : Input} (h : Limiting r i) :
    machine.step s i = ⟨s.fifo.step (s.comb i).wrEn i.word (s.comb i).rdEn, (s.comb i).state,
      (s.comb i).timerTicks⟩ := by
  simp [machine, step, h.1]

/-- What a cycle does to the FIFO: a write when there is room, a read when a word is handed
over. -/
theorem fifo_step (s : Limiter) {i : Input} (h : Limiting r i) :
    (machine.step s i).fifo = s.fifo.step (s.comb i).wrEn i.word (s.comb i).rdEn :=
  congrArg fifo (s.step_of_limiting h)

theorem accepted_eq (s : Limiter) {i : Input} (h : Limiting r i) :
    s.accepted i = if (s.comb i).wrEn then [i.word] else [] := by
  rw [accepted, (s.comb_input h).1, (s.comb_input h).2, Bool.and_comm]

theorem full_of_wrEn (s : Limiter) {i : Input} (h : Limiting r i)
    (hw : (s.comb i).wrEn = true) : s.fifo.full = false := by
  rw [(s.comb_input h).2, Bool.and_eq_true, Bool.not_eq_true'] at hw
  exact FallthroughFifo.full_of_nearlyFull hw.1

theorem handed_eq (s : Limiter) {i : Input} (h : Limiting r i) :
    s.handed i = if (s.comb i).rdEn && s.fifo.doutValid then [s.fifo.dout] else [] := by
  rcases s.comb_cases h with ⟨_, hh, hr, _⟩ | ⟨_, hh, hr, _, hd, _⟩ | ⟨_, hh, hr, _⟩
  · simp [hh, hr]
  · simp [hh, hr, hd]
  · simp [hh, hr]

/-- Words taken from the source have left the stage or wait in its FIFO. -/
theorem flow (s : Limiter) {ins : List Input} (h : ∀ i ∈ ins, Limiting r i) :
    (machine.run s.reset ins).fifo.Sound ∧
      machine.collect accepted s.reset ins =
        machine.collect handed s.reset ins ++ (machine.run s.reset ins).fifo.contents := by
  have hflow := FallthroughFifo.flow_run machine (Limiting r) (fun t => t.fifo)
    (fun t i => (t.comb i).wrEn) (fun t i => (t.comb i).rdEn) (fun _ i => i.word)
    (fun t i hi => t.fifo_step hi) (fun t i hi => t.full_of_wrEn hi)
    (s := s.reset) (FallthroughFifo.sound_reset _) h
  have hnil : s.reset.fifo.contents = [] := FallthroughFifo.contents_reset _
  rw [hnil, List.nil_append] at hflow
  rw [machine.collect_congr (fun t i hi => t.accepted_eq (h i hi)),
    machine.collect_congr (fun t i hi => t.handed_eq (h i hi))]
  exact hflow

/-- How the counter stands to the words handed over since the stage was idle. -/
structure Counted (ws : List Word) (t : Limiter) : Prop where
  counting : t.state = .waitForPkt →
    t.timerTicks = BitVec.ofNat 64 (frames Word.tlast ws).rest.length
  resting : t.state = .waitForIpg → (frames Word.tlast ws).rest = []

/-- The cycles the words handed over have taken, with what is left of the gap. -/
structure Paced (r : BitVec 32) (cycles : Nat) (ws : List Word) (t : Limiter) : Prop where
  counting : t.state = .waitForPkt →
    (1 + 2 ^ r.toNat) * (frames Word.tlast ws).closed.flatten.length +
      (frames Word.tlast ws).rest.length ≤ cycles
  resting : t.state = .waitForIpg →
    (1 + 2 ^ r.toNat) * (frames Word.tlast ws).closed.flatten.length ≤
      cycles + t.timerTicks.toNat

theorem shifted_toNat {n : Nat} (h : n * 2 ^ r.toNat < 2 ^ 64) :
    (BitVec.ofNat 64 n <<< r).toNat = n * 2 ^ r.toNat := by
  have hn : n < 2 ^ 64 := Nat.lt_of_le_of_lt (Nat.le_mul_of_pos_right _ (Nat.two_pow_pos _)) h
  rw [BitVec.shiftLeft_eq', BitVec.toNat_shiftLeft, BitVec.toNat_ofNat, Nat.mod_eq_of_lt hn,
    Nat.shiftLeft_eq, Nat.mod_eq_of_lt h]

theorem ofNat_succ (n : Nat) : BitVec.ofNat 64 n + 1 = BitVec.ofNat 64 (n + 1) := by
  rw [BitVec.ofNat_add]
  rfl

theorem pred_toNat {x : BitVec 64} (h : 1 < x.toNat) : (x - 1).toNat = x.toNat - 1 := by
  have hle : 1 ≤ x := by
    rw [BitVec.le_def]
    exact h.le
  rw [BitVec.toNat_sub_of_le hle]
  rfl

theorem Counted.step {t : Limiter} {ws : List Word} (h : Counted ws t) {i : Input}
    (hi : Limiting r i) : Counted (ws ++ t.handed i) (machine.step t i) := by
  rw [step_of_limiting _ hi]
  rcases t.comb_cases hi with ⟨hs, hh, _, _, ht, hst⟩ | ⟨hs, hh, _, _, _, hcase⟩ |
    ⟨hs, hh, _, _, hcase⟩
  · rw [hh, List.append_nil]
    exact ⟨fun _ => ht.trans (h.counting hs), by simp [hst]⟩
  · rw [hh]
    rcases hcase with ⟨hl, ht, hst⟩ | ⟨hl, ht, hst⟩
    · refine ⟨fun _ => ?_, by simp [hst]⟩
      rw [frames_concat, Frames.push_inner Word.tlast hl, List.length_append]
      exact ht.trans (by rw [h.counting hs, ofNat_succ]; rfl)
    · refine ⟨by simp [hst], fun _ => ?_⟩
      rw [frames_concat, Frames.push_last Word.tlast hl]
  · have hrest := h.resting hs
    rw [hh, List.append_nil]
    rcases hcase with ⟨_, ht, hst⟩ | ⟨_, ht, hst⟩
    · exact ⟨by simp [hst], fun _ => hrest⟩
    · exact ⟨fun _ => by rw [hrest]; exact ht, by simp [hst]⟩

/-- From an idle stage on, the counter holds the words of the open packet until the gap. -/
theorem counted_run {s : Limiter} (hs : s.Idle) {ins : List Input}
    (h : ∀ i ∈ ins, Limiting r i) :
    Counted (machine.collect handed s ins) (machine.run s ins) := by
  refine machine.run_keeps (machine.along_of_forall h)
    (fun past t => Counted (machine.collect handed s past) t) ⟨fun _ => hs.2, fun _ => rfl⟩ ?_
  intro past i hp hi
  rw [Machine.collect_concat]
  exact hp.step hi

/-- At the end of a packet the gap is as long as the packet shifted by the rate. -/
theorem Counted.closing {t : Limiter} {ws : List Word} (h : Counted ws t) {i : Input}
    (hi : Limiting r i) {w : Word} (hw : t.handed i = [w]) (hl : w.tlast = true)
    (hn : ((frames Word.tlast ws).rest ++ [w]).length * 2 ^ r.toNat < 2 ^ 64) :
    (machine.step t i).state = .waitForIpg ∧ (machine.step t i).timerTicks.toNat =
      ((frames Word.tlast ws).rest ++ [w]).length * 2 ^ r.toNat := by
  rw [step_of_limiting _ hi]
  rcases t.comb_cases hi with ⟨_, hh, _⟩ | ⟨hs, hh, _, _, _, hcase⟩ | ⟨_, hh, _⟩
  · rw [hw] at hh
    cases hh
  · rw [hw] at hh
    cases hh
    rcases hcase with ⟨hl', _⟩ | ⟨_, ht, hst⟩
    · rw [hl] at hl'
      cases hl'
    · refine ⟨hst, ?_⟩
      rw [List.length_append, List.length_singleton] at hn ⊢
      rw [ht, h.counting hs, ofNat_succ, shifted_toNat hn]
  · rw [hw] at hh
    cases hh

theorem Paced.step {t : Limiter} {cycles : Nat} {ws : List Word} (h : Paced r cycles ws t)
    (hcount : Counted ws t) {i : Input} (hi : Limiting r i)
    (hc : Countable r (ws ++ t.handed i)) :
    Paced r (cycles + 1) (ws ++ t.handed i) (machine.step t i) := by
  rw [step_of_limiting _ hi]
  rcases t.comb_cases hi with ⟨hs, hh, _, _, ht, hst⟩ | ⟨hs, hh, _, _, _, hcase⟩ |
    ⟨hs, hh, _, _, hcase⟩
  · rw [hh, List.append_nil]
    exact ⟨fun _ => Nat.le_succ_of_le (h.counting hs), by simp [hst]⟩
  · have hle := h.counting hs
    rw [hh] at hc ⊢
    rcases hcase with ⟨hl, ht, hst⟩ | ⟨hl, ht, hst⟩
    · refine ⟨fun _ => ?_, by simp [hst]⟩
      rw [frames_concat, Frames.push_inner Word.tlast hl, List.length_append,
        List.length_singleton]
      exact Nat.succ_le_succ hle
    · refine ⟨by simp [hst], fun _ => ?_⟩
      have hpkt := hc ((frames Word.tlast ws).rest ++ [t.fifo.dout])
        (by rw [frames_concat, Frames.push_last Word.tlast hl]; simp)
      rw [List.length_append, List.length_singleton] at hpkt
      have hlast : (1 + 2 ^ r.toNat) * ((frames Word.tlast ws).rest.length + 1) =
          (frames Word.tlast ws).rest.length + 1 +
            ((frames Word.tlast ws).rest.length + 1) * 2 ^ r.toNat := by
        rw [Nat.add_mul, Nat.one_mul, Nat.mul_comm (2 ^ r.toNat)]
      rw [frames_concat, Frames.push_last Word.tlast hl]
      simp only [ht, hcount.counting hs, ofNat_succ, shifted_toNat hpkt, List.flatten_append,
        List.flatten_singleton, List.length_append, List.length_singleton]
      rw [Nat.mul_add, hlast]
      omega
  · have hle := h.resting hs
    rw [hh, List.append_nil]
    rcases hcase with ⟨hgt, ht, hst⟩ | ⟨hle1, ht, hst⟩
    · refine ⟨by simp [hst], fun _ => ?_⟩
      simp only [ht, pred_toNat hgt]
      omega
    · refine ⟨fun _ => ?_, by simp [hst]⟩
      rw [hcount.resting hs, List.length_nil]
      omega

/-- From an idle stage on, the gaps are paid for in cycles. -/
theorem paced_run {s : Limiter} (hs : s.Idle) {ins : List Input} (h : ∀ i ∈ ins, Limiting r i)
    (hc : Countable r (machine.collect handed s ins)) :
    Paced r ins.length (machine.collect handed s ins) (machine.run s ins) := by
  induction ins using List.reverseRecOn with
  | nil => exact ⟨fun _ => by simp, fun _ => by simp⟩
  | append_singleton past i ih =>
    have hpast : ∀ j ∈ past, Limiting r j := fun j hj => h j (by simp [hj])
    rw [Machine.collect_concat] at hc
    rw [Machine.collect_concat, Machine.run_concat, List.length_append, List.length_singleton]
    exact (ih hpast hc.of_append).step (counted_run hs hpast) (h i (by simp)) hc

/-- In the gap the counter runs down, with nothing offered, until one cycle is left. -/
theorem resting_step {s : Limiter} (hs : s.state = .waitForIpg) {i : Input}
    (h : Limiting r i) :
    (s.comb i).mTvalid = false ∧
      (1 < s.timerTicks.toNat → (machine.step s i).state = .waitForIpg ∧
        (machine.step s i).timerTicks.toNat = s.timerTicks.toNat - 1) ∧
      (s.timerTicks.toNat ≤ 1 → (machine.step s i).Idle) := by
  rw [step_of_limiting _ h]
  rcases s.comb_cases h with ⟨hs', _⟩ | ⟨hs', _⟩ | ⟨_, _, _, hv, hcase⟩
  · rw [hs] at hs'
    cases hs'
  · rw [hs] at hs'
    cases hs'
  · refine ⟨hv, ?_, ?_⟩
    · intro hgt
      rcases hcase with ⟨_, ht, hnext⟩ | ⟨hle, _⟩
      · exact ⟨hnext, by rw [ht, pred_toNat hgt]⟩
      · omega
    · intro hle
      rcases hcase with ⟨hgt, _⟩ | ⟨_, ht, hnext⟩
      · omega
      · exact ⟨hnext, ht⟩

/-- Short of the counter's value the stage is in the gap. -/
theorem resting_run {s : Limiter} (hs : s.state = .waitForIpg) {ins : List Input}
    (h : ∀ i ∈ ins, Limiting r i) (hlt : ins.length < s.timerTicks.toNat) :
    (machine.run s ins).state = .waitForIpg ∧
      (machine.run s ins).timerTicks.toNat = s.timerTicks.toNat - ins.length := by
  induction ins using List.reverseRecOn with
  | nil => exact ⟨hs, rfl⟩
  | append_singleton past i ih =>
    rw [List.length_append, List.length_singleton] at hlt ⊢
    obtain ⟨hst, hti⟩ := ih (fun j hj => h j (by simp [hj])) (by omega)
    obtain ⟨_, hmore, _⟩ := resting_step hst (h i (by simp))
    obtain ⟨hnext, ht⟩ := hmore (by omega)
    rw [Machine.run_concat]
    exact ⟨hnext, by omega⟩

theorem rested_run {s : Limiter} (hs : s.state = .waitForIpg) (hpos : 0 < s.timerTicks.toNat)
    {ins : List Input} (h : ∀ i ∈ ins, Limiting r i) (hlen : ins.length = s.timerTicks.toNat) :
    (machine.run s ins).Idle := by
  rcases List.eq_nil_or_concat' ins with rfl | ⟨past, i, rfl⟩
  · rw [List.length_nil] at hlen
    omega
  · rw [List.length_append, List.length_singleton] at hlen
    obtain ⟨hst, hti⟩ := resting_run hs (fun j hj => h j (by simp [hj]))
      (show past.length < s.timerTicks.toNat by omega)
    rw [Machine.run_concat]
    exact (resting_step hst (h i (by simp))).2.2 (by omega)

/-- Between packets a word is offered as soon as the FIFO shows one. -/
theorem offers_of_idle {s : Limiter} (hs : s.Idle) {i : Input} (h : Limiting r i) :
    (s.comb i).mTvalid = !s.fifo.empty := by
  rw [FallthroughFifo.empty, Bool.not_not]
  rcases s.comb_cases h with ⟨_, _, _, hv, _⟩ | ⟨_, _, _, hv, _⟩ | ⟨hs', _⟩
  · exact hv
  · exact hv
  · rw [hs.1] at hs'
    cases hs'

theorem limiting_draining (r : BitVec 32) : Limiting r (draining r) := ⟨rfl, rfl, rfl⟩

theorem wrEn_draining (s : Limiter) (r : BitVec 32) : (s.comb (draining r)).wrEn = false := by
  rw [(s.comb_input (limiting_draining r)).2]
  exact Bool.and_false _

/-- What is left of the gap. -/
def gap (s : Limiter) : Nat := if s.state = .waitForIpg then s.timerTicks.toNat + 1 else 0

theorem gap_le (s : Limiter) : s.gap ≤ 2 ^ 64 := by
  have := s.timerTicks.isLt
  rw [gap]
  split <;> omega

/-- Falls in every cycle that drains the stage. -/
def rank (s : Limiter) : Nat := s.fifo.backlog * (2 ^ 64 + 1) + s.gap

theorem rank_lt {s t : Limiter} (h : t.fifo.backlog < s.fifo.backlog) : t.rank < s.rank := by
  have hg := t.gap_le
  have hm : (t.fifo.backlog + 1) * (2 ^ 64 + 1) ≤ s.fifo.backlog * (2 ^ 64 + 1) :=
    Nat.mul_le_mul_right _ h
  rw [Nat.add_mul, Nat.one_mul] at hm
  rw [rank, rank]
  omega

theorem rank_draining {s : Limiter} (h : s.fifo.Sound) (hne : s.fifo.contents ≠ []) :
    (machine.step s (draining r)).rank < s.rank := by
  have hstep := s.fifo_step (limiting_draining r)
  rw [wrEn_draining] at hstep
  rcases s.comb_cases (limiting_draining r) with ⟨_, hh, hr, hv, _⟩ | ⟨_, _, hr, _⟩ |
    ⟨hs, _, hr, _, _⟩
  · have hd : s.fifo.doutValid = false := by
      rw [handed, hv] at hh
      cases hd : s.fifo.doutValid with
      | false => rfl
      | true => simp [hd, draining] at hh
    refine rank_lt ?_
    rw [hstep, hr]
    exact (FallthroughFifo.backlog_step h false _ (by simp [hd])).2 hne
  · refine rank_lt ?_
    rw [hstep, hr]
    exact (FallthroughFifo.backlog_step h true _ (fun _ => rfl)).2 hne
  · obtain ⟨_, hmore, hdone⟩ := resting_step hs (limiting_draining r)
    have hle : (machine.step s (draining r)).fifo.backlog ≤ s.fifo.backlog := by
      rw [hstep, hr]
      exact FallthroughFifo.backlog_hold h _
    have hgap : (machine.step s (draining r)).gap < s.gap := by
      rw [gap, gap, if_pos hs]
      by_cases hgt : 1 < s.timerTicks.toNat
      · rw [if_pos (hmore hgt).1, (hmore hgt).2]
        omega
      · rw [if_neg (by rw [(hdone (Nat.le_of_not_lt hgt)).1]; decide)]
        exact Nat.succ_pos _
    have hm := Nat.mul_le_mul_right (2 ^ 64 + 1) hle
    rw [rank, rank]
    omega

/-- With nothing more coming in, a ready output gets every word. -/
theorem exists_drained {s : Limiter} (h : s.fifo.Sound) (r : BitVec 32) :
    ∃ k, (machine.run s (List.replicate k (draining r))).fifo.contents = [] := by
  refine machine.run_reaches (draining r) (fun t => t.fifo.Sound) (fun t => t.fifo.contents = [])
    rank ?_ h
  intro t ht hne
  refine .inr ⟨?_, rank_draining ht hne⟩
  rw [t.fifo_step (limiting_draining r), wrEn_draining]
  exact ht.step _ _ _ (by simp)

theorem accepted_draining (s : Limiter) (r : BitVec 32) (k : Nat) :
    machine.collect accepted s (List.replicate k (draining r)) = [] := by
  induction k generalizing s with
  | zero => rfl
  | succ k ih =>
    rw [List.replicate_succ, Machine.collect_cons, ih]
    rfl

theorem idle_reset (s : Limiter) : s.reset.Idle := ⟨rfl, rfl⟩

end Limiter

open Limiter

/-- A packet of `n` words has just been completed, and `later` follows. -/
structure Closing (r : BitVec 32) (s : Limiter) (past : List Input) (i : Input)
    (later : List Input) (n : Nat) : Prop where
  limiting : ∀ j ∈ past ++ i :: later, Limiting r j
  closes : ∃ w, (machine.run s past).handed i = [w] ∧ w.tlast = true ∧
    n = ((frames Word.tlast (machine.collect handed s past)).rest ++ [w]).length

theorem collect_drained (s : Limiter) {r : BitVec 32} {ins : List Input}
    (h : ∀ i ∈ ins, Limiting r i) :
    ∃ k, machine.collect handed s.reset (ins ++ List.replicate k (draining r)) =
      machine.collect accepted s.reset ins := by
  obtain ⟨k, hk⟩ := exists_drained (s.flow h).1 r
  have hall : ∀ i ∈ ins ++ List.replicate k (draining r), Limiting r i := by
    intro i hi
    rcases List.mem_append.mp hi with hi | hi
    · exact h i hi
    · rw [List.eq_of_mem_replicate hi]
      exact limiting_draining r
  have hlater := (s.flow hall).2
  rw [Machine.run_append, hk, List.append_nil, Machine.collect_append, accepted_draining,
    List.append_nil] at hlater
  exact ⟨k, hlater.symm⟩

section
variable {r : BitVec 32} {s : Limiter} {past later : List Input} {i : Input} {n : Nat}

theorem Closing.limiting_later (h : Closing r s past i later n) : ∀ j ∈ later, Limiting r j :=
  fun j hj => h.limiting j (List.mem_append_right _ (List.mem_cons_of_mem _ hj))

/-- The state behind the last word of a packet: the timer is set to its length. -/
theorem Closing.counts (h : Closing r s.reset past i later n) (hn : n * 2 ^ r.toNat < 2 ^ 64) :
    (machine.step (machine.run s.reset past) i).state = .waitForIpg ∧
      (machine.step (machine.run s.reset past) i).timerTicks.toNat = n * 2 ^ r.toNat ∧ 0 < n := by
  obtain ⟨hall, w, hw, hl, rfl⟩ := h
  have hpast : ∀ j ∈ past, Limiting r j := fun j hj => hall j (List.mem_append_left _ hj)
  have hi := hall i (List.mem_append_right _ List.mem_cons_self)
  obtain ⟨hst, ht⟩ := (counted_run s.idle_reset hpast).closing hi hw hl hn
  refine ⟨hst, ht, ?_⟩
  rw [List.length_append, List.length_singleton]
  exact Nat.succ_pos _

/-- The gap behind a packet: nothing is offered until the timer has run down, and then whatever the
FIFO holds. -/
theorem Closing.gap (h : Closing r s.reset past i later n) (hn : n * 2 ^ r.toNat < 2 ^ 64) :
    (later.length < n * 2 ^ r.toNat →
      (machine.run s.reset (past ++ i :: later)).state = .waitForIpg ∧
        ∀ j, Limiting r j → ((machine.run s.reset (past ++ i :: later)).comb j).mTvalid = false) ∧
    (later.length = n * 2 ^ r.toNat →
      (machine.run s.reset (past ++ i :: later)).state = .waitForPkt ∧
        ∀ j, Limiting r j → ((machine.run s.reset (past ++ i :: later)).comb j).mTvalid =
          !(machine.run s.reset (past ++ i :: later)).fifo.empty) := by
  obtain ⟨hst, ht, hpos⟩ := h.counts hn
  rw [Machine.run_append, Machine.run_cons, ← ht]
  refine ⟨fun hlt => ?_, fun hlen => ?_⟩
  · have hrest := (resting_run hst h.limiting_later hlt).1
    exact ⟨hrest, fun j hj => (resting_step hrest hj).1⟩
  · have hticks : 0 < (machine.step (machine.run s.reset past) i).timerTicks.toNat := by
      rw [ht]
      exact Nat.mul_pos hpos (Nat.two_pow_pos _)
    have hidle := rested_run hst hticks h.limiting_later hlen
    exact ⟨hidle.1, fun j hj => offers_of_idle hidle hj⟩

/-- Whole packets with their gaps between two moments without an open packet. -/
theorem length_le_of_whole (hall : ∀ i ∈ past ++ later, Limiting r i)
    (hrest : (frames Word.tlast (machine.collect handed s.reset past)).rest = [])
    (hst : (machine.run s.reset past).state = .waitForPkt)
    (hclosed : (frames Word.tlast
      (machine.collect handed (machine.run s.reset past) later)).rest = [])
    (hend : (machine.run s.reset (past ++ later)).state = .waitForPkt)
    (hc : Countable r (machine.collect handed (machine.run s.reset past) later)) :
    (1 + 2 ^ r.toNat) * (machine.collect handed (machine.run s.reset past) later).length ≤
      later.length := by
  have hpast : ∀ j ∈ past, Limiting r j := fun j hj => hall j (List.mem_append_left _ hj)
  have hlater : ∀ j ∈ later, Limiting r j := fun j hj => hall j (List.mem_append_right _ hj)
  have hidle : (machine.run s.reset past).Idle := by
    refine ⟨hst, ?_⟩
    rw [(counted_run s.idle_reset hpast).counting hst, hrest]
    rfl
  rw [Machine.run_append] at hend
  have hpaced := (paced_run hidle hlater hc).counting hend
  have hwords := (frames_spec Word.tlast
    (machine.collect handed (machine.run s.reset past) later)).1
  rw [hclosed, List.append_nil] at hwords
  rw [hwords] at hpaced
  omega

end

/-- At a constant rate the words go through in order, each packet is followed by a gap of its
length shifted by the rate, and whole packets with their gaps take `1 + 2 ^ r` cycles a word. -/
theorem rate_limited (s : Limiter) (r : BitVec 32) :
    (∀ ins, (∀ i ∈ ins, Limiting r i) →
      machine.collect accepted s.reset ins =
        machine.collect handed s.reset ins ++ (machine.run s.reset ins).fifo.contents ∧
      ∃ k, machine.collect handed s.reset (ins ++ List.replicate k (draining r)) =
        machine.collect accepted s.reset ins) ∧
    (∀ past i later n, Closing r s.reset past i later n → n * 2 ^ r.toNat < 2 ^ 64 →
      (later.length < n * 2 ^ r.toNat →
        (machine.run s.reset (past ++ i :: later)).state = .waitForIpg ∧
          ∀ j, Limiting r j →
            ((machine.run s.reset (past ++ i :: later)).comb j).mTvalid = false) ∧
      (later.length = n * 2 ^ r.toNat →
        (machine.run s.reset (past ++ i :: later)).state = .waitForPkt ∧
          ∀ j, Limiting r j → ((machine.run s.reset (past ++ i :: later)).comb j).mTvalid =
            !(machine.run s.reset (past ++ i :: later)).fifo.empty)) ∧
    (∀ past later, (∀ i ∈ past ++ later, Limiting r i) →
      (frames Word.tlast (machine.collect handed s.reset past)).rest = [] →
      (machine.run s.reset past).state = .waitForPkt →
      ∀ ws, ws = machine.collect handed (machine.run s.reset past) later →
      (frames Word.tlast ws).rest = [] →
      (machine.run s.reset (past ++ later)).state = .waitForPkt →
      Countable r ws → (1 + 2 ^ r.toNat) * ws.length ≤ later.length) := by
  refine ⟨fun ins h => ⟨(s.flow h).2, collect_drained s h⟩, ?_, ?_⟩
  · intro past i later n hclosing hn
    exact hclosing.gap hn
  · intro past later hall hrest hst ws hws hclosed hend hc
    subst hws
    exact length_le_of_whole hall hrest hst hclosed hend hc

/-- A word arrives at rate one. -/
def arriving (k : BitVec 512) (last : Bool) : Input := ⟨false, true, 1, true, ⟨k, 1, 0, last⟩, true⟩

/-- A packet of three words, with a cycle in which nothing arrives and the output is not ready, and
behind it one of two. -/
def arrival : List Input :=
  [arriving 1 false, arriving 2 false, ⟨false, true, 1, false, default, false⟩, arriving 3 true,
    arriving 4 false, arriving 5 true]

instance (r : BitVec 32) (i : Input) : Decidable (Limiting r i) :=
  inferInstanceAs (Decidable (_ ∧ _ ∧ _))

instance (r : BitVec 32) (ws : List Word) : Decidable (Countable r ws) :=
  inferInstanceAs (Decidable (∀ pkt ∈ (frames Word.tlast ws).closed, _ < _))

/-- At rate one the first packet is followed by six cycles of gap, and each word takes three. -/
theorem rate_limited_two_packets :
    let ws : List Word := [⟨1, 1, 0, false⟩, ⟨2, 1, 0, false⟩, ⟨3, 1, 0, true⟩, ⟨4, 1, 0, false⟩,
      ⟨5, 1, 0, true⟩]
    let ins := arrival ++ List.replicate 13 (draining 1)
    machine.collect handed (default : Limiter).reset ins = ws ∧
      (machine.run (default : Limiter).reset (arrival ++ draining 1 ::
        List.replicate 6 (draining 1))).state = .waitForPkt ∧
      (1 + 2 ^ (1 : BitVec 32).toNat) * ws.length ≤ ins.length := by
  intro ws ins
  obtain ⟨-, hgap, hpace⟩ := rate_limited default 1
  have hclosing : Closing 1 (default : Limiter).reset arrival (draining 1)
      (List.replicate 6 (draining 1)) 3 :=
    ⟨by decide +kernel, ⟨3, 1, 0, true⟩, by decide +kernel, rfl, by decide +kernel⟩
  refine ⟨by decide +kernel, ((hgap _ _ _ _ hclosing (by decide)).2 (by decide)).1, ?_⟩
  exact hpace [] ins (by decide +kernel) rfl rfl ws (by decide +kernel) rfl (by decide +kernel)
    (by decide +kernel)

end Osnt.RateLimiter
