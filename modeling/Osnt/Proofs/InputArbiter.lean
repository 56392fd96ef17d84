import Osnt.InputArbiter
import Osnt.Proofs.Fifo
import Mathlib.Data.List.Chain
import Mathlib.Algebra.Order.BigOperators.Group.Finset
import Mathlib.Data.Finset.Lattice.Fold
import Mathlib.Data.Fintype.Pi
import Mathlib.Order.Lattice.Nat

/-! The arbiter merges whole packets: nothing is lost, doubled or mixed. -/
namespace Osnt.InputArbiter
open Lib

/-- The words a merged stream takes from one queue. -/
def fromQueue (q : Fin 3) (out : List (Fin 3 × Word)) : List Word :=
  out.filterMap (fun e => if e.1 = q then some e.2 else none)

/-- A word that does not end its packet is followed by one of the same queue. -/
def Unmixed (a b : Fin 3 × Word) : Prop := a.2.tlast = false → b.1 = a.1

namespace Arbiter

/-- Everything a cycle can do: hand over the word shown and go on with its packet or to
another queue, stay, or move on from an empty queue. In the middle of a packet the end
is taken from the output register even if no word is there. -/
theorem comb_cases (s : Arbiter) (i : Input) :
    (s.mTvalid = true ∧ i.tready = true ∧ s.mWord.tlast = true ∧
        s.comb i = ⟨.idle, s.nextQueue, true⟩) ∨
      (s.mTvalid = true ∧ i.tready = true ∧ s.mWord.tlast = false ∧
        s.comb i = ⟨.wrPkt, s.curQueue, true⟩) ∨
      (s.mTvalid = true ∧ i.tready = false ∧ s.comb i = ⟨s.state, s.curQueue, false⟩) ∨
      (s.mTvalid = false ∧ s.state = .idle ∧ s.comb i = ⟨.idle, s.nextQueue, false⟩) ∨
      (s.mTvalid = false ∧ s.state = .wrPkt ∧
        s.comb i = if i.tready && s.mWord.tlast then ⟨.idle, s.nextQueue, true⟩
          else ⟨.wrPkt, s.curQueue, false⟩) := by
  cases hs : s.state <;> cases he : (s.fifo s.cur).empty <;> cases ht : i.tready <;>
    cases hl : s.mWord.tlast <;> simp [comb, mTvalid, hs, he, ht, hl]

theorem nextQueue_lt {s : Arbiter} (h : s.curQueue.toNat < 3) : s.nextQueue.toNat < 3 := by
  have hext : s.extendedNextQueue ≤ 5 := by
    simp only [extendedNextQueue]
    split
    · omega
    split
    · omega
    split <;> omega
  rw [nextQueue, BitVec.toNat_ofNat]
  split <;> omega

theorem full_of_wrEn {s : Arbiter} {i : Input} {q : Fin 3} (h : s.wrEn i q = true) :
    (s.fifo q).full = false := by
  simp only [wrEn, Bool.and_eq_true, Bool.not_eq_true'] at h
  exact FallthroughFifo.full_of_nearlyFull h.2

/-- A queue loses the word on its output exactly when it is handed over. -/
theorem popped_eq (s : Arbiter) (i : Input) (q : Fin 3) :
    (if s.rdEn i q && (s.fifo q).doutValid then [(s.fifo q).dout] else []) =
      fromQueue q (s.handed i) := by
  by_cases hq : q = s.cur
  · subst hq
    have hv : s.mTvalid = (s.fifo s.cur).doutValid := by simp [mTvalid, FallthroughFifo.empty]
    rcases s.comb_cases i with ⟨h1, h2, _, h4⟩ | ⟨h1, h2, _, h4⟩ | ⟨h1, h2, h4⟩ | ⟨h1, _, h4⟩ |
      ⟨h1, _, h4⟩
    · simp [rdEn, handed, fromQueue, h1, h2, h4, ← hv, mWord]
    · simp [rdEn, handed, fromQueue, h1, h2, h4, ← hv, mWord]
    · simp [rdEn, handed, fromQueue, h1, h2, h4]
    · simp [rdEn, handed, fromQueue, h1, h4]
    · simp [handed, fromQueue, h1, ← hv]
  · have hq' : ¬ s.cur = q := fun he => hq he.symm
    simp only [rdEn, hq, decide_false, Bool.false_and, Bool.false_eq_true, if_false, handed]
    split <;> simp [fromQueue, hq']

theorem sound_run (s : Arbiter) (ins : List Input) (q : Fin 3) :
    ((machine.run s.reset ins).fifo q).Sound :=
  (FallthroughFifo.flow_run machine (fun _ => True) (fun t => t.fifo q)
    (fun t i => t.wrEn i q) (fun t i => t.rdEn i q) (fun _ i => i.word q) (fun _ _ _ => rfl)
    (fun _ _ _ => full_of_wrEn) (s := s.reset) (FallthroughFifo.sound_reset _)
    (fun i (_ : i ∈ ins) => trivial)).1

/-- Every port's accepted words have been handed over or wait in its queue, in order. -/
theorem accepted_run (s : Arbiter) (ins : List Input) (q : Fin 3) :
    machine.collect (accepted q) s.reset ins =
      fromQueue q (machine.collect handed s.reset ins) ++
        ((machine.run s.reset ins).fifo q).contents := by
  have hflow := FallthroughFifo.flow_run machine (fun _ => True) (fun t => t.fifo q)
    (fun t i => t.wrEn i q) (fun t i => t.rdEn i q) (fun _ i => i.word q) (fun _ _ _ => rfl)
    (fun _ _ _ => full_of_wrEn) (s := s.reset) (FallthroughFifo.sound_reset _)
    (fun i (_ : i ∈ ins) => trivial)
  have hnil : (s.reset.fifo q).contents = [] := FallthroughFifo.contents_reset _
  rw [hnil, List.nil_append] at hflow
  rw [fromQueue, machine.collect_filterMap]
  simp only [popped_eq] at hflow
  exact hflow.2

/-- In the middle of a packet the output register holds no end of a packet, unless a
word is there. -/
structure Framed (t : Arbiter) (out : List (Fin 3 × Word)) : Prop where
  cur : t.curQueue.toNat < 3
  stale : t.state = .wrPkt → t.mTvalid = false → t.mWord.tlast = false
  last : ∀ e ∈ out.getLast?, e.2.tlast = false → t.state = .wrPkt ∧ t.cur = e.1
  begun : t.state = .wrPkt → ∃ w, out.getLast? = some (t.cur, w) ∧ w.tlast = false
  unmixed : out.IsChain Unmixed

theorem cur_step {t : Arbiter} {i : Input} (h : (t.comb i).curQueue = t.curQueue) :
    (t.step i).cur = t.cur := by
  simp only [cur, step, h]

theorem mWord_step {t : Arbiter} {i : Input} (h : (t.comb i).curQueue = t.curQueue)
    (hv : (t.step i).mTvalid = false) : (t.step i).mWord = t.mWord := by
  rw [mTvalid, Bool.not_eq_false', cur_step h, FallthroughFifo.empty, Bool.not_eq_true'] at hv
  rw [mWord, cur_step h]
  exact FallthroughFifo.dout_of_empty hv

theorem held_step {t : Arbiter} {i : Input} (hv : t.mTvalid = true) (hr : i.tready = false) :
    (t.step i).mTvalid = true ∧ (t.step i).mWord = t.mWord := by
  have hc : t.comb i = ⟨t.state, t.curQueue, false⟩ := by
    rcases t.comb_cases i with ⟨_, h2, _⟩ | ⟨_, h2, _⟩ | ⟨_, _, h3⟩ | ⟨h1, _⟩ | ⟨h1, _⟩
    · rw [hr] at h2
      cases h2
    · rw [hr] at h2
      cases h2
    · exact h3
    · rw [hv] at h1
      cases h1
    · rw [hv] at h1
      cases h1
  have hcur : (t.step i).cur = t.cur := cur_step (by rw [hc])
  have hrd : t.rdEn i t.cur = false := by simp [rdEn, hc]
  have hd : (t.fifo t.cur).doutValid = true := by
    simpa [mTvalid, FallthroughFifo.empty] using hv
  obtain ⟨h1, h2⟩ := FallthroughFifo.dout_held hd (t.wrEn i t.cur) (i.word t.cur)
  rw [← hrd] at h1 h2
  rw [mTvalid, mWord, hcur]
  refine ⟨?_, h2⟩
  rw [FallthroughFifo.empty, Bool.not_not]
  exact h1

theorem isChain_concat {out : List (Fin 3 × Word)} {e : Fin 3 × Word} (h : out.IsChain Unmixed)
    (he : ∀ x ∈ out.getLast?, Unmixed x e) : (out ++ [e]).IsChain Unmixed := by
  refine List.isChain_append.mpr ⟨h, List.isChain_singleton _, ?_⟩
  intro x hx y hy
  rw [List.head?_singleton, Option.mem_def, Option.some.injEq] at hy
  exact hy ▸ he x hx

/-- Between two packets only the queue index and the order so far matter. -/
theorem framed_idle {t : Arbiter} {out : List (Fin 3 × Word)} (hcur : t.curQueue.toNat < 3)
    (hs : t.state = .idle) (hlast : ∀ e ∈ out.getLast?, e.2.tlast = true)
    (hmix : out.IsChain Unmixed) : Framed t out := by
  have hnot : t.state ≠ .wrPkt := by simp [hs]
  refine ⟨hcur, fun hst => absurd hst hnot, ?_, fun hst => absurd hst hnot, hmix⟩
  intro e he hle
  rw [hlast e he] at hle
  cases hle

theorem Framed.stays {t : Arbiter} {out : List (Fin 3 × Word)} (h : Framed t out) {i : Input}
    (hc : t.comb i = ⟨t.state, t.curQueue, false⟩)
    (hstale : t.state = .wrPkt → (t.step i).mTvalid = false → (t.step i).mWord.tlast = false) :
    Framed (t.step i) out := by
  have hcur : (t.step i).cur = t.cur := cur_step (by rw [hc])
  have hstate : (t.step i).state = t.state := congrArg Next.state hc
  have hqueue : (t.step i).curQueue = t.curQueue := congrArg Next.curQueue hc
  refine ⟨hqueue ▸ h.cur, hstate ▸ hstale, ?_, ?_, h.unmixed⟩
  · rw [hstate, hcur]
    exact h.last
  · rw [hstate, hcur]
    exact h.begun

theorem framed_step {t : Arbiter} {out : List (Fin 3 × Word)} (h : Framed t out) (i : Input) :
    Framed (t.step i) (out ++ t.handed i) := by
  have hnext := nextQueue_lt h.cur
  have hmix : (out ++ [(t.cur, t.mWord)]).IsChain Unmixed :=
    isChain_concat h.unmixed (fun x hx hl => (h.last x hx hl).2)
  have hstate : (t.step i).state = (t.comb i).state := rfl
  have hqueue : (t.step i).curQueue = (t.comb i).curQueue := rfl
  rcases t.comb_cases i with ⟨hv, hr, hl, hc⟩ | ⟨hv, hr, hl, hc⟩ | ⟨hv, hr, hc⟩ | ⟨hv, hs, hc⟩ |
    ⟨hv, hs, hc⟩
  · have hh : t.handed i = [(t.cur, t.mWord)] := by simp [handed, hv, hr]
    rw [hc] at hstate hqueue
    rw [hh]
    refine framed_idle (hqueue ▸ hnext) hstate ?_ hmix
    intro e he
    rw [List.getLast?_concat, Option.mem_def, Option.some.injEq] at he
    exact he ▸ hl
  · have hh : t.handed i = [(t.cur, t.mWord)] := by simp [handed, hv, hr]
    have hcur : (t.step i).cur = t.cur := cur_step (by rw [hc])
    rw [hc] at hstate hqueue
    rw [hh]
    refine ⟨hqueue ▸ h.cur, ?_, ?_, ?_, hmix⟩
    · intro _ hv'
      rw [mWord_step (by rw [hc]) hv']
      exact hl
    · intro e he _
      rw [List.getLast?_concat, Option.mem_def, Option.some.injEq] at he
      exact ⟨hstate, he ▸ hcur⟩
    · intro _
      exact ⟨t.mWord, by rw [List.getLast?_concat, hcur], hl⟩
  · have hh : t.handed i = [] := by simp [handed, hr]
    rw [hh, List.append_nil]
    refine h.stays hc ?_
    intro _ hv'
    rw [(held_step hv hr).1] at hv'
    cases hv'
  · have hh : t.handed i = [] := by simp [handed, hv]
    rw [hc] at hstate hqueue
    rw [hh, List.append_nil]
    refine framed_idle (hqueue ▸ hnext) hstate ?_ h.unmixed
    intro e he
    by_contra hle
    rw [(h.last e he (by simpa using hle)).1] at hs
    cases hs
  · -- The register holds a word of the packet that is not its last, so the packet goes on.
    have hh : t.handed i = [] := by simp [handed, hv]
    have hl := h.stale hs hv
    rw [hl, Bool.and_false, if_neg (by simp), ← hs] at hc
    rw [hh, List.append_nil]
    refine h.stays hc ?_
    intro _ hv'
    rw [mWord_step (by rw [hc]) hv']
    exact hl

theorem framed_run (s : Arbiter) (ins : List Input) :
    Framed (machine.run s.reset ins) (machine.collect handed s.reset ins) := by
  refine machine.run_invariant ins
    (fun past t => Framed t (machine.collect handed s.reset past)) ?_ ?_
  · exact framed_idle (by simp [reset]) rfl (by simp) List.isChain_nil
  · intro past i hp
    rw [Machine.collect_concat]
    exact framed_step hp i

/-- A cycle in which nothing arrives and the receiver is ready. -/
def quiet : Input := ⟨fun _ => false, fun _ => default, true⟩

/-- The queues hold whole packets, or the rest of the one in progress. -/
structure Whole (t : Arbiter) : Prop where
  cur : t.curQueue.toNat < 3
  sound : ∀ q, (t.fifo q).Sound
  stale : t.state = .wrPkt → t.mTvalid = false → t.mWord.tlast = false
  ends : ∀ q, ∀ w ∈ (t.fifo q).contents.getLast?, w.tlast = true
  rest : t.state = .wrPkt → (t.fifo t.cur).contents ≠ []

theorem wrEn_quiet (t : Arbiter) (q : Fin 3) : t.wrEn quiet q = false := by simp [wrEn, quiet]

theorem contents_quiet {t : Arbiter} (h : Whole t) (q : Fin 3) :
    ((t.step quiet).fifo q).contents =
      if q = t.cur ∧ t.mTvalid = true then (t.fifo q).contents.tail else (t.fifo q).contents := by
  have hw := wrEn_quiet t q
  have hc := (h.sound q).contents_step (t.wrEn quiet q) (t.rdEn quiet q) (quiet.word q)
    (fun he => full_of_wrEn he)
  rw [hw] at hc
  simp only [Bool.false_eq_true, if_false, List.append_nil] at hc
  change ((t.fifo q).step (t.wrEn quiet q) (quiet.word q) (t.rdEn quiet q)).contents = _
  rw [hw, hc]
  by_cases hq : q = t.cur
  · subst hq
    have hv : t.mTvalid = (t.fifo t.cur).doutValid := by simp [mTvalid, FallthroughFifo.empty]
    cases hd : (t.fifo t.cur).doutValid with
    | false => simp [hv, hd]
    | true =>
      have hr : (t.comb quiet).rdEn = true := by
        rcases t.comb_cases quiet with ⟨_, _, _, hc⟩ | ⟨_, _, _, hc⟩ | ⟨_, hr, _⟩ | ⟨h1, _⟩ |
          ⟨h1, _⟩
        · rw [hc]
        · rw [hc]
        · cases hr
        · simp [hv, hd] at h1
        · simp [hv, hd] at h1
      simp [hv, hd, rdEn, hr]
  · simp [hq, rdEn]

/-- A port whose accepted words end with a packet. -/
def Complete (s : Arbiter) (ins : List Input) : Prop :=
  ∀ q, ∀ w ∈ (machine.collect (accepted q) s ins).getLast?, w.tlast = true

theorem whole_run (s : Arbiter) {ins : List Input} (h : Complete s.reset ins) :
    Whole (machine.run s.reset ins) := by
  have hf := framed_run s ins
  have ha := accepted_run s ins
  refine ⟨hf.cur, fun q => sound_run s ins q, hf.stale, ?_, ?_⟩
  · intro q w hw
    refine h q w ?_
    rw [ha q]
    exact List.mem_getLast?_append_of_mem_getLast? hw
  · intro hs hnil
    obtain ⟨w, hlast, hl⟩ := hf.begun hs
    obtain ⟨out, hout⟩ := List.getLast?_eq_some_iff.mp hlast
    have hend := h (machine.run s.reset ins).cur w (by
      rw [ha, hnil, List.append_nil, hout]
      simp [fromQueue])
    rw [hl] at hend
    cases hend

theorem nextQueue_nonempty {t : Arbiter} (hc : t.curQueue.toNat < 3) {q : Fin 3}
    (hq : (t.fifo q).empty = false) :
    (t.fifo ⟨t.nextQueue.toNat, nextQueue_lt hc⟩).empty = false := by
  have hall : ∀ (e : Fin 3 → Bool) (c q : Fin 3), e q = false →
      let x := if !e (Fin.ofNat 3 (c.val + 1)) then c.val + 1
        else if !e (Fin.ofNat 3 (c.val + 2)) then c.val + 2
        else if !e (Fin.ofNat 3 (c.val + 3)) then c.val + 3
        else c.val + 1
      ∃ hx, e ⟨(BitVec.ofNat 2 (if x > 2 then x - 3 else x)).toNat, hx⟩ = false := by
    decide
  obtain ⟨_, h⟩ := hall (fun q => (t.fifo q).empty) ⟨t.curQueue.toNat, hc⟩ q hq
  exact h

/-- Cycles until some queue shows a word. -/
def soonest (t : Arbiter) : Nat :=
  Finset.univ.inf' ⟨0, Finset.mem_univ _⟩ (fun q => (t.fifo q).wait)

theorem soonest_le (t : Arbiter) (q : Fin 3) : t.soonest ≤ (t.fifo q).wait :=
  Finset.inf'_le _ (Finset.mem_univ q)

theorem exists_soonest (t : Arbiter) : ∃ q, t.soonest = (t.fifo q).wait := by
  obtain ⟨q, _, hq⟩ := Finset.exists_mem_eq_inf' (s := Finset.univ) ⟨0, Finset.mem_univ _⟩
    (fun q : Fin 3 => (t.fifo q).wait)
  exact ⟨q, hq⟩

/-- Cycles until the output shows a word. -/
def outputWait (t : Arbiter) : Nat :=
  if t.mTvalid then 0
  else
    match t.state with
    | .idle => t.soonest + 1
    | .wrPkt => (t.fifo t.cur).wait

def total (t : Arbiter) : Nat := ∑ q, (t.fifo q).contents.length

def rank (t : Arbiter) : Nat := 5 * t.total + t.outputWait

theorem outputWait_le {t : Arbiter} {q : Fin 3} (hq : (t.fifo q).contents ≠ [])
    (hrest : t.state = .wrPkt → (t.fifo t.cur).contents ≠ []) : t.outputWait ≤ 3 := by
  have h1 := t.soonest_le q
  have h2 := FallthroughFifo.wait_le_two hq
  cases hs : t.state with
  | idle =>
    simp only [outputWait, hs]
    split <;> omega
  | wrPkt =>
    have h3 := FallthroughFifo.wait_le_two (hrest hs)
    simp only [outputWait, hs]
    split <;> omega

/-- What a quiet cycle without a word on the output does. -/
theorem comb_quiet {t : Arbiter} (h : Whole t) (hv : t.mTvalid = false) :
    t.comb quiet = ⟨t.state, if t.state = .idle then t.nextQueue else t.curQueue, false⟩ := by
  rcases t.comb_cases quiet with ⟨h1, _⟩ | ⟨h1, _⟩ | ⟨h1, _⟩ | ⟨_, hs, hc⟩ | ⟨_, hs, hc⟩
  · simp [hv] at h1
  · simp [hv] at h1
  · simp [hv] at h1
  · simpa [hs] using hc
  · simpa [hs, h.stale hs hv] using hc

theorem wait_quiet {t : Arbiter} (h : Whole t) {r : Fin 3} (hd : (t.fifo r).doutValid = false)
    (hc : (t.fifo r).contents ≠ []) : ((t.step quiet).fifo r).wait + 1 = (t.fifo r).wait := by
  have hw := FallthroughFifo.wait_step (h.sound r) hd hc (t.rdEn quiet r) (quiet.word r)
  rw [← wrEn_quiet t r] at hw
  exact hw

/-- An idle arbiter turns to a queue that shows a word, if there is one. -/
theorem mTvalid_quiet {t : Arbiter} (h : Whole t) (hv : t.mTvalid = false) (hs : t.state = .idle)
    {r : Fin 3} (hr : (t.fifo r).doutValid = true) : (t.step quiet).mTvalid = true := by
  have hc := comb_quiet h hv
  rw [if_pos hs] at hc
  have hne := nextQueue_nonempty h.cur (q := r) (by simp [FallthroughFifo.empty, hr])
  have hcur : (t.step quiet).cur = ⟨t.nextQueue.toNat, nextQueue_lt h.cur⟩ := by
    simp [cur, step, hc, nextQueue_lt h.cur]
  generalize (⟨t.nextQueue.toNat, nextQueue_lt h.cur⟩ : Fin 3) = next at hne hcur
  have hd : (t.fifo next).doutValid = true := by simpa [FallthroughFifo.empty] using hne
  have hrd : t.rdEn quiet next = false := by simp [rdEn, hc]
  have hheld := (FallthroughFifo.dout_held hd (t.wrEn quiet next) (quiet.word next)).1
  rw [← hrd] at hheld
  rw [mTvalid, hcur, FallthroughFifo.empty, Bool.not_not]
  exact hheld

/-- Without a word on the output, a quiet cycle brings one nearer. -/
theorem outputWait_step {t : Arbiter} (h : Whole t) (hv : t.mTvalid = false) {q : Fin 3}
    (hq : (t.fifo q).contents ≠ []) : (t.step quiet).outputWait < t.outputWait := by
  have hc := comb_quiet h hv
  have hst : (t.step quiet).state = t.state := congrArg Next.state hc
  cases hs : t.state with
  | wrPkt =>
    have hcv : (t.fifo t.cur).doutValid = false := by
      simpa [mTvalid, FallthroughFifo.empty] using hv
    have hcur : (t.step quiet).cur = t.cur := cur_step (by rw [hc]; simp [hs])
    have hw := wait_quiet h hcv (h.rest hs)
    simp only [outputWait, hst, hs, hv, hcur, Bool.false_eq_true, if_false]
    split <;> omega
  | idle =>
    simp only [outputWait, hst, hs, hv, Bool.false_eq_true, if_false]
    by_cases hany : ∃ r, (t.fifo r).doutValid = true
    · obtain ⟨r, hr⟩ := hany
      simp [mTvalid_quiet h hv hs hr]
    · have hnone : ∀ r, (t.fifo r).doutValid = false := by
        intro r
        exact Bool.eq_false_iff.mpr (fun he => hany ⟨r, he⟩)
      obtain ⟨r, hr⟩ := t.exists_soonest
      have hrc : (t.fifo r).contents ≠ [] := by
        intro he
        have h1 := t.soonest_le q
        have h2 := FallthroughFifo.wait_le_two hq
        have h3 := FallthroughFifo.wait_of_empty he
        omega
      have hw := wait_quiet h (hnone r) hrc
      have hle := (t.step quiet).soonest_le r
      split <;> omega

theorem rank_step {t : Arbiter} (h : Whole t) (h' : Whole (t.step quiet)) {q : Fin 3}
    (hq : (t.fifo q).contents ≠ []) :
    (∀ r, ((t.step quiet).fifo r).contents = []) ∨ (t.step quiet).rank < t.rank := by
  by_cases hall : ∀ r, ((t.step quiet).fifo r).contents = []
  · exact .inl hall
  · obtain ⟨r, hr⟩ := not_forall.mp hall
    right
    have hcon := contents_quiet h
    cases hv : t.mTvalid with
    | false =>
      have htot : (t.step quiet).total = t.total := by
        simp [total, hcon, hv]
      have hw := outputWait_step h hv hq
      rw [rank, rank, htot]
      omega
    | true =>
      have hd : (t.fifo t.cur).doutValid = true := by
        simpa [mTvalid, FallthroughFifo.empty] using hv
      have htot : (t.step quiet).total < t.total := by
        apply Finset.sum_lt_sum
        · intro r _
          rw [hcon]
          split
          · simp
          · exact Nat.le_refl _
        · refine ⟨t.cur, Finset.mem_univ _, ?_⟩
          rw [hcon, if_pos ⟨rfl, hv⟩, FallthroughFifo.contents_eq_cons hd]
          simp
      have hle := outputWait_le hr h'.rest
      rw [rank, rank]
      omega

theorem accepted_quiet (s : Arbiter) (ins : List Input) (k : Nat) (q : Fin 3) :
    machine.collect (accepted q) s (ins ++ List.replicate k quiet) =
      machine.collect (accepted q) s ins := by
  induction k with
  | zero => simp
  | succ k ih =>
    rw [List.replicate_succ', ← List.append_assoc, Machine.collect_concat, ih]
    simp [accepted, quiet]

/-- An arbiter that holds nothing stays as it is when nothing arrives. -/
theorem empty_quiet (s : Arbiter) {ins : List Input}
    (h : ∀ q, ((machine.run s.reset ins).fifo q).contents = []) (k : Nat) (q : Fin 3) :
    ((machine.run s.reset (ins ++ List.replicate k quiet)).fifo q).contents = [] := by
  induction k with
  | zero => simpa using h q
  | succ k ih =>
    rw [List.replicate_succ', ← List.append_assoc, Machine.run_concat]
    have hs := sound_run s (ins ++ List.replicate k quiet) q
    generalize machine.run s.reset (ins ++ List.replicate k quiet) = t at *
    have hstep := hs.contents_step (t.wrEn quiet q) (t.rdEn quiet q) (quiet.word q)
      (fun he => full_of_wrEn he)
    change ((t.fifo q).step (t.wrEn quiet q) (quiet.word q) (t.rdEn quiet q)).contents = []
    rw [hstep, ih, wrEn_quiet]
    simp

/-- A ready receiver gets everything that has been accepted. -/
theorem drains (s : Arbiter) {ins : List Input} (h : Complete s.reset ins) :
    ∃ k, ∀ q, ((machine.run s.reset (ins ++ List.replicate k quiet)).fifo q).contents = [] := by
  have hreach := machine.run_reaches quiet
    (fun t => ∃ k, t = machine.run s.reset (ins ++ List.replicate k quiet))
    (fun t => ∀ q, (t.fifo q).contents = []) rank ?_ (s := machine.run s.reset ins) ⟨0, by simp⟩
  · obtain ⟨k, hk⟩ := hreach
    exact ⟨k, by rw [Machine.run_append]; exact hk⟩
  · rintro t ⟨k, rfl⟩ hgoal
    obtain ⟨q, hq⟩ := not_forall.mp hgoal
    have hwhole : ∀ k, Whole (machine.run s.reset (ins ++ List.replicate k quiet)) := by
      intro k
      refine whole_run s ?_
      intro q
      rw [accepted_quiet]
      exact h q
    have hnext : (machine.run s.reset (ins ++ List.replicate k quiet)).step quiet =
        machine.run s.reset (ins ++ List.replicate (k + 1) quiet) := by
      rw [List.replicate_succ', ← List.append_assoc, Machine.run_concat]
      rfl
    rcases rank_step (hwhole k) (hnext ▸ hwhole (k + 1)) hq with hdone | hlt
    · exact .inl hdone
    · exact .inr ⟨⟨k + 1, hnext⟩, hlt⟩

/-- From reset the output is a merge of whole packets: every port's accepted words come
out once and in order, words of different queues meet only behind the end of a packet,
the index stays in range, a word that is shown stays until it is taken, and a receiver
that is ready gets all packets that were accepted. -/
theorem merges_packets (s : Arbiter) (ins : List Input) :
    let t := machine.run s.reset ins
    let out := machine.collect handed s.reset ins
    (∀ q, machine.collect (accepted q) s.reset ins =
      fromQueue q out ++ (t.fifo q).contents) ∧
      out.IsChain Unmixed ∧ t.curQueue.toNat < 3 ∧
      (∀ i, t.mTvalid = true → i.tready = false →
        (t.step i).mTvalid = true ∧ (t.step i).mWord = t.mWord) ∧
      (Complete s.reset ins → ∃ k, ∀ q,
        fromQueue q (machine.collect handed s.reset (ins ++ List.replicate k quiet)) =
          machine.collect (accepted q) s.reset ins) := by
  refine ⟨accepted_run s ins, (framed_run s ins).unmixed, (framed_run s ins).cur,
    fun _ hv hr => held_step hv hr, ?_⟩
  intro hc
  obtain ⟨k, hk⟩ := drains s hc
  refine ⟨k, fun q => ?_⟩
  have hall := accepted_run s (ins ++ List.replicate k quiet) q
  rw [hk q, List.append_nil, accepted_quiet] at hall
  exact hall.symm

end Arbiter
end Osnt.InputArbiter
