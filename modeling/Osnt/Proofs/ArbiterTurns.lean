import Osnt.Proofs.InputArbiter

/-! How long a queue of the arbiter waits for its turn: at most two packets of the others. -/
namespace Osnt.InputArbiter.Arbiter
open Lib

/-- The queue of a packet whose first word is handed over in a cycle. -/
def begins (t : Arbiter) (i : Input) : List (Fin 3) :=
  if t.state = .idle && t.mTvalid && i.tready then [t.cur] else []

/-- Turns from one queue to another. -/
def turns (c q : Fin 3) : Nat := (q.val + 3 - c.val) % 3

theorem turns_le (c q : Fin 3) : turns c q ≤ 2 := by
  unfold turns
  omega

theorem turns_pos {c q : Fin 3} (h : q ≠ c) : 0 < turns c q := by
  have hne : q.val ≠ c.val := fun he => h (Fin.ext he)
  unfold turns
  omega

theorem turns_nextQueue {t : Arbiter} (hc : t.curQueue.toNat < 3) {q : Fin 3} (hq : q ≠ t.cur)
    (hwaits : (t.fifo q).empty = false) :
    turns ⟨t.nextQueue.toNat, nextQueue_lt hc⟩ q < turns t.cur q := by
  have hall : ∀ (e : Fin 3 → Bool) (c q : Fin 3), e q = false → q ≠ c →
      let x := if !e (Fin.ofNat 3 (c.val + 1)) then c.val + 1
        else if !e (Fin.ofNat 3 (c.val + 2)) then c.val + 2
        else if !e (Fin.ofNat 3 (c.val + 3)) then c.val + 3
        else c.val + 1
      ∃ hx, turns ⟨(BitVec.ofNat 2 (if x > 2 then x - 3 else x)).toNat, hx⟩ q < turns c q := by
    decide
  have hcur : t.cur = ⟨t.curQueue.toNat, hc⟩ := dif_pos hc
  obtain ⟨_, h⟩ := hall (fun q => (t.fifo q).empty) ⟨t.curQueue.toNat, hc⟩ q hwaits (hcur ▸ hq)
  rw [hcur]
  exact h

/-- Packets of other queues that may still begin before one of a queue that waits. -/
def ahead (t : Arbiter) (q : Fin 3) : Nat :=
  match t.state with
  | .idle => turns t.cur q
  | .wrPkt => turns t.cur q - 1

/-- A queue that waits for its turn, outside a packet of its own. -/
structure Waits (t : Arbiter) (q : Fin 3) : Prop where
  nonempty : (t.fifo q).empty = false
  other : t.state = .wrPkt → q ≠ t.cur

theorem cur_next {t : Arbiter} {i : Input} (hc : t.curQueue.toNat < 3)
    (h : (t.comb i).curQueue = t.nextQueue) :
    (t.step i).cur = ⟨t.nextQueue.toNat, nextQueue_lt hc⟩ := by
  have hqueue : (t.step i).curQueue = t.nextQueue := h
  unfold cur
  simp only [hqueue, nextQueue_lt hc, dif_pos]

theorem nonempty_step {t : Arbiter} {i : Input} {q : Fin 3} (h : (t.fifo q).empty = false)
    (hr : t.rdEn i q = false) : ((t.step i).fifo q).empty = false := by
  have hd : (t.fifo q).doutValid = true := by simpa [FallthroughFifo.empty] using h
  have hheld := (FallthroughFifo.dout_held hd (t.wrEn i q) (i.word q)).1
  rw [← hr] at hheld
  rw [FallthroughFifo.empty, Bool.not_eq_false']
  exact hheld

theorem rdEn_of_ne {t : Arbiter} {i : Input} {q : Fin 3} (h : q ≠ t.cur) : t.rdEn i q = false := by
  simp [rdEn, h]

theorem Waits.begins_own {t : Arbiter} {q : Fin 3} (hq : Waits t q) (hcur : q = t.cur) {i : Input}
    (hv : t.mTvalid = true) (hr : i.tready = true) : t.begins i = [q] := by
  cases hs : t.state with
  | idle => simp [begins, hs, hv, hr, hcur]
  | wrPkt => exact absurd hcur (hq.other hs)

/-- The word of another queue that is taken moves the turn on, or goes on with the packet. -/
theorem Waits.takes {t : Arbiter} {q : Fin 3} (hq : Waits t q) (hne : q ≠ t.cur) {i : Input}
    (hv : t.mTvalid = true) (hr : i.tready = true)
    (hahead : ahead (t.step i) q + 1 ≤ turns t.cur q)
    (hcur : (t.step i).state = .wrPkt → (t.step i).cur = t.cur) :
    Waits (t.step i) q ∧ q ∉ t.begins i ∧
      (t.begins i).length + ahead (t.step i) q ≤ ahead t q := by
  refine ⟨⟨nonempty_step hq.nonempty (rdEn_of_ne hne), fun hs => hcur hs ▸ hne⟩, ?_⟩
  cases hs : t.state with
  | idle =>
    have hbegins : t.begins i = [t.cur] := by simp [begins, hs, hv, hr]
    have hbefore : ahead t q = turns t.cur q := by simp [ahead, hs]
    rw [hbegins, hbefore, List.mem_singleton, List.length_singleton]
    exact ⟨hne, by omega⟩
  | wrPkt =>
    have hbegins : t.begins i = [] := by simp [begins, hs]
    have hbefore : ahead t q = turns t.cur q - 1 := by simp [ahead, hs]
    rw [hbegins, hbefore, List.length_nil]
    exact ⟨List.not_mem_nil, by omega⟩

/-- A cycle that takes nothing and stays where it is leaves everything as it is. -/
theorem Waits.stays {t : Arbiter} {q : Fin 3} (hq : Waits t q) {i : Input}
    (hc : t.comb i = ⟨t.state, t.curQueue, false⟩) (hbegins : t.begins i = []) :
    Waits (t.step i) q ∧ q ∉ t.begins i ∧
      (t.begins i).length + ahead (t.step i) q ≤ ahead t q := by
  have hcur : (t.step i).cur = t.cur := cur_step (by rw [hc])
  have hstate : (t.step i).state = t.state := congrArg Next.state hc
  have hahead : ahead (t.step i) q = ahead t q := by
    unfold ahead
    rw [hstate, hcur]
  refine ⟨⟨nonempty_step hq.nonempty (by simp [rdEn, hc]), ?_⟩, ?_, ?_⟩
  · rw [hstate, hcur]
    exact hq.other
  · rw [hbegins]
    exact List.not_mem_nil
  · rw [hbegins, hahead, List.length_nil, Nat.zero_add]

/-- A queue that waits begins its packet, or what is ahead of it falls with every other packet that
begins. -/
theorem Waits.step {t : Arbiter} {out : List (Fin 3 × Word)} (h : Framed t out) {q : Fin 3}
    (hq : Waits t q) (i : Input) :
    t.begins i = [q] ∨
      Waits (t.step i) q ∧ q ∉ t.begins i ∧
        (t.begins i).length + ahead (t.step i) q ≤ ahead t q := by
  have hstate : (t.step i).state = (t.comb i).state := rfl
  have hqueue : (t.step i).curQueue = (t.comb i).curQueue := rfl
  rcases t.comb_cases i with ⟨hv, hr, hl, hc⟩ | ⟨hv, hr, hl, hc⟩ | ⟨hv, hr, hc⟩ | ⟨hv, hs, hc⟩ |
    ⟨hv, hs, hc⟩
  · by_cases hne : q = t.cur
    · exact .inl (hq.begins_own hne hv hr)
    · right
      have hnext := turns_nextQueue h.cur hne hq.nonempty
      have hidle : (t.step i).state = .idle := by rw [hstate, hc]
      refine hq.takes hne hv hr ?_ fun hs => ?_
      · unfold ahead
        rw [hidle, cur_next h.cur (by rw [hc])]
        exact hnext
      · rw [hidle] at hs
        cases hs
  · by_cases hne : q = t.cur
    · exact .inl (hq.begins_own hne hv hr)
    · right
      have hpos := turns_pos hne
      have hcur : (t.step i).cur = t.cur := cur_step (by rw [hc])
      refine hq.takes hne hv hr ?_ fun _ => hcur
      unfold ahead
      rw [hstate, hc, hcur]
      exact Nat.sub_add_cancel hpos |>.le
  · exact .inr (hq.stays hc (by simp [begins, hr]))
  · right
    have hne : q ≠ t.cur := by
      rintro rfl
      simp [mTvalid, hq.nonempty] at hv
    have hnext := turns_nextQueue h.cur hne hq.nonempty
    have hidle : (t.step i).state = .idle := by rw [hstate, hc]
    have hbegins : t.begins i = [] := by simp [begins, hv]
    refine ⟨⟨nonempty_step hq.nonempty (rdEn_of_ne hne), fun hs => ?_⟩, ?_, ?_⟩
    · rw [hidle] at hs
      cases hs
    · rw [hbegins]
      exact List.not_mem_nil
    · unfold ahead
      rw [hbegins, hidle, cur_next h.cur (by rw [hc]), hs, List.length_nil]
      dsimp only
      omega
  · -- The register holds a word of the packet that is not its last, so the packet goes on.
    have hl := h.stale hs hv
    rw [hl, Bool.and_false, if_neg (by simp), ← hs] at hc
    exact .inr (hq.stays hc (by simp [begins, hv]))

/-- The queue still waits with few packets ahead of it, or has begun its own after few others. -/
def Turn (t : Arbiter) (q : Fin 3) (begun : List (Fin 3)) : Prop :=
  Waits t q ∧ q ∉ begun ∧ begun.length + ahead t q ≤ 2 ∨
    ∃ others rest : List (Fin 3), begun = others ++ q :: rest ∧ q ∉ others ∧ others.length ≤ 2

theorem Turn.step {t : Arbiter} {out : List (Fin 3 × Word)} (h : Framed t out) {q : Fin 3}
    {begun : List (Fin 3)} (hturn : Turn t q begun) (i : Input) :
    Turn (t.step i) q (begun ++ t.begins i) := by
  rcases hturn with ⟨hwaits, hnot, hahead⟩ | ⟨others, rest, rfl, hnot, hlen⟩
  · rcases hwaits.step h i with hbegins | ⟨hwaits', hnot', hahead'⟩
    · refine .inr ⟨begun, [], by rw [hbegins], hnot, ?_⟩
      omega
    · refine .inl ⟨hwaits', ?_, ?_⟩
      · exact fun hmem => (List.mem_append.mp hmem).elim hnot hnot'
      · rw [List.length_append]
        omega
  · refine .inr ⟨others, rest ++ t.begins i, ?_, hnot, hlen⟩
    rw [List.append_assoc, List.cons_append]

theorem takeWhile_ne_of_not_mem {q : Fin 3} {others : List (Fin 3)} (h : q ∉ others)
    (rest : List (Fin 3)) :
    (others ++ rest).takeWhile (fun other => other ≠ q) =
      others ++ rest.takeWhile (fun other => other ≠ q) := by
  refine List.takeWhile_append_of_pos fun other hother => ?_
  exact decide_eq_true fun he => h (he ▸ hother)

/-- From a packet boundary on, a queue that is not empty stays so until its next packet begins, and
at most two packets of other queues begin before it. -/
theorem bounded_waiting (s : Arbiter) (past later : List Input) (q : Fin 3)
    (boundary : (machine.run s.reset past).state = .idle)
    (nonempty : ((machine.run s.reset past).fifo q).empty = false) :
    let begun := machine.collect begins (machine.run s.reset past) later
    (q ∉ begun → ((machine.run s.reset (past ++ later)).fifo q).empty = false) ∧
      (begun.takeWhile (fun other => other ≠ q)).length ≤ 2 := by
  have hturn : Turn (machine.run (machine.run s.reset past) later) q
      (machine.collect begins (machine.run s.reset past) later) := by
    refine machine.run_invariant later
      (fun es t => Turn t q (machine.collect begins (machine.run s.reset past) es)) ?_ ?_
    · refine .inl ⟨⟨nonempty, fun hs => ?_⟩, List.not_mem_nil, ?_⟩
      · rw [boundary] at hs
        cases hs
      · have hle := turns_le (machine.run s.reset past).cur q
        simpa [ahead, boundary] using hle
    · intro es i hp
      have hframed := framed_run s (past ++ es)
      rw [Machine.run_append] at hframed
      rw [Machine.collect_concat]
      exact hp.step hframed i
  intro begun
  rw [Machine.run_append]
  rcases hturn with ⟨hwaits, hnot, hahead⟩ | ⟨others, rest, hbegun, hnot, hlen⟩
  · refine ⟨fun _ => hwaits.nonempty, ?_⟩
    have hle := (List.takeWhile_sublist (fun other => decide (other ≠ q)) (l := begun)).length_le
    exact hle.trans ((Nat.le_add_right ..).trans hahead)
  · have hbegun : begun = others ++ q :: rest := hbegun
    rw [hbegun]
    refine ⟨fun h => absurd (List.mem_append_right _ (List.mem_cons_self ..)) h, ?_⟩
    rw [takeWhile_ne_of_not_mem hnot, List.takeWhile_cons_of_neg (by simp), List.append_nil]
    exact hlen

/-- Words on the first two ports and a receiver that is not ready. -/
def arriving : Input := ⟨fun p => decide (p.val < 2), fun _ => default, false⟩

theorem bounded_waiting_first :
    let t := machine.run (default : Arbiter).reset (List.replicate 4 arriving)
    let begun := machine.collect begins t (List.replicate 2 quiet)
    ((1 : Fin 3) ∉ begun → ((machine.run (default : Arbiter).reset
        (List.replicate 4 arriving ++ List.replicate 2 quiet)).fifo 1).empty = false) ∧
      (begun.takeWhile (fun other => other ≠ 1)).length ≤ 2 :=
  bounded_waiting default (List.replicate 4 arriving) (List.replicate 2 quiet) 1
    (by decide +kernel) (by decide +kernel)

end Osnt.InputArbiter.Arbiter
