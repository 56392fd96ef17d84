import Osnt.TxQueue

/-! What the MAC takes from `tx_queue`. In `SEND_PKT` a word is offered whether or not one
shows, so the queue hands over what it holds exactly if the words of a packet under way never
show later than the MAC asks for them. -/
namespace Osnt.TxQueue
open Lib
variable {depth : Nat}

theorem shown_of_not_empty {α : Type} {q : CrossingFifo α} (h : q.empty = false) :
    ∃ w ws, q.shown = w :: ws := by
  cases hs : q.shown with
  | nil => simp [CrossingFifo.empty, hs] at h
  | cons w ws => exact ⟨w, ws, rfl⟩

theorem fifoRdEn_shown {s : Tx} {tready : Bool} {junk : Word}
    (h : (s.drive tready junk).fifoRdEn = true) : ∃ w ws, s.fifo.shown = w :: ws := by
  apply shown_of_not_empty
  by_contra he
  rw [Bool.not_eq_false] at he
  cases hs : s.state <;> simp [Tx.drive, hs, he, Drive.none] at h

/-- The FIFO loses and duplicates nothing, whatever the MAC is told. -/
theorem popped_items (s : Tx) (e : Event) :
    s.popped e ++ (s.step depth e).fifo.items = s.fifo.items ++ s.enqueued depth e := by
  match e with
  | .clk tvalid word =>
    simp only [Tx.popped, Tx.step, Tx.enqueued, List.nil_append]
    split <;> simp
  | .clk156 tready junk =>
    simp only [Tx.popped, Tx.step, Tx.enqueued, List.append_nil]
    cases hrd : (s.drive tready junk).fifoRdEn with
    | false => rfl
    | true =>
      obtain ⟨w, ws, hw⟩ := fifoRdEn_shown hrd
      rw [if_pos rfl, if_pos rfl, CrossingFifo.items_read hw, hw]
      rfl
  | .revealWord | .revealInfo | .freeWord | .freeInfo =>
    simp [Tx.popped, Tx.step, Tx.enqueued]

/-- The MAC accepts what leaves the FIFO unless it is starved. -/
theorem accepted_eq_popped_iff (s : Tx) (e : Event) :
    s.accepted e = s.popped e ↔ s.starved e = false := by
  match e with
  | .clk156 tready junk =>
    simp only [Tx.accepted, Tx.popped, Tx.starved]
    cases he : s.fifo.empty with
    | true =>
      cases hs : s.state <;> cases tready <;> simp [Tx.drive, hs, he, Drive.none]
    | false =>
      obtain ⟨w, ws, hw⟩ := shown_of_not_empty he
      cases hs : s.state <;> cases tready <;> cases hi : s.infoFifo.empty <;>
        simp [Tx.drive, Tx.dout, hs, he, hi, hw, Drive.none]
  | .clk _ _ | .revealWord | .revealInfo | .freeWord | .freeInfo =>
    exact ⟨fun _ => rfl, fun _ => rfl⟩

theorem accepted_items {es : List Event}
    (h : (machine depth).Along (fun s e => s.accepted e = s.popped e) reset es) :
    accepted depth es ++ (after depth es).fifo.items = enqueued depth es := by
  induction es using List.reverseRecOn with
  | nil => rfl
  | append_singleton es e ih =>
    obtain ⟨hpast, hnow⟩ := (machine depth).along_concat.mp h
    have hstep := @popped_items depth (after depth es) e
    rw [accepted, enqueued, after, Machine.collect_concat, Machine.collect_concat,
      Machine.run_concat, hnow, List.append_assoc]
    calc accepted depth es ++
          ((after depth es).popped e ++ ((after depth es).step depth e).fifo.items)
        = accepted depth es ++
          ((after depth es).fifo.items ++ (after depth es).enqueued depth e) := by rw [hstep]
      _ = enqueued depth es ++ (after depth es).enqueued depth e := by
          rw [← List.append_assoc, ih hpast]

/-- For every order of edges and crossings, the MAC accepts exactly the words that leave the
FIFO in the same cycle, and so the enqueued words in order and with `o_tlast` on the last word of
each packet, if and only if it is never starved in the middle of a packet. -/
theorem handsOver_iff_neverStarved (es : List Event) :
    HandsOver depth es ↔ NeverStarved depth es := by
  have hsame : (fun (s : Tx) e => s.accepted e = s.popped e) = fun s e => s.starved e = false := by
    funext s e
    exact propext (accepted_eq_popped_iff s e)
  constructor
  · intro h
    rw [NeverStarved, ← hsame]
    exact h.1
  · intro h
    rw [NeverStarved, ← hsame] at h
    refine ⟨h, fun past hp => ?_⟩
    obtain ⟨later, rfl⟩ := hp
    exact accepted_items ((machine depth).along_append.mp h).1

theorem countP_read {q : CrossingFifo Word} {w : Word} {ws : List Word} (h : q.shown = w :: ws) :
    q.shown.countP Word.tlast =
      q.read.shown.countP Word.tlast + if w.tlast then 1 else 0 := by
  rw [CrossingFifo.read, h, List.countP_cons, List.tail_cons]

theorem length_read {q : CrossingFifo Unit} (h : q.empty = false) :
    q.shown.length = q.read.shown.length + 1 := by
  obtain ⟨u, us, hu⟩ := shown_of_not_empty h
  rw [CrossingFifo.read, hu, List.length_cons, List.tail_cons]

theorem announced_clk156 {s : Tx} (h : s.announced ≤ s.packetsShown) (tready : Bool) (junk : Word) :
    (s.step depth (.clk156 tready junk)).announced ≤
      (s.step depth (.clk156 tready junk)).packetsShown := by
  simp only [Tx.announced, Tx.packetsShown] at h ⊢
  cases he : s.fifo.empty with
  | true =>
    cases hs : s.state <;> simpa [Tx.step, Tx.drive, hs, he, Drive.none] using h
  | false =>
    obtain ⟨w, ws, hw⟩ := shown_of_not_empty he
    have hcount := countP_read hw
    have hdout : s.dout junk = w := by simp [Tx.dout, hw]
    cases hs : s.state with
    | idle =>
      cases hi : s.infoFifo.empty with
      | true => simpa [Tx.step, Tx.drive, hs, he, hi, Drive.none] using h
      | false =>
        have hlen := length_read hi
        cases tready <;> cases hl : w.tlast <;>
          simp [Tx.step, Tx.drive, hs, he, hi, hdout, hl, Drive.none] at h hcount ⊢ <;> omega
    | sendPkt =>
      cases tready <;> cases hl : w.tlast <;>
        simp [Tx.step, Tx.drive, hs, he, hdout, hl, Drive.none] at h hcount ⊢ <;> omega

theorem announced_step {s : Tx} {e : Event} (h : s.announced ≤ s.packetsShown)
    (ho : s.inOrder e = true) : (s.step depth e).announced ≤ (s.step depth e).packetsShown := by
  match e with
  | .clk tvalid word =>
    simp only [Tx.step]
    split
    · cases word.tlast <;> exact h
    · exact h
  | .clk156 tready junk => exact announced_clk156 h tready junk
  | .revealWord =>
    refine Nat.le_trans h ?_
    simp [Tx.step, Tx.packetsShown, CrossingFifo.reveal]
  | .revealInfo =>
    simp only [Tx.inOrder, Bool.or_eq_true, List.isEmpty_iff, decide_eq_true_eq] at ho
    cases hc : s.infoFifo.crossing with
    | nil => simpa [Tx.step, Tx.announced, Tx.packetsShown, CrossingFifo.reveal, hc] using h
    | cons u us =>
      have hlt : s.announced < s.packetsShown := ho.resolve_left (by simp [hc])
      simp only [Tx.step, Tx.announced, Tx.packetsShown, CrossingFifo.reveal, hc] at hlt ⊢
      simp
      omega
  | .freeWord | .freeInfo => exact h

theorem starved_state {s : Tx} {e : Event} (h : s.starved e = true) :
    s.state = .sendPkt ∧ s.fifo.shown = [] := by
  cases e with
  | clk156 tready junk =>
    simp only [Tx.starved, Bool.and_eq_true, beq_iff_eq, CrossingFifo.empty,
      List.isEmpty_iff] at h
    exact ⟨h.1.1, h.2⟩
  | _ => cases h

/-- Entries that never overtake the words of their packets keep the MAC from being starved. -/
theorem neverStarved_of_inOrder {es : List Event}
    (h : (machine depth).Along (fun s e => s.inOrder e = true) reset es) :
    NeverStarved depth es ∧ (after depth es).announced ≤ (after depth es).packetsShown := by
  induction es using List.reverseRecOn with
  | nil => exact ⟨trivial, Nat.le_refl 0⟩
  | append_singleton es e ih =>
    obtain ⟨hpast, hnow⟩ := (machine depth).along_concat.mp h
    obtain ⟨hfed, hle⟩ := ih hpast
    refine ⟨(machine depth).along_concat.mpr ⟨hfed, ?_⟩, ?_⟩
    · cases hst : (after depth es).starved e with
      | false => exact hst
      | true =>
        obtain ⟨hs, hempty⟩ := starved_state hst
        simp [Tx.announced, Tx.packetsShown, hs, hempty] at hle
    · rw [after, Machine.run_concat]
      exact announced_step hle hnow

/-- Both words of a packet are written and its entry shows before its second word: the MAC takes
a word that does not exist. -/
theorem second_word_missing :
    let word (n : BitVec 512) (last : Bool) : Word := ⟨n, 1, 0, last⟩
    let es : List Event := [.clk true (word 1 false), .clk true (word 2 true), .revealInfo,
      .revealWord, .clk156 true (word 0 false), .clk156 true (word 0 false)]
    enqueued 16 es = [word 1 false, word 2 true] ∧
      accepted 16 es = [word 1 false, word 0 false] ∧ ¬ HandsOver 16 es := by
  intro word es
  refine ⟨by decide +kernel, by decide +kernel, fun h => ?_⟩
  have hall := h.2 es (List.prefix_refl _)
  revert hall
  decide +kernel

end Osnt.TxQueue
