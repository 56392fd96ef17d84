import Osnt.Proofs.OutputQueues

/-! The output queues behind receivers that are always ready: nothing waits, so nothing is ever
dropped, whatever the length of the packets. -/
namespace Osnt.OutputQueues
open Lib Lib.DelayQueue

/-- What a queue is to get of a stream: the packets that select it. -/
def routed (q : Fin 3) (ws : List Word) : List Word :=
  framewise Word.tlast (fun pkt => if selects pkt q then pkt else []) ws

namespace Queues

/-- Nothing waits in the data FIFOs. -/
def Clear (t : Queues) : Prop := ∀ q, (t.data q).Prompt 0

theorem Clear.admits {t : Queues} (h : Clear t)
    (hm : ∀ q, (t.metadata q).fifo.depth.toNat ≤ 3) (tuser : BitVec 128) :
    t.admits tuser = true := by
  rw [admits_iff]
  intro q _
  have hdata := (h q).length_le.2
  have hmeta := hm q
  refine ⟨?_, ?_⟩
  · have hth : bufferThreshold = 39 := by decide
    omega
  · simp only [FallthroughFifo.nearlyFull, SmallFifo.nearlyFull, decide_eq_false_iff_not]
    omega

/-- The write side when every packet is admitted: it waits, begins a packet or goes on with it. -/
theorem write_admitted {t : Queues} {i : Input} (ha : t.admits i.word.tuser = true)
    (hd : t.state ≠ .drop) :
    (i.tvalid = false ∧ t.wrEn i = noQueue ∧ (t.step i).state = t.state ∧
        (t.state = .wrPkt → (t.step i).curQueue = t.curQueue)) ∨
      (i.tvalid = true ∧ t.state = .idle ∧ t.wrEn i = oq i.word.tuser ∧
        (t.step i).state = (if i.word.tlast then .idle else .wrPkt) ∧
        (t.step i).curQueue = oq i.word.tuser) ∨
      (i.tvalid = true ∧ t.state = .wrPkt ∧ t.wrEn i = t.curQueue ∧
        (t.step i).state = (if i.word.tlast then .idle else .wrPkt) ∧
        (t.step i).curQueue = t.curQueue) := by
  cases hv : i.tvalid <;> cases hs : t.state <;> cases hl : i.word.tlast <;>
    simp_all [step, comb, wrEn, sTready]

/-- The write side after some words, if it has dropped none. -/
structure Passed (t : Queues) (ws : List Word) (stored : Fin 3 → List Word) : Prop where
  state : t.state ≠ .drop
  idle : t.state = .idle ↔ (frames Word.tlast ws).rest = []
  cur : t.state = .wrPkt → t.curQueue = selects (frames Word.tlast ws).rest
  stored : ∀ q, stored q = routed q ws

theorem routed_concat {q : Fin 3} {ws out : List Word} {w : Word}
    (h : (if selects ((frames Word.tlast ws).rest ++ [w]) q then
        (frames Word.tlast ws).rest ++ [w] else []) =
      (if selects (frames Word.tlast ws).rest q then (frames Word.tlast ws).rest else []) ++ out) :
    routed q (ws ++ [w]) = routed q ws ++ out :=
  framewise_concat Word.tlast _ rfl h

theorem passed_step {t : Queues} {ws : List Word} {st : Fin 3 → List Word} (h : Passed t ws st)
    {i : Input} (ha : t.admits i.word.tuser = true) :
    Passed (t.step i) (ws ++ t.accepted i) (fun q => st q ++ t.stored q i) := by
  rcases write_admitted ha h.state with ⟨hv, hw, hs, hc⟩ | ⟨hv, hi, hw, hs, hc⟩ |
    ⟨hv, hi, hw, hs, hc⟩
  · have hacc : t.accepted i = [] := by simp [accepted, hv]
    rw [hacc, List.append_nil]
    refine ⟨hs ▸ h.state, by rw [hs]; exact h.idle, ?_, fun q => ?_⟩
    · rw [hs]
      exact fun hp => (hc hp).trans (h.cur hp)
    · rw [h.stored q]
      simp [Queues.stored, hw, noQueue]
  · have hacc : t.accepted i = [i.word] := by simp [accepted, hv, sTready]
    have hrest := h.idle.mp hi
    rw [hacc]
    refine ⟨?_, ?_, ?_, fun q => ?_⟩
    · rw [hs]
      cases i.word.tlast <;> simp
    · rw [hs, frames_concat]
      cases hl : i.word.tlast with
      | true => simp [Frames.push_last _ hl]
      | false => simp [Frames.push_inner _ hl]
    · rw [hs, frames_concat, hc]
      cases hl : i.word.tlast with
      | true => simp
      | false =>
        rw [Frames.push_inner _ hl, hrest]
        exact fun _ => rfl
    · rw [h.stored q]
      refine (routed_concat ?_).symm
      rw [hrest]
      cases hq : oq i.word.tuser q <;> simp [Queues.stored, hw, selects, hq]
  · have hacc : t.accepted i = [i.word] := by simp [accepted, hv, sTready]
    have hrest : (frames Word.tlast ws).rest ≠ [] := by
      rw [Ne, ← h.idle, hi]
      simp
    have hcur := h.cur hi
    rw [hacc]
    refine ⟨?_, ?_, ?_, fun q => ?_⟩
    · rw [hs]
      cases i.word.tlast <;> simp
    · rw [hs, frames_concat]
      cases hl : i.word.tlast with
      | true => simp [Frames.push_last _ hl]
      | false => simp [Frames.push_inner _ hl]
    · rw [hs, frames_concat, hc, hcur]
      cases hl : i.word.tlast with
      | true => simp
      | false =>
        rw [Frames.push_inner _ hl]
        intro _
        funext q
        exact (selects_concat hrest i.word q).symm
    · rw [h.stored q]
      refine (routed_concat ?_).symm
      rw [selects_concat hrest]
      cases hq : selects (frames Word.tlast ws).rest q <;>
        simp [Queues.stored, hw, hcur, hq]

/-- What holds after a run in which every receiver was always ready. -/
structure Flowing (s : Queues) (past : List Input) (t : Queues) : Prop where
  clear : Clear t
  passed : Passed t (machine.collect accepted s past) (fun q => machine.collect (stored q) s past)
  aligned : ∀ q, ∃ sent g, Aligned t q sent g ∧
    machine.collect (stored q) s past = sent ++ g.vals ∧
    machine.collect (handed q) s past = sent.map dataWord

theorem Flowing.metadata_le {s t : Queues} {past : List Input} (h : Flowing s past t) (q : Fin 3) :
    (t.metadata q).fifo.depth.toNat ≤ 3 := by
  obtain ⟨_, g, ha, _⟩ := h.aligned q
  have hdata := (h.clear q).length_le.1
  rw [ha.data.contents, vals_mapVals, List.length_map, length_vals] at hdata
  have hmeta := ha.metadata.length
  have hle := length_openers_le lastEntry (t.begins q) g
  rw [headers, mapVals, List.length_map] at hmeta
  omega

theorem Flowing.admits {s t : Queues} {past : List Input} (h : Flowing s past t)
    (tuser : BitVec 128) : t.admits tuser = true :=
  h.clear.admits h.metadata_le tuser

theorem flowing_reset (s : Queues) : Flowing s.reset [] s.reset where
  clear _ := FallthroughFifo.prompt_reset 0 _
  passed := ⟨by simp [reset], by simp [reset], by simp [reset], fun _ => rfl⟩
  aligned q := by
    refine ⟨[], [], ⟨.reset _, .reset _, by simp [begins, reset], ?_⟩, rfl, rfl⟩
    simp [closing, opens, begins, reset]

theorem flowing_step {s : Queues} {past : List Input} {i : Input}
    (h : Flowing s past (machine.run s past)) (hr : ∀ q, i.tready q = true) :
    Flowing s (past ++ [i]) ((machine.run s past).step i) := by
  have hdata : ∀ q, ((machine.run s past).data q).full = false := fun q =>
    FallthroughFifo.full_of_nearlyFull ((h.clear q).nearlyFull (by decide))
  have hmeta : ∀ q, ((machine.run s past).metadata q).full = false := by
    intro q
    have hle := h.metadata_le q
    simp only [FallthroughFifo.full, SmallFifo.full, beq_eq_false_iff_ne]
    omega
  refine ⟨fun q => ?_, ?_, fun q => ?_⟩
  · have hstep := (h.clear q).step ((machine.run s past).wrEn i q)
      ((machine.run s past).rdEn i q) (dataWord i.word)
      (fun hd => by simp [rdEn, hr q, FallthroughFifo.empty, hd]) (fun _ => hdata q)
    exact hstep.mono (Nat.zero_le _)
  · simp only [Machine.collect_concat]
    exact passed_step h.passed (h.admits _)
  · obtain ⟨sent, g, ha, hst, hh⟩ := h.aligned q
    obtain ⟨sent', g', ha', hst', hh'⟩ := aligned_step ha (fun _ => hdata q) (fun _ => hmeta q)
    refine ⟨sent', g', ha', ?_, ?_⟩
    · rw [Machine.collect_concat, hst, hst']
    · rw [Machine.collect_concat, hh, hh']

theorem flowing_run (s : Queues) {ins : List Input} (h : ∀ i ∈ ins, ∀ q, i.tready q = true) :
    Flowing s.reset ins (machine.run s.reset ins) :=
  machine.run_keeps (machine.along_of_forall h) (fun past t => Flowing s.reset past t)
    (flowing_reset s) fun _ _ hp hi => flowing_step hp hi

end Queues
end Osnt.OutputQueues
