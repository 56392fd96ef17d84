import Osnt.ReferenceDatapath
import Osnt.Lib.Merge
import Osnt.Lib.Parts
import Osnt.Proofs.InputArbiter
import Osnt.Proofs.ReadyQueues

/-! The reference datapaths from the receive queues to the transmit queues, for any lookup that does
its part: whole packets, each source in order, to the queues their label selects. -/
namespace Osnt.ReferenceDatapath
open Lib InputArbiter OutputQueues
variable {ρ : Type} (L : Lookup ρ) (s : Sys ρ) (l : ρ) (ins : List Input)
  {label : List Word → List Word}

abbrev arbiterIns : List InputArbiter.Input :=
  (Sys.machine L).fed (Sys.arbiterIn L) (s.reset l) ins

abbrev lookupIns : List LookupInput :=
  (Sys.machine L).fed (fun t _ => t.lookupIn) (s.reset l) ins

abbrev queuesIns : List OutputQueues.Input :=
  (Sys.machine L).fed (Sys.queuesIn L) (s.reset l) ins

theorem run_arbiter : (after L s l ins).inputArbiter =
    Arbiter.machine.run s.inputArbiter.reset (arbiterIns L s l ins) :=
  (Sys.machine L).run_part Arbiter.machine Sys.inputArbiter (Sys.arbiterIn L) (fun _ _ => rfl) _ _

theorem run_lookup : (after L s l ins).outputPortLookup =
    L.machine.run l (lookupIns L s l ins) :=
  (Sys.machine L).run_part L.machine Sys.outputPortLookup (fun t _ => t.lookupIn)
    (fun _ _ => rfl) _ _

theorem run_queues : (after L s l ins).bramOutputQueues =
    Queues.machine.run s.bramOutputQueues.reset (queuesIns L s l ins) :=
  (Sys.machine L).run_part Queues.machine Sys.bramOutputQueues (Sys.queuesIn L) (fun _ _ => rfl) _ _

theorem accepted_eq (q : Fin 3) : accepted L s l ins q =
    Arbiter.machine.collect (Arbiter.accepted q) s.inputArbiter.reset (arbiterIns L s l ins) :=
  (Sys.machine L).collect_part Arbiter.machine Sys.inputArbiter (Sys.arbiterIn L) (fun _ _ => rfl)
    (Arbiter.accepted q) _ _

theorem handed_eq (p : Fin 3) : handed L s l ins p =
    Queues.machine.collect (Queues.handed p) s.bramOutputQueues.reset (queuesIns L s l ins) :=
  (Sys.machine L).collect_part Queues.machine Sys.bramOutputQueues (Sys.queuesIn L) (fun _ _ => rfl)
    (Queues.handed p) _ _

/-- The line between the arbiter and the lookup, with the source of each word. -/
def merged : List (Fin 3 × Word) :=
  Arbiter.machine.collect Arbiter.handed s.inputArbiter.reset (arbiterIns L s l ins)

/-- The line between the lookup and the queues. -/
def labelled : List Word := L.machine.collect L.handed l (lookupIns L s l ins)

theorem merged_eq : L.machine.collect L.accepted l (lookupIns L s l ins) =
    (merged L s l ins).map Prod.snd := by
  have hl := (Sys.machine L).collect_part L.machine Sys.outputPortLookup (fun t _ => t.lookupIn)
    (fun _ _ => rfl) L.accepted (s.reset l) ins
  have ha := (Sys.machine L).collect_part Arbiter.machine Sys.inputArbiter (Sys.arbiterIn L)
    (fun _ _ => rfl) Arbiter.handed (s.reset l) ins
  have hwire : (fun (t : Sys ρ) (_ : Input) => L.accepted t.outputPortLookup t.lookupIn) =
      fun t i => (t.inputArbiter.handed (t.arbiterIn L i)).map Prod.snd := by
    funext t i
    unfold Lookup.accepted Arbiter.handed
    cases hv : t.inputArbiter.mTvalid <;> cases hr : L.sTready t.outputPortLookup <;>
      simp [Sys.lookupIn, Sys.arbiterIn, hv, hr]
  rw [hwire, ← (Sys.machine L).collect_map, ha] at hl
  exact hl.symm

theorem labelled_eq : Queues.machine.collect Queues.accepted s.bramOutputQueues.reset
    (queuesIns L s l ins) = labelled L s l ins := by
  have hl := (Sys.machine L).collect_part L.machine Sys.outputPortLookup (fun t _ => t.lookupIn)
    (fun _ _ => rfl) L.handed (s.reset l) ins
  have hq := (Sys.machine L).collect_part Queues.machine Sys.bramOutputQueues (Sys.queuesIn L)
    (fun _ _ => rfl) Queues.accepted (s.reset l) ins
  exact hq.symm.trans hl

/-- The queues take every word, so the lookup always finds them ready. -/
theorem ready_lookupIns : ∀ i ∈ lookupIns L s l ins, i.tready = true :=
  (Sys.machine L).forall_fed _ (fun _ _ _ => rfl)

theorem sTready_run (hL : L.Labels l label) :
    L.sTready (after L s l ins).outputPortLookup = true := by
  rw [run_lookup]
  exact hL.ready _ (ready_lookupIns L s l ins)

/-- What comes behind the lookup is labelled, in the order of the line. -/
theorem labelled_front (hL : L.Labels l label) :
    labelled L s l ins <+: label ((merged L s l ins).map Prod.snd) := by
  have horder := hL.order _ (ready_lookupIns L s l ins)
  rwa [merged_eq] at horder

theorem merged_source (q : Fin 3) : Merge.ofSender q (merged L s l ins) <+:
    accepted L s l ins q := by
  rw [accepted_eq, Arbiter.accepted_run]
  exact List.prefix_append _ _

theorem merged_unmixed : (merged L s l ins).IsChain (Merge.Unmixed Word.tlast) :=
  (Arbiter.framed_run s.inputArbiter (arbiterIns L s l ins)).unmixed

theorem within_label (hL : L.Labels l label) {n : Nat} {ws : List Word} :
    (frames Word.tlast (label ws)).Within n ↔ (frames Word.tlast ws).Within n := by
  have hmark : ∀ w : Word, (dataWord w).tlast = w.tlast := fun _ => rfl
  rw [← within_map Word.tlast hmark, hL.data ws, within_map Word.tlast hmark]

/-- Packets that are short at every source are short behind the lookup. -/
theorem within_labelled (hL : L.Labels l label) {n : Nat}
    (hw : ∀ q, (packets L s l ins q).Within n) :
    (frames Word.tlast (labelled L s l ins)).Within n := by
  obtain ⟨ps, hcut⟩ := Merge.exists_cut (merged_unmixed L s l ins)
  have hline := hcut.within fun q =>
    within_of_isPrefix Word.tlast (merged_source L s l ins q) (hw q)
  exact within_of_isPrefix Word.tlast (labelled_front L s l ins hL)
    ((within_label L l hL).mpr hline)

/-- What the queues have been offered are the packets behind the lookup. -/
theorem offered_eq : Queues.offered s.bramOutputQueues.reset (queuesIns L s l ins) =
    frames Word.tlast (labelled L s l ins) := by
  rw [Queues.offered, labelled_eq]

/-- A cycle in which nothing arrives and every transmit queue is ready. -/
def quiet : Input := ⟨fun _ => false, fun _ => default, fun _ => true⟩

/-- A cycle in which the sources offer these words, and all transmit queues are ready or none is. -/
def offering (ready : Bool) (words : List (Option Word)) : Input :=
  ⟨fun q => (words.getD q.val none).isSome, fun q => (words.getD q.val none).getD default,
    fun _ => ready⟩

section Quiet
variable (k : Nat)

theorem arbiterIns_quiet (hL : L.Labels l label) :
    arbiterIns L s l (ins ++ List.replicate k quiet) =
      arbiterIns L s l ins ++ List.replicate k Arbiter.quiet := by
  induction k with
  | zero => simp
  | succ k ih =>
    have hready := sTready_run L s l (ins ++ List.replicate k quiet) hL
    rw [List.replicate_succ', ← List.append_assoc, arbiterIns, Machine.fed_concat]
    rw [arbiterIns] at ih
    rw [ih, List.replicate_succ', List.append_assoc, Sys.arbiterIn, hready]
    rfl

theorem accepted_quiet (hL : L.Labels l label) (q : Fin 3) :
    accepted L s l (ins ++ List.replicate k quiet) q =
      accepted L s l ins q := by
  rw [accepted_eq, arbiterIns_quiet L s l ins k hL, Arbiter.accepted_quiet, accepted_eq]

/-- The arbiter hands over all that was accepted, and stays empty. -/
theorem arbiter_drained (hL : L.Labels l label) (hc : ∀ q, (packets L s l ins q).rest = []) :
    ∃ k, ∀ j, (after L s l (ins ++ List.replicate (k + j) quiet)).inputArbiter.mTvalid =
        false ∧
      ∀ q, Merge.ofSender q (merged L s l (ins ++ List.replicate (k + j) quiet)) =
        accepted L s l ins q := by
  have hcomplete : Arbiter.Complete s.inputArbiter.reset (arbiterIns L s l ins) := by
    intro q w hw
    rw [← accepted_eq] at hw
    obtain ⟨front, hfront⟩ := List.getLast?_eq_some_iff.mp hw
    have hopen := (opens_iff_rest Word.tlast _).mpr (hc q)
    rwa [hfront, opens_concat] at hopen
  obtain ⟨k, hk⟩ := Arbiter.drains s.inputArbiter hcomplete
  refine ⟨k, fun j => ?_⟩
  have hempty : ∀ q, ((after L s l
      (ins ++ List.replicate (k + j) quiet)).inputArbiter.fifo q).contents = [] := by
    intro q
    rw [run_arbiter, arbiterIns_quiet L s l ins (k + j) hL, List.replicate_add, ← List.append_assoc]
    exact Arbiter.empty_quiet s.inputArbiter hk j q
  constructor
  · rw [Arbiter.mTvalid, Bool.not_eq_false', FallthroughFifo.empty, Bool.not_eq_true']
    by_contra hd
    have hcons := FallthroughFifo.contents_eq_cons (eq_true_of_ne_false hd)
    rw [hempty] at hcons
    cases hcons
  · intro q
    rw [← accepted_quiet L s l ins (k + j) hL q, accepted_eq, Arbiter.accepted_run, ← run_arbiter,
      hempty q, List.append_nil]
    rfl

/-- Behind an arbiter that shows nothing the lookup gets nothing. -/
theorem lookupIns_quiet {k : Nat}
    (hidle : ∀ j, (after L s l (ins ++ List.replicate (k + j) quiet)).inputArbiter.mTvalid = false)
    (j : Nat) :
    ∃ js, lookupIns L s l (ins ++ List.replicate (k + j) quiet) =
        lookupIns L s l (ins ++ List.replicate k quiet) ++ js ∧ js.length = j ∧
      ∀ i ∈ js, i.tvalid = false ∧ i.tready = true := by
  induction j with
  | zero => exact ⟨[], by simp, rfl, by simp⟩
  | succ j ih =>
    obtain ⟨js, hjs, hlen, hall⟩ := ih
    have hi := hidle j
    rw [← Nat.add_assoc, List.replicate_succ', ← List.append_assoc, lookupIns, Machine.fed_concat]
    rw [lookupIns] at hjs
    refine ⟨js ++ [(after L s l (ins ++ List.replicate (k + j) quiet)).lookupIn],
      by rw [hjs, List.append_assoc], by simp [hlen], ?_⟩
    intro i hmem
    rcases List.mem_append.mp hmem with hmem | hmem
    · exact hall i hmem
    · rw [List.mem_singleton.mp hmem]
      exact ⟨hi, rfl⟩

/-- The lookup hands over the labelled line, and has nothing to show any more. -/
theorem lookup_drained (hL : L.Labels l label) (hc : ∀ q, (packets L s l ins q).rest = []) :
    ∃ k es, (∀ q, Merge.ofSender q es = accepted L s l ins q) ∧
      es.IsChain (Merge.Unmixed Word.tlast) ∧
      ∀ j, labelled L s l (ins ++ List.replicate (k + j) quiet) = label (es.map Prod.snd) := by
  obtain ⟨k, hk⟩ := arbiter_drained L s l ins hL hc
  obtain ⟨n, hn⟩ := hL.flush
  refine ⟨k + n, merged L s l (ins ++ List.replicate k quiet), (hk 0).2, merged_unmixed L s l _, ?_⟩
  intro j
  obtain ⟨js, hjs, hlen, hall⟩ := lookupIns_quiet L s l ins (fun j => (hk j).1) (n + j)
  rw [labelled, Nat.add_assoc, hjs,
    hn _ js (ready_lookupIns L s l _) hall (by rw [hlen]; exact Nat.le_add_right n j), merged_eq]

end Quiet

/-- A cycle in which nothing arrives at the queues and every receiver is ready brings them nearer to
being empty. -/
theorem backlog_idle {t : Queues} (ht : ∀ q, (t.data q).Sound) {i : OutputQueues.Input}
    (hv : i.tvalid = false) (hr : ∀ q, i.tready q = true) :
    (∀ q, ((t.step i).data q).Sound) ∧ (¬ (∀ q, (t.data q).contents = []) →
      ∑ q, ((t.step i).data q).backlog < ∑ q, (t.data q).backlog) := by
  have hwr : ∀ q, t.wrEn i q = false := by
    intro q
    simp [Queues.wrEn, hv, noQueue]
  have hstep : ∀ q, (t.step i).data q = (t.data q).step false (dataWord i.word) (t.rdEn i q) := by
    intro q
    rw [← hwr q]
    rfl
  have hback := fun q => FallthroughFifo.backlog_step (ht q) (t.rdEn i q) (dataWord i.word)
    (by simp [Queues.rdEn, hr, FallthroughFifo.empty])
  constructor
  · intro q
    rw [hstep q]
    exact (ht q).step _ _ _ (by simp)
  · intro hgoal
    obtain ⟨q, hq⟩ := not_forall.mp hgoal
    refine Finset.sum_lt_sum (fun q _ => ?_) ⟨q, Finset.mem_univ _, ?_⟩
    · rw [hstep q]
      exact (hback q).1
    · rw [hstep q]
      exact (hback q).2 hq

theorem reached_queues (hL : L.Labels l label) (hw : ∀ q, (packets L s l ins q).Within 25) :
    Queues.Reached s.bramOutputQueues.reset (queuesIns L s l ins)
      (after L s l ins).bramOutputQueues := by
  rw [run_queues]
  refine Queues.reached_run s.bramOutputQueues ?_
  rw [offered_eq]
  exact within_labelled L s l ins hL hw

theorem queues_drained {k : Nat} {out : List Word}
    (hs : ∀ j q,
      ((after L s l (ins ++ List.replicate (k + j) quiet)).bramOutputQueues.data q).Sound)
    (hk : ∀ j, labelled L s l (ins ++ List.replicate (k + j) quiet) = out) :
    ∃ j, ∀ q, ((after L s l
      (ins ++ List.replicate (k + j) quiet)).bramOutputQueues.data q).contents = [] := by
  have hreach := (Sys.machine L).run_reaches quiet
    (fun t => ∃ j, t = after L s l (ins ++ List.replicate (k + j) quiet))
    (fun t => ∀ q, (t.bramOutputQueues.data q).contents = [])
    (fun t => ∑ q, (t.bramOutputQueues.data q).backlog) ?_
    (s := after L s l (ins ++ List.replicate k quiet)) ⟨0, rfl⟩
  · obtain ⟨j, hj⟩ := hreach
    refine ⟨j, ?_⟩
    rw [after, List.replicate_add, ← List.append_assoc, Machine.run_append]
    exact hj
  · rintro t ⟨j, rfl⟩ hgoal
    have hnext : (Sys.machine L).step (after L s l (ins ++ List.replicate (k + j) quiet)) quiet =
        after L s l (ins ++ List.replicate (k + (j + 1)) quiet) := by
      rw [after, after, ← Nat.add_assoc, List.replicate_succ', ← List.append_assoc,
        Machine.run_concat]
    have hsilent : ((after L s l (ins ++ List.replicate (k + j) quiet)).queuesIn L
        quiet).tvalid = false := by
      have hsame := hk (j + 1)
      rw [← hk j, ← Nat.add_assoc, List.replicate_succ', ← List.append_assoc, labelled, lookupIns,
        Machine.fed_concat, Machine.collect_concat, ← lookupIns, ← run_lookup, ← labelled] at hsame
      have hnone := List.append_right_eq_self.mp hsame
      change L.mTvalid _ = false
      simpa [Lookup.handed, Sys.lookupIn, Queues.sTready] using hnone
    have hidle := backlog_idle (hs j) hsilent (fun _ => rfl)
    exact .inr ⟨⟨j + 1, hnext⟩, hidle.2 hgoal⟩

/-- Packets merged from the sources, as the lookup labels them. -/
def relabelled (label : List Word → List Word) (ps : List (Fin 3 × List Word)) :
    List (List Word) :=
  (frames Word.tlast (label (ps.map Prod.snd).flatten)).closed

theorem frames_label (hL : L.Labels l label) {ws : List Word}
    (h : (frames Word.tlast ws).rest = []) :
    (frames Word.tlast (label ws)).rest = [] ∧
      (frames Word.tlast (label ws)).closed.map (List.map dataWord) =
        (frames Word.tlast ws).closed.map (List.map dataWord) := by
  have hmark : ∀ w : Word, (dataWord w).tlast = w.tlast := fun _ => rfl
  have hdata := congrArg (frames DataWord.tlast) (hL.data ws)
  rw [frames_map Word.tlast hmark, frames_map Word.tlast hmark, Frames.mk.injEq, h] at hdata
  exact ⟨List.map_eq_nil_iff.mp hdata.2, hdata.1⟩

/-- Sources that have ended their packets: the line is their packets in some order, and what comes
behind the lookup in the end are these, labelled. -/
theorem line_drained (hL : L.Labels l label) (hc : ∀ q, (packets L s l ins q).rest = []) :
    ∃ k ps out, (∀ q, Merge.ofSender q ps = (packets L s l ins q).closed) ∧
      (relabelled label ps).length = ps.length ∧ frames Word.tlast out = ⟨relabelled label ps, []⟩ ∧
      ∀ j, labelled L s l (ins ++ List.replicate (k + j) quiet) = out := by
  obtain ⟨k, es, hes, hmix, hk⟩ := lookup_drained L s l ins hL hc
  obtain ⟨ps, hcut⟩ := Merge.exists_cut hmix
  have hrest := hcut.rest_nil fun q => by rw [hes q]; exact hc q
  have hline : es.map Prod.snd = (ps.map Prod.snd).flatten := by
    have hspec := (frames_spec Word.tlast (es.map Prod.snd)).1
    rw [hrest, List.append_nil, ← hcut.closed] at hspec
    exact hspec.symm
  obtain ⟨hopen, hsame⟩ := frames_label L l hL hrest
  refine ⟨k, ps, label (es.map Prod.snd), fun q => by rw [hcut.each q, hes q, packets], ?_, ?_, hk⟩
  · have hcount := congrArg List.length hsame
    rw [List.length_map, List.length_map, ← hcut.closed, List.length_map, hline] at hcount
    exact hcount
  · rw [relabelled, ← hline, ← hopen]

/-- A queue that is empty has handed over all that was stored in it. -/
theorem handed_of_empty {p : Fin 3} {t : Queues} {ins' : List OutputQueues.Input} {r : Queues}
    (h : ∃ sent g, Queues.Aligned t p sent g ∧
      Queues.machine.collect (Queues.stored p) r ins' = sent ++ g.vals ∧
      Queues.machine.collect (Queues.handed p) r ins' = sent.map dataWord)
    (hempty : (t.data p).contents = []) :
    Queues.machine.collect (Queues.handed p) r ins' =
      (Queues.machine.collect (Queues.stored p) r ins').map dataWord := by
  obtain ⟨sent, g, ha, hst, hh⟩ := h
  have hg : g.vals = [] := by
    have hcon := ha.data.contents
    rw [hempty, DelayQueue.vals_mapVals] at hcon
    exact List.map_eq_nil_iff.mp hcon.symm
  rw [hh, hst, hg, List.append_nil]

/-- From reset, with packets of at most 25 words: when the sources have ended their packets and all
receivers are ready, the datapath empties. Then the packets of all sources have come in some order
that keeps the order of each source, and each transmit queue has got those labelled for it, whole,
less the ones that were dropped from all queues. -/
theorem drained (hL : L.Labels l label) (hw : ∀ q, (packets L s l ins q).Within 25)
    (hc : ∀ q, (packets L s l ins q).rest = []) :
    ∃ k ps, ∃ verdicts : List Bool, (∀ q, Merge.ofSender q ps = (packets L s l ins q).closed) ∧
      verdicts.length = ps.length ∧
      ∀ p, handed L s l (ins ++ List.replicate k quiet) p =
        (share p ((relabelled label ps).zip verdicts)).map dataWord := by
  obtain ⟨k, ps, out, hps, hlen, hout, hk⟩ := line_drained L s l ins hL hc
  have hreached : ∀ j, Queues.Reached s.bramOutputQueues.reset
      (queuesIns L s l (ins ++ List.replicate (k + j) quiet))
      (after L s l (ins ++ List.replicate (k + j) quiet)).bramOutputQueues := by
    intro j
    refine reached_queues L s l _ hL fun q => ?_
    rw [packets, accepted_quiet L s l ins (k + j) hL]
    exact hw q
  have hsound : ∀ j q, ((after L s l
      (ins ++ List.replicate (k + j) quiet)).bramOutputQueues.data q).Sound := by
    intro j q
    obtain ⟨_, g, ha, _⟩ := (hreached j).aligned q
    exact ⟨_, ha.data⟩
  obtain ⟨j, hj⟩ := queues_drained L s l ins hsound hk
  obtain ⟨verdicts, hwritten⟩ := (hreached j).written
  rw [offered_eq, hk j, hout] at hwritten
  refine ⟨k + j, ps, verdicts, hps, hwritten.length.trans hlen, fun p => ?_⟩
  have hidle := hwritten.idle.mpr rfl
  rw [handed_eq, handed_of_empty ((hreached j).aligned p) (hj p), hwritten.stored p, hidle]
  simp

/-- From reset, behind receivers that are always ready, with packets of any length: nothing is
dropped. -/
theorem lossless (hL : L.Labels l label) (hr : ∀ i ∈ ins, ∀ p, i.tready p = true)
    (hc : ∀ q, (packets L s l ins q).rest = []) :
    ∃ k ps, (∀ q, Merge.ofSender q ps = (packets L s l ins q).closed) ∧
      ∀ p, handed L s l (ins ++ List.replicate k quiet) p =
        ((relabelled label ps).flatMap (fun pkt => if selects pkt p then pkt else [])).map
          dataWord := by
  obtain ⟨k, ps, out, hps, -, hout, hk⟩ := line_drained L s l ins hL hc
  have hflowing : ∀ j, Queues.Flowing s.bramOutputQueues.reset
      (queuesIns L s l (ins ++ List.replicate (k + j) quiet))
      (after L s l (ins ++ List.replicate (k + j) quiet)).bramOutputQueues := by
    intro j
    rw [run_queues]
    refine Queues.flowing_run s.bramOutputQueues
      ((Sys.machine L).forall_fed _ fun past i hpre => ?_)
    have hmem := hpre.subset (List.mem_append_right past (List.mem_singleton_self i))
    rcases List.mem_append.mp hmem with hmem | hmem
    · exact hr i hmem
    · rw [(List.mem_replicate.mp hmem).2]
      exact fun _ => rfl
  obtain ⟨j, hj⟩ := queues_drained L s l ins (fun j q => ((hflowing j).clear q).sound) hk
  have hpassed := (hflowing j).passed
  rw [labelled_eq, hk j] at hpassed
  refine ⟨k + j, ps, hps, fun p => ?_⟩
  rw [handed_eq, handed_of_empty ((hflowing j).aligned p) (hj p), hpassed.stored p, routed,
    framewise, hout]
  simp [selects]

end Osnt.ReferenceDatapath
