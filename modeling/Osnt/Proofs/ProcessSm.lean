import Osnt.ProcessSm

/-! Packets through `op_lut_process_sm`. What goes to the output register is right for every
pattern of the receiver; what is accepted from it is the same only if the receiver is ready
whenever a word is shown, since the register shows a word for one cycle. -/
namespace Osnt.ProcessSm
open Lib
variable {m : Macs}

/-- The guards of the pulses to the CPU overlap in no record. -/
theorem high_cpuPulses {r : Record} (hcpu : r.isFromCpu = false) (ha : r.accepts = true)
    (hip : r.isIpPkt = true) (hck : r.ipChecksumIsGood = true) (hn : r.needsCpu = true) :
    (Regs.cpuPulses r).high = [r.counter] := by
  simp only [Record.needsCpu] at hn
  cases hd : r.destIpHit <;> cases ht : r.ipTtlIsGood <;> cases ho : r.ipHdrHasOptions <;>
    cases hl : r.lpmLookupHit <;> cases hr : r.arpLookupHit <;>
    simp only [hd, ht, ho, hl, hr, Bool.not_true, Bool.or_self, Bool.false_eq_true] at hn <;>
    simp [Record.counter, Regs.cpuPulses, Pulses.high, hcpu, ha, hip, hck, hd, ht, ho, hl, hr]

theorem counter_of_not_needsCpu {r : Record} (hcpu : r.isFromCpu = false)
    (ha : r.accepts = true) (hip : r.isIpPkt = true) (hck : r.ipChecksumIsGood = true)
    (hn : r.needsCpu = false) :
    r.counter = if r.isBroadcast then .droppedWrongDstMac else .forwarded := by
  simp only [Record.needsCpu, Bool.or_eq_false_iff, Bool.not_eq_false'] at hn
  obtain ⟨⟨⟨⟨hd, ho⟩, ht⟩, hr⟩, hl⟩ := hn
  simp [Record.counter, hcpu, ha, hip, hck, hd, ho, ht, hr, hl]

/-- A record leads to one of three moves, with the one counter of the record pulsed. -/
theorem classify_cases (s : Regs) (w : Word) (r : Record) :
    (∃ port p, r.action = .send port ∧ s.classify w r = Regs.toSend w port p ∧
        p.high = [r.counter]) ∨
      (∃ p, r.action = .drop ∧ s.classify w r = s.toDrop w p ∧ p.high = [r.counter]) ∨
      (r.action = .forward r.outputPort ∧
        s.classify w r = ⟨⟨.changePkt, false, w, false, r.outputPort⟩, false, false,
          { pktForwarded := true }⟩ ∧ r.counter = .forwarded) := by
  have hneeds : (r.destIpHit || (r.ipHdrHasOptions || !r.ipTtlIsGood || !r.arpLookupHit ||
      !r.lpmLookupHit)) = r.needsCpu := by simp [Record.needsCpu, Bool.or_assoc]
  have hacc : (r.isForUs && (r.inputPortNum == r.macDstPortNum || r.isBroadcast)) = r.accepts := rfl
  rw [Regs.classify, hneeds, hacc]
  cases hcpu : r.isFromCpu with
  | true =>
    exact .inl ⟨_, _, by simp [Record.action, hcpu], rfl, by simp [Record.counter, hcpu]; rfl⟩
  | false =>
    cases ha : r.accepts with
    | false =>
      exact .inr (.inl ⟨_, by simp [Record.action, hcpu, ha], rfl,
        by simp [Record.counter, hcpu, ha]; rfl⟩)
    | true =>
      cases hip : r.isIpPkt with
      | false =>
        exact .inl ⟨_, _, by simp [Record.action, hcpu, ha, hip], rfl,
          by simp [Record.counter, hcpu, ha, hip]; rfl⟩
      | true =>
        cases hck : r.ipChecksumIsGood with
        | false =>
          exact .inr (.inl ⟨_, by simp [Record.action, hcpu, ha, hip, hck], rfl,
            by simp [Record.counter, hcpu, ha, hip, hck]; rfl⟩)
        | true =>
          cases hn : r.needsCpu with
          | true =>
            exact .inl ⟨_, _, by simp [Record.action, hcpu, ha, hip, hck, hn], rfl,
              high_cpuPulses hcpu ha hip hck hn⟩
          | false =>
            have hc := counter_of_not_needsCpu hcpu ha hip hck hn
            cases hb : r.isBroadcast with
            | true =>
              exact .inr (.inl ⟨_, by simp [Record.action, hcpu, ha, hip, hck, hn, hb], rfl,
                by rw [hc, hb]; rfl⟩)
            | false =>
              exact .inr (.inr ⟨by simp [Record.action, hcpu, ha, hip, hck, hn, hb], rfl,
                by rw [hc, hb]; rfl⟩)

/-- The trace with the words loaded into the output register as its output. -/
def logged (m : Macs) (jobs : List Job) (ins : List Input) : Trace :=
  { observe m jobs ins with out := (machine m).collect (Sys.emitted m) (start jobs) ins }

/-- The trace after one more cycle. -/
def Trace.extend (m : Macs) (t : Trace) (s : Sys) (i : Input) : Trace where
  popped := t.popped ++ s.popped m i
  reads := t.reads + (s.rdPulse m i).length
  counters := t.counters ++ s.counted m i
  out := t.out ++ s.emitted m i

theorem logged_concat (jobs : List Job) (ins : List Input) (i : Input) :
    logged m jobs (ins ++ [i]) = (logged m jobs ins).extend m (after m jobs ins) i := by
  simp [logged, observe, Trace.extend, after]

/-- The words of the packets. -/
def pkts (jobs : List Job) : List Word := (jobs.map Job.pkt).flatten

def sent (m : Macs) (jobs : List Job) : List Word := (jobs.map (Job.sent m)).flatten

def tally (jobs : List Job) : List Counter := jobs.map (fun j => j.record.counter)

@[simp] theorem pkts_cons (j : Job) (jobs : List Job) : pkts (j :: jobs) = j.pkt ++ pkts jobs := rfl

@[simp] theorem pkts_append (js ks : List Job) : pkts (js ++ ks) = pkts js ++ pkts ks := by
  simp [pkts]

@[simp] theorem tally_append (js ks : List Job) :
    tally (js ++ ks) = tally js ++ tally ks := by
  simp [tally]

/-- Between packets: all of `done` is behind, and `rest` is still in the FIFOs. -/
structure Waiting (m : Macs) (done rest : List Job) (t : Trace) (s : Sys) : Prop where
  state : s.regs.state = .waitPreprocessRdy
  words : s.words = pkts rest
  recs : s.recs = rest.map Job.record
  popped : t.popped = pkts done
  reads : t.reads = done.length
  counters : t.counters = tally done
  out : t.out = sent m done

/-- A packet to be forwarded has been counted, and its record not been read. -/
structure Changing (m : Macs) (done : List Job) (j : Job) (rest : List Job) (t : Trace) (s : Sys) :
    Prop where
  state : s.regs.state = .changePkt
  action : j.record.action = .forward s.regs.dstPort
  words : s.words = j.pkt ++ pkts rest
  recs : s.recs = j.record :: rest.map Job.record
  popped : t.popped = pkts done
  reads : t.reads = done.length
  counters : t.counters = tally done ++ [j.record.counter]
  out : t.out = sent m done

/-- `part` of the packet has been popped and `cur` sent for it, `more` is to come. -/
structure Passing (m : Macs) (done : List Job) (j : Job) (rest : List Job)
    (part more cur : List Word) (t : Trace) (s : Sys) : Prop where
  pkt : j.pkt = part ++ more
  open_ : more ≠ []
  state : s.regs.state = .sendPkt ∧ cur.length = part.length ∧
      cur ++ more.map (setDstPort s.regs.dstPort) = j.sent m ∨
    s.regs.state = .dropPkt ∧ cur = [] ∧ j.sent m = []
  words : s.words = more ++ pkts rest
  recs : s.recs = rest.map Job.record
  popped : t.popped = pkts done ++ part
  reads : t.reads = done.length + 1
  counters : t.counters = tally done ++ [j.record.counter]
  out : t.out = sent m done ++ cur

/-- How far the machine has come with the packets. -/
inductive Stage (m : Macs) (jobs : List Job) (t : Trace) (s : Sys) : Prop
  | waiting (done rest : List Job) (h : jobs = done ++ rest) (hw : Waiting m done rest t s)
  | changing (done : List Job) (j : Job) (rest : List Job) (h : jobs = done ++ j :: rest)
      (hc : Changing m done j rest t s)
  | passing (done : List Job) (j : Job) (rest : List Job) (part more cur : List Word)
      (h : jobs = done ++ j :: rest) (hp : Passing m done j rest part more cur t s)

/-- Every job is a packet, with the end marked on its last word and on no other. -/
def Framed (jobs : List Job) : Prop := ∀ j ∈ jobs, Packet Word.tlast j.pkt

theorem step_eq {s : Sys} {i : Input} {d : Drive} (hd : s.drive m i = d) :
    s.step m i = ⟨d.next, if d.inFifoRdEn then s.words.tail else s.words,
      if d.rdPreprocessInfo then s.recs.tail else s.recs⟩ := by
  subst hd
  rfl

theorem extend_eq {s : Sys} {i : Input} {d : Drive} (hd : s.drive m i = d) (t : Trace) :
    t.extend m s i = ⟨t.popped ++ if d.inFifoRdEn then s.words.head?.toList else [],
      t.reads + if d.rdPreprocessInfo then 1 else 0, t.counters ++ d.pulses.high,
      t.out ++ if d.next.outTvalid then [d.next.outWord] else []⟩ := by
  subst hd
  rw [Trace.extend, Sys.rdPulse]
  cases (s.drive m i).rdPreprocessInfo <;> rfl

/-- A cycle in which the machine holds changes nothing that matters. -/
theorem Stage.hold {jobs : List Job} {t : Trace} {s : Sys} {i : Input} {w : Word}
    (h : Stage m jobs t s) (hd : s.drive m i = s.regs.hold w) :
    Stage m jobs (t.extend m s i) (s.step m i) := by
  have ht : t.extend m s i = t := by simp [extend_eq hd, Regs.hold, Pulses.high]
  have hs : s.step m i = { s with regs := { s.regs with outTvalid := false, outWord := w } } := by
    simp [step_eq hd, Regs.hold]
  rw [ht, hs]
  cases h with
  | waiting done rest hj h =>
    exact .waiting done rest hj ⟨h.state, h.words, h.recs, h.popped, h.reads, h.counters, h.out⟩
  | changing done j rest hj h =>
    exact .changing done j rest hj
      ⟨h.state, h.action, h.words, h.recs, h.popped, h.reads, h.counters, h.out⟩
  | passing done j rest part more cur hj h =>
    exact .passing done j rest part more cur hj
      ⟨h.pkt, h.open_, h.state, h.words, h.recs, h.popped, h.reads, h.counters, h.out⟩

theorem Waiting.step {done rest : List Job} {t : Trace} {s : Sys} (h : Waiting m done rest t s)
    (hf : Framed rest) (i : Input) :
    Stage m (done ++ rest) (t.extend m s i) (s.step m i) := by
  cases hv : s.preprocessVld i with
  | false =>
    refine (Stage.waiting done rest rfl h).hold (w := s.words.headD i.word) ?_
    simp [Sys.drive, Regs.drive, h.state, hv]
  | true =>
    cases hr : rest with
    | nil => simp [Sys.preprocessVld, h.recs, hr] at hv
    | cons j rest' =>
      have hne : j.pkt ≠ [] := (hf j (by simp [hr])).ne_nil
      have hd : s.drive m i = s.regs.classify (s.words.headD i.word) j.record := by
        simp [Sys.drive, Regs.drive, h.state, hv, h.recs, hr]
      have hwords : s.words = j.pkt ++ pkts rest' := by rw [h.words, hr, pkts_cons]
      have hrecs : s.recs = j.record :: rest'.map Job.record := by rw [h.recs, hr, List.map_cons]
      rcases classify_cases s.regs (s.words.headD i.word) j.record with
        ⟨port, p, ha, hc, hp⟩ | ⟨p, ha, hc, hp⟩ | ⟨ha, hc, hp⟩
      · refine .passing done j rest' [] j.pkt [] rfl ⟨rfl, hne, .inl ?_, ?_, ?_, ?_, ?_, ?_, ?_⟩
        all_goals simp [step_eq (hd.trans hc), extend_eq (hd.trans hc), Regs.toSend, hwords, hrecs,
          h.popped, h.reads, h.counters, h.out, hp, Job.sent, ha]
      · refine .passing done j rest' [] j.pkt [] rfl ⟨rfl, hne, .inr ?_, ?_, ?_, ?_, ?_, ?_, ?_⟩
        all_goals simp [step_eq (hd.trans hc), extend_eq (hd.trans hc), Regs.toDrop, hwords, hrecs,
          h.popped, h.reads, h.counters, h.out, hp, Job.sent, ha]
      · refine .changing done j rest' rfl ⟨?_, ?_, ?_, ?_, ?_, ?_, ?_, ?_⟩
        all_goals simp [step_eq (hd.trans hc), extend_eq (hd.trans hc), hwords, hrecs, h.popped,
          h.reads, h.counters, h.out, hp, ha, Pulses.high]

theorem Changing.step {done : List Job} {j : Job} {rest : List Job} {t : Trace} {s : Sys}
    (h : Changing m done j rest t s) (hf : Packet Word.tlast j.pkt) (i : Input) :
    Stage m (done ++ j :: rest) (t.extend m s i) (s.step m i) := by
  cases hv : s.inFifoVld i && i.outTready with
  | false =>
    refine (Stage.changing done j rest rfl h).hold (w := s.words.headD i.word) ?_
    simp [Sys.drive, Regs.drive, h.state, hv]
  | true =>
    obtain ⟨w, ws, hw⟩ := List.exists_cons_of_ne_nil hf.ne_nil
    have hlast : w.tlast = true ↔ ws = [] := @Packet.last_iff _ _ [] ws w (hw ▸ hf)
    have hd : s.drive m i = s.regs.emit (changePkt m j.record w) true := by
      simp [Sys.drive, Regs.drive, h.state, hv, h.words, h.recs, hw]
    have hsent : j.sent m = setDstPort s.regs.dstPort (changePkt m j.record w) ::
        ws.map (setDstPort s.regs.dstPort) := by
      simp [Job.sent, h.action, hw]
    have htl : (changePkt m j.record w).tlast = w.tlast := rfl
    cases hl : w.tlast with
    | true =>
      obtain rfl := hlast.mp hl
      refine .waiting (done ++ [j]) rest (by simp) ⟨?_, ?_, ?_, ?_, ?_, ?_, ?_⟩
      all_goals simp [step_eq hd, extend_eq hd, Regs.emit, htl, hl, h.words, h.recs, h.popped,
        h.reads, h.counters, h.out, hw, Pulses.high, tally, pkts, sent, hsent]
    | false =>
      refine .passing done j rest [w] ws [setDstPort s.regs.dstPort (changePkt m j.record w)] rfl
        ⟨hw, fun he => by simp [hlast.mpr he] at hl, .inl ?_, ?_, ?_, ?_, ?_, ?_, ?_⟩
      all_goals simp [step_eq hd, extend_eq hd, Regs.emit, htl, hl, h.words, h.recs, h.popped,
        h.reads, h.counters, h.out, hw, Pulses.high, hsent]

section Passing
variable {done : List Job} {j : Job} {rest : List Job} {part ws cur : List Word} {w : Word}
  {t : Trace} {s : Sys} {i : Input}

/-- The next word of the packet is popped, and sent or not; the packet may end with it. -/
theorem Passing.pop (h : Passing m done j rest part (w :: ws) cur t s) (new : List Word)
    (hf : Packet Word.tlast j.pkt)
    (ht : t.extend m s i = ⟨t.popped ++ [w], t.reads, t.counters, t.out ++ new⟩)
    (hwords : (s.step m i).words = s.words.tail) (hrecs : (s.step m i).recs = s.recs)
    (hstate : (s.step m i).regs.state =
      if w.tlast then .waitPreprocessRdy else s.regs.state)
    (hport : (s.step m i).regs.dstPort = s.regs.dstPort)
    (hnew : new = if s.regs.state = .sendPkt then [setDstPort s.regs.dstPort w] else []) :
    Stage m (done ++ j :: rest) (t.extend m s i) (s.step m i) := by
  have hlast : w.tlast = true ↔ ws = [] := Packet.last_iff _ (h.pkt ▸ hf)
  rw [ht]
  cases hl : w.tlast with
  | true =>
    obtain rfl := hlast.mp hl
    have hout : cur ++ new = j.sent m := by
      rcases h.state with ⟨hs, -, hsent⟩ | ⟨hs, hcur, hsent⟩
      · rw [← hsent, hnew, if_pos hs]
        rfl
      · rw [hsent, hcur, hnew, if_neg (by simp [hs])]
        rfl
    refine .waiting (done ++ [j]) rest (by simp) ⟨?_, ?_, ?_, ?_, ?_, ?_, ?_⟩
    · simp [hstate, hl]
    · simp [hwords, h.words]
    · simp [hrecs, h.recs]
    · simp [h.popped, h.pkt, pkts]
    · simp [h.reads]
    · simp [h.counters, tally]
    · simp [h.out, sent, ← hout]
  | false =>
    refine .passing done j rest (part ++ [w]) ws (cur ++ new) rfl
      ⟨by simp [h.pkt], fun he => by simp [hlast.mpr he] at hl, ?_, ?_, ?_, ?_, ?_, ?_, ?_⟩
    · rcases h.state with ⟨hs, hlen, hsent⟩ | ⟨hs, hcur, hsent⟩
      · exact .inl ⟨by simp [hstate, hl, hs], by simp [hnew, hs, hlen],
          by simpa [hport, hnew, hs] using hsent⟩
      · exact .inr ⟨by simp [hstate, hl, hs], by simp [hcur, hnew, hs], hsent⟩
    · simp [hwords, h.words]
    · simp [hrecs, h.recs]
    · simp [h.popped]
    · simp [h.reads]
    · simp [h.counters]
    · simp [h.out]

theorem Passing.step {more : List Word} (h : Passing m done j rest part more cur t s)
    (hf : Packet Word.tlast j.pkt) (i : Input) :
    Stage m (done ++ j :: rest) (t.extend m s i) (s.step m i) := by
  obtain ⟨w, ws, rfl⟩ := List.exists_cons_of_ne_nil h.open_
  rcases h.state with ⟨hs, -⟩ | ⟨hs, -⟩
  · cases hv : s.inFifoVld i && i.outTready with
    | false =>
      refine (Stage.passing done j rest part _ cur rfl h).hold (w := s.words.headD i.word) ?_
      simp [Sys.drive, Regs.drive, hs, hv]
    | true =>
      have hd : s.drive m i = s.regs.emit w false := by
        simp [Sys.drive, Regs.drive, hs, hv, h.words]
      refine h.pop [setDstPort s.regs.dstPort w] hf ?_ ?_ ?_ ?_ ?_ ?_
      all_goals simp [step_eq hd, extend_eq hd, Regs.emit, h.words, Pulses.high, hs]
  · cases hv : s.inFifoVld i with
    | false =>
      refine (Stage.passing done j rest part _ cur rfl h).hold (w := s.words.headD i.word) ?_
      simp [Sys.drive, Regs.drive, hs, hv]
    | true =>
      have hd : s.drive m i = ⟨{ s.regs with
          state := if w.tlast then .waitPreprocessRdy else .dropPkt, outTvalid := false,
          outWord := w }, false, true, {}⟩ := by
        simp [Sys.drive, Regs.drive, hs, hv, h.words]
      refine h.pop [] hf ?_ ?_ ?_ ?_ ?_ ?_
      all_goals simp [step_eq hd, extend_eq hd, h.words, Pulses.high, hs]

end Passing

/-- However far the machine is, what it has logged is right. -/
theorem stage_run {jobs : List Job} (hf : Framed jobs) (ins : List Input) :
    Stage m jobs (logged m jobs ins) (after m jobs ins) := by
  induction ins using List.reverseRecOn with
  | nil => exact .waiting [] jobs rfl ⟨rfl, rfl, rfl, rfl, rfl, rfl, rfl⟩
  | append_singleton ins i ih =>
    have hafter : after m jobs (ins ++ [i]) = (after m jobs ins).step m i :=
      Machine.run_concat _ _ _ _
    rw [logged_concat, hafter]
    cases ih with
    | waiting done rest h hw =>
      subst h
      exact hw.step (fun j hj => hf j (by simp [hj])) i
    | changing done j rest h hc =>
      subst h
      exact hc.step (hf j (by simp)) i
    | passing done j rest part more cur h hp =>
      subst h
      exact hp.step (hf j (by simp)) i

/-- The packets popped as a whole and the open one, from the words popped. -/
theorem whole_part {done rest : List Job} (hf : Framed (done ++ rest)) {part : List Word}
    (hin : ∀ w ∈ part, w.tlast = false) {t : Trace} (h : t.popped = pkts done ++ part) :
    t.whole = done.length ∧ t.part = part.length := by
  have hfr : frames Word.tlast t.popped = ⟨done.map Job.pkt, part⟩ := by
    rw [h]
    refine frames_packets_rest _ (fun pkt hp => ?_) hin
    obtain ⟨j, hj, rfl⟩ := List.mem_map.mp hp
    exact hf j (by simp [hj])
  rw [Trace.whole, Trace.part, hfr]
  exact ⟨List.length_map .., rfl⟩

theorem due_between (done rest : List Job) : due m (done ++ rest) done.length 0 = sent m done := by
  simp [due, sent]

theorem due_passing (done rest : List Job) (j : Job) (n : Nat) :
    due m (done ++ j :: rest) done.length n = sent m done ++ (j.sent m).take n := by
  simp [due, sent]

theorem tally_take (done rest : List Job) :
    tally done = ((done ++ rest).take (tally done).length).map (fun j => j.record.counter) := by
  simp [tally]

theorem tally_snoc_take (done rest : List Job) (j : Job) :
    tally done ++ [j.record.counter] =
      ((done ++ j :: rest).take (tally done ++ [j.record.counter]).length).map
        (fun j => j.record.counter) := by
  have h := tally_take (done ++ [j]) rest
  rwa [tally_append, List.append_assoc] at h

theorem Waiting.conserved {done rest : List Job} {t : Trace} {s : Sys}
    (hf : Framed (done ++ rest)) (h : Waiting m done rest t s) :
    Conserved m (done ++ rest) t := by
  obtain ⟨hw, hp⟩ := whole_part hf (List.forall_mem_nil _) (by simpa using h.popped)
  have hlen : t.counters.length = done.length := by simp [h.counters, tally]
  refine ⟨⟨pkts rest, by rw [h.popped, ← pkts_append]; rfl⟩, ?_, ?_, ?_, ?_⟩
  · rw [h.counters]
    exact tally_take done rest
  · rw [hw, h.reads, hlen]
    omega
  · rw [hp]
    simp
  · rw [h.out, hw, hp]
    exact (due_between done rest).symm

theorem Changing.conserved {done : List Job} {j : Job} {rest : List Job} {t : Trace} {s : Sys}
    (hf : Framed (done ++ j :: rest)) (h : Changing m done j rest t s) :
    Conserved m (done ++ j :: rest) t := by
  obtain ⟨hw, hp⟩ := whole_part hf (List.forall_mem_nil _) (by simpa using h.popped)
  have hlen : t.counters.length = done.length + 1 := by simp [h.counters, tally]
  refine ⟨⟨pkts (j :: rest), by rw [h.popped, ← pkts_append]; rfl⟩, ?_, ?_, ?_, ?_⟩
  · rw [h.counters]
    exact tally_snoc_take done rest j
  · rw [hw, h.reads, hlen]
    omega
  · rw [hp]
    simp
  · rw [h.out, hw, hp]
    exact (due_between done (j :: rest)).symm

theorem Passing.conserved {done : List Job} {j : Job} {rest : List Job}
    {part more cur : List Word} {t : Trace} {s : Sys} (hf : Framed (done ++ j :: rest))
    (h : Passing m done j rest part more cur t s) : Conserved m (done ++ j :: rest) t := by
  have hpkt : Packet Word.tlast (part ++ more) := h.pkt ▸ hf j (by simp)
  obtain ⟨hw, hp⟩ := whole_part hf (hpkt.inner _ h.open_) h.popped
  have hlen : t.counters.length = done.length + 1 := by simp [h.counters, tally]
  refine ⟨⟨more ++ pkts rest, ?_⟩, ?_, ?_, ?_, ?_⟩
  · rw [h.popped]
    have hall : pkts (done ++ j :: rest) = pkts done ++ part ++ (more ++ pkts rest) := by
      simp [h.pkt]
    exact hall.symm
  · rw [h.counters]
    exact tally_snoc_take done rest j
  · rw [hw, h.reads, hlen]
    omega
  · rw [hw, h.reads]
    exact fun _ => rfl
  · rw [h.out, hw, hp, due_passing]
    rcases h.state with ⟨-, hl, hsent⟩ | ⟨-, hcur, hsent⟩
    · rw [← hsent, ← hl, List.take_left]
    · rw [hcur, hsent, List.take_nil]

/-- What has gone to the output register is right for every pattern of the receiver. -/
theorem logged_conserved {jobs : List Job} (hf : Framed jobs) (ins : List Input) :
    Conserved m jobs (logged m jobs ins) := by
  cases stage_run (m := m) hf ins with
  | waiting done rest hj h =>
    subst hj
    exact h.conserved hf
  | changing done j rest hj h =>
    subst hj
    exact h.conserved hf
  | passing done j rest part more cur hj h =>
    subst hj
    exact h.conserved hf

theorem accepted_eq_shown_iff (s : Sys) (i : Input) :
    s.accepted i = s.shown ↔ (s.regs.outTvalid = true → i.outTready = true) := by
  rw [Sys.accepted, Sys.shown]
  cases s.regs.outTvalid <;> cases i.outTready <;> simp

/-- The register is loaded anew in every cycle: a word that is not accepted while it is shown is
gone. -/
theorem out_concat_iff {jobs : List Job} {ins : List Input}
    (h : (observe m jobs ins).out = (logged m jobs ins).out) (i : Input) :
    (observe m jobs (ins ++ [i])).out = (logged m jobs (ins ++ [i])).out ↔
      ((after m jobs ins).regs.outTvalid = true → i.outTready = true) := by
  have hshown : (after m jobs (ins ++ [i])).shown = (after m jobs ins).emitted m i := by
    rw [after, Machine.run_concat]
    rfl
  have hobs : (observe m jobs (ins ++ [i])).out =
      (machine m).collect Sys.accepted (start jobs) ins ++ (after m jobs ins).accepted i ++
        (after m jobs ins).emitted m i := by
    rw [← hshown]
    simp [observe, after]
  have hlog : (logged m jobs (ins ++ [i])).out =
      (machine m).collect Sys.accepted (start jobs) ins ++ (after m jobs ins).shown ++
        (after m jobs ins).emitted m i := by
    rw [logged_concat, Trace.extend, ← h]
    rfl
  rw [hobs, hlog, List.append_left_inj, List.append_right_inj]
  exact accepted_eq_shown_iff _ _

/-- For every list of packets with a record each and every pattern of the FIFOs and of the
receiver, the machine conserves the packets if and only if the receiver is ready in every cycle
in which a word is shown. -/
theorem conserved_iff_neverStalled {jobs : List Job} (hf : Framed jobs) (ins : List Input) :
    (∀ past, past <+: ins → Conserved m jobs (observe m jobs past)) ↔
      NeverStalled m jobs ins := by
  have hsame : ∀ past, Conserved m jobs (observe m jobs past) →
      (observe m jobs past).out = (logged m jobs past).out :=
    fun past h => h.out.trans (logged_conserved hf past).out.symm
  constructor
  · intro h
    induction ins using List.reverseRecOn with
    | nil => trivial
    | append_singleton ins i ih =>
      refine (machine m).along_concat.mpr
        ⟨ih (fun past hp => h past (hp.trans (List.prefix_append _ _))), ?_⟩
      exact (out_concat_iff (hsame _ (h ins (List.prefix_append _ _))) i).mp
        (hsame _ (h _ (List.prefix_refl _)))
  · rintro h past ⟨later, rfl⟩
    have hout : (observe m jobs past).out = (logged m jobs past).out := by
      have hpast := ((machine m).along_append.mp h).1
      clear h
      induction past using List.reverseRecOn with
      | nil => rfl
      | append_singleton past i ih =>
        obtain ⟨hp, hi⟩ := (machine m).along_concat.mp hpast
        exact (out_concat_iff (ih hp) i).mpr hi
    have hc := logged_conserved (m := m) hf past
    exact ⟨hc.popped, hc.counters, hc.counted_whole, hc.counted_part, hout.trans hc.out⟩

theorem framed_single {w : Word} (h : w.tlast = true) (r : Record) : Framed [⟨[w], r⟩] := by
  intro j hj
  rw [List.mem_singleton] at hj
  exact ⟨[], w, by rw [hj]; rfl, by simp, h⟩

/-- A packet of three words to be forwarded by queue 4 and one of two words from the CPU. The input
FIFO is empty for a cycle, and the receiver is not ready in two in which nothing is shown. -/
theorem conserved_forwarded :
    let m : Macs := ⟨10, 11, 12, 13⟩
    let forwarded : Record := { (default : Record) with
      isForUs := true, isIpPkt := true, ipChecksumIsGood := true, ipTtlIsGood := true
      arpLookupHit := true, lpmLookupHit := true, nextHopMac := 21, outputPort := 4
      ipNewTtl := 63 }
    let fromCpu : Record := { (default : Record) with isFromCpu := true, fromCpuOutputPort := 1 }
    let jobs : List Job := [⟨[⟨5, 1, 0, false⟩, ⟨6, 1, 0, false⟩, ⟨7, 1, 0, true⟩], forwarded⟩,
      ⟨[⟨8, 1, 0, false⟩, ⟨9, 1, 0, true⟩], fromCpu⟩]
    let i (vld ready : Bool) : Input := ⟨vld, true, true, true, true, true, default, default, ready⟩
    let ins := [i true false, i true true, i true true, i false true, i true false, i true true,
      i true true, i true true, i true true, i true true, i true true]
    Framed jobs ∧ (observe m jobs ins).out = jobs.flatMap (Job.sent m) ∧
      ∀ past, past <+: ins → Conserved m jobs (observe m jobs past) := by
  intro m forwarded fromCpu jobs i ins
  have hf : Framed jobs := by
    intro j hj
    rcases List.mem_cons.mp hj with rfl | hj
    · exact ⟨[⟨5, 1, 0, false⟩, ⟨6, 1, 0, false⟩], ⟨7, 1, 0, true⟩, rfl, by decide, rfl⟩
    · rw [List.mem_singleton.mp hj]
      exact ⟨[⟨8, 1, 0, false⟩], ⟨9, 1, 0, true⟩, rfl, by decide, rfl⟩
  refine ⟨hf, by decide +kernel, (conserved_iff_neverStalled hf ins).mpr ?_⟩
  unfold NeverStalled
  decide +kernel

/-- The receiver is not ready in the one cycle in which the word of a packet from the CPU is
shown: nothing is accepted. -/
theorem word_lost_at_stall :
    let m : Macs := ⟨0, 0, 0, 0⟩
    let w : Word := ⟨5, 1, 0, true⟩
    let r : Record := { (default : Record) with isFromCpu := true, fromCpuOutputPort := 4 }
    let i (ready : Bool) : Input := ⟨true, true, true, true, true, true, w, r, ready⟩
    let ins := [i true, i true, i false, i true]
    Framed [⟨[w], r⟩] ∧ (observe m [⟨[w], r⟩] ins).popped = [w] ∧
      (observe m [⟨[w], r⟩] ins).out = [] ∧
      ¬ Conserved m [⟨[w], r⟩] (observe m [⟨[w], r⟩] ins) := by
  intro m w r i ins
  have hf : Framed [⟨[w], r⟩] := framed_single rfl r
  refine ⟨hf, by decide +kernel, by decide +kernel, fun h => ?_⟩
  have hout := h.out
  revert hout
  decide +kernel

end Osnt.ProcessSm
