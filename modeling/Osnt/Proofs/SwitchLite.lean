import Osnt.SwitchLite
import Osnt.Lib.AgedPackets
import Osnt.Proofs.MacCamLut
import Osnt.Proofs.LookupPorts

/-! The lookup of the lite switch behind a receiver that is always ready: each packet leaves with
the answer to its own request. -/
namespace Osnt.SwitchLite
open Lib Lib.DelayQueue FifoTable
open MacCamLut (Request Lut answer answers emptyTable lesson answers_append length_answers
  agrees_emptyTable)
open SwitchLookup (State withPorts stamp stamp_append)
open OutputQueues (DataWord dataWord)

section Step
variable (s : Regs)

/-- What the input side asks of the parser and what the parser asks then. -/
theorem parser_step (valid : Bool) (w : Word) :
    let p := s.ethParser.step valid w
    p.ethDone = (valid && decide (s.ethParser.state = .readMacAddresses)) ∧
      (p.ethDone = true → (⟨p.dstMac, p.srcMac, p.srcPort⟩ : Request) = request w) ∧
      p.state = if valid then (if w.tlast then .readMacAddresses else .waitEop)
        else s.ethParser.state := by
  cases hs : s.ethParser.state <;> cases valid <;> cases hl : w.tlast <;>
    simp [EthParser.step, hs, hl, request]

end Step

theorem requests_concat (ws : List Word) (w : Word) :
    requests (ws ++ [w]) = requests ws ++ if opens Word.tlast true ws then [request w] else [] := by
  rw [requests, openers_concat, List.map_append]
  cases opens Word.tlast true ws <;> rfl

/-- What is on its way after some cycles `past`: the words `raw` have left `input_fifo` and those of
`g` are in it; the ports `used` have left `dst_port_fifo` and those of `h` are in it. The answer to
a packet is two cycles younger than its first word when it enters `dst_port_fifo`. -/
structure Synced (past : List LookupInput) (r t : Regs) (raw : List Word)
    (used : List (BitVec 8)) (g : DelayQueue Word) (h : DelayQueue (BitVec 8)) : Prop where
  words : t.inputFifo.Tracks g
  ports : t.dstPortFifo.Tracks h
  left : lookup.machine.collect lookup.accepted r past = raw ++ g.vals
  state : t.state = if opens Word.tlast true raw then .wait else .send
  handed : lookup.machine.collect lookup.handed r past = stamp true raw used
  each : used.length = (openers Word.tlast true raw).length
  parser : t.ethParser.state =
    if opens Word.tlast true (raw ++ g.vals) then .readMacAddresses else .waitEop
  asked : ∃ done, requests (raw ++ g.vals) =
      done ++ (if t.ethParser.ethDone then [t.lutIn.req] else []) ∧
    t.macCamLut.table = learnAll (emptyTable 4) (done.map lesson) ∧
    answers (emptyTable 4) done = used ++ h.vals ++
      if t.macCamLut.lookupDone then [t.macCamLut.dstPorts] else []
  timing : ages (heads Word.tlast (opens Word.tlast true raw) g) = h.ages.map (· + 2) ++
    (if t.macCamLut.lookupDone then [2] else []) ++ if t.ethParser.ethDone then [1] else []
  youngWords : ∀ e ∈ g, e.2 ≤ 5
  youngPorts : ∀ e ∈ h, e.2 ≤ 3

section
variable {past : List LookupInput} {r t : Regs} {raw : List Word} {used : List (BitVec 8)}
  {g : DelayQueue Word} {h : DelayQueue (BitVec 8)}

theorem synced_reset (s : Regs) : Synced [] s.reset s.reset [] [] [] [] where
  words := .reset _
  ports := .reset _
  left := rfl
  state := rfl
  handed := rfl
  each := rfl
  parser := rfl
  asked := ⟨[], rfl, Lut.table_cleared, rfl⟩
  timing := rfl
  youngWords := by simp
  youngPorts := by simp

theorem shown_head {α : Type} {d : Nat} {f : FallthroughFifo α d} {q : DelayQueue α}
    (hq : f.Tracks q) (hv : f.doutValid = true) :
    ∃ n rest, q = (f.dout, n) :: rest ∧ 3 ≤ n := by
  have hfront := hq.front
  rw [hv, if_pos rfl] at hfront
  exact front_eq_some hfront

theorem shown_of_old {α : Type} {d : Nat} {f : FallthroughFifo α d} {v : α} {n : Nat}
    {q : DelayQueue α} (hq : f.Tracks ((v, n) :: q)) (hn : 3 ≤ n) :
    f.doutValid = true ∧ f.dout = v := by
  have hfront := hq.front
  rw [front_of_le hn] at hfront
  cases hv : f.doutValid with
  | false => simp [hv] at hfront
  | true =>
    rw [hv, if_pos rfl, Option.some.injEq] at hfront
    exact ⟨rfl, hfront.symm⟩

theorem hidden {α : Type} {d : Nat} {f : FallthroughFifo α d} {q : DelayQueue α}
    (hq : f.Tracks q) (hv : f.doutValid = false) : ∀ e ∈ q, e.2 < 3 := by
  have hshown := hq.shown
  rw [hv] at hshown
  have hnone : q.older 3 = 0 := by
    have hnot := of_decide_eq_false hshown.symm
    omega
  intro e he
  simpa using List.countP_eq_zero.mp hnone e he

/-- An answer shows exactly when the first word of its packet has been there for five cycles. -/
theorem Synced.begins (hs : Synced past r t raw used g h) (hv : t.dstPortFifo.doutValid = true) :
    opens Word.tlast true raw = true ∧ t.inputFifo.doutValid = true ∧
      ∃ g' h', g = (t.inputFifo.dout, 5) :: g' ∧ h = (t.dstPortFifo.dout, 3) :: h' := by
  obtain ⟨n, h', rfl, hn⟩ := shown_head hs.ports hv
  obtain rfl : n = 3 := Nat.le_antisymm (hs.youngPorts (t.dstPortFifo.dout, n) (by simp)) hn
  obtain ⟨hopen, w, g', rfl⟩ := head_of_oldest Word.tlast hs.words.aged hs.youngWords hs.timing
  obtain ⟨hw, rfl⟩ := shown_of_old hs.words (by decide)
  exact ⟨hopen, hw, g', h', rfl, rfl⟩

/-- Without an answer nothing has waited for longer than four cycles. -/
theorem Synced.young (hs : Synced past r t raw used g h) (hv : t.dstPortFifo.doutValid = false)
    (hopen : opens Word.tlast true raw = true) : ∀ e ∈ g, e.2 < 5 := by
  have hhidden := hidden hs.ports hv
  cases hg : g with
  | nil => simp
  | cons x g' =>
    have htiming := hs.timing
    rw [hg, hopen] at htiming
    have hcons : ages (heads Word.tlast true (x :: g')) =
        x.2 :: ages (heads Word.tlast (Word.tlast x.1) g') := rfl
    rw [hcons] at htiming
    have hmem : x.2 ∈ h.ages.map (· + 2) ++ (if t.macCamLut.lookupDone then [2] else []) ++
        if t.ethParser.ethDone then [1] else [] := by
      rw [← htiming]
      exact List.mem_cons_self ..
    have hx : x.2 < 5 := by
      rcases List.mem_append.mp hmem with hmem | hmem
      · rcases List.mem_append.mp hmem with hmem | hmem
        · obtain ⟨n, hn, hx⟩ := List.mem_map.mp hmem
          obtain ⟨e, he, rfl⟩ := List.mem_map.mp hn
          have hlt := hhidden e he
          omega
        · have hx : x.2 = 2 := by
            cases hd : t.macCamLut.lookupDone <;> simp [hd] at hmem
            exact hmem
          omega
      · have hx : x.2 = 1 := by
          cases hd : t.ethParser.ethDone <;> simp [hd] at hmem
          exact hmem
        omega
    have hfall := (List.pairwise_cons.mp (hg ▸ hs.words.aged).falling).1
    intro e he
    rcases List.mem_cons.mp he with rfl | he
    · exact hx
    · exact (hfall e he).trans hx

/-- The word taken in a cycle. -/
def arrival (t : Regs) (i : LookupInput) : Option Word :=
  if i.tvalid && t.sTready then some i.word else none

theorem arrival_cases (t : Regs) (i : LookupInput) :
    ((i.tvalid && t.sTready) = false ∧ arrival t i = none) ∨
      ((i.tvalid && t.sTready) = true ∧ arrival t i = some i.word) := by
  rcases Bool.eq_false_or_eq_true (i.tvalid && t.sTready) with hv | hv
  · exact .inr ⟨hv, if_pos hv⟩
  · exact .inl ⟨hv, if_neg (by simp [hv])⟩

/-- The answer given in a cycle. -/
def reply (t : Regs) : Option (BitVec 8) :=
  if t.macCamLut.lookupDone then some t.macCamLut.dstPorts else none

theorem Synced.asks (hs : Synced past r t raw used g h) (i : LookupInput) :
    let ws := raw ++ g.vals ++ (arrival t i).toList
    (t.step i).macCamLut.lookupDone = t.ethParser.ethDone ∧
      (t.step i).ethParser.ethDone =
        ((arrival t i).isSome && opens Word.tlast true (raw ++ g.vals)) ∧
      ((t.step i).ethParser.state =
        if opens Word.tlast true ws then .readMacAddresses else .waitEop) ∧
      ∃ done, requests ws =
          done ++ (if (t.step i).ethParser.ethDone then [(t.step i).lutIn.req] else []) ∧
        (t.step i).macCamLut.table = learnAll (emptyTable 4) (done.map lesson) ∧
        answers (emptyTable 4) done = used ++ h.vals ++ (reply t).toList ++
          if (t.step i).macCamLut.lookupDone then [(t.step i).macCamLut.dstPorts] else [] := by
  intro ws
  obtain ⟨done, hreqs, htable, hanswers⟩ := hs.asked
  obtain ⟨hdone, hreq, hstate⟩ := parser_step t (i.tvalid && t.sTready) i.word
  have hparser : t.ethParser.state = .readMacAddresses ↔
      opens Word.tlast true (raw ++ g.vals) = true := by
    rw [hs.parser]
    cases opens Word.tlast true (raw ++ g.vals) <;> simp
  have heth : (t.step i).ethParser.ethDone =
      ((arrival t i).isSome && opens Word.tlast true (raw ++ g.vals)) := by
    change (t.ethParser.step (i.tvalid && t.sTready) i.word).ethDone = _
    rw [hdone]
    rcases arrival_cases t i with ⟨hv, ha⟩ | ⟨hv, ha⟩
    · rw [hv, ha]
      rfl
    · rw [hv, ha, Bool.true_and, Option.isSome_some, Bool.true_and, Bool.eq_iff_iff,
        decide_eq_true_iff]
      exact hparser
  have hlookup : (t.step i).macCamLut.lookupDone = t.ethParser.ethDone := by
    change (t.macCamLut.step t.lutIn).lookupDone = _
    simp [Lut.step, Regs.lutIn]
  refine ⟨hlookup, heth, ?_, requests (raw ++ g.vals), ?_, ?_, ?_⟩
  · change (t.ethParser.step (i.tvalid && t.sTready) i.word).state = _
    rw [hstate]
    rcases arrival_cases t i with ⟨hv, ha⟩ | ⟨hv, ha⟩
    · simp only [ws, hv, ha, Option.toList_none, List.append_nil]
      exact hs.parser
    · simp only [ws, hv, ha, Option.toList_some, opens_concat]
      rfl
  · rw [heth]
    rcases arrival_cases t i with ⟨hv, ha⟩ | ⟨hv, ha⟩
    · simp [ws, ha]
    · simp only [ws, ha]
      rw [Option.toList_some, requests_concat, Option.isSome_some, Bool.true_and]
      cases ho : opens Word.tlast true (raw ++ g.vals) with
      | false => rfl
      | true =>
        have heq : (t.step i).lutIn.req = request i.word := by
          refine hreq ?_
          rw [hdone, hv, hparser.mpr ho]
          rfl
        rw [if_pos rfl, if_pos rfl, heq]
  · change (t.macCamLut.step t.lutIn).table = _
    rw [Lut.table_step rfl, htable, hreqs]
    rcases Bool.eq_false_or_eq_true t.ethParser.ethDone with he | he
    · have hreq : t.lutIn.lookupReq = true := he
      simp [he, hreq, learnAll_concat]
    · have hreq : t.lutIn.lookupReq = false := he
      simp [he, hreq]
  · have hreply : (reply t).toList =
        if t.macCamLut.lookupDone then [t.macCamLut.dstPorts] else [] := by
      rw [reply]
      cases t.macCamLut.lookupDone <;> rfl
    rw [hreply, ← hanswers, hlookup, hreqs]
    rcases Bool.eq_false_or_eq_true t.ethParser.ethDone with he | he
    · have hagrees : Agrees t.macCamLut.table := htable ▸ agrees_learnAll agrees_emptyTable _
      have hports : (t.step i).macCamLut.dstPorts = answer t.macCamLut.table t.lutIn.req :=
        Lut.dstPorts_step hagrees rfl he
      rw [if_pos he, if_pos he, answers_append, answers, answers, hports, htable]
    · simp [he]

theorem timing_tick (hs : List Nat) (done eth new : Bool) :
    (hs.map (· + 2) ++ (if done then [2] else []) ++ if eth then [1] else []).map (· + 1) ++
        (if new then [1] else []) =
      (hs.map (· + 1) ++ if done then [1] else []).map (· + 2) ++ (if eth then [2] else []) ++
        if new then [1] else [] := by
  cases done <;> cases eth <;> simp [Function.comp_def, Nat.add_right_comm]

/-- `input_fifo` never fills: five words at most are in it. -/
theorem Synced.sTready (hs : Synced past r t raw used g h) : t.sTready = true := by
  have hlen := length_le_of_ages hs.words.aged hs.youngWords
  have hdepth := hs.words.length
  simp only [Regs.sTready, FallthroughFifo.nearlyFull, SmallFifo.nearlyFull, Bool.not_eq_true',
    decide_eq_false_iff_not]
  omega

theorem Synced.prompt (hs : Synced past r t raw used g h) : t.dstPortFifo.Prompt 0 :=
  ⟨h, hs.ports, fun e he => ⟨hs.ports.aged.positive e he, hs.youngPorts e he⟩⟩

theorem Synced.ticks (hs : Synced past r t raw used g h) (i : LookupInput) :
    (t.step i).inputFifo.Tracks
        (g.tick (i.tready && t.mTvalid && t.inputFifo.doutValid) (arrival t i)) ∧
      (t.step i).dstPortFifo.Tracks
        (h.tick (t.dstPortRd && t.dstPortFifo.doutValid) (reply t)) := by
  constructor
  · refine hs.words.step (i.tvalid && t.sTready) (i.tready && t.mTvalid) i.word fun hw => ?_
    have hready := hs.sTready
    simp only [Regs.sTready, Bool.not_eq_true'] at hready
    exact FallthroughFifo.full_of_nearlyFull hready
  · exact hs.ports.step t.macCamLut.lookupDone t.dstPortRd t.macCamLut.dstPorts fun _ =>
      FallthroughFifo.full_of_nearlyFull (hs.prompt.nearlyFull (by decide))

/-- The next cycle, from what leaves the FIFOs and what becomes of their ages. -/
theorem Synced.next (hs : Synced past r t raw used g h) (hrun : lookup.machine.run r past = t)
    {i : LookupInput} {raw' : List Word} {used' : List (BitVec 8)} {g' : DelayQueue Word}
    {h' : DelayQueue (BitVec 8)} (hwords : (t.step i).inputFifo.Tracks g')
    (hports : (t.step i).dstPortFifo.Tracks h')
    (hraw : raw' ++ g'.vals = raw ++ g.vals ++ (arrival t i).toList)
    (hused : used' ++ h'.vals = used ++ h.vals ++ (reply t).toList)
    (hstate : (t.step i).state = if opens Word.tlast true raw' then .wait else .send)
    (hhanded : stamp true raw used ++ lookup.handed t i = stamp true raw' used')
    (heach : used'.length = (openers Word.tlast true raw').length)
    (htiming : ages (heads Word.tlast (opens Word.tlast true raw') g') = h'.ages.map (· + 2) ++
      (if t.ethParser.ethDone then [2] else []) ++
      if (arrival t i).isSome && opens Word.tlast true (raw ++ g.vals) then [1] else [])
    (hg : ∀ e ∈ g', e.2 ≤ 5) (hh : ∀ e ∈ h', e.2 ≤ 3) :
    Synced (past ++ [i]) r (t.step i) raw' used' g' h' := by
  obtain ⟨hlookup, heth, hparser, done, hreqs, htable, hanswers⟩ := hs.asks i
  rw [← hraw] at hreqs hparser
  rw [← hused] at hanswers
  have haccepted : lookup.accepted t i = (arrival t i).toList := by
    rcases arrival_cases t i with ⟨hv, ha⟩ | ⟨hv, ha⟩
    · rw [ha]
      exact if_neg (Bool.eq_false_iff.mp hv)
    · rw [ha]
      exact if_pos hv
  refine ⟨hwords, hports, ?_, hstate, ?_, heach, hparser, ⟨done, hreqs, htable, hanswers⟩, ?_,
    hg, hh⟩
  · rw [Machine.collect_concat, hs.left, hrun, haccepted, hraw]
  · rw [Machine.collect_concat, hs.handed, hrun, hhanded]
  · rw [htiming, hlookup, heth]

theorem Synced.timing_step (hs : Synced past r t raw used g h) (i : LookupInput) (rd : Bool)
    (hrd : rd = true → h ≠ []) :
    ages ((heads Word.tlast (opens Word.tlast true raw) g).tick rd
        (if opens Word.tlast true (raw ++ g.vals) then arrival t i else none)) =
      (ages (h.tick rd (reply t))).map (· + 2) ++ (if t.ethParser.ethDone then [2] else []) ++
        if (arrival t i).isSome && opens Word.tlast true (raw ++ g.vals) then [1] else [] := by
  have hreply : (reply t).toList.map (fun _ => 1) = if t.macCamLut.lookupDone then [1] else [] := by
    rw [reply]
    cases t.macCamLut.lookupDone <;> rfl
  have hnew : (if opens Word.tlast true (raw ++ g.vals) then arrival t i else none).toList.map
      (fun _ => 1) =
        if (arrival t i).isSome && opens Word.tlast true (raw ++ g.vals) then [1] else [] := by
    cases opens Word.tlast true (raw ++ g.vals) <;> cases arrival t i <;> rfl
  have hages : (if rd then h.ages.tail else h.ages).map (· + 2) ++
      (if t.macCamLut.lookupDone then [2] else []) ++ (if t.ethParser.ethDone then [1] else []) =
        if rd then (ages (heads Word.tlast (opens Word.tlast true raw) g)).tail
          else ages (heads Word.tlast (opens Word.tlast true raw) g) := by
    rw [hs.timing]
    cases rd with
    | false => rfl
    | true =>
      obtain ⟨e, h', rfl⟩ := List.exists_cons_of_ne_nil (hrd rfl)
      rfl
  rw [ages_tick, ages_tick, ← hages, hreply, hnew]
  exact timing_tick _ t.macCamLut.lookupDone t.ethParser.ethDone _

theorem tick_le {α : Type} {q : DelayQueue α} {n : Nat} (rd : Bool) (wr : Option α)
    (hq : ∀ e ∈ if rd then q.tail else q, e.2 < n) (hn : 0 < n) : ∀ e ∈ q.tick rd wr, e.2 ≤ n := by
  intro e he
  rcases List.mem_append.mp he with he | he
  · obtain ⟨x, hx, rfl⟩ := List.mem_map.mp he
    exact hq x hx
  · obtain ⟨v, -, rfl⟩ := List.mem_map.mp he
    exact hn

theorem tail_young {α : Type} {e : α × Nat} {q : DelayQueue α} (hq : Aged (e :: q)) {n : Nat}
    (hn : e.2 ≤ n) : ∀ x ∈ q, x.2 < n := fun x hx =>
  Nat.lt_of_lt_of_le ((List.pairwise_cons.mp hq.falling).1 x hx) hn

theorem Synced.rest (hs : Synced past r t raw used g h) (hrun : lookup.machine.run r past = t)
    {i : LookupInput} (hv : t.mTvalid = false) (hp : t.dstPortFifo.doutValid = false)
    (hg : ∀ e ∈ g, e.2 < 5) :
    Synced (past ++ [i]) r (t.step i) raw used (g.tick false (arrival t i))
      (h.tick false (reply t)) := by
  have hport : t.dstPortRd = false := by
    cases hst : t.state <;> simp [Regs.dstPortRd, hst, FallthroughFifo.empty, hp]
  have hticks := hs.ticks i
  rw [hv, Bool.and_false, Bool.false_and, hport, Bool.false_and] at hticks
  refine hs.next hrun hticks.1 hticks.2 ?_ ?_ ?_ ?_ hs.each ?_ ?_ ?_
  · rw [vals_tick, if_neg (by simp), List.append_assoc]
  · rw [vals_tick, if_neg (by simp), List.append_assoc]
  · rw [← hs.state]
    cases hst : t.state <;>
      simp [Regs.step, Regs.stateNext, hst, FallthroughFifo.empty, hp, hv]
  · have hnone : lookup.handed t i = [] := if_neg (by
      change ¬ (t.mTvalid && i.tready) = true
      rw [hv]
      simp)
    rw [hnone, List.append_nil]
  · rw [heads_write, ← opens_append]
    exact hs.timing_step i false (by simp)
  · exact tick_le false _ hg (by decide)
  · exact tick_le false _ (hidden hs.ports hp) (by decide)

theorem Synced.begin (hs : Synced past r t raw used g h) (hrun : lookup.machine.run r past = t)
    {i : LookupInput} (hi : i.tready = true) (hp : t.dstPortFifo.doutValid = true) :
    Synced (past ++ [i]) r (t.step i) (raw ++ [t.inputFifo.dout]) (used ++ [t.dstPortFifo.dout])
      (g.tick true (arrival t i)) (h.tick true (reply t)) := by
  obtain ⟨hopen, hw, g', h', rfl, rfl⟩ := hs.begins hp
  have hst : t.state = .wait := by rw [hs.state, hopen, if_pos rfl]
  have hrd : t.dstPortRd = true := by simp [Regs.dstPortRd, hst, FallthroughFifo.empty, hp]
  have hv : t.mTvalid = true := by
    simp [Regs.mTvalid, Regs.sendPacket, hst, FallthroughFifo.empty, hp, hw]
  have hmword : t.mWord = withPorts t.inputFifo.dout t.dstPortFifo.dout := by
    simp [Regs.mWord, hst, FallthroughFifo.empty, hp]
  have hticks := hs.ticks i
  rw [hi, hv, hw, hrd, hp] at hticks
  refine hs.next hrun hticks.1 hticks.2 ?_ ?_ ?_ ?_ ?_ ?_ ?_ ?_
  · simp [vals_tick]
  · simp [vals_tick]
  · rw [opens_concat]
    cases hl : t.inputFifo.dout.tlast <;>
      simp [Regs.step, Regs.stateNext, hst, FallthroughFifo.empty, hp, hv, hl, hi]
  · have hhanded : lookup.handed t i = [withPorts t.inputFifo.dout t.dstPortFifo.dout] := by
      rw [← hmword]
      exact if_pos (by
        change (t.mTvalid && i.tready) = true
        rw [hv, hi]
        rfl)
    rw [hhanded, stamp_append true raw _ used _ hs.each, hopen]
    rfl
  · rw [openers_concat, hopen, if_pos rfl, List.length_append, List.length_append, hs.each]
    rfl
  · have hheads := heads_read Word.tlast true (t.inputFifo.dout, 5) g' (arrival t i)
    have hstep := hs.timing_step i true (by simp)
    rw [opens_concat]
    rw [hopen] at hstep
    rw [opens_append, hopen] at hstep ⊢
    rw [hheads]
    exact hstep
  · exact tick_le true _ (tail_young hs.words.aged (Nat.le_refl 5)) (by decide)
  · exact tick_le true _ (tail_young hs.ports.aged (Nat.le_refl 3)) (by decide)

theorem Synced.goesOn (hs : Synced past r t raw used g h) (hrun : lookup.machine.run r past = t)
    {i : LookupInput} (hi : i.tready = true) (hst : t.state = .send)
    (hw : t.inputFifo.doutValid = true) :
    Synced (past ++ [i]) r (t.step i) (raw ++ [t.inputFifo.dout]) used
      (g.tick true (arrival t i)) (h.tick false (reply t)) := by
  have hclosed : opens Word.tlast true raw = false := by
    have hstate := hs.state
    rw [hst] at hstate
    cases ho : opens Word.tlast true raw with
    | false => rfl
    | true => simp [ho] at hstate
  have hp : t.dstPortFifo.doutValid = false := by
    cases hp : t.dstPortFifo.doutValid with
    | false => rfl
    | true =>
      obtain ⟨hopen, -⟩ := hs.begins hp
      rw [hclosed] at hopen
      cases hopen
  obtain ⟨n, g', rfl, hn⟩ := shown_head hs.words hw
  have hrd : t.dstPortRd = false := by simp [Regs.dstPortRd, hst]
  have hv : t.mTvalid = true := by
    simp [Regs.mTvalid, Regs.sendPacket, hst, FallthroughFifo.empty, hw]
  have hmword : t.mWord = t.inputFifo.dout := by simp [Regs.mWord, hst]
  have hticks := hs.ticks i
  rw [hi, hv, hw, hrd] at hticks
  refine hs.next hrun hticks.1 hticks.2 ?_ ?_ ?_ ?_ ?_ ?_ ?_ ?_
  · simp [vals_tick]
  · simp [vals_tick]
  · rw [opens_concat]
    cases hl : t.inputFifo.dout.tlast <;> simp [Regs.step, Regs.stateNext, hst, hv, hl, hi]
  · have hhanded : lookup.handed t i = [t.inputFifo.dout] := by
      rw [← hmword]
      exact if_pos (by
        change (t.mTvalid && i.tready) = true
        rw [hv, hi]
        rfl)
    have hstamp := stamp_append true raw [t.inputFifo.dout] used [] hs.each
    rw [List.append_nil, hclosed] at hstamp
    rw [hhanded, hstamp]
    rfl
  · rw [openers_concat, hclosed, if_neg (by simp), List.append_nil, hs.each]
  · have hheads := heads_read Word.tlast false (t.inputFifo.dout, n) g' (arrival t i)
    have hstep := hs.timing_step i false (by simp)
    rw [opens_concat]
    rw [hclosed] at hstep
    rw [opens_append, hclosed] at hstep ⊢
    rw [hheads]
    exact hstep
  · exact tick_le true _ (tail_young hs.words.aged (hs.youngWords _ (by simp))) (by decide)
  · exact tick_le false _ (hidden hs.ports hp) (by decide)

theorem Synced.step (hs : Synced past r t raw used g h) (hrun : lookup.machine.run r past = t)
    {i : LookupInput} (hi : i.tready = true) :
    ∃ raw' used' rd h', Synced (past ++ [i]) r (t.step i) raw' used'
      (g.tick rd (arrival t i)) h' := by
  rcases Bool.eq_false_or_eq_true t.dstPortFifo.doutValid with hp | hp
  · exact ⟨_, _, _, _, hs.begin hrun hi hp⟩
  · cases hst : t.state with
    | wait =>
      have hopen : opens Word.tlast true raw = true := by
        have hstate := hs.state
        rw [hst] at hstate
        cases ho : opens Word.tlast true raw with
        | true => rfl
        | false => simp [ho] at hstate
      have hv : t.mTvalid = false := by
        simp [Regs.mTvalid, Regs.sendPacket, hst, FallthroughFifo.empty, hp]
      exact ⟨_, _, _, _, hs.rest hrun hv hp (hs.young hp hopen)⟩
    | send =>
      rcases Bool.eq_false_or_eq_true t.inputFifo.doutValid with hw | hw
      · exact ⟨_, _, _, _, hs.goesOn hrun hi hst hw⟩
      · have hv : t.mTvalid = false := by simp [Regs.mTvalid, FallthroughFifo.empty, hw]
        have hyoung := hidden hs.words hw
        exact ⟨_, _, _, _, hs.rest hrun hv hp fun e he => (hyoung e he).trans (by decide)⟩

end

theorem synced_run (s : Regs) {ins : List LookupInput} (h : ∀ i ∈ ins, i.tready = true) :
    ∃ raw used g p, Synced ins s.reset (lookup.machine.run s.reset ins) raw used g p := by
  refine lookup.machine.run_keeps (lookup.machine.along_of_forall h)
    (fun past t => ∃ raw used g p, Synced past s.reset t raw used g p)
    ⟨_, _, _, _, synced_reset s⟩ ?_
  rintro past i ⟨raw, used, g, p, hs⟩ hi
  obtain ⟨raw', used', rd, p', hs'⟩ := hs.step rfl hi
  exact ⟨raw', used', _, p', hs'⟩

/-- Words that have been there at the beginning of a pause get older with every cycle of it. -/
theorem synced_idle (s : Regs) {is js : List LookupInput} (his : ∀ i ∈ is, i.tready = true)
    (hjs : ∀ j ∈ js, j.tvalid = false ∧ j.tready = true) :
    ∃ raw used g p, Synced (is ++ js) s.reset (lookup.machine.run s.reset (is ++ js))
      raw used g p ∧ Mature js.length g := by
  induction js using List.reverseRecOn with
  | nil =>
    obtain ⟨raw, used, g, p, hs⟩ := synced_run s his
    rw [List.append_nil]
    exact ⟨raw, used, g, p, hs, fun _ _ => Nat.zero_le _⟩
  | append_singleton js j ih =>
    obtain ⟨raw, used, g, p, hs, hold⟩ := ih fun x hx => hjs x (by simp [hx])
    obtain ⟨hv, hr⟩ := hjs j (by simp)
    obtain ⟨raw', used', rd, p', hs'⟩ := hs.step rfl hr
    have hnone : arrival (lookup.machine.run s.reset (is ++ js)) j = none := by
      rw [arrival, hv]
      rfl
    rw [← List.append_assoc, Machine.run_concat, List.length_append, List.length_singleton]
    rw [hnone] at hs'
    exact ⟨raw', used', _, p', hs', hold.tick rd⟩

theorem Synced.answers_eq {past : List LookupInput} {r t : Regs} {raw : List Word}
    {used : List (BitVec 8)} {g : DelayQueue Word} {h : DelayQueue (BitVec 8)}
    (hs : Synced past r t raw used g h) :
    ∃ more, answers (emptyTable 4) (requests (raw ++ g.vals)) = used ++ more := by
  obtain ⟨done, hreqs, -, hanswers⟩ := hs.asked
  rw [hreqs, answers_append, hanswers, List.append_assoc, List.append_assoc]
  exact ⟨_, rfl⟩

theorem forwarded_data (ws : List Word) : (forwarded ws).map dataWord = ws.map dataWord := by
  refine SwitchLookup.stamp_data ?_
  rw [length_answers, requests, List.length_map]

/-- The lookup of the lite switch gives every packet the answer of the table to its request, and
keeps up with the line. -/
theorem labels (s : Regs) : lookup.Labels s.reset forwarded where
  ready is h := by
    obtain ⟨raw, used, g, p, hs⟩ := synced_run s h
    exact hs.sTready
  order is h := by
    obtain ⟨raw, used, g, p, hs⟩ := synced_run s h
    obtain ⟨more, hmore⟩ := hs.answers_eq
    rw [hs.handed, hs.left, forwarded, hmore, stamp_append true raw _ used more hs.each]
    exact List.prefix_append _ _
  flush := by
    refine ⟨6, fun is js his hjs hlen => ?_⟩
    obtain ⟨raw, used, g, p, hs, hold⟩ := synced_idle s his hjs
    obtain rfl : g = [] := by
      refine List.eq_nil_iff_forall_not_mem.mpr fun e he => ?_
      have hyoung := hs.youngWords e he
      have holder := hold e he
      omega
    obtain ⟨more, hmore⟩ := hs.answers_eq
    have hleft := hs.left
    rw [Machine.collect_append, lookup.accepted_idle _ hjs, List.append_nil, vals_nil,
      List.append_nil] at hleft
    rw [vals_nil, List.append_nil] at hmore
    have hstamp := stamp_append true raw [] used more hs.each
    rw [List.append_nil] at hstamp
    rw [hs.handed, hleft, forwarded, hmore, hstamp]
    cases opens Word.tlast true raw <;> simp [stamp]
  data := forwarded_data

theorem requests_packets {pkts : List (List Word)} (h : ∀ pkt ∈ pkts, Packet Word.tlast pkt) :
    requests pkts.flatten = pkts.map requestOf := by
  rw [requests, openers_packets Word.tlast h]
  induction pkts with
  | nil => rfl
  | cons pkt pkts ih =>
    cases pkt with
    | nil => exact absurd rfl (Packet.ne_nil Word.tlast (h [] (by simp)))
    | cons w ws =>
      rw [List.filterMap_cons, List.map_cons, ← ih fun x hx => h x (by simp [hx])]
      rfl

section Datapath
open ReferenceDatapath (Sys Input accepted handed packets quiet offering relabelled
  packet_of_source)
variable (s : Sys Regs) (l : Regs) (ins : List Input)

theorem relabelled_eq {ps : List (Fin 3 × List Word)} (h : ∀ e ∈ ps, Packet Word.tlast e.2) :
    relabelled forwarded ps =
      ((ps.map Prod.snd).zip (ports (ps.map Prod.snd))).map fun e => stamp true e.1 [e.2] := by
  have hpkt : ∀ pkt ∈ ps.map Prod.snd, Packet Word.tlast pkt := by
    intro pkt hp
    obtain ⟨e, he, rfl⟩ := List.mem_map.mp hp
    exact h e he
  rw [ReferenceDatapath.relabelled, forwarded, requests_packets hpkt]
  refine SwitchLookup.frames_stamp hpkt ?_
  rw [length_answers, List.length_map]

/-- The lite switch from reset, with packets of at most 25 words: when the sources have ended their
packets and all receivers are ready, it empties. Then the packets of all sources have come in some
order that keeps the order of each source, and each transmit queue has got, whole and in that order,
those that the learning table sends there, less the ones that were dropped from all queues. -/
theorem lite_delivers (hw : ∀ q, (packets lookup s l.reset ins q).Within 25)
    (hc : ∀ q, (packets lookup s l.reset ins q).rest = []) :
    ∃ k ps, ∃ verdicts : List Bool,
      (∀ q, Merge.ofSender q ps = (packets lookup s l.reset ins q).closed) ∧
      verdicts.length = ps.length ∧
      ∀ p, handed lookup s l.reset (ins ++ List.replicate k quiet) p =
        (((ps.map Prod.snd).zip (ports (ps.map Prod.snd))).zip verdicts).flatMap
          (fun e => if e.2 && portQueue e.1.2 p then e.1.1.map dataWord else []) := by
  obtain ⟨k, ps, verdicts, hps, hlen, hout⟩ :=
    ReferenceDatapath.drained lookup s l.reset ins (labels l) hw hc
  have hpkt := packet_of_source lookup s l.reset ins hps
  refine ⟨k, ps, verdicts, hps, hlen, fun p => ?_⟩
  rw [hout p, relabelled_eq hpkt, OutputQueues.share, List.zip_map_left, List.flatMap_map,
    List.map_flatMap]
  refine List.flatMap_congr fun e he => ?_
  obtain ⟨x, hx, hxe⟩ := List.mem_map.mp (List.of_mem_zip (List.of_mem_zip he).1).1
  exact SwitchLookup.stamp_share (hxe ▸ hpkt x hx) e.1.2 e.2 p

/-- Host 2 at MAC 0 sends host 1 a packet of three words and one of one word; meanwhile host 1 at
MAC 1 sends host 2 one of two words. -/
def crossing (ready : Bool) : List Input :=
  [offering ready [some ⟨0x000000000002000000000001, 1, 0x10080, false⟩,
      some ⟨0x000000000001000000000002, 1, 0x40080, false⟩],
    offering ready [some ⟨3, 1, 0, false⟩],
    offering ready [some ⟨4, 1, 0, true⟩, some ⟨5, 1, 0, true⟩],
    offering ready [some ⟨0x000000000002000000000001, 1, 0x10040, true⟩]]

/-- The receivers are not ready until eight cycles later. -/
theorem lite_delivers_crossing :
    let ins := crossing false ++ List.replicate 8 (offering false [])
    ports [[⟨0x000000000002000000000001, 1, 0x10080, false⟩, ⟨3, 1, 0, false⟩, ⟨4, 1, 0, true⟩],
        [⟨0x000000000001000000000002, 1, 0x40080, false⟩, ⟨5, 1, 0, true⟩],
        [⟨0x000000000002000000000001, 1, 0x10040, true⟩]] = [4, 1, 4] ∧
      ∃ k ps, ∃ verdicts : List Bool,
        (∀ q, Merge.ofSender q ps =
          (packets lookup default (default : Regs).reset ins q).closed) ∧
        verdicts.length = ps.length ∧
        ∀ p, handed lookup default (default : Regs).reset (ins ++ List.replicate k quiet) p =
          (((ps.map Prod.snd).zip (ports (ps.map Prod.snd))).zip verdicts).flatMap
            (fun e => if e.2 && portQueue e.1.2 p then e.1.1.map dataWord else []) :=
  ⟨by decide +kernel, lite_delivers default default
    (crossing false ++ List.replicate 8 (offering false [])) (by decide +kernel)
    (by decide +kernel)⟩

/-- Behind receivers that are always ready the lite switch drops nothing, whatever the length of
the packets. -/
theorem lite_lossless (hr : ∀ i ∈ ins, ∀ p, i.tready p = true)
    (hc : ∀ q, (packets lookup s l.reset ins q).rest = []) :
    ∃ k ps, (∀ q, Merge.ofSender q ps = (packets lookup s l.reset ins q).closed) ∧
      ∀ p, handed lookup s l.reset (ins ++ List.replicate k quiet) p =
        ((ps.map Prod.snd).zip (ports (ps.map Prod.snd))).flatMap
          (fun e => if portQueue e.2 p then e.1.map dataWord else []) := by
  obtain ⟨k, ps, hps, hout⟩ :=
    ReferenceDatapath.lossless lookup s l.reset ins (labels l) hr hc
  have hpkt := packet_of_source lookup s l.reset ins hps
  refine ⟨k, ps, hps, fun p => ?_⟩
  rw [hout p, relabelled_eq hpkt, List.flatMap_map, List.map_flatMap]
  refine List.flatMap_congr fun e he => ?_
  obtain ⟨x, hx, hxe⟩ := List.mem_map.mp (List.of_mem_zip he).1
  exact SwitchLookup.stamp_share (hxe ▸ hpkt x hx) e.2 true p

/-- A packet of thirty words from host 1, longer than the queues are made for. -/
def long : List Input :=
  List.replicate 29
      (offering true [none, some ⟨0x000000000001000000000002, 1, 0x40780, false⟩]) ++
    [offering true [none, some ⟨10, 1, 0, true⟩]]

theorem lite_lossless_crossing :
    let ins := crossing true ++ long
    (packets lookup default (default : Regs).reset ins 1).closed.map List.length = [2, 30] ∧
      ∃ k ps, (∀ q, Merge.ofSender q ps =
          (packets lookup default (default : Regs).reset ins q).closed) ∧
        ∀ p, handed lookup default (default : Regs).reset (ins ++ List.replicate k quiet) p =
          ((ps.map Prod.snd).zip (ports (ps.map Prod.snd))).flatMap
            (fun e => if portQueue e.2 p then e.1.map dataWord else []) :=
  ⟨by decide +kernel, lite_lossless default default (crossing true ++ long)
    (by decide +kernel) (by decide +kernel)⟩

end Datapath

end Osnt.SwitchLite
