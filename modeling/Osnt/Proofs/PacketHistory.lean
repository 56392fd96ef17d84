import Osnt.Proofs.HistoryOutput

/-! Packets and tuples of `packet_history`. The parser sees every word that is shown, the FIFO
for the packets only those that are taken; as long as the end of a packet is taken when it is
shown, the tuples are those of the packets. -/
namespace Osnt.PacketHistory
open Lib

section Source
variable {acc : List Beat} {put : List Tuple} {s : Sys} {i : Input}

/-- The word that waits to be taken. -/
def Sys.shown (s : Sys) : List Beat := if s.held then s.rem.take 1 else []

/-- The tuple on its way to `tuple_fifo`. -/
def Parser.pending (p : Parser) : List Tuple := if p.tupleValid then [p.tuple] else []

/-- The parser has seen the words accepted and the one that waits, each once. -/
structure Fed (acc : List Beat) (put : List Tuple) (s : Sys) : Prop where
  held : s.held = true → ∃ w ws, s.rem = w :: ws ∧ w.tlast = false
  parser : s.history.parser.state =
    if opens Beat.tlast true (acc ++ s.shown) then .idle else .waitNext
  tuples : put ++ s.history.parser.pending =
    (openers Beat.tlast true (acc ++ s.shown)).map Beat.tuple

/-- The parser passes the words within a packet and the cycles without a word. -/
theorem Parser.step_skip {p : Parser} {tvalid : Bool} {w : Beat}
    (hidle : p.state = .idle → tvalid = false) (hwait : p.state = .waitNext → w.tlast = false) :
    p.step tvalid w = { p with tupleValid := false } := by
  cases hst : p.state with
  | idle => simp [Parser.step, hst, hidle hst]
  | waitNext => simp [Parser.step, hst, hwait hst]

/-- A word that is new to the parser: it knows by it whether the next one begins a packet. -/
theorem Parser.step_new (p : Parser) (w : Beat) :
    (p.step true w).state = (if w.tlast then .idle else .waitNext) ∧
      (p.step true w).pending = if p.state = .idle then [w.tuple] else [] := by
  cases hst : p.state with
  | idle => simp [Parser.step, Parser.pending, hst]
  | waitNext => simp [Parser.step, Parser.pending, hst]

theorem parser_step (s : Sys) (i : Input) :
    (s.step i).history.parser = s.history.parser.step (s.sTvalid i) (s.bus i) := rfl

theorem Fed.waiting (h : Fed acc put s) (hh : s.held = true) :
    s.history.parser.state = .waitNext := by
  obtain ⟨w, ws, hrem, hl⟩ := h.held hh
  rw [h.parser, Sys.shown, hh, hrem]
  simp [hl]

theorem Fed.quiet (h : Fed acc put s) (hp : Prompt s i) (hv : s.sTvalid i = false) :
    Fed (acc ++ s.history.accepted (s.ports i)) (put ++ s.history.parser.pending) (s.step i) := by
  have hheld : s.held = false := by
    by_contra hh
    have hh : s.held = true := eq_true_of_ne_false hh
    obtain ⟨w, ws, hrem, -⟩ := h.held hh
    simp [Sys.sTvalid, hh, hrem] at hv
  have htakes : s.takes i = false := by simp [Sys.takes, History.inputWrEn, Sys.ports, hv]
  have hacc : s.history.accepted (s.ports i) = [] := by
    simp [History.accepted, History.inputWrEn, Sys.ports, hv]
  have hshown : s.shown = [] := by simp [Sys.shown, hheld]
  have hshown' : (s.step i).shown = [] := by simp [Sys.shown, Sys.step, hv]
  have hparser : (s.step i).history.parser = { s.history.parser with tupleValid := false } := by
    rw [parser_step, hv]
    refine Parser.step_skip (fun _ => rfl) (fun hw => ?_)
    by_contra hl
    rw [hp (eq_true_of_ne_false hl) (.inr hw)] at htakes
    cases htakes
  refine ⟨?_, ?_, ?_⟩
  · intro hh
    simp [Sys.step, hv] at hh
  · rw [hparser, hacc, hshown', List.append_nil, ← hshown]
    exact h.parser
  · rw [hparser, hacc, hshown', List.append_nil, ← hshown, ← h.tuples]
    simp [Parser.pending]

theorem shown_step {w : Beat} {ws : List Beat} (hrem : s.rem = w :: ws)
    (hv : s.sTvalid i = true) :
    s.history.accepted (s.ports i) ++ (s.step i).shown = [w] := by
  have hbus : s.bus i = w := by simp [Sys.bus, hv, hrem]
  have hacc : s.history.accepted (s.ports i) = if s.takes i then [w] else [] := by
    rw [← hbus]
    rfl
  rw [hacc, Sys.shown]
  cases ht : s.takes i <;> simp [Sys.step, hv, ht, hrem]

theorem Prompt.held {w : Beat} {ws : List Beat} (hp : Prompt s i) (hrem : s.rem = w :: ws)
    (hv : s.sTvalid i = true) (hh : (s.step i).held = true) :
    ∃ w ws, (s.step i).rem = w :: ws ∧ w.tlast = false := by
  have hbus : s.bus i = w := by simp [Sys.bus, hv, hrem]
  have ht : s.takes i = false := by
    simpa [Sys.step, hv] using hh
  refine ⟨w, ws, by simp [Sys.step, ht, hrem], ?_⟩
  by_contra hl
  rw [← hbus] at hl
  rw [hp (eq_true_of_ne_false hl) (.inl hv)] at ht
  cases ht

theorem Fed.fresh {w : Beat} {ws : List Beat} (h : Fed acc put s) (hp : Prompt s i)
    (hrem : s.rem = w :: ws) (hv : s.sTvalid i = true) (hh : s.held = false) :
    Fed (acc ++ s.history.accepted (s.ports i)) (put ++ s.history.parser.pending) (s.step i) := by
  have hbus : s.bus i = w := by simp [Sys.bus, hv, hrem]
  have hoff : acc ++ s.history.accepted (s.ports i) ++ (s.step i).shown = acc ++ [w] := by
    rw [List.append_assoc, shown_step hrem hv]
  have hshown : s.shown = [] := by simp [Sys.shown, hh]
  have hpar := h.parser
  have htup := h.tuples
  rw [hshown, List.append_nil] at hpar htup
  obtain ⟨hstate, hpend⟩ := s.history.parser.step_new w
  refine ⟨hp.held hrem hv, ?_, ?_⟩
  · rw [hoff, opens_concat, parser_step, hv, hbus, hstate]
  · rw [hoff, openers_concat, parser_step, hv, hbus, hpend, hpar, htup, List.map_append]
    cases opens Beat.tlast true acc <;> simp

theorem Fed.again {w : Beat} {ws : List Beat} (h : Fed acc put s) (hp : Prompt s i)
    (hrem : s.rem = w :: ws) (hv : s.sTvalid i = true) (hh : s.held = true) :
    Fed (acc ++ s.history.accepted (s.ports i)) (put ++ s.history.parser.pending) (s.step i) := by
  have hbus : s.bus i = w := by simp [Sys.bus, hv, hrem]
  have hoff : acc ++ s.history.accepted (s.ports i) ++ (s.step i).shown = acc ++ [w] := by
    rw [List.append_assoc, shown_step hrem hv]
  have hwait := h.waiting hh
  have hl : w.tlast = false := by
    obtain ⟨v, vs, hrem', hv⟩ := h.held hh
    rw [hrem] at hrem'
    rw [(List.cons.inj hrem').1, hv]
  have hshown : s.shown = [w] := by simp [Sys.shown, hh, hrem]
  have hparser : (s.step i).history.parser = { s.history.parser with tupleValid := false } := by
    rw [parser_step, hbus]
    refine Parser.step_skip (fun hidle => ?_) (fun _ => hl)
    rw [hwait] at hidle
    cases hidle
  refine ⟨hp.held hrem hv, ?_, ?_⟩
  · rw [hoff, hparser, ← hshown]
    exact h.parser
  · rw [hoff, hparser, ← hshown, ← h.tuples]
    simp [Parser.pending]

/-- What the parser knows is kept, as long as the end of a packet is taken when it is shown. -/
theorem Fed.step (h : Fed acc put s) (hp : Prompt s i) :
    Fed (acc ++ s.history.accepted (s.ports i)) (put ++ s.history.parser.pending) (s.step i) := by
  cases hv : s.sTvalid i with
  | false => exact h.quiet hp hv
  | true =>
    cases hrem : s.rem with
    | nil => simp [Sys.sTvalid, hrem] at hv
    | cons w ws =>
      cases hh : s.held with
      | false => exact h.fresh hp hrem hv hh
      | true => exact h.again hp hrem hv hh

theorem Fed.pending_step (h : Fed acc put s) (hn : s.held = true ∨ s.sTvalid i = false) :
    (s.step i).history.parser.pending = [] := by
  rcases hn with hh | hv
  · simp [Parser.pending, parser_step, Parser.step, h.waiting hh]
  · cases hst : s.history.parser.state <;>
      simp [Parser.pending, parser_step, Parser.step, hst, hv]

theorem Fed.sTvalid (h : Fed acc put s) (hh : s.held = true) : s.sTvalid i = true := by
  obtain ⟨w, ws, hrem, -⟩ := h.held hh
  simp [Sys.sTvalid, hh, hrem]

theorem written_eq (h : s.history.tupleFifo.length < 16) :
    s.history.written = s.history.parser.pending := by
  simp [History.written, Parser.pending, h]

theorem pending_le (p : Parser) : p.pending.length ≤ 1 := by
  rw [Parser.pending]
  split <;> simp

/-- Tuples for which there is no room in the FIFO: at most one is on its way when `s_axis_tready`
falls, and the word shown then adds one. -/
def Room (s : Sys) : Prop :=
  s.history.tupleFifo.length + s.history.parser.pending.length ≤ if s.held then 12 else 11

theorem Room.lt (h : Room s) : s.history.tupleFifo.length < 16 := by
  rw [Room] at h
  split at h <;> omega

theorem Room.step (h : Room s) (hf : Fed acc put s) : Room (s.step i) := by
  have hlen := tupleFifo_length s.history (s.ports i)
  rw [written_eq h.lt] at hlen
  have hfifo : (s.step i).history.tupleFifo = (s.history.step (s.ports i)).tupleFifo := rfl
  have hone := pending_le (s.step i).history.parser
  have htakes : s.takes i = true → s.history.tupleFifo.length ≤ 9 := by
    intro ht
    simp only [Sys.takes, History.inputWrEn, History.sTready, Bool.and_eq_true,
      Bool.not_eq_true', decide_eq_false_iff_not] at ht
    omega
  have hheld : (s.step i).held = (s.sTvalid i && !s.takes i) := rfl
  have hp := pending_le s.history.parser
  rw [Room] at h ⊢
  rw [hheld, hfifo]
  cases hh : s.held with
  | true =>
    rw [hf.pending_step (.inl hh), hf.sTvalid hh]
    rw [hh] at h
    cases ht : s.takes i with
    | true =>
      have h9 := htakes ht
      simp only [Bool.true_and, Bool.not_true, Bool.false_eq_true, ↓reduceIte, List.length_nil]
      omega
    | false =>
      simp only [Bool.true_and, Bool.not_false, ↓reduceIte, List.length_nil] at h ⊢
      omega
  | false =>
    rw [hh] at h
    cases hv : s.sTvalid i with
    | false =>
      rw [hf.pending_step (.inr hv)]
      simp only [Bool.false_and, Bool.false_eq_true, ↓reduceIte, List.length_nil] at h ⊢
      omega
    | true =>
      cases ht : s.takes i with
      | true =>
        have h9 := htakes ht
        simp only [Bool.true_and, Bool.not_true, Bool.false_eq_true, ↓reduceIte]
        omega
      | false =>
        simp only [Bool.true_and, Bool.not_false, Bool.false_eq_true, ↓reduceIte] at h ⊢
        omega

end Source

section Serve
variable {P Q : Nat → Beat → Prop} {acc out fwd : List Beat} {put got : List Tuple}

/-- What went into the FIFOs has come out or is in them, and one tuple has been read for every
packet that has its history words. -/
structure Served (P Q : Nat → Beat → Prop) (acc out fwd : List Beat) (put got : List Tuple)
    (s : History) : Prop where
  words : acc = fwd ++ s.inputFifo
  tuples : put = got ++ s.tupleFifo
  woven : Woven P Q out fwd s.state
  count : got.length =
    (frames Beat.tlast fwd).closed.length + if s.state = .sendPacket then 1 else 0
  second : s.state = .secondBatch → s.tupleFifo ≠ []

theorem Served.count_step {s : History} (h : Served P Q acc out fwd put got s) (i : Ports) :
    (got ++ s.taken i).length = (frames Beat.tlast (fwd ++ s.forwarded i)).closed.length +
      if s.stateNext i = .sendPacket then 1 else 0 := by
  have hcount := h.count
  rw [List.length_append, History.taken]
  cases cycle s i with
  | nothing sent forwarded rd wr next =>
    rw [forwarded, rd, next, List.append_nil]
    exact hcount
  | first state tuples sent forwarded rd wr next =>
    rw [state] at hcount
    rw [forwarded, rd, next, List.append_nil]
    simpa using hcount
  | second state sent forwarded rd wr next =>
    rw [state] at hcount
    rw [forwarded, rd, next, List.append_nil]
    have hpos := List.length_pos_iff.mpr (h.second state)
    simp only [if_true, List.length_take, reduceCtorEq, if_false] at hcount ⊢
    omega
  | word w ws state words sent forwarded rd wr next =>
    rw [state] at hcount
    rw [forwarded, rd, next, length_closed_concat]
    cases w.tlast <;> simpa using hcount

theorem Served.second_step {s : History} (h : Served P Q acc out fwd put got s) (i : Ports)
    (hnext : s.stateNext i = .secondBatch) : (s.step i).tupleFifo ≠ [] := by
  have htup : (s.step i).tupleFifo =
    (if s.tupleRdEn i then s.tupleFifo.tail else s.tupleFifo) ++ s.written := rfl
  rw [htup]
  cases cycle s i with
  | nothing sent forwarded rd wr next =>
    rw [rd]
    exact List.append_ne_nil_of_left_ne_nil (h.second (next.symm.trans hnext)) _
  | first state tuples sent forwarded rd wr next =>
    rw [rd]
    exact List.append_ne_nil_of_left_ne_nil tuples _
  | second state sent forwarded rd wr next =>
    rw [next] at hnext
    cases hnext
  | word w ws state words sent forwarded rd wr next =>
    rw [next] at hnext
    cases hl : w.tlast <;> simp [hl] at hnext

theorem Served.step {s : History} (h : Served P Q acc out fwd put got s) (i : Ports)
    (hP : s.state = .firstBatch → P (frames Beat.tlast fwd).closed.length (s.firstWord i))
    (hQ : s.state = .secondBatch → Q (frames Beat.tlast fwd).closed.length (s.secondWord i)) :
    Served P Q (acc ++ s.accepted i) (out ++ s.sent i) (fwd ++ s.forwarded i) (put ++ s.written)
      (got ++ s.taken i) (s.step i) := by
  have hin : (s.step i).inputFifo =
    (if s.inputRdEn i then s.inputFifo.tail else s.inputFifo) ++ s.accepted i := rfl
  have htup : (s.step i).tupleFifo =
    (if s.tupleRdEn i then s.tupleFifo.tail else s.tupleFifo) ++ s.written := rfl
  refine ⟨?_, ?_, h.woven.step i hP hQ, h.count_step i, h.second_step i⟩
  · rw [hin, List.append_assoc, ← List.append_assoc (s.forwarded i), forwarded_append,
      ← List.append_assoc, ← h.words]
  · rw [htup, List.append_assoc, ← List.append_assoc (s.taken i), taken_append,
      ← List.append_assoc, ← h.tuples]

end Serve

section Run
variable {P Q : Nat → Beat → Prop} {pkts : List (List Beat)} {ins : List Input}

def takenBy (pkts : List (List Beat)) (ins : List Input) : List Tuple :=
  machine.collect (fun s i => s.history.taken (s.ports i)) (start pkts) ins

/-- Both sides of the block along a run. -/
structure Sound (P Q : Nat → Beat → Prop) (pkts : List (List Beat)) (ins : List Input) :
    Prop where
  fed : Fed (acceptedBy pkts ins) (writtenBy pkts ins) (after pkts ins)
  room : Room (after pkts ins)
  stream : acceptedBy pkts ins ++ (after pkts ins).rem = pkts.flatten
  served : Served P Q (acceptedBy pkts ins) (sentBy pkts ins) (forwardedBy pkts ins)
    (writtenBy pkts ins) (takenBy pkts ins) (after pkts ins).history

theorem sound_start (P Q : Nat → Beat → Prop) (pkts : List (List Beat)) : Sound P Q pkts [] := by
  refine ⟨⟨nofun, rfl, rfl⟩, ?_, rfl, ⟨rfl, rfl, ⟨[], [], rfl, by simp, rfl, rfl, rfl⟩, rfl, nofun⟩⟩
  simp [Room, after, start, reset, Parser.pending]

theorem accepted_append (s : Sys) (i : Input) :
    s.history.accepted (s.ports i) ++ (s.step i).rem = s.rem := by
  have hacc : s.history.accepted (s.ports i) = if s.takes i then [s.bus i] else [] := rfl
  have hrem : (s.step i).rem = if s.takes i then s.rem.tail else s.rem := rfl
  rw [hacc, hrem]
  cases ht : s.takes i with
  | false => rfl
  | true =>
    have hv : s.sTvalid i = true := (Bool.and_eq_true_iff.mp ht).1
    cases hq : s.rem with
    | nil => simp [Sys.sTvalid, hq] at hv
    | cons w ws => simp [Sys.bus, hv, hq]

theorem Sound.concat (h : Sound P Q pkts ins) {i : Input} (hp : Prompt (after pkts ins) i)
    (hP : (after pkts ins).history.state = .firstBatch →
      P (frames Beat.tlast (forwardedBy pkts ins)).closed.length
        ((after pkts ins).history.firstWord ((after pkts ins).ports i)))
    (hQ : (after pkts ins).history.state = .secondBatch →
      Q (frames Beat.tlast (forwardedBy pkts ins)).closed.length
        ((after pkts ins).history.secondWord ((after pkts ins).ports i))) :
    Sound P Q pkts (ins ++ [i]) := by
  have hafter : after pkts (ins ++ [i]) = (after pkts ins).step i := Machine.run_concat _ _ _ _
  have hacc : acceptedBy pkts (ins ++ [i]) = acceptedBy pkts ins ++ _ :=
    Machine.collect_concat _ _ _ _ _
  have hsent : sentBy pkts (ins ++ [i]) = sentBy pkts ins ++ _ := Machine.collect_concat _ _ _ _ _
  have hfwd : forwardedBy pkts (ins ++ [i]) = forwardedBy pkts ins ++ _ :=
    Machine.collect_concat _ _ _ _ _
  have hput : writtenBy pkts (ins ++ [i]) = writtenBy pkts ins ++ _ :=
    Machine.collect_concat _ _ _ _ _
  have hgot : takenBy pkts (ins ++ [i]) = takenBy pkts ins ++ _ := Machine.collect_concat _ _ _ _ _
  refine ⟨?_, ?_, ?_, ?_⟩
  · rw [hafter, hacc, hput, ← after, written_eq h.room.lt]
    exact h.fed.step hp
  · rw [hafter]
    exact h.room.step h.fed
  · rw [hafter, hacc, List.append_assoc, ← after, accepted_append]
    exact h.stream
  · rw [hafter, hacc, hsent, hfwd, hput, hgot]
    exact h.served.step _ hP hQ

theorem tuples_length (h : Sound P Q pkts ins) :
    (takenBy pkts ins).length + (after pkts ins).history.tupleFifo.length +
        (after pkts ins).history.parser.pending.length =
      (openers Beat.tlast true (acceptedBy pkts ins ++ (after pkts ins).shown)).length := by
  have hlen := congrArg List.length h.fed.tuples
  rw [h.served.tuples, List.length_append, List.length_append, List.length_map] at hlen
  exact hlen

/-- The words that the parser takes for opening words are such. -/
theorem Sound.openers_shown (h : Sound P Q pkts ins) :
    openers Beat.tlast true (acceptedBy pkts ins ++ (after pkts ins).shown) <+:
      openers Beat.tlast true pkts.flatten := by
  obtain ⟨vs, hvs⟩ : (after pkts ins).shown <+: (after pkts ins).rem := by
    rw [Sys.shown]
    split
    · exact List.take_prefix _ _
    · exact List.nil_prefix
  have hcut : pkts.flatten = acceptedBy pkts ins ++ (after pkts ins).shown ++ vs := by
    rw [List.append_assoc, hvs, h.stream]
  rw [hcut, openers_append Beat.tlast true _ vs]
  exact List.prefix_append _ _

theorem tuples_le (h : Sound P Q pkts ins) (hpkts : ∀ pkt ∈ pkts, Packet Beat.tlast pkt) :
    (takenBy pkts ins).length + (after pkts ins).history.tupleFifo.length ≤ pkts.length := by
  have hall : (openers Beat.tlast true pkts.flatten).length = pkts.length := by
    rw [length_openers, frames_packets _ hpkts]
    rfl
  have hlen := tuples_length h
  have hle := h.openers_shown.length_le
  omega

theorem Sound.delivers (h : Sound P Q pkts ins) (hpkts : ∀ pkt ∈ pkts, Packet Beat.tlast pkt)
    (hP : ∀ k, ∃ a, P k a) (hQ : ∀ k, ∃ b, Q k b) : Delivers P Q pkts (sentBy pkts ins) := by
  have hle := tuples_le h hpkts
  have hcount := h.served.count
  have hcut : forwardedBy pkts ins ++ ((after pkts ins).history.inputFifo ++
      (after pkts ins).rem) = pkts.flatten := by
    rw [← List.append_assoc, ← h.served.words, h.stream]
  refine h.served.woven.delivers hpkts hcut (fun hst => ?_) hP hQ
  cases hs : (after pkts ins).history.state with
  | firstBatch => exact absurd hs hst
  | secondBatch =>
    have hpos := List.length_pos_iff.mpr (h.served.second hs)
    rw [hs, if_neg (by decide)] at hcount
    omega
  | sendPacket =>
    rw [hs, if_pos rfl] at hcount
    omega

/-- The block does not wait for a tuple when it has words. -/
theorem Sound.first_empty (h : Sound P Q pkts ins)
    (hst : (after pkts ins).history.state = .firstBatch)
    (ht : (after pkts ins).history.tupleFifo = [])
    (hp : (after pkts ins).history.parser.pending = []) :
    (after pkts ins).history.inputFifo = [] := by
  have hlen := tuples_length h
  have hcount := h.served.count
  have hwoven := h.served.woven
  rw [hst] at hcount hwoven
  obtain ⟨hs, o, -, -, -, hrest, -⟩ := hwoven
  have hopens := (opens_iff_rest Beat.tlast _).mpr hrest
  rw [ht, hp, hcount, h.served.words, List.append_assoc, openers_append, List.length_append,
    length_openers, hrest, hopens] at hlen
  cases hq : (after pkts ins).history.inputFifo with
  | nil => rfl
  | cons w ws =>
    rw [hq, List.cons_append, openers] at hlen
    simp at hlen

/-- Without words within a packet, the block has no further tuple. -/
theorem Sound.send_empty (h : Sound P Q pkts ins)
    (hst : (after pkts ins).history.state = .sendPacket)
    (hin : (after pkts ins).history.inputFifo = []) :
    (after pkts ins).history.tupleFifo = [] ∧ (after pkts ins).history.parser.pending = [] := by
  have hlen := tuples_length h
  have hcount := h.served.count
  have hshown : (after pkts ins).shown.length ≤ 1 := by
    rw [Sys.shown]
    split
    · exact List.length_take_le 1 _
    · exact Nat.zero_le 1
  have hle : (openers Beat.tlast true (forwardedBy pkts ins ++ (after pkts ins).shown)).length ≤
      (frames Beat.tlast (forwardedBy pkts ins)).closed.length + 1 := by
    rw [openers_append, List.length_append, length_openers]
    by_cases hrest : (frames Beat.tlast (forwardedBy pkts ins)).rest = []
    · have := length_openers_le Beat.tlast (opens Beat.tlast true (forwardedBy pkts ins))
        (after pkts ins).shown
      rw [if_pos hrest]
      omega
    · have hopens : opens Beat.tlast true (forwardedBy pkts ins) = false :=
        eq_false_of_ne_true (mt (opens_iff_rest Beat.tlast _).mp hrest)
      rw [if_neg hrest, hopens]
      cases hw : (after pkts ins).shown with
      | nil => exact Nat.le_refl _
      | cons w ws =>
        rw [hw, List.length_cons] at hshown
        obtain rfl : ws = [] := List.length_eq_zero_iff.mp (by omega)
        exact Nat.le_refl _
  rw [h.served.words, hin, List.append_nil] at hlen
  rw [hst, if_pos rfl] at hcount
  exact ⟨List.length_eq_zero_iff.mp (by omega), List.length_eq_zero_iff.mp (by omega)⟩

/-- Both FIFOs are empty and no tuple is on its way. -/
def Drained (s : Sys) : Prop :=
  s.history.inputFifo = [] ∧ s.history.tupleFifo = [] ∧ s.history.parser.pending = []

/-- Cycles that the block has left to do. -/
def rank (s : Sys) : Nat :=
  (if s.held then 3 else 0) + 2 * s.history.inputFifo.length +
    2 * s.history.parser.pending.length + s.history.tupleFifo.length +
    if s.history.state = .firstBatch then 1 else 0

theorem Sound.sTvalid_drain (h : Sound P Q pkts ins) :
    (after pkts ins).sTvalid drain = (after pkts ins).held := by
  cases hh : (after pkts ins).held with
  | true => exact h.fed.sTvalid hh
  | false => simp [Sys.sTvalid, hh, drain]

theorem Sound.prompt_drain (h : Sound P Q pkts ins) : Prompt (after pkts ins) drain := by
  intro hl
  have hbus : ((after pkts ins).bus drain).tlast = false := by
    rw [Sys.bus, h.sTvalid_drain]
    cases hh : (after pkts ins).held with
    | false => rfl
    | true =>
      obtain ⟨w, ws, hrem, hw⟩ := h.fed.held hh
      simp [hrem, hw]
  rw [hl] at hbus
  cases hbus

/-- A block that has something left and hands nothing over waits for a tuple on its way. -/
theorem Sound.pending_ne_nil (h : Sound P Q pkts ins) (hnot : ¬ Drained (after pkts ins))
    (hfwd : (after pkts ins).history.forwarded ((after pkts ins).ports drain) = [])
    (hrd : (after pkts ins).history.tupleRdEn ((after pkts ins).ports drain) = false)
    (hwr : (after pkts ins).history.wrMemEnNext ((after pkts ins).ports drain) = false) :
    (after pkts ins).history.parser.pending ≠ [] := by
  intro hp
  apply hnot
  cases hst : (after pkts ins).history.state with
  | firstBatch =>
    have ht : (after pkts ins).history.tupleFifo = [] := by
      simpa [History.wrMemEnNext, hst, Sys.ports, drain] using hwr
    exact ⟨h.first_empty hst ht hp, ht, hp⟩
  | secondBatch => simp [History.tupleRdEn, hst, Sys.ports, drain] at hrd
  | sendPacket =>
    have hin : (after pkts ins).history.inputFifo = [] := by
      simpa [History.forwarded, History.inputRdEn, hst, Sys.ports, drain] using hfwd
    exact ⟨hin, h.send_empty hst hin⟩

/-- The word that waits is the only one that can still be accepted. -/
theorem held_drain {s : Sys} (hv : s.sTvalid drain = s.held) :
    (if (s.step drain).held then 3 else 0) +
      3 * (s.history.accepted (s.ports drain)).length = if s.held then 3 else 0 := by
  have hacc : s.history.accepted (s.ports drain) =
    if s.takes drain then [s.bus drain] else [] := rfl
  have hnext : (s.step drain).held = (s.sTvalid drain && !s.takes drain) := rfl
  have htakes : s.takes drain = (s.sTvalid drain && s.history.sTready) := rfl
  rw [hacc, hnext, htakes, hv]
  cases s.held <;> cases s.history.sTready <;> rfl

/-- A cycle of draining brings the block nearer to the end. -/
theorem Sound.rank_step (h : Sound P Q pkts ins) (hnot : ¬ Drained (after pkts ins)) :
    rank ((after pkts ins).step drain) < rank (after pkts ins) := by
  generalize hs : after pkts ins = s at hnot
  have hv : s.sTvalid drain = s.held := hs ▸ h.sTvalid_drain
  have hpend : (s.step drain).history.parser.pending = [] := by
    subst hs
    refine h.fed.pending_step ?_
    rw [hv]
    cases (after pkts ins).held <;> simp
  have hheld := held_drain hv
  have hin := inputFifo_length s.history (s.ports drain)
  have htup := tupleFifo_length s.history (s.ports drain)
  have hwr : s.history.written = s.history.parser.pending := written_eq (hs ▸ h.room.lt)
  have hstep : (s.step drain).history = s.history.step (s.ports drain) := rfl
  have hst : (s.step drain).history.state = s.history.stateNext (s.ports drain) := rfl
  rw [← hstep] at hin htup
  rw [hwr] at htup
  rw [rank, rank, hpend, hst]
  cases cycle s.history (s.ports drain) with
  | nothing sent forwarded rd wr next =>
    subst hs
    have hpos := List.length_pos_iff.mpr (h.pending_ne_nil hnot forwarded rd wr)
    rw [History.taken, rd] at htup
    rw [forwarded] at hin
    rw [next]
    simp only [Bool.false_eq_true, ↓reduceIte, List.length_nil] at hin htup ⊢
    omega
  | first state tuples sent forwarded rd wr next =>
    rw [History.taken, rd] at htup
    rw [forwarded] at hin
    rw [next, state]
    simp only [Bool.false_eq_true, reduceCtorEq, ↓reduceIte, List.length_nil] at hin htup ⊢
    omega
  | second state sent forwarded rd wr next =>
    rw [History.taken, rd] at htup
    rw [forwarded] at hin
    rw [next, state]
    have hpos := List.length_pos_iff.mpr ((hs ▸ h.served).second state)
    simp only [reduceCtorEq, ↓reduceIte, List.length_nil, List.length_take] at hin htup ⊢
    omega
  | word w ws state words sent forwarded rd wr next =>
    rw [History.taken, rd] at htup
    rw [forwarded] at hin
    rw [next, state]
    cases hl : w.tlast with
    | true =>
      simp only [Bool.false_eq_true, reduceCtorEq, ↓reduceIte, List.length_nil,
        List.length_singleton] at hin htup ⊢
      omega
    | false =>
      simp only [Bool.false_eq_true, reduceCtorEq, ↓reduceIte, List.length_nil,
        List.length_singleton] at hin htup ⊢
      omega

theorem Sound.drains (h : Sound P Q pkts ins)
    (hP : ∀ (s : History) i k, s.state = .firstBatch → P k (s.firstWord i))
    (hQ : ∀ (s : History) i k, s.state = .secondBatch → Q k (s.secondWord i)) :
    ∃ n, Drained (after pkts (ins ++ List.replicate n drain)) := by
  obtain ⟨n, hn⟩ := machine.run_reaches drain (fun s => ∃ js, s = after pkts js ∧ Sound P Q pkts js)
    Drained rank
    (by
      rintro _ ⟨js, rfl, hjs⟩ hnot
      refine .inr ⟨⟨js ++ [drain], (Machine.run_concat _ _ _ _).symm, ?_⟩, hjs.rank_step hnot⟩
      exact hjs.concat hjs.prompt_drain (fun hst => hP _ _ _ hst) (fun hst => hQ _ _ _ hst))
    ⟨ins, rfl, h⟩
  refine ⟨n, ?_⟩
  rw [after, Machine.run_append]
  exact hn

/-- A run in which the end of every packet is taken when it is shown. -/
theorem sound_of_prompt (hp : machine.Along Prompt (start pkts) ins) :
    Sound (fun _ a => a.tlast = false) (fun _ b => b.tlast = false) pkts ins := by
  induction ins using List.reverseRecOn with
  | nil => exact sound_start _ _ pkts
  | append_singleton ins i ih =>
    obtain ⟨hpast, hnow⟩ := machine.along_concat.mp hp
    exact (ih hpast).concat hnow (fun _ => rfl) (fun _ => rfl)

/-- In every run from reset in which the end of every packet is taken when it is shown, packets
come behind two words each, there is a tuple for each, and what is accepted gets out. -/
theorem framed_of_prompt (hpkts : ∀ pkt ∈ pkts, Packet Beat.tlast pkt)
    (hp : machine.Along Prompt (start pkts) ins) : Framed pkts ins := by
  have h := sound_of_prompt hp
  have hlow : ∀ _ : Nat, ∃ a : Beat, a.tlast = false := fun _ => ⟨default, rfl⟩
  refine ⟨h.delivers hpkts hlow hlow, ?_, ?_⟩
  · intro hh hv
    have hlen := congrArg List.length h.fed.tuples
    simpa [Sys.shown, hh, Parser.pending, hv] using hlen
  · obtain ⟨n, hin, htup, hpend⟩ := h.drains (fun _ _ _ _ => rfl) (fun _ _ _ _ => rfl)
    refine ⟨n, hin, htup, ?_⟩
    by_contra hv
    simp [Parser.pending, hv] at hpend

end Run

/-- A word with a source address. -/
def sampleBeat (srcIp : BitVec 1024) (tlast : Bool) : Beat := ⟨srcIp <<< 208, 0, 0, tlast⟩

/-- Cycles in which the source shows its words without a gap. -/
def steady (n : Nat) (mTready : Bool) : List Input :=
  List.replicate n ⟨true, default, mTready, default⟩

/-- Eleven words, one more than the FIFO takes. -/
def samplePacket : List Beat := List.replicate 10 (sampleBeat 1 false) ++ [sampleBeat 1 true]

theorem samplePacket_packet : ∀ pkt ∈ [samplePacket], Packet Beat.tlast pkt := by
  intro pkt hpkt
  rw [List.mem_singleton] at hpkt
  exact ⟨List.replicate 10 (sampleBeat 1 false), sampleBeat 1 true, hpkt,
    fun v hv => List.eq_of_mem_replicate hv ▸ rfl, rfl⟩

theorem framed_samplePacket : (∀ pkt ∈ [samplePacket], Packet Beat.tlast pkt) ∧
    machine.Along Prompt (start [samplePacket]) (steady 20 true) ∧
    Framed [samplePacket] (steady 20 true) := by
  have hp : machine.Along Prompt (start [samplePacket]) (steady 20 true) := by decide +kernel
  exact ⟨samplePacket_packet, hp, framed_of_prompt samplePacket_packet hp⟩

theorem tuples_without_packet : (∀ pkt ∈ [samplePacket], Packet Beat.tlast pkt) ∧
    (sentBy [samplePacket] (steady 10 false ++ steady 15 true)).length = 15 ∧
    ¬ Framed [samplePacket] (steady 10 false ++ steady 15 true) := by
  refine ⟨samplePacket_packet, by decide +kernel, fun h => ?_⟩
  have hlen := h.tuples (by decide +kernel) (by decide +kernel)
  exact absurd hlen (by decide +kernel)

end Osnt.PacketHistory
