import Osnt.RxQueue

/-! Whole packets through `osnt_rx_queue`. Room is looked at only when a packet begins, so a
packet is cut short exactly if one of its later words finds the FIFO full. -/
namespace Osnt.RxQueue
open Lib
variable {d : Nat}

theorem stampPacket_concat (as : List Arrival) (a : Arrival) :
    stampPacket (as ++ [a]) = stampPacket as ++ [if as = [] then a.stamped else a.word] := by
  cases as with
  | nil => rfl
  | cons b as => simp [stampPacket]

theorem length_stampPacket (as : List Arrival) : (stampPacket as).length = as.length := by
  cases as <;> simp [stampPacket]

theorem stampPacket_inner {as : List Arrival} (h : ∀ a ∈ as, a.tlast = false) :
    ∀ w ∈ stampPacket as, w.tlast = false := by
  cases as with
  | nil => simp [stampPacket]
  | cons a as =>
    intro w hw
    rcases List.mem_cons.mp hw with rfl | hw
    · exact h a (by simp)
    · obtain ⟨b, hb, rfl⟩ := List.mem_map.mp hw
      exact h b (by simp [hb])

theorem stampPacket_packet {as : List Arrival} (h : Packet Arrival.tlast as) :
    Packet Word.tlast (stampPacket as) := by
  obtain ⟨bs, a, rfl, hin, hl⟩ := h
  refine ⟨stampPacket bs, _, stampPacket_concat bs a, stampPacket_inner hin, ?_⟩
  split <;> exact hl

/-- What has been delivered and what waits in the FIFO. -/
def kept (d : Nat) (es : List Edge) : List Word := output d es ++ (after d es).fifo

theorem collect_drain (s : Rx) :
    (machine d).collect Rx.delivered s (List.replicate s.fifo.length (.clk true)) = s.fifo := by
  obtain ⟨st, drop, fifo⟩ := s
  induction fifo with
  | nil => rfl
  | cons w fifo ih =>
    rw [List.length_cons, List.replicate_succ, Machine.collect_cons]
    exact congrArg (w :: ·) ih

/-- Reading the queue empty delivers all that it has taken in. -/
theorem output_drain (es : List Edge) : output d (es ++ drain d es) = kept d es := by
  rw [output, Machine.collect_append]
  exact congrArg (output d es ++ ·) (collect_drain _)

theorem kept_clk156 (es : List Edge) (tvalid tuserErr : Bool) (a : Arrival) :
    kept d (es ++ [.clk156 tvalid tuserErr a]) =
      kept d es ++ (after d es).stored d tvalid tuserErr a := by
  rw [kept, kept, output, after, Machine.collect_concat, Machine.run_concat]
  simp [machine, Rx.step, Rx.delivered, output, after]

theorem kept_clk (es : List Edge) (tready : Bool) :
    kept d (es ++ [.clk tready]) = kept d es := by
  rw [kept, kept, output, after, Machine.collect_concat, Machine.run_concat, List.append_assoc]
  refine congrArg (output d es ++ ·) ?_
  change ((after d es).delivered (.clk tready) ++ ((after d es).step d (.clk tready)).fifo) = _
  cases tready with
  | false => rfl
  | true => cases hf : (after d es).fifo <;> simp [Rx.delivered, Rx.step, hf]

/-- The registers know whether a packet is open and whether it is kept. -/
structure Tracks (f : Frames Arrival) (sel : List (List Arrival)) (out : List Word) (s : Rx) :
    Prop where
  chosen : sel.Sublist f.closed
  idle : s.state = .idle → out = (sel.map stampPacket).flatten ∧
    (s.rxPktDropReg = false ↔ f.rest = [])
  pkt : s.state = .pkt → out = (sel.map stampPacket).flatten ++ stampPacket f.rest ∧
    s.rxPktDropReg = false ∧ f.rest ≠ []

/-- A packet is begun only with fewer words in the FIFO than the threshold. -/
theorem room_of_kept {s : Rx} (hs : s.state = .idle)
    (hd : s.rxPktDropFrame d true true = false) : s.fifo.length + 10 < d := by
  have hdrop := (Bool.or_eq_false_iff.mp hd).1
  simpa [Rx.rxPktDrop, hs, Rx.rxGoodFrame, Rx.fifoAlmostFull] using hdrop

section Step
variable {f : Frames Arrival} {sel : List (List Arrival)} {out : List Word} {s : Rx} {a : Arrival}

/-- A packet that is turned away at its first word is turned away as a whole. -/
theorem Tracks.dropped (h : Tracks f sel out s) (hs : s.state = .idle)
    (hd : s.rxPktDropFrame d true true = true) :
    Tracks (f.push Arrival.tlast a) sel (out ++ s.stored d true true a)
      (s.step d (.clk156 true true a)) := by
  have hstored : s.stored d true true a = [] := by simp [Rx.stored, Rx.fifoWrEn, hd]
  rw [hstored, List.append_nil]
  cases hl : a.tlast with
  | true =>
    rw [Frames.push_last _ hl]
    refine ⟨h.chosen.trans (List.sublist_append_left _ _), fun _ => ⟨(h.idle hs).1, ?_⟩, ?_⟩ <;>
      simp [Rx.step, Rx.next, hs, hd, hl]
  | false =>
    rw [Frames.push_inner _ hl]
    refine ⟨h.chosen, fun _ => ⟨(h.idle hs).1, ?_⟩, ?_⟩ <;>
      simp [Rx.step, Rx.next, hs, hd, hl]

/-- A word that begins a packet is stored with its stamp if there is room by the threshold. -/
theorem Tracks.opened (h : Tracks f sel out s) (hs : s.state = .idle)
    (hd : s.rxPktDropFrame d true true = false) :
    ∃ sel', Tracks (f.push Arrival.tlast a) sel' (out ++ s.stored d true true a)
      (s.step d (.clk156 true true a)) := by
  have hreg := (Bool.or_eq_false_iff.mp hd).2
  obtain ⟨hout, hrest⟩ := h.idle hs
  have hrest := hrest.mp hreg
  have hroom : s.fifoFull d = false := by
    have := room_of_kept hs hd
    simp only [Rx.fifoFull, decide_eq_false_iff_not]
    omega
  have hstored : s.stored d true true a = [a.stamped] := by
    simp [Rx.stored, Rx.fifoWrEn, Rx.rxFifoWord, Rx.insertStampCounter, hd, hs, hroom]
  rw [hstored, hout]
  cases hl : a.tlast with
  | true =>
    rw [Frames.push_last _ hl, hrest]
    refine ⟨sel ++ [[a]], h.chosen.append (List.Sublist.refl _), fun _ => ?_, ?_⟩ <;>
      simp [Rx.step, Rx.next, hs, hd, hl, hreg, stampPacket]
  | false =>
    rw [Frames.push_inner _ hl, hrest]
    refine ⟨sel, h.chosen, ?_, fun _ => ?_⟩ <;>
      simp [Rx.step, Rx.next, hs, hd, hl, hreg, stampPacket]

/-- A later word of a kept packet is stored as it came, if the FIFO is not full. -/
theorem Tracks.extended (h : Tracks f sel out s) (hs : s.state = .pkt)
    (hroom : s.fifoFull d = false) :
    ∃ sel', Tracks (f.push Arrival.tlast a) sel' (out ++ s.stored d true true a)
      (s.step d (.clk156 true true a)) := by
  obtain ⟨hout, hreg, hrest⟩ := h.pkt hs
  have hstored : s.stored d true true a = [a.word] := by
    simp [Rx.stored, Rx.fifoWrEn, Rx.rxFifoWord, Rx.insertStampCounter, Rx.rxPktDropFrame,
      Rx.rxPktDrop, hs, hreg, hroom]
  have hpkt : stampPacket f.rest ++ [a.word] = stampPacket (f.rest ++ [a]) := by
    rw [stampPacket_concat, if_neg hrest]
  rw [hstored, hout, List.append_assoc, hpkt]
  cases hl : a.tlast with
  | true =>
    rw [Frames.push_last _ hl]
    refine ⟨sel ++ [f.rest ++ [a]], h.chosen.append (List.Sublist.refl _), fun _ => ?_, ?_⟩ <;>
      simp [Rx.step, Rx.next, hs, hl, hreg, hroom]
  | false =>
    rw [Frames.push_inner _ hl]
    refine ⟨sel, h.chosen, ?_, fun _ => ?_⟩ <;>
      simp [Rx.step, Rx.next, hs, hl, hreg]

end Step

theorem received_concat (es : List Edge) (e : Edge) :
    received (es ++ [e]) = received es ++ received [e] := by
  simp [received]

theorem step_quiet (s : Rx) (tuserErr : Bool) (a : Arrival) :
    s.stored d false tuserErr a = [] ∧ s.step d (.clk156 false tuserErr a) = s := by
  obtain ⟨st, drop, fifo⟩ := s
  cases st <;> exact ⟨rfl, by simp [Rx.step, Rx.next, Rx.stored, Rx.fifoWrEn]⟩

/-- As long as the queue is not overrun, it has taken in whole packets. -/
theorem tracks_run {es : List Edge} (hg : Good es) (h : NeverOverrun d es) :
    ∃ sel, Tracks (frames Arrival.tlast (received es)) sel (kept d es) (after d es) := by
  induction es using List.reverseRecOn with
  | nil => exact ⟨[], List.Sublist.refl _, fun _ => ⟨rfl, by simp [after, reset, received]⟩,
      fun hs => by cases hs⟩
  | append_singleton es e ih =>
    obtain ⟨hpast, hnow⟩ := (machine d).along_concat.mp h
    obtain ⟨sel, ht⟩ := ih (fun v g a hm => hg v g a (by simp [hm])) hpast
    have hafter : after d (es ++ [e]) = (after d es).step d e := Machine.run_concat _ _ _ _
    rw [received_concat, hafter]
    match e with
    | .clk tready =>
      rw [kept_clk]
      have hfr : received [.clk tready] = [] := rfl
      rw [hfr, List.append_nil]
      cases tready <;> exact ⟨sel, ht.chosen, ht.idle, ht.pkt⟩
    | .clk156 false tuserErr a =>
      have hfr : received [.clk156 false tuserErr a] = [] := rfl
      rw [kept_clk156, hfr, (step_quiet _ _ _).1, (step_quiet _ _ _).2, List.append_nil,
        List.append_nil]
      exact ⟨sel, ht⟩
    | .clk156 true tuserErr a =>
      obtain rfl : tuserErr = true := hg true tuserErr a (by simp)
      have hfr : received [.clk156 true true a] = [a] := rfl
      rw [kept_clk156, hfr, frames_concat]
      cases hs : (after d es).state with
      | idle =>
        cases hd : (after d es).rxPktDropFrame d true true with
        | true => exact ⟨sel, ht.dropped hs hd⟩
        | false => exact ht.opened hs hd
      | pkt =>
        have hroom : (after d es).fifoFull d = false := by
          have hnow : (after d es).overrun d (.clk156 true true a) = false := hnow
          simpa [Rx.overrun, hs] using hnow
        exact ht.extended hs hroom

/-- What the queue has taken in, as long as it is not overrun. -/
theorem Tracks.wholePackets {as : List Arrival} {sel : List (List Arrival)} {out : List Word}
    {s : Rx} (h : Tracks (frames Arrival.tlast as) sel out s) : WholePackets as out := by
  refine ⟨sel, h.chosen, ?_⟩
  cases hs : s.state with
  | idle => exact .inl (h.idle hs).1
  | pkt => exact .inr (h.pkt hs).1

/-- A word lost from a packet under way cannot be made good: the words before it stay in the
FIFO, with neither the whole packet nor all that has come of it. -/
theorem Tracks.overrun {as : List Arrival} {sel : List (List Arrival)} {out : List Word} {s : Rx}
    (h : Tracks (frames Arrival.tlast as) sel out s) (hs : s.state = .pkt) (a : Arrival) :
    ¬ WholePackets (as ++ [a]) out := by
  obtain ⟨hout, -, hrest⟩ := h.pkt hs
  have hsel : ∀ {as : List Arrival} {sel : List (List Arrival)},
      sel.Sublist (frames Arrival.tlast as).closed →
      ∀ p ∈ sel.map stampPacket, Packet Word.tlast p := by
    intro as sel hsub p hp
    obtain ⟨q, hq, rfl⟩ := List.mem_map.mp hp
    exact stampPacket_packet (packet_of_closed _ _ q (hsub.subset hq))
  have hinner : ∀ as : List Arrival, ∀ w ∈ stampPacket (frames Arrival.tlast as).rest,
      w.tlast = false := fun as => stampPacket_inner (frames_spec Arrival.tlast as).2
  have hcut : (frames Word.tlast out).rest = stampPacket (frames Arrival.tlast as).rest := by
    rw [hout, frames_packets_rest _ (hsel h.chosen) (hinner as)]
  have hlen : (frames Word.tlast out).rest.length = (frames Arrival.tlast as).rest.length := by
    rw [hcut, length_stampPacket]
  have hpos : 0 < (frames Arrival.tlast as).rest.length := List.length_pos_iff.mpr hrest
  rintro ⟨sel', hsub, hw | hw⟩
  · rw [hw, frames_packets _ (hsel hsub)] at hlen
    simp only [List.length_nil] at hlen
    omega
  · rw [hw, frames_packets_rest _ (hsel hsub) (hinner _), length_stampPacket, frames_concat] at hlen
    cases hl : a.tlast with
    | true =>
      rw [Frames.push_last _ hl, List.length_nil] at hlen
      omega
    | false =>
      rw [Frames.push_inner _ hl, List.length_append, List.length_singleton] at hlen
      omega

theorem overrun_cases {s : Rx} {e : Edge} (h : s.overrun d e = true) :
    ∃ tuserErr a, e = .clk156 true tuserErr a ∧ s.state = .pkt ∧ s.fifoFull d = true := by
  cases e with
  | clk tready => cases h
  | clk156 tvalid tuserErr a =>
    simp only [Rx.overrun, Bool.and_eq_true, beq_iff_eq] at h
    obtain ⟨⟨rfl, hs⟩, hfull⟩ := h
    exact ⟨tuserErr, a, rfl, hs, hfull⟩

/-- With `i_tuser_err` held good, the queue delivers whole packets, stamped on their first
word, exactly if no word of a packet it has begun to store comes while the FIFO is full. -/
theorem deliversWhole_iff {es : List Edge} (hg : Good es) :
    DeliversWhole d es ↔ NeverOverrun d es := by
  constructor
  · intro h
    induction es using List.reverseRecOn with
    | nil => trivial
    | append_singleton es e ih =>
      have hgood : Good es := fun v g a hm => hg v g a (by simp [hm])
      have hpast : NeverOverrun d es :=
        ih hgood (fun past hp => h past (hp.trans (List.prefix_append _ _)))
      refine (machine d).along_concat.mpr ⟨hpast, ?_⟩
      by_contra hover
      obtain ⟨tuserErr, a, rfl, hs, hfull⟩ := overrun_cases (eq_true_of_ne_false hover)
      obtain rfl : tuserErr = true := hg true tuserErr a (by simp)
      obtain ⟨sel, ht⟩ := tracks_run hgood hpast
      have hw := h _ (List.prefix_refl _)
      have hstored : (after d es).stored d true true a = [] := by
        have hfull : (after d es).fifoFull d = true := hfull
        simp [Rx.stored, hfull]
      rw [output_drain, kept_clk156, hstored, List.append_nil, received_concat] at hw
      exact ht.overrun hs a hw
  · intro h past hp
    obtain ⟨later, rfl⟩ := hp
    obtain ⟨sel, ht⟩ := tracks_run (fun v g a hm => hg v g a (by simp [hm]))
      ((machine d).along_append.mp h).1
    rw [output_drain]
    exact ht.wholePackets

/-- Below the threshold there is room for eleven words: the words of the open packet that are
in the FIFO came on top of at most `d - 11`. -/
def Margin (d : Nat) (es : List Edge) : Prop :=
  (after d es).state = .pkt →
    (after d es).fifo.length + 11 ≤ d + (frames Arrival.tlast (received es)).rest.length

theorem Margin.clk {es : List Edge} (h : Margin d es) (tready : Bool) :
    Margin d (es ++ [.clk tready]) := by
  have hafter : after d (es ++ [.clk tready]) = (after d es).step d (.clk tready) :=
    Machine.run_concat _ _ _ _
  have hfr : received (es ++ [.clk tready]) = received es := by
    rw [received_concat]
    exact List.append_nil _
  rw [Margin, hafter, hfr]
  intro hs
  cases tready with
  | false => exact h hs
  | true =>
    have hlen := h hs
    simp only [Rx.step, if_true, List.length_tail]
    omega

theorem Margin.clk156 {es : List Edge} (h : Margin d es) {a : Arrival}
    (hover : (after d es).overrun d (.clk156 true true a) = false) :
    Margin d (es ++ [.clk156 true true a]) := by
  have hafter : after d (es ++ [.clk156 true true a]) =
      (after d es).step d (.clk156 true true a) := Machine.run_concat _ _ _ _
  have hfr : received (es ++ [.clk156 true true a]) = received es ++ [a] := received_concat _ _
  rw [Margin, hafter, hfr, frames_concat]
  intro hs
  have hstored : ((after d es).stored d true true a).length ≤ 1 := by
    rw [Rx.stored]
    split <;> simp
  have hlen : ((after d es).step d (.clk156 true true a)).fifo.length ≤
      (after d es).fifo.length + 1 := by
    simp only [Rx.step, List.length_append]
    omega
  cases hl : a.tlast with
  | true =>
    cases hst : (after d es).state with
    | idle =>
      simp only [Rx.step, Rx.next, hst, hl] at hs
      cases hd : (after d es).rxPktDropFrame d true true <;> simp [hd] at hs
    | pkt =>
      have hroom : (after d es).fifoFull d = false := by simpa [Rx.overrun, hst] using hover
      simp [Rx.step, Rx.next, hst, hl, hroom] at hs
  | false =>
    rw [Frames.push_inner _ hl, List.length_append, List.length_singleton]
    cases hst : (after d es).state with
    | pkt =>
      have := h hst
      omega
    | idle =>
      have hd : (after d es).rxPktDropFrame d true true = false := by
        by_contra hd
        rw [Bool.not_eq_false] at hd
        simp [Rx.step, Rx.next, hst, hl, hd] at hs
      have := room_of_kept hst hd
      omega

/-- Packets of at most eleven words never overrun the queue. -/
theorem neverOverrun_of_short {es : List Edge} (hg : Good es)
    (hshort : (frames Arrival.tlast (received es)).Within 11) :
    NeverOverrun d es ∧ Margin d es := by
  induction es using List.reverseRecOn with
  | nil => exact ⟨trivial, fun hs => by cases hs⟩
  | append_singleton es e ih =>
    have hgood : Good es := fun v g a hm => hg v g a (by simp [hm])
    rw [received_concat] at hshort
    obtain ⟨hover, hm⟩ := ih hgood (within_of_append _ _ hshort)
    match e with
    | .clk tready => exact ⟨(machine d).along_concat.mpr ⟨hover, rfl⟩, hm.clk tready⟩
    | .clk156 false tuserErr a =>
      have hafter : after d (es ++ [.clk156 false tuserErr a]) = after d es := by
        rw [after, Machine.run_concat]
        exact (step_quiet _ _ _).2
      have hfr : received (es ++ [.clk156 false tuserErr a]) = received es := by
        rw [received_concat]
        exact List.append_nil _
      refine ⟨(machine d).along_concat.mpr ⟨hover, rfl⟩, ?_⟩
      rw [Margin, hafter, hfr]
      exact hm
    | .clk156 true tuserErr a =>
      obtain rfl : tuserErr = true := hg true tuserErr a (by simp)
      have hroom : (after d es).overrun d (.clk156 true true a) = false := by
        by_contra ho
        obtain ⟨-, -, -, hs, hfull⟩ := overrun_cases (eq_true_of_ne_false ho)
        have hlen := hm hs
        have hrest := (Frames.Within.of_push _ (frames_concat _ _ a ▸ hshort)).2
        have hfull : d ≤ (after d es).fifo.length := of_decide_eq_true hfull
        omega
      exact ⟨(machine d).along_concat.mpr ⟨hover, hroom⟩, hm.clk156 hroom⟩

/-- A packet of 118 words fills the queue to `prog_full`, so that the one of two words behind it is
dropped; the next one, of three words, comes after a word has been read. -/
theorem deliversWhole_dropping :
    let word (k : BitVec 512) (last : Bool) : Edge :=
      .clk156 true true ⟨⟨k, 0xffffffffffffffff, 0, last⟩, 7⟩
    let es := List.replicate 117 (word 1 false) ++ [word 2 true, word 3 false, word 4 true,
      .clk true, word 5 false, .clk false, word 6 false, word 7 true]
    Good es ∧ DeliversWhole 128 es ∧ (output 128 (es ++ drain 128 es)).length = 118 + 3 := by
  intro word es
  have hg : Good es := by
    intro tvalid tuserErr a hm
    rcases List.mem_append.mp hm with hm | hm
    · obtain ⟨-, he⟩ := List.mem_replicate.mp hm
      exact (Edge.clk156.inj he).2.1
    · simp only [word, List.mem_cons, Edge.clk156.injEq, reduceCtorEq, List.not_mem_nil, or_false,
        false_or] at hm
      obtain h | h | h | h | h | h := hm <;> exact h.2.1
  exact ⟨hg, (deliversWhole_iff hg).mpr (by unfold NeverOverrun; decide +kernel), by decide +kernel⟩

/-- A packet of 129 words with a receiver that is not ready: the last word is lost, and the 128
words before it are delivered. -/
theorem long_packet_truncated :
    let word (last : Bool) : Edge := .clk156 true true ⟨⟨0, 0, 0, last⟩, 0⟩
    let es := List.replicate 128 (word false) ++ [word true]
    Good es ∧ ¬ DeliversWhole 128 es := by
  intro word es
  have hg : ∀ n, Good (List.replicate n (word false)) := by
    intro n tvalid tuserErr a hm
    have hm := (List.mem_replicate.mp hm).2
    simp only [word, Edge.clk156.injEq] at hm
    exact hm.2.1
  refine ⟨?_, fun h => ?_⟩
  · intro tvalid tuserErr a hm
    rcases List.mem_append.mp hm with hm | hm
    · exact hg 128 tvalid tuserErr a hm
    · simp only [word, List.mem_singleton, Edge.clk156.injEq] at hm
      exact hm.2.1
  · obtain ⟨sel, ht⟩ := tracks_run (hg 128) (d := 128) (by unfold NeverOverrun; decide +kernel)
    have hs : (after 128 (List.replicate 128 (word false))).state = .pkt := by decide +kernel
    have hstored : (after 128 (List.replicate 128 (word false))).stored 128 true true
        ⟨⟨0, 0, 0, true⟩, 0⟩ = [] := by decide +kernel
    have hw := h _ (List.prefix_refl _)
    rw [output_drain, kept_clk156, hstored, List.append_nil, received_concat] at hw
    exact ht.overrun hs _ hw

end Osnt.RxQueue
