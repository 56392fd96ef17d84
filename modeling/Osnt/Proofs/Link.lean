import Osnt.Datapath
import Osnt.Proofs.PcapReplay

/-! The hand-over across the stream registers. The receiver sees a word one cycle
after the engine shows it, the engine sees the receiver's ready one cycle late, and
no buffer stands in between. -/
namespace Osnt.Datapath.Linked
open Lib PcapReplay

theorem shown_of_tvalid (p : Ports) {s : Linked} (h : s.q.tvalid = true) :
    s.shown p = s.q.tword p := by
  cases hs : s.q.sendState with
  | idle => simp [Queue.tvalid, hs] at h
  | send => simp [shown, hs]

theorem held_of_not_sent (p : Ports) {s : Linked} (i : LinkInput) (hv : s.q.tvalid = true)
    (hr : s.regs.tready = false) :
    (s.step p i).q.tvalid = true ∧ (s.step p i).q.tword p = s.q.tword p := by
  cases hs : s.q.sendState with
  | idle => simp [Queue.tvalid, hs] at hv
  | send =>
    have hd : s.q.fifo.doutValid = true := by
      simpa [Queue.tvalid, hs, FallthroughFifo.empty] using hv
    have hpop : s.q.fifoRden (s.queueInput i) = false := by
      simp [Queue.fifoRden, hs, queueInput, hr]
    have hsend : s.q.sendNext (s.queueInput i) = .send := by
      simp [Queue.sendNext, hs, queueInput, hr]
    obtain ⟨hheld, hdout⟩ := FallthroughFifo.dout_held hd
      (s.q.fifoWrEn (s.queueInput i) i.dina) (s.q.fifoIn (s.queueInput i) i.dina)
    refine ⟨?_, ?_⟩
    · simp [Queue.tvalid, step, Queue.step, FallthroughFifo.empty, hsend, hpop, hheld]
    · simp [Queue.tword, step, Queue.step, hpop, hdout]

/-- The link with its words numbered: the number of the word the engine shows or will
show next, and of the one in the register. -/
structure Numbered where
  link : Linked
  next : Nat
  held : Nat

namespace Numbered

def start (s : Linked) : Numbered := ⟨s.reset, 0, 0⟩

def step (p : Ports) (t : Numbered) (i : LinkInput) : Numbered where
  link := t.link.step p i
  next := t.next + (t.link.sent p i).length
  held := t.next

def machine (p : Ports) : Machine Numbered LinkInput := ⟨Numbered.step p⟩

def sent (p : Ports) (t : Numbered) (i : LinkInput) : List (Nat × Word) :=
  (t.link.sent p i).map fun w => (t.next, w)

def accepted (t : Numbered) (i : LinkInput) : List (Nat × Word) :=
  (t.link.accepted i).map fun w => (t.held, w)

/-- The word the engine shows. -/
def onShow (p : Ports) (t : Numbered) : List (Nat × Word) :=
  if t.link.q.tvalid then [(t.next, t.link.q.tword p)] else []

/-- The receiver's ready, in a cycle in which the register shows word `n`. -/
def readies (n : Nat) (t : Numbered) (i : LinkInput) : List Bool :=
  if t.link.regs.tvalid && t.held == n then [i.tready] else []

theorem sent_eq (p : Ports) (t : Numbered) (i : LinkInput) :
    t.sent p i = if t.link.regs.tready then t.onShow p else [] := by
  change ((if t.link.q.tvalid && t.link.regs.tready then [t.link.q.tword p] else []).map _) = _
  cases hv : t.link.q.tvalid <;> cases hr : t.link.regs.tready <;> simp [onShow, hv]

theorem next_step (p : Ports) (t : Numbered) (i : LinkInput) :
    (t.step p i).next = t.next + (t.sent p i).length := by
  rw [sent, List.length_map]
  rfl

/-- The receiver takes what the engine showed if its own ready is high in the next cycle. -/
theorem accepted_step (p : Ports) (t : Numbered) (i j : LinkInput) :
    (t.step p i).accepted j = if j.tready then t.onShow p else [] := by
  cases hv : t.link.q.tvalid with
  | false => simp [accepted, step, Linked.accepted, Linked.step, onShow, hv]
  | true =>
    cases hr : j.tready with
    | false => simp [accepted, Linked.accepted, hr]
    | true => simp [accepted, step, Linked.accepted, Linked.step, onShow, hv, hr, shown_of_tvalid]

theorem onShow_step (p : Ports) {t : Numbered} (i : LinkInput) (hv : t.link.q.tvalid = true)
    (hr : t.link.regs.tready = false) : (t.step p i).onShow p = t.onShow p := by
  obtain ⟨hvalid, hword⟩ := held_of_not_sent p i hv hr
  have hnext : (t.step p i).next = t.next := by simp [next_step, sent_eq, hr]
  change (if (t.link.step p i).q.tvalid then
    [((t.step p i).next, (t.link.step p i).q.tword p)] else []) = _
  rw [hvalid, hword, hnext, onShow, hv]

def after (p : Ports) (s : Linked) (ins : List LinkInput) : Numbered :=
  (machine p).run (start s) ins

/-- The words the engine considers sent, with their numbers. -/
def sentIn (p : Ports) (s : Linked) (ins : List LinkInput) : List (Nat × Word) :=
  (machine p).collect (sent p) (start s) ins

/-- The words the receiver accepts, with their numbers. -/
def acceptedIn (p : Ports) (s : Linked) (ins : List LinkInput) : List (Nat × Word) :=
  (machine p).collect accepted (start s) ins

/-- The cycles in which the register shows word `n` and the receiver is ready. -/
def readyCycles (p : Ports) (s : Linked) (n : Nat) (ins : List LinkInput) : Nat :=
  ((machine p).collect (readies n) (start s) ins).count true

theorem after_concat (p : Ports) (s : Linked) (past : List LinkInput) (i : LinkInput) :
    after p s (past ++ [i]) = (after p s past).step p i :=
  (machine p).run_concat _ past i

theorem sentIn_concat (p : Ports) (s : Linked) (past : List LinkInput) (i : LinkInput) :
    sentIn p s (past ++ [i]) = sentIn p s past ++ (after p s past).sent p i :=
  (machine p).collect_concat _ _ past i

theorem acceptedIn_concat (p : Ports) (s : Linked) (past : List LinkInput) (i : LinkInput) :
    acceptedIn p s (past ++ [i]) = acceptedIn p s past ++ (after p s past).accepted i :=
  (machine p).collect_concat _ _ past i

/-- What the engine shows in a cycle reaches the receiver in the next one. -/
theorem acceptedIn_concat₂ (p : Ports) (s : Linked) (past : List LinkInput) (i j : LinkInput) :
    acceptedIn p s (past ++ [i] ++ [j]) =
      acceptedIn p s (past ++ [i]) ++ if j.tready then (after p s past).onShow p else [] := by
  rw [acceptedIn_concat p s (past ++ [i]), after_concat, accepted_step]

theorem link_after (p : Ports) (s : Linked) (ins : List LinkInput) :
    (after p s ins).link = (Linked.machine p).run s.reset ins := by
  have h := Machine.run_view (machine p) (Linked.machine p) Numbered.link id (fun _ _ => rfl)
    (start s) ins
  rwa [List.map_id] at h

/-- Without their numbers these are the words the engine sends. -/
theorem words_sentIn (p : Ports) (s : Linked) (ins : List LinkInput) :
    (sentIn p s ins).map Prod.snd = (Linked.machine p).collect (Linked.sent p) s.reset ins := by
  induction ins using List.reverseRecOn with
  | nil => rfl
  | append_singleton past i ih =>
    rw [sentIn_concat, List.map_append, ih, Machine.collect_concat, ← link_after, sent,
      List.map_map]
    exact congrArg _ (List.map_id _)

theorem words_acceptedIn (p : Ports) (s : Linked) (ins : List LinkInput) :
    (acceptedIn p s ins).map Prod.snd = (Linked.machine p).collect Linked.accepted s.reset ins := by
  induction ins using List.reverseRecOn with
  | nil => rfl
  | append_singleton past i ih =>
    rw [acceptedIn_concat, List.map_append, ih, Machine.collect_concat, ← link_after, accepted,
      List.map_map]
    exact congrArg _ (List.map_id _)

/-- The engine sends its words in the order of their numbers. -/
theorem numbers_sentIn (p : Ports) (s : Linked) (ins : List LinkInput) :
    (sentIn p s ins).map Prod.fst = List.range (after p s ins).next := by
  induction ins using List.reverseRecOn with
  | nil => rfl
  | append_singleton past i ih =>
    rw [sentIn_concat, List.map_append, ih, after_concat, next_step, sent_eq]
    cases (after p s past).link.regs.tready with
    | false => simp
    | true =>
      cases hv : (after p s past).link.q.tvalid with
      | false => simp [onShow, hv]
      | true => simp [onShow, hv, List.range_succ]

/-- Word `n` is accepted as often as the receiver is ready while the register shows it. -/
theorem readyCycles_eq (p : Ports) (s : Linked) (n : Nat) (ins : List LinkInput) :
    readyCycles p s n ins = ((acceptedIn p s ins).map Prod.fst).count n := by
  induction ins using List.reverseRecOn with
  | nil => rfl
  | append_singleton past i ih =>
    have hnew : ((after p s past).readies n i).count true =
        (((after p s past).accepted i).map Prod.fst).count n := by
      cases hv : (after p s past).link.regs.tvalid <;> cases hr : i.tready <;>
        by_cases hn : (after p s past).held = n <;>
        simp [readies, accepted, Linked.accepted, hv, hr, hn]
    have hreadies : readyCycles p s n (past ++ [i]) =
        readyCycles p s n past + ((after p s past).readies n i).count true :=
      (congrArg (List.count true) ((machine p).collect_concat _ _ past i)).trans List.count_append
    rw [hreadies, ih, hnew, acceptedIn_concat, List.map_append, List.count_append]

end Numbered
open Numbered (after sentIn acceptedIn readyCycles)

/-- All along a run from reset the receiver has accepted exactly the words the engine
considers sent, each once and in their order; only the word still on show may have been
accepted before the engine knows. -/
def HandsOver (p : Ports) (s : Linked) (ins : List LinkInput) : Prop :=
  ∀ past i, past ++ [i] <+: ins → ∃ early, early <+: (after p s past).onShow p ∧
    acceptedIn p s (past ++ [i]) = sentIn p s past ++ early

/-- Of the cycles in which the register shows a word, the receiver is ready in exactly
one; while the word is not sent yet, in at most one. -/
def ReadyOnce (p : Ports) (s : Linked) (ins : List LinkInput) : Prop :=
  ∀ past i, past ++ [i] <+: ins → ∀ n,
    readyCycles p s n (past ++ [i]) ≤ 1 ∧
      (n < (after p s past).next → readyCycles p s n (past ++ [i]) = 1)

theorem count_onShow (p : Ports) {early : List (Nat × Word)} {t : Numbered}
    (h : early <+: t.onShow p) (n : Nat) :
    (early.map Prod.fst).count n ≤ if n = t.next then 1 else 0 := by
  have hle : (early.map Prod.fst).count n ≤ ((t.onShow p).map Prod.fst).count n :=
    (h.map Prod.fst).sublist.count_le n
  refine hle.trans ?_
  cases hv : t.link.q.tvalid with
  | false => simp [Numbered.onShow, hv]
  | true =>
    by_cases hn : n = t.next
    · simp [Numbered.onShow, hv, hn]
    · have hne : ¬ t.next = n := fun he => hn he.symm
      simp [Numbered.onShow, hv, hn, hne]

/-- A run that hands over: the word on show is the only one whose count is not settled. -/
theorem HandsOver.readyOnce {p : Ports} {s : Linked} {ins : List LinkInput}
    (h : HandsOver p s ins) : ReadyOnce p s ins := by
  intro past i hpre n
  obtain ⟨early, hearly, hacc⟩ := h past i hpre
  have hcount := count_onShow p hearly n
  have hrange : (List.range (after p s past).next).count n =
      if n < (after p s past).next then 1 else 0 := by
    rw [List.nodup_range.count]
    simp
  rw [Numbered.readyCycles_eq, hacc, List.map_append, Numbered.numbers_sentIn, List.count_append,
    hrange]
  by_cases hn : n < (after p s past).next
  · rw [if_neg (Nat.ne_of_lt hn)] at hcount
    rw [if_pos hn]
    omega
  · rw [if_neg hn]
    refine ⟨?_, fun hlt => absurd hlt hn⟩
    split at hcount <;> omega

/-- One cycle of a run that hands over, in which the engine shows a word: it stays handed
over if the receiver takes the word once in all, or at most once while it is not sent. -/
theorem handsOver_step {p : Ports} {s : Linked} {past : List LinkInput} {i j : LinkInput}
    {early : List (Nat × Word)} (hearly : early <+: (after p s past).onShow p)
    (hacc : acceptedIn p s (past ++ [i]) = sentIn p s past ++ early)
    (hv : (after p s past).link.q.tvalid = true)
    (hle : readyCycles p s (after p s past).next (past ++ [i] ++ [j]) ≤ 1)
    (hsent : (after p s past).next < (after p s (past ++ [i])).next →
      readyCycles p s (after p s past).next (past ++ [i] ++ [j]) = 1) :
    ∃ early', early' <+: (after p s (past ++ [i])).onShow p ∧
      acceptedIn p s (past ++ [i] ++ [j]) = sentIn p s (past ++ [i]) ++ early' := by
  have hshow : (after p s past).onShow p =
      [((after p s past).next, (after p s past).link.q.tword p)] := if_pos hv
  have hall : acceptedIn p s (past ++ [i] ++ [j]) =
      sentIn p s past ++ (early ++ if j.tready then (after p s past).onShow p else []) := by
    rw [Numbered.acceptedIn_concat₂, hacc, List.append_assoc (sentIn p s past)]
  have hfresh : ((sentIn p s past).map Prod.fst).count (after p s past).next = 0 := by
    rw [Numbered.numbers_sentIn]
    exact List.count_eq_zero.mpr (by simp)
  rw [Numbered.readyCycles_eq, hall, List.map_append, List.count_append, hfresh, Nat.zero_add]
    at hle hsent
  rw [hall, Numbered.sentIn_concat, Numbered.sent_eq]
  cases hr : (after p s past).link.regs.tready with
  | true =>
    -- the engine sees a ready: the word has been taken before or is taken now
    have hnext : (after p s past).next < (after p s (past ++ [i])).next := by
      rw [Numbered.after_concat, Numbered.next_step, Numbered.sent_eq, hr, hshow]
      exact Nat.lt_succ_self _
    have hone := hsent hnext
    refine ⟨[], List.nil_prefix, ?_⟩
    rw [hshow] at hearly hone ⊢
    rcases List.prefix_cons_iff.mp hearly with rfl | ⟨rest, rfl, hrest⟩
    · cases hj : j.tready <;> simp [hj] at hone ⊢
    · obtain rfl := List.prefix_nil.mp hrest
      cases hj : j.tready <;> simp [hj] at hone ⊢
  | false =>
    -- the word stays on show, and what has been taken of it is early
    have hstay := Numbered.onShow_step p i hv hr
    refine ⟨early ++ if j.tready then (after p s past).onShow p else [], ?_, by simp⟩
    rw [Numbered.after_concat, hstay]
    rw [hshow] at hearly hle ⊢
    rcases List.prefix_cons_iff.mp hearly with rfl | ⟨rest, rfl, hrest⟩
    · cases hj : j.tready <;> simp
    · obtain rfl := List.prefix_nil.mp hrest
      cases hj : j.tready <;> simp [hj] at hle ⊢

theorem ReadyOnce.handsOver {p : Ports} {s : Linked} {ins : List LinkInput}
    (h : ReadyOnce p s ins) : HandsOver p s ins := by
  intro past
  induction past using List.reverseRecOn with
  | nil =>
    intro i _
    exact ⟨[], List.nil_prefix, rfl⟩
  | append_singleton past i ih =>
    intro j hpre
    have hbefore : past ++ [i] <+: ins := List.IsPrefix.trans ⟨[j], rfl⟩ hpre
    obtain ⟨early, hearly, hacc⟩ := ih i hbefore
    cases hv : (after p s past).link.q.tvalid with
    | true =>
      obtain ⟨hle, hsent⟩ := h (past ++ [i]) j hpre (after p s past).next
      exact handsOver_step hearly hacc hv hle hsent
    | false =>
      have hshow : (after p s past).onShow p = [] := by simp [Numbered.onShow, hv]
      have hnone : early = [] := List.prefix_nil.mp (hshow ▸ hearly)
      refine ⟨[], List.nil_prefix, ?_⟩
      rw [Numbered.acceptedIn_concat₂, hacc, Numbered.sentIn_concat, Numbered.sent_eq, hshow, hnone]
      simp

/-- With no word on show, the words accepted are the words sent. -/
theorem HandsOver.words {p : Ports} {s : Linked} {ins : List LinkInput} (h : HandsOver p s ins)
    {past : List LinkInput} {i : LinkInput} (hpre : past ++ [i] <+: ins)
    (hv : ((machine p).run s.reset past).q.tvalid = false) :
    (machine p).collect accepted s.reset (past ++ [i]) =
      (machine p).collect (sent p) s.reset past := by
  obtain ⟨early, hearly, hacc⟩ := h past i hpre
  rw [← Numbered.link_after] at hv
  have hshow : (after p s past).onShow p = [] := by simp [Numbered.onShow, hv]
  rw [hshow] at hearly
  rw [← Numbered.words_acceptedIn, ← Numbered.words_sentIn, hacc, List.prefix_nil.mp hearly,
    List.append_nil]

end Osnt.Datapath.Linked
