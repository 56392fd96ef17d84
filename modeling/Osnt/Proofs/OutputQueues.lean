import Osnt.OutputQueues
import Osnt.Lib.Framing
import Osnt.Proofs.Fifo
import Mathlib.Algebra.Order.BigOperators.Group.Finset

/-! Admission to the output queues: a packet is stored whole or not at all, the FIFOs never
overflow, and the side band of a packet stays with its first word. -/
namespace Osnt.OutputQueues
open Lib Lib.DelayQueue

/-- The queues a packet is for, by its first word. -/
def selects (p : List Word) (q : Fin 3) : Bool :=
  match p with
  | [] => false
  | w :: _ => oq w.tuser q

/-- What a queue gets of a list of packets, each with the verdict on it. -/
def share (q : Fin 3) (ps : List (List Word × Bool)) : List Word :=
  ps.flatMap (fun p => if p.2 && selects p.1 q then p.1 else [])

theorem share_concat (q : Fin 3) (ps : List (List Word × Bool)) (p : List Word × Bool) :
    share q (ps ++ [p]) = share q ps ++ if p.2 && selects p.1 q then p.1 else [] := by
  simp [share]

theorem selects_concat {p : List Word} (hp : p ≠ []) (w : Word) (q : Fin 3) :
    selects (p ++ [w]) q = selects p q := by
  cases p with
  | nil => exact absurd rfl hp
  | cons v p => rfl

/-- End of packet of a queued word. -/
def lastEntry (e : Word × Nat) : Bool := e.1.tlast

/-- The side bands of the packets that begin in a queue, at the age of their first words;
`first` says whether the head begins one. -/
def headers (first : Bool) (g : DelayQueue Word) : DelayQueue (BitVec 128) :=
  mapVals Word.tuser (openers lastEntry first g)

/-- Whether the word behind a queue begins a packet. -/
def closing (first : Bool) (g : DelayQueue Word) : Bool := opens lastEntry first g

/-- A cycle without a read: the headers grow older and gain that of a packet that begins. -/
theorem headers_write (first : Bool) (g : DelayQueue Word) (wr : Option Word) :
    headers first (g.tick false wr) =
        (headers first g).tick false (if closing first g then wr.map Word.tuser else none) ∧
      closing first (g.tick false wr) = (wr.map Word.tlast).getD (closing first g) := by
  have hold : ∀ e : Word × Nat, lastEntry (e.1, e.2 + 1) = lastEntry e := fun _ => rfl
  have hcl : closing first g = opens lastEntry first g := rfl
  rw [hcl]
  cases wr with
  | none =>
    simp only [headers, closing, tick, Bool.false_eq_true, if_false, Option.toList_none,
      List.map_nil, List.append_nil, Option.map_none, Option.getD_none, openers_map _ hold,
      opens_map _ hold]
    simp [mapVals, Function.comp_def]
  | some w =>
    simp only [headers, closing, tick, Bool.false_eq_true, if_false, Option.toList_some,
      List.map_cons, List.map_nil, openers_concat, opens_concat, openers_map _ hold,
      opens_map _ hold, Option.map_some, Option.getD_some]
    cases opens lastEntry first g <;> simp [mapVals, lastEntry, Function.comp_def]

/-- A cycle that reads the head: its header goes with it if it begins a packet. -/
theorem headers_read (first : Bool) (e : Word × Nat) (g : DelayQueue Word) (wr : Option Word) :
    headers e.1.tlast (tick (e :: g) true wr) =
        (headers first (e :: g)).tick first
          (if closing first (e :: g) then wr.map Word.tuser else none) ∧
      closing e.1.tlast (tick (e :: g) true wr) =
        (wr.map Word.tlast).getD (closing first (e :: g)) := by
  obtain ⟨hh, hc⟩ := headers_write e.1.tlast g wr
  have ht : tick (e :: g) true wr = tick g false wr := rfl
  have hcl : closing first (e :: g) = closing e.1.tlast g := rfl
  rw [ht, hh, hc, hcl]
  cases first <;> simp [headers, openers, mapVals, tick, lastEntry]

namespace Queues

/-- Everything the write side can do in a cycle: wait, begin a packet in the queues it is
for, begin to drop one, go on with it, or go on dropping it. -/
theorem write_cases (t : Queues) (i : Input) :
    (i.tvalid = false ∧ t.wrEn i = noQueue ∧ t.metadataWrEn i = noQueue ∧
        (t.step i).state = t.state ∧ (t.state = .wrPkt → (t.step i).curQueue = t.curQueue)) ∨
      (i.tvalid = true ∧ t.state = .idle ∧ t.admits i.word.tuser = true ∧
        t.wrEn i = oq i.word.tuser ∧ t.metadataWrEn i = oq i.word.tuser ∧
        (t.step i).state = (if i.word.tlast then .idle else .wrPkt) ∧
        (t.step i).curQueue = oq i.word.tuser) ∨
      (i.tvalid = true ∧ t.state = .idle ∧ t.wrEn i = noQueue ∧ t.metadataWrEn i = noQueue ∧
        (t.step i).state = if i.word.tlast then .idle else .drop) ∨
      (i.tvalid = true ∧ t.state = .wrPkt ∧ t.wrEn i = t.curQueue ∧ t.metadataWrEn i = noQueue ∧
        (t.step i).state = (if i.word.tlast then .idle else .wrPkt) ∧
        (t.step i).curQueue = t.curQueue) ∨
      (i.tvalid = true ∧ t.state = .drop ∧ t.wrEn i = noQueue ∧ t.metadataWrEn i = noQueue ∧
        (t.step i).state = if i.word.tlast then .idle else .drop) := by
  cases hv : i.tvalid <;> cases hs : t.state <;> cases hl : i.word.tlast <;>
    cases ha : t.admits i.word.tuser <;>
    simp [step, comb, wrEn, metadataWrEn, sTready, hv, hs, hl, ha]

theorem admits_iff (t : Queues) (tuser : BitVec 128) :
    t.admits tuser = true ↔ ∀ q, oq tuser q = true →
      (t.data q).fifo.depth.toNat < bufferThreshold ∧ (t.metadata q).nearlyFull = false := by
  rw [admits, decide_eq_true_iff]
  refine forall_congr' (fun q => ?_)
  simp only [nearlyFullFifo, metadataNearlyFullFifo, FallthroughFifo.progFull, SmallFifo.progFull]
  cases oq tuser q <;> simp

/-- The write side after the packets it has seen, with its verdicts on the complete ones. -/
structure Written (t : Queues) (f : Frames Word) (verdicts : List Bool)
    (stored : Fin 3 → List Word) : Prop where
  length : verdicts.length = f.closed.length
  idle : t.state = .idle ↔ f.rest = []
  cur : t.state = .wrPkt → t.curQueue = selects f.rest
  stored : ∀ q, stored q = share q (f.closed.zip verdicts) ++
    if t.state = .wrPkt ∧ selects f.rest q = true then f.rest else []

theorem verdict {t : Queues} {f : Frames Word} {vs : List Bool} {st : Fin 3 → List Word}
    (h : Written t f vs st) {i : Input} (hv : i.tvalid = true) :
    ∃ v : Bool, (t.step i).state = (if i.word.tlast then .idle else if v then .wrPkt else .drop) ∧
      (v = true → (t.step i).curQueue = selects (f.rest ++ [i.word])) ∧
      ∀ q, (if t.state = .wrPkt ∧ selects f.rest q = true then f.rest else []) ++ t.stored q i =
        if v && selects (f.rest ++ [i.word]) q then f.rest ++ [i.word] else [] := by
  rcases t.write_cases i with ⟨hn, _⟩ | ⟨_, hi, _, hw, _, hs, hc⟩ | ⟨_, hi, hw, _, hs⟩ |
    ⟨_, hi, hw, _, hs, hc⟩ | ⟨_, hi, hw, _, hs⟩
  · rw [hv] at hn
    cases hn
  · have hrest := h.idle.mp hi
    refine ⟨true, hs, fun _ => by rw [hc, hrest]; rfl, fun q => ?_⟩
    simp [Queues.stored, hw, hi, hrest, selects]
  · exact ⟨false, hs, by simp, fun q => by simp [Queues.stored, hw, hi, noQueue]⟩
  · have hrest : f.rest ≠ [] := by
      rw [Ne, ← h.idle, hi]
      simp
    have hcur := h.cur hi
    refine ⟨true, hs, fun _ => ?_, fun q => ?_⟩
    · funext q
      rw [hc, hcur, selects_concat hrest]
    · rw [selects_concat hrest]
      cases hq : selects f.rest q <;> simp [Queues.stored, hw, hi, hcur, hq]
  · exact ⟨false, hs, by simp, fun q => by simp [Queues.stored, hw, hi, noQueue]⟩

theorem written_step {t : Queues} {f : Frames Word} {vs : List Bool} {st : Fin 3 → List Word}
    (h : Written t f vs st) (i : Input) :
    ∃ vs', Written (t.step i) ((t.accepted i).foldl (Frames.push Word.tlast) f) vs'
      (fun q => st q ++ t.stored q i) := by
  cases hv : i.tvalid with
  | false =>
    rcases t.write_cases i with ⟨_, hw, _, hs, hc⟩ | ⟨hn, _⟩ | ⟨hn, _⟩ | ⟨hn, _⟩ | ⟨hn, _⟩
    · refine ⟨vs, ?_⟩
      have hacc : t.accepted i = [] := by simp [accepted, hv]
      rw [hacc]
      refine ⟨h.length, by rw [hs]; exact h.idle, ?_, fun q => ?_⟩
      · rw [hs]
        exact fun hp => (hc hp).trans (h.cur hp)
      · rw [h.stored q]
        simp [Queues.stored, hw, noQueue, hs]
    all_goals
      rw [hv] at hn
      cases hn
  | true =>
    obtain ⟨v, hs, hc, hq⟩ := verdict h hv
    have hacc : t.accepted i = [i.word] := by simp [accepted, hv, sTready]
    rw [hacc, List.foldl_cons, List.foldl_nil]
    cases hl : i.word.tlast with
    | true =>
      rw [hl, if_pos rfl] at hs
      refine ⟨vs ++ [v], ?_⟩
      rw [Frames.push_last _ hl]
      refine ⟨by simp [h.length], by simp [hs], by simp [hs], fun q => ?_⟩
      rw [List.zip_append h.length.symm, List.zip_cons_cons, List.zip_nil_right, share_concat,
        h.stored q, List.append_assoc, hq q]
      simp [hs]
    | false =>
      rw [hl, if_neg (by simp)] at hs
      refine ⟨vs, ?_⟩
      rw [Frames.push_inner _ hl]
      refine ⟨h.length, ?_, ?_, fun q => ?_⟩
      · cases v <;> simp [hs]
      · cases v with
        | true => exact fun _ => hc rfl
        | false => simp [hs]
      · rw [h.stored q, List.append_assoc, hq q]
        cases v <;> simp [hs]

/-- While a packet is stored, its queues have kept the room its words have not used. -/
def Room (t : Queues) (f : Frames Word) : Prop :=
  t.state = .wrPkt → ∀ q, selects f.rest q = true →
    (t.data q).fifo.depth.toNat < bufferThreshold + f.rest.length

/-- A packet of at most 25 words fits behind the threshold. -/
theorem not_full {t : Queues} {f : Frames Word} {vs : List Bool} {st : Fin 3 → List Word}
    (h : Written t f vs st) (hr : Room t f) {i : Input}
    (hlen : i.tvalid = true → f.rest.length < 25) (q : Fin 3) :
    (t.wrEn i q = true → (t.data q).full = false) ∧
      (t.metadataWrEn i q = true → (t.metadata q).full = false) := by
  have hth : bufferThreshold = 39 := by decide
  have hfull : ∀ {α : Type} {s : FallthroughFifo α 6}, s.fifo.depth.toNat < 64 →
      s.full = false := by
    intro α s hs
    simp only [FallthroughFifo.full, SmallFifo.full, beq_eq_false_iff_ne]
    omega
  rcases t.write_cases i with ⟨_, hw, hm, _⟩ | ⟨_, _, ha, hw, hm, _⟩ | ⟨_, _, hw, hm, _⟩ |
    ⟨hv, hi, hw, hm, _⟩ | ⟨_, _, hw, hm, _⟩
  · simp [hw, hm, noQueue]
  · rw [hw, hm]
    have hq := (t.admits_iff _).mp ha q
    exact ⟨fun he => hfull (by have := (hq he).1; omega),
      fun he => FallthroughFifo.full_of_nearlyFull (hq he).2⟩
  · simp [hw, hm, noQueue]
  · rw [hw, hm]
    refine ⟨fun he => hfull ?_, by simp [noQueue]⟩
    rw [h.cur hi] at he
    have hd := hr hi q he
    have hl := hlen hv
    omega
  · simp [hw, hm, noQueue]

theorem room_step {t : Queues} {f : Frames Word} {vs : List Bool} {st : Fin 3 → List Word}
    (h : Written t f vs st) (hr : Room t f) {i : Input}
    (hlen : i.tvalid = true → f.rest.length < 25) (hs : ∀ q, (t.data q).Sound) :
    Room (t.step i) ((t.accepted i).foldl (Frames.push Word.tlast) f) := by
  have hd : ∀ q, ((t.step i).data q).fifo.depth.toNat ≤
      (t.data q).fifo.depth.toNat + (t.wrEn i q).toNat :=
    fun q => (hs q).depth_step_le _ _ _ (not_full h hr hlen q).1
  intro hst q hq
  have hdq := hd q
  rcases t.write_cases i with ⟨hv, hw, _, hs', _⟩ | ⟨hv, hi, ha, hw, _, hs', _⟩ |
    ⟨_, _, _, _, hs'⟩ | ⟨hv, hi, hw, _, hs', _⟩ | ⟨_, _, _, _, hs'⟩
  · have hacc : t.accepted i = [] := by simp [accepted, hv]
    rw [hacc, List.foldl_nil] at hq ⊢
    have hold := hr (hs' ▸ hst) q hq
    simp only [hw, noQueue, Bool.toNat_false] at hdq
    omega
  · cases hl : i.word.tlast with
    | true => simp [hs', hl] at hst
    | false =>
      have hacc : t.accepted i = [i.word] := by simp [accepted, hv, sTready]
      rw [hacc, List.foldl_cons, List.foldl_nil, Frames.push_inner _ hl, h.idle.mp hi] at hq ⊢
      have hold := ((t.admits_iff _).mp ha q hq).1
      have hle := Bool.toNat_le (t.wrEn i q)
      simp only [List.nil_append, List.length_singleton]
      omega
  · cases hl : i.word.tlast <;> simp [hs', hl] at hst
  · cases hl : i.word.tlast with
    | true => simp [hs', hl] at hst
    | false =>
      have hrest : f.rest ≠ [] := by
        rw [Ne, ← h.idle, hi]
        simp
      have hacc : t.accepted i = [i.word] := by simp [accepted, hv, sTready]
      rw [hacc, List.foldl_cons, List.foldl_nil, Frames.push_inner _ hl] at hq ⊢
      rw [selects_concat hrest] at hq
      have hold := hr hi q hq
      have hle := Bool.toNat_le (t.wrEn i q)
      simp only [List.length_append, List.length_singleton]
      omega
  · cases hl : i.word.tlast <;> simp [hs', hl] at hst

/-- Whether the next word of a queue begins a packet. -/
def begins (t : Queues) (q : Fin 3) : Bool := decide (t.metadataState q = .waitHeader)

/-- Both FIFOs of a queue hold the same words: one their data, the other the side band of
those that begin a packet. -/
structure Aligned (t : Queues) (q : Fin 3) (sent : List Word) (g : DelayQueue Word) : Prop where
  data : (t.data q).Tracks (g.mapVals dataWord)
  metadata : (t.metadata q).Tracks (headers (t.begins q) g)
  opens : t.begins q = true ↔ ∀ w ∈ sent.getLast?, w.tlast = true
  closing : closing (t.begins q) g = !(decide (t.state = .wrPkt) && t.curQueue q)

/-- A word that shows is the head of the queue, with its side band if it begins a packet. -/
theorem Aligned.shown {t : Queues} {q : Fin 3} {sent : List Word} {g : DelayQueue Word}
    (h : Aligned t q sent g) (hv : (t.data q).doutValid = true) :
    ∃ w n g', g = (w, n) :: g' ∧ (t.data q).dout = dataWord w ∧
      (t.begins q = true → (t.metadata q).doutValid = true ∧ (t.metadata q).dout = w.tuser) := by
  have hf := h.data.front
  rw [hv, if_pos rfl, front_mapVals, Option.map_eq_some_iff] at hf
  obtain ⟨w, hw, he⟩ := hf
  obtain ⟨n, g', rfl, hn⟩ := front_eq_some hw
  refine ⟨w, n, g', rfl, he.symm, fun hb => ?_⟩
  have hm := h.metadata.front
  have hh : headers true ((w, n) :: g') = (w.tuser, n) :: headers w.tlast g' := rfl
  rw [hb, hh, front_of_le hn] at hm
  cases hd : (t.metadata q).doutValid with
  | false => simp [hd] at hm
  | true =>
    rw [hd, if_pos rfl, Option.some.injEq] at hm
    exact ⟨rfl, hm.symm⟩

theorem metadataComb_spec (t : Queues) (i : Input) (q : Fin 3) :
    (t.metadataComb i q).rdEn = (t.begins q && t.rdEn i q) ∧
      (t.step i).begins q = if t.rdEn i q then (t.data q).dout.tlast else t.begins q := by
  cases hs : t.metadataState q <;> cases hr : t.rdEn i q <;> cases hl : (t.data q).dout.tlast <;>
    simp [metadataComb, begins, step, hs, hr, hl]

/-- Whether the next word that a queue stores begins a packet. -/
def due (t : Queues) (q : Fin 3) : Bool := !(decide (t.state = .wrPkt) && t.curQueue q)

/-- Side bands are written with the words that begin a packet. -/
theorem metadataWrEn_due (t : Queues) (i : Input) (q : Fin 3) :
    t.metadataWrEn i q = (t.due q && t.wrEn i q) := by
  unfold due
  rcases t.write_cases i with ⟨_, hw, hm, _⟩ | ⟨_, hi, _, hw, hm, _⟩ | ⟨_, _, hw, hm, _⟩ |
    ⟨_, hi, hw, hm, _⟩ | ⟨_, _, hw, hm, _⟩
  · simp [hw, hm, noQueue]
  · simp [hw, hm, hi]
  · simp [hw, hm, noQueue]
  · simp [hw, hm, hi, noQueue]
  · simp [hw, hm, noQueue]

theorem due_step (t : Queues) (i : Input) (q : Fin 3) :
    (t.step i).due q = if t.wrEn i q then i.word.tlast else t.due q := by
  unfold due
  rcases t.write_cases i with ⟨_, hw, _, hs, hc⟩ | ⟨_, hi, _, hw, _, hs, hc⟩ | ⟨_, hi, hw, _, hs⟩ |
    ⟨_, hi, hw, _, hs, hc⟩ | ⟨_, hi, hw, _, hs⟩
  · by_cases hp : t.state = .wrPkt
    · simp [hw, hs, hc hp, noQueue]
    · simp [hw, hs, hp, noQueue]
  · rw [hw, hs, hc, hi]
    cases oq i.word.tuser q <;> cases i.word.tlast <;> simp
  · rw [hw, hs, hi]
    cases i.word.tlast <;> simp [noQueue]
  · rw [hw, hs, hc, hi]
    cases t.curQueue q <;> cases i.word.tlast <;> simp
  · rw [hw, hs, hi]
    cases i.word.tlast <;> simp [noQueue]

/-- Whether the word behind the queue begins a packet, after a cycle. -/
theorem closing_next {t : Queues} {q : Fin 3} {sent : List Word} {g : DelayQueue Word}
    (h : Aligned t q sent g) (i : Input) :
    (((if t.wrEn i q then some i.word else none).map Word.tlast).getD (closing (t.begins q) g)) =
      (t.step i).due q := by
  have hdue : closing (t.begins q) g = t.due q := h.closing
  rw [hdue, due_step]
  cases t.wrEn i q <;> rfl

/-- What the receiver of a queue does in a cycle: nothing, or take the head of the queue. -/
theorem aligned_read {t : Queues} {q : Fin 3} {sent : List Word} {g : DelayQueue Word}
    (h : Aligned t q sent g) (i : Input) :
    (t.rdEn i q = false ∧ t.handed q i = [] ∧ (t.step i).begins q = t.begins q) ∨
      (t.rdEn i q = true ∧ (t.data q).doutValid = true ∧ ∃ w n g', g = (w, n) :: g' ∧
        t.handed q i = [dataWord w] ∧ (t.step i).begins q = w.tlast ∧
        (t.begins q = true → (t.metadata q).doutValid = true)) := by
  have hbegins := (t.metadataComb_spec i q).2
  have hhanded : t.handed q i = if t.rdEn i q then [dataWord (t.mWord q)] else [] := by
    rw [handed, mTvalid, Bool.and_comm, ← rdEn]
  cases hr : t.rdEn i q with
  | false =>
    rw [hr] at hbegins hhanded
    exact .inl ⟨rfl, hhanded, hbegins⟩
  | true =>
    have hv : (t.data q).doutValid = true := by
      simp only [rdEn, FallthroughFifo.empty, Bool.not_not, Bool.and_eq_true] at hr
      exact hr.2
    obtain ⟨w, n, g', hg, hd, hb⟩ := h.shown hv
    have hmw : dataWord (t.mWord q) = dataWord w := hd
    rw [hr, if_pos rfl] at hbegins hhanded
    rw [hd] at hbegins
    rw [hmw] at hhanded
    exact .inr ⟨rfl, hv, w, n, g', hg, hhanded, hbegins, fun hbq => (hb hbq).1⟩

/-- What a cycle writes to the data FIFO and to the metadata FIFO of a queue. -/
theorem aligned_written {t : Queues} {q : Fin 3} {sent : List Word} {g : DelayQueue Word}
    (h : Aligned t q sent g) (i : Input) :
    ∃ wr : Option Word, wr.toList = t.stored q i ∧
      (if t.wrEn i q then some (dataWord i.word) else none) = wr.map dataWord ∧
      (if t.metadataWrEn i q then some i.word.tuser else none) =
        (if closing (t.begins q) g then wr.map Word.tuser else none) ∧
      (wr.map Word.tlast).getD (closing (t.begins q) g) = (t.step i).due q := by
  refine ⟨if t.wrEn i q then some i.word else none, ?_, ?_, ?_, closing_next h i⟩
  · rw [Queues.stored]
    cases t.wrEn i q <;> rfl
  · cases t.wrEn i q <;> rfl
  · have hdue : closing (t.begins q) g = t.due q := h.closing
    rw [metadataWrEn_due, hdue]
    cases t.due q <;> cases t.wrEn i q <;> rfl

/-- The two FIFOs of a queue stay aligned, and what is stored leaves in order. -/
theorem aligned_step {t : Queues} {q : Fin 3} {sent : List Word} {g : DelayQueue Word}
    (h : Aligned t q sent g) {i : Input} (hw : t.wrEn i q = true → (t.data q).full = false)
    (hm : t.metadataWrEn i q = true → (t.metadata q).full = false) :
    ∃ sent' g', Aligned (t.step i) q sent' g' ∧
      sent' ++ g'.vals = sent ++ g.vals ++ t.stored q i ∧
      sent'.map dataWord = sent.map dataWord ++ t.handed q i := by
  obtain ⟨wr, hstored, hwr, hside, hclose⟩ := aligned_written h i
  have hmrd := (t.metadataComb_spec i q).1
  have hdata := h.data.step (t.wrEn i q) (t.rdEn i q) (dataWord i.word) hw
  have hmeta := h.metadata.step (t.metadataWrEn i q) (t.metadataComb i q).rdEn i.word.tuser hm
  change ((t.step i).data q).Tracks _ at hdata
  change ((t.step i).metadata q).Tracks _ at hmeta
  rw [hwr] at hdata
  rw [hside, hmrd] at hmeta
  rcases aligned_read h i with ⟨hr, hnone, hbegins⟩ | ⟨hr, hv, w, n, g', rfl, hone, hbegins, hb⟩
  · obtain ⟨hh, hc⟩ := headers_write (t.begins q) g wr
    rw [hr, Bool.false_and, ← mapVals_tick] at hdata
    rw [hr, Bool.and_false, Bool.false_and, ← hh] at hmeta
    rw [← hbegins] at hmeta hc hclose
    refine ⟨sent, g.tick false wr, ⟨hdata, hmeta, ?_, hc.trans hclose⟩, ?_, ?_⟩
    · rw [hbegins]
      exact h.opens
    · rw [vals_tick, hstored]
      simp
    · rw [hnone, List.append_nil]
  · have hpop : (t.begins q && true && (t.metadata q).doutValid) = t.begins q := by
      cases hbq : t.begins q with
      | false => rfl
      | true => simp [hb hbq]
    obtain ⟨hh, hc⟩ := headers_read (t.begins q) (w, n) g' wr
    rw [hr, hv, Bool.and_true, ← mapVals_tick] at hdata
    rw [hr, hpop, ← hh] at hmeta
    rw [← hbegins] at hmeta hc
    refine ⟨sent ++ [w], tick ((w, n) :: g') true wr, ⟨hdata, hmeta, ?_, hc.trans hclose⟩, ?_, ?_⟩
    · rw [hbegins]
      simp
    · rw [vals_tick, hstored]
      simp
    · rw [hone, List.map_append, List.map_singleton]

/-- The packets a run has offered. -/
def offered (s : Queues) (ins : List Input) : Frames Word :=
  frames Word.tlast (machine.collect accepted s ins)

theorem offered_concat (s : Queues) (past : List Input) (i : Input) :
    offered s (past ++ [i]) =
      ((machine.run s past).accepted i).foldl (Frames.push Word.tlast) (offered s past) := by
  rw [offered, Machine.collect_concat, frames_append]
  rfl

/-- A bound on the packets of a run leaves room for the word of its last cycle. -/
theorem within_concat {s : Queues} {past : List Input} {i : Input} {n : Nat}
    (h : (offered s (past ++ [i])).Within n) :
    (offered s past).Within n ∧ (i.tvalid = true → (offered s past).rest.length < n) := by
  rw [offered_concat] at h
  cases hv : i.tvalid with
  | false =>
    simp only [accepted, hv, Bool.false_and, Bool.false_eq_true, if_false, List.foldl_nil] at h
    exact ⟨h, by simp⟩
  | true =>
    simp only [accepted, hv, sTready, Bool.and_true, if_true, List.foldl_cons,
      List.foldl_nil] at h
    have hw := h.of_push
    exact ⟨hw.1, fun _ => hw.2⟩

/-- What holds after a run of short packets. -/
structure Reached (s : Queues) (past : List Input) (t : Queues) : Prop where
  written : ∃ verdicts, Written t (offered s past) verdicts
    (fun q => machine.collect (stored q) s past)
  room : Room t (offered s past)
  aligned : ∀ q, ∃ sent g, Aligned t q sent g ∧
    machine.collect (stored q) s past = sent ++ g.vals ∧
    machine.collect (handed q) s past = sent.map dataWord

theorem reached_reset (s : Queues) : Reached s.reset [] s.reset where
  written := ⟨[], rfl, ⟨fun _ => rfl, fun _ => rfl⟩, by simp [reset],
    by simp [share, reset, offered]⟩
  room := by simp [Room, reset]
  aligned q := by
    refine ⟨[], [], ⟨.reset _, .reset _, by simp [begins, reset], ?_⟩, rfl, rfl⟩
    simp [closing, opens, begins, reset]

theorem reached_step {s : Queues} {past : List Input} {i : Input}
    (h : Reached s past (machine.run s past)) (hw : (offered s (past ++ [i])).Within 25) :
    Reached s (past ++ [i]) ((machine.run s past).step i) := by
  obtain ⟨verdicts, hwr⟩ := h.written
  have hlen := (within_concat hw).2
  have hfull := not_full hwr h.room hlen
  refine ⟨?_, ?_, fun q => ?_⟩
  · obtain ⟨vs, hvs⟩ := written_step hwr i
    refine ⟨vs, ?_⟩
    simp only [offered_concat, Machine.collect_concat]
    exact hvs
  · rw [offered_concat]
    refine room_step hwr h.room hlen (fun q => ?_)
    obtain ⟨_, g, ha, _⟩ := h.aligned q
    exact ⟨_, ha.data⟩
  · obtain ⟨sent, g, ha, hst, hh⟩ := h.aligned q
    obtain ⟨sent', g', ha', hst', hh'⟩ := aligned_step ha (hfull q).1 (hfull q).2
    refine ⟨sent', g', ha', ?_, ?_⟩
    · rw [Machine.collect_concat, hst, hst']
    · rw [Machine.collect_concat, hh, hh']

theorem reached_run (s : Queues) {ins : List Input} (h : (offered s.reset ins).Within 25) :
    Reached s.reset ins (machine.run s.reset ins) := by
  refine machine.run_invariant ins
    (fun past t => (offered s.reset past).Within 25 → Reached s.reset past t)
    (fun _ => reached_reset s) ?_ h
  intro past i hp hw
  exact reached_step (hp (within_concat hw).1) hw

/-- A cycle in which nothing arrives and every receiver is ready. -/
def quiet : Input := ⟨false, default, fun _ => true⟩

theorem wrEn_quiet (t : Queues) (q : Fin 3) : t.wrEn quiet q = false := by
  simp [wrEn, quiet, noQueue]

theorem offered_quiet (s : Queues) (ins : List Input) (k : Nat) :
    offered s (ins ++ List.replicate k quiet) = offered s ins ∧
      ∀ q, machine.collect (stored q) s (ins ++ List.replicate k quiet) =
        machine.collect (stored q) s ins := by
  induction k with
  | zero => simp
  | succ k ih =>
    rw [List.replicate_succ', ← List.append_assoc, offered_concat, ih.1]
    refine ⟨by simp [accepted, quiet], fun q => ?_⟩
    rw [Machine.collect_concat, ih.2]
    simp [stored, wrEn_quiet]

theorem drains (s : Queues) {ins : List Input} (h : (offered s.reset ins).Within 25) :
    ∃ k, ∀ q, ((machine.run s.reset (ins ++ List.replicate k quiet)).data q).contents = [] := by
  have hreach := machine.run_reaches quiet (fun t => ∀ q, (t.data q).Sound)
    (fun t => ∀ q, (t.data q).contents = []) (fun t => ∑ q, (t.data q).backlog) ?_
    (s := machine.run s.reset ins) ?_
  · obtain ⟨k, hk⟩ := hreach
    exact ⟨k, by rw [Machine.run_append]; exact hk⟩
  · intro t ht hgoal
    obtain ⟨q, hq⟩ := not_forall.mp hgoal
    have hstep : ∀ q, (machine.step t quiet).data q =
        (t.data q).step false (dataWord quiet.word) (t.rdEn quiet q) := by
      intro q
      rw [← wrEn_quiet t q]
      rfl
    have hback : ∀ q, _ := fun q => FallthroughFifo.backlog_step (ht q) (t.rdEn quiet q)
      (dataWord quiet.word) (by simp [rdEn, quiet, FallthroughFifo.empty])
    refine .inr ⟨fun q => ?_, Finset.sum_lt_sum (fun q _ => ?_) ⟨q, Finset.mem_univ _, ?_⟩⟩
    · rw [hstep q]
      exact (ht q).step _ _ _ (by simp)
    · rw [hstep q]
      exact (hback q).1
    · rw [hstep q]
      exact (hback q).2 hq
  · intro q
    obtain ⟨_, g, ha, _⟩ := (reached_run s h).aligned q
    exact ⟨_, ha.data⟩

/-- From reset, with packets of at most 25 words: no FIFO is written while full; every
packet is stored whole in all queues it is for or in none; each port hands over what was
stored for it, in order and in the end all of it; and a first word shows with the side
band of its packet. -/
theorem admission (s : Queues) (ins : List Input) (h : (offered s.reset ins).Within 25) :
    let t := machine.run s.reset ins
    let f := offered s.reset ins
    (∀ past i, past ++ [i] <+: ins → ∀ q,
      ((machine.run s.reset past).wrEn i q = true →
        ((machine.run s.reset past).data q).full = false) ∧
      ((machine.run s.reset past).metadataWrEn i q = true →
        ((machine.run s.reset past).metadata q).full = false)) ∧
    (∃ verdicts : List Bool, verdicts.length = f.closed.length ∧
      ∀ q, machine.collect (stored q) s.reset ins = share q (f.closed.zip verdicts) ++
        if t.state = .wrPkt ∧ selects f.rest q = true then f.rest else []) ∧
    (∀ q, ∃ sent waiting, machine.collect (stored q) s.reset ins = sent ++ waiting ∧
      machine.collect (handed q) s.reset ins = sent.map dataWord ∧
      (t.mTvalid q = true → (∀ w ∈ sent.getLast?, w.tlast = true) →
        (t.metadata q).empty = false ∧ waiting.head? = some (t.mWord q))) ∧
    ∃ k, ∀ q, machine.collect (handed q) s.reset (ins ++ List.replicate k quiet) =
      (machine.collect (stored q) s.reset ins).map dataWord := by
  have hr := reached_run s h
  refine ⟨?_, ?_, ?_, ?_⟩
  · rintro past i ⟨later, rfl⟩
    have hpast : (offered s.reset (past ++ [i])).Within 25 := by
      clear hr
      induction later using List.reverseRecOn with
      | nil => simpa using h
      | append_singleton later j ih =>
        rw [← List.append_assoc] at h
        exact ih (within_concat h).1
    have hp := reached_run s (within_concat hpast).1
    obtain ⟨_, hwr⟩ := hp.written
    exact not_full hwr hp.room (within_concat hpast).2
  · obtain ⟨verdicts, hwr⟩ := hr.written
    exact ⟨verdicts, hwr.length, hwr.stored⟩
  · intro q
    obtain ⟨sent, g, ha, hst, hh⟩ := hr.aligned q
    refine ⟨sent, g.vals, hst, hh, fun hv hfirst => ?_⟩
    have hd : ((machine.run s.reset ins).data q).doutValid = true := by
      simpa [mTvalid, FallthroughFifo.empty] using hv
    obtain ⟨w, n, g', rfl, hdout, hb⟩ := ha.shown hd
    obtain ⟨hmv, hmd⟩ := hb (ha.opens.mpr hfirst)
    refine ⟨by simp [FallthroughFifo.empty, hmv], ?_⟩
    rw [vals_cons, List.head?_cons, mWord, hdout, hmd]
    rfl
  · obtain ⟨k, hk⟩ := drains s h
    obtain ⟨hoff, hst⟩ := offered_quiet s.reset ins k
    refine ⟨k, fun q => ?_⟩
    obtain ⟨sent, g, ha, hst', hh⟩ := (reached_run s (hoff ▸ h)).aligned q
    have hg : g.vals = [] := by
      have hc := ha.data.contents
      rw [hk q, vals_mapVals] at hc
      exact List.map_eq_nil_iff.mp hc.symm
    rw [hg, List.append_nil, hst q] at hst'
    rw [hh, hst']

/-- A packet of two words for the first two queues. -/
def multicast : List Input :=
  [⟨true, ⟨1, 0xffffffffffffffff, 0x5000080, false⟩, fun _ => true⟩,
    ⟨true, ⟨2, 0xffffffffffffffff, 0, true⟩, fun _ => true⟩]

theorem admission_multicast :
    (offered (default : Queues).reset multicast).Within 25 ∧
      ∃ k, ∀ q, machine.collect (handed q) (default : Queues).reset
          (multicast ++ List.replicate k quiet) =
        (machine.collect (stored q) (default : Queues).reset multicast).map dataWord :=
  have hw : (offered (default : Queues).reset multicast).Within 25 := by decide +kernel
  ⟨hw, (admission default multicast hw).2.2.2⟩

end Queues
end Osnt.OutputQueues
