import Osnt.Proofs.PrePcapStore

/-! The stamp parser as a function of the beats it takes, and the store as a pipe:
what comes out of it is, in order, what went in. -/
namespace Osnt.PrePcapStore
open Lib

namespace Conv

/-- The state in which the parser takes a beat: it looks at the first beat of a
packet for one cycle and then goes to drop or to pass. -/
def settle (c : Conv) (b : Beat) : Conv :=
  if c.state = .idle then ⟨if b.tsSignatureEn then .drop else .pass, 0⟩ else c

/-- Taking a beat. -/
def feed (c : Conv) (b : Beat) : Conv := ((c.settle b).comb (some b) true).next

/-- What taking a beat hands on. -/
def emit (c : Conv) (b : Beat) : List Beat := ((c.settle b).comb (some b) true).out.toList

def parser : Machine Conv Beat := ⟨feed⟩

/-- What the parser makes of a stream of beats. -/
def parse (bs : List Beat) : List Beat := parser.collect emit .reset bs

theorem parse_concat (bs : List Beat) (b : Beat) :
    parse (bs ++ [b]) = parse bs ++ (parser.run .reset bs).emit b := by
  simp [parse]

theorem parse_mono {bs cs : List Beat} (h : bs <+: cs) : parse bs <+: parse cs := by
  obtain ⟨ds, rfl⟩ := h
  rw [parse, parse, Machine.collect_append]
  exact List.prefix_append _ _

/-- Outside a stamped packet no stamp is held. -/
def Clean (c : Conv) : Prop := c.state = .idle ∨ c.state = .pass → c.tuser = 0

theorem clean_feed (c : Conv) (b : Beat) (h : c.Clean) : (c.feed b).Clean := by
  obtain ⟨st, tu⟩ := c
  cases st <;> cases hs : b.tsSignatureEn <;> cases hl : b.tlast <;>
    simp [Clean, feed, settle, comb, hs, hl]

theorem clean_run (bs : List Beat) : (parser.run .reset bs).Clean :=
  parser.run_invariant bs (fun _ c => c.Clean) (fun _ => rfl) (fun _ b h => clean_feed _ b h)

theorem comb_none {c : Conv} (h : c.Clean) (ready : Bool) :
    (c.comb none ready).next = c ∧ (c.comb none ready).out = none := by
  obtain ⟨st, tu⟩ := c
  cases st <;> simp [comb, Clean] at h ⊢
  · exact h.symm
  · exact h.symm

theorem clean_settle {c : Conv} (h : c.Clean) (b : Beat) : (c.settle b).Clean := by
  obtain ⟨st, tu⟩ := c
  cases st <;> simp [settle, Clean] at h ⊢
  exact h

/-- Before the first beat of a packet the parser looks and does not take. -/
theorem comb_look {c : Conv} (h : c.state = .idle) (b : Beat) (ready : Bool) :
    (c.comb (some b) ready).tready = false ∧ (c.comb (some b) ready).out = none ∧
      (c.comb (some b) ready).next = c.settle b := by
  obtain ⟨st, tu⟩ := c
  cases h
  simp [comb, settle]

theorem settle_of_busy {c : Conv} (h : c.state ≠ .idle) (b : Beat) : c.settle b = c := by
  simp [settle, h]

theorem settle_busy (c : Conv) (b : Beat) : (c.settle b).state ≠ .idle := by
  by_cases h : c.state = .idle
  · cases hs : b.tsSignatureEn <;> simp [settle, h, hs]
  · simp [settle, h]

/-- Once it has looked, the parser takes the beat and hands on what it makes of it, or
keeps its state for a converter that is not ready. -/
theorem comb_take {c : Conv} (h : c.Clean) (hb : c.state ≠ .idle) (b : Beat) (ready : Bool) :
    let n := c.comb (some b) ready
    (n.tready = true ∧ n.next = c.feed b ∧
        (if ready then n.out.toList else []) = c.emit b) ∨
      (n.tready = false ∧ n.next = c ∧ ready = false) := by
  rw [feed, emit, settle_of_busy hb]
  obtain ⟨st, tu⟩ := c
  cases st <;> cases ready <;> simp [comb, Clean] at h hb ⊢
  exact h.symm

end Conv

/-- The two width converters, as the functions of streams they compute. -/
structure Converters where
  split : Word → List Beat
  merge : List Beat → List Word
  merge_split : ∀ ws, merge (ws.flatMap split) = ws
  merge_mono : ∀ {bs cs}, bs <+: cs → merge bs <+: merge cs

/-- The beats of a word, lowest lane first. -/
def fourBeats (w : Word) : List Beat :=
  [⟨w.tdata.extractLsb' 0 128, w.tkeep.extractLsb' 0 16, w.tuser, false⟩,
    ⟨w.tdata.extractLsb' 128 128, w.tkeep.extractLsb' 16 16, w.tuser, false⟩,
    ⟨w.tdata.extractLsb' 256 128, w.tkeep.extractLsb' 32 16, w.tuser, false⟩,
    ⟨w.tdata.extractLsb' 384 128, w.tkeep.extractLsb' 48 16, w.tuser, w.tlast⟩]

/-- A word of every four beats, with the side band of the first of them. -/
def ofFourBeats : List Beat → List Word
  | a :: b :: c :: d :: rest =>
    ⟨d.tdata ++ c.tdata ++ b.tdata ++ a.tdata, d.tkeep ++ c.tkeep ++ b.tkeep ++ a.tkeep, a.tuser,
      d.tlast⟩ :: ofFourBeats rest
  | _ => []

theorem lanes_append {n : Nat} (x : BitVec (n + n + n + n)) :
    x.extractLsb' (n + n + n) n ++ x.extractLsb' (n + n) n ++ x.extractLsb' n n ++
      x.extractLsb' 0 n = x := by
  ext j hj
  simp only [BitVec.getElem_append, BitVec.getElem_extractLsb']
  -- Each lane starts where the lanes below it end.
  split
  · simp [BitVec.getLsbD_eq_getElem hj]
  · split
    · rw [BitVec.getLsbD_eq_getElem (by omega)]
      congr 1
      omega
    · split
      · rw [BitVec.getLsbD_eq_getElem (by omega)]
        congr 1
        omega
      · rw [BitVec.getLsbD_eq_getElem (by omega)]
        congr 1
        omega

theorem ofFourBeats_flatMap (ws : List Word) : ofFourBeats (ws.flatMap fourBeats) = ws := by
  induction ws with
  | nil => rfl
  | cons w ws ih =>
    have hd := lanes_append (n := 128) w.tdata
    have hk := lanes_append (n := 16) w.tkeep
    rw [List.flatMap_cons]
    simp only [fourBeats, List.cons_append, List.nil_append, ofFourBeats, ih]
    exact congrArg (· :: ws) (congrArg₂ (fun d k => (⟨d, k, w.tuser, w.tlast⟩ : Word)) hd hk)

theorem ofFourBeats_mono {bs cs : List Beat} (h : bs <+: cs) :
    ofFourBeats bs <+: ofFourBeats cs := by
  obtain ⟨ds, rfl⟩ := h
  fun_induction ofFourBeats bs with
  | case1 a b c d rest ih =>
    simp only [List.cons_append, ofFourBeats]
    exact (List.prefix_cons_inj _).mpr ih
  | case2 => exact List.nil_prefix

/-- Converters that carry a word in four beats, whatever its byte enables. -/
def fourLanes : Converters := ⟨fourBeats, ofFourBeats, ofFourBeats_flatMap, ofFourBeats_mono⟩

/-- In a run the converters, however late, show the beats and words of their streams,
one by one and each until it is taken. -/
structure Converters.Lossless (cv : Converters) (s : Store) (ins : List StoreInput) : Prop where
  beats : ∀ past i, past ++ [i] <+: ins →
    Store.machine.collect Store.fromConv512 s past ++ i.conv512Out.toList <+:
      (Store.machine.collect Store.toConv512 s past).flatMap cv.split
  words : ∀ past i, past ++ [i] <+: ins →
    Store.machine.collect Store.fromConv128 s past ++ i.conv128Out.toList <+:
      cv.merge (Store.machine.collect Store.toConv128 s past)

namespace Store

/-- How the parser's registers stand to the beats it has taken: it may have looked at
the next beat of the stream already. -/
def Follows (c : Conv) (taken stream : List Beat) : Prop :=
  c = Conv.parser.run .reset taken ∨
    ∃ b, taken ++ [b] <+: stream ∧ c = (Conv.parser.run .reset taken).settle b

theorem Follows.clean {c : Conv} {taken stream : List Beat} (h : Follows c taken stream) :
    c.Clean := by
  have hc := Conv.clean_run taken
  rcases h with rfl | ⟨b, _, rfl⟩
  · exact hc
  · exact Conv.clean_settle hc b

theorem next_unique {taken s t : List Beat} {b c : Beat} (hst : s <+: t)
    (hb : taken ++ [b] <+: s) (hc : taken ++ [c] <+: t) : b = c := by
  have h1 := hb.trans hst
  have h2 := List.prefix_of_prefix_length_le h1 hc (by simp)
  have h3 := List.IsPrefix.eq_of_length h2 (by simp)
  simpa using h3

/-- Faced with the next beat of the stream, the parser has looked at it or looks now. -/
theorem Follows.settled {c : Conv} {taken s t : List Beat} {b : Beat} (h : Follows c taken s)
    (hst : s <+: t) (hb : taken ++ [b] <+: t) :
    c = (Conv.parser.run .reset taken).settle b ∨
      (c = Conv.parser.run .reset taken ∧ c.state = .idle) := by
  rcases h with rfl | ⟨b', hb', rfl⟩
  · by_cases hi : (Conv.parser.run .reset taken).state = .idle
    · exact .inr ⟨rfl, hi⟩
    · exact .inl (Conv.settle_of_busy hi b).symm
  · exact .inl (by rw [next_unique hst hb' hb])

theorem Follows.grow {c : Conv} {taken s t : List Beat} (h : Follows c taken s) (hst : s <+: t) :
    Follows c taken t := by
  rcases h with rfl | ⟨b, hb, rfl⟩
  · exact .inl rfl
  · exact .inr ⟨b, hb.trans hst, rfl⟩

/-- A cycle in which the parser faces the next beat of the stream, or none: it takes the beat and
hands on what it makes of it, or it hands on nothing. -/
theorem Follows.step {c : Conv} {taken stream : List Beat} (h : Follows c taken stream)
    {inp : Option Beat} (hin : taken ++ inp.toList <+: stream) (ready : Bool) :
    let n := c.comb inp ready
    Follows n.next (taken ++ if n.tready then inp.toList else []) stream ∧
      Conv.parse (taken ++ if n.tready then inp.toList else []) =
        Conv.parse taken ++ if ready then n.out.toList else [] := by
  have hclean := h.clean
  cases inp with
  | none =>
    obtain ⟨hn, hout⟩ := Conv.comb_none hclean ready
    simp only [hn, hout, Option.toList_none, ite_self, List.append_nil]
    exact ⟨h, trivial⟩
  | some b =>
    rcases h.settled (List.prefix_refl stream) hin with hc | ⟨hc, hidle⟩
    · -- The parser has seen this beat and takes it when it can.
      have hbusy : c.state ≠ .idle := hc ▸ Conv.settle_busy _ b
      rcases Conv.comb_take hclean hbusy b ready with ⟨h1, h2, h3⟩ | ⟨h1, h2, rfl⟩
      · have hfeed : c.feed b = (Conv.parser.run .reset taken).feed b := by
          rw [hc, Conv.feed, Conv.feed, Conv.settle_of_busy (Conv.settle_busy _ b)]
        have hemit : c.emit b = (Conv.parser.run .reset taken).emit b := by
          rw [hc, Conv.emit, Conv.emit, Conv.settle_of_busy (Conv.settle_busy _ b)]
        simp only [h1, h2, if_true, Option.toList_some]
        rw [h3, hemit, Conv.parse_concat]
        refine ⟨.inl ?_, rfl⟩
        rw [hfeed, Machine.run_concat]
        rfl
      · simp only [h1, h2, Bool.false_eq_true, if_false, List.append_nil]
        exact ⟨h, trivial⟩
    · -- It looks at the first beat of a packet.
      obtain ⟨h1, h2, h3⟩ := Conv.comb_look hidle b ready
      simp only [h1, h2, h3, Bool.false_eq_true, if_false, Option.toList_none, ite_self,
        List.append_nil]
      exact ⟨.inr ⟨b, hin, by rw [hc]⟩, trivial⟩

/-- The parser hands on what it makes of the beats it has taken. -/
theorem parsed_run {cv : Converters} {s : Store} {ins : List StoreInput}
    (h : cv.Lossless s.reset ins) {past : List StoreInput} (hp : past <+: ins) :
    Follows (machine.run s.reset past).conv (machine.collect fromConv512 s.reset past)
        ((machine.collect toConv512 s.reset past).flatMap cv.split) ∧
      machine.collect toConv128 s.reset past =
        Conv.parse (machine.collect fromConv512 s.reset past) := by
  induction past using List.reverseRecOn with
  | nil => exact ⟨.inl rfl, rfl⟩
  | append_singleton past i ih =>
    obtain ⟨hf, ho⟩ := ih (List.IsPrefix.trans ⟨[i], rfl⟩ hp)
    obtain ⟨hfollows, hparse⟩ := hf.step (h.beats past i hp) i.conv128Tready
    rw [Machine.run_concat, Machine.collect_concat, Machine.collect_concat, Machine.collect_concat,
      ho, List.flatMap_append]
    exact ⟨hfollows.grow (List.prefix_append _ _), hparse.symm⟩

theorem full_of_mWrEn {s : Store} {i : StoreInput} (h : s.mWrEn i = true) :
    s.mFifo.full = false := by
  simp only [mWrEn, Bool.and_eq_true, Bool.not_eq_true'] at h
  exact FallthroughFifo.full_of_nearlyFull h.2

/-- Words that leave the store. -/
def emerging (s : Store) (i : StoreInput) : List Word :=
  if s.mRdEn i then s.mWord.toList else []

theorem emerging_eq (s : Store) (i : StoreInput) :
    s.emerging i = if s.mRdEn i && s.mFifo.doutValid then [s.mFifo.dout] else [] := by
  cases hd : s.mFifo.doutValid <;> simp [emerging, mRdEn, mWord, FallthroughFifo.empty, hd]

theorem fromConv128_eq (s : Store) (i : StoreInput) :
    s.fromConv128 i = if s.mWrEn i then [i.conv128Out.getD default] else [] := by
  cases ho : i.conv128Out <;> simp [fromConv128, mWrEn, ho]

/-- Words taken from the converter have left the store or wait in its output FIFO. -/
theorem emerged_run (s : Store) (ins : List StoreInput) :
    (machine.run s.reset ins).mFifo.Sound ∧
      machine.collect fromConv128 s.reset ins =
        machine.collect emerging s.reset ins ++ (machine.run s.reset ins).mFifo.contents := by
  have hin : fromConv128 = fun t i => if t.mWrEn i then [i.conv128Out.getD default] else [] :=
    funext₂ fromConv128_eq
  have hout : emerging = fun t i => if t.mRdEn i && t.mFifo.doutValid then [t.mFifo.dout] else [] :=
    funext₂ emerging_eq
  have hflow := FallthroughFifo.flow_run machine (fun _ => True) (fun t => t.mFifo) mWrEn mRdEn
    (fun _ i => i.conv128Out.getD default) (fun _ _ _ => rfl) (fun _ _ _ => full_of_mWrEn)
    (s := s.reset) (FallthroughFifo.sound_reset _) (fun i (_ : i ∈ ins) => trivial)
  have hnil : s.reset.mFifo.contents = [] := FallthroughFifo.contents_reset _
  rw [hnil, List.nil_append, ← hin, ← hout] at hflow
  exact hflow

theorem fromConv512_within {cv : Converters} {s : Store} {ins past : List StoreInput}
    (h : cv.Lossless s.reset ins) (hp : past <+: ins) :
    machine.collect fromConv512 s.reset past <+:
      (machine.collect toConv512 s.reset past).flatMap cv.split := by
  cases past using List.reverseRecOn with
  | nil => exact List.nil_prefix
  | append_singleton past i =>
    rw [Machine.collect_concat, Machine.collect_concat, List.flatMap_append]
    refine List.IsPrefix.trans ?_ ((h.beats past i hp).trans (List.prefix_append _ _))
    rw [List.prefix_append_right_inj, fromConv512]
    split
    · exact List.prefix_refl _
    · exact List.nil_prefix

theorem fromConv128_within {cv : Converters} {s : Store} {ins past : List StoreInput}
    (h : cv.Lossless s.reset ins) (hp : past <+: ins) :
    machine.collect fromConv128 s.reset past <+:
      cv.merge (machine.collect toConv128 s.reset past) := by
  cases past using List.reverseRecOn with
  | nil => exact List.nil_prefix
  | append_singleton past i =>
    rw [Machine.collect_concat, Machine.collect_concat]
    refine List.IsPrefix.trans ?_
      ((h.words past i hp).trans (cv.merge_mono (List.prefix_append _ _)))
    rw [List.prefix_append_right_inj, fromConv128]
    split
    · exact List.prefix_refl _
    · exact List.nil_prefix

theorem flatMap_mono {ws vs : List Word} (f : Word → List Beat) (h : ws <+: vs) :
    ws.flatMap f <+: vs.flatMap f := by
  obtain ⟨us, rfl⟩ := h
  rw [List.flatMap_append]
  exact List.prefix_append _ _

/-- What has left the store is a prefix of what the parser makes of the words that
were written into it. -/
theorem emerged_prefix {cv : Converters} {s : Store} {ins past : List StoreInput}
    (h : cv.Lossless s.reset ins) (hp : past <+: ins) :
    machine.collect emerging s.reset past <+:
      cv.merge (Conv.parse ((machine.collect stored s.reset past).flatMap cv.split)) := by
  have hout : machine.collect emerging s.reset past <+:
      machine.collect fromConv128 s.reset past := by
    rw [(emerged_run s past).2]
    exact List.prefix_append _ _
  have hin : machine.collect toConv512 s.reset past <+: machine.collect stored s.reset past := by
    rw [(stored_run s past).2]
    exact List.prefix_append _ _
  refine hout.trans ((fromConv128_within h hp).trans (cv.merge_mono ?_))
  rw [(parsed_run h hp).2]
  exact Conv.parse_mono ((fromConv512_within h hp).trans (flatMap_mono cv.split hin))

end Store
end Osnt.PrePcapStore
