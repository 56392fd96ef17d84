import Osnt.Lib.Framing
import Osnt.Proofs.ConverterReaders

namespace Osnt.AxisConverter
open Lib Lib.DelayQueue

/-- Length of a packet in bytes. -/
def packetLength {s : Nat} (pkt : List (Beat s)) : Nat :=
  (pkt.flatMap (fun w => kept w.lanes.toList)).length

/-- `tuser` of a packet's first word. -/
def headTuser {s : Nat} : List (Beat s) → BitVec 128
  | [] => 0
  | w :: _ => w.tuser

/-- The record a packet should get. -/
def record {s : Nat} (p : Params) (pkt : List (Beat s)) : BitVec 128 :=
  if p.defaultValueEnable then (BitVec.ofNat 16 (packetLength pkt)).setWidth 128
  else headTuser pkt

/-- The part of `tuser` that is taken from the record. -/
def label (p : Params) (u : BitVec 128) : BitVec 128 :=
  if p.defaultValueEnable then (u.extractLsb' 0 16).setWidth 128 else u

theorem Contiguous.init {ls : List Lane} {l : Lane} (h : Contiguous (ls ++ [l])) :
    Contiguous ls := by
  obtain ⟨k, hk⟩ := h
  refine ⟨k, fun j hj => ?_⟩
  have hj' := hk j (by simp; omega)
  rwa [List.getElem_append_left hj] at hj'

theorem Beat.Wf.contiguous {s : Nat} {w : Beat s} (h : w.Wf) : Contiguous w.lanes.toList := by
  cases hl : w.tlast with
  | true =>
    rw [Beat.Wf, hl, if_pos rfl] at h
    exact h.1
  | false =>
    rw [Beat.Wf, hl, if_neg (by simp)] at h
    exact ⟨_, fun j hj => ⟨fun _ => hj, fun _ => h _ (List.getElem_mem hj)⟩⟩

/-- Without holes, the highest lane that is kept tells how many are. -/
theorem localSum_eq {ls : List Lane} (h : Contiguous ls) : localSum ls = (kept ls).length := by
  induction ls using List.reverseRecOn with
  | nil => rfl
  | append_singleton ls l ih =>
    have hsum : localSum (ls ++ [l]) = if l.keep then ls.length + 1 else localSum ls := by
      simp [localSum, List.zipIdx_append]
    rw [hsum, kept_append, List.length_append]
    cases hl : l.keep with
    | false => simp [kept, hl, ih h.init]
    | true =>
      obtain ⟨k, hk⟩ := h
      have hend : ls.length < k := (hk ls.length (by simp)).mp (by simp [hl])
      have hall : kept ls = ls.map Lane.data := by
        rw [kept, ← List.filterMap_eq_map]
        apply List.filterMap_congr
        intro x hx
        obtain ⟨j, hj, rfl⟩ := List.getElem_of_mem hx
        have hj' := (hk j (by simp; omega)).mpr (by omega)
        rw [List.getElem_append_left hj] at hj'
        simp [hj']
      have hone : kept [l] = [l.data] := by simp [kept, hl]
      rw [hall, hone]
      simp

theorem packetLength_concat {s : Nat} (pkt : List (Beat s)) (w : Beat s) :
    packetLength (pkt ++ [w]) = packetLength pkt + (kept w.lanes.toList).length := by
  simp [packetLength]

theorem headTuser_concat {s : Nat} {pkt : List (Beat s)} (h : pkt ≠ []) (w : Beat s) :
    headTuser (pkt ++ [w]) = headTuser pkt := by
  cases pkt with
  | nil => exact absurd rfl h
  | cons v pkt => rfl

namespace Converter
variable {s m : Nat} {R : Reader s m} (p : Params)

/-- The registers that prepare a record, after the words of a packet so far. -/
structure Captured (t : Converter R) (rest : List (Beat s)) : Prop where
  length : t.lengthPrev = BitVec.ofNat 16 (packetLength rest)
  state : t.metadataState = .waitStart ↔ rest = []
  tuser : rest ≠ [] → t.tuserInputD = headTuser rest

theorem lengthIn_eq {t : Converter R} {rest : List (Beat s)} (h : Captured t rest) {i : Input s}
    (hw : i.word.Wf) : t.lengthIn i = BitVec.ofNat 16 (packetLength (rest ++ [i.word])) := by
  rw [lengthIn, h.length, localSum_eq hw.contiguous, packetLength_concat, BitVec.ofNat_add]

theorem tuserInput_eq {t : Converter R} {rest : List (Beat s)} (h : Captured t rest) {i : Input s}
    (hwr : t.wrEn i = true) : t.tuserInput i = headTuser (rest ++ [i.word]) := by
  cases hs : t.metadataState with
  | waitStart =>
    rw [tuserInput, hs, h.state.mp hs]
    simp [hwr, headTuser]
  | waitEnd =>
    have hne : rest ≠ [] := by
      rw [Ne, ← h.state, hs]
      simp
    rw [tuserInput, hs, headTuser_concat hne]
    exact h.tuser hne

/-- The record written with the last word of a packet is the packet's. -/
theorem infoDin_eq {t : Converter R} {rest : List (Beat s)} (h : Captured t rest) {i : Input s}
    (hw : i.word.Wf) (hwr : t.wrEn i = true) : t.infoDin p i = record p (rest ++ [i.word]) := by
  rw [infoDin, record, lengthIn_eq h hw, tuserInput_eq h hwr]

theorem captured_step {t : Converter R} {f : Frames (Beat s)} (h : Captured t f.rest)
    {i : Input s} (hw : i.tvalid = true → i.word.Wf) :
    Captured (t.step p i) ((t.accepted i).foldl (Frames.push Beat.tlast) f).rest := by
  cases hwr : t.wrEn i with
  | false =>
    have hacc : t.accepted i = [] := by
      rw [wrEn] at hwr
      simp [accepted, hwr]
    rw [hacc, List.foldl_nil]
    refine ⟨by simp [step, lengthPrevNext, hwr, h.length], ?_, fun hne => ?_⟩
    · rw [← h.state]
      cases hs : t.metadataState <;> simp [step, metadataStateNext, hs, hwr]
    · have ht := h.tuser hne
      cases hs : t.metadataState <;> simp [step, tuserInput, hs, hwr, ht]
  | true =>
    have hv : i.tvalid = true := by
      rw [wrEn, Bool.and_eq_true] at hwr
      exact hwr.1
    have hacc : t.accepted i = [i.word] := by
      rw [wrEn] at hwr
      simp [accepted, hwr]
    rw [hacc, List.foldl_cons, List.foldl_nil]
    cases hl : i.word.tlast with
    | true =>
      rw [Frames.push_last _ hl]
      refine ⟨by simp [step, lengthPrevNext, hwr, hl, packetLength], ?_, by simp⟩
      cases hs : t.metadataState <;> simp [step, metadataStateNext, hs, hwr, hl]
    | false =>
      rw [Frames.push_inner _ hl]
      refine ⟨?_, ?_, fun _ => tuserInput_eq h hwr⟩
      · rw [← lengthIn_eq h (hw hv)]
        simp [step, lengthPrevNext, hwr, hl]
      · cases hs : t.metadataState <;> simp [step, metadataStateNext, hs, hwr, hl]

/-- Ages of the words in the input FIFO that end a packet. -/
def stamps (q : DelayQueue (Beat s)) : List Nat := ages (q.filter (fun e => e.1.tlast))

theorem stamps_tick (q : DelayQueue (Beat s)) (rd : Bool) (wr : Option (Beat s)) :
    stamps (q.tick rd wr) = (stamps (if rd then q.tail else q)).map (· + 1) ++
      (wr.toList.filter Beat.tlast).map (fun _ => 1) := by
  generalize hq : (if rd then q.tail else q) = q'
  have ht : q.tick rd wr =
      q'.map (fun e => (e.1, e.2 + 1)) ++ wr.toList.map (fun v => (v, 1)) := by
    rw [← hq]
    rfl
  rw [ht, stamps, List.filter_append, stamps, List.filter_map, List.filter_map]
  cases wr with
  | none => simp [ages, Function.comp_def]
  | some w => cases hl : w.tlast <;> simp [ages, Function.comp_def, hl]

/-- The record FIFO has an entry for each end of a packet in the input FIFO, as old as that;
the record of a packet that has begun to leave is gone. -/
def Paired (first : Bool) (ends records : List Nat) : Prop :=
  if first then ends = records else ∃ a, ends = a :: records

theorem Paired.later {first : Bool} {ends records : List Nat} (h : Paired first ends records)
    (new : List Nat) : Paired first (ends.map (· + 1) ++ new) (records.map (· + 1) ++ new) := by
  cases first with
  | true =>
    have he : ends = records := h
    rw [he]
    rfl
  | false =>
    obtain ⟨a, rfl⟩ := h
    exact ⟨a + 1, rfl⟩

/-- The words in the input FIFO, less the one a cycle takes. -/
def remaining (t : Converter R) (d : Drive R.Regs m) : List (Beat s) :=
  if d.inFifoRdEn then t.inFifo.vals.tail else t.inFifo.vals

/-- What a cycle of the read side does, whether or not the input FIFO shows a word. -/
structure Served (S : R.Spec) (t : Converter R) (i : Input s) (d : Drive R.Regs m) : Prop where
  ok : S.Ok d.next (t.remaining d)
  bytes : (if d.tvalid && i.tready then syms d.lanes.toList d.tlast else []) ++
    S.owes d.next (t.remaining d) = S.owes t.regs t.inFifo.vals
  record : d.infoFifoRdEn = (d.tvalid && i.tready && S.first t.regs)
  shown : d.tvalid = true → S.first t.regs = true → ∃ v, t.infoFifo.front p.lat = some v
  next : S.first d.next = if d.tvalid && i.tready then d.tlast else S.first t.regs
  ends : stamps (if d.inFifoRdEn then t.inFifo.tail else t.inFifo) =
    if d.tvalid && i.tready && d.tlast then (stamps t.inFifo).tail else stamps t.inFifo
  clean : d.inFifoRdEn = true →
    ∃ w ws, t.inFifo.vals = w :: ws ∧ (w.tlast = true → S.owes d.next [] = [])

theorem stamps_cons (w : Beat s) (n : Nat) (q : DelayQueue (Beat s)) :
    stamps ((w, n) :: q) = (if w.tlast then [n] else []) ++ stamps q := by
  cases hl : w.tlast <;> simp [stamps, ages, hl]

/-- The record of a packet whose last word shows is there as well. -/
theorem record_shows {first : Bool} {w : Beat s} {n lat : Nat} {q : DelayQueue (Beat s)}
    {records : DelayQueue (BitVec 128)} (h : Paired first (stamps ((w, n) :: q)) (ages records))
    (hn : lat ≤ n) (hf : first = true) (hl : w.tlast = true) : ∃ v, records.front lat = some v := by
  have he : stamps ((w, n) :: q) = ages records := by simpa [Paired, hf] using h
  rw [stamps_cons, hl, if_pos rfl, List.singleton_append] at he
  cases records with
  | nil => cases he
  | cons r records =>
    obtain ⟨hr, _⟩ := List.cons.inj he
    exact ⟨r.1, front_of_le (hr ▸ hn)⟩

theorem served (S : R.Spec) {t : Converter R} (hok : S.Ok t.regs t.inFifo.vals)
    (hpair : Paired (S.first t.regs) (stamps t.inFifo) (ages t.infoFifo))
    (hwf : ∀ w ∈ t.inFifo.vals, w.Wf) (i : Input s) : Served p S t i (t.drive p i) := by
  cases hfront : t.inFifo.front p.lat with
  | none =>
    have hd : t.drive p i = ⟨false, false, false, noLanes m, false, t.regs⟩ := by
      rw [drive, hfront]
    rw [hd]
    exact ⟨hok, by simp [remaining], by simp, by simp, by simp, by simp, by simp⟩
  | some w =>
    obtain ⟨n, q, hq, hn⟩ := front_eq_some hfront
    have hd : t.drive p i = R.comb t.regs w (t.infoFifo.front p.lat).isNone i.tready := by
      rw [drive, hfront]
    have hvals : t.inFifo.vals = w :: vals q := by rw [hq, vals_cons]
    rw [hvals] at hok
    rw [hq] at hpair
    have hinfo : S.first t.regs = true → w.tlast = true →
        (t.infoFifo.front p.lat).isNone = false := by
      intro hf hl
      obtain ⟨v, hv⟩ := record_shows hpair hn hf hl
      rw [hv]
      rfl
    have hc := S.cycle hok (hwf w (by simp [hvals])) hinfo i.tready
    rw [← hd] at hc
    refine ⟨?_, ?_, hc.record, ?_, hc.next, ?_, ?_⟩
    · rw [remaining, hvals]
      exact hc.ok
    · rw [remaining, hvals]
      exact hc.bytes
    · intro hv hf
      have he := hc.shown hv hf
      rw [Option.isNone_eq_false_iff, Option.isSome_iff_exists] at he
      exact he
    · rw [hq, ← hc.ends, stamps_cons]
      cases (t.drive p i).inFifoRdEn <;> cases hl : w.tlast <;> simp [stamps_cons, hl]
    · exact fun hrd => ⟨w, vals q, hvals, hc.clean hrd⟩

/-- What relates the words taken, the words handed over and the records taken so far to the
registers. -/
structure Reached (S : R.Spec) (acc : List (Beat s)) (out : List (Beat m))
    (pops : List (BitVec 128)) (t : Converter R) : Prop where
  ok : S.Ok t.regs t.inFifo.vals
  bytes : symbols acc = symbols out ++ S.owes t.regs t.inFifo.vals
  first : S.first t.regs = opens Beat.tlast true out
  paired : Paired (S.first t.regs) (stamps t.inFifo) (ages t.infoFifo)
  records : pops ++ t.infoFifo.vals = (frames Beat.tlast acc).closed.map (record p)
  carried : (openers Beat.tlast true out).map (fun w => label p w.tuser) = pops.map (label p)
  captured : Captured t (frames Beat.tlast acc).rest
  wf : ∀ w ∈ t.inFifo.vals, w.Wf
  suffix : ∃ before, acc = before ++ t.inFifo.vals
  drained : t.inFifo = [] → opens Beat.tlast true acc = true → S.owes t.regs [] = []
  room : t.inFifo.length ≤ inFifoDepth s - 5 ∧ t.infoFifo.length ≤ infoFifoDepth - 5

theorem reached_reset (S : R.Spec) : Reached p S [] [] [] (reset : Converter R) where
  ok := S.ok_reset
  bytes := by simp [symbols, reset, S.owes_reset]
  first := S.first_reset
  paired := by
    simp only [Paired, reset, S.first_reset, if_true]
    rfl
  records := rfl
  carried := rfl
  captured := ⟨rfl, by simp [reset], by simp⟩
  wf := by simp [reset]
  suffix := ⟨[], rfl⟩
  drained := fun _ _ => S.owes_reset
  room := ⟨Nat.zero_le _, Nat.zero_le _⟩

/-- The label of the record FIFO's head is on the output. -/
theorem label_mTuser {t : Converter R} {v : BitVec 128} (h : t.infoFifo.front p.lat = some v)
    (i : Input s) : label p (t.mTuser p i) = label p v := by
  cases he : p.defaultValueEnable with
  | false => simp [label, mTuser, he, h]
  | true =>
    have hlow : ∀ {k : Nat} (a : BitVec k) (b : BitVec 16), (a ++ b).extractLsb' 0 16 = b := by
      intro k a b
      ext j hj
      simp [BitVec.getElem_extractLsb', BitVec.getLsbD_append, hj]
    simp only [label, mTuser, he, h, if_true, Option.getD_some]
    exact congrArg _ (hlow _ _)

theorem accepted_eq (t : Converter R) (i : Input s) :
    t.accepted i = (if t.wrEn i then some i.word else none).toList := by
  rw [accepted, ← wrEn]
  cases t.wrEn i <;> rfl

theorem symbols_handed (t : Converter R) (i : Input s) :
    symbols (t.handed p i) = if (t.drive p i).tvalid && i.tready
      then syms (t.drive p i).lanes.toList (t.drive p i).tlast else [] := by
  rw [handed]
  cases (t.drive p i).tvalid && i.tready <;> simp [symbols]

/-- Ends of packets and records after what a cycle takes from the two FIFOs. -/
theorem paired_read {S : R.Spec} {t : Converter R} {i : Input s}
    (hs : Served p S t i (t.drive p i))
    (h : Paired (S.first t.regs) (stamps t.inFifo) (ages t.infoFifo)) :
    Paired (S.first (t.drive p i).next)
      (stamps (if (t.drive p i).inFifoRdEn then t.inFifo.tail else t.inFifo))
      (if (t.drive p i).infoFifoRdEn then (ages t.infoFifo).tail else ages t.infoFifo) := by
  rw [hs.ends, hs.record, hs.next]
  cases hh : (t.drive p i).tvalid && i.tready with
  | false => simpa [hh] using h
  | true =>
    have hv : (t.drive p i).tvalid = true := (Bool.and_eq_true_iff.mp hh).1
    cases hf : S.first t.regs with
    | true =>
      obtain ⟨v, hfront⟩ := hs.shown hv hf
      obtain ⟨n, q, hq, _⟩ := front_eq_some hfront
      have he : stamps t.inFifo = ages t.infoFifo := by simpa [Paired, hf] using h
      rw [hq] at he ⊢
      cases (t.drive p i).tlast <;> simp [Paired, he, ages]
    | false =>
      obtain ⟨a, ha⟩ : ∃ a, stamps t.inFifo = a :: ages t.infoFifo := by simpa [Paired, hf] using h
      cases (t.drive p i).tlast <;> simp [Paired, ha]

@[simp] theorem regs_step (t : Converter R) (i : Input s) :
    (t.step p i).regs = (t.drive p i).next := rfl

section Step
variable {S : R.Spec} {acc : List (Beat s)} {out : List (Beat m)} {pops : List (BitVec 128)}
  {t : Converter R} {i : Input s}

theorem records_step (h : Reached p S acc out pops t) (hw : i.tvalid = true → i.word.Wf) :
    pops ++ t.popped p i ++ (t.step p i).infoFifo.vals =
      (frames Beat.tlast (acc ++ t.accepted i)).closed.map (record p) := by
  have hread : t.popped p i ++ (if (t.drive p i).infoFifoRdEn then t.infoFifo.vals.tail
      else t.infoFifo.vals) = t.infoFifo.vals := by
    rw [popped]
    cases (t.drive p i).infoFifoRdEn with
    | false => rfl
    | true => cases t.infoFifo.vals <;> rfl
  have hvals : (t.step p i).infoFifo.vals =
      (if (t.drive p i).infoFifoRdEn then t.infoFifo.vals.tail else t.infoFifo.vals) ++
        (if t.infoFifoWrEn i then some (t.infoDin p i) else none).toList := vals_tick _ _ _
  rw [hvals, ← List.append_assoc, List.append_assoc pops, hread, h.records, frames_append]
  cases hwr : t.wrEn i with
  | false => simp [accepted_eq, infoFifoWrEn, hwr]
  | true =>
    have hv : i.tvalid = true := (Bool.and_eq_true_iff.mp hwr).1
    have hacc : t.accepted i = [i.word] := by simp [accepted_eq, hwr]
    rw [hacc, List.foldl_cons, List.foldl_nil]
    cases hl : i.word.tlast with
    | false => simp [Frames.push_inner _ hl, infoFifoWrEn, hl]
    | true =>
      rw [Frames.push_last _ hl, List.map_append, List.map_singleton,
        ← infoDin_eq p h.captured (hw hv) hwr]
      simp [infoFifoWrEn, hwr, hl]

theorem carried_step (h : Reached p S acc out pops t) (hs : Served p S t i (t.drive p i)) :
    (openers Beat.tlast true (out ++ t.handed p i)).map (fun w => label p w.tuser) =
      (pops ++ t.popped p i).map (label p) := by
  rw [popped, hs.record]
  cases hh : (t.drive p i).tvalid && i.tready with
  | false => simp [handed, hh, h.carried]
  | true =>
    have hv : (t.drive p i).tvalid = true := (Bool.and_eq_true_iff.mp hh).1
    rw [handed, hh, if_pos rfl, openers_concat, ← h.first, List.map_append, h.carried]
    cases hf : S.first t.regs with
    | false => simp
    | true =>
      obtain ⟨v, hfront⟩ := hs.shown hv hf
      obtain ⟨n, q, hq, _⟩ := front_eq_some hfront
      simp [label_mTuser p hfront, hq]

theorem room_step (h : Reached p S acc out pops t) :
    (t.step p i).inFifo.length ≤ inFifoDepth s - 5 ∧
      (t.step p i).infoFifo.length ≤ infoFifoDepth - 5 := by
  have htail : ∀ {α : Type} (rd : Bool) (q : List α),
      (if rd then q.tail else q).length ≤ q.length := by
    intro α rd q
    cases rd <;> simp
  have hin : (t.step p i).inFifo.length ≤ t.inFifo.length +
      (if t.wrEn i then some i.word else none).toList.length :=
    (length_tick _ _ _).trans_le (Nat.add_le_add_right (htail _ _) _)
  have hinfo : (t.step p i).infoFifo.length ≤ t.infoFifo.length +
      (if t.infoFifoWrEn i then some (t.infoDin p i) else none).toList.length :=
    (length_tick _ _ _).trans_le (Nat.add_le_add_right (htail _ _) _)
  obtain ⟨hr1, hr2⟩ := h.room
  cases hwr : t.wrEn i with
  | false =>
    simp only [hwr, infoFifoWrEn, Bool.false_and, Bool.false_eq_true, if_false, Option.toList_none,
      List.length_nil] at hin hinfo
    omega
  | true =>
    have hready : t.sTready = true := (Bool.and_eq_true_iff.mp hwr).2
    have h1 : (if t.wrEn i then some i.word else none).toList.length ≤ 1 := by
      cases t.wrEn i <;> simp
    have h2 : (if t.infoFifoWrEn i then some (t.infoDin p i) else none).toList.length ≤ 1 := by
      cases t.infoFifoWrEn i <;> simp
    simp only [sTready, Bool.and_eq_true, Bool.not_eq_true', decide_eq_false_iff_not] at hready
    omega

theorem vals_step : (t.step p i).inFifo.vals = t.remaining (t.drive p i) ++ t.accepted i := by
  rw [accepted_eq]
  exact vals_tick _ _ _

/-- The word taken on `s_axis` adds itself to what the read side owes. -/
theorem owes_write (hs : Served p S t i (t.drive p i)) :
    S.Ok (t.step p i).regs (t.step p i).inFifo.vals ∧
      S.owes (t.step p i).regs (t.step p i).inFifo.vals =
        S.owes (t.drive p i).next (t.remaining (t.drive p i)) ++ symbols (t.accepted i) := by
  have hok := hs.ok
  rw [regs_step, vals_step, accepted_eq]
  cases t.wrEn i with
  | false => simpa [symbols] using hok
  | true => simpa [symbols] using S.write hok i.word

theorem bytes_step (h : Reached p S acc out pops t) (hs : Served p S t i (t.drive p i)) :
    symbols (acc ++ t.accepted i) = symbols (out ++ t.handed p i) ++
      S.owes (t.step p i).regs (t.step p i).inFifo.vals := by
  rw [(owes_write p hs).2, symbols_append, symbols_append, h.bytes, ← hs.bytes, symbols_handed]
  simp only [List.append_assoc]

theorem first_step (h : Reached p S acc out pops t) (hs : Served p S t i (t.drive p i)) :
    S.first (t.step p i).regs = opens Beat.tlast true (out ++ t.handed p i) := by
  rw [regs_step, hs.next, handed]
  cases (t.drive p i).tvalid && i.tready with
  | false => simpa using h.first
  | true => simp

theorem paired_step (h : Reached p S acc out pops t) (hs : Served p S t i (t.drive p i)) :
    Paired (S.first (t.step p i).regs) (stamps (t.step p i).inFifo)
      (ages (t.step p i).infoFifo) := by
  have hstamps : stamps (t.step p i).inFifo = _ := stamps_tick _ _ _
  have hages : ages (t.step p i).infoFifo = _ := ages_tick _ _ _
  -- Both FIFOs gain an entry in the same cycles.
  have hnew : ((if t.wrEn i then some i.word else none).toList.filter Beat.tlast).map
      (fun _ => 1) =
        (if t.infoFifoWrEn i then some (t.infoDin p i) else none).toList.map (fun _ => 1) := by
    rw [infoFifoWrEn]
    cases t.wrEn i <;> cases hl : i.word.tlast <;> simp [hl]
  rw [hstamps, hages, hnew]
  exact (paired_read p hs h.paired).later _

theorem wf_step (h : Reached p S acc out pops t) (hw : i.tvalid = true → i.word.Wf) :
    ∀ w ∈ (t.step p i).inFifo.vals, w.Wf := by
  intro w hm
  rw [vals_step, List.mem_append] at hm
  rcases hm with hm | hm
  · apply h.wf
    rw [remaining] at hm
    cases hrd : (t.drive p i).inFifoRdEn with
    | false => simpa [hrd] using hm
    | true =>
      rw [hrd, if_pos rfl] at hm
      exact List.mem_of_mem_tail hm
  · rw [accepted] at hm
    cases hv : i.tvalid && t.sTready with
    | false => simp [hv] at hm
    | true =>
      rw [hv, if_pos rfl, List.mem_singleton] at hm
      rw [hm]
      exact hw (Bool.and_eq_true_iff.mp hv).1

theorem suffix_step (h : Reached p S acc out pops t) :
    ∃ before, acc ++ t.accepted i = before ++ (t.step p i).inFifo.vals := by
  obtain ⟨before, hb⟩ := h.suffix
  refine ⟨before ++ if (t.drive p i).inFifoRdEn then t.inFifo.vals.take 1 else [], ?_⟩
  rw [vals_step, hb, remaining]
  cases (t.drive p i).inFifoRdEn with
  | false => simp
  | true => cases t.inFifo.vals <;> simp

/-- Nothing is owed once the FIFO is empty behind the end of a packet. -/
theorem drained_step (h : Reached p S acc out pops t) (hs : Served p S t i (t.drive p i))
    (hnil : (t.step p i).inFifo = []) (hopen : opens Beat.tlast true (acc ++ t.accepted i) = true) :
    S.owes (t.step p i).regs [] = [] := by
  have hv : t.remaining (t.drive p i) ++ t.accepted i = [] := by rw [← vals_step, hnil, vals_nil]
  obtain ⟨hr, ha⟩ := List.append_eq_nil_iff.mp hv
  rw [ha, List.append_nil] at hopen
  rw [regs_step]
  cases hrd : (t.drive p i).inFifoRdEn with
  | true =>
    -- The word taken was the last of the FIFO, and it ends a packet.
    obtain ⟨w, ws, hw, hclean⟩ := hs.clean hrd
    obtain ⟨before, hb⟩ := h.suffix
    rw [remaining, hrd, if_pos rfl, hw, List.tail_cons] at hr
    rw [hb, hw, hr, opens_concat] at hopen
    exact hclean hopen
  | false =>
    have hbytes := hs.bytes
    rw [hr] at hbytes
    rw [remaining, hrd, if_neg (by simp)] at hr
    have hq : t.inFifo = [] := List.map_eq_nil_iff.mp hr
    rw [hr, h.drained hq hopen] at hbytes
    exact (List.append_eq_nil_iff.mp hbytes).2

theorem reached_step (h : Reached p S acc out pops t) (hw : i.tvalid = true → i.word.Wf) :
    Reached p S (acc ++ t.accepted i) (out ++ t.handed p i) (pops ++ t.popped p i)
      (t.step p i) := by
  have hs := served p S h.ok h.paired h.wf i
  have hcap := captured_step p h.captured hw
  rw [← frames_append] at hcap
  exact ⟨(owes_write p hs).1, bytes_step p h hs, first_step p h hs, paired_step p h hs,
    records_step p h hw, carried_step p h hs, hcap, wf_step p h hw, suffix_step p h,
    drained_step p h hs, room_step p h⟩

end Step

section Runs
variable (R)

/-- Registers after a run from reset. -/
def after (ins : List (Input s)) : Converter R := (machine p).run reset ins

/-- Words a run takes. -/
def taken (ins : List (Input s)) : List (Beat s) :=
  (machine p).collect accepted (reset : Converter R) ins

/-- Words a run hands over. -/
def given (ins : List (Input s)) : List (Beat m) :=
  (machine p).collect (handed p) (reset : Converter R) ins

/-- Records a run takes from the record FIFO. -/
def pops (ins : List (Input s)) : List (BitVec 128) :=
  (machine p).collect (popped p) (reset : Converter R) ins

variable {R}

theorem reached_run (S : R.Spec) {ins : List (Input s)}
    (h : ∀ i ∈ ins, i.tvalid = true → i.word.Wf) :
    Reached p S (taken R p ins) (given R p ins) (pops R p ins) (after R p ins) := by
  refine (machine p).run_keeps ((machine p).along_of_forall h)
    (fun past t => Reached p S (taken R p past) (given R p past) (pops R p past) t)
    (reached_reset p S) ?_
  intro past i hp hi
  have hstep := reached_step p hp hi
  rw [taken, given, pops, Machine.collect_concat, Machine.collect_concat, Machine.collect_concat]
  exact hstep

end Runs

/-- A cycle in which nothing arrives and the receiver is ready. -/
def quiet : Input s := ⟨false, ⟨noLanes s, 0, false⟩, true, 0, false, 0⟩

/-- Falls as the input FIFO is read. -/
def rank (S : R.Spec) (t : Converter R) : Nat :=
  (S.bound + 1) * t.inFifo.length + S.left t.regs

theorem rank_step {S : R.Spec} {acc : List (Beat s)} {out : List (Beat m)}
    {pops : List (BitVec 128)} {t : Converter R} (h : Reached p S acc out pops t)
    (hin : t.inFifo.Mature p.lat) (hinfo : t.infoFifo.Mature p.lat)
    (hne : stamps t.inFifo ≠ []) : rank S (t.step p quiet) < rank S t := by
  have hq : t.inFifo ≠ [] := by
    intro he
    rw [he] at hne
    exact hne rfl
  obtain ⟨w, a, q, hq, hfront⟩ := hin.front hq
  have hrecord : S.first t.regs = true → (t.infoFifo.front p.lat).isNone = false := by
    intro hf
    have hp : stamps t.inFifo = ages t.infoFifo := by simpa [Paired, hf] using h.paired
    have hne' : t.infoFifo ≠ [] := by
      intro he
      rw [hp, he] at hne
      exact hne rfl
    obtain ⟨v, _, _, _, hv⟩ := hinfo.front hne'
    rw [hv]
    rfl
  have hvals : t.inFifo.vals = w :: vals q := by rw [hq, vals_cons]
  have hok := h.ok
  rw [hvals] at hok
  have hprog := S.progress hok (h.wf w (by simp [hvals])) hrecord
  have hd : t.drive p quiet = R.comb t.regs w (t.infoFifo.front p.lat).isNone true := by
    rw [drive, hfront]
    rfl
  rw [← hd] at hprog
  have hlen : (t.step p quiet).inFifo.length =
      (if (t.drive p quiet).inFifoRdEn then t.inFifo.tail else t.inFifo).length :=
    (length_tick _ _ _).trans (Nat.add_zero _)
  have hleft := S.left_le (t.drive p quiet).next
  rw [rank, rank, hlen, regs_step, hq]
  cases hrd : (t.drive p quiet).inFifoRdEn with
  | true =>
    simp only [if_true, List.tail_cons, List.length_cons, Nat.mul_succ]
    omega
  | false =>
    rw [hrd] at hprog
    simp only [Bool.false_eq_true, false_or, if_false] at hprog ⊢
    omega

/-- A record, or more words than the open packet has, means the end of a packet. -/
theorem stamps_ne_nil {S : R.Spec} {acc : List (Beat s)} {out : List (Beat m)}
    {pops : List (BitVec 128)} {t : Converter R} (h : Reached p S acc out pops t)
    (hmore : (frames Beat.tlast acc).rest.length < t.inFifo.length ∨ t.infoFifo ≠ []) :
    stamps t.inFifo ≠ [] := by
  intro hnil
  rcases hmore with hlong | hrec
  · obtain ⟨before, hb⟩ := h.suffix
    have hinner : ∀ v ∈ t.inFifo.vals, v.tlast = false := by
      intro v hv
      obtain ⟨e, he, rfl⟩ := List.mem_map.mp hv
      have hf := List.filter_eq_nil_iff.mp (List.map_eq_nil_iff.mp hnil) e he
      simpa using hf
    have hle := length_le_rest Beat.tlast before t.inFifo.vals hinner
    rw [← hb, length_vals] at hle
    omega
  · have hp := h.paired
    rw [hnil, Paired] at hp
    split at hp
    · exact hrec (List.map_eq_nil_iff.mp hp.symm)
    · obtain ⟨a, ha⟩ := hp
      cases ha

theorem quiet_run (R : Reader s m) (ins : List (Input s)) (k : Nat) :
    taken R p (ins ++ List.replicate k quiet) = taken R p ins ∧
      (after R p (ins ++ List.replicate k quiet)).inFifo.Mature k ∧
      (after R p (ins ++ List.replicate k quiet)).infoFifo.Mature k := by
  induction k with
  | zero => exact ⟨by simp, fun _ _ => Nat.zero_le _, fun _ _ => Nat.zero_le _⟩
  | succ k ih =>
    rw [List.replicate_succ', ← List.append_assoc]
    refine ⟨?_, ?_, ?_⟩
    · have hnone : ∀ t : Converter R, t.accepted quiet = [] := by simp [accepted, quiet]
      rw [taken, Machine.collect_concat, hnone, List.append_nil]
      exact ih.1
    · rw [after, Machine.run_concat]
      exact ih.2.1.tick _
    · rw [after, Machine.run_concat]
      exact ih.2.2.tick _

theorem quiet_wf {ins : List (Input s)} (h : ∀ i ∈ ins, i.tvalid = true → i.word.Wf) (k : Nat) :
    ∀ i ∈ ins ++ List.replicate k quiet, i.tvalid = true → i.word.Wf := by
  intro i hi hv
  rcases List.mem_append.mp hi with hi | hi
  · exact h i hi hv
  · rw [(List.mem_replicate.mp hi).2] at hv
    cases hv

/-- With a ready receiver, the packets in the FIFO leave until a goal that only they keep
off is reached. -/
theorem reaches (S : R.Spec) {ins : List (Input s)} (h : ∀ i ∈ ins, i.tvalid = true → i.word.Wf)
    (goal : Converter R → Prop)
    (hgoal : ∀ t : Converter R, ¬ goal t →
      (frames Beat.tlast (taken R p ins)).rest.length < t.inFifo.length ∨ t.infoFifo ≠ []) :
    ∃ k, goal (after R p (ins ++ List.replicate k quiet)) := by
  have hreach := (machine p).run_reaches quiet
    (fun t => ∃ k, p.lat ≤ k ∧ t = after R p (ins ++ List.replicate k quiet))
    goal (rank S) ?_ (s := after R p (ins ++ List.replicate p.lat quiet))
    ⟨p.lat, Nat.le_refl _, rfl⟩
  · obtain ⟨k, hk⟩ := hreach
    refine ⟨p.lat + k, ?_⟩
    rw [List.replicate_add, ← List.append_assoc, after, Machine.run_append]
    exact hk
  · rintro t ⟨k, hk, rfl⟩ hnot
    obtain ⟨hacc, hin, hinfo⟩ := quiet_run p R ins k
    have hr := reached_run p S (quiet_wf h k)
    rw [hacc] at hr
    have hne := stamps_ne_nil p hr (hgoal _ hnot)
    refine .inr ⟨⟨k + 1, by omega, ?_⟩, ?_⟩
    · rw [List.replicate_succ', ← List.append_assoc, after, after, Machine.run_concat]
    · exact rank_step p hr (fun e he => hk.trans (hin e he)) (fun e he => hk.trans (hinfo e he)) hne

/-- The first words of the packets handed over carry what the converter says of the packets
taken: their lengths, or the side bands of their first words. -/
def Labelled (out : List (Beat m)) (pkts : List (List (Beat s))) : Prop :=
  if p.defaultValueEnable then
    (openers Beat.tlast true out).map (fun w => w.tuser.extractLsb' 0 16) =
      pkts.map (fun pkt => BitVec.ofNat 16 (packetLength pkt))
  else (openers Beat.tlast true out).map Beat.tuser = pkts.map headTuser

theorem labelled_of_records {out : List (Beat m)} {pkts : List (List (Beat s))}
    (h : (openers Beat.tlast true out).map (fun w => label p w.tuser) =
      (pkts.map (record p)).map (label p)) : Labelled p out pkts := by
  rw [List.map_map] at h
  cases he : p.defaultValueEnable with
  | false =>
    rw [Labelled, he, if_neg (by simp)]
    simpa [label, record, he, Function.comp_def] using h
  | true =>
    have hlow : ∀ u : BitVec 16, (u.setWidth 128).extractLsb' 0 16 = u := by
      intro u
      ext j hj
      have hlow : j < 128 := by omega
      simp [BitVec.getElem_extractLsb', hlow, BitVec.getLsbD_eq_getElem hj]
    have hh := congrArg (List.map (fun u : BitVec 128 => u.extractLsb' 0 16)) h
    rw [Labelled, he, if_pos rfl]
    simpa [label, record, he, Function.comp_def, hlow] using hh

/-- On well-formed words, in every width case: the byte stream handed over, with its packet
boundaries, is a beginning of the one taken; the first words of the packets handed over so
far carry the packets' lengths or side bands, one record taken for each; the FIFOs do not
overflow; with a ready receiver a word of a packet that fits below the threshold is let in,
and once whole packets have been taken the two streams become equal. -/
theorem conversion (c : Widths s m) (ins : List (Input s))
    (h : ∀ i ∈ ins, i.tvalid = true → i.word.Wf) :
    let f := frames Beat.tlast (taken (reader c) p ins)
    symbols (given (reader c) p ins) <+: symbols (taken (reader c) p ins) ∧
      (∃ n ≤ f.closed.length, Labelled p (given (reader c) p ins) (f.closed.take n) ∧
        (pops (reader c) p ins).length = n) ∧
      (after (reader c) p ins).inFifo.length ≤ inFifoDepth s ∧
      (after (reader c) p ins).infoFifo.length ≤ infoFifoDepth ∧
      (f.rest.length < inFifoDepth s - 5 →
        ∃ k, (after (reader c) p (ins ++ List.replicate k quiet)).sTready = true) ∧
      (f.rest = [] → ∃ k,
        symbols (given (reader c) p (ins ++ List.replicate k quiet)) =
            symbols (taken (reader c) p ins) ∧
          Labelled p (given (reader c) p (ins ++ List.replicate k quiet)) f.closed ∧
          (pops (reader c) p (ins ++ List.replicate k quiet)).length = f.closed.length) := by
  have hr := reached_run p (readerSpec c) h
  obtain ⟨h1, h2⟩ := hr.room
  refine ⟨⟨_, hr.bytes.symm⟩, ?_, by omega, by omega, ?_, ?_⟩
  · have hlen := congrArg List.length hr.records
    rw [List.length_append, List.length_map] at hlen
    refine ⟨_, by omega, labelled_of_records p ?_, rfl⟩
    rw [List.map_take, ← hr.records, List.take_left, hr.carried]
  · intro hfit
    refine reaches p (readerSpec c) h (fun t => t.sTready = true) (fun t ht => ?_)
    by_cases hin : inFifoDepth s - 5 ≤ t.inFifo.length
    · left
      omega
    · right
      intro he
      simp [sTready, hin, he, infoFifoDepth] at ht
  · intro hrest
    obtain ⟨k, hk⟩ := reaches p (readerSpec c) h (fun t => t.inFifo = []) (fun t ht => by
      left
      rw [hrest]
      exact List.length_pos_iff.mpr ht)
    have hr' := reached_run p (readerSpec c) (quiet_wf h k)
    rw [(quiet_run p (reader c) ins k).1] at hr'
    have hopen := (opens_iff_rest Beat.tlast _).mpr hrest
    have hinfo : (after (reader c) p (ins ++ List.replicate k quiet)).infoFifo = [] := by
      by_contra hne
      exact stamps_ne_nil p hr' (.inr hne) (by rw [hk]; rfl)
    have hrec := hr'.records
    rw [hinfo, vals_nil, List.append_nil] at hrec
    refine ⟨k, ?_, labelled_of_records p (by rw [← hrec]; exact hr'.carried), ?_⟩
    · have hb := hr'.bytes
      rw [hk, vals_nil, hr'.drained hk hopen, List.append_nil] at hb
      exact hb.symm
    · rw [hrec, List.length_map]

/-- A packet of two bytes, one in each word. -/
def twoBytes : List (Input 1) :=
  [⟨true, ⟨#v[⟨1, true⟩], 7, false⟩, true, 0, false, 0⟩,
    ⟨true, ⟨#v[⟨2, true⟩], 0, true⟩, true, 0, false, 0⟩]

theorem conversion_twoBytes :
    (∀ i ∈ twoBytes, i.tvalid = true → i.word.Wf) ∧
      ∃ k, symbols (given (masterWider 1 1) ⟨true, 0, 1⟩ (twoBytes ++ List.replicate k quiet)) =
        symbols (taken (masterWider 1 1) ⟨true, 0, 1⟩ twoBytes) := by
  have hw : ∀ i ∈ twoBytes, i.tvalid = true → i.word.Wf := by
    intro i hi _
    simp only [twoBytes, List.mem_cons, List.not_mem_nil, or_false] at hi
    rcases hi with rfl | rfl
    · simp [Beat.Wf]
    · refine ⟨⟨1, fun j hj => ?_⟩, by simp [kept]⟩
      have hj0 : j = 0 := by simpa using hj
      simp [hj0]
  have hrest : (frames Beat.tlast (taken (masterWider 1 1) ⟨true, 0, 1⟩ twoBytes)).rest = [] := by
    decide +kernel
  obtain ⟨k, hk, _⟩ :=
    (conversion ⟨true, 0, 1⟩ (.masterWider 1 1 Nat.one_pos) twoBytes hw).2.2.2.2.2 hrest
  exact ⟨hw, k, hk⟩

end Converter
end Osnt.AxisConverter
