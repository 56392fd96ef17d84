import Mathlib.Data.List.Chain
import Osnt.InterPacketDelay
import Osnt.Lib.Framing
import Osnt.Proofs.Fifo

/-! When packets leave the delay stage: what is loaded as one packet leaves keeps back
the next one. -/
namespace Osnt.InterPacketDelay
open Lib

/-- `tuser[63:32]`, where a packet's first word carries its stamp. -/
def stampOf (w : Word) : BitVec 32 := w.tuser.extractLsb' 32 32

/-- What an observer of the output remembers: whether the next word begins a packet, and
the cycle and stamp of the first word of the last packet begun. -/
structure Monitor where
  first : Bool
  head : Option (Nat × BitVec 32)

/-- The observer, fed with the words handed over and their cycles. -/
def monitor : Machine Monitor (Nat × Word) :=
  ⟨fun m e => ⟨e.2.tlast, if m.first then some (e.1, stampOf e.2) else m.head⟩⟩

def Monitor.start : Monitor := ⟨true, none⟩

/-- A packet begins no earlier than the one before it and that one's stamp allow. -/
def Spaced (m : Monitor) (e : Nat × Word) : Prop :=
  m.first = true → ∀ h ∈ m.head, h.1 + h.2.toNat ≤ e.1

/-- Inputs under which the stage delays by the stamps. -/
def Stamping (i : Input) : Prop := i.swRst = false ∧ i.ipdEn = true ∧ i.useRegVal = false

/-- Inputs under which the stage delays. -/
def Enabled (i : Input) : Prop := i.swRst = false ∧ i.ipdEn = true

instance (i : Input) : Decidable (Enabled i) := inferInstanceAs (Decidable (_ ∧ _))

theorem Stamping.enabled {i : Input} (h : Stamping i) : Enabled i := ⟨h.1, h.2.1⟩

/-- The delay asked for by a packet whose first word leaves under an input. -/
def delayFor (i : Input) (w : Word) : BitVec 32 := if i.useRegVal then i.delayRegVal else stampOf w

theorem Stamping.delayFor {i : Input} (h : Stamping i) (w : Word) :
    delayFor i w = stampOf w := by
  rw [InterPacketDelay.delayFor, h.2.2]
  rfl

/-- A packet's first word as it leaves: the cycle, the word and the delay behind it. -/
abbrev Start := Nat × Word × BitVec 32

/-- The cycle before which the next packet does not begin. -/
def Start.due (a : Start) : Nat := a.1 + a.2.2.toNat

namespace Ipd

/-- Words handed over, with the cycles they are handed over in. -/
def departures (s : Ipd) (ins : List Input) : List (Nat × Word) := machine.schedule handed s ins

/-- A cycle hands over the word on the FIFO's output or nothing. -/
theorem comb_cases (s : Ipd) {i : Input} (h : Enabled i) :
    (s.handed i = [] ∧ (s.comb i).rdEn = false ∧ (s.comb i).delayVal = s.delayVal ∧
        (s.comb i).state = s.state) ∨
      (s.handed i = [s.fifo.dout] ∧ (s.comb i).rdEn = true ∧ s.fifo.doutValid = true ∧
        (s.comb i).state = (if s.fifo.dout.tlast then .header else .body) ∧
        ((s.state = .header ∧ s.delayVal.ule s.timerTicks = true ∧ (s.comb i).delayVal =
            s.timerTicks + (delayFor i s.fifo.dout).setWidth 64) ∨
          (s.state = .body ∧ (s.comb i).delayVal = s.delayVal))) := by
  obtain ⟨_, hen⟩ := h
  cases hs : s.state <;> cases hd : s.fifo.doutValid <;> cases ht : i.tready <;>
    cases hu : s.delayVal.ule s.timerTicks <;>
    simp [handed, comb, hen, hs, FallthroughFifo.empty, hd, ht, hu, delayOf, delayFor, stampOf]

/-- A word is offered as soon as it shows, the first of a packet not before its time. -/
theorem offered_iff (s : Ipd) {i : Input} (h : Enabled i) :
    (s.comb i).mTvalid = true ↔ s.fifo.empty = false ∧
      (s.state = .header → s.delayVal.ule s.timerTicks = true) := by
  obtain ⟨_, hen⟩ := h
  cases hs : s.state <;> cases hd : s.fifo.doutValid <;> cases ht : i.tready <;>
    cases hu : s.delayVal.ule s.timerTicks <;>
    simp [comb, hen, hs, FallthroughFifo.empty, hd, ht, hu]

/-- The input side does not depend on what the output side does. -/
theorem comb_input (s : Ipd) {i : Input} (h : Enabled i) :
    (s.comb i).sTready = !s.fifo.nearlyFull ∧
      (s.comb i).wrEn = (!s.fifo.nearlyFull && i.tvalid) := by
  obtain ⟨_, hen⟩ := h
  cases hs : s.state <;> cases hd : s.fifo.doutValid <;> cases ht : i.tready <;>
    cases hu : s.delayVal.ule s.timerTicks <;>
    simp [comb, hen, hs, FallthroughFifo.empty, hd, ht, hu]

theorem accepted_eq (s : Ipd) {i : Input} (h : Enabled i) :
    s.accepted i = if (s.comb i).wrEn then [i.word] else [] := by
  rw [accepted, (s.comb_input h).1, (s.comb_input h).2, Bool.and_comm]

theorem full_of_wrEn (s : Ipd) {i : Input} (h : Enabled i) (hw : (s.comb i).wrEn = true) :
    s.fifo.full = false := by
  rw [(s.comb_input h).2, Bool.and_eq_true, Bool.not_eq_true'] at hw
  exact FallthroughFifo.full_of_nearlyFull hw.1

theorem handed_eq (s : Ipd) {i : Input} (h : Enabled i) :
    s.handed i = if (s.comb i).rdEn && s.fifo.doutValid then [s.fifo.dout] else [] := by
  rcases s.comb_cases h with ⟨hh, hr, _⟩ | ⟨hh, hr, hd, _⟩
  · simp [hh, hr]
  · simp [hh, hr, hd]

theorem step_of_enabled (s : Ipd) {i : Input} (h : Enabled i) :
    s.step i = ⟨s.fifo.step (s.comb i).wrEn i.word (s.comb i).rdEn, (s.comb i).state,
      s.timerTicks + 1, (s.comb i).delayVal⟩ := by
  simp [step, h.1]

/-- Words taken from the source have left the stage or wait in its FIFO. -/
theorem accepted_run (s : Ipd) {ins : List Input} (h : ∀ i ∈ ins, Enabled i) :
    machine.collect accepted s.reset ins =
      machine.collect handed s.reset ins ++ (machine.run s.reset ins).fifo.contents := by
  have hflow := FallthroughFifo.flow_run machine Enabled (fun t => t.fifo)
    (fun t i => (t.comb i).wrEn) (fun t i => (t.comb i).rdEn) (fun _ i => i.word)
    (fun t i hi => congrArg Ipd.fifo (t.step_of_enabled hi)) (fun t i hi => t.full_of_wrEn hi)
    (s := s.reset) (FallthroughFifo.sound_reset _) h
  have hnil : s.reset.fifo.contents = [] := FallthroughFifo.contents_reset _
  rw [hnil, List.nil_append] at hflow
  rw [machine.collect_congr (fun t i hi => t.accepted_eq (h i hi)),
    machine.collect_congr (fun t i hi => t.handed_eq (h i hi))]
  exact hflow.2

/-- Words handed over, each with the delay it would ask for. -/
def events (s : Ipd) (i : Input) : List (Word × BitVec 32) :=
  (s.handed i).map (fun w => (w, delayFor i w))

/-- The first words of the packets handed over, in order. -/
def begun (s : Ipd) (ins : List Input) : List Start :=
  openers (fun a : Start => a.2.1.tlast) true (machine.schedule events s ins)

/-- Whether every packet begun has been handed over whole. -/
def between (s : Ipd) (ins : List Input) : Bool :=
  opens Word.tlast true (machine.collect handed s ins)

theorem opens_events (s : Ipd) (ins : List Input) :
    opens (fun a : Start => a.2.1.tlast) true (machine.schedule events s ins) =
      between s ins := by
  have hwords : (machine.schedule events s ins).map (fun a : Start => a.2.1) =
      machine.collect handed s ins := by
    have hfst := machine.collect_map Prod.fst events s ins
    rw [← machine.schedule_snd, List.map_map] at hfst
    refine hfst.trans (machine.collect_congr ?_ s)
    intro t i _
    rw [events, List.map_map]
    exact List.map_id _
  rw [between, ← hwords]
  exact (opens_map (fun a : Start => a.2.1.tlast) (fun _ => rfl) true _).symm

theorem between_concat (s : Ipd) (past : List Input) (i : Input) {w : Word}
    (hw : (machine.run s past).handed i = [w]) : between s (past ++ [i]) = w.tlast := by
  rw [between, Machine.collect_concat, hw, opens_concat]

theorem begun_concat_nil {s : Ipd} {past : List Input} {i : Input}
    (hw : (machine.run s past).handed i = []) : begun s (past ++ [i]) = begun s past := by
  rw [begun, Machine.schedule_concat, events, hw]
  exact congrArg _ (List.append_nil _)

theorem begun_concat {s : Ipd} {past : List Input} {i : Input} {w : Word}
    (hw : (machine.run s past).handed i = [w]) :
    begun s (past ++ [i]) =
      begun s past ++ if between s past then [(past.length, w, delayFor i w)] else [] := by
  rw [begun, Machine.schedule_concat, events, hw]
  refine (openers_concat _ true _ _).trans ?_
  rw [opens_events]
  rfl

/-- The cycle before which the next packet does not begin; zero if none has begun. -/
def nextDue (starts : List Start) : Nat := (starts.getLast?.map Start.due).getD 0

theorem nextDue_concat (starts : List Start) (a : Start) : nextDue (starts ++ [a]) = a.due := by
  simp [nextDue]

theorem due_le_nextDue {starts : List Start} {n : Nat} :
    nextDue starts ≤ n ↔ ∀ a ∈ starts.getLast?, a.due ≤ n := by
  cases h : starts.getLast? with
  | none => simp [nextDue, h]
  | some a => simp [nextDue, h]

/-- Packets begin no earlier than the packet before them allows. -/
def Apart (starts : List Start) : Prop := starts.IsChain (fun a b => a.due ≤ b.1)

theorem Apart.concat {starts : List Start} (h : Apart starts) {a : Start}
    (ha : nextDue starts ≤ a.1) : Apart (starts ++ [a]) := by
  refine List.isChain_append.mpr ⟨h, List.isChain_singleton a, ?_⟩
  intro x hx y hy
  rw [List.head?_cons, Option.mem_def, Option.some.injEq] at hy
  subst hy
  exact due_le_nextDue.mp ha x hx

/-- How the registers stand to what has been handed over. -/
structure Spacing (s : Ipd) (past : List Input) (t : Ipd) : Prop where
  timer : t.timerTicks = BitVec.ofNat 64 past.length
  first : between s past = decide (t.state = .header)
  delay : t.delayVal = BitVec.ofNat 64 (nextDue (begun s past))
  apart : Apart (begun s past)

theorem Spacing.reset (s : Ipd) : Spacing s.reset [] s.reset := ⟨rfl, rfl, rfl, List.isChain_nil⟩

/-- No deadline of a run lies beyond the tick counter. -/
def Counts (s : Ipd) (ins : List Input) : Prop :=
  ins.length ≤ 2 ^ 64 ∧ ∀ a ∈ begun s ins, a.due < 2 ^ 64

theorem Counts.nextDue_lt {s : Ipd} {ins : List Input} (h : Counts s ins) :
    nextDue (begun s ins) < 2 ^ 64 := by
  cases hlast : (begun s ins).getLast? with
  | none => simp [nextDue, hlast]
  | some a =>
    rw [nextDue, hlast]
    exact h.2 a (List.mem_of_getLast? hlast)

theorem begun_subset (s : Ipd) (past later : List Input) :
    begun s past ⊆ begun s (past ++ later) := by
  induction later using List.reverseRecOn with
  | nil => simp
  | append_singleton later i ih =>
    rw [← List.append_assoc]
    refine List.Subset.trans ih ?_
    rw [begun, begun, Machine.schedule_concat, openers_append]
    exact List.subset_append_left _ _

theorem Counts.of_append {s : Ipd} {past later : List Input} (h : Counts s (past ++ later)) :
    Counts s past := by
  refine ⟨?_, fun a ha => h.2 a (begun_subset s past later ha)⟩
  have hlen := h.1
  rw [List.length_append] at hlen
  omega

/-- The comparison of the tick counter is one of cycle numbers. -/
theorem ule_ofNat {a b : Nat} (ha : a < 2 ^ 64) (hb : b < 2 ^ 64) :
    (BitVec.ofNat 64 a).ule (BitVec.ofNat 64 b) = true ↔ a ≤ b := by
  rw [BitVec.ule, decide_eq_true_iff, BitVec.toNat_ofNat, BitVec.toNat_ofNat,
    Nat.mod_eq_of_lt ha, Nat.mod_eq_of_lt hb]

theorem Spacing.due_iff {s t : Ipd} {past : List Input} (h : Spacing s past t)
    (hc : Counts s past) (hn : past.length < 2 ^ 64) :
    t.delayVal.ule t.timerTicks = true ↔ nextDue (begun s past) ≤ past.length := by
  rw [h.delay, h.timer]
  exact ule_ofNat hc.nextDue_lt hn

theorem Spacing.step {s : Ipd} {past : List Input} (h : Spacing s past (machine.run s past))
    {i : Input} (hi : Enabled i) (hc : Counts s (past ++ [i])) :
    Spacing s (past ++ [i]) ((machine.run s past).step i) := by
  have hn : past.length < 2 ^ 64 := by
    have hlen := hc.1
    rw [List.length_append, List.length_singleton] at hlen
    omega
  have hdue := h.due_iff hc.of_append hn
  have htick : BitVec.ofNat 64 past.length + 1 = BitVec.ofNat 64 (past ++ [i]).length := by
    rw [List.length_append, BitVec.ofNat_add]
    rfl
  rw [step_of_enabled _ hi]
  rcases comb_cases _ hi with ⟨hh, _, hdv, hst⟩ | ⟨hh, _, _, hst, hcase⟩
  · have hbetween : between s (past ++ [i]) = between s past := by
      rw [between, Machine.collect_concat, hh, List.append_nil]
      rfl
    refine ⟨?_, ?_, ?_, ?_⟩
    · simp only [h.timer, htick]
    · rw [hbetween, hst]
      exact h.first
    · rw [begun_concat_nil hh, hdv]
      exact h.delay
    · rw [begun_concat_nil hh]
      exact h.apart
  · have hlast := between_concat s past i hh
    have hbegun := @begun_concat s past _ _ hh
    rw [h.first] at hbegun
    refine ⟨?_, ?_, ?_, ?_⟩
    · simp only [h.timer, htick]
    · rw [hlast, hst]
      cases (machine.run s past).fifo.dout.tlast <;> rfl
    · rcases hcase with ⟨hs, _, hdv⟩ | ⟨hs, hdv⟩
      · -- The header loads the delay of the packet it begins.
        rw [hs, decide_eq_true rfl, if_pos rfl] at hbegun
        rw [hbegun, nextDue_concat, hdv, h.timer, Start.due, BitVec.ofNat_add]
        exact congrArg (BitVec.ofNat 64 past.length + ·) (BitVec.ofNat_toNat 64 _).symm
      · rw [hs, decide_eq_false (by decide), if_neg (by decide), List.append_nil] at hbegun
        rw [hbegun, hdv]
        exact h.delay
    · rcases hcase with ⟨hs, hu, _⟩ | ⟨hs, _⟩
      · rw [hs, decide_eq_true rfl, if_pos rfl] at hbegun
        rw [hbegun]
        exact h.apart.concat (hdue.mp hu)
      · rw [hs, decide_eq_false (by decide), if_neg (by decide), List.append_nil] at hbegun
        rw [hbegun]
        exact h.apart

/-- Along every run of the stage packets begin as far apart as their delays ask. -/
theorem spacing_run (s : Ipd) {ins : List Input} (h : ∀ i ∈ ins, Enabled i)
    (hc : Counts s.reset ins) : Spacing s.reset ins (machine.run s.reset ins) := by
  induction ins using List.reverseRecOn with
  | nil => exact .reset s
  | append_singleton past i ih =>
    rw [Machine.run_concat]
    exact (ih (fun j hj => h j (by simp [hj])) hc.of_append).step (h i (by simp)) hc

/-- What the observer remembers of a stream of departures. -/
theorem monitor_run (D : List (Nat × Word)) :
    monitor.run .start D = ⟨opens (fun e => e.2.tlast) true D,
      (openers (fun e => e.2.tlast) true D).getLast?.map (fun e => (e.1, stampOf e.2))⟩ := by
  induction D using List.reverseRecOn with
  | nil => rfl
  | append_singleton D e ih =>
    rw [Machine.run_concat, ih, opens_concat, openers_concat]
    cases opens (fun e : Nat × Word => e.2.tlast) true D with
    | true =>
      rw [if_pos rfl, List.getLast?_concat]
      rfl
    | false =>
      rw [if_neg (by decide), List.append_nil]
      rfl

/-- A first word as the observer sees it, who takes its stamp for the delay. -/
def ofDeparture (e : Nat × Word) : Start := (e.1, e.2, stampOf e.2)

theorem begun_of_stamping (s : Ipd) {ins : List Input} (h : ∀ i ∈ ins, Stamping i) :
    begun s ins =
      (openers (fun e => e.2.tlast) true (departures s ins)).map ofDeparture := by
  have hevents : machine.schedule events s ins = (departures s ins).map ofDeparture := by
    refine (machine.schedule_congr ?_ s).trans
      (machine.schedule_map (fun w => (w, stampOf w)) handed s ins).symm
    intro t i hi
    exact List.map_congr_left (fun w _ => by rw [(h i hi).delayFor])
  rw [begun, hevents]
  exact @openers_map _ (fun e : Nat × Word => e.2.tlast) _ (fun a : Start => a.2.1.tlast)
    ofDeparture (fun _ => rfl) true _

theorem spaced_of_apart {D : List (Nat × Word)}
    (h : Apart ((openers (fun e => e.2.tlast) true D).map ofDeparture)) :
    monitor.Along Spaced .start D := by
  induction D using List.reverseRecOn with
  | nil => trivial
  | append_singleton D e ih =>
    rw [openers_concat, List.map_append] at h
    obtain ⟨hD, _, hlast⟩ := List.isChain_append.mp h
    refine (Machine.along_concat _).mpr ⟨ih hD, ?_⟩
    intro hf a ha
    rw [monitor_run] at hf ha
    obtain ⟨b, hb, rfl⟩ := Option.map_eq_some_iff.mp ha
    refine hlast (ofDeparture b) ?_ (ofDeparture e) ?_
    · rw [List.getLast?_map, hb]
      rfl
    · rw [show opens (fun e : Nat × Word => e.2.tlast) true D = true from hf]
      rfl

/-- How the registers stand to what has been handed over, as the observer sees it. -/
structure Tracked (s : Ipd) (past : List Input) (t : Ipd) : Prop where
  timer : t.timerTicks = BitVec.ofNat 64 past.length
  first : (monitor.run .start (departures s past)).first = decide (t.state = .header)
  delay : ∀ h ∈ (monitor.run .start (departures s past)).head,
    t.delayVal = BitVec.ofNat 64 (h.1 + h.2.toNat) ∧ h.1 < past.length
  spaced : monitor.Along Spaced .start (departures s past)

theorem handed_length_le (s : Ipd) (i : Input) : (s.handed i).length ≤ 1 := by
  rw [handed]
  split <;> simp

/-- Along every run of the stage packets begin as far apart as the stamps ask. -/
theorem tracked_run (s : Ipd) {ins : List Input} (h : ∀ i ∈ ins, Stamping i)
    (hn : ins.length + 2 ^ 32 ≤ 2 ^ 64) : Tracked s.reset ins (machine.run s.reset ins) := by
  have hcycle : ∀ e ∈ openers (fun e => e.2.tlast) true (departures s.reset ins),
      e.1 < ins.length := fun e he =>
    (machine.schedule_increasing handed handed_length_le s.reset ins).2 e
      ((openers_sublist _ true _).subset he)
  have hbegun := begun_of_stamping s.reset h
  have hc : Counts s.reset ins := by
    refine ⟨by omega, ?_⟩
    intro a ha
    rw [hbegun] at ha
    obtain ⟨e, he, rfl⟩ := List.mem_map.mp ha
    have hlt := hcycle e he
    have hs := (stampOf e.2).isLt
    change e.1 + (stampOf e.2).toNat < 2 ^ 64
    omega
  obtain ⟨htimer, hfirst, hdelay, hapart⟩ := spacing_run s (fun i hi => (h i hi).enabled) hc
  rw [hbegun] at hdelay hapart
  refine ⟨htimer, ?_, ?_, spaced_of_apart hapart⟩
  · rw [monitor_run, ← hfirst, between, ← machine.schedule_snd handed]
    exact (opens_map (fun e : Nat × Word => e.2.tlast) (fun _ => rfl) true _).symm
  · intro a ha
    rw [monitor_run] at ha
    obtain ⟨e, he, rfl⟩ := Option.map_eq_some_iff.mp ha
    refine ⟨?_, hcycle e (List.mem_of_getLast? he)⟩
    rw [hdelay, nextDue, List.getLast?_map, he]
    rfl

end Ipd

open Ipd in
/-- The stage hands over what it takes, in order, and offers the first word of a packet as soon
as the packet before it is finished, its delay is over and the word shows. -/
theorem packets_delayed (s : Ipd) {ins : List Input} (h : ∀ i ∈ ins, Enabled i)
    (hc : Counts s.reset ins) :
    Ipd.machine.collect accepted s.reset ins =
      Ipd.machine.collect handed s.reset ins ++ (Ipd.machine.run s.reset ins).fifo.contents ∧
    (∀ k a b, (begun s.reset ins)[k]? = some a → (begun s.reset ins)[k + 1]? = some b →
      a.1 + a.2.2.toNat ≤ b.1) ∧
    ∀ past i later, ins = past ++ i :: later →
      (((Ipd.machine.run s.reset past).comb i).mTvalid = true ↔
        (Ipd.machine.run s.reset past).fifo.empty = false ∧
          (between s.reset past = true →
            ∀ a ∈ (begun s.reset past).getLast?, a.1 + a.2.2.toNat ≤ past.length)) := by
  refine ⟨s.accepted_run h, ?_, ?_⟩
  · intro k a b ha hb
    obtain ⟨hk, rfl⟩ := List.getElem?_eq_some_iff.mp ha
    obtain ⟨hk', rfl⟩ := List.getElem?_eq_some_iff.mp hb
    exact List.isChain_iff_getElem.mp (spacing_run s h hc).apart k hk'
  · rintro past i later rfl
    have hn : past.length < 2 ^ 64 := by
      have hlen := hc.1
      rw [List.length_append, List.length_cons] at hlen
      omega
    have hsp := spacing_run s (fun j hj => h j (by simp [hj])) hc.of_append
    rw [offered_iff _ (h i (by simp)), hsp.due_iff hc.of_append hn, hsp.first,
      decide_eq_true_iff, due_le_nextDue]
    rfl

/-- A word arrives, and the output is ready. -/
def arriving (k : BitVec 512) (tuser : BitVec 128) (last : Bool) : Input :=
  ⟨false, true, false, 5, true, ⟨k, 1, tuser, last⟩, true⟩

/-- Nothing arrives; the register's delay is five. -/
def pausing (useRegVal tready : Bool) : Input := ⟨false, true, useRegVal, 5, false, default, tready⟩

/-- Three packets, of two words, three words and one. The first is stamped with six, behind the
second the register is in use. -/
def threePackets : List Input :=
  [arriving 1 0x600000040 false, arriving 2 0 true, arriving 3 0x300000080 false,
    pausing false true, pausing false false, arriving 4 0 false, pausing false true,
    arriving 5 0 true] ++ List.replicate 3 (pausing true true) ++ [arriving 6 0x100000040 true] ++
    List.replicate 8 (pausing true true)

theorem packets_delayed_three :
    let starts : List Start := [(3, ⟨1, 1, 0x600000040, false⟩, 6),
      (9, ⟨3, 1, 0x300000080, false⟩, 5), (14, ⟨6, 1, 0x100000040, true⟩, 5)]
    Ipd.begun (default : Ipd).reset threePackets = starts ∧
      ∀ k a b, starts[k]? = some a → starts[k + 1]? = some b → a.1 + a.2.2.toNat ≤ b.1 := by
  intro starts
  have hbegun : Ipd.begun (default : Ipd).reset threePackets = starts := by decide +kernel
  have hcounts : Ipd.Counts (default : Ipd).reset threePackets := by
    refine ⟨by decide, ?_⟩
    rw [hbegun]
    decide
  have hspaced := (packets_delayed default (by decide) hcounts).2.1
  rw [hbegun] at hspaced
  exact ⟨hbegun, hspaced⟩

end Osnt.InterPacketDelay
