import Osnt.ExtractMetadata
import Osnt.Proofs.Fifo

namespace Osnt.ExtractMetadata
open Lib

/-- Cycles in which metadata is taken off. -/
def Enabled (i : Input) : Prop := i.swRst = false ∧ i.emEnable = true

instance (i : Input) : Decidable (Enabled i) := inferInstanceAs (Decidable (_ ∧ _))

/-- A cycle with nothing at the input and a ready output. -/
def draining : Input := ⟨false, true, false, default, true⟩

theorem enabled_draining : Enabled draining := ⟨rfl, rfl⟩

/-- A packet of one word with something behind it. -/
def Lone (ws : List Word) : Prop :=
  ∃ us w v vs, ws = us ++ w :: v :: vs ∧ opens Word.tlast true us = true ∧ w.tlast = true

section Strip
/- What the stage makes of the words it reads, and where that is what it is for. -/

def strip : State → BitVec 32 → List Word → List Word
  | _, _, [] => []
  | .rdTuserBits, _, w :: ws => strip .rdPktBits (tdataTimestamp w) ws
  | .rdPktBits, ts, w :: ws =>
    setTimestamp ts w :: strip (if w.tlast then .rdTuserBits else .rdPktBits) 0 ws

@[simp] theorem strip_nil (st : State) (ts : BitVec 32) : strip st ts [] = [] := by
  cases st <;> rfl

@[simp] theorem strip_tuserBits (ts : BitVec 32) (w : Word) (ws : List Word) :
    strip .rdTuserBits ts (w :: ws) = strip .rdPktBits (tdataTimestamp w) ws := rfl

@[simp] theorem strip_pktBits (ts : BitVec 32) (w : Word) (ws : List Word) :
    strip .rdPktBits ts (w :: ws) =
      setTimestamp ts w :: strip (if w.tlast then .rdTuserBits else .rdPktBits) 0 ws := rfl

/-- Within a packet the words go through with an empty timestamp. -/
theorem strip_inner {ws : List Word} (h : ∀ v ∈ ws, v.tlast = false) (more : List Word) :
    strip .rdPktBits 0 (ws ++ more) = ws.map (setTimestamp 0) ++ strip .rdPktBits 0 more := by
  induction ws with
  | nil => rfl
  | cons w ws ih =>
    rw [List.cons_append, strip_pktBits, h w (by simp), if_neg (by simp),
      ih (fun v hv => h v (by simp [hv]))]
    rfl

theorem strip_rest {ws : List Word} (h : ∀ v ∈ ws, v.tlast = false) (ts : BitVec 32) :
    strip .rdTuserBits ts ws = unwrap ws := by
  match ws with
  | [] => rfl
  | [_] => rfl
  | w :: v :: vs =>
    have hvs := @strip_inner vs (fun x hx => h x (by simp [hx])) []
    rw [List.append_nil, strip_nil, List.append_nil] at hvs
    rw [strip_tuserBits, strip_pktBits, h v (by simp), if_neg (by simp), hvs]
    rfl

/-- A packet of two words or more leaves the stage as it was. -/
theorem strip_packet {pkt : List Word} (h : Packet Word.tlast pkt) (hlen : pkt.length ≠ 1)
    (ts : BitVec 32) (more : List Word) :
    strip .rdTuserBits ts (pkt ++ more) = unwrap pkt ++ strip .rdTuserBits 0 more := by
  obtain ⟨ws, w, rfl, hin, hl⟩ := h
  match ws with
  | [] => exact absurd rfl hlen
  | [u] => simp [hl, unwrap]
  | u :: v :: vs =>
    have hvs := @strip_inner vs (fun x hx => hin x (by simp [hx])) (w :: more)
    rw [strip_pktBits, hl, if_pos rfl] at hvs
    have hv := hin v (by simp)
    simpa [hv, unwrap] using hvs

theorem Lone.append {pkt ws : List Word} (hp : Packet Word.tlast pkt) (h : Lone ws) :
    Lone (pkt ++ ws) := by
  obtain ⟨us, w, v, vs, rfl, hopen, hl⟩ := h
  have hpkt : opens Word.tlast true pkt = true := by
    obtain ⟨_, _, rfl, _, hlast⟩ := hp
    rw [opens_concat, hlast]
  refine ⟨pkt ++ us, w, v, vs, by simp, ?_, hl⟩
  rw [opens_append, hpkt, hopen]

/-- A packet of one word that is not the last thing in a stream. -/
theorem lone_of_length {pkt more : List Word} (hp : Packet Word.tlast pkt) (hlen : pkt.length = 1)
    (hmore : more ≠ []) : Lone (pkt ++ more) := by
  obtain ⟨w, rfl⟩ := List.length_eq_one_iff.mp hlen
  obtain ⟨v, vs, rfl⟩ := List.exists_cons_of_ne_nil hmore
  exact ⟨[], w, v, vs, rfl, rfl, (@Packet.last_iff _ Word.tlast [] [] w hp).mpr rfl⟩

theorem strip_packets {pkts : List (List Word)} (h : ∀ pkt ∈ pkts, Packet Word.tlast pkt)
    {rest : List Word} (hr : ∀ v ∈ rest, v.tlast = false) (hlone : ¬ Lone (pkts.flatten ++ rest))
    (ts : BitVec 32) :
    strip .rdTuserBits ts (pkts.flatten ++ rest) = pkts.flatMap unwrap ++ unwrap rest := by
  induction pkts generalizing ts with
  | nil => exact strip_rest hr ts
  | cons pkt pkts ih =>
    have hp := h pkt (by simp)
    rw [List.flatten_cons, List.append_assoc] at hlone ⊢
    by_cases hlen : pkt.length = 1
    · have hnil : pkts.flatten ++ rest = [] := by
        by_contra hne
        exact hlone (lone_of_length hp hlen hne)
      obtain ⟨hpkts, rfl⟩ := List.append_eq_nil_iff.mp hnil
      obtain ⟨w, rfl⟩ := List.length_eq_one_iff.mp hlen
      have hno : pkts = [] := by
        refine List.eq_nil_iff_forall_not_mem.mpr (fun q hq => ?_)
        exact Packet.ne_nil Word.tlast (h q (by simp [hq])) (List.flatten_eq_nil_iff.mp hpkts q hq)
      subst hno
      rfl
    · rw [strip_packet hp hlen, ih (fun q hq => h q (by simp [hq]))
        (fun hl => hlone (hl.append hp)), List.flatMap_cons, List.append_assoc]

theorem strip_eq_unwrapped {ws : List Word} (h : ¬ Lone ws) :
    strip .rdTuserBits 0 ws = unwrapped ws := by
  obtain ⟨hall, hrest⟩ := frames_spec Word.tlast ws
  have hcut := strip_packets (packet_of_closed Word.tlast ws) hrest (by rwa [hall]) 0
  rwa [hall] at hcut

theorem length_unwrap {pkt : List Word} (h : pkt ≠ []) : (unwrap pkt).length + 1 = pkt.length := by
  match pkt with
  | [_] => rfl
  | _ :: _ :: _ => simp [unwrap]

theorem length_unwrapped (ws : List Word) :
    (unwrapped ws).length + (openers Word.tlast true ws).length = ws.length := by
  have hclosed : ∀ {pkts : List (List Word)}, (∀ pkt ∈ pkts, pkt ≠ []) →
      (pkts.flatMap unwrap).length + pkts.length = pkts.flatten.length := by
    intro pkts h
    induction pkts with
    | nil => rfl
    | cons pkt pkts ih =>
      have hp := length_unwrap (h pkt (by simp))
      have := ih (fun q hq => h q (by simp [hq]))
      simp only [List.flatMap_cons, List.length_append, List.length_cons, List.flatten_cons]
      omega
  have hpkts := hclosed fun pkt hp => (packet_of_closed Word.tlast ws pkt hp).ne_nil _
  have hlen := congrArg List.length (frames_spec Word.tlast ws).1
  rw [List.length_append] at hlen
  rw [unwrapped, framewise, List.length_append, length_openers]
  by_cases hr : (frames Word.tlast ws).rest = []
  · rw [hr, List.length_nil] at hlen
    rw [hr, if_pos rfl, unwrap, List.length_nil]
    omega
  · have := length_unwrap hr
    rw [if_neg hr]
    omega

/-- The state in which the stage is to be in front of a word that begins a packet or does not. -/
def synced (first : Bool) : State := if first then .rdTuserBits else .rdPktBits

theorem length_strip_ge (ts : BitVec 32) (ws : List Word) :
    (∀ first, ws.length ≤
        (strip (synced first) ts ws).length + (openers Word.tlast first ws).length) ∧
      (ws ≠ [] → ws.length <
        (strip .rdPktBits ts ws).length + (openers Word.tlast true ws).length) := by
  induction ws generalizing ts with
  | nil => simp
  | cons w ws ih =>
    refine ⟨fun first => ?_, fun _ => ?_⟩
    · cases first with
      | true =>
        obtain ⟨hle, hlt⟩ := ih (tdataTimestamp w)
        simp only [synced, if_true, strip_tuserBits, openers, List.length_append,
          List.length_cons]
        cases hw : w.tlast with
        | false =>
          have := hle false
          simp only [synced, Bool.false_eq_true, if_false] at this
          omega
        | true =>
          by_cases hnil : ws = []
          · simp [hnil]
          · have := hlt hnil
            omega
      | false =>
        have := (ih 0).1 w.tlast
        simp only [synced, Bool.false_eq_true, if_false, strip_pktBits, openers, List.nil_append,
          List.length_cons]
        simp only [synced] at this
        omega
    · have := (ih 0).1 w.tlast
      simp only [strip_pktBits, openers, List.length_append, List.length_cons,
        if_true]
      simp only [synced] at this
      omega

/-- After a packet of one word, the next word is taken for the rest of it. -/
theorem length_strip_gt {us vs : List Word} {w v : Word} (hl : w.tlast = true) (first : Bool)
    (ts : BitVec 32) (h : opens Word.tlast first us = true) :
    (us ++ w :: v :: vs).length < (strip (synced first) ts (us ++ w :: v :: vs)).length +
      (openers Word.tlast first (us ++ w :: v :: vs)).length := by
  induction us generalizing first ts with
  | nil =>
    obtain rfl : first = true := h
    have := (length_strip_ge (tdataTimestamp w) (v :: vs)).2 (by simp)
    simp only [List.nil_append, synced, if_true, strip_tuserBits, openers, hl, List.length_append,
      List.length_cons, List.length_nil] at this ⊢
    omega
  | cons u us ih =>
    rw [List.cons_append]
    cases first with
    | true =>
      simp only [synced, if_true, strip_tuserBits, openers, List.length_append,
        List.length_cons]
      cases hu : u.tlast with
      | true =>
        have := (length_strip_ge (tdataTimestamp u) (us ++ w :: v :: vs)).2 (by simp)
        simp only [List.length_append, List.length_cons] at this
        omega
      | false =>
        have := ih false (tdataTimestamp u) (by rwa [opens, hu] at h)
        simp only [synced, Bool.false_eq_true, if_false, List.length_append,
          List.length_cons] at this
        omega
    | false =>
      have := ih u.tlast 0 h
      simp only [synced, Bool.false_eq_true, if_false, strip_pktBits, openers, List.nil_append,
        List.length_append, List.length_cons] at this ⊢
      omega

theorem strip_eq_unwrapped_iff (ws : List Word) :
    strip .rdTuserBits 0 ws = unwrapped ws ↔ ¬ Lone ws := by
  refine ⟨?_, strip_eq_unwrapped⟩
  rintro he ⟨us, w, v, vs, rfl, hopen, hl⟩
  have hlt := @length_strip_gt us vs w v hl true 0 hopen
  have hlen := length_unwrapped (us ++ w :: v :: vs)
  rw [← he] at hlen
  exact absurd hlen (Nat.ne_of_gt hlt)

instance (ws : List Word) : Decidable (Lone ws) :=
  decidable_of_iff (¬ strip .rdTuserBits 0 ws = unwrapped ws)
    ((not_congr (strip_eq_unwrapped_iff ws)).trans not_not)

end Strip

namespace Extract

/-- A cycle takes the word on the FIFO's output off, hands it over, or leaves it. -/
theorem comb_cases (s : Extract) {i : Input} (h : Enabled i) :
    ((s.fifo.doutValid = false ∨ s.state = .rdPktBits ∧ i.tready = false) ∧ s.handed i = [] ∧
        (s.comb i).rdEn = false ∧ (s.comb i).timestamp = s.timestamp ∧
        (s.comb i).state = s.state) ∨
      (s.fifo.doutValid = true ∧ s.state = .rdTuserBits ∧ s.handed i = [] ∧
        (s.comb i).rdEn = true ∧ (s.comb i).timestamp = tdataTimestamp s.fifo.dout ∧
        (s.comb i).state = .rdPktBits) ∨
      (s.fifo.doutValid = true ∧ s.state = .rdPktBits ∧
        s.handed i = [setTimestamp s.timestamp s.fifo.dout] ∧ (s.comb i).rdEn = true ∧
        (s.comb i).timestamp = 0 ∧
        (s.comb i).state = if s.fifo.dout.tlast then .rdTuserBits else .rdPktBits) := by
  obtain ⟨_, hen⟩ := h
  cases hs : s.state <;> cases hd : s.fifo.doutValid <;> cases ht : i.tready <;>
    cases hl : s.fifo.dout.tlast <;>
    simp [handed, comb, hen, hs, FallthroughFifo.empty, hd, ht, hl, setTimestamp]

/-- The input side does not depend on what the output side does. -/
theorem comb_input (s : Extract) {i : Input} (h : Enabled i) :
    (s.comb i).sTready = !s.fifo.nearlyFull ∧
      (s.comb i).wrEn = (!s.fifo.nearlyFull && i.tvalid) := by
  obtain ⟨_, hen⟩ := h
  cases hs : s.state <;> cases hd : s.fifo.doutValid <;> cases ht : i.tready <;>
    cases hl : s.fifo.dout.tlast <;> simp [comb, hen, hs, FallthroughFifo.empty, hd, ht, hl]

theorem step_of_enabled (s : Extract) {i : Input} (h : Enabled i) :
    machine.step s i = ⟨s.fifo.step (s.comb i).wrEn i.word (s.comb i).rdEn, (s.comb i).state,
      (s.comb i).timestamp⟩ := by
  simp [machine, step, h.1]

theorem full_of_wrEn (s : Extract) {i : Input} (h : Enabled i)
    (hw : (s.comb i).wrEn = true) : s.fifo.full = false := by
  rw [(s.comb_input h).2, Bool.and_eq_true, Bool.not_eq_true'] at hw
  exact FallthroughFifo.full_of_nearlyFull hw.1

theorem accepted_eq (s : Extract) {i : Input} (h : Enabled i) :
    s.accepted i = if (s.comb i).wrEn then [i.word] else [] := by
  rw [accepted, (s.comb_input h).1, (s.comb_input h).2, Bool.and_comm]

/-- What a cycle hands over is what the word it reads is made into. -/
theorem strip_step (s : Extract) {i : Input} (h : Enabled i) (more : List Word) :
    s.handed i ++ strip (s.comb i).state (s.comb i).timestamp more =
      strip s.state s.timestamp
        ((if (s.comb i).rdEn && s.fifo.doutValid then [s.fifo.dout] else []) ++ more) := by
  rcases s.comb_cases h with ⟨_, hh, hr, ht, hst⟩ | ⟨hd, hs, hh, hr, ht, hst⟩ |
    ⟨hd, hs, hh, hr, ht, hst⟩
  · rw [hh, hr, ht, hst]
    rfl
  · rw [hh, hr, hd, ht, hst, hs]
    rfl
  · rw [hh, hr, hd, ht, hst, hs]
    rfl

/-- What has been handed over, with what is to be made of the words inside and of any more. -/
theorem flow (s : Extract) {ins : List Input} (h : ∀ i ∈ ins, Enabled i) :
    (machine.run s.reset ins).fifo.Sound ∧ ∀ more,
      machine.collect handed s.reset ins ++
          strip (machine.run s.reset ins).state (machine.run s.reset ins).timestamp
            ((machine.run s.reset ins).fifo.contents ++ more) =
        strip .rdTuserBits 0 (machine.collect accepted s.reset ins ++ more) := by
  refine machine.run_keeps (machine.along_of_forall h) (fun past t => t.fifo.Sound ∧ ∀ more,
    machine.collect handed s.reset past ++ strip t.state t.timestamp (t.fifo.contents ++ more) =
      strip .rdTuserBits 0 (machine.collect accepted s.reset past ++ more))
    ⟨FallthroughFifo.sound_reset _, fun more => ?_⟩ ?_
  · have hnil : s.reset.fifo.contents = [] := FallthroughFifo.contents_reset _
    rw [hnil]
    rfl
  · rintro past i ⟨hsound, hflow⟩ hi
    have hw := full_of_wrEn (machine.run s.reset past) hi
    rw [step_of_enabled _ hi]
    refine ⟨hsound.step _ _ _ hw, fun more => ?_⟩
    rw [Machine.collect_concat, Machine.collect_concat, List.append_assoc, strip_step _ hi,
      ← List.append_assoc _ _ more, hsound.balance _ _ _ hw, accepted_eq _ hi, List.append_assoc,
      List.append_assoc, hflow]

/-- At any time what has been handed over is the beginning of what is made of the words taken, and
it is all of that once the FIFO is empty. -/
theorem handed_isPrefix (s : Extract) {ins : List Input} (h : ∀ i ∈ ins, Enabled i) :
    machine.collect handed s.reset ins <+:
        strip .rdTuserBits 0 (machine.collect accepted s.reset ins) ∧
      ((machine.run s.reset ins).fifo.contents = [] → machine.collect handed s.reset ins =
        strip .rdTuserBits 0 (machine.collect accepted s.reset ins)) := by
  have hflow := (s.flow h).2 []
  rw [List.append_nil, List.append_nil] at hflow
  refine ⟨⟨_, hflow⟩, fun hnil => ?_⟩
  rw [← hflow, hnil, strip_nil, List.append_nil]

theorem wrEn_draining (s : Extract) : (s.comb draining).wrEn = false := by
  rw [(s.comb_input enabled_draining).2]
  exact Bool.and_false _

theorem accepted_draining (s : Extract) (n : Nat) :
    machine.collect accepted s (List.replicate n draining) = [] := by
  induction n generalizing s with
  | zero => rfl
  | succ n ih =>
    rw [List.replicate_succ, Machine.collect_cons, ih, accepted_eq _ enabled_draining,
      wrEn_draining]
    rfl

/-- With the output ready and nothing coming in, the FIFO runs empty. -/
theorem drains {s : Extract} (h : s.fifo.Sound) :
    ∃ k, (machine.run s (List.replicate k draining)).fifo.contents = [] := by
  refine machine.run_reaches draining (fun t => t.fifo.Sound) (fun t => t.fifo.contents = [])
    (fun t => t.fifo.backlog) ?_ h
  intro t hsound hne
  have hrd : t.fifo.doutValid = true → (t.comb draining).rdEn = true := by
    intro hd
    rcases t.comb_cases enabled_draining with ⟨hno, _⟩ | ⟨_, _, _, hr, _⟩ | ⟨_, _, _, hr, _⟩
    · rcases hno with hno | ⟨_, hno⟩
      · rw [hd] at hno
        cases hno
      · cases hno
    · exact hr
    · exact hr
  rw [step_of_enabled _ enabled_draining, wrEn_draining]
  exact .inr ⟨hsound.step _ _ _ (by simp), (FallthroughFifo.backlog_step hsound _ _ hrd).2 hne⟩

end Extract
open Extract

/-- The packets come out without their first words, in order, and all of them once the stage is
left to run empty. -/
structure Framed (s : Extract) (ins : List Input) : Prop where
  begun : machine.collect handed s.reset ins <+:
    unwrapped (machine.collect accepted s.reset ins)
  settled : ∃ k, (machine.run s.reset (ins ++ List.replicate k draining)).fifo.contents = [] ∧
    machine.collect handed s.reset (ins ++ List.replicate k draining) =
      unwrapped (machine.collect accepted s.reset ins)

section
variable {s : Extract} {ins : List Input}

theorem framed_iff_strip (h : ∀ i ∈ ins, Enabled i) :
    Framed s ins ↔ strip .rdTuserBits 0 (machine.collect accepted s.reset ins) =
      unwrapped (machine.collect accepted s.reset ins) := by
  have hdrain : ∀ k, ∀ i ∈ ins ++ List.replicate k draining, Enabled i := by
    intro k i hi
    rcases List.mem_append.mp hi with hi | hi
    · exact h i hi
    · exact (List.eq_of_mem_replicate hi) ▸ enabled_draining
  have hacc : ∀ k, machine.collect accepted s.reset (ins ++ List.replicate k draining) =
      machine.collect accepted s.reset ins := by
    intro k
    rw [Machine.collect_append, accepted_draining, List.append_nil]
  constructor
  · rintro ⟨_, k, hnil, heq⟩
    rw [← heq, (s.handed_isPrefix (hdrain k)).2 hnil, hacc]
  · intro heq
    refine ⟨heq ▸ (s.handed_isPrefix h).1, ?_⟩
    obtain ⟨k, hk⟩ := drains (s.flow h).1
    rw [← Machine.run_append] at hk
    exact ⟨k, hk, by rw [(s.handed_isPrefix (hdrain k)).2 hk, hacc, heq]⟩

/-- The packets are framed in exactly the runs in which a packet of one word has nothing
behind it. -/
theorem framed_iff (h : ∀ i ∈ ins, Enabled i) :
    Framed s ins ↔ ¬ Lone (machine.collect accepted s.reset ins) :=
  (framed_iff_strip h).trans (strip_eq_unwrapped_iff _)

end

/-- A word comes in. -/
def arriving (w : Word) : Input := ⟨false, true, true, w, true⟩

/-- A word with a timestamp in its data. -/
def stamped (ts : BitVec 512) (tlast : Bool) : Word := ⟨ts, BitVec.allOnes 64, 0, tlast⟩

/-- A packet of two words. -/
theorem framed_iff_pair :
    Framed default [arriving (stamped 5 false), arriving (stamped 6 true)] := by
  exact (framed_iff (by decide)).mpr (by decide +kernel)

/-- A packet of one word before a packet of two. -/
def lonely : List Input :=
  [arriving (stamped 5 true), arriving (stamped 6 false), arriving (stamped 7 true)]

/-- The second packet keeps its first word, with the first one's timestamp in it. -/
theorem lonely_not_framed : (∀ i ∈ lonely, Enabled i) ∧ ¬ Framed default lonely := by
  refine ⟨by decide, fun h => ?_⟩
  have := (framed_iff_strip (by decide)).mp h
  revert this
  decide +kernel

end Osnt.ExtractMetadata
