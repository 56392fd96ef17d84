import Osnt.NicLookup
import Osnt.Proofs.LookupPorts

namespace Osnt.NicLookup
open Lib
open SwitchLookup (withPorts oq_withPorts)
open OutputQueues (DataWord dataWord oq selects share)

/-- The words of a stream with the destination of each packet on its first word. -/
def relabel : Bool → List Word → List Word
  | _, [] => []
  | first, w :: ws =>
    (if first then withPorts w (dstPort (srcPort w)) else w) :: relabel w.tlast ws

theorem relabel_append (first : Bool) (ws vs : List Word) :
    relabel first (ws ++ vs) = relabel first ws ++ relabel (opens Word.tlast first ws) vs := by
  induction ws generalizing first with
  | nil => rfl
  | cons w ws ih => rw [List.cons_append, relabel, ih, relabel, List.cons_append, opens]

theorem relabel_data (first : Bool) (ws : List Word) :
    (relabel first ws).map dataWord = ws.map dataWord := by
  induction ws generalizing first with
  | nil => rfl
  | cons w ws ih => cases first <;> simp [relabel, ih, dataWord, withPorts]

section Step
variable (s : Regs) (i : LookupInput)

/-- What a cycle does to the state: nothing without a word that is taken, else on to the next. -/
theorem step_state : (s.step i).state = if s.mTvalid && i.tready then
    (if s.inputFifo.dout.tlast then .moduleHeader else .inPacket) else s.state := by
  cases hs : s.state <;> cases hv : s.mTvalid <;> cases hr : i.tready <;>
    cases hl : s.inputFifo.dout.tlast <;> simp [Regs.step, Regs.stateNext, hs, hv, hr, hl]

theorem mWord_eq (hv : s.mTvalid = true) : s.mWord =
    if s.state = .moduleHeader then withPorts s.inputFifo.dout (dstPort (srcPort s.inputFifo.dout))
    else s.inputFifo.dout := by
  cases hs : s.state <;> simp [Regs.mWord, hs, hv]

end Step

/-- What has left after some cycles: `raw` has been read from `input_fifo`. -/
structure Synced (r : Regs) (past : List LookupInput) (t : Regs) (raw : List Word) : Prop where
  words : t.inputFifo.Sound
  left : lookup.machine.collect lookup.accepted r past = raw ++ t.inputFifo.contents
  state : t.state = if opens Word.tlast true raw then .moduleHeader else .inPacket
  handed : lookup.machine.collect lookup.handed r past = relabel true raw

theorem synced_reset (s : Regs) : Synced s.reset [] s.reset [] where
  words := FallthroughFifo.sound_reset _
  left := (FallthroughFifo.contents_reset s.inputFifo).symm
  state := rfl
  handed := rfl

theorem Synced.step {r t : Regs} {past : List LookupInput} {raw : List Word}
    (h : Synced r past t raw) (hrun : lookup.machine.run r past = t) (i : LookupInput) :
    ∃ raw', Synced r (past ++ [i]) (t.step i) raw' := by
  have hfull : (i.tvalid && !t.inputFifo.nearlyFull) = true → t.inputFifo.full = false := by
    intro hw
    simp only [Bool.and_eq_true, Bool.not_eq_true'] at hw
    exact FallthroughFifo.full_of_nearlyFull hw.2
  have hbalance := h.words.balance (i.tvalid && !t.inputFifo.nearlyFull)
    (i.tready && !t.inputFifo.empty) i.word hfull
  have hsound := h.words.step (i.tvalid && !t.inputFifo.nearlyFull)
    (i.tready && !t.inputFifo.empty) i.word hfull
  have hpop : (i.tready && !t.inputFifo.empty && t.inputFifo.doutValid) =
      (t.mTvalid && i.tready) := by
    rw [Regs.mTvalid, FallthroughFifo.empty]
    cases i.tready <;> cases t.inputFifo.doutValid <;> rfl
  rw [hpop] at hbalance
  refine ⟨raw ++ if t.mTvalid && i.tready then [t.inputFifo.dout] else [], hsound, ?_, ?_, ?_⟩
  · rw [Machine.collect_concat, h.left, hrun, List.append_assoc, List.append_assoc]
    exact congrArg (raw ++ ·) hbalance.symm
  · rw [step_state]
    cases t.mTvalid && i.tready with
    | false => simpa using h.state
    | true => simp
  · rw [Machine.collect_concat, h.handed, hrun, relabel_append]
    refine congrArg (relabel true raw ++ ·) ?_
    cases hv : t.mTvalid with
    | false => simp [Lookup.handed, lookup, hv, relabel]
    | true =>
      have hword := mWord_eq t hv
      rw [h.state] at hword
      cases hr : i.tready with
      | false => simp [Lookup.handed, lookup, hr, relabel]
      | true => cases ho : opens Word.tlast true raw <;>
        simp [Lookup.handed, lookup, hv, hr, hword, ho, relabel]

theorem synced_run (s : Regs) (ins : List LookupInput) :
    ∃ raw, Synced s.reset ins (lookup.machine.run s.reset ins) raw := by
  refine lookup.machine.run_invariant ins (fun past t => ∃ raw, Synced s.reset past t raw)
    ⟨[], synced_reset s⟩ ?_
  rintro past i ⟨raw, h⟩
  exact h.step rfl i

/-- Behind a ready receiver `input_fifo` is a delay of three cycles. -/
theorem prompt_step {t : Regs} {n : Nat} (h : t.inputFifo.Prompt n) {i : LookupInput}
    (hr : i.tready = true) :
    (t.step i).inputFifo.Prompt (if i.tvalid && !t.inputFifo.nearlyFull then 0 else n + 1) := by
  refine h.step _ _ i.word ?_ ?_
  · intro hd
    simp [hr, FallthroughFifo.empty, hd]
  · intro hw
    simp only [Bool.and_eq_true, Bool.not_eq_true'] at hw
    exact FallthroughFifo.full_of_nearlyFull hw.2

theorem prompt_run (s : Regs) {ins : List LookupInput} (h : ∀ i ∈ ins, i.tready = true) :
    (lookup.machine.run s.reset ins).inputFifo.Prompt 0 :=
  lookup.machine.run_keeps (lookup.machine.along_of_forall h) (fun _ t => t.inputFifo.Prompt 0)
    (FallthroughFifo.prompt_reset 0 s.inputFifo)
    fun _ _ hp hi => (prompt_step hp hi).mono (Nat.zero_le _)

theorem prompt_idle {t : Regs} (ht : t.inputFifo.Prompt 0) {ins : List LookupInput}
    (h : ∀ i ∈ ins, i.tvalid = false ∧ i.tready = true) :
    (lookup.machine.run t ins).inputFifo.Prompt ins.length := by
  refine lookup.machine.run_keeps (lookup.machine.along_of_forall h)
    (fun past t => t.inputFifo.Prompt past.length) ht ?_
  intro past i hp hi
  have hstep := prompt_step hp hi.2
  rw [hi.1, Bool.false_and, if_neg (by simp)] at hstep
  rw [List.length_append, List.length_singleton]
  exact hstep

/-- The lookup of the NIC labels every packet by its source, and keeps up with the line. -/
theorem labels (s : Regs) : lookup.Labels s.reset (relabel true) where
  ready is h := by
    have hnot := (prompt_run s h).nearlyFull (by decide)
    simp [lookup, Regs.sTready] at hnot ⊢
    exact hnot
  order is _ := by
    obtain ⟨raw, h⟩ := synced_run s is
    rw [h.handed, h.left, relabel_append]
    exact List.prefix_append _ _
  flush := by
    refine ⟨3, fun is js his hjs hlen => ?_⟩
    obtain ⟨raw, h⟩ := synced_run s (is ++ js)
    have hempty := prompt_idle (prompt_run s his) hjs
    rw [← Machine.run_append] at hempty
    have hleft := h.left
    rw [hempty.contents_nil hlen, List.append_nil, Machine.collect_append,
      lookup.accepted_idle _ hjs, List.append_nil] at hleft
    rw [h.handed, hleft]
  data := relabel_data true

theorem packet_relabel {pkt : List Word} (h : Packet Word.tlast pkt) (first : Bool) :
    Packet Word.tlast (relabel first pkt) := by
  have hmark : ∀ w : Word, (dataWord w).tlast = w.tlast := fun _ => rfl
  rw [← packet_map Word.tlast hmark, relabel_data, packet_map Word.tlast hmark]
  exact h

theorem relabel_packets {pkts : List (List Word)} (h : ∀ pkt ∈ pkts, Packet Word.tlast pkt) :
    relabel true pkts.flatten = (pkts.map (relabel true)).flatten := by
  induction pkts with
  | nil => rfl
  | cons pkt pkts ih =>
    obtain ⟨ws, w, rfl, -, hl⟩ := h pkt (by simp)
    rw [List.flatten_cons, relabel_append, opens_concat, hl, ih fun p hp => h p (by simp [hp])]
    rfl

theorem frames_relabel {pkts : List (List Word)} (h : ∀ pkt ∈ pkts, Packet Word.tlast pkt) :
    (frames Word.tlast (relabel true pkts.flatten)).closed = pkts.map (relabel true) := by
  rw [relabel_packets h, frames_packets Word.tlast]
  intro out hout
  obtain ⟨pkt, hp, rfl⟩ := List.mem_map.mp hout
  exact packet_relabel (h pkt hp) true

/-- The destination ports stand for the queues the packet is for. -/
theorem portQueue_dstPort : ∀ (src : BitVec 8) (p : Fin 3),
    portQueue (dstPort src) p = goesTo src p := by
  decide +kernel

theorem selects_relabel {pkt : List Word} (h : Packet Word.tlast pkt) (p : Fin 3) :
    selects (relabel true pkt) p = goesTo (source pkt) p := by
  cases pkt with
  | nil => exact absurd rfl (Packet.ne_nil Word.tlast h)
  | cons w pkt =>
    have hport := portQueue_dstPort (srcPort w) p
    rw [← oq_withPorts w] at hport
    exact hport

section Datapath
open ReferenceDatapath (Sys Input accepted handed packets quiet offering relabelled)
variable (s : Sys Regs) (l : Regs) (ins : List Input)

theorem relabelled_eq {ps : List (Fin 3 × List Word)} (h : ∀ e ∈ ps, Packet Word.tlast e.2) :
    relabelled (relabel true) ps = ps.map (fun e => relabel true e.2) := by
  rw [ReferenceDatapath.relabelled, frames_relabel, List.map_map]
  · rfl
  · intro pkt hp
    obtain ⟨e, he, rfl⟩ := List.mem_map.mp hp
    exact h e he

theorem relabel_share {pkt : List Word} (h : Packet Word.tlast pkt) (v : Bool) (p : Fin 3) :
    (if v && selects (relabel true pkt) p then relabel true pkt else []).map dataWord =
      if v && goesTo (source pkt) p then pkt.map dataWord else [] := by
  rw [selects_relabel h, apply_ite (List.map dataWord), relabel_data]
  rfl

/-- The reference NIC from reset, with packets of at most 25 words: when the sources have ended
their packets and all receivers are ready, it empties. Then the packets of all sources have come in
some order that keeps the order of each source, and each transmit queue has got, whole and in that
order, those whose source ports go there, less the ones that were dropped from all queues. -/
theorem nic_delivers (hw : ∀ q, (packets lookup s l.reset ins q).Within 25)
    (hc : ∀ q, (packets lookup s l.reset ins q).rest = []) :
    ∃ k ps, ∃ verdicts : List Bool,
      (∀ q, Merge.ofSender q ps = (packets lookup s l.reset ins q).closed) ∧
      verdicts.length = ps.length ∧
      ∀ p, handed lookup s l.reset (ins ++ List.replicate k quiet) p =
        (ps.zip verdicts).flatMap
          (fun e => if e.2 && goesTo (source e.1.2) p then e.1.2.map dataWord else []) := by
  obtain ⟨k, ps, verdicts, hps, hlen, hout⟩ :=
    ReferenceDatapath.drained lookup s l.reset ins (labels l) hw hc
  have hpkt := ReferenceDatapath.packet_of_source lookup s l.reset ins hps
  refine ⟨k, ps, verdicts, hps, hlen, fun p => ?_⟩
  rw [hout p, relabelled_eq hpkt, share, List.zip_map_left, List.flatMap_map, List.map_flatMap]
  refine List.flatMap_congr fun e he => ?_
  exact relabel_share (hpkt e.1 (List.of_mem_zip he).1) e.2 p

/-- Packets of three words and of one from MAC 0 and, meanwhile, two of two words from the CPU, for
MAC 1 and MAC 0. -/
def crossing (ready : Bool) : List Input :=
  [offering ready [some ⟨1, 1, 0x10080, false⟩, none, some ⟨2, 1, 0x80080, false⟩],
    offering ready [some ⟨3, 1, 0, false⟩],
    offering ready [some ⟨4, 1, 0, true⟩, none, some ⟨5, 1, 0, true⟩],
    offering ready [some ⟨6, 1, 0x10040, true⟩, none, some ⟨7, 1, 0x20080, false⟩],
    offering ready [none, none, some ⟨8, 1, 0, true⟩]]

/-- The receivers are not ready until eight cycles later. -/
theorem nic_delivers_crossing :
    let ins := crossing false ++ List.replicate 8 (offering false [])
    (packets lookup default (default : Regs).reset ins 0).closed =
        [[⟨1, 1, 0x10080, false⟩, ⟨3, 1, 0, false⟩, ⟨4, 1, 0, true⟩], [⟨6, 1, 0x10040, true⟩]] ∧
      ∃ k ps, ∃ verdicts : List Bool,
        (∀ q, Merge.ofSender q ps =
          (packets lookup default (default : Regs).reset ins q).closed) ∧
        verdicts.length = ps.length ∧
        ∀ p, handed lookup default (default : Regs).reset (ins ++ List.replicate k quiet) p =
          (ps.zip verdicts).flatMap
            (fun e => if e.2 && goesTo (source e.1.2) p then e.1.2.map dataWord else []) :=
  ⟨by decide +kernel, nic_delivers default default
    (crossing false ++ List.replicate 8 (offering false [])) (by decide +kernel)
    (by decide +kernel)⟩

/-- Behind receivers that are always ready the reference NIC drops nothing, whatever the length of
the packets. -/
theorem nic_lossless (hr : ∀ i ∈ ins, ∀ p, i.tready p = true)
    (hc : ∀ q, (packets lookup s l.reset ins q).rest = []) :
    ∃ k ps, (∀ q, Merge.ofSender q ps = (packets lookup s l.reset ins q).closed) ∧
      ∀ p, handed lookup s l.reset (ins ++ List.replicate k quiet) p =
        ps.flatMap (fun e => if goesTo (source e.2) p then e.2.map dataWord else []) := by
  obtain ⟨k, ps, hps, hout⟩ :=
    ReferenceDatapath.lossless lookup s l.reset ins (labels l) hr hc
  have hpkt := ReferenceDatapath.packet_of_source lookup s l.reset ins hps
  refine ⟨k, ps, hps, fun p => ?_⟩
  rw [hout p, relabelled_eq hpkt, List.flatMap_map, List.map_flatMap]
  refine List.flatMap_congr fun e he => ?_
  exact relabel_share (hpkt e he) true p

/-- A packet of thirty words from MAC 1, longer than the queues are made for. -/
def long : List Input :=
  List.replicate 29 (offering true [none, some ⟨9, 1, 0x40780, false⟩]) ++
    [offering true [none, some ⟨10, 1, 0, true⟩]]

theorem nic_lossless_crossing :
    let ins := crossing true ++ long
    (packets lookup default (default : Regs).reset ins 1).closed.map List.length = [30] ∧
      goesTo 4 2 = true ∧
      ∃ k ps, (∀ q, Merge.ofSender q ps =
          (packets lookup default (default : Regs).reset ins q).closed) ∧
        ∀ p, handed lookup default (default : Regs).reset (ins ++ List.replicate k quiet) p =
          ps.flatMap (fun e => if goesTo (source e.2) p then e.2.map dataWord else []) :=
  ⟨by decide +kernel, by decide, nic_lossless default default (crossing true ++ long)
    (by decide +kernel) (by decide +kernel)⟩

end Datapath

end Osnt.NicLookup
