import Osnt.Proofs.PacketHistory

/-! The memory of `packet_history`. A packet is recorded from the register of the parser, in the
cycle after its first history word: the slot is its own, the tuple only if no later packet has been
parsed by then, and the second history word shows it if it has to wait. -/
namespace Osnt.PacketHistory
open Lib

theorem slot_succ (pkts : List (List Beat)) (k : Nat) :
    slot pkts (k + 1) = Function.update (slot pkts k) (BitVec.ofNat 4 k) (tupleAt pkts k) := by
  funext j
  have hj : k % 16 = j.toNat ↔ j = BitVec.ofNat 4 k := by
    rw [BitVec.toNat_eq, BitVec.toNat_ofNat]
    exact eq_comm
  rw [slot, List.range_succ, List.reverse_append, List.reverse_singleton, List.singleton_append,
    List.find?_cons, Function.update_apply]
  by_cases hk : j = BitVec.ofNat 4 k
  · rw [if_pos hk, beq_iff_eq.mpr (hj.mpr hk)]
  · rw [if_neg hk, beq_eq_false_iff_ne.mpr (mt hj.mp hk)]
    rfl

theorem secondData_update (mem : BitVec 4 → Tuple) {j : BitVec 4} (hj : j < 9) (t : Tuple) :
    secondData (Function.update mem j t) = secondData mem := by
  have hne : ∀ l : BitVec 4, 9 ≤ l → l ≠ j := by
    rintro l hl rfl
    exact absurd hj (BitVec.not_lt.mpr hl)
  simp only [secondData]
  rw [Function.update_of_ne (hne 9 (by decide)), Function.update_of_ne (hne 10 (by decide)),
    Function.update_of_ne (hne 11 (by decide)), Function.update_of_ne (hne 12 (by decide)),
    Function.update_of_ne (hne 13 (by decide)), Function.update_of_ne (hne 14 (by decide)),
    Function.update_of_ne (hne 15 (by decide))]

/-- The packets recorded when `k` have been sent. -/
def History.records (s : History) (k : Nat) : Nat :=
  match s.state with
  | .firstBatch => k
  | .secondBatch => if s.wrMemEn then k else k + 1
  | .sendPacket => k + 1

/-- The memory has the packets recorded, with `k` of them sent. -/
structure Ring (pkts : List (List Beat)) (k : Nat) (log : List (BitVec 4 × Tuple)) (s : History) :
    Prop where
  wr : s.wrMemEn = true → s.state = .secondBatch
  mem : s.memHistory = slot pkts (s.records k)
  log : log = (List.range (s.records k)).map fun l => (BitVec.ofNat 4 l, tupleAt pkts l)
  ptr : s.ptrPos = BitVec.ofNat 4 (if s.state = .sendPacket then k + 1 else k)
  kept : s.state = .secondBatch → secondData s.memHistory = secondData (slot pkts k)

section Run
variable {P Q : Nat → Beat → Prop} {pkts : List (List Beat)} {ins : List Input}

/-- The tuple at the head of the FIFO is that of the packet at hand. -/
theorem Sound.head_tuple (h : Sound P Q pkts ins) (hpkts : ∀ pkt ∈ pkts, Packet Beat.tlast pkt)
    {t : Tuple} (hst : (after pkts ins).history.state = .secondBatch)
    (ht : (after pkts ins).history.tupleFifo.head? = some t) :
    t = tupleAt pkts (frames Beat.tlast (forwardedBy pkts ins)).closed.length := by
  generalize hk : (frames Beat.tlast (forwardedBy pkts ins)).closed.length = k
  have hcount : (takenBy pkts ins).length = k := by
    rw [h.served.count, hst, hk]
    rfl
  have hput : (writtenBy pkts ins)[k]? = some t := by
    rw [h.served.tuples, List.getElem?_append_right (by omega), hcount, Nat.sub_self,
      ← List.head?_eq_getElem?, ht]
  have htup : ((openers Beat.tlast true (acceptedBy pkts ins ++ (after pkts ins).shown)).map
      Beat.tuple)[k]? = some t := by
    obtain ⟨hlt, -⟩ := List.getElem?_eq_some_iff.mp hput
    rw [← h.fed.tuples, List.getElem?_append_left hlt, hput]
  rw [List.getElem?_map, Option.map_eq_some_iff] at htup
  obtain ⟨w, hw, rfl⟩ := htup
  obtain ⟨more, hmore⟩ := h.openers_shown
  have hall : pkts[k]?.bind List.head? = some w := by
    obtain ⟨hlt, -⟩ := List.getElem?_eq_some_iff.mp hw
    rw [← getElem_openers_packets Beat.tlast hpkts, ← hmore, List.getElem?_append_left hlt, hw]
  rw [tupleAt, hall]
  rfl

theorem Ring.write {k : Nat} {log : List (BitVec 4 × Tuple)} {s : History}
    (h : Ring pkts k log s) (hwr : s.wrMemEn = true) (ht : s.parser.tuple = tupleAt pkts k) :
    Function.update s.memHistory s.ptrPos s.parser.tuple = slot pkts (k + 1) ∧
      log ++ [(s.ptrPos, s.parser.tuple)] =
        (List.range (k + 1)).map fun l => (BitVec.ofNat 4 l, tupleAt pkts l) := by
  have hst := h.wr hwr
  have hn : s.records k = k := by simp [History.records, hst, hwr]
  have hptr : s.ptrPos = BitVec.ofNat 4 k := by
    rw [h.ptr, hst]
    rfl
  refine ⟨?_, ?_⟩
  · rw [slot_succ, h.mem, hn, hptr, ht]
  · rw [List.range_succ, List.map_append, List.map_singleton, h.log, hn, hptr, ht]

/-- After the cycle of the write the packet is recorded; in the other cycles nothing is. -/
theorem Ring.memory {k : Nat} {log : List (BitVec 4 × Tuple)} {s : History}
    (h : Ring pkts k log s) (i : Ports) (ht : s.wrMemEn = true → s.parser.tuple = tupleAt pkts k)
    {n : Nat} (hn : n = if s.wrMemEn then k + 1 else s.records k) :
    (s.step i).memHistory = slot pkts n ∧
      log ++ s.recorded = (List.range n).map fun l => (BitVec.ofNat 4 l, tupleAt pkts l) := by
  have hmem : (s.step i).memHistory =
    if s.wrMemEn then Function.update s.memHistory s.ptrPos s.parser.tuple else s.memHistory := rfl
  rw [hmem, History.recorded]
  cases hwr : s.wrMemEn with
  | true =>
    rw [hwr] at hn
    subst hn
    exact h.write hwr (ht hwr)
  | false =>
    rw [hwr] at hn
    subst hn
    exact ⟨h.mem, by simpa using h.log⟩

/-- The second word does not show the packet at hand, though it waits. -/
theorem Ring.kept_step {k : Nat} {log : List (BitVec 4 × Tuple)} {s : History}
    (h : Ring pkts k log s) (i : Ports) (hst : s.state = .secondBatch) (hrd : s.tupleRdEn i = false)
    (hwait : s.wrMemEn = true → i.mTready = true ∨ s.ptrPos < 9 ∨
      s.memHistory s.ptrPos = s.parser.tuple) :
    secondData (s.step i).memHistory = secondData (slot pkts k) := by
  have hmem : (s.step i).memHistory =
    if s.wrMemEn then Function.update s.memHistory s.ptrPos s.parser.tuple else s.memHistory := rfl
  rw [hmem, ← h.kept hst]
  cases hwr : s.wrMemEn with
  | false => rfl
  | true =>
    rw [if_pos rfl]
    rcases hwait hwr with hready | hlt | heq
    · simp [History.tupleRdEn, hst, hready] at hrd
    · exact secondData_update _ hlt _
    · rw [← heq, Function.update_eq_self]

/-- The first word shows the pointer and the packets recorded before the one at hand. -/
theorem Ring.firstWord {k : Nat} {log : List (BitVec 4 × Tuple)} {s : History}
    (h : Ring pkts k log s) (hst : s.state = .firstBatch) (i : Ports) :
    (s.firstWord i).tdata = firstData (slot pkts k) (BitVec.ofNat 4 k) := by
  have hn : s.records k = k := by rw [History.records, hst]
  have hptr : s.ptrPos = BitVec.ofNat 4 k := by
    rw [h.ptr, hst]
    rfl
  rw [History.firstWord, h.mem, hn, hptr]

theorem Ring.wrMemEn {k : Nat} {log : List (BitVec 4 × Tuple)} {s : History}
    (h : Ring pkts k log s) (hst : s.state ≠ .secondBatch) : s.wrMemEn = false :=
  eq_false_of_ne_true (mt h.wr hst)

theorem wrMemEn_step {s : History} {i : Ports} (h : (s.step i).wrMemEn = true) :
    (s.step i).state = .secondBatch := by
  have hwr : s.wrMemEnNext i = true := h
  have hst : (s.step i).state = s.stateNext i := rfl
  rw [hst]
  cases cycle s i with
  | nothing sent forwarded rd wr next => simp [wr] at hwr
  | first state tuples sent forwarded rd wr next => exact next
  | second state sent forwarded rd wr next => simp [wr] at hwr
  | word w ws state words sent forwarded rd wr next => simp [wr] at hwr

/-- What is left to see of a cycle: the number of packets recorded, the pointer and the second
word. -/
theorem Ring.advance {k k' : Nat} {log : List (BitVec 4 × Tuple)} {s : History} {i : Ports}
    (h : Ring pkts k log s) (ht : s.wrMemEn = true → s.parser.tuple = tupleAt pkts k)
    (hn : (s.step i).records k' = if s.wrMemEn then k + 1 else s.records k)
    (hptr : (s.step i).ptrPos =
      BitVec.ofNat 4 (if (s.step i).state = .sendPacket then k' + 1 else k'))
    (hkept : (s.step i).state = .secondBatch →
      secondData (s.step i).memHistory = secondData (slot pkts k')) :
    Ring pkts k' (log ++ s.recorded) (s.step i) := by
  obtain ⟨hm, hl⟩ := h.memory i ht hn
  exact ⟨wrMemEn_step, hm, hl, hptr, hkept⟩

section Step
variable {k : Nat} {log : List (BitVec 4 × Tuple)} {s : History} {i : Ports}

theorem Ring.nothing (h : Ring pkts k log s)
    (ht : s.wrMemEn = true → s.parser.tuple = tupleAt pkts k)
    (hwait : s.wrMemEn = true → i.mTready = true ∨ s.ptrPos < 9 ∨
      s.memHistory s.ptrPos = s.parser.tuple)
    (hrd : s.tupleRdEn i = false) (hwr : s.wrMemEnNext i = false)
    (hnext : s.stateNext i = s.state) : Ring pkts k (log ++ s.recorded) (s.step i) := by
  have hwr' : (s.step i).wrMemEn = false := hwr
  have hst' : (s.step i).state = s.state := hnext
  have hptr' : (s.step i).ptrPos = if s.tupleRdEn i then s.ptrPos + 1 else s.ptrPos := rfl
  rw [hrd] at hptr'
  refine h.advance ht ?_ ?_ ?_
  · rw [History.records, hst', hwr', History.records]
    cases hwr : s.wrMemEn with
    | false => rfl
    | true =>
      rw [h.wr hwr]
      rfl
  · rw [hptr', hst']
    exact h.ptr
  · intro hst
    exact h.kept_step i (hst'.symm.trans hst) hrd hwait

theorem Ring.first (h : Ring pkts k log s) (hst : s.state = .firstBatch)
    (hrd : s.tupleRdEn i = false) (hwr : s.wrMemEnNext i = true)
    (hnext : s.stateNext i = .secondBatch) : Ring pkts k (log ++ s.recorded) (s.step i) := by
  have hno : s.wrMemEn = false := h.wrMemEn (by simp [hst])
  have hst' : (s.step i).state = .secondBatch := hnext
  have hptr' : (s.step i).ptrPos = if s.tupleRdEn i then s.ptrPos + 1 else s.ptrPos := rfl
  have hmem : (s.step i).memHistory = if s.wrMemEn then _ else s.memHistory := rfl
  have hptr := h.ptr
  have hn : s.records k = k := by rw [History.records, hst]
  rw [hst] at hptr
  rw [hrd] at hptr'
  rw [hno] at hmem
  refine h.advance (by simp [hno]) ?_ ?_ fun _ => ?_
  · have hwr' : (s.step i).wrMemEn = true := hwr
    simp [History.records, hst', hwr', hno, hst]
  · rw [hptr', hst']
    exact hptr
  · rw [hmem, if_neg Bool.false_ne_true, h.mem, hn]

theorem Ring.second (h : Ring pkts k log s)
    (ht : s.wrMemEn = true → s.parser.tuple = tupleAt pkts k) (hst : s.state = .secondBatch)
    (hrd : s.tupleRdEn i = true) (hnext : s.stateNext i = .sendPacket) :
    Ring pkts k (log ++ s.recorded) (s.step i) := by
  have hst' : (s.step i).state = .sendPacket := hnext
  have hptr' : (s.step i).ptrPos = if s.tupleRdEn i then s.ptrPos + 1 else s.ptrPos := rfl
  have hptr := h.ptr
  rw [hst] at hptr
  rw [hrd] at hptr'
  refine h.advance ht ?_ ?_ fun hsec => ?_
  · simp only [History.records, hst', hst]
    cases s.wrMemEn <;> rfl
  · rw [hptr', hst', hptr, if_pos rfl, if_pos rfl, BitVec.ofNat_add]
    rfl
  · rw [hst'] at hsec
    cases hsec

theorem Ring.word {last : Bool} (h : Ring pkts k log s) (hst : s.state = .sendPacket)
    (hrd : s.tupleRdEn i = false)
    (hnext : s.stateNext i = if last then .firstBatch else .sendPacket) :
    Ring pkts (if last then k + 1 else k) (log ++ s.recorded) (s.step i) := by
  have hno : s.wrMemEn = false := h.wrMemEn (by simp [hst])
  have hst' : (s.step i).state = if last then .firstBatch else .sendPacket := hnext
  have hptr' : (s.step i).ptrPos = if s.tupleRdEn i then s.ptrPos + 1 else s.ptrPos := rfl
  have hptr := h.ptr
  rw [hst] at hptr
  rw [hrd] at hptr'
  refine h.advance (by simp [hno]) ?_ ?_ fun hsec => ?_
  · cases last <;> simp [History.records, hst', hno, hst]
  · rw [hptr', hst']
    cases last <;> exact hptr
  · rw [hst'] at hsec
    cases last <;> cases hsec

theorem Ring.step {fwd : List Beat} (h : Ring pkts k log s) (i : Ports)
    (hk : (frames Beat.tlast fwd).closed.length = k)
    (ht : s.wrMemEn = true → s.parser.tuple = tupleAt pkts k)
    (hwait : s.wrMemEn = true → i.mTready = true ∨ s.ptrPos < 9 ∨
      s.memHistory s.ptrPos = s.parser.tuple) :
    Ring pkts (frames Beat.tlast (fwd ++ s.forwarded i)).closed.length (log ++ s.recorded)
      (s.step i) := by
  cases cycle s i with
  | nothing sent forwarded rd wr next =>
    rw [forwarded, List.append_nil, hk]
    exact h.nothing ht hwait rd wr next
  | first state tuples sent forwarded rd wr next =>
    rw [forwarded, List.append_nil, hk]
    exact h.first state rd wr next
  | second state sent forwarded rd wr next =>
    rw [forwarded, List.append_nil, hk]
    exact h.second ht state rd next
  | word w ws state words sent forwarded rd wr next =>
    rw [forwarded, length_closed_concat, hk]
    exact h.word state rd next

end Step

theorem sound_of_inTurn (hpkts : ∀ pkt ∈ pkts, Packet Beat.tlast pkt)
    (hp : machine.Along Prompt (start pkts) ins) (ht : machine.Along InTurn (start pkts) ins) :
    Sound (fun k a => a.tdata = firstData (slot pkts k) (BitVec.ofNat 4 k))
        (fun k b => b.tdata = secondData (slot pkts k)) pkts ins ∧
      Ring pkts (frames Beat.tlast (forwardedBy pkts ins)).closed.length (recordedBy pkts ins)
        (after pkts ins).history := by
  induction ins using List.reverseRecOn with
  | nil =>
    refine ⟨sound_start _ _ pkts, ⟨nofun, rfl, rfl, rfl, nofun⟩⟩
  | append_singleton ins i ih =>
    obtain ⟨hpast, hnow⟩ := machine.along_concat.mp hp
    obtain ⟨htpast, htnow⟩ := machine.along_concat.mp ht
    obtain ⟨hs, hr⟩ := ih hpast htpast
    refine ⟨hs.concat hnow ?_ ?_, ?_⟩
    · exact fun hst => hr.firstWord hst _
    · exact fun hst => hr.kept hst
    · have hafter : after pkts (ins ++ [i]) = (after pkts ins).step i := Machine.run_concat _ _ _ _
      have hfwd : forwardedBy pkts (ins ++ [i]) = forwardedBy pkts ins ++ _ :=
        Machine.collect_concat _ _ _ _ _
      have hlog : recordedBy pkts (ins ++ [i]) = recordedBy pkts ins ++ _ :=
        Machine.collect_concat _ _ _ _ _
      rw [hafter, hfwd, hlog]
      refine hr.step _ rfl ?_ ?_
      · exact fun hwr => hs.head_tuple hpkts (hr.wr hwr) (htnow hwr).1
      · exact fun hwr => (htnow hwr).2

/-- In every run from reset in which the end of every packet is taken when it is shown and packets
are recorded in their turn, the history words show the packets before, each recorded once. -/
theorem recorded_of_inTurn (hpkts : ∀ pkt ∈ pkts, Packet Beat.tlast pkt)
    (hp : machine.Along Prompt (start pkts) ins) (ht : machine.Along InTurn (start pkts) ins) :
    Recorded pkts ins := by
  obtain ⟨hs, hr⟩ := sound_of_inTurn hpkts hp ht
  refine ⟨hs.delivers hpkts (fun k => ?_) (fun k => ?_), fun hst => ?_⟩
  · exact ⟨⟨firstData (slot pkts k) (BitVec.ofNat 4 k), 0, 0, false⟩, rfl⟩
  · exact ⟨⟨secondData (slot pkts k), 0, 0, false⟩, rfl⟩
  · have hlog := hr.log
    rw [History.records, hst] at hlog
    exact hlog

end Run

/-- Two packets of one word each. -/
def samplePair : List (List Beat) := [[sampleBeat 1 true], [sampleBeat 2 true]]

/-- The second packet is shown when the first has been recorded. -/
def sampleRun : List Input := steady 1 true ++ List.replicate 4 drain ++ steady 6 true

theorem samplePair_packet : ∀ pkt ∈ samplePair, Packet Beat.tlast pkt := by
  intro pkt hpkt
  rcases List.mem_pair.mp hpkt with rfl | rfl
  · exact ⟨[], sampleBeat 1 true, rfl, by simp, rfl⟩
  · exact ⟨[], sampleBeat 2 true, rfl, by simp, rfl⟩

theorem recorded_samplePair : (∀ pkt ∈ samplePair, Packet Beat.tlast pkt) ∧
    machine.Along Prompt (start samplePair) sampleRun ∧
    machine.Along InTurn (start samplePair) sampleRun ∧ Recorded samplePair sampleRun := by
  have hp : machine.Along Prompt (start samplePair) sampleRun := by decide +kernel
  have ht : machine.Along InTurn (start samplePair) sampleRun := by decide +kernel
  exact ⟨samplePair_packet, hp, ht, recorded_of_inTurn samplePair_packet hp ht⟩

theorem later_tuple_recorded : (∀ pkt ∈ samplePair, Packet Beat.tlast pkt) ∧
    machine.Along Prompt (start samplePair) (steady 8 true) ∧
    ¬ Recorded samplePair (steady 8 true) := by
  refine ⟨samplePair_packet, by decide +kernel, fun h => ?_⟩
  exact absurd (h.recorded (by decide +kernel)) (by decide +kernel)

end Osnt.PacketHistory
