import Osnt.PcapReplay
import Osnt.Lib.Window
import Osnt.Proofs.Bram
import Osnt.Proofs.Fifo

/-! Loading a word sequence: what the write machine leaves in the memory. -/
namespace Osnt.PcapReplay
open Lib

/-- The inputs of one load: `ws` on the stream in the cycles of `words`, with any
gaps and the source port of the queue, then `wr_done` in the cycle `close`, then
the quiet cycles `rest`. The start bit is low and the replay count constant. -/
structure LoadInputs (port : BitVec 8) (n : BitVec 32) (ws : List Word)
    (words : List Input) (close : Input) (rest : List Input) : Prop where
  quiet : ∀ i ∈ words ++ close :: rest,
    i.swRst = false ∧ i.startReplay = false ∧ i.replayCount = n
  wordsOpen : ∀ i ∈ words, i.wrDone = false
  wordsPort : ∀ i ∈ words, i.pre.isSome = true → i.tuserSrcPort = port
  wordsAre : words.filterMap Input.pre = ws
  closeDone : close.wrDone = true
  closePre : close.pre = none
  restPre : ∀ i ∈ rest, i.pre = none

/-- The image of a load, from address one on: the words, the marker, a zero word. -/
def image (ws : List Word) : List MemWord := ws.map .pack ++ [.marker, 0]

section Load
/- Any memory system that takes the write machine's writes one for one, however
late they land; `mem` is the array once the writes under way have landed. -/
variable {σ : Type} (m : Machine σ Input) {port : BitVec 8}
  (wr : σ → WrMachine) (mem : σ → MemAddr → MemWord)
  (hwr : ∀ s i, wr (m.step s i) = (wr s).step port i)
  (hmem : ∀ s i, mem (m.step s i) =
    if ((wr s).next port i).we then
      Function.update (mem s) (wr s).addr ((wr s).next port i).data
    else mem s)
include hwr hmem

theorem run_words {s : σ} (h0 : wr s = .reset) (words : List Input)
    (hq : ∀ i ∈ words, i.swRst = false ∧ i.wrDone = false ∧
      (i.pre.isSome = true → i.tuserSrcPort = port)) :
    let ws := words.filterMap Input.pre
    wr (m.run s words) = ⟨1 + BitVec.ofNat 11 ws.length, if ws = [] then .idle else .wr⟩ ∧
      mem (m.run s words) = storeFrom (mem s) 1 (ws.map .pack) := by
  refine m.run_keeps (m.along_of_forall hq)
    (fun words t => wr t = ⟨1 + BitVec.ofNat 11 (words.filterMap Input.pre).length,
        if words.filterMap Input.pre = [] then .idle else .wr⟩ ∧
      mem t = storeFrom (mem s) 1 ((words.filterMap Input.pre).map .pack)) ?_ ?_
  · exact ⟨by simp [h0, WrMachine.reset], rfl⟩
  · intro past i hp hi
    obtain ⟨hw, hm⟩ := hp
    obtain ⟨hrst, hdone, hport⟩ := hi
    rw [hwr, hmem, List.filterMap_append]
    generalize past.filterMap Input.pre = ws at hw hm
    cases hpre : i.pre with
    | none =>
      simp only [hw, hm, WrMachine.step, WrMachine.next, hrst, hdone, hpre, List.filterMap_cons,
        List.filterMap_nil, List.append_nil]
      cases ws with
      | nil => simp
      | cons w ws => simp
    | some w =>
      have hpo : i.tuserSrcPort = port := hport (by simp [hpre])
      have hadd := add_ofNat_succ (1 : MemAddr) ws.length
      have hsf := storeFrom_concat (mem s) 1 (ws.map MemWord.pack) (.pack w)
      simp only [List.length_map] at hsf
      simp only [List.filterMap_cons, List.filterMap_nil, hpre, List.map_append, List.map_cons,
        List.map_nil, hsf]
      cases ws with
      | nil => simp [hw, hm, WrMachine.step, WrMachine.next, hrst, hpre, hpo]
      | cons v vs =>
        simp only [hw, hm, WrMachine.step, WrMachine.next, hrst, hpre, hdone]
        simpa using hadd

/-- Quiet cycles leave an idle write machine and the memory alone. -/
theorem run_quiet {s : σ} (h0 : wr s = .reset) (is : List Input)
    (hq : ∀ i ∈ is, i.swRst = false ∧ i.pre = none) :
    wr (m.run s is) = .reset ∧ mem (m.run s is) = mem s := by
  refine m.run_keeps (m.along_of_forall hq) (fun _ t => wr t = .reset ∧ mem t = mem s)
    ⟨h0, rfl⟩ ?_
  intro past i hp hi
  rw [hwr, hmem, hp.1, hp.2]
  simp [WrMachine.step, WrMachine.next, WrMachine.reset, hi.1, hi.2]

/-- The closing cycle writes the marker right behind the words. -/
theorem run_closed {s : σ} (h0 : wr s = .reset) {n : BitVec 32} {ws : List Word}
    {words : List Input} {close : Input} {rest : List Input}
    (hl : LoadInputs port n ws words close rest) (hne : ws ≠ []) :
    let t := m.run s (words ++ [close])
    wr t = ⟨1 + BitVec.ofNat 11 (ws.length + 1), .done⟩ ∧
      mem t = storeFrom (mem s) 1 (ws.map .pack ++ [.marker]) := by
  obtain ⟨hw, hm⟩ := run_words m wr mem hwr hmem h0 words (fun i hi =>
    ⟨(hl.quiet i (by simp [hi])).1, hl.wordsOpen i hi, hl.wordsPort i hi⟩)
  rw [hl.wordsAre, if_neg hne] at hw
  rw [hl.wordsAre] at hm
  have hc := (hl.quiet close (by simp)).1
  have hadd := add_ofNat_succ (1 : MemAddr) ws.length
  rw [m.run_concat]
  refine ⟨?_, ?_⟩
  · rw [hwr, hw]
    simpa [WrMachine.step, WrMachine.next, hc, hl.closeDone] using hadd
  · rw [hmem, hw, hm, storeFrom_concat]
    simp [WrMachine.next, hc, hl.closeDone]

/-- After the closing cycle and at least one more, every write of the load is on
its way and the machine is idle again. -/
theorem run_load {s : σ} (h0 : wr s = .reset) {n : BitVec 32} {ws : List Word}
    {words : List Input} {close : Input} {rest : List Input}
    (hl : LoadInputs port n ws words close rest) (hne : ws ≠ []) :
    let t := m.run s (words ++ close :: rest)
    (rest = [] ∧ (wr t).state = .done) ∨
      (wr t = .reset ∧ mem t = storeFrom (mem s) 1 (image ws)) := by
  obtain ⟨hw1, hm1⟩ := run_closed m wr mem hwr hmem h0 hl hne
  rw [m.run_concat] at hw1 hm1
  rw [m.run_append, m.run_cons]
  cases rest with
  | nil => exact .inl ⟨rfl, by rw [m.run_nil, hw1]⟩
  | cons r rs =>
    have hw2 : wr (m.step (m.step (m.run s words) close) r) = .reset := by
      rw [hwr, hw1]
      simp [WrMachine.step, WrMachine.next, WrMachine.reset]
    have hm2 : mem (m.step (m.step (m.run s words) close) r) =
        storeFrom (mem s) 1 (image ws) := by
      have he : image ws = (ws.map .pack ++ [.marker]) ++ [0] := by simp [image]
      rw [he, storeFrom_concat, hmem, hw1, hm1]
      simp [WrMachine.next]
    have hq := run_quiet m wr mem hwr hmem hw2 rs (fun i hi =>
      ⟨(hl.quiet i (by simp [hi])).1, hl.restPre i (by simp [hi])⟩)
    exact .inr ⟨hq.1, hq.2.trans hm2⟩

end Load

/-- The read side of a queue that has nothing to replay and nothing to send. -/
structure Resting (q : Queue) : Prop where
  rdState : q.rdState = .idle
  memRdAddr : q.memRdAddr = 1
  rStartReplay : q.rStartReplay = false
  rRden : q.rRden = false
  rFifoNearlyFull : q.rFifoNearlyFull = false
  sendState : q.sendState = .idle
  sound : q.fifo.Sound
  empty : q.fifo.contents = []

theorem Resting.reset (q : Queue) : Resting q.reset :=
  ⟨rfl, rfl, rfl, rfl, rfl, rfl, FallthroughFifo.sound_reset _, FallthroughFifo.contents_reset _⟩

theorem nearlyFull_of_empty {f : FallthroughFifo Word 5} (h : f.contents = []) :
    f.nearlyFull = false := by
  have hl := f.length_contents
  simp only [h, List.length_nil] at hl
  simp only [FallthroughFifo.nearlyFull, SmallFifo.nearlyFull, decide_eq_false_iff_not]
  omega

theorem doutValid_of_empty {f : FallthroughFifo Word 5} (h : f.contents = []) :
    f.doutValid = false := by
  cases hd : f.doutValid with
  | false => rfl
  | true =>
    rw [FallthroughFifo.contents_eq_cons hd] at h
    cases h

/-- Without a start the read side stays at rest, whatever the memory shows. -/
theorem Resting.step {q : Queue} (h : Resting q) (p : Ports) (i : Input) (dina : MemWord)
    (hi : i.startReplay = false) : Resting (q.step p i dina) := by
  have hnf := nearlyFull_of_empty h.empty
  have hdv := doutValid_of_empty h.empty
  have hnext : q.rdNext i dina = ⟨1, false, 0, .idle⟩ := by
    simp [Queue.rdNext, h.rdState, Queue.start, hi]
  have hgate : q.fifoGate i dina = false := by
    simp [Queue.fifoGate, h.rRden, Queue.stallEnds, h.rFifoNearlyFull]
  have hwr : q.fifoWrEn i dina = false := by simp [Queue.fifoWrEn, Queue.fifoInTvalid, hgate]
  have hrd : q.fifoRden i = false := by simp [Queue.fifoRden, h.sendState]
  refine ⟨?_, ?_, hi, ?_, hnf, ?_, ?_, ?_⟩
  · simp [Queue.step, hnext]
  · simp [Queue.step, hnext]
  · simp [Queue.step, hnext]
  · simp [Queue.step, Queue.sendNext, h.sendState, FallthroughFifo.empty, hdv]
  · simp only [Queue.step, hwr]
    exact h.sound.step _ _ _ (by simp)
  · simp only [Queue.step, hwr, hrd]
    rw [h.sound.contents_step _ _ _ (by simp), h.empty]
    rfl

namespace Direct

/-- The array once the registered write of the queue has landed. -/
def settled (s : Direct) : MemAddr → MemWord :=
  if s.q.memWren then Function.update s.bram.bootmem s.q.memWrAddr s.q.memWrData
  else s.bram.bootmem

theorem bootmem_step (p : Ports) (s : Direct) (i : Input) :
    (s.step p i).bram.bootmem = s.settled := by
  cases h : s.q.memWren <;> simp [step, Bram.step, settled, Queue.memEn, Queue.memWe,
    Queue.memAddr, h]

theorem settled_step (p : Ports) (s : Direct) (i : Input) :
    (s.step p i).settled =
      if (s.q.wr.next p.srcPort i).we then
        Function.update s.settled s.q.wr.addr (s.q.wr.next p.srcPort i).data
      else s.settled := by
  rw [settled, bootmem_step]
  rfl

theorem resting_run (p : Ports) {s : Direct} (h : Resting s.q) {is : List Input}
    (hi : ∀ i ∈ is, i.startReplay = false) : Resting ((machine p).run s is).q :=
  (machine p).run_keeps ((machine p).along_of_forall hi) (fun _ t => Resting t.q) h
    (fun _ i hp hs => hp.step p i _ hs)

/-- Memory and registers once a load has completed. -/
structure Loaded (mem : MemAddr → MemWord) (s : Direct) : Prop where
  bootmem : s.bram.bootmem = mem
  wr : s.q.wr = .reset
  memWren : s.q.memWren = false
  resting : Resting s.q

/-- A load from reset leaves its image in the memory once the write machine is
idle and its last write has landed. -/
theorem loaded_of_load (p : Ports) (s : Direct) {n : BitVec 32} {ws : List Word}
    {words : List Input} {close : Input} {rest : List Input}
    (hl : LoadInputs p.srcPort n ws words close rest) (hne : ws ≠ [])
    (hidle : ((machine p).run s.reset (words ++ close :: rest)).q.wr.state = .idle)
    (hwren : ((machine p).run s.reset (words ++ close :: rest)).q.memWren = false) :
    Loaded (storeFrom s.bram.bootmem 1 (image ws))
      ((machine p).run s.reset (words ++ close :: rest)) := by
  have hrun := run_load (machine p) (fun t => t.q.wr) settled (fun _ _ => rfl) (settled_step p)
    (s := s.reset) rfl hl hne
  rcases hrun with ⟨_, hd⟩ | ⟨hw, hm⟩
  · rw [hidle] at hd
    cases hd
  · refine ⟨?_, hw, hwren, resting_run p (.reset _) (fun i hi => (hl.quiet i hi).2.1)⟩
    simp only [settled, hwren] at hm
    exact hm

end Direct
end Osnt.PcapReplay
