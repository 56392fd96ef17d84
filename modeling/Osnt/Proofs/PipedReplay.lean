import Osnt.Datapath
import Osnt.Proofs.PcapReplay

/-! Replay through the register stage of the datapath. Reads come back three
cycles after they are issued, while the read machine counts on one. -/
namespace Osnt.Datapath
open Lib PcapReplay

/-- A memory word that is neither pushed nor taken for the end of a copy. -/
def Blank (d : MemWord) : Prop := d.tvalid = false ∧ d.isMarker = false

/-- The word that entered the read path `k` stages ago, when `j` reads of the current
copy have been issued: a blank one while the path still holds what came before. -/
def InFlight (mem : MemAddr → MemWord) (j k : Nat) (d : MemWord) : Prop :=
  if j < k then Blank d else d = mem (1 + BitVec.ofNat 11 (j - k))

theorem InFlight.next {mem : MemAddr → MemWord} {j k : Nat} {d : MemWord}
    (h : InFlight mem j k d) : InFlight mem (j + 1) (k + 1) d := by
  simpa [InFlight] using h

theorem InFlight.word {mem : MemAddr → MemWord} {j k : Nat} {d : MemWord}
    (h : InFlight mem j k d) (hk : k ≤ j) : d = mem (1 + BitVec.ofNat 11 (j - k)) := by
  have hback : ¬ j < k := by omega
  simpa [InFlight, hback] using h

theorem InFlight.blank {mem : MemAddr → MemWord} {j k : Nat} {d : MemWord}
    (h : InFlight mem j k d) (hk : j < k) : Blank d := by
  simpa [InFlight, hk] using h

theorem inFlight_of_blank (mem : MemAddr → MemWord) {j k : Nat} {d : MemWord} (h : Blank d)
    (hk : j < k) : InFlight mem j k d := by
  simpa [InFlight, hk] using h

/-- What the memory must hold behind the end of the words for `n` copies: the cell of
the zero word was blank before the load, and where a second copy follows, the two
cells behind it are blank as well and do not wrap onto the words. -/
def Clear (old : MemAddr → MemWord) (w : Nat) (n : BitVec 32) : Prop :=
  Blank (old (1 + BitVec.ofNat 11 (w + 1))) ∧
    (1 < n.toNat → w ≤ 2044 ∧ Blank (old (1 + BitVec.ofNat 11 (w + 2))) ∧
      Blank (old (1 + BitVec.ofNat 11 (w + 3))))

namespace Piped

/-- The array once the write in the register stage has landed. -/
def landed (s : Piped) : MemAddr → MemWord :=
  if s.regs.en && s.regs.we then Function.update s.bram.bootmem s.regs.addr s.regs.dout
  else s.bram.bootmem

/-- The array once both writes under way have landed. -/
def settled (s : Piped) : MemAddr → MemWord :=
  if s.q.memWren then Function.update s.landed s.q.memWrAddr s.q.memWrData else s.landed

theorem bootmem_step (p : Ports) (s : Piped) (i : Input) :
    (s.step p i).bram.bootmem = s.landed := rfl

theorem landed_step (p : Ports) (s : Piped) (i : Input) : (s.step p i).landed = s.settled := by
  cases h : s.q.memWren <;> simp [landed, settled, step, Queue.memEn, Queue.memWe,
    Queue.memAddr, h, Bram.step]

theorem settled_step (p : Ports) (s : Piped) (i : Input) :
    (s.step p i).settled =
      if (s.q.wr.next p.srcPort i).we then
        Function.update s.settled s.q.wr.addr (s.q.wr.next p.srcPort i).data
      else s.settled := by
  rw [settled, landed_step]
  rfl

theorem resting_run (p : Ports) {s : Piped} (h : Resting s.q) {is : List Input}
    (hi : ∀ i ∈ is, i.startReplay = false) : Resting ((machine p).run s is).q :=
  (machine p).run_keeps ((machine p).along_of_forall hi) (fun _ t => Resting t.q) h
    (fun _ i hp hs => hp.step p i _ hs)

/-- Memory, registers and the stale output word once a load has completed. -/
structure Loaded (mem : MemAddr → MemWord) (stale : MemWord) (s : Piped) : Prop where
  bootmem : s.bram.bootmem = mem
  rddata : s.bram.rddata = stale
  wr : s.q.wr = .reset
  memWren : s.q.memWren = false
  en : s.regs.en = false
  resting : Resting s.q

theorem memEn_of_resting {q : Queue} (h : Resting q) {i : Input} (dina : MemWord)
    (hi : i.startReplay = false) : q.memEn i dina = q.memWren := by
  simp [Queue.memEn, Queue.rdNext, h.rdState, Queue.start, hi]

theorem Loaded.step (p : Ports) {mem : MemAddr → MemWord} {stale : MemWord} {s : Piped}
    (h : Loaded mem stale s) {i : Input}
    (hi : i.swRst = false ∧ i.startReplay = false ∧ i.pre = none) :
    Loaded mem stale (s.step p i) := by
  obtain ⟨hrst, hstart, hpre⟩ := hi
  refine ⟨?_, ?_, ?_, ?_, ?_, h.resting.step p i _ hstart⟩
  · rw [bootmem_step, landed, h.en]
    exact h.bootmem
  · simp [Piped.step, Bram.step, h.en, h.rddata]
  · simp [Piped.step, Queue.step, WrMachine.step, WrMachine.next, h.wr, WrMachine.reset, hpre]
  · simp [Piped.step, Queue.step, WrMachine.next, h.wr, WrMachine.reset, hpre]
  · simp [Piped.step, memEn_of_resting h.resting _ hstart, h.memWren]

/-- The three cycles in which the zero word passes the write registers and lands. -/
theorem loaded_third (p : Ports) {t : Piped} {a : MemAddr} {mem : MemAddr → MemWord}
    (hw : t.q.wr = ⟨a, .done⟩) (hm : t.settled = mem) (hrest : Resting t.q) {r1 r2 r3 : Input}
    (h1 : r1.swRst = false ∧ r1.startReplay = false ∧ r1.pre = none)
    (h2 : r2.swRst = false ∧ r2.startReplay = false ∧ r2.pre = none)
    (h3 : r3.swRst = false ∧ r3.startReplay = false ∧ r3.pre = none) :
    Loaded (Function.update mem a 0) (mem a) (((t.step p r1).step p r2).step p r3) := by
  have hr1 : Resting (t.step p r1).q := hrest.step p r1 t.regs.din h1.2.1
  have hw1 : (t.step p r1).q.wr = .reset := by
    simp [step, Queue.step, WrMachine.step, WrMachine.next, hw, WrMachine.reset]
  have ha1 : (t.step p r1).q.memWren = true ∧ (t.step p r1).q.memWrAddr = a ∧
      (t.step p r1).q.memWrData = 0 := by
    simp [step, Queue.step, WrMachine.next, hw]
  have hl1 : (t.step p r1).landed = mem := (landed_step p t r1).trans hm
  generalize t.step p r1 = t1 at hr1 hw1 ha1 hl1
  have hr2 : Resting (t1.step p r2).q := hr1.step p r2 t1.regs.din h2.2.1
  have hw2 : (t1.step p r2).q.wr = .reset ∧ (t1.step p r2).q.memWren = false := by
    simp [step, Queue.step, WrMachine.step, WrMachine.next, hw1, WrMachine.reset, h2]
  have hreg : (t1.step p r2).regs.en = true ∧ (t1.step p r2).regs.we = true ∧
      (t1.step p r2).regs.addr = a ∧ (t1.step p r2).regs.dout = 0 := by
    simp [step, Queue.memEn, Queue.memWe, Queue.memAddr, ha1]
  have hb2 : (t1.step p r2).bram.bootmem = mem := (bootmem_step p t1 r2).trans hl1
  generalize t1.step p r2 = t2 at hr2 hw2 hreg hb2
  refine ⟨?_, ?_, ?_, ?_, ?_, hr2.step p r3 _ h3.2.1⟩
  · rw [bootmem_step, landed, hb2]
    simp [hreg]
  · simp [step, Bram.step, hreg, hb2]
  · simp [step, Queue.step, WrMachine.step, WrMachine.next, hw2, WrMachine.reset, h3]
  · simp [step, Queue.step, WrMachine.next, hw2, WrMachine.reset, h3]
  · simp [step, memEn_of_resting hr2 _ h3.2.1, hw2]

/-- Three cycles after the closing one the image is in the memory, and the output
register shows what the cell of the zero word held before. -/
theorem loaded_of_load (p : Ports) (s : Piped) {n : BitVec 32} {ws : List Word}
    {words : List Input} {close : Input} {rest : List Input}
    (hl : LoadInputs p.srcPort n ws words close rest) (hne : ws ≠ []) (hlen : ws.length ≤ 2046)
    (hidle : ((machine p).run s.reset (words ++ close :: rest)).q.wr.state = .idle)
    (hwren : ((machine p).run s.reset (words ++ close :: rest)).q.memWren = false)
    (hwe : ((machine p).run s.reset (words ++ close :: rest)).regs.we = false) :
    Loaded (storeFrom s.bram.bootmem 1 (image ws))
      (s.bram.bootmem (1 + BitVec.ofNat 11 (ws.length + 1)))
      ((machine p).run s.reset (words ++ close :: rest)) := by
  obtain ⟨hw, hm⟩ := run_closed (machine p) (fun t => t.q.wr) settled (fun _ _ => rfl)
    (settled_step p) (s := s.reset) rfl hl hne
  have hrest : Resting ((machine p).run s.reset (words ++ [close])).q :=
    resting_run p (.reset _) (fun i hi => (hl.quiet i (by simp at hi ⊢; tauto)).2.1)
  have happ : words ++ close :: rest = (words ++ [close]) ++ rest := by simp
  rw [happ, Machine.run_append] at hidle hwren hwe ⊢
  have hquiet : ∀ i ∈ rest, i.swRst = false ∧ i.startReplay = false ∧ i.pre = none := fun i hi =>
    ⟨(hl.quiet i (by simp [hi])).1, (hl.quiet i (by simp [hi])).2.1, hl.restPre i hi⟩
  generalize (machine p).run s.reset (words ++ [close]) = t at hw hm hrest hidle hwren hwe ⊢
  -- The zero word needs one cycle in each of the two registers it passes.
  match rest, hquiet, hidle, hwren, hwe with
  | [], _, hidle, _, _ =>
    rw [Machine.run_nil, hw] at hidle
    cases hidle
  | [r1], _, _, hwren, _ =>
    simp [machine, step, Queue.step, WrMachine.next, hw] at hwren
  | [r1, r2], _, _, _, hwe =>
    simp [machine, step, Queue.step, Queue.memWe, WrMachine.next, hw] at hwe
  | r1 :: r2 :: r3 :: rs, hquiet, _, _, _ =>
    have hthird := loaded_third p hw hm hrest (hquiet r1 (by simp)) (hquiet r2 (by simp))
      (hquiet r3 (by simp))
    have himg : image ws = (ws.map .pack ++ [.marker]) ++ [0] := by simp [image]
    have hcell : storeFrom s.bram.bootmem 1 (ws.map .pack ++ [.marker])
        (1 + BitVec.ofNat 11 (ws.length + 1)) =
          s.bram.bootmem (1 + BitVec.ofNat 11 (ws.length + 1)) :=
      storeFrom_beyond _ _ _ _ (by simp) (by omega)
    have hmem : Function.update (storeFrom s.bram.bootmem 1 (ws.map .pack ++ [.marker]))
        (1 + BitVec.ofNat 11 (ws.length + 1)) 0 = storeFrom s.bram.bootmem 1 (image ws) := by
      rw [himg, storeFrom_concat _ _ (_ ++ [_])]
      simp
    have hboot : s.reset.settled = s.bram.bootmem := rfl
    rw [hboot, hcell, hmem] at hthird
    rw [Machine.run_cons, Machine.run_cons, Machine.run_cons]
    exact (machine p).run_keeps
      ((machine p).along_of_forall (fun i hi => hquiet i (by simp [hi])))
      (fun _ t => Loaded _ _ t) hthird (fun _ _ hp hi => hp.step p hi)

/-- Where an unstalled replay stands after `cycles` cycles. -/
inductive Phase (ws : List Word) (n : BitVec 32) (mem : MemAddr → MemWord) (s : Piped)
    (out : List Word) (cycles : Nat) : Prop where
  | copy (j : Nat) (rdState : s.q.rdState = .rd) (rRden : s.q.rRden = true)
      (en : s.regs.en = true) (count : s.q.count.toNat < n.toNat) (hj : j ≤ ws.length + 3)
      (addr : s.q.memRdAddr = 1 + BitVec.ofNat 11 j)
      (asked : InFlight mem j 1 (mem s.regs.addr)) (rddata : InFlight mem j 2 s.bram.rddata)
      (din : InFlight mem j 3 s.regs.din)
      (pushed : out = copies s.q.count.toNat ws ++ ws.take (j - 3))
      (time : cycles = s.q.count.toNat * (ws.length + 4) + j)
  | finished (rdState : s.q.rdState = .idle) (pushed : out = copies n.toNat ws)

/-- The state of an unstalled replay that has pushed `out` so far. -/
structure Replaying (ws : List Word) (n : BitVec 32) (mem : MemAddr → MemWord) (s : Piped)
    (out : List Word) (cycles : Nat) : Prop where
  bootmem : s.bram.bootmem = mem
  wr : s.q.wr = .reset
  memWren : s.q.memWren = false
  we : s.regs.we = false
  rFifoNearlyFull : s.q.rFifoNearlyFull = false
  phase : Phase ws n mem s out cycles

/-- What a cycle of a replay changes, by what the read machine does. -/
theorem step_fields (p : Ports) {s : Piped} {i : Input} (hwr : s.q.wr = .reset)
    (hwren : s.q.memWren = false) (hrst : i.swRst = false) (hpre : i.pre = none) :
    (s.step p i).q.wr = .reset ∧ (s.step p i).q.memWren = false ∧ (s.step p i).regs.we = false ∧
      (s.step p i).regs.addr = s.q.memRdAddr ∧
      (s.step p i).regs.en = (s.q.rdNext i s.regs.din).rden ∧
      (s.step p i).q.rRden = (s.q.rdNext i s.regs.din).rden ∧
      (s.step p i).q.memRdAddr = (s.q.rdNext i s.regs.din).addrNext ∧
      (s.step p i).q.count = (s.q.rdNext i s.regs.din).countNext ∧
      (s.step p i).q.rdState = (s.q.rdNext i s.regs.din).stateNext := by
  simp [step, Queue.step, Queue.memEn, Queue.memAddr, Queue.memWe, hwr, hwren, WrMachine.reset,
    WrMachine.step, WrMachine.next, hrst, hpre]

/-- With the gate open a word goes into the FIFO exactly if it is valid. -/
theorem pushed_of_rden {q : Queue} {i : Input} {dina : MemWord} (hr : q.rRden = true)
    (hx : (q.rdNext i dina).rden = true) (hnf : q.fifo.nearlyFull = false) :
    q.pushed i dina = if dina.tvalid then [dina.unpack] else [] := by
  rw [q.pushed_of_gate i dina (fun _ => by simp [Queue.fifoGate, hr, hx])]
  simp [hnf]

section Step

variable (p : Ports) {ws : List Word} {n : BitVec 32} {mem : MemAddr → MemWord} {s : Piped}
  {out : List Word} {cycles : Nat} {i : Input}

/-- The phase after the cycle `i`, which may have pushed a word. -/
def PhaseAfter (ws : List Word) (n : BitVec 32) (mem : MemAddr → MemWord) (s : Piped)
    (out : List Word) (cycles : Nat) (i : Input) : Prop :=
  Phase ws n mem (s.step p i) (out ++ s.q.pushed i s.regs.din) (cycles + 1)

theorem Replaying.moves (h : Replaying ws n mem s out cycles) (hon : s.regs.en = true) :
    (s.step p i).bram.rddata = mem s.regs.addr ∧ (s.step p i).regs.din = s.bram.rddata := by
  refine ⟨?_, rfl⟩
  simp [Piped.step, Bram.step, hon, h.bootmem]

/-- Before the marker comes back, reads go on; a word that is back is pushed. -/
theorem Replaying.reads (hm : Holds ws mem) (h : Replaying ws n mem s out cycles)
    (hi : Continues n s.q i) (hnf : s.q.fifo.nearlyFull = false) {j : Nat}
    (hlt : j < ws.length + 3) (hr : s.q.rdState = .rd) (hrd : s.q.rRden = true)
    (hon : s.regs.en = true) (hcount : s.q.count.toNat < n.toNat)
    (haddr : s.q.memRdAddr = 1 + BitVec.ofNat 11 j) (hasked : InFlight mem j 1 (mem s.regs.addr))
    (hrddata : InFlight mem j 2 s.bram.rddata) (hdin : InFlight mem j 3 s.regs.din)
    (hpush : out = copies s.q.count.toNat ws ++ ws.take (j - 3))
    (htime : cycles = s.q.count.toNat * (ws.length + 4) + j) :
    PhaseAfter p ws n mem s out cycles i := by
  obtain ⟨hrst, hpre, -, -⟩ := hi
  obtain ⟨-, -, -, hask, hen, hrr, ha, hc, hst⟩ := step_fields p h.wr h.memWren hrst hpre
  obtain ⟨hdata', hdin'⟩ := h.moves p (i := i) hon
  have hmk : s.regs.din.isMarker = false := by
    rcases Nat.lt_or_ge j 3 with h3 | h3
    · exact (hdin.blank h3).2
    · rw [hdin.word h3, hm.word (by omega)]
      exact MemWord.isMarker_pack _
  have hx := Queue.rdNext_word s.regs.din hr hrst hnf hmk
  have hp := pushed_of_rden hrd (by rw [hx]) hnf
  have hpush' : out ++ s.q.pushed i s.regs.din =
      copies s.q.count.toNat ws ++ ws.take (j + 1 - 3) := by
    rcases Nat.lt_or_ge j 3 with h3 | h3
    · have hnow : j - 3 = 0 := by omega
      have hnext : j + 1 - 3 = 0 := by omega
      rw [hp, (hdin.blank h3).1, hpush, hnow, hnext]
      simp
    · have hnext : j + 1 - 3 = j - 3 + 1 := by omega
      rw [hp, hdin.word h3, hm.word (by omega), hpush, MemWord.tvalid_pack,
        MemWord.unpack_pack, if_pos rfl, hnext, List.append_assoc,
        List.take_succ_eq_append_getElem (by omega)]
  rw [hx] at hen hrr ha hc hst
  refine .copy (j + 1) hst hrr hen (hc ▸ hcount) hlt ?_ ?_ ?_ ?_ (hc ▸ hpush') ?_
  · rw [ha, haddr, add_ofNat_succ]
  · rw [hask, haddr]
    simp [InFlight]
  · rw [hdata']
    exact hasked.next
  · rw [hdin']
    exact hrddata.next
  · rw [hc, htime, Nat.add_assoc]

/-- The marker is back; the three words behind it are still on their way. -/
theorem Replaying.marker (hm : Holds ws mem)
    (hclear : 1 < n.toNat → Blank (mem (1 + BitVec.ofNat 11 (ws.length + 2))) ∧
      Blank (mem (1 + BitVec.ofNat 11 (ws.length + 3))))
    (h : Replaying ws n mem s out cycles) (hi : Continues n s.q i)
    (hnf : s.q.fifo.nearlyFull = false) (hr : s.q.rdState = .rd) (hrd : s.q.rRden = true)
    (hon : s.regs.en = true) (hcount : s.q.count.toNat < n.toNat)
    (haddr : s.q.memRdAddr = 1 + BitVec.ofNat 11 (ws.length + 3))
    (hasked : InFlight mem (ws.length + 3) 1 (mem s.regs.addr))
    (hrddata : InFlight mem (ws.length + 3) 2 s.bram.rddata)
    (hdin : InFlight mem (ws.length + 3) 3 s.regs.din)
    (hpush : out = copies s.q.count.toNat ws ++ ws)
    (htime : cycles = s.q.count.toNat * (ws.length + 4) + (ws.length + 3)) :
    PhaseAfter p ws n mem s out cycles i := by
  obtain ⟨hrst, hpre, hn, -⟩ := hi
  obtain ⟨-, -, -, hask, hen, hrr, ha, hc, hst⟩ := step_fields p h.wr h.memWren hrst hpre
  obtain ⟨hdata', hdin'⟩ := h.moves p (i := i) hon
  have hmark : s.regs.din = .marker := by
    rw [hdin.word (by omega), Nat.add_sub_cancel]
    exact hm.marker
  have hx := Queue.rdNext_marker s.regs.din hr hrst hnf
    (by rw [hmark]; exact MemWord.isMarker_marker) (hn ▸ hcount)
  rw [hn] at hx
  have hrden : (s.q.rdNext i s.regs.din).rden = true := by
    rw [hx]
    split <;> rfl
  have hnone : s.q.pushed i s.regs.din = [] := by
    rw [pushed_of_rden hrd hrden hnf, hmark]
    simp
  rw [PhaseAfter, hnone, List.append_nil, hpush, ← copies_succ]
  by_cases hlast : s.q.count.toNat + 1 < n.toNat
  · rw [if_pos hlast] at hx
    rw [hx] at hen hrr ha hc hst
    have hn1 := Queue.toNat_count_succ hcount
    obtain ⟨hc2, hc3⟩ := hclear (by omega)
    have hzero : Blank (mem (1 + BitVec.ofNat 11 (ws.length + 1))) := by
      rw [hm.zero]
      exact ⟨MemWord.tvalid_zero, MemWord.isMarker_zero⟩
    refine .copy 0 hst hrr hen (by rw [hc, hn1]; exact hlast) (Nat.zero_le _) ?_ ?_ ?_ ?_ ?_ ?_
    · rw [ha]
      rfl
    · rw [hask, haddr]
      exact inFlight_of_blank mem hc3 (by omega)
    · rw [hdata', hasked.word (by omega)]
      exact inFlight_of_blank mem hc2 (by omega)
    · rw [hdin', hrddata.word (by omega)]
      exact inFlight_of_blank mem hzero (by omega)
    · rw [hc, hn1]
      simp
    · rw [hc, hn1, htime, Nat.succ_mul]
      omega
  · rw [if_neg hlast] at hx
    rw [hx] at hst
    exact .finished hst (by congr 1; omega)

theorem Replaying.step (hm : Holds ws mem)
    (hclear : 1 < n.toNat → Blank (mem (1 + BitVec.ofNat 11 (ws.length + 2))) ∧
      Blank (mem (1 + BitVec.ofNat 11 (ws.length + 3))))
    (h : Replaying ws n mem s out cycles) (hi : Continues n s.q i)
    (hnf : s.q.fifo.nearlyFull = false) :
    Replaying ws n mem (s.step p i) (out ++ s.q.pushed i s.regs.din) (cycles + 1) := by
  obtain ⟨hw, hwren, hwe, -, -, -, -, -, hst⟩ := step_fields p h.wr h.memWren hi.1 hi.2.1
  have hb : (s.step p i).bram.bootmem = mem := by
    rw [bootmem_step, landed, h.we, Bool.and_false]
    exact h.bootmem
  refine ⟨hb, hw, hwren, hwe, hnf, ?_⟩
  cases h.phase with
  | finished hr hpush =>
    have hx := Queue.rdNext_rest s.regs.din hr hi.2.2.2
    have hp : s.q.pushed i s.regs.din = [] := by
      simp [Queue.pushed, Queue.fifoWrEn, Queue.fifoInTvalid, Queue.fifoGate, hx,
        Queue.stallEnds, h.rFifoNearlyFull]
    rw [hx] at hst
    exact .finished hst (by rw [hp, List.append_nil, hpush])
  | copy j hr hrd hon hcount hj haddr hasked hrddata hdin hpush htime =>
    rcases Nat.lt_or_ge j (ws.length + 3) with hlt | hge
    · exact h.reads p hm hi hnf hlt hr hrd hon hcount haddr hasked hrddata hdin hpush htime
    · obtain rfl : j = ws.length + 3 := Nat.le_antisymm hj hge
      rw [Nat.add_sub_cancel, List.take_length] at hpush
      exact h.marker p hm hclear hi hnf hr hrd hon hcount haddr hasked hrddata hdin hpush htime

end Step

/-- The cycle in which the start bit rises asks for the first word and pushes nothing. -/
theorem Loaded.replaying (p : Ports) (ws : List Word) {n : BitVec 32} {mem : MemAddr → MemWord}
    {stale : MemWord} (hstale : Blank stale) {s : Piped} (h : Loaded mem stale s) {i : Input}
    (hn0 : n ≠ 0) (hrst : i.swRst = false) (hpre : i.pre = none) (hn : i.replayCount = n)
    (hstart : i.startReplay = true) :
    Replaying ws n mem (s.step p i) [] 1 ∧ s.q.pushed i s.regs.din = [] := by
  obtain ⟨hw, hwren, hwe, hask, hen, hrr, ha, hc, hst⟩ := step_fields p h.wr h.memWren hrst hpre
  have hnf := nearlyFull_of_empty h.resting.empty
  have hx : s.q.rdNext i s.regs.din = ⟨2, true, 0, .rd⟩ := by
    simp [Queue.rdNext, h.resting.rdState, Queue.start, h.resting.rStartReplay, hstart, hnf, hn,
      h.resting.memRdAddr]
    exact hn0
  have hgate : s.q.fifoGate i s.regs.din = false := by
    simp [Queue.fifoGate, h.resting.rRden, Queue.stallEnds, h.resting.rFifoNearlyFull]
  have hb : (s.step p i).bram.bootmem = mem := by
    rw [bootmem_step, landed, h.en, Bool.false_and]
    exact h.bootmem
  have hrddata : (s.step p i).bram.rddata = stale := by
    simp [Piped.step, Bram.step, h.en, h.rddata]
  have hdin : (s.step p i).regs.din = stale := h.rddata
  have hpos : 0 < n.toNat := Nat.pos_of_ne_zero (fun he => hn0 (BitVec.eq_of_toNat_eq he))
  rw [hx] at hen hrr ha hc hst
  refine ⟨⟨hb, hw, hwren, hwe, hnf, ?_⟩, ?_⟩
  · refine .copy 1 hst hrr hen (by simpa [hc] using hpos) (by omega) ha ?_ ?_ ?_ ?_ ?_
    · rw [hask, h.resting.memRdAddr]
      simp [InFlight]
    · rw [hrddata]
      exact inFlight_of_blank mem hstale (by omega)
    · rw [hdin]
      exact inFlight_of_blank mem hstale (by omega)
    · simp [hc, copies]
    · simp [hc]
  · simp [Queue.pushed, Queue.fifoWrEn, Queue.fifoInTvalid, hgate]

/-- Words the engine writes into the pcap FIFO. -/
def pushes (p : Ports) (s : Piped) (is : List Input) : List Word :=
  (machine p).collect (fun t i => t.q.pushed i t.regs.din) s is

/-- The pcap FIFO never fills up to where the read machine stalls. -/
def Unstalled (p : Ports) (s : Piped) (is : List Input) : Prop :=
  (machine p).Along (fun t _ => t.q.fifo.nearlyFull = false) s is

theorem replaying_run (p : Ports) {ws : List Word} {n : BitVec 32} {mem : MemAddr → MemWord}
    (hm : Holds ws mem)
    (hclear : 1 < n.toNat → Blank (mem (1 + BitVec.ofNat 11 (ws.length + 2))) ∧
      Blank (mem (1 + BitVec.ofNat 11 (ws.length + 3))))
    (hn0 : n ≠ 0) {stale : MemWord} (hstale : Blank stale) {s : Piped} (h : Loaded mem stale s)
    {first : Input} {rest : List Input} (hr : ReplayInputs n first rest)
    (hfree : Unstalled p s (first :: rest)) :
    Replaying ws n mem ((machine p).run s (first :: rest)) (pushes p s (first :: rest))
      (rest.length + 1) := by
  obtain ⟨hrst, hpre, hn⟩ := hr.quiet first (by simp)
  obtain ⟨hstart, hnone⟩ := h.replaying p ws hstale hn0 hrst hpre hn hr.start
  have hrise : NoRise (s.step p first).q.rStartReplay rest := by
    simpa [step, Queue.step, hr.start] using hr.noRise
  have hal := along_continues (machine p) (fun t => t.q) (fun _ _ => rfl) hrise
    (fun i hi => hr.quiet i (by simp [hi]))
  rw [pushes, Machine.collect_cons, hnone, List.nil_append]
  refine (machine p).run_keeps (hal.and hfree.2)
    (fun is t => Replaying ws n mem t
      ((machine p).collect (fun t i => t.q.pushed i t.regs.din) (s.step p first) is)
      (is.length + 1)) hstart ?_
  intro past i hp hi
  rw [Machine.collect_concat, List.length_append]
  exact hp.step p hm hclear hi.1 hi.2

theorem Replaying.within {ws : List Word} {n : BitVec 32} {mem : MemAddr → MemWord} {s : Piped}
    {out : List Word} {cycles : Nat} (h : Replaying ws n mem s out cycles) :
    out <+: copies n.toNat ws := by
  cases h.phase with
  | copy j _ _ _ hc _ _ _ _ _ hp _ => exact hp ▸ copies_take_mono hc ws _
  | finished _ hp => exact hp ▸ List.prefix_refl _

/-- Every copy takes one cycle for each word and four for the marker and the path. -/
theorem Replaying.ends {ws : List Word} {n : BitVec 32} {mem : MemAddr → MemWord} {s : Piped}
    {out : List Word} {cycles : Nat} (h : Replaying ws n mem s out cycles)
    (ht : n.toNat * (ws.length + 4) ≤ cycles) :
    s.q.rdState = .idle := by
  cases h.phase with
  | copy j _ _ _ hc hj _ _ _ _ _ htime =>
    have hle : (s.q.count.toNat + 1) * (ws.length + 4) ≤ n.toNat * (ws.length + 4) :=
      Nat.mul_le_mul_right _ hc
    rw [Nat.succ_mul] at hle
    omega
  | finished hr _ => exact hr

theorem Replaying.done {ws : List Word} {n : BitVec 32} {mem : MemAddr → MemWord} {s : Piped}
    {out : List Word} {cycles : Nat} (h : Replaying ws n mem s out cycles)
    (hi : s.q.rdState = .idle) : out = copies n.toNat ws := by
  cases h.phase with
  | copy j hr _ _ _ _ _ _ _ _ _ _ =>
    rw [hi] at hr
    cases hr
  | finished _ hp => exact hp

/-- The stored image leaves the cells behind it as they were. -/
theorem Clear.stored {old : MemAddr → MemWord} {ws : List Word} {n : BitVec 32}
    (h : Clear old ws.length n) (hn : 1 < n.toNat) :
    Blank (storeFrom old 1 (image ws) (1 + BitVec.ofNat 11 (ws.length + 2))) ∧
      Blank (storeFrom old 1 (image ws) (1 + BitVec.ofNat 11 (ws.length + 3))) := by
  obtain ⟨hlen, h2, h3⟩ := h.2 hn
  have hl := length_image ws
  rw [storeFrom_beyond _ _ _ _ (by omega) (by omega),
    storeFrom_beyond _ _ _ _ (by omega) (by omega)]
  exact ⟨h2, h3⟩

/-- Load and replay of queue 0 through the register stage. A replay that is never
stalled, over a memory that was clear behind the load, writes the copies asked for
into the pcap FIFO, and does so in `N * (W + 4)` cycles. -/
theorem load_replay_unstalled (s : Piped) {n : BitVec 32} {ws : List Word}
    {words : List Input} {close : Input} {rest : List Input} {first : Input} {later : List Input}
    (hl : LoadInputs 0x02 n ws words close rest) (hlen : 1 ≤ ws.length ∧ ws.length ≤ 2046)
    (hn : n ≠ 0)
    (hidle : ((machine queue0).run s.reset (words ++ close :: rest)).q.wr.state = .idle)
    (hwren : ((machine queue0).run s.reset (words ++ close :: rest)).q.memWren = false)
    (hwe : ((machine queue0).run s.reset (words ++ close :: rest)).regs.we = false)
    (hr : ReplayInputs n first later) (hclear : Clear s.bram.bootmem ws.length n)
    (hfree : Unstalled queue0 ((machine queue0).run s.reset (words ++ close :: rest))
      (first :: later)) :
    let s0 := (machine queue0).run s.reset (words ++ close :: rest)
    let t := (machine queue0).run s0 (first :: later)
    pushes queue0 s0 (first :: later) <+: copies n.toNat ws ∧
      (t.q.rdState = .idle → pushes queue0 s0 (first :: later) = copies n.toNat ws) ∧
      (n.toNat * (ws.length + 4) ≤ (first :: later).length → t.q.rdState = .idle) := by
  have hne : ws ≠ [] := by
    intro he
    simp [he] at hlen
  have hload := loaded_of_load queue0 s hl hne hlen.2 hidle hwren hwe
  have hrun := replaying_run queue0 (holds_storeFrom s.bram.bootmem hlen.2)
    (fun h1 => Clear.stored hclear h1) hn hclear.1 hload hr hfree
  exact ⟨hrun.within, hrun.done, hrun.ends⟩

/-- Two words, replayed twice over a zero memory into a ready receiver. -/
theorem load_replay_unstalled_two :
    let ws : List Word := [⟨1, 0xff, 0x20000, false⟩, ⟨2, 0x0f, 0x30000, true⟩]
    let words := [{ quietInput 2 with tuserSrcPort := 2, pre := ws[0]? },
      { quietInput 2 with tuserSrcPort := 2, pre := ws[1]? }]
    let load := words ++ { quietInput 2 with wrDone := true } :: List.replicate 3 (quietInput 2)
    let replay := List.replicate 12 { quietInput 2 with startReplay := true }
    pushes queue0 ((machine queue0).run (default : Piped).reset load) replay = copies 2 ws := by
  intro ws words load replay
  have hl : LoadInputs 0x02 2 ws words { quietInput 2 with wrDone := true }
      (List.replicate 3 (quietInput 2)) :=
    ⟨by decide, by decide, by decide, rfl, rfl, rfl, by decide⟩
  have hr : ReplayInputs 2 { quietInput 2 with startReplay := true }
      (List.replicate 11 { quietInput 2 with startReplay := true }) :=
    ⟨rfl, by simp [NoRise, List.replicate], by decide⟩
  have hclear : Clear (default : Piped).bram.bootmem ws.length 2 := by
    simp only [Clear, Blank]
    decide +kernel
  have hfree : Unstalled queue0 ((machine queue0).run (default : Piped).reset load)
      replay := by
    simp only [Unstalled]
    decide +kernel
  obtain ⟨_, hall, hend⟩ := load_replay_unstalled default hl (by decide) (by decide)
    (by decide +kernel) (by decide +kernel) (by decide +kernel) hr hclear hfree
  exact hall (hend (by decide))

/-- One word, loaded over a memory that held another one in the cell of the zero
word: the output register still shows that one when the replay starts. -/
theorem replay_pushes_stale :
    let stale : Word := ⟨7, 0xff, 0x20000, true⟩
    let ws : List Word := [⟨1, 0xff, 0x20000, true⟩]
    let s : Piped := { (default : Piped) with
      bram := ⟨fun a => if a = 3 then .pack stale else 0, 0⟩ }
    let words := [{ quietInput 1 with tuserSrcPort := 2, pre := ws[0]? }]
    let close := { quietInput 1 with wrDone := true }
    let rest := List.replicate 3 (quietInput 1)
    let s0 := (machine queue0).run s.reset (words ++ close :: rest)
    let first := { quietInput 1 with startReplay := true }
    let later := List.replicate 9 first
    LoadInputs 0x02 1 ws words close rest ∧ ReplayInputs 1 first later ∧
      s0.q.wr.state = .idle ∧ s0.q.memWren = false ∧ s0.regs.we = false ∧
      ((machine queue0).run s0 (first :: later)).q.rdState = .idle ∧
      pushes queue0 s0 (first :: later) = [stale, stale, ws[0]] ∧
      pushes queue0 s0 (first :: later) ≠ copies 1 ws := by
  intro stale ws s words close rest s0 first later
  have hp : pushes queue0 s0 (first :: later) = [stale, stale, ws[0]] := by decide +kernel
  refine ⟨⟨by decide, by decide, by decide, rfl, rfl, rfl, by decide⟩,
    ⟨rfl, by simp [NoRise, later, List.replicate, first], by decide⟩, by decide +kernel,
    by decide +kernel, by decide +kernel, by decide +kernel, hp, ?_⟩
  rw [hp]
  intro he
  simpa [copies, ws] using congrArg List.length he

-- A stall loses the words that come back while it lasts: of 36 words, the last two.
example :
    let ws : List Word := (List.range 36).map (fun k => ⟨BitVec.ofNat 512 k, 0xff, 0, k == 35⟩)
    let words := ws.map (fun w => { quietInput 1 with tuserSrcPort := 2, pre := some w })
    let load := words ++ { quietInput 1 with wrDone := true } :: List.replicate 3 (quietInput 1)
    let s0 := (machine queue0).run (default : Piped).reset load
    let go := { quietInput 1 with startReplay := true }
    let replay := List.replicate 42 { go with tready := false } ++ List.replicate 8 go
    pushes queue0 s0 replay = ws.take 34 ∧ ((machine queue0).run s0 replay).q.rdState = .idle := by
  intro ws words load s0 go replay
  decide +kernel

end Piped
end Osnt.Datapath
