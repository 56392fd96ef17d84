import Osnt.Proofs.PcapLoad

namespace Osnt.PcapReplay
open Lib

/-- `n` back-to-back copies of a sequence. -/
def copies (n : Nat) (ws : List Word) : List Word := (List.replicate n ws).flatten

/-- The fields of a word that a replay reproduces; the low side band is stamped. -/
def payload (w : Word) : BitVec 512 × BitVec 64 × Bool × BitVec 96 :=
  (w.tdata, w.tkeep, w.tlast, w.tuser.extractLsb' 32 96)

/-- After `prev`, the start bit does not rise again. -/
def NoRise : Bool → List Input → Prop
  | _, [] => True
  | prev, i :: is => (i.startReplay = true → prev = true) ∧ NoRise i.startReplay is

/-- The inputs of a replay: a cycle in which the start bit rises and any number of
cycles after it, with no load, no reset, a constant count and no second start. -/
structure ReplayInputs (n : BitVec 32) (first : Input) (rest : List Input) : Prop where
  start : first.startReplay = true
  noRise : NoRise true rest
  quiet : ∀ i ∈ first :: rest, i.swRst = false ∧ i.pre = none ∧ i.replayCount = n

/-- A cycle in which nothing is asked of a queue and its receiver is ready. -/
def quietInput (n : BitVec 32) : Input := ⟨false, 0, none, false, false, n, true⟩

theorem copies_succ (n : Nat) (ws : List Word) : copies (n + 1) ws = copies n ws ++ ws := by
  simp [copies, List.replicate_succ']

theorem copies_mono {m n : Nat} (h : m ≤ n) (ws : List Word) : copies m ws <+: copies n ws := by
  obtain ⟨k, rfl⟩ := Nat.exists_eq_add_of_le h
  refine ⟨copies k ws, ?_⟩
  rw [copies, copies, ← List.flatten_append, List.replicate_append_replicate]
  rfl

/-- Part of one more copy is still a prefix of all copies. -/
theorem copies_take_mono {m n : Nat} (h : m < n) (ws : List Word) (k : Nat) :
    copies m ws ++ ws.take k <+: copies n ws := by
  refine List.IsPrefix.trans ?_ (copies_mono (Nat.succ_le_of_lt h) ws)
  rw [copies_succ]
  exact (List.prefix_append_right_inj _).mpr ( List.take_prefix k ws)

namespace Queue

/-- Words taken out of the pcap FIFO in a cycle. -/
def popped (q : Queue) (i : Input) : List Word := if q.fifoRden i then [q.fifo.dout] else []

theorem doutValid_of_fifoRden {q : Queue} {i : Input} (h : q.fifoRden i = true) :
    q.fifo.doutValid = true := by
  cases hs : q.sendState <;> simp [fifoRden, hs, FallthroughFifo.empty] at h
  exact h.2

/-- A word handed over is the popped word with its ports stamped. -/
theorem payload_handed (p : Ports) (q : Queue) (i : Input) :
    (q.handed p i).map payload = (q.popped i).map payload := by
  have htag : payload (q.tword p) = payload q.fifo.dout := by
    simp only [payload, tword, Prod.mk.injEq, true_and]
    ext j hj
    simp only [BitVec.getElem_extractLsb', BitVec.getLsbD_append, BitVec.getLsbD_extractLsb']
    have hlow : ¬ 32 + j < 16 := by omega
    have htag : ¬ 32 + j - 16 < 16 := by omega
    have hshift : 32 + j - 16 - 16 = j := by omega
    simp [hlow, htag, hshift, hj]
  cases hs : q.sendState <;> cases ht : i.tready <;> cases he : q.fifo.empty <;>
    simp [handed, popped, tvalid, fifoRden, hs, ht, he, htag]

theorem popped_eq (q : Queue) (i : Input) :
    q.popped i = if q.fifoRden i && q.fifo.doutValid then [q.fifo.dout] else [] := by
  cases hr : q.fifoRden i with
  | false => simp [popped, hr]
  | true => simp [popped, hr, doutValid_of_fifoRden hr]

theorem full_of_fifoWrEn {q : Queue} {i : Input} {dina : MemWord}
    (h : q.fifoWrEn i dina = true) : q.fifo.full = false := by
  simp only [fifoWrEn, Bool.and_eq_true, Bool.not_eq_true'] at h
  exact FallthroughFifo.full_of_nearlyFull h.2

theorem rdNext_rest {q : Queue} {i : Input} (dina : MemWord) (hr : q.rdState = .idle)
    (hstart : q.start i = false) : q.rdNext i dina = ⟨1, false, 0, .idle⟩ := by
  simp [rdNext, hr, hstart]

theorem rdNext_stall {q : Queue} {i : Input} (dina : MemWord) (hr : q.rdState = .rd)
    (hrst : i.swRst = false) (hnf : q.fifo.nearlyFull = true) :
    q.rdNext i dina = ⟨q.memRdAddr, false, q.count, .rd⟩ := by
  simp [rdNext, hr, hrst, hnf]

theorem rdNext_word {q : Queue} {i : Input} (dina : MemWord) (hr : q.rdState = .rd)
    (hrst : i.swRst = false) (hnf : q.fifo.nearlyFull = false) (hd : dina.isMarker = false) :
    q.rdNext i dina = ⟨q.memRdAddr + 1, true, q.count, .rd⟩ := by
  simp [rdNext, hr, hrst, hnf, hd]

theorem toNat_count_succ {q : Queue} {n : BitVec 32} (h : q.count.toNat < n.toNat) :
    (q.count + 1).toNat = q.count.toNat + 1 := by
  have := n.isLt
  rw [BitVec.toNat_add]
  exact Nat.mod_eq_of_lt (by simp; omega)

/-- The marker ends a copy; the count decides whether another one follows. -/
theorem rdNext_marker {q : Queue} {i : Input} (dina : MemWord) (hr : q.rdState = .rd)
    (hrst : i.swRst = false) (hnf : q.fifo.nearlyFull = false) (hd : dina.isMarker = true)
    (hc : q.count.toNat < i.replayCount.toNat) :
    q.rdNext i dina =
      if q.count.toNat + 1 < i.replayCount.toNat then ⟨1, true, q.count + 1, .rd⟩
      else ⟨1, true, 0, .idle⟩ := by
  have hult : (q.count + 1).ult i.replayCount =
      decide (q.count.toNat + 1 < i.replayCount.toNat) := by
    rw [BitVec.ult, toNat_count_succ hc]
  simp only [rdNext, hr, hrst, hnf, hd, hult]
  simp

theorem pushed_of_gate (q : Queue) (i : Input) (dina : MemWord)
    (hg : dina.tvalid = true → q.fifoGate i dina = true) :
    q.pushed i dina =
      if dina.tvalid && !q.fifo.nearlyFull then [dina.unpack] else [] := by
  cases ht : dina.tvalid with
  | false => simp [pushed, fifoWrEn, fifoInTvalid, ht]
  | true => simp [pushed, fifoWrEn, fifoInTvalid, fifoIn, ht, hg ht]

theorem pushed_zero (q : Queue) (i : Input) {dina : MemWord} (hd : dina = 0) :
    q.pushed i dina = [] := by
  simp [pushed, fifoWrEn, fifoInTvalid, hd]

end Queue

/-- Conditions on a cycle of a replay after its start. -/
def Continues (n : BitVec 32) (q : Queue) (i : Input) : Prop :=
  i.swRst = false ∧ i.pre = none ∧ i.replayCount = n ∧ q.start i = false

/-- However the queue is wired, its cycles after the start continue the replay. -/
theorem along_continues {σ : Type} (m : Machine σ Input) (q : σ → Queue)
    (hq : ∀ s i, (q (m.step s i)).rStartReplay = i.startReplay) {n : BitVec 32} {s : σ}
    {is : List Input} (hrise : NoRise (q s).rStartReplay is)
    (hi : ∀ i ∈ is, i.swRst = false ∧ i.pre = none ∧ i.replayCount = n) :
    m.Along (fun t i => Continues n (q t) i) s is := by
  induction is generalizing s with
  | nil => trivial
  | cons i is ih =>
    obtain ⟨h1, h2, h3⟩ := hi i (by simp)
    have hrise' : NoRise (q (m.step s i)).rStartReplay is := by
      rw [hq]
      exact hrise.2
    refine ⟨⟨h1, h2, h3, ?_⟩, ih hrise' (fun j hj => hi j (by simp [hj]))⟩
    cases hst : i.startReplay with
    | false => simp [Queue.start, hst]
    | true => simp [Queue.start, hrise.1 hst]

/-- The memory shows the image of `ws` from address one on. -/
def Holds (ws : List Word) (mem : MemAddr → MemWord) : Prop :=
  ∀ k, k < ws.length + 2 → (image ws)[k]? = some (mem (1 + BitVec.ofNat 11 k))

theorem length_image (ws : List Word) : (image ws).length = ws.length + 2 := by simp [image]

/-- An image that fits the address space can be read back. -/
theorem holds_storeFrom (mem : MemAddr → MemWord) {ws : List Word} (h : ws.length ≤ 2046) :
    Holds ws (storeFrom mem 1 (image ws)) := by
  intro k hk
  have hlen := length_image ws
  have hw := window_storeFrom mem (1 : MemAddr) (image ws) (by omega)
  rw [← window_getElem _ _ (image ws).length k (by omega), hw]

theorem Holds.word {ws : List Word} {mem : MemAddr → MemWord} (h : Holds ws mem) {k : Nat}
    (hk : k < ws.length) : mem (1 + BitVec.ofNat 11 k) = .pack ws[k] := by
  have := h k (by omega)
  rw [image, List.getElem?_append_left (by simpa using hk), List.getElem?_map,
    List.getElem?_eq_getElem hk] at this
  exact (Option.some.inj this).symm

theorem Holds.marker {ws : List Word} {mem : MemAddr → MemWord} (h : Holds ws mem) :
    mem (1 + BitVec.ofNat 11 ws.length) = .marker := by
  have := h ws.length (by omega)
  simp only [image, List.length_map, Nat.le_refl, List.getElem?_append_right, Nat.sub_self] at this
  exact (Option.some.inj this).symm

theorem Holds.zero {ws : List Word} {mem : MemAddr → MemWord} (h : Holds ws mem) :
    mem (1 + BitVec.ofNat 11 (ws.length + 1)) = 0 := by
  have := h (ws.length + 1) (by omega)
  simp only [image] at this
  rw [List.getElem?_append_right (by simp)] at this
  simp only [List.length_map, Nat.add_sub_cancel_left] at this
  exact (Option.some.inj this).symm

namespace Direct

/-- Where a replay stands. In the read state the memory output is the word that
will be pushed next, and it is fresh: it was read in the last cycle or has been
held back by a stall. -/
inductive Phase (ws : List Word) (n : BitVec 32) (mem : MemAddr → MemWord) (q : Queue)
    (dina : MemWord) (out : List Word) : Prop where
  | word (k : Nat) (rdState : q.rdState = .rd) (fresh : q.rRden = true ∨ q.rFifoNearlyFull = true)
      (count : q.count.toNat < n.toNat) (hk : k ≤ ws.length)
      (data : dina = mem (1 + BitVec.ofNat 11 k))
      (addr : q.memRdAddr = 1 + BitVec.ofNat 11 (k + 1))
      (pushed : out = copies q.count.toNat ws ++ ws.take k)
  | gap (rdState : q.rdState = .rd) (fresh : q.rRden = true ∨ q.rFifoNearlyFull = true)
      (count : q.count.toNat < n.toNat) (data : dina = 0) (addr : q.memRdAddr = 1)
      (pushed : out = copies q.count.toNat ws)
  | finished (rdState : q.rdState = .idle) (data : dina = 0) (pushed : out = copies n.toNat ws)

/-- The state of a replay that has pushed `out` so far. -/
structure Replaying (ws : List Word) (n : BitVec 32) (mem : MemAddr → MemWord) (s : Direct)
    (out : List Word) : Prop where
  bootmem : s.bram.bootmem = mem
  wr : s.q.wr = .reset
  memWren : s.q.memWren = false
  phase : Phase ws n mem s.q s.bram.rddata out

/-- What a cycle of a replay changes, by what the read machine does. -/
theorem step_fields (p : Ports) {s : Direct} {i : Input} (hwr : s.q.wr = .reset)
    (hwren : s.q.memWren = false) (hrst : i.swRst = false) (hpre : i.pre = none) :
    (s.step p i).bram.bootmem = s.bram.bootmem ∧ (s.step p i).q.wr = .reset ∧
      (s.step p i).q.memWren = false ∧
      (s.step p i).bram.rddata =
        (if (s.q.rdNext i s.bram.rddata).rden then s.bram.bootmem s.q.memRdAddr
          else s.bram.rddata) ∧
      (s.step p i).q.memRdAddr = (s.q.rdNext i s.bram.rddata).addrNext ∧
      (s.step p i).q.count = (s.q.rdNext i s.bram.rddata).countNext ∧
      (s.step p i).q.rdState = (s.q.rdNext i s.bram.rddata).stateNext := by
  simp [step, Queue.step, Bram.step, Queue.memEn, Queue.memAddr, Queue.memWe, hwr, hwren,
    WrMachine.reset, WrMachine.step, WrMachine.next, hrst, hpre]

section Step

variable (p : Ports) {ws : List Word} {n : BitVec 32} {mem : MemAddr → MemWord} {s : Direct}
  {out : List Word} {i : Input}

/-- The phase after the cycle `i`, which may have pushed a word. -/
def PhaseAfter (ws : List Word) (n : BitVec 32) (mem : MemAddr → MemWord) (s : Direct)
    (out : List Word) (i : Input) : Prop :=
  Phase ws n mem (s.step p i).q (s.step p i).bram.rddata (out ++ s.q.pushed i s.bram.rddata)

/-- A stalled cycle pushes nothing and holds address and data. -/
theorem Replaying.stalled (h : Replaying ws n mem s out) (hi : Continues n s.q i)
    (hnf : s.q.fifo.nearlyFull = true) : PhaseAfter p ws n mem s out i := by
  obtain ⟨hrst, hpre, -, hstart⟩ := hi
  obtain ⟨-, -, -, hd, ha, hc, hst⟩ := step_fields p h.wr h.memWren hrst hpre
  have hp : s.q.pushed i s.bram.rddata = [] := by simp [Queue.pushed, Queue.fifoWrEn, hnf]
  have hfresh : (s.step p i).q.rFifoNearlyFull = true := hnf
  rw [PhaseAfter, hp, List.append_nil]
  cases h.phase with
  | word k hr _ hcount hk hdata haddr hpush =>
    have hx := Queue.rdNext_stall s.bram.rddata hr hrst hnf
    rw [hx] at hd ha hc hst
    exact .word k hst (.inr hfresh) (hc ▸ hcount) hk (hd.trans hdata) (ha.trans haddr)
      (hc ▸ hpush)
  | gap hr _ hcount hdata haddr hpush =>
    have hx := Queue.rdNext_stall s.bram.rddata hr hrst hnf
    rw [hx] at hd ha hc hst
    exact .gap hst (.inr hfresh) (hc ▸ hcount) (hd.trans hdata) (ha.trans haddr) (hc ▸ hpush)
  | finished hr hdata hpush =>
    have hx := Queue.rdNext_rest s.bram.rddata hr hstart
    rw [hx] at hd hst
    exact .finished hst (hd.trans hdata) hpush

/-- A word of the sequence is pushed and the next one is read. -/
theorem Replaying.word (hm : Holds ws mem) (h : Replaying ws n mem s out)
    (hi : Continues n s.q i) (hnf : s.q.fifo.nearlyFull = false) {k : Nat} (hlt : k < ws.length)
    (hr : s.q.rdState = .rd) (hf : s.q.rRden = true ∨ s.q.rFifoNearlyFull = true)
    (hcount : s.q.count.toNat < n.toNat) (hdata : s.bram.rddata = mem (1 + BitVec.ofNat 11 k))
    (haddr : s.q.memRdAddr = 1 + BitVec.ofNat 11 (k + 1))
    (hpush : out = copies s.q.count.toNat ws ++ ws.take k) : PhaseAfter p ws n mem s out i := by
  obtain ⟨hrst, hpre, -, -⟩ := hi
  obtain ⟨-, -, -, hd, ha, hc, hst⟩ := step_fields p h.wr h.memWren hrst hpre
  have hpack := hdata.trans (hm.word hlt)
  have hmk : s.bram.rddata.isMarker = false := by
    rw [hpack]
    exact MemWord.isMarker_pack _
  have hx := Queue.rdNext_word s.bram.rddata hr hrst hnf hmk
  have hgate : s.q.fifoGate i s.bram.rddata = true := by
    rcases hf with hf | hf <;> simp [Queue.fifoGate, hx, Queue.stallEnds, hnf, hf]
  have hp := s.q.pushed_of_gate i s.bram.rddata (fun _ => hgate)
  rw [hpack] at hp
  simp only [MemWord.tvalid_pack, hnf, MemWord.unpack_pack, Bool.not_false, Bool.and_self,
    if_true] at hp
  have hrd : (s.step p i).q.rRden = true := by simp [Direct.step, Queue.step, hx]
  rw [hx, h.bootmem] at hd
  rw [hx] at ha hc hst
  refine .word (k + 1) hst (.inl hrd) (hc ▸ hcount) hlt ?_ ?_ ?_
  · rw [hd, haddr]
    rfl
  · rw [ha, haddr, add_ofNat_succ]
  · rw [hc, hpush, hpack, hp, List.append_assoc, List.take_succ_eq_append_getElem hlt]

/-- The marker ends a copy; the zero word behind it is read next. -/
theorem Replaying.marker (hm : Holds ws mem) (h : Replaying ws n mem s out)
    (hi : Continues n s.q i) (hnf : s.q.fifo.nearlyFull = false) (hr : s.q.rdState = .rd)
    (hcount : s.q.count.toNat < n.toNat)
    (hdata : s.bram.rddata = mem (1 + BitVec.ofNat 11 ws.length))
    (haddr : s.q.memRdAddr = 1 + BitVec.ofNat 11 (ws.length + 1))
    (hpush : out = copies s.q.count.toNat ws ++ ws) : PhaseAfter p ws n mem s out i := by
  obtain ⟨hrst, hpre, hn, -⟩ := hi
  obtain ⟨-, -, -, hd, ha, hc, hst⟩ := step_fields p h.wr h.memWren hrst hpre
  have hmark := hdata.trans hm.marker
  have hp : s.q.pushed i s.bram.rddata = [] := by
    rw [s.q.pushed_of_gate i s.bram.rddata (by simp [hmark]), hmark]
    simp
  have hn1 := Queue.toNat_count_succ hcount
  have hx := Queue.rdNext_marker s.bram.rddata hr hrst hnf
    (by rw [hmark]; exact MemWord.isMarker_marker) (hn ▸ hcount)
  rw [PhaseAfter, hp, List.append_nil, hpush, ← copies_succ]
  rw [h.bootmem] at hd
  rw [hn] at hx
  by_cases hlast : s.q.count.toNat + 1 < n.toNat
  · rw [if_pos hlast] at hx
    have hrd : (s.step p i).q.rRden = true := by simp [Direct.step, Queue.step, hx]
    rw [hx] at hd ha hc hst
    refine .gap hst (.inl hrd) (by rw [hc, hn1]; exact hlast) ?_ ha (by rw [hc, hn1])
    rw [hd, haddr]
    exact hm.zero
  · rw [if_neg hlast] at hx
    rw [hx] at hd hst
    refine .finished hst ?_ (by congr 1; omega)
    rw [hd, haddr]
    exact hm.zero

/-- The zero word between two copies is not pushed; the first word is read again. -/
theorem Replaying.gap (h : Replaying ws n mem s out) (hi : Continues n s.q i)
    (hnf : s.q.fifo.nearlyFull = false) (hr : s.q.rdState = .rd)
    (hcount : s.q.count.toNat < n.toNat) (hdata : s.bram.rddata = 0)
    (haddr : s.q.memRdAddr = 1) (hpush : out = copies s.q.count.toNat ws) :
    PhaseAfter p ws n mem s out i := by
  obtain ⟨hrst, hpre, -, -⟩ := hi
  obtain ⟨-, -, -, hd, ha, hc, hst⟩ := step_fields p h.wr h.memWren hrst hpre
  have hmk : s.bram.rddata.isMarker = false := by
    rw [hdata]
    exact MemWord.isMarker_zero
  have hx := Queue.rdNext_word s.bram.rddata hr hrst hnf hmk
  have hp := s.q.pushed_zero i hdata
  have hrd : (s.step p i).q.rRden = true := by simp [Direct.step, Queue.step, hx]
  rw [hx, h.bootmem] at hd
  rw [hx] at ha hc hst
  refine .word 0 hst (.inl hrd) (hc ▸ hcount) (Nat.zero_le _) ?_ ?_ ?_
  · rw [hd, haddr]
    rfl
  · rw [ha, haddr]
    rfl
  · rw [hc, hp, hpush]
    simp

theorem Replaying.step (hm : Holds ws mem) (h : Replaying ws n mem s out)
    (hi : Continues n s.q i) :
    Replaying ws n mem (s.step p i) (out ++ s.q.pushed i s.bram.rddata) := by
  obtain ⟨hb, hw, hwren, hd, -, -, hst⟩ := step_fields p h.wr h.memWren hi.1 hi.2.1
  refine ⟨hb.trans h.bootmem, hw, hwren, ?_⟩
  cases hnf : s.q.fifo.nearlyFull with
  | true => exact h.stalled p hi hnf
  | false =>
    cases h.phase with
    | word k hr hf hcount hk hdata haddr hpush =>
      rcases Nat.lt_or_ge k ws.length with hlt | hge
      · exact h.word p hm hi hnf hlt hr hf hcount hdata haddr hpush
      · obtain rfl : k = ws.length := Nat.le_antisymm hk hge
        rw [List.take_length] at hpush
        exact h.marker p hm hi hnf hr hcount hdata haddr hpush
    | gap hr _ hcount hdata haddr hpush => exact h.gap p hi hnf hr hcount hdata haddr hpush
    | finished hr hdata hpush =>
      have hx := Queue.rdNext_rest s.bram.rddata hr hi.2.2.2
      rw [hx] at hd hst
      refine .finished hst (hd.trans hdata) ?_
      rw [s.q.pushed_zero i hdata, hpush, List.append_nil]

end Step

/-- The cycle in which the start bit rises reads the first word and pushes nothing. -/
theorem Loaded.replaying (p : Ports) (ws : List Word) {n : BitVec 32} {mem : MemAddr → MemWord}
    {s : Direct} (h : Loaded mem s) {i : Input} (hn0 : n ≠ 0) (hrst : i.swRst = false)
    (hpre : i.pre = none) (hn : i.replayCount = n) (hstart : i.startReplay = true) :
    Replaying ws n mem (s.step p i) [] ∧ s.q.pushed i s.bram.rddata = [] := by
  obtain ⟨hb, hw, hwren, hd, ha, hc, hst⟩ := step_fields p h.wr h.memWren hrst hpre
  have hnf := nearlyFull_of_empty h.resting.empty
  have hx : s.q.rdNext i s.bram.rddata = ⟨2, true, 0, .rd⟩ := by
    simp [Queue.rdNext, h.resting.rdState, Queue.start, h.resting.rStartReplay, hstart, hnf, hn,
      h.resting.memRdAddr]
    exact hn0
  have hgate : s.q.fifoGate i s.bram.rddata = false := by
    simp [Queue.fifoGate, h.resting.rRden, Queue.stallEnds, h.resting.rFifoNearlyFull]
  have hrd : (s.step p i).q.rRden = true := by simp [step, Queue.step, hx]
  have hpos : 0 < n.toNat := Nat.pos_of_ne_zero (fun he => hn0 (BitVec.eq_of_toNat_eq he))
  rw [hx] at hd ha hc hst
  refine ⟨⟨hb.trans h.bootmem, hw, hwren, ?_⟩, ?_⟩
  · refine .word 0 hst (.inl hrd) (by simpa [hc] using hpos) (Nat.zero_le _) ?_ ha ?_
    · rw [hd, h.resting.memRdAddr, h.bootmem]
      rfl
    · simp [hc, copies]
  · simp [Queue.pushed, Queue.fifoWrEn, Queue.fifoInTvalid, hgate]

/-- Everything pushed during a replay, and where the replay then stands. -/
theorem replaying_run (p : Ports) {ws : List Word} {n : BitVec 32} {mem : MemAddr → MemWord}
    (hm : Holds ws mem) (hn0 : n ≠ 0) {s : Direct} (h : Loaded mem s) {first : Input}
    {rest : List Input} (hr : ReplayInputs n first rest) :
    Replaying ws n mem ((machine p).run s (first :: rest))
      ((machine p).collect (fun t i => t.q.pushed i t.bram.rddata) s (first :: rest)) := by
  obtain ⟨hrst, hpre, hn⟩ := hr.quiet first (by simp)
  obtain ⟨hstart, hnone⟩ := h.replaying p ws hn0 hrst hpre hn hr.start
  have hrise : NoRise (s.step p first).q.rStartReplay rest := by
    simpa [step, Queue.step, hr.start] using hr.noRise
  have hal := along_continues (machine p) (fun t => t.q) (fun _ _ => rfl) hrise
    (fun i hi => hr.quiet i (by simp [hi]))
  rw [Machine.collect_cons, hnone, List.nil_append]
  refine (machine p).run_keeps hal
    (fun is t => Replaying ws n mem t
      ((machine p).collect (fun t i => t.q.pushed i t.bram.rddata) (s.step p first) is))
    hstart ?_
  intro past i hp hi
  rw [Machine.collect_concat]
  exact hp.step p hm hi

/-- Whatever a run pushes into the pcap FIFO is handed over or still inside. -/
theorem pushed_eq (p : Ports) {s : Direct} (h : s.q.fifo.Sound) (is : List Input) :
    ((machine p).run s is).q.fifo.Sound ∧
      s.q.fifo.contents ++ (machine p).collect (fun t i => t.q.pushed i t.bram.rddata) s is =
        (machine p).collect (fun t i => t.q.popped i) s is ++
          ((machine p).run s is).q.fifo.contents := by
  have hout : (fun (t : Direct) i => t.q.popped i) =
      fun t i => if t.q.fifoRden i && t.q.fifo.doutValid then [t.q.fifo.dout] else [] :=
    funext₂ (fun t i => t.q.popped_eq i)
  rw [hout]
  exact FallthroughFifo.flow_run (machine p) (fun _ => True) (fun t => t.q.fifo)
    (fun t i => t.q.fifoWrEn i t.bram.rddata) (fun t i => t.q.fifoRden i)
    (fun t i => t.q.fifoIn i t.bram.rddata) (fun _ _ _ => rfl)
    (fun _ _ _ => Queue.full_of_fifoWrEn) h (fun _ _ => trivial)

theorem payload_collect (p : Ports) (s : Direct) (is : List Input) :
    ((machine p).collect (fun t i => t.q.handed p i) s is).map payload =
      ((machine p).collect (fun t i => t.q.popped i) s is).map payload := by
  induction is generalizing s with
  | nil => rfl
  | cons i is ih =>
    simp only [Machine.collect_cons, List.map_append, ih]
    rw [Queue.payload_handed]

theorem Replaying.within {ws : List Word} {n : BitVec 32} {mem : MemAddr → MemWord} {s : Direct}
    {out : List Word} (h : Replaying ws n mem s out) : out <+: copies n.toNat ws := by
  cases h.phase with
  | word k _ _ hc _ _ _ hp => exact hp ▸ copies_take_mono hc ws k
  | gap _ _ hc _ _ hp => exact hp ▸ copies_mono (Nat.le_of_lt hc) ws
  | finished _ _ hp => exact hp ▸ List.prefix_refl _

theorem Replaying.done {ws : List Word} {n : BitVec 32} {mem : MemAddr → MemWord} {s : Direct}
    {out : List Word} (h : Replaying ws n mem s out) (hi : s.q.rdState = .idle) :
    out = copies n.toNat ws := by
  cases h.phase with
  | word k hr _ _ _ _ _ _ => rw [hi] at hr; cases hr
  | gap hr _ _ _ _ _ => rw [hi] at hr; cases hr
  | finished _ _ hp => exact hp

/-- A loaded memory is replayed word for word: what is handed over is always a
prefix of the copies asked for, and all of them once the replay has drained. -/
theorem Loaded.handed (p : Ports) {ws : List Word} {n : BitVec 32} {mem : MemAddr → MemWord}
    (hm : Holds ws mem) (hn0 : n ≠ 0) {s : Direct} (h : Loaded mem s) {first : Input}
    {rest : List Input} (hr : ReplayInputs n first rest) :
    let out := (machine p).collect (fun t i => t.q.handed p i) s (first :: rest)
    let t := (machine p).run s (first :: rest)
    out.map payload <+: (copies n.toNat ws).map payload ∧
      (t.q.rdState = .idle → t.q.fifo.contents = [] →
        out.map payload = (copies n.toNat ws).map payload) := by
  have hrun := replaying_run p hm hn0 h hr
  have hbal := (pushed_eq p h.resting.sound (first :: rest)).2
  rw [h.resting.empty, List.nil_append] at hbal
  refine ⟨?_, ?_⟩
  · rw [payload_collect]
    apply List.IsPrefix.map
    refine List.IsPrefix.trans ?_ hrun.within
    rw [hbal]
    exact List.prefix_append _ _
  · intro hidle hempty
    rw [hempty, List.append_nil] at hbal
    rw [payload_collect, ← hbal, hrun.done hidle]

/-- Load and replay of queue 0 on a memory of arbitrary previous content. -/
theorem load_replay_copies (s : Direct) {n : BitVec 32} {ws : List Word}
    {words : List Input} {close : Input} {rest : List Input} {first : Input} {later : List Input}
    (hl : LoadInputs 0x02 n ws words close rest) (hlen : 1 ≤ ws.length ∧ ws.length ≤ 2046)
    (hn : n ≠ 0)
    (hidle : ((machine queue0).run s.reset (words ++ close :: rest)).q.wr.state = .idle)
    (hwren : ((machine queue0).run s.reset (words ++ close :: rest)).q.memWren = false)
    (hr : ReplayInputs n first later) :
    let s0 := (machine queue0).run s.reset (words ++ close :: rest)
    let out := (machine queue0).collect (fun t i => t.q.handed queue0 i) s0 (first :: later)
    let t := (machine queue0).run s0 (first :: later)
    out.map payload <+: (copies n.toNat ws).map payload ∧
      (t.q.rdState = .idle → t.q.fifo.contents = [] →
        out.map payload = (copies n.toNat ws).map payload) := by
  have hne : ws ≠ [] := by
    intro he
    simp [he] at hlen
  exact (loaded_of_load queue0 s hl hne hidle hwren).handed queue0
    (holds_storeFrom s.bram.bootmem hlen.2) hn hr

/-- A two-word packet, loaded with a gap and replayed twice, comes out in full. -/
theorem load_replay_copies_two :
    let ws : List Word := [⟨1, 0xff, 0x20000, false⟩, ⟨2, 0x0f, 0x30000, true⟩]
    let words := [{ quietInput 2 with tuserSrcPort := 2, pre := ws[0]? }, quietInput 2,
      { quietInput 2 with tuserSrcPort := 2, pre := ws[1]? }]
    let load := words ++ { quietInput 2 with wrDone := true } :: [quietInput 2, quietInput 2]
    let replay := List.replicate 20 { quietInput 2 with startReplay := true }
    ((machine queue0).collect (fun t i => t.q.handed queue0 i)
        ((machine queue0).run (default : Direct).reset load) replay).map payload =
      (copies 2 ws).map payload := by
  intro ws words load replay
  have hl : LoadInputs 0x02 2 ws words { quietInput 2 with wrDone := true }
      [quietInput 2, quietInput 2] :=
    ⟨by decide, by decide, by decide, rfl, rfl, rfl, by decide⟩
  have hr : ReplayInputs 2 { quietInput 2 with startReplay := true }
      (List.replicate 19 { quietInput 2 with startReplay := true }) :=
    ⟨rfl, by simp [NoRise, List.replicate], by decide⟩
  exact (load_replay_copies default hl (by decide) (by decide) (by decide +kernel)
    (by decide +kernel) hr).2 (by decide +kernel) (by decide +kernel)

end Direct
end Osnt.PcapReplay
