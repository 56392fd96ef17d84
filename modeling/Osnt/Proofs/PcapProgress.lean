import Osnt.Proofs.PcapReplay

namespace Osnt.PcapReplay
open Lib

namespace Queue

/-- Cycles a ready receiver needs to make room for the next read of the array. -/
def stallRank (q : Queue) : Nat :=
  3 * q.fifo.fifo.depth.toNat +
    if q.fifo.staged = 3 then (if q.sendState = .send then 1 else 2) else 0

theorem stallRank_le {q : Queue} (h : q.fifo.Sound) : q.stallRank ≤ 98 := by
  obtain ⟨_, ht⟩ := h
  have := ht.wf.bound
  simp only [stallRank]
  split <;> (try split) <;> omega

theorem depth_fifo_step {q : Queue} (h : q.fifo.Sound) (p : Ports) (i : Input) (dina : MemWord) :
    (q.step p i dina).fifo.fifo.depth.toNat + q.fifo.fifoRdEn.toNat =
      q.fifo.fifo.depth.toNat + (q.fifoWrEn i dina).toNat := by
  obtain ⟨_, ht⟩ := h
  apply SmallFifo.depth_step
  · intro he
    simp only [fifoWrEn, Bool.and_eq_true, Bool.not_eq_true', FallthroughFifo.nearlyFull,
      SmallFifo.nearlyFull, decide_eq_false_iff_not] at he
    omega
  · exact fun hr => (q.fifo.fifoRdEn_iff.mp hr).1

/-- Under a stall a ready receiver brings the next free cell one cycle nearer. -/
theorem stallRank_step {q : Queue} (h : q.fifo.Sound) (p : Ports) {i : Input} (dina : MemWord)
    (hnf : q.fifo.nearlyFull = true) (hready : i.tready = true) (hn : i.replayCount ≠ 0) :
    (q.step p i dina).stallRank < q.stallRank := by
  have hw : q.fifoWrEn i dina = false := by simp [fifoWrEn, hnf]
  have hdepth := depth_fifo_step h p i dina
  have hpos : 0 < q.fifo.fifo.depth.toNat := by
    simp only [FallthroughFifo.nearlyFull, SmallFifo.nearlyFull, decide_eq_true_iff] at hnf
    omega
  obtain ⟨_, ht⟩ := h
  rw [hw] at hdepth
  by_cases h3 : q.fifo.staged = 3
  · -- All stages are full, so only the send machine can make room.
    have hr : q.fifo.fifoRdEn = false := by
      rw [Bool.eq_false_iff, Ne, q.fifo.fifoRdEn_iff]
      omega
    have hdv : q.fifo.doutValid = true := by
      cases hd : q.fifo.doutValid with
      | true => rfl
      | false =>
        have h1 := Bool.toNat_le q.fifo.middleValid
        have h2 := Bool.toNat_le q.fifo.fifoValid
        simp only [FallthroughFifo.staged, hd, Bool.toNat_false] at h3
        omega
    have hst := FallthroughFifo.staged_step ht.order (q.fifoWrEn i dina) (q.fifoRden i)
      (q.fifoIn i dina)
    change (q.step p i dina).fifo.staged + _ = _ at hst
    rw [hr] at hdepth hst
    simp only [Bool.toNat_false, Nat.add_zero] at hdepth hst
    cases hs : q.sendState with
    | send =>
      have hrd : q.fifoRden i = true := by simp [fifoRden, hs, hready, FallthroughFifo.empty, hdv]
      rw [hrd, hdv] at hst
      simp only [Bool.and_self, Bool.toNat_true] at hst
      have hfew : (q.step p i dina).fifo.staged ≠ 3 := by omega
      simp only [stallRank, hs, h3, if_true, if_neg hfew]
      omega
    | idle =>
      have hrd : q.fifoRden i = false := by simp [fifoRden, hs]
      have hn' : (q.step p i dina).sendState = .send := by
        simp [step, sendNext, hs, hready, FallthroughFifo.empty, hdv, BitVec.ofNat_eq_ofNat ▸ hn]
      rw [hrd] at hst
      simp only [Bool.false_and, Bool.toNat_false, Nat.add_zero] at hst
      simp [stallRank, hs, h3, hn', hst]
      omega
  · have hr : q.fifo.fifoRdEn = true := q.fifo.fifoRdEn_iff.mpr ⟨hpos, h3⟩
    rw [hr] at hdepth
    simp only [Bool.toNat_true, Bool.toNat_false] at hdepth
    simp only [stallRank, if_neg h3]
    split <;> (try split) <;> omega

end Queue

namespace Direct

/-- Reads of a replay so far: a copy takes one for each word, one for the marker
and one for the zero word behind it. -/
def reads (w : Nat) (s : Direct) : Nat :=
  s.q.count.toNat * (w + 2) + (s.q.memRdAddr - 1).toNat

theorem toNat_addr {k : Nat} (h : k < 2048) :
    ((1 : MemAddr) + BitVec.ofNat 11 k - 1).toNat = k := by
  rw [BitVec.add_comm, BitVec.add_sub_cancel, BitVec.toNat_ofNat]
  exact Nat.mod_eq_of_lt h

theorem Replaying.reads_lt {ws : List Word} {n : BitVec 32} {mem : MemAddr → MemWord} {s : Direct}
    {out : List Word} (h : Replaying ws n mem s out) (hlen : ws.length ≤ 2046)
    (hrd : s.q.rdState = .rd) : s.reads ws.length < n.toNat * (ws.length + 2) := by
  cases h.phase with
  | word k _ _ hc hk _ ha _ =>
    rw [reads, ha, toNat_addr (by omega)]
    calc s.q.count.toNat * (ws.length + 2) + (k + 1)
        < (s.q.count.toNat + 1) * (ws.length + 2) := by rw [Nat.succ_mul]; omega
      _ ≤ n.toNat * (ws.length + 2) := Nat.mul_le_mul_right _ hc
  | gap _ _ hc _ ha _ =>
    rw [reads, ha]
    calc s.q.count.toNat * (ws.length + 2) + ((1 : MemAddr) - 1).toNat
        < (s.q.count.toNat + 1) * (ws.length + 2) := by rw [Nat.succ_mul]; simp
      _ ≤ n.toNat * (ws.length + 2) := Nat.mul_le_mul_right _ hc
  | finished hi _ _ => rw [hrd] at hi; cases hi

/-- An unstalled cycle makes one read, or ends the replay. -/
theorem Replaying.reads_step (p : Ports) {ws : List Word} {n : BitVec 32} {mem : MemAddr → MemWord}
    (hm : Holds ws mem) (hlen : ws.length ≤ 2046) {s : Direct} {out : List Word}
    (h : Replaying ws n mem s out) {i : Input} (hi : Continues n s.q i) (hrd : s.q.rdState = .rd) :
    (s.step p i).q.rdState = .idle ∨
      (s.step p i).reads ws.length =
        s.reads ws.length + if s.q.fifo.nearlyFull then 0 else 1 := by
  obtain ⟨hrst, hpre, hn, -⟩ := hi
  obtain ⟨-, -, -, -, ha, hc, hst⟩ := step_fields p h.wr h.memWren hrst hpre
  cases hnf : s.q.fifo.nearlyFull with
  | true =>
    have hx := Queue.rdNext_stall s.bram.rddata hrd hrst hnf
    rw [hx] at ha hc
    exact .inr (by simp [reads, ha, hc])
  | false =>
    cases h.phase with
    | word k _ _ hcount hk hdata haddr _ =>
      rcases Nat.lt_or_ge k ws.length with hlt | hge
      · have hx := Queue.rdNext_word s.bram.rddata hrd hrst hnf
          (by rw [hdata.trans (hm.word hlt)]; exact MemWord.isMarker_pack _)
        rw [hx] at ha hc
        right
        rw [reads, reads, ha, hc, haddr, add_ofNat_succ, toNat_addr (by omega),
          toNat_addr (by omega)]
        simp
        omega
      · obtain rfl : k = ws.length := Nat.le_antisymm hk hge
        have hmark := hdata.trans hm.marker
        have hx := Queue.rdNext_marker s.bram.rddata hrd hrst hnf
          (by rw [hmark]; exact MemWord.isMarker_marker)
          (hn ▸ hcount)
        split at hx
        · rw [hx] at ha hc
          right
          rw [reads, reads, ha, hc, haddr, toNat_addr (by omega), Queue.toNat_count_succ hcount,
            Nat.succ_mul]
          simp
          omega
        · rw [hx] at hst
          exact .inl hst
    | gap _ _ _ hdata haddr _ =>
      have hx := Queue.rdNext_word s.bram.rddata hrd hrst hnf
        (by rw [hdata]; exact MemWord.isMarker_zero)
      rw [hx] at ha hc
      right
      simp [reads, ha, hc, haddr]
    | finished hidle _ _ => rw [hrd] at hidle; cases hidle

/-- Work left to a replay: reads first, then the stall in front of the next one. -/
def rank (n : BitVec 32) (w : Nat) (s : Direct) : Nat :=
  (n.toNat * (w + 2) - s.reads w) * 100 + s.q.stallRank

/-- A replay into a ready receiver comes back to its idle state. -/
theorem Replaying.ends (p : Ports) {ws : List Word} {n : BitVec 32} {mem : MemAddr → MemWord}
    (hm : Holds ws mem) (hlen : ws.length ≤ 2046) (hn0 : n ≠ 0) {s : Direct} {out : List Word}
    (h : Replaying ws n mem s out) (hf : s.q.fifo.Sound) :
    ∃ k, ((machine p).run s (List.replicate k (quietInput n))).q.rdState = .idle := by
  refine (machine p).run_reaches (quietInput n)
    (fun t => (∃ o, Replaying ws n mem t o) ∧ t.q.fifo.Sound)
    (fun t => t.q.rdState = .idle) (rank n ws.length) ?_ ⟨⟨out, h⟩, hf⟩
  intro t ht hbusy
  obtain ⟨⟨o, hr⟩, hs⟩ := ht
  have hrd : t.q.rdState = .rd := by
    cases hx : t.q.rdState with
    | rd => rfl
    | idle => exact absurd hx hbusy
  have hc : Continues n t.q (quietInput n) := ⟨rfl, rfl, rfl, rfl⟩
  have hr' := hr.step p hm hc
  have hs' : (t.step p (quietInput n)).q.fifo.Sound :=
    hs.step _ _ _ Queue.full_of_fifoWrEn
  rcases hr.reads_step p hm hlen hc hrd with hidle | hreads
  · exact .inl hidle
  by_cases hidle : (t.step p (quietInput n)).q.rdState = .idle
  · exact .inl hidle
  refine .inr ⟨⟨⟨_, hr'⟩, hs'⟩, ?_⟩
  have hlt := hr.reads_lt hlen hrd
  have hle := Queue.stallRank_le hs'
  change (t.step p (quietInput n)).rank n ws.length < _
  rw [rank, rank]
  cases hnf : t.q.fifo.nearlyFull with
  | true =>
    have hstall := Queue.stallRank_step hs p t.bram.rddata hnf (i := quietInput n) rfl hn0
    change (t.step p (quietInput n)).q.stallRank < _ at hstall
    simp only [hnf, if_true, Nat.add_zero] at hreads
    rw [hreads]
    omega
  | false =>
    simp only [hnf, Bool.false_eq_true, if_false] at hreads
    change (t.step p (quietInput n)).q.stallRank ≤ 98 at hle
    omega

/-- What a load of any size would have to keep for its replay to be contained: no
word of it is overwritten, every replay emits copies of one prefix of it and
nothing else, and the marker is reached by every replay that is not held back
for ever. -/
def Contained (ws : List Word) (n : BitVec 32) : Prop :=
  ∀ (s : Direct) (words : List Input) (close : Input) (rest : List Input),
    LoadInputs 0x02 n ws words close rest →
    let s0 := (machine queue0).run s.reset (words ++ close :: rest)
    s0.q.wr.state = .idle → s0.q.memWren = false →
    (∀ (k : Nat) (hk : k < ws.length), s0.bram.bootmem (1 + BitVec.ofNat 11 k) = .pack ws[k]) ∧
    ∃ us, us <+: ws ∧ ∀ (first : Input) (later : List Input), ReplayInputs n first later →
      let out := (machine queue0).collect (fun t i => t.q.handed queue0 i) s0 (first :: later)
      let t := (machine queue0).run s0 (first :: later)
      out.map payload <+: (copies n.toNat us).map payload ∧
      (t.q.rdState = .idle → t.q.fifo.contents = [] →
        out.map payload = (copies n.toNat us).map payload) ∧
      ∃ k, ((machine queue0).run t (List.replicate k (quietInput n))).q.rdState = .idle

theorem contained_of_fits {ws : List Word} {n : BitVec 32} (hne : ws ≠ []) (hn : n ≠ 0)
    (hlen : ws.length ≤ 2046) : Contained ws n := by
  intro s words close rest hl s0 hidle hwren
  have hload := loaded_of_load queue0 s hl hne hidle hwren
  have hm := holds_storeFrom s.bram.bootmem hlen
  refine ⟨?_, ws, List.prefix_refl _, ?_⟩
  · intro k hk
    rw [hload.bootmem]
    exact hm.word hk
  · intro first later hr out t
    obtain ⟨h1, h2⟩ := hload.handed queue0 hm hn hr
    refine ⟨h1, h2, (replaying_run queue0 hm hn hload hr).ends queue0 hm hlen hn ?_⟩
    exact (pushed_eq queue0 hload.resting.sound (first :: later)).1

/-- A load presented word by word, one a cycle. -/
def plainLoad (n : BitVec 32) (ws : List Word) : List Input :=
  ws.map (fun w => { quietInput n with tuserSrcPort := 0x02, pre := some w })

theorem plainLoad_inputs (n : BitVec 32) (ws : List Word) :
    LoadInputs 0x02 n ws (plainLoad n ws) { quietInput n with wrDone := true }
      [quietInput n, quietInput n] := by
  refine ⟨?_, ?_, ?_, ?_, rfl, rfl, ?_⟩
  · intro i hi
    simp only [plainLoad, List.mem_append, List.mem_map, List.mem_cons, List.not_mem_nil,
      or_false] at hi
    rcases hi with ⟨w, _, rfl⟩ | rfl | rfl | rfl <;> exact ⟨rfl, rfl, rfl⟩
  · intro i hi
    obtain ⟨w, _, rfl⟩ := List.mem_map.mp hi
    rfl
  · intro i hi _
    obtain ⟨w, _, rfl⟩ := List.mem_map.mp hi
    rfl
  · simp [plainLoad, List.filterMap_map]
  · intro i hi
    simp only [List.mem_cons, List.not_mem_nil, or_false, or_self] at hi
    rw [hi]
    rfl

/-- Two quiet cycles are enough for the last write of a load to land. -/
theorem load_lands {s : Direct} {n : BitVec 32} {ws : List Word} (hne : ws ≠ [])
    {words : List Input} {close r r' : Input}
    (hl : LoadInputs 0x02 n ws words close [r, r']) :
    let s0 := (machine queue0).run s.reset (words ++ close :: [r, r'])
    s0.q.wr.state = .idle ∧ s0.q.memWren = false := by
  have hl1 : LoadInputs 0x02 n ws words close [r] :=
    ⟨fun i hi => hl.quiet i (by simp at hi ⊢; tauto), hl.wordsOpen, hl.wordsPort, hl.wordsAre,
      hl.closeDone, hl.closePre, fun i hi => hl.restPre i (by simp at hi ⊢; tauto)⟩
  have hrun := run_load (machine queue0) (fun t => t.q.wr) settled (fun _ _ => rfl)
    (settled_step queue0) (s := s.reset) rfl hl1 hne
  rcases hrun with ⟨he, _⟩ | ⟨hw, _⟩
  · cases he
  have he : words ++ close :: [r, r'] = (words ++ close :: [r]) ++ [r'] := by simp
  have hr := hl.quiet r' (by simp)
  have hp := hl.restPre r' (by simp)
  rw [he, Machine.run_concat]
  generalize (machine queue0).run s.reset (words ++ close :: [r]) = t at hw
  simp [machine, step, Queue.step, WrMachine.step, WrMachine.next, hw, WrMachine.reset, hr, hp]

theorem addr_wraps {w : Nat} (h : 2047 ≤ w) :
    BitVec.ofNat 11 (w - 2047) = BitVec.ofNat 11 (w + 1) := by
  apply BitVec.eq_of_toNat_eq
  simp only [BitVec.toNat_ofNat]
  omega

/-- From 2047 words on, the zero word written last wraps onto a word of the load. -/
theorem not_contained_of_long {ws : List Word} (n : BitVec 32) (hbig : 2047 ≤ ws.length) :
    ¬ Contained ws n := by
  intro hc
  have hne : ws ≠ [] := by
    intro he
    simp [he] at hbig
  have hl := plainLoad_inputs n ws
  obtain ⟨hidle, hwren⟩ := load_lands (s := default) hne hl
  have hload := loaded_of_load queue0 default hl hne hidle hwren
  obtain ⟨hkeep, _⟩ := hc default _ _ _ hl hidle hwren
  have hk := hkeep (ws.length - 2047) (by omega)
  -- The zero word goes to address `W + 2`, which is `W - 2046` again.
  have haddr : BitVec.ofNat 11 (ws.length - 2047) =
      BitVec.ofNat 11 (ws.map MemWord.pack ++ [MemWord.marker]).length := by
    rw [List.length_append, List.length_map]
    exact addr_wraps (by omega)
  have himg : image ws = (ws.map .pack ++ [.marker]) ++ [0] := by simp [image]
  rw [hload.bootmem, himg, storeFrom_concat, haddr, Function.update_self] at hk
  exact MemWord.pack_ne_zero _ hk.symm

/-- A load is contained exactly when it has at most 2046 words, for every count. -/
theorem contained_iff (ws : List Word) (n : BitVec 32) (hne : ws ≠ []) (hn : n ≠ 0) :
    Contained ws n ↔ ws.length ≤ 2046 := by
  refine ⟨?_, contained_of_fits hne hn⟩
  intro hc
  by_contra hbig
  exact not_contained_of_long n (by omega) hc

/-- A packet of two words and one of three, to be replayed three times. -/
theorem contained_iff_five :
    Contained [⟨1, 0xffffffffffffffff, 0x20080, false⟩, ⟨2, 0xffffffffffffffff, 0, true⟩,
      ⟨3, 0xffffffffffffffff, 0x20090, false⟩, ⟨4, 0xffffffffffffffff, 0, false⟩,
      ⟨5, 0xffff, 0, true⟩] 3 :=
  (contained_iff _ 3 (by simp) (by decide)).mpr (by decide)

/-- 2047 words fill the memory from address one; the marker goes to address zero
and the zero word onto the first of them. -/
theorem not_contained_2047 : ¬ Contained (List.replicate 2047 ⟨1, 0xff, 0x20000, true⟩) 1 :=
  not_contained_of_long 1 (by rw [List.length_replicate])

end Direct
end Osnt.PcapReplay
