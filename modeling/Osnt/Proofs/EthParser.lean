import Osnt.EthParser
import Osnt.Proofs.HeaderCheck

/-! The records of `eth_parser`: when each is written, and when each is that of its packet. -/
namespace Osnt.EthParser
open Lib Lib.Server

section Search
variable (macs : Macs) (w : Word)

theorem searchCycles_le : searchCycles macs w ≤ 4 := by
  unfold searchCycles
  split
  · omega
  · split <;> omega

/-- The comparison made `c` cycles into the search for `w`. -/
def hitAt (c : Nat) : Bool :=
  macs.sel (BitVec.ofNat 3 (4 - c)) == dstMacOf w.tdata || groupBit w

/-- An address without the group bit is not the one all ones. -/
theorem ne_allOnes {w : Word} (h : groupBit w = false) : BitVec.allOnes 48 ≠ dstMacOf w.tdata := by
  intro he
  rw [groupBit, ← he] at h
  exact absurd h (by decide)

/-- The comparisons of a search for an address without the group bit, one after the other. -/
theorem hitAt_unicast {w : Word} (h : groupBit w = false) :
    (hitAt macs w 0 = false) ∧ (hitAt macs w 1 = decide (dstMacOf w.tdata = macs.mac3)) ∧
      (hitAt macs w 2 = decide (dstMacOf w.tdata = macs.mac2)) ∧
      (hitAt macs w 3 = decide (dstMacOf w.tdata = macs.mac1)) ∧
      (hitAt macs w 4 = decide (dstMacOf w.tdata = macs.mac0)) := by
  have hsel : ∀ m : BitVec 48, (m == dstMacOf w.tdata || groupBit w) =
      decide (dstMacOf w.tdata = m) := by
    intro m
    rw [h, Bool.or_false, Bool.eq_iff_iff, beq_iff_eq, decide_eq_true_iff]
    exact eq_comm
  refine ⟨?_, hsel _, hsel _, hsel _, hsel _⟩
  exact (hsel _).trans (decide_eq_false fun he => ne_allOnes h he.symm)

/-- The search ends in the cycle in which it finds the address, or with the last of the
comparisons. -/
theorem search_over {c : Nat} (hc : c ≤ searchCycles macs w) :
    (hitAt macs w c || BitVec.ofNat 3 (4 - c) == 0) = decide (c = searchCycles macs w) := by
  cases hg : groupBit w with
  | true =>
    simp only [searchCycles, hg, if_true] at hc ⊢
    obtain rfl : c = 0 := by omega
    simp [hitAt, hg]
  | false =>
    obtain ⟨h0, h1, h2, h3, h4⟩ := hitAt_unicast macs hg
    have hle := searchCycles_le macs w
    have hcases : c = 0 ∨ c = 1 ∨ c = 2 ∨ c = 3 ∨ c = 4 := by omega
    simp only [searchCycles, hg, Bool.false_eq_true, if_false] at hc ⊢
    unfold ownPort at hc ⊢
    split_ifs at hc ⊢ with e3 e2 e1 e0 <;> rcases hcases with rfl | rfl | rfl | rfl | rfl <;>
      simp_all

theorem search_found :
    hitAt macs w (searchCycles macs w) = (groupBit w || (ownPort macs w).isSome) ∧
    (groupBit w = false → ∀ p ∈ ownPort macs w,
      (BitVec.ofNat 3 (4 - searchCycles macs w)).extractLsb' 0 2 ++ (0 : BitVec 1) = p) := by
  cases hg : groupBit w with
  | true => simp [hitAt, hg]
  | false =>
    obtain ⟨h0, h1, h2, h3, h4⟩ := hitAt_unicast macs hg
    simp only [searchCycles, hg, Bool.false_eq_true, if_false, Bool.false_or]
    unfold ownPort
    split_ifs with e3 e2 e1 e0 <;> simp_all

end Search

def headerOf (p : Nat × Word) : Header := ⟨dstMacOf p.2.tdata, ethertypeOf p.2.tdata⟩

/-- The record of `w`, with whatever ethertype is in the register. -/
def recordWith (macs : Macs) (w : Word) (ethertype : BitVec 16) : Record where
  isForUs := groupBit w || (ownPort macs w).isSome
  isArpPkt := ethertype == ethArp
  isIpPkt := ethertype == ethIp
  isBroadcast := groupBit w
  macDstPortNum := (BitVec.ofNat 3 (4 - searchCycles macs w)).extractLsb' 0 2 ++ (0 : BitVec 1)

/-- Where the search stands in cycle `n`: `out` is the entry about to leave `parser_fifo`, its
record being written, and `waiting` are those behind it. The search is free for them from cycle
`r` on. -/
inductive Phase (macs : Macs) (n r : Nat) (s : Regs) :
    List (Nat × Word) → List (Nat × Word) → Prop
  | idle {waiting} (state : s.state = .idle) (free : r ≤ n + 1)
      (next : ∀ p ∈ waiting.head?, max (p.1 + 3) r = n + 1) : Phase macs n r s [] waiting
  | doSearch {p rest} (c : Nat) (state : s.state = .doSearch)
      (count : s.macCount = BitVec.ofNat 3 (4 - c)) (since : max (p.1 + 3) r + c = n)
      (open_ : c ≤ searchCycles macs p.2) : Phase macs n r s [] (p :: rest)
  | flush {p rest} (state : s.state = .flushEntry)
      (over_ : dueAt 3 (searchCycles macs) r p + 1 = n) :
      Phase macs n r s [p] rest

section Step
variable {macs : Macs} {n r : Nat} {s t : Regs} {waiting fresh : List (Nat × Word)}
  (hst : t.state = s.stateNext macs) (hcnt : t.macCount = s.macCountNext)
  (hvis : ∀ p ∈ waiting, p.1 + 2 ≤ n) (hfresh : ∀ p ∈ fresh, p.1 + 2 = n + 1)
include hst hfresh

/-- The cycle before an entry leaves, or in which there is none. -/
theorem phase_idle_step (state : s.state = .idle) (free : r ≤ n + 1)
    (next : ∀ p ∈ waiting.head?, max (p.1 + 3) r = n + 1) (hcnt : t.macCount = s.macCountNext)
    (hfifo : s.parserFifo = waiting.map headerOf) :
    Phase macs (n + 1) r t [] (waiting ++ fresh) := by
  cases waiting with
  | nil =>
    have hempty : s.parserFifo.isEmpty = true := by simp [hfifo]
    refine .idle (by rw [hst, Regs.stateNext, state]; simp [hempty]) (by omega) ?_
    intro p hp
    have hp2 := hfresh p (List.mem_of_mem_head? hp)
    omega
  | cons p rest =>
    have hfull : s.parserFifo.isEmpty = false := by simp [hfifo]
    have hn := next p rfl
    refine .doSearch 0 ?_ ?_ (by omega) (Nat.zero_le _)
    · rw [hst, Regs.stateNext, state]
      simp [hfull]
    · rw [hcnt, Regs.macCountNext, state]
      simp [hfull]

include hvis

/-- The machine is idle again one cycle after the entry has left. -/
theorem phase_flush_step {p : Nat × Word} (state : s.state = .flushEntry)
    (hend : dueAt 3 (searchCycles macs) r p + 1 = n) :
    Phase macs (n + 1) (freeFrom 3 3 (searchCycles macs) r [p]) t [] (waiting ++ fresh) := by
  refine .idle (by rw [hst, Regs.stateNext, state]) (by unfold freeFrom freeFrom; omega) ?_
  intro q hq
  have hq2 : q.1 + 2 ≤ n + 1 := by
    rcases List.mem_append.mp (List.mem_of_mem_head? hq) with hw | hf
    · exact Nat.le_succ_of_le (hvis q hw)
    · exact Nat.le_of_eq (hfresh q hf)
  unfold freeFrom freeFrom
  omega

end Step

theorem hit_doSearch (macs : Macs) {s : Regs} {p : Nat × Word} {rest : List (Nat × Word)} {c : Nat}
    (count : s.macCount = BitVec.ofNat 3 (4 - c))
    (hfifo : s.parserFifo = (p :: rest).map headerOf) :
    s.hit macs = hitAt macs p.2 c ∧ s.broadcastBit = groupBit p.2 := by
  have hfront : s.front = headerOf p := by simp [Regs.front, hfifo]
  simp [Regs.hit, Regs.broadcastBit, hfront, headerOf, hitAt, groupBit, count]

theorem sub_one_count {c : Nat} (h : c < 4) :
    BitVec.ofNat 3 (4 - c) - 1 = BitVec.ofNat 3 (4 - (c + 1)) := by
  have hcases : c = 0 ∨ c = 1 ∨ c = 2 ∨ c = 3 := by omega
  rcases hcases with rfl | rfl | rfl | rfl <;> rfl

/-- A comparison ends the search and has its record written, or neither. -/
theorem doSearch_moves {macs : Macs} {s : Regs} {b : Bool} (state : s.state = .doSearch)
    (hb : (s.hit macs || s.macCount == 0) = b) :
    s.stateNext macs = (if b then .flushEntry else .doSearch) ∧
      s.ethWrite macs = if b then [s.record macs] else [] := by
  subst hb
  simp only [Regs.stateNext, Regs.ethWrite, Regs.wrEn, state, beq_self_eq_true, Bool.true_and,
    and_self]

/-- One cycle of the search: `now` is the packet whose record is written in it. -/
theorem Phase.step {macs : Macs} {n r : Nat} {s t : Regs} {out waiting fresh : List (Nat × Word)}
    (h : Phase macs n r s out waiting) (hst : t.state = s.stateNext macs)
    (hcnt : t.macCount = s.macCountNext) (hfifo : s.parserFifo = (out ++ waiting).map headerOf)
    (hvis : ∀ p ∈ waiting, p.1 + 2 ≤ n) (hfresh : ∀ p ∈ fresh, p.1 + 2 = n + 1) :
    (s.rdParser = !out.isEmpty) ∧ ∃ now behind, now ++ behind = waiting ++ fresh ∧
      Phase macs (n + 1) (freeFrom 3 3 (searchCycles macs) r out) t now behind ∧
      s.ethWrite macs = now.map (fun p => recordWith macs p.2 s.ethertype) ∧
      ∀ p ∈ now, now = [p] ∧ out = [] ∧ dueAt 3 (searchCycles macs) r p = n := by
  cases h with
  | idle state free next =>
    refine ⟨by simp [Regs.rdParser, state], [], waiting ++ fresh, rfl,
      phase_idle_step hst hfresh state free next hcnt hfifo, ?_, by simp⟩
    simp [Regs.ethWrite, Regs.wrEn, state]
  | flush state hend =>
    refine ⟨by simp [Regs.rdParser, state], [], waiting ++ fresh, rfl,
      phase_flush_step hst hvis hfresh state hend, ?_, by simp⟩
    simp [Regs.ethWrite, Regs.wrEn, state]
  | @doSearch p rest c state count since hopen =>
    refine ⟨by simp [Regs.rdParser, state], ?_⟩
    obtain ⟨hhit, hbit⟩ := hit_doSearch macs count hfifo
    have hover := search_over macs p.2 hopen
    rw [← hhit, ← count] at hover
    by_cases hc : c = searchCycles macs p.2
    · -- the record is written, and the entry flushed in the next cycle
      rw [decide_eq_true hc] at hover
      obtain ⟨hfound, -⟩ := search_found macs p.2
      have hend : dueAt 3 (searchCycles macs) r p = n := by
        unfold dueAt
        omega
      obtain ⟨hnext, hwrite⟩ := doSearch_moves state hover
      refine ⟨[p], rest ++ fresh, rfl, .flush (hst.trans hnext) (by unfold freeFrom; omega), ?_, ?_⟩
      · rw [hwrite, if_pos rfl, List.map_singleton]
        simp only [recordWith, Regs.record, Regs.portFound, state, hhit, hbit, count, hc, hfound,
          beq_self_eq_true, Bool.true_and]
      · intro q hq
        obtain rfl : q = p := by simpa using hq
        exact ⟨rfl, rfl, hend⟩
    · rw [decide_eq_false hc] at hover
      have hlt : c < searchCycles macs p.2 := by omega
      have hle := searchCycles_le macs p.2
      obtain ⟨hnext, hwrite⟩ := doSearch_moves state hover
      refine ⟨[], p :: rest ++ fresh, rfl, .doSearch (c + 1) (hst.trans hnext) ?_ ?_ hlt, hwrite,
        by simp⟩
      · rw [hcnt, Regs.macCountNext, state, count]
        exact sub_one_count (by omega)
      · unfold freeFrom
        omega

theorem Phase.free {macs : Macs} {n r : Nat} {s : Regs} {out waiting : List (Nat × Word)}
    (h : Phase macs n r s out waiting) : freeFrom 3 3 (searchCycles macs) r out < n + 3 := by
  cases h with
  | idle state free next => exact Nat.lt_succ_of_le (Nat.le_succ_of_le free)
  | doSearch c state count since hopen =>
    unfold freeFrom
    omega
  | flush state hend =>
    unfold freeFrom freeFrom
    omega

theorem Phase.due {macs : Macs} {n r : Nat} {s : Regs} {out waiting fresh : List (Nat × Word)}
    (h : Phase macs n r s out waiting) (hfresh : ∀ p ∈ fresh, p.1 + 2 = n + 1) :
    ∀ p ∈ (waiting ++ fresh).head?,
      n ≤ dueAt 3 (searchCycles macs) (freeFrom 3 3 (searchCycles macs) r out) p := by
  intro p hp
  cases h with
  | idle state free next =>
    rw [freeFrom_nil, dueAt]
    cases waiting with
    | nil =>
      have hp2 := hfresh p (List.mem_of_mem_head? hp)
      omega
    | cons q rest =>
      have hn := next p hp
      omega
  | doSearch c state count since hopen =>
    obtain rfl : _ = p := by simpa using hp
    rw [freeFrom_nil, dueAt]
    omega
  | flush state hend =>
    unfold freeFrom freeFrom
    rw [dueAt]
    omega

/-- The header in the registers in front of `parser_fifo`. -/
inductive Fresh (n : Nat) (s : Regs) : List (Nat × Word) → Prop
  | none (req : s.searchReq = false) : Fresh n s []
  | some {m : Nat} {w : Word} (req : s.searchReq = true) (mac : s.dstMac = dstMacOf w.tdata)
      (ethertype : s.ethertype = ethertypeOf w.tdata) (since : m + 1 = n) : Fresh n s [(m, w)]

/-- The packets accepted by cycle `n` are those whose record is written and flushed (`gone`), the
one being flushed (`out`), those waiting and the one in the registers. -/
structure Parsed (macs : Macs) (n : Nat) (gone out waiting fresh : List (Nat × Word)) (s : Regs) :
    Prop where
  fifo : s.parserFifo = (out ++ waiting).map headerOf
  taken : Fresh n s fresh
  visible : ∀ p ∈ waiting, p.1 + 2 ≤ n
  live : ∀ p ∈ (gone ++ out ++ (waiting ++ fresh)).getLast?, s.ethertype = ethertypeOf p.2.tdata
  phase : Phase macs n (freeFrom 3 3 (searchCycles macs) 0 gone) s out waiting

theorem Fresh.since {n : Nat} {s : Regs} {fresh : List (Nat × Word)} (h : Fresh n s fresh) :
    ∀ p ∈ fresh, p.1 + 2 = n + 1 := by
  cases h with
  | none req => simp
  | some req mac ethertype since =>
    intro p hp
    obtain rfl := List.mem_singleton.mp hp
    exact congrArg (· + 1) since

/-- `parser_fifo` takes the header in the registers and gives up the entry being flushed. -/
theorem fifo_step {macs : Macs} {n depth : Nat} {s : Regs} {out waiting fresh : List (Nat × Word)}
    (hfifo : s.parserFifo = (out ++ waiting).map headerOf) (hfresh : Fresh n s fresh)
    (hroom : s.searchReq = true → s.parserFifo.length < depth) (hrd : s.rdParser = !out.isEmpty)
    (hout : out = [] ∨ ∃ p, out = [p]) (b : Bool) (d : BitVec 512) :
    (s.step macs depth b d).parserFifo = (waiting ++ fresh).map headerOf := by
  have hread : (if s.rdParser then s.parserFifo.tail else s.parserFifo) = waiting.map headerOf := by
    rw [hrd, hfifo]
    rcases hout with rfl | ⟨p, rfl⟩
    · simp
    · simp
  have hwrite : (if s.searchReq && decide (s.parserFifo.length < depth) then
      [(⟨s.dstMac, s.ethertype⟩ : Header)] else []) = fresh.map headerOf := by
    cases hfresh with
    | none req => simp [req]
    | some req mac ethertype since => simp [req, hroom req, mac, ethertype, headerOf]
  rw [List.map_append, ← hread, ← hwrite, Regs.step]

theorem fresh_step (macs : Macs) (depth n : Nat) (s : Regs) (new : Option Word) {d : BitVec 512}
    (hd : ∀ w ∈ new, w.tdata = d) :
    Fresh (n + 1) (s.step macs depth new.isSome d) (new.toList.map fun w => (n, w)) := by
  cases new with
  | none => exact .none rfl
  | some w =>
    have hw := hd w rfl
    refine .some rfl ?_ ?_ rfl
    · rw [hw]
      rfl
    · rw [hw]
      rfl

/-- One cycle that takes `new` in; `now` is the packet whose record is written in it. -/
theorem Parsed.step {macs : Macs} {n : Nat} {gone out waiting fresh : List (Nat × Word)} {s : Regs}
    (h : Parsed macs n gone out waiting fresh s) {depth : Nat}
    (hroom : s.searchReq = true → s.parserFifo.length < depth) (new : Option Word) {d : BitVec 512}
    (hd : ∀ w ∈ new, w.tdata = d) :
    ∃ now behind, now ++ behind = waiting ++ fresh ∧
      Parsed macs (n + 1) (gone ++ out) now behind (new.toList.map fun w => (n, w))
        (s.step macs depth new.isSome d) ∧
      s.ethWrite macs = now.map (fun p => recordWith macs p.2 s.ethertype) ∧
      ∀ p ∈ now, now = [p] ∧
        dueAt 3 (searchCycles macs) (freeFrom 3 3 (searchCycles macs) 0 (gone ++ out)) p = n := by
  have hout : out = [] ∨ ∃ p, out = [p] := by
    cases h.phase with
    | idle => exact .inl rfl
    | doSearch => exact .inl rfl
    | flush => exact .inr ⟨_, rfl⟩
  obtain ⟨hrd, now, behind, hnb, hphase, hwrite, hnow⟩ :=
    h.phase.step (t := s.step macs depth new.isSome d) rfl rfl h.fifo h.visible h.taken.since
  have hsplit : gone ++ out ++ now ++ (behind ++ new.toList.map fun w => (n, w)) =
      gone ++ out ++ (waiting ++ fresh) ++ new.toList.map fun w => (n, w) := by
    rw [← hnb]
    simp only [List.append_assoc]
  refine ⟨now, behind, hnb, ⟨?_, fresh_step macs depth n s new hd, ?_, ?_, ?_⟩, hwrite, ?_⟩
  · rw [fifo_step h.fifo h.taken hroom hrd hout, hnb]
  · intro p hp
    have hmem : p ∈ waiting ++ fresh := hnb ▸ List.mem_append_right _ hp
    rcases List.mem_append.mp hmem with hw | hf
    · exact Nat.le_succ_of_le (h.visible p hw)
    · exact Nat.le_of_eq (h.taken.since p hf)
  · rw [hsplit]
    cases new with
    | none =>
      rw [Option.toList_none, List.map_nil, List.append_nil]
      exact h.live
    | some w => simp [Regs.step, hd w rfl]
  · rw [freeFrom_append]
    exact hphase
  · intro p hp
    obtain ⟨hone, hempty, hend⟩ := hnow p hp
    rw [hempty, List.append_nil]
    exact ⟨hone, hend⟩

/-- The ethertype in the register in cycle `e`. -/
def liveType (ps : List (Nat × Word)) (e : Nat) : BitVec 16 :=
  ((latestBefore ps e).map fun w => ethertypeOf w.tdata).getD 0

theorem latestBefore_append {ps qs : List (Nat × Word)} {e : Nat} (h : ∀ q ∈ qs, e ≤ q.1) :
    latestBefore (ps ++ qs) e = latestBefore ps e := by
  have hnone : qs.filter (fun p => decide (p.1 < e)) = [] := by
    rw [List.filter_eq_nil_iff]
    intro q hq
    have hle := h q hq
    simp only [decide_eq_true_eq]
    omega
  rw [latestBefore, latestBefore, List.filter_append, hnone, List.append_nil]

theorem latestBefore_all {ps : List (Nat × Word)} {e : Nat} (h : ∀ p ∈ ps, p.1 < e) :
    latestBefore ps e = ps.getLast?.map Prod.snd := by
  rw [latestBefore, List.filter_eq_self.mpr]
  intro p hp
  exact decide_eq_true (h p hp)

section Runs
variable (depth : Nat) (macs : Macs)

theorem check_run (ins : List HeaderCheck.Input) :
    ((machine depth macs).run reset ins).check = HeaderCheck.after ins := by
  have hview := (machine depth macs).run_view HeaderCheck.machine Sys.check id (fun _ _ => rfl)
    reset ins
  rw [List.map_id] at hview
  exact hview

theorem starts_concat (ins : List HeaderCheck.Input) (i : HeaderCheck.Input) :
    starts (ins ++ [i]) =
      starts ins ++ ((HeaderCheck.after ins).header i).toList.map fun w => (ins.length, w) := by
  rw [starts, Machine.schedule_concat]
  unfold HeaderCheck.Sys.header HeaderCheck.after
  split <;> rfl

theorem starts_snd (ins : List HeaderCheck.Input) :
    (starts ins).map Prod.snd = HeaderCheck.firstWords ins := by
  induction ins using List.reverseRecOn with
  | nil => rfl
  | append_singleton ins i ih =>
    rw [starts_concat, HeaderCheck.firstWords_concat, List.map_append, ih, List.map_map]
    congr 1
    exact List.map_id _

theorem starts_increasing (ins : List HeaderCheck.Input) :
    (starts ins).Pairwise (fun p q => p.1 < q.1) ∧ ∀ p ∈ starts ins, p.1 < ins.length := by
  apply Machine.schedule_increasing
  intro s i
  split <;> simp

/-- The record of a packet as it is written in cycle `e`. -/
def written (ps : List (Nat × Word)) (e : Nat × Word) : Nat × Record :=
  (e.1, recordWith macs e.2 (liveType ps e.1))

theorem header_tdata {s : HeaderCheck.Sys} {i : HeaderCheck.Input} :
    ∀ w ∈ s.header i, w.tdata = i.word.tdata := by
  intro w hw
  simp only [HeaderCheck.Sys.header, Option.mem_def, Option.ite_none_right_eq_some,
    Option.some.injEq] at hw
  rw [hw.2]

theorem header_isSome (s : HeaderCheck.Sys) (i : HeaderCheck.Input) :
    (s.header i).isSome = s.ctl.wordIpDstHi (s.valid i) := by
  unfold HeaderCheck.Sys.header
  cases s.ctl.wordIpDstHi (s.valid i) <;> rfl

/-- What the register held in a past cycle does not depend on the packet accepted now. -/
theorem liveType_concat (ins : List HeaderCheck.Input) (i : HeaderCheck.Input) {e : Nat}
    (he : e ≤ ins.length) : liveType (starts (ins ++ [i])) e = liveType (starts ins) e := by
  rw [liveType, liveType, starts_concat, latestBefore_append]
  intro q hq
  obtain ⟨w, -, rfl⟩ := List.mem_map.mp hq
  exact he

variable {depth macs}

/-- The register holds the ethertype of the last packet begun. -/
theorem Parsed.liveType_eq {ins : List HeaderCheck.Input} {s : Regs}
    {gone out waiting fresh : List (Nat × Word)}
    (h : Parsed macs ins.length gone out waiting fresh s)
    (hstarts : starts ins = gone ++ out ++ (waiting ++ fresh)) (hne : starts ins ≠ []) :
    liveType (starts ins) ins.length = s.ethertype := by
  obtain ⟨p, hp⟩ : ∃ p, (starts ins).getLast? = some p :=
    ⟨_, List.getLast?_eq_some_getLast hne⟩
  have hlive := h.live
  rw [← hstarts] at hlive
  rw [liveType, latestBefore_all (starts_increasing ins).2, hp, hlive p hp]
  rfl

/-- The records written are those of the packets that have left the search, each in the cycle in
which it was due. -/
theorem parsed_run {ins : List HeaderCheck.Input} (h : NeverOverflow depth macs ins) :
    ∃ gone out waiting fresh, starts ins = gone ++ out ++ (waiting ++ fresh) ∧
      Parsed macs ins.length gone out waiting fresh ((machine depth macs).run reset ins).regs ∧
      recordSchedule depth macs ins =
        (searches macs (gone ++ out)).map (written macs (starts ins)) := by
  induction ins using List.reverseRecOn with
  | nil =>
    refine ⟨[], [], [], [], rfl,
      ⟨rfl, .none rfl, by simp, by simp, .idle rfl (Nat.zero_le 1) ?_⟩, rfl⟩
    simp
  | append_singleton ins i ih =>
    obtain ⟨hpast, hroom⟩ := Machine.along_concat _ |>.mp h
    obtain ⟨gone, out, waiting, fresh, hstarts, hinv, hrec⟩ := ih hpast
    obtain ⟨now, behind, hnb, hinv', hwrite, hnow⟩ :=
      hinv.step hroom ((HeaderCheck.after ins).header i) header_tdata
    refine ⟨gone ++ out, now, behind,
      ((HeaderCheck.after ins).header i).toList.map fun w => (ins.length, w), ?_, ?_, ?_⟩
    · rw [starts_concat, hstarts, ← hnb]
      simp only [List.append_assoc]
    · have hregs : ((machine depth macs).run reset (ins ++ [i])).regs =
          ((machine depth macs).run reset ins).regs.step macs depth
            ((HeaderCheck.after ins).header i).isSome i.word.tdata := by
        rw [Machine.run_concat, header_isSome, ← check_run depth macs]
        rfl
      rw [List.length_append, List.length_singleton, hregs]
      exact hinv'
    · have hold : ∀ e ∈ searches macs (gone ++ out),
          written macs (starts (ins ++ [i])) e = written macs (starts ins) e := by
        intro e he
        have hle := due_le_freeFrom 3 3 (searchCycles macs) e he
        have hfree := hinv.phase.free
        rw [← freeFrom_append] at hfree
        rw [written, written, liveType_concat ins i (by omega)]
      rw [recordSchedule, Machine.schedule_concat, searches, due_append, ← searches,
        List.map_append, List.map_congr_left hold, ← hrec, hwrite]
      refine congrArg _ ?_
      cases now with
      | nil => rfl
      | cons p more =>
        obtain ⟨hone, hend⟩ := hnow p (by simp)
        obtain ⟨-, rfl⟩ := List.cons.inj hone
        have hne : starts ins ≠ [] := by
          rw [hstarts, ← hnb]
          simp
        rw [← hinv.liveType_eq hstarts hne, ← liveType_concat ins i (Nat.le_refl _)]
        simp only [due, List.map_cons, List.map_nil, written, hend]

/-- The packets whose record is due by now are the first ones accepted, and their records are those
written. -/
theorem due_records {ins : List HeaderCheck.Input} (h : NeverOverflow depth macs ins) :
    ∃ done later, starts ins = done ++ later ∧
      ((searches macs (starts ins)).filter fun e => e.1 < ins.length) = searches macs done ∧
      recordSchedule depth macs ins = (searches macs done).map (written macs (starts ins)) := by
  obtain ⟨gone, out, waiting, fresh, hstarts, hinv, hrec⟩ := parsed_run h
  have hfree := hinv.phase.free
  have hdue := hinv.phase.due hinv.taken.since
  rw [← freeFrom_append] at hfree hdue
  refine ⟨gone ++ out, waiting ++ fresh, hstarts, ?_, hrec⟩
  rw [hstarts]
  exact filter_due 3 3 (searchCycles macs) hfree hdue

theorem exists_latestBefore {ps : List (Nat × Word)} {e : Nat × Word}
    (he : e ∈ searches macs ps) : ∃ u, latestBefore ps e.1 = some u := by
  obtain ⟨p, hp, hle⟩ := come_before_due 3 3 (searchCycles macs) e he
  have hlt : p.1 < e.1 := by omega
  have hne : ps.filter (fun p => decide (p.1 < e.1)) ≠ [] :=
    List.ne_nil_of_mem (List.mem_filter.mpr ⟨hp, decide_eq_true hlt⟩)
  exact ⟨_, by rw [latestBefore, List.getLast?_eq_some_getLast hne, Option.map_some]⟩

/-- A record with the ethertype of a packet of kind `etherKind u` is that of `w` if the kinds are
the same. -/
theorem describes_recordWith (macs : Macs) (u w : Word) :
    Describes macs w (recordWith macs w (ethertypeOf u.tdata)) ↔ etherKind u = etherKind w := by
  constructor
  · intro h
    exact h.kind
  · intro h
    exact ⟨rfl, h, rfl, (search_found macs w).2⟩

/-- The packets whose records are written, each with its record. -/
theorem zip_records {ins : List HeaderCheck.Input} (h : NeverOverflow depth macs ins) :
    (HeaderCheck.firstWords ins).zip (records depth macs ins) =
      ((searches macs (starts ins)).filter fun e => e.1 < ins.length).map
        fun e => (e.2, recordWith macs e.2 (liveType (starts ins) e.1)) := by
  obtain ⟨done, later, hstarts, hfilter, hrec⟩ := due_records h
  have hrecs : records depth macs ins = (searches macs done).map
      fun e => recordWith macs e.2 (liveType (starts ins) e.1) := by
    rw [records, ← Machine.schedule_snd, ← recordSchedule, hrec, List.map_map]
    rfl
  have hwords : HeaderCheck.firstWords ins =
      (searches macs done).map Prod.snd ++ later.map Prod.snd := by
    rw [← starts_snd, hstarts, List.map_append, searches, due_snd]
  rw [hwords, hrecs, hfilter, ← List.append_nil ((searches macs done).map fun e =>
    recordWith macs e.2 (liveType (starts ins) e.1)), List.zip_append (by simp), List.zip_nil_right,
    List.append_nil, List.zip_map']

theorem allDescribed_iff {ins : List HeaderCheck.Input} (h : NeverOverflow depth macs ins) :
    AllDescribed macs depth ins ↔ KindsKept macs ins := by
  unfold AllDescribed KindsKept
  rw [zip_records h]
  have hone : ∀ e ∈ searches macs (starts ins),
      (Describes macs e.2 (recordWith macs e.2 (liveType (starts ins) e.1)) ↔
        ∀ u ∈ latestBefore (starts ins) e.1, etherKind u = etherKind e.2) := by
    intro e he
    obtain ⟨u, hu⟩ := exists_latestBefore he
    rw [liveType, hu]
    exact (describes_recordWith macs u e.2).trans (by simp)
  constructor
  · intro hall e he hlt
    refine (hone e he).mp (hall _ (List.mem_map.mpr ⟨e, ?_, rfl⟩))
    exact List.mem_filter.mpr ⟨he, decide_eq_true hlt⟩
  · intro hkept p hp
    obtain ⟨e, he, rfl⟩ := List.mem_map.mp hp
    obtain ⟨hmem, hlt⟩ := List.mem_filter.mp he
    exact (hone e hmem).mpr (hkept e hmem (of_decide_eq_true hlt))

end Runs

def sampleMacs : Macs := ⟨0x020000000001, 0x020000000002, 0x020000000003, 0x020000000004⟩

/-- A packet of one word to port 0. -/
def onePacket (ethertype : BitVec 16) : Word :=
  ⟨(0x020000000001 : BitVec 48) ++ (0 : BitVec 48) ++ ethertype ++ (0 : BitVec 400),
    BitVec.allOnes 64, 0, true⟩

/-- The packets three cycles apart, and then nothing for ten cycles. -/
def closeTogether (types : List (BitVec 16)) : List HeaderCheck.Input :=
  types.flatMap (fun t => ⟨true, true, onePacket t⟩ :: List.replicate 2 ⟨false, true, default⟩) ++
    List.replicate 10 ⟨false, true, default⟩

end Osnt.EthParser
