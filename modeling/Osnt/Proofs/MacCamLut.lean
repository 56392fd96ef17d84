import Osnt.MacCamLut
import Osnt.Lib.Window

namespace Osnt.MacCamLut
open Lib FifoTable

namespace Lut
variable {d : Nat} (s : Lut d)

theorem hit_iff (mac : BitVec 48) (k : Nat) :
    s.hit mac k = true ↔ ∃ i ≤ k, (s.lut (BitVec.ofNat d i)).mac = mac := by
  induction k with
  | zero => simp [hit, matchesRow]
  | succ k ih =>
    by_cases hm : (s.lut (BitVec.ofNat d (k + 1))).mac = mac
    · simp only [hit, matchesRow, hm, BEq.rfl, if_true, true_iff]
      exact ⟨k + 1, Nat.le_refl _, hm⟩
    · have hrow : s.matchesRow mac (k + 1) = false := by simp [matchesRow, hm]
      rw [hit, hrow, if_neg (by simp), ih]
      constructor
      · rintro ⟨i, hi, he⟩
        exact ⟨i, Nat.le_succ_of_le hi, he⟩
      · rintro ⟨i, hi, he⟩
        refine ⟨i, Nat.le_of_lt_succ (Nat.lt_of_le_of_ne hi ?_), he⟩
        rintro rfl
        exact hm he

/-- What is read comes from a row that holds the address. -/
theorem rdOq_of_hit {mac : BitVec 48} {k : Nat} (h : s.hit mac k = true) :
    ∃ i, (s.lut i).mac = mac ∧ s.rdOq mac k = (s.lut i).ports := by
  induction k with
  | zero =>
    have hrow : s.matchesRow mac 0 = true := h
    exact ⟨_, by simpa [matchesRow] using hrow, by simp [rdOq, hrow]⟩
  | succ k ih =>
    cases hrow : s.matchesRow mac (k + 1) with
    | true => exact ⟨_, by simpa [matchesRow] using hrow, by simp [rdOq, hrow]⟩
    | false =>
      rw [hit, hrow, if_neg (by simp)] at h
      obtain ⟨i, hi, hports⟩ := ih h
      exact ⟨i, hi, by simp [rdOq, hrow, hports]⟩

/-- The rows as a table, from the next one to be written on. -/
def table : PortTable :=
  (window s.lut s.lutWrAddr (2 ^ d)).map (fun e => (e.mac, e.ports))

theorem mem_table {e : BitVec 48 × BitVec 8} :
    e ∈ s.table ↔ ∃ i, ((s.lut i).mac, (s.lut i).ports) = e := by
  rw [table, List.mem_map]
  constructor
  · rintro ⟨r, hr, rfl⟩
    obtain ⟨i, rfl⟩ := (mem_window_all _ _).mp hr
    exact ⟨i, rfl⟩
  · rintro ⟨i, rfl⟩
    exact ⟨_, (mem_window_all _ _).mpr ⟨i, rfl⟩, rfl⟩

theorem hit_all (mac : BitVec 48) : s.hit mac (2 ^ d - 1) = true ↔ mac ∈ keys s.table := by
  rw [hit_iff, mem_keys]
  constructor
  · rintro ⟨i, -, hi⟩
    exact ⟨_, s.mem_table.mpr ⟨_, rfl⟩, hi⟩
  · rintro ⟨e, he, rfl⟩
    obtain ⟨i, rfl⟩ := s.mem_table.mp he
    have hlt := i.isLt
    refine ⟨i.toNat, by omega, ?_⟩
    rw [BitVec.ofNat_toNat, BitVec.setWidth_eq]

theorem table_cleared : (cleared : Lut d).table = emptyTable d := by
  have hwindow : window (cleared : Lut d).lut (cleared : Lut d).lutWrAddr (2 ^ d) =
      List.replicate (2 ^ d) ⟨0, 0⟩ := by
    refine List.eq_replicate_iff.mpr ⟨length_window _ _ _, fun e he => ?_⟩
    obtain ⟨i, rfl⟩ := (mem_window_all _ _).mp he
    rfl
  rw [table, hwindow, List.map_replicate]
  rfl

variable {s} {i : Input}

theorem table_relearn (hreset : i.reset = false) (hreq : i.lookupReq = true)
    (hit : i.req.srcMac ∈ keys s.table) : (s.step i).table = learn s.table (lesson i.req) := by
  have hlearn : s.learnHit i.req = true := (s.hit_all _).mpr hit
  have hrows : (s.step i).lut = fun a =>
      if (s.lut a).mac = i.req.srcMac then ⟨i.req.srcPort, i.req.srcMac⟩ else s.lut a := by
    funext a
    simp [step, hreset, hreq, hlearn]
  have haddr : (s.step i).lutWrAddr = s.lutWrAddr := by
    simp [step, hreset, hlearn]
  have hcomp := window_comp s.lut
    (fun e => if e.mac = i.req.srcMac then ⟨i.req.srcPort, i.req.srcMac⟩ else e) s.lutWrAddr (2 ^ d)
  rw [learn_old hit, table, hrows, haddr, hcomp, rewrite, table, List.map_map, List.map_map]
  refine List.map_congr_left fun e _ => ?_
  by_cases he : e.mac = i.req.srcMac
  · simp [he, lesson]
  · simp [he, lesson]

theorem table_new (hreset : i.reset = false) (hreq : i.lookupReq = true)
    (hmiss : i.req.srcMac ∉ keys s.table) : (s.step i).table = learn s.table (lesson i.req) := by
  have hlearn : s.learnHit i.req = false := by
    rw [← Bool.not_eq_true, learnHit, hit_all]
    exact hmiss
  have hother : ∀ a, (s.lut a).mac ≠ i.req.srcMac := by
    intro a ha
    exact hmiss (mem_keys.mpr ⟨_, s.mem_table.mpr ⟨a, rfl⟩, ha⟩)
  have hrows : (s.step i).lut =
      Function.update s.lut s.lutWrAddr ⟨i.req.srcPort, i.req.srcMac⟩ := by
    funext a
    by_cases ha : a = s.lutWrAddr
    · subst ha
      simp [step, hreset, hreq, hlearn]
    · rw [Function.update_of_ne ha]
      simp [step, hreset, hreq, hlearn, hother a, Ne.symm ha]
  have haddr : (s.step i).lutWrAddr = s.lutWrAddr + 1 := by
    simp [step, hreset, hreq, hlearn]
  rw [learn_new hmiss, table, hrows, haddr, window_rotate, List.map_append, List.map_tail]
  rfl

theorem table_step (hreset : i.reset = false) :
    (s.step i).table = if i.lookupReq then learn s.table (lesson i.req) else s.table := by
  cases hreq : i.lookupReq with
  | false =>
    have hrows : (s.step i).lut = s.lut := by simp [step, hreset, hreq]
    have haddr : (s.step i).lutWrAddr = s.lutWrAddr := by simp [step, hreset, hreq]
    rw [table, hrows, haddr, table, if_neg (by simp)]
  | true =>
    rw [if_pos rfl]
    by_cases hm : i.req.srcMac ∈ keys s.table
    · exact table_relearn hreset hreq hm
    · exact table_new hreset hreq hm

theorem dstPorts_step (hs : Agrees s.table) (hreset : i.reset = false)
    (hreq : i.lookupReq = true) : (s.step i).dstPorts = answer s.table i.req := by
  have hnext : (s.step i).dstPorts = if s.lookupHit i.req then
      s.rdOq i.req.dstMac (2 ^ d - 1) &&& ~~~ i.req.srcPort
      else defaultMissOutputPorts &&& ~~~ i.req.srcPort := by
    simp [step, hreset, hreq]
  rw [hnext, answer]
  cases hhit : s.lookupHit i.req with
  | true =>
    obtain ⟨a, ha, hports⟩ := s.rdOq_of_hit hhit
    have hmem : (i.req.dstMac, (s.lut a).ports) ∈ s.table := by
      rw [← ha]
      exact s.mem_table.mpr ⟨a, rfl⟩
    rw [if_pos rfl, hports, find_of_mem hs hmem]
    rfl
  | false =>
    have hnone : find s.table i.req.dstMac = none := by
      rw [find_eq_none, ← hit_all]
      exact Bool.eq_false_iff.mp hhit
    rw [if_neg (by simp), hnone]
    rfl

end Lut

variable {d : Nat}

theorem length_answers (t : PortTable) (rs : List Request) : (answers t rs).length = rs.length := by
  induction rs generalizing t with
  | nil => rfl
  | cons r rs ih => rw [answers, List.length_cons, List.length_cons, ih]

theorem answers_append (t : PortTable) (rs qs : List Request) :
    answers t (rs ++ qs) = answers t rs ++ answers (learnAll t (rs.map lesson)) qs := by
  induction rs generalizing t with
  | nil => rfl
  | cons r rs ih =>
    rw [List.cons_append, answers, ih, answers, List.cons_append]
    rfl

/-- An answer comes from what the requests before it have taught. -/
theorem answers_getElem? (t : PortTable) (rs : List Request) (k : Nat) :
    (answers t rs)[k]? = rs[k]?.map (answer (learnAll t ((rs.take k).map lesson))) := by
  induction rs generalizing t k with
  | nil => rfl
  | cons r rs ih =>
    cases k with
    | zero => rfl
    | succ k =>
      rw [answers, List.getElem?_cons_succ, ih, List.getElem?_cons_succ, List.take_succ_cons,
        List.map_cons]
      rfl

/-- The table after some cycles, and what it has been asked and has replied: a request is answered
in the cycle after it. -/
structure Follows (past : List Input) (s : Lut d) : Prop where
  table : s.table = learnAll (emptyTable d)
    (((machine d).collect asked Lut.cleared past).map lesson)
  replies : (machine d).collect replied Lut.cleared past ++
      (if s.lookupDone then [s.dstPorts] else []) =
    answers (emptyTable d) ((machine d).collect asked Lut.cleared past)

theorem agrees_emptyTable : Agrees (emptyTable d) := by
  intro a ha b hb _
  rw [List.eq_of_mem_replicate ha, List.eq_of_mem_replicate hb]

theorem Follows.step {past : List Input} {s : Lut d} (h : Follows past s)
    (hrun : (machine d).run Lut.cleared past = s) {i : Input} (hreset : i.reset = false) :
    Follows (past ++ [i]) (s.step i) := by
  have hdone : (s.step i).lookupDone = i.lookupReq := by simp [Lut.step, hreset]
  have hasked : asked s i = if i.lookupReq then [i.req] else [] := rfl
  have hreplied : replied s i = if s.lookupDone then [s.dstPorts] else [] := rfl
  constructor
  · rw [Lut.table_step hreset, Machine.collect_concat, hrun, hasked, h.table]
    cases i.lookupReq with
    | false => simp
    | true => simp [learnAll_concat]
  · rw [Machine.collect_concat, Machine.collect_concat, hrun, hreplied, h.replies, hdone, hasked]
    cases hreq : i.lookupReq with
    | false => simp
    | true =>
      have hagrees : Agrees s.table := h.table ▸ agrees_learnAll agrees_emptyTable _
      rw [if_pos rfl, if_pos rfl, answers_append, answers, answers,
      Lut.dstPorts_step hagrees hreset hreq, h.table]

/-- From a reset on, the replies are the answers of the learning table to the requests, one cycle
later. -/
theorem follows_run {ins : List Input} (h : ∀ i ∈ ins, i.reset = false) :
    Follows ins ((machine d).run Lut.cleared ins) := by
  refine (machine d).run_keeps ((machine d).along_of_forall h) (fun past t => Follows past t) ?_ ?_
  · exact ⟨Lut.table_cleared, rfl⟩
  · exact fun past i hp hi => hp.step rfl hi

/-- No more replies than requests, and each is the answer of the table. -/
theorem replied_getElem? {ins : List Input} (h : ∀ i ∈ ins, i.reset = false) {k : Nat}
    {v : BitVec 8} (hv : ((machine d).collect replied Lut.cleared ins)[k]? = some v) :
    ∃ r, ((machine d).collect asked Lut.cleared ins)[k]? = some r ∧
      v = answer (learnAll (emptyTable d)
        ((((machine d).collect asked Lut.cleared ins).take k).map lesson)) r := by
  have hreplies := (follows_run (d := d) h).replies
  obtain ⟨hk, -⟩ := List.getElem?_eq_some_iff.mp hv
  have hall := congrArg (·[k]?) hreplies
  simp only [List.getElem?_append_left hk, hv, answers_getElem?] at hall
  obtain ⟨r, hr, hrv⟩ := Option.map_eq_some_iff.mp hall.symm
  exact ⟨r, hr, hrv.symm⟩

theorem answer_source (t : PortTable) (r : Request) : answer t r &&& r.srcPort = 0 := by
  rw [answer, BitVec.and_assoc, BitVec.and_comm (~~~ r.srcPort)]
  simp

/-- What the table says without a reset: a reply never sends a packet back to where it came from. It
is the port that the destination was last seen at, or all MACs; address 0, which the rows hold in
the beginning, has no port until it is seen. While no more addresses than rows have been seen,
nothing is forgotten. -/
theorem replies_latest {ins : List Input} (h : ∀ i ∈ ins, i.reset = false) {k : Nat}
    {v : BitVec 8} (hv : ((machine d).collect replied Lut.cleared ins)[k]? = some v) :
    ∃ r, ((machine d).collect asked Lut.cleared ins)[k]? = some r ∧ v &&& r.srcPort = 0 ∧
      (let known := (((machine d).collect asked Lut.cleared ins).take k).map lesson
      (v = defaultMissOutputPorts &&& ~~~ r.srcPort ∨
          (∃ p, latest r.dstMac known = some p ∧ v = p &&& ~~~ r.srcPort) ∨
          latest r.dstMac known = none ∧ r.dstMac = 0 ∧ v = 0) ∧
        ((keys known).toFinset.card ≤ 2 ^ d → r.dstMac ≠ 0 ∨ r.dstMac ∈ keys known →
          v = (latest r.dstMac known).getD defaultMissOutputPorts &&& ~~~ r.srcPort)) := by
  obtain ⟨r, hr, rfl⟩ := replied_getElem? h hv
  refine ⟨r, hr, answer_source _ r, ?_⟩
  intro known
  constructor
  · cases hf : find (learnAll (emptyTable d) known) r.dstMac with
    | none =>
      refine .inl ?_
      rw [answer, hf]
      rfl
    | some p =>
      refine .inr ?_
      rw [answer, hf]
      rcases find_learnAll agrees_emptyTable known hf with hl | ⟨hl, hz⟩
      · exact .inl ⟨p, hl, rfl⟩
      · have hrow : (r.dstMac, p) = (0, 0) := List.eq_of_mem_replicate (mem_of_find hz)
        obtain ⟨hdst, rfl⟩ := Prod.mk.inj hrow
        exact .inr ⟨hl, hdst, by simp⟩
  · intro hroom hdst
    rw [answer, emptyTable, find_filled 0 0 hroom hdst]

/-- Host 7 at MAC 0 asks for host 9, which answers from MAC 1. -/
def greeting : List Input :=
  [⟨true, ⟨9, 7, 0x01⟩, false⟩, ⟨true, ⟨7, 9, 0x04⟩, false⟩, ⟨false, ⟨0, 0, 0⟩, false⟩]

theorem replies_latest_greeting :
    ((machine 4).collect replied Lut.cleared greeting)[1]? = some 0x01 ∧
    ∃ r, ((machine 4).collect asked Lut.cleared greeting)[1]? = some r ∧ 0x01 &&& r.srcPort = 0 ∧
      (let known := (((machine 4).collect asked Lut.cleared greeting).take 1).map lesson
      (0x01 = defaultMissOutputPorts &&& ~~~ r.srcPort ∨
          (∃ p, latest r.dstMac known = some p ∧ 0x01 = p &&& ~~~ r.srcPort) ∨
          latest r.dstMac known = none ∧ r.dstMac = 0 ∧ (0x01 : BitVec 8) = 0) ∧
        ((keys known).toFinset.card ≤ 2 ^ 4 → r.dstMac ≠ 0 ∨ r.dstMac ∈ keys known →
          0x01 = (latest r.dstMac known).getD defaultMissOutputPorts &&& ~~~ r.srcPort)) :=
  ⟨by decide +kernel, replies_latest (by decide) (by decide +kernel)⟩

end Osnt.MacCamLut
