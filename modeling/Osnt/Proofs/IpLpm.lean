import Osnt.IpLpm
import Osnt.Proofs.CamLut

/-! The next hops that `ip_lpm` presents: one for each packet, and which address stands in for a
route without a next hop. -/
namespace Osnt.IpLpm
open Lib Lib.Server

section Pipeline
variable {n m : Nat}

/-- The pipelines of the two lookups, one behind the other. -/
def stages (s : Sys n m) : List Bool :=
  [s.lpm.lookupLatched, s.lpm.camLookupDone, s.lpm.camMatchEncoded, s.lpm.lookupAck, s.lpmVld,
    s.arp.lookupLatched, s.arp.camLookupDone, s.arp.camMatchEncoded, s.arp.lookupAck]

/-- A single lookup under way, for `j` cycles by now. -/
def token (j : Nat) : List Bool := (List.range 9).map fun q => decide (q + 1 = j)

theorem token_next : ∀ j ≤ 9, 0 < j →
    false :: (token j).dropLast = if j = 9 then token 0 else token (j + 1) := by
  decide

theorem stages_step {s : Sys n m} (hl : s.lpm.state = .ready) (ha : s.arp.state = .ready)
    (i : Input n m) : stages (s.step i) = s.dstIpReady :: (stages s).dropLast := by
  have hlpm : (s.step i).lpm = s.lpm.stepReady (s.lpmInput i) := CamLut.step_ready hl _
  have harp : (s.step i).arp = s.arp.stepReady (s.arpInput i) := CamLut.step_ready ha _
  unfold stages
  rw [hlpm, harp]
  rfl

theorem ready_step {s : Sys n m} (hl : s.lpm.state = .ready) (ha : s.arp.state = .ready)
    (i : Input n m) : (s.step i).lpm.state = .ready ∧ (s.step i).arp.state = .ready := by
  have hlpm : (s.step i).lpm = s.lpm.stepReady (s.lpmInput i) := CamLut.step_ready hl _
  have harp : (s.step i).arp = s.arp.stepReady (s.arpInput i) := CamLut.step_ready ha _
  rw [hlpm, harp]
  exact ⟨hl, ha⟩

/-- What the token says of the signals that are looked at. -/
theorem token_signals {s : Sys n m} {j : Nat} (h : stages s = token j) :
    s.lpm.lookupAck = decide (4 = j) ∧ s.lpmVld = decide (5 = j) ∧
      s.arp.lookupAck = decide (9 = j) := by
  simp only [stages, token, List.range, List.range.loop, List.map, List.cons.injEq] at h
  exact ⟨h.2.2.2.1, h.2.2.2.2.1, h.2.2.2.2.2.2.2.2.1⟩

end Pipeline

/-- Where the lookups stand in cycle `c`: `cur` is the packet being looked up, since `j` cycles, and
`waiting` are the addresses in `dest_fifo`, which is free for them from cycle `r` on. -/
inductive Phase {n m : Nat} (c r : Nat) (s : Sys n m) :
    Nat → List (Nat × BitVec 32) → List (Nat × BitVec 32) → Prop
  | wait {waiting} (state : s.state = .wait) (pipe : stages s = token 0) (free : r ≤ c)
      (next : ∀ p ∈ waiting.head?, dueAt 2 (fun _ => 0) r p = c) : Phase c r s 0 [] waiting
  | process {p waiting} (j : Nat) (state : s.state = .process) (pipe : stages s = token j)
      (pos : 0 < j) (le : j ≤ 9) (since : dueAt 2 (fun _ => 0) r p + j = c) :
      Phase c r s j [p] waiting

/-- The address in the registers in front of `dest_fifo`. -/
inductive Fresh {n m : Nat} (c : Nat) (s : Sys n m) : List (Nat × BitVec 32) → Prop
  | none (vld : s.dstIpVld = false) : Fresh c s []
  | some {t : Nat} {a : BitVec 32} (vld : s.dstIpVld = true) (dst : s.dstIp = a)
      (since : t + 1 = c) : Fresh c s [(t, a)]

structure Busy {n m : Nat} (c r j : Nat) (cur waiting fresh : List (Nat × BitVec 32))
    (s : Sys n m) : Prop where
  lpm : s.lpm.state = .ready
  arp : s.arp.state = .ready
  fifo : s.destFifo = waiting.map Prod.snd
  taken : Fresh c s fresh
  visible : ∀ p ∈ waiting, p.1 + 2 ≤ c
  phase : Phase c r s j cur waiting

theorem Fresh.since {n m c : Nat} {s : Sys n m} {fresh : List (Nat × BitVec 32)}
    (h : Fresh c s fresh) : ∀ p ∈ fresh, p.1 + 2 = c + 1 := by
  cases h with
  | none vld => simp
  | some vld dst since =>
    intro p hp
    obtain rfl := List.mem_singleton.mp hp
    exact congrArg (· + 1) since

/-- The address that comes in a cycle. -/
def Input.arrives {n m : Nat} (i : Input n m) : Option (BitVec 32) :=
  if i.wordIpDstHi then some (destIpOf i.tdata) else none

theorem fresh_step {n m : Nat} (c : Nat) (s : Sys n m) (i : Input n m) :
    Fresh (c + 1) (s.step i) (i.arrives.toList.map fun a => (c, a)) := by
  unfold Input.arrives
  cases hw : i.wordIpDstHi with
  | false => exact .none hw
  | true => exact .some hw (by simp [Sys.step, hw]) rfl

/-- The next phase: an address is taken when the machine is free, and it is free again ten cycles
later. -/
theorem Phase.step {n m c r j : Nat} {s : Sys n m} {cur waiting fresh : List (Nat × BitVec 32)}
    (h : Phase c r s j cur waiting) (hl : s.lpm.state = .ready) (ha : s.arp.state = .ready)
    (hfifo : s.destFifo = waiting.map Prod.snd) (hvis : ∀ p ∈ waiting, p.1 + 2 ≤ c)
    (hfresh : ∀ p ∈ fresh, p.1 + 2 = c + 1) (i : Input n m) :
    (∃ p rest, j = 0 ∧ cur = [] ∧ waiting = p :: rest ∧ s.dstIpReady = true ∧
        Phase (c + 1) r (s.step i) 1 [p] (rest ++ fresh)) ∨
      (s.dstIpReady = false ∧ (j = 0 ∨ j = 9) ∧
        Phase (c + 1) (freeFrom 2 10 (fun _ => 0) r cur) (s.step i) 0 [] (waiting ++ fresh)) ∨
      (s.dstIpReady = false ∧ 0 < j ∧ j < 9 ∧
        Phase (c + 1) r (s.step i) (j + 1) cur (waiting ++ fresh)) := by
  have hpipe := stages_step hl ha i
  cases h with
  | wait state pipe free next =>
    rw [pipe] at hpipe
    cases waiting with
    | nil =>
      have hready : s.dstIpReady = false := by simp [Sys.dstIpReady, hfifo]
      rw [hready] at hpipe
      refine .inr (.inl ⟨hready, .inl rfl, .wait ?_ hpipe (Nat.le_succ_of_le free) ?_⟩)
      · simp [Sys.step, state, hfifo]
      · intro p hp
        have hp2 := hfresh p (List.mem_of_mem_head? hp)
        simp only [dueAt, freeFrom_nil]
        omega
    | cons p rest =>
      have hready : s.dstIpReady = true := by simp [Sys.dstIpReady, hfifo, state]
      rw [hready] at hpipe
      have hn := next p rfl
      refine .inl ⟨p, rest, rfl, rfl, rfl, hready, .process 1 ?_ hpipe (by omega) (by omega) ?_⟩
      · simp [Sys.step, state, hfifo]
      · omega
  | @process p waiting j state pipe pos le since =>
    have hready : s.dstIpReady = false := by simp [Sys.dstIpReady, state]
    rw [hready, pipe, token_next j le pos] at hpipe
    obtain ⟨-, -, hack⟩ := token_signals pipe
    by_cases h9 : j = 9
    · subst h9
      refine .inr (.inl ⟨hready, .inr rfl, .wait ?_ hpipe ?_ ?_⟩)
      · simp [Sys.step, state, hack]
      · rw [freeFrom_singleton]
        omega
      · intro q hq
        have hq2 : q.1 + 2 ≤ c + 1 := by
          rcases List.mem_append.mp (List.mem_of_mem_head? hq) with hw | hf
          · exact Nat.le_succ_of_le (hvis q hw)
          · exact Nat.le_of_eq (hfresh q hf)
        rw [freeFrom_singleton, dueAt]
        omega
    · rw [if_neg h9] at hpipe
      refine .inr (.inr ⟨hready, pos, by omega, .process (j + 1) ?_ hpipe (by omega) (by omega) ?_⟩)
      · have hack' : s.arp.lookupAck = false := by
          rw [hack]
          exact decide_eq_false (by omega)
        simp [Sys.step, state, hack']
      · omega

section Shown
variable {n m : Nat} (s₀ : Sys n m) (ins : List (Input n m)) (i : Input n m)

theorem starts_concat :
    starts s₀ (ins ++ [i]) = starts s₀ ins ++ i.arrives.toList.map fun a => (ins.length, a) := by
  rw [starts, Machine.schedule_concat]
  unfold Input.arrives
  split <;> rfl

theorem starts_increasing :
    (starts s₀ ins).Pairwise (fun p q => p.1 < q.1) ∧ ∀ p ∈ starts s₀ ins, p.1 < ins.length := by
  apply Machine.schedule_increasing
  intro s i
  split <;> simp

/-- An element of a list stays where it is when the list grows. -/
theorem getElem?_append_some {α : Type} {l : List α} {k : Nat} {a : α} (h : l[k]? = some a)
    (l' : List α) : (l ++ l')[k]? = some a := by
  rw [List.getElem?_append_left (List.getElem?_eq_some_iff.mp h).1, h]

theorem lookups_concat {k : Nat} {e : Nat × BitVec 32}
    (he : (lookups (starts s₀ ins))[k]? = some e) :
    (lookups (starts s₀ (ins ++ [i])))[k]? = some e := by
  rw [starts_concat, lookups, due_append]
  exact getElem?_append_some he _

variable {s₀ ins}

/-- What was shown in a past cycle does not depend on the address that comes now. -/
theorem shownAt_concat {k c : Nat} (hc : c < ins.length) :
    shownAt s₀ (ins ++ [i]) k c = shownAt s₀ ins k c := by
  have hin : (ins ++ [i])[c]? = ins[c]? := List.getElem?_append_left hc
  unfold shownAt
  rw [starts_concat, hin]
  cases hk : (starts s₀ ins)[k]? with
  | some q =>
    obtain ⟨hlt, -⟩ := List.getElem?_eq_some_iff.mp hk
    rw [List.getElem?_append_left hlt, hk]
  | none =>
    rw [List.getElem?_append_right (List.getElem?_eq_none_iff.mp hk)]
    cases hq : (i.arrives.toList.map fun a => (ins.length, a))[k - (starts s₀ ins).length]? with
    | none => rfl
    | some q =>
      obtain ⟨a, -, rfl⟩ := List.mem_map.mp (List.mem_of_getElem? hq)
      exact if_neg (by omega)

theorem dstIpFifo_eq {s : Sys n m} {gone waiting fresh : List (Nat × BitVec 32)}
    {p : Nat × BitVec 32} (hstarts : starts s₀ ins = gone ++ [p] ++ (waiting ++ fresh))
    (hfifo : s.destFifo = waiting.map Prod.snd) (hvis : ∀ p ∈ waiting, p.1 + 2 ≤ ins.length)
    (hfresh : ∀ p ∈ fresh, p.1 + 2 = ins.length + 1) :
    s.dstIpFifo i = shownAt s₀ (ins ++ [i]) (gone.length + 1) ins.length := by
  have hnow : (ins ++ [i])[ins.length]? = some i := by simp
  have hnext : (starts s₀ (ins ++ [i]))[gone.length + 1]? =
      (waiting ++ (fresh ++ i.arrives.toList.map fun a => (ins.length, a))).head? := by
    rw [starts_concat, hstarts, List.head?_eq_getElem?]
    simp [List.getElem?_append_right]
  unfold shownAt Sys.dstIpFifo
  rw [hnext, hnow, hfifo]
  cases waiting with
  | cons q rest => simp [hvis q (by simp)]
  | nil =>
    rw [List.nil_append]
    cases hq : (fresh ++ i.arrives.toList.map fun a => (ins.length, a)).head? with
    | none => rfl
    | some q =>
      have hlate : ¬ q.1 + 2 ≤ ins.length := by
        rcases List.mem_append.mp (List.mem_of_mem_head? hq) with hf | ha
        · have hq2 := hfresh q hf
          omega
        · obtain ⟨a, -, rfl⟩ := List.mem_map.mp ha
          omega
      exact (if_neg hlate).symm

end Shown

/-- The next hop presented for the `k`-th packet, given its lookup and the answer. -/
def presented {n m : Nat} (s₀ : Sys n m) (ins : List (Input n m)) (k : Nat) (e : Nat × BitVec 32)
    (r : Bool × BitVec 40) : BitVec 32 :=
  if nextHopOf r.2 = 0 then shownAt s₀ ins (k + 1) (e.1 + 4) else nextHopOf r.2

/-- The answers and next hops of the first `k` packets, and what there is of the one that is looked
up since `j` cycles. -/
structure Told {n m : Nat} (s₀ : Sys n m) (ins : List (Input n m)) (k j : Nat) (s : Sys n m) :
    Prop where
  answered : (answers s₀ ins).length = k + if 5 ≤ j then 1 else 0
  pulsed : (pulseSchedule s₀ ins).length = k + if 6 ≤ j then 1 else 0
  value : ∀ (q : Nat) (x : Nat × BitVec 32), (pulseSchedule s₀ ins)[q]? = some x →
    ∃ e r, (lookups (starts s₀ ins))[q]? = some e ∧ (answers s₀ ins)[q]? = some r ∧
      e.1 + 5 < ins.length ∧ x = (e.1 + 5, presented s₀ ins q e r)
  pending : j = 5 → ∃ e r, (lookups (starts s₀ ins))[k]? = some e ∧
    (answers s₀ ins)[k]? = some r ∧ e.1 + 5 = ins.length ∧ s.nextHopIp = presented s₀ ins k e r

section Told
variable {n m : Nat} {s₀ : Sys n m} {ins : List (Input n m)} {k j : Nat} (i : Input n m)

theorem answers_concat : answers s₀ (ins ++ [i]) =
    answers s₀ ins ++ (machine.run s₀ ins).answer := Machine.collect_concat _ _ _ _ _

theorem pulseSchedule_concat : pulseSchedule s₀ (ins ++ [i]) = pulseSchedule s₀ ins ++
    (machine.run s₀ ins).pulse.map fun o => (ins.length, o) := Machine.schedule_concat _ _ _ _ _

theorem value_concat {q : Nat} {e : Nat × BitVec 32} {r : Bool × BitVec 40}
    (he : (lookups (starts s₀ ins))[q]? = some e) (hr : (answers s₀ ins)[q]? = some r)
    (hlt : e.1 + 4 < ins.length) :
    (lookups (starts s₀ (ins ++ [i])))[q]? = some e ∧ (answers s₀ (ins ++ [i]))[q]? = some r ∧
      presented s₀ (ins ++ [i]) q e r = presented s₀ ins q e r := by
  refine ⟨lookups_concat s₀ ins i he, ?_, ?_⟩
  · rw [answers_concat]
    exact getElem?_append_some hr _
  · rw [presented, presented, shownAt_concat i hlt]

theorem value_old (hv : ∀ (q : Nat) (x : Nat × BitVec 32), (pulseSchedule s₀ ins)[q]? = some x →
      ∃ e r, (lookups (starts s₀ ins))[q]? = some e ∧ (answers s₀ ins)[q]? = some r ∧
        e.1 + 5 < ins.length ∧ x = (e.1 + 5, presented s₀ ins q e r))
    {q : Nat} {x : Nat × BitVec 32} (hx : (pulseSchedule s₀ ins)[q]? = some x) :
    ∃ e r, (lookups (starts s₀ (ins ++ [i])))[q]? = some e ∧
      (answers s₀ (ins ++ [i]))[q]? = some r ∧ e.1 + 5 < (ins ++ [i]).length ∧
      x = (e.1 + 5, presented s₀ (ins ++ [i]) q e r) := by
  obtain ⟨e, r, he, hr, hlt, rfl⟩ := hv q x hx
  obtain ⟨he', hr', hp⟩ := value_concat i he hr (by omega)
  refine ⟨e, r, he', hr', ?_, by rw [hp]⟩
  rw [List.length_append]
  omega

theorem Told.quiet (h : Told s₀ ins k j (machine.run s₀ ins)) {k' j' : Nat} {t : Sys n m}
    (hpipe : stages (machine.run s₀ ins) = token j) (h4 : j ≠ 4) (h5 : j ≠ 5) (hj' : j' ≠ 5)
    (ha : (k + if 5 ≤ j then 1 else 0) = k' + if 5 ≤ j' then 1 else 0)
    (hp : (k + if 6 ≤ j then 1 else 0) = k' + if 6 ≤ j' then 1 else 0) :
    Told s₀ (ins ++ [i]) k' j' t := by
  obtain ⟨hack, hvld, -⟩ := token_signals hpipe
  rw [decide_eq_false (Ne.symm h4)] at hack
  rw [decide_eq_false (Ne.symm h5)] at hvld
  have hans : answers s₀ (ins ++ [i]) = answers s₀ ins := by
    rw [answers_concat, Sys.answer, hack, if_neg Bool.false_ne_true, List.append_nil]
  have hpul : pulseSchedule s₀ (ins ++ [i]) = pulseSchedule s₀ ins := by
    rw [pulseSchedule_concat, Sys.pulse, hvld, if_neg Bool.false_ne_true, List.map_nil,
      List.append_nil]
  refine ⟨by rw [hans, h.answered, ha], by rw [hpul, h.pulsed, hp], ?_, fun h' => absurd h' hj'⟩
  intro q x hx
  rw [hpul] at hx
  exact value_old i h.value hx

theorem Told.answer (h : Told s₀ ins k 4 (machine.run s₀ ins))
    (hpipe : stages (machine.run s₀ ins) = token 4) {e : Nat × BitVec 32}
    (he : (lookups (starts s₀ ins))[k]? = some e) (hc : e.1 + 4 = ins.length)
    (hshow : (machine.run s₀ ins).dstIpFifo i = shownAt s₀ (ins ++ [i]) (k + 1) ins.length) :
    Told s₀ (ins ++ [i]) k 5 ((machine.run s₀ ins).step i) := by
  obtain ⟨hack, hvld, -⟩ := token_signals hpipe
  have hans : answers s₀ (ins ++ [i]) = answers s₀ ins ++
      [((machine.run s₀ ins).lpm.lookupHit, (machine.run s₀ ins).lpmResult)] := by
    rw [answers_concat, Sys.answer, hack]
    rfl
  have hpul : pulseSchedule s₀ (ins ++ [i]) = pulseSchedule s₀ ins := by
    rw [pulseSchedule_concat, Sys.pulse, hvld]
    exact List.append_nil _
  have hlen : (answers s₀ ins).length = k := h.answered
  refine ⟨by rw [hans, List.length_append, hlen]; rfl, by rw [hpul, h.pulsed]; rfl, ?_, fun _ => ?_⟩
  · intro q x hx
    rw [hpul] at hx
    exact value_old i h.value hx
  · refine ⟨e, _, lookups_concat s₀ ins i he, by rw [hans, ← hlen, List.getElem?_concat_length], ?_,
      ?_⟩
    · rw [List.length_append, List.length_singleton, ← hc]
    · rw [presented, hc, ← hshow]
      rfl

theorem Told.pulse (h : Told s₀ ins k 5 (machine.run s₀ ins))
    (hpipe : stages (machine.run s₀ ins) = token 5) (t : Sys n m) :
    Told s₀ (ins ++ [i]) k 6 t := by
  obtain ⟨hack, hvld, -⟩ := token_signals hpipe
  have hans : answers s₀ (ins ++ [i]) = answers s₀ ins := by
    rw [answers_concat, Sys.answer, hack]
    exact List.append_nil _
  have hpul : pulseSchedule s₀ (ins ++ [i]) = pulseSchedule s₀ ins ++
      [(ins.length, (machine.run s₀ ins).nextHopIp)] := by
    rw [pulseSchedule_concat, Sys.pulse, hvld]
    rfl
  have hlen : (pulseSchedule s₀ ins).length = k := h.pulsed
  obtain ⟨e, r, he, hr, hc, hhop⟩ := h.pending rfl
  refine ⟨by rw [hans, h.answered]; rfl, by rw [hpul, List.length_append, hlen]; rfl, ?_, by simp⟩
  intro q x hx
  rw [hpul, List.getElem?_append] at hx
  split at hx
  · exact value_old i h.value hx
  · obtain ⟨hq, rfl⟩ : q - (pulseSchedule s₀ ins).length = 0 ∧
        (ins.length, (machine.run s₀ ins).nextHopIp) = x := by
      rw [List.getElem?_singleton] at hx
      split at hx
      · exact ⟨by omega, by simpa using hx⟩
      · cases hx
    obtain rfl : q = k := by omega
    obtain ⟨he', hr', hp⟩ := value_concat i he hr (by omega)
    refine ⟨e, r, he', hr', ?_, by rw [hp, hc, hhop]⟩
    rw [List.length_append, List.length_singleton]
    omega

end Told
section Static
variable {n m : Nat}

theorem Settled.step {base : CamLut.Table 32 40 n} {t : CamLut.Sm 32 40 n} (h : Settled base t)
    {i : CamLut.Input 32 40 n} (hwr : i.wrReq = false) : Settled base (t.stepReady i) := by
  have hacc : t.accepts i = false := by simp [CamLut.Sm.accepts, hwr]
  have haccs : t.accepted i = [] := by simp [CamLut.Sm.accepted, hacc]
  have hland : t.landed i = [] := by simp [CamLut.Sm.landed, CamLut.Sm.landing, h.works]
  refine ⟨h.state, fun r => ?_, ?_, ?_⟩
  · have hrows := CamLut.rows_step h.rows i r
    rw [hland] at hrows
    exact hrows
  · rw [CamLut.lutNext_stepReady, h.lut, haccs]
    rfl
  · rw [CamLut.camWorks_stepReady, h.works, hacc]
    simp

/-- The lookup answered `k` cycles from now is answered by `r`. -/
def Owes (r : Bool × BitVec 40) : Nat → CamLut.Sm 32 40 n → Prop
  | 0, t => (t.lookupHit, t.lookupData lpmParams) = r
  | k + 1, t => ∀ a, Owes r k (t.stepReady a)

theorem Settled.owes {base : CamLut.Table 32 40 n} {t : CamLut.Sm 32 40 n} (h : Settled base t)
    {i : CamLut.Input 32 40 n} (hreq : i.lookupReq = true) (hwr : i.wrReq = false)
    {dst : BitVec 32} (hkey : i.key = ⟨dst, 0⟩) : Owes (routeOf base dst) 3 (t.stepReady i) := by
  intro a b d
  obtain ⟨-, hhit, hdata⟩ := CamLut.lookup_stages (p := lpmParams) (t := t) hreq a b d
  have hrows : t.hitRows i = base.matching ⟨dst, 0⟩ := by
    funext r
    rw [CamLut.Sm.hitRows, h.rows r, hkey]
    rfl
  have haccs : t.accepted i = [] := by simp [CamLut.Sm.accepted, CamLut.Sm.accepts, hwr]
  rw [hrows] at hhit hdata
  rw [haccs, h.lut] at hdata
  unfold Owes
  rw [hhit, hdata, routeOf, CamLut.Table.answer]
  cases hf : (List.finRange (n + 1)).any (base.matching ⟨dst, 0⟩) with
  | true =>
    rw [CamLut.first_encode hf]
    rfl
  | false =>
    rw [CamLut.first_eq_none_iff.mpr hf]
    rfl

end Static

section Runs
variable {n m : Nat} {s₀ : Sys n m}

/-- The packets so far: those that are done, the one being looked up, those waiting and the one in
the registers. -/
structure Split (s₀ : Sys n m) (ins : List (Input n m)) (j : Nat)
    (gone cur waiting fresh : List (Nat × BitVec 32)) : Prop where
  starts : starts s₀ ins = gone ++ cur ++ (waiting ++ fresh)
  busy : Busy ins.length (freeFrom 2 10 (fun _ => 0) 0 gone) j cur waiting fresh
    (machine.run s₀ ins)
  told : Told s₀ ins gone.length j (machine.run s₀ ins)

/-- The answers of a table that is not written to, and the one that is due. -/
structure Routed (base : CamLut.Table 32 40 n) (s₀ : Sys n m) (ins : List (Input n m)) (j : Nat)
    (cur : List (Nat × BitVec 32)) : Prop where
  settled : Settled base (machine.run s₀ ins).lpm
  owes : ∀ p ∈ cur, j ≤ 4 → Owes (routeOf base p.2) (4 - j) (machine.run s₀ ins).lpm
  right : ∀ (q : Nat) (p : Nat × BitVec 32) (r : Bool × BitVec 40),
    (IpLpm.starts s₀ ins)[q]? = some p → (answers s₀ ins)[q]? = some r → r = routeOf base p.2

theorem Start.split (h : Start s₀) : Split s₀ [] 0 [] [] [] [] := by
  obtain ⟨a1, a2, a3, a4⟩ := h.lpmPipe
  obtain ⟨b1, b2, b3, b4⟩ := h.arpPipe
  have hpipe : stages s₀ = token 0 := by
    rw [stages, a1, a2, a3, a4, b1, b2, b3, b4, h.lpmVld]
    rfl
  refine ⟨rfl, ⟨h.lpmState, h.arpState, h.destFifo, .none h.dstIpVld, by simp, ?_⟩,
    ⟨rfl, rfl, by simp [pulseSchedule], by simp⟩⟩
  exact .wait h.state hpipe (Nat.le_refl 0) (by simp)

theorem Phase.pipe_eq {c r j : Nat} {s : Sys n m} {cur waiting : List (Nat × BitVec 32)}
    (h : Phase c r s j cur waiting) : stages s = token j := by
  cases h with
  | wait state pipe free next => exact pipe
  | process j state pipe pos le since => exact pipe

theorem lookup_current {ps gone behind : List (Nat × BitVec 32)} {p : Nat × BitVec 32}
    (h : ps = gone ++ [p] ++ behind) : (lookups ps)[gone.length]? =
      some (dueAt 2 (fun _ => 0) (freeFrom 2 10 (fun _ => 0) 0 gone) p, p.2) := by
  have hlen : (due 2 10 (fun _ : BitVec 32 => 0) 0 gone).length = gone.length :=
    length_due _ _ _ _ _
  rw [h, List.append_assoc, lookups, due_append, List.getElem?_append_right (by omega), hlen,
    Nat.sub_self]
  rfl

/-- What a cycle does to `dest_fifo` and the registers around it. -/
theorem Busy.step {c r r' j j' : Nat} {s : Sys n m}
    {cur waiting fresh cur' rest : List (Nat × BitVec 32)}
    (h : Busy c r j cur waiting fresh s) (i : Input n m)
    (hread : (if s.dstIpReady then s.destFifo.tail else s.destFifo) = rest.map Prod.snd)
    (hsub : ∀ p ∈ rest, p ∈ waiting)
    (hphase : Phase (c + 1) r' (s.step i) j' cur' (rest ++ fresh)) :
    Busy (c + 1) r' j' cur' (rest ++ fresh) (i.arrives.toList.map fun a => (c, a)) (s.step i) := by
  obtain ⟨hl, ha⟩ := ready_step h.lpm h.arp i
  refine ⟨hl, ha, ?_, fresh_step c s i, ?_, hphase⟩
  · have hwrite : (if s.dstIpVld then [s.dstIp] else []) = fresh.map Prod.snd := by
      cases h.taken with
      | none vld => simp [vld]
      | some vld dst since => simp [vld, dst]
    rw [List.map_append, ← hread, ← hwrite]
    rfl
  · intro p hp
    rcases List.mem_append.mp hp with hw | hf
    · exact Nat.le_succ_of_le (h.visible p (hsub p hw))
    · exact Nat.le_of_eq (h.taken.since p hf)

/-- The three kinds of cycles: an address is taken, the lookup goes on, or there is none. -/
inductive Cycle (s₀ : Sys n m) (ins : List (Input n m)) (i : Input n m) (j : Nat)
    (gone cur : List (Nat × BitVec 32)) :
    Nat → List (Nat × BitVec 32) → List (Nat × BitVec 32) → Prop
  | takes (p : Nat × BitVec 32) (zero : j = 0) (ready : (machine.run s₀ ins).dstIpReady = true)
      (addr : (machine.run s₀ ins).dstIpFifo i = p.2) : Cycle s₀ ins i j gone cur 1 gone [p]
  | goesOn (ready : (machine.run s₀ ins).dstIpReady = false) (pos : 0 < j) (lt : j < 9) :
      Cycle s₀ ins i j gone cur (j + 1) gone cur
  | rests (ready : (machine.run s₀ ins).dstIpReady = false) (idle : j = 0 ∨ j = 9) :
      Cycle s₀ ins i j gone cur 0 (gone ++ cur) []

theorem starts_split {ins : List (Input n m)} {gone cur waiting fresh gone' cur' rest :
    List (Nat × BitVec 32)} (h : starts s₀ ins = gone ++ cur ++ (waiting ++ fresh)) (i : Input n m)
    (heq : gone' ++ cur' ++ rest = gone ++ cur ++ waiting) :
    starts s₀ (ins ++ [i]) =
      gone' ++ cur' ++ (rest ++ fresh ++ i.arrives.toList.map fun a => (ins.length, a)) := by
  have hassoc : gone ++ cur ++ (waiting ++ fresh) = gone' ++ cur' ++ (rest ++ fresh) := by
    rw [← List.append_assoc, ← heq, ← List.append_assoc]
  rw [starts_concat, h, hassoc]
  simp only [List.append_assoc]

theorem Split.current {ins : List (Input n m)} {j : Nat}
    {gone cur waiting fresh : List (Nat × BitVec 32)} (h : Split s₀ ins j gone cur waiting fresh)
    (hj : 0 < j) : ∃ p, cur = [p] ∧ stages (machine.run s₀ ins) = token j ∧
      dueAt 2 (fun _ => 0) (freeFrom 2 10 (fun _ => 0) 0 gone) p + j = ins.length := by
  cases h.busy.phase with
  | wait => omega
  | process j state pipe pos le since => exact ⟨_, rfl, pipe, since⟩

theorem Split.answered_le {ins : List (Input n m)} {j : Nat}
    {gone cur waiting fresh : List (Nat × BitVec 32)} (h : Split s₀ ins j gone cur waiting fresh) :
    (answers s₀ ins).length ≤ (IpLpm.starts s₀ ins).length := by
  rw [h.told.answered, h.starts]
  simp only [List.length_append]
  split
  · obtain ⟨p, hcur, -⟩ := h.current (by omega)
    rw [hcur, List.length_singleton]
    omega
  · omega

theorem Split.told_goesOn {ins : List (Input n m)} {j : Nat}
    {gone cur waiting fresh : List (Nat × BitVec 32)} (h : Split s₀ ins j gone cur waiting fresh)
    (i : Input n m) (hpos : 0 < j) (hlt : j < 9) :
    Told s₀ (ins ++ [i]) gone.length (j + 1) ((machine.run s₀ ins).step i) := by
  have hpipe := h.busy.phase.pipe_eq
  by_cases h4 : j = 4
  · subst h4
    obtain ⟨p, hcur, -, hsince⟩ := h.current hpos
    have hst := h.starts
    rw [hcur] at hst
    exact h.told.answer i hpipe (lookup_current hst) hsince
      (dstIpFifo_eq i hst h.busy.fifo h.busy.visible h.busy.taken.since)
  · by_cases h5 : j = 5
    · subst h5
      exact h.told.pulse i hpipe _
    · refine h.told.quiet i hpipe h4 h5 (by omega) ?_ ?_ <;> split <;> split <;> omega

theorem Split.step {ins : List (Input n m)} {j : Nat}
    {gone cur waiting fresh : List (Nat × BitVec 32)} (h : Split s₀ ins j gone cur waiting fresh)
    (i : Input n m) : ∃ j' gone' cur' waiting' fresh', Cycle s₀ ins i j gone cur j' gone' cur' ∧
      Split s₀ (ins ++ [i]) j' gone' cur' waiting' fresh' := by
  have hpipe := h.busy.phase.pipe_eq
  have hrun : machine.run s₀ (ins ++ [i]) = (machine.run s₀ ins).step i :=
    Machine.run_concat _ _ _ _
  have hlen : (ins ++ [i]).length = ins.length + 1 := by simp
  rcases h.busy.phase.step h.busy.lpm h.busy.arp h.busy.fifo h.busy.visible h.busy.taken.since i
    with ⟨p, rest, rfl, rfl, rfl, hready, hphase⟩ | ⟨hready, hj, hphase⟩ |
      ⟨hready, hpos, hlt, hphase⟩
  · have haddr : (machine.run s₀ ins).dstIpFifo i = p.2 := by simp [Sys.dstIpFifo, h.busy.fifo]
    refine ⟨1, gone, [p], rest ++ fresh, _, .takes p rfl hready haddr,
      ⟨starts_split h.starts i (by simp), ?_, ?_⟩⟩
    · rw [hrun, hlen]
      refine h.busy.step i ?_ (fun q hq => List.mem_cons_of_mem p hq) hphase
      rw [hready, if_pos rfl, h.busy.fifo]
      rfl
    · exact h.told.quiet i hpipe (by omega) (by omega) (by omega) rfl rfl
  · refine ⟨0, gone ++ cur, [], waiting ++ fresh, _, .rests hready hj,
      ⟨starts_split h.starts i (by simp), ?_, ?_⟩⟩
    · rw [hrun, hlen, freeFrom_append]
      refine h.busy.step i ?_ (fun q hq => hq) hphase
      rw [hready, if_neg Bool.false_ne_true, h.busy.fifo]
    · have hcur : (j = 0 ∧ cur.length = 0) ∨ (j = 9 ∧ cur.length = 1) := by
        cases h.busy.phase with
        | wait => exact .inl ⟨rfl, rfl⟩
        | process j state pipe pos le since => exact .inr ⟨by omega, rfl⟩
      refine h.told.quiet i hpipe (by omega) (by omega) (by omega) ?_ ?_ <;>
        rw [List.length_append] <;> rcases hcur with ⟨rfl, hc⟩ | ⟨rfl, hc⟩ <;> simp [hc]
  · refine ⟨j + 1, gone, cur, waiting ++ fresh, _, .goesOn hready hpos hlt,
      ⟨starts_split h.starts i (by simp), ?_, ?_⟩⟩
    · rw [hrun, hlen]
      refine h.busy.step i ?_ (fun q hq => hq) hphase
      rw [hready, if_neg Bool.false_ne_true, h.busy.fifo]
    · rw [hrun]
      exact h.told_goesOn i hpos hlt

theorem Routed.step {base : CamLut.Table 32 40 n} {ins : List (Input n m)} {j j' : Nat}
    {gone cur waiting fresh gone' cur' : List (Nat × BitVec 32)}
    (h : Routed base s₀ ins j cur) (hs : Split s₀ ins j gone cur waiting fresh) {i : Input n m}
    (hwr : i.lpm.wrReq = false) (hcycle : Cycle s₀ ins i j gone cur j' gone' cur') :
    Routed base s₀ (ins ++ [i]) j' cur' := by
  have hrun : (machine.run s₀ (ins ++ [i])).lpm =
      (machine.run s₀ ins).lpm.stepReady ((machine.run s₀ ins).lpmInput i) := by
    rw [Machine.run_concat]
    exact CamLut.step_ready hs.busy.lpm _
  refine ⟨?_, ?_, ?_⟩
  · rw [hrun]
    exact h.settled.step hwr
  · intro p hp hj
    rw [hrun]
    cases hcycle with
    | takes q zero ready addr =>
      obtain rfl := List.mem_singleton.mp hp
      exact h.settled.owes (i := (machine.run s₀ ins).lpmInput i) ready hwr (by rw [← addr]; rfl)
    | goesOn ready pos lt =>
      have hdue := h.owes p hp (by omega)
      have hsub : 4 - j = (4 - (j + 1)) + 1 := by omega
      rw [hsub] at hdue
      exact hdue _
    | rests ready idle => cases hp
  · intro q p r hp hr
    rw [starts_concat] at hp
    have hold : (answers s₀ ins)[q]? = some r → r = routeOf base p.2 := by
      intro hr'
      have hlt := (List.getElem?_eq_some_iff.mp hr').1
      rw [List.getElem?_append_left (Nat.lt_of_lt_of_le hlt hs.answered_le)] at hp
      exact h.right q p r hp hr'
    obtain ⟨hack, -⟩ := token_signals hs.busy.phase.pipe_eq
    rw [answers_concat, Sys.answer, hack] at hr
    by_cases h4 : 4 = j
    · subst h4
      obtain ⟨p', rfl, -⟩ := hs.current (by omega)
      have hlen : (answers s₀ ins).length = gone.length := hs.told.answered
      rw [decide_eq_true rfl, if_pos rfl, List.getElem?_append] at hr
      split at hr
      · exact hold hr
      · rw [List.getElem?_singleton] at hr
        split at hr
        · obtain rfl : q = gone.length := by omega
          obtain rfl : p' = p := by simpa [hs.starts] using hp
          rw [← h.owes p' (by simp) (Nat.le_refl 4)]
          exact (Option.some.inj hr).symm
        · cases hr
    · rw [decide_eq_false h4, if_neg Bool.false_ne_true, List.append_nil] at hr
      exact hold hr

theorem split_run (h : Start s₀) (ins : List (Input n m)) :
    ∃ j gone cur waiting fresh, Split s₀ ins j gone cur waiting fresh ∧
      ∀ base, Settled base s₀.lpm → (∀ i ∈ ins, i.lpm.wrReq = false) →
        Routed base s₀ ins j cur := by
  induction ins using List.reverseRecOn with
  | nil =>
    exact ⟨0, [], [], [], [], h.split, fun base hb _ => ⟨hb, by simp, by simp [answers]⟩⟩
  | append_singleton ins i ih =>
    obtain ⟨j, gone, cur, waiting, fresh, hs, hr⟩ := ih
    obtain ⟨j', gone', cur', waiting', fresh', hcycle, hs'⟩ := hs.step i
    refine ⟨j', gone', cur', waiting', fresh', hs', fun base hb hwr => ?_⟩
    refine (hr base hb fun a ha => hwr a (by simp [ha])).step hs (hwr i (by simp)) hcycle

/-- The packets whose next hop has been presented are the first ones, up to those looked up five
cycles ago. -/
theorem Split.presented {ins : List (Input n m)} {j : Nat}
    {gone cur waiting fresh : List (Nat × BitVec 32)} (h : Split s₀ ins j gone cur waiting fresh) :
    ∃ done rest, IpLpm.starts s₀ ins = done ++ rest ∧
      (pulseSchedule s₀ ins).length = done.length ∧
      freeFrom 2 10 (fun _ => 0) 0 done < ins.length - 5 + 10 ∧
      ∀ q ∈ rest.head?, ins.length - 5 ≤
        dueAt 2 (fun _ => 0) (freeFrom 2 10 (fun _ => 0) 0 done) q := by
  have hp := h.told.pulsed
  cases h.busy.phase with
  | wait state pipe free next =>
    refine ⟨gone, waiting ++ fresh, by simp [h.starts], hp, by omega, fun q hq => ?_⟩
    cases waiting with
    | nil =>
      have hq2 := h.busy.taken.since q (List.mem_of_mem_head? hq)
      rw [dueAt]
      omega
    | cons q' rest =>
      have hq2 := next q hq
      omega
  | @process p waiting j state pipe pos le since =>
    by_cases h6 : 6 ≤ j
    · refine ⟨gone ++ [p], waiting ++ fresh, h.starts, ?_, ?_, fun q _ => ?_⟩
      · rw [hp, if_pos h6, List.length_append, List.length_singleton]
      · rw [freeFrom_append, freeFrom_singleton]
        omega
      · rw [freeFrom_append, freeFrom_singleton, dueAt]
        omega
    · refine ⟨gone, p :: (waiting ++ fresh), by simp [h.starts], ?_, ?_, fun q hq => ?_⟩
      · rw [hp, if_neg h6]
        rfl
      · rw [dueAt] at since
        omega
      · obtain rfl : p = q := by simpa using hq
        omega

theorem lookups_snd {ps : List (Nat × BitVec 32)} {k : Nat} {e p : Nat × BitVec 32}
    (he : (lookups ps)[k]? = some e) (hp : ps[k]? = some p) : e.2 = p.2 := by
  have hsnd := congrArg (fun l => l[k]?) (due_snd 2 10 (fun _ => 0) 0 ps)
  simp only [List.getElem?_map, hp] at hsnd
  rw [lookups] at he
  rw [he] at hsnd
  simpa using hsnd

theorem pulse_times {ins : List (Input n m)} {j : Nat}
    {gone cur waiting fresh : List (Nat × BitVec 32)} (h : Split s₀ ins j gone cur waiting fresh) :
    (pulseSchedule s₀ ins).map Prod.fst =
      ((lookups (starts s₀ ins)).filter fun e => e.1 < ins.length - 5).map fun e => e.1 + 5 := by
  obtain ⟨done, rest, hst, hlen, hfree, hrest⟩ := h.presented
  rw [hst, lookups, filter_due 2 10 (fun _ => 0) hfree hrest]
  apply List.ext_getElem?
  intro q
  rw [List.getElem?_map, List.getElem?_map]
  cases hx : (pulseSchedule s₀ ins)[q]? with
  | none =>
    have hge := List.getElem?_eq_none_iff.mp hx
    rw [List.getElem?_eq_none_iff.mpr (by rw [length_due]; omega)]
    rfl
  | some x =>
    obtain ⟨e, r, he, -, -, rfl⟩ := h.told.value q x hx
    have hlt := (List.getElem?_eq_some_iff.mp hx).1
    rw [hst, lookups, due_append, List.getElem?_append_left (by rw [length_due]; omega)] at he
    rw [he]
    rfl

theorem allRight_iff {ins : List (Input n m)} {j : Nat}
    {gone cur waiting fresh : List (Nat × BitVec 32)} (h : Split s₀ ins j gone cur waiting fresh) :
    AllRight s₀ ins ↔ SameAddressNext s₀ ins := by
  obtain ⟨done, rest, hst, hlen, -, hrest⟩ := h.presented
  constructor
  · intro hall k e r he hlt hr hzero
    have hk : k < (pulseSchedule s₀ ins).length := by
      by_contra hge
      rw [hst, lookups, due_append, List.getElem?_append_right (by rw [length_due]; omega)] at he
      have hle := due_ge 2 10 (fun _ => 0) hrest e (List.mem_of_getElem? he)
      omega
    have hkp : k < (starts s₀ ins).length := by
      rw [hst, List.length_append]
      omega
    have hx := List.getElem?_eq_getElem hk
    have hp := List.getElem?_eq_getElem hkp
    have hright := hall k _ _ r hx hp hr
    obtain ⟨e', r', he', hr', -, hval⟩ := h.told.value k _ hx
    obtain rfl := Option.some.inj (he.symm.trans he')
    obtain rfl := Option.some.inj (hr.symm.trans hr')
    rw [hval, nextHop, IpLpm.presented, if_pos hzero, if_pos hzero] at hright
    exact hright.trans (lookups_snd he hp).symm
  · intro hsame k x p r hx hp hr
    obtain ⟨e, r', he, hr', hlt, rfl⟩ := h.told.value k x hx
    obtain rfl := Option.some.inj (hr.symm.trans hr')
    unfold IpLpm.presented nextHop
    by_cases hzero : nextHopOf r.2 = 0
    · rw [if_pos hzero, if_pos hzero, hsame k e r he hlt hr hzero, lookups_snd he hp]
    · rw [if_neg hzero, if_neg hzero]

/-- One next hop is presented for each packet in order, five cycles after its address is looked up;
the answers are those of the table as long as it is not written to; and the next hops are right
exactly if each packet whose route has none is followed closely by one to the same address. -/
theorem next_hops_presented (h : Start s₀) (ins : List (Input n m)) :
    (pulseSchedule s₀ ins).map Prod.fst =
        ((lookups (starts s₀ ins)).filter fun e => e.1 < ins.length - 5).map (fun e => e.1 + 5) ∧
      (∀ (k : Nat) (e p : Nat × BitVec 32), (lookups (starts s₀ ins))[k]? = some e →
        (starts s₀ ins)[k]? = some p → e.2 = p.2 ∧ e.1 ≤ p.1 + 2 + 10 * k) ∧
      (∀ base, Settled base s₀.lpm → (∀ i ∈ ins, i.lpm.wrReq = false) →
        ∀ (k : Nat) (p : Nat × BitVec 32) (r : Bool × BitVec 40), (starts s₀ ins)[k]? = some p →
          (answers s₀ ins)[k]? = some r → r = routeOf base p.2) ∧
      (AllRight s₀ ins ↔ SameAddressNext s₀ ins) := by
  obtain ⟨j, gone, cur, waiting, fresh, hs, hr⟩ := split_run h ins
  refine ⟨pulse_times hs, ?_, ?_, allRight_iff hs⟩
  · intro k e p he hp
    have hbound := due_within 2 10 (fun _ : BitVec 32 => 0) (d := 0) (b := 0)
      (fun _ => Nat.le_refl 0) (fun p _ => Nat.zero_le _) (starts_increasing s₀ ins).1 he hp
    exact ⟨lookups_snd he hp, by omega⟩
  · intro base hb hwr
    exact (hr base hb hwr).right

end Runs

/-- A table at rest. -/
def restingSm {cw dw n : Nat} (base : CamLut.Table cw dw n) : CamLut.Sm cw dw n where
  state := .ready
  resetCount := n + 1
  lookupLatched := false
  camMatchFound := false
  camLookupDone := false
  rdReqLatched := false
  camMatchEncoded := false
  camMatchFoundD1 := false
  camMatchUnencodedAddr := fun _ => false
  lutRdAddr := ⟨0, n.succ_pos⟩
  lutRdData := base ⟨0, n.succ_pos⟩
  lookupAck := false
  lookupHit := false
  rdAck := false
  wrAck := false
  camWe := false
  camWr := ⟨⟨0, n.succ_pos⟩, base ⟨0, n.succ_pos⟩⟩
  lut := base
  camRows := fun r => ((base r).cmpData, (base r).cmpDmask)
  camMatchAddr := fun _ => false
  camPending := none

/-- The network 10.0.0.0/8 is on port 4, without a next hop. -/
def sampleRoutes : CamLut.Table 32 40 1 := fun _ => ⟨0x00FFFFFF, 0x0A000000, 0x0400000000⟩

def sampleSys : Sys 1 1 where
  dstIp := 0
  dstIpVld := false
  destFifo := []
  state := .wait
  lpmOutputPort := 0
  nextHopIp := 0
  lpmHit := false
  lpmVld := false
  lpm := restingSm sampleRoutes
  arp := restingSm fun _ => ⟨0, 0, 0⟩

def samplePort {cw dw n : Nat} : CamLut.Input cw dw n :=
  ⟨false, ⟨0, 0⟩, false, ⟨0, n.succ_pos⟩, false, ⟨⟨0, n.succ_pos⟩, ⟨0, 0, 0⟩⟩, false, true⟩

def sampleCycle (dst : Option (BitVec 32)) : Input 1 1 :=
  ⟨dst.isSome, (0 : BitVec 240) ++ dst.getD 0 ++ (0 : BitVec 240), 0, samplePort, samplePort⟩

def twoPackets (a b : BitVec 32) : List (Input 1 1) :=
  [some a, none, none, some b, none, none, none, none, none, none].map sampleCycle

theorem sampleSys_start : Start sampleSys :=
  ⟨rfl, rfl, rfl, rfl, rfl, rfl, ⟨rfl, rfl, rfl, rfl⟩, ⟨rfl, rfl, rfl, rfl⟩⟩

theorem next_hops_presented_same : Start sampleSys ∧
    AllRight sampleSys (twoPackets 0x0A000001 0x0A000001) := by
  refine ⟨sampleSys_start, (next_hops_presented sampleSys_start _).2.2.2.mpr ?_⟩
  intro k e r he hlt hr hzero
  have hlook : lookups (starts sampleSys (twoPackets 0x0A000001 0x0A000001)) =
      [(2, 0x0A000001), (12, 0x0A000001)] := by decide +kernel
  have hlen : (twoPackets 0x0A000001 0x0A000001).length = 10 := rfl
  rw [hlook] at he
  rw [hlen] at hlt
  match k, he with
  | 0, he =>
    obtain rfl := Option.some.inj he
    decide +kernel
  | 1, he =>
    obtain rfl := Option.some.inj he
    omega

/-- The next hop of the first packet is the address of the second. -/
theorem next_hop_of_another : Start sampleSys ∧
    ¬ AllRight sampleSys (twoPackets 0x0A000001 0x0A000002) := by
  refine ⟨sampleSys_start, fun h => ?_⟩
  have hright := h 0 (7, 0x0A000002) (0, 0x0A000001) (true, 0x0400000000) (by decide +kernel)
    (by decide +kernel) (by decide +kernel)
  exact absurd hright (by decide)

end Osnt.IpLpm
