import Osnt.CamLut

/-! Lookups and writes of `unencoded_cam_lut_sm`. A lookup compares with the rows of the CAM in
the cycle of its request and reads the table three cycles later. Writes are kept away from the
cycles in between, but not from the request itself: one that is accepted and that the compares do
not see yet is in the table when it is read. -/
namespace Osnt.CamLut
open Lib
variable {cw dw n : Nat} {p : Params cw dw}

theorem foldr_eq_find {α : Type} (v : α → Bool) (z : α) (l : List α) :
    l.foldr (fun i addr => if v i then i else addr) z = (l.find? v).getD z := by
  induction l with
  | nil => rfl
  | cons i l ih =>
    rw [List.foldr_cons, List.find?_cons, ih]
    cases v i <;> rfl

theorem first_encode {v : Fin (n + 1) → Bool} (h : (List.finRange (n + 1)).any v = true) :
    first v = some (encode v) := by
  have hcode : encode v = (((List.finRange n).map Fin.castSucc).find? v).getD (Fin.last n) := by
    rw [← foldr_eq_find, List.foldr_map]
    rfl
  rw [first, hcode]
  rw [List.finRange_succ_last] at h ⊢
  rw [List.find?_append]
  cases hf : ((List.finRange n).map Fin.castSucc).find? v with
  | some r => rfl
  | none =>
    rw [List.any_append, List.any_eq_false.mpr (by simpa using hf)] at h
    simpa using h

theorem first_eq_some_iff {v : Fin (n + 1) → Bool} {r : Fin (n + 1)} :
    first v = some r ↔ v r = true ∧ ∀ q < r, v q = false := by
  rw [first, List.find?_eq_some_iff_getElem]
  refine and_congr_right fun _ => ⟨?_, fun h => ?_⟩
  · rintro ⟨k, hk, rfl, hmin⟩ q hq
    simpa using hmin q.val (by simpa [Fin.lt_def] using hq)
  · have hlen : r.val < (List.finRange (n + 1)).length := by
      rw [List.length_finRange]
      exact r.isLt
    refine ⟨r.val, hlen, by simp, fun j hj => ?_⟩
    simpa using h ⟨j, by omega⟩ hj

theorem first_eq_none_iff {v : Fin (n + 1) → Bool} :
    first v = none ↔ (List.finRange (n + 1)).any v = false := by
  rw [first, List.find?_eq_none, List.any_eq_false]

/-- A row that is written with an entry that matches stays the first match. -/
theorem first_update {t : Table cw dw n} {k : Key cw} {wr : Write cw dw n}
    (hf : first (t.matching k) = some wr.addr)
    (hk : k.hits wr.entry.cmpData wr.entry.cmpDmask = true) :
    first ((t.apply [wr]).matching k) = some wr.addr := by
  obtain ⟨-, hmin⟩ := first_eq_some_iff.mp hf
  refine first_eq_some_iff.mpr ⟨?_, fun q hq => ?_⟩
  · simpa [Table.matching, Table.apply] using hk
  · have hne : q ≠ wr.addr := Fin.ne_of_lt hq
    simpa [Table.matching, Table.apply, Function.update_of_ne hne] using hmin q hq

theorem apply_append (t : Table cw dw n) (ws vs : List (Write cw dw n)) :
    t.apply (ws ++ vs) = (t.apply ws).apply vs := by
  simp [Table.apply]

section Run
variable {s : Sm cw dw n} {base : Table cw dw n}

/-- The CAM shows the writes that have landed, and the table also the one under way. -/
structure Sound (p : Params cw dw) (s : Sm cw dw n) (base : Table cw dw n)
    (past : List (Input cw dw n)) : Prop where
  state : (after p s past).state = .ready
  rows : ∀ r, (after p s past).camRows r =
    ((Table.apply base (landedBy p s past) r).cmpData,
      (Table.apply base (landedBy p s past) r).cmpDmask)
  accepted : acceptedBy p s past = landedBy p s past ++ (after p s past).camWorks.toList
  lut : (after p s past).lutNext =
    (Table.apply base (landedBy p s past)).apply (after p s past).camWorks.toList

theorem Ready.sound (h : Ready s base) : Sound p s base [] := by
  refine ⟨h.state, h.rows, ?_, h.lut⟩
  simp [acceptedBy, landedBy, after]

/-- A write is accepted only when the CAM has nothing to do. -/
theorem camWorks_of_accepts {t : Sm cw dw n} {i : Input cw dw n} (h : t.accepts i = true)
    (hsp : t.camWe = true → t.accepts i = false) : t.camWorks = none := by
  have hwe : t.camWe = false := by
    by_contra hwe
    rw [hsp (eq_true_of_ne_false hwe)] at h
    cases h
  have hp : t.camPending.isSome = false := by
    simp only [Sm.accepts, Sm.busy, Bool.and_eq_true, Bool.not_eq_true', Bool.or_eq_false_iff] at h
    exact h.1.1.1.2.1
  simp [Sm.camWorks, hwe, hp]

theorem step_ready {t : Sm cw dw n} (hst : t.state = .ready) (i : Input cw dw n) :
    t.step p i = t.stepReady i := by
  rw [Sm.step, hst]

/-- What has not landed stays, and a write that is accepted is next. -/
theorem camWorks_stepReady (t : Sm cw dw n) (i : Input cw dw n) :
    (t.stepReady i).camWorks = (if i.camLands then none else t.camWorks).or
      (if t.accepts i then some i.wr else none) := by
  have hp : (t.stepReady i).camPending = if i.camLands then none else t.camWorks := rfl
  have hwe : (t.stepReady i).camWe = t.accepts i := rfl
  have hwr : (t.stepReady i).camWr = if t.accepts i then i.wr else t.camWr := rfl
  rw [Sm.camWorks, hp, hwe, hwr]
  cases (if i.camLands then none else t.camWorks) <;> cases t.accepts i <;> rfl

theorem camWorks_step {t : Sm cw dw n} {i : Input cw dw n} (hst : t.state = .ready)
    (hsp : t.camWe = true → t.accepts i = false) :
    t.camWorks.toList ++ t.accepted i = t.landed i ++ (t.step p i).camWorks.toList := by
  rw [step_ready hst, camWorks_stepReady, Sm.accepted, Sm.landed, Sm.landing]
  cases ha : t.accepts i with
  | true =>
    rw [camWorks_of_accepts ha hsp]
    cases i.camLands <;> rfl
  | false => cases i.camLands <;> simp

theorem lutNext_stepReady (t : Sm cw dw n) (i : Input cw dw n) :
    (t.stepReady i).lutNext = Table.apply t.lutNext (t.accepted i) := by
  have hlut : (t.stepReady i).lut = t.lutNext := rfl
  have hwe : (t.stepReady i).camWe = t.accepts i := rfl
  have hwr : (t.stepReady i).camWr = if t.accepts i then i.wr else t.camWr := rfl
  rw [Sm.lutNext, hlut, hwe, hwr, Sm.accepted]
  cases t.accepts i <;> rfl

theorem camRows_none {t : Sm cw dw n} {i : Input cw dw n} (h : t.landing i = none) :
    (t.memories i).camRows = t.camRows := by
  rw [Sm.memories, h]

theorem camRows_some {t : Sm cw dw n} {i : Input cw dw n} {wr : Write cw dw n}
    (h : t.landing i = some wr) : (t.memories i).camRows =
      Function.update t.camRows wr.addr (wr.entry.cmpData, wr.entry.cmpDmask) := by
  rw [Sm.memories, h]

/-- The compares see a write from the cycle after it has landed. -/
theorem rows_step {t : Sm cw dw n} {old : Table cw dw n}
    (h : ∀ r, t.camRows r = ((old r).cmpData, (old r).cmpDmask)) (i : Input cw dw n)
    (r : Fin (n + 1)) :
    (t.stepReady i).camRows r =
      ((old.apply (t.landed i) r).cmpData, (old.apply (t.landed i) r).cmpDmask) := by
  have hrows : (t.stepReady i).camRows = (t.memories i).camRows := rfl
  rw [hrows, Sm.landed]
  cases hland : t.landing i with
  | none =>
    rw [camRows_none hland]
    exact h r
  | some wr =>
    rw [camRows_some hland]
    by_cases hr : r = wr.addr
    · subst hr
      simp [Table.apply]
    · simp [Table.apply, Function.update_of_ne hr, h r]

theorem acceptedBy_append (past ins : List (Input cw dw n)) :
    acceptedBy p s (past ++ ins) =
      acceptedBy p s past ++ (machine p).collect Sm.accepted (after p s past) ins := by
  rw [acceptedBy, Machine.collect_append, acceptedBy, after, List.append_assoc]

theorem Sound.concat {past : List (Input cw dw n)} (h : Sound p s base past) (i : Input cw dw n)
    (hsp : (after p s past).camWe = true → (after p s past).accepts i = false) :
    Sound p s base (past ++ [i]) := by
  have hafter : after p s (past ++ [i]) = (after p s past).step p i := Machine.run_concat _ _ _ _
  have hland : landedBy p s (past ++ [i]) = landedBy p s past ++ (after p s past).landed i :=
    Machine.collect_concat _ _ _ _ _
  have hacc : acceptedBy p s (past ++ [i]) =
      acceptedBy p s past ++ (after p s past).accepted i := by
    rw [acceptedBy_append, Machine.collect_cons, Machine.collect_nil, List.append_nil]
  have hworks := camWorks_step (p := p) h.state hsp
  refine ⟨?_, ?_, ?_, ?_⟩
  · rw [hafter, step_ready h.state]
    exact h.state
  · intro r
    rw [hafter, hland, apply_append, step_ready h.state]
    exact rows_step h.rows i r
  · rw [hafter, hland, hacc, h.accepted, List.append_assoc, List.append_assoc, hworks]
  · rw [hafter, hland, step_ready h.state, lutNext_stepReady, h.lut, ← apply_append, hworks,
      apply_append, apply_append, step_ready h.state]

theorem sound_run (h : Ready s base) {ins : List (Input cw dw n)} (hsp : Spaced p s ins) :
    Sound p s base ins := by
  induction ins using List.reverseRecOn with
  | nil => exact h.sound
  | append_singleton ins i ih =>
    obtain ⟨hpast, hnow⟩ := (machine p).along_concat.mp hsp
    exact (ih hpast).concat i hnow

/-- The rows a lookup hits in the cycle of its request. -/
def Sm.hitRows (t : Sm cw dw n) (i : Input cw dw n) (r : Fin (n + 1)) : Bool :=
  i.key.hits (t.camRows r).1 (t.camRows r).2

theorem accepts_eq_false {t : Sm cw dw n} (a : Input cw dw n)
    (h : t.lookupLatched = true ∨ t.camMatchFound = true ∨ t.camMatchFoundD1 = true) :
    t.accepts a = false := by
  rcases h with h | h | h <;> simp [Sm.accepts, h]

theorem run_four {t : Sm cw dw n} (hst : t.state = .ready) (i a b d : Input cw dw n) :
    (machine p).run t [i, a, b, d] = (((t.stepReady i).stepReady a).stepReady b).stepReady d := by
  have h1 : t.step p i = t.stepReady i := step_ready hst i
  have hst1 : (t.stepReady i).state = .ready := hst
  have h2 := step_ready (p := p) hst1 a
  have hst2 : ((t.stepReady i).stepReady a).state = .ready := hst
  have h3 := step_ready (p := p) hst2 b
  have hst3 : (((t.stepReady i).stepReady a).stepReady b).state = .ready := hst
  have h4 := step_ready (p := p) hst3 d
  rw [← h4, ← h3, ← h2, ← h1]
  rfl

/-- While a lookup that hits is under way, no write is accepted behind the cycle of its request. -/
theorem accepted_four {t : Sm cw dw n} (hst : t.state = .ready) {i : Input cw dw n}
    (hreq : i.lookupReq = true) (hf : (List.finRange (n + 1)).any (t.hitRows i) = true)
    (a b d : Input cw dw n) :
    (machine p).collect Sm.accepted t [i, a, b, d] = t.accepted i := by
  have hst1 : (t.stepReady i).state = .ready := hst
  have hst2 : ((t.stepReady i).stepReady a).state = .ready := hst
  have hm : ∀ {u : Sm cw dw n}, u.state = .ready → ∀ j, (machine p).step u j = u.stepReady j :=
    fun hu j => step_ready hu j
  have hlatched : (t.stepReady i).lookupLatched = true := hreq
  have hfound : ((t.stepReady i).stepReady a).camMatchFound = true := by
    have hand : ((t.stepReady i).stepReady a).camMatchFound =
      ((t.stepReady i).lookupLatched && (List.finRange (n + 1)).any (t.hitRows i)) := rfl
    rw [hand, hlatched, hf]
    rfl
  have hd1 : (((t.stepReady i).stepReady a).stepReady b).camMatchFoundD1 = true := hfound
  rw [Machine.collect_cons, Machine.collect_cons, Machine.collect_cons, Machine.collect_cons,
    hm hst, hm hst1, hm hst2]
  simp [Sm.accepted, accepts_eq_false a (.inl hlatched), accepts_eq_false b (.inr (.inl hfound)),
    accepts_eq_false d (.inr (.inr hd1))]

/-- A lookup through the four stages: the row is found among those of the cycle of the request,
and the table it is read from has the write accepted in that cycle. -/
theorem lookup_stages {t : Sm cw dw n} {i : Input cw dw n} (hreq : i.lookupReq = true)
    (a b d : Input cw dw n) :
    let found := (List.finRange (n + 1)).any (t.hitRows i)
    let t4 := (((t.stepReady i).stepReady a).stepReady b).stepReady d
    t4.lookupAck = true ∧ t4.lookupHit = found ∧
      t4.lookupData p = if found then
        (Table.apply t.lutNext (t.accepted i) (encode (t.hitRows i))).data else p.defaultData := by
  intro found t4
  have hlatched : (t.stepReady i).lookupLatched = true := hreq
  have hfound : ((t.stepReady i).stepReady a).camMatchFound = found := by
    have hand : ((t.stepReady i).stepReady a).camMatchFound =
      ((t.stepReady i).lookupLatched && found) := rfl
    rw [hand, hlatched, Bool.true_and]
  have hack : t4.lookupAck = true := hlatched
  have hhit : t4.lookupHit = found := hfound
  refine ⟨hack, hhit, ?_⟩
  rw [Sm.lookupData, hhit, hack, Bool.and_true]
  cases hf : found with
  | false => rfl
  | true =>
    have haddr : (((t.stepReady i).stepReady a).stepReady b).lutRdAddr = encode (t.hitRows i) := by
      have hsel : (((t.stepReady i).stepReady a).stepReady b).lutRdAddr =
        if !((t.stepReady i).stepReady a).camMatchFound && b.rdReq then b.rdAddr
        else encode (t.hitRows i) := rfl
      rw [hsel, hfound, hf]
      rfl
    have hlut : (((t.stepReady i).stepReady a).stepReady b).lut =
        Table.apply t.lutNext (t.accepted i) := by
      have hna : (t.stepReady i).accepts a = false := accepts_eq_false a (.inl hlatched)
      have h3 : (((t.stepReady i).stepReady a).stepReady b).lut =
        ((t.stepReady i).stepReady a).lutNext := rfl
      have hacc : (t.stepReady i).accepted a = [] := by
        rw [Sm.accepted, hna]
        rfl
      rw [h3, lutNext_stepReady, lutNext_stepReady, hacc]
      rfl
    have hdata : t4.lutRdData = (((t.stepReady i).stepReady a).stepReady b).lut
        (((t.stepReady i).stepReady a).stepReady b).lutRdAddr := rfl
    rw [if_pos rfl, if_pos rfl, hdata, haddr, hlut]

/-- The table that a lookup is read from is ahead of the compares by the write in flight. -/
theorem Sound.lut_inFlight {past : List (Input cw dw n)} (h : Sound p s base past)
    {i : Input cw dw n}
    (hsp : (after p s past).camWe = true → (after p s past).accepts i = false) :
    Table.apply (after p s past).lutNext ((after p s past).accepted i) =
      (Table.apply base (landedBy p s past)).apply ((after p s past).inFlight i).toList := by
  rw [h.lut, Sm.accepted, Sm.inFlight]
  cases ha : (after p s past).accepts i with
  | true =>
    rw [camWorks_of_accepts ha hsp]
    rfl
  | false => rfl

theorem Sound.accepted_inFlight {past : List (Input cw dw n)} (h : Sound p s base past)
    {i : Input cw dw n}
    (hsp : (after p s past).camWe = true → (after p s past).accepts i = false) :
    acceptedBy p s past ++ (after p s past).accepted i =
      landedBy p s past ++ ((after p s past).inFlight i).toList := by
  rw [h.accepted, Sm.accepted, Sm.inFlight]
  cases ha : (after p s past).accepts i with
  | true =>
    rw [camWorks_of_accepts ha hsp]
    simp
  | false => simp

theorem Sound.hitRows {past : List (Input cw dw n)} (h : Sound p s base past) (i : Input cw dw n) :
    (after p s past).hitRows i = (Table.apply base (landedBy p s past)).matching i.key := by
  funext r
  rw [Sm.hitRows, h.rows r]
  rfl

/-- A lookup that hits nothing is answered from what has landed. -/
theorem atomic_of_miss {past : List (Input cw dw n)} (h : Sound p s base past) {i : Input cw dw n}
    (hreq : i.lookupReq = true) (a b d : Input cw dw n)
    (hf : first ((Table.apply base (landedBy p s past)).matching i.key) = none) :
    Atomic p s base past i a b d := by
  have hafter : after p s (past ++ [i, a, b, d]) = _ :=
    ((machine p).run_append s past _).trans (run_four h.state i a b d)
  obtain ⟨hack, hhit, hdata⟩ := lookup_stages (p := p) (t := after p s past) hreq a b d
  rw [h.hitRows, first_eq_none_iff.mp hf] at hhit hdata
  refine ⟨?_, landedBy p s past, List.prefix_rfl, ?_, ?_⟩
  · rw [hafter]
    exact hack
  · rw [acceptedBy_append, h.accepted, List.append_assoc]
    exact List.prefix_append _ _
  · rw [hafter, Table.answer, hf]
    exact Prod.ext hhit hdata

/-- Between what had landed and what is accepted there are two versions at most. -/
theorem exists_between_iff {α : Type} {l : List α} {o : Option α} {Q : List α → Prop} :
    (∃ ws, l <+: ws ∧ ws <+: l ++ o.toList ∧ Q ws) ↔ Q l ∨ ∃ wr, o = some wr ∧ Q (l ++ [wr]) := by
  constructor
  · rintro ⟨ws, ⟨vs, rfl⟩, hpre, hQ⟩
    have hvs : vs <+: o.toList := (List.prefix_append_right_inj l).mp hpre
    cases o with
    | none =>
      rw [Option.toList_none, List.prefix_nil] at hvs
      rw [hvs, List.append_nil] at hQ
      exact .inl hQ
    | some wr =>
      rcases List.prefix_cons_iff.mp hvs with rfl | ⟨us, rfl, hus⟩
      · rw [List.append_nil] at hQ
        exact .inl hQ
      · rw [List.prefix_nil.mp hus] at hQ
        exact .inr ⟨wr, rfl, hQ⟩
  · rintro (hQ | ⟨wr, rfl, hQ⟩)
    · exact ⟨l, List.prefix_rfl, List.prefix_append _ _, hQ⟩
    · exact ⟨l ++ [wr], List.prefix_append _ _, List.prefix_rfl, hQ⟩

/-- A lookup that hits a row has the data of that row with the write in flight. -/
theorem atomic_iff_of_hit {past : List (Input cw dw n)} (h : Sound p s base past)
    {i : Input cw dw n}
    (hsp : (after p s past).camWe = true → (after p s past).accepts i = false)
    (hreq : i.lookupReq = true) (a b d : Input cw dw n) {r : Fin (n + 1)} {data : BitVec dw}
    (hf : first ((Table.apply base (landedBy p s past)).matching i.key) = some r)
    (hd : ((Table.apply base (landedBy p s past)).apply
      ((after p s past).inFlight i).toList r).data = data) :
    Atomic p s base past i a b d ↔ data = (Table.apply base (landedBy p s past) r).data ∨
      ∃ wr, (after p s past).inFlight i = some wr ∧
        (true, data) = Table.answer p (Table.apply base (landedBy p s past ++ [wr])) i.key := by
  have hany : (List.finRange (n + 1)).any ((after p s past).hitRows i) = true := by
    by_contra hany
    rw [h.hitRows] at hany
    rw [first_eq_none_iff.mpr (eq_false_of_ne_true hany)] at hf
    cases hf
  have hr : encode ((after p s past).hitRows i) = r := by
    have hcode := first_encode hany
    rw [h.hitRows, hf] at hcode
    rw [h.hitRows]
    exact (Option.some.inj hcode).symm
  have hafter : after p s (past ++ [i, a, b, d]) = _ :=
    ((machine p).run_append s past _).trans (run_four h.state i a b d)
  have hacc : acceptedBy p s (past ++ [i, a, b, d]) =
      landedBy p s past ++ ((after p s past).inFlight i).toList := by
    rw [acceptedBy_append, accepted_four h.state hreq hany, h.accepted_inFlight hsp]
  obtain ⟨hack, hhit, hdata⟩ := lookup_stages (p := p) (t := after p s past) hreq a b d
  rw [hany] at hhit hdata
  rw [if_pos rfl, hr, h.lut_inFlight hsp, hd] at hdata
  have hans : Table.answer p (Table.apply base (landedBy p s past)) i.key =
      (true, (Table.apply base (landedBy p s past) r).data) := by
    rw [Table.answer, hf]
  rw [Atomic, hafter, hacc, hhit, hdata, exists_between_iff, hans]
  refine ⟨fun ⟨_, hws⟩ => hws.imp_left fun he => (Prod.mk.inj he).2, fun hws => ⟨hack, ?_⟩⟩
  exact hws.imp_left fun he => congrArg _ he

/-- A lookup is answered from one version of the table iff no write is in flight that it could
tell from what the compares see. -/
theorem atomic_iff_safe {past : List (Input cw dw n)} (h : Sound p s base past) {i : Input cw dw n}
    (hsp : (after p s past).camWe = true → (after p s past).accepts i = false)
    (hreq : i.lookupReq = true) (a b d : Input cw dw n) :
    Atomic p s base past i a b d ↔ Safe p s base past i := by
  cases hf : first ((Table.apply base (landedBy p s past)).matching i.key) with
  | none =>
    refine ⟨fun _ wr _ hwr => ?_, fun _ => atomic_of_miss h hreq a b d hf⟩
    rw [hf] at hwr
    cases hwr
  | some r =>
    rw [atomic_iff_of_hit h hsp hreq a b d hf rfl, Safe]
    cases hfl : (after p s past).inFlight i with
    | none => simp [Table.apply]
    | some wr =>
      by_cases hr : r = wr.addr
      · subst hr
        have hdata : (Table.apply (Table.apply base (landedBy p s past)) [wr] wr.addr).data =
            wr.entry.data := by
          simp [Table.apply]
        have hmatch : i.key.hits wr.entry.cmpData wr.entry.cmpDmask = true →
            Table.answer p (Table.apply base (landedBy p s past ++ [wr])) i.key =
              (true, wr.entry.data) := by
          intro hk
          rw [apply_append, Table.answer, first_update hf hk, ← hdata]
        simp only [Option.toList_some, hdata, Option.some.injEq, hf]
        grind
      · have hdata : (Table.apply (Table.apply base (landedBy p s past)) [wr] r).data =
            (Table.apply base (landedBy p s past) r).data := by
          simp [Table.apply, Function.update_of_ne hr]
        simp only [Option.toList_some, hdata, Option.some.injEq, true_or, hf, true_iff]
        intro w hw he
        exact absurd (he.trans (congrArg _ hw.symm)) hr

/-- From `READY` and as long as no two writes are accepted in a row, every lookup is
answered from one version of the table iff every lookup is safe. -/
theorem lookups_atomic_iff (h : Ready s base) {ins : List (Input cw dw n)} (hsp : Spaced p s ins) :
    EachLookup ins (Atomic p s base) ↔
      EachLookup ins (fun past i _ _ _ => Safe p s base past i) := by
  have hiff : ∀ past i a b d later, ins = past ++ i :: a :: b :: d :: later →
      i.lookupReq = true → (Atomic p s base past i a b d ↔ Safe p s base past i) := by
    rintro past i a b d later rfl hreq
    obtain ⟨hpast, hnow, -⟩ := (machine p).along_append.mp hsp
    exact atomic_iff_safe (sound_run h hpast) hnow hreq a b d
  constructor
  · intro hall past i a b d later hins hreq
    exact (hiff past i a b d later hins hreq).mp (hall past i a b d later hins hreq)
  · intro hall past i a b d later hins hreq
    exact (hiff past i a b d later hins hreq).mpr (hall past i a b d later hins hreq)

end Run

def sampleParams : Params 8 3 := ⟨0, ⟨0, 0, 0⟩⟩

def sampleTable : Table 8 3 1 := fun r => if r = 0 then ⟨0, 5, 1⟩ else ⟨0, 7, 2⟩

def sampleState : Sm 8 3 1 where
  state := .ready
  resetCount := 2
  lookupLatched := false
  camMatchFound := false
  camLookupDone := false
  rdReqLatched := false
  camMatchEncoded := false
  camMatchFoundD1 := false
  camMatchUnencodedAddr := fun _ => false
  lutRdAddr := 0
  lutRdData := ⟨0, 0, 0⟩
  lookupAck := false
  lookupHit := false
  rdAck := false
  wrAck := false
  camWe := false
  camWr := ⟨0, ⟨0, 0, 0⟩⟩
  lut := sampleTable
  camRows := fun r => ((sampleTable r).cmpData, (sampleTable r).cmpDmask)
  camMatchAddr := fun _ => false
  camPending := none

/-- Nothing is requested; the CAM has time for the write. -/
def sampleGap : Input 8 3 1 := ⟨false, ⟨0, 0⟩, false, 0, false, ⟨0, ⟨0, 0, 0⟩⟩, false, true⟩

/-- A lookup in the cycle in which the key of the first row changes from 5 to 9. -/
def sampleLookup (k : BitVec 8) : Input 8 3 1 :=
  ⟨true, ⟨k, 0⟩, false, 0, true, ⟨0, ⟨0, 9, 3⟩⟩, false, true⟩

theorem sampleState_ready : Ready sampleState sampleTable := ⟨rfl, fun _ => rfl, rfl⟩

theorem lookups_atomic_sampleState : Ready sampleState sampleTable ∧
    Spaced sampleParams sampleState [sampleLookup 7, sampleGap, sampleGap, sampleGap] ∧
    EachLookup [sampleLookup 7, sampleGap, sampleGap, sampleGap]
      (Atomic sampleParams sampleState sampleTable) := by
  have hsp : Spaced sampleParams sampleState [sampleLookup 7, sampleGap, sampleGap, sampleGap] := by
    unfold Spaced
    decide +kernel
  refine ⟨sampleState_ready, hsp, (lookups_atomic_iff sampleState_ready hsp).mpr ?_⟩
  intro past i a b d later hins _ wr hfl hf
  have hlen := congrArg List.length hins
  obtain rfl : past = [] := by
    rw [← List.length_eq_zero_iff]
    simp only [List.length_cons, List.length_nil, List.length_append] at hlen
    omega
  obtain rfl : sampleLookup 7 = i := (List.cons.inj hins).1
  have hwr : some wr.addr = some 0 := congrArg (Option.map Write.addr) hfl.symm
  rw [hwr] at hf
  exact absurd hf (by decide +kernel)

theorem key_of_one_data_of_another : Ready sampleState sampleTable ∧
    Spaced sampleParams sampleState [sampleLookup 5, sampleGap, sampleGap, sampleGap] ∧
    ¬ EachLookup [sampleLookup 5, sampleGap, sampleGap, sampleGap]
      (Atomic sampleParams sampleState sampleTable) := by
  refine ⟨sampleState_ready, by unfold Spaced; decide +kernel, fun h => ?_⟩
  obtain ⟨-, ws, hland, hacc, hans⟩ := h [] _ _ _ _ [] rfl rfl
  have hws := exists_between_iff (l := []) (o := some (sampleLookup 5).wr)
    (Q := fun ws => (true, 3) = Table.answer sampleParams (Table.apply sampleTable ws) ⟨5, 0⟩)
  rcases hws.mp ⟨ws, hland, hacc, hans⟩ with hold | ⟨wr, hwr, hnew⟩
  · revert hold
    decide +kernel
  · rw [← Option.some.inj hwr] at hnew
    revert hnew
    decide +kernel

end Osnt.CamLut
