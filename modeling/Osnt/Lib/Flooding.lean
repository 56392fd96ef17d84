import Mathlib.Algebra.BigOperators.Group.Finset.Piecewise
import Mathlib.Algebra.Order.BigOperators.Group.Finset
import Mathlib.Data.Fintype.Card
import Mathlib.Logic.Relation
import Mathlib.Tactic.Ring

/-! Flooding: the numbered updates of every node go from neighbour to neighbour. A node passes on
what is new to it, to all neighbours but the one it has it from, as long as there are hops left. -/
namespace Osnt.Lib.Flooding
variable {ι : Type}

/-- An update on its way over one link. -/
structure Message (ι : Type) where
  src : ι
  dst : ι
  origin : ι
  number : Nat
  ttl : Nat

/-- The number of the last update that each node has of each other one, and of its own; and what is
on its way. -/
structure State (ι : Type) where
  level : ι → ι → Nat
  flight : List (Message ι)

def start : State ι := ⟨fun _ _ => 0, []⟩

variable [DecidableEq ι]

/-- Node `i` has update `n` of node `r`. -/
def raise (level : ι → ι → Nat) (i r : ι) (n : Nat) : ι → ι → Nat :=
  fun x y => if x = i ∧ y = r then n else level x y

/-- Node `i` makes an update. -/
def originate (nbrs : ι → List ι) (limit : Nat) (i : ι) (s : State ι) : State ι where
  level := raise s.level i i (s.level i i + 1)
  flight := s.flight ++ (nbrs i).map fun j => ⟨i, j, i, s.level i i + 1, limit⟩

/-- A message arrives. What is new goes on to the neighbours, except perhaps to the sender. -/
inductive Delivers (nbrs : ι → List ι) : State ι → State ι → Prop
  | ignore {level : ι → ι → Nat} {front back : List (Message ι)} {m : Message ι}
      (hold : m.number ≤ level m.dst m.origin) :
      Delivers nbrs ⟨level, front ++ m :: back⟩ ⟨level, front ++ back⟩
  | accept {level : ι → ι → Nat} {front back : List (Message ι)} {m : Message ι}
      (targets : List ι) (hnew : level m.dst m.origin < m.number)
      (hsub : targets.Sublist (nbrs m.dst)) (hall : ∀ j ∈ nbrs m.dst, j = m.src ∨ j ∈ targets) :
      Delivers nbrs ⟨level, front ++ m :: back⟩
        ⟨raise level m.dst m.origin m.number, front ++ back ++
          if 1 < m.ttl then targets.map fun j => ⟨m.dst, j, m.origin, m.number, m.ttl - 1⟩
          else []⟩

/-- What can be reached with some updates made and some messages repeated and gone: delivered or,
where links are lossy, lost. -/
inductive Run (nbrs : ι → List ι) (limit : Nat) (lossy : Prop) : Nat → Nat → Nat → State ι → Prop
  | start : Run nbrs limit lossy 0 0 0 start
  | originate {made repeated gone : Nat} {s : State ι} (i : ι)
      (h : Run nbrs limit lossy made repeated gone s) :
      Run nbrs limit lossy (made + 1) repeated gone (originate nbrs limit i s)
  | deliver {made repeated gone : Nat} {s s' : State ι}
      (h : Run nbrs limit lossy made repeated gone s) (hstep : Delivers nbrs s s') :
      Run nbrs limit lossy made repeated (gone + 1) s'
  | lose {made repeated gone : Nat} {level : ι → ι → Nat} {front back : List (Message ι)}
      {m : Message ι} (hlossy : lossy)
      (h : Run nbrs limit lossy made repeated gone ⟨level, front ++ m :: back⟩) :
      Run nbrs limit lossy made repeated (gone + 1) ⟨level, front ++ back⟩
  | duplicate {made repeated gone : Nat} {s : State ι} {m : Message ι} (hm : m ∈ s.flight)
      (h : Run nbrs limit lossy made repeated gone s) :
      Run nbrs limit lossy made (repeated + 1) gone { s with flight := s.flight ++ [m] }

theorem raise_self (level : ι → ι → Nat) (i r : ι) (n : Nat) : raise level i r n i r = n :=
  if_pos ⟨rfl, rfl⟩

theorem raise_of_ne {level : ι → ι → Nat} {i r x y : ι} (n : Nat) (h : ¬ (x = i ∧ y = r)) :
    raise level i r n x y = level x y := if_neg h

theorem le_raise {level : ι → ι → Nat} {i r : ι} {n : Nat} (h : level i r ≤ n) (x y : ι) :
    level x y ≤ raise level i r n x y := by
  unfold raise
  split
  · rename_i he
    rw [he.1, he.2]
    exact h
  · exact Nat.le_refl _

variable [Fintype ι]

/-- The nodes that have update `n` of node `r`. -/
def having (level : ι → ι → Nat) (r : ι) (n : Nat) : Finset ι :=
  Finset.univ.filter fun x => n ≤ level x r

omit [DecidableEq ι] in
theorem mem_having {level : ι → ι → Nat} {r x : ι} {n : Nat} :
    x ∈ having level r n ↔ n ≤ level x r := by
  simp [having]

omit [DecidableEq ι] in
theorem having_mono {level level' : ι → ι → Nat} (h : ∀ x y, level x y ≤ level' x y) (r : ι)
    (n : Nat) : (having level r n).card ≤ (having level' r n).card :=
  Finset.card_le_card fun x hx => mem_having.mpr ((mem_having.mp hx).trans (h x r))

/-- What holds at any time: nobody has an update that its node has not made. -/
structure Sound (s : State ι) : Prop where
  known : ∀ m ∈ s.flight, m.number ≤ s.level m.src m.origin
  own : ∀ i r, s.level i r ≤ s.level r r

/-- What holds while nothing is lost. The hops that a message has left and the nodes that have it
make up the limit, and a node that lags behind a neighbour is being told. -/
structure Telling (nbrs : ι → List ι) (limit : Nat) (s : State ι) : Prop where
  hops : ∀ m ∈ s.flight, limit < m.ttl + (having s.level m.origin m.number).card
  told : ∀ i, ∀ j ∈ nbrs i, ∀ r, s.level i r ≤ s.level j r ∨
    ∃ m ∈ s.flight, m.dst = j ∧ m.origin = r ∧ m.number = s.level i r

variable {nbrs : ι → List ι} {limit : Nat} {lossy : Prop}

omit [DecidableEq ι] [Fintype ι] in
theorem known_mono {level level' : ι → ι → Nat} (h : ∀ x y, level x y ≤ level' x y)
    {ms : List (Message ι)} (hms : ∀ m ∈ ms, m.number ≤ level m.src m.origin) :
    ∀ m ∈ ms, m.number ≤ level' m.src m.origin :=
  fun m hm => (hms m hm).trans (h m.src m.origin)

omit [DecidableEq ι] in
theorem hops_mono {level level' : ι → ι → Nat} (h : ∀ x y, level x y ≤ level' x y)
    {ms : List (Message ι)}
    (hms : ∀ m ∈ ms, limit < m.ttl + (having level m.origin m.number).card) :
    ∀ m ∈ ms, limit < m.ttl + (having level' m.origin m.number).card := fun m hm =>
  Nat.lt_of_lt_of_le (hms m hm) (Nat.add_le_add_left (having_mono h m.origin m.number) m.ttl)

omit [DecidableEq ι] [Fintype ι] in
theorem mem_of_rest {front back : List (Message ι)} {m x : Message ι} (hx : x ∈ front ++ back) :
    x ∈ front ++ m :: back := by
  rcases List.mem_append.mp hx with hx | hx
  · exact List.mem_append_left _ hx
  · exact List.mem_append_right _ (List.mem_cons_of_mem _ hx)

omit [DecidableEq ι] [Fintype ι] in
theorem eq_or_mem_rest {front back : List (Message ι)} {m x : Message ι}
    (hx : x ∈ front ++ m :: back) : x = m ∨ x ∈ front ++ back := by
  rcases List.mem_append.mp hx with hx | hx
  · exact .inr (List.mem_append_left _ hx)
  · rcases List.mem_cons.mp hx with rfl | hx
    · exact .inl rfl
    · exact .inr (List.mem_append_right _ hx)

omit [DecidableEq ι] [Fintype ι] in
theorem Sound.drop {level : ι → ι → Nat} {front back : List (Message ι)} {m : Message ι}
    (h : Sound ⟨level, front ++ m :: back⟩) : Sound ⟨level, front ++ back⟩ :=
  ⟨fun x hx => h.known x (mem_of_rest hx), h.own⟩

omit [Fintype ι] in
theorem Sound.originate {s : State ι} (h : Sound s) (i : ι) :
    Sound (originate nbrs limit i s) := by
  have hmono : ∀ x y, s.level x y ≤ raise s.level i i (s.level i i + 1) x y :=
    le_raise (Nat.le_succ _)
  constructor
  · intro m hm
    rcases List.mem_append.mp hm with hm | hm
    · exact known_mono hmono h.known m hm
    · obtain ⟨j, -, rfl⟩ := List.mem_map.mp hm
      exact (raise_self s.level i i (s.level i i + 1)).ge
  · intro x r
    change raise _ _ _ _ x r ≤ raise _ _ _ _ r r
    by_cases hx : x = i ∧ r = i
    · rw [hx.1, hx.2]
    · rw [raise_of_ne _ hx]
      exact (h.own x r).trans (hmono r r)

omit [Fintype ι] in
theorem Sound.deliver {s s' : State ι} (h : Sound s) (hstep : Delivers nbrs s s') : Sound s' := by
  cases hstep with
  | ignore hold => exact h.drop
  | @accept level front back m targets hnew hsub hall =>
    have hm : m ∈ front ++ m :: back := List.mem_append_right _ List.mem_cons_self
    have hmono : ∀ x y, level x y ≤ raise level m.dst m.origin m.number x y :=
      le_raise hnew.le
    have hself := raise_self level m.dst m.origin m.number
    constructor
    · intro x hx
      rcases List.mem_append.mp hx with hx | hx
      · exact (h.known x (mem_of_rest hx)).trans (hmono _ _)
      · split at hx
        · obtain ⟨j, -, rfl⟩ := List.mem_map.mp hx
          exact hself.ge
        · cases hx
    · intro x r
      by_cases hx : x = m.dst ∧ r = m.origin
      · obtain ⟨rfl, rfl⟩ := hx
        exact hself.le.trans ((h.known m hm).trans ((h.own _ _).trans (hmono _ _)))
      · change raise _ _ _ _ x r ≤ _
        rw [raise_of_ne _ hx]
        exact (h.own x r).trans (hmono r r)

omit [Fintype ι] in
theorem Run.sound {made repeated gone : Nat} {s : State ι}
    (h : Run nbrs limit lossy made repeated gone s) : Sound s := by
  induction h with
  | start => exact ⟨by simp [Flooding.start], fun _ _ => Nat.le_refl _⟩
  | originate i _ ih => exact ih.originate i
  | deliver _ hstep ih => exact ih.deliver hstep
  | lose _ _ ih => exact ih.drop
  | duplicate hm _ ih =>
    refine ⟨fun x hx => ?_, ih.own⟩
    rcases List.mem_append.mp hx with hx | hx
    · exact ih.known x hx
    · rw [List.mem_singleton.mp hx]
      exact ih.known _ hm

theorem Telling.originate {s : State ι} (h : Telling nbrs limit s) (i : ι) :
    Telling nbrs limit (originate nbrs limit i s) := by
  have hmono : ∀ x y, s.level x y ≤ raise s.level i i (s.level i i + 1) x y :=
    le_raise (Nat.le_succ _)
  have hself := raise_self s.level i i (s.level i i + 1)
  constructor
  · intro m hm
    rcases List.mem_append.mp hm with hm | hm
    · exact hops_mono hmono h.hops m hm
    · obtain ⟨j, -, rfl⟩ := List.mem_map.mp hm
      have hpos : 0 < (having (raise s.level i i (s.level i i + 1)) i (s.level i i + 1)).card :=
        Finset.card_pos.mpr ⟨i, mem_having.mpr hself.ge⟩
      exact Nat.lt_add_of_pos_right hpos
  · intro x j hj r
    change raise _ _ _ _ x r ≤ raise _ _ _ _ j r ∨ ∃ m ∈ s.flight ++ _, _ ∧ _ ∧
      m.number = raise _ _ _ _ x r
    by_cases hx : x = i ∧ r = i
    · obtain ⟨rfl, rfl⟩ := hx
      refine .inr ⟨_, List.mem_append_right _ (List.mem_map_of_mem hj), rfl, rfl, hself.symm⟩
    · rw [raise_of_ne _ hx]
      rcases h.told x j hj r with hle | ⟨m, hm, hmsg⟩
      · exact .inl (hle.trans (hmono j r))
      · exact .inr ⟨m, List.mem_append_left _ hm, hmsg⟩

omit [DecidableEq ι] in
theorem Telling.ttl {s : State ι} (h : Telling nbrs limit s) (hlimit : Fintype.card ι ≤ limit)
    {m : Message ι} (hm : m ∈ s.flight) (hnew : s.level m.dst m.origin < m.number) :
    1 < m.ttl := by
  have hhops := h.hops m hm
  have hnot : m.dst ∉ having s.level m.origin m.number := by
    rw [mem_having]
    omega
  have hcard := Finset.card_lt_univ_of_notMem hnot
  omega

omit [DecidableEq ι] in
theorem Telling.ignore {level : ι → ι → Nat} {front back : List (Message ι)} {m : Message ι}
    (h : Telling nbrs limit ⟨level, front ++ m :: back⟩) (hold : m.number ≤ level m.dst m.origin) :
    Telling nbrs limit ⟨level, front ++ back⟩ := by
  refine ⟨fun x hx => h.hops x (mem_of_rest hx), fun i j hj r => ?_⟩
  rcases h.told i j hj r with hle | ⟨x, hx, rfl, rfl, hnum⟩
  · exact .inl hle
  · rcases eq_or_mem_rest hx with rfl | hx
    · exact .inl (hnum ▸ hold)
    · exact .inr ⟨x, hx, rfl, rfl, hnum⟩

/-- A node that takes a message in tells its neighbours, and one more node has it. -/
theorem Telling.accept {level : ι → ι → Nat} {front back : List (Message ι)} {m : Message ι}
    (hs : Sound ⟨level, front ++ m :: back⟩) (h : Telling nbrs limit ⟨level, front ++ m :: back⟩)
    (hnew : level m.dst m.origin < m.number) {targets : List ι}
    (hall : ∀ j ∈ nbrs m.dst, j = m.src ∨ j ∈ targets) :
    Telling nbrs limit ⟨raise level m.dst m.origin m.number, front ++ back ++
      targets.map fun j => ⟨m.dst, j, m.origin, m.number, m.ttl - 1⟩⟩ := by
  have hm : m ∈ front ++ m :: back := List.mem_append_right _ List.mem_cons_self
  have hmono : ∀ x y, level x y ≤ raise level m.dst m.origin m.number x y := le_raise hnew.le
  have hself := raise_self level m.dst m.origin m.number
  constructor
  · intro x hx
    rcases List.mem_append.mp hx with hx | hx
    · exact hops_mono hmono (fun x hx => h.hops x (mem_of_rest hx)) x hx
    · obtain ⟨j, -, rfl⟩ := List.mem_map.mp hx
      have hhops := h.hops m hm
      have hnot : m.dst ∉ having level m.origin m.number := fun hmem =>
        absurd (mem_having.mp hmem) (Nat.not_le.mpr hnew)
      have hlt : (having level m.origin m.number).card <
          (having (raise level m.dst m.origin m.number) m.origin m.number).card := by
        refine Finset.card_lt_card ⟨fun x hx => ?_, fun hall => hnot (hall ?_)⟩
        · exact mem_having.mpr ((mem_having.mp hx).trans (hmono _ _))
        · exact mem_having.mpr hself.ge
      change limit < m.ttl - 1 +
        (having (raise level m.dst m.origin m.number) m.origin m.number).card
      change limit < m.ttl + (having level m.origin m.number).card at hhops
      omega
  · intro i j hj r
    change raise _ _ _ _ i r ≤ raise _ _ _ _ j r ∨ ∃ x ∈ _, _ ∧ _ ∧ _ = raise _ _ _ _ i r
    by_cases hi : i = m.dst ∧ r = m.origin
    · obtain ⟨rfl, rfl⟩ := hi
      rw [hself]
      rcases hall j hj with rfl | hj
      · exact .inl ((hs.known m hm).trans (hmono _ _))
      · exact .inr ⟨_, List.mem_append_right _ (List.mem_map_of_mem hj), rfl, rfl, rfl⟩
    · rw [raise_of_ne _ hi]
      rcases h.told i j hj r with hle | ⟨x, hx, rfl, rfl, hnum⟩
      · exact .inl (hle.trans (hmono _ _))
      · rcases eq_or_mem_rest hx with rfl | hx
        · exact .inl (hnum ▸ hself.ge)
        · exact .inr ⟨x, List.mem_append_left _ hx, rfl, rfl, hnum⟩

theorem Run.telling (hlimit : Fintype.card ι ≤ limit) {made repeated gone : Nat} {s : State ι}
    (h : Run nbrs limit False made repeated gone s) : Telling nbrs limit s := by
  induction h with
  | start => exact ⟨by simp [Flooding.start], fun _ _ _ _ => .inl (Nat.le_refl _)⟩
  | originate i _ ih => exact ih.originate i
  | deliver hrun hstep ih =>
    cases hstep with
    | ignore hold => exact ih.ignore hold
    | @accept level front back m targets hnew hsub hall =>
      have hm : m ∈ front ++ m :: back := List.mem_append_right _ List.mem_cons_self
      rw [if_pos (ih.ttl hlimit hm hnew)]
      exact ih.accept hrun.sound hnew hall
  | lose hlossy => exact hlossy.elim
  | duplicate hm _ ih =>
    refine ⟨fun x hx => ?_, fun i j hj r => ?_⟩
    · rcases List.mem_append.mp hx with hx | hx
      · exact ih.hops x hx
      · rw [List.mem_singleton.mp hx]
        exact ih.hops _ hm
    · rcases ih.told i j hj r with hle | ⟨x, hx, hmsg⟩
      · exact .inl hle
      · exact .inr ⟨x, List.mem_append_left _ hx, hmsg⟩

/-- When nothing is on its way and nothing was lost, every node that can be reached from another
one has all its updates. -/
theorem Run.agreed (hlimit : Fintype.card ι ≤ limit) {made repeated gone : Nat} {s : State ι}
    (h : Run nbrs limit False made repeated gone s) (hquiet : s.flight = []) {i r : ι}
    (hpath : Relation.ReflTransGen (fun a b => b ∈ nbrs a) r i) : s.level i r = s.level r r := by
  refine Nat.le_antisymm (h.sound.own i r) ?_
  induction hpath with
  | refl => exact Nat.le_refl _
  | tail _ hlink ih =>
    refine ih.trans ?_
    rcases (h.telling hlimit).told _ _ hlink r with hle | ⟨m, hm, -⟩
    · exact hle
    · rw [hquiet] at hm
      cases hm

theorem Run.made_eq {made repeated gone : Nat} {s : State ι}
    (h : Run nbrs limit lossy made repeated gone s) : made = ∑ i, s.level i i := by
  induction h with
  | start => simp [Flooding.start]
  | @originate made repeated gone s i h ih =>
    have hterm : ∀ x, raise s.level i i (s.level i i + 1) x x =
        s.level x x + if x = i then 1 else 0 := by
      intro x
      by_cases hx : x = i
      · subst hx
        rw [raise_self, if_pos rfl]
      · rw [raise_of_ne _ (fun h => hx h.1), if_neg hx, Nat.add_zero]
    change made + 1 = ∑ x, raise s.level i i (s.level i i + 1) x x
    simp only [hterm, Finset.sum_add_distrib, Finset.sum_ite_eq', Finset.mem_univ, if_true, ih]
  | @deliver made repeated gone s s' h hstep ih =>
    have hsound := h.sound
    rw [ih]
    cases hstep with
    | ignore hold => rfl
    | @accept level front back m targets hnew hsub hall =>
      have hm : m ∈ front ++ m :: back := List.mem_append_right _ List.mem_cons_self
      refine Finset.sum_congr rfl fun x _ => (raise_of_ne _ fun hx => ?_).symm
      have hle := (hsound.known m hm).trans (hsound.own m.src m.origin)
      rw [← hx.1, ← hx.2] at hnew
      rw [← hx.2] at hle
      exact absurd hle (Nat.not_le.mpr hnew)
  | lose _ _ ih => exact ih
  | duplicate _ _ ih => exact ih

/-- What the nodes lag behind, and the messages that may cost. -/
def lag (level : ι → ι → Nat) : Nat := ∑ r, ∑ x, (level r r - level x r)

def work (degree : Nat) (s : State ι) : Nat := s.flight.length + degree * lag s.level

theorem lag_originate (level : ι → ι → Nat) (i : ι) :
    lag (raise level i i (level i i + 1)) + 1 ≤ lag level + Fintype.card ι := by
  have hterm : ∀ r, ∑ x, (raise level i i (level i i + 1) r r - raise level i i (level i i + 1) x r)
      ≤ (∑ x, (level r r - level x r)) + if r = i then Fintype.card ι - 1 else 0 := by
    intro r
    by_cases hr : r = i
    · subst hr
      rw [if_pos rfl, raise_self]
      have hle : ∀ x, level r r + 1 - raise level r r (level r r + 1) x r ≤
          (level r r - level x r) + if x = r then 0 else 1 := by
        intro x
        by_cases hx : x = r
        · subst hx
          rw [raise_self]
          simp
        · rw [raise_of_ne _ (fun h => hx h.1), if_neg hx]
          omega
      refine (Finset.sum_le_sum fun x _ => hle x).trans ?_
      rw [Finset.sum_add_distrib]
      refine Nat.add_le_add_left ?_ _
      simp [Finset.sum_ite, Finset.filter_ne', Finset.card_erase_of_mem]
    · have hsame : ∀ x, raise level i i (level i i + 1) x r = level x r := fun x =>
        raise_of_ne _ fun h => hr h.2
      simp only [hsame, if_neg hr, Nat.add_zero]
      exact Nat.le_refl _
  have hsum := Finset.sum_le_sum fun r (_ : r ∈ Finset.univ) => hterm r
  rw [Finset.sum_add_distrib, Finset.sum_ite_eq' Finset.univ i, if_pos (Finset.mem_univ i)] at hsum
  have hpos : 0 < Fintype.card ι := Fintype.card_pos_iff.mpr ⟨i⟩
  unfold lag
  omega

theorem lag_accept {level : ι → ι → Nat} {d r : ι} {n : Nat} (hnew : level d r < n)
    (hown : n ≤ level r r) : lag (raise level d r n) < lag level := by
  have hne : d ≠ r := by
    rintro rfl
    omega
  have hother : ∀ x y, y ≠ r → raise level d r n x y = level x y := fun x y hy =>
    raise_of_ne _ fun h => hy h.2
  have hroot : ∀ y, raise level d r n y y = level y y := fun y =>
    raise_of_ne _ fun h => hne (h.1.symm.trans h.2)
  have hle : ∀ y x, raise level d r n y y - raise level d r n x y ≤ level y y - level x y := by
    intro y x
    rw [hroot]
    have hmono : level x y ≤ raise level d r n x y := le_raise hnew.le x y
    omega
  refine Finset.sum_lt_sum (fun y _ => Finset.sum_le_sum fun x _ => hle y x)
    ⟨r, Finset.mem_univ r, ?_⟩
  refine Finset.sum_lt_sum (fun x _ => hle r x) ⟨d, Finset.mem_univ d, ?_⟩
  rw [hroot, raise_self]
  omega

theorem work_originate {degree : Nat} (hdegree : ∀ i, (nbrs i).length ≤ degree) (s : State ι)
    (i : ι) : work degree (originate nbrs limit i s) ≤ work degree s + degree * Fintype.card ι := by
  have hlag := Nat.mul_le_mul_left degree (lag_originate s.level i)
  have hdeg := hdegree i
  rw [Nat.mul_add, Nat.mul_add] at hlag
  unfold work
  change (s.flight ++ List.map _ _).length + degree * lag (raise s.level i i _) ≤ _
  rw [List.length_append, List.length_map]
  omega

theorem work_deliver {degree : Nat} (hdegree : ∀ i, (nbrs i).length ≤ degree) {s s' : State ι}
    (h : Sound s) (hstep : Delivers nbrs s s') : work degree s' < work degree s := by
  cases hstep with
  | ignore hold =>
    simp [work]
  | @accept level front back m targets hnew hsub hall =>
    have hm : m ∈ front ++ m :: back := List.mem_append_right _ List.mem_cons_self
    have hlag := lag_accept hnew ((h.known m hm).trans (h.own _ _))
    have hmul := Nat.mul_le_mul_left degree (Nat.succ_le_of_lt hlag)
    have hdeg := (hsub.length_le).trans (hdegree m.dst)
    have hsent : (if 1 < m.ttl then targets.map fun j =>
        (⟨m.dst, j, m.origin, m.number, m.ttl - 1⟩ : Message ι) else []).length ≤ degree := by
      split
      · rw [List.length_map]
        exact hdeg
      · exact Nat.zero_le _
    rw [Nat.mul_succ] at hmul
    simp only [work, List.length_append, List.length_cons]
    omega

/-- Every update crosses every link at most once, and flooding comes to an end. -/
theorem Run.gone_le {degree : Nat} (hdegree : ∀ i, (nbrs i).length ≤ degree)
    {made repeated gone : Nat} {s : State ι} (h : Run nbrs limit lossy made repeated gone s) :
    gone + work degree s ≤ degree * Fintype.card ι * made + repeated := by
  induction h with
  | start =>
    simp [work, Flooding.start, lag]
  | @originate made repeated gone s i h ih =>
    have hwork : work degree (Flooding.originate nbrs limit i s) ≤ _ :=
      work_originate hdegree s i
    rw [Nat.mul_succ]
    omega
  | deliver h hstep ih =>
    have hwork := work_deliver hdegree h.sound hstep
    omega
  | lose _ _ ih =>
    simp only [work, List.length_append, List.length_cons] at ih ⊢
    omega
  | duplicate _ _ ih =>
    simp only [work, List.length_append, List.length_singleton] at ih ⊢
    omega

end Osnt.Lib.Flooding
