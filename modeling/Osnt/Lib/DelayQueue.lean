import Mathlib.Data.List.Basic

/-! A queue whose entries carry their age in cycles. It is the timing model of a
fall-through FIFO: an entry shows at the output once it is at the head and old
enough. -/
namespace Osnt.Lib

/-- Entries oldest first, each with the number of cycles since it was written. -/
abbrev DelayQueue (α : Type) := List (α × Nat)

namespace DelayQueue
variable {α : Type}

def vals (q : DelayQueue α) : List α := q.map Prod.fst

def ages (q : DelayQueue α) : List Nat := q.map Prod.snd

/-- One cycle: the head leaves if it is read, the rest grow older, and a written
value enters with age one. -/
def tick (q : DelayQueue α) (rd : Bool) (wr : Option α) : DelayQueue α :=
  (if rd then q.tail else q).map (fun e => (e.1, e.2 + 1)) ++ wr.toList.map (fun v => (v, 1))

/-- The same queue seen through a function of its values. -/
def mapVals {β : Type} (f : α → β) (q : DelayQueue α) : DelayQueue β :=
  q.map (fun e => (f e.1, e.2))

/-- The head, if it has waited `lat` cycles. -/
def front (lat : Nat) : DelayQueue α → Option α
  | [] => none
  | e :: _ => if lat ≤ e.2 then some e.1 else none

/-- Entries that were already in the queue `n` cycles ago. -/
def older (n : Nat) (q : DelayQueue α) : Nat := q.countP (fun e => n ≤ e.2)

/-- At most one entry was written in a cycle, so ages fall strictly. -/
structure Aged (q : DelayQueue α) : Prop where
  falling : q.Pairwise (fun a b => b.2 < a.2)
  positive : ∀ e ∈ q, 0 < e.2

@[simp] theorem vals_nil : vals ([] : DelayQueue α) = [] := rfl

@[simp] theorem vals_cons (e : α × Nat) (q : DelayQueue α) : vals (e :: q) = e.1 :: vals q := rfl

@[simp] theorem length_vals (q : DelayQueue α) : (vals q).length = q.length := by simp [vals]

theorem vals_tick (q : DelayQueue α) (rd : Bool) (wr : Option α) :
    vals (tick q rd wr) = (if rd then (vals q).tail else vals q) ++ wr.toList := by
  cases rd <;> cases wr <;> simp [vals, tick, Function.comp_def, List.map_tail]

theorem ages_tick (q : DelayQueue α) (rd : Bool) (wr : Option α) :
    ages (tick q rd wr) =
      (if rd then (ages q).tail else ages q).map (· + 1) ++ wr.toList.map (fun _ => 1) := by
  cases rd <;> cases wr <;> simp [ages, tick, Function.comp_def, List.map_tail]

theorem length_tick (q : DelayQueue α) (rd : Bool) (wr : Option α) :
    (tick q rd wr).length = (if rd then q.tail else q).length + wr.toList.length := by
  simp [tick]

theorem vals_mapVals {β : Type} (f : α → β) (q : DelayQueue α) :
    vals (mapVals f q) = (vals q).map f := by
  simp [vals, mapVals, Function.comp_def]

theorem mapVals_tick {β : Type} (f : α → β) (q : DelayQueue α) (rd : Bool) (wr : Option α) :
    mapVals f (tick q rd wr) = tick (mapVals f q) rd (wr.map f) := by
  cases rd <;> cases wr <;> simp [mapVals, tick, Function.comp_def, List.map_tail]

theorem front_mapVals {β : Type} (lat : Nat) (f : α → β) (q : DelayQueue α) :
    front lat (mapVals f q) = (front lat q).map f := by
  cases q with
  | nil => rfl
  | cons e t =>
    by_cases he : lat ≤ e.2
    · simp [front, mapVals, he]
    · simp [front, mapVals, he]

theorem front_of_le {lat : Nat} {e : α × Nat} {q : DelayQueue α} (h : lat ≤ e.2) :
    front lat (e :: q) = some e.1 := by simp [front, h]

/-- What shows at the output is the first value of the queue. -/
theorem front_eq_some {lat : Nat} {q : DelayQueue α} {v : α} (h : front lat q = some v) :
    ∃ n t, q = (v, n) :: t ∧ lat ≤ n := by
  cases q with
  | nil => simp [front] at h
  | cons e t =>
    simp only [front] at h
    split at h
    · rename_i hl
      obtain rfl := Option.some.inj h
      exact ⟨e.2, t, rfl, hl⟩
    · cases h

/-- Every entry has been in the queue for `n` cycles. -/
def Mature (n : Nat) (q : DelayQueue α) : Prop := ∀ e ∈ q, n ≤ e.2

theorem Mature.tick {n : Nat} {q : DelayQueue α} (h : Mature n q) (rd : Bool) :
    Mature (n + 1) (tick q rd none) := by
  intro e he
  have hsub : (if rd then q.tail else q) ⊆ q := by
    cases rd
    · exact List.Subset.refl q
    · exact (List.tail_sublist q).subset
  simp only [DelayQueue.tick, Option.toList_none, List.map_nil, List.append_nil, List.mem_map] at he
  obtain ⟨x, hx, rfl⟩ := he
  exact Nat.succ_le_succ (h x (hsub hx))

theorem Mature.front {n : Nat} {q : DelayQueue α} (h : Mature n q) (hq : q ≠ []) :
    ∃ v a t, q = (v, a) :: t ∧ front n q = some v := by
  cases q with
  | nil => exact absurd rfl hq
  | cons e t => exact ⟨e.1, e.2, t, rfl, front_of_le (h e (by simp))⟩

/-- A cycle of a queue in two parts: the front one gets older, the back one what is written. -/
theorem tick_append (old new : DelayQueue α) (rd : Bool) (wr : Option α) :
    ∃ old' new' : DelayQueue α, tick (old ++ new) rd wr = old' ++ new' ∧
      (∀ n, Mature n old → Mature (n + 1) old') ∧ vals new' <:+ vals new ++ wr.toList := by
  cases old with
  | nil =>
    refine ⟨[], tick new rd wr, rfl, fun _ _ e he => absurd he List.not_mem_nil, ?_⟩
    rw [vals_tick]
    cases rd with
    | false => exact List.suffix_rfl
    | true =>
      obtain ⟨front, hfront⟩ := List.tail_suffix (vals new)
      exact ⟨front, by rw [if_pos rfl, ← List.append_assoc, hfront]⟩
  | cons e old =>
    refine ⟨tick (e :: old) rd none, tick new false wr, ?_, fun n h => h.tick rd, ?_⟩
    · cases rd <;> simp [tick]
    · rw [vals_tick]
      exact List.suffix_rfl

theorem Aged.nil : Aged ([] : DelayQueue α) := ⟨by simp, by simp⟩

theorem Aged.tick {q : DelayQueue α} (h : Aged q) (rd : Bool) (wr : Option α) :
    Aged (tick q rd wr) := by
  have hsub : (if rd then q.tail else q).Sublist q := by
    cases rd
    · exact List.Sublist.refl q
    · exact List.tail_sublist q
  refine ⟨?_, ?_⟩
  · refine List.pairwise_append.mpr ⟨?_, ?_, ?_⟩
    · rw [List.pairwise_map]
      exact (h.falling.sublist hsub).imp (by intro a b; simp)
    · cases wr <;> simp
    · intro a ha b hb
      obtain ⟨e, he, rfl⟩ := List.mem_map.mp ha
      obtain ⟨v, _, rfl⟩ := List.mem_map.mp hb
      have := h.positive e (hsub.subset he)
      exact Nat.succ_lt_succ this
  · intro a ha
    rcases List.mem_append.mp ha with hm | hm
    · obtain ⟨e, _, rfl⟩ := List.mem_map.mp hm
      exact Nat.succ_pos _
    · obtain ⟨v, _, rfl⟩ := List.mem_map.mp hm
      exact Nat.one_pos

/-- After a cycle the entries older than `n + 1` are those that were older than `n`
and were not read. -/
theorem older_tick (n : Nat) (q : DelayQueue α) (rd : Bool) (wr : Option α) (hn : 0 < n) :
    older (n + 1) (tick q rd wr) = older n (if rd then q.tail else q) := by
  have hw : (wr.toList.map (fun v : α => (v, 1))).countP (fun e => n + 1 ≤ e.2) = 0 := by
    cases wr <;> simp; omega
  rw [older, tick, List.countP_append, hw, List.countP_map]
  simp [older, Function.comp_def]

theorem older_anti (q : DelayQueue α) {m n : Nat} (h : m ≤ n) : older n q ≤ older m q :=
  List.countP_mono_left (fun e _ he => by simp at he ⊢; omega)

theorem older_one {q : DelayQueue α} (h : Aged q) : older 1 q = q.length :=
  List.countP_eq_length.mpr (fun e he => decide_eq_true (h.positive e he))

theorem length_le_older_two {q : DelayQueue α} (h : Aged q) : q.length ≤ older 2 q + 1 := by
  induction q with
  | nil => simp
  | cons e t ih =>
    have ht : Aged t :=
      ⟨(List.pairwise_cons.mp h.falling).2, fun x hx => h.positive x (by simp [hx])⟩
    cases t with
    | nil => simp
    | cons b t =>
      have hb := (List.pairwise_cons.mp h.falling).1 b (by simp)
      have hp := ht.positive b (by simp)
      have he : 2 ≤ e.2 := by omega
      have hi := ih ht
      simp only [older, List.countP_cons, List.length_cons, he, decide_true, if_true] at hi ⊢
      omega

/-- The head shows exactly when some entry is old enough. -/
theorem front_isSome (lat : Nat) {q : DelayQueue α} (h : Aged q) :
    (front lat q).isSome = decide (0 < older lat q) := by
  cases q with
  | nil => simp [front, older]
  | cons e t =>
    by_cases he : lat ≤ e.2
    · simp [front, he, older]
    · have ht : older lat t = 0 := by
        refine List.countP_eq_zero.mpr (fun x hx => ?_)
        have := (List.pairwise_cons.mp h.falling).1 x hx
        simp
        omega
      simp only [older] at ht
      simp [front, he, older, ht]

theorem older_tail {q : DelayQueue α} {n : Nat} (h : (front n q).isSome) :
    older n q.tail + 1 = older n q := by
  cases q with
  | nil => simp [front] at h
  | cons e t =>
    by_cases he : n ≤ e.2
    · simp [older, he]
    · simp [front, he] at h

/-- An entry that shows at a larger latency shows at a smaller one. -/
theorem front_mono {m n : Nat} {q : DelayQueue α} (hmn : m ≤ n) (h : (front n q).isSome) :
    (front m q).isSome := by
  cases q with
  | nil => simp [front] at h
  | cons e t =>
    by_cases he : n ≤ e.2
    · simp [front, Nat.le_trans hmn he]
    · simp [front, he] at h

end DelayQueue
end Osnt.Lib
