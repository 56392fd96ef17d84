import Mathlib.Data.List.Infix

/-! Jobs served one at a time in the order they come: when each is due.

A job that comes in cycle `t` can be taken up `lag` cycles later, is due `dur` cycles after it has
been taken up, and the next one can be taken up `gap` cycles after that. -/
namespace Osnt.Lib.Server
variable {α : Type} (lag gap : Nat) (dur : α → Nat)

/-- The cycle in which a job is due, if the server is free from cycle `r` on. -/
def dueAt (r : Nat) (p : Nat × α) : Nat := max (p.1 + lag) r + dur p.2

/-- The jobs, each with the cycle in which it is due. -/
def due : Nat → List (Nat × α) → List (Nat × α)
  | _, [] => []
  | r, p :: ps => (dueAt lag dur r p, p.2) :: due (dueAt lag dur r p + gap) ps

/-- The cycle from which the server is free for the jobs behind `ps`. -/
def freeFrom : Nat → List (Nat × α) → Nat
  | r, [] => r
  | r, p :: ps => freeFrom (dueAt lag dur r p + gap) ps

@[simp] theorem freeFrom_nil (r : Nat) : freeFrom lag gap dur r [] = r := rfl

@[simp] theorem freeFrom_singleton (r : Nat) (p : Nat × α) :
    freeFrom lag gap dur r [p] = dueAt lag dur r p + gap := rfl

theorem freeFrom_append (r : Nat) (ps qs : List (Nat × α)) :
    freeFrom lag gap dur r (ps ++ qs) = freeFrom lag gap dur (freeFrom lag gap dur r ps) qs := by
  induction ps generalizing r with
  | nil => rfl
  | cons p ps ih => exact ih _

theorem due_append (r : Nat) (ps qs : List (Nat × α)) :
    due lag gap dur r (ps ++ qs) =
      due lag gap dur r ps ++ due lag gap dur (freeFrom lag gap dur r ps) qs := by
  induction ps generalizing r with
  | nil => rfl
  | cons p ps ih =>
    rw [List.cons_append, due, due, freeFrom, ih, List.cons_append]

theorem due_snd (r : Nat) (ps : List (Nat × α)) :
    (due lag gap dur r ps).map Prod.snd = ps.map Prod.snd := by
  induction ps generalizing r with
  | nil => rfl
  | cons p ps ih => simp [due, ih]

theorem length_due (r : Nat) (ps : List (Nat × α)) : (due lag gap dur r ps).length = ps.length := by
  have hlen := congrArg List.length (due_snd lag gap dur r ps)
  rwa [List.length_map, List.length_map] at hlen

theorem le_freeFrom (r : Nat) (ps : List (Nat × α)) : r ≤ freeFrom lag gap dur r ps := by
  induction ps generalizing r with
  | nil => exact Nat.le_refl r
  | cons p ps ih =>
    have hnext := ih (dueAt lag dur r p + gap)
    unfold dueAt at hnext
    unfold freeFrom dueAt
    omega

/-- The server is free `gap` cycles after the last job was due. -/
theorem due_le_freeFrom {r : Nat} {ps : List (Nat × α)} :
    ∀ e ∈ due lag gap dur r ps, e.1 + gap ≤ freeFrom lag gap dur r ps := by
  induction ps generalizing r with
  | nil => simp [due]
  | cons p ps ih =>
    intro e he
    rcases List.mem_cons.mp he with rfl | he
    · exact le_freeFrom lag gap dur _ ps
    · exact ih e he

theorem le_due {r : Nat} {ps : List (Nat × α)} : ∀ e ∈ due lag gap dur r ps, r ≤ e.1 := by
  induction ps generalizing r with
  | nil => simp [due]
  | cons p ps ih =>
    intro e he
    have hdue : r ≤ dueAt lag dur r p := by
      unfold dueAt
      omega
    rcases List.mem_cons.mp he with rfl | he
    · exact hdue
    · have hle := ih e he
      omega

theorem due_ge {n r : Nat} {ps : List (Nat × α)} (h : ∀ p ∈ ps.head?, n ≤ dueAt lag dur r p) :
    ∀ e ∈ due lag gap dur r ps, n ≤ e.1 := by
  cases ps with
  | nil => simp [due]
  | cons p ps =>
    have hp := h p rfl
    intro e he
    rcases List.mem_cons.mp he with rfl | he
    · exact hp
    · have hle := le_due lag gap dur e he
      omega

/-- The jobs due before cycle `n`, when those behind `ps` are not. -/
theorem filter_due {n r : Nat} {ps qs : List (Nat × α)}
    (hps : freeFrom lag gap dur r ps < n + gap)
    (hqs : ∀ q ∈ qs.head?, n ≤ dueAt lag dur (freeFrom lag gap dur r ps) q) :
    (due lag gap dur r (ps ++ qs)).filter (fun e => e.1 < n) = due lag gap dur r ps := by
  have hpast : (due lag gap dur r ps).filter (fun e => decide (e.1 < n)) =
      due lag gap dur r ps := by
    rw [List.filter_eq_self]
    intro e he
    have hle := due_le_freeFrom lag gap dur e he
    simp only [decide_eq_true_eq]
    omega
  have hlater : (due lag gap dur (freeFrom lag gap dur r ps) qs).filter
      (fun e => decide (e.1 < n)) = [] := by
    rw [List.filter_eq_nil_iff]
    intro e he
    have hge := due_ge lag gap dur hqs e he
    simp only [decide_eq_true_eq]
    omega
  rw [due_append, List.filter_append, hpast, hlater, List.append_nil]

theorem come_before_due {r : Nat} {ps : List (Nat × α)} :
    ∀ e ∈ due lag gap dur r ps, ∃ p ∈ ps, p.1 + lag ≤ e.1 := by
  induction ps generalizing r with
  | nil => simp [due]
  | cons p ps ih =>
    intro e he
    rcases List.mem_cons.mp he with rfl | he
    · refine ⟨p, by simp, ?_⟩
      simp only [dueAt]
      omega
    · obtain ⟨q, hq, hle⟩ := ih e he
      exact ⟨q, List.mem_cons_of_mem p hq, hle⟩

/-- Jobs of at most `d` cycles that come one after the other are each due after at most `d + gap`
cycles for each job so far. -/
theorem due_within {d : Nat} (hd : ∀ x, dur x ≤ d) {r b : Nat} {ps : List (Nat × α)}
    (hr : ∀ p ∈ ps.head?, r ≤ p.1 + lag + b) (hps : ps.Pairwise (fun p q => p.1 < q.1)) {k : Nat}
    {e p : Nat × α} (he : (due lag gap dur r ps)[k]? = some e) (hp : ps[k]? = some p) :
    p.1 + lag ≤ e.1 ∧ e.1 ≤ p.1 + lag + b + d + (d + gap) * k := by
  induction ps generalizing r b k with
  | nil => simp at hp
  | cons q ps ih =>
    have hle := hd q.2
    have hrq := hr q rfl
    cases k with
    | zero =>
      obtain rfl : (dueAt lag dur r q, q.2) = e := by simpa [due] using he
      obtain rfl : q = p := by simpa using hp
      simp only [dueAt]
      omega
    | succ k =>
      have hlt : q.1 < p.1 := by
        apply (List.pairwise_cons.mp hps).1
        exact List.mem_of_getElem? (by simpa using hp)
      have hnext := ih (r := dueAt lag dur r q + gap) (b := b + d + gap) (fun p' hp' => ?_)
        (List.pairwise_cons.mp hps).2 (by simpa [due] using he) (by simpa using hp)
      · rw [Nat.mul_succ]
        omega
      · have hlt' := (List.pairwise_cons.mp hps).1 p' (List.mem_of_mem_head? hp')
        simp only [dueAt]
        omega

end Osnt.Lib.Server
