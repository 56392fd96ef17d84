import Osnt.Lib.DelayQueue
import Osnt.Lib.Framing

/-! The words that begin a packet, among those that wait in a queue. -/
namespace Osnt.Lib.DelayQueue
variable {α : Type} (last : α → Bool)

/-- Those that begin a packet; `first` says whether the head does. -/
def heads (first : Bool) (q : DelayQueue α) : DelayQueue α :=
  openers (fun e : α × Nat => last e.1) first q

theorem opens_vals (first : Bool) (q : DelayQueue α) :
    opens (fun e : α × Nat => last e.1) first q = opens last first q.vals :=
  (opens_map (fun e : α × Nat => last e.1) (f := Prod.fst) (fun _ => rfl) first q).symm

/-- A cycle without a read: what begins a packet gets older, and a word that is written joins it if
it begins one. -/
theorem heads_write (first : Bool) (q : DelayQueue α) (wr : Option α) :
    heads last first (q.tick false wr) =
      (heads last first q).tick false (if opens last first q.vals then wr else none) := by
  have hheads : openers (fun e : α × Nat => last e.1) first (q.map fun e => (e.1, e.2 + 1)) =
      (openers (fun e : α × Nat => last e.1) first q).map fun e => (e.1, e.2 + 1) :=
    openers_map _ (fun _ => rfl) first q
  have hback : opens (fun e : α × Nat => last e.1) first (q.map fun e => (e.1, e.2 + 1)) =
      opens (fun e : α × Nat => last e.1) first q := opens_map _ (fun _ => rfl) first q
  rw [← opens_vals]
  cases wr with
  | none => simp [heads, tick, hheads]
  | some w =>
    simp only [heads, tick, Bool.false_eq_true, if_false, Option.toList_some, List.map_cons,
      List.map_nil, openers_concat, hheads, hback]
    cases opens (fun e : α × Nat => last e.1) first q <;> simp

/-- A cycle that reads the head, which leaves with its packet's beginning if it is that. -/
theorem heads_read (first : Bool) (e : α × Nat) (q : DelayQueue α) (wr : Option α) :
    heads last (last e.1) (tick (e :: q) true wr) =
      (heads last first (e :: q)).tick first
        (if opens last first (vals (e :: q)) then wr else none) := by
  have hwrite := heads_write last (last e.1) q wr
  have htick : tick (e :: q) true wr = tick q false wr := rfl
  rw [htick, hwrite, vals_cons, opens]
  cases first <;> simp [heads, openers, tick]

theorem heads_sublist (first : Bool) (q : DelayQueue α) : (heads last first q).Sublist q :=
  openers_sublist _ first q

/-- If a packet has begun at the greatest age there can be, it has begun with the head. -/
theorem head_of_oldest {q : DelayQueue α} (h : Aged q) {n : Nat} (hn : ∀ e ∈ q, e.2 ≤ n)
    {first : Bool} {rest : List Nat} (hages : ages (heads last first q) = n :: rest) :
    first = true ∧ ∃ w t, q = (w, n) :: t := by
  cases q with
  | nil => cases hages
  | cons e q =>
    have hfall := (List.pairwise_cons.mp h.falling).1
    have hle := hn e (by simp)
    have hfirst : first = true := by
      by_contra hnot
      rw [Bool.eq_false_iff.mpr hnot] at hages
      have hmem : n ∈ ages (heads last (last e.1) q) := by
        have hmem : n ∈ ages (heads last false (e :: q)) := by
          rw [hages]
          exact List.mem_cons_self ..
        exact hmem
      obtain ⟨x, hx, rfl⟩ := List.mem_map.mp hmem
      have hlt := hfall x ((heads_sublist last _ q).subset hx)
      omega
    subst hfirst
    have hcons : ages (heads last true (e :: q)) = e.2 :: ages (heads last (last e.1) q) := rfl
    rw [hcons] at hages
    obtain ⟨rfl, -⟩ := List.cons.inj hages
    exact ⟨rfl, e.1, q, rfl⟩

theorem length_le_of_ages {q : DelayQueue α} (h : Aged q) {n : Nat} (hn : ∀ e ∈ q, e.2 ≤ n) :
    q.length ≤ n := by
  induction q generalizing n with
  | nil => exact Nat.zero_le n
  | cons e q ih =>
    have hfall := List.pairwise_cons.mp h.falling
    have hpos := h.positive e (by simp)
    have hle := hn e (by simp)
    have hrest := ih ⟨hfall.2, fun x hx => h.positive x (by simp [hx])⟩ (n := n - 1) fun x hx => by
      have hlt := hfall.1 x hx
      omega
    rw [List.length_cons]
    omega

end Osnt.Lib.DelayQueue
