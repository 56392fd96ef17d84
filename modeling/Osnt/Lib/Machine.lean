import Mathlib.Data.List.Infix

/-! Synchronous machines: one step a clock cycle, and what a whole run keeps. -/
namespace Osnt.Lib

/-- A clocked machine, given by what one cycle does to its registers. -/
structure Machine (σ ι : Type) where
  step : σ → ι → σ

/-- What holds of every cut of a list holds of each of its proper prefixes and the
element that follows. -/
theorem forall_snoc {ι : Type} {P : List ι → ι → Prop} {is : List ι}
    (h : ∀ k (hk : k < is.length), P (is.take k) is[k]) :
    ∀ past i, past ++ [i] <+: is → P past i := by
  rintro past i ⟨later, rfl⟩
  have hk := h past.length (by simp)
  simpa using hk

namespace Machine
variable {σ ι ο : Type} (m : Machine σ ι)

/-- The registers after a list of cycles. -/
def run (s : σ) (is : List ι) : σ := is.foldl m.step s

/-- What is observed cycle by cycle, concatenated. -/
def collect (out : σ → ι → List ο) : σ → List ι → List ο
  | _, [] => []
  | s, i :: is => out s i ++ collect out (m.step s i) is

/-- Every cycle of the run meets a condition on its registers and input. -/
def Along (cond : σ → ι → Prop) : σ → List ι → Prop
  | _, [] => True
  | s, i :: is => cond s i ∧ Along cond (m.step s i) is

instance decidableAlong (cond : σ → ι → Prop) [∀ s i, Decidable (cond s i)] :
    ∀ (s : σ) (is : List ι), Decidable (m.Along cond s is)
  | _, [] => .isTrue trivial
  | s, i :: is =>
    have := decidableAlong cond (m.step s i) is
    inferInstanceAs (Decidable (cond s i ∧ m.Along cond (m.step s i) is))

@[simp] theorem run_nil (s : σ) : m.run s [] = s := rfl

@[simp] theorem run_cons (s : σ) (i : ι) (is : List ι) :
    m.run s (i :: is) = m.run (m.step s i) is := rfl

theorem run_append (s : σ) (is js : List ι) : m.run s (is ++ js) = m.run (m.run s is) js := by
  simp [run]

@[simp] theorem run_concat (s : σ) (is : List ι) (i : ι) :
    m.run s (is ++ [i]) = m.step (m.run s is) i := by
  simp [run]

@[simp] theorem collect_nil (out : σ → ι → List ο) (s : σ) : m.collect out s [] = [] := rfl

@[simp] theorem collect_cons (out : σ → ι → List ο) (s : σ) (i : ι) (is : List ι) :
    m.collect out s (i :: is) = out s i ++ m.collect out (m.step s i) is := rfl

theorem collect_append (out : σ → ι → List ο) (s : σ) (is js : List ι) :
    m.collect out s (is ++ js) = m.collect out s is ++ m.collect out (m.run s is) js := by
  induction is generalizing s with
  | nil => rfl
  | cons i is ih => simp [ih, List.append_assoc]

@[simp] theorem collect_concat (out : σ → ι → List ο) (s : σ) (is : List ι) (i : ι) :
    m.collect out s (is ++ [i]) = m.collect out s is ++ out (m.run s is) i := by
  simp [collect_append]

theorem collect_congr {f g : σ → ι → List ο} {is : List ι} (h : ∀ s, ∀ i ∈ is, f s i = g s i)
    (s : σ) : m.collect f s is = m.collect g s is := by
  induction is generalizing s with
  | nil => rfl
  | cons i is ih =>
    rw [collect_cons, collect_cons, h s i (by simp), ih (fun t j hj => h t j (by simp [hj]))]

theorem mem_collect {out : σ → ι → List ο} {o : ο} {s : σ} {is : List ι}
    (h : o ∈ m.collect out s is) : ∃ t, ∃ i ∈ is, o ∈ out t i := by
  induction is generalizing s with
  | nil => exact absurd h List.not_mem_nil
  | cons i is ih =>
    rcases List.mem_append.mp h with h | h
    · exact ⟨s, i, List.mem_cons_self .., h⟩
    · obtain ⟨t, j, hj, ho⟩ := ih h
      exact ⟨t, j, List.mem_cons_of_mem _ hj, ho⟩

theorem collect_map {π : Type} (f : ο → π) (out : σ → ι → List ο) (s : σ) (is : List ι) :
    (m.collect out s is).map f = m.collect (fun s i => (out s i).map f) s is := by
  induction is generalizing s with
  | nil => rfl
  | cons i is ih => rw [collect_cons, collect_cons, List.map_append, ih]

theorem collect_filterMap {π : Type} (f : ο → Option π) (out : σ → ι → List ο) (s : σ)
    (is : List ι) :
    (m.collect out s is).filterMap f = m.collect (fun s i => (out s i).filterMap f) s is := by
  induction is generalizing s with
  | nil => rfl
  | cons i is ih => rw [collect_cons, collect_cons, List.filterMap_append, ih]

section View
/- A machine that is part of another one: `view` picks its registers, `inp` its input. -/
variable {τ κ : Type} (m' : Machine τ κ) (view : σ → τ) (inp : ι → κ)
  (h : ∀ s i, view (m.step s i) = m'.step (view s) (inp i))
include h

theorem run_view (s : σ) (is : List ι) : view (m.run s is) = m'.run (view s) (is.map inp) := by
  induction is generalizing s with
  | nil => rfl
  | cons i is ih => rw [run_cons, ih, h, List.map_cons, run_cons]

end View

/-- What is observed, each with the number of the cycle it is observed in. -/
def schedule (out : σ → ι → List ο) (s : σ) (is : List ι) : List (Nat × ο) :=
  (Machine.mk (fun (t : σ × Nat) i => (m.step t.1 i, t.2 + 1))).collect
    (fun t i => (out t.1 i).map (fun o => (t.2, o))) (s, 0) is

@[simp] theorem schedule_nil (out : σ → ι → List ο) (s : σ) : m.schedule out s [] = [] := rfl

@[simp] theorem schedule_concat (out : σ → ι → List ο) (s : σ) (is : List ι) (i : ι) :
    m.schedule out s (is ++ [i]) =
      m.schedule out s is ++ (out (m.run s is) i).map (fun o => (is.length, o)) := by
  have hrun : ∀ is : List ι, (Machine.mk (fun (t : σ × Nat) i => (m.step t.1 i, t.2 + 1))).run
      (s, 0) is = (m.run s is, is.length) := by
    intro is
    induction is using List.reverseRecOn with
    | nil => rfl
    | append_singleton is i ih => simp [ih]
  rw [schedule, collect_concat, hrun]
  rfl

theorem schedule_snd (out : σ → ι → List ο) (s : σ) (is : List ι) :
    (m.schedule out s is).map Prod.snd = m.collect out s is := by
  induction is using List.reverseRecOn with
  | nil => rfl
  | append_singleton is i ih => simp [ih, Function.comp_def]

theorem schedule_map {π : Type} (f : ο → π) (out : σ → ι → List ο) (s : σ) (is : List ι) :
    (m.schedule out s is).map (fun e => (e.1, f e.2)) =
      m.schedule (fun s i => (out s i).map f) s is := by
  rw [schedule, collect_map, schedule]
  simp only [List.map_map, Function.comp_def]

theorem schedule_congr {f g : σ → ι → List ο} {is : List ι} (h : ∀ s, ∀ i ∈ is, f s i = g s i)
    (s : σ) : m.schedule f s is = m.schedule g s is :=
  collect_congr _ (fun t i hi => by rw [h t.1 i hi]) _

/-- Observations of a machine that shows at most one a cycle are in different cycles. -/
theorem schedule_increasing (out : σ → ι → List ο) (hone : ∀ s i, (out s i).length ≤ 1) (s : σ)
    (is : List ι) :
    (m.schedule out s is).Pairwise (fun a b => a.1 < b.1) ∧
      ∀ e ∈ m.schedule out s is, e.1 < is.length := by
  induction is using List.reverseRecOn with
  | nil => simp
  | append_singleton is i ih =>
    obtain ⟨hp, hlt⟩ := ih
    have hlast := hone (m.run s is) i
    rw [schedule_concat]
    match hout : out (m.run s is) i, hlast with
    | [], _ =>
      simp only [List.map_nil, List.append_nil, List.length_append, List.length_singleton]
      exact ⟨hp, fun e he => Nat.lt_succ_of_lt (hlt e he)⟩
    | [o], _ =>
      refine ⟨List.pairwise_append.mpr ⟨hp, List.pairwise_singleton _ _, ?_⟩, ?_⟩
      · intro a ha b hb
        rw [List.map_singleton, List.mem_singleton] at hb
        rw [hb]
        exact hlt a ha
      · intro e he
        rw [List.map_singleton, List.mem_append, List.mem_singleton] at he
        rw [List.length_append, List.length_singleton]
        rcases he with he | rfl
        · exact Nat.lt_succ_of_lt (hlt e he)
        · exact Nat.lt_succ_self _

theorem along_append {cond : σ → ι → Prop} {s : σ} {is js : List ι} :
    m.Along cond s (is ++ js) ↔ m.Along cond s is ∧ m.Along cond (m.run s is) js := by
  induction is generalizing s with
  | nil => simp [Along]
  | cons i is ih => simp [Along, ih, and_assoc]

theorem along_concat {cond : σ → ι → Prop} {s : σ} {is : List ι} {i : ι} :
    m.Along cond s (is ++ [i]) ↔ m.Along cond s is ∧ cond (m.run s is) i := by
  simp [along_append, Along]

/-- A condition on the inputs alone is a condition on every cycle. -/
theorem along_of_forall {cond : ι → Prop} {s : σ} {is : List ι} (h : ∀ i ∈ is, cond i) :
    m.Along (fun _ i => cond i) s is := by
  induction is generalizing s with
  | nil => trivial
  | cons i is ih => exact ⟨h i (by simp), ih (fun j hj => h j (by simp [hj]))⟩

theorem Along.and {m : Machine σ ι} {p q : σ → ι → Prop} {s : σ} {is : List ι}
    (hp : m.Along p s is) (hq : m.Along q s is) : m.Along (fun s i => p s i ∧ q s i) s is := by
  induction is generalizing s with
  | nil => trivial
  | cons i is ih => exact ⟨⟨hp.1, hq.1⟩, ih hp.2 hq.2⟩

/-- What holds at the start and is kept by every admitted cycle holds after the
run; the property may speak of the inputs taken so far. -/
theorem run_keeps {cond : σ → ι → Prop} {s : σ} {is : List ι} (h : m.Along cond s is)
    (P : List ι → σ → Prop) (h0 : P [] s)
    (hstep : ∀ past i, P past (m.run s past) → cond (m.run s past) i →
      P (past ++ [i]) (m.step (m.run s past) i)) : P is (m.run s is) := by
  induction is using List.reverseRecOn with
  | nil => exact h0
  | append_singleton past i ih =>
    obtain ⟨hp, hi⟩ := m.along_concat.mp h
    rw [run_concat]
    exact hstep past i (ih hp) hi

theorem run_invariant {s : σ} (is : List ι) (P : List ι → σ → Prop) (h0 : P [] s)
    (hstep : ∀ past i, P past (m.run s past) → P (past ++ [i]) (m.step (m.run s past) i)) :
    P is (m.run s is) := by
  have hall : m.Along (fun _ _ => True) s is := m.along_of_forall (fun _ _ => trivial)
  exact m.run_keeps hall P h0 (fun past i hp _ => hstep past i hp)

/-- A machine whose rank falls in every cycle short of the goal gets there, on an
input that is held. -/
theorem run_reaches (i : ι) (inv goal : σ → Prop) (rank : σ → Nat)
    (hstep : ∀ s, inv s → ¬ goal s →
      goal (m.step s i) ∨ inv (m.step s i) ∧ rank (m.step s i) < rank s)
    {s : σ} (h : inv s) : ∃ k, goal (m.run s (List.replicate k i)) := by
  generalize hr : rank s = r
  induction r using Nat.strongRecOn generalizing s with
  | ind r ih =>
    by_cases hg : goal s
    · exact ⟨0, hg⟩
    · rcases hstep s h hg with hg' | ⟨hi, hlt⟩
      · exact ⟨1, hg'⟩
      · obtain ⟨k, hk⟩ := ih (rank (m.step s i)) (hr ▸ hlt) hi rfl
        exact ⟨k + 1, hk⟩

end Machine
end Osnt.Lib
