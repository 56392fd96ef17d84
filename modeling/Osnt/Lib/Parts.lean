import Osnt.Lib.Machine

/-! A machine inside another one whose registers decide what it is given. -/
namespace Osnt.Lib.Machine
variable {σ ι τ κ ο : Type} (m : Machine σ ι)

/-- What a part has been given in a run. -/
def fed (inp : σ → ι → κ) (s : σ) (is : List ι) : List κ := m.collect (fun t i => [inp t i]) s is

section
variable (inp : σ → ι → κ)

@[simp] theorem fed_nil (s : σ) : m.fed inp s [] = [] := rfl

@[simp] theorem fed_concat (s : σ) (is : List ι) (i : ι) :
    m.fed inp s (is ++ [i]) = m.fed inp s is ++ [inp (m.run s is) i] :=
  m.collect_concat _ s is i

/-- What holds of everything a part can be given holds of what it has been given. -/
theorem forall_fed {P : κ → Prop} {s : σ} {is : List ι}
    (h : ∀ past i, past ++ [i] <+: is → P (inp (m.run s past) i)) : ∀ k ∈ m.fed inp s is, P k := by
  induction is using List.reverseRecOn with
  | nil => simp
  | append_singleton is i ih =>
    intro k hk
    rw [fed_concat, List.mem_append, List.mem_singleton] at hk
    rcases hk with hk | rfl
    · exact ih (fun past j hpre => h past j (hpre.trans (List.prefix_append _ _))) k hk
    · exact h is i List.prefix_rfl

end

section Part
variable (m' : Machine τ κ) (view : σ → τ) (inp : σ → ι → κ)
  (h : ∀ s i, view (m.step s i) = m'.step (view s) (inp s i))
include h

theorem run_part (s : σ) (is : List ι) : view (m.run s is) = m'.run (view s) (m.fed inp s is) := by
  induction is using List.reverseRecOn with
  | nil => rfl
  | append_singleton is i ih => rw [run_concat, h, ih, fed_concat, run_concat]

/-- What is observed of a part inside is what it shows by itself. -/
theorem collect_part (out : τ → κ → List ο) (s : σ) (is : List ι) :
    m.collect (fun t i => out (view t) (inp t i)) s is =
      m'.collect out (view s) (m.fed inp s is) := by
  induction is using List.reverseRecOn with
  | nil => rfl
  | append_singleton is i ih =>
    rw [collect_concat, fed_concat, collect_concat, ih, m.run_part m' view inp h]

end Part
end Osnt.Lib.Machine
