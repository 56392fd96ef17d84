import Mathlib.Data.List.Nodup
import Mathlib.Data.List.Perm.Subperm
import Mathlib.Tactic.ByContra
import Mathlib.Data.Nat.Notation

/-! Shortest paths by the number of hops, and a search that settles one vertex after the other, each
time a nearest one that is not settled yet. -/
namespace Osnt.Lib

/-- A walk of `n` edges. -/
inductive Walk {V : Type} (E : V → V → Prop) : ℕ → V → V → Prop
  | nil (a : V) : Walk E 0 a a
  | snoc {n : ℕ} {a b c : V} (h : Walk E n a b) (e : E b c) : Walk E (n + 1) a c

namespace Hops
variable {V : Type} {E : V → V → Prop} {a b c s u v : V} {n : ℕ}

theorem walk_zero (h : Walk E 0 a b) : b = a := by
  cases h
  rfl

theorem Walk.leaves {S : V → Prop} (h : Walk E n a b) (ha : S a) (hb : ¬ S b) :
    ∃ m c d, m + 1 ≤ n ∧ Walk E m a c ∧ S c ∧ E c d ∧ ¬ S d := by
  induction h with
  | nil a => exact absurd ha hb
  | @snoc n a b c hwalk e ih =>
    by_cases hS : S b
    · exact ⟨n, b, c, Nat.le_refl _, hwalk, hS, e, hb⟩
    · obtain ⟨m, c', d, hle, hrest⟩ := ih ha hS
      exact ⟨m, c', d, by omega, hrest⟩

/-- The length of a shortest walk. -/
def IsDist (E : V → V → Prop) (s v : V) (n : ℕ) : Prop :=
  Walk E n s v ∧ ∀ m, Walk E m s v → n ≤ m

theorem isDist_self (s : V) : IsDist E s s 0 := ⟨.nil s, fun _ _ => Nat.zero_le _⟩

theorem IsDist.unique {m : ℕ} (h : IsDist E s v n) (h' : IsDist E s v m) : n = m :=
  Nat.le_antisymm (h.2 m h'.1) (h'.2 n h.1)

/-- On a shortest walk there are vertices at all smaller distances, no two of them the same. -/
theorem IsDist.chain (h : IsDist E s v n) :
    ∃ vs : List V, vs.Nodup ∧ vs.length = n + 1 ∧ ∀ u ∈ vs, ∃ k ≤ n, IsDist E s u k := by
  induction n generalizing v with
  | zero => exact ⟨[v], List.nodup_singleton v, rfl,
      fun u hu => ⟨0, Nat.le_refl _, List.mem_singleton.mp hu ▸ h⟩⟩
  | succ n ih =>
    obtain ⟨hwalk, hmin⟩ := h
    cases hwalk with
    | @snoc _ _ u _ hwalk e =>
      have hu : IsDist E s u n :=
        ⟨hwalk, fun m hm => Nat.le_of_succ_le_succ (hmin (m + 1) (.snoc hm e))⟩
      obtain ⟨vs, hnodup, hlen, hvs⟩ := ih hu
      have hv : v ∉ vs := by
        intro hmem
        obtain ⟨k, hk, hdist⟩ := hvs v hmem
        have := hmin k hdist.1
        omega
      refine ⟨v :: vs, List.nodup_cons.mpr ⟨hv, hnodup⟩, by rw [List.length_cons, hlen], ?_⟩
      intro x hx
      rcases List.mem_cons.mp hx with rfl | hx
      · exact ⟨n + 1, Nat.le_refl _, .snoc hwalk e, hmin⟩
      · obtain ⟨k, hk, hdist⟩ := hvs x hx
        exact ⟨k, Nat.le_succ_of_le hk, hdist⟩

/-- A shortest walk has fewer edges than there are vertices within reach. -/
theorem IsDist.length_le {vs : List V} (h : IsDist E s v n)
    (hmem : ∀ u m, Walk E m s u → u ∈ vs) : n + 1 ≤ vs.length := by
  obtain ⟨us, hnodup, hlen, hus⟩ := h.chain
  rw [← hlen]
  refine (hnodup.subperm fun u hu => ?_).length_le
  obtain ⟨k, -, hdist⟩ := hus u hu
  exact hmem u k hdist.1

/-- What the search holds for each vertex. -/
structure Labels (V : Type) where
  dist : V → Option ℕ
  found : V → Prop
  prev : V → Option V

/-- The vertex was reached over an edge from a vertex in `P`. -/
def ReachedFrom (E : V → V → Prop) (P : V → Prop) (L : Labels V) (v : V) (d : ℕ) : Prop :=
  ∃ w dw, P w ∧ L.dist w = some dw ∧ d = dw + 1 ∧ E w v ∧ L.prev v = some w

/-- The search with the vertices of `P` settled: those have their distances, and every edge out of
them has been taken into account. The vertex in hand, if any, is exempt. -/
structure Search (E : V → V → Prop) (s : V) (P : V → Prop) (hand : V → Prop) (L : Labels V) :
    Prop where
  settled : ∀ v, P v → ∃ d, L.dist v = some d ∧ IsDist E s v d
  reached : ∀ v d, ¬ hand v → v ≠ s → L.dist v = some d → ReachedFrom E P L v d
  relaxed : ∀ w v dw, P w → L.dist w = some dw → E w v → ∃ d, L.dist v = some d ∧ d ≤ dw + 1

/-- The label of a vertex when `u` at distance `d` is settled: a vertex that is not found and lies
behind an edge of `u` gets nearer if it can. -/
inductive Relaxes (E : V → V → Prop) (u : V) (d : ℕ) (L L' : Labels V) (v : V) : Prop
  | kept (hwhy : L'.found v ∨ ¬ E u v ∨ ∃ dv, L.dist v = some dv ∧ dv ≤ d + 1)
      (hdist : L'.dist v = L.dist v) (hprev : L'.prev v = L.prev v)
  | nearer (hnot : ¬ L'.found v) (hedge : E u v) (hfar : ∀ dv, L.dist v = some dv → d + 1 < dv)
      (hdist : L'.dist v = some (d + 1)) (hprev : L'.prev v = some u)

/-- A nearest vertex that is not settled has its distance. -/
theorem Search.isDist {P : V → Prop} {L : Labels V} {d : ℕ}
    (h : Search E s P (fun _ => False) L) (hs : P s) (hsu : u ≠ s) (hu : ¬ P u)
    (hd : L.dist u = some d)
    (hmin : ∀ v dv, ¬ P v → L.dist v = some dv → d ≤ dv) : IsDist E s u d := by
  obtain ⟨w, dw, hw, hdw, rfl, hedge, -⟩ := h.reached u d not_false hsu hd
  obtain ⟨dw', hdw', hwalk, -⟩ := h.settled w hw
  rw [hdw] at hdw'
  cases hdw'
  refine ⟨.snoc hwalk hedge, fun n hn => ?_⟩
  -- the walk leaves the settled vertices over an edge whose end is no nearer than `u`
  obtain ⟨m, c, x, hle, hcwalk, hc, hcx, hx⟩ := Walk.leaves hn hs hu
  obtain ⟨dc, hdc, -, hcmin⟩ := h.settled c hc
  obtain ⟨dx, hdx, hdxle⟩ := h.relaxed c x dc hc hdc hcx
  have hux := hmin x dx hx hdx
  have hcm := hcmin m hcwalk
  omega

theorem Relaxes.of_found {L L' : Labels V} {d : ℕ} (h : Relaxes E u d L L' v)
    (hv : L'.found v) : L'.dist v = L.dist v ∧ L'.prev v = L.prev v := by
  cases h with
  | kept _ hdist hprev => exact ⟨hdist, hprev⟩
  | nearer hnot _ _ _ _ => exact absurd hv hnot

theorem Relaxes.le {L L' : Labels V} {d dv : ℕ} (h : Relaxes E u d L L' v)
    (hdv : L.dist v = some dv) : ∃ d', L'.dist v = some d' ∧ d' ≤ dv := by
  cases h with
  | kept _ hdist _ => exact ⟨dv, hdist.trans hdv, Nat.le_refl _⟩
  | nearer _ _ hfar hdist _ => exact ⟨d + 1, hdist, Nat.le_of_lt (hfar dv hdv)⟩

/-- With the vertex in hand settled there is one more settled vertex. -/
theorem Search.settle {P : V → Prop} {L L' : Labels V} {d : ℕ}
    (h : Search E s P (fun v => v = u) L) (hstep : ∀ v, Relaxes E u d L L' v)
    (hfound : ∀ v, L'.found v ↔ P v ∨ v = u) (hd : L.dist u = some d)
    (hdist : IsDist E s u d) (hprev : u ≠ s → ReachedFrom E P L u d) :
    Search E s L'.found (fun _ => False) L' := by
  have hPfound : ∀ w, P w → L'.found w := fun w hw => (hfound w).mpr (.inl hw)
  have hufound : L'.found u := (hfound u).mpr (.inr rfl)
  have hdu : L'.dist u = some d := ((hstep u).of_found hufound).1.trans hd
  have hsettled : ∀ v, L'.found v → ∃ d, L'.dist v = some d ∧ IsDist E s v d := by
    intro v hv
    rw [((hstep v).of_found hv).1]
    rcases (hfound v).mp hv with hP | rfl
    · exact h.settled v hP
    · exact ⟨d, hd, hdist⟩
  -- a vertex whose label is kept is reached as before
  have hkeep : ∀ v dv, ReachedFrom E P L v dv → L'.prev v = L.prev v →
      ReachedFrom E L'.found L' v dv := by
    rintro v dv ⟨w, dw, hw, hdw, rfl, hedge, hp⟩ hpv
    refine ⟨w, dw, hPfound w hw, ?_, rfl, hedge, hpv.trans hp⟩
    rw [((hstep w).of_found (hPfound w hw)).1, hdw]
  refine ⟨hsettled, ?_, ?_⟩
  · intro v dv _ hvs hdv
    cases hstep v with
    | kept _ hvdist hvprev =>
      rw [hvdist] at hdv
      by_cases hvu : v = u
      · subst hvu
        rw [hd] at hdv
        cases hdv
        exact hkeep v d (hprev hvs) hvprev
      · exact hkeep v dv (h.reached v dv hvu hvs hdv) hvprev
    | nearer _ hedge _ hvdist hvprev =>
      rw [hvdist] at hdv
      cases hdv
      exact ⟨u, d, hufound, hdu, rfl, hedge, hvprev⟩
  · intro w v dw hw hdw hedge
    rw [((hstep w).of_found hw).1] at hdw
    rcases (hfound w).mp hw with hP | rfl
    · obtain ⟨dv, hdv, hle⟩ := h.relaxed w v dw hP hdw hedge
      obtain ⟨d', hd', hle'⟩ := (hstep v).le hdv
      exact ⟨d', hd', by omega⟩
    · rw [hd] at hdw
      cases hdw
      cases hstep v with
      | kept hwhy hvdist _ =>
        rcases hwhy with hf | hno | ⟨dv, hdv, hle⟩
        · obtain ⟨dv, hdv, -, hmin⟩ := hsettled v hf
          exact ⟨dv, hdv, hmin _ (.snoc hdist.1 hedge)⟩
        · exact absurd hedge hno
        · exact ⟨dv, hvdist.trans hdv, hle⟩
      | nearer _ _ _ hvdist _ => exact ⟨d + 1, hvdist, Nat.le_refl _⟩

/-- Once no vertex in sight is left, the settled vertices are those within reach. -/
theorem Search.reachable {P : V → Prop} {L : Labels V}
    (h : Search E s P (fun _ => False) L) (hs : P s)
    (hdone : ∀ v d, L.dist v = some d → P v) : ∀ v n, Walk E n s v → P v := by
  intro v n hwalk
  by_contra hv
  obtain ⟨m, c, x, -, -, hc, hcx, hx⟩ := Walk.leaves hwalk hs hv
  obtain ⟨dc, hdc, -⟩ := h.settled c hc
  obtain ⟨dx, hdx, -⟩ := h.relaxed c x dc hc hdc hcx
  exact hx (hdone x dx hdx)

end Hops
end Osnt.Lib
