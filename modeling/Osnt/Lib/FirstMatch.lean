import Mathlib.Data.List.Basic

/-! Lists in which one element is changed: the first one with a property, as a search with a `break`
finds it, or the one at a position. For the first element that is taken out there is
`List.eraseP`. -/
namespace Osnt.Lib
variable {α β : Type}

def modifyFirst (p : α → Bool) (f : α → α) : List α → List α
  | [] => []
  | x :: xs => if p x then f x :: xs else x :: modifyFirst p f xs

variable {p : α → Bool} {f : α → α}

theorem modifyFirst_split {l : List α} (h : ∃ x ∈ l, p x = true) :
    ∃ before x after, l = before ++ x :: after ∧ (∀ y ∈ before, p y = false) ∧ p x = true ∧
      modifyFirst p f l = before ++ f x :: after := by
  induction l with
  | nil =>
    obtain ⟨x, hx, _⟩ := h
    cases hx
  | cons x l ih =>
    cases hx : p x with
    | true =>
      refine ⟨[], x, l, rfl, fun y hy => ?_, hx, ?_⟩
      · cases hy
      · rw [modifyFirst, hx]
        rfl
    | false =>
      obtain ⟨before, y, after, rfl, hbefore, hy, heq⟩ := ih (by
        obtain ⟨y, hy, hp⟩ := h
        rcases List.mem_cons.mp hy with rfl | hy
        · rw [hx] at hp
          cases hp
        · exact ⟨y, hy, hp⟩)
      refine ⟨x :: before, y, after, rfl, fun z hz => ?_, hy, ?_⟩
      · rcases List.mem_cons.mp hz with rfl | hz
        · exact hx
        · exact hbefore z hz
      · rw [modifyFirst, hx]
        exact congrArg (List.cons x) heq

theorem map_modifyFirst_of_fixed (g : α → β) (h : ∀ x, p x = true → g (f x) = g x) (l : List α) :
    (modifyFirst p f l).map g = l.map g := by
  induction l with
  | nil => rfl
  | cons x l ih =>
    unfold modifyFirst
    split
    · rename_i hx
      rw [List.map_cons, List.map_cons, h x hx]
    · rw [List.map_cons, List.map_cons, ih]

/-- A part of the list to which the changed element does not belong, before or after. -/
theorem filter_modifyFirst_of_disjoint (q : α → Bool)
    (h : ∀ x, p x = true → q x = false ∧ q (f x) = false) (l : List α) :
    (modifyFirst p f l).filter q = l.filter q := by
  induction l with
  | nil => rfl
  | cons x l ih =>
    unfold modifyFirst
    split
    · rename_i hx
      obtain ⟨hq, hqf⟩ := h x hx
      rw [List.filter_cons, List.filter_cons, hq, hqf]
      rfl
    · rw [List.filter_cons, List.filter_cons, ih]

theorem find?_modifyFirst_of_disjoint (q : α → Bool)
    (h : ∀ x, p x = true → q x = false ∧ q (f x) = false) (l : List α) :
    (modifyFirst p f l).find? q = l.find? q := by
  induction l with
  | nil => rfl
  | cons x l ih =>
    unfold modifyFirst
    split
    · rename_i hx
      obtain ⟨hq, hqf⟩ := h x hx
      rw [List.find?_cons, List.find?_cons, hq, hqf]
    · rw [List.find?_cons, List.find?_cons, ih]

theorem find?_modifyFirst_self (h : ∀ x, p x = true → p (f x) = true) (l : List α) :
    (modifyFirst p f l).find? p = (l.find? p).map f := by
  induction l with
  | nil => rfl
  | cons x l ih =>
    unfold modifyFirst
    split
    · rename_i hx
      rw [List.find?_cons, List.find?_cons, hx, h x hx]
      rfl
    · rename_i hx
      rw [List.find?_cons, List.find?_cons, Bool.eq_false_iff.mpr hx, ih]

theorem filter_eraseP_of_disjoint (q : α → Bool) (h : ∀ x, p x = true → q x = false)
    (l : List α) : (l.eraseP p).filter q = l.filter q := by
  induction l with
  | nil => rfl
  | cons x l ih =>
    cases hx : p x with
    | true => rw [List.eraseP_cons_of_pos hx, List.filter_cons, h x hx]; rfl
    | false =>
      rw [List.eraseP_cons_of_neg (by rw [hx]; exact Bool.false_ne_true), List.filter_cons,
        List.filter_cons, ih]

theorem map_modify_of_fixed (g : α → β) (f : α → α) (h : ∀ x, g (f x) = g x)
    (l : List α) (k : Nat) : (l.modify k f).map g = l.map g := by
  induction l generalizing k with
  | nil => rw [List.modify_nil]
  | cons x l ih =>
    cases k with
    | zero => rw [List.modify_zero_cons, List.map_cons, List.map_cons, h]
    | succ k => rw [List.modify_succ_cons, List.map_cons, List.map_cons, ih]

theorem getElem?_modifyFirst {l : List α} {n : Nat} {a : α} (h : l[n]? = some a) :
    (modifyFirst p f l)[n]? = some a ∨
      (p a = true ∧ (modifyFirst p f l)[n]? = some (f a)) := by
  induction l generalizing n with
  | nil => cases h
  | cons x l ih =>
    unfold modifyFirst
    cases n with
    | zero =>
      rw [List.getElem?_cons_zero, Option.some.injEq] at h
      subst h
      split
      · rename_i hx
        exact .inr ⟨hx, rfl⟩
      · exact .inl rfl
    | succ n =>
      rw [List.getElem?_cons_succ] at h
      split
      · exact .inl h
      · exact ih h

theorem drop_eraseIdx (l : List α) (n : Nat) : (l.eraseIdx n).drop n = l.drop (n + 1) := by
  induction l generalizing n with
  | nil => cases n <;> rfl
  | cons x l ih =>
    cases n with
    | zero => rfl
    | succ n => exact ih n

theorem split_at {l : List α} {k : Nat} {a : α} (h : l[k]? = some a) :
    ∃ before after, l = before ++ a :: after ∧ (∀ f, l.modify k f = before ++ f a :: after) ∧
      l.eraseIdx k = before ++ after ∧ before.length = k := by
  obtain ⟨hk, rfl⟩ := List.getElem?_eq_some_iff.mp h
  refine ⟨l.take k, l.drop (k + 1), ?_, fun f => List.modify_eq_take_cons_drop hk,
    List.eraseIdx_eq_take_drop_succ l k, ?_⟩
  · rw [← List.drop_eq_getElem_cons hk, List.take_append_drop]
  · rw [List.length_take]
    omega

theorem mem_modify_iff {l : List α} {k : Nat} {a : α} (hk : l[k]? = some a) (f : α → α) (x : α) :
    x ∈ l.modify k f ↔ x = f a ∨ ∃ j, j ≠ k ∧ l[j]? = some x := by
  rw [List.mem_iff_getElem?]
  constructor
  · rintro ⟨j, hj⟩
    rw [List.getElem?_modify] at hj
    obtain ⟨y, hy, heq⟩ := Option.map_eq_some_iff.mp hj
    by_cases hjk : k = j
    · subst hjk
      obtain rfl := Option.some.inj (hk.symm.trans hy)
      rw [if_pos rfl] at heq
      exact .inl heq.symm
    · rw [if_neg hjk] at heq
      exact .inr ⟨j, fun h => hjk h.symm, heq ▸ hy⟩
  · rintro (rfl | ⟨j, hjk, hj⟩)
    · refine ⟨k, ?_⟩
      rw [List.getElem?_modify, hk]
      exact congrArg some (if_pos rfl)
    · refine ⟨j, ?_⟩
      rw [List.getElem?_modify, hj]
      exact congrArg some (if_neg fun h => hjk h.symm)

theorem modify_of_fixed {l : List α} {k : Nat} {a : α} (hk : l[k]? = some a) {f : α → α}
    (hf : f a = a) : l.modify k f = l := by
  obtain ⟨before, after, hl, hmodify, _⟩ := split_at hk
  rw [hmodify, hf, hl]

/-- The first with an image that no other has is at its position. -/
theorem modifyFirst_eq_modify [DecidableEq β] {l : List α} {g : α → β} (hnodup : (l.map g).Nodup)
    {k : Nat} {a : α} (hk : l[k]? = some a) (f : α → α) :
    modifyFirst (fun x => g x == g a) f l = l.modify k f := by
  induction l generalizing k with
  | nil => cases hk
  | cons x l ih =>
    obtain ⟨hx, hnodup⟩ := List.nodup_cons.mp hnodup
    cases k with
    | zero =>
      rw [List.getElem?_cons_zero, Option.some.injEq] at hk
      subst hk
      rw [modifyFirst, beq_self_eq_true]
      rfl
    | succ k =>
      rw [List.getElem?_cons_succ] at hk
      have hne : (g x == g a) = false := by
        rw [beq_eq_false_iff_ne]
        exact fun heq => hx (heq ▸ List.mem_map_of_mem (List.mem_of_getElem? hk))
      rw [modifyFirst, hne, List.modify_succ_cons, ← ih hnodup hk]
      rfl

theorem eq_of_getElem?_of_nodup {l : List α} {g : α → β} (hnodup : (l.map g).Nodup) {j k : Nat}
    {x y : α} (hj : l[j]? = some x) (hk : l[k]? = some y) (h : g x = g y) : j = k := by
  have hlt := (List.getElem?_eq_some_iff.mp hj).1
  apply (List.getElem?_inj (by rw [List.length_map]; exact hlt) hnodup).mp
  rw [List.getElem?_map, List.getElem?_map, hj, hk, Option.map_some, Option.map_some, h]

end Osnt.Lib
