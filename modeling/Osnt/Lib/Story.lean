import Mathlib.Data.List.GetD

/-! What a node says over time: each of its updates says the text that the node then has. -/
namespace Osnt.Lib

/-- The texts that a node has had, and which one it has said in each of its updates. -/
structure Story (α : Type) where
  texts : List α
  said : List Nat
  ne : texts ≠ []
  sorted : said.Pairwise (· ≤ ·)
  bound : ∀ e ∈ said, e < texts.length

namespace Story
variable {α : Type}

/-- A node that has not said anything. -/
def silent (text : α) : Story α where
  texts := [text]
  said := []
  ne := List.cons_ne_nil text []
  sorted := .nil
  bound _ h := by cases h

/-- One more update, of the text there is. -/
def say (h : Story α) : Story α where
  texts := h.texts
  said := h.said ++ [h.texts.length - 1]
  ne := h.ne
  sorted := by
    refine List.pairwise_append.mpr ⟨h.sorted, List.pairwise_singleton _ _, fun a ha b hb => ?_⟩
    rw [List.mem_singleton.mp hb]
    exact Nat.le_sub_one_of_lt (h.bound a ha)
  bound e he := by
    rcases List.mem_append.mp he with he | he
    · exact h.bound e he
    · rw [List.mem_singleton.mp he]
      exact Nat.sub_one_lt_of_lt (List.length_pos_iff.mpr h.ne)

/-- Another text. -/
def retext (h : Story α) (text : α) : Story α where
  texts := h.texts ++ [text]
  said := h.said
  ne := by simp
  sorted := h.sorted
  bound e he := by
    rw [List.length_append]
    exact Nat.lt_add_right _ (h.bound e he)

/-- The text there is. -/
def current (h : Story α) : α := h.texts.getLast h.ne

/-- Update `n`, counted from 0, says `text`. -/
def Says (h : Story α) (n : Nat) (text : α) : Prop :=
  ∃ e, h.said[n]? = some e ∧ h.texts[e]? = some text

/-- How many texts someone with the first `n` updates may have seen. -/
def seen (h : Story α) : Nat → Nat
  | 0 => 0
  | n + 1 => h.said.getD n 0 + 1

@[simp] theorem say_texts (h : Story α) : h.say.texts = h.texts := rfl

@[simp] theorem length_say (h : Story α) : h.say.said.length = h.said.length + 1 := by
  simp [say]

@[simp] theorem length_retext (h : Story α) (text : α) :
    (h.retext text).texts.length = h.texts.length + 1 := by
  simp [retext]

@[simp] theorem retext_said (h : Story α) (text : α) : (h.retext text).said = h.said := rfl

@[simp] theorem current_say (h : Story α) : h.say.current = h.current := rfl

@[simp] theorem current_retext (h : Story α) (text : α) : (h.retext text).current = text := by
  simp [current, retext]

theorem texts_last (h : Story α) : h.texts[h.texts.length - 1]? = some h.current := by
  rw [current, List.getElem?_eq_getElem, List.getLast_eq_getElem]

theorem says_say (h : Story α) : h.say.Says h.said.length h.current :=
  ⟨h.texts.length - 1, by simp [say], h.texts_last⟩

theorem Says.say {h : Story α} {n : Nat} {text : α} (hs : h.Says n text) : h.say.Says n text := by
  obtain ⟨e, he, htext⟩ := hs
  obtain ⟨hn, -⟩ := List.getElem?_eq_some_iff.mp he
  exact ⟨e, (List.getElem?_append_left hn).trans he, htext⟩

theorem Says.retext {h : Story α} {n : Nat} {text : α} (hs : h.Says n text) (new : α) :
    (h.retext new).Says n text := by
  obtain ⟨e, he, htext⟩ := hs
  obtain ⟨hn, -⟩ := List.getElem?_eq_some_iff.mp htext
  exact ⟨e, he, (List.getElem?_append_left hn).trans htext⟩

theorem Says.mem {h : Story α} {n : Nat} {text : α} (hs : h.Says n text) : text ∈ h.texts := by
  obtain ⟨e, -, htext⟩ := hs
  exact List.mem_of_getElem? htext

theorem Says.lt {h : Story α} {n : Nat} {text : α} (hs : h.Says n text) : n < h.said.length := by
  obtain ⟨e, he, -⟩ := hs
  obtain ⟨hn, -⟩ := List.getElem?_eq_some_iff.mp he
  exact hn

theorem seen_le (h : Story α) {n : Nat} (hn : n ≤ h.said.length) : h.seen n ≤ h.texts.length := by
  cases n with
  | zero => exact Nat.zero_le _
  | succ n =>
    rw [seen, List.getD_eq_getElem _ _ hn]
    exact h.bound _ (List.getElem_mem _)

theorem seen_mono (h : Story α) {m n : Nat} (hmn : m ≤ n) (hn : n ≤ h.said.length) :
    h.seen m ≤ h.seen n := by
  cases m with
  | zero => exact Nat.zero_le _
  | succ m =>
    obtain ⟨n, rfl⟩ : ∃ k, n = k + 1 := ⟨n - 1, by omega⟩
    rw [seen, seen, List.getD_eq_getElem _ _ (by omega), List.getD_eq_getElem _ _ hn]
    refine Nat.succ_le_succ ?_
    rcases Nat.eq_or_lt_of_le hmn with heq | hlt
    · obtain rfl : m = n := by omega
      exact Nat.le_refl _
    · exact List.pairwise_iff_getElem.mp h.sorted m n (by omega) (by omega) (by omega)

theorem seen_say (h : Story α) {n : Nat} (hn : n ≤ h.said.length) : h.say.seen n = h.seen n := by
  cases n with
  | zero => rfl
  | succ n =>
    have hkept : h.say.said.getD n 0 = h.said.getD n 0 := by
      rw [say, List.getD_eq_getElem?_getD, List.getD_eq_getElem?_getD,
        List.getElem?_append_left hn]
    rw [seen, seen, hkept]

theorem seen_retext (h : Story α) (new : α) (n : Nat) : (h.retext new).seen n = h.seen n := by
  cases n <;> rfl

theorem Says.unique {h : Story α} {m n : Nat} {text text' : α} (hm : h.Says m text)
    (hn : h.Says n text') (hseen : h.seen (m + 1) = h.seen (n + 1)) : text = text' := by
  obtain ⟨e, he, htext⟩ := hm
  obtain ⟨e', he', htext'⟩ := hn
  rw [seen, seen, List.getD_eq_getElem?_getD, List.getD_eq_getElem?_getD, he, he'] at hseen
  obtain rfl : e = e' := Nat.succ.inj hseen
  exact Option.some.inj (htext.symm.trans htext')

end Story

end Osnt.Lib
