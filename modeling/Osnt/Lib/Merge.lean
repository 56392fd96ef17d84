import Osnt.Lib.Framing
import Mathlib.Data.List.Chain

/-! Several senders on one line, a whole packet at a time. -/
namespace Osnt.Lib.Merge
variable {ι α : Type} [DecidableEq ι]

/-- What one sender has put on the line. -/
def ofSender (q : ι) (es : List (ι × α)) : List α :=
  es.filterMap (fun e => if e.1 = q then some e.2 else none)

/-- A word that does not end its packet is followed by one of the same sender. -/
def Unmixed (last : α → Bool) (a b : ι × α) : Prop := last a.2 = false → b.1 = a.1

theorem ofSender_concat (q : ι) (es : List (ι × α)) (e : ι × α) :
    ofSender q (es ++ [e]) = ofSender q es ++ if e.1 = q then [e.2] else [] := by
  by_cases he : e.1 = q
  · simp [ofSender, he]
  · simp [ofSender, he]

variable (last : α → Bool)

/-- The line after some words: its packets `ps` with their senders are the packets of each sender
in their order, and what is open on the line is what the sender of the last word has open. -/
structure Cut (es : List (ι × α)) (ps : List (ι × List α)) : Prop where
  closed : ps.map Prod.snd = (frames last (es.map Prod.snd)).closed
  each : ∀ q, ofSender q ps = (frames last (ofSender q es)).closed
  rest : ∀ q, (frames last (ofSender q es)).rest =
    if es.getLast?.map Prod.fst = some q then (frames last (es.map Prod.snd)).rest else []

variable {last}

/-- The sender of the next word has open what is open on the line, and no other has anything. -/
theorem Cut.rest_next {es : List (ι × α)} {ps : List (ι × List α)} (h : Cut last es ps)
    {e : ι × α} (hmix : ∀ x ∈ es.getLast?, Unmixed last x e) (q : ι) :
    (frames last (ofSender q es)).rest =
      if e.1 = q then (frames last (es.map Prod.snd)).rest else [] := by
  rw [h.rest q]
  cases es using List.reverseRecOn with
  | nil => simp
  | append_singleton front x =>
    have hopen := opens_iff_rest last ((front ++ [x]).map Prod.snd)
    rw [List.map_append, List.map_singleton, opens_concat] at hopen
    rw [List.map_append, List.map_singleton, List.getLast?_concat]
    cases hl : last x.2 with
    | true =>
      rw [hopen.mp hl]
      simp
    | false =>
      have hx : Unmixed last x e := hmix x (by simp)
      rw [hx hl]
      simp

theorem Cut.concat {es : List (ι × α)} {ps : List (ι × List α)} (h : Cut last es ps)
    {e : ι × α} (hmix : ∀ x ∈ es.getLast?, Unmixed last x e) :
    ∃ ps', Cut last (es ++ [e]) ps' := by
  have hrest := h.rest_next hmix
  have hlast : ∀ q, ((es ++ [e]).getLast?.map Prod.fst = some q) = (e.1 = q) := by
    intro q
    simp
  have hsnd : (es ++ [e]).map Prod.snd = es.map Prod.snd ++ [e.2] := by simp
  have hother : ∀ q, e.1 ≠ q → frames last (ofSender q (es ++ [e])) =
      frames last (ofSender q es) := by
    intro q hq
    rw [ofSender_concat, if_neg hq, List.append_nil]
  have hown : frames last (ofSender e.1 (es ++ [e])) =
      (frames last (ofSender e.1 es)).push last e.2 := by
    rw [ofSender_concat, if_pos rfl, frames_concat]
  have hsame : (frames last (ofSender e.1 es)).rest = (frames last (es.map Prod.snd)).rest := by
    rw [hrest e.1, if_pos rfl]
  cases hl : last e.2 with
  | false =>
    refine ⟨ps, ?_, fun q => ?_, fun q => ?_⟩
    · rw [hsnd, frames_concat, Frames.push_inner last hl]
      exact h.closed
    · by_cases hq : e.1 = q
      · subst hq
        rw [hown, Frames.push_inner last hl]
        exact h.each e.1
      · rw [hother q hq]
        exact h.each q
    · simp only [hlast]
      rw [hsnd, frames_concat, Frames.push_inner last hl]
      by_cases hq : e.1 = q
      · subst hq
        rw [hown, Frames.push_inner last hl, if_pos rfl, hsame]
      · rw [hother q hq, hrest q, if_neg hq, if_neg hq]
  | true =>
    refine ⟨ps ++ [(e.1, (frames last (es.map Prod.snd)).rest ++ [e.2])], ?_, fun q => ?_,
      fun q => ?_⟩
    · rw [hsnd, frames_concat, Frames.push_last last hl, List.map_append, h.closed]
      rfl
    · rw [ofSender_concat]
      by_cases hq : e.1 = q
      · subst hq
        rw [hown, Frames.push_last last hl, if_pos rfl, h.each e.1, hsame]
      · rw [hother q hq, if_neg hq, List.append_nil, h.each q]
    · simp only [hlast]
      rw [hsnd, frames_concat, Frames.push_last last hl]
      by_cases hq : e.1 = q
      · subst hq
        rw [hown, Frames.push_last last hl, if_pos rfl]
      · rw [hother q hq, hrest q, if_neg hq, if_neg hq]

/-- A line that is not mixed is cut into the packets of its senders. -/
theorem exists_cut {es : List (ι × α)} (h : es.IsChain (Unmixed last)) :
    ∃ ps, Cut last es ps := by
  induction es using List.reverseRecOn with
  | nil => exact ⟨[], rfl, fun _ => rfl, fun _ => rfl⟩
  | append_singleton es e ih =>
    obtain ⟨hes, -, hmix⟩ := List.isChain_append.mp h
    obtain ⟨ps, hps⟩ := ih hes
    exact hps.concat (fun x hx => hmix x hx e rfl)

theorem mem_ofSender {β : Type} {p : ι × β} {ps : List (ι × β)} (h : p ∈ ps) :
    p.2 ∈ ofSender p.1 ps :=
  List.mem_filterMap.mpr ⟨p, h, by simp⟩

/-- The packets on the line are as short as those of the senders. -/
theorem Cut.within {es : List (ι × α)} {ps : List (ι × List α)} (h : Cut last es ps) {n : Nat}
    (hw : ∀ q, (frames last (ofSender q es)).Within n) :
    (frames last (es.map Prod.snd)).Within n := by
  constructor
  · intro pkt hp
    rw [← h.closed] at hp
    obtain ⟨p, hmem, rfl⟩ := List.mem_map.mp hp
    refine (hw p.1).1 p.2 ?_
    rw [← h.each p.1]
    exact mem_ofSender hmem
  · cases es using List.reverseRecOn with
    | nil => exact Nat.zero_le n
    | append_singleton front x =>
      have hrest := h.rest x.1
      rw [List.getLast?_concat, Option.map_some, if_pos rfl] at hrest
      rw [← hrest]
      exact (hw x.1).2

/-- If no sender has anything open, neither has the line. -/
theorem Cut.rest_nil {es : List (ι × α)} {ps : List (ι × List α)} (h : Cut last es ps)
    (hr : ∀ q, (frames last (ofSender q es)).rest = []) :
    (frames last (es.map Prod.snd)).rest = [] := by
  cases es using List.reverseRecOn with
  | nil => rfl
  | append_singleton front x =>
    have hrest := h.rest x.1
    rw [List.getLast?_concat, Option.map_some, if_pos rfl] at hrest
    rw [← hrest]
    exact hr x.1

end Osnt.Lib.Merge
