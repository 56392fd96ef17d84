import Mathlib.Data.List.Infix

/-! Streams cut into packets by a mark on the last word of each. -/
namespace Osnt.Lib

/-- The packets of a stream that are complete, and the words of the one that is not. -/
structure Frames (α : Type) where
  closed : List (List α)
  rest : List α

namespace Frames
variable {α : Type} (last : α → Bool)

/-- The next word ends the open packet or extends it. -/
def push (f : Frames α) (w : α) : Frames α :=
  if last w then ⟨f.closed ++ [f.rest ++ [w]], []⟩ else ⟨f.closed, f.rest ++ [w]⟩

/-- No packet is longer than `n` words. -/
def Within (n : Nat) (f : Frames α) : Prop := (∀ p ∈ f.closed, p.length ≤ n) ∧ f.rest.length ≤ n

instance (n : Nat) (f : Frames α) : Decidable (f.Within n) :=
  inferInstanceAs (Decidable ((∀ p ∈ f.closed, p.length ≤ n) ∧ f.rest.length ≤ n))

theorem push_last {f : Frames α} {w : α} (h : last w = true) :
    f.push last w = ⟨f.closed ++ [f.rest ++ [w]], []⟩ := by simp [push, h]

theorem push_inner {f : Frames α} {w : α} (h : last w = false) :
    f.push last w = ⟨f.closed, f.rest ++ [w]⟩ := by simp [push, h]

/-- A bound that holds with the next word held before it, with room for that word. -/
theorem Within.of_push {n : Nat} {f : Frames α} {w : α} (h : (f.push last w).Within n) :
    f.Within n ∧ f.rest.length < n := by
  cases hl : last w with
  | true =>
    rw [push_last last hl] at h
    have hr := h.1 (f.rest ++ [w]) (by simp)
    rw [List.length_append, List.length_singleton] at hr
    exact ⟨⟨fun p hp => h.1 p (by simp [hp]), by omega⟩, by omega⟩
  | false =>
    rw [push_inner last hl] at h
    have hr := h.2
    rw [List.length_append, List.length_singleton] at hr
    exact ⟨⟨h.1, by omega⟩, by omega⟩

end Frames

section
variable {α : Type} (last : α → Bool)

/-- A stream cut into packets. -/
def frames (ws : List α) : Frames α := ws.foldl (Frames.push last) ⟨[], []⟩

@[simp] theorem frames_nil : frames last ([] : List α) = ⟨[], []⟩ := rfl

@[simp] theorem frames_concat (ws : List α) (w : α) :
    frames last (ws ++ [w]) = (frames last ws).push last w := by
  simp [frames]

theorem length_closed_concat (ws : List α) (w : α) :
    (frames last (ws ++ [w])).closed.length =
      if last w then (frames last ws).closed.length + 1 else (frames last ws).closed.length := by
  rw [frames_concat]
  cases hl : last w with
  | true =>
    rw [Frames.push_last last hl]
    simp
  | false =>
    rw [Frames.push_inner last hl]
    rfl

theorem frames_append (ws vs : List α) :
    frames last (ws ++ vs) = vs.foldl (Frames.push last) (frames last ws) := by
  simp [frames]

/-- The words that begin a packet; `first` says whether the head does. -/
def openers : Bool → List α → List α
  | _, [] => []
  | first, w :: ws => (if first then [w] else []) ++ openers (last w) ws

/-- Whether the word behind a stream begins a packet. -/
def opens : Bool → List α → Bool
  | first, [] => first
  | _, w :: ws => opens (last w) ws

theorem openers_concat (first : Bool) (ws : List α) (w : α) :
    openers last first (ws ++ [w]) =
      openers last first ws ++ if opens last first ws then [w] else [] := by
  induction ws generalizing first with
  | nil => cases first <;> simp [openers, opens]
  | cons v ws ih =>
    rw [List.cons_append, openers, ih, openers, List.append_assoc]
    rfl

@[simp] theorem opens_concat (first : Bool) (ws : List α) (w : α) :
    opens last first (ws ++ [w]) = last w := by
  induction ws generalizing first with
  | nil => rfl
  | cons v ws ih => exact ih _

theorem opens_append (first : Bool) (ws vs : List α) :
    opens last first (ws ++ vs) = opens last (opens last first ws) vs := by
  induction ws generalizing first with
  | nil => rfl
  | cons w ws ih => exact ih _

theorem openers_map {β : Type} {last' : β → Bool} {f : α → β} (hf : ∀ w, last' (f w) = last w)
    (first : Bool) (ws : List α) :
    openers last' first (ws.map f) = (openers last first ws).map f := by
  induction ws generalizing first with
  | nil => rfl
  | cons w ws ih => cases first <;> simp [openers, ih, hf]

theorem opens_map {β : Type} {last' : β → Bool} {f : α → β} (hf : ∀ w, last' (f w) = last w)
    (first : Bool) (ws : List α) : opens last' first (ws.map f) = opens last first ws := by
  induction ws generalizing first with
  | nil => rfl
  | cons w ws ih => simp [opens, ih, hf]

theorem opens_iff_rest (ws : List α) : opens last true ws = true ↔ (frames last ws).rest = [] := by
  induction ws using List.reverseRecOn with
  | nil => simp [opens]
  | append_singleton ws w ih =>
    rw [opens_concat, frames_concat]
    cases hl : last w with
    | true => simp [Frames.push_last last hl]
    | false => simp [Frames.push_inner last hl]

theorem length_le_rest (ws vs : List α) (h : ∀ v ∈ vs, last v = false) :
    vs.length ≤ (frames last (ws ++ vs)).rest.length := by
  induction vs using List.reverseRecOn with
  | nil => simp
  | append_singleton vs v ih =>
    rw [← List.append_assoc, frames_concat, Frames.push_inner last (h v (by simp))]
    have := ih (fun x hx => h x (by simp [hx]))
    simpa using this

/-- The packets and the open one are the stream, and no word of the open one has a mark. -/
theorem frames_spec (ws : List α) :
    (frames last ws).closed.flatten ++ (frames last ws).rest = ws ∧
      ∀ v ∈ (frames last ws).rest, last v = false := by
  induction ws using List.reverseRecOn with
  | nil => simp
  | append_singleton ws w ih =>
    rw [frames_concat]
    cases hl : last w with
    | true =>
      rw [Frames.push_last last hl]
      refine ⟨?_, by simp⟩
      rw [List.flatten_append, List.flatten_singleton, List.append_nil, ← List.append_assoc, ih.1]
    | false =>
      rw [Frames.push_inner last hl]
      refine ⟨by rw [← List.append_assoc, ih.1], ?_⟩
      intro v hv
      rcases List.mem_append.mp hv with hv | hv
      · exact ih.2 v hv
      · rw [List.mem_singleton] at hv
        exact hv ▸ hl

theorem within_of_append {n : Nat} {ws : List α} (vs : List α)
    (h : (frames last (ws ++ vs)).Within n) : (frames last ws).Within n := by
  induction vs using List.reverseRecOn with
  | nil => simpa using h
  | append_singleton vs v ih =>
    rw [← List.append_assoc, frames_concat] at h
    exact ih (Frames.Within.of_push last h).1

theorem within_of_isPrefix {n : Nat} {ws vs : List α} (hpre : ws <+: vs)
    (h : (frames last vs).Within n) : (frames last ws).Within n := by
  obtain ⟨us, rfl⟩ := hpre
  exact within_of_append last us h

theorem frames_map {β : Type} {last' : β → Bool} {f : α → β} (hf : ∀ w, last' (f w) = last w)
    (ws : List α) : frames last' (ws.map f) =
      ⟨(frames last ws).closed.map (List.map f), (frames last ws).rest.map f⟩ := by
  induction ws using List.reverseRecOn with
  | nil => rfl
  | append_singleton ws w ih =>
    rw [List.map_append, List.map_singleton, frames_concat, frames_concat, ih]
    cases hl : last w with
    | true =>
      rw [Frames.push_last last hl, Frames.push_last last' ((hf w).trans hl)]
      simp
    | false =>
      rw [Frames.push_inner last hl, Frames.push_inner last' ((hf w).trans hl)]
      simp

theorem within_map {β : Type} {last' : β → Bool} {f : α → β} (hf : ∀ w, last' (f w) = last w)
    {n : Nat} {ws : List α} :
    (frames last' (ws.map f)).Within n ↔ (frames last ws).Within n := by
  rw [frames_map last hf]
  simp [Frames.Within]

/-- A whole packet has the mark on its last word and on no other. -/
def Packet (pkt : List α) : Prop :=
  ∃ ws w, pkt = ws ++ [w] ∧ (∀ v ∈ ws, last v = false) ∧ last w = true

theorem Packet.ne_nil {pkt : List α} (h : Packet last pkt) : pkt ≠ [] := by
  obtain ⟨ws, w, rfl, -⟩ := h
  simp

/-- A map that keeps the marks makes no packet and breaks none. -/
theorem packet_map {β : Type} {last' : β → Bool} {f : α → β} (hf : ∀ w, last' (f w) = last w)
    {pkt : List α} : Packet last' (pkt.map f) ↔ Packet last pkt := by
  constructor
  · rintro ⟨ws, w, he, hin, hl⟩
    obtain ⟨us, vs, rfl, rfl, hvs⟩ := List.map_eq_append_iff.mp he
    obtain ⟨v, rfl, rfl⟩ := List.map_eq_singleton_iff.mp hvs
    exact ⟨us, v, rfl, fun x hx => by rw [← hf]; exact hin _ (List.mem_map_of_mem hx),
      (hf v).symm.trans hl⟩
  · rintro ⟨ws, w, rfl, hin, hl⟩
    refine ⟨ws.map f, f w, by simp, fun x hx => ?_, (hf w).trans hl⟩
    obtain ⟨v, hv, rfl⟩ := List.mem_map.mp hx
    rw [hf]
    exact hin v hv

/-- In a packet, the word with the mark is the one with nothing behind it. -/
theorem Packet.last_iff {ws vs : List α} {w : α} (h : Packet last (ws ++ w :: vs)) :
    last w = true ↔ vs = [] := by
  obtain ⟨us, u, he, hin, hl⟩ := h
  rcases List.eq_nil_or_concat vs with rfl | ⟨vs, v, rfl⟩
  · obtain ⟨-, hw⟩ := List.append_inj' he rfl
    obtain rfl := List.singleton_inj.mp hw
    exact ⟨fun _ => rfl, fun _ => hl⟩
  · have he' : (ws ++ w :: vs) ++ [v] = us ++ [u] := by simpa using he
    obtain ⟨rfl, -⟩ := List.append_inj' he' rfl
    simp [hin w (by simp)]

theorem Packet.inner {ws vs : List α} (h : Packet last (ws ++ vs)) (hvs : vs ≠ []) :
    ∀ v ∈ ws, last v = false := by
  obtain ⟨us, u, he, hin, -⟩ := h
  rcases List.eq_nil_or_concat vs with rfl | ⟨vs, v, rfl⟩
  · exact absurd rfl hvs
  · have he' : (ws ++ vs) ++ [v] = us ++ [u] := by simpa using he
    obtain ⟨rfl, -⟩ := List.append_inj' he' rfl
    exact fun x hx => hin x (by simp [hx])

theorem frames_inner (acc ws : List α) (h : ∀ v ∈ ws, last v = false) :
    frames last (acc ++ ws) = ⟨(frames last acc).closed, (frames last acc).rest ++ ws⟩ := by
  induction ws using List.reverseRecOn with
  | nil => simp
  | append_singleton ws w ih =>
    rw [← List.append_assoc, frames_concat, ih (fun v hv => h v (by simp [hv])),
      Frames.push_inner last (h w (by simp)), List.append_assoc]

theorem frames_packet (acc : List α) {pkt : List α} (h : Packet last pkt) :
    frames last (acc ++ pkt) =
      ⟨(frames last acc).closed ++ [(frames last acc).rest ++ pkt], []⟩ := by
  obtain ⟨ws, w, rfl, hin, hl⟩ := h
  rw [← List.append_assoc, frames_concat, frames_inner last acc ws hin, Frames.push_last last hl,
    List.append_assoc]

theorem packet_of_closed (ws : List α) : ∀ pkt ∈ (frames last ws).closed, Packet last pkt := by
  induction ws using List.reverseRecOn with
  | nil => simp
  | append_singleton ws w ih =>
    rw [frames_concat]
    cases hl : last w with
    | true =>
      rw [Frames.push_last last hl]
      intro pkt hp
      rcases List.mem_append.mp hp with hp | hp
      · exact ih pkt hp
      · rw [List.mem_singleton] at hp
        exact ⟨_, w, hp, (frames_spec last ws).2, hl⟩
    | false =>
      rw [Frames.push_inner last hl]
      exact ih

theorem frames_packets {pkts : List (List α)} (h : ∀ pkt ∈ pkts, Packet last pkt) :
    frames last pkts.flatten = ⟨pkts, []⟩ := by
  induction pkts using List.reverseRecOn with
  | nil => rfl
  | append_singleton pkts pkt ih =>
    rw [List.flatten_append, List.flatten_singleton, frames_packet last _ (h pkt (by simp)),
      ih (fun x hx => h x (by simp [hx]))]
    rfl

/-- There is one way to cut a stream of whole packets and the beginning of another. -/
theorem frames_packets_rest {pkts : List (List α)} {rest : List α}
    (h : ∀ pkt ∈ pkts, Packet last pkt) (hr : ∀ v ∈ rest, last v = false) :
    frames last (pkts.flatten ++ rest) = ⟨pkts, rest⟩ := by
  rw [frames_inner last _ _ hr, frames_packets last h, List.nil_append]

/-- Packets cut from the beginning of a stream are the first of all. -/
theorem closed_append (ws vs : List α) :
    (frames last ws).closed <+: (frames last (ws ++ vs)).closed := by
  induction vs using List.reverseRecOn with
  | nil => simp
  | append_singleton vs v ih =>
    rw [← List.append_assoc, frames_concat]
    cases hl : last v with
    | true =>
      rw [Frames.push_last last hl]
      exact ih.trans (List.prefix_append _ _)
    | false =>
      rw [Frames.push_inner last hl]
      exact ih

/-- Of some packets sent in part, the first are complete, and the others are what is left with
what is open. -/
theorem cut_packets {pkts : List (List α)} (h : ∀ pkt ∈ pkts, Packet last pkt) {ws vs : List α}
    (hws : ws ++ vs = pkts.flatten) :
    ∃ more, pkts = (frames last ws).closed ++ more ∧
      (frames last ws).rest ++ vs = more.flatten := by
  obtain ⟨more, hmore⟩ := closed_append last ws vs
  rw [hws, frames_packets last h] at hmore
  refine ⟨more, hmore.symm, ?_⟩
  have hall : pkts.flatten = (frames last ws).closed.flatten ++ more.flatten := by
    rw [← List.flatten_append]
    exact congrArg _ hmore.symm
  have hcut := (frames_spec last ws).1
  rw [← hcut, hall, List.append_assoc] at hws
  exact List.append_cancel_left hws

theorem rest_begins {ws vs : List α} {pkt : List α} {more : List (List α)}
    (h : Packet last pkt) (hcut : (frames last ws).rest ++ vs = (pkt :: more).flatten) :
    (frames last ws).rest <+: pkt := by
  rw [List.flatten_cons] at hcut
  rcases List.append_eq_append_iff.mp hcut with ⟨us, hpkt, -⟩ | ⟨us, hrest, -⟩
  · exact ⟨us, hpkt.symm⟩
  · obtain ⟨inner, w, rfl, -, hl⟩ := h
    have hw : last w = false := (frames_spec last ws).2 w (by simp [hrest])
    rw [hl] at hw
    cases hw

/-- The next word of some packets sent in part belongs to the one that is open. -/
theorem next_of_packets {pkts : List (List α)} (h : ∀ pkt ∈ pkts, Packet last pkt)
    {ws vs : List α} {w : α} (hws : ws ++ w :: vs = pkts.flatten) :
    ∃ pkt ∈ pkts, ∃ us, pkt = (frames last ws).rest ++ w :: us := by
  obtain ⟨more, hmore, hcut⟩ := cut_packets last h hws
  match more with
  | [] => simp at hcut
  | pkt :: more =>
    have hmem : pkt ∈ pkts := by rw [hmore]; simp
    obtain ⟨us, rfl⟩ := rest_begins last (h _ hmem) hcut
    rw [List.flatten_cons, List.append_assoc] at hcut
    refine ⟨_, hmem, ?_⟩
    match us with
    | [] =>
      obtain ⟨inner, v, he, -, hl⟩ := h _ hmem
      rw [List.append_nil] at he
      have hv := (frames_spec last ws).2 v (by simp [he])
      rw [hl] at hv
      cases hv
    | u :: us =>
      obtain ⟨rfl, -⟩ := List.cons.inj (List.append_cancel_left hcut)
      exact ⟨us, rfl⟩

section Framewise
/- A stream treated packet by packet, also the part of a packet at its end. -/
variable {β : Type} (f : List α → List β)

def framewise (ws : List α) : List β :=
  (frames last ws).closed.flatMap f ++ f (frames last ws).rest

theorem framewise_concat (hnil : f [] = []) {ws : List α} {w : α} {out : List β}
    (h : f ((frames last ws).rest ++ [w]) = f (frames last ws).rest ++ out) :
    framewise last f (ws ++ [w]) = framewise last f ws ++ out := by
  rw [framewise, framewise, frames_concat, List.append_assoc, ← h]
  cases hl : last w with
  | true => rw [Frames.push_last last hl, hnil]; simp
  | false => rw [Frames.push_inner last hl]

theorem framewise_packets (hnil : f [] = []) {pkts : List (List α)}
    (h : ∀ pkt ∈ pkts, Packet last pkt) : framewise last f pkts.flatten = pkts.flatMap f := by
  rw [framewise, frames_packets last h, hnil, List.append_nil]

/-- A beginning of some packets gives a beginning of what these give. -/
theorem framewise_isPrefix (hmono : ∀ ws vs, f ws <+: f (ws ++ vs)) (hnil : f [] = [])
    {pkts : List (List α)} (h : ∀ pkt ∈ pkts, Packet last pkt) {ws : List α}
    (hws : ws <+: pkts.flatten) : framewise last f ws <+: pkts.flatMap f := by
  obtain ⟨vs, hws⟩ := hws
  obtain ⟨more, rfl, hcut⟩ := cut_packets last h hws
  rw [framewise, List.flatMap_append]
  refine (List.prefix_append_right_inj _).mpr ?_
  match more with
  | [] =>
    obtain ⟨hrest, -⟩ := List.append_eq_nil_iff.mp hcut
    rw [hrest, hnil]
    exact List.nil_prefix
  | pkt :: more =>
    obtain ⟨us, rfl⟩ := rest_begins last (h pkt (by simp)) hcut
    exact (hmono _ us).trans (List.prefix_append _ _)

end Framewise

theorem length_openers (ws : List α) :
    (openers last true ws).length =
      (frames last ws).closed.length + if (frames last ws).rest = [] then 0 else 1 := by
  induction ws using List.reverseRecOn with
  | nil => rfl
  | append_singleton ws w ih =>
    have hopen := opens_iff_rest last ws
    rw [openers_concat, frames_concat, List.length_append, ih]
    cases hl : last w with
    | true =>
      rw [Frames.push_last last hl]
      by_cases hr : (frames last ws).rest = []
      · simp [hr, hopen.mpr hr]
      · simp [hr, mt hopen.mp hr]
    | false =>
      rw [Frames.push_inner last hl]
      by_cases hr : (frames last ws).rest = []
      · simp [hr, hopen.mpr hr]
      · simp [hr, mt hopen.mp hr]

theorem openers_append (first : Bool) (ws vs : List α) :
    openers last first (ws ++ vs) =
      openers last first ws ++ openers last (opens last first ws) vs := by
  induction ws generalizing first with
  | nil => rfl
  | cons w ws ih => rw [List.cons_append, openers, ih, openers, List.append_assoc, opens]

/-- The opening words are some of the words, in their order. -/
theorem openers_sublist (first : Bool) (ws : List α) : (openers last first ws).Sublist ws := by
  induction ws generalizing first with
  | nil => exact .slnil
  | cons w ws ih =>
    cases first with
    | true => exact (ih (last w)).cons_cons w
    | false => exact (ih (last w)).cons w

theorem length_openers_le (first : Bool) (ws : List α) :
    (openers last first ws).length ≤ ws.length :=
  (openers_sublist last first ws).length_le

theorem openers_inner {ws : List α} {w : α} (h : ∀ v ∈ ws, last v = false) :
    openers last false (ws ++ [w]) = [] := by
  induction ws with
  | nil => rfl
  | cons v ws ih =>
    rw [List.cons_append, openers, h v (by simp), ih (fun x hx => h x (by simp [hx]))]
    rfl

theorem openers_packet {pkt : List α} (h : Packet last pkt) (more : List α) :
    openers last true (pkt ++ more) = pkt.head?.toList ++ openers last true more := by
  obtain ⟨ws, w, rfl, hin, hl⟩ := h
  rw [openers_append, opens_concat, hl]
  cases ws with
  | nil => rfl
  | cons v ws =>
    rw [List.cons_append, openers, hin v (by simp),
      openers_inner last (fun x hx => hin x (by simp [hx]))]
    rfl

/-- The opening words of whole packets are their first ones. -/
theorem openers_packets {pkts : List (List α)} (h : ∀ pkt ∈ pkts, Packet last pkt) :
    openers last true pkts.flatten = pkts.filterMap List.head? := by
  induction pkts with
  | nil => rfl
  | cons pkt pkts ih =>
    rw [List.flatten_cons, openers_packet last (h pkt (by simp)),
      ih (fun x hx => h x (by simp [hx])), List.filterMap_cons]
    cases pkt.head? <;> rfl

theorem getElem_openers_packets {pkts : List (List α)} (h : ∀ pkt ∈ pkts, Packet last pkt)
    (k : Nat) : (openers last true pkts.flatten)[k]? = pkts[k]?.bind List.head? := by
  rw [openers_packets last h]
  induction pkts generalizing k with
  | nil => rfl
  | cons pkt pkts ih =>
    obtain ⟨w, hw⟩ : ∃ w, pkt.head? = some w := by
      cases hpkt : pkt with
      | nil => exact absurd hpkt (Packet.ne_nil last (h pkt (by simp)))
      | cons w ws => exact ⟨w, rfl⟩
    rw [List.filterMap_cons, hw]
    cases k with
    | zero => simp [hw]
    | succ k => simpa using ih (fun x hx => h x (by simp [hx])) k

/-- If a packet is longer than `d` words, there is a beginning of the stream in which `d` words are
open and no packet before is longer. -/
theorem exists_open_rest {pkts : List (List α)} (h : ∀ pkt ∈ pkts, Packet last pkt) {d : Nat}
    (hlong : ∃ pkt ∈ pkts, d < pkt.length) :
    ∃ ws, ws <+: pkts.flatten ∧ (frames last ws).Within d ∧ (frames last ws).rest.length = d := by
  obtain ⟨pkt, hfind⟩ : ∃ pkt, pkts.find? (fun pkt => decide (d < pkt.length)) = some pkt := by
    rw [← Option.isSome_iff_exists, List.find?_isSome]
    simpa using hlong
  obtain ⟨hl, front, back, rfl, hfront⟩ := List.find?_eq_some_iff_append.mp hfind
  replace hl : d < pkt.length := by simpa using hl
  replace hfront : ∀ q ∈ front, q.length ≤ d := fun q hq => by simpa using hfront q hq
  have hopen : ∀ v ∈ pkt.take d, last v = false := by
    have hne : pkt.drop d ≠ [] := by simpa using hl
    exact Packet.inner last (by rw [List.take_append_drop]; exact h pkt (by simp)) hne
  have hframes : frames last (front.flatten ++ pkt.take d) = ⟨front, pkt.take d⟩ :=
    frames_packets_rest last (fun q hq => h q (by simp [hq])) hopen
  have htake : (pkt.take d).length = d := by
    rw [List.length_take]
    omega
  refine ⟨front.flatten ++ pkt.take d, ?_, ?_, ?_⟩
  · rw [List.flatten_append, List.flatten_cons]
    exact (List.prefix_append_right_inj _).mpr
      ((List.take_prefix _ _).trans (List.prefix_append _ _))
  · rw [hframes]
    exact ⟨hfront, htake.le⟩
  · rw [hframes]
    exact htake

/-- Packets, each behind words of its own. -/
def headed (hs pkts : List (List α)) : List α := (List.zipWith (· ++ ·) hs pkts).flatten

theorem headed_append {hs hs' pkts pkts' : List (List α)} (h : hs.length = pkts.length) :
    headed (hs ++ hs') (pkts ++ pkts') = headed hs pkts ++ headed hs' pkts' := by
  rw [headed, List.zipWith_append h, List.flatten_append]
  rfl

end
end Osnt.Lib
