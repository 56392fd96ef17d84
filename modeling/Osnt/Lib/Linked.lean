import Mathlib.Data.List.Nodup

/-! Doubly linked lists in memory: a list of addresses with data, and the nodes that hold it. -/
namespace Osnt.Lib.Linked

abbrev Addr := Nat

structure Node (α : Type) where
  data : α
  prev : Option Addr
  next : Option Addr

/-- The nodes by their addresses. An address that is free has none. -/
abbrev Memory (α : Type) := Addr → Option (Node α)

structure NodeList (α : Type) where
  memory : Memory α
  head : Option Addr

variable {α : Type}

def store (memory : Memory α) (a : Addr) (node : Node α) : Memory α :=
  fun c => if c = a then some node else memory c

def free (memory : Memory α) (a : Addr) : Memory α := fun c => if c = a then none else memory c

def first (cells : List (Addr × α)) : Option Addr := cells.head?.map Prod.fst

def last (cells : List (Addr × α)) : Option Addr := cells.getLast?.map Prod.fst

@[simp] theorem first_nil : first ([] : List (Addr × α)) = none := rfl

@[simp] theorem first_cons (c : Addr × α) (cells : List (Addr × α)) :
    first (c :: cells) = some c.1 := rfl

@[simp] theorem last_nil : last ([] : List (Addr × α)) = none := rfl

@[simp] theorem last_concat (c : Addr × α) (cells : List (Addr × α)) :
    last (cells ++ [c]) = some c.1 := by
  rw [last, List.getLast?_concat]
  rfl

theorem first_append (xs ys : List (Addr × α)) : first (xs ++ ys) = (first xs).or (first ys) := by
  cases xs with
  | nil => rfl
  | cons x xs => rfl

theorem last_append (xs ys : List (Addr × α)) : last (xs ++ ys) = (last ys).or (last xs) := by
  rw [last, List.getLast?_append, last, last]
  cases ys.getLast? with
  | none => rfl
  | some y => rfl

theorem last_cons (c : Addr × α) (cells : List (Addr × α)) :
    last (c :: cells) = (last cells).or (some c.1) :=
  last_append [c] cells

theorem mem_of_first {cells : List (Addr × α)} {a : Addr} (h : first cells = some a) :
    a ∈ cells.map Prod.fst := by
  obtain ⟨c, hc, rfl⟩ := Option.map_eq_some_iff.mp h
  exact List.mem_map_of_mem (List.mem_of_head? hc)

theorem mem_of_last {cells : List (Addr × α)} {a : Addr} (h : last cells = some a) :
    a ∈ cells.map Prod.fst := by
  obtain ⟨c, hc, rfl⟩ := Option.map_eq_some_iff.mp h
  exact List.mem_map_of_mem (List.mem_of_getLast? hc)

theorem eq_nil_of_last {cells : List (Addr × α)} (h : last cells = none) : cells = [] := by
  rwa [last, Option.map_eq_none_iff, List.getLast?_eq_none_iff] at h

/-- The list holds these cells: each node knows the last one before and the first one after it. -/
structure Holds (l : NodeList α) (cells : List (Addr × α)) : Prop where
  nodup : (cells.map Prod.fst).Nodup
  head : l.head = first cells
  node : ∀ before a x after, cells = before ++ (a, x) :: after →
    l.memory a = some ⟨x, last before, first after⟩

theorem Holds.exists_node {l : NodeList α} {cells : List (Addr × α)} (h : Holds l cells)
    {a : Addr} (ha : a ∈ cells.map Prod.fst) : ∃ node, l.memory a = some node := by
  obtain ⟨⟨a, x⟩, hc, rfl⟩ := List.mem_map.mp ha
  obtain ⟨before, after, hcells⟩ := List.append_of_mem hc
  exact ⟨_, h.node before a x after hcells⟩

/-- The neighbours of the node at `a` are linked to each other, and it is freed. -/
def unlink (l : NodeList α) (a : Addr) (prev next : Option Addr) : NodeList α where
  memory c :=
    if c = a then none
    else if prev = some c then (l.memory c).map fun node => { node with next }
    else if next = some c then (l.memory c).map fun node => { node with prev }
    else l.memory c
  head := if prev = none then next else l.head

/-- The addresses around a cell. -/
structure Apart (before : List (Addr × α)) (a : Addr) (after : List (Addr × α)) : Prop where
  before_ne : ∀ c ∈ before.map Prod.fst, c ≠ a
  after_ne : ∀ c ∈ after.map Prod.fst, c ≠ a
  disjoint : ∀ c ∈ before.map Prod.fst, c ∉ after.map Prod.fst

theorem apart_of_nodup {before after : List (Addr × α)} {a : Addr} {x : α}
    (h : ((before ++ (a, x) :: after).map Prod.fst).Nodup) : Apart before a after := by
  rw [List.map_append, List.nodup_append, List.map_cons, List.nodup_cons] at h
  obtain ⟨-, ⟨hafter, -⟩, hdisjoint⟩ := h
  refine ⟨fun c hc he => ?_, fun c hc he => hafter (he ▸ hc), fun c hc hmem => ?_⟩
  · exact hdisjoint c hc a List.mem_cons_self he
  · exact hdisjoint c hc c (List.mem_cons_of_mem a hmem) rfl

/-- A cell of two lists one after the other is in the first or in the second. -/
theorem split_cases {before after b d : List (Addr × α)} {c : Addr × α}
    (h : before ++ after = b ++ c :: d) :
    (∃ cs, before = b ++ c :: cs ∧ d = cs ++ after) ∨
      ∃ bs, b = before ++ bs ∧ after = bs ++ c :: d := by
  rcases List.append_eq_append_iff.mp h with ⟨bs, hb, hafter⟩ | ⟨cs, hbefore, hc⟩
  · exact .inr ⟨bs, hb, hafter⟩
  · cases cs with
    | nil => exact .inr ⟨[], by simpa using hbefore.symm, hc.symm⟩
    | cons c' cs =>
      obtain ⟨rfl, rfl⟩ := List.cons.inj hc
      exact .inl ⟨cs, hbefore, rfl⟩

theorem Holds.unlink {l : NodeList α} {before after : List (Addr × α)} {a : Addr} {x : α}
    (h : Holds l (before ++ (a, x) :: after)) :
    Holds (unlink l a (last before) (first after)) (before ++ after) := by
  have hapart := apart_of_nodup h.nodup
  refine ⟨?_, ?_, fun b c w d hcells => ?_⟩
  · rw [List.map_append]
    have hnodup := h.nodup
    rw [List.map_append, List.map_cons] at hnodup
    exact hnodup.sublist (List.Sublist.append_left (List.sublist_cons_self _ _) _)
  · rw [first_append]
    change (if last before = none then first after else l.head) = _
    rw [h.head, first_append]
    split
    · rename_i hnone
      rw [eq_nil_of_last hnone]
      rfl
    · rename_i hsome
      cases before with
      | nil => exact absurd rfl hsome
      | cons c before => rfl
  · rcases split_cases hcells with ⟨cs, rfl, rfl⟩ | ⟨bs, rfl, rfl⟩
    · -- the cell is before the one that is taken out
      have hold := h.node b c w (cs ++ (a, x) :: after) (by simp)
      have hne : c ≠ a := hapart.before_ne c (by simp)
      have hnext : first after ≠ some c := fun he => hapart.disjoint c (by simp) (mem_of_first he)
      have hprev : last (b ++ (c, w) :: cs) = (last cs).or (some c) := by
        rw [last_append, last_cons]
        cases last cs <;> rfl
      simp only [Linked.unlink, if_neg hne, hprev, hnext, if_false, hold]
      cases hcs : last cs with
      | none => simp [eq_nil_of_last hcs]
      | some p =>
        have hp : p ≠ c := by
          have hb := h.nodup
          rw [List.append_assoc, List.cons_append] at hb
          exact (apart_of_nodup hb).after_ne p (by simp [mem_of_last hcs])
        cases cs with
        | nil => cases hcs
        | cons c' cs => simp [hp]
    · -- the cell is after the one that is taken out
      have hold := h.node (before ++ (a, x) :: bs) c w d (by simp)
      have hne : c ≠ a := hapart.after_ne c (by simp)
      have hprev : last before ≠ some c := fun he => hapart.disjoint c (mem_of_last he) (by simp)
      simp only [Linked.unlink, if_neg hne, hprev, if_false, hold]
      cases bs with
      | nil => simp
      | cons b' bs =>
        have hb' : b'.1 ≠ c := by
          have hb := h.nodup
          rw [show before ++ (a, x) :: (b' :: bs ++ (c, w) :: d) =
            (before ++ (a, x) :: b' :: bs) ++ (c, w) :: d by simp] at hb
          exact (apart_of_nodup hb).before_ne b'.1 (by simp)
        simp [hb', last_append, last_cons]

/-- A new node, linked behind the last one. -/
def link (l : NodeList α) (a : Addr) (x : α) (prev : Option Addr) : NodeList α where
  memory c :=
    if c = a then some ⟨x, prev, none⟩
    else if prev = some c then (l.memory c).map fun node => { node with next := some a }
    else l.memory c
  head := l.head.or (some a)

theorem Holds.link {l : NodeList α} {cells : List (Addr × α)} {a : Addr} {x : α}
    (h : Holds l cells) (ha : a ∉ cells.map Prod.fst) :
    Holds (link l a x (last cells)) (cells ++ [(a, x)]) := by
  refine ⟨?_, ?_, fun b c w d hcells => ?_⟩
  · rw [List.map_append, List.nodup_append]
    refine ⟨h.nodup, List.nodup_singleton a, fun c hc d hd he => ha ?_⟩
    obtain rfl : d = a := List.mem_singleton.mp hd
    exact he ▸ hc
  · rw [first_append, ← h.head]
    rfl
  · rcases split_cases hcells with ⟨cs, rfl, rfl⟩ | ⟨bs, rfl, hlast⟩
    · have hold := h.node b c w cs rfl
      have hne : c ≠ a := fun he => ha (by simp [he])
      have hlast : last (b ++ (c, w) :: cs) = (last cs).or (some c) := by
        rw [last_append, last_cons]
        cases last cs <;> rfl
      simp only [Linked.link, if_neg hne, hlast, hold]
      cases hcs : last cs with
      | none => simp [eq_nil_of_last hcs]
      | some p =>
        have hp : p ≠ c := (apart_of_nodup h.nodup).after_ne p (mem_of_last hcs)
        cases cs with
        | nil => cases hcs
        | cons c' cs => simp [hp]
    · cases bs with
      | nil =>
        cases hlast
        simp [Linked.link]
      | cons b' bs => cases bs <;> cases hlast

def laidOut (prev : Option Addr) : List (Addr × α) → Memory α
  | [] => fun _ => none
  | (a, x) :: cells => store (laidOut (some a) cells) a ⟨x, prev, first cells⟩

/-- The list as it lies at these addresses. -/
def layOut (cells : List (Addr × α)) : NodeList α := ⟨laidOut none cells, first cells⟩

theorem laidOut_node {prev : Option Addr} {cells before after : List (Addr × α)} {a : Addr} {x : α}
    (hnodup : (cells.map Prod.fst).Nodup) (h : cells = before ++ (a, x) :: after) :
    laidOut prev cells a = some ⟨x, (last before).or prev, first after⟩ := by
  induction cells generalizing prev before with
  | nil => simp at h
  | cons c cells ih =>
    obtain ⟨hc, hnodup⟩ := List.nodup_cons.mp hnodup
    cases before with
    | nil =>
      obtain ⟨rfl, rfl⟩ := List.cons.inj h
      exact if_pos rfl
    | cons c' before =>
      obtain ⟨rfl, hcells⟩ := List.cons.inj h
      have hne : a ≠ c.1 := by
        rintro rfl
        exact hc (by simp [hcells])
      rw [last_cons, laidOut, store, if_neg hne, ih hnodup hcells]
      cases last before <;> rfl

theorem holds_layOut {cells : List (Addr × α)} (h : (cells.map Prod.fst).Nodup) :
    Holds (layOut cells) cells := by
  refine ⟨h, rfl, fun before a x after hcells => ?_⟩
  refine (laidOut_node h hcells).trans ?_
  rw [Option.or_none]

/-- The data from the node at `cur` on. -/
def readFrom (memory : Memory α) : Nat → Option Addr → Option (List α)
  | _, none => some []
  | 0, some _ => none
  | fuel + 1, some a => do
    let node ← memory a
    let rest ← readFrom memory fuel node.next
    return node.data :: rest

theorem Holds.readFrom {l : NodeList α} {cells : List (Addr × α)} (h : Holds l cells)
    (before after : List (Addr × α)) (hcells : cells = before ++ after) {fuel : Nat}
    (hfuel : after.length ≤ fuel) :
    readFrom l.memory fuel (first after) = some (after.map Prod.snd) := by
  induction after generalizing before fuel with
  | nil => cases fuel <;> rfl
  | cons c after ih =>
    cases fuel with
    | zero => simp at hfuel
    | succ fuel =>
      have hrest := @ih (before ++ [c]) (by simpa using hcells) fuel (by simpa using hfuel)
      rw [first_cons, Linked.readFrom, h.node before c.1 c.2 after hcells]
      simp [hrest]

end Osnt.Lib.Linked
