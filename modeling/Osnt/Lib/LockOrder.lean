import Mathlib.Logic.Function.Basic
import Mathlib.Logic.Relation
import Mathlib.Order.Basic

/-! Code as far as its locks go, and threads that run such code: if each takes its locks in
ascending order, no threads wait for each other in a cycle. -/
namespace Osnt.Lib

/-- A mutex is always taken with `wr`. -/
inductive LockMode
  | rd
  | wr
deriving DecidableEq, Repr

inductive LockOp (L : Type)
  | lock (l : L) (mode : LockMode)
  | unlock (l : L)
deriving DecidableEq, Repr

/-- What a thread holds, the last one taken first. -/
abbrev Held (L : Type) := List (L × LockMode)

def Held.locks {L : Type} (held : Held L) : List L := held.map Prod.fst

namespace LockOp
variable {L : Type} [DecidableEq L]

def apply (held : Held L) : LockOp L → Held L
  | .lock l mode => (l, mode) :: held
  | .unlock l => held.eraseP fun k => k.1 == l

/-- What is held after all of the operations. -/
def run (held : Held L) (ops : List (LockOp L)) : Held L := ops.foldl apply held

@[simp] theorem run_nil (held : Held L) : run held [] = held := rfl

@[simp] theorem run_cons (held : Held L) (op : LockOp L) (ops : List (LockOp L)) :
    run held (op :: ops) = run (op.apply held) ops := rfl

theorem run_append (held : Held L) (ops ops' : List (LockOp L)) :
    run held (ops ++ ops') = run (run held ops) ops' := List.foldl_append

/-- A lock is taken above all that are held, and only what is held is given back. -/
def Allowed [LT L] (held : Held L) : LockOp L → Prop
  | .lock l _ => ∀ k ∈ held.locks, k < l
  | .unlock l => l ∈ held.locks

def Orderly [LT L] : Held L → List (LockOp L) → Prop
  | _, [] => True
  | held, op :: ops => op.Allowed held ∧ Orderly (op.apply held) ops

theorem Orderly.append [LT L] {held : Held L} {ops ops' : List (LockOp L)}
    (h : Orderly held ops) (h' : Orderly (run held ops) ops') : Orderly held (ops ++ ops') := by
  induction ops generalizing held with
  | nil => exact h'
  | cons op ops ih => exact ⟨h.1, ih h.2 h'⟩

end LockOp

/-- What code does to the locks, and its result if it returns. -/
structure Locking (L α : Type) where
  ops : List (LockOp L)
  result : Option α

namespace Locking
variable {L α β : Type}

instance : Monad (Locking L) where
  pure a := ⟨[], some a⟩
  bind x f :=
    match x.result with
    | some a => ⟨x.ops ++ (f a).ops, (f a).result⟩
    | none => ⟨x.ops, none⟩

/-- Code without locks that may fail. -/
instance : MonadLift Option (Locking L) := ⟨fun o => ⟨[], o⟩⟩

def lock (l : L) (mode : LockMode) : Locking L Unit := ⟨[.lock l mode], some ()⟩

def unlock (l : L) : Locking L Unit := ⟨[.unlock l], some ()⟩

theorem bind_some {x : Locking L α} {a : α} (h : x.result = some a) (f : α → Locking L β) :
    x >>= f = ⟨x.ops ++ (f a).ops, (f a).result⟩ := by
  change (match x.result with
    | some a => (⟨x.ops ++ (f a).ops, (f a).result⟩ : Locking L β)
    | none => ⟨x.ops, none⟩) = _
  rw [h]

theorem bind_none {x : Locking L α} (h : x.result = none) (f : α → Locking L β) :
    x >>= f = ⟨x.ops, none⟩ := by
  change (match x.result with
    | some a => (⟨x.ops ++ (f a).ops, (f a).result⟩ : Locking L β)
    | none => ⟨x.ops, none⟩) = _
  rw [h]

variable [DecidableEq L]

/-- Code that begins with nothing held keeps the order, and holds nothing when it returns. -/
structure Disciplined [LT L] (x : Locking L α) : Prop where
  orderly : LockOp.Orderly [] x.ops
  returns : x.result.isSome → LockOp.run [] x.ops = []

/-- From what is held, code keeps the order; what it returns and what it holds then are as
stated. -/
structure Spec [LT L] (held : Held L) (x : Locking L α) (post : α → Held L → Prop) : Prop where
  orderly : LockOp.Orderly held x.ops
  returns : ∀ a, x.result = some a → post a (LockOp.run held x.ops)

theorem Spec.disciplined [LT L] {x : Locking L α} (h : Spec [] x fun _ held => held = []) :
    x.Disciplined := by
  refine ⟨h.orderly, fun hsome => ?_⟩
  obtain ⟨a, ha⟩ := Option.isSome_iff_exists.mp hsome
  exact h.returns a ha

/-- Code that leaves what is held. -/
def Keeps [LT L] (held : Held L) (x : Locking L α) : Prop := Spec held x fun _ held' => held' = held

namespace Spec
variable [LT L] {held : Held L} {x : Locking L α} {f : α → Locking L β}
  {post : α → Held L → Prop} {post' : β → Held L → Prop}

theorem pure {a : α} (h : post a held) : Spec held (Pure.pure a : Locking L α) post :=
  ⟨trivial, fun _ ha => Option.some.inj ha ▸ h⟩

theorem mono {post' : α → Held L → Prop} (hx : Spec held x post)
    (h : ∀ a held', post a held' → post' a held') : Spec held x post' :=
  ⟨hx.orderly, fun a ha => h a _ (hx.returns a ha)⟩

theorem bind_result (hx : Spec held x post)
    (hf : ∀ a held', x.result = some a → post a held' → Spec held' (f a) post') :
    Spec held (x >>= f) post' := by
  cases hresult : x.result with
  | none =>
    rw [bind_none hresult]
    exact ⟨hx.orderly, nofun⟩
  | some a =>
    have hrest := hf a _ hresult (hx.returns a hresult)
    rw [bind_some hresult]
    refine ⟨hx.orderly.append hrest.orderly, fun b hb => ?_⟩
    rw [LockOp.run_append]
    exact hrest.returns b hb

theorem bind (hx : Spec held x post) (hf : ∀ a held', post a held' → Spec held' (f a) post') :
    Spec held (x >>= f) post' :=
  hx.bind_result fun a held' _ => hf a held'

theorem bind_keeps (hx : Keeps held x) (hf : ∀ a, x.result = some a → Spec held (f a) post') :
    Spec held (x >>= f) post' :=
  hx.bind_result fun a _ ha heq => heq ▸ hf a ha

theorem lift {o : Option α} : Keeps held (liftM o : Locking L α) := ⟨trivial, fun _ _ => rfl⟩

theorem bind_lift {o : Option α} (h : ∀ a, o = some a → Spec held (f a) post') :
    Spec held (liftM o >>= f) post' :=
  bind_keeps lift h

theorem unlock {l : L} {post : Unit → Held L → Prop} (hheld : l ∈ held.locks)
    (h : post () (held.eraseP fun k => k.1 == l)) : Spec held (unlock l) post :=
  ⟨⟨hheld, trivial⟩, fun _ _ => h⟩

theorem bind_unlock {l : L} {f : Unit → Locking L β} (hheld : l ∈ held.locks)
    (h : Spec (held.eraseP fun k => k.1 == l) (f ()) post') :
    Spec held (Locking.unlock l >>= f) post' :=
  ⟨⟨hheld, h.orderly⟩, h.returns⟩

theorem bind_lock {l : L} {mode : LockMode} {f : Unit → Locking L β}
    (hbelow : ∀ k ∈ held.locks, k < l) (h : Spec ((l, mode) :: held) (f ()) post') :
    Spec held (lock l mode >>= f) post' :=
  ⟨⟨hbelow, h.orderly⟩, h.returns⟩

theorem section_keeps {l : L} {mode : LockMode} (hbelow : ∀ k ∈ held.locks, k < l) :
    Keeps held (lock l mode >>= fun _ => Locking.unlock l) := by
  refine bind_lock hbelow (unlock List.mem_cons_self ?_)
  exact List.eraseP_cons_of_pos (beq_self_eq_true l)

theorem forM {xs : List α} {f : α → Locking L PUnit} (h : ∀ a ∈ xs, Keeps held (f a)) :
    Keeps held (xs.forM f) := by
  induction xs with
  | nil => exact pure rfl
  | cons a xs ih =>
    refine bind_keeps (h a List.mem_cons_self) fun _ _ => ?_
    exact ih fun b hb => h b (List.mem_cons_of_mem a hb)

end Spec

/-- Code returns, and what is held then. -/
structure Leads (held : Held L) (x : Locking L α) (a : α) (held' : Held L) : Prop where
  result : x.result = some a
  run : LockOp.run held x.ops = held'

namespace Leads
variable {held held' held'' : Held L} {x : Locking L α} {f : α → Locking L β} {a : α} {b : β}

theorem bind (hx : Leads held x a held') (hf : Leads held' (f a) b held'') :
    Leads held (x >>= f) b held'' := by
  rw [bind_some hx.result]
  refine ⟨hf.result, ?_⟩
  rw [LockOp.run_append, hx.run]
  exact hf.run

theorem bind_lift {o : Option α} (h : o = some a) (hf : Leads held (f a) b held') :
    Leads held (liftM o >>= f) b held' := by
  have hlift : Leads held (liftM o : Locking L α) a held := ⟨h, rfl⟩
  exact hlift.bind hf

theorem bind_lock {l : L} {mode : LockMode} {f : Unit → Locking L β}
    (hf : Leads ((l, mode) :: held) (f ()) b held') : Leads held (lock l mode >>= f) b held' :=
  ⟨hf.result, hf.run⟩

theorem bind_unlock {l : L} {f : Unit → Locking L β}
    (hf : Leads (held.eraseP fun k => k.1 == l) (f ()) b held') :
    Leads held (unlock l >>= f) b held' :=
  ⟨hf.result, hf.run⟩

theorem not_disciplined [LT L] {k : L × LockMode} (h : Leads [] x a (k :: held)) :
    ¬ x.Disciplined := by
  intro hdisc
  have hnil := hdisc.returns (by rw [h.result]; rfl)
  rw [h.run] at hnil
  cases hnil

end Leads

theorem Spec.leads [LT L] {held held' : Held L} {x : Locking L α} {a : α}
    (h : Spec held x fun _ held'' => held'' = held') (hresult : x.result = some a) :
    Leads held x a held' :=
  ⟨hresult, h.returns a hresult⟩

end Locking

/-- What each thread holds, and what it still does. -/
structure Threads (T L : Type) where
  held : T → Held L
  rest : T → List (LockOp L)

namespace Threads
variable {T L : Type}

def start (code : T → List (LockOp L)) : Threads T L := ⟨fun _ => [], code⟩

/-- There is one writer, or there are readers. -/
def Ready (st : Threads T L) : LockOp L → Prop
  | .lock l mode => ∀ u mode', (l, mode') ∈ st.held u → mode = .rd ∧ mode' = .rd
  | .unlock _ => True

def Wants (st : Threads T L) (t : T) (l : L) : Prop :=
  ∃ mode ops, st.rest t = .lock l mode :: ops

/-- A thread is about to take a lock that another holds, or that it holds itself. In which mode does
not matter. -/
def Waits (st : Threads T L) (t u : T) : Prop := ∃ l, st.Wants t l ∧ l ∈ (st.held u).locks

/-- Some threads wait for each other, or one for itself. -/
def Deadlocked (st : Threads T L) : Prop := ∃ t, Relation.TransGen st.Waits t t

theorem Wants.unique {st : Threads T L} {t : T} {l l' : L} (h : st.Wants t l)
    (h' : st.Wants t l') : l = l' := by
  obtain ⟨mode, ops, hrest⟩ := h
  obtain ⟨mode', ops', hrest'⟩ := h'
  have heq := hrest.symm.trans hrest'
  cases heq
  rfl

variable [DecidableEq L]

/-- What each thread still does is in order. -/
def InOrder [LT L] (st : Threads T L) : Prop := ∀ t, LockOp.Orderly (st.held t) (st.rest t)

/-- Each thread will in the end have given back all that it holds. -/
def Balanced (st : Threads T L) : Prop := ∀ t, LockOp.run (st.held t) (st.rest t) = []

theorem InOrder.held_lt [LT L] {st : Threads T L} (h : st.InOrder) {t : T} {l : L}
    (hwants : st.Wants t l) : ∀ k ∈ (st.held t).locks, k < l := by
  obtain ⟨mode, ops, hrest⟩ := hwants
  have ht := h t
  rw [hrest] at ht
  exact ht.1

theorem InOrder.wants_lt [Preorder L] {st : Threads T L} (h : st.InOrder) {t u : T}
    (hwaits : Relation.TransGen st.Waits t u) {l : L} (hwants : st.Wants u l) :
    ∃ k, st.Wants t k ∧ k < l := by
  induction hwaits using Relation.TransGen.head_induction_on with
  | single hstep =>
    obtain ⟨k, hk, hheld⟩ := hstep
    exact ⟨k, hk, h.held_lt hwants k hheld⟩
  | head hstep _ ih =>
    obtain ⟨k, hk, hheld⟩ := hstep
    obtain ⟨k', hk', hlt⟩ := ih
    exact ⟨k, hk, (h.held_lt hk' k hheld).trans hlt⟩

theorem InOrder.not_deadlocked [Preorder L] {st : Threads T L} (h : st.InOrder) :
    ¬ st.Deadlocked := by
  rintro ⟨t, hcycle⟩
  obtain ⟨u, ⟨l, hwants, -⟩, -⟩ := Relation.TransGen.head'_iff.mp hcycle
  obtain ⟨k, hk, hlt⟩ := h.wants_lt hcycle hwants
  rw [hk.unique hwants] at hlt
  exact lt_irrefl l hlt

theorem Balanced.busy_of_held {st : Threads T L} (h : st.Balanced) {t : T} {l : L}
    (hheld : l ∈ (st.held t).locks) : st.rest t ≠ [] := by
  intro hdone
  have ht := h t
  rw [hdone, LockOp.run_nil] at ht
  rw [ht] at hheld
  cases hheld

variable [DecidableEq T]

def advance (st : Threads T L) (t : T) (op : LockOp L) (ops : List (LockOp L)) : Threads T L :=
  ⟨Function.update st.held t (op.apply (st.held t)), Function.update st.rest t ops⟩

inductive Step (st : Threads T L) : Threads T L → Prop
  | go {t : T} {op : LockOp L} {ops : List (LockOp L)} (hrest : st.rest t = op :: ops)
      (hready : st.Ready op) : Step st (st.advance t op ops)

def Reach (code : T → List (LockOp L)) (st : Threads T L) : Prop :=
  Relation.ReflTransGen Step (start code) st

/-- What holds of a thread before its next operation and after it, whatever it still does. -/
theorem Step.forall (P : Held L → List (LockOp L) → Prop)
    (hP : ∀ held op ops, P held (op :: ops) → P (op.apply held) ops) {st st' : Threads T L}
    (hstep : Step st st') (h : ∀ t, P (st.held t) (st.rest t)) :
    ∀ t, P (st'.held t) (st'.rest t) := by
  obtain ⟨hrest, -⟩ := hstep
  rename_i t op ops
  intro u
  have hu := h u
  by_cases heq : u = t
  · subst heq
    rw [hrest] at hu
    simp only [advance, Function.update_self]
    exact hP _ _ _ hu
  · simp only [advance, Function.update_of_ne heq]
    exact hu

theorem InOrder.reach [LT L] {code : T → List (LockOp L)} {st : Threads T L}
    (hcode : ∀ t, LockOp.Orderly [] (code t)) (hreach : Reach code st) : st.InOrder := by
  induction hreach with
  | refl => exact hcode
  | tail _ hstep ih => exact hstep.forall LockOp.Orderly (fun _ _ _ h => h.2) ih

theorem Balanced.reach {code : T → List (LockOp L)} {st : Threads T L}
    (hcode : ∀ t, LockOp.run [] (code t) = []) (hreach : Reach code st) : st.Balanced := by
  induction hreach with
  | refl => exact hcode
  | tail _ hstep ih =>
    exact hstep.forall (fun held ops => LockOp.run held ops = []) (fun _ _ _ h => h) ih

/-- A thread that has something left to do can go on, or wants a lock. -/
theorem step_or_wants {st : Threads T L} {t : T} (hbusy : st.rest t ≠ []) :
    (∃ st', Step st st') ∨ ∃ l, st.Wants t l := by
  cases hnext : st.rest t with
  | nil => exact absurd hnext hbusy
  | cons op ops =>
    cases op with
    | unlock k => exact .inl ⟨_, .go hnext trivial⟩
    | lock l mode => exact .inr ⟨l, mode, ops, hnext⟩

/-- While some thread is not done, some thread can go on. By induction on what a thread wants,
downwards: nobody holds it, or who holds it can go on or wants something above. -/
theorem exists_step [Preorder L] (hwf : WellFounded fun k l : L => l < k) {st : Threads T L}
    (hinOrder : st.InOrder) (hbalanced : st.Balanced) {t : T} (hbusy : st.rest t ≠ []) :
    ∃ st', Step st st' := by
  have of_wants : ∀ l t, st.Wants t l → ∃ st', Step st st' := by
    intro l
    induction l using hwf.induction with
    | _ l ih =>
      intro t ⟨mode, ops, hrest⟩
      by_cases hfree : ∀ u, l ∉ (st.held u).locks
      · refine ⟨_, .go hrest fun u mode' hmem => ?_⟩
        exact absurd (List.mem_map_of_mem hmem) (hfree u)
      · obtain ⟨u, hheld⟩ := not_forall_not.mp hfree
        rcases step_or_wants (hbalanced.busy_of_held hheld) with hstep | ⟨k, hwants⟩
        · exact hstep
        · exact ih k (hinOrder.held_lt hwants l hheld) u hwants
  rcases step_or_wants hbusy with hstep | ⟨l, hwants⟩
  · exact hstep
  · exact of_wants l t hwants

end Threads
end Osnt.Lib
