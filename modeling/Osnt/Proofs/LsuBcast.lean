import Mathlib.Data.List.Basic
import Osnt.Scone.LsuBcast

namespace Osnt.Scone.LsuBcast

/-- The thread waits and no signal is to come, but there are packets on the queue. -/
structure Stranded (st : State) : Prop where
  waits : st.place = .waiting
  signalled : st.unsignalled = []
  queued : st.pwospfLsuQueue ≠ []

/-- The thread is on its way to take the queue. -/
def Place.takesNext : Place → Bool
  | .woken | .lockedQueue => true
  | _ => false

/-- A signal does its work: the thread waits for it or will take the queue anyway, or there is
nothing on the queue, or another producer has still to signal. -/
def Heard (st : State) (k : Nat) : Prop :=
  st.pwospfLsuQueue = [] ∨ st.place = .waiting ∨ st.place.takesNext = true ∨
    st.unsignalled.filter (· != k) ≠ []

instance (st : State) (k : Nat) : Decidable (Heard st k) :=
  inferInstanceAs (Decidable (_ ∨ _ ∨ _ ∨ _))

/-- The producer that signals. -/
def Action.signaller : Action → Option Nat
  | .signal k => some k
  | _ => none

/-- All the signals of a run do their work. -/
def AllHeard : State → List Action → Prop
  | _, [] => True
  | st, a :: actions =>
    (∀ k ∈ a.signaller, Heard st k) ∧ ∀ st' ∈ step st a, AllHeard st' actions

instance decidableAllHeard : ∀ (st : State) (actions : List Action), Decidable (AllHeard st actions)
  | _, [] => .isTrue trivial
  | st, a :: actions =>
    have := fun st' => decidableAllHeard st' actions
    inferInstanceAs (Decidable
      ((∀ k ∈ a.signaller, Heard st k) ∧ ∀ st' ∈ step st a, AllHeard st' actions))

/-- The packets on the queue are waited for. -/
def Inv (st : State) : Prop :=
  st.pwospfLsuQueue = [] ∨ st.place.takesNext = true ∨ st.unsignalled ≠ []

/-- A step that neither enqueues nor signals takes the queue or keeps it, and a thread on its way to
take it remains so. -/
theorem step_own {st st' : State} {a : Action} (h : step st a = some st')
    (ha : ∀ k, a ≠ .signal k) (ha' : ∀ k lqe, a ≠ .enqueue k lqe) :
    st'.pwospfLsuQueue = [] ∨ (st'.pwospfLsuQueue = st.pwospfLsuQueue ∧
      st'.unsignalled = st.unsignalled ∧
        (st.place.takesNext = true → st'.place.takesNext = true)) := by
  cases a with
  | wait =>
    simp only [step] at h
    split at h
    · rename_i hplace
      cases h
      exact .inr ⟨rfl, rfl, fun hp => by rw [hplace] at hp; cases hp⟩
    · cases h
  | wakeSpuriously =>
    simp only [step] at h
    split at h
    · cases h
      exact .inr ⟨rfl, rfl, fun _ => rfl⟩
    · cases h
  | lockQueue =>
    simp only [step] at h
    split at h
    · cases h
      exact .inr ⟨rfl, rfl, fun _ => rfl⟩
    · cases h
  | take =>
    simp only [step] at h
    split at h
    · cases h
      exact .inl rfl
    · cases h
  | unlockQueue =>
    simp only [step] at h
    split at h
    · rename_i hplace
      cases h
      exact .inr ⟨rfl, rfl, fun hp => by rw [hplace] at hp; cases hp⟩
    · cases h
  | send =>
    simp only [step] at h
    split at h
    · rename_i hplace
      cases h
      exact .inr ⟨rfl, rfl, fun hp => by rw [hplace] at hp; cases hp⟩
    · cases h
  | loop =>
    simp only [step] at h
    split at h
    · rename_i hplace
      cases h
      exact .inr ⟨rfl, rfl, fun hp => by rw [hplace] at hp; cases hp⟩
    · cases h
  | lockQueueFor k =>
    simp only [step] at h
    split at h
    · cases h
      exact .inr ⟨rfl, rfl, id⟩
    · cases h
  | enqueue k lqe => exact absurd rfl (ha' k lqe)
  | unlockQueueFor k =>
    simp only [step] at h
    split at h
    · cases h
      exact .inr ⟨rfl, rfl, id⟩
    · cases h
  | signal k => exact absurd rfl (ha k)

theorem step_signal {st st' : State} {k : Nat} (h : step st (.signal k) = some st') :
    st' = { st with
      place := if st.place = .waiting then .woken else st.place
      unsignalled := st.unsignalled.filter (· != k) } := by
  simp only [step] at h
  split at h
  · cases h
  · cases h
    rfl

theorem step_inv {st st' : State} {a : Action} (h : step st a = some st')
    (hheard : ∀ k ∈ a.signaller, Heard st k) (hinv : Inv st) : Inv st' := by
  by_cases hsignal : ∃ k, a = .signal k
  · obtain ⟨k, rfl⟩ := hsignal
    rw [step_signal h]
    rcases hheard k rfl with hnil | hwaits | htakes | hothers
    · exact .inl hnil
    · refine .inr (.inl ?_)
      simp only [hwaits, if_true]
      rfl
    · refine .inr (.inl ?_)
      have hnot : st.place ≠ .waiting := by
        intro hwaits
        rw [hwaits] at htakes
        cases htakes
      simp only [hnot, if_false]
      exact htakes
    · exact .inr (.inr hothers)
  · by_cases henqueue : ∃ k lqe, a = .enqueue k lqe
    · obtain ⟨k, lqe, rfl⟩ := henqueue
      simp only [step] at h
      split at h
      · cases h
        exact .inr (.inr (List.ne_nil_of_mem List.mem_insert_self))
      · cases h
    · rcases step_own h (fun k hk => hsignal ⟨k, hk⟩) (fun k lqe hk => henqueue ⟨k, lqe, hk⟩) with
        hnil | ⟨hqueue, hunsignalled, htakes⟩
      · exact .inl hnil
      · unfold Inv
        rw [hqueue, hunsignalled]
        exact hinv.imp id (Or.imp htakes id)

theorem run_cons (st : State) (a : Action) (actions : List Action) :
    run st (a :: actions) = (step st a).bind fun st' => run st' actions := rfl

theorem run_inv {actions : List Action} {st st' : State} (hrun : run st actions = some st')
    (hheard : AllHeard st actions) (hinv : Inv st) : Inv st' := by
  induction actions generalizing st with
  | nil =>
    cases hrun
    exact hinv
  | cons a actions ih =>
    rw [run_cons, Option.bind_eq_some_iff] at hrun
    obtain ⟨st₁, hstep, hrest⟩ := hrun
    exact ih hrest (hheard.2 st₁ hstep) (step_inv hstep hheard.1 hinv)

theorem Inv.not_stranded {st : State} (h : Inv st) : ¬ Stranded st := by
  intro hstranded
  rcases h with hnil | htakes | hunsignalled
  · exact hstranded.queued hnil
  · rw [hstranded.waits] at htakes
    cases htakes
  · exact hunsignalled hstranded.signalled

/-- The thread's own steps, without a spurious wake-up. -/
def Action.own : Action → Bool
  | .wait | .lockQueue | .take | .unlockQueue | .send | .loop => true
  | _ => false

theorem sends_and_waits (lsuQueue : List LsuQueueEntry) (st : State)
    (h : st.place = .sending lsuQueue) :
    ∃ own, (∀ a ∈ own, a.own = true) ∧ run st own = some { st with place := .waiting } := by
  induction lsuQueue generalizing st with
  | nil =>
    refine ⟨[.loop, .wait], by decide, ?_⟩
    rw [run_cons, show step st .loop = some { st with place := .starting } by
      simp only [step, h]]
    rfl
  | cons lqe lsuQueue ih =>
    obtain ⟨own, hown, hrun⟩ := ih { st with place := .sending lsuQueue } rfl
    refine ⟨.send :: own, fun a ha => ?_, ?_⟩
    · rcases List.mem_cons.mp ha with rfl | ha
      · rfl
      · exact hown a ha
    · rw [run_cons, show step st .send = some { st with place := .sending lsuQueue } by
        simp only [step, h]]
      exact hrun

/-- From behind the taking of the queue the thread goes on to wait, and leaves the queue. -/
theorem goes_on_to_wait {st : State} (hwaits : st.place ≠ .waiting)
    (htakes : st.place.takesNext ≠ true) :
    ∃ own st', (∀ a ∈ own, a.own = true) ∧ run st own = some st' ∧ st'.place = .waiting ∧
      st'.pwospfLsuQueue = st.pwospfLsuQueue ∧ st'.unsignalled = st.unsignalled := by
  cases hplace : st.place with
  | starting =>
    refine ⟨[.wait], { st with place := .waiting }, by decide, ?_, rfl, rfl, rfl⟩
    rw [run_cons, show step st .wait = some { st with place := .waiting } by
      simp only [step, hplace]]
    rfl
  | waiting => exact absurd hplace hwaits
  | woken =>
    rw [hplace] at htakes
    exact absurd rfl htakes
  | lockedQueue =>
    rw [hplace] at htakes
    exact absurd rfl htakes
  | taken lsuQueue =>
    obtain ⟨own, hown, hrun⟩ := sends_and_waits lsuQueue
      { st with place := .sending lsuQueue, queueLock := none } rfl
    refine ⟨.unlockQueue :: own, { st with place := .waiting, queueLock := none },
      fun a ha => ?_, ?_, rfl, rfl, rfl⟩
    · rcases List.mem_cons.mp ha with rfl | ha
      · rfl
      · exact hown a ha
    · rw [run_cons, show step st .unlockQueue =
          some { st with place := .sending lsuQueue, queueLock := none } by
        simp only [step, hplace]]
      exact hrun
  | sending lsuQueue =>
    obtain ⟨own, hown, hrun⟩ := sends_and_waits lsuQueue st hplace
    exact ⟨own, { st with place := .waiting }, hown, hrun, rfl, rfl, rfl⟩

theorem stranded_of_unheard {st st' : State} {k : Nat} (hstep : step st (.signal k) = some st')
    (hunheard : ¬ Heard st k) :
    ∃ own st'', (∀ a ∈ own, a.own = true) ∧ run st' own = some st'' ∧ Stranded st'' := by
  unfold Heard at hunheard
  simp only [not_or, not_not] at hunheard
  obtain ⟨hqueue, hwaits, htakes, hothers⟩ := hunheard
  have hplace : st'.place = st.place := by
    rw [step_signal hstep]
    exact if_neg hwaits
  have hunsignalled : st'.unsignalled = [] := by
    rw [step_signal hstep]
    exact hothers
  have hsame : st'.pwospfLsuQueue = st.pwospfLsuQueue := by
    rw [step_signal hstep]
  obtain ⟨own, st'', hown, hrun, hwaits', hqueue', hunsignalled'⟩ :=
    goes_on_to_wait (hplace.symm ▸ hwaits) (hplace.symm ▸ htakes)
  refine ⟨own, st'', hown, hrun, hwaits', hunsignalled'.trans hunsignalled, ?_⟩
  rw [hqueue', hsame]
  exact hqueue

/-- In every run in which all signals are heard, no LSU is stranded. The first signal that is not
heard is enough: the thread itself then goes on to wait with an LSU on the queue. -/
theorem no_lsu_stranded {actions : List Action} {st : State} (hrun : run start actions = some st)
    (hheard : AllHeard start actions) :
    ¬ Stranded st ∧ ∀ k st', step st (.signal k) = some st' → ¬ Heard st k →
      ∃ own st'', (∀ a ∈ own, a.own = true) ∧ run st' own = some st'' ∧ Stranded st'' :=
  ⟨(run_inv hrun hheard (.inl rfl)).not_stranded,
    fun _ _ hstep hunheard => stranded_of_unheard hstep hunheard⟩

def someEntry : LsuQueueEntry := ⟨0x0100000a, "eth0", []⟩

/-- A producer signals while the thread waits, and the thread sends its packet. -/
def oneSent : List Action :=
  [.wait, .lockQueueFor 0, .enqueue 0 someEntry, .unlockQueueFor 0, .signal 0, .lockQueue, .take,
    .unlockQueue, .send, .loop, .wait]

theorem one_lsu_sent : run start oneSent = some ⟨.waiting, [], none, []⟩ ∧
    ¬ Stranded ⟨.waiting, [], none, []⟩ := by
  have hrun : run start oneSent = some ⟨.waiting, [], none, []⟩ := by decide
  have hheard : AllHeard start oneSent := by decide
  exact ⟨hrun, (no_lsu_stranded hrun hheard).1⟩

/-- A second producer signals while the thread sends. -/
def oneLost : List Action :=
  [.wait, .lockQueueFor 0, .enqueue 0 someEntry, .unlockQueueFor 0, .signal 0, .lockQueue, .take,
    .unlockQueue, .lockQueueFor 1, .enqueue 1 someEntry, .unlockQueueFor 1, .signal 1, .send, .loop,
    .wait]

theorem second_lsu_stranded : ∃ st, run start oneLost = some st ∧ Stranded st :=
  ⟨⟨.waiting, [someEntry], none, []⟩, by decide, rfl, rfl, by decide⟩

end Osnt.Scone.LsuBcast
