import Osnt.Scone.Sping

/-! When a ping gets its reply. A thread looks at the queue only when it is woken, so it misses a
reply that is there when it begins to wait, unless something else wakes it in time. -/
namespace Osnt.Scone.Sping
open Lib Lib.Buffer

/-- One entry is gone, the first with the identifier; the others stay in order. -/
def Removes (id : BitVec 16) (queue queue' : List SpingQueueEntry) : Prop :=
  ∃ (before after : List SpingQueueEntry) (se : SpingQueueEntry),
    queue = before ++ se :: after ∧ se.id = id ∧ (∀ other ∈ before, other.id ≠ id) ∧
      queue' = before ++ after

theorem spingWalker_eq_none_iff {id : BitVec 16} {queue : List SpingQueueEntry} :
    spingWalker id queue = none ↔ ∀ se ∈ queue, se.id ≠ id := by
  induction queue with
  | nil => simp [spingWalker]
  | cons se next ih =>
    unfold spingWalker
    split
    · rename_i hid
      exact iff_of_false nofun fun h => h se (List.mem_cons_self ..) hid
    · rename_i hid
      rw [Option.map_eq_none_iff, ih, List.forall_mem_cons]
      exact (and_iff_right hid).symm

theorem removes_of_spingWalker {id : BitVec 16} {queue queue' : List SpingQueueEntry}
    (h : spingWalker id queue = some queue') : Removes id queue queue' := by
  induction queue generalizing queue' with
  | nil => cases h
  | cons se next ih =>
    unfold spingWalker at h
    split at h
    · rename_i hid
      obtain rfl := Option.some.inj h
      exact ⟨[], next, se, rfl, hid, fun _ h => absurd h List.not_mem_nil, rfl⟩
    · rename_i hid
      obtain ⟨rest, hrest, rfl⟩ := Option.map_eq_some_iff.mp h
      obtain ⟨before, after, found, rfl, hfound, hbefore, rfl⟩ := ih hrest
      refine ⟨se :: before, after, found, rfl, hfound, ?_, rfl⟩
      exact List.forall_mem_cons.mpr ⟨hid, hbefore⟩

theorem Removes.mem {id : BitVec 16} {queue queue' : List SpingQueueEntry}
    (h : Removes id queue queue') {se : SpingQueueEntry} (hse : se ∈ queue') : se ∈ queue := by
  obtain ⟨before, after, found, rfl, -, -, rfl⟩ := h
  rcases List.mem_append.mp hse with hse | hse
  · exact List.mem_append_left _ hse
  · exact List.mem_append_right _ (List.mem_cons_of_mem _ hse)

theorem Removes.mem_of_ne {id : BitVec 16} {queue queue' : List SpingQueueEntry}
    (h : Removes id queue queue') {se : SpingQueueEntry} (hse : se ∈ queue) (hid : se.id ≠ id) :
    se ∈ queue' := by
  obtain ⟨before, after, found, rfl, hfound, -, rfl⟩ := h
  rcases List.mem_append.mp hse with hse | hse
  · exact List.mem_append_left _ hse
  · rcases List.mem_cons.mp hse with rfl | hse
    · exact absurd hfound hid
    · exact List.mem_append_right _ hse

theorem Removes.ne {id : BitVec 16} {queue : List SpingQueueEntry} : ¬ Removes id queue queue := by
  rintro ⟨before, after, found, heq, -, -, hsame⟩
  have hlen := congrArg List.length (heq.symm.trans hsame)
  simp at hlen

def Waiter.Open (wt : Waiter) : Prop := ∀ response, wt.phase ≠ .returned response

/-- The identifier and the deadline of a call stay. -/
def Waiter.Same (wt wt' : Waiter) : Prop := wt'.id = wt.id ∧ wt'.wakeUp = wt.wakeUp

section
variable {wt : Waiter} {queue queue' : List SpingQueueEntry}

theorem Waiter.loop_zero (queue : List SpingQueueEntry) (wt : Waiter) :
    wt.loop queue .zero = { wt with phase := .waiting (wt.hasReply queue) } := by
  unfold Waiter.loop
  rw [if_pos]
  simp

/-- A thread that goes on finds its reply and returns 0, or leaves the queue as it is: it has timed
out, or there is no reply and it waits again. -/
inductive Resumes (queue : List SpingQueueEntry) (wt : Waiter) :
    List SpingQueueEntry → Waiter → Prop
  | found {queue' : List SpingQueueEntry} (phase : wt.phase = .woken .zero)
    (removes : Removes wt.id queue queue') :
    Resumes queue wt queue' { wt with phase := .returned 0 }
  | again (phase : wt.phase = .woken .zero) (missing : ∀ se ∈ queue, se.id ≠ wt.id) :
    Resumes queue wt queue { wt with phase := .waiting (wt.hasReply queue) }
  | late (phase : wt.phase = .woken .etimedout) :
    Resumes queue wt queue { wt with phase := .returned 1 }
  | idle (phase : ∀ ret, wt.phase ≠ .woken ret) : Resumes queue wt queue wt

theorem Waiter.resumes (queue : List SpingQueueEntry) (wt : Waiter) :
    Resumes queue wt (wt.resume queue).1 (wt.resume queue).2 := by
  unfold Waiter.resume
  split
  · rename_i hphase
    exact .late hphase
  · rename_i hphase
    split
    · rename_i rest hwalk
      exact .found hphase (removes_of_spingWalker hwalk)
    · rename_i hwalk
      rw [Waiter.loop_zero]
      exact .again hphase (spingWalker_eq_none_iff.mp hwalk)
  · rename_i hlate hzero
    refine .idle fun ret => ?_
    cases ret with
    | zero => exact hzero
    | etimedout => exact hlate

end

/-- What an event makes of the thread at a position. -/
def Event.after (s : State) (v : Nat) (wt : Waiter) : Event → Waiter
  | .call _ => wt
  | .lock w => if w = v then wt.lock s.spingQueue else wt
  | .reply _ _ => wt.wake
  | .wake w => if w = v then wt.wake else wt
  | .timeout w => if w = v then wt.timeout s.now else wt
  | .resume w => if w = v then (wt.resume s.spingQueue).2 else wt
  | .tick _ => wt

/-- What an event may make of the thread at a position. -/
inductive Steps (s : State) (v : Nat) (wt : Waiter) : Event → Waiter → Prop
  | locks (phase : wt.phase = .called) :
    Steps s v wt (.lock v) { wt with phase := .waiting (wt.hasReply s.spingQueue) }
  | wakes {e : Event} (late : Bool) (phase : wt.phase = .waiting late) :
    Steps s v wt e { wt with phase := .woken .zero }
  | timesOut (late : Bool) (phase : wt.phase = .waiting late) (passed : wt.wakeUp ≤ s.now) :
    Steps s v wt (.timeout v) { wt with phase := .woken .etimedout }
  | finds (phase : wt.phase = .woken .zero) :
    Steps s v wt (.resume v) { wt with phase := .returned 0 }
  | waits (phase : wt.phase = .woken .zero) (missing : ∀ se ∈ s.spingQueue, se.id ≠ wt.id) :
    Steps s v wt (.resume v) { wt with phase := .waiting (wt.hasReply s.spingQueue) }
  | givesUp (phase : wt.phase = .woken .etimedout) :
    Steps s v wt (.resume v) { wt with phase := .returned 1 }
  | stays {e : Event} (silent : ∀ packet whole, e = .reply packet whole →
      ∀ late, wt.phase ≠ .waiting late) : Steps s v wt e wt

theorem Steps.idle {s : State} {v : Nat} {wt : Waiter} {e : Event}
    (h : ∀ packet whole, e ≠ .reply packet whole) : Steps s v wt e wt :=
  .stays fun packet whole he => absurd he (h packet whole)

theorem Event.steps (s : State) (v : Nat) (wt : Waiter) (e : Event) :
    Steps s v wt e (e.after s v wt) := by
  cases e with
  | call id => exact .idle nofun
  | lock w =>
    unfold Event.after Waiter.lock
    dsimp only
    split
    · rename_i hw
      subst hw
      split
      · rename_i hphase
        rw [Waiter.loop_zero]
        exact .locks hphase
      · exact .idle nofun
    · exact .idle nofun
  | reply packet whole =>
    unfold Event.after Waiter.wake
    dsimp only
    split
    · rename_i late hphase
      exact .wakes late hphase
    · rename_i hphase
      exact .stays fun _ _ _ => hphase
  | wake w =>
    unfold Event.after Waiter.wake
    dsimp only
    split
    · split
      · rename_i late hphase
        exact .wakes late hphase
      · exact .idle nofun
    · exact .idle nofun
  | timeout w =>
    unfold Event.after Waiter.timeout
    dsimp only
    split
    · rename_i hw
      subst hw
      split
      · rename_i late hphase
        split
        · rename_i hpassed
          exact .timesOut late hphase hpassed
        · exact .idle nofun
      · exact .idle nofun
    · exact .idle nofun
  | resume w =>
    unfold Event.after
    dsimp only
    split
    · rename_i hw
      subst hw
      have hresumes := wt.resumes s.spingQueue
      generalize wt.resume s.spingQueue = answer at *
      obtain ⟨queue, wt'⟩ := answer
      cases hresumes with
      | found phase removes => exact .finds phase
      | again phase missing => exact .waits phase missing
      | late phase => exact .givesUp phase
      | idle phase => exact .idle nofun
    · exact .idle nofun
  | tick time => exact .idle nofun

theorem Steps.same {s : State} {v : Nat} {wt wt' : Waiter} {e : Event}
    (h : Steps s v wt e wt') : wt.Same wt' := by
  cases h <;> exact ⟨rfl, rfl⟩

theorem getElem?_modify_some {α : Type} {l : List α} {v : Nat} {x : α} (f : α → α) (w : Nat)
    (h : l[v]? = some x) : (l.modify w f)[v]? = some (if w = v then f x else x) := by
  rw [List.getElem?_modify, h]
  rfl

section
variable {s : State} {e : Event} {v w : Nat} {wt : Waiter}

theorem step_waiter (h : s.waiters[v]? = some wt) (e : Event) :
    (step s e).waiters[v]? = some (e.after s v wt) := by
  cases e with
  | call id => exact List.getElem?_append_left (List.getElem?_eq_some_iff.mp h).1 |>.trans h
  | lock w => exact getElem?_modify_some _ w h
  | reply packet whole =>
    change (s.waiters.map Waiter.wake)[v]? = _
    rw [List.getElem?_map, h]
    rfl
  | wake w => exact getElem?_modify_some _ w h
  | timeout w => exact getElem?_modify_some _ w h
  | resume w =>
    unfold step Event.after
    dsimp only
    split
    · rename_i wt' hwt'
      dsimp only
      rcases eq_or_ne w v with rfl | hne
      · obtain rfl : wt' = wt := Option.some.inj (hwt'.symm.trans h)
        rw [if_pos rfl]
        exact List.getElem?_set_self (List.getElem?_eq_some_iff.mp h).1
      · rw [if_neg hne, List.getElem?_set_ne hne, h]
    · rename_i hnone
      rw [if_neg, h]
      rintro rfl
      rw [hnone] at h
      cases h
  | tick time => exact h

theorem waiter_before {wt' : Waiter} (h : (step s e).waiters[v]? = some wt') :
    (∃ wt, s.waiters[v]? = some wt ∧ wt' = e.after s v wt) ∨
      ∃ id, e = .call id ∧ wt' = ⟨id, wakeUp s.now, .called⟩ := by
  cases hwt : s.waiters[v]? with
  | some wt => exact .inl ⟨wt, rfl, Option.some.inj (h.symm.trans (step_waiter hwt e))⟩
  | none =>
    have hlen := List.getElem?_eq_none_iff.mp hwt
    have hv := (List.getElem?_eq_some_iff.mp h).1
    cases e with
    | call id =>
      refine .inr ⟨id, rfl, ?_⟩
      have hv : v < (s.waiters ++ [(⟨id, wakeUp s.now, .called⟩ : Waiter)]).length := hv
      rw [List.length_append, List.length_singleton] at hv
      obtain rfl : v = s.waiters.length := by omega
      exact Option.some.inj (h.symm.trans List.getElem?_concat_length)
    | lock w => exact absurd hv (Nat.not_lt.mpr ((List.length_modify ..).trans_le hlen))
    | reply packet whole => exact absurd hv (Nat.not_lt.mpr (List.length_map _ |>.trans_le hlen))
    | wake w => exact absurd hv (Nat.not_lt.mpr ((List.length_modify ..).trans_le hlen))
    | timeout w => exact absurd hv (Nat.not_lt.mpr ((List.length_modify ..).trans_le hlen))
    | resume w =>
      unfold step at hv
      dsimp only at hv
      split at hv
      · exact absurd hv (Nat.not_lt.mpr (List.length_set.trans_le hlen))
      · exact absurd hv (Nat.not_lt.mpr hlen)
    | tick time => exact absurd hv (Nat.not_lt.mpr hlen)

theorem step_resume (h : s.waiters[w]? = some wt) :
    ∃ wt', (step s (.resume w)).waiters[w]? = some wt' ∧
      Resumes s.spingQueue wt (step s (.resume w)).spingQueue wt' := by
  refine ⟨(wt.resume s.spingQueue).2, ?_, ?_⟩
  · exact (step_waiter h _).trans (congrArg some (if_pos rfl))
  · have hqueue : (step s (.resume w)).spingQueue = (wt.resume s.spingQueue).1 := by
      unfold step
      dsimp only
      rw [h]
    exact hqueue ▸ wt.resumes s.spingQueue

/-- The queue grows by a reply, or shrinks by what a thread that goes on takes out. -/
theorem step_queue (s : State) (e : Event) :
    (step s e).spingQueue = s.spingQueue ∨
    (∃ (packet : Bytes) (whole : 40 ≤ packet.length), e = .reply packet whole ∧
      (step s e).spingQueue = s.spingQueue ++ [⟨packet, s.now, whole⟩]) ∨
    ∃ (w : Nat) (wt : Waiter), e = .resume w ∧ s.waiters[w]? = some wt ∧
      wt.phase = .woken .zero ∧ Removes wt.id s.spingQueue (step s e).spingQueue ∧
      (step s e).waiters[w]? = some { wt with phase := .returned 0 } := by
  cases e with
  | call id => exact .inl rfl
  | lock w => exact .inl rfl
  | reply packet whole => exact .inr (.inl ⟨packet, whole, rfl, rfl⟩)
  | wake w => exact .inl rfl
  | timeout w => exact .inl rfl
  | resume w =>
    cases hwt : s.waiters[w]? with
    | none =>
      refine .inl ?_
      unfold step
      dsimp only
      rw [hwt]
    | some wt =>
      obtain ⟨wt', hafter, hresumes⟩ := step_resume hwt
      generalize (step s (.resume w)).spingQueue = queue at *
      cases hresumes with
      | found phase removes => exact .inr (.inr ⟨w, wt, rfl, hwt, phase, removes, hafter⟩)
      | again phase missing => exact .inl rfl
      | late phase => exact .inl rfl
      | idle phase => exact .inl rfl
  | tick time => exact .inl rfl

end

/-- No call times out with a reply queued for it since before it began to wait. -/
def Heard (s : State) : Event → Prop
  | .timeout w => ∀ wt, s.waiters[w]? = some wt → wt.phase = .waiting true → s.now < wt.wakeUp
  | _ => True

/-- A reply that comes in time wakes the threads that wait, so one that is not late has none. -/
structure Sound (s : State) : Prop where
  arrived : ∀ se ∈ s.spingQueue, se.arrived ≤ s.now
  waiting : ∀ (v : Nat) (wt : Waiter), s.waiters[v]? = some wt → wt.phase = .waiting false →
    ∀ se ∈ s.spingQueue, se.id = wt.id → wt.wakeUp ≤ se.arrived
  timedOut : ∀ (v : Nat) (wt : Waiter), s.waiters[v]? = some wt → wt.phase = .woken .etimedout →
    wt.wakeUp ≤ s.now

theorem sound_start (now : Nat) : Sound (start now) where
  arrived := fun _ h => absurd h List.not_mem_nil
  waiting := fun _ _ h => by cases h
  timedOut := fun _ _ h => by cases h

section
variable {s : State} {e : Event} {v w : Nat} {wt : Waiter}

theorem hasReply_eq_false {queue : List SpingQueueEntry} (h : wt.hasReply queue = false) :
    ∀ se ∈ queue, se.id = wt.id → wt.wakeUp ≤ se.arrived := by
  intro se hse hid
  have hnot := List.any_eq_false.mp h se hse
  simpa [hid] using hnot

theorem now_le_step (s : State) (e : Event) : s.now ≤ (step s e).now := by
  cases e with
  | resume w =>
    unfold step
    dsimp only
    split
    · exact Nat.le_refl _
    · exact Nat.le_refl _
  | tick time => exact Nat.le_add_right ..
  | _ => exact Nat.le_refl _

theorem Sound.arrived_step (h : Sound s) (e : Event) :
    ∀ se ∈ (step s e).spingQueue, se.arrived ≤ (step s e).now := by
  intro se hse
  refine Nat.le_trans ?_ (now_le_step s e)
  rcases step_queue s e with hsame | ⟨packet, whole, -, hadd⟩ | ⟨w, wt, -, -, -, hremoves, -⟩
  · exact h.arrived se (hsame ▸ hse)
  · rw [hadd] at hse
    rcases List.mem_append.mp hse with hse | hse
    · exact h.arrived se hse
    · obtain rfl := List.mem_singleton.mp hse
      exact Nat.le_refl _
  · exact h.arrived se (hremoves.mem hse)

theorem Sound.waiting_step (h : Sound s) {wt' : Waiter}
    (hwt : (step s e).waiters[v]? = some wt') (hwait : wt'.phase = .waiting false) :
    ∀ se ∈ (step s e).spingQueue, se.id = wt'.id → wt'.wakeUp ≤ se.arrived := by
  rcases waiter_before hwt with ⟨wt, hbefore, rfl⟩ | ⟨id, -, rfl⟩
  · have hsteps := e.steps s v wt
    generalize e.after s v wt = wt' at *
    obtain ⟨hid, hwake⟩ := hsteps.same
    have hold : (∀ packet whole, e ≠ .reply packet whole) ∧
        ∀ se ∈ s.spingQueue, se.id = wt.id → wt.wakeUp ≤ se.arrived := by
      cases hsteps with
      | locks phase => exact ⟨nofun, hasReply_eq_false (Phase.waiting.inj hwait)⟩
      | waits phase missing => exact ⟨nofun, fun se hse hid => absurd hid (missing se hse)⟩
      | stays silent =>
        refine ⟨fun packet whole he => silent packet whole he false hwait, ?_⟩
        exact h.waiting v wt hbefore hwait
      | _ => cases hwait
    rw [hid, hwake]
    intro se hse hsid
    rcases step_queue s e with hsame | ⟨packet, whole, he, -⟩ | ⟨w, wt, -, -, -, hremoves, -⟩
    · exact hold.2 se (hsame ▸ hse) hsid
    · exact absurd he (hold.1 packet whole)
    · exact hold.2 se (hremoves.mem hse) hsid
  · cases hwait

theorem Sound.step (h : Sound s) (e : Event) : Sound (step s e) where
  arrived := h.arrived_step e
  waiting := fun _ _ hwt hwait => h.waiting_step hwt hwait
  timedOut := by
    intro v wt' hwt hphase
    refine Nat.le_trans ?_ (now_le_step s e)
    rcases waiter_before hwt with ⟨wt, hbefore, rfl⟩ | ⟨id, -, rfl⟩
    · have hsteps := e.steps s v wt
      generalize e.after s v wt = wt' at *
      cases hsteps with
      | timesOut late phase passed => exact passed
      | stays silent => exact h.timedOut v wt hbefore hphase
      | _ => cases hphase
    · cases hphase

end

theorem sound_run (now : Nat) (es : List Event) : Sound (machine.run (start now) es) :=
  machine.run_invariant es (fun _ s => Sound s) (sound_start now) fun _ e h => h.step e

/-- An open call that has not timed out, with a reply for it that came before its deadline. -/
structure Expects (s : State) (w : Nat) (wt : Waiter) : Prop where
  waiter : s.waiters[w]? = some wt
  isOpen : wt.Open
  inTime : wt.phase ≠ .woken .etimedout
  queued : ∃ se ∈ s.spingQueue, se.id = wt.id ∧ se.arrived < wt.wakeUp

/-- While the call is open no other open one has the identifier. -/
def Alone (s : State) (w : Nat) (id : BitVec 16) : Prop :=
  ∀ wt : Waiter, s.waiters[w]? = some wt → wt.Open → ∀ (v : Nat) (other : Waiter),
    s.waiters[v]? = some other → other.Open → other.id = id → v = w

section
variable {s : State} {e : Event} {v w : Nat} {wt : Waiter}

/-- A late thread is not heard of before its deadline, and one that is not late has no reply. -/
theorem Expects.not_timed_out (h : Expects s w wt) (sound : Sound s)
    (heard : Heard s (.timeout w)) (late : Bool) (phase : wt.phase = .waiting late) :
    s.now < wt.wakeUp := by
  cases late with
  | true => exact heard wt h.waiter phase
  | false =>
    obtain ⟨se, hse, hid, hearly⟩ := h.queued
    exact absurd (sound.waiting w wt h.waiter phase se hse hid) (Nat.not_le.mpr hearly)

/-- The reply stays until the thread that waits for it takes it, or goes on with it. -/
theorem Expects.queue_step (h : Expects s w wt) (alone : Alone s w wt.id) (e : Event) :
    (∃ se ∈ (step s e).spingQueue, se.id = wt.id ∧ se.arrived < wt.wakeUp) ∨
      e = .resume w ∧ Removes wt.id s.spingQueue (step s e).spingQueue ∧
        (step s e).waiters[w]? = some { wt with phase := .returned 0 } := by
  obtain ⟨se, hse, hid, hearly⟩ := h.queued
  rcases step_queue s e with hsame | ⟨packet, whole, -, hadd⟩ |
    ⟨v, other, he, hother, hphase, hremoves, hafter⟩
  · exact .inl ⟨se, hsame ▸ hse, hid, hearly⟩
  · exact .inl ⟨se, hadd ▸ List.mem_append_left _ hse, hid, hearly⟩
  · by_cases hother' : se.id = other.id
    · have hopen : other.Open := by
        rintro response hreturned
        rw [hphase] at hreturned
        cases hreturned
      obtain rfl : v = w := alone wt h.waiter h.isOpen v other hother hopen (hother'.symm.trans hid)
      obtain rfl : other = wt := Option.some.inj (hother.symm.trans h.waiter)
      exact .inr ⟨he, hremoves, hafter⟩
    · exact .inl ⟨se, hremoves.mem_of_ne hse hother', hid, hearly⟩

theorem Expects.taken (h : Expects s w wt) (phase : wt.phase = .woken .zero) :
    Removes wt.id s.spingQueue (Sping.step s (.resume w)).spingQueue ∧
      (Sping.step s (.resume w)).waiters[w]? = some { wt with phase := .returned 0 } := by
  obtain ⟨wt', hafter, hresumes⟩ := step_resume h.waiter
  generalize (Sping.step s (.resume w)).spingQueue = queue at *
  cases hresumes with
  | found _ removes => exact ⟨removes, hafter⟩
  | again _ missing =>
    obtain ⟨se, hse, hid, -⟩ := h.queued
    exact absurd hid (missing se hse)
  | late late => rw [phase] at late; cases late
  | idle idle => exact absurd phase (idle _)

theorem Expects.step (h : Expects s w wt) (sound : Sound s) (heard : Heard s e)
    (alone : Alone s w wt.id) :
    (∃ wt' : Waiter, wt.Same wt' ∧ Expects (step s e) w wt') ∨
      e = .resume w ∧ Removes wt.id s.spingQueue (step s e).spingQueue ∧
        (Sping.step s e).waiters[w]? = some { wt with phase := .returned 0 } := by
  rcases h.queue_step alone e with ⟨se, hse, hsid, hearly⟩ | htaken
  · have hafter := step_waiter h.waiter e
    have hsteps := e.steps s w wt
    generalize e.after s w wt = wt' at *
    obtain ⟨hid, hwake⟩ := hsteps.same
    have hexpects (isOpen : wt'.Open) (inTime : wt'.phase ≠ .woken .etimedout) :
        ∃ wt' : Waiter, wt.Same wt' ∧ Expects (Sping.step s e) w wt' := by
      refine ⟨wt', hsteps.same, hafter, isOpen, inTime, se, hse, ?_, ?_⟩
      · exact hsid.trans hid.symm
      · exact hearly.trans_eq hwake.symm
    cases hsteps with
    | locks phase => exact .inl (hexpects nofun nofun)
    | wakes late phase => exact .inl (hexpects nofun nofun)
    | timesOut late phase passed =>
      exact absurd passed (Nat.not_le.mpr (h.not_timed_out sound heard late phase))
    | finds phase => exact .inr ⟨rfl, h.taken phase⟩
    | waits phase missing =>
      obtain ⟨se, hse, hid, -⟩ := h.queued
      exact absurd hid (missing se hse)
    | givesUp phase => exact absurd phase h.inTime
    | stays silent => exact .inl (hexpects h.isOpen h.inTime)
  · exact .inr htaken

theorem step_returned {response : Nat} (h : s.waiters[w]? = some wt)
    (phase : wt.phase = .returned response) (e : Event) :
    (step s e).waiters[w]? = some wt ∧
      (step s (.resume w)).spingQueue = s.spingQueue := by
  constructor
  · have hafter := step_waiter h e
    have hsteps := e.steps s w wt
    generalize e.after s w wt = wt' at *
    cases hsteps with
    | stays silent => exact hafter
    | locks other => rw [phase] at other; cases other
    | wakes late other => rw [phase] at other; cases other
    | timesOut late other passed => rw [phase] at other; cases other
    | finds other => rw [phase] at other; cases other
    | waits other missing => rw [phase] at other; cases other
    | givesUp other => rw [phase] at other; cases other
  · rcases step_queue s (.resume w) with hsame | ⟨_, _, he, -⟩ | ⟨v, other, he, hother, hzero, -, -⟩
    · exact hsame
    · cases he
    · obtain rfl := Event.resume.inj he
      obtain rfl : other = wt := Option.some.inj (hother.symm.trans h)
      rw [phase] at hzero
      cases hzero

end

theorem run_returned {s : State} {w : Nat} {wt : Waiter} {response : Nat}
    (h : s.waiters[w]? = some wt) (phase : wt.phase = .returned response) (es : List Event) :
    (machine.run s es).waiters[w]? = some wt :=
  machine.run_invariant es (fun _ s => s.waiters[w]? = some wt) h
    fun _ e h => (step_returned h phase e).1

/-- The thread takes its reply out at one of its turns, or goes on expecting it. -/
theorem Expects.run {s : State} {w : Nat} {wt : Waiter} (h : Expects s w wt) (sound : Sound s)
    {es : List Event} (heard : machine.Along Heard s es)
    (alone : machine.Along (fun t _ => Alone t w wt.id) s es) :
    (∃ wt' : Waiter, wt.Same wt' ∧ Expects (machine.run s es) w wt') ∨
      ∃ (before after : List Event) (wt' : Waiter), es = before ++ .resume w :: after ∧
        Removes wt.id (machine.run s before).spingQueue
          (machine.run s (before ++ [.resume w])).spingQueue ∧
        (machine.run s (before ++ [.resume w])).waiters[w]? = some wt' ∧ wt.Same wt' ∧
        wt'.phase = .returned 0 := by
  induction es generalizing s wt with
  | nil => exact .inl ⟨wt, ⟨rfl, rfl⟩, h⟩
  | cons e es ih =>
    rcases h.step sound heard.1 alone.1 with ⟨wt', hsame, hnext⟩ | ⟨rfl, hremoves, hafter⟩
    · have ih := ih hnext (sound.step e) heard.2 (hsame.1.symm ▸ alone.2)
      rcases ih with ⟨wt'', hsame', hnow⟩ | ⟨before, after, wt'', rfl, hremoves, hafter, hsame', h0⟩
      · exact .inl ⟨wt'', ⟨hsame'.1.trans hsame.1, hsame'.2.trans hsame.2⟩, hnow⟩
      · refine .inr ⟨e :: before, after, wt'', rfl, ?_, hafter, ?_, h0⟩
        · exact hsame.1 ▸ hremoves
        · exact ⟨hsame'.1.trans hsame.1, hsame'.2.trans hsame.2⟩
    · exact .inr ⟨[], es, _, rfl, hremoves, hafter, ⟨rfl, rfl⟩, rfl⟩

/-- The thread an event belongs to, if it is not about all of them. -/
def Event.thread : Event → Option Nat
  | .lock w | .wake w | .timeout w | .resume w => some w
  | .call _ | .reply _ _ | .tick _ => none

/-- A thread takes an entry out in one turn, the first with the identifier, and leaves the queue as
it is in all the others. -/
def Answered (s : State) (w : Nat) (id : BitVec 16) (es : List Event) : Prop :=
  ∃ before after : List Event, es = before ++ .resume w :: after ∧
    Removes id (machine.run s before).spingQueue
      (machine.run s (before ++ [.resume w])).spingQueue ∧
    ∀ (past rest : List Event) (e : Event), es = past ++ e :: rest → e.thread = some w →
      past ≠ before →
        (machine.run s (past ++ [e])).spingQueue = (machine.run s past).spingQueue

section
variable {s : State} {w : Nat} {wt : Waiter} {response : Nat}

theorem turn_returned (h : s.waiters[w]? = some wt) (phase : wt.phase = .returned response)
    {e : Event} (turn : e.thread = some w) (es : List Event) :
    (machine.run s (es ++ [e])).spingQueue = (machine.run s es).spingQueue := by
  have hstays := run_returned h phase es
  rw [Machine.run_concat]
  cases e with
  | resume v =>
    obtain rfl := Option.some.inj turn
    exact (step_returned hstays phase (.resume v)).2
  | lock v => rfl
  | wake v => rfl
  | timeout v => rfl
  | _ => cases turn

theorem turn_takes {e : Event} (turn : e.thread = some w)
    (h : (step s e).spingQueue ≠ s.spingQueue) :
    ∃ wt : Waiter, (step s e).waiters[w]? = some wt ∧ wt.phase = .returned 0 := by
  rcases step_queue s e with hsame | ⟨packet, whole, rfl, -⟩ | ⟨v, wt, rfl, -, -, -, hafter⟩
  · exact absurd hsame h
  · cases turn
  · obtain rfl := Option.some.inj turn
    exact ⟨_, hafter, rfl⟩

theorem answered_of_removes {before after : List Event} {id : BitVec 16}
    (hremoves : Removes id (machine.run s before).spingQueue
      (machine.run s (before ++ [.resume w])).spingQueue)
    (hafter : (machine.run s (before ++ [.resume w])).waiters[w]? = some wt)
    (phase : wt.phase = .returned 0) : Answered s w id (before ++ .resume w :: after) := by
  refine ⟨before, after, rfl, hremoves, fun past rest e hcut turn hne => ?_⟩
  rcases List.append_eq_append_iff.mp hcut with ⟨between, rfl, hrest⟩ | ⟨between, rfl, hrest⟩
  · cases between with
    | nil => exact absurd (List.append_nil _) hne
    | cons first between =>
      obtain rfl := (List.cons.inj hrest).1
      have hlater := turn_returned hafter phase turn between
      rw [← Machine.run_append, ← Machine.run_append] at hlater
      simpa using hlater
  · cases between with
    | nil => exact absurd (List.append_nil _).symm hne
    | cons first between =>
      obtain rfl := (List.cons.inj hrest).1
      rw [Machine.run_concat]
      by_contra htakes
      obtain ⟨wt', hwt', phase'⟩ := turn_takes turn htakes
      have hsame := turn_returned hwt' phase' (e := .resume w) rfl between
      have hbefore := machine.run_append s past (e :: between)
      have hwhole := machine.run_append s past (e :: between ++ [.resume w])
      rw [List.append_assoc, hwhole, hbefore] at hremoves
      have hremoves : Removes id (machine.run (step (machine.run s past) e) between).spingQueue
          (machine.run (step (machine.run s past) e) (between ++ [.resume w])).spingQueue :=
        hremoves
      rw [hsame] at hremoves
      exact hremoves.ne

theorem Expects.woken (h : Expects s w wt) :
    Expects (machine.run s [.lock w, .wake w]) w { wt with phase := .woken .zero } where
  waiter := by
    have hlock := step_waiter h.waiter (.lock w)
    have hwake := step_waiter hlock (.wake w)
    refine hwake.trans (congrArg some ?_)
    unfold Event.after
    dsimp only
    rw [if_pos rfl, if_pos rfl]
    have isOpen := h.isOpen
    have inTime := h.inTime
    obtain ⟨id, deadline, phase⟩ := wt
    cases phase with
    | called =>
      change ((⟨id, deadline, .called⟩ : Waiter).loop s.spingQueue .zero).wake = _
      rw [Waiter.loop_zero]
      rfl
    | waiting late => rfl
    | woken ret =>
      cases ret with
      | zero => rfl
      | etimedout => exact absurd rfl inTime
    | returned response => exact absurd rfl (isOpen response)
  isOpen := nofun
  inTime := nofun
  queued := h.queued

theorem Expects.answered (h : Expects s w wt) :
    Answered s w wt.id [.lock w, .wake w, .resume w] ∧
      (machine.run s [.lock w, .wake w, .resume w]).waiters[w]? =
        some { wt with phase := .returned 0 } := by
  obtain ⟨hremoves, hafter⟩ := h.woken.taken rfl
  have hanswered : Answered s w wt.id ([.lock w, .wake w] ++ .resume w :: []) :=
    answered_of_removes hremoves hafter rfl
  exact ⟨hanswered, hafter⟩

/-- A late thread whose deadline passes leaves its reply behind. -/
theorem late_times_out (h : s.waiters[w]? = some wt) (phase : wt.phase = .waiting true)
    (passed : wt.wakeUp ≤ s.now) :
    (machine.run s [.timeout w, .resume w]).waiters[w]? =
        some { wt with phase := .returned 1 } ∧
      (machine.run s [.timeout w, .resume w]).spingQueue = s.spingQueue := by
  have htimeout : (step s (.timeout w)).waiters[w]? =
      some { wt with phase := .woken .etimedout } := by
    refine (step_waiter h _).trans (congrArg some ?_)
    unfold Event.after Waiter.timeout
    dsimp only
    rw [if_pos rfl, phase]
    exact if_pos passed
  obtain ⟨wt', hafter, hresumes⟩ := step_resume htimeout
  change (step (step s (.timeout w)) (.resume w)).waiters[w]? = _ ∧
    (step (step s (.timeout w)) (.resume w)).spingQueue = _
  generalize (step (step s (.timeout w)) (.resume w)).spingQueue = queue at *
  cases hresumes with
  | found zero _ => cases zero
  | again zero _ => cases zero
  | late late => exact ⟨hafter, rfl⟩
  | idle idle => exact absurd rfl (idle .etimedout)

end

/-- A call whose reply is queued before its deadline returns 0 and takes out one entry, the first of
its identifier, if it does not time out with the reply there since before it began to wait; as long
as it is open a wake-up is all it needs. -/
theorem reply_not_missed (now : Nat) (past later : List Event) (w : Nat) (wt : Waiter)
    (heard : machine.Along Heard (start now) (past ++ later))
    (waiter : (machine.run (start now) past).waiters[w]? = some wt) (isOpen : wt.Open)
    (queued : ∃ se ∈ (machine.run (start now) past).spingQueue, se.id = wt.id)
    (early : (machine.run (start now) past).now < wt.wakeUp)
    (alone : machine.Along (fun s _ => Alone s w wt.id) (machine.run (start now) past) later) :
    ∃ wt' : Waiter, (machine.run (start now) (past ++ later)).waiters[w]? = some wt' ∧
      wt.Same wt' ∧
      (wt'.phase = .returned 0 ∧ Answered (machine.run (start now) past) w wt.id later ∨
        wt'.Open ∧
        Answered (machine.run (start now) (past ++ later)) w wt.id
          [.lock w, .wake w, .resume w] ∧
        (machine.run (start now) (past ++ later ++ [.lock w, .wake w, .resume w])).waiters[w]? =
          some { wt' with phase := .returned 0 }) := by
  have sound := sound_run now past
  have heard := (machine.along_append.mp heard).2
  rw [machine.run_append _ (past ++ later), machine.run_append _ past] at *
  generalize machine.run (start now) past = s at *
  obtain ⟨se, hse, hid⟩ := queued
  have hexpects : Expects s w wt := by
    refine ⟨waiter, isOpen, fun hphase => ?_, se, hse, hid, ?_⟩
    · exact absurd (sound.timedOut w wt waiter hphase) (Nat.not_le.mpr early)
    · exact (sound.arrived se hse).trans_lt early
  rcases hexpects.run sound heard alone with
    ⟨wt', hsame, hnow⟩ | ⟨before, after, wt', rfl, hremoves, hafter, hsame, phase⟩
  · exact ⟨wt', hnow.waiter, hsame, .inr ⟨hnow.isOpen, hsame.1 ▸ hnow.answered⟩⟩
  · refine ⟨wt', ?_, hsame, .inl ⟨phase, answered_of_removes hremoves hafter phase⟩⟩
    rw [List.append_cons, Machine.run_append]
    exact run_returned hafter phase after

/-- An echo reply with the identifier 7. -/
def reply7 : Event := .reply (List.replicate 38 0 ++ [7, 0]) (by decide)

/-- A call with the identifier 7 that has returned without a reply, and another one. -/
def secondPing : List Event :=
  [.call 7, .lock 0, .tick (6 * 10 ^ 9), .timeout 0, .resume 0, .call 7, reply7]

theorem reply_not_missed_ping :
    ∃ wt' : Waiter, (machine.run (start 0)
        (secondPing ++ [.lock 1, .wake 1, .resume 1])).waiters[1]? = some wt' ∧
      (⟨7, wakeUp (6 * 10 ^ 9), .called⟩ : Waiter).Same wt' ∧
      (wt'.phase = .returned 0 ∧
          Answered (machine.run (start 0) secondPing) 1 7 [.lock 1, .wake 1, .resume 1] ∨
        wt'.Open ∧
        Answered (machine.run (start 0) (secondPing ++ [.lock 1, .wake 1, .resume 1])) 1 7
          [.lock 1, .wake 1, .resume 1] ∧
        (machine.run (start 0) (secondPing ++ [.lock 1, .wake 1, .resume 1] ++
            [.lock 1, .wake 1, .resume 1])).waiters[1]? =
          some { wt' with phase := .returned 0 }) := by
  have halone : ∀ s : State, s.waiters.length = 2 →
      s.waiters[0]?.map Waiter.phase = some (.returned 1) → Alone s 1 7 := by
    intro s hlength hfirst wt _ _ v other hother hopen _
    have hv := (List.getElem?_eq_some_iff.mp hother).1
    by_contra hne
    obtain rfl : v = 0 := by omega
    rw [hother] at hfirst
    exact hopen 1 (Option.some.inj hfirst)
  have heard : Heard (machine.run (start 0) [.call 7, .lock 0, .tick (6 * 10 ^ 9)])
      (.timeout 0) := by
    intro wt hwt hphase
    have hnone : (machine.run (start 0) [.call 7, .lock 0, .tick (6 * 10 ^ 9)]).waiters[0]?.map
        Waiter.phase = some (.waiting false) := by
      decide +kernel
    rw [hwt] at hnone
    cases hphase.symm.trans (Option.some.inj hnone)
  refine reply_not_missed 0 secondPing [.lock 1, .wake 1, .resume 1] 1
    ⟨7, wakeUp (6 * 10 ^ 9), .called⟩ ?_ rfl nofun ?_ (by decide +kernel) ⟨?_, ?_, ?_, trivial⟩
  · exact ⟨trivial, trivial, trivial, heard, trivial, trivial, trivial, trivial, trivial, trivial,
      trivial⟩
  · exact ⟨_, List.mem_singleton_self _, by decide⟩
  all_goals exact halone _ (by decide +kernel) (by decide +kernel)

/-- The reply is on the queue before the call has the mutex, and nothing wakes it in five
seconds. -/
theorem reply_missed :
    let s := machine.run (start 0) [.call 7, reply7]
    let s' := machine.run s [.lock 0, .tick (6 * 10 ^ 9), .timeout 0, .resume 0]
    (s.spingQueue.map SpingQueueEntry.id = [7] ∧ s.now < wakeUp 0 ∧
      s.waiters.map Waiter.id = [7] ∧ s.waiters.map Waiter.wakeUp = [wakeUp 0] ∧
      s.waiters.map Waiter.phase = [.called]) ∧
    s'.waiters.map Waiter.phase = [.returned 1] ∧
      s'.spingQueue.map SpingQueueEntry.id = [7] := by
  decide +kernel

end Osnt.Scone.Sping
