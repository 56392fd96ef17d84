import Mathlib.Logic.Relation
import Osnt.Proofs.DijkstraAgain
import Osnt.Scone.DijkstraThread

/-! No recomputation is lost: when `dijkstra_thread` waits and nothing is pending, the dynamic
routes are those of the current database. -/
namespace Osnt.Scone.DijkstraThread
open Lib Dijkstra

section Locks
variable {locks locks' : Locks}

/-- No other thread takes away what `dijkstra_thread` holds. -/
theorem apply_other {k : Nat} {op : LockOp} (h : locks.apply (.other k) op = some locks') :
    (locks.ifList.Reads .dijkstra → locks'.ifList.Reads .dijkstra) ∧
      (locks.rtable.Writes .dijkstra → locks'.rtable.Writes .dijkstra) ∧
      (locks.routerList = some .dijkstra → locks'.routerList = some .dijkstra) := by
  have hne : Thread.dijkstra ≠ Thread.other k := Thread.noConfusion
  cases op with
  | lockIfListRd =>
    obtain ⟨l, hl, rfl⟩ := Option.map_eq_some_iff.mp h
    exact ⟨((RwLock.rdlock_spec hl).2 _ hne).1, id, id⟩
  | lockIfListWr =>
    obtain ⟨l, hl, rfl⟩ := Option.map_eq_some_iff.mp h
    exact ⟨((RwLock.wrlock_spec hl).2 _ hne).1, id, id⟩
  | unlockIfList =>
    obtain ⟨l, hl, rfl⟩ := Option.map_eq_some_iff.mp h
    exact ⟨(RwLock.unlock_spec hl _ hne).1, id, id⟩
  | lockRtableRd =>
    obtain ⟨l, hl, rfl⟩ := Option.map_eq_some_iff.mp h
    exact ⟨id, ((RwLock.rdlock_spec hl).2 _ hne).2, id⟩
  | lockRtableWr =>
    obtain ⟨l, hl, rfl⟩ := Option.map_eq_some_iff.mp h
    exact ⟨id, ((RwLock.wrlock_spec hl).2 _ hne).2, id⟩
  | unlockRtable =>
    obtain ⟨l, hl, rfl⟩ := Option.map_eq_some_iff.mp h
    exact ⟨id, (RwLock.unlock_spec hl _ hne).2, id⟩
  | lockMutexPwospfRouterList =>
    simp only [Locks.apply] at h
    split at h
    · rename_i hnone
      cases h
      refine ⟨id, id, fun hours => ?_⟩
      rw [hnone] at hours
      cases hours
    · cases h
  | unlockMutexPwospfRouterList =>
    simp only [Locks.apply] at h
    split at h
    · rename_i htheirs
      cases h
      refine ⟨id, id, fun hours => ?_⟩
      rw [htheirs] at hours
      exact absurd (Option.some.inj hours).symm hne
    · cases h

end Locks

def Place.readsIfList : Place → Bool
  | .lockedIfList | .lockedRtable | .lockedRouterList | .nuked | .computed _ | .patched | .sorted
  | .unlockedRouterList | .unlockedRtable => true
  | _ => false

def Place.writesRtable : Place → Bool
  | .lockedRtable | .lockedRouterList | .nuked | .computed _ | .patched | .sorted
  | .unlockedRouterList => true
  | _ => false

def Place.locksRouterList : Place → Bool
  | .lockedRouterList | .nuked | .computed _ | .patched | .sorted => true
  | _ => false

/-- What `dijkstra_thread` holds at a place of its loop. -/
structure Held (place : Place) (locks : Locks) : Prop where
  ifList : place.readsIfList = true → locks.ifList.Reads .dijkstra
  rtable : place.writesRtable = true → locks.rtable.Writes .dijkstra
  routerList : place.locksRouterList = true → locks.routerList = some .dijkstra

theorem Held.other {place : Place} {locks locks' : Locks} {k : Nat} {op : LockOp}
    (h : Held place locks) (hlock : locks.apply (.other k) op = some locks') :
    Held place locks' := by
  obtain ⟨hif, hrt, hrl⟩ := apply_other hlock
  exact ⟨fun hp => hif (h.ifList hp), fun hp => hrt (h.rtable hp), fun hp => hrl (h.routerList hp)⟩

/-- A place before the locks are taken, or after they are released. -/
theorem held_outside {place : Place} {locks : Locks} (h : place.readsIfList = false)
    (h' : place.writesRtable = false) (h'' : place.locksRouterList = false) :
    Held place locks := by
  refine ⟨fun hp => ?_, fun hp => ?_, fun hp => ?_⟩
  · rw [h] at hp
    cases hp
  · rw [h'] at hp
    cases hp
  · rw [h''] at hp
    cases hp

theorem step_held {ourRouterId : BitVec 32} {st st' : State} (hstep : Step ourRouterId st st')
    (h : Held st.place st.locks) : Held st'.place st'.locks := by
  cases hstep with
  | timeOut _ => exact held_outside rfl rfl rfl
  | wakeSpuriously _ => exact held_outside rfl rfl rfl
  | sleepAgain _ _ => exact held_outside rfl rfl rfl
  | pass _ _ => exact held_outside rfl rfl rfl
  | clear _ => exact held_outside rfl rfl rfl
  | lockIfList _ hlock =>
    obtain ⟨l, hl, rfl⟩ := Option.map_eq_some_iff.mp hlock
    refine ⟨fun _ => (RwLock.rdlock_spec hl).1, fun hp => ?_, fun hp => ?_⟩
    · cases hp
    · cases hp
  | lockRtable hplace hlock =>
    rw [hplace] at h
    obtain ⟨l, hl, rfl⟩ := Option.map_eq_some_iff.mp hlock
    refine ⟨fun _ => h.ifList rfl, fun _ => (RwLock.wrlock_spec hl).1, fun hp => ?_⟩
    cases hp
  | lockRouterList hplace hlock =>
    rw [hplace] at h
    simp only [Locks.apply] at hlock
    split at hlock
    · cases hlock
      exact ⟨fun _ => h.ifList rfl, fun _ => h.rtable rfl, fun _ => rfl⟩
    · cases hlock
  | nuke hplace =>
    rw [hplace] at h
    exact ⟨fun _ => h.ifList rfl, fun _ => h.rtable rfl, fun _ => h.routerList rfl⟩
  | compute hplace _ =>
    rw [hplace] at h
    exact ⟨fun _ => h.ifList rfl, fun _ => h.rtable rfl, fun _ => h.routerList rfl⟩
  | die _ _ => exact held_outside rfl rfl rfl
  | patch hplace =>
    rw [hplace] at h
    exact ⟨fun _ => h.ifList rfl, fun _ => h.rtable rfl, fun _ => h.routerList rfl⟩
  | sort hplace _ =>
    rw [hplace] at h
    exact ⟨fun _ => h.ifList rfl, fun _ => h.rtable rfl, fun _ => h.routerList rfl⟩
  | unlockRouterList hplace hlock =>
    rw [hplace] at h
    simp only [Locks.apply] at hlock
    split at hlock
    · cases hlock
      refine ⟨fun _ => h.ifList rfl, fun _ => h.rtable rfl, fun hp => ?_⟩
      cases hp
    · cases hlock
  | unlockRtable hplace hlock =>
    rw [hplace] at h
    obtain ⟨l, hl, rfl⟩ := Option.map_eq_some_iff.mp hlock
    refine ⟨fun _ => h.ifList rfl, fun hp => ?_, fun hp => ?_⟩
    · cases hp
    · cases hp
  | unlockIfList _ _ => exact held_outside rfl rfl rfl
  | lock hlock => exact h.other hlock
  | change _ _ _ _ => exact h
  | propagate _ _ => exact h
  | setDirty _ => exact h
  | signal _ _ => exact held_outside rfl rfl rfl
  | signalLost _ => exact h
  | write _ _ => exact h

/-- The routes are those that `compute_rtable` has returned for the database, and it has left the
router list as it is now. -/
def Computed (ourRouterId : BitVec 32) (st : State) (routes : List RtableEntry) : Prop :=
  ∃ routers, routers.map Router.content = st.pwospfRouterList.map Router.content ∧
    computeRtable ourRouterId routers st.ifList = some (routes, st.pwospfRouterList)

theorem unwrap_dynamic {ifList : List IfaceEntry} {wrapper : RouteWrapper} {e : RtableEntry}
    (h : unwrap ifList wrapper = some (some e)) : e.isStatic = false := by
  unfold unwrap at h
  split at h
  · cases h
  · split at h
    · cases h
      rfl
    · simp only [Option.bind_eq_bind, Option.bind_eq_some_iff] at h
      obtain ⟨nbr, -, he⟩ := h
      cases he
      rfl

theorem unwrapAll_dynamic {ifList : List IfaceEntry} {wrappers : List RouteWrapper}
    {routes : List RtableEntry} (h : unwrapAll ifList wrappers = some routes) :
    ∀ e ∈ routes, e.isStatic = false := by
  induction wrappers generalizing routes with
  | nil =>
    cases h
    exact fun e he => absurd he List.not_mem_nil
  | cons wrapper wrappers ih =>
    unfold unwrapAll at h
    simp only [Option.bind_eq_bind, Option.bind_eq_some_iff] at h
    obtain ⟨entry, hentry, entries, hentries, heq⟩ := h
    cases heq
    intro e he
    rcases List.mem_append.mp he with he | he
    · rw [Option.mem_toList.mp he] at hentry
      exact unwrap_dynamic hentry
    · exact ih hentries e he

theorem Computed.dynamic {ourRouterId : BitVec 32} {st : State} {routes : List RtableEntry}
    (h : Computed ourRouterId st routes) : dynamic routes = routes := by
  obtain ⟨routers, -, hrun⟩ := h
  obtain ⟨-, wrappers, -, hroutes⟩ := computeRtable_some hrun
  refine List.filter_eq_self.mpr fun e he => ?_
  rw [unwrapAll_dynamic hroutes e he]
  rfl

theorem dynamic_nuke (rtable : List RtableEntry) : dynamic (nuke rtable) = [] := by
  unfold dynamic nuke
  rw [List.filter_filter, List.filter_eq_nil_iff]
  intro e _ he
  simp at he

/-- `dijkstra_thread` will compute the routes before it waits again. -/
def Place.ahead : Place → Bool
  | .passed | .cleared | .lockedIfList | .lockedRtable | .lockedRouterList | .nuked | .computed _
  | .dead => true
  | _ => false

/-- Why the routes may not be those of the current database. -/
def Pending (st : State) : Prop :=
  st.dijkstraDirty = true ∨ (∃ k, st.phase k = .changing ∨ st.phase k = .triggering) ∨
    st.place.ahead = true ∨ st.written = true

/-- The dynamic routes are those of the current database. -/
def Fresh (ourRouterId : BitVec 32) (st : State) : Prop :=
  ∃ routes, Computed ourRouterId st routes ∧ (dynamic st.rtable).Perm routes

/-- How far the critical section has come. -/
structure Critical (ourRouterId : BitVec 32) (st : State) : Prop where
  nuked : st.place = .nuked → dynamic st.rtable = []
  computed : ∀ routes, st.place = .computed routes →
    dynamic st.rtable = [] ∧ Computed ourRouterId st routes

theorem critical_outside {ourRouterId : BitVec 32} {st : State} (hnuked : st.place ≠ .nuked)
    (hcomputed : ∀ routes, st.place ≠ .computed routes) : Critical ourRouterId st :=
  ⟨fun hp => absurd hp hnuked, fun routes hp => absurd hp (hcomputed routes)⟩

structure Inv (ourRouterId : BitVec 32) (st : State) : Prop where
  held : Held st.place st.locks
  critical : Critical ourRouterId st
  fresh : Pending st ∨ Fresh ourRouterId st

/-- `dijkstra_thread` moves on from a place that is not ahead of the computation. -/
theorem Pending.moved {st : State} {place : Place} {locks : Locks} {rtable : List RtableEntry}
    (h : Pending st) (hahead : st.place.ahead = false) :
    Pending { st with place, locks, rtable } := by
  rcases h with hdirty | hphase | hplace | hwritten
  · exact .inl hdirty
  · exact .inr (.inl hphase)
  · rw [hahead] at hplace
    cases hplace
  · exact .inr (.inr (.inr hwritten))

theorem Pending.signalled {st : State} {place : Place} {k : Nat}
    (h : Pending st) (hphase : st.phase k = .signalling)
    (hahead : st.place.ahead = true → place.ahead = true) :
    Pending { st with place, phase := Function.update st.phase k .idle } := by
  rcases h with hdirty | ⟨j, hj⟩ | hplace | hwritten
  · exact .inl hdirty
  · have hne : j ≠ k := by
      rintro rfl
      rw [hphase] at hj
      rcases hj with hj | hj
      · cases hj
      · cases hj
    have hkeep : Function.update st.phase k .idle j = st.phase j := Function.update_of_ne hne _ _
    exact .inr (.inl ⟨j, hj.imp hkeep.trans hkeep.trans⟩)
  · exact .inr (.inr (.inl (hahead hplace)))
  · exact .inr (.inr (.inr hwritten))

theorem step_fresh {ourRouterId : BitVec 32} {st st' : State} (hstep : Step ourRouterId st st')
    (h : Inv ourRouterId st) : Pending st' ∨ Fresh ourRouterId st' := by
  have hfresh := h.fresh
  cases hstep with
  | timeOut hplace => exact hfresh.imp (·.moved (hplace ▸ rfl)) id
  | wakeSpuriously hplace => exact hfresh.imp (·.moved (hplace ▸ rfl)) id
  | sleepAgain hplace _ => exact hfresh.imp (·.moved (hplace ▸ rfl)) id
  | pass _ _ => exact .inl (.inr (.inr (.inl rfl)))
  | clear _ => exact .inl (.inr (.inr (.inl rfl)))
  | lockIfList _ _ => exact .inl (.inr (.inr (.inl rfl)))
  | lockRtable _ _ => exact .inl (.inr (.inr (.inl rfl)))
  | lockRouterList _ _ => exact .inl (.inr (.inr (.inl rfl)))
  | nuke _ => exact .inl (.inr (.inr (.inl rfl)))
  | compute _ _ => exact .inl (.inr (.inr (.inl rfl)))
  | die _ _ => exact .inl (.inr (.inr (.inl rfl)))
  | @patch routes hplace =>
    obtain ⟨hnone, hcomputed⟩ := h.critical.computed routes hplace
    have happend : dynamic (st.rtable ++ routes) = routes := by
      rw [dynamic, List.filter_append]
      exact (congrArg₂ (· ++ ·) hnone hcomputed.dynamic).trans (List.nil_append _)
    exact .inr ⟨routes, hcomputed, .of_eq happend⟩
  | sort hplace hsort =>
    rcases hfresh with hpending | ⟨routes, hcomputed, hperm⟩
    · exact .inl (hpending.moved (hplace ▸ rfl))
    · exact .inr ⟨routes, hcomputed, ((BubbleSort.loop_spec swap hsort).1.filter _).trans hperm⟩
  | unlockRouterList hplace _ => exact hfresh.imp (·.moved (hplace ▸ rfl)) id
  | unlockRtable hplace _ => exact hfresh.imp (·.moved (hplace ▸ rfl)) id
  | unlockIfList hplace _ => exact hfresh.imp (·.moved (hplace ▸ rfl)) id
  | lock _ => exact hfresh
  | @change k _ _ _ _ => exact .inl (.inr (.inl ⟨k, .inl (Function.update_self k _ _)⟩))
  | @propagate k _ _ => exact .inl (.inr (.inl ⟨k, .inr (Function.update_self k _ _)⟩))
  | setDirty _ => exact .inl (.inl rfl)
  | signal hphase hplace =>
    refine hfresh.imp (·.signalled hphase fun hahead => ?_) id
    rw [hplace] at hahead
    cases hahead
  | signalLost hphase => exact hfresh.imp (·.signalled hphase id) id
  | write _ _ => exact .inl (.inr (.inr (.inr rfl)))

/-- Nobody else changes the database or the routing table in the critical section. -/
theorem step_critical {ourRouterId : BitVec 32} {st st' : State} (hstep : Step ourRouterId st st')
    (h : Inv ourRouterId st) : Critical ourRouterId st' := by
  have hsame := h.critical
  cases hstep with
  | nuke _ => exact ⟨fun _ => dynamic_nuke _, fun _ hp => Place.noConfusion hp⟩
  | compute hplace hrun =>
    refine ⟨fun hp => Place.noConfusion hp, fun routes hp => ?_⟩
    cases hp
    refine ⟨hsame.nuked hplace, st.pwospfRouterList, ?_, hrun⟩
    exact (computeDistances_content (computeRtable_some hrun).1).symm
  | @change k _ _ _ hlock =>
    refine ⟨hsame.nuked, fun routes hp => ?_⟩
    have hheld := h.held
    rw [show st.place = .computed routes from hp] at hheld
    rcases hlock with hmutex | hwrites
    · rw [hheld.routerList rfl] at hmutex
      cases hmutex
    · exact absurd hwrites ((hheld.ifList rfl).excludes _)
  | @write k _ hlock =>
    have hout : ∀ place, st.place = place → place.writesRtable = true → False := by
      rintro place rfl hplace
      cases (h.held.rtable hplace).unique hlock
    exact ⟨fun hp => (hout _ hp rfl).elim, fun routes hp => (hout _ hp rfl).elim⟩
  | lock _ => exact ⟨hsame.nuked, hsame.computed⟩
  | propagate _ _ => exact ⟨hsame.nuked, hsame.computed⟩
  | setDirty _ => exact ⟨hsame.nuked, hsame.computed⟩
  | signalLost _ => exact ⟨hsame.nuked, hsame.computed⟩
  | _ => exact critical_outside Place.noConfusion (fun _ => Place.noConfusion)

theorem step_inv {ourRouterId : BitVec 32} {st st' : State} (hstep : Step ourRouterId st st')
    (h : Inv ourRouterId st) : Inv ourRouterId st' :=
  ⟨step_held hstep h.held, step_critical hstep h, step_fresh hstep h⟩

theorem start_inv {ourRouterId : BitVec 32} {st : State} (h : Start st) : Inv ourRouterId st := by
  refine ⟨?_, critical_outside ?_ ?_, .inl (.inl h.dirty)⟩
  · rw [h.place]
    exact held_outside rfl rfl rfl
  · rw [h.place]
    exact Place.noConfusion
  · rw [h.place]
    exact fun _ => Place.noConfusion

theorem reachable_inv {ourRouterId : BitVec 32} {st₀ st : State} (hstart : Start st₀)
    (h : Relation.ReflTransGen (Step ourRouterId) st₀ st) : Inv ourRouterId st := by
  induction h with
  | refl => exact start_inv hstart
  | tail _ hstep ih => exact step_inv hstep ih

/-- In every state in which `dijkstra_thread` waits, the flag is clear, no update is in progress and
nobody else has written the routing table since, the dynamic routes are those that `compute_rtable`
has returned for the current database and interface list. It returns them again for the router list
as it is now, working fields included, unless a router has the id 0: the working fields of such a
router are not reset. -/
theorem no_recomputation_lost {ourRouterId : BitVec 32} {st₀ st : State} (hstart : Start st₀)
    (hrun : Relation.ReflTransGen (Step ourRouterId) st₀ st) (hwaits : st.place = .waiting)
    (hclear : st.dijkstraDirty = false) (hquiet : ∀ k, st.phase k = .idle)
    (hwritten : st.written = false) :
    ∃ routes, (dynamic st.rtable).Perm routes ∧ Computed ourRouterId st routes ∧
      ((∀ r ∈ st.pwospfRouterList, r.routerId ≠ 0 ∨ r.routerId = ourRouterId) →
        computeRtable ourRouterId st.pwospfRouterList st.ifList =
          some (routes, st.pwospfRouterList)) := by
  rcases (reachable_inv hstart hrun).fresh with hpending | ⟨routes, hcomputed, hperm⟩
  · rcases hpending with hdirty | ⟨k, hk⟩ | hahead | hother
    · rw [hclear] at hdirty
      cases hdirty
    · rw [hquiet k] at hk
      rcases hk with hk | hk
      · cases hk
      · cases hk
    · rw [hwaits] at hahead
      cases hahead
    · rw [hwritten] at hother
      cases hother
  · refine ⟨routes, hperm, hcomputed, fun hid => ?_⟩
    obtain ⟨routers, -, hran⟩ := hcomputed
    exact computeRtable_again hran hid

def ourSubnet : RtableEntry := ⟨0x010a, 0, 0xffff, "eth0", false, true⟩

def defaultRoute : RtableEntry := ⟨0, 0x0200010a, 0, "eth0", true, true⟩

def aloneStart : State where
  place := .waiting
  dijkstraDirty := true
  pwospfRouterList := [⟨16, 1, [], 0, false, none⟩]
  ifList := [⟨"eth0", 0x0100010a, 0xffff, []⟩]
  rtable := [defaultRoute]
  locks := .free
  phase := fun _ => .idle
  written := false

theorem aloneStart_run : ∃ st, Relation.ReflTransGen (Step 1) aloneStart st ∧
    st.place = .waiting ∧ st.dijkstraDirty = false ∧ (∀ k, st.phase k = .idle) ∧
      st.written = false ∧ st.rtable = [ourSubnet, defaultRoute] := by
  have hrun : computeRtable 1 [⟨16, 1, [⟨0x010a, 0xffff, 0, true⟩], 0, false, none⟩]
      [⟨"eth0", 0x0100010a, 0xffff, []⟩] =
        some ([ourSubnet], [⟨16, 1, [⟨0x010a, 0xffff, 0, true⟩], 0, true, none⟩]) := by
    decide +kernel
  have hsort : BubbleSort.loop swap 2 [defaultRoute, ourSubnet] =
      some [ourSubnet, defaultRoute] := by
    decide +kernel
  refine ⟨_, .head (@Step.lock 1 _ 0 .lockMutexPwospfRouterList _ rfl) <|
    .head (@Step.change 1 _ 0 [⟨16, 1, [⟨0x010a, 0xffff, 0, true⟩], 0, false, none⟩]
      [⟨"eth0", 0x0100010a, 0xffff, []⟩] (.inl rfl) (.inl rfl)) <|
    .head (@Step.propagate 1 _ 0 (.inr rfl) rfl) <|
    .head (@Step.setDirty 1 _ 0 rfl) <|
    .head (@Step.signal 1 _ 0 rfl rfl) <|
    .head (@Step.lock 1 _ 0 .unlockMutexPwospfRouterList _ rfl) <|
    .head (.pass rfl (.inl rfl)) <|
    .head (.clear rfl) <|
    .head (.lockIfList rfl rfl) <|
    .head (.lockRtable rfl rfl) <|
    .head (.lockRouterList rfl rfl) <|
    .head (.nuke rfl) <|
    .head (.compute rfl hrun) <|
    .head (.patch rfl) <|
    .head (.sort rfl hsort) <|
    .head (.unlockRouterList rfl rfl) <|
    .head (.unlockRtable rfl rfl) <|
    .head (.unlockIfList rfl rfl) .refl, rfl, rfl, fun k => ?_, rfl, rfl⟩
  by_cases hk : k = 0
  · subst hk
    rfl
  · simp [aloneStart, Function.update_of_ne hk]

theorem one_update_computed : ∃ st, Relation.ReflTransGen (Step 1) aloneStart st ∧
    st.rtable = [ourSubnet, defaultRoute] ∧
      ∃ routes, (dynamic st.rtable).Perm routes ∧ Computed 1 st routes := by
  obtain ⟨st, hrun, hwaits, hclear, hquiet, hwritten, hrtable⟩ := aloneStart_run
  obtain ⟨routes, hperm, hcomputed, -⟩ := no_recomputation_lost ⟨rfl, rfl, rfl, fun _ => rfl⟩ hrun
    hwaits hclear hquiet hwritten
  exact ⟨st, hrun, hrtable, routes, hperm, hcomputed⟩

end Osnt.Scone.DijkstraThread
