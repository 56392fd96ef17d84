import Mathlib.Logic.Function.Basic
import Osnt.Lib.BubbleSort
import Osnt.Lib.RwLock
import Osnt.Scone.Dijkstra

/-! `dijkstra_thread` of `or_dijkstra.c` among the threads that update the link-state database and
those that write the routing table.

A step is one access to what the threads share, or one operation on a lock. Only `dijkstra_thread`
takes `dijkstra_mutex`, which it holds except while it waits: the mutex is left out. A signal wakes
`dijkstra_thread` only while it waits, and may go to another waiter on the condition; a timed wait
may end at any moment. -/
namespace Osnt.Scone.DijkstraThread
open Lib Dijkstra

inductive Thread
  | dijkstra
  | other (k : Nat)
deriving DecidableEq, Repr

/-- `if_list_lock`, `rtable_lock` and `pwospf_router_list_lock`. -/
structure Locks where
  ifList : RwLock Thread
  rtable : RwLock Thread
  routerList : Option Thread

def Locks.free : Locks := ⟨.free, .free, none⟩

inductive LockOp
  | lockIfListRd | lockIfListWr | unlockIfList
  | lockRtableRd | lockRtableWr | unlockRtable
  | lockMutexPwospfRouterList | unlockMutexPwospfRouterList
deriving DecidableEq, Repr

/-- `none` while the thread has to wait, or if it does not hold what it unlocks. -/
def Locks.apply (locks : Locks) (t : Thread) : LockOp → Option Locks
  | .lockIfListRd => (locks.ifList.rdlock t).map fun l => { locks with ifList := l }
  | .lockIfListWr => (locks.ifList.wrlock t).map fun l => { locks with ifList := l }
  | .unlockIfList => (locks.ifList.unlock t).map fun l => { locks with ifList := l }
  | .lockRtableRd => (locks.rtable.rdlock t).map fun l => { locks with rtable := l }
  | .lockRtableWr => (locks.rtable.wrlock t).map fun l => { locks with rtable := l }
  | .unlockRtable => (locks.rtable.unlock t).map fun l => { locks with rtable := l }
  | .lockMutexPwospfRouterList =>
    if locks.routerList = none then some { locks with routerList := some t } else none
  | .unlockMutexPwospfRouterList =>
    if locks.routerList = some t then some { locks with routerList := none } else none

/-- The comparison of `trigger_rtable_modified`: `a` has to go behind `b`. -/
def swap (a b : RtableEntry) : Bool :=
  ntohl a.mask < ntohl b.mask || (a.mask == b.mask && ntohl a.ip < ntohl b.ip) ||
    (a.mask == b.mask && a.ip == b.ip && !a.isStatic && b.isStatic)
where
  ntohl (x : BitVec 32) : BitVec 32 :=
    x.extractLsb' 0 8 ++ x.extractLsb' 8 8 ++ x.extractLsb' 16 8 ++ x.extractLsb' 24 8

/-- The loop that removes all the entries that are not static. -/
def nuke (rtable : List RtableEntry) : List RtableEntry := rtable.filter fun e => e.isStatic

/-- The dynamic routes. -/
def dynamic (rtable : List RtableEntry) : List RtableEntry := rtable.filter fun e => !e.isStatic

/-- Where `dijkstra_thread` is in its loop: which step it has made last. -/
inductive Place
  | waiting
  | woken (timedOut : Bool)
  | passed
  | cleared
  | lockedIfList
  | lockedRtable
  | lockedRouterList
  | nuked
  | computed (routes : List RtableEntry)
  | patched
  | sorted
  | unlockedRouterList
  | unlockedRtable
  | dead
deriving DecidableEq, Repr

/-- Where another thread is in an update: it has changed the database, it has come to
`dijkstra_trigger` and it has set the flag there. -/
inductive Phase
  | idle | changing | triggering | signalling
deriving DecidableEq, Repr

structure State where
  place : Place
  dijkstraDirty : Bool
  pwospfRouterList : List Router
  ifList : List IfaceEntry
  rtable : List RtableEntry
  locks : Locks
  phase : Nat → Phase
  /-- Another thread has written the routing table since `dijkstra_thread` did. -/
  written : Bool

/-- When the thread starts, `init_rtable` has called `dijkstra_trigger`. -/
structure Start (st : State) : Prop where
  place : st.place = .waiting
  dirty : st.dijkstraDirty = true
  locks : st.locks = .free
  phase : ∀ k, st.phase k = .idle

inductive Step (ourRouterId : BitVec 32) (st : State) : State → Prop
  -- `pthread_cond_timedwait`, and the test after it
  | timeOut (hplace : st.place = .waiting) :
      Step ourRouterId st { st with place := .woken true }
  | wakeSpuriously (hplace : st.place = .waiting) :
      Step ourRouterId st { st with place := .woken false }
  | sleepAgain (hplace : st.place = .woken true) (hdirty : st.dijkstraDirty = false) :
      Step ourRouterId st { st with place := .waiting }
  | pass {timedOut : Bool} (hplace : st.place = .woken timedOut)
      (hpass : timedOut = false ∨ st.dijkstraDirty = true) :
      Step ourRouterId st { st with place := .passed }
  | clear (hplace : st.place = .passed) :
      Step ourRouterId st { st with dijkstraDirty := false, place := .cleared }
  | lockIfList {locks : Locks} (hplace : st.place = .cleared)
      (hlock : st.locks.apply .dijkstra .lockIfListRd = some locks) :
      Step ourRouterId st { st with locks, place := .lockedIfList }
  | lockRtable {locks : Locks} (hplace : st.place = .lockedIfList)
      (hlock : st.locks.apply .dijkstra .lockRtableWr = some locks) :
      Step ourRouterId st { st with locks, place := .lockedRtable }
  | lockRouterList {locks : Locks} (hplace : st.place = .lockedRtable)
      (hlock : st.locks.apply .dijkstra .lockMutexPwospfRouterList = some locks) :
      Step ourRouterId st { st with locks, place := .lockedRouterList }
  | nuke (hplace : st.place = .lockedRouterList) :
      Step ourRouterId st { st with rtable := nuke st.rtable, place := .nuked }
  | compute {routes : List RtableEntry} {left : List Router} (hplace : st.place = .nuked)
      (hrun : computeRtable ourRouterId st.pwospfRouterList st.ifList = some (routes, left)) :
      Step ourRouterId st { st with pwospfRouterList := left, place := .computed routes }
  -- a failing access in `compute_rtable`
  | die (hplace : st.place = .nuked)
      (hrun : computeRtable ourRouterId st.pwospfRouterList st.ifList = none) :
      Step ourRouterId st { st with place := .dead }
  | patch {routes : List RtableEntry} (hplace : st.place = .computed routes) :
      Step ourRouterId st { st with
        rtable := st.rtable ++ routes, written := false, place := .patched }
  | sort {fuel : Nat} {rtable : List RtableEntry} (hplace : st.place = .patched)
      (hsort : BubbleSort.loop swap fuel st.rtable = some rtable) :
      Step ourRouterId st { st with rtable, place := .sorted }
  | unlockRouterList {locks : Locks} (hplace : st.place = .sorted)
      (hlock : st.locks.apply .dijkstra .unlockMutexPwospfRouterList = some locks) :
      Step ourRouterId st { st with locks, place := .unlockedRouterList }
  | unlockRtable {locks : Locks} (hplace : st.place = .unlockedRouterList)
      (hlock : st.locks.apply .dijkstra .unlockRtable = some locks) :
      Step ourRouterId st { st with locks, place := .unlockedRtable }
  | unlockIfList {locks : Locks} (hplace : st.place = .unlockedRtable)
      (hlock : st.locks.apply .dijkstra .unlockIfList = some locks) :
      Step ourRouterId st { st with locks, place := .waiting }
  -- another thread takes or releases a lock
  | lock {k : Nat} {op : LockOp} {locks : Locks}
      (hlock : st.locks.apply (.other k) op = some locks) :
      Step ourRouterId st { st with locks }
  -- an update: any change to the router list and the interface list, the active flags that
  -- `propagate_pwospf_changes` determines included
  | change {k : Nat} (pwospfRouterList : List Router) (ifList : List IfaceEntry)
      (hphase : st.phase k = .idle ∨ st.phase k = .changing)
      (hlock : st.locks.routerList = some (.other k) ∨ st.locks.ifList.Writes (.other k)) :
      Step ourRouterId st { st with
        pwospfRouterList, ifList, phase := Function.update st.phase k .changing }
  | propagate {k : Nat} (hphase : st.phase k = .idle ∨ st.phase k = .changing)
      (hlock : st.locks.routerList = some (.other k)) :
      Step ourRouterId st { st with phase := Function.update st.phase k .triggering }
  | setDirty {k : Nat} (hphase : st.phase k = .triggering) :
      Step ourRouterId st { st with
        dijkstraDirty := true, phase := Function.update st.phase k .signalling }
  | signal {k : Nat} (hphase : st.phase k = .signalling) (hplace : st.place = .waiting) :
      Step ourRouterId st { st with
        place := .woken false, phase := Function.update st.phase k .idle }
  | signalLost {k : Nat} (hphase : st.phase k = .signalling) :
      Step ourRouterId st { st with phase := Function.update st.phase k .idle }
  -- another writer of the routing table
  | write {k : Nat} (rtable : List RtableEntry) (hlock : st.locks.rtable.Writes (.other k)) :
      Step ourRouterId st { st with rtable, written := true }

end Osnt.Scone.DijkstraThread
