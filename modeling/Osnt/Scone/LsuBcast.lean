import Osnt.Lib.Buffer

/-! `pwospf_lsu_bcast_thread` of `or_pwospf.c` among the threads that put LSUs on its queue.

Only `pwospf_lsu_bcast_thread` takes `pwospf_lsu_bcast_mutex`: it is left out. A signal wakes the
thread only if it waits. The locks that the thread takes while it sends, and whether a route is
found for a packet, do not matter to the queue. -/
namespace Osnt.Scone.LsuBcast
open Lib Lib.Buffer

structure LsuQueueEntry where
  ip : BitVec 32
  iface : String
  packet : Bytes
deriving DecidableEq, Repr

/-- Who holds `pwospf_lsu_queue_lock`. -/
inductive Holder
  | bcastThread
  | producer (k : Nat)
deriving DecidableEq, Repr

/-- Where `pwospf_lsu_bcast_thread` is in its loop. -/
inductive Place
  | starting
  | waiting
  | woken
  | lockedQueue
  | taken (lsuQueue : List LsuQueueEntry)
  | sending (lsuQueue : List LsuQueueEntry)
deriving DecidableEq, Repr

structure State where
  place : Place
  pwospfLsuQueue : List LsuQueueEntry
  queueLock : Option Holder
  /-- The producers between an enqueue and their signal. -/
  unsignalled : List Nat
deriving DecidableEq, Repr

def start : State := ⟨.starting, [], none, []⟩

inductive Action
  -- the loop of `pwospf_lsu_bcast_thread`
  | wait
  | wakeSpuriously
  | lockQueue
  | take
  | unlockQueue
  | send
  | loop
  -- a producer: `broadcast_pwospf_lsu_packet` for each neighbour, and the signal
  | lockQueueFor (k : Nat)
  | enqueue (k : Nat) (lqe : LsuQueueEntry)
  | unlockQueueFor (k : Nat)
  | signal (k : Nat)
deriving DecidableEq, Repr

/-- `none` if the thread is not there, or has to wait for the lock. -/
def step (st : State) : Action → Option State
  | .wait =>
    match st.place with
    | .starting => some { st with place := .waiting }
    | _ => none
  | .wakeSpuriously =>
    match st.place with
    | .waiting => some { st with place := .woken }
    | _ => none
  | .lockQueue =>
    match st.place, st.queueLock with
    | .woken, none => some { st with place := .lockedQueue, queueLock := some .bcastThread }
    | _, _ => none
  | .take =>
    match st.place with
    | .lockedQueue => some { st with place := .taken st.pwospfLsuQueue, pwospfLsuQueue := [] }
    | _ => none
  | .unlockQueue =>
    match st.place with
    | .taken lsuQueue => some { st with place := .sending lsuQueue, queueLock := none }
    | _ => none
  | .send =>
    match st.place with
    | .sending (_ :: lsuQueue) => some { st with place := .sending lsuQueue }
    | _ => none
  | .loop =>
    match st.place with
    | .sending [] => some { st with place := .starting }
    | _ => none
  | .lockQueueFor k =>
    if st.queueLock = none then some { st with queueLock := some (.producer k) } else none
  | .enqueue k lqe =>
    if st.queueLock = some (.producer k) then
      some { st with
        pwospfLsuQueue := st.pwospfLsuQueue ++ [lqe]
        unsignalled := st.unsignalled.insert k }
    else none
  | .unlockQueueFor k =>
    if st.queueLock = some (.producer k) then some { st with queueLock := none } else none
  | .signal k =>
    if st.queueLock = some (.producer k) then none
    else some { st with
      place := if st.place = .waiting then .woken else st.place
      unsignalled := st.unsignalled.filter (· != k) }

def run (st : State) (actions : List Action) : Option State := actions.foldlM step st

end Osnt.Scone.LsuBcast
