import Osnt.Lib.Buffer
import Osnt.Lib.Machine

/-! `wait_for_reply` of `or_sping.c` and `process_icmp_echo_reply_packet` of `or_icmp.c`: pings that
wait for their replies.

An event is a section of code under `sping_mutex`, or what happens to a thread that has given the
mutex back in `pthread_cond_timedwait`; one that is not possible changes nothing. The removal of
old entries by the cleanup thread is left out. -/
namespace Osnt.Scone.Sping
open Lib Lib.Buffer

/-- `sping_queue_entry`: an echo reply with its identifier. `arrived` is when it was put on the
queue, of which `arrival_time` has the seconds. -/
structure SpingQueueEntry where
  packet : Bytes
  arrived : Nat
  whole : 40 ≤ packet.length

/-- `*pckt_id`: the first two bytes behind the ICMP header. -/
def SpingQueueEntry.id (se : SpingQueueEntry) : BitVec 16 :=
  se.packet.getD 39 0 ++ se.packet.getD 38 0

/-- What `pthread_cond_timedwait` returns. -/
inductive Ret
  | zero
  | etimedout
deriving DecidableEq, Repr

/-- Where a thread is in `wait_for_reply`. A thread that waits may have begun to with its reply
queued before its deadline, and then is `late`; no step looks at this. -/
inductive Phase
  | called
  | waiting (late : Bool)
  | woken (ret : Ret)
  | returned (response : Nat)
deriving DecidableEq, Repr

/-- A call of `wait_for_reply`. -/
structure Waiter where
  id : BitVec 16
  wakeUp : Nat
  phase : Phase

/-- The queue, the clock in nanoseconds and the calls so far. -/
structure State where
  spingQueue : List SpingQueueEntry
  now : Nat
  waiters : List Waiter

/-- `wake_up`, from what `gettimeofday` gives in microseconds. -/
def wakeUp (now : Nat) : Nat :=
  let tvSec := now / 10 ^ 9
  let tvUsec := now % 10 ^ 9 / 1000
  (tvSec + 5) * 10 ^ 9 + (tvUsec + 5 * 1000)

/-- The walk along the queue: what is left of it without the first entry of that identifier, if
there is one. -/
def spingWalker (id : BitVec 16) : List SpingQueueEntry → Option (List SpingQueueEntry)
  | [] => none
  | se :: next => if se.id = id then some next else (spingWalker id next).map (se :: ·)

/-- A reply for the waiter has been queued before its deadline. -/
def Waiter.hasReply (wt : Waiter) (spingQueue : List SpingQueueEntry) : Bool :=
  spingQueue.any fun se => se.id == wt.id && decide (se.arrived < wt.wakeUp)

/-- The condition of the loop: the thread waits, or returns 1. -/
def Waiter.loop (spingQueue : List SpingQueueEntry) (ret : Ret) (wt : Waiter) : Waiter :=
  if spingQueue.isEmpty || ret == .zero then
    { wt with phase := .waiting (wt.hasReply spingQueue) }
  else { wt with phase := .returned 1 }

/-- The thread has the mutex and comes to the loop. -/
def Waiter.lock (spingQueue : List SpingQueueEntry) (wt : Waiter) : Waiter :=
  if wt.phase = .called then wt.loop spingQueue .zero else wt

/-- A broadcast, or a wake-up without one. -/
def Waiter.wake (wt : Waiter) : Waiter :=
  match wt.phase with
  | .waiting _ => { wt with phase := .woken .zero }
  | _ => wt

/-- The time given to `pthread_cond_timedwait` has passed. -/
def Waiter.timeout (now : Nat) (wt : Waiter) : Waiter :=
  match wt.phase with
  | .waiting _ => if wt.wakeUp ≤ now then { wt with phase := .woken .etimedout } else wt
  | _ => wt

/-- A thread that has the mutex again, and what it leaves of the queue. -/
def Waiter.resume (spingQueue : List SpingQueueEntry) (wt : Waiter) :
    List SpingQueueEntry × Waiter :=
  match wt.phase with
  | .woken .etimedout => (spingQueue, { wt with phase := .returned 1 })
  | .woken .zero =>
    match spingWalker wt.id spingQueue with
    | some spingQueue => (spingQueue, { wt with phase := .returned 0 })
    | none => (spingQueue, wt.loop spingQueue .zero)
  | _ => (spingQueue, wt)

/-- Threads are known by their positions in the list. -/
inductive Event
  | call (id : BitVec 16)
  | lock (w : Nat)
  | reply (packet : Bytes) (whole : 40 ≤ packet.length)
  | wake (w : Nat)
  | timeout (w : Nat)
  | resume (w : Nat)
  | tick (time : Nat)

def step (s : State) : Event → State
  | .call id => { s with waiters := s.waiters ++ [⟨id, wakeUp s.now, .called⟩] }
  | .lock w => { s with waiters := s.waiters.modify w (Waiter.lock s.spingQueue) }
  | .reply packet whole =>
    { s with
      spingQueue := s.spingQueue ++ [⟨packet, s.now, whole⟩]
      waiters := s.waiters.map Waiter.wake }
  | .wake w => { s with waiters := s.waiters.modify w Waiter.wake }
  | .timeout w => { s with waiters := s.waiters.modify w (Waiter.timeout s.now) }
  | .resume w =>
    match s.waiters[w]? with
    | some wt =>
      let (spingQueue, wt) := wt.resume s.spingQueue
      { s with spingQueue, waiters := s.waiters.set w wt }
    | none => s
  | .tick time => { s with now := s.now + time }

def machine : Machine State Event := ⟨step⟩

/-- Nobody has pinged yet. -/
def start (now : Nat) : State := ⟨[], now, []⟩

end Osnt.Scone.Sping
