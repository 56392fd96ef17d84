import Osnt.Lib.Ticketed
import Osnt.Scone.ArpQueue

/-! Where the packets are that `send_ip` has got: each waits in the ARP queue or has left it once.
A reply may find its address gone from the cache again; then `send_queued_packets` loses the packet
it was meant to send, or does not come to an end. -/
namespace Osnt.Scone.ArpQueue
open Lib Arp

/-- The packets of an entry, with the next hop they wait for. -/
def QueueEntry.pairs (aqe : QueueEntry) : List (BitVec 32 × Nat) :=
  aqe.packets.map fun packet => (aqe.nextHop, packet.ticket)

/-- What waits, entry by entry. -/
def waiting (arpQueue : List QueueEntry) : List (BitVec 32 × Nat) :=
  arpQueue.flatMap QueueEntry.pairs

def Sent.pair (s : Sent) : BitVec 32 × Nat := (s.nextHop, s.packet.ticket)

def Discarded.pair (d : Discarded) : BitVec 32 × Nat := (d.nextHop, d.packet.ticket)

/-- What has been sent after it had waited, in this order. -/
def drained (sent : List Sent) : List (BitVec 32 × Nat) :=
  (sent.filter Sent.fromQueue).map Sent.pair

/-- What has been handed to `send_ip`. Tickets are given out in a row. -/
def State.tickets (st : State) : List (BitVec 32 × Nat) := st.handed.zipIdx

/-- The queue has an entry for each next hop at most, with one to five requests; every packet is
in one place, and those for a next hop that wait or have waited are in the order of their
arrival. -/
structure Conserved (st : State) : Prop where
  single : (st.arpQueue.map QueueEntry.nextHop).Nodup
  counters : ∀ aqe ∈ st.arpQueue, 1 ≤ aqe.requests ∧ aqe.requests ≤ 5
  accounted :
    (waiting st.arpQueue ++ (st.sent.map Sent.pair ++ st.discarded.map Discarded.pair)).Perm
      st.tickets
  afterFive : ∀ d ∈ st.discarded, d.requests = 5
  inOrder : InOrder (drained st.sent ++ waiting st.arpQueue)

theorem nextHop_of_mem_pairs {aqe : QueueEntry} {x : BitVec 32 × Nat} (h : x ∈ aqe.pairs) :
    x.1 = aqe.nextHop := by
  obtain ⟨packet, _, rfl⟩ := List.mem_map.mp h
  rfl

theorem waiting_append (q r : List QueueEntry) : waiting (q ++ r) = waiting q ++ waiting r :=
  List.flatMap_append

theorem waiting_cons (aqe : QueueEntry) (q : List QueueEntry) :
    waiting (aqe :: q) = aqe.pairs ++ waiting q := List.flatMap_cons

/-- Entries for other next hops hold no packet for this one. -/
theorem waiting_ne {q : List QueueEntry} {nextHop : BitVec 32}
    (h : ∀ aqe ∈ q, aqe.nextHop ≠ nextHop) : ∀ x ∈ waiting q, x.1 ≠ nextHop := by
  intro x hx
  obtain ⟨aqe, hmem, hx⟩ := List.mem_flatMap.mp hx
  rw [nextHop_of_mem_pairs hx]
  exact h aqe hmem

/-- The other entries around one of a queue with an entry for each next hop. -/
theorem others_ne {before after : List QueueEntry} {aqe : QueueEntry}
    (h : ((before ++ aqe :: after).map QueueEntry.nextHop).Nodup) :
    (∀ x ∈ waiting before, x.1 ≠ aqe.nextHop) ∧ ∀ x ∈ waiting after, x.1 ≠ aqe.nextHop := by
  rw [List.map_append, List.map_cons, List.nodup_append] at h
  obtain ⟨_, hafter, hdisjoint⟩ := h
  refine ⟨waiting_ne fun e he => ?_, waiting_ne fun e he heq => ?_⟩
  · exact hdisjoint _ (List.mem_map_of_mem he) _ List.mem_cons_self
  · exact (List.nodup_cons.mp hafter).1 (heq ▸ List.mem_map_of_mem he)

namespace Conserved

theorem ticket_lt {st : State} (h : Conserved st) :
    ∀ x ∈ drained st.sent ++ waiting st.arpQueue, x.2 < st.handed.length := by
  intro x hx
  apply List.snd_lt_of_mem_zipIdx (k := 0)
  apply h.accounted.subset
  rcases List.mem_append.mp hx with hx | hx
  · obtain ⟨s, hs, rfl⟩ := List.mem_map.mp hx
    exact List.mem_append_right _
      (List.mem_append_left _ (List.mem_map_of_mem (List.mem_filter.mp hs).1))
  · exact List.mem_append_left _ hx

end Conserved

section
variable (time : Nat → Int)

/-- The queue has taken in a packet, behind those for its next hop. -/
structure Joins (q q' : List QueueEntry) (nextHop : BitVec 32) (ticket : Nat) : Prop where
  single : (q'.map QueueEntry.nextHop).Nodup
  counters : ∀ aqe ∈ q', 1 ≤ aqe.requests ∧ aqe.requests ≤ 5
  waiting : ∃ a b, ArpQueue.waiting q = a ++ b ∧
    ArpQueue.waiting q' = a ++ (nextHop, ticket) :: b ∧ ∀ x ∈ b, x.1 ≠ nextHop

theorem pairs_addPacket (packet : Packet) (aqe : QueueEntry) :
    (aqe.addPacket packet).pairs = aqe.pairs ++ [(aqe.nextHop, packet.ticket)] := by
  rw [QueueEntry.pairs, QueueEntry.addPacket, List.map_append]
  rfl

/-- A packet for a next hop that others wait for already. -/
theorem joins_modify {q : List QueueEntry} (hsingle : (q.map QueueEntry.nextHop).Nodup)
    (hcounters : ∀ aqe ∈ q, 1 ≤ aqe.requests ∧ aqe.requests ≤ 5) {nextHop : BitVec 32}
    (hexists : ∃ aqe ∈ q, (aqe.nextHop == nextHop) = true) (packet : Packet) :
    Joins q (modifyFirst (fun aqe => aqe.nextHop == nextHop) (QueueEntry.addPacket packet) q)
      nextHop packet.ticket := by
  obtain ⟨before, aqe, after, hq, _, hhop, hq'⟩ := modifyFirst_split hexists
    (f := QueueEntry.addPacket packet)
  rw [beq_iff_eq] at hhop
  subst hhop
  refine ⟨?_, ?_, ?_⟩
  · simp only [hq', List.map_append, List.map_cons]
    rw [hq, List.map_append, List.map_cons] at hsingle
    exact hsingle
  · intro e he
    simp only [hq'] at he
    rw [hq] at hcounters
    rcases List.mem_append.mp he with he | he
    · exact hcounters e (List.mem_append_left _ he)
    · rcases List.mem_cons.mp he with rfl | he
      · exact hcounters aqe (List.mem_append_right _ List.mem_cons_self)
      · exact hcounters e (List.mem_append_right _ (List.mem_cons_of_mem _ he))
  · refine ⟨waiting before ++ aqe.pairs, waiting after, ?_, ?_, ?_⟩
    · rw [hq, waiting_append, waiting_cons, List.append_assoc]
    · rw [hq', waiting_append, waiting_cons, pairs_addPacket, List.append_assoc,
        List.append_assoc]
      rfl
    · rw [hq] at hsingle
      exact (others_ne hsingle).2

theorem joins_append {q : List QueueEntry} (hsingle : (q.map QueueEntry.nextHop).Nodup)
    (hcounters : ∀ aqe ∈ q, 1 ≤ aqe.requests ∧ aqe.requests ≤ 5) {nextHop : BitVec 32}
    (hnone : ∀ aqe ∈ q, aqe.nextHop ≠ nextHop) (outIface : String) (now : Int)
    (packet : Packet) :
    Joins q (q ++ [⟨outIface, nextHop, 1, now, [packet]⟩]) nextHop packet.ticket := by
  refine ⟨?_, ?_, waiting q, [], (List.append_nil _).symm, ?_, by simp⟩
  · rw [List.map_append, List.map_singleton, List.nodup_append]
    refine ⟨hsingle, by simp, ?_⟩
    intro hop hmem other hother heq
    obtain ⟨aqe, haqe, rfl⟩ := List.mem_map.mp hmem
    rw [List.mem_singleton] at hother
    exact hnone aqe haqe (heq.trans hother)
  · intro e he
    rcases List.mem_append.mp he with he | he
    · exact hcounters e he
    · rw [List.mem_singleton] at he
      subst he
      exact ⟨Nat.le_refl 1, Nat.le_add_left 1 4⟩
  · rw [waiting_append]
    rfl

theorem arpQueueAdd_joins {st : State} (hsingle : (st.arpQueue.map QueueEntry.nextHop).Nodup)
    (hcounters : ∀ aqe ∈ st.arpQueue, 1 ≤ aqe.requests ∧ aqe.requests ≤ 5) (packet : Packet)
    (outIface : String) (nextHop : BitVec 32) :
    Joins st.arpQueue (arpQueueAdd time st packet outIface nextHop).arpQueue nextHop
      packet.ticket := by
  unfold arpQueueAdd
  cases hfind : getFromArpQueue st.arpQueue nextHop with
  | some found =>
    have hexists : ∃ aqe ∈ st.arpQueue, (aqe.nextHop == nextHop) = true :=
      List.find?_isSome.mp (Option.isSome_iff_exists.mpr ⟨found, hfind⟩)
    rw [Option.isSome_some, if_pos rfl]
    exact joins_modify hsingle hcounters hexists packet
  | none =>
    have hnone : ∀ aqe ∈ st.arpQueue, aqe.nextHop ≠ nextHop := fun aqe hmem heq => by
      have hne := List.find?_eq_none.mp hfind aqe hmem
      exact hne (beq_iff_eq.mpr heq)
    rw [Option.isSome_none, if_neg Bool.false_ne_true]
    exact joins_append hsingle hcounters hnone outIface (time st.timeCalls) packet

theorem arpQueueAdd_frame (st : State) (packet : Packet) (outIface : String)
    (nextHop : BitVec 32) :
    let st' := arpQueueAdd time st packet outIface nextHop
    st'.arp = st.arp ∧ st'.sent = st.sent ∧ st'.discarded = st.discarded ∧
      st'.handed = st.handed := by
  unfold arpQueueAdd
  split <;> exact ⟨rfl, rfl, rfl, rfl⟩

theorem drained_append (sent new : List Sent) :
    drained (sent ++ new) = drained sent ++ drained new := by
  rw [drained, List.filter_append, List.map_append]
  rfl

/-- A packet that is handed to `send_ip` leaves at once or waits. -/
theorem Conserved.sendNew {st : State} (h : Conserved st) (hdr : Header) (nextHop : BitVec 32)
    (outIface : String) : Conserved (sendNew time st hdr nextHop outIface) := by
  have htickets : (st.handed ++ [nextHop]).zipIdx =
      st.tickets ++ [(nextHop, st.handed.length)] := by
    rw [List.zipIdx_append, Nat.zero_add]
    rfl
  unfold ArpQueue.sendNew sendIp
  split
  · refine ⟨h.single, h.counters, ?_, h.afterFive, ?_⟩
    · change (waiting st.arpQueue ++ ((st.sent ++ [_]).map Sent.pair ++
        st.discarded.map Discarded.pair)).Perm (st.handed ++ [nextHop]).zipIdx
      rw [htickets, List.map_append, List.map_singleton]
      refine List.Perm.trans ?_ (h.accounted.append_right _)
      rw [List.append_assoc, List.append_assoc, List.append_assoc]
      exact List.Perm.append_left _ (List.Perm.append_left _ List.perm_append_comm)
    · change InOrder (drained (st.sent ++ [_]) ++ waiting st.arpQueue)
      rw [drained_append]
      exact (List.append_nil (drained st.sent)).symm ▸ h.inOrder
  · have hjoins := @arpQueueAdd_joins time { st with handed := st.handed ++ [nextHop] }
      h.single h.counters ⟨st.handed.length, hdr⟩ outIface nextHop
    obtain ⟨a, b, hq, hq', hb⟩ := hjoins.waiting
    obtain ⟨_, hsent, hdiscarded, hhanded⟩ :=
      arpQueueAdd_frame time { st with handed := st.handed ++ [nextHop] } ⟨st.handed.length, hdr⟩
        outIface nextHop
    have haccounted := h.accounted
    have horder := h.inOrder
    have hlt := h.ticket_lt
    change waiting st.arpQueue = a ++ b at hq
    rw [hq] at haccounted horder hlt
    refine ⟨hjoins.single, hjoins.counters, ?_, ?_, ?_⟩
    · rw [hq', hsent, hdiscarded, State.tickets, hhanded, htickets]
      refine List.Perm.trans ?_ (haccounted.append_right _)
      exact (List.perm_middle.append_right _).trans (List.perm_append_singleton _ _).symm
    · rw [hdiscarded]
      exact h.afterFive
    · rw [hq', hsent]
      exact horder.insert hb hlt

end

/-- The queue has given up the first packet for a next hop. -/
structure Leaves (q q' : List QueueEntry) (nextHop : BitVec 32) (ticket : Nat) : Prop where
  single : (q'.map QueueEntry.nextHop).Nodup
  counters : ∀ aqe ∈ q', 1 ≤ aqe.requests ∧ aqe.requests ≤ 5
  waiting : ∃ a b, ArpQueue.waiting q = a ++ (nextHop, ticket) :: b ∧
    ArpQueue.waiting q' = a ++ b ∧ ∀ x ∈ a, x.1 ≠ nextHop

theorem pairs_removeHead {aqe : QueueEntry} {cur : Packet} {next : List Packet}
    (h : aqe.packets = cur :: next) :
    aqe.pairs = (aqe.nextHop, cur.ticket) :: aqe.removeHead.pairs := by
  rw [QueueEntry.pairs, QueueEntry.pairs, QueueEntry.removeHead, h]
  rfl

theorem counters_modify {q : List QueueEntry} {n : Nat} {aqe : QueueEntry}
    {f : QueueEntry → QueueEntry} (h : ∀ aqe ∈ q, 1 ≤ aqe.requests ∧ aqe.requests ≤ 5)
    (hn : q[n]? = some aqe) (hf : 1 ≤ (f aqe).requests ∧ (f aqe).requests ≤ 5) :
    ∀ aqe ∈ q.modify n f, 1 ≤ aqe.requests ∧ aqe.requests ≤ 5 := by
  intro e he
  rcases (mem_modify_iff hn f e).mp he with rfl | ⟨j, _, hj⟩
  · exact hf
  · exact h e (List.mem_of_getElem? hj)

theorem Conserved.removeHead {st : State} (h : Conserved st) {n : Nat} {aqe : QueueEntry}
    (hn : st.arpQueue[n]? = some aqe) {cur : Packet} {next : List Packet}
    (hp : aqe.packets = cur :: next) :
    Leaves st.arpQueue (st.arpQueue.modify n QueueEntry.removeHead) aqe.nextHop cur.ticket := by
  obtain ⟨before, after, hq, hmodify, _⟩ := split_at hn
  refine ⟨?_, counters_modify h.counters hn (h.counters aqe (List.mem_of_getElem? hn)),
    waiting before, aqe.removeHead.pairs ++ waiting after, ?_, ?_, ?_⟩
  · rw [map_modify_of_fixed QueueEntry.nextHop QueueEntry.removeHead fun _ => rfl]
    exact h.single
  · rw [hq, waiting_append, waiting_cons, pairs_removeHead hp]
    rfl
  · rw [hmodify, waiting_append, waiting_cons]
  · have hsingle := h.single
    rw [hq] at hsingle
    exact (others_ne hsingle).1

theorem Conserved.sendHead {st : State} (h : Conserved st) {n : Nat} {aqe : QueueEntry}
    (hn : st.arpQueue[n]? = some aqe) {cur : Packet} {next : List Packet}
    (hp : aqe.packets = cur :: next) (arpHa : Mac) (outIface : String) :
    Conserved { st with
      arpQueue := st.arpQueue.modify n QueueEntry.removeHead
      sent := st.sent ++ [⟨cur, aqe.nextHop, arpHa, outIface, true⟩] } := by
  obtain ⟨hsingle, hcounters, a, b, hq, hq', ha⟩ := h.removeHead hn hp
  have haccounted := h.accounted
  have horder := h.inOrder
  rw [hq] at haccounted horder
  refine ⟨hsingle, hcounters, ?_, h.afterFive, ?_⟩
  · refine List.Perm.trans ?_ haccounted
    change (waiting (st.arpQueue.modify n QueueEntry.removeHead) ++
      ((st.sent ++ [_]).map Sent.pair ++ _)).Perm _
    rw [hq', List.map_append, List.map_singleton, List.append_assoc, List.append_assoc,
      List.append_assoc]
    refine List.Perm.append_left a ?_
    rw [List.cons_append, ← List.append_assoc b]
    refine List.perm_middle.trans ?_
    rw [List.append_assoc]
    rfl
  · change InOrder (drained (st.sent ++ [_]) ++ waiting (st.arpQueue.modify n _))
    rw [hq', drained_append]
    exact horder.move ha

/-- The first packet of an entry is given up after the fifth request. -/
theorem Conserved.discardHead {st : State} (h : Conserved st) {n : Nat} {aqe : QueueEntry}
    (hn : st.arpQueue[n]? = some aqe) {cur : Packet} {next : List Packet}
    (hp : aqe.packets = cur :: next) (hfive : aqe.requests = 5) :
    Conserved { st with
      arpQueue := st.arpQueue.modify n QueueEntry.removeHead
      discarded := st.discarded ++ [⟨cur, aqe.nextHop, aqe.requests⟩] } := by
  obtain ⟨hsingle, hcounters, a, b, hq, hq', ha⟩ := h.removeHead hn hp
  have haccounted := h.accounted
  have horder := h.inOrder
  rw [hq] at haccounted horder
  refine ⟨hsingle, hcounters, ?_, ?_, ?_⟩
  · refine List.Perm.trans ?_ haccounted
    change (waiting (st.arpQueue.modify n QueueEntry.removeHead) ++
      (_ ++ (st.discarded ++ [_]).map Discarded.pair)).Perm _
    rw [hq', List.map_append, List.map_singleton, List.append_assoc, List.append_assoc]
    refine List.Perm.append_left a ?_
    rw [List.cons_append, ← List.append_assoc, ← List.append_assoc, List.append_assoc b]
    exact List.perm_append_singleton _ _
  · intro d hd
    rcases List.mem_append.mp hd with hd | hd
    · exact h.afterFive d hd
    · rw [List.mem_singleton] at hd
      subst hd
      exact hfive
  · change InOrder (drained st.sent ++ waiting (st.arpQueue.modify n _))
    rw [hq']
    refine horder.sublist (List.Sublist.append_left ?_ _)
    exact List.Sublist.append_left (List.sublist_cons_self _ _) _

theorem Conserved.requeue {st st' : State} (h : Conserved st)
    (hsingle : (st'.arpQueue.map QueueEntry.nextHop).Nodup)
    (hcounters : ∀ aqe ∈ st'.arpQueue, 1 ≤ aqe.requests ∧ aqe.requests ≤ 5)
    (hwaiting : waiting st'.arpQueue = waiting st.arpQueue) (hsent : st'.sent = st.sent)
    (hdiscarded : st'.discarded = st.discarded) (hhanded : st'.handed = st.handed) :
    Conserved st' := by
  refine ⟨hsingle, hcounters, ?_, ?_, ?_⟩
  · rw [hwaiting, hsent, hdiscarded, State.tickets, hhanded]
    exact h.accounted
  · rw [hdiscarded]
    exact h.afterFive
  · rw [hwaiting, hsent]
    exact h.inOrder

theorem Conserved.eraseEmpty {st : State} (h : Conserved st) {n : Nat} {aqe : QueueEntry}
    (hn : st.arpQueue[n]? = some aqe) (hp : aqe.packets = []) :
    Conserved { st with arpQueue := st.arpQueue.eraseIdx n } := by
  obtain ⟨before, after, hq, _, herase, _⟩ := split_at hn
  refine h.requeue ?_ (fun e he => h.counters e (List.mem_of_mem_eraseIdx he)) ?_ rfl rfl rfl
  · exact h.single.sublist ((List.eraseIdx_sublist _ _).map _)
  · have hempty : aqe.pairs = [] := by rw [QueueEntry.pairs, hp]; rfl
    simp only [herase]
    rw [hq, waiting_append, waiting_append, waiting_cons, hempty]
    rfl

section
variable {time : Nat → Int}

/-- What a reply finds when `send_queued_packets` gets the locks: its address is in the cache, or
nothing waits for it. -/
def Ready (st : State) (destIp : BitVec 32) : Prop :=
  (st.getFromArpCache destIp).isSome = true ∨ ∀ x ∈ waiting st.arpQueue, x.1 ≠ destIp

theorem mem_waiting {st : State} {n : Nat} {aqe : QueueEntry} (hn : st.arpQueue[n]? = some aqe)
    {cur : Packet} (hp : cur ∈ aqe.packets) : (aqe.nextHop, cur.ticket) ∈ waiting st.arpQueue :=
  List.mem_flatMap.mpr
    ⟨aqe, List.mem_of_getElem? hn, List.mem_map.mpr ⟨cur, hp, rfl⟩⟩

theorem Ready.cached {st : State} {n : Nat} {aqe : QueueEntry} (h : Ready st aqe.nextHop)
    (hn : st.arpQueue[n]? = some aqe) {cur : Packet} (hp : cur ∈ aqe.packets) :
    ∃ ace, st.getFromArpCache aqe.nextHop = some ace := by
  rcases h with h | h
  · exact Option.isSome_iff_exists.mp h
  · exact absurd rfl (h _ (mem_waiting hn hp))

/-- The first packet of an entry as it is sent to an address of the cache. -/
def State.sendHead (st : State) (n : Nat) (aqe : QueueEntry) (cur : Packet) (ace : CacheEntry) :
    State :=
  { st with
    arpQueue := st.arpQueue.modify n QueueEntry.removeHead
    sent := st.sent ++ [⟨cur, aqe.nextHop, ace.arpHa, aqe.outIfaceName, true⟩] }

theorem getElem?_sendHead {st : State} {n : Nat} {aqe : QueueEntry}
    (hn : st.arpQueue[n]? = some aqe) (cur : Packet) (ace : CacheEntry) :
    (st.sendHead n aqe cur ace).arpQueue[n]? = some aqe.removeHead := by
  change (st.arpQueue.modify n QueueEntry.removeHead)[n]? = _
  rw [List.getElem?_modify, hn]
  exact congrArg some (if_pos rfl)

theorem sendPackets_cached (fuel : Nat) {st : State} {n : Nat} {aqe : QueueEntry}
    (hn : st.arpQueue[n]? = some aqe) {cur : Packet} {next : List Packet}
    (hp : aqe.packets = cur :: next) {ace : CacheEntry}
    (hace : st.getFromArpCache aqe.nextHop = some ace) :
    sendPackets time (fuel + 1) st n =
      if next.isEmpty then some (st.sendHead n aqe cur ace)
      else sendPackets time fuel (st.sendHead n aqe cur ace) n := by
  rw [sendPackets, hn]
  simp only [Option.bind_eq_bind, Option.bind_some, hp, sendIp, hace, Option.pure_def]
  rfl

theorem sendPackets_empty (fuel : Nat) {st : State} {n : Nat} {aqe : QueueEntry}
    (hn : st.arpQueue[n]? = some aqe) (hp : aqe.packets = []) :
    sendPackets time (fuel + 1) st n = some st := by
  rw [sendPackets, hn]
  simp only [Option.bind_eq_bind, Option.bind_some, hp, Option.pure_def]

/-- The loop over the packets of an entry empties it. -/
structure Emptied (st : State) (n : Nat) (st' : State) : Prop where
  conserved : Conserved st'
  arp : st'.arp = st.arp
  empty : ∃ aqe, st'.arpQueue[n]? = some aqe ∧ aqe.packets = []
  waiting : ArpQueue.waiting st'.arpQueue ⊆ ArpQueue.waiting st.arpQueue
  others : st'.arpQueue.eraseIdx n = st.arpQueue.eraseIdx n

theorem sendHead_waiting {st : State} (h : Conserved st) {n : Nat} {aqe : QueueEntry}
    (hn : st.arpQueue[n]? = some aqe) {cur : Packet} {next : List Packet}
    (hp : aqe.packets = cur :: next) (ace : CacheEntry) :
    waiting (st.sendHead n aqe cur ace).arpQueue ⊆ waiting st.arpQueue := by
  obtain ⟨a, b, hq, hq', _⟩ := (h.removeHead hn hp).waiting
  change waiting (st.arpQueue.modify n QueueEntry.removeHead) ⊆ _
  rw [hq, hq']
  exact (List.Sublist.append_left (List.sublist_cons_self _ _) _).subset

theorem sendPackets_emptied {fuel n : Nat} {st st' : State} (h : Conserved st) {aqe : QueueEntry}
    (hn : st.arpQueue[n]? = some aqe) (hready : Ready st aqe.nextHop)
    (heq : sendPackets time fuel st n = some st') : Emptied st n st' := by
  induction fuel generalizing st aqe with
  | zero => cases heq
  | succ fuel ih =>
    cases hp : aqe.packets with
    | nil =>
      rw [sendPackets_empty fuel hn hp, Option.some.injEq] at heq
      subst heq
      exact ⟨h, rfl, ⟨aqe, hn, hp⟩, List.Subset.refl _, rfl⟩
    | cons cur next =>
      obtain ⟨ace, hace⟩ := hready.cached hn (hp ▸ List.mem_cons_self : cur ∈ aqe.packets)
      have hsent : Conserved (st.sendHead n aqe cur ace) :=
        h.sendHead hn hp ace.arpHa aqe.outIfaceName
      have hwaiting := sendHead_waiting h hn hp ace
      have hothers : (st.sendHead n aqe cur ace).arpQueue.eraseIdx n = st.arpQueue.eraseIdx n :=
        List.eraseIdx_modify_of_eq _ _ _
      rw [sendPackets_cached fuel hn hp hace] at heq
      split at heq
      · rename_i hlast
        cases heq
        refine ⟨hsent, rfl, ⟨aqe.removeHead, getElem?_sendHead hn cur ace, ?_⟩, hwaiting, hothers⟩
        rw [QueueEntry.removeHead, hp]
        exact List.isEmpty_iff.mp hlast
      · obtain ⟨hcons, harp, hempty, hsub, hother⟩ := ih hsent (getElem?_sendHead hn cur ace)
          (.inl (Option.isSome_iff_exists.mpr ⟨ace, hace⟩)) heq
        exact ⟨hcons, harp, hempty, List.Subset.trans hsub hwaiting, hother.trans hothers⟩

theorem sendQueuedPackets_cases {fuel n : Nat} {st st' : State} {destIp : BitVec 32}
    (heq : sendQueuedPackets time (fuel + 1) st destIp n = some st') :
    (st.arpQueue[n]? = none ∧ st' = st) ∨
    ∃ aqe, st.arpQueue[n]? = some aqe ∧
      ((destIp = aqe.nextHop ∧ ∃ sent, sendPackets time fuel st n = some sent ∧
          (st' = { sent with arpQueue := sent.arpQueue.eraseIdx n } ∨
            sendQueuedPackets time fuel { sent with arpQueue := sent.arpQueue.eraseIdx n } destIp
              n = some st')) ∨
        (destIp ≠ aqe.nextHop ∧ ((n + 1 = st.arpQueue.length ∧ st' = st) ∨
          sendQueuedPackets time fuel st destIp (n + 1) = some st'))) := by
  rw [sendQueuedPackets] at heq
  split at heq
  · rename_i hnone
    cases heq
    exact .inl ⟨hnone, rfl⟩
  · rename_i aqe hn
    refine .inr ⟨aqe, hn, ?_⟩
    split at heq
    · rename_i hhop
      obtain ⟨sent, hsent, heq⟩ := Option.bind_eq_some_iff.mp heq
      refine .inl ⟨hhop, sent, hsent, ?_⟩
      split at heq
      · cases heq
        exact .inl rfl
      · exact .inr heq
    · rename_i hhop
      refine .inr ⟨hhop, ?_⟩
      dsimp only at heq
      split at heq
      · rename_i hlast
        cases heq
        exact .inl ⟨beq_iff_eq.mp hlast, rfl⟩
      · exact .inr heq

theorem Ready.erase {st sent : State} {destIp : BitVec 32} {n : Nat} (h : Ready st destIp)
    (he : Emptied st n sent) :
    Ready { sent with arpQueue := sent.arpQueue.eraseIdx n } destIp := by
  rcases h with h | h
  · left
    change (inArpCache sent.arp.arpCache destIp).isSome = true
    rw [he.arp]
    exact h
  · right
    intro x hx
    obtain ⟨aqe, hmem, hx⟩ := List.mem_flatMap.mp hx
    exact h x (he.waiting (List.mem_flatMap.mpr ⟨aqe, List.mem_of_mem_eraseIdx hmem, hx⟩))

theorem sendQueuedPackets_conserved {fuel n : Nat} {st st' : State} {destIp : BitVec 32}
    (h : Conserved st) (hready : Ready st destIp)
    (heq : sendQueuedPackets time fuel st destIp n = some st') : Conserved st' := by
  induction fuel generalizing st n with
  | zero => cases heq
  | succ fuel ih =>
    rcases sendQueuedPackets_cases heq with
      ⟨_, rfl⟩ | ⟨aqe, hn, ⟨rfl, sent, hsent, hst'⟩ | ⟨_, hst'⟩⟩
    · exact h
    · have hemptied := sendPackets_emptied h hn hready hsent
      obtain ⟨empty, hempty, hp⟩ := hemptied.empty
      have hcons := hemptied.conserved.eraseEmpty hempty hp
      rcases hst' with rfl | heq
      · exact hcons
      · exact ih hcons (hready.erase hemptied) heq
    · rcases hst' with ⟨_, rfl⟩ | heq
      · exact h
      · exact ih h hready heq

theorem exists_sendPackets {fuel n : Nat} {st : State} {aqe : QueueEntry}
    (hn : st.arpQueue[n]? = some aqe) (hready : Ready st aqe.nextHop)
    (hfuel : aqe.packets.length < fuel) : ∃ st', sendPackets time fuel st n = some st' := by
  induction fuel generalizing st aqe with
  | zero => exact absurd hfuel (Nat.not_lt_zero _)
  | succ fuel ih =>
    cases hp : aqe.packets with
    | nil => exact ⟨st, sendPackets_empty fuel hn hp⟩
    | cons cur next =>
      obtain ⟨ace, hace⟩ := hready.cached hn (hp ▸ List.mem_cons_self : cur ∈ aqe.packets)
      rw [sendPackets_cached fuel hn hp hace]
      split
      · exact ⟨_, rfl⟩
      · refine ih (getElem?_sendHead hn cur ace)
          (.inl (Option.isSome_iff_exists.mpr ⟨ace, hace⟩)) ?_
        rw [hp, List.length_cons] at hfuel
        rw [QueueEntry.removeHead, hp]
        exact Nat.lt_of_succ_lt_succ hfuel

theorem exists_sendQueuedPackets {fuel n : Nat} {st : State} {destIp : BitVec 32}
    (h : Conserved st) (hready : Ready st destIp)
    (hfuel : (waiting (st.arpQueue.drop n)).length + (st.arpQueue.drop n).length < fuel) :
    ∃ st', sendQueuedPackets time fuel st destIp n = some st' := by
  induction fuel generalizing st n with
  | zero => exact absurd hfuel (Nat.not_lt_zero _)
  | succ fuel ih =>
    rw [sendQueuedPackets]
    split
    · exact ⟨st, rfl⟩
    · rename_i aqe hn
      obtain ⟨hlt, haqe⟩ := List.getElem?_eq_some_iff.mp hn
      have hlength : aqe.pairs.length = aqe.packets.length := List.length_map _
      rw [List.drop_eq_getElem_cons hlt, haqe, waiting_cons, List.length_append, List.length_cons,
        hlength] at hfuel
      split
      · rename_i hhop
        subst hhop
        obtain ⟨sent, hsent⟩ := @exists_sendPackets time fuel n st aqe hn hready (by omega)
        have hemptied := sendPackets_emptied h hn hready hsent
        obtain ⟨empty, hempty, hp⟩ := hemptied.empty
        simp only [hsent, Option.bind_eq_bind, Option.bind_some]
        split
        · exact ⟨_, rfl⟩
        · refine ih (hemptied.conserved.eraseEmpty hempty hp) (hready.erase hemptied) ?_
          have hdrop : (sent.arpQueue.eraseIdx n).drop n = st.arpQueue.drop (n + 1) := by
            rw [hemptied.others, drop_eraseIdx]
          simp only [hdrop]
          omega
      · dsimp only
        split
        · exact ⟨_, rfl⟩
        · exact ih h hready (by omega)

/-- The first packet of an entry put behind the others. -/
def QueueEntry.rotate (cur : Packet) (aqe : QueueEntry) : QueueEntry :=
  (aqe.addPacket cur).removeHead

/-- Without an address `send_ip` puts the packet back on the entry that is being emptied. -/
theorem sendIp_uncached {st : State} (hsingle : (st.arpQueue.map QueueEntry.nextHop).Nodup)
    {n : Nat} {aqe : QueueEntry} (hn : st.arpQueue[n]? = some aqe)
    (huncached : st.getFromArpCache aqe.nextHop = none) (cur : Packet) (outIface : String) :
    sendIp time st cur aqe.nextHop outIface true =
      { st with arpQueue := st.arpQueue.modify n (QueueEntry.addPacket cur) } := by
  have hfound : (getFromArpQueue st.arpQueue aqe.nextHop).isSome = true := by
    rw [getFromArpQueue, List.find?_isSome]
    exact ⟨aqe, List.mem_of_getElem? hn, beq_self_eq_true _⟩
  rw [sendIp, huncached]
  simp only [arpQueueAdd, hfound, if_true]
  rw [modifyFirst_eq_modify hsingle hn]

/-- The loop over the packets goes in a circle, unless there is only one, which stays where it
was. -/
theorem sendPackets_uncached {fuel n : Nat} {st st' : State}
    (hsingle : (st.arpQueue.map QueueEntry.nextHop).Nodup) {aqe : QueueEntry}
    (hn : st.arpQueue[n]? = some aqe) (huncached : st.getFromArpCache aqe.nextHop = none)
    (heq : sendPackets time fuel st n = some st') : st' = st ∧ aqe.packets.length ≤ 1 := by
  induction fuel generalizing st aqe with
  | zero => cases heq
  | succ fuel ih =>
    cases hp : aqe.packets with
    | nil =>
      rw [sendPackets_empty fuel hn hp, Option.some.injEq] at heq
      exact ⟨heq.symm, Nat.zero_le 1⟩
    | cons cur next =>
      rw [sendPackets, hn] at heq
      simp only [Option.bind_eq_bind, Option.bind_some, hp, Option.pure_def,
        sendIp_uncached hsingle hn huncached, List.modify_modify_eq] at heq
      change (if next.isEmpty = true then some { st with
        arpQueue := st.arpQueue.modify n (QueueEntry.rotate cur) } else sendPackets time fuel
        { st with arpQueue := st.arpQueue.modify n (QueueEntry.rotate cur) } n) = _ at heq
      have hrotated : (aqe.rotate cur).packets = next ++ [cur] := by
        rw [QueueEntry.rotate, QueueEntry.removeHead, QueueEntry.addPacket, hp]
        rfl
      split at heq
      · rename_i hlast
        rw [List.isEmpty_iff] at hlast
        subst hlast
        have hself : aqe.rotate cur = aqe := by
          change { aqe with packets := (aqe.rotate cur).packets } = aqe
          rw [hrotated, List.nil_append, ← hp]
        rw [modify_of_fixed hn hself, Option.some.injEq] at heq
        exact ⟨heq.symm, Nat.le_refl 1⟩
      · rename_i hmore
        have hmap := map_modify_of_fixed QueueEntry.nextHop (QueueEntry.rotate cur)
          (fun _ => rfl) st.arpQueue n
        have hn' : (st.arpQueue.modify n (QueueEntry.rotate cur))[n]? = some (aqe.rotate cur) := by
          rw [List.getElem?_modify, hn]
          exact congrArg some (if_pos rfl)
        have hlength := (@ih { st with arpQueue := st.arpQueue.modify n (QueueEntry.rotate cur) }
          (by rw [hmap]; exact hsingle) _ hn' huncached heq).2
        rw [hrotated, List.length_append, List.length_singleton] at hlength
        have hnil : next = [] := List.eq_nil_of_length_eq_zero (by omega)
        exact absurd (List.isEmpty_iff.mpr hnil) hmore

theorem sendQueuedPackets_other {fuel n : Nat} {st st' : State} {destIp : BitVec 32}
    (hother : ∀ aqe ∈ st.arpQueue, aqe.nextHop ≠ destIp)
    (heq : sendQueuedPackets time fuel st destIp n = some st') : st' = st := by
  induction fuel generalizing n with
  | zero => cases heq
  | succ fuel ih =>
    rcases sendQueuedPackets_cases heq with ⟨_, rfl⟩ | ⟨aqe, hn, ⟨rfl, _⟩ | ⟨_, ⟨_, rfl⟩ | heq⟩⟩
    · rfl
    · exact absurd rfl (hother aqe (List.mem_of_getElem? hn))
    · rfl
    · exact ih heq

/-- The packet of the entry is gone with it. -/
structure Lost (st st' : State) : Prop where
  waiting : (ArpQueue.waiting st'.arpQueue).length < (ArpQueue.waiting st.arpQueue).length
  sent : st'.sent = st.sent
  discarded : st'.discarded = st.discarded
  handed : st'.handed = st.handed

/-- A reply without an address in the cache comes to an end for a single packet, which is lost. -/
theorem sendQueuedPackets_lost {fuel n k : Nat} {st st' : State}
    (hsingle : (st.arpQueue.map QueueEntry.nextHop).Nodup) {aqe : QueueEntry}
    (hk : st.arpQueue[k]? = some aqe) (huncached : st.getFromArpCache aqe.nextHop = none)
    (hp : aqe.packets ≠ []) (hle : n ≤ k)
    (heq : sendQueuedPackets time fuel st aqe.nextHop n = some st') :
    Lost st st' ∧ aqe.packets.length ≤ 1 := by
  have hlt := (List.getElem?_eq_some_iff.mp hk).1
  induction fuel generalizing n with
  | zero => cases heq
  | succ fuel ih =>
    rcases sendQueuedPackets_cases heq with
      ⟨hnone, _⟩ | ⟨e, hn, ⟨hhop, sent, hsent, hst'⟩ | ⟨hhop, hst'⟩⟩
    · have := List.getElem?_eq_none_iff.mp hnone
      omega
    · obtain rfl := eq_of_getElem?_of_nodup hsingle hk hn hhop
      obtain rfl := Option.some.inj (hk.symm.trans hn)
      obtain ⟨rfl, hone⟩ := sendPackets_uncached hsingle hk huncached hsent
      obtain ⟨before, after, hq, _, herase, _⟩ := split_at hk
      have hst'' : st' = { sent with arpQueue := sent.arpQueue.eraseIdx k } := by
        rcases hst' with rfl | heq
        · rfl
        · refine sendQueuedPackets_other (fun e he hhop' => ?_) heq
          simp only [herase] at he
          rw [hq, List.map_append, List.map_cons] at hsingle
          have hperm := (List.nodup_cons.mp (List.perm_middle.nodup_iff.mp hsingle)).1
          rw [← List.map_append] at hperm
          exact hperm (hhop' ▸ List.mem_map_of_mem he)
      subst hst''
      refine ⟨⟨?_, rfl, rfl, rfl⟩, hone⟩
      simp only [herase]
      rw [hq, waiting_append, waiting_append, waiting_cons, List.length_append, List.length_append,
        List.length_append, QueueEntry.pairs, List.length_map]
      have := List.length_pos_iff.mpr hp
      omega
    · have hne : n ≠ k := by
        rintro rfl
        obtain rfl := Option.some.inj (hk.symm.trans hn)
        exact hhop rfl
      rcases hst' with ⟨hlast, _⟩ | heq
      · omega
      · exact ih (by omega) heq

theorem Lost.not_conserved {st st' : State} (hlost : Lost st st') (h : Conserved st) :
    ¬ Conserved st' := by
  intro h'
  have hlength := h.accounted.length_eq
  have hlength' := h'.accounted.length_eq
  have hfewer := hlost.waiting
  rw [State.tickets, hlost.handed, hlost.sent, hlost.discarded] at hlength'
  simp only [State.tickets, List.length_append] at hlength hlength'
  omega

end
end Osnt.Scone.ArpQueue
