import Mathlib.Tactic.ByContra
import Osnt.Proofs.ArpPinned
import Osnt.Proofs.ArpQueue

namespace Osnt.Scone.ArpQueue
open Lib Arp

variable {time : Nat → Int}

/-- Packets that have been sent, given up or handed in stay so; what is sent goes to the address the
cache has for its next hop. -/
structure Extends (st st' : State) : Prop where
  sent : ∃ new, st'.sent = st.sent ++ new ∧
    ∀ s ∈ new, ∃ ace, st.getFromArpCache s.nextHop = some ace ∧ s.arpHa = ace.arpHa
  discarded : st.discarded <+: st'.discarded
  handed : st.handed <+: st'.handed

/-- In between the cache is locked. -/
structure Within (st st' : State) : Prop extends Extends st st' where
  arp : st'.arp = st.arp

theorem Within.refl (st : State) : Within st st where
  sent := ⟨[], (List.append_nil _).symm, fun _ h => absurd h (List.not_mem_nil)⟩
  discarded := List.prefix_refl _
  handed := List.prefix_refl _
  arp := rfl

theorem Within.trans {a b c : State} (h : Within a b) (h' : Within b c) : Within a c where
  sent := by
    obtain ⟨new, hnew, hheld⟩ := h.sent
    obtain ⟨more, hmore, hheld'⟩ := h'.sent
    refine ⟨new ++ more, by rw [hmore, hnew, List.append_assoc], fun s hs => ?_⟩
    rcases List.mem_append.mp hs with hs | hs
    · exact hheld s hs
    · have hcache : b.getFromArpCache s.nextHop = a.getFromArpCache s.nextHop := by
        rw [State.getFromArpCache, h.arp]
        rfl
      rw [← hcache]
      exact hheld' s hs
  discarded := h.discarded.trans h'.discarded
  handed := h.handed.trans h'.handed
  arp := h'.arp.trans h.arp

theorem Within.of_eq {st st' : State} (hsent : st'.sent = st.sent)
    (hdiscarded : st.discarded <+: st'.discarded) (hhanded : st.handed <+: st'.handed)
    (harp : st'.arp = st.arp) : Within st st' where
  sent := ⟨[], by rw [hsent, List.append_nil], fun _ h => absurd h (List.not_mem_nil)⟩
  discarded := hdiscarded
  handed := hhanded
  arp := harp

theorem within_sendIp (st : State) (packet : Packet) (nextHop : BitVec 32) (outIface : String)
    (fromQueue : Bool) : Within st (sendIp time st packet nextHop outIface fromQueue) := by
  unfold sendIp
  split
  · rename_i ace hace
    refine ⟨⟨⟨_, rfl, fun s hs => ?_⟩, List.prefix_refl _, List.prefix_refl _⟩, rfl⟩
    rw [List.mem_singleton] at hs
    subst hs
    exact ⟨ace, hace, rfl⟩
  · obtain ⟨harp, hsent, hdiscarded, hhanded⟩ :=
      arpQueueAdd_frame time st packet outIface nextHop
    exact .of_eq hsent (hdiscarded ▸ List.prefix_refl _) (hhanded ▸ List.prefix_refl _) harp

theorem within_sendNew (st : State) (hdr : Header) (nextHop : BitVec 32) (outIface : String) :
    Within st (sendNew time st hdr nextHop outIface) := by
  have hhanded : Within st { st with handed := st.handed ++ [nextHop] } :=
    .of_eq rfl (List.prefix_refl _) (List.prefix_append _ _) rfl
  have hsend := @within_sendIp time { st with handed := st.handed ++ [nextHop] }
    ⟨st.handed.length, hdr⟩ nextHop outIface false
  exact hhanded.trans hsend

theorem within_sendPackets {fuel n : Nat} {st st' : State}
    (heq : sendPackets time fuel st n = some st') : Within st st' := by
  induction fuel generalizing st with
  | zero => cases heq
  | succ fuel ih =>
    rw [sendPackets] at heq
    obtain ⟨aqe, _, heq⟩ := Option.bind_eq_some_iff.mp heq
    split at heq
    · cases heq
      exact .refl _
    · rename_i cur next hp
      have hsend := @within_sendIp time st cur aqe.nextHop aqe.outIfaceName true
      have hremove : Within st { sendIp time st cur aqe.nextHop aqe.outIfaceName true with
          arpQueue := (sendIp time st cur aqe.nextHop aqe.outIfaceName true).arpQueue.modify n
            QueueEntry.removeHead } :=
        hsend.trans (.of_eq rfl (List.prefix_refl _) (List.prefix_refl _) rfl)
      dsimp only at heq
      split at heq
      · cases heq
        exact hremove
      · exact hremove.trans (ih heq)

theorem within_sendQueuedPackets {fuel n : Nat} {st st' : State} {destIp : BitVec 32}
    (heq : sendQueuedPackets time fuel st destIp n = some st') : Within st st' := by
  induction fuel generalizing st n with
  | zero => cases heq
  | succ fuel ih =>
    rcases sendQueuedPackets_cases heq with
      ⟨_, rfl⟩ | ⟨aqe, _, ⟨_, sent, hsent, hst'⟩ | ⟨_, ⟨_, rfl⟩ | heq⟩⟩
    · exact .refl _
    · have herase : Within st { sent with arpQueue := sent.arpQueue.eraseIdx n } :=
        (within_sendPackets hsent).trans (.of_eq rfl (List.prefix_refl _) (List.prefix_refl _) rfl)
      rcases hst' with rfl | heq
      · exact herase
      · exact herase.trans (ih heq)
    · exact .refl _
    · exact ih heq

theorem reportHostUnreachable_cases {st st' : State} {hdr : Header}
    (heq : reportHostUnreachable time st hdr = some st') :
    st' = st ∨ ∃ error nextHop outIface, st' = sendNew time st error nextHop outIface := by
  unfold reportHostUnreachable sendIcmpPacket at heq
  split at heq
  · split at heq
    · cases heq
      exact .inl rfl
    · obtain ⟨_, _, heq⟩ := Option.bind_eq_some_iff.mp heq
      obtain ⟨_, _, heq⟩ := Option.bind_eq_some_iff.mp heq
      cases heq
      exact .inr ⟨_, _, _, rfl⟩
  · cases heq
    exact .inl rfl

/-- An entry has gained packets at most. -/
def Gains (aqe aqe' : QueueEntry) : Prop :=
  ∃ more, aqe' = { aqe with packets := aqe.packets ++ more }

theorem sendNew_gains {st : State} {n : Nat} {aqe : QueueEntry} (hn : st.arpQueue[n]? = some aqe)
    (hdr : Header) (nextHop : BitVec 32) (outIface : String) :
    ∃ aqe', (sendNew time st hdr nextHop outIface).arpQueue[n]? = some aqe' ∧ Gains aqe aqe' := by
  have hself : Gains aqe aqe := ⟨[], by rw [List.append_nil]⟩
  unfold sendNew sendIp
  split
  · exact ⟨aqe, hn, hself⟩
  · unfold arpQueueAdd
    split
    · rcases getElem?_modifyFirst (p := fun aqe => aqe.nextHop == nextHop)
        (f := QueueEntry.addPacket ⟨st.handed.length, hdr⟩) hn with h | ⟨_, h⟩
      · exact ⟨aqe, h, hself⟩
      · exact ⟨_, h, [⟨st.handed.length, hdr⟩], rfl⟩
    · exact ⟨aqe, List.getElem?_append_left (List.getElem?_eq_some_iff.mp hn).1 ▸ hn, hself⟩

/-- What one report keeps. -/
structure Reported (st : State) (n : Nat) (aqe : QueueEntry) (st' : State) : Prop where
  conserved : Conserved st → Conserved st'
  within : Within st st'
  gains : st.arpQueue[n]? = some aqe → ∃ aqe', st'.arpQueue[n]? = some aqe' ∧ Gains aqe aqe'

theorem reported_of_eq {st st' : State} {hdr : Header}
    (heq : reportHostUnreachable time st hdr = some st') (n : Nat) (aqe : QueueEntry) :
    Reported st n aqe st' := by
  rcases reportHostUnreachable_cases heq with rfl | ⟨error, nextHop, outIface, rfl⟩
  · exact ⟨id, .refl _, fun hn => ⟨aqe, hn, [], by rw [List.append_nil]⟩⟩
  · exact ⟨fun h => h.sendNew time error nextHop outIface, within_sendNew st error nextHop outIface,
      fun hn => sendNew_gains hn error nextHop outIface⟩

/-- The packets of an entry are given up after its fifth request. -/
theorem discardPackets_emptied {fuel n : Nat} {st st' : State} {aqe : QueueEntry}
    (h : Conserved st) (hn : st.arpQueue[n]? = some aqe) (hfive : aqe.requests = 5)
    (heq : discardPackets time fuel st n = some st') :
    Conserved st' ∧ Within st st' ∧ ∃ e, st'.arpQueue[n]? = some e ∧ e.packets = [] := by
  induction fuel generalizing st aqe with
  | zero => cases heq
  | succ fuel ih =>
    rw [discardPackets, hn] at heq
    simp only [Option.bind_eq_bind, Option.bind_some] at heq
    split at heq
    · rename_i hp
      cases heq
      exact ⟨h, .refl _, aqe, hn, hp⟩
    · rename_i cur next hp
      obtain ⟨st₁, hreport, heq⟩ := Option.bind_eq_some_iff.mp heq
      obtain ⟨hcons, hwithin, hgains⟩ := reported_of_eq hreport n aqe
      obtain ⟨_, hn₁, more, rfl⟩ := hgains hn
      have hp₁ : aqe.packets ++ more = cur :: (next ++ more) := by rw [hp, List.cons_append]
      have hdiscard := (hcons h).discardHead hn₁ hp₁ hfive
      have hremoved : (st₁.arpQueue.modify n QueueEntry.removeHead)[n]? =
          some (QueueEntry.removeHead { aqe with packets := aqe.packets ++ more }) := by
        rw [List.getElem?_modify, hn₁]
        exact congrArg some (if_pos rfl)
      obtain ⟨hcons', hwithin', hempty⟩ := ih hdiscard hremoved hfive heq
      refine ⟨hcons', hwithin.trans (Within.trans ?_ hwithin'), hempty⟩
      exact .of_eq rfl (List.prefix_append _ _) (List.prefix_refl _) rfl

theorem processEntry_kept {fuel n next : Nat} {st st' : State} {aqe : QueueEntry}
    (h : Conserved st) (hn : st.arpQueue[n]? = some aqe)
    (heq : processEntry time fuel st n aqe = some (st', next)) :
    Conserved st' ∧ Within st st' := by
  have hbounds := h.counters aqe (List.mem_of_getElem? hn)
  have hread : Conserved { st with timeCalls := st.timeCalls + 1 } :=
    h.requeue h.single h.counters rfl rfl rfl rfl
  have hwithin : ∀ {st' : State}, st'.sent = st.sent → st'.discarded = st.discarded →
      st'.handed = st.handed → st'.arp = st.arp → Within st st' := fun hs hd hh ha =>
    .of_eq hs (hd ▸ List.prefix_refl _) (hh ▸ List.prefix_refl _) ha
  unfold processEntry at heq
  dsimp only at heq
  split at heq
  · split at heq
    · -- Another request leaves the packets where they are.
      rename_i hlt
      cases heq
      refine ⟨h.requeue ?_ ?_ ?_ rfl rfl rfl, hwithin rfl rfl rfl rfl⟩
      · change ((st.arpQueue.modify n _).map QueueEntry.nextHop).Nodup
        rw [map_modify_of_fixed QueueEntry.nextHop (QueueEntry.requestAgain _) fun _ => rfl]
        exact h.single
      · refine counters_modify h.counters hn ⟨Nat.le_add_left 1 _, ?_⟩
        change aqe.requests + 1 ≤ 5
        omega
      · obtain ⟨before, after, hq, hmodify, _⟩ := split_at hn
        change waiting (st.arpQueue.modify n _) = _
        rw [hmodify, hq, waiting_append, waiting_append, waiting_cons, waiting_cons]
        rfl
    · rename_i hge
      obtain ⟨st₁, hdiscard, heq⟩ := Option.bind_eq_some_iff.mp heq
      cases heq
      obtain ⟨hcons, hwithin₁, empty, hempty, hp⟩ :=
        discardPackets_emptied hread hn (by omega) hdiscard
      have hread' : Within st { st with timeCalls := st.timeCalls + 1 } := hwithin rfl rfl rfl rfl
      refine ⟨hcons.eraseEmpty hempty hp, (hread'.trans hwithin₁).trans ?_⟩
      exact .of_eq rfl (List.prefix_refl _) (List.prefix_refl _) rfl
  · cases heq
    exact ⟨hread, hwithin rfl rfl rfl rfl⟩

/-- A pass over the queue loses no packet and sends none twice. -/
theorem processArpQueue_kept {fuel n : Nat} {st st' : State} (h : Conserved st)
    (heq : processArpQueue time fuel st n = some st') : Conserved st' ∧ Within st st' := by
  induction fuel generalizing st n with
  | zero => cases heq
  | succ fuel ih =>
    rw [processArpQueue] at heq
    split at heq
    · cases heq
      exact ⟨h, .refl _⟩
    · rename_i aqe hn
      obtain ⟨⟨st₁, next⟩, hentry, heq⟩ := Option.bind_eq_some_iff.mp heq
      obtain ⟨hcons, hwithin⟩ := processEntry_kept h hn hentry
      dsimp only at heq
      split at heq
      · cases heq
        exact ⟨hcons, hwithin⟩
      · obtain ⟨hcons', hwithin'⟩ := ih hcons heq
        exact ⟨hcons', hwithin.trans hwithin'⟩

/-- Before anything has happened. -/
structure Start (st : State) : Prop where
  arpQueue : st.arpQueue = []
  sent : st.sent = []
  discarded : st.discarded = []
  handed : st.handed = []

theorem Start.conserved {st : State} (h : Start st) : Conserved st := by
  refine ⟨?_, ?_, ?_, ?_, ?_⟩
  · rw [h.arpQueue]
    exact List.nodup_nil
  · rw [h.arpQueue]
    exact fun _ hmem => absurd hmem List.not_mem_nil
  · rw [h.arpQueue, h.sent, h.discarded, State.tickets, h.handed]
    exact List.Perm.refl _
  · rw [h.discarded]
    exact fun _ hmem => absurd hmem List.not_mem_nil
  · rw [h.arpQueue, h.sent]
    exact InOrder.nil

/-- A reply gets the locks before its address has gone from the cache, or nothing waits for it. -/
def InTime (st : State) : Event → Prop
  | .sendQueuedPackets destIp => Ready st destIp
  | _ => True

/-- A run of sections of code in any order, every reply in time. -/
inductive Run (time : Nat → Int) : State → State → Prop
  | nil (st : State) : Run time st st
  | step {st st' st'' : State} {e : Event} :
    Run time st st' → InTime st' e → Step time st' e st'' → Run time st st''

theorem Conserved.takeReply {st : State} (h : Conserved st) (destIp : BitVec 32) :
    Conserved { st with pending := st.pending.erase destIp } :=
  h.requeue h.single h.counters rfl rfl rfl rfl

theorem Step.kept {st st' : State} {e : Event} (hstep : Step time st e st') (h : Conserved st) :
    (InTime st e → Conserved st') ∧ Extends st st' := by
  cases hstep with
  | sendIp hdr nextHop outIface =>
    exact ⟨fun _ => h.sendNew time hdr nextHop outIface,
      (within_sendNew st hdr nextHop outIface).toExtends⟩
  | cache _ =>
    refine ⟨fun _ => h.requeue h.single h.counters rfl rfl rfl rfl, ?_⟩
    exact ⟨⟨[], (List.append_nil _).symm, fun _ hmem => absurd hmem List.not_mem_nil⟩,
      List.prefix_refl _, List.prefix_refl _⟩
  | sendQueuedPackets _ heq =>
    have hwithin := within_sendQueuedPackets heq
    exact ⟨fun htime => sendQueuedPackets_conserved (h.takeReply _) htime heq,
      ⟨hwithin.sent, hwithin.discarded, hwithin.handed⟩⟩
  | processArpQueue heq =>
    obtain ⟨hcons, hwithin⟩ := processArpQueue_kept h heq
    exact ⟨fun _ => hcons, hwithin.toExtends⟩
  | tables ifList rtable =>
    refine ⟨fun _ => h.requeue h.single h.counters rfl rfl rfl rfl, ?_⟩
    exact (Within.of_eq rfl (List.prefix_refl _) (List.prefix_refl _) rfl :
      Within st { st with ifList, rtable }).toExtends

theorem Run.conserved {st st' : State} (h : Run time st st') (hstart : Start st) :
    Conserved st' := by
  induction h with
  | nil => exact hstart.conserved
  | step _ htime hstep ih => exact (hstep.kept ih).1 htime

theorem exists_step_of_ready {st : State} (h : Conserved st) {destIp : BitVec 32}
    (hpending : destIp ∈ st.pending) (hready : Ready st destIp) :
    ∃ st', Step time st (.sendQueuedPackets destIp) st' := by
  obtain ⟨st', heq⟩ := exists_sendQueuedPackets (n := 0) (h.takeReply destIp) hready
    (Nat.lt_succ_self _)
  exact ⟨st', .sendQueuedPackets hpending heq⟩

/-- A reply that comes too late loses the packet, if it gets to an end. -/
theorem ready_of_conserved {st st' : State} (h : Conserved st) {destIp : BitVec 32}
    (hstep : Step time st (.sendQueuedPackets destIp) st') (h' : Conserved st') :
    Ready st destIp := by
  cases hstep with
  | sendQueuedPackets _ heq =>
    by_contra hready
    obtain ⟨huncached, hwaits⟩ := not_or.mp hready
    rw [Bool.not_eq_true, Option.isSome_eq_false_iff, Option.isNone_iff_eq_none] at huncached
    have hexists : ∃ x ∈ waiting st.arpQueue, x.1 = destIp := by
      by_contra hnone
      exact hwaits fun x hx heq => hnone ⟨x, hx, heq⟩
    obtain ⟨x, hx, rfl⟩ := hexists
    obtain ⟨aqe, hmem, hx⟩ := List.mem_flatMap.mp hx
    have hhop := nextHop_of_mem_pairs hx
    obtain ⟨k, hk⟩ := List.mem_iff_getElem?.mp hmem
    rw [hhop] at heq huncached
    have hp : aqe.packets ≠ [] := by
      intro hnil
      rw [QueueEntry.pairs, hnil] at hx
      cases hx
    have herase := h.takeReply aqe.nextHop
    exact (sendQueuedPackets_lost herase.single hk huncached hp (Nat.zero_le k)
      heq).1.not_conserved herase h'

/-- In a run in which every reply comes in time, each packet is in one place and in its order, and
no packet that has left comes back. A pending reply gets to its end and loses nothing exactly if it
comes in time. -/
theorem packets_conserved_iff {st₀ st : State} (hstart : Start st₀) (hrun : Run time st₀ st) :
    Conserved st ∧
    (∀ e st', Step time st e st' → Extends st st' ∧ (InTime st e → Conserved st')) ∧
    ∀ destIp ∈ st.pending,
      (∃ st', Step time st (.sendQueuedPackets destIp) st' ∧ Conserved st') ↔ Ready st destIp := by
  have h := hrun.conserved hstart
  refine ⟨h, fun e st' hstep => ⟨(hstep.kept h).2, (hstep.kept h).1⟩, ?_⟩
  refine fun destIp hpending => ⟨?_, ?_⟩
  · rintro ⟨st', hstep, h'⟩
    exact ready_of_conserved h hstep h'
  · intro hready
    obtain ⟨st', hstep⟩ := exists_step_of_ready h hpending hready
    exact ⟨st', hstep, (hstep.kept h).1 hready⟩

/-- A router that has just started. -/
def idle : State := ⟨emptyCam, [], [], [], [], 0, [], [], [], []⟩

theorem start_idle : Start idle := ⟨rfl, rfl, rfl, rfl⟩

def echoRequest : Header := ⟨64, 1, 0x0100000a, 0x0200000a, 8, 0⟩

/-- Some packets for 10.0.0.2 have been handed to `send_ip`. -/
def asked : Nat → State
  | 0 => idle
  | n + 1 => sendNew (fun _ => 0) (asked n) echoRequest 0x0200000a "eth0"

/-- The reply has entered its address into the cache. -/
def answered (n : Nat) : State :=
  { asked n with
    arp := updateArpCache (asked n).arp 0x0200000a ⟨2, 0, 0, 0, 0, 2⟩ false 5
    pending := [0x0200000a] }

/-- The operator has emptied the cache. -/
def nuked (n : Nat) : State := { answered n with arp := cliNukeArpCache (answered n).arp }

theorem step_answered {n : Nat} (hpending : (asked n).pending = []) :
    Step (fun _ => 0) (asked n) (.cache (.packet (replyFrom 2) 5)) (answered n) := by
  have hstep : Arp.step (asked n).arp (.packet (replyFrom 2) 5) = some (answered n).arp := rfl
  have hreply : (asked n).pending ++ replyOf (.packet (replyFrom 2) 5) = [0x0200000a] := by
    rw [hpending]
    decide
  have h := @Step.cache (fun _ => 0) (asked n) (.packet (replyFrom 2) 5) _ hstep
  rw [hreply] at h
  exact h

theorem step_nuked (n : Nat) :
    Step (fun _ => 0) (answered n) (.cache .cliNukeArpCache) (nuked n) :=
  .cache rfl

/-- A reply whose address has gone again loses the packet that has waited for it; if two have
waited, it never comes to an end. -/
theorem late_reply_loses_packet :
    (Step (fun _ => 0) idle (.sendIp echoRequest 0x0200000a "eth0") (asked 1) ∧
      Step (fun _ => 0) (asked 1) (.cache (.packet (replyFrom 2) 5)) (answered 1) ∧
      Step (fun _ => 0) (answered 1) (.cache .cliNukeArpCache) (nuked 1) ∧
      ∃ st, Step (fun _ => 0) (nuked 1) (.sendQueuedPackets 0x0200000a) st ∧ ¬ Conserved st) ∧
    (Step (fun _ => 0) (asked 1) (.sendIp echoRequest 0x0200000a "eth0") (asked 2) ∧
      Step (fun _ => 0) (asked 2) (.cache (.packet (replyFrom 2) 5)) (answered 2) ∧
      Step (fun _ => 0) (answered 2) (.cache .cliNukeArpCache) (nuked 2) ∧
      (0x0200000a : BitVec 32) ∈ (nuked 2).pending ∧
      ¬ ∃ st, Step (fun _ => 0) (nuked 2) (.sendQueuedPackets 0x0200000a) st) := by
  refine ⟨⟨.sendIp _ _ _ _, step_answered rfl, step_nuked 1, ?_⟩, .sendIp _ _ _ _,
    step_answered rfl, step_nuked 2, List.mem_singleton.mpr rfl, ?_⟩
  · refine ⟨{ nuked 1 with pending := [], arpQueue := [] },
      @Step.sendQueuedPackets _ _ _ _ 3 (List.mem_singleton.mpr rfl) rfl, fun h => ?_⟩
    exact absurd h.accounted.length_eq (by decide)
  · rintro ⟨st, hstep⟩
    cases hstep with
    | sendQueuedPackets _ heq =>
      have hsingle : ((nuked 2).arpQueue.map QueueEntry.nextHop).Nodup := by decide
      have hk : (nuked 2).arpQueue[0]? =
          some ⟨"eth0", 0x0200000a, 1, 0, [⟨0, echoRequest⟩, ⟨1, echoRequest⟩]⟩ := rfl
      have hlost := @sendQueuedPackets_lost _ _ 0 0
        { nuked 2 with pending := (nuked 2).pending.erase 0x0200000a } st hsingle _ hk rfl
        (List.cons_ne_nil _ _) (Nat.le_refl 0) heq
      exact absurd hlost.2 (by decide)

theorem packets_conserved_asked :
    Conserved (asked 2) ∧
      ∃ st, Step (fun _ => 0) (answered 2) (.sendQueuedPackets 0x0200000a) st ∧ Conserved st := by
  have hasked : Run (fun _ => 0) idle (asked 2) :=
    .step (e := .sendIp echoRequest 0x0200000a "eth0")
      (.step (e := .sendIp echoRequest 0x0200000a "eth0") (.nil idle) trivial (.sendIp _ _ _ _))
      trivial (.sendIp _ _ _ _)
  have hanswered : Run (fun _ => 0) idle (answered 2) :=
    .step (e := .cache (.packet (replyFrom 2) 5)) hasked trivial (step_answered rfl)
  exact ⟨(packets_conserved_iff start_idle hasked).1,
    ((packets_conserved_iff start_idle hanswered).2.2 _ (List.mem_singleton.mpr rfl)).mpr
      (.inl (by decide))⟩

end Osnt.Scone.ArpQueue
