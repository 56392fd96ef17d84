import Osnt.Proofs.Arp

namespace Osnt.Scone.Arp
open Lib Lib.Buffer

/-- The cache answers for the address with a static entry. -/
def Pinned (ip : BitVec 32) (mac : Mac) (cache : List CacheEntry) : Prop :=
  ∃ e, inArpCache cache ip = some e ∧ e.arpHa = mac ∧ e.isStatic = true

section
variable {st : State} {ip : BitVec 32} {mac : Mac}

/-- What `update_arp_cache` makes of the answer for an address. -/
theorem inArpCache_update (st : State) (remoteIp : BitVec 32) (remoteMac : Mac) (isStatic : Bool)
    (now : Int) :
    inArpCache (updateArpCache st remoteIp remoteMac isStatic now).arpCache remoteIp =
      some ⟨remoteIp, remoteMac, if isStatic then 0 else now, isStatic⟩ := by
  unfold updateArpCache
  rw [trigger_arpCache]
  dsimp only
  split
  · rename_i hsome
    obtain ⟨e, he⟩ := Option.isSome_iff_exists.mp hsome
    have hip : remoteIp = e.ip := by
      have hfound := List.find?_some he
      exact eq_of_beq hfound
    unfold inArpCache at he ⊢
    rw [find?_modifyFirst_self, he]
    · unfold CacheEntry.refresh
      rw [Option.map_some, ← hip]
    · exact fun _ h => h
  · rename_i hnone
    have hnone := Option.not_isSome_iff_eq_none.mp hnone
    unfold inArpCache at hnone ⊢
    rw [List.find?_append, hnone, Option.none_or, List.find?_cons, beq_self_eq_true]

theorem inArpCache_update_of_ne {remoteIp : BitVec 32} (hne : remoteIp ≠ ip) (remoteMac : Mac)
    (isStatic : Bool) (now : Int) :
    inArpCache (updateArpCache st remoteIp remoteMac isStatic now).arpCache ip =
      inArpCache st.arpCache ip := by
  have hother : ∀ e : CacheEntry, (remoteIp == e.ip) = true → (ip == e.ip) = false := by
    intro e he
    rw [beq_eq_false_iff_ne, ← eq_of_beq he]
    exact hne.symm
  unfold updateArpCache
  rw [trigger_arpCache]
  dsimp only
  split
  · apply find?_modifyFirst_of_disjoint
    exact fun e he => ⟨hother e he, hother e he⟩
  · unfold inArpCache
    rw [List.find?_append, List.find?_cons_of_neg, List.find?_nil, Option.or_none]
    rw [beq_eq_false_iff_ne.mpr hne.symm]
    exact Bool.false_ne_true

theorem cliIpArpDel_arpCache (st : State) (ip : BitVec 32) :
    (cliIpArpDel st ip).arpCache = st.arpCache.filter fun e => e.ip != ip := by
  unfold cliIpArpDel delArpCache
  dsimp only
  split
  · exact trigger_arpCache _
  · rfl

theorem expireArpCache_arpCache (st : State) (time : Nat → Int) :
    (expireArpCache st time).arpCache = (expireLoop st.arpTtl time 0 st.arpCache).1 := by
  unfold expireArpCache
  dsimp only
  split
  · exact trigger_arpCache _
  · rfl

theorem Pinned.del (h : Pinned ip mac st.arpCache) {other : BitVec 32} (hne : other ≠ ip) :
    Pinned ip mac (cliIpArpDel st other).arpCache := by
  obtain ⟨e, he, hmac, hstatic⟩ := h
  refine ⟨e, ?_, hmac, hstatic⟩
  rw [cliIpArpDel_arpCache]
  unfold inArpCache at he ⊢
  rw [List.find?_filter, ← he]
  congr 1
  funext x
  by_cases hx : ip = x.ip
  · have hkept : (x.ip != other) = true := bne_iff_ne.mpr fun h => hne (h.symm.trans hx.symm)
    rw [hkept, beq_iff_eq.mpr hx]
    rfl
  · rw [beq_eq_false_iff_ne.mpr hx]
    simp only [Bool.false_eq_true, and_false, decide_false]

theorem inArpCache_expireLoop (arpTtl : BitVec 32) (time : Nat → Int) (n : Nat)
    {cache : List CacheEntry} {e : CacheEntry} (h : inArpCache cache ip = some e)
    (hstatic : e.isStatic = true) :
    inArpCache (expireLoop arpTtl time n cache).1 ip = some e := by
  induction cache generalizing n with
  | nil => cases h
  | cons x cache ih =>
    unfold inArpCache at h ih ⊢
    cases hx : ip == x.ip with
    | true =>
      rw [List.find?_cons, hx] at h
      obtain rfl := Option.some.inj h
      unfold expireLoop
      rw [if_neg (ne_false_of_eq_true hstatic)]
      exact List.find?_cons_of_pos hx
    | false =>
      rw [List.find?_cons, hx] at h
      have hskip : ∀ l, List.find? (fun e : CacheEntry => ip == e.ip) (x :: l) =
          l.find? fun e => ip == e.ip := by
        intro l
        rw [List.find?_cons, hx]
      unfold expireLoop
      split
      · split
        · exact ih (n + 1) h
        · exact (hskip _).trans (ih (n + 1) h)
      · exact (hskip _).trans (ih n h)

theorem Pinned.expire (h : Pinned ip mac st.arpCache) (time : Nat → Int) :
    Pinned ip mac (expireArpCache st time).arpCache := by
  obtain ⟨e, he, hmac, hstatic⟩ := h
  rw [expireArpCache_arpCache]
  exact ⟨e, inArpCache_expireLoop st.arpTtl time 0 he hstatic, hmac, hstatic⟩

theorem Pinned.update (h : Pinned ip mac st.arpCache) {remoteIp : BitVec 32}
    (hne : remoteIp ≠ ip) (remoteMac : Mac) (isStatic : Bool) (now : Int) :
    Pinned ip mac (updateArpCache st remoteIp remoteMac isStatic now).arpCache := by
  obtain ⟨e, he, hmac, hstatic⟩ := h
  exact ⟨e, (inArpCache_update_of_ne hne remoteMac isStatic now).trans he, hmac, hstatic⟩

theorem pinned_cliIpArpAdd (st : State) (ip : BitVec 32) (mac : Mac) :
    Pinned ip mac (cliIpArpAdd st ip mac).arpCache :=
  ⟨_, inArpCache_update st ip mac true 0, rfl, rfl⟩

theorem not_pinned_reply (st : State) (ip : BitVec 32) (mac remoteMac : Mac) (now : Int) :
    ¬ Pinned ip mac (updateArpCache st ip remoteMac false now).arpCache := by
  rintro ⟨e, he, _, hstatic⟩
  obtain rfl := Option.some.inj ((inArpCache_update st ip remoteMac false now).symm.trans he)
  cases hstatic

end

/-- An ARP packet with all its fields. -/
def Event.Readable : Event → Prop
  | .packet bytes _ => getArpHdr bytes ≠ none
  | _ => True

/-- The operator changes, deletes or nukes the entry for the address. -/
def Event.Operates (ip : BitVec 32) : Event → Prop
  | .cliIpArpAdd ip' _ => ip' = ip
  | .cliIpArpDel ip' => ip' = ip
  | .cliNukeArpCache => True
  | _ => False

/-- A reply that gives the address as its sender's. -/
def Event.Replies (ip : BitVec 32) : Event → Prop
  | .packet bytes _ => ∃ arp, getArpHdr bytes = some arp ∧ arp.op = arpOpReply ∧ arp.sip = ip
  | _ => False

theorem step_pinned_iff {st : State} {ip : BitVec 32} {mac : Mac} (h : Pinned ip mac st.arpCache)
    {event : Event} (hreadable : event.Readable) (hoperates : ¬ event.Operates ip) :
    ∃ st', step st event = some st' ∧ (Pinned ip mac st'.arpCache ↔ ¬ event.Replies ip) := by
  cases event with
  | packet bytes now =>
    obtain ⟨arp, harp⟩ := Option.ne_none_iff_exists'.mp hreadable
    have hreplies : (Event.packet bytes now).Replies ip ↔
        arp.op = arpOpReply ∧ arp.sip = ip := by
      constructor
      · rintro ⟨arp', harp', hreply⟩
        obtain rfl := Option.some.inj (harp.symm.trans harp')
        exact hreply
      · exact fun hreply => ⟨arp, harp, hreply⟩
    rw [hreplies]
    by_cases hop : arp.op = arpOpReply
    · refine ⟨updateArpCache st arp.sip arp.sha false now, ?_, ?_⟩
      · unfold step processArpPacket
        simp only [Option.bind_eq_bind, harp, Option.bind_some, if_pos hop]
        rfl
      · by_cases hsip : arp.sip = ip
        · subst hsip
          exact iff_of_false (not_pinned_reply st _ mac arp.sha now) fun hn => hn ⟨hop, rfl⟩
        · exact iff_of_true (h.update hsip arp.sha false now) fun hr => hsip hr.2
    · refine ⟨st, ?_, iff_of_true h fun hr => hop hr.1⟩
      unfold step processArpPacket
      simp only [Option.bind_eq_bind, harp, Option.bind_some, if_neg hop]
      rfl
  | expire time => exact ⟨_, rfl, iff_of_true (h.expire time) id⟩
  | cliIpArpAdd ip' mac' => exact ⟨_, rfl, iff_of_true (h.update hoperates mac' true 0) id⟩
  | cliIpArpDel ip' => exact ⟨_, rfl, iff_of_true (h.del hoperates) id⟩
  | cliNukeArpCache => exact absurd trivial hoperates

/-- The entry is as the operator made it, in every state of a run. -/
def AllPinned (ip : BitVec 32) (mac : Mac) : State → List Event → Prop
  | st, [] => Pinned ip mac st.arpCache
  | st, event :: events =>
    Pinned ip mac st.arpCache ∧ ∃ st', step st event = some st' ∧ AllPinned ip mac st' events

theorem allPinned_iff {ip : BitVec 32} {mac : Mac} {events : List Event} {st : State}
    (h : Pinned ip mac st.arpCache) (hreadable : ∀ event ∈ events, event.Readable)
    (hoperates : ∀ event ∈ events, ¬ event.Operates ip) :
    AllPinned ip mac st events ↔ ∀ event ∈ events, ¬ event.Replies ip := by
  induction events generalizing st with
  | nil => exact iff_of_true h fun event hevent => nomatch hevent
  | cons event events ih =>
    obtain ⟨st', hstep, hiff⟩ := step_pinned_iff h (hreadable event List.mem_cons_self)
      (hoperates event List.mem_cons_self)
    have htail := fun h' : Pinned ip mac st'.arpCache => ih h'
      (fun e he => hreadable e (List.mem_cons_of_mem _ he))
      (fun e he => hoperates e (List.mem_cons_of_mem _ he))
    rw [List.forall_mem_cons]
    constructor
    · rintro ⟨_, st'', hstep', hall⟩
      obtain rfl := Option.some.inj (hstep.symm.trans hstep')
      have hpinned : Pinned ip mac st'.arpCache := by
        cases events with
        | nil => exact hall
        | cons event' events' => exact hall.1
      exact ⟨hiff.mp hpinned, (htail hpinned).mp hall⟩
    · rintro ⟨hhead, hrest⟩
      have hpinned := hiff.mpr hhead
      exact ⟨h, st', hstep, (htail hpinned).mpr hrest⟩

/-- An entry of the operator keeps its address and its flag exactly as long as no reply comes for
it. -/
theorem static_entry_kept_iff (st : State) (ip : BitVec 32) (mac : Mac) (events : List Event)
    (hreadable : ∀ event ∈ events, event.Readable)
    (hoperates : ∀ event ∈ events, ¬ event.Operates ip) :
    AllPinned ip mac (cliIpArpAdd st ip mac) events ↔ ∀ event ∈ events, ¬ event.Replies ip :=
  allPinned_iff (pinned_cliIpArpAdd st ip mac) hreadable hoperates

/-- A reply from 10.0.0.`n` with the Ethernet address 02:00:00:00:00:`n`. -/
def replyFrom (n : BitVec 8) : Bytes :=
  List.replicate 12 0 ++ [8, 6, 0, 1, 8, 0, 6, 4, 0, 2] ++ [2, 0, 0, 0, 0, n] ++ [10, 0, 0, n] ++
    List.replicate 10 0

theorem static_entry_kept_two :
    AllPinned 0x0100000a ⟨0, 1, 2, 3, 4, 5⟩
        (cliIpArpAdd emptyCam 0x0100000a ⟨0, 1, 2, 3, 4, 5⟩)
        [.packet (replyFrom 2) 5, .expire fun _ => 1000] ↔
      ∀ event ∈ [Event.packet (replyFrom 2) 5, .expire fun _ => 1000],
        ¬ event.Replies 0x0100000a := by
  apply static_entry_kept_iff
  · intro event hevent
    simp only [List.mem_cons, List.not_mem_nil, or_false] at hevent
    rcases hevent with rfl | rfl
    · exact Option.isSome_iff_ne_none.mp (by decide)
    · exact trivial
  · intro event hevent
    simp only [List.mem_cons, List.not_mem_nil, or_false] at hevent
    rcases hevent with rfl | rfl <;> exact id

/-- An unsolicited reply takes over the entry that the operator has made for its address. -/
theorem static_entry_taken_over :
    ¬ AllPinned 0x0200000a ⟨0, 1, 2, 3, 4, 5⟩
      (cliIpArpAdd emptyCam 0x0200000a ⟨0, 1, 2, 3, 4, 5⟩) [.packet (replyFrom 2) 5] := by
  rintro ⟨_, st', hstep, e, he, _, hstatic⟩
  have hview : (step (cliIpArpAdd emptyCam 0x0200000a ⟨0, 1, 2, 3, 4, 5⟩)
      (.packet (replyFrom 2) 5)).map (fun st => inArpCache st.arpCache 0x0200000a) =
      some (some ⟨0x0200000a, ⟨2, 0, 0, 0, 0, 2⟩, 5, false⟩) := by decide +kernel
  rw [hstep] at hview
  obtain rfl := Option.some.inj ((Option.some.inj hview).symm.trans he)
  cases hstatic

end Osnt.Scone.Arp
