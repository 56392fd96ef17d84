import Mathlib.Data.List.Chain
import Osnt.Proofs.PwospfFlood

/-! The LSUs of one router at another one: which of them are taken in. -/
namespace Osnt.Scone.Pwospf
open Lib Lib.Buffer

theorem lsuPacket_congr {rs rs' : RouterState} (hid : rs'.routerId = rs.routerId)
    (harea : rs'.areaId = rs.areaId) (seq : BitVec 16) (interfaces : List PwospfInterface) :
    lsuPacket rs' seq interfaces = lsuPacket rs seq interfaces := by
  unfold lsuPacket lsuBody
  rw [hid, harea]

theorem succ_add_ofNat (v : BitVec 16) (n : Nat) :
    v + 1 + BitVec.ofNat 16 n = v + BitVec.ofNat 16 (n + 1) := by
  rw [BitVec.ofNat_add, BitVec.add_assoc, BitVec.add_comm (BitVec.ofNat 16 n)]
  rfl

/-- One LSU: it has the number held, and the number grows by one. -/
theorem issue_cons {A : RouterState} {router : PwospfRouter}
    (hA : getRouterByRid A.routerId A.pwospfRouterList = some router)
    (interfaces : List PwospfInterface) (later : List (List PwospfInterface)) :
    ∃ A', A'.routerId = A.routerId ∧ A'.areaId = A.areaId ∧
      getRouterByRid A'.routerId A'.pwospfRouterList =
        some { router with interfaceList := interfaces, seq := router.seq + 1 } ∧
      issue A (interfaces :: later) =
        (issue A' later).map (lsuPacket A router.seq interfaces :: ·) := by
  have hheld := getRouterByRid_setOurs A (fun r => { r with interfaceList := interfaces })
    (fun _ => rfl)
  generalize hB : A.setOurs (fun r => { r with interfaceList := interfaces }) = B at hheld
  have hid : B.routerId = A.routerId := by rw [← hB]; rfl
  have harea : B.areaId = A.areaId := by rw [← hB]; rfl
  rw [hA, Option.map_some] at hheld
  have hsent := getRouterByRid_setOurs B (fun r => { r with seq := r.seq + 1 }) (fun _ => rfl)
  rw [hheld, Option.map_some] at hsent
  refine ⟨B.setOurs fun r => { r with seq := r.seq + 1 }, hid, harea, hsent, ?_⟩
  rw [issue, hB, constructPwospfLsuPacket_eq B _ hheld, lsuPacket_congr hid harea]
  simp only [Option.bind_eq_bind, Option.bind_some]
  cases issue (B.setOurs fun r => { r with seq := r.seq + 1 }) later <;> rfl

/-- The `n`-th LSU of a router has the `n`-th number behind its first one, modulo 2^16. -/
theorem issue_spec {A : RouterState} {router : PwospfRouter}
    (hA : getRouterByRid A.routerId A.pwospfRouterList = some router)
    (lists : List (List PwospfInterface)) :
    ∃ packets, issue A lists = some packets ∧ ∀ n,
      packets[n]? = lists[n]?.map (lsuPacket A (router.seq + BitVec.ofNat 16 n)) := by
  induction lists generalizing A router with
  | nil => exact ⟨[], rfl, fun n => rfl⟩
  | cons interfaces later ih =>
    obtain ⟨A', hid, harea, hA', hcons⟩ := issue_cons hA interfaces later
    obtain ⟨packets, hpackets, hnth⟩ := ih hA'
    refine ⟨lsuPacket A router.seq interfaces :: packets, ?_, fun n => ?_⟩
    · rw [hcons, hpackets]
      rfl
    · cases n with
      | zero =>
        rw [List.getElem?_cons_zero, List.getElem?_cons_zero, Option.map_some, BitVec.add_zero]
      | succ n =>
        rw [List.getElem?_cons_succ, List.getElem?_cons_succ, hnth n]
        congr 1
        funext held
        rw [lsuPacket_congr hid harea, succ_add_ofNat]

/-- An LSU as it comes to `process_pwospf_lsu_packet`: behind the headers of the last hop, with what
is left of its TTL and with its checksum field cleared. -/
def arriving (hdr packet : Bytes) (ttl : BitVec 16) : Bytes :=
  cleared (hdr ++ put16 packet 26 (swap16 ttl))

section Arriving
variable (A : RouterState) (seq ttl : BitVec 16) (interfaces : List PwospfInterface)
variable {hdr : Bytes} (hhdr : hdr.length = 34)
include hhdr

theorem length_arriving :
    (arriving hdr (lsuPacket A seq interfaces) ttl).length = 66 + 12 * interfaces.length := by
  rw [arriving, length_cleared, List.length_append, length_put16, length_lsuPacket, hhdr]
  omega

theorem origin_arriving :
    origin (arriving hdr (lsuPacket A seq interfaces) ttl) = A.routerId := by
  have h := be32_framed hhdr (put16 (lsuPacket A seq interfaces) 26 (swap16 ttl)) 4
  rw [arriving, origin_cleared, origin, h, be32_put16 _ _ (by omega),
    be32_lsuPacket A seq interfaces (by omega), lsuBody_rid, swap32_swap32]

theorem lsuSeq_arriving : lsuSeq (arriving hdr (lsuPacket A seq interfaces) ttl) = seq := by
  have h := be16_framed hhdr (put16 (lsuPacket A seq interfaces) 26 (swap16 ttl)) 24
  rw [arriving, lsuSeq_cleared, lsuSeq, h, be16_put16 _ _ (by omega),
    be16_lsuPacket A seq interfaces (by omega), lsuBody_seq]

theorem claimedNum_arriving_le :
    claimedNum (arriving hdr (lsuPacket A seq interfaces) ttl) ≤ interfaces.length := by
  have h := be32_framed hhdr (put16 (lsuPacket A seq interfaces) 26 (swap16 ttl)) 28
  rw [arriving, claimedNum_cleared, claimedNum, h, be32_put16 _ _ (by omega),
    be32_lsuPacket A seq interfaces (by omega), lsuBody_num, BitVec.toNat_ofNat]
  exact Nat.mod_le _ _

theorem claimedLen_arriving_le :
    claimedLen (arriving hdr (lsuPacket A seq interfaces) ttl) 34 ≤
      32 + 12 * interfaces.length := by
  have h := be16_framed hhdr (put16 (lsuPacket A seq interfaces) 26 (swap16 ttl)) 2
  have hmod := Nat.mod_le (32 + interfaces.length * 12) (2 ^ 16)
  rw [arriving, claimedLen_cleared, claimedLen, h, be16_put16 _ _ (by omega),
    be16_lsuPacket A seq interfaces (by omega), lsuBody_len, BitVec.toNat_ofNat]
  omega

theorem takeable_arriving (rs : RouterState) :
    Takeable rs (arriving hdr (lsuPacket A seq interfaces) ttl) := by
  have hlen := length_arriving A seq ttl interfaces hhdr
  have hnum := claimedNum_arriving_le A seq ttl interfaces hhdr
  have hclaimed := claimedLen_arriving_le A seq ttl interfaces hhdr
  exact ⟨by omega, fun _ => by omega, fun _ _ => by omega⟩

/-- An LSU that arrives is processed without a failing access. -/
theorem processPwospfLsuPacket_arriving (rs : RouterState) :
    ∃ o, processPwospfLsuPacket rs (arriving hdr (lsuPacket A seq interfaces) ttl) = some o ∧
      LsuStep rs (arriving hdr (lsuPacket A seq interfaces) ttl) o := by
  have hlen := length_arriving A seq ttl interfaces hhdr
  have hsome := processPwospfLsuPacket_isSome rs
    (arriving hdr (lsuPacket A seq interfaces) ttl) (by omega)
  obtain ⟨o, ho⟩ := Option.isSome_iff_exists.mp
    (hsome.mpr fun _ => takeable_arriving A seq ttl interfaces hhdr rs)
  exact ⟨o, ho, lsu_step_cases (by omega) ho⟩

end Arriving

/-- What happens at the receiver: the sender's `n`-th LSU arrives, or something else. -/
inductive Delivery
  | lsu (n : Nat) (hdr : Bytes) (ttl : BitVec 16)
  | other (event : Event)

def arrivals (deliveries : List Delivery) : List Nat :=
  deliveries.filterMap fun
    | .lsu n _ _ => some n
    | .other _ => none

/-- The LSU is taken in: the entry of its origin gets its number, and the interfaces that
`populate_pwospf_router_interface_list` makes of the old ones and of the LSU. -/
def TakesIn (rs : RouterState) (packet : Bytes) (o : Outcome) : Prop :=
  o.accepted = true ∧ ∃ interfaces changed,
    populatePwospfRouterInterfaceList (heldInterfaces (origin packet) rs.pwospfRouterList) packet =
      some (interfaces, changed) ∧
    o.rs.entry (origin packet) =
      some ⟨origin packet, lsuSeq packet, interfaces.map PwospfInterface.content⟩

/-- Every LSU of the sender that arrives is taken in. -/
def AllTakenIn (packets : List Bytes) : RouterState → List Delivery → Prop
  | _, [] => True
  | rs, .lsu n hdr ttl :: deliveries =>
    ∃ packet o, packets[n]? = some packet ∧
      processPwospfLsuPacket rs (arriving hdr packet ttl) = some o ∧
      TakesIn rs (arriving hdr packet ttl) o ∧ AllTakenIn packets o.rs deliveries
  | rs, .other (.packet bytes) :: deliveries =>
    ∃ o, processPwospfPacket rs bytes = some o ∧ AllTakenIn packets o.rs deliveries
  | rs, .other (.timeout timedOut) :: deliveries =>
    AllTakenIn packets (lsuTimeout timedOut rs).1 deliveries

/-- Fewer than 2^15 LSUs are lost between two that arrive one after the other. -/
def Follows (n m : Nat) : Prop := n < m ∧ m - n - 1 < 2 ^ 15

/-- The LSUs that arrive are among those issued and lie behind whole headers; the other packets are
valid LSUs of other routers, and the sender does not time out. -/
structure Deliverable (rid : BitVec 32) (rs : RouterState) (count : Nat)
    (deliveries : List Delivery) : Prop where
  issued : ∀ n hdr ttl, .lsu n hdr ttl ∈ deliveries → n < count ∧ hdr.length = 34
  others : ∀ bytes, .other (.packet bytes) ∈ deliveries →
    ValidLsu rs bytes ∧ WellFormed bytes ∧ origin bytes ≠ rid
  kept : ∀ timedOut, .other (.timeout timedOut) ∈ deliveries → timedOut rid = false

theorem Deliverable.tail {rid : BitVec 32} {rs rs' : RouterState} {count : Nat}
    {delivery : Delivery} {deliveries : List Delivery}
    (h : Deliverable rid rs count (delivery :: deliveries))
    (hids : rs'.routerId = rs.routerId ∧ rs'.areaId = rs.areaId) :
    Deliverable rid rs' count deliveries := by
  refine ⟨fun n hdr ttl hmem => h.issued n hdr ttl (List.mem_cons_of_mem _ hmem), ?_,
    fun timedOut hmem => h.kept timedOut (List.mem_cons_of_mem _ hmem)⟩
  intro bytes hmem
  obtain ⟨hvalid, hwf, hne⟩ := h.others bytes (List.mem_cons_of_mem _ hmem)
  exact ⟨hvalid.of_ids hids, hwf, hne⟩

/-- The numbers of two LSUs lie between the same two wraps of the counter. -/
def SameEpoch (seq : BitVec 16) (n m : Nat) : Prop :=
  (seq.toNat + n) / 2 ^ 16 = (seq.toNat + m) / 2 ^ 16

instance (seq : BitVec 16) (n m : Nat) : Decidable (SameEpoch seq n m) :=
  inferInstanceAs (Decidable (_ = _))

/-- With less than half of the numbers in between, a later number is larger just when the counter
has not wrapped. -/
theorem seq_lt_iff (seq : BitVec 16) {n m : Nat} (h : Follows n m) :
    seq + BitVec.ofNat 16 n < seq + BitVec.ofNat 16 m ↔ SameEpoch seq n m := by
  have hn : (seq + BitVec.ofNat 16 n).toNat = (seq.toNat + n) % 2 ^ 16 := by simp
  have hm : (seq + BitVec.ofNat 16 m).toNat = (seq.toNat + m) % 2 ^ 16 := by simp
  unfold Follows at h
  rw [BitVec.lt_def, hn, hm, SameEpoch]
  omega

theorem isChain_toList_append {α : Type} {R : α → α → Prop} (last : Option α) (x : α)
    (xs : List α) :
    (last.toList ++ x :: xs).IsChain R ↔ (∀ k, last = some k → R k x) ∧ (x :: xs).IsChain R := by
  cases last with
  | none => simp
  | some k => simp [List.isChain_cons_cons]

/-- An LSU that arrives is taken in just when the counter has not wrapped since the last one. -/
theorem arrival_cases {A rs : RouterState} {seq : BitVec 16} {n : Nat} {last : Option Nat}
    (interfaces : List PwospfInterface) {hdr : Bytes} (ttl : BitVec 16) (hhdr : hdr.length = 34)
    (hne : rs.routerId ≠ A.routerId)
    (hlast : rs.lastSeq A.routerId = last.map fun k => seq + BitVec.ofNat 16 k)
    (hfollows : ∀ k, last = some k → Follows k n) :
    ∃ o, processPwospfLsuPacket rs
        (arriving hdr (lsuPacket A (seq + BitVec.ofNat 16 n) interfaces) ttl) = some o ∧
      ((¬ TakesIn rs (arriving hdr (lsuPacket A (seq + BitVec.ofNat 16 n) interfaces) ttl) o ∧
          ¬ ∀ k, last = some k → SameEpoch seq k n) ∨
        (TakesIn rs (arriving hdr (lsuPacket A (seq + BitVec.ofNat 16 n) interfaces) ttl) o ∧
          (∀ k, last = some k → SameEpoch seq k n) ∧
          o.rs.lastSeq A.routerId = some (seq + BitVec.ofNat 16 n) ∧
          o.rs.routerId = rs.routerId ∧ o.rs.areaId = rs.areaId)) := by
  obtain ⟨o, ho, hstep⟩ := processPwospfLsuPacket_arriving A (seq + BitVec.ofNat 16 n) ttl
    interfaces hhdr rs
  have horigin := origin_arriving A (seq + BitVec.ofNat 16 n) ttl interfaces hhdr
  have hseq := lsuSeq_arriving A (seq + BitVec.ofNat 16 n) ttl interfaces hhdr
  -- fresh means that the counter has not wrapped
  have hfresh := fresh_iff_lastSeq rs
    (arriving hdr (lsuPacket A (seq + BitVec.ofNat 16 n) interfaces) ttl)
  rw [horigin, hseq, hlast] at hfresh
  have hepoch : (∀ q, (last.map fun k => seq + BitVec.ofNat 16 k) = some q →
      q < seq + BitVec.ofNat 16 n) ↔ ∀ k, last = some k → SameEpoch seq k n := by
    constructor
    · intro h k hk
      exact (seq_lt_iff seq (hfollows k hk)).mp (h _ (by rw [hk]; rfl))
    · intro h q hq
      obtain ⟨k, hk, rfl⟩ := Option.map_eq_some_iff.mp hq
      exact (seq_lt_iff seq (hfollows k hk)).mpr (h k hk)
  rw [hepoch] at hfresh
  refine ⟨o, ho, ?_⟩
  cases hstep with
  | own hown _ =>
    rw [horigin] at hown
    exact absurd hown hne
  | stale _ hstale _ haccepted _ =>
    rw [hfresh] at hstale
    refine .inl ⟨fun h => ?_, hstale⟩
    have htrue := h.1
    rw [haccepted] at htrue
    exact Bool.false_ne_true htrue
  | fresh taken changed _ hf hpopulate haccepted _ hentry _ hids =>
    refine .inr ⟨⟨haccepted, taken, changed, hpopulate, hentry⟩, hfresh.mp hf, ?_, hids⟩
    rw [horigin, hseq] at hentry
    rw [RouterState.lastSeq, hentry]
    rfl

theorem allTakenIn_lsu_iff {packets : List Bytes} {rs : RouterState} {n : Nat} {hdr packet : Bytes}
    {ttl : BitVec 16} {o : Outcome} {deliveries : List Delivery}
    (hpacket : packets[n]? = some packet)
    (ho : processPwospfLsuPacket rs (arriving hdr packet ttl) = some o) :
    AllTakenIn packets rs (.lsu n hdr ttl :: deliveries) ↔
      TakesIn rs (arriving hdr packet ttl) o ∧ AllTakenIn packets o.rs deliveries := by
  constructor
  · rintro ⟨packet', o', hp, ho', htakes, hrest⟩
    rw [hpacket] at hp
    cases hp
    rw [ho] at ho'
    cases ho'
    exact ⟨htakes, hrest⟩
  · rintro ⟨htakes, hrest⟩
    exact ⟨packet, o, hpacket, ho, htakes, hrest⟩

theorem allTakenIn_packet_iff {packets : List Bytes} {rs : RouterState} {bytes : Bytes}
    {o : Outcome} {deliveries : List Delivery} (ho : processPwospfPacket rs bytes = some o) :
    AllTakenIn packets rs (.other (.packet bytes) :: deliveries) ↔
      AllTakenIn packets o.rs deliveries := by
  constructor
  · rintro ⟨o', ho', hrest⟩
    rw [ho] at ho'
    cases ho'
    exact hrest
  · intro hrest
    exact ⟨o, ho, hrest⟩

/-- From the last LSU taken in on: all are taken in just when the counter does not wrap between
one and the next. -/
theorem allTakenIn_iff_chain {A : RouterState} {seq : BitVec 16}
    {lists : List (List PwospfInterface)} {packets : List Bytes}
    (hpackets : ∀ n, packets[n]? = lists[n]?.map (lsuPacket A (seq + BitVec.ofNat 16 n)))
    (deliveries : List Delivery) (rs : RouterState) (last : Option Nat)
    (hne : rs.routerId ≠ A.routerId)
    (hlast : rs.lastSeq A.routerId = last.map fun k => seq + BitVec.ofNat 16 k)
    (horder : (last.toList ++ arrivals deliveries).IsChain Follows)
    (hdel : Deliverable A.routerId rs lists.length deliveries) :
    AllTakenIn packets rs deliveries ↔
      (last.toList ++ arrivals deliveries).IsChain (SameEpoch seq) := by
  induction deliveries generalizing rs last with
  | nil =>
    refine ⟨fun _ => ?_, fun _ => trivial⟩
    cases last <;> simp [arrivals]
  | cons delivery deliveries ih =>
    cases delivery with
    | lsu n hdr ttl =>
      obtain ⟨hn, hhdr⟩ := hdel.issued n hdr ttl List.mem_cons_self
      have hpacket := hpackets n
      rw [List.getElem?_eq_getElem hn, Option.map_some] at hpacket
      have harr : arrivals (.lsu n hdr ttl :: deliveries) = n :: arrivals deliveries := rfl
      rw [harr, isChain_toList_append] at horder ⊢
      obtain ⟨o, ho, hcases⟩ := arrival_cases lists[n] ttl hhdr hne hlast horder.1
      rw [allTakenIn_lsu_iff hpacket ho]
      rcases hcases with ⟨hnot, hwrap⟩ | ⟨htakes, hepoch, hseq, hids⟩
      · exact ⟨fun h => absurd h.1 hnot, fun h => absurd h.1 hwrap⟩
      · have htail := ih o.rs (some n) (fun h => hne (hids.1.symm.trans h)) hseq horder.2
          (hdel.tail hids)
        exact ⟨fun h => ⟨hepoch, htail.mp h.2⟩, fun h => ⟨htakes, htail.mpr h.2⟩⟩
    | other event =>
      have harr : arrivals (.other event :: deliveries) = arrivals deliveries := rfl
      rw [harr] at horder ⊢
      cases event with
      | packet bytes =>
        obtain ⟨hvalid, hwf, hother⟩ := hdel.others bytes List.mem_cons_self
        obtain ⟨o, ho, hstep⟩ := relay_step_cases hvalid hwf
        have hids := hstep.ids
        have hkeep : o.rs.lastSeq A.routerId = rs.lastSeq A.routerId := by
          cases hstep with
          | ignored hrs _ _ => rw [hrs]
          | taken _ _ _ _ hframes _ => exact hframes _ (Ne.symm hother) (Ne.symm hne)
        have htail := ih o.rs last (fun h => hne (hids.1.symm.trans h)) (hkeep.trans hlast) horder
          (hdel.tail hids)
        exact (allTakenIn_packet_iff ho).trans htail
      | timeout timedOut =>
        have hids := lsuTimeout_ids timedOut rs
        have hkeep : (lsuTimeout timedOut rs).1.lastSeq A.routerId = rs.lastSeq A.routerId := by
          rw [RouterState.lastSeq, lsuTimeout_entry timedOut rs (Ne.symm hne)
            (hdel.kept timedOut List.mem_cons_self), RouterState.lastSeq]
        exact ih _ last (fun h => hne (hids.1.symm.trans h)) (hkeep.trans hlast) horder
          (hdel.tail hids)

/-- Every LSU that arrives is taken in just when the sender's counter does not wrap between two of
them. -/
theorem all_taken_in_iff (A B : RouterState) (router : PwospfRouter)
    (lists : List (List PwospfInterface)) (deliveries : List Delivery)
    (hA : getRouterByRid A.routerId A.pwospfRouterList = some router)
    (hB : getRouterByRid A.routerId B.pwospfRouterList = none) (hne : B.routerId ≠ A.routerId)
    (horder : (arrivals deliveries).IsChain Follows)
    (hdel : Deliverable A.routerId B lists.length deliveries) :
    ∃ packets, issue A lists = some packets ∧
      (AllTakenIn packets B deliveries ↔
        (arrivals deliveries).Pairwise (SameEpoch router.seq)) := by
  obtain ⟨packets, hissue, hpackets⟩ := issue_spec hA lists
  have hlast : B.lastSeq A.routerId = none := by
    rw [RouterState.lastSeq, RouterState.entry, hB]
    rfl
  have hiff := allTakenIn_iff_chain hpackets deliveries B none hne hlast horder hdel
  have htrans : IsTrans Nat (SameEpoch router.seq) := ⟨fun _ _ _ h h' => h.trans h'⟩
  refine ⟨packets, hissue, hiff.trans ?_⟩
  exact List.isChain_iff_pairwise

/-- The first two LSUs of router 10.0.0.2 arrive at router 10.0.0.1. -/
def twoArrivals : List Delivery :=
  [.lsu 0 (List.replicate 34 0) 64, .lsu 1 (List.replicate 34 0) 63]

theorem deliverable_twoArrivals (rid : BitVec 32) (rs : RouterState) :
    Deliverable rid rs 2 twoArrivals := by
  refine ⟨fun n hdr ttl hmem => ?_, fun bytes hmem => ?_, fun timedOut hmem => ?_⟩
  · simp only [twoArrivals, List.mem_cons, Delivery.lsu.injEq, List.not_mem_nil, or_false] at hmem
    rcases hmem with ⟨rfl, rfl, rfl⟩ | ⟨rfl, rfl, rfl⟩
    · exact ⟨by decide, by decide⟩
    · exact ⟨by decide, by decide⟩
  · simp [twoArrivals] at hmem
  · simp [twoArrivals] at hmem

theorem two_lsus_taken_in : ∃ packets, issue senderTwo [[], []] = some packets ∧
    AllTakenIn packets aloneOne twoArrivals := by
  obtain ⟨packets, hissue, hiff⟩ := all_taken_in_iff senderTwo aloneOne
    ⟨0x0200000a, 0, 7, [⟨0x0000000a, 0x00ffffff, 0x0100000a, true⟩]⟩ [[], []] twoArrivals rfl rfl
    (by decide) (by simp [arrivals, twoArrivals, Follows]) (deliverable_twoArrivals _ _)
  exact ⟨packets, hissue, hiff.mpr (by decide)⟩

/-- Router 10.0.0.2 before its counter wraps. -/
def senderLast : RouterState := ⟨0x0200000a, 0, true, [⟨0x0200000a, 0, 0xffff, []⟩]⟩

/-- The LSU behind the wrap is not taken in. -/
theorem wrapped_lsu_ignored : ∃ packets, issue senderLast [[], []] = some packets ∧
    ¬ AllTakenIn packets aloneOne twoArrivals := by
  obtain ⟨packets, hissue, hpackets⟩ := issue_spec (A := senderLast) rfl [[], []]
  refine ⟨packets, hissue, ?_⟩
  rw [allTakenIn_iff_chain hpackets twoArrivals aloneOne none (by decide) rfl
    (by simp [arrivals, twoArrivals, Follows]) (deliverable_twoArrivals _ _)]
  decide

end Osnt.Scone.Pwospf
