import Osnt.Scone.PacketPath

namespace Osnt.Scone.PacketPath
open Lib Lib.Buffer Locking

section
variable (rs later : RouterState) (packet : Bytes) (interface : String)

/-- A HELLO packet with our interval and another mask than the interface. -/
def helloLeaves : Option Bool := do
  let hello ← Hello.readHello packet
  let iface ← getIface later.ifList interface
  return rs.pwospfHelloInterval == hello.hint && iface.mask != hello.mask

def pwospfLeaves : Option Bool := do
  let (valid, packet) ← Pwospf.isPwospfPacketValid rs.pwospf packet
  let type ← load8 packet 35
  if valid && type == pwospfTypeHello then helloLeaves rs later packet interface else return false

/-- Whether a packet goes to `process_pwospf_packet`. -/
def toPwospf : Option Bool := do
  let dst ← load32 packet 30
  if Iface.ifaceMatchIp rs.ifList dst then
    let ipP ← load8 packet 23
    return ipP == ipProtoPwospf
  else return dst == swap32 pwospfHelloTip

def ipLeaves : Option Bool := do
  if Ip.isPacketValid packet = false then return false
  let iface ← getIface rs.ifList interface
  let packet ← (fromWan rs iface packet).result
  let pwospf ← toPwospf rs packet
  if pwospf then pwospfLeaves rs later packet interface else return false

end

/-- A call that returns with locks: for a HELLO packet whose mask does not match, or without a
route. -/
def Call.LeavesLocked : Call → Prop
  | .processIpPacket rs later packet interface _ _ =>
    ipLeaves rs later packet interface = some true
  | .sendIpPacket rs dest => Rtable.getNextHop 32 rs.rtable (swap32 dest) = none

instance : ∀ call : Call, Decidable call.LeavesLocked
  | .processIpPacket rs later packet interface _ _ =>
    inferInstanceAs (Decidable (ipLeaves rs later packet interface = some true))
  | .sendIpPacket rs dest =>
    inferInstanceAs (Decidable (Rtable.getNextHop 32 rs.rtable (swap32 dest) = none))

/-- The four locks of a call, the last two in any mode. -/
def four (rtable ifList : LockMode) : Held Lock :=
  [(.rtable, rtable), (.ifList, ifList), (.arpQueue, .wr), (.arpCache, .rd)]

section
variable {held : Held Lock} (hbelow : ∀ k ∈ held.locks, k < .writeLock)
include hbelow

theorem sendPacket_keeps : Keeps held sendPacket := Spec.section_keeps hbelow

theorem sendIp_keeps (rs : RouterState) (nextHop : BitVec 32) (outIface : String) :
    Keeps held (sendIp rs nextHop outIface) := by
  unfold sendIp arpQueueAdd sendArpRequest
  split
  · exact sendPacket_keeps hbelow
  · split
    · exact Spec.pure rfl
    · exact Spec.bind_lift fun _ _ => sendPacket_keeps hbelow

theorem sendIcmpPacket_keeps (rs : RouterState) (srcPacket : Bytes) :
    Keeps held (sendIcmpPacket rs srcPacket) := by
  unfold sendIcmpPacket
  refine Spec.bind_lift fun ipSrc _ => ?_
  split
  · exact Spec.pure rfl
  · exact Spec.bind_lift fun _ _ => sendIp_keeps hbelow rs _ _

theorem processIcmpPacket_keeps (rs : RouterState) (packet : Bytes) :
    Keeps held (processIcmpPacket rs packet) := by
  unfold processIcmpPacket
  refine Spec.bind_lift fun icmpType _ => ?_
  split
  · exact sendIcmpPacket_keeps hbelow rs packet
  · split
    · have hlt : Lock.writeLock < .spingQueue := by decide
      exact Spec.section_keeps fun k hk => (hbelow k hk).trans hlt
    · exact Spec.pure rfl

end

section
variable {held : Held Lock} (hbelow : ∀ k ∈ held.locks, k < .pwospfLsuQueue)
include hbelow

theorem broadcastPwospfLsuPacket_keeps (ifList : List Iface.Entry) (srcIp : Option (BitVec 32)) :
    Keeps held (broadcastPwospfLsuPacket ifList srcIp) := by
  refine Spec.forM fun iface _ => ?_
  split
  · refine Spec.forM fun nbr _ => ?_
    split
    · exact Spec.pure rfl
    · exact Spec.section_keeps hbelow
  · exact Spec.pure rfl

theorem propagatePwospfChanges_keeps (pwospf : Pwospf.RouterState) (ifList : List Iface.Entry) :
    Keeps held (propagatePwospfChanges pwospf ifList) := by
  unfold propagatePwospfChanges startLsuBcastFlood
  split
  · exact Spec.bind_lift fun _ _ => broadcastPwospfLsuPacket_keeps hbelow ifList none
  · exact Spec.pure rfl

theorem bookNeighbour_keeps (rs : RouterState) (hello : Hello.HelloPacket) (interface : String)
    (iface : Iface.Entry) (now : Int) :
    Keeps held (bookNeighbour rs hello interface iface now) := by
  unfold bookNeighbour
  split
  · exact Spec.pure rfl
  · refine Spec.bind_lift fun k _ => Spec.bind_lift fun pwospf _ => ?_
    exact propagatePwospfChanges_keeps hbelow pwospf _

theorem passOn_keeps (rs : RouterState) (ipSrc : BitVec 32) (forwarded : Pwospf.Forward) :
    Keeps held (passOn rs ipSrc forwarded) := by
  cases forwarded with
  | none => exact Spec.pure rfl
  | copy b => exact broadcastPwospfLsuPacket_keeps hbelow rs.ifList (some ipSrc)
  | overrun => exact Spec.lift

theorem flood_keeps (rs : RouterState) (pwospf : Pwospf.RouterState) (update : Bool) :
    Keeps held (flood rs pwospf update) := by
  unfold flood
  split
  · exact propagatePwospfChanges_keeps hbelow pwospf rs.ifList
  · exact Spec.pure rfl

end

/-- Code that is called with the four locks and returns with them. -/
def Returns (x : Path Unit) : Prop :=
  Spec (four .rd .rd) x fun _ held => ∃ m n, held = four m n

theorem Returns.of_keeps {x : Path Unit} (h : Keeps (four .rd .rd) x) : Returns x :=
  h.mono fun _ _ heq => ⟨.rd, .rd, heq⟩

theorem returns_pure : Returns (pure ()) := .of_keeps (Spec.pure rfl)

section
variable {rs later : RouterState} {packet : Bytes} {interface : String}

theorem processPwospfHelloPacket_returns
    (hstays : helloLeaves rs later packet interface ≠ some true) (now : Int) :
    Returns (processPwospfHelloPacket rs later packet interface now) := by
  unfold processPwospfHelloPacket
  refine Spec.bind_lift fun hello hhello => ?_
  split
  · exact returns_pure
  · rename_i hhint
    refine Spec.bind_unlock (by decide) (Spec.bind_unlock (by decide) ?_)
    refine Spec.bind_lock (by decide) (Spec.bind_lock (by decide) ?_)
    refine Spec.bind_lock (by decide) ?_
    refine Spec.bind_lift fun iface hiface => ?_
    split
    · rename_i hmask
      refine absurd ?_ hstays
      simp only [not_not] at hhint
      simp [helloLeaves, hhello, hiface, hhint, hmask]
    · refine Spec.bind_keeps (bookNeighbour_keeps (by decide) later hello interface iface now) ?_
      exact fun _ _ => Spec.unlock (by decide) ⟨.rd, .wr, rfl⟩

theorem processPwospfLsuPacket_returns : Returns (processPwospfLsuPacket rs later packet) := by
  unfold processPwospfLsuPacket
  refine Spec.bind_lift fun rid _ => ?_
  split
  · exact returns_pure
  · refine Spec.bind_unlock (by decide) (Spec.bind_lock (by decide) ?_)
    refine Spec.bind_lock (by decide) ?_
    refine Spec.bind_lift fun update _ => Spec.bind_lift fun forwarded _ => ?_
    refine Spec.bind_lift fun ipSrc _ => ?_
    refine Spec.bind_keeps (passOn_keeps (by decide) rs ipSrc forwarded) fun _ _ => ?_
    refine Spec.bind_keeps (flood_keeps (by decide) rs _ _) fun _ _ => ?_
    exact Spec.unlock (by decide) ⟨.wr, .rd, rfl⟩

theorem processPwospfPacket_returns
    (hstays : pwospfLeaves rs later packet interface ≠ some true) (now : Int) :
    Returns (processPwospfPacket rs later packet interface now) := by
  unfold processPwospfPacket
  refine Spec.bind_lift fun validity hvalid => ?_
  obtain ⟨valid, packet'⟩ := validity
  dsimp only
  split
  · exact returns_pure
  · rename_i hv
    refine Spec.bind_lift fun type htype => ?_
    split
    · rename_i hhello
      refine processPwospfHelloPacket_returns (fun hleaves => hstays ?_) now
      simp [pwospfLeaves, hvalid, htype, hv, hhello, hleaves]
    · split
      · exact processPwospfLsuPacket_returns
      · exact returns_pure

end

section
variable {held : Held Lock} (hbelow : ∀ k ∈ held.locks, k < .natTable)
include hbelow

theorem fromWan_keeps (rs : RouterState) (iface : Iface.Entry) (packet : Bytes) :
    Keeps held (fromWan rs iface packet) := by
  unfold fromWan
  split
  · refine Spec.bind_lock hbelow (Spec.bind_lift fun _ _ => ?_)
    exact Spec.bind_unlock List.mem_cons_self (Spec.pure rfl)
  · exact Spec.pure rfl

theorem toWan_keeps (later : RouterState) (iface : Iface.Entry) (packet : Bytes)
    (rand : List (BitVec 16)) : Keeps held (toWan later iface packet rand) := by
  unfold toWan
  split
  · refine Spec.bind_lock hbelow (Spec.bind_lift fun _ _ => ?_)
    exact Spec.bind_unlock List.mem_cons_self (Spec.pure rfl)
  · exact Spec.pure rfl

end

section
variable {rs later : RouterState} {packet : Bytes} {interface : String}

theorem receiveIp_returns
    (hstays : load8 packet 23 = some ipProtoPwospf →
      pwospfLeaves rs later packet interface ≠ some true) (now : Int) :
    Returns (receiveIp rs later packet interface now) := by
  unfold receiveIp
  refine Spec.bind_lift fun ipP hipP => ?_
  split
  · exact returns_pure
  · split
    · exact Returns.of_keeps (processIcmpPacket_keeps (by decide) rs packet)
    · split
      · rename_i hpwospf
        exact processPwospfPacket_returns (hstays (hpwospf ▸ hipP)) now
      · exact Returns.of_keeps (sendIcmpPacket_keeps (by decide) rs packet)

theorem forwardIp_keeps (dst : BitVec 32) (rand : List (BitVec 16)) :
    Keeps (four .rd .rd) (forwardIp rs later dst packet interface rand) := by
  unfold forwardIp
  split
  · exact sendIcmpPacket_keeps (by decide) rs packet
  · split
    · exact sendIcmpPacket_keeps (by decide) rs packet
    · refine Spec.bind_lift fun iface _ => ?_
      refine Spec.bind_keeps (toWan_keeps (by decide) later iface packet rand) fun packet' _ => ?_
      refine Spec.bind_lift fun ttl _ => ?_
      split
      · exact sendIcmpPacket_keeps (by decide) rs packet'
      · exact sendIp_keeps (by decide) rs _ _

theorem dispatchIp_returns
    (hstays : ∀ iface packet', getIface rs.ifList interface = some iface →
      (fromWan rs iface packet).result = some packet' → toPwospf rs packet' = some true →
      pwospfLeaves rs later packet' interface ≠ some true)
    (rand : List (BitVec 16)) (now : Int) :
    Returns (dispatchIp rs later packet interface rand now) := by
  unfold dispatchIp
  refine Spec.bind_lift fun iface hiface => ?_
  refine Spec.bind_keeps (fromWan_keeps (by decide) rs iface packet) fun packet' hpacket' => ?_
  refine Spec.bind_lift fun dst hdst => ?_
  have hstays := hstays iface packet' hiface hpacket'
  split
  · rename_i hours
    refine receiveIp_returns (fun hipP => hstays ?_) now
    simp [toPwospf, hdst, hours, hipP]
  · rename_i hours
    split
    · rename_i htip
      subst htip
      refine processPwospfPacket_returns (hstays ?_) now
      simp [toPwospf, hdst, hours]
    · exact Returns.of_keeps (forwardIp_keeps dst rand)

/-- The four locks are taken, and given back after code that returns with them. -/
theorem processIpPacket_spec (hstays : ipLeaves rs later packet interface ≠ some true)
    (rand : List (BitVec 16)) (now : Int) :
    Keeps [] (processIpPacket rs later packet interface rand now) := by
  unfold processIpPacket
  split
  · exact Spec.pure rfl
  · rename_i hvalid
    refine Spec.bind_lock (by decide) (Spec.bind_lock (by decide) ?_)
    refine Spec.bind_lock (by decide) (Spec.bind_lock (by decide) ?_)
    refine Spec.bind (dispatchIp_returns ?_ rand now) ?_
    · intro iface packet' hiface hpacket' hto hleaves
      exact hstays (by simp [ipLeaves, hvalid, hiface, hpacket', hto, hleaves])
    · rintro - held ⟨m, n, rfl⟩
      refine Spec.bind_unlock List.mem_cons_self (Spec.bind_unlock List.mem_cons_self ?_)
      exact Spec.bind_unlock List.mem_cons_self (Spec.unlock List.mem_cons_self rfl)

theorem sendIpPacket_spec {dest : BitVec 32}
    (hroute : Rtable.getNextHop 32 rs.rtable (swap32 dest) ≠ none) :
    Keeps [] (sendIpPacket rs dest) := by
  unfold sendIpPacket
  refine Spec.bind_lock (by decide) (Spec.bind_lock (by decide) ?_)
  refine Spec.bind_lock (by decide) (Spec.bind_lock (by decide) ?_)
  split
  · rename_i hnone
    exact absurd hnone hroute
  · refine Spec.bind_lift fun ifaceStruct _ => ?_
    refine Spec.bind_keeps (sendIp_keeps (by decide) rs _ _) fun _ _ => ?_
    refine Spec.bind_unlock (by decide) (Spec.bind_unlock (by decide) ?_)
    exact Spec.bind_unlock (by decide) (Spec.unlock (by decide) rfl)

end

theorem Call.keeps {call : Call} (hstays : ¬ call.LeavesLocked) : Keeps [] call.path := by
  cases call with
  | processIpPacket rs later packet interface rand now => exact processIpPacket_spec hstays rand now
  | sendIpPacket rs dest => exact sendIpPacket_spec hstays

section
variable {rs later : RouterState} {packet : Bytes} {interface : String}

theorem processPwospfHelloPacket_leads
    (hleaves : helloLeaves rs later packet interface = some true) (now : Int) :
    Leads (four .rd .rd) (processPwospfHelloPacket rs later packet interface now) ()
      ((.pwospfRouterList, .wr) :: four .rd .wr) := by
  simp only [helloLeaves, Option.bind_eq_bind, Option.bind_eq_some_iff, Option.pure_def,
    Option.some.injEq, Bool.and_eq_true, beq_iff_eq, bne_iff_ne] at hleaves
  obtain ⟨hello, hhello, iface, hiface, hhint, hmask⟩ := hleaves
  unfold processPwospfHelloPacket
  refine Leads.bind_lift hhello ?_
  rw [if_neg (not_not.mpr hhint)]
  refine Leads.bind_unlock (Leads.bind_unlock (Leads.bind_lock ?_))
  refine Leads.bind_lock (Leads.bind_lock (Leads.bind_lift hiface ?_))
  rw [if_pos hmask]
  exact ⟨rfl, rfl⟩

theorem processPwospfPacket_leads
    (hleaves : pwospfLeaves rs later packet interface = some true) (now : Int) :
    Leads (four .rd .rd) (processPwospfPacket rs later packet interface now) ()
      ((.pwospfRouterList, .wr) :: four .rd .wr) := by
  simp only [pwospfLeaves, Option.bind_eq_bind, Option.bind_eq_some_iff] at hleaves
  obtain ⟨⟨valid, packet'⟩, hvalid, type, htype, hleaves⟩ := hleaves
  split at hleaves
  · rename_i htrue
    obtain ⟨rfl, hhello⟩ := Bool.and_eq_true_iff.mp htrue
    refine Leads.bind_lift hvalid ?_
    dsimp only
    rw [if_neg nofun]
    refine Leads.bind_lift htype ?_
    rw [if_pos (beq_iff_eq.mp hhello)]
    exact processPwospfHelloPacket_leads hleaves now
  · cases hleaves

theorem ne_of_pwospf : ipProtoPwospf ≠ OrNat.ipProtoTcp ∧ ipProtoPwospf ≠ OrNat.ipProtoIcmp := by
  decide

theorem dispatchIp_leads {iface : Iface.Entry} {packet' : Bytes}
    (hiface : getIface rs.ifList interface = some iface)
    (hpacket' : (fromWan rs iface packet).result = some packet')
    (hto : toPwospf rs packet' = some true)
    (hleaves : pwospfLeaves rs later packet' interface = some true)
    (rand : List (BitVec 16)) (now : Int) :
    Leads (four .rd .rd) (dispatchIp rs later packet interface rand now) ()
      ((.pwospfRouterList, .wr) :: four .rd .wr) := by
  simp only [toPwospf, Option.bind_eq_bind, Option.bind_eq_some_iff] at hto
  obtain ⟨dst, hdst, hto⟩ := hto
  have hrest := processPwospfPacket_leads hleaves now
  unfold dispatchIp
  refine Leads.bind_lift hiface ?_
  refine Leads.bind ((fromWan_keeps (by decide) rs iface packet).leads hpacket') ?_
  refine Leads.bind_lift hdst ?_
  split at hto
  · rename_i hours
    obtain ⟨ipP, hipP, heq⟩ := Option.bind_eq_some_iff.mp hto
    rw [if_pos hours]
    refine Leads.bind_lift hipP ?_
    have heq : ipP = ipProtoPwospf := beq_iff_eq.mp (Option.some.inj heq)
    rw [heq, if_neg ne_of_pwospf.1, if_neg ne_of_pwospf.2, if_pos rfl]
    exact hrest
  · rename_i hours
    rw [if_neg hours, if_pos (beq_iff_eq.mp (Option.some.inj hto))]
    exact hrest

theorem processIpPacket_leads (hleaves : ipLeaves rs later packet interface = some true)
    (rand : List (BitVec 16)) (now : Int) :
    Leads [] (processIpPacket rs later packet interface rand now) ()
      [(.pwospfRouterList, .wr)] := by
  unfold ipLeaves at hleaves
  split at hleaves
  · cases hleaves
  · rename_i hvalid
    simp only [Option.bind_eq_bind, Option.bind_eq_some_iff] at hleaves
    obtain ⟨iface, hiface, packet', hpacket', pwospf, hto, hleaves⟩ := hleaves
    split at hleaves
    · rename_i htrue
      subst htrue
      unfold processIpPacket
      rw [if_neg hvalid]
      refine Leads.bind_lock (Leads.bind_lock (Leads.bind_lock (Leads.bind_lock ?_)))
      refine Leads.bind (dispatchIp_leads hiface hpacket' hto hleaves rand now) ?_
      exact ⟨rfl, rfl⟩
    · cases hleaves

theorem sendIpPacket_leads {dest : BitVec 32}
    (hnone : Rtable.getNextHop 32 rs.rtable (swap32 dest) = none) :
    Leads [] (sendIpPacket rs dest) () (four .rd .rd) := by
  unfold sendIpPacket
  rw [hnone]
  exact ⟨rfl, rfl⟩

end

/-- Exactly the calls that do not come to one of the two returns keep the discipline. -/
theorem disciplined_iff (call : Call) : call.path.Disciplined ↔ ¬ call.LeavesLocked := by
  refine ⟨fun hdisc hleaves => ?_, fun hstays => (Call.keeps hstays).disciplined⟩
  cases call with
  | processIpPacket rs later packet interface rand now =>
    exact (processIpPacket_leads hleaves rand now).not_disciplined hdisc
  | sendIpPacket rs dest => exact (sendIpPacket_leads hleaves).not_disciplined hdisc

theorem thread_keeps {calls : List Call} (hstays : ∀ call ∈ calls, ¬ call.LeavesLocked) :
    Keeps [] (thread calls) :=
  Spec.forM fun call hmem => Call.keeps (hstays call hmem)

theorem Lock.rank_le (l : Lock) : l.rank ≤ 8 := by cases l <;> decide

theorem wellFounded_above : WellFounded fun k l : Lock => l < k := by
  refine Subrelation.wf ?_ (measure fun l : Lock => 8 - l.rank).wf
  intro k l hlt
  have hlt : l.rank < k.rank := hlt
  have hle := k.rank_le
  change 8 - k.rank < 8 - l.rank
  omega

section
variable {T : Type} [DecidableEq T] {calls : T → List Call} {st : Threads T Lock}

/-- Threads whose calls all keep the discipline never come to a stop. -/
theorem threads_go_on (hstays : ∀ t, ∀ call ∈ calls t, ¬ call.LeavesLocked)
    (hreturns : ∀ t, (thread (calls t)).result.isSome)
    (hreach : Threads.Reach (fun t => (thread (calls t)).ops) st) {t : T} (hbusy : st.rest t ≠ []) :
    ∃ st', Threads.Step st st' := by
  have hdisc : ∀ t, (thread (calls t)).Disciplined := fun t => (thread_keeps (hstays t)).disciplined
  have hinOrder := Threads.InOrder.reach (fun t => (hdisc t).orderly) hreach
  have hbalanced := Threads.Balanced.reach (fun t => (hdisc t).returns (hreturns t)) hreach
  exact Threads.exists_step wellFounded_above hinOrder hbalanced hbusy

end

/-- A call keeps the discipline unless it comes to one of the two returns, and threads all of whose
calls keep it never wait for each other in a cycle. -/
theorem packet_path_disciplined (call : Call) {T : Type} [DecidableEq T] (calls : T → List Call)
    (st : Threads T Lock) :
    (call.path.Disciplined ↔ ¬ call.LeavesLocked) ∧
      ((∀ t, ∀ call ∈ calls t, ¬ call.LeavesLocked) →
        Threads.Reach (fun t => (thread (calls t)).ops) st → ¬ st.Deadlocked) := by
  refine ⟨disciplined_iff call, fun hstays hreach => ?_⟩
  have horderly : ∀ t, LockOp.Orderly [] (thread (calls t)).ops :=
    fun t => (thread_keeps (hstays t)).orderly
  exact (Threads.InOrder.reach horderly hreach).not_deadlocked

/-- 10.0.0.1/24 on `eth0`, with a route to its subnet. -/
def oneIface : RouterState where
  arpCache := []
  arpQueue := []
  ifList := [⟨"eth0", 0x0100000a, 0x00ffffff, true, [], false, Iface.eth0_lt⟩]
  rtable := [⟨0x0a000000, 0, 0xffffff00, "eth0", true, true, Iface.eth0_lt⟩]
  natTable := []
  pwospf := ⟨0x0100000a, 0, true, [⟨0x0100000a, 0, 0, [⟨0x0000000a, 0x00ffffff, 0, false⟩]⟩]⟩
  pwospfHelloInterval := 5

/-- A HELLO packet from 10.0.0.2 with a mask, and the checksum of its header. -/
def helloWith (sum mask : Bytes) : Bytes :=
  List.replicate 14 0 ++ [69, 0, 0, 52, 0, 0, 0, 0, 1, 89, 207, 106, 10, 0, 0, 2, 224, 0, 0, 5] ++
    [2, 1, 0, 32, 0, 0, 0, 2, 0, 0, 0, 0] ++ sum ++ List.replicate 10 0 ++ mask ++ [0, 5, 0, 0]

def helloCall (sum mask : Bytes) : Call :=
  .processIpPacket oneIface oneIface (helloWith sum mask) "eth0" [] 0

/-- A HELLO packet with the mask of `eth0` on one thread, and a packet to 10.0.0.2 on another. -/
def twoCalls : Bool → List Call
  | false => [helloCall [254, 214] [255, 255, 255, 0]]
  | true => [.sendIpPacket oneIface 0x0200000a]

theorem packet_path_disciplined_twoCalls :
    (helloCall [254, 214] [255, 255, 255, 0]).path.Disciplined ∧
      ¬ (Threads.start fun t => (thread (twoCalls t)).ops).Deadlocked := by
  have hstays : ∀ t, ∀ call ∈ twoCalls t, ¬ call.LeavesLocked := by decide +kernel
  obtain ⟨hdisc, hdead⟩ := packet_path_disciplined (helloCall [254, 214] [255, 255, 255, 0])
    twoCalls (.start fun t => (thread (twoCalls t)).ops)
  exact ⟨hdisc.mpr (hstays false _ List.mem_cons_self), hdead hstays .refl⟩

/-- A HELLO packet with the mask 255.255.0.0, and a packet to 10.0.1.2. -/
theorem two_calls_leave_locks :
    ¬ (helloCall [253, 215] [255, 255, 0, 0]).path.Disciplined ∧
      ¬ (Call.sendIpPacket oneIface 0x0201000a).path.Disciplined := by
  refine ⟨fun hdisc => ?_, fun hdisc => ?_⟩
  · have hnil := hdisc.returns (by decide +kernel)
    revert hnil
    decide +kernel
  · have hnil := hdisc.returns (by decide +kernel)
    revert hnil
    decide +kernel

end Osnt.Scone.PacketPath
