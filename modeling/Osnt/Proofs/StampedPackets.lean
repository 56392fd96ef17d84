import Osnt.Proofs.Timestamps

/-! The stamp parser packet by packet: stamp frames are taken out, and the packet behind one
carries its stamp. -/
namespace Osnt.PrePcapStore
open Lib HostStamps

namespace Conv

/-- What the parser sees in a cycle: the beat on the 512-to-128 converter's output, if its tvalid
is high, and the ready of the 128-to-512 converter. -/
structure Input where
  beat : Option Beat
  ready : Bool

/-- The parser as a clocked machine. -/
def machine : Machine Conv Input := ⟨fun c i => (c.comb i.beat i.ready).next⟩

/-- Beats taken in a cycle. -/
def taken (c : Conv) (i : Input) : List Beat :=
  if (c.comb i.beat i.ready).tready then i.beat.toList else []

/-- Beats handed on in a cycle. -/
def sent (c : Conv) (i : Input) : List Beat :=
  if i.ready then (c.comb i.beat i.ready).out.toList else []

/-- Whenever a beat is offered it is the first of the stream not taken yet. -/
def Feeds (stream : List Beat) (ins : List Input) : Prop :=
  ∀ past i, past ++ [i] <+: ins → machine.collect taken .reset past ++ i.beat.toList <+: stream

theorem follows_run {stream : List Beat} {ins : List Input} (h : Feeds stream ins) :
    Store.Follows (machine.run .reset ins) (machine.collect taken .reset ins) stream ∧
      machine.collect sent .reset ins = parse (machine.collect taken .reset ins) := by
  induction ins using List.reverseRecOn with
  | nil => exact ⟨.inl rfl, rfl⟩
  | append_singleton past i ih =>
    obtain ⟨hf, ho⟩ := ih (fun p j hp => h p j (hp.trans (List.prefix_append _ _)))
    obtain ⟨hfollows, hparse⟩ := hf.step (h past i (List.prefix_refl _)) i.ready
    rw [Machine.run_concat, Machine.collect_concat, Machine.collect_concat, ho]
    exact ⟨hfollows, hparse.symm⟩

theorem taken_isPrefix {stream : List Beat} {ins : List Input} (h : Feeds stream ins) :
    machine.collect taken .reset ins <+: stream := by
  rcases List.eq_nil_or_concat' ins with rfl | ⟨past, i, rfl⟩
  · exact List.nil_prefix
  · refine List.IsPrefix.trans ?_ (h past i (List.prefix_refl _))
    rw [Machine.collect_concat, taken]
    split
    · exact List.prefix_refl _
    · rw [List.append_nil]
      exact List.prefix_append _ _

/-- A packet without a stamp frame's signature goes through as it is. -/
theorem pass_beats {bs : List Beat} {last : Bool} (h : Closes last (bs.map Beat.tlast)) :
    parser.run ⟨.pass, 0⟩ bs = ⟨if last then .idle else .pass, 0⟩ ∧
      parser.collect emit ⟨.pass, 0⟩ bs = bs := by
  have hfeed : ∀ b, parser.step ⟨.pass, 0⟩ b = if b.tlast then ⟨.idle, 0⟩ else ⟨.pass, 0⟩ := by
    intro b
    cases hl : b.tlast <;> simp [parser, feed, settle, comb, hl]
  have hemit : ∀ b, emit ⟨.pass, 0⟩ b = [b] := by
    intro b
    simp [emit, settle, comb]
  obtain ⟨hr, ho⟩ := @closing_beats _ _ id true hfeed hemit bs last h
  refine ⟨?_, ho.trans (List.map_id bs)⟩
  rw [hr]
  cases last <;> rfl

/-- Before a packet that is no stamp frame the parser is as good as passing. -/
theorem pass_packet {b : Beat} {bs : List Beat} (hs : b.tsSignatureEn = false)
    (h : Closes true ((b :: bs).map Beat.tlast)) :
    parser.run .reset (b :: bs) = .reset ∧ parser.collect emit .reset (b :: bs) = b :: bs := by
  have hfeed : parser.step .reset b = parser.step ⟨.pass, 0⟩ b := by
    simp [parser, feed, settle, reset, hs]
  have hemit : emit .reset b = emit ⟨.pass, 0⟩ b := by simp [emit, settle, reset, hs]
  obtain ⟨hr, ho⟩ := pass_beats h
  rw [Machine.run_cons] at hr
  rw [Machine.collect_cons] at ho
  rw [Machine.run_cons, Machine.collect_cons, hfeed, hemit]
  exact ⟨hr, ho⟩

end Conv

theorem closes_of_packet {pkt : List Beat} (h : Packet Beat.tlast pkt) :
    Closes true (pkt.map Beat.tlast) := by
  obtain ⟨bs, b, rfl, hin, hl⟩ := h
  have hmap : bs.map Beat.tlast = List.replicate bs.length false :=
    List.eq_replicate_iff.mpr ⟨by simp, by simpa using hin⟩
  exact ⟨bs.length, by rw [List.map_append, hmap, List.map_singleton, hl]⟩

/-- A beat with a stamp in `tuser[63:32]` and nothing above. -/
def Beat.withStamp (stamp : BitVec 32) (b : Beat) : Beat :=
  { b with tuser := 0#64 ++ stamp ++ b.tuser.extractLsb' 0 32 }

/-- A packet with a stamp on its first beat. -/
def stampPacket (stamp : BitVec 32) : List Beat → List Beat
  | [] => []
  | b :: bs => b.withStamp stamp :: bs.map (Beat.withStamp 0)

/-- The stamp of a packet that begins like a stamp frame. -/
def frameStamp (pkt : List Beat) : Option (BitVec 32) :=
  pkt.head?.bind (fun b => if b.tsSignatureEn then some b.tsValue else none)

/-- Every packet that begins like a stamp frame is left out, and the packet behind it gets its
stamp and is not looked at. -/
def applyStamps : List (List Beat) → List (List Beat)
  | [] => []
  | [pkt] => if (frameStamp pkt).isSome then [] else [pkt]
  | pkt :: next :: pkts =>
    match frameStamp pkt with
    | some stamp => stampPacket stamp next :: applyStamps pkts
    | none => pkt :: applyStamps (next :: pkts)

theorem withStamp_tuser (stamp : BitVec 32) (b : Beat) :
    (b.withStamp stamp).tuser.extractLsb' 32 32 = stamp := by
  ext i hi
  rw [BitVec.getElem_extractLsb', Beat.withStamp, BitVec.getLsbD_append, if_neg (by omega),
    BitVec.getLsbD_append, if_pos (by omega), Nat.add_sub_cancel_left,
    BitVec.getLsbD_eq_getElem hi]

/-- What the parser holds of a stamp frame is the stamp and nothing above it. -/
theorem stampBeat_tuserTs (f b : Beat) : stampBeat f.tuserTs b = b.withStamp f.tsValue := by
  have hhigh : f.tuserTs.extractLsb' 32 96 = 0#64 ++ f.tsValue := by
    ext i hi
    rw [BitVec.getElem_extractLsb', Beat.tuserTs, BitVec.getLsbD_append, if_neg (by omega),
      Nat.add_sub_cancel_left, BitVec.getLsbD_eq_getElem hi]
  rw [stampBeat, hhigh, Beat.withStamp]

theorem stampBeat_zero (b : Beat) : stampBeat 0 b = b.withStamp 0 := by
  rw [stampBeat, Beat.withStamp]
  congr 1

theorem restamp_tuserTs (f : Beat) (bs : List Beat) :
    restamp f.tuserTs bs = stampPacket f.tsValue bs := by
  cases bs with
  | nil => rfl
  | cons b bs =>
    rw [restamp, stampPacket, stampBeat_tuserTs]
    exact congrArg _ (List.map_congr_left (fun c _ => stampBeat_zero c))

theorem drop_stamped {pkt : List Beat} {stamp : BitVec 32} (hs : frameStamp pkt = some stamp)
    (hp : Packet Beat.tlast pkt) :
    (∃ f : Beat, f.tsValue = stamp ∧ Conv.parser.run .reset pkt = ⟨.send, f.tuserTs⟩) ∧
      Conv.parser.collect Conv.emit .reset pkt = [] := by
  obtain ⟨b, bs, rfl⟩ := List.exists_cons_of_ne_nil (Packet.ne_nil Beat.tlast hp)
  obtain ⟨hsig, hval⟩ : b.tsSignatureEn = true ∧ b.tsValue = stamp := by
    simpa [frameStamp] using hs
  obtain ⟨hr, ho⟩ := Conv.drop_frame hsig (closes_of_packet hp)
  exact ⟨⟨b, hval, hr⟩, ho⟩

theorem parse_stamped {pkt next : List Beat} {stamp : BitVec 32}
    (hs : frameStamp pkt = some stamp) (hp : Packet Beat.tlast pkt)
    (hn : Packet Beat.tlast next) :
    Conv.parser.run .reset (pkt ++ next) = .reset ∧
      Conv.parser.collect Conv.emit .reset (pkt ++ next) = stampPacket stamp next := by
  obtain ⟨⟨f, rfl, hr⟩, ho⟩ := drop_stamped hs hp
  obtain ⟨hr', ho'⟩ := Conv.send_beats f.tuserTs (closes_of_packet hn)
  rw [Machine.run_append, Machine.collect_append, hr, ho, hr', ho', restamp_tuserTs]
  exact ⟨rfl, rfl⟩

theorem parse_unstamped {pkt : List Beat} (hs : frameStamp pkt = none)
    (hp : Packet Beat.tlast pkt) :
    Conv.parser.run .reset pkt = .reset ∧ Conv.parser.collect Conv.emit .reset pkt = pkt := by
  obtain ⟨b, bs, rfl⟩ := List.exists_cons_of_ne_nil (Packet.ne_nil Beat.tlast hp)
  have hsig : b.tsSignatureEn = false := by
    simpa [frameStamp] using hs
  exact Conv.pass_packet hsig (closes_of_packet hp)

/-- The parser takes the stamp frames out of a stream of packets and stamps the packets behind
them. -/
theorem parse_packets {pkts : List (List Beat)} (h : ∀ pkt ∈ pkts, Packet Beat.tlast pkt) :
    Conv.parse pkts.flatten = (applyStamps pkts).flatten := by
  induction pkts using applyStamps.induct with
  | case1 => rfl
  | case2 pkt hs =>
    obtain ⟨stamp, hs'⟩ := Option.isSome_iff_exists.mp hs
    rw [applyStamps, if_pos hs, List.flatten_singleton]
    exact (drop_stamped hs' (h pkt (by simp))).2
  | case3 pkt hs =>
    have hnone : frameStamp pkt = none := by simpa using hs
    rw [applyStamps, if_neg hs, List.flatten_singleton]
    exact (parse_unstamped hnone (h pkt (by simp))).2
  | case4 pkt next pkts stamp hs ih =>
    obtain ⟨hr, ho⟩ := parse_stamped hs (h pkt (by simp)) (h next (by simp))
    rw [applyStamps, hs, List.flatten_cons, List.flatten_cons, List.flatten_cons,
      ← List.append_assoc, Conv.parse, Machine.collect_append, hr, ho]
    exact congrArg _ (ih (fun p hp => h p (by simp [hp])))
  | case5 pkt next pkts hs ih =>
    obtain ⟨hr, ho⟩ := parse_unstamped hs (h pkt (by simp))
    rw [applyStamps, hs]
    change Conv.parser.collect Conv.emit .reset (pkt ++ (next :: pkts).flatten) =
      pkt ++ (applyStamps (next :: pkts)).flatten
    rw [Machine.collect_append, hr, ho]
    exact congrArg _ (ih (fun p hp => h p (by simp [hp])))

namespace Conv

/-- A beat that stays offered for two cycles with a ready converter behind is taken. -/
theorem taken_of_ready {stream : List Beat} {past : List Input} {i j : Input}
    (h : Feeds stream (past ++ [i] ++ [j])) (hi : i.ready = true) (hj : j.ready = true)
    (hib : i.beat.isSome = true) (hjb : j.beat.isSome = true) :
    (machine.collect taken .reset past).length <
      (machine.collect taken .reset (past ++ [i] ++ [j])).length := by
  have hpre : Feeds stream (past ++ [i]) := fun p k hp => h p k (hp.trans (List.prefix_append _ _))
  have hf := (follows_run (fun p k hp => hpre p k (hp.trans (List.prefix_append _ _)))).1
  have hf' := (follows_run hpre).1
  obtain ⟨b, hb⟩ := Option.isSome_iff_exists.mp hib
  obtain ⟨b', hb'⟩ := Option.isSome_iff_exists.mp hjb
  have htakes : ∀ {c : Conv} {ts : List Beat} {k : Input} {x : Beat},
      Store.Follows c ts stream → k.beat = some x → k.ready = true → c.state ≠ .idle →
      taken c k = [x] := by
    intro c ts k x hc hx hk hbusy
    rcases comb_take hc.clean hbusy x k.ready with ⟨h1, _⟩ | ⟨_, _, h3⟩
    · rw [taken, hx, h1]
      rfl
    · rw [hk] at h3
      cases h3
  rw [Machine.collect_concat, Machine.collect_concat, List.length_append, List.length_append]
  by_cases hidle : (machine.run .reset past).state = .idle
  · have hbusy : (machine.run .reset (past ++ [i])).state ≠ .idle := by
      rw [Machine.run_concat]
      change ((machine.run .reset past).comb i.beat i.ready).next.state ≠ _
      rw [hb, (comb_look hidle b i.ready).2.2]
      exact settle_busy _ b
    rw [htakes hf' hb' hj hbusy, List.length_singleton]
    omega
  · rw [htakes hf hb hi hidle, List.length_singleton]
    omega

end Conv

open Conv in
/-- However the beats of a sequence of packets arrive and are taken, the parser hands on the
packets without their stamp frames, each stamp on the packet behind; and a stamp frame of the
host yields the stamp it was made from. -/
theorem conv_applies_stamps {pkts : List (List Beat)} (h : ∀ pkt ∈ pkts, Packet Beat.tlast pkt)
    {ins : List Conv.Input} (hfeed : Feeds pkts.flatten ins) :
    Conv.machine.collect sent .reset ins <+: (applyStamps pkts).flatten ∧
    (Conv.machine.collect taken .reset ins = pkts.flatten →
      Conv.machine.collect sent .reset ins = (applyStamps pkts).flatten) ∧
    (∀ past i j, ins = past ++ [i] ++ [j] → i.ready = true → j.ready = true →
      i.beat.isSome = true → j.beat.isSome = true →
      (Conv.machine.collect taken .reset past).length <
        (Conv.machine.collect taken .reset ins).length) ∧
    ∀ stamp tuser b bs c cs more, stamp < 2 ^ 32 →
      b.tdata = (frameWord tuser (tsPktOut stamp)).tdata.extractLsb' 0 128 →
      ∃ out, applyStamps ((b :: bs) :: (c :: cs) :: more) =
          (out :: cs.map (Beat.withStamp 0)) :: applyStamps more ∧
        out.bare = c.bare ∧ (out.tuser.extractLsb' 32 32).toNat = stamp := by
  obtain ⟨_, hsent⟩ := follows_run hfeed
  refine ⟨?_, ?_, ?_, ?_⟩
  · rw [hsent, ← parse_packets h]
    exact parse_mono (taken_isPrefix hfeed)
  · intro hall
    rw [hsent, hall, parse_packets h]
  · rintro past i j rfl hi hj hib hjb
    exact taken_of_ready hfeed hi hj hib hjb
  · intro stamp tuser b bs c cs more hlt hb
    have hframe : frameStamp (b :: bs) = some (BitVec.ofNat 32 stamp) := by
      simp [frameStamp, tsSignatureEn_stamp hb, tsValue_stamp hb]
    refine ⟨c.withStamp (BitVec.ofNat 32 stamp), ?_, rfl, ?_⟩
    · rw [applyStamps, hframe]
      rfl
    · rw [withStamp_tuser, BitVec.toNat_ofNat, Nat.mod_eq_of_lt hlt]

/-- A stamp frame with the stamp five. -/
def fiveFrame : Beat := ⟨0x050000000000000000000000efbeadde, 0xffff, 7, true⟩

def fivePacket : Beat := ⟨1, 0xffff, 7, true⟩

/-- The frame and a packet behind it, with a gap between them and a stall before the packet. -/
def fiveInputs : List Conv.Input :=
  [⟨some fiveFrame, false⟩, ⟨some fiveFrame, false⟩, ⟨none, true⟩, ⟨some fivePacket, false⟩,
    ⟨some fivePacket, true⟩]

theorem conv_applies_stamps_five :
    Conv.machine.collect Conv.sent .reset fiveInputs = [⟨1, 0xffff, 0x0000000500000007, true⟩] := by
  have hpkts : ∀ pkt ∈ [[fiveFrame], [fivePacket]], Packet Beat.tlast pkt := by
    intro pkt hp
    rcases List.mem_pair.mp hp with rfl | rfl
    · exact ⟨[], fiveFrame, rfl, by simp, rfl⟩
    · exact ⟨[], fivePacket, rfl, by simp, rfl⟩
  have hfeed : Conv.Feeds [[fiveFrame], [fivePacket]].flatten fiveInputs := by
    apply forall_snoc
    decide +kernel
  exact (conv_applies_stamps hpkts hfeed).2.1 (by decide +kernel)

end Osnt.PrePcapStore
