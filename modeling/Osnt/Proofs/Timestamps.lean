import Osnt.HostStamps
import Osnt.Proofs.InterPacketDelay
import Osnt.Proofs.Parser
import Mathlib.Algebra.GroupWithZero.Nat

/-! Timestamped replay: the stamp the host computes for a packet, the word the parser
puts it into, and the gap the delay stage makes of it. -/
namespace Osnt

namespace HostStamps
open PrePcapStore

theorem getLsbD_lanes (bs : List (BitVec 8)) {i : Nat} (hi : i < 512) :
    (lanes bs).getLsbD i = (bs.getD (i / 8) 0).getLsbD (i % 8) := by
  induction bs generalizing i with
  | nil => simp [lanes]
  | cons b bs ih =>
    have hc : lanes (b :: bs) = lanes bs <<< 8 ||| b.setWidth 512 := rfl
    rw [hc, BitVec.getLsbD_or, BitVec.getLsbD_shiftLeft, BitVec.getLsbD_setWidth]
    by_cases h8 : i < 8
    · simp [h8, hi, Nat.div_eq_of_lt h8, Nat.mod_eq_of_lt h8]
    · obtain ⟨k, rfl⟩ : ∃ k, i = k + 8 := ⟨i - 8, by omega⟩
      have hlow : k < 512 := by omega
      have hk := ih hlow
      simp [hi, hk]

theorem getLsbD_stamp (tuser : BitVec 128) (stamp : Nat) {i : Nat} (hi : i < 128) :
    ((frameWord tuser (tsPktOut stamp)).tdata.extractLsb' 0 128).getLsbD i =
      ((tsPktOut stamp).getD (i / 8) 0).getLsbD (i % 8) := by
  have hlow : i < 512 := by omega
  rw [BitVec.getLsbD_extractLsb', Nat.zero_add]
  simp [hi, frameWord, getLsbD_lanes _ hlow]

theorem tsSignatureEn_stamp {tuser : BitVec 128} {stamp : Nat} {b : Beat}
    (hb : b.tdata = (frameWord tuser (tsPktOut stamp)).tdata.extractLsb' 0 128) :
    b.tsSignatureEn = true := by
  have hsig : ∀ i (_ : i < 64),
      (tsSignature.getD (i / 8) 0).getLsbD (i % 8) = (0x00000000efbeadde#64)[i] := by decide
  rw [Beat.tsSignatureEn, beq_iff_eq, hb]
  ext i hi
  rw [BitVec.getElem_extractLsb', Nat.zero_add, getLsbD_stamp tuser stamp (by omega),
    List.getD_eq_getElem?_getD, tsPktOut, List.getElem?_append_left (by simp [tsSignature]; omega),
    ← List.getD_eq_getElem?_getD]
  exact hsig i hi

theorem toNat_append_byte {n : Nat} (a : BitVec n) (b : BitVec 8) :
    (a ++ b).toNat = a.toNat * 256 + b.toNat := by
  rw [BitVec.toNat_append, ← Nat.shiftLeft_add_eq_or_of_lt b.isLt, Nat.shiftLeft_eq]

theorem append_bytes (n : Nat) :
    BitVec.ofNat 8 (n / 256 ^ 3) ++ BitVec.ofNat 8 (n / 256 ^ 2) ++ BitVec.ofNat 8 (n / 256 ^ 1) ++
      BitVec.ofNat 8 (n / 256 ^ 0) = BitVec.ofNat 32 n := by
  apply BitVec.eq_of_toNat_eq
  rw [toNat_append_byte, toNat_append_byte, toNat_append_byte]
  simp only [BitVec.toNat_ofNat]
  omega

theorem tsValue_stamp {tuser : BitVec 128} {stamp : Nat} {b : Beat}
    (hb : b.tdata = (frameWord tuser (tsPktOut stamp)).tdata.extractLsb' 0 128) :
    b.tsValue = BitVec.ofNat 32 stamp := by
  have hbyte : ∀ k, 8 ≤ k → k < 16 →
      b.tdata.extractLsb' (8 * k) 8 = BitVec.ofNat 8 (stamp / 256 ^ (15 - k)) := by
    intro k h1 h2
    have hk : (tsPktOut stamp).getD k 0 = BitVec.ofNat 8 (stamp / 256 ^ (15 - k)) := by
      obtain ⟨m, rfl⟩ : ∃ m, k = m + 8 := ⟨k - 8, by omega⟩
      have hm : m < 8 := by omega
      simp [tsPktOut, tsSignature, hm]
    ext j hj
    have hdiv : (8 * k + j) / 8 = k := by omega
    have hmod : (8 * k + j) % 8 = j := by omega
    rw [BitVec.getElem_extractLsb', hb, getLsbD_stamp tuser stamp (by omega), hdiv, hmod, hk]
    rfl
  rw [Beat.tsValue, hbyte 12 (by omega) (by omega), hbyte 13 (by omega) (by omega),
    hbyte 14 (by omega) (by omega), hbyte 15 (by omega) (by omega)]
  exact append_bytes stamp

end HostStamps

namespace PrePcapStore
open Lib HostStamps InterPacketDelay

/-- The end-of-packet marks of a sequence whose last element alone may carry one. -/
def Closes (last : Bool) (marks : List Bool) : Prop :=
  ∃ k, marks = List.replicate k false ++ [last]

theorem closes_cons {last m : Bool} {ms : List Bool} (h : Closes last (m :: ms)) :
    (ms = [] ∧ m = last) ∨ (m = false ∧ Closes last ms) := by
  obtain ⟨k, hk⟩ := h
  cases k with
  | zero =>
    simp only [List.replicate_zero, List.nil_append, List.cons.injEq] at hk
    exact .inl ⟨hk.2, hk.1⟩
  | succ k =>
    simp only [List.replicate_succ, List.cons_append, List.cons.injEq] at hk
    exact .inr ⟨hk.1, k, hk.2⟩

theorem not_closes_nil (last : Bool) : ¬ Closes last [] := by
  rintro ⟨k, hk⟩
  cases k <;> simp at hk

/-- A beat without its side band. -/
def Beat.bare (b : Beat) : BitVec 128 × BitVec 16 × Bool := (b.tdata, b.tkeep, b.tlast)

/-- The side band of the first beat. -/
def userOf (bs : List Beat) : BitVec 128 := (bs.head?.map Beat.tuser).getD 0

/-- What else the converters keep: the lowest lane comes first, the end of a packet is
on the last beat, and a word is given the side band of its first beat. -/
structure Converters.Framed (cv : Converters) : Prop where
  low : ∀ w, ∃ b bs, cv.split w = b :: bs ∧ b.tdata = w.tdata.extractLsb' 0 128
  marks : ∀ w, Closes w.tlast ((cv.split w).map Beat.tlast)
  user : ∀ cs : List (Word × List Beat),
    (∀ c ∈ cs, c.2.map Beat.bare = (cv.split c.1).map Beat.bare) →
    cv.merge (cs.flatMap Prod.snd) = cs.map (fun c => { c.1 with tuser := userOf c.2 })

theorem fourBeats_framed : fourLanes.Framed where
  low w := ⟨_, _, rfl, rfl⟩
  marks w := ⟨3, rfl⟩
  user cs h := by
    induction cs with
    | nil => rfl
    | cons c cs ih =>
      obtain ⟨w, bs⟩ := c
      have hb := h (w, bs) (by simp)
      have hd := lanes_append (n := 128) w.tdata
      have hk := lanes_append (n := 16) w.tkeep
      have hrest := ih (fun c hc => h c (by simp [hc]))
      have hl : bs.length = 4 := by simpa [fourLanes, fourBeats] using congrArg List.length hb
      obtain ⟨b0, b1, b2, b3, rfl⟩ : ∃ b0 b1 b2 b3, bs = [b0, b1, b2, b3] := by
        rcases bs with _ | ⟨b0, _ | ⟨b1, _ | ⟨b2, _ | ⟨b3, _ | ⟨b4, bs⟩⟩⟩⟩⟩ <;> simp at hl
        exact ⟨b0, b1, b2, b3, rfl⟩
      simp only [fourLanes, fourBeats, Beat.bare, List.map_cons, List.map_nil, List.cons.injEq,
        Prod.mk.injEq, and_true] at hb
      obtain ⟨⟨d0, k0, -⟩, ⟨d1, k1, -⟩, ⟨d2, k2, -⟩, d3, k3, l3⟩ := hb
      simp only [fourLanes] at hrest
      simp only [fourLanes, List.flatMap_cons, List.cons_append, List.nil_append, ofFourBeats,
        hrest, List.map_cons, d0, d1, d2, d3, k0, k1, k2, k3, l3]
      exact congrArg (· :: _)
        (congrArg₂ (fun d k => (⟨d, k, b0.tuser, w.tlast⟩ : Word)) hd hk)

/-- A beat as the parser sends it, with the side band it holds. -/
def stampBeat (u : BitVec 128) (b : Beat) : Beat :=
  { b with tuser := u.extractLsb' 32 96 ++ b.tuser.extractLsb' 0 32 }

/-- The first beat of a stamped packet gets the stamp, the others get none. -/
def restamp (u : BitVec 128) : List Beat → List Beat
  | [] => []
  | b :: bs => stampBeat u b :: bs.map (stampBeat 0)

theorem bare_restamp (u : BitVec 128) (bs : List Beat) :
    (restamp u bs).map Beat.bare = bs.map Beat.bare := by
  cases bs <;> simp [restamp, stampBeat, Beat.bare, Function.comp_def]

namespace Conv

/-- A state that the parser leaves with the end of a packet, and what it makes of each beat
there. -/
theorem closing_beats {c d : Conv} {out : Beat → Beat} {kept : Bool}
    (hfeed : ∀ b, parser.step c b = if b.tlast then d else c)
    (hemit : ∀ b, emit c b = if kept then [out b] else []) {bs : List Beat} {last : Bool}
    (h : Closes last (bs.map Beat.tlast)) :
    parser.run c bs = (if last then d else c) ∧
      parser.collect emit c bs = if kept then bs.map out else [] := by
  induction bs with
  | nil => exact absurd h (not_closes_nil last)
  | cons b bs ih =>
    rw [Machine.run_cons, Machine.collect_cons, hfeed, hemit]
    rcases closes_cons h with ⟨hnil, hl⟩ | ⟨hl, hc⟩
    · rw [List.map_eq_nil_iff] at hnil
      subst hnil
      rw [hl]
      exact ⟨rfl, List.append_nil _⟩
    · obtain ⟨hr, ho⟩ := ih hc
      rw [hl, if_neg Bool.false_ne_true, hr, ho]
      cases kept with
      | false => exact ⟨rfl, rfl⟩
      | true => exact ⟨rfl, rfl⟩

/-- In its send state the parser restamps a word and stays there, or is idle again
after the end of the packet. -/
theorem send_beats (u : BitVec 128) {bs : List Beat} {last : Bool}
    (h : Closes last (bs.map Beat.tlast)) :
    parser.run ⟨.send, u⟩ bs = ⟨if last then .idle else .send, 0⟩ ∧
      parser.collect emit ⟨.send, u⟩ bs = restamp u bs := by
  have hfeed : ∀ u b, parser.step ⟨.send, u⟩ b = if b.tlast then ⟨.idle, 0⟩ else ⟨.send, 0⟩ := by
    intro u b
    cases hl : b.tlast <;> simp [parser, feed, settle, comb, hl]
  have hemit : ∀ u b, emit ⟨.send, u⟩ b = [stampBeat u b] := by
    intro u b
    simp [emit, settle, comb, stampBeat]
  cases bs with
  | nil => exact absurd h (not_closes_nil last)
  | cons b bs =>
    rw [Machine.run_cons, Machine.collect_cons, hfeed, hemit]
    rcases closes_cons h with ⟨hnil, hl⟩ | ⟨hl, hc⟩
    · rw [List.map_eq_nil_iff] at hnil
      subst hnil
      rw [hl]
      cases last <;> exact ⟨rfl, rfl⟩
    · obtain ⟨hr, ho⟩ := @closing_beats ⟨.send, 0⟩ ⟨.idle, 0⟩ (stampBeat 0) true (hfeed 0)
        (hemit 0) bs last hc
      rw [hl, if_neg Bool.false_ne_true, hr, ho]
      cases last <;> exact ⟨rfl, rfl⟩

theorem wait_beats (u : BitVec 128) {bs : List Beat} (h : Closes true (bs.map Beat.tlast)) :
    parser.run ⟨.wait, u⟩ bs = ⟨.send, u⟩ ∧ parser.collect emit ⟨.wait, u⟩ bs = [] := by
  have hfeed : ∀ b, parser.step ⟨.wait, u⟩ b = if b.tlast then ⟨.send, u⟩ else ⟨.wait, u⟩ := by
    intro b
    cases hl : b.tlast <;> simp [parser, feed, settle, comb, hl]
  have hemit : ∀ b, emit ⟨.wait, u⟩ b = [] := by
    intro b
    simp [emit, settle, comb]
  exact @closing_beats _ _ id false hfeed hemit bs true h

theorem drop_frame {b : Beat} {bs : List Beat} (hs : b.tsSignatureEn = true)
    (h : Closes true ((b :: bs).map Beat.tlast)) :
    parser.run .reset (b :: bs) = ⟨.send, b.tuserTs⟩ ∧
      parser.collect emit .reset (b :: bs) = [] := by
  have hfeed : parser.step .reset b = ⟨if b.tlast then .send else .wait, b.tuserTs⟩ := by
    simp [parser, feed, settle, comb, reset, hs]
  have hemit : emit .reset b = [] := by simp [emit, settle, comb, reset, hs]
  rw [Machine.run_cons, Machine.collect_cons, hfeed, hemit, List.nil_append]
  rcases closes_cons h with ⟨hnil, hl⟩ | ⟨hl, hc⟩
  · rw [List.map_eq_nil_iff] at hnil
    subst hnil
    rw [hl]
    exact ⟨rfl, rfl⟩
  · rw [hl]
    exact wait_beats _ hc

/-- The words of a packet with the beats the parser makes of them. -/
def chunks (cv : Converters) (u : BitVec 128) : List Word → List (Word × List Beat)
  | [] => []
  | w :: ws => (w, restamp u (cv.split w)) :: ws.map (fun v => (v, restamp 0 (cv.split v)))

theorem send_packet {cv : Converters} (hcv : cv.Framed) (u : BitVec 128) {ws : List Word}
    (h : Closes true (ws.map Word.tlast)) :
    parser.run ⟨.send, u⟩ (ws.flatMap cv.split) = .reset ∧
      parser.collect emit ⟨.send, u⟩ (ws.flatMap cv.split) =
        (chunks cv u ws).flatMap Prod.snd := by
  induction ws generalizing u with
  | nil => exact absurd h (not_closes_nil true)
  | cons w ws ih =>
    obtain ⟨hr, ho⟩ := send_beats u (hcv.marks w)
    rw [List.flatMap_cons, Machine.run_append, Machine.collect_append, hr, ho]
    rcases closes_cons h with ⟨hnil, hl⟩ | ⟨hl, hc⟩
    · rw [List.map_eq_nil_iff] at hnil
      subst hnil
      rw [hl]
      exact ⟨rfl, rfl⟩
    · obtain ⟨hr', ho'⟩ := ih 0 hc
      rw [hl]
      simp only [Bool.false_eq_true, if_false]
      rw [hr', ho']
      refine ⟨rfl, ?_⟩
      cases ws <;> simp [chunks]

end Conv

/-- What the delay stage looks at in a word. -/
def wireFields (w : Word) : Bool × BitVec 32 := (w.tlast, stampOf w)

/-- These fields along a packet that carries a stamp. -/
def packetFields (stamp : Nat) : List Word → List (Bool × BitVec 32)
  | [] => []
  | w :: ws => (w.tlast, BitVec.ofNat 32 stamp) :: ws.map (fun v => (v.tlast, 0))

theorem stamp_tuserTs (b : Beat) : b.tuserTs.extractLsb' 32 32 = b.tsValue := by
  ext i hi
  rw [BitVec.getElem_extractLsb', Beat.tuserTs, BitVec.getLsbD_append, if_neg (by omega),
    BitVec.getLsbD_append, if_pos (by omega), Nat.add_sub_cancel_left,
    BitVec.getLsbD_eq_getElem hi]

theorem stamp_stampBeat (u : BitVec 128) (b : Beat) :
    (stampBeat u b).tuser.extractLsb' 32 32 = u.extractLsb' 32 32 := by
  ext i hi
  have habove : ¬ 32 + i < 32 := by omega
  have hlow : i < 96 := by omega
  rw [BitVec.getElem_extractLsb', stampBeat, BitVec.getLsbD_append]
  simp [habove, hlow]

theorem stamp_restamp {cv : Converters} (hcv : cv.Framed) (u : BitVec 128) (w : Word) :
    (userOf (restamp u (cv.split w))).extractLsb' 32 32 = u.extractLsb' 32 32 := by
  obtain ⟨b, bs, hs, _⟩ := hcv.low w
  rw [hs]
  exact stamp_stampBeat u b

theorem chunks_fields {cv : Converters} (hcv : cv.Framed) {u : BitVec 128} {stamp : Nat}
    (hu : u.extractLsb' 32 32 = BitVec.ofNat 32 stamp) (ws : List Word) :
    (Conv.chunks cv u ws).map (fun c => wireFields { c.1 with tuser := userOf c.2 }) =
      packetFields stamp ws := by
  cases ws with
  | nil => rfl
  | cons w ws =>
    simp only [Conv.chunks, packetFields, List.map_cons, wireFields, stampOf, stamp_restamp hcv, hu,
      List.map_map]
    refine congrArg _ (List.map_congr_left ?_)
    intro v _
    simp only [Function.comp_def, stamp_restamp hcv]
    rfl

/-- What the parser makes of a host's stream, word by word. -/
theorem parse_hostStream {cv : Converters} (hcv : cv.Framed) (tuser : BitVec 128)
    (pkts : List (Nat × List Word)) (hp : ∀ p ∈ pkts, Closes true (p.2.map Word.tlast)) :
    ∃ cs : List (Word × List Beat),
      Conv.parser.run .reset ((hostStream tuser pkts).flatMap cv.split) = .reset ∧
      Conv.parse ((hostStream tuser pkts).flatMap cv.split) = cs.flatMap Prod.snd ∧
      (∀ c ∈ cs, c.2.map Beat.bare = (cv.split c.1).map Beat.bare) ∧
      cs.map (fun c => wireFields { c.1 with tuser := userOf c.2 }) =
        pkts.flatMap (fun p => packetFields p.1 p.2) := by
  induction pkts with
  | nil => exact ⟨[], rfl, rfl, by simp, rfl⟩
  | cons p pkts ih =>
    obtain ⟨cs, hrun, hout, hbare, hfields⟩ := ih (fun q hq => hp q (by simp [hq]))
    have hmarks := hcv.marks (frameWord tuser (tsPktOut p.1))
    obtain ⟨b, bs, hsplit, hlow⟩ := hcv.low (frameWord tuser (tsPktOut p.1))
    rw [hsplit] at hmarks
    obtain ⟨hr1, ho1⟩ := Conv.drop_frame (tsSignatureEn_stamp hlow) hmarks
    obtain ⟨hr2, ho2⟩ := Conv.send_packet hcv b.tuserTs (hp p (by simp))
    have hu : b.tuserTs.extractLsb' 32 32 = BitVec.ofNat 32 p.1 := by
      rw [stamp_tuserTs, tsValue_stamp hlow]
    have hstream : (hostStream tuser (p :: pkts)).flatMap cv.split =
        (b :: bs) ++ (p.2.flatMap cv.split ++ (hostStream tuser pkts).flatMap cv.split) := by
      simp [hostStream, List.flatMap_append, hsplit]
    refine ⟨Conv.chunks cv b.tuserTs p.2 ++ cs, ?_, ?_, ?_, ?_⟩
    · rw [hstream, Machine.run_append, hr1, Machine.run_append, hr2, hrun]
    · rw [Conv.parse] at hout ⊢
      rw [hstream, Machine.collect_append, ho1, hr1, Machine.collect_append, ho2, hr2, hout,
        List.flatMap_append, List.nil_append]
    · intro c hc
      rcases List.mem_append.mp hc with hc | hc
      · have hmem : ∃ v ws, c = (v, restamp ws (cv.split v)) := by
          cases hws : p.2 with
          | nil => simp [hws, Conv.chunks] at hc
          | cons w ws =>
            simp only [hws, Conv.chunks, List.mem_cons, List.mem_map] at hc
            rcases hc with rfl | ⟨v, _, rfl⟩
            · exact ⟨w, _, rfl⟩
            · exact ⟨v, _, rfl⟩
        obtain ⟨v, u, rfl⟩ := hmem
        exact bare_restamp u _
      · exact hbare c hc
    · rw [List.map_append, chunks_fields hcv hu, hfields, List.flatMap_cons]

/-- What leaves the store carries every stamp in the first word of its packet. -/
theorem merge_hostStream {cv : Converters} (hcv : cv.Framed) (tuser : BitVec 128)
    (pkts : List (Nat × List Word)) (hp : ∀ p ∈ pkts, Closes true (p.2.map Word.tlast)) :
    (cv.merge (Conv.parse ((hostStream tuser pkts).flatMap cv.split))).map wireFields =
      pkts.flatMap (fun p => packetFields p.1 p.2) := by
  obtain ⟨cs, _, hout, hbare, hfields⟩ := parse_hostStream hcv tuser pkts hp
  rw [hout, hcv.user cs hbare, List.map_map]
  exact hfields

end PrePcapStore

namespace InterPacketDelay
open Lib HostStamps PrePcapStore

/-- Where the first word of packet `i` stands in the stream of a trace. -/
def offset (pkts : List (Nat × List Word)) (i : Nat) : Nat :=
  ((pkts.take i).map (fun p => p.2.length)).sum

/-- The cycle in which the first word of packet `i` is handed over. -/
def headTime (pkts : List (Nat × List Word)) (departed : List (Nat × Word)) (i : Nat) :
    Option Nat :=
  departed[offset pkts i]?.map Prod.fst

theorem offset_succ (p : Nat × List Word) (pkts : List (Nat × List Word)) (i : Nat) :
    offset (p :: pkts) (i + 1) = p.2.length + offset pkts i := by
  simp [offset]

/-- Past the first word of a packet the observer keeps its time and stamp. -/
theorem monitor_body {D : List (Nat × Word)} {head : Option (Nat × BitVec 32)}
    (h : Closes true (D.map (fun e => e.2.tlast))) :
    monitor.run ⟨false, head⟩ D = ⟨true, head⟩ := by
  induction D with
  | nil => exact absurd h (not_closes_nil true)
  | cons e D ih =>
    have hstep : monitor.step ⟨false, head⟩ e = ⟨e.2.tlast, head⟩ := rfl
    rw [Machine.run_cons, hstep]
    rw [List.map_cons] at h
    rcases closes_cons h with ⟨hnil, hl⟩ | ⟨hl, hc⟩
    · rw [List.map_eq_nil_iff] at hnil
      rw [hnil, hl]
      rfl
    · rw [hl]
      exact ih hc

theorem monitor_packet {e : Nat × Word} {D : List (Nat × Word)} {head : Option (Nat × BitVec 32)}
    (h : Closes true ((e :: D).map (fun e => e.2.tlast))) :
    monitor.run ⟨true, head⟩ (e :: D) = ⟨true, some (e.1, stampOf e.2)⟩ := by
  have hstep : monitor.step ⟨true, head⟩ e = ⟨e.2.tlast, some (e.1, stampOf e.2)⟩ := rfl
  rw [Machine.run_cons, hstep]
  rw [List.map_cons] at h
  rcases closes_cons h with ⟨hnil, hl⟩ | ⟨hl, hc⟩
  · rw [List.map_eq_nil_iff] at hnil
    rw [hnil, hl]
    rfl
  · rw [hl]
    exact monitor_body hc

/-- In a strictly rising schedule `k` places are at least `k` cycles. -/
theorem time_add_le {D : List (Nat × Word)} (h : D.Pairwise (fun a b => a.1 < b.1)) {j k : Nat}
    {e f : Nat × Word} (he : D[j]? = some e) (hf : D[j + k]? = some f) : e.1 + k ≤ f.1 := by
  induction k generalizing f with
  | zero =>
    rw [Nat.add_zero, he, Option.some.injEq] at hf
    rw [hf]
    omega
  | succ k ih =>
    obtain ⟨hlt, hget⟩ := List.getElem?_eq_some_iff.mp hf
    have hk : j + k < D.length := by omega
    have hle := ih (List.getElem?_eq_getElem hk)
    have hstep := List.pairwise_iff_getElem.mp h (j + k) (j + (k + 1)) hk hlt (by omega)
    rw [hget] at hstep
    omega

theorem length_packetFields (stamp : Nat) (ws : List Word) :
    (packetFields stamp ws).length = ws.length := by
  cases ws <;> simp [packetFields]

/-- The words of the first packet of a trace, once all of them have left. -/
theorem departed_packet {p : Nat × List Word} {pkts : List (Nat × List Word)}
    {D : List (Nat × Word)} (hp : Closes true (p.2.map Word.tlast))
    (hfields : D.map (fun e => wireFields e.2) <+:
      (p :: pkts).flatMap (fun p => packetFields p.1 p.2))
    (hlen : p.2.length ≤ D.length) :
    ∃ e D', D.take p.2.length = e :: D' ∧ stampOf e.2 = BitVec.ofNat 32 p.1 ∧
      Closes true ((e :: D').map (fun e => e.2.tlast)) ∧
      (D.drop p.2.length).map (fun e => wireFields e.2) <+:
        pkts.flatMap (fun p => packetFields p.1 p.2) := by
  rw [List.flatMap_cons] at hfields
  have hpf := length_packetFields p.1 p.2
  have htake : (D.take p.2.length).map (fun e => wireFields e.2) = packetFields p.1 p.2 := by
    rw [List.map_take, List.prefix_iff_eq_take.mp hfields, List.take_take,
      Nat.min_eq_left (by simpa using hlen), List.take_append_of_le_length (by omega), ← hpf,
      List.take_length]
  have hdrop : (D.drop p.2.length).map (fun e => wireFields e.2) <+:
      pkts.flatMap (fun p => packetFields p.1 p.2) := by
    have hd := hfields.drop p.2.length
    rwa [List.drop_append_of_le_length (by omega), ← hpf, List.drop_length, List.nil_append, hpf,
      ← List.map_drop] at hd
  cases hws : p.2 with
  | nil =>
    rw [hws] at hp
    exact absurd hp (not_closes_nil true)
  | cons w ws =>
    rw [hws] at htake hdrop hp
    obtain ⟨e, D', he, hhead, htail⟩ := List.map_eq_cons_iff.mp htake
    refine ⟨e, D', he, ?_, ?_, hdrop⟩
    · exact congrArg Prod.snd hhead
    · have hmarks := congrArg (List.map Prod.fst) htake
      rw [he] at hmarks
      simp only [packetFields, List.map_cons, List.map_map, Function.comp_def, wireFields]
        at hmarks hp ⊢
      rw [hmarks]
      exact hp

/-- Packet `i + 1` begins at least the stamp of packet `i` and the length of packet `i`
after packet `i`. -/
theorem heads_spaced {pkts : List (Nat × List Word)} {D : List (Nat × Word)}
    {head : Option (Nat × BitVec 32)} (hp : ∀ p ∈ pkts, Closes true (p.2.map Word.tlast))
    (hstamp : ∀ p ∈ pkts, p.1 < 2 ^ 32)
    (hfields : D.map (fun e => wireFields e.2) <+:
      pkts.flatMap (fun p => packetFields p.1 p.2))
    (hup : D.Pairwise (fun a b => a.1 < b.1)) (hal : monitor.Along Spaced ⟨true, head⟩ D)
    {i : Nat} {a : Nat × List Word} (ha : pkts[i]? = some a) {T T' : Nat}
    (hT : headTime pkts D i = some T) (hT' : headTime pkts D (i + 1) = some T') :
    T + max a.1 a.2.length ≤ T' := by
  induction pkts generalizing D head i with
  | nil => simp at ha
  | cons p pkts ih =>
    rw [headTime, offset_succ, Option.map_eq_some_iff] at hT'
    obtain ⟨f, hf, hfT⟩ := hT'
    obtain ⟨hlt, _⟩ := List.getElem?_eq_some_iff.mp hf
    obtain ⟨e, D', htake, hst, hcl, hrest⟩ :=
      departed_packet (hp p (by simp)) hfields (by omega)
    have hD : D = (e :: D') ++ D.drop p.2.length := by rw [← htake, List.take_append_drop]
    have hal' : monitor.Along Spaced ⟨true, some (e.1, stampOf e.2)⟩ (D.drop p.2.length) := by
      rw [hD, Machine.along_append, monitor_packet hcl] at hal
      exact hal.2
    cases i with
    | zero =>
      have hpa : p = a := by simpa using ha
      have he0 : D[0]? = some e := by rw [hD]; rfl
      have heT : e.1 = T := by
        simpa [headTime, offset, he0] using hT
      rw [offset, List.take_zero, List.map_nil, List.sum_nil, Nat.add_zero] at hf
      have hlen := time_add_le hup he0 (k := p.2.length) (by rw [Nat.zero_add]; exact hf)
      have hf' : (D.drop p.2.length)[0]? = some f := by rw [List.getElem?_drop]; exact hf
      cases hr : D.drop p.2.length with
      | nil => simp [hr] at hf'
      | cons g rest =>
        rw [hr] at hf' hal'
        obtain rfl : g = f := by simpa using hf'
        have hsp := hal'.1 rfl (e.1, stampOf e.2) rfl
        have hnat : (stampOf e.2).toNat = p.1 := by
          rw [hst, BitVec.toNat_ofNat]
          exact Nat.mod_eq_of_lt (hstamp p (by simp))
        rw [hnat] at hsp
        rw [← hpa, ← heT, ← hfT]
        omega
    | succ i =>
      have hdrop : ∀ j, headTime pkts (D.drop p.2.length) j = headTime (p :: pkts) D (j + 1) := by
        intro j
        rw [headTime, headTime, List.getElem?_drop, offset_succ]
      refine ih (fun q hq => hp q (by simp [hq])) (fun q hq => hstamp q (by simp [hq])) hrest
        (hup.sublist (List.drop_sublist _ _)) hal' (by simpa using ha) ((hdrop i).trans hT) ?_
      rw [hdrop, headTime, offset_succ, hf]
      exact congrArg some hfT

/-- Packets begin as far apart as their own stamps ask. -/
def GapsKept (pkts : List (Nat × List Word)) (departed : List (Nat × Word)) : Prop :=
  ∀ i b T T', pkts[i + 1]? = some b → headTime pkts departed i = some T →
    headTime pkts departed (i + 1) = some T' → T + b.1 ≤ T'

namespace Ipd

/-- The gaps of a trace are kept if no stamp asks for more than the stamp before it or
the words of the packet before it already make up. -/
theorem stamped_gaps_kept {cv : Converters} (hcv : cv.Framed) (s : Ipd) (tuser : BitVec 128)
    (times : List Nat) (packets : List (List Word)) (ins : List Input)
    (hp : ∀ pk ∈ packets, Closes true (pk.map Word.tlast))
    (hstamp : ∀ d ∈ pktTimeDiff times, d < 2 ^ 32) (hin : ∀ i ∈ ins, Stamping i)
    (hsrc : (machine.collect accepted s.reset ins).map wireFields <+:
      (cv.merge (Conv.parse ((hostStream tuser (stamped times packets)).flatMap cv.split))).map
        wireFields)
    (hticks : ins.length + 2 ^ 32 ≤ 2 ^ 64)
    (hgaps : (stamped times packets).IsChain (fun a b => b.1 ≤ max a.1 a.2.length)) :
    GapsKept (stamped times packets) (departures s.reset ins) := by
  have hp' : ∀ p ∈ stamped times packets, Closes true (p.2.map Word.tlast) :=
    fun p hm => hp p.2 (List.of_mem_zip hm).2
  have hstamp' : ∀ p ∈ stamped times packets, p.1 < 2 ^ 32 :=
    fun p hm => hstamp p.1 (List.of_mem_zip hm).1
  have hfields : (departures s.reset ins).map (fun e => wireFields e.2) <+:
      (stamped times packets).flatMap (fun p => packetFields p.1 p.2) := by
    rw [merge_hostStream hcv tuser _ hp', accepted_run s (fun i hi => (hin i hi).enabled),
      List.map_append,
      ← machine.schedule_snd, List.map_map] at hsrc
    exact (List.prefix_append _ _).trans hsrc
  have hone : ∀ (t : Ipd) (i : Input), (t.handed i).length ≤ 1 := by
    intro t i
    simp only [handed]
    split <;> simp
  have hup := (machine.schedule_increasing handed hone s.reset ins).1
  intro i b T T' hb hT hT'
  obtain ⟨hlt, hget⟩ := List.getElem?_eq_some_iff.mp hb
  have ha : (stamped times packets)[i]? = some (stamped times packets)[i] :=
    List.getElem?_eq_getElem (by omega)
  have hle := List.isChain_iff_getElem.mp hgaps i hlt
  rw [hget] at hle
  have hsp := heads_spaced hp' hstamp' hfields hup (tracked_run s hin hticks).spaced ha hT hT'
  omega

/-- A cycle in which nothing arrives and the receiver is ready. -/
def quiet : Input := ⟨false, true, false, 0, false, default, true⟩

/-- Quiet cycles before a packet is due only move the tick counter. -/
theorem waiting_run (s : Ipd) (past : List Input) (due : Nat) (hdue : due < 2 ^ 64)
    (hstate : (machine.run s past).state = .header)
    (hdelay : (machine.run s past).delayVal = BitVec.ofNat 64 due)
    (htimer : (machine.run s past).timerTicks = BitVec.ofNat 64 past.length)
    (hfifo : ∀ v, (machine.run s past).fifo.step false v false = (machine.run s past).fifo)
    {k : Nat} (hk : past.length + k ≤ due) :
    machine.run s (past ++ List.replicate k quiet) =
        { machine.run s past with timerTicks := BitVec.ofNat 64 (past.length + k) } ∧
      departures s (past ++ List.replicate k quiet) = departures s past ∧
      machine.collect accepted s (past ++ List.replicate k quiet) =
        machine.collect accepted s past := by
  induction k with
  | zero => simp [← htimer]
  | succ k ih =>
    obtain ⟨hr, hd, ha⟩ := ih (by omega)
    have hlist : past ++ List.replicate (k + 1) quiet =
        past ++ List.replicate k quiet ++ [quiet] := by
      rw [List.replicate_succ', List.append_assoc]
    have hule : (BitVec.ofNat 64 due).ule (BitVec.ofNat 64 (past.length + k)) = false := by
      rw [BitVec.ule, decide_eq_false_iff_not, BitVec.toNat_ofNat, BitVec.toNat_ofNat,
        Nat.mod_eq_of_lt hdue, Nat.mod_eq_of_lt (by omega)]
      omega
    have htick : BitVec.ofNat 64 (past.length + k) + 1 =
        BitVec.ofNat 64 (past.length + (k + 1)) := by
      rw [← Nat.add_assoc, BitVec.ofNat_add _ 1]
      rfl
    rw [departures] at hd ⊢
    rw [hlist, Machine.run_concat, Machine.schedule_concat, Machine.collect_concat, hr, hd, ha]
    generalize machine.run s past = t at *
    refine ⟨?_, ?_, ?_⟩
    · simp [machine, step, comb, quiet, hstate, hdelay, hule, hfifo]
      exact htick
    · simp [handed, comb, quiet, hstate, hdelay, hule]
    · simp [accepted, quiet]

/-- The first word of a one-word packet with the stamp of a trace's first packet. -/
def firstWord : Word := ⟨1, 0xffffffffffffffff, 0x0ee6b28000020000, true⟩

/-- That word and another one, back to back, and the cycles in which they are passed on. -/
def pairStart (v : Word) : List Input :=
  [{ quiet with tvalid := true, word := firstWord }, { quiet with tvalid := true, word := v },
    quiet, quiet]

/-- A run up to the cycle in which the second word is due, 250000000 ticks after the
first. -/
def pairRun (v : Word) : List Input :=
  pairStart v ++ List.replicate 249999999 quiet ++ [quiet]

/-- The only word of a second packet, 5 and 300000000 ticks after the first. -/
def soonWord : Word := ⟨2, 0xffffffffffffffff, 0x0000000500020000, true⟩

def lateWord : Word := ⟨2, 0xffffffffffffffff, 0x11e1a30000020000, true⟩

theorem pairStart_run : ∀ v ∈ [soonWord, lateWord],
    let t := machine.run (default : Ipd).reset (pairStart v)
    (t.state = .header ∧ t.delayVal = BitVec.ofNat 64 250000003 ∧
        t.timerTicks = BitVec.ofNat 64 4) ∧
      (t.fifo.doutValid = true ∧ t.fifo.middleValid = false ∧ t.fifo.fifoValid = false ∧
        t.fifo.fifo.empty = true ∧ t.fifo.dout = v) ∧
      departures (default : Ipd).reset (pairStart v) = [(3, firstWord)] ∧
      machine.collect accepted (default : Ipd).reset (pairStart v) = [firstWord, v] := by
  decide +kernel

/-- The second word leaves when the stamp of the first has passed. -/
theorem pairRun_departures {v : Word} (hv : v ∈ [soonWord, lateWord]) :
    departures (default : Ipd).reset (pairRun v) = [(3, firstWord), (250000003, v)] ∧
      machine.collect accepted (default : Ipd).reset (pairRun v) = [firstWord, v] := by
  obtain ⟨⟨hstate, hdelay, htimer⟩, ⟨hdv, hm, hf, he, hdout⟩, hstart, htaken⟩ := pairStart_run v hv
  have hfour : (pairStart v).length = 4 := rfl
  obtain ⟨hr, hd, ha⟩ := waiting_run (default : Ipd).reset (pairStart v) 250000003 (by omega)
    hstate hdelay htimer (FallthroughFifo.step_settled hdv hm hf he) (k := 249999999) (by omega)
  have hlen : (pairStart v ++ List.replicate 249999999 quiet).length = 250000003 := by
    rw [List.length_append, List.length_replicate, hfour]
  rw [departures] at hd ⊢
  rw [pairRun, Machine.schedule_concat, Machine.collect_concat, hr, hd, ha, hlen, hstart, htaken]
  generalize machine.run (default : Ipd).reset (pairStart v) = t at *
  refine ⟨?_, ?_⟩
  · simp [handed, comb, quiet, hstate, hdelay, FallthroughFifo.empty, hdv, hdout, hfour]
  · simp [accepted, quiet]

theorem stamping_pairRun (v : Word) : ∀ i ∈ pairRun v, Stamping i := by
  intro i hi
  simp only [pairRun, pairStart, List.mem_append, List.mem_cons, List.not_mem_nil, or_false,
    List.mem_replicate] at hi
  rcases hi with ((rfl | rfl | rfl | rfl) | ⟨_, rfl⟩) | rfl <;> exact ⟨rfl, rfl, rfl⟩

/-- A trace of two packets 5 ticks apart keeps its gap. -/
theorem stamped_gaps_kept_pair :
    let packets : List (List Word) := [[⟨1, 0xffffffffffffffff, 0x20000, true⟩],
      [⟨2, 0xffffffffffffffff, 0x20000, true⟩]]
    let departed := departures (default : Ipd).reset (pairRun soonWord)
    headTime (stamped [0, 5] packets) departed 0 = some 3 ∧
      headTime (stamped [0, 5] packets) departed 1 = some 250000003 ∧
      GapsKept (stamped [0, 5] packets) departed := by
  intro packets departed
  obtain ⟨hd, ha⟩ := pairRun_departures (v := soonWord) (by simp)
  have hfour : (pairStart soonWord).length = 4 := rfl
  have hlen : (pairRun soonWord).length = 250000004 := by
    rw [pairRun, List.length_append, List.length_append, List.length_replicate, hfour,
      List.length_singleton]
  refine ⟨?_, ?_, stamped_gaps_kept fourBeats_framed default 0x20000 [0, 5] packets
    (pairRun soonWord) ?_ (by decide) (stamping_pairRun soonWord) ?_ ?_ (by decide)⟩
  · rw [headTime, show departed = _ from hd]
    rfl
  · rw [headTime, show departed = _ from hd]
    rfl
  · intro pk hpk
    simp only [packets, List.mem_cons, List.not_mem_nil, or_false] at hpk
    rcases hpk with rfl | rfl <;> exact ⟨0, rfl⟩
  · rw [ha]
    decide +kernel
  · rw [hlen]
    decide

/-- Two packets 300000000 ticks apart: the second leaves 250000000 ticks after the
first, because it is the first packet's stamp that holds it back. -/
theorem gap_not_kept :
    let packets : List (List Word) := [[⟨1, 0xffffffffffffffff, 0x20000, true⟩],
      [⟨2, 0xffffffffffffffff, 0x20000, true⟩]]
    let pkts := stamped [0, 300000000] packets
    let departed := departures (default : Ipd).reset (pairRun lateWord)
    (∀ i ∈ pairRun lateWord, Stamping i) ∧
      machine.collect accepted (default : Ipd).reset (pairRun lateWord) =
        fourLanes.merge (Conv.parse ((hostStream 0x20000 pkts).flatMap fourLanes.split)) ∧
      headTime pkts departed 0 = some 3 ∧ headTime pkts departed 1 = some 250000003 ∧
      ¬ GapsKept pkts departed := by
  intro packets pkts departed
  obtain ⟨hd, ha⟩ := pairRun_departures (v := lateWord) (by simp)
  have h0 : headTime pkts departed 0 = some 3 := by
    rw [headTime, show departed = _ from hd]
    rfl
  have h1 : headTime pkts departed 1 = some 250000003 := by
    rw [headTime, show departed = _ from hd]
    rfl
  refine ⟨stamping_pairRun lateWord, ?_, h0, h1, ?_⟩
  · rw [ha]
    decide +kernel
  · intro hk
    have hle := hk 0 (300000000, [⟨2, 0xffffffffffffffff, 0x20000, true⟩]) 3 250000003 rfl h0 h1
    revert hle
    decide

end Ipd
end InterPacketDelay
end Osnt
