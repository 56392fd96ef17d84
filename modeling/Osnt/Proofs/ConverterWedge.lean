import Osnt.Proofs.AxisConverter

/-! Packets that fill the input FIFO of the converter. With equal widths the first word of a
packet leaves only with the packet's record, which is written behind its last word: a packet
that does not fit below the threshold of the FIFO is never complete and never leaves. -/
namespace Osnt.AxisConverter.Converter
open Lib Lib.DelayQueue
variable {n : Nat} (p : Params)

/-- The input is refused and nothing is offered to a ready receiver, with words in the FIFO. -/
def Blocked (t : Converter (same n)) : Prop :=
  t.sTready = false ∧ (∀ i : Input n, i.tready = true → (t.drive p i).tvalid = false) ∧
    t.inFifo ≠ []

/-- Blocked for as long as the receiver stays ready, whatever the source does. -/
def Wedged (t : Converter (same n)) : Prop :=
  ∀ later : List (Input n), (∀ i ∈ later, i.tready = true) → Blocked p ((machine p).run t later)

/-- The source presents the words of the packets one after the other, with any gaps. -/
def Offers (pkts : List (List (Beat n))) (ins : List (Input n)) : Prop :=
  ∀ past i, past ++ [i] <+: ins → i.tvalid = true →
    taken (same n) p past ++ [i.word] <+: pkts.flatten

theorem Offers.init {pkts : List (List (Beat n))} {ins : List (Input n)} {i : Input n}
    (h : Offers p pkts (ins ++ [i])) : Offers p pkts ins :=
  fun past j hpre => h past j (hpre.trans (List.prefix_append _ _))

theorem Offers.concat {pkts : List (List (Beat n))} {ins : List (Input n)} {i : Input n}
    (h : Offers p pkts ins)
    (hi : i.tvalid = true → taken (same n) p ins ++ [i.word] <+: pkts.flatten) :
    Offers p pkts (ins ++ [i]) := by
  intro past j hpre hv
  rcases List.prefix_concat_iff.mp hpre with he | hpre
  · obtain ⟨rfl, hj⟩ := List.append_inj' he rfl
    obtain rfl := List.singleton_inj.mp hj
    exact hi hv
  · exact h past j hpre hv

theorem Offers.quiet {pkts : List (List (Beat n))} {ins : List (Input n)} (h : Offers p pkts ins)
    (k : Nat) : Offers p pkts (ins ++ List.replicate k quiet) := by
  induction k with
  | zero => simpa using h
  | succ k ih =>
    rw [List.replicate_succ', ← List.append_assoc]
    exact ih.concat p (fun hv => by cases hv)

theorem taken_concat (ins : List (Input n)) (i : Input n) :
    taken (same n) p (ins ++ [i]) =
      taken (same n) p ins ++ (after (same n) p ins).accepted i := by
  rw [taken, Machine.collect_concat]
  rfl

/-- What has been taken is a beginning of what the source presents. -/
theorem Offers.taken {pkts : List (List (Beat n))} {ins : List (Input n)}
    (h : Offers p pkts ins) : taken (same n) p ins <+: pkts.flatten := by
  induction ins using List.reverseRecOn with
  | nil => exact List.nil_prefix
  | append_singleton ins i ih =>
    rw [taken_concat, accepted]
    cases hv : i.tvalid && (after (same n) p ins).sTready with
    | false => simpa using ih (h.init p)
    | true =>
      rw [if_pos rfl]
      exact h ins i (List.prefix_refl _) (Bool.and_eq_true_iff.mp hv).1

theorem Offers.wf {pkts : List (List (Beat n))} (hwf : ∀ pkt ∈ pkts, ∀ w ∈ pkt, w.Wf)
    {ins : List (Input n)} (h : Offers p pkts ins) :
    ∀ i ∈ ins, i.tvalid = true → i.word.Wf := by
  intro i hi hv
  obtain ⟨past, later, rfl⟩ := List.append_of_mem hi
  have hpre := h past i ⟨later, by simp⟩ hv
  have hm : i.word ∈ pkts.flatten := hpre.subset (by simp)
  obtain ⟨pkt, hp, hw⟩ := List.mem_flatten.mp hm
  exact hwf pkt hp i.word hw

theorem mature_one (ins : List (Input n)) :
    (after (same n) p ins).inFifo.Mature 1 ∧ (after (same n) p ins).infoFifo.Mature 1 := by
  have htick : ∀ {α : Type} (q : DelayQueue α) (rd : Bool) (wr : Option α),
      (q.tick rd wr).Mature 1 := by
    intro α q rd wr e he
    rcases List.mem_append.mp he with he | he
    · obtain ⟨x, _, rfl⟩ := List.mem_map.mp he
      exact Nat.le_add_left 1 _
    · obtain ⟨v, _, rfl⟩ := List.mem_map.mp he
      exact Nat.le_refl 1
  induction ins using List.reverseRecOn with
  | nil => exact ⟨by simp [after, reset, Mature], by simp [after, reset, Mature]⟩
  | append_singleton ins i _ =>
    rw [after, Machine.run_concat]
    exact ⟨htick _ _ _, htick _ _ _⟩

section State
variable {acc : List (Beat n)} {out : List (Beat n)} {pops : List (BitVec 128)}
  {t : Converter (same n)}

/-- In a blocked state whose entries all show, no packet in the FIFO is complete. -/
theorem stamps_of_blocked (h : Reached p (sameSpec n) acc out pops t) (hb : Blocked p t)
    (hin : t.inFifo.Mature p.lat) (hinfo : t.infoFifo.Mature p.lat) : stamps t.inFifo = [] := by
  by_contra hne
  obtain ⟨hsr, hv, hq⟩ := hb
  obtain ⟨w, a, q, hq, hfront⟩ := hin.front hq
  have hrecord : t.regs.firstTime = true → (t.infoFifo.front p.lat).isNone = false := by
    intro hf
    have hfirst : (sameSpec n).first t.regs = true := hf
    have hpair : stamps t.inFifo = ages t.infoFifo := by simpa [Paired, hfirst] using h.paired
    have hne' : t.infoFifo ≠ [] := by
      intro he
      rw [hpair, he] at hne
      exact hne rfl
    obtain ⟨v, _, _, _, hv⟩ := hinfo.front hne'
    rw [hv]
    rfl
  have hd : t.drive p quiet = (same n).comb t.regs w (t.infoFifo.front p.lat).isNone true := by
    rw [drive, hfront]
    rfl
  have hv := hv quiet rfl
  rw [hd] at hv
  rcases same_cases t.regs w (t.infoFifo.front p.lat).isNone true with hw | ⟨_, _, hc⟩
  · exact hw.not_ready hrecord
  · rw [hc] at hv
    cases hv

/-- Without the end of a packet in the FIFO, the next word begins one and its record is not
there. -/
theorem first_of_stamps (h : Reached p (sameSpec n) acc out pops t)
    (hs : stamps t.inFifo = []) : t.regs.firstTime = true ∧ t.infoFifo = [] := by
  have hp := h.paired
  rw [hs, Paired] at hp
  split at hp
  · rename_i hf
    exact ⟨hf, List.map_eq_nil_iff.mp hp.symm⟩
  · obtain ⟨a, ha⟩ := hp
    cases ha

/-- Without the end of a packet in the FIFO, all its words are of the open packet. -/
theorem length_le_of_stamps (h : Reached p (sameSpec n) acc out pops t)
    (hs : stamps t.inFifo = []) : t.inFifo.length ≤ (frames Beat.tlast acc).rest.length := by
  obtain ⟨before, hb⟩ := h.suffix
  have hinner : ∀ v ∈ t.inFifo.vals, v.tlast = false := by
    intro v hv
    obtain ⟨e, he, rfl⟩ := List.mem_map.mp hv
    have hf := List.filter_eq_nil_iff.mp (List.map_eq_nil_iff.mp hs) e he
    simpa using hf
  have hle := length_le_rest Beat.tlast before t.inFifo.vals hinner
  rwa [← hb, length_vals] at hle

/-- A blocked state whose entries all show holds as many words of the open packet as the
threshold lets in. -/
theorem rest_of_blocked (h : Reached p (sameSpec n) acc out pops t) (hb : Blocked p t)
    (hin : t.inFifo.Mature p.lat) (hinfo : t.infoFifo.Mature p.lat) :
    inFifoDepth n - 5 ≤ (frames Beat.tlast acc).rest.length := by
  have hs := stamps_of_blocked p h hb hin hinfo
  have hlen := length_le_of_stamps p h hs
  have hsr := hb.1
  simp only [sTready, (first_of_stamps p h hs).2, infoFifoDepth, List.length_nil] at hsr
  simp at hsr
  omega

theorem drive_waits {t : Converter (same n)} (hf : t.regs.firstTime = true)
    (hinfo : t.infoFifo = []) (i : Input n) :
    (t.drive p i).inFifoRdEn = false ∧ (t.drive p i).infoFifoRdEn = false ∧
      (t.drive p i).tvalid = false ∧ (t.drive p i).next = t.regs := by
  rw [drive, hinfo]
  cases t.inFifo.front p.lat with
  | none => simp
  | some w => simp [same, hf, front]

/-- With its first word at the head, no record and no room, the converter stays as it is. -/
theorem wedged_of_full {t : Converter (same n)} (hsr : t.sTready = false)
    (hf : t.regs.firstTime = true) (hinfo : t.infoFifo = []) (hq : t.inFifo ≠ []) :
    Wedged p t := by
  intro later hlater
  induction later generalizing t with
  | nil =>
    exact ⟨hsr, fun i _ => (drive_waits p hf hinfo i).2.2.1, hq⟩
  | cons i later ih =>
    have hwr : t.wrEn i = false := by simp [wrEn, hsr]
    obtain ⟨hrd, hird, _, hnext⟩ := drive_waits p hf hinfo i
    have hin : (t.step p i).inFifo = t.inFifo.map (fun e => (e.1, e.2 + 1)) := by
      simp [step, hwr, hrd, tick]
    have hrec : (t.step p i).infoFifo = [] := by
      simp [step, hird, hinfo, infoFifoWrEn, hwr, tick]
    have hsr' : (t.step p i).sTready = false := by
      simpa [sTready, hin, hrec, hinfo] using hsr
    have hf' : (t.step p i).regs.firstTime = true := by
      rw [regs_step, hnext]
      exact hf
    have hq' : (t.step p i).inFifo ≠ [] := by simpa [hin] using hq
    exact ih hsr' hf' hrec hq' (fun j hj => hlater j (by simp [hj]))

/-- A FIFO that holds as many words as the open packet has holds just these. -/
theorem stamps_of_open (h : Reached p (sameSpec n) acc out pops t)
    (hlen : t.inFifo.length = (frames Beat.tlast acc).rest.length) : stamps t.inFifo = [] := by
  obtain ⟨before, hb⟩ := h.suffix
  have hspec := frames_spec Beat.tlast acc
  have hvals : t.inFifo.vals = (frames Beat.tlast acc).rest := by
    have he := hspec.1.trans hb
    exact (List.append_inj' he (by rw [length_vals, hlen])).2.symm
  rw [stamps, ages, List.map_eq_nil_iff, List.filter_eq_nil_iff]
  intro e he
  have hm : e.1 ∈ t.inFifo.vals := List.mem_map.mpr ⟨e, he, rfl⟩
  simp [hspec.2 e.1 (hvals ▸ hm)]

theorem rest_in_fifo (h : Reached p (sameSpec n) acc out pops t)
    (hle : (frames Beat.tlast acc).rest.length ≤ t.inFifo.length) (i : Input n) :
    (frames Beat.tlast (acc ++ t.accepted i)).rest.length ≤ (t.step p i).inFifo.length := by
  have hnew : (frames Beat.tlast (acc ++ t.accepted i)).rest.length ≤
      (frames Beat.tlast acc).rest.length + (t.accepted i).length := by
    rw [frames_append, accepted_eq]
    cases t.wrEn i with
    | false => simp
    | true =>
      simp only [if_true, Option.toList_some, List.foldl_cons, List.foldl_nil,
        List.length_singleton, Frames.push]
      split <;> simp
  have hlen : (t.step p i).inFifo.length =
      (if (t.drive p i).inFifoRdEn then t.inFifo.tail else t.inFifo).length +
        (t.accepted i).length := by
    rw [accepted_eq]
    exact length_tick _ _ _
  cases hrd : (t.drive p i).inFifoRdEn with
  | false =>
    rw [hlen, hrd, if_neg (by simp)]
    omega
  | true =>
    rw [hlen, hrd, if_pos rfl, List.length_tail]
    -- A word is read only behind a complete packet, which is not part of the open one.
    rcases Nat.lt_or_ge (frames Beat.tlast acc).rest.length t.inFifo.length with hlt | hge
    · omega
    · obtain ⟨hf, hinfo⟩ := first_of_stamps p h (stamps_of_open p h (Nat.le_antisymm hge hle))
      rw [(drive_waits p hf hinfo i).1] at hrd
      cases hrd

end State

theorem rest_le_run {ins : List (Input n)} (h : ∀ i ∈ ins, i.tvalid = true → i.word.Wf) :
    (frames Beat.tlast (taken (same n) p ins)).rest.length ≤
      (after (same n) p ins).inFifo.length := by
  refine ((machine p).run_keeps ((machine p).along_of_forall h)
    (fun past t => (∃ out pops, Reached p (sameSpec n) (taken (same n) p past) out pops t) ∧
      (frames Beat.tlast (taken (same n) p past)).rest.length ≤ t.inFifo.length)
    ⟨⟨[], [], reached_reset p (sameSpec n)⟩, Nat.zero_le _⟩ ?_).2
  rintro past i ⟨⟨out, pops, hr⟩, hle⟩ hi
  rw [taken_concat]
  exact ⟨⟨_, _, reached_step p hr hi⟩, rest_in_fifo p hr hle i⟩

/-- Where packets fit below a bound, the open one is shorter. -/
theorem rest_lt_of_fits {d : Nat} (hd : 0 < d) {pkts : List (List (Beat n))}
    (hp : ∀ pkt ∈ pkts, Packet Beat.tlast pkt) (hfit : ∀ pkt ∈ pkts, pkt.length ≤ d)
    {acc : List (Beat n)} (h : acc <+: pkts.flatten) :
    (frames Beat.tlast acc).rest.length < d := by
  obtain ⟨later, he⟩ := h
  have hall := frames_packets Beat.tlast hp
  cases later with
  | nil =>
    rw [List.append_nil] at he
    rw [he, hall]
    exact hd
  | cons v later =>
    have hw : (frames Beat.tlast (acc ++ [v])).Within d := by
      refine within_of_append Beat.tlast later ?_
      rw [List.append_assoc, List.singleton_append, he, hall]
      exact ⟨hfit, Nat.zero_le _⟩
    rw [frames_concat] at hw
    exact (Frames.Within.of_push Beat.tlast hw).2

/-- A run that presents packets which fit below the threshold is not wedged. -/
theorem not_wedged_of_fits (hd : 0 < inFifoDepth n - 5) {pkts : List (List (Beat n))}
    (hp : ∀ pkt ∈ pkts, Packet Beat.tlast pkt) (hwf : ∀ pkt ∈ pkts, ∀ w ∈ pkt, w.Wf)
    (hfit : ∀ pkt ∈ pkts, pkt.length ≤ inFifoDepth n - 5) {ins : List (Input n)}
    (h : Offers p pkts ins) :
    ¬ Wedged p (after (same n) p ins) ∧ (p.lat ≤ 1 → ¬ Blocked p (after (same n) p ins)) := by
  have hlt := rest_lt_of_fits hd hp hfit h.taken
  refine ⟨fun hw => ?_, fun hlat hb => ?_⟩
  · -- After `lat` quiet cycles every entry shows, and nothing more has been taken.
    obtain ⟨htaken, hin, hinfo⟩ := quiet_run p (same n) ins p.lat
    have hb := hw (List.replicate p.lat quiet) (by simp [quiet])
    rw [after, ← Machine.run_append] at hb
    have hr := reached_run p (sameSpec n) (quiet_wf (h.wf p hwf) p.lat)
    rw [htaken] at hr
    have := rest_of_blocked p hr hb hin hinfo
    omega
  · obtain ⟨hin, hinfo⟩ := mature_one p ins
    have hr := reached_run p (sameSpec n) (h.wf p hwf)
    have := rest_of_blocked p hr hb (fun e he => hlat.trans (hin e he))
      (fun e he => hlat.trans (hinfo e he))
    omega

/-- A cycle that presents a word to the converter, with the receiver ready. -/
def offer (w : Beat n) : Input n := ⟨true, w, true, 0, false, 0⟩

/-- Words can be brought in one after the other as long as the open packet is below the
threshold. -/
theorem feed {pkts : List (List (Beat n))} (hwf : ∀ pkt ∈ pkts, ∀ w ∈ pkt, w.Wf)
    {ws : List (Beat n)} (hpre : ws <+: pkts.flatten)
    (hfit : (frames Beat.tlast ws).Within (inFifoDepth n - 5)) :
    ∃ ins, Offers p pkts ins ∧ taken (same n) p ins = ws := by
  induction ws using List.reverseRecOn with
  | nil => exact ⟨[], fun past i hpre => by simp at hpre, rfl⟩
  | append_singleton ws w ih =>
    rw [frames_concat] at hfit
    obtain ⟨hws, hlt⟩ := Frames.Within.of_push Beat.tlast hfit
    obtain ⟨ins, hoff, htaken⟩ := ih ((List.prefix_append _ _).trans hpre) hws
    obtain ⟨k, hk⟩ := reaches p (sameSpec n) (hoff.wf p hwf) (fun t => t.sTready = true)
      (fun t ht => by
        by_cases hin : inFifoDepth n - 5 ≤ t.inFifo.length
        · rw [htaken]
          left
          omega
        · right
          intro he
          simp [sTready, hin, he, infoFifoDepth] at ht)
    have hsame : taken (same n) p (ins ++ List.replicate k quiet) = ws :=
      (quiet_run p (same n) ins k).1.trans htaken
    refine ⟨ins ++ List.replicate k quiet ++ [offer w], (hoff.quiet p k).concat p ?_, ?_⟩
    · rw [hsame]
      exact fun _ => hpre
    · rw [taken_concat, hsame, accepted, hk]
      rfl

/-- A packet longer than the threshold wedges the converter. -/
theorem wedges_of_long {pkts : List (List (Beat n))} (hd : 0 < inFifoDepth n - 5)
    (hp : ∀ pkt ∈ pkts, Packet Beat.tlast pkt) (hwf : ∀ pkt ∈ pkts, ∀ w ∈ pkt, w.Wf)
    (hlong : ∃ pkt ∈ pkts, inFifoDepth n - 5 < pkt.length) :
    ∃ ins, Offers p pkts ins ∧ Wedged p (after (same n) p ins) := by
  generalize hdd : inFifoDepth n - 5 = d at hd hlong
  -- The packets in front of the first one that is too long, and as much of it as is let in.
  obtain ⟨ws, hpre, hwithin, hopen⟩ := exists_open_rest Beat.tlast hp hlong
  obtain ⟨ins, hoff, htaken⟩ := feed p hwf hpre (hdd ▸ hwithin)
  have hrest : (frames Beat.tlast (taken (same n) p ins)).rest.length = d := by
    rw [htaken]
    exact hopen
  obtain ⟨k, hk⟩ := reaches p (sameSpec n) (hoff.wf p hwf)
    (fun t => t.inFifo.length ≤ d ∧ t.infoFifo = []) (fun t ht => by
      rw [hrest]
      by_cases hin : t.inFifo.length ≤ d
      · exact .inr (fun he => ht ⟨hin, he⟩)
      · exact .inl (by omega))
  refine ⟨ins ++ List.replicate k quiet, hoff.quiet p k, ?_⟩
  have hwf' := quiet_wf (hoff.wf p hwf) k
  have hr := reached_run p (sameSpec n) hwf'
  have hle := rest_le_run p hwf'
  rw [(quiet_run p (same n) ins k).1] at hr hle
  have hlen : (after (same n) p (ins ++ List.replicate k quiet)).inFifo.length =
      (frames Beat.tlast (taken (same n) p ins)).rest.length :=
    Nat.le_antisymm (hrest ▸ hk.1) hle
  obtain ⟨hf, hinfo⟩ := first_of_stamps p hr (stamps_of_open p hr hlen)
  refine wedged_of_full p ?_ hf hinfo ?_
  · simp only [sTready, hlen, hrest, hdd]
    simp
  · intro hnil
    rw [hnil, hrest, List.length_nil] at hlen
    omega

/-- At 512 bits the converter is never wedged, and with FIFOs that show a word in the next
cycle never even blocked, exactly if no packet has more than 59 words. -/
theorem never_wedges_iff {pkts : List (List (Beat 64))}
    (hp : ∀ pkt ∈ pkts, Packet Beat.tlast pkt) (hwf : ∀ pkt ∈ pkts, ∀ w ∈ pkt, w.Wf) :
    ((∀ ins, Offers p pkts ins → ¬ Wedged p (after (same 64) p ins)) ↔
        ∀ pkt ∈ pkts, pkt.length ≤ 59) ∧
      (p.lat ≤ 1 → ((∀ ins, Offers p pkts ins → ¬ Blocked p (after (same 64) p ins)) ↔
        ∀ pkt ∈ pkts, pkt.length ≤ 59)) := by
  have hdepth : inFifoDepth 64 - 5 = 59 := by decide
  have hpos : 0 < inFifoDepth 64 - 5 := by decide
  have hlong : ¬ (∀ pkt ∈ pkts, pkt.length ≤ 59) →
      ∃ ins, Offers p pkts ins ∧ Wedged p (after (same 64) p ins) := by
    intro hn
    simp only [not_forall, Nat.not_le, exists_prop] at hn
    exact wedges_of_long p hpos hp hwf (hdepth ▸ hn)
  refine ⟨⟨fun h => ?_, fun h ins hoff => ?_⟩, fun hlat => ⟨fun h => ?_, fun h ins hoff => ?_⟩⟩
  · by_contra hn
    obtain ⟨ins, hoff, hw⟩ := hlong hn
    exact h ins hoff hw
  · exact (not_wedged_of_fits p hpos hp hwf (hdepth ▸ h) hoff).1
  · by_contra hn
    obtain ⟨ins, hoff, hw⟩ := hlong hn
    exact h ins hoff (hw [] (by simp))
  · exact (not_wedged_of_fits p hpos hp hwf (hdepth ▸ h) hoff).2 hlat

/-- A word with every lane kept. -/
def fullWord (last : Bool) : Beat 64 := ⟨Vector.replicate 64 ⟨1, true⟩, 0, last⟩

theorem fullWord_wf (last : Bool) : (fullWord last).Wf := by
  have hall : ∀ l ∈ (fullWord last).lanes.toList, l.keep = true := by
    intro l hl
    rw [fullWord, Vector.toList_replicate, List.mem_replicate] at hl
    rw [hl.2]
  cases last with
  | false => exact hall
  | true =>
    refine ⟨⟨64, fun j hj => ⟨fun _ => ?_, fun _ => hall _ (List.getElem_mem hj)⟩⟩, ?_⟩
    · simpa using hj
    · decide +kernel

theorem packet_fullWords (k : Nat) :
    Packet Beat.tlast (List.replicate k (fullWord false) ++ [fullWord true]) := by
  refine ⟨_, _, rfl, ?_, rfl⟩
  intro v hv
  rw [(List.mem_replicate.mp hv).2]
  rfl

/-- A packet of 59 words and one of two behind it do not block the converter. -/
theorem never_wedges_long :
    let pkts := [List.replicate 58 (fullWord false) ++ [fullWord true],
      List.replicate 1 (fullWord false) ++ [fullWord true]]
    (∀ pkt ∈ pkts, Packet Beat.tlast pkt) ∧
      ∀ ins, Offers ⟨true, 0, 1⟩ pkts ins →
        ¬ Blocked ⟨true, 0, 1⟩ (after (same 64) ⟨true, 0, 1⟩ ins) := by
  intro pkts
  have hmem : ∀ pkt ∈ pkts, ∃ k, k < 59 ∧
      pkt = List.replicate k (fullWord false) ++ [fullWord true] := by
    intro pkt hpkt
    rcases List.mem_cons.mp hpkt with rfl | hpkt
    · exact ⟨58, by decide, rfl⟩
    · exact ⟨1, by decide, List.mem_singleton.mp hpkt⟩
  have hp : ∀ pkt ∈ pkts, Packet Beat.tlast pkt := by
    intro pkt hpkt
    obtain ⟨k, -, rfl⟩ := hmem pkt hpkt
    exact packet_fullWords k
  have hwf : ∀ pkt ∈ pkts, ∀ w ∈ pkt, w.Wf := by
    intro pkt hpkt w hw
    obtain ⟨k, -, rfl⟩ := hmem pkt hpkt
    rcases List.mem_append.mp hw with hw | hw
    · rw [(List.mem_replicate.mp hw).2]
      exact fullWord_wf false
    · rw [List.mem_singleton.mp hw]
      exact fullWord_wf true
  refine ⟨hp, ((never_wedges_iff ⟨true, 0, 1⟩ hp hwf).2 (Nat.le_refl 1)).mpr fun pkt hpkt => ?_⟩
  obtain ⟨k, hk, rfl⟩ := hmem pkt hpkt
  rw [List.length_append, List.length_replicate, List.length_singleton]
  omega

/-- A packet of 60 full words, 3840 bytes: the 59th word is the last one let in. -/
theorem long_packet_wedges :
    let p : Params := ⟨true, 0, 1⟩
    let pkt := List.replicate 59 (fullWord false) ++ [fullWord true]
    let ins := List.replicate 59 (offer (fullWord false))
    Packet Beat.tlast pkt ∧ packetLength pkt = 3840 ∧ Offers p [pkt] ins ∧
      Wedged p (after (same 64) p ins) := by
  intro p pkt ins
  refine ⟨packet_fullWords 59, by decide +kernel, forall_snoc (by decide +kernel), ?_⟩
  exact wedged_of_full p (by decide +kernel) (by decide +kernel) (by decide +kernel)
    (by decide +kernel)

end Osnt.AxisConverter.Converter
