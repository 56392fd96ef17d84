import Osnt.PacketCutter
import Osnt.Proofs.Fifo

namespace Osnt.PacketCutter
open Lib

section Bytes
/- Cutting words after a number of bytes. -/

theorem strobed_leading : ∀ k ≤ 32,
    (List.range 32).filter (fun j => (leading k).getLsbD (31 - j)) = List.range k := by
  decide +kernel

theorem Beat.bytes_of_leading {w : Beat} {k : Nat} (hk : k ≤ 32) (h : w.tstrb = leading k) :
    w.bytes = (List.range k).map fun j => w.tdata.extractLsb' (248 - 8 * j) 8 := by
  rw [Beat.bytes, h, strobed_leading k hk]

theorem Beat.length_bytes {w : Beat} {k : Nat} (hk : k ≤ 32) (h : w.tstrb = leading k) :
    w.bytes.length = k := by
  simp [Beat.bytes_of_leading hk h]

theorem Beat.bytes_take {w v : Beat} {r k : Nat} (hr : r ≤ k) (hk : k ≤ 32)
    (hd : v.tdata = w.tdata) (hv : v.tstrb = leading r) (hw : w.tstrb = leading k) :
    v.bytes = w.bytes.take r := by
  rw [Beat.bytes_of_leading (hr.trans hk) hv, Beat.bytes_of_leading hk hw, ← List.map_take,
    List.take_range, Nat.min_eq_left hr, hd]

@[simp] theorem bytes_append (ws vs : List Beat) : bytes (ws ++ vs) = bytes ws ++ bytes vs := by
  simp [bytes]

@[simp] theorem bytes_cons (w : Beat) (ws : List Beat) : bytes (w :: ws) = w.bytes ++ bytes ws :=
  rfl

theorem length_bytes_full {ws : List Beat} (h : ∀ v ∈ ws, v.tstrb = leading 32) :
    (bytes ws).length = 32 * ws.length := by
  induction ws with
  | nil => rfl
  | cons w ws ih =>
    rw [bytes_cons, List.length_append, Beat.length_bytes (Nat.le_refl _) (h w (by simp)),
      ih (fun v hv => h v (by simp [hv])), List.length_cons]
    omega

@[simp] theorem Beat.len_setLen (w : Beat) (n : BitVec 16) : (w.setLen n).len = n :=
  BitVec.extractLsb'_append_eq_right

@[simp] theorem Beat.setLen_len (w : Beat) : w.setLen w.len = w := by
  have huser : w.tuser.extractLsb' 16 112 ++ w.len = w.tuser :=
    BitVec.extractLsb'_append_extractLsb' (w := 112)
  obtain ⟨_, _, _, _⟩ := w
  exact congrArg (Beat.mk _ _ · _) huser

/-- The word in which the cut falls, with what is before and behind it. -/
theorem Sized.split {pkt : List Beat} (h : Sized pkt) {n : Nat} (hn : 0 < n)
    (hlt : n < (bytes pkt).length) :
    ∃ front v back k, pkt = front ++ v :: back ∧ front.length + 1 = wordsOf n ∧
      (∀ x ∈ front, x.tstrb = leading 32) ∧ v.tstrb = leading k ∧ n ≤ 32 * front.length + k ∧
      k ≤ 32 := by
  obtain ⟨ws, w, k, rfl, hfull, hk, hw⟩ := h.strobes
  rw [bytes_append, List.length_append, length_bytes_full hfull, bytes_cons, List.length_append,
    Beat.length_bytes hk hw, bytes, List.flatMap_nil, List.length_nil] at hlt
  have hwords : wordsOf n = (n - 1) / 32 + 1 := by
    rw [wordsOf]
    omega
  rcases Nat.lt_or_ge ((n - 1) / 32) ws.length with hm | hm
  · refine ⟨ws.take ((n - 1) / 32), ws[(n - 1) / 32], ws.drop ((n - 1) / 32 + 1) ++ [w], 32,
      ?_, ?_, fun x hx => hfull x (List.mem_of_mem_take hx), hfull _ (List.getElem_mem hm), ?_,
      Nat.le_refl _⟩
    · have hcut := List.take_append_drop ((n - 1) / 32) ws
      rw [List.drop_eq_getElem_cons hm] at hcut
      conv_lhs => rw [← hcut]
      rw [List.append_assoc, List.cons_append]
    · rw [hwords, List.length_take, Nat.min_eq_left hm.le]
    · rw [List.length_take, Nat.min_eq_left hm.le]
      omega
  · refine ⟨ws, w, [], k, rfl, ?_, hfull, hw, ?_, hk⟩
    · omega
    · omega

theorem wordsOf_le {pkt : List Beat} (h : Sized pkt) {n : Nat} (hn : 0 < n)
    (hlt : n < (bytes pkt).length) : wordsOf n ≤ pkt.length := by
  obtain ⟨front, v, back, _, rfl, hlen, -⟩ := h.split hn hlt
  rw [List.length_append, List.length_cons]
  omega

theorem cut_of_lt {n : Nat} {pkt : List Beat} (h : n < firstLen pkt) :
    cut n pkt = (pkt.take (wordsOf n)).mapIdx (cutWord n) := if_pos h

theorem cut_of_le {n : Nat} {pkt : List Beat} (h : firstLen pkt ≤ n) : cut n pkt = pkt :=
  if_neg (Nat.not_lt.mpr h)

theorem bytes_mapIdx {n : Nat} {ws : List Beat} (h : ws.length < wordsOf n) :
    bytes (ws.mapIdx (cutWord n)) = bytes ws := by
  induction ws using List.reverseRecOn with
  | nil => rfl
  | append_singleton ws w ih =>
    rw [List.length_append, List.length_singleton] at h
    have hne : ¬ ws.length + 1 = wordsOf n := by omega
    rw [List.mapIdx_concat, bytes_append, bytes_append, ih (by omega)]
    simp [bytes, Beat.bytes, cutWord, hne]

theorem lastStrobes_eq {n m r : Nat} (h : n = 32 * m + r) (h1 : 1 ≤ r) (h32 : r ≤ 32) :
    lastStrobes n = leading r := by
  have hr : (if n % 32 = 0 then 32 else n % 32) = r := by
    split <;> omega
  rw [lastStrobes, hr]

/-- A packet cut to `n` bytes is the first `n` bytes of it. -/
theorem Sized.cutTo {pkt : List Beat} (h : Sized pkt) {n : Nat} (hn : 0 < n) (hn16 : n < 2 ^ 16) :
    CutTo n pkt (cut n pkt) := by
  rcases Nat.lt_or_ge n (bytes pkt).length with hlt | hle
  · obtain ⟨front, v, back, k, rfl, hlen, hfull, hv, hle, hk⟩ := h.split hn hlt
    have hcut : cut n (front ++ v :: back) =
        front.mapIdx (cutWord n) ++ [cutWord n front.length v] := by
      have htake : (front ++ v :: back).take (wordsOf n) = front ++ [v] := by
        rw [← hlen, List.take_length_add_append]
        rfl
      rw [cut_of_lt (h.length ▸ hlt), htake, List.mapIdx_concat]
    have hinner : ∀ x ∈ front.mapIdx (cutWord n), x.tstrb = leading 32 ∧ x.tlast = false := by
      intro x hx
      obtain ⟨j, hj, rfl⟩ := List.mem_mapIdx.mp hx
      have hne : ¬ j + 1 = wordsOf n := by omega
      exact ⟨by simp [cutWord, hne, hfull], by simp [cutWord, hne]⟩
    obtain ⟨r, hr⟩ : ∃ r, n = 32 * front.length + r := by
      refine ⟨n - 32 * front.length, ?_⟩
      rw [wordsOf] at hlen
      omega
    have hr1 : 1 ≤ r ∧ r ≤ 32 := by
      rw [wordsOf] at hlen
      omega
    have hlast := lastStrobes_eq hr hr1.1 hr1.2
    rw [hcut]
    refine ⟨⟨_, _, rfl, fun x hx => (hinner x hx).2, by simp [cutWord, hlen]⟩,
      fun hge => absurd hlt (Nat.not_lt.mpr hge), fun _ => ?_, fun _ => ?_, fun _ => ?_⟩
    · have hword : (cutWord n front.length v).bytes = v.bytes.take r := by
        refine Beat.bytes_take (by omega) hk rfl ?_ hv
        simp [cutWord, hlen, hlast]
      have hrest : (v.bytes ++ bytes back).take r = v.bytes.take r := by
        refine List.take_append_of_le_length ?_
        rw [Beat.length_bytes hk hv]
        omega
      rw [bytes_append, bytes_append, bytes_mapIdx (by omega), bytes_cons, bytes_cons, hword, hr,
        ← length_bytes_full hfull, List.take_length_add_append, hrest]
      simp [bytes]
    · exact ⟨_, _, rfl, fun x hx => (hinner x hx).1, by simp [cutWord, hlen]⟩
    · have hfield : ∀ w : Beat, (cutWord n 0 w).len.toNat = n := by
        intro w
        have hlen16 : (cutWord n 0 w).len = BitVec.ofNat 16 n := by
          simp only [cutWord, if_true]
          exact Beat.len_setLen w _
        rw [hlen16, BitVec.toNat_ofNat, Nat.mod_eq_of_lt hn16]
      cases front with
      | nil => exact hfield v
      | cons x front =>
        rw [List.mapIdx_cons]
        exact hfield x
  · rw [cut_of_le (h.length.le.trans hle)]
    exact ⟨h.packet, fun _ => rfl, fun hlt => absurd hlt (Nat.not_lt.mpr hle),
      fun hlt => absurd hlt (Nat.not_lt.mpr hle), fun hlt => absurd hlt (Nat.not_lt.mpr hle)⟩

theorem firstLen_append {ws : List Beat} (h : ws ≠ []) (vs : List Beat) :
    firstLen (ws ++ vs) = firstLen ws := by
  cases ws with
  | nil => exact absurd rfl h
  | cons w ws => rfl

theorem ne_nil_of_firstLen {n : Nat} {ws : List Beat} (h : n < firstLen ws) : ws ≠ [] := by
  rintro rfl
  exact Nat.not_lt_zero _ h

theorem cut_concat_short {n : Nat} {ws : List Beat} (hws : ws ≠ []) (h : firstLen ws ≤ n)
    (w : Beat) : cut n (ws ++ [w]) = cut n ws ++ [w] := by
  rw [cut_of_le h, cut_of_le (by rwa [firstLen_append hws])]

theorem cut_concat_inner {n : Nat} {ws : List Beat} (h : n < firstLen ws)
    (hlen : ws.length < wordsOf n) (w : Beat) :
    cut n (ws ++ [w]) = cut n ws ++ [cutWord n ws.length w] := by
  rw [cut_of_lt h, cut_of_lt (by rwa [firstLen_append (ne_nil_of_firstLen h)]),
    List.take_of_length_le hlen.le,
    List.take_of_length_le (by rw [List.length_append]; exact hlen), List.mapIdx_concat]

theorem cut_concat_late {n : Nat} {ws : List Beat} (h : n < firstLen ws)
    (hlen : wordsOf n ≤ ws.length) (w : Beat) : cut n (ws ++ [w]) = cut n ws := by
  rw [cut_of_lt h, cut_of_lt (by rwa [firstLen_append (ne_nil_of_firstLen h)]),
    List.take_append_of_le_length hlen]

theorem cut_isPrefix (n : Nat) (ws vs : List Beat) : cut n ws <+: cut n (ws ++ vs) := by
  by_cases hws : ws = []
  · rw [hws, cut_of_le (Nat.zero_le n)]
    exact List.nil_prefix
  · induction vs using List.reverseRecOn with
    | nil => rw [List.append_nil]
    | append_singleton vs v ih =>
      have hne : ws ++ vs ≠ [] := by simp [hws]
      rw [← List.append_assoc]
      refine ih.trans ?_
      rcases Nat.lt_or_ge n (firstLen (ws ++ vs)) with hlt | hle
      · rcases Nat.lt_or_ge (ws ++ vs).length (wordsOf n) with hin | hlate
        · exact cut_concat_inner hlt hin v ▸ List.prefix_append _ _
        · exact cut_concat_late hlt hlate v ▸ List.prefix_rfl
      · exact cut_concat_short hne hle v ▸ List.prefix_append _ _

end Bytes

/-- Cycles in which packets are cut to `c` bytes without a hash. -/
structure Cutting (c : Nat) (i : Input) : Prop where
  enabled : i.cutEn = true
  hashEn : i.hashEn = true
  bytes : i.cutBytes = BitVec.ofNat 32 c

namespace Cutting
variable {c : Nat} {i : Input}

theorem lenPktCut (h : Cutting c i) : i.lenPktCut = BitVec.ofNat 16 c := by
  rw [Input.lenPktCut, h.hashEn, if_pos rfl, h.bytes]
  simp

theorem pktCuttable (h : Cutting c i) (hlo : 64 ≤ c) (hhi : c < 2 ^ 16) (len : BitVec 16) :
    i.pktCuttable len = decide (c < len.toNat) := by
  have hc : i.lenPktCut.toNat = c := by
    rw [h.lenPktCut, BitVec.toNat_ofNat, Nat.mod_eq_of_lt hhi]
  simp [Input.pktCuttable, BitVec.ult, hc, hlo]

theorem pktLen (h : Cutting c i) (hlo : 64 ≤ c) (hhi : c < 2 ^ 16) (len : BitVec 16) :
    i.pktLen len = if c < len.toNat then BitVec.ofNat 16 c else len := by
  rw [Input.pktLen, h.enabled, h.pktCuttable hlo hhi, h.lenPktCut]
  simp

theorem low_toNat (h : Cutting c i) (hhi : c < 2 ^ 16) :
    (i.lenPktCut.extractLsb' 0 5).toNat = c % 32 := by
  rw [h.lenPktCut, BitVec.extractLsb'_toNat, BitVec.toNat_ofNat, Nat.mod_eq_of_lt hhi]
  simp

theorem cutLen (h : Cutting c i) (hhi : c < 2 ^ 16) :
    i.cutLen = BitVec.ofNat 32 (wordsOf c) := by
  have hhigh : (i.lenPktCut.extractLsb' 5 11).toNat = c / 32 := by
    rw [h.lenPktCut, BitVec.extractLsb'_toNat, BitVec.toNat_ofNat, Nat.mod_eq_of_lt hhi,
      Nat.shiftRight_eq_div_pow]
    exact Nat.mod_eq_of_lt (by omega)
  have hlow : i.lenPktCut.extractLsb' 0 5 = 0 ↔ c % 32 = 0 := by
    rw [← h.low_toNat hhi, BitVec.toNat_eq]
    rfl
  apply BitVec.eq_of_toNat_eq
  rw [Input.cutLen, BitVec.toNat_add, BitVec.toNat_setWidth, hhigh, BitVec.toNat_ofNat, wordsOf]
  by_cases h0 : c % 32 = 0
  · rw [if_pos (hlow.mpr h0)]
    change (c / 32 % 2 ^ 32 + 0) % 2 ^ 32 = _
    omega
  · rw [if_neg (mt hlow.mp h0)]
    change (c / 32 % 2 ^ 32 + 1) % 2 ^ 32 = _
    omega

/-- The table of strobes, less the two entries that lack a digit. -/
theorem cutStrobes_eq : ∀ k < 32, k ≠ 6 → k ≠ 17 → cutStrobes.getD k 0 = lastStrobes k := by
  decide +kernel

theorem strobes (h : Cutting c i) (hhi : c < 2 ^ 16) (h6 : c % 32 ≠ 6) (h17 : c % 32 ≠ 17) :
    cutStrobes.getD (i.lenPktCut.extractLsb' 0 5).toNat 0 = lastStrobes c := by
  rw [h.low_toNat hhi, cutStrobes_eq _ (Nat.mod_lt _ (by omega)) h6 h17, lastStrobes, lastStrobes,
    Nat.mod_mod]

end Cutting

/-- A cycle that keeps clear of what the state machine gets wrong: no word is taken from the output
port while the FIFO has none, the count of words starts from one, the two wrong strobe patterns are
not used, and the counter of the hash does not run out within a packet. -/
structure Clean (c : Nat) (s : Cutter) (i : Input) : Prop where
  supplied : s.state = .cutPacket → i.tready = true → s.fifo.empty = false
  fresh : s.state = .waitPkt → s.fifo.empty = false → i.tready = true →
    c < s.fifo.dout.len.toNat → s.pktCutCount = 1
  masked : s.state = .cutPacket → i.tready = true → i.cutLen = s.pktCutCount →
    c % 32 ≠ 6 ∧ c % 32 ≠ 17
  within : s.state = .inPacket → s.fifo.empty = false → s.cutCounter = 0 →
    s.fifo.dout.tlast = true

/-- How the registers stand to the words read of the open packet. -/
inductive Stage (c : Nat) (t : Cutter) : List Beat → Prop
  | between (hs : t.state = .waitPkt) : Stage c t []
  | passing {r : List Beat} (hr : r ≠ []) (hle : firstLen r ≤ c) (hs : t.state = .inPacket)
      (hshort : t.pktShort = true) : Stage c t r
  | cutting {r : List Beat} (hlt : c < firstLen r) (hlen : r.length < wordsOf c)
      (hs : t.state = .cutPacket) (hcount : t.pktCutCount = BitVec.ofNat 32 (r.length + 1)) :
      Stage c t r
  | waiting {r : List Beat} (hlt : c < firstLen r) (hlen : wordsOf c ≤ r.length)
      (hs : t.state = .cutPacketWait) : Stage c t r

/-- What one cycle does with the open packet `r`. -/
inductive Advance (c : Nat) (t : Cutter) (i : Input) (r : List Beat) : Prop
  | stays (hp : t.popped i = []) (hh : t.handed i = []) (hs : Stage c (machine.step t i) r)
      (hidle : (t.fifo.doutValid && i.tready) = false)
  | takes (hd : t.fifo.doutValid = true) (hp : t.popped i = [t.fifo.dout])
      (hcut : cut c (r ++ [t.fifo.dout]) = cut c r ++ t.handed i)
      (hdata : ∀ w ∈ t.handed i, w.tdata = t.fifo.dout.tdata)
      (hs : Stage c (machine.step t i) (if t.fifo.dout.tlast then [] else r ++ [t.fifo.dout]))

section Step
variable {c : Nat} {t : Cutter} {i : Input}

theorem Advance.gives {r : List Beat} {w : Beat} (hd : t.fifo.doutValid = true)
    (hp : t.popped i = [t.fifo.dout]) (hhand : t.handed i = [w])
    (hdata : w.tdata = t.fifo.dout.tdata)
    (hcut : cut c (r ++ [t.fifo.dout]) = cut c r ++ [w])
    (hs : Stage c (machine.step t i) (if t.fifo.dout.tlast then [] else r ++ [t.fifo.dout])) :
    Advance c t i r := by
  refine .takes hd hp (hhand ▸ hcut) (fun v hv => ?_) hs
  rw [hhand] at hv
  rw [List.mem_singleton.mp hv]
  exact hdata

theorem wordsOf_ge (hlo : 64 ≤ c) : 2 ≤ wordsOf c := by
  rw [wordsOf]
  omega

theorem setLen_eq_cutWord (hlo : 64 ≤ c) {w : Beat} (hl : w.tlast = false) :
    w.setLen (BitVec.ofNat 16 c) = cutWord c 0 w := by
  have hne : ¬ 0 + 1 = wordsOf c := by
    have := wordsOf_ge hlo
    omega
  simp [cutWord, Beat.setLen, hne, hl]

/-- In a packet to be cut, a word short of the cut is not the last. -/
theorem Sized.inner {r us : List Beat} {w : Beat} (h : Sized (r ++ w :: us)) (hpos : 0 < c)
    (hlt : c < firstLen (r ++ w :: us)) (hlen : r.length + 1 < wordsOf c) : w.tlast = false := by
  have hle := wordsOf_le h hpos (h.length ▸ hlt)
  rw [List.length_append, List.length_cons] at hle
  have hne : us ≠ [] := by
    rintro rfl
    rw [List.length_nil] at hle
    omega
  exact Bool.eq_false_iff.mpr (fun hl => hne ((Packet.last_iff Beat.tlast h.packet).mp hl))

section Between
variable (hs : t.state = .waitPkt) (hi : Cutting c i) (hlo : 64 ≤ c) (hhi : c < 2 ^ 16)
  (hd : t.fifo.doutValid = true) (hr : i.tready = true)
include hs hi hlo hhi hd hr

theorem advance_opening (hclean : Clean c t i) (hlt : c < t.fifo.dout.len.toNat)
    (hl : t.fifo.dout.tlast = false) : Advance c t i [] := by
  have hcomb : t.comb i = t.waitPkt i := by rw [Cutter.comb, hs]
  have hpop : t.popped i = [t.fifo.dout] := by
    simp [Cutter.popped, hcomb, Cutter.waitPkt, FallthroughFifo.empty, hd, hr]
  have hhand : t.handed i = [t.fifo.dout.setLen (i.pktLen t.fifo.dout.len)] := by
    simp [Cutter.handed, hcomb, Cutter.waitPkt, FallthroughFifo.empty, hd, hr]
  rw [hi.pktLen hlo hhi, if_pos hlt, setLen_eq_cutWord hlo hl] at hhand
  refine .gives hd hpop hhand rfl ?_ ?_
  · have htake := List.take_of_length_le (l := [t.fifo.dout]) (i := wordsOf c)
      (Nat.le_of_succ_le (wordsOf_ge hlo))
    rw [List.nil_append, cut_of_lt hlt, htake]
    rfl
  · have hcount := hclean.fresh hs (by simp [FallthroughFifo.empty, hd]) hr hlt
    rw [hl, if_neg (by simp)]
    refine .cutting hlt (wordsOf_ge hlo) ?_ ?_
    · simp [machine, Cutter.step, hcomb, Cutter.waitPkt, FallthroughFifo.empty, hd, hr,
        hi.pktCuttable hlo hhi, hlt, hi.hashEn]
    · simp [machine, Cutter.step, hcomb, Cutter.waitPkt, FallthroughFifo.empty, hd, hr,
        hi.pktCuttable hlo hhi, hlt, hi.hashEn, hcount]

theorem advance_whole (hlt : ¬ c < t.fifo.dout.len.toNat) : Advance c t i [] := by
  have hcomb : t.comb i = t.waitPkt i := by rw [Cutter.comb, hs]
  have hle : firstLen [t.fifo.dout] ≤ c := Nat.not_lt.mp hlt
  have hpop : t.popped i = [t.fifo.dout] := by
    simp [Cutter.popped, hcomb, Cutter.waitPkt, FallthroughFifo.empty, hd, hr]
  have hhand : t.handed i = [t.fifo.dout.setLen (i.pktLen t.fifo.dout.len)] := by
    simp [Cutter.handed, hcomb, Cutter.waitPkt, FallthroughFifo.empty, hd, hr]
  rw [hi.pktLen hlo hhi, if_neg hlt, Beat.setLen_len] at hhand
  refine .gives hd hpop hhand rfl ?_ ?_
  · rw [List.nil_append, cut_of_le hle]
    rfl
  · cases hl : t.fifo.dout.tlast with
    | true =>
      refine .between ?_
      simp [machine, Cutter.step, hcomb, Cutter.waitPkt, FallthroughFifo.empty, hd, hr,
        hi.pktCuttable hlo hhi, hlt, hl]
    | false =>
      refine .passing (by simp) hle ?_ ?_
      · simp [machine, Cutter.step, hcomb, Cutter.waitPkt, FallthroughFifo.empty, hd, hr,
          hi.pktCuttable hlo hhi, hlt, hl]
      · simp [machine, Cutter.step, hcomb, Cutter.waitPkt, FallthroughFifo.empty, hd, hr,
          hi.pktCuttable hlo hhi, hlt]

end Between

theorem advance_between (hs : t.state = .waitPkt) (hi : Cutting c i) (hlo : 64 ≤ c)
    (hhi : c < 2 ^ 16) (hclean : Clean c t i)
    (hopen : t.fifo.doutValid = true → ∃ us, Sized (t.fifo.dout :: us)) : Advance c t i [] := by
  have hcomb : t.comb i = t.waitPkt i := by rw [Cutter.comb, hs]
  cases hd : t.fifo.doutValid with
  | false =>
    refine .stays ?_ ?_ (.between ?_) (by simp [hd])
    · simp [Cutter.popped, hd]
    · simp [Cutter.handed, hcomb, Cutter.waitPkt, FallthroughFifo.empty, hd, Cutter.idle]
    · simp [machine, Cutter.step, hcomb, Cutter.waitPkt, FallthroughFifo.empty, hd, Cutter.idle]
  | true =>
    cases hr : i.tready with
    | false =>
      refine .stays ?_ ?_ (.between ?_) (by simp [hr])
      · simp [Cutter.popped, hcomb, Cutter.waitPkt, FallthroughFifo.empty, hd, hr]
      · simp [Cutter.handed, hr]
      · simp [machine, Cutter.step, hcomb, Cutter.waitPkt, FallthroughFifo.empty, hd, hr,
          Cutter.idle]
    | true =>
      by_cases hlt : c < t.fifo.dout.len.toNat
      · obtain ⟨us, hsized⟩ := hopen hd
        have hl : t.fifo.dout.tlast = false :=
          @Sized.inner c [] us _ hsized (by omega) hlt (wordsOf_ge hlo)
        exact advance_opening hs hi hlo hhi hd hr hclean hlt hl
      · exact advance_whole hs hi hlo hhi hd hr hlt

theorem advance_passing {r : List Beat} (hr : r ≠ []) (hle : firstLen r ≤ c)
    (hs : t.state = .inPacket) (hshort : t.pktShort = true) (hclean : Clean c t i) :
    Advance c t i r := by
  have hcomb : t.comb i = t.inPacket i := by rw [Cutter.comb, hs]
  cases hd : t.fifo.doutValid with
  | false =>
    refine .stays ?_ ?_ (.passing hr hle ?_ ?_) (by simp [hd])
    · simp [Cutter.popped, hd]
    · simp [Cutter.handed, hcomb, Cutter.inPacket, FallthroughFifo.empty, hd, Cutter.idle]
    · simp [machine, Cutter.step, hcomb, Cutter.inPacket, FallthroughFifo.empty, hd]
    · simp [machine, Cutter.step, hcomb, Cutter.inPacket, FallthroughFifo.empty, hd, Cutter.idle,
        hshort]
  | true =>
    have hlast : t.cutCounter = 0 → t.fifo.dout.tlast = true :=
      hclean.within hs (by simp [FallthroughFifo.empty, hd])
    -- With the counter at zero the word is the last; it goes the same way as the others.
    have hpass : (t.comb i).mTvalid = true ∧ (t.comb i).mWord = t.fifo.dout ∧
        (t.comb i).rdEn = i.tready ∧ (t.comb i).next.pktShort = true ∧
        (t.comb i).next.state =
          if i.tready && t.fifo.dout.tlast then .waitPkt else .inPacket := by
      rw [hcomb]
      by_cases hz : t.cutCounter = 0#32
      · cases hrdy : i.tready <;>
          simp [Cutter.inPacket, FallthroughFifo.empty, hd, hz, hlast hz, hshort, hrdy, Cutter.idle]
      · cases hrdy : i.tready <;> cases hl : t.fifo.dout.tlast <;>
          simp [Cutter.inPacket, FallthroughFifo.empty, hd, hz, hl, hshort, hrdy, Cutter.idle]
    obtain ⟨hv, hw, hrd, hshort', hst⟩ := hpass
    cases hrdy : i.tready with
    | false =>
      rw [hrdy] at hst hrd
      exact .stays (by simp [Cutter.popped, hrd]) (by simp [Cutter.handed, hrdy])
        (.passing hr hle hst hshort') (by simp [hrdy])
    | true =>
      rw [hrdy] at hst hrd
      have hhand : t.handed i = [t.fifo.dout] := by simp [Cutter.handed, hv, hw, hrdy]
      refine .gives hd (by simp [Cutter.popped, hrd, hd]) hhand rfl (cut_concat_short hr hle _) ?_
      · cases hl : t.fifo.dout.tlast with
        | true =>
          rw [hl] at hst
          exact .between hst
        | false =>
          rw [hl] at hst
          exact .passing (by simp) (by rwa [if_neg (by simp), firstLen_append hr]) hst hshort'

section Cut
variable {r : List Beat} (hlt : c < firstLen r) (hlen : r.length < wordsOf c)
  (hs : t.state = .cutPacket) (hd : t.fifo.doutValid = true) (hrdy : i.tready = true)
include hlt hlen hs hd hrdy

theorem advance_final (hi : Cutting c i) (hhi : c < 2 ^ 16) (hclean : Clean c t i)
    (hfin : r.length + 1 = wordsOf c) (hcut : i.cutLen = t.pktCutCount) : Advance c t i r := by
  have hcomb : t.comb i = t.cutPacket i := by rw [Cutter.comb, hs]
  have hr : r ≠ [] := ne_nil_of_firstLen hlt
  obtain ⟨h6, h17⟩ := hclean.masked hs hrdy hcut
  have hpop : t.popped i = [t.fifo.dout] := by
    simp [Cutter.popped, hcomb, Cutter.cutPacket, FallthroughFifo.empty, hrdy, hd, hcut]
  have hhand : t.handed i = [cutWord c r.length t.fifo.dout] := by
    have hstrb := hi.strobes hhi h6 h17
    simpa [Cutter.handed, hcomb, Cutter.cutPacket, FallthroughFifo.empty, hrdy, hd, hcut,
      cutWord, hfin, hr] using hstrb
  refine .gives hd hpop hhand rfl (cut_concat_inner hlt hlen _) ?_
  cases hl : t.fifo.dout.tlast with
  | true =>
    refine .between ?_
    simp [machine, Cutter.step, hcomb, Cutter.cutPacket, FallthroughFifo.empty, hrdy, hd, hcut, hl]
  | false =>
    rw [if_neg (by simp)]
    refine .waiting (by rwa [firstLen_append hr]) (by simp [hfin]) ?_
    simp [machine, Cutter.step, hcomb, Cutter.cutPacket, FallthroughFifo.empty, hrdy, hd, hcut, hl]

theorem advance_inner (hcount : t.pktCutCount = BitVec.ofNat 32 (r.length + 1))
    (hl : t.fifo.dout.tlast = false) (hlen' : r.length + 1 < wordsOf c)
    (hcut : ¬ i.cutLen = t.pktCutCount) : Advance c t i r := by
  have hcomb : t.comb i = t.cutPacket i := by rw [Cutter.comb, hs]
  have hr : r ≠ [] := ne_nil_of_firstLen hlt
  have hfin : ¬ r.length + 1 = wordsOf c := Nat.ne_of_lt hlen'
  have hpop : t.popped i = [t.fifo.dout] := by
    simp [Cutter.popped, hcomb, Cutter.cutPacket, FallthroughFifo.empty, hrdy, hd, hcut]
  have hhand : t.handed i = [cutWord c r.length t.fifo.dout] := by
    simp [Cutter.handed, hcomb, Cutter.cutPacket, FallthroughFifo.empty, hrdy, hd, hcut,
      cutWord, hfin, hr]
  refine .gives hd hpop hhand rfl (cut_concat_inner hlt hlen _) ?_
  rw [hl, if_neg (by simp)]
  refine .cutting (by rwa [firstLen_append hr]) (by simpa using hlen') ?_ ?_
  · simp [machine, Cutter.step, hcomb, Cutter.cutPacket, FallthroughFifo.empty, hrdy, hd, hcut]
  · have hsucc : t.pktCutCount + 1 = BitVec.ofNat 32 (r.length + 1 + 1) := by
      rw [hcount, BitVec.ofNat_add (r.length + 1)]
      rfl
    simpa [machine, Cutter.step, hcomb, Cutter.cutPacket, FallthroughFifo.empty, hrdy, hd,
      hcut] using hsucc

end Cut

theorem advance_cutting {r : List Beat} (hlt : c < firstLen r) (hlen : r.length < wordsOf c)
    (hs : t.state = .cutPacket) (hcount : t.pktCutCount = BitVec.ofNat 32 (r.length + 1))
    (hi : Cutting c i) (hlo : 64 ≤ c) (hhi : c < 2 ^ 16) (hclean : Clean c t i)
    (hopen : t.fifo.doutValid = true → ∃ us, Sized (r ++ t.fifo.dout :: us)) :
    Advance c t i r := by
  have hcomb : t.comb i = t.cutPacket i := by rw [Cutter.comb, hs]
  cases hrdy : i.tready with
  | false =>
    refine .stays ?_ ?_ (.cutting hlt hlen ?_ ?_) (by simp [hrdy])
    · simp [Cutter.popped, hcomb, Cutter.cutPacket, hrdy]
    · simp [Cutter.handed, hrdy]
    · simp [machine, Cutter.step, hcomb, Cutter.cutPacket, hrdy]
    · simp [machine, Cutter.step, hcomb, Cutter.cutPacket, hrdy, hcount]
  | true =>
    have hd : t.fifo.doutValid = true := by
      simpa [FallthroughFifo.empty] using hclean.supplied hs hrdy
    have hmatch : i.cutLen = t.pktCutCount ↔ r.length + 1 = wordsOf c := by
      rw [hi.cutLen hhi, hcount, BitVec.toNat_eq, BitVec.toNat_ofNat, BitVec.toNat_ofNat]
      have : wordsOf c ≤ 2048 := by
        rw [wordsOf]
        omega
      omega
    by_cases hfin : r.length + 1 = wordsOf c
    · exact advance_final hlt hlen hs hd hrdy hi hhi hclean hfin (hmatch.mpr hfin)
    · have hlen' : r.length + 1 < wordsOf c := by omega
      obtain ⟨us, hsized⟩ := hopen hd
      have hl : t.fifo.dout.tlast = false :=
        hsized.inner (by omega) (by rwa [firstLen_append (ne_nil_of_firstLen hlt)]) hlen'
      exact advance_inner hlt hlen hs hd hrdy hcount hl hlen' (mt hmatch.mp hfin)

theorem advance_waiting {r : List Beat} (hlt : c < firstLen r) (hlen : wordsOf c ≤ r.length)
    (hs : t.state = .cutPacketWait) : Advance c t i r := by
  have hcomb : t.comb i = t.cutPacketWait := by rw [Cutter.comb, hs]
  have hhand : t.handed i = [] := by
    cases hd : t.fifo.doutValid <;>
      simp [Cutter.handed, hcomb, Cutter.cutPacketWait, FallthroughFifo.empty, hd, Cutter.idle]
  cases hd : t.fifo.doutValid with
  | false =>
    refine .stays (by simp [Cutter.popped, hd]) hhand (.waiting hlt hlen ?_) (by simp [hd])
    simp [machine, Cutter.step, hcomb, Cutter.cutPacketWait, FallthroughFifo.empty, hd]
  | true =>
    have hpop : t.popped i = [t.fifo.dout] := by
      simp [Cutter.popped, hcomb, Cutter.cutPacketWait, FallthroughFifo.empty, hd]
    refine .takes hd hpop ?_ (by simp [hhand]) ?_
    · rw [hhand, List.append_nil, cut_concat_late hlt hlen]
    · cases hl : t.fifo.dout.tlast with
      | true =>
        refine .between ?_
        simp [machine, Cutter.step, hcomb, Cutter.cutPacketWait, FallthroughFifo.empty, hd, hl]
      | false =>
        rw [if_neg (by simp)]
        refine .waiting (by rwa [firstLen_append (ne_nil_of_firstLen hlt)])
          (hlen.trans (by simp)) ?_
        simp [machine, Cutter.step, hcomb, Cutter.cutPacketWait, FallthroughFifo.empty, hd, hl]

/-- A clean cycle takes the next word and hands over what is to come out for it, or waits. -/
theorem Stage.advance {r : List Beat} (h : Stage c t r) (hi : Cutting c i) (hlo : 64 ≤ c)
    (hhi : c < 2 ^ 16) (hclean : Clean c t i)
    (hopen : t.fifo.doutValid = true → ∃ us, Sized (r ++ t.fifo.dout :: us)) :
    Advance c t i r := by
  cases h with
  | between hs => exact advance_between hs hi hlo hhi hclean hopen
  | passing hr hle hs hshort => exact advance_passing hr hle hs hshort hclean
  | cutting hlt hlen hs hcount =>
    exact advance_cutting hlt hlen hs hcount hi hlo hhi hclean hopen
  | waiting hlt hlen hs => exact advance_waiting hlt hlen hs

end Step

/-- The words read with those still inside are the words taken. -/
theorem flow (s : Cutter) (ins : List Input) :
    machine.collect Cutter.accepted s.reset ins =
      machine.collect Cutter.popped s.reset ins ++
        (machine.run s.reset ins).fifo.contents := by
  have hflow := FallthroughFifo.flow_run machine (fun _ => True) (fun t => t.fifo)
    Cutter.wrEn (fun t i => (t.comb i).rdEn) (fun _ i => i.word) (fun _ _ _ => rfl)
    (fun t i _ hw => by
      rw [Cutter.wrEn, Bool.and_eq_true, Bool.not_eq_true'] at hw
      exact FallthroughFifo.full_of_nearlyFull hw.2)
    (s := s.reset) (FallthroughFifo.sound_reset _) (show ∀ i ∈ ins, True from fun _ _ => trivial)
  have hnil : s.reset.fifo.contents = [] := FallthroughFifo.contents_reset _
  rw [hnil, List.nil_append] at hflow
  exact hflow.2

/-- What is handed over in a cycle is made of the word read in it, and a word that meets a ready
output is read. -/
def Regular (t : Cutter) (i : Input) : Prop :=
  (t.handed i ≠ [] → t.popped i = [t.fifo.dout] ∧ ∀ w ∈ t.handed i, w.tdata = t.fifo.dout.tdata) ∧
    (t.fifo.empty = false → i.tready = true → t.popped i = [t.fifo.dout])

instance (t : Cutter) (i : Input) : Decidable (Regular t i) :=
  inferInstanceAs (Decidable (_ ∧ _))

theorem Advance.regular {c : Nat} {t : Cutter} {i : Input} {r : List Beat}
    (h : Advance c t i r) : Regular t i := by
  cases h with
  | stays hp hh hs hidle =>
    refine ⟨fun hne => absurd hh hne, fun hd hr => ?_⟩
    simp [FallthroughFifo.empty] at hd
    simp [hd, hr] at hidle
  | takes hd hp hcut hdata hs => exact ⟨fun _ => ⟨hp, hdata⟩, fun _ _ => hp⟩

section Run
variable {s : Cutter} {c : Nat} {pkts : List (List Beat)} {ins : List Input}

/-- From reset on, packet by packet, what has been handed over is what is to come out for the words
read. -/
theorem cut_run (hlo : 64 ≤ c) (hhi : c < 2 ^ 16) (hp : ∀ pkt ∈ pkts, Sized pkt)
    (hi : ∀ i ∈ ins, Cutting c i) (hclean : machine.Along (Clean c) s.reset ins)
    (hacc : machine.collect Cutter.accepted s.reset ins <+: pkts.flatten) :
    Stage c (machine.run s.reset ins)
        (frames Beat.tlast (machine.collect Cutter.popped s.reset ins)).rest ∧
      machine.collect Cutter.handed s.reset ins =
        framewise Beat.tlast (cut c) (machine.collect Cutter.popped s.reset ins) ∧
      machine.Along Regular s.reset ins := by
  induction ins using List.reverseRecOn with
  | nil => exact ⟨.between rfl, rfl, trivial⟩
  | append_singleton past i ih =>
    rw [Machine.collect_concat] at hacc
    obtain ⟨hclean, hnow⟩ := machine.along_concat.mp hclean
    replace hacc := (List.prefix_append _ _).trans hacc
    obtain ⟨hstage, hhand, hreg⟩ := ih (fun j hj => hi j (by simp [hj])) hclean hacc
    have hopen : (machine.run s.reset past).fifo.doutValid = true → ∃ us,
        Sized ((frames Beat.tlast (machine.collect Cutter.popped s.reset past)).rest ++
          (machine.run s.reset past).fifo.dout :: us) := by
      intro hd
      obtain ⟨vs, hvs⟩ := hacc
      rw [flow, FallthroughFifo.contents_eq_cons hd, List.append_assoc, List.cons_append] at hvs
      obtain ⟨pkt, hmem, us, rfl⟩ :=
        next_of_packets Beat.tlast (fun pkt hmem => (hp pkt hmem).packet) hvs
      exact ⟨us, hp _ hmem⟩
    have hadv := hstage.advance (hi i (by simp)) hlo hhi hnow hopen
    rw [machine.along_concat, Machine.run_concat, Machine.collect_concat, Machine.collect_concat]
    cases hadv with
    | stays hpop hh hs hidle =>
      rw [hpop, hh, List.append_nil, List.append_nil]
      exact ⟨hs, hhand, hreg, (Advance.stays hpop hh hs hidle).regular⟩
    | takes hd hpop hcut hdata hs =>
      refine ⟨?_, ?_, hreg, (Advance.takes hd hpop hcut hdata hs).regular⟩
      · rw [hpop, frames_concat]
        cases hl : (machine.run s.reset past).fifo.dout.tlast with
        | true =>
          rw [hl, if_pos rfl] at hs
          rw [Frames.push_last Beat.tlast hl]
          exact hs
        | false =>
          rw [hl, if_neg (by simp)] at hs
          rw [Frames.push_inner Beat.tlast hl]
          exact hs
      · rw [hpop, framewise_concat Beat.tlast (cut c) (cut_of_le (Nat.zero_le c)) hcut, hhand]

/-- Every packet comes out cut to `c` bytes or, if it is not longer, unchanged, whatever came
before it; every word handed over is the one read in that cycle. -/
structure Truncated (s : Cutter) (c : Nat) (pkts : List (List Beat)) (ins : List Input) :
    Prop where
  cuts : ∀ pkt ∈ pkts, CutTo c pkt (cut c pkt)
  begun : machine.collect Cutter.handed s.reset ins <+: pkts.flatMap (cut c)
  settled : machine.collect Cutter.accepted s.reset ins = pkts.flatten →
    (machine.run s.reset ins).fifo.contents = [] →
      machine.collect Cutter.handed s.reset ins = pkts.flatMap (cut c)
  regular : machine.Along Regular s.reset ins

/-- Runs of clean cycles cut every packet as they should. -/
theorem truncated (hlo : 64 ≤ c) (hhi : c < 2 ^ 16) (hp : ∀ pkt ∈ pkts, Sized pkt)
    (hi : ∀ i ∈ ins, Cutting c i) (hclean : machine.Along (Clean c) s.reset ins)
    (hacc : machine.collect Cutter.accepted s.reset ins <+: pkts.flatten) :
    Truncated s c pkts ins := by
  obtain ⟨-, hhand, hreg⟩ := cut_run hlo hhi hp hi hclean hacc
  have hpkts : ∀ pkt ∈ pkts, Packet Beat.tlast pkt := fun pkt hmem => (hp pkt hmem).packet
  have hnil : cut c [] = [] := cut_of_le (Nat.zero_le c)
  have hread : machine.collect Cutter.popped s.reset ins <+: pkts.flatten :=
    (flow s ins ▸ List.prefix_append _ _).trans hacc
  refine ⟨fun pkt hmem => (hp pkt hmem).cutTo (by omega) hhi, ?_, ?_, hreg⟩
  · rw [hhand]
    exact framewise_isPrefix Beat.tlast (cut c) (cut_isPrefix c) hnil hpkts hread
  · intro hall hempty
    rw [flow, hempty, List.append_nil] at hall
    rw [hhand, hall, framewise_packets Beat.tlast (cut c) hnil hpkts]

end Run

/-- A packet of `n` bytes in three words, for `n` from 64 to 96. -/
def threeWords (n : Nat) : List Beat :=
  [⟨1, leading 32, BitVec.ofNat 128 n, false⟩, ⟨2, leading 32, 0, false⟩,
    ⟨3, leading (n - 64), 0, true⟩]

theorem sized_threeWords {n : Nat} (hlo : 64 ≤ n) (hhi : n ≤ 96) : Sized (threeWords n) where
  packet := ⟨[⟨1, leading 32, BitVec.ofNat 128 n, false⟩, ⟨2, leading 32, 0, false⟩], _, rfl,
    by simp, rfl⟩
  strobes := ⟨[⟨1, leading 32, BitVec.ofNat 128 n, false⟩, ⟨2, leading 32, 0, false⟩], _, n - 64,
    rfl, by simp, by omega, rfl⟩
  length := by
    have hfull : ∀ w : Beat, w.tstrb = leading 32 → w.bytes.length = 32 :=
      fun w hw => Beat.length_bytes (Nat.le_refl _) hw
    have hlast : (Beat.mk 3 (leading (n - 64)) 0 true).bytes.length = n - 64 :=
      Beat.length_bytes (by omega) rfl
    have hlen : firstLen (threeWords n) = n := by
      simp only [threeWords, firstLen, Beat.len, BitVec.extractLsb'_toNat, BitVec.toNat_ofNat]
      omega
    rw [hlen, threeWords, bytes_cons, bytes_cons, bytes_cons, List.length_append,
      List.length_append, List.length_append, hfull _ rfl, hfull _ rfl, hlast, bytes,
      List.flatMap_nil, List.length_nil]
    omega

/-- A cycle with a word at the input and a ready output; `words` is the counter of the hash. -/
def arriving (c words : BitVec 32) (w : Beat) : Input := ⟨true, w, true, true, 0, words, c, true⟩

/-- A cycle with nothing at the input and a ready output. -/
def quiet (c words : BitVec 32) : Input := ⟨false, default, true, true, 0, words, c, true⟩

instance (c : Nat) (i : Input) : Decidable (Cutting c i) :=
  decidable_of_iff (i.cutEn = true ∧ i.hashEn = true ∧ i.cutBytes = BitVec.ofNat 32 c)
    ⟨fun ⟨h1, h2, h3⟩ => ⟨h1, h2, h3⟩, fun ⟨h1, h2, h3⟩ => ⟨h1, h2, h3⟩⟩

set_option synthInstance.maxSize 400 in
instance (c : Nat) (s : Cutter) (i : Input) : Decidable (Clean c s i) :=
  decidable_of_iff
    ((s.state = .cutPacket → i.tready = true → s.fifo.empty = false) ∧
      (s.state = .waitPkt → s.fifo.empty = false → i.tready = true →
        c < s.fifo.dout.len.toNat → s.pktCutCount = 1) ∧
      (s.state = .cutPacket → i.tready = true → i.cutLen = s.pktCutCount →
        c % 32 ≠ 6 ∧ c % 32 ≠ 17) ∧
      (s.state = .inPacket → s.fifo.empty = false → s.cutCounter = 0 →
        s.fifo.dout.tlast = true))
    ⟨fun ⟨h1, h2, h3, h4⟩ => ⟨h1, h2, h3, h4⟩, fun ⟨h1, h2, h3, h4⟩ => ⟨h1, h2, h3, h4⟩⟩

/-- A packet of 96 bytes cut to 65. -/
theorem truncated_one : Truncated default 65 [threeWords 96]
    ((threeWords 96).map (arriving 65 3) ++ List.replicate 4 (quiet 65 3)) :=
  truncated (by decide) (by decide)
    (fun pkt h => List.mem_singleton.mp h ▸ sized_threeWords (by decide) (by decide))
    (by decide +kernel) (by decide +kernel) (by decide +kernel)

/-- A run on packets as they should be that does not cut them as it should. -/
def Fails (c : Nat) (pkts : List (List Beat)) (ins : List Input) : Prop :=
  64 ≤ c ∧ c < 2 ^ 16 ∧ (∀ pkt ∈ pkts, Sized pkt) ∧ (∀ i ∈ ins, Cutting c i) ∧
    machine.collect Cutter.accepted (default : Cutter).reset ins <+: pkts.flatten ∧
    ¬ Truncated default c pkts ins

/-- A strobe pattern with a digit missing; a word offered without one in the FIFO; a packet behind
one whose last word is cut, which is not cut; a packet that needs no cut, sent through the hash. -/
theorem truncated_fails :
    Fails 70 [threeWords 96]
        ((threeWords 96).map (arriving 70 3) ++ List.replicate 4 (quiet 70 3)) ∧
      Fails 65 [threeWords 96]
        (((threeWords 96).take 1).map (arriving 65 3) ++ List.replicate 4 (quiet 65 3)) ∧
      Fails 65 [threeWords 66, threeWords 66]
        ((threeWords 66 ++ threeWords 66).map (arriving 65 3) ++
          List.replicate 4 (quiet 65 3)) ∧
      Fails 96 [threeWords 96]
        ((threeWords 96).map (arriving 96 0) ++ List.replicate 5 (quiet 96 0)) := by
  have hone : ∀ n, 64 ≤ n → n ≤ 96 → ∀ pkt ∈ [threeWords n], Sized pkt :=
    fun n hlo hhi pkt h => List.mem_singleton.mp h ▸ sized_threeWords hlo hhi
  refine ⟨⟨by decide, by decide, hone _ (by decide) (by decide), by decide +kernel,
      by decide +kernel, fun h => ?_⟩,
    ⟨by decide, by decide, hone _ (by decide) (by decide), by decide +kernel,
      by decide +kernel, fun h => ?_⟩,
    ⟨by decide, by decide, ?_, by decide +kernel, by decide +kernel, fun h => ?_⟩,
    ⟨by decide, by decide, hone _ (by decide) (by decide), by decide +kernel,
      by decide +kernel, fun h => ?_⟩⟩
  · exact absurd h.begun (by decide +kernel)
  · exact absurd h.regular (by decide +kernel)
  · rintro pkt h
    have hpkt : pkt = threeWords 66 := by simpa using h
    exact hpkt ▸ sized_threeWords (by decide) (by decide)
  · exact absurd h.begun (by decide +kernel)
  · exact absurd h.begun (by decide +kernel)

end Osnt.PacketCutter
