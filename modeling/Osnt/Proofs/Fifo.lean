import Osnt.Fifo
import Osnt.Lib.Window
import Osnt.Lib.DelayQueue
import Osnt.Lib.Machine

/-! The FIFO refines a queue with a read latency of three cycles. -/
namespace Osnt
open Lib Lib.DelayQueue

namespace SmallFifo
variable {α : Type} {d : Nat}

/-- Words in the storage array, next to be read first. -/
def stored (s : SmallFifo α d) : List α := window s.queue s.rdPtr s.depth.toNat

/-- The pointers enclose exactly `depth` cells of the array. -/
structure Wf (s : SmallFifo α d) : Prop where
  bound : s.depth.toNat ≤ 2 ^ d
  ptr : s.wrPtr = s.rdPtr + BitVec.ofNat d s.depth.toNat

@[simp] theorem length_stored (s : SmallFifo α d) : s.stored.length = s.depth.toNat := by
  simp [stored]

theorem empty_iff (s : SmallFifo α d) : s.empty = true ↔ s.stored = [] := by
  rw [← List.length_eq_zero_iff, length_stored]
  simp [empty, BitVec.toNat_eq]

theorem wf_reset (s : SmallFifo α d) : s.reset.Wf := ⟨by simp [reset], by simp [reset]⟩

theorem stored_reset (s : SmallFifo α d) : s.reset.stored = [] := by simp [stored, reset, window]

theorem depth_add_one {s : SmallFifo α d} (h : s.depth.toNat < 2 ^ d) :
    (s.depth + 1).toNat = s.depth.toNat + 1 := by
  have hp : 2 ^ d < 2 ^ (d + 1) := Nat.pow_lt_pow_right (by omega) (by omega)
  have h1 : (1 : BitVec (d + 1)).toNat = 1 := BitVec.toNat_one (Nat.succ_pos d)
  rw [BitVec.toNat_add, h1, Nat.mod_eq_of_lt (by omega)]

theorem depth_sub_one {s : SmallFifo α d} (h : 0 < s.depth.toNat) :
    (s.depth - 1).toNat = s.depth.toNat - 1 := by
  have hlt := s.depth.isLt
  have h1 : (1 : BitVec (d + 1)).toNat = 1 := BitVec.toNat_one (Nat.succ_pos d)
  rw [BitVec.toNat_sub, h1]
  have he : 2 ^ (d + 1) - 1 + s.depth.toNat = s.depth.toNat - 1 + 2 ^ (d + 1) := by omega
  rw [he, Nat.add_mod_right, Nat.mod_eq_of_lt (by omega)]

/-- Depth after a cycle that neither laps nor underflows the array. -/
theorem depth_step (s : SmallFifo α d) (wr rd : Bool) (v : α)
    (hw : wr = true → s.depth.toNat < 2 ^ d) (hr : rd = true → 0 < s.depth.toNat) :
    (s.step wr v rd).depth.toNat + rd.toNat = s.depth.toNat + wr.toNat := by
  cases wr <;> cases rd
  · rfl
  · have := hr rfl
    simp only [step, Bool.not_false, Bool.and_true, Bool.false_and, Bool.false_eq_true, if_false,
      if_true, depth_sub_one this, Bool.toNat_true, Bool.toNat_false]
    omega
  · simp only [step, Bool.not_false, Bool.and_true, if_true, depth_add_one (hw rfl),
      Bool.toNat_true, Bool.toNat_false, Nat.add_zero]
  · rfl

theorem window_read (s : SmallFifo α d) (h : 0 < s.depth.toNat) :
    s.stored = s.queue s.rdPtr :: window s.queue (s.rdPtr + 1) (s.depth.toNat - 1) := by
  obtain ⟨n, hn⟩ := Nat.exists_eq_succ_of_ne_zero (Nat.ne_of_gt h)
  simp [stored, hn, window]

theorem window_write {s : SmallFifo α d} (hs : s.Wf) (h : s.depth.toNat < 2 ^ d) (v : α) :
    window (Function.update s.queue s.wrPtr v) s.rdPtr (s.depth.toNat + 1) = s.stored ++ [v] := by
  rw [window_concat, hs.ptr, window_update _ _ _ _ _ (Nat.le_refl _) h, Function.update_self]
  rfl

theorem wf_step {s : SmallFifo α d} (hs : s.Wf) (wr rd : Bool) (v : α)
    (hw : wr = true → s.depth.toNat < 2 ^ d) (hr : rd = true → 0 < s.depth.toNat) :
    (s.step wr v rd).Wf := by
  have hd := depth_step s wr rd v hw hr
  have hb := hs.bound
  constructor
  · cases wr <;> cases rd <;> simp only [Bool.toNat_true, Bool.toNat_false] at hd
    · omega
    · omega
    · have := hw rfl
      omega
    · omega
  · cases wr <;> cases rd <;> simp only [Bool.toNat_true, Bool.toNat_false] at hd
    · exact hs.ptr
    · have hn : (s.step false v true).depth.toNat = s.depth.toNat - 1 := by omega
      have hp : s.depth.toNat = s.depth.toNat - 1 + 1 := by have := hr rfl; omega
      rw [hn]
      change s.wrPtr = s.rdPtr + 1 + _
      rw [succ_add_ofNat, ← hp]
      exact hs.ptr
    · have hn : (s.step true v false).depth.toNat = s.depth.toNat + 1 := by omega
      rw [hn]
      change s.wrPtr + 1 = s.rdPtr + _
      rw [hs.ptr, add_ofNat_succ]
    · have hn : (s.step true v true).depth.toNat = s.depth.toNat := by omega
      rw [hn]
      change s.wrPtr + 1 = s.rdPtr + 1 + _
      rw [hs.ptr, add_ofNat_succ, succ_add_ofNat]

/-- The stored words after a cycle: a read takes the first, a write appends. -/
theorem stored_step {s : SmallFifo α d} (hs : s.Wf) (wr rd : Bool) (v : α)
    (hw : wr = true → s.depth.toNat < 2 ^ d) (hr : rd = true → 0 < s.depth.toNat) :
    (s.step wr v rd).stored =
      (if rd then s.stored.tail else s.stored) ++ (if wr then [v] else []) := by
  have hd := depth_step s wr rd v hw hr
  cases wr <;> cases rd <;> simp only [Bool.toNat_true, Bool.toNat_false] at hd
  · simp [stored, step]
  · have hn : (s.step false v true).depth.toNat = s.depth.toNat - 1 := by omega
    simp only [stored, hn, if_true, Bool.false_eq_true, if_false, List.append_nil]
    change window s.queue (s.rdPtr + 1) _ = s.stored.tail
    rw [window_read s (hr rfl), List.tail_cons]
  · have hn : (s.step true v false).depth.toNat = s.depth.toNat + 1 := by omega
    simp only [stored, hn, if_true, Bool.false_eq_true, if_false]
    exact window_write hs (hw rfl) v
  · have hn : (s.step true v true).depth.toNat = s.depth.toNat := by omega
    have hpos := hr rfl
    simp only [stored, hn, if_true]
    change window (Function.update s.queue s.wrPtr v) (s.rdPtr + 1) s.depth.toNat =
      s.stored.tail ++ [v]
    have hne : s.stored ≠ [] := by
      intro he
      have := congrArg List.length he
      simp at this
      omega
    rw [← List.tail_append_of_ne_nil hne, ← window_write hs (hw rfl) v, window, List.tail_cons]

theorem dout_step {s : SmallFifo α d} (wr : Bool) (v : α) (h : 0 < s.depth.toNat) :
    s.stored = (s.step wr v true).dout :: s.stored.tail := by
  rw [window_read s h]
  rfl

end SmallFifo

namespace FallthroughFifo
variable {α : Type} {d : Nat}

/-- Everything the FIFO holds, the word on `dout` first. -/
def contents (s : FallthroughFifo α d) : List α :=
  (if s.doutValid then [s.dout] else []) ++ (if s.middleValid then [s.middleDout] else []) ++
    (if s.fifoValid then [s.fifo.dout] else []) ++ s.fifo.stored

/-- Words that have left the storage array. -/
def staged (s : FallthroughFifo α d) : Nat :=
  s.doutValid.toNat + s.middleValid.toNat + s.fifoValid.toNat

/-- The registers hold the values of an aged queue, and the output stages are
filled as far as the ages allow: a word shows on `dout` from age three on. -/
structure Tracks (s : FallthroughFifo α d) (q : DelayQueue α) : Prop where
  wf : s.fifo.Wf
  order : s.middleValid = true → s.doutValid = true
  contents : s.contents = q.vals
  aged : q.Aged
  shown : s.doutValid = decide (0 < q.older 3)
  most : s.staged ≤ q.older 2
  least : min 2 (q.older 2) ≤ s.staged

theorem Tracks.reset [Inhabited α] (s : FallthroughFifo α d) : Tracks s.reset [] where
  wf := SmallFifo.wf_reset _
  order := by simp [FallthroughFifo.reset]
  contents := by simp [FallthroughFifo.contents, FallthroughFifo.reset, SmallFifo.stored_reset]
  aged := .nil
  shown := by simp [FallthroughFifo.reset, older]
  most := by simp [FallthroughFifo.reset, staged]
  least := by simp [older]

theorem length_contents (s : FallthroughFifo α d) :
    s.contents.length = s.staged + s.fifo.depth.toNat := by
  cases hd : s.doutValid <;> cases hm : s.middleValid <;> cases hf : s.fifoValid <;>
    simp [contents, staged, hd, hm, hf] <;> omega

theorem Tracks.length {s : FallthroughFifo α d} {q : DelayQueue α} (h : s.Tracks q) :
    q.length = s.staged + s.fifo.depth.toNat := by
  rw [← length_vals, ← h.contents, length_contents]

/-- The output register shows the head once it is three cycles old. -/
theorem Tracks.front {s : FallthroughFifo α d} {q : DelayQueue α} (h : s.Tracks q) :
    q.front 3 = if s.doutValid then some s.dout else none := by
  have hs := front_isSome 3 h.aged
  rw [← h.shown] at hs
  cases hd : s.doutValid with
  | false =>
    rw [hd] at hs
    simpa using hs
  | true =>
    rw [hd] at hs
    obtain ⟨v, hv⟩ := Option.isSome_iff_exists.mp hs
    obtain ⟨n, t, rfl, _⟩ := front_eq_some hv
    have hc := h.contents
    simp only [FallthroughFifo.contents, hd, if_true, List.cons_append, vals_cons,
      List.cons.injEq] at hc
    rw [hv, if_pos rfl, hc.1]

theorem fifoRdEn_iff (s : FallthroughFifo α d) :
    s.fifoRdEn = true ↔ 0 < s.fifo.depth.toNat ∧ s.staged ≠ 3 := by
  have he : s.fifo.empty = true ↔ s.fifo.depth.toNat = 0 := by
    rw [SmallFifo.empty_iff, ← List.length_eq_zero_iff, SmallFifo.length_stored]
  cases hd : s.doutValid <;> cases hm : s.middleValid <;> cases hf : s.fifoValid <;>
    cases hz : s.fifo.empty <;> simp_all [fifoRdEn, staged, Nat.pos_iff_ne_zero]

theorem staged_step {s : FallthroughFifo α d} (ho : s.middleValid = true → s.doutValid = true)
    (wr rd : Bool) (v : α) :
    (s.step wr v rd).staged + (rd && s.doutValid).toNat = s.staged + s.fifoRdEn.toNat := by
  cases hd : s.doutValid <;> cases hm : s.middleValid <;> cases hf : s.fifoValid <;>
    cases hr : s.fifoRdEn <;> cases rd <;>
    simp_all [staged, step, willUpdateMiddle, willUpdateDout]
  all_goals simp [fifoRdEn, hd, hm, hf] at hr

theorem staged_le_three (s : FallthroughFifo α d) : s.staged ≤ 3 := by
  have h1 := Bool.toNat_le s.doutValid
  have h2 := Bool.toNat_le s.middleValid
  have h3 := Bool.toNat_le s.fifoValid
  simp only [staged]
  omega

theorem order_step {s : FallthroughFifo α d} (ho : s.middleValid = true → s.doutValid = true)
    (wr rd : Bool) (v : α) :
    (s.step wr v rd).middleValid = true → (s.step wr v rd).doutValid = true := by
  cases hd : s.doutValid <;> cases hm : s.middleValid <;> cases hf : s.fifoValid <;>
    cases rd <;> simp_all [step, willUpdateMiddle, willUpdateDout]

/-- What the FIFO holds after a cycle, whichever stages move. -/
theorem contents_step {s : FallthroughFifo α d} (hs : s.fifo.Wf)
    (ho : s.middleValid = true → s.doutValid = true) (wr rd : Bool) (v : α)
    (hw : wr = true → s.fifo.depth.toNat < 2 ^ d) :
    (s.step wr v rd).contents =
      (if rd && s.doutValid then s.contents.tail else s.contents) ++
        (if wr then [v] else []) := by
  have hrd : s.fifoRdEn = true → 0 < s.fifo.depth.toNat := fun h => (s.fifoRdEn_iff.mp h).1
  have hst : (s.step wr v rd).fifo.stored =
      (if s.fifoRdEn then s.fifo.stored.tail else s.fifo.stored) ++ (if wr then [v] else []) :=
    SmallFifo.stored_step hs wr s.fifoRdEn v hw hrd
  have hdout : s.fifoRdEn = true →
      s.fifo.stored = (s.step wr v rd).fifo.dout :: s.fifo.stored.tail := by
    intro h
    have := SmallFifo.dout_step wr v (hrd h)
    simpa only [step, h] using this
  have hkeep : s.fifoRdEn = false → (s.step wr v rd).fifo.dout = s.fifo.dout := by
    intro h
    simp [step, SmallFifo.step, h]
  -- The eight stage patterns, less those that leave `dout` empty behind `middle`.
  cases hr : s.fifoRdEn
  · have hk := hkeep hr
    simp only [hr, Bool.false_eq_true, if_false] at hst
    cases hd : s.doutValid <;> cases hm : s.middleValid <;> cases hf : s.fifoValid <;>
      cases rd <;>
      simp_all [contents, willUpdateMiddle, willUpdateDout, step]
  · obtain ⟨t, ht⟩ : ∃ t, s.fifo.stored = (s.step wr v rd).fifo.dout :: t := ⟨_, hdout hr⟩
    simp only [hr, if_true, ht, List.tail_cons] at hst
    clear hdout
    cases hd : s.doutValid <;> cases hm : s.middleValid <;> cases hf : s.fifoValid <;>
      cases rd <;>
      simp_all [contents, willUpdateMiddle, willUpdateDout, step]
    simp [fifoRdEn, hd, hm, hf] at hr

theorem doutValid_step {s : FallthroughFifo α d}
    (ho : s.middleValid = true → s.doutValid = true) (wr rd : Bool) (v : α) :
    (s.step wr v rd).doutValid = true ↔
      if s.doutValid && !rd then True
      else 0 < s.staged - (rd && s.doutValid).toNat := by
  cases hd : s.doutValid <;> cases hm : s.middleValid <;> cases hf : s.fifoValid <;>
    cases rd <;> simp_all [staged, step, willUpdateDout]

theorem depth_lt {s : FallthroughFifo α d} (hs : s.fifo.Wf) (h : s.full = false) :
    s.fifo.depth.toNat < 2 ^ d := by
  have hb := hs.bound
  simp only [full, SmallFifo.full, beq_eq_false_iff_ne] at h
  omega

/-- One cycle of the FIFO is one tick of the queue. Reads of an empty FIFO are
ignored; the only demand is that a full array is not written. -/
theorem Tracks.step {s : FallthroughFifo α d} {q : DelayQueue α} (h : s.Tracks q)
    (wr rd : Bool) (v : α) (hw : wr = true → s.full = false) :
    (s.step wr v rd).Tracks (q.tick (rd && s.doutValid) (if wr then some v else none)) := by
  have hlt : wr = true → s.fifo.depth.toNat < 2 ^ d := fun he => depth_lt h.wf (hw he)
  have hrd : s.fifoRdEn = true → 0 < s.fifo.depth.toNat := fun hr => (s.fifoRdEn_iff.mp hr).1
  have hst := staged_step h.order wr rd v
  have hlen := h.length
  have hone := length_le_older_two h.aged
  have hmost := h.most
  have hleast := h.least
  have hthree := s.staged_le_three
  -- Entries older than two and three cycles, before and after the tick.
  have hpop : (rd && s.doutValid) = true → 0 < q.older 3 := by
    intro hp
    have hv := h.shown
    simp only [Bool.and_eq_true] at hp
    simpa [hp.2] using hv
  have hold : ∀ n, 0 < n → n ≤ 3 →
      (q.tick (rd && s.doutValid) (if wr then some v else none)).older (n + 1) +
        (rd && s.doutValid).toNat = q.older n := by
    intro n hn hn3
    rw [older_tick _ _ _ _ hn]
    cases hp : rd && s.doutValid with
    | false => simp
    | true =>
      have hsome : (DelayQueue.front n q).isSome := by
        apply front_mono hn3
        rw [front_isSome 3 h.aged]
        simpa using hpop hp
      simpa using older_tail hsome
  have h2 := hold 1 (by omega) (by omega)
  have h3 := hold 2 (by omega) (by omega)
  simp only [older_one h.aged, Nat.reduceAdd] at h2 h3
  have hp1 := Bool.toNat_le (rd && s.doutValid)
  refine ⟨SmallFifo.wf_step h.wf wr s.fifoRdEn v hlt hrd, order_step h.order wr rd v, ?_,
    h.aged.tick _ _, ?_, ?_, ?_⟩
  · rw [contents_step h.wf h.order wr rd v hlt, h.contents, vals_tick]
    cases wr <;> rfl
  · have hdv := doutValid_step h.order wr rd v
    have hsh : s.doutValid = true ↔ 0 < q.older 3 := by rw [h.shown, decide_eq_true_iff]
    have hmono : q.older 3 ≤ q.older 2 := older_anti q (by omega)
    rw [Bool.eq_iff_iff, hdv, decide_eq_true_iff]
    cases hd : s.doutValid <;> cases rd <;> simp [hd] at hsh h3 ⊢ <;> omega
  · by_cases hr : s.fifoRdEn = true
    · have := (s.fifoRdEn_iff.mp hr).1
      simp only [hr, Bool.toNat_true] at hst
      omega
    · simp only [Bool.eq_false_iff.mpr hr, Bool.toNat_false] at hst
      omega
  · by_cases hr : s.fifoRdEn = true
    · simp only [hr, Bool.toNat_true] at hst
      omega
    · have hz : s.fifo.depth.toNat = 0 ∨ s.staged = 3 := by
        rw [s.fifoRdEn_iff] at hr
        omega
      simp only [Bool.eq_false_iff.mpr hr, Bool.toNat_false] at hst
      omega

/-- The registers are those of some queue: the invariant every run keeps. -/
def Sound (s : FallthroughFifo α d) : Prop := ∃ q, s.Tracks q

theorem sound_reset [Inhabited α] (s : FallthroughFifo α d) : s.reset.Sound := ⟨[], .reset s⟩

theorem contents_reset [Inhabited α] (s : FallthroughFifo α d) : s.reset.contents = [] :=
  (Tracks.reset s).contents

theorem Sound.step {s : FallthroughFifo α d} (h : s.Sound) (wr rd : Bool) (v : α)
    (hw : wr = true → s.full = false) : (s.step wr v rd).Sound := by
  obtain ⟨q, hq⟩ := h
  exact ⟨_, hq.step wr rd v hw⟩

theorem Sound.contents_step {s : FallthroughFifo α d} (h : s.Sound) (wr rd : Bool) (v : α)
    (hw : wr = true → s.full = false) :
    (s.step wr v rd).contents =
      (if rd && s.doutValid then s.contents.tail else s.contents) ++
        (if wr then [v] else []) := by
  obtain ⟨q, hq⟩ := h
  rw [(hq.step wr rd v hw).contents, hq.contents, vals_tick]
  cases wr <;> rfl

theorem Sound.depth_step_le {s : FallthroughFifo α d} (h : s.Sound) (wr rd : Bool) (v : α)
    (hw : wr = true → s.full = false) :
    (s.step wr v rd).fifo.depth.toNat ≤ s.fifo.depth.toNat + wr.toNat := by
  obtain ⟨q, hq⟩ := h
  have hd := SmallFifo.depth_step s.fifo wr s.fifoRdEn v (fun he => depth_lt hq.wf (hw he))
    (fun hr => (s.fifoRdEn_iff.mp hr).1)
  change (s.fifo.step wr v s.fifoRdEn).depth.toNat ≤ _
  omega

theorem contents_eq_cons {s : FallthroughFifo α d} (h : s.doutValid = true) :
    s.contents = s.dout :: s.contents.tail := by
  simp [contents, h]

/-- What is written leaves again, in order: the word read in a cycle and what is left
are what was there and what was written. -/
theorem Sound.balance {s : FallthroughFifo α d} (h : s.Sound) (wr rd : Bool) (v : α)
    (hw : wr = true → s.full = false) :
    (if rd && s.doutValid then [s.dout] else []) ++ (s.step wr v rd).contents =
      s.contents ++ if wr then [v] else [] := by
  rw [h.contents_step wr rd v hw]
  cases hr : rd && s.doutValid with
  | false => simp
  | true =>
    have hd : s.doutValid = true := by
      simp only [Bool.and_eq_true] at hr
      exact hr.2
    rw [if_pos rfl, if_pos rfl, ← List.append_assoc, List.singleton_append, ← contents_eq_cons hd]

/-- An output register without a word still shows the last one it had. -/
theorem dout_of_empty {s : FallthroughFifo α d} {wr rd : Bool} {v : α}
    (h : (s.step wr v rd).doutValid = false) : (s.step wr v rd).dout = s.dout := by
  cases hu : s.willUpdateDout rd with
  | false => simp [step, hu]
  | true => simp [step, hu] at h

theorem dout_held {s : FallthroughFifo α d} (h : s.doutValid = true) (wr : Bool) (v : α) :
    (s.step wr v false).doutValid = true ∧ (s.step wr v false).dout = s.dout := by
  simp [step, willUpdateDout, h]

/-- Left alone, a FIFO with one word, and that on its output, stays as it is. -/
theorem step_settled {s : FallthroughFifo α d} (hd : s.doutValid = true)
    (hm : s.middleValid = false) (hf : s.fifoValid = false) (hz : s.fifo.empty = true) (v : α) :
    s.step false v false = s := by
  obtain ⟨f, _, _, _, _, _⟩ := s
  obtain ⟨_, _, _, _, _⟩ := f
  simp_all [step, SmallFifo.step, fifoRdEn, willUpdateDout, willUpdateMiddle]

/-- Cycles until the output shows a word, if none is written; three for an empty FIFO. -/
def wait (s : FallthroughFifo α d) : Nat :=
  if s.doutValid then 0 else if s.staged ≠ 0 then 1 else if s.fifo.depth.toNat ≠ 0 then 2 else 3

/-- A word that is not on the output yet comes one stage nearer. -/
theorem wait_step {s : FallthroughFifo α d} (h : s.Sound) (hd : s.doutValid = false)
    (hc : s.contents ≠ []) (rd : Bool) (v : α) : (s.step false v rd).wait + 1 = s.wait := by
  obtain ⟨q, hq⟩ := h
  have hst := staged_step hq.order false rd v
  have hdv := doutValid_step hq.order false rd v
  have hlen := s.length_contents
  have hpos := List.length_pos_iff.mpr hc
  simp only [hd, Bool.and_false, Bool.toNat_false, Nat.add_zero, Bool.false_and,
    Bool.false_eq_true, if_false, Nat.sub_zero] at hst hdv
  by_cases hs : s.staged = 0
  · have hr : s.fifoRdEn = true := s.fifoRdEn_iff.mpr ⟨by omega, by omega⟩
    have hno : (s.step false v rd).doutValid = false := by
      rw [Bool.eq_false_iff, Ne, hdv]
      omega
    rw [hr, hs] at hst
    have hdepth : s.fifo.depth.toNat ≠ 0 := by omega
    simp [wait, hd, hs, hno, hst, hdepth]
  · have hyes : (s.step false v rd).doutValid = true := hdv.mpr (by omega)
    simp [wait, hd, hs, hyes]

theorem wait_le_two {s : FallthroughFifo α d} (hc : s.contents ≠ []) : s.wait ≤ 2 := by
  have hlen := s.length_contents
  have hpos := List.length_pos_iff.mpr hc
  simp only [wait]
  split
  · omega
  split
  · omega
  split <;> omega

theorem wait_of_empty {s : FallthroughFifo α d} (hc : s.contents = []) : s.wait = 3 := by
  have hlen := s.length_contents
  rw [hc, List.length_nil] at hlen
  have hd : s.doutValid = false := by
    cases hd : s.doutValid with
    | false => rfl
    | true =>
      rw [contents_eq_cons hd] at hc
      cases hc
  have hstaged : s.staged = 0 := by omega
  have hdepth : s.fifo.depth.toNat = 0 := by omega
  simp [wait, hd, hstaged, hdepth]

/-- Falls as the FIFO is read: each word needs at most four cycles. -/
def backlog (s : FallthroughFifo α d) : Nat := 4 * s.contents.length + s.wait

theorem backlog_step {s : FallthroughFifo α d} (h : s.Sound) (rd : Bool) (v : α)
    (hrd : s.doutValid = true → rd = true) :
    (s.step false v rd).backlog ≤ s.backlog ∧
      (s.contents ≠ [] → (s.step false v rd).backlog < s.backlog) := by
  have hc := h.contents_step false rd v (by simp)
  simp only [Bool.false_eq_true, if_false, List.append_nil] at hc
  have hle : ∀ s : FallthroughFifo α d, s.wait ≤ 3 := by
    intro s
    by_cases he : s.contents = []
    · exact Nat.le_of_eq (wait_of_empty he)
    · exact Nat.le_succ_of_le (wait_le_two he)
  cases hd : s.doutValid with
  | true =>
    have hlen : (s.step false v rd).contents.length + 1 = s.contents.length := by
      rw [hc, hrd hd, hd, contents_eq_cons hd]
      simp
    have hw := hle (s.step false v rd)
    simp only [backlog]
    exact ⟨by omega, fun _ => by omega⟩
  | false =>
    rw [hd, Bool.and_false, if_neg (by simp)] at hc
    by_cases he : s.contents = []
    · rw [backlog, backlog, hc, wait_of_empty he, wait_of_empty (hc.trans he)]
      exact ⟨Nat.le_refl _, fun hne => absurd he hne⟩
    · have hw := wait_step h hd he rd v
      simp only [backlog, hc]
      exact ⟨by omega, fun _ => by omega⟩

theorem backlog_hold {s : FallthroughFifo α d} (h : s.Sound) (v : α) :
    (s.step false v false).backlog ≤ s.backlog := by
  cases hd : s.doutValid with
  | true =>
    have hc := h.contents_step false false v (by simp)
    simp only [Bool.false_and, Bool.false_eq_true, if_false, List.append_nil] at hc
    rw [backlog, backlog, hc, wait, wait, (dout_held hd false v).1, hd]
    exact Nat.le_refl _
  | false => exact (backlog_step h false v (by simp [hd])).1

section Flow
/- A FIFO inside any machine that never writes a full array; `ok` says under which
inputs the machine runs. -/
variable {σ ι : Type} (m : Machine σ ι) (ok : ι → Prop) (fifo : σ → FallthroughFifo α d)
  (wr rd : σ → ι → Bool) (din : σ → ι → α)

/-- What a run writes has left the FIFO or is still inside. -/
theorem flow_run
    (hstep : ∀ s i, ok i → fifo (m.step s i) = (fifo s).step (wr s i) (din s i) (rd s i))
    (hw : ∀ s i, ok i → wr s i = true → (fifo s).full = false) {s : σ} (hs : (fifo s).Sound)
    {is : List ι} (his : ∀ i ∈ is, ok i) :
    (fifo (m.run s is)).Sound ∧
      (fifo s).contents ++ m.collect (fun t i => if wr t i then [din t i] else []) s is =
        m.collect (fun t i => if rd t i && (fifo t).doutValid then [(fifo t).dout] else []) s is ++
          (fifo (m.run s is)).contents := by
  refine m.run_keeps (m.along_of_forall his) (fun past t => (fifo t).Sound ∧
    (fifo s).contents ++ m.collect (fun t i => if wr t i then [din t i] else []) s past =
      m.collect (fun t i => if rd t i && (fifo t).doutValid then [(fifo t).dout] else []) s past ++
        (fifo t).contents) ⟨hs, by simp⟩ ?_
  intro past i hp hi
  obtain ⟨hp, hb⟩ := hp
  rw [hstep _ _ hi]
  refine ⟨hp.step _ _ _ (hw _ i hi), ?_⟩
  rw [Machine.collect_concat, Machine.collect_concat, ← List.append_assoc, hb, List.append_assoc,
    List.append_assoc]
  exact congrArg _ (hp.balance _ _ _ (hw _ i hi)).symm

end Flow

theorem full_of_nearlyFull {s : FallthroughFifo α d} (h : s.nearlyFull = false) :
    s.full = false := by
  have hp : 0 < 2 ^ d := Nat.two_pow_pos d
  simp only [nearlyFull, SmallFifo.nearlyFull, decide_eq_false_iff_not] at h
  simp only [full, SmallFifo.full, beq_eq_false_iff_ne]
  omega

/-- Two words in the array mean that the output stages are full, but for one read in the cycle
before. -/
def Packed (s : FallthroughFifo α d) (popped : Bool) : Prop :=
  2 ≤ s.fifo.depth.toNat → s.staged + popped.toNat = 3

theorem Packed.step {s : FallthroughFifo α d} {popped : Bool} (h : s.Packed popped) (hs : s.Sound)
    (wr rd : Bool) (v : α) (hw : wr = true → s.full = false) :
    (s.step wr v rd).Packed (rd && s.doutValid) := by
  obtain ⟨q, hq⟩ := hs
  have hst := staged_step hq.order wr rd v
  have hd : (s.step wr v rd).fifo.depth.toNat + s.fifoRdEn.toNat = s.fifo.depth.toNat + wr.toNat :=
    SmallFifo.depth_step s.fifo wr s.fifoRdEn v (fun he => depth_lt hq.wf (hw he))
      (fun hr => (s.fifoRdEn_iff.mp hr).1)
  have hthree := s.staged_le_three
  have hwr := Bool.toNat_le wr
  intro hdeep
  by_cases hr : s.fifoRdEn = true
  · have hne := (s.fifoRdEn_iff.mp hr).2
    rw [hr, Bool.toNat_true] at hst hd
    have hp := h (by omega)
    have hpop := Bool.toNat_le popped
    omega
  · have hz : s.fifo.depth.toNat = 0 ∨ s.staged = 3 := by
      rw [s.fifoRdEn_iff] at hr
      omega
    rw [Bool.eq_false_iff.mpr hr, Bool.toNat_false] at hst hd
    omega

/-- The array is full when as many words wait as it has cells, besides those that the output stages
hold then. -/
theorem Packed.full_iff {s : FallthroughFifo α d} {popped : Bool} (h : s.Packed popped)
    (hs : s.Sound) (hd : 2 < 2 ^ d) :
    s.full = true ↔ 2 ^ d + 3 ≤ s.contents.length + popped.toNat := by
  obtain ⟨q, hq⟩ := hs
  have hb := hq.wf.bound
  have hlen := s.length_contents
  have hthree := s.staged_le_three
  have hpop := Bool.toNat_le popped
  have hfull : s.full = true ↔ s.fifo.depth.toNat = 2 ^ d := by simp [full, SmallFifo.full]
  rw [hfull, hlen]
  by_cases hdeep : 2 ≤ s.fifo.depth.toNat
  · have hp := h hdeep
    omega
  · omega

/-- What is held was written more than `n` and at most three cycles ago. -/
def Prompt (n : Nat) (s : FallthroughFifo α d) : Prop :=
  ∃ q, s.Tracks q ∧ ∀ e ∈ q, n < e.2 ∧ e.2 ≤ 3

theorem prompt_reset [Inhabited α] (n : Nat) (s : FallthroughFifo α d) : s.reset.Prompt n :=
  ⟨[], .reset s, by simp⟩

theorem Prompt.sound {n : Nat} {s : FallthroughFifo α d} (h : s.Prompt n) : s.Sound := by
  obtain ⟨q, hq, -⟩ := h
  exact ⟨q, hq⟩

theorem Prompt.mono {m n : Nat} {s : FallthroughFifo α d} (h : s.Prompt n) (hm : m ≤ n) :
    s.Prompt m := by
  obtain ⟨q, hq, hold⟩ := h
  exact ⟨q, hq, fun e he => ⟨Nat.lt_of_le_of_lt hm (hold e he).1, (hold e he).2⟩⟩

/-- What is not on the output was written at most two cycles ago. -/
theorem Tracks.young {s : FallthroughFifo α d} {q : DelayQueue α} (h : s.Tracks q)
    (hold : ∀ e ∈ q, e.2 ≤ 3) : ∀ e ∈ if s.doutValid then q.tail else q, e.2 < 3 := by
  intro e he
  have hshown := h.shown
  cases hd : s.doutValid with
  | true =>
    rw [hd, if_pos rfl] at he
    cases q with
    | nil => cases he
    | cons a q =>
      have hfall := (List.pairwise_cons.mp h.aged.falling).1 e he
      have ha := hold a (by simp)
      omega
  | false =>
    rw [hd, if_neg (by simp)] at he
    rw [hd] at hshown
    have hnone : q.older 3 = 0 := by
      have hnot := of_decide_eq_false hshown.symm
      omega
    have hage := List.countP_eq_zero.mp hnone e he
    simpa using hage

theorem Prompt.step {n : Nat} {s : FallthroughFifo α d} (h : s.Prompt n) (wr rd : Bool) (v : α)
    (hrd : s.doutValid = true → rd = true) (hw : wr = true → s.full = false) :
    (s.step wr v rd).Prompt (if wr then 0 else n + 1) := by
  obtain ⟨q, hq, hold⟩ := h
  refine ⟨_, hq.step wr rd v hw, fun e he => ?_⟩
  have hyoung := hq.young (fun e he => (hold e he).2)
  have hpop : (rd && s.doutValid) = s.doutValid := by
    cases hd : s.doutValid with
    | false => exact Bool.and_false rd
    | true => rw [hrd hd, Bool.and_self]
  rw [hpop] at he
  rcases List.mem_append.mp he with he | he
  · obtain ⟨x, hx, rfl⟩ := List.mem_map.mp he
    have hthree := hyoung x hx
    have hmem : x ∈ q := by
      cases hd : s.doutValid with
      | false => simpa [hd] using hx
      | true => exact List.mem_of_mem_tail (by simpa [hd] using hx)
    have hn := (hold x hmem).1
    cases wr with
    | false => exact ⟨Nat.succ_lt_succ hn, hthree⟩
    | true => exact ⟨Nat.succ_pos _, hthree⟩
  · cases wr with
    | false => simp at he
    | true =>
      obtain rfl : e = (v, 1) := by simpa using he
      exact ⟨Nat.one_pos, Nat.le_add_left 1 2⟩

theorem Prompt.length_le {n : Nat} {s : FallthroughFifo α d} (h : s.Prompt n) :
    s.contents.length ≤ 3 ∧ s.fifo.depth.toNat ≤ 1 := by
  obtain ⟨q, hq, hold⟩ := h
  have htwo : q.older 2 ≤ 2 := by
    have hone := length_le_older_two hq.aged
    have hpair := hq.aged.falling
    rcases q with _ | ⟨a, _ | ⟨b, _ | ⟨c, q⟩⟩⟩
    · simp [older]
    · exact (List.countP_le_length ..).trans (by simp)
    · exact (List.countP_le_length ..).trans (by simp)
    · have ha := hold a (by simp)
      simp only [List.pairwise_cons, List.mem_cons, forall_eq_or_imp] at hpair
      obtain ⟨⟨hab, hac, -⟩, ⟨hbc, -⟩, hrest, -⟩ := hpair
      have hpos := hq.aged.positive c (by simp)
      have hnone : older 2 (c :: q) = 0 := by
        refine List.countP_eq_zero.mpr fun e he => ?_
        rcases List.mem_cons.mp he with rfl | he
        · simp only [decide_eq_true_eq]
          omega
        · have hlow := hrest e he
          simp only [decide_eq_true_eq]
          omega
      have hsplit : older 2 ([a, b] ++ c :: q) = older 2 [a, b] + older 2 (c :: q) := by
        rw [older, List.countP_append]
        rfl
      change older 2 ([a, b] ++ c :: q) ≤ 2
      rw [hsplit, hnone]
      exact List.countP_le_length ..
  have hleast := hq.least
  have hlen := hq.length
  have hone := length_le_older_two hq.aged
  have hcontents := s.length_contents
  omega

theorem Prompt.nearlyFull {n : Nat} {s : FallthroughFifo α d} (h : s.Prompt n) (hd : 2 ≤ d) :
    s.nearlyFull = false := by
  have hdepth := h.length_le.2
  have hfour : 2 ^ 2 ≤ 2 ^ d := Nat.pow_le_pow_right (by decide) hd
  simp only [FallthroughFifo.nearlyFull, SmallFifo.nearlyFull, decide_eq_false_iff_not]
  omega

theorem Prompt.contents_nil {n : Nat} {s : FallthroughFifo α d} (h : s.Prompt n) (hn : 3 ≤ n) :
    s.contents = [] := by
  obtain ⟨q, hq, hold⟩ := h
  have hnil : q = [] := by
    refine List.eq_nil_iff_forall_not_mem.mpr fun e he => ?_
    have hage := hold e he
    omega
  rw [hq.contents, hnil, vals_nil]

end FallthroughFifo
end Osnt
