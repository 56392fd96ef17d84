import Osnt.Proofs.Fifo

/-! The fall-through FIFO over whole runs: a queue of `2 ^ MAX_DEPTH_BITS + 3` words. -/
namespace Osnt.FallthroughFifo
open Lib Lib.DelayQueue
variable {α : Type} {d : Nat}

/-- Inputs in one cycle. -/
structure Input (α : Type) where
  wrEn : Bool
  din : α
  rdEn : Bool

def machine (α : Type) (d : Nat) : Machine (FallthroughFifo α d) (Input α) :=
  ⟨fun s i => s.step i.wrEn i.din i.rdEn⟩

/-- A full FIFO is not written. -/
def Polite (s : FallthroughFifo α d) (i : Input α) : Prop := i.wrEn = true → s.full = false

instance (s : FallthroughFifo α d) (i : Input α) : Decidable (Polite s i) :=
  inferInstanceAs (Decidable (i.wrEn = true → s.full = false))

def written (_ : FallthroughFifo α d) (i : Input α) : List α := if i.wrEn then [i.din] else []

/-- The value on `dout` when it is read. -/
def shown (s : FallthroughFifo α d) (i : Input α) : List α :=
  if i.rdEn && !s.empty then [s.dout] else []

section
variable {t : FallthroughFifo α d} {i : Input α}

/-- What is held is what was held before some cycles, older than these, and some of what was
written in them. -/
def Split (n : Nat) (recent : List α) (t : FallthroughFifo α d) : Prop :=
  ∃ old new : DelayQueue α, t.Tracks (old ++ new) ∧ old.Mature (n + 1) ∧ new.vals <:+ recent

theorem Split.step {n : Nat} {recent : List α} (h : Split n recent t) (polite : Polite t i) :
    Split (n + 1) (recent ++ written t i) ((machine α d).step t i) := by
  obtain ⟨old, new, htracks, hold, front, hrecent⟩ := h
  have hnext := htracks.step i.wrEn i.rdEn i.din polite
  obtain ⟨old', new', heq, hmature, back, hnew⟩ :=
    tick_append old new (i.rdEn && t.doutValid) (if i.wrEn then some i.din else none)
  rw [heq] at hnext
  refine ⟨old', new', hnext, hmature _ hold, front ++ back, ?_⟩
  have hwritten : written t i = (if i.wrEn then some i.din else none).toList := by
    unfold written
    cases i.wrEn <;> rfl
  rw [hwritten, ← hrecent, List.append_assoc, List.append_assoc, hnew]

/-- A FIFO that shows nothing holds nothing that was there three cycles ago. -/
theorem Split.fresh {n : Nat} {recent : List α} (h : Split n recent t) (hn : 2 ≤ n)
    (empty : t.empty = true) : t.contents <:+ recent := by
  obtain ⟨old, new, htracks, hold, hnew⟩ := h
  have hnone : (old ++ new).older 3 = 0 := by
    have hnone : t.doutValid = false := by simpa [FallthroughFifo.empty] using empty
    have hshown := htracks.shown
    rw [hnone] at hshown
    have hnot := of_decide_eq_false hshown.symm
    omega
  have hempty : old = [] := by
    refine List.eq_nil_iff_forall_not_mem.mpr fun e he => ?_
    have hyoung := List.countP_eq_zero.mp hnone e (List.mem_append_left _ he)
    have hage := hold e he
    simp only [decide_eq_true_eq] at hyoung
    omega
  rw [htracks.contents, hempty]
  exact hnew

end

theorem polite_append {s : FallthroughFifo α d} {before recent : List (Input α)}
    (h : (machine α d).Along Polite s (before ++ recent)) :
    (machine α d).Along Polite s before ∧
      (machine α d).Along Polite ((machine α d).run s before) recent :=
  (machine α d).along_append.mp h

theorem sound_run {s : FallthroughFifo α d} (hs : s.Sound) {ins : List (Input α)}
    (h : (machine α d).Along Polite s ins) : ((machine α d).run s ins).Sound :=
  (machine α d).run_keeps h (fun _ t => t.Sound) hs fun _ i ht hi => ht.step i.wrEn i.rdEn i.din hi

theorem split_run {s : FallthroughFifo α d} (hs : s.Sound) {ins : List (Input α)}
    (h : (machine α d).Along Polite s ins) :
    Split ins.length ((machine α d).collect written s ins) ((machine α d).run s ins) := by
  refine (machine α d).run_keeps h
    (fun past t => Split past.length ((machine α d).collect written s past) t) ?_ ?_
  · obtain ⟨q, hq⟩ := hs
    exact ⟨q, [], by rwa [List.append_nil], fun e he => hq.aged.positive e he, List.suffix_rfl⟩
  · intro past i ht hi
    rw [Machine.collect_concat, List.length_append, List.length_singleton]
    exact ht.step hi

/-- What has been written has been shown, or is still held. -/
theorem order_run {s : FallthroughFifo α d} (hs : s.Sound) {ins : List (Input α)}
    (h : (machine α d).Along Polite s ins) :
    s.contents ++ (machine α d).collect written s ins =
      (machine α d).collect shown s ins ++ ((machine α d).run s ins).contents := by
  have hkeeps := (machine α d).run_keeps h (fun past t => t.Sound ∧
    s.contents ++ (machine α d).collect written s past =
      (machine α d).collect shown s past ++ t.contents) ⟨hs, by simp⟩ ?_
  · exact hkeeps.2
  · rintro past i ⟨ht, hpast⟩ hi
    refine ⟨ht.step i.wrEn i.rdEn i.din hi, ?_⟩
    have hbalance := ht.balance i.wrEn i.rdEn i.din hi
    rw [Machine.collect_concat, Machine.collect_concat, ← List.append_assoc, hpast,
      List.append_assoc, List.append_assoc]
    unfold shown FallthroughFifo.empty
    rw [Bool.not_not]
    exact congrArg _ hbalance.symm

/-- What a FIFO holds while it shows nothing was written in the last three cycles. -/
theorem fresh_run [Inhabited α] (s : FallthroughFifo α d) {ins : List (Input α)}
    (h : (machine α d).Along Polite s.reset ins)
    (empty : ((machine α d).run s.reset ins).empty = true) :
    ((machine α d).run s.reset ins).contents <:+
      (machine α d).collect written ((machine α d).run s.reset (ins.take (ins.length - 3)))
        (ins.drop (ins.length - 3)) := by
  have hcut := List.take_append_drop (ins.length - 3) ins
  by_cases hlong : 3 ≤ ins.length
  · rw [← hcut] at h
    obtain ⟨hbefore, hrecent⟩ := polite_append h
    have hsplit := split_run (sound_run (sound_reset s) hbefore) hrecent
    rw [← Machine.run_append, hcut, List.length_drop] at hsplit
    exact hsplit.fresh (by omega) empty
  · have hall : ins.length - 3 = 0 := by omega
    have horder := order_run (sound_reset s) h
    rw [contents_reset, List.nil_append] at horder
    rw [hall, List.take_zero, List.drop_zero, Machine.run_nil]
    exact ⟨_, horder.symm⟩

theorem length_contents_le {t : FallthroughFifo α d} (h : t.Sound) :
    t.contents.length ≤ 2 ^ d + 3 := by
  obtain ⟨q, hq⟩ := h
  have hlen := t.length_contents
  have hstaged := t.staged_le_three
  have hbound := hq.wf.bound
  omega

/-- A write without a read. -/
def put (v : α) : Input α := ⟨true, v, false⟩

/-- Writes without reads fill the output stages and then the array. -/
theorem fill_run [Inhabited α] (hd : 1 ≤ d) (s : FallthroughFifo α d) (v : α) {n : Nat}
    (hn : n ≤ 2 ^ d + 3) :
    (machine α d).Along Polite s.reset (List.replicate n (put v)) ∧
      ((machine α d).run s.reset (List.replicate n (put v))).contents.length = n ∧
      ((machine α d).run s.reset (List.replicate n (put v))).Packed false := by
  induction n with
  | zero =>
    refine ⟨trivial, ?_, fun hdeep => ?_⟩
    · exact congrArg List.length (contents_reset s)
    · have hzero : s.reset.fifo.depth.toNat = 0 := by
        simp [FallthroughFifo.reset, SmallFifo.reset]
      have htwo : 2 ≤ s.reset.fifo.depth.toNat := hdeep
      omega
  | succ n ih =>
    obtain ⟨hpolite, hlen, hpacked⟩ := ih (Nat.le_of_succ_le hn)
    have hs := sound_run (sound_reset s) hpolite
    rw [List.replicate_succ', Machine.run_concat, Machine.along_concat]
    generalize (machine α d).run s.reset (List.replicate n (put v)) = t at *
    have hroom : t.full = false := by
      have htwo : 2 ^ 1 ≤ 2 ^ d := Nat.pow_le_pow_right (by decide) hd
      have hlength := t.length_contents
      rw [FallthroughFifo.full, SmallFifo.full, beq_eq_false_iff_ne]
      intro hdepth
      have hstaged := hpacked (by omega)
      rw [Bool.toNat_false] at hstaged
      omega
    have hcontents := hs.contents_step true false v fun _ => hroom
    refine ⟨⟨hpolite, fun _ => hroom⟩, ?_, ?_⟩
    · change ((t.step true v false).contents).length = _
      rw [hcontents]
      simp [hlen]
    · exact hpacked.step hs true false v fun _ => hroom

/-- The FIFO refines a queue: what is shown when it is read is what was written, in order, and the
rest is held; what shows stays until it is read; when nothing shows, what is held was written in
the last three cycles; it holds up to `2 ^ MAX_DEPTH_BITS + 3` words, and its array is never read
empty. -/
theorem refines_queue [Inhabited α] (hd : 1 ≤ d) (s : FallthroughFifo α d) :
    (∀ ins : List (Input α), (machine α d).Along Polite s.reset ins →
      let t := (machine α d).run s.reset ins
      (machine α d).collect written s.reset ins =
          (machine α d).collect shown s.reset ins ++ t.contents ∧
        (∀ i : Input α, t.empty = false → i.rdEn = false →
          ((machine α d).step t i).empty = false ∧ ((machine α d).step t i).dout = t.dout) ∧
        (t.empty = true → t.contents <:+
          (machine α d).collect written ((machine α d).run s.reset (ins.take (ins.length - 3)))
            (ins.drop (ins.length - 3))) ∧
        t.contents.length ≤ 2 ^ d + 3 ∧
        (t.fifoRdEn = true → t.fifo.empty = false)) ∧
      ∃ ins : List (Input α), (machine α d).Along Polite s.reset ins ∧
        ((machine α d).run s.reset ins).contents.length = 2 ^ d + 3 := by
  constructor
  · intro ins hpolite t
    have hs := sound_reset s
    have horder := order_run hs hpolite
    rw [contents_reset, List.nil_append] at horder
    refine ⟨horder, ?_, fresh_run s hpolite, length_contents_le (sound_run hs hpolite), ?_⟩
    · intro i hshows hkept
      have hvalid : t.doutValid = true := by simpa [FallthroughFifo.empty] using hshows
      obtain ⟨hstays, hsame⟩ := dout_held hvalid i.wrEn i.din
      rw [← hkept] at hstays hsame
      have hnext : ((machine α d).step t i).doutValid = true := hstays
      exact ⟨by simp [FallthroughFifo.empty, hnext], hsame⟩
    · intro hread
      simp only [fifoRdEn, Bool.and_eq_true, Bool.not_eq_true'] at hread
      exact hread.1
  · obtain ⟨hpolite, hlength, _⟩ := fill_run hd s default (Nat.le_refl _)
    exact ⟨_, hpolite, hlength⟩

def bits : FallthroughFifo Bool 1 := (default : FallthroughFifo Bool 1).reset

def puts : List (Input Bool) := [put true, put false, put true, put true]

def gets : List (Input Bool) := List.replicate 4 ⟨false, false, true⟩

/-- Two cells: four bits that are read in a row, and five that are held. -/
theorem refines_queue_bits :
    ((machine Bool 1).Along Polite bits (puts ++ gets) ∧
      (machine Bool 1).collect written bits (puts ++ gets) =
        (machine Bool 1).collect shown bits (puts ++ gets) ++
          ((machine Bool 1).run bits (puts ++ gets)).contents ∧
      (machine Bool 1).collect shown bits (puts ++ gets) = [true, false, true, true]) ∧
    ∃ ins : List (Input Bool), (machine Bool 1).Along Polite bits ins ∧
      ((machine Bool 1).run bits ins).contents.length = 5 := by
  have hpolite : (machine Bool 1).Along Polite bits (puts ++ gets) := by decide +kernel
  have hqueue := refines_queue (Nat.le_refl 1) (default : FallthroughFifo Bool 1)
  exact ⟨⟨hpolite, (hqueue.1 _ hpolite).1, by decide +kernel⟩, hqueue.2⟩

end Osnt.FallthroughFifo
