import Osnt.PacketCounters
import Mathlib.Algebra.Group.Nat.Defs
import Mathlib.Data.List.Induction

/-! The counters count in 31 bits, and never show that they have passed the last value: their bit 31
compares a sum of 31 bits with the largest of 31 bits. -/
namespace Osnt.PacketCounters
open Lib

/-- Events since the last clear. -/
def since {ι : Type} (clears : ι → Bool) (events : ι → Nat) (ins : List ι) : Nat :=
  ins.foldl (fun n i => if clears i then 0 else n + events i) 0

theorem since_concat {ι : Type} (clears : ι → Bool) (events : ι → Nat) (ins : List ι) (i : ι) :
    since clears events (ins ++ [i]) =
      if clears i then 0 else since clears events ins + events i := by
  simp [since]

/-- The register shows the count, and its bit 31 that the count has passed the last value. -/
def Indicates (reg : BitVec 32) (n : Nat) : Prop :=
  (low reg).toNat = n % 2 ^ 31 ∧ (top reg = true ↔ 2 ^ 31 ≤ n)

/-- The register shows the count, and nothing more. -/
def Counts (reg : BitVec 32) (n : Nat) : Prop := (low reg).toNat = n % 2 ^ 31 ∧ top reg = false

theorem Counts.indicates_iff {reg : BitVec 32} {n : Nat} (h : Counts reg n) :
    Indicates reg n ↔ n < 2 ^ 31 := by
  unfold Indicates
  rw [h.2, and_iff_right h.1, iff_comm, ← Nat.not_le]
  simp

theorem counts_zero : Counts 0 0 := ⟨rfl, rfl⟩

@[simp] theorem low_assign (clear : Bool) (sum : BitVec 31) (exceeded : Bool) :
    low (assign clear sum exceeded) = if clear then 0 else sum := BitVec.setWidth_cons

@[simp] theorem top_assign (clear : Bool) (sum : BitVec 31) (exceeded : Bool) :
    top (assign clear sum exceeded) = if clear then false else exceeded := by
  unfold top assign
  rw [BitVec.getLsbD_cons, if_pos rfl]

@[simp] theorem exceeds_eq (sum : BitVec 31) (held : Bool) : exceeds sum held = held :=
  if_neg (BitVec.not_allOnes_lt)

@[simp] theorem toNat_bit (event : Bool) : (bit event).toNat = event.toNat := by
  cases event <;> rfl

section
variable {reg : BitVec 32} {n : Nat}

/-- A sum of the low bits and some events is the count modulo `2 ^ 31`. -/
theorem Counts.add {k : Nat} {sum : BitVec 31} (h : sum.toNat = (n + k) % 2 ^ 31) (event : Bool) :
    (sum + bit event).toNat = (n + (k + event.toNat)) % 2 ^ 31 := by
  rw [BitVec.toNat_add, h, toNat_bit, Nat.mod_add_mod, Nat.add_assoc]

theorem Counts.low (h : Counts reg n) : (low reg).toNat = (n + 0) % 2 ^ 31 := h.1

theorem counts_assign {k : Nat} {sum other : BitVec 31} {held : Bool}
    (hsum : sum.toNat = (n + k) % 2 ^ 31) (hheld : held = false) (clear : Bool) :
    Counts (assign clear sum (exceeds other held)) (if clear then 0 else n + k) := by
  unfold Counts
  rw [low_assign, top_assign, exceeds_eq, hheld]
  cases clear with
  | true => exact ⟨rfl, rfl⟩
  | false => exact ⟨hsum, rfl⟩

theorem Counts.pktCounter (h : Counts reg n) (clear event : Bool) :
    Counts (pktCounter clear reg (PacketCounters.low reg + bit event))
      (if clear then 0 else n + event.toNat) := by
  have hsum := Counts.add h.low event
  rw [Nat.zero_add] at hsum
  exact counts_assign hsum h.2 clear

end

namespace InputArbiter

def Input.clearsIn (i : Input) : Bool :=
  i.clears.reset || (i.clears.clearCounters || i.pktinRegClear)

def Input.clearsOut (i : Input) : Bool :=
  i.clears.reset || (i.clears.clearCounters || i.pktoutRegClear)

/-- Packets that end on the slave ports in a cycle. -/
def Input.arrived (i : Input) : Nat :=
  i.sAxis0End.toNat + i.sAxis1End.toNat + i.sAxis2End.toNat

def Input.left (i : Input) : Nat := i.mAxisEnd.toNat

theorem counts_step {s : Regs} {m n : Nat} (hin : Counts s.pktinReg m)
    (hout : Counts s.pktoutReg n) (i : Input) :
    Counts (step s i).pktinReg (if i.clearsIn then 0 else m + i.arrived) ∧
      Counts (step s i).pktoutReg (if i.clearsOut then 0 else n + i.left) := by
  unfold step Input.clearsIn Input.clearsOut
  cases i.clears.reset with
  | true => exact ⟨counts_zero, counts_zero⟩
  | false =>
    have hsum := Counts.add (Counts.add (Counts.add hin.low i.sAxis0End) i.sAxis1End)
      i.sAxis2End
    rw [Nat.zero_add] at hsum
    exact ⟨counts_assign hsum hin.2 _, hout.pktCounter _ _⟩

theorem counts_run (ins : List Input) :
    Counts (machine.run ⟨0, 0⟩ ins).pktinReg (since Input.clearsIn Input.arrived ins) ∧
      Counts (machine.run ⟨0, 0⟩ ins).pktoutReg (since Input.clearsOut Input.left ins) := by
  refine machine.run_invariant ins (fun past s =>
    Counts s.pktinReg (since Input.clearsIn Input.arrived past) ∧
      Counts s.pktoutReg (since Input.clearsOut Input.left past)) ⟨counts_zero, counts_zero⟩ ?_
  rintro past i ⟨hin, hout⟩
  rw [since_concat, since_concat]
  exact counts_step hin hout i

end InputArbiter

namespace OutputQueues

def Input.clearsIn (i : Input) : Bool :=
  i.clears.reset || (i.clears.clearCounters || i.pktinRegClear)

def Input.clearsOut (i : Input) : Bool :=
  i.clears.reset || (i.clears.clearCounters || i.pktoutRegClear)

def Input.arrived (i : Input) : Nat := i.sAxisEnd.toNat

/-- Packets that end on the master ports in a cycle. -/
def Input.left (i : Input) : Nat :=
  i.mAxis0End.toNat + i.mAxis1End.toNat + i.mAxis2End.toNat

theorem counts_step {s : Regs} {m n : Nat} (hin : Counts s.pktinReg m)
    (hout : Counts s.pktoutReg n) (i : Input) :
    Counts (step s i).pktinReg (if i.clearsIn then 0 else m + i.arrived) ∧
      Counts (step s i).pktoutReg (if i.clearsOut then 0 else n + i.left) := by
  unfold step Input.clearsIn Input.clearsOut
  cases i.clears.reset with
  | true => exact ⟨counts_zero, counts_zero⟩
  | false =>
    have hsum := Counts.add (Counts.add (Counts.add hout.low i.mAxis0End) i.mAxis1End)
      i.mAxis2End
    rw [Nat.zero_add] at hsum
    exact ⟨hin.pktCounter _ _, counts_assign hsum hout.2 _⟩

theorem counts_run (ins : List Input) :
    Counts (machine.run ⟨0, 0⟩ ins).pktinReg (since Input.clearsIn Input.arrived ins) ∧
      Counts (machine.run ⟨0, 0⟩ ins).pktoutReg (since Input.clearsOut Input.left ins) := by
  refine machine.run_invariant ins (fun past s =>
    Counts s.pktinReg (since Input.clearsIn Input.arrived past) ∧
      Counts s.pktoutReg (since Input.clearsOut Input.left past)) ⟨counts_zero, counts_zero⟩ ?_
  rintro past i ⟨hin, hout⟩
  rw [since_concat, since_concat]
  exact counts_step hin hout i

end OutputQueues

namespace MacAttachment

def Input.clearsRx (i : Input) : Bool :=
  i.clears.reset || (i.clears.clearCounters || i.rxMacPktinRegClear)

def Input.clearsTx (i : Input) : Bool :=
  i.clears.reset || (i.clears.clearCounters || i.txMacPktinRegClear)

def Input.received (i : Input) : Nat := i.rxEnd.toNat

def Input.sent (i : Input) : Nat := i.txEnd.toNat

theorem counts_step {s : Regs} {m n : Nat} (hrx : Counts s.rxMacPktinReg m)
    (htx : Counts s.txMacPktinReg n) (i : Input) :
    Counts (step s i).rxMacPktinReg (if i.clearsRx then 0 else m + i.received) ∧
      Counts (step s i).txMacPktinReg (if i.clearsTx then 0 else n + i.sent) := by
  unfold step Input.clearsRx Input.clearsTx
  cases i.clears.reset with
  | true => exact ⟨counts_zero, counts_zero⟩
  | false => exact ⟨hrx.pktCounter _ _, htx.pktCounter _ _⟩

theorem counts_run (ins : List Input) :
    Counts (machine.run ⟨0, 0⟩ ins).rxMacPktinReg (since Input.clearsRx Input.received ins) ∧
      Counts (machine.run ⟨0, 0⟩ ins).txMacPktinReg (since Input.clearsTx Input.sent ins) := by
  refine machine.run_invariant ins (fun past s =>
    Counts s.rxMacPktinReg (since Input.clearsRx Input.received past) ∧
      Counts s.txMacPktinReg (since Input.clearsTx Input.sent past)) ⟨counts_zero, counts_zero⟩ ?_
  rintro past i ⟨hrx, htx⟩
  rw [since_concat, since_concat]
  exact counts_step hrx htx i

end MacAttachment

namespace SwitchLookup

def Input.clearsHit (i : Input) : Bool :=
  i.clears.reset || (i.clears.clearCounters || i.luthitRegClear)

def Input.clearsMiss (i : Input) : Bool :=
  i.clears.reset || (i.clears.clearCounters || i.lutmissRegClear)

def Input.hit (i : Input) : Nat := (i.lutHit && i.lookupDone).toNat

def Input.miss (i : Input) : Nat := (i.lutMiss && i.lookupDone).toNat

/-- Bit 31 of `pktin_reg` is never 1, so `luthit_reg` keeps none that is. -/
theorem counts_step {s : Regs} {m n : Nat} (hin : top s.pktinReg = false)
    (hhit : Counts s.luthitReg m) (hmiss : Counts s.lutmissReg n) (i : Input) :
    top (step s i).pktinReg = false ∧
      Counts (step s i).luthitReg (if i.clearsHit then 0 else m + i.hit) ∧
      Counts (step s i).lutmissReg (if i.clearsMiss then 0 else n + i.miss) := by
  unfold step Input.clearsHit Input.clearsMiss
  cases i.clears.reset with
  | true => exact ⟨counts_zero.2, counts_zero, counts_zero⟩
  | false =>
    refine ⟨?_, ?_, hmiss.pktCounter _ _⟩
    · refine (top_assign _ _ _).trans ?_
      rw [exceeds_eq, hin, ite_self]
    · have hsum := Counts.add hhit.low (i.lutHit && i.lookupDone)
      rw [Nat.zero_add] at hsum
      exact counts_assign hsum hin _

theorem counts_run (ins : List Input) :
    top (machine.run ⟨0, 0, 0⟩ ins).pktinReg = false ∧
      Counts (machine.run ⟨0, 0, 0⟩ ins).luthitReg (since Input.clearsHit Input.hit ins) ∧
      Counts (machine.run ⟨0, 0, 0⟩ ins).lutmissReg (since Input.clearsMiss Input.miss ins) := by
  refine machine.run_invariant ins (fun past s => top s.pktinReg = false ∧
    Counts s.luthitReg (since Input.clearsHit Input.hit past) ∧
      Counts s.lutmissReg (since Input.clearsMiss Input.miss past))
    ⟨rfl, counts_zero, counts_zero⟩ ?_
  rintro past i ⟨hin, hhit, hmiss⟩
  rw [since_concat, since_concat]
  exact counts_step hin hhit hmiss i

end SwitchLookup

/-- Each counter shows what it has counted, and whether that has passed the last value, exactly as
long as it has not. -/
theorem overflow_indicated_iff (arbiter : List InputArbiter.Input)
    (queues : List OutputQueues.Input) (mac : List MacAttachment.Input)
    (lookup : List SwitchLookup.Input) :
    (let s := InputArbiter.machine.run ⟨0, 0⟩ arbiter
      let arrived := since InputArbiter.Input.clearsIn InputArbiter.Input.arrived arbiter
      let left := since InputArbiter.Input.clearsOut InputArbiter.Input.left arbiter
      (Indicates s.pktinReg arrived ↔ arrived < 2 ^ 31) ∧
        (Indicates s.pktoutReg left ↔ left < 2 ^ 31)) ∧
    (let s := OutputQueues.machine.run ⟨0, 0⟩ queues
      let arrived := since OutputQueues.Input.clearsIn OutputQueues.Input.arrived queues
      let left := since OutputQueues.Input.clearsOut OutputQueues.Input.left queues
      (Indicates s.pktinReg arrived ↔ arrived < 2 ^ 31) ∧
        (Indicates s.pktoutReg left ↔ left < 2 ^ 31)) ∧
    (let s := MacAttachment.machine.run ⟨0, 0⟩ mac
      let received := since MacAttachment.Input.clearsRx MacAttachment.Input.received mac
      let sent := since MacAttachment.Input.clearsTx MacAttachment.Input.sent mac
      (Indicates s.rxMacPktinReg received ↔ received < 2 ^ 31) ∧
        (Indicates s.txMacPktinReg sent ↔ sent < 2 ^ 31)) ∧
    (let s := SwitchLookup.machine.run ⟨0, 0, 0⟩ lookup
      let hits := since SwitchLookup.Input.clearsHit SwitchLookup.Input.hit lookup
      let misses := since SwitchLookup.Input.clearsMiss SwitchLookup.Input.miss lookup
      (Indicates s.luthitReg hits ↔ hits < 2 ^ 31) ∧
        (Indicates s.lutmissReg misses ↔ misses < 2 ^ 31)) := by
  obtain ⟨hin, hout⟩ := InputArbiter.counts_run arbiter
  obtain ⟨hin', hout'⟩ := OutputQueues.counts_run queues
  obtain ⟨hrx, htx⟩ := MacAttachment.counts_run mac
  obtain ⟨-, hhit, hmiss⟩ := SwitchLookup.counts_run lookup
  exact ⟨⟨hin.indicates_iff, hout.indicates_iff⟩, ⟨hin'.indicates_iff, hout'.indicates_iff⟩,
    ⟨hrx.indicates_iff, htx.indicates_iff⟩, hhit.indicates_iff, hmiss.indicates_iff⟩

/-- A cycle in which the MAC receives the end of a packet. -/
def received : MacAttachment.Input := ⟨⟨false, false⟩, false, false, true, false⟩

theorem since_replicate {ι : Type} {clears : ι → Bool} {events : ι → Nat} {i : ι}
    (hi : clears i = false) (n : Nat) :
    since clears events (List.replicate n i) = n * events i := by
  induction n with
  | zero => rw [Nat.zero_mul]; rfl
  | succ n ih => rw [List.replicate_succ', since_concat, hi, ih, Nat.succ_mul]; rfl

/-- After `2 ^ 31` packets the counter is as it was before the first. -/
theorem overflow_not_indicated :
    let s := MacAttachment.machine.run ⟨0, 0⟩ (List.replicate (2 ^ 31) received)
    since MacAttachment.Input.clearsRx MacAttachment.Input.received
        (List.replicate (2 ^ 31) received) = 2 ^ 31 ∧
      low s.rxMacPktinReg = 0 ∧ top s.rxMacPktinReg = false := by
  have hsince : since MacAttachment.Input.clearsRx MacAttachment.Input.received
      (List.replicate (2 ^ 31) received) = 2 ^ 31 :=
    (since_replicate rfl _).trans (Nat.mul_one _)
  have hcounts := (MacAttachment.counts_run (List.replicate (2 ^ 31) received)).1
  rw [hsince] at hcounts
  refine ⟨hsince, BitVec.eq_of_toNat_eq ?_, hcounts.2⟩
  exact hcounts.1.trans (Nat.mod_self _)

end Osnt.PacketCounters
