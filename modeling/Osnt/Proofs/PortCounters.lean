import Osnt.PortCounters
import Osnt.Proofs.OutputQueues
import Osnt.Proofs.PacketCounters
import Mathlib.Algebra.GroupWithZero.Nat

namespace Osnt.PortCounters
open Lib OutputQueues
open PacketCounters (low top bit assign pktCounter)

theorem toNat_assign (sum : BitVec 31) : (assign false sum false).toNat = sum.toNat := by
  unfold assign
  rw [BitVec.toNat_cons]
  simp

theorem low_toNat {reg : BitVec 32} (h : reg.toNat < 2 ^ 31) : (low reg).toNat = reg.toNat :=
  (BitVec.toNat_setWidth ..).trans (Nat.mod_eq_of_lt h)

theorem top_eq_false {reg : BitVec 32} (h : reg.toNat < 2 ^ 31) : top reg = false :=
  Nat.testBit_lt_two_pow h

theorem toNat_pktCounter {reg : BitVec 32} {event : Bool} (h : reg.toNat + event.toNat < 2 ^ 31) :
    (pktCounter false reg (low reg + bit event)).toNat = reg.toNat + event.toNat := by
  have hreg : reg.toNat < 2 ^ 31 := by omega
  unfold pktCounter
  rw [PacketCounters.exceeds_eq, top_eq_false hreg, toNat_assign, BitVec.toNat_add,
    low_toNat hreg, PacketCounters.toNat_bit, Nat.mod_eq_of_lt h]

theorem toNat_byteCounter {reg bytes : BitVec 32} (h : reg.toNat + bytes.toNat < 2 ^ 31) :
    (byteCounter false reg bytes).toNat = reg.toNat + bytes.toNat := by
  have hreg : reg.toNat < 2 ^ 31 := by omega
  have hsum : ((low reg).setWidth 32 + bytes).toNat = reg.toNat + bytes.toNat := by
    rw [BitVec.toNat_add, BitVec.toNat_setWidth_of_le (by decide), low_toNat hreg]
    exact Nat.mod_eq_of_lt (by omega)
  unfold byteCounter
  dsimp only
  rw [if_neg, top_eq_false hreg, toNat_assign, low_toNat (hsum.trans_lt h), hsum]
  intro hlt
  have hlt : 2 ^ 31 - 1 < ((low reg).setWidth 32 + bytes).toNat := hlt
  omega

theorem toNat_inQueue {reg : BitVec 32} {stored removed : Bool}
    (h : reg.toNat + stored.toNat < 2 ^ 31) (hle : removed.toNat ≤ reg.toNat + stored.toNat) :
    (pktCounter false reg (low reg + bit stored - bit removed)).toNat + removed.toNat =
      reg.toNat + stored.toNat := by
  have hreg : reg.toNat < 2 ^ 31 := by omega
  have hsum : (low reg + bit stored).toNat = reg.toNat + stored.toNat := by
    rw [BitVec.toNat_add, low_toNat hreg, PacketCounters.toNat_bit, Nat.mod_eq_of_lt h]
  have hbit : bit removed ≤ low reg + bit stored := by
    rw [BitVec.le_def, hsum, PacketCounters.toNat_bit]
    exact hle
  unfold pktCounter
  rw [PacketCounters.exceeds_eq, top_eq_false hreg, toNat_assign, BitVec.toNat_sub_of_le hbit,
    hsum, PacketCounters.toNat_bit]
  omega

/-- First words of the packets a queue has stored. -/
def admitted (s : Queues) (q : Fin 3) (ins : List OutputQueues.Input) : List Word :=
  openers Word.tlast true (Queues.machine.collect (Queues.stored q) s ins)

/-- First words of the packets of which a port has handed over the first word. -/
def removed (s : Queues) (q : Fin 3) (ins : List OutputQueues.Input) : List Word :=
  openers Word.tlast true ((Queues.machine.collect (Queues.stored q) s ins).take
    (Queues.machine.collect (Queues.handed q) s ins).length)

/-- First words of the packets that are offered for a port. -/
def addressed (s : Queues) (q : Fin 3) (ins : List OutputQueues.Input) : List Word :=
  (openers Word.tlast true (Queues.machine.collect Queues.accepted s ins)).filter
    fun w => oq w.tuser q

/-- The lengths of packets, by their first words. -/
def bytes (heads : List Word) : Nat := (heads.map fun w => (lengthField w.tuser).toNat).sum

@[simp] theorem bytes_nil : bytes [] = 0 := rfl

@[simp] theorem bytes_singleton (w : Word) : bytes [w] = (lengthField w.tuser).toNat := by
  simp [bytes]

theorem bytes_append (heads more : List Word) :
    bytes (heads ++ more) = bytes heads + bytes more := by
  simp [bytes]

/-- The first word of a packet in a cycle. -/
def head (t : Queues) (i : OutputQueues.Input) : List Word :=
  if i.tvalid && decide (t.state = .idle) then [i.word] else []

/-- The first word of a packet that is dropped. -/
def refused (t : Queues) (i : OutputQueues.Input) : List Word :=
  if i.tvalid && decide (t.state = .idle) && !t.admits i.word.tuser then [i.word] else []

/-- Everything the statistics of the write side can do in a cycle: nothing, or show a packet that
begins as stored or as dropped. -/
theorem pulses_cases (t : Queues) (i : OutputQueues.Input) :
    (head t i = [] ∧ refused t i = [] ∧ t.metadataWrEn i = noQueue ∧
        (t.step i).pktStored = noQueue ∧ (t.step i).pktDropped = noQueue ∧
        (t.step i).bytesDropped = 0) ∨
      (head t i = [i.word] ∧ refused t i = [] ∧ t.metadataWrEn i = oq i.word.tuser ∧
        (t.step i).pktStored = oq i.word.tuser ∧ (t.step i).pktDropped = noQueue ∧
        (t.step i).bytesStored = lengthField i.word.tuser ∧ (t.step i).bytesDropped = 0) ∨
      (head t i = [i.word] ∧ refused t i = [i.word] ∧ t.metadataWrEn i = noQueue ∧
        (t.step i).pktStored = noQueue ∧ (t.step i).pktDropped = oq i.word.tuser ∧
        (t.step i).bytesDropped = lengthField i.word.tuser) := by
  cases hv : i.tvalid <;> cases hs : t.state <;> cases hl : i.word.tlast <;>
    cases ha : t.admits i.word.tuser <;>
    simp [head, refused, Queues.step, Queues.comb, Queues.metadataWrEn, Queues.sTready, hv, hs, hl,
      ha]

theorem opens_iff_getLast? {α : Type} (last : α → Bool) (ws : List α) :
    opens last true ws = true ↔ ∀ w ∈ ws.getLast?, last w = true := by
  induction ws using List.reverseRecOn with
  | nil => simp [opens]
  | append_singleton ws w ih => simp

/-- The word behind what a queue has stored begins a packet when the side band is due. -/
theorem due_run (s : Queues) (q : Fin 3) (ins : List OutputQueues.Input) :
    opens Word.tlast true (Queues.machine.collect (Queues.stored q) s.reset ins) =
      (Queues.machine.run s.reset ins).due q := by
  refine Queues.machine.run_invariant ins (fun past t =>
    opens Word.tlast true (Queues.machine.collect (Queues.stored q) s.reset past) = t.due q) rfl ?_
  intro past i hdue
  rw [Machine.collect_concat]
  change _ = ((Queues.machine.run s.reset past).step i).due q
  rw [Queues.due_step, ← hdue]
  unfold Queues.stored
  split
  · rw [opens_concat]
  · rw [List.append_nil]

/-- The machine of the write side is idle between packets. -/
theorem idle_run (s : Queues) (ins : List OutputQueues.Input) :
    (Queues.machine.run s.reset ins).state = .idle ↔
      opens Word.tlast true (Queues.machine.collect Queues.accepted s.reset ins) = true := by
  refine Queues.machine.run_invariant ins (fun past t => t.state = .idle ↔
    opens Word.tlast true (Queues.machine.collect Queues.accepted s.reset past) = true)
    (iff_of_true rfl rfl) ?_
  intro past i hidle
  rw [Machine.collect_concat]
  change ((Queues.machine.run s.reset past).step i).state = .idle ↔ _
  generalize Queues.machine.run s.reset past = t at *
  generalize Queues.machine.collect Queues.accepted s.reset past = ws at *
  unfold Queues.accepted Queues.sTready
  rcases t.write_cases i with ⟨hv, -, -, hs, -⟩ | ⟨hv, -, -, -, -, hs, -⟩ | ⟨hv, -, -, -, hs⟩ |
    ⟨hv, -, -, -, hs, -⟩ | ⟨hv, -, -, -, hs⟩
  · rw [hv, hs, hidle]
    simp
  all_goals
    rw [hv, hs, Bool.and_self, if_pos rfl, opens_concat]
    cases i.word.tlast <;> simp

section
variable (s : Queues) (past : List OutputQueues.Input) (q : Fin 3) (i : OutputQueues.Input)

theorem admitted_concat :
    admitted s.reset q (past ++ [i]) = admitted s.reset q past ++
      if (Queues.machine.run s.reset past).metadataWrEn i q then [i.word] else [] := by
  unfold admitted
  rw [Machine.collect_concat, Queues.metadataWrEn_due, ← due_run]
  generalize Queues.machine.collect (Queues.stored q) s.reset past = ws at *
  unfold Queues.stored
  cases (Queues.machine.run s.reset past).wrEn i q with
  | false => simp
  | true => rw [if_pos rfl, openers_concat, Bool.and_true]

theorem length_admitted_concat :
    (admitted s.reset q (past ++ [i])).length =
      (admitted s.reset q past).length +
        ((Queues.machine.run s.reset past).metadataWrEn i q).toNat := by
  rw [admitted_concat, List.length_append]
  cases (Queues.machine.run s.reset past).metadataWrEn i q <;> rfl

theorem head_concat :
    openers Word.tlast true (Queues.machine.collect Queues.accepted s.reset (past ++ [i])) =
      openers Word.tlast true (Queues.machine.collect Queues.accepted s.reset past) ++
        head (Queues.machine.run s.reset past) i := by
  have hidle := idle_run s past
  rw [Machine.collect_concat]
  generalize Queues.machine.run s.reset past = t at *
  generalize Queues.machine.collect Queues.accepted s.reset past = ws at *
  unfold Queues.accepted head Queues.sTready
  cases i.tvalid with
  | false => simp
  | true =>
    rw [Bool.and_self, if_pos rfl, openers_concat, Bool.true_and]
    simp only [hidle, Bool.decide_eq_true]

theorem addressed_concat :
    addressed s.reset q (past ++ [i]) = addressed s.reset q past ++
      (head (Queues.machine.run s.reset past) i).filter fun w => oq w.tuser q := by
  unfold addressed
  rw [head_concat, List.filter_append]

end

section
variable {s : Queues} {past : List OutputQueues.Input}
  (h : Queues.Reached s past (Queues.machine.run s past))
include h

theorem removed_eq (q : Fin 3) : ∃ (sent : List Word) (g : DelayQueue Word),
    Queues.Aligned (Queues.machine.run s past) q sent g ∧
      Queues.machine.collect (Queues.stored q) s past = sent ++ g.vals ∧
      Queues.machine.collect (Queues.handed q) s past = sent.map dataWord ∧
      removed s q past = openers Word.tlast true sent := by
  obtain ⟨sent, g, ha, hstored, hhanded⟩ := h.aligned q
  refine ⟨sent, g, ha, hstored, hhanded, ?_⟩
  unfold removed
  rw [hstored, hhanded, List.length_map, List.take_left']
  rfl

end

/-- The read side shows a packet as removed when its first word is taken. -/
theorem metadataComb_removed (t : Queues) (i : OutputQueues.Input) (q : Fin 3) :
    (t.metadataComb i q).pktRemoved = (t.begins q && t.rdEn i q) ∧
      (t.metadataComb i q).bytesRemoved =
        if t.begins q && t.rdEn i q then lengthField (t.metadata q).dout else 0 := by
  cases hs : t.metadataState q <;> cases hr : t.rdEn i q <;> cases hl : (t.data q).dout.tlast <;>
    simp [Queues.metadataComb, Queues.begins, hs, hr, hl]

theorem openers_isPrefix {α : Type} (last : α → Bool) {ws vs : List α} (h : ws <+: vs) :
    openers last true ws <+: openers last true vs := by
  obtain ⟨more, rfl⟩ := h
  rw [openers_append]
  exact List.prefix_append _ _

section
variable {s : Queues} {past : List OutputQueues.Input}
  (h : Queues.Reached s past (Queues.machine.run s past))
include h

/-- What leaves in a cycle has been stored before it, and its side band is there. -/
theorem removed_concat (q : Fin 3) (i : OutputQueues.Input) :
    removed s q (past ++ [i]) <+: admitted s q past ∧
    ∃ heads : List Word, removed s q (past ++ [i]) = removed s q past ++ heads ∧
      heads.length = ((Queues.machine.run s past).metadataComb i q).pktRemoved.toNat ∧
      bytes heads = ((Queues.machine.run s past).metadataComb i q).bytesRemoved.toNat := by
  obtain ⟨sent, g, ha, hstored, hhanded, hremoved⟩ := removed_eq h q
  obtain ⟨hpkt, hbytes⟩ := metadataComb_removed (Queues.machine.run s past) i q
  have hbegins : opens Word.tlast true sent = (Queues.machine.run s past).begins q := by
    rw [Bool.eq_iff_iff, opens_iff_getLast?, ha.opens]
  rw [hremoved, hpkt, hbytes]
  unfold removed admitted
  rw [Machine.collect_concat, Machine.collect_concat, hstored, hhanded]
  generalize Queues.machine.run s past = t at *
  rcases Queues.aligned_read ha i with ⟨hr, hnone, -⟩ | ⟨hr, hv, w, n, g', rfl, hone, -, -⟩
  · rw [hnone, hr, List.append_nil, List.length_map, List.append_assoc, List.take_left',
      Bool.and_false]
    · exact ⟨openers_isPrefix _ (List.prefix_append _ _), [], (List.append_nil _).symm, rfl, rfl⟩
    · rfl
  · obtain ⟨w', n', g'', hg, -, hside⟩ := ha.shown hv
    obtain ⟨hw, rfl⟩ := List.cons.inj hg
    obtain ⟨rfl, rfl⟩ := Prod.mk.inj hw
    have hlist : sent ++ DelayQueue.vals ((w, n) :: g') = sent ++ [w] ++ DelayQueue.vals g' :=
      List.append_cons ..
    rw [hone, hr, hlist, List.append_assoc (sent ++ [w]), List.take_left', openers_concat, hbegins,
      Bool.and_true]
    · refine ⟨?_, _, rfl, ?_, ?_⟩
      · rw [openers_append, openers_concat, hbegins]
        exact List.prefix_append _ _
      · cases t.begins q <;> rfl
      · cases hb : t.begins q with
        | false => rfl
        | true => rw [if_pos rfl, if_pos rfl, (hside hb).2, bytes_singleton]
    · simp

end

/-- What the registered pulses of a queue say of the cycle before. -/
theorem pulses (t : Queues) (i : OutputQueues.Input) (q : Fin 3) :
    (t.step i).pktStored q = t.metadataWrEn i q ∧
      (t.metadataWrEn i q = true → (t.step i).bytesStored = lengthField i.word.tuser) ∧
      ((t.step i).pktDropped q).toNat + (t.metadataWrEn i q).toNat =
        ((head t i).filter fun w => oq w.tuser q).length ∧
      ((t.step i).bytesDropped.getLsbD q).toNat =
        (refused t i).countP fun w => (lengthField w.tuser).getLsbD q := by
  rcases pulses_cases t i with ⟨hh, hr, hw, hs, hd, hb⟩ | ⟨hh, hr, hw, hs, hd, hl, hb⟩ |
    ⟨hh, hr, hw, hs, hd, hb⟩
  · rw [hh, hr, hw, hs, hd, hb]
    exact ⟨rfl, nofun, rfl, by simp⟩
  · rw [hh, hr, hw, hs, hd, hl, hb]
    refine ⟨rfl, fun _ => rfl, ?_, by simp⟩
    cases hq : oq i.word.tuser q <;> simp [noQueue, hq]
  · rw [hh, hr, hw, hs, hd, hb]
    refine ⟨rfl, nofun, ?_, ?_⟩
    · cases hq : oq i.word.tuser q <;> simp [noQueue, hq]
    · rw [List.countP_singleton]
      cases (lengthField i.word.tuser).getLsbD q <;> rfl

/-- The counts of a port fit in 31 bits. -/
structure Below (s : Queues) (q : Fin 3) (ins : List OutputQueues.Input) : Prop where
  stored : (admitted s q ins).length < 2 ^ 31
  bytes : bytes (admitted s q ins) < 2 ^ 31
  dropped : (addressed s q ins).length < (admitted s q ins).length + 2 ^ 31

/-- What the registers of a port and the pulses that are on their way to them show. -/
structure Tallied (s : Queues) (q : Fin 3) (past : List OutputQueues.Input) (t : Sys) : Prop where
  pktstored : (t.regs q).pktstored.toNat + (t.queues.pktStored q).toNat =
    (admitted s q past).length
  bytesstored : (t.regs q).bytesstored.toNat +
    (if t.queues.pktStored q then t.queues.bytesStored else 0).toNat = bytes (admitted s q past)
  pktdropped : (t.regs q).pktdropped.toNat + (t.queues.pktDropped q).toNat +
    (admitted s q past).length = (addressed s q past).length
  pktremoved : (t.regs q).pktremoved.toNat = (removed s q past).length
  bytesremoved : (t.regs q).bytesremoved.toNat = bytes (removed s q past)
  pktinqueue : (t.regs q).pktinqueue.toNat + (t.regs q).pktremoved.toNat =
    (t.regs q).pktstored.toNat

theorem queues_run (s : Sys) (ins : List OutputQueues.Input) :
    (Sys.machine.run s (ins.map plain)).queues = Queues.machine.run s.queues ins := by
  have hview := Sys.machine.run_view Queues.machine Sys.queues Input.stream (fun _ _ => rfl) s
    (ins.map plain)
  have hstream : (ins.map plain).map Input.stream = ins := by
    rw [List.map_map]
    exact List.map_id _
  rw [hview, hstream]

theorem resetn_run (s : Sys) (ins : List OutputQueues.Input) :
    (Sys.machine.run s.reset (ins.map plain)).resetnSyncD = decide (0 < ins.length) ∧
      (Sys.machine.run s.reset (ins.map plain)).resetnSync = decide (1 < ins.length) := by
  induction ins using List.reverseRecOn with
  | nil => exact ⟨rfl, rfl⟩
  | append_singleton past i ih =>
    rw [List.map_append, List.map_singleton, Machine.run_concat, List.length_append]
    refine ⟨by simp [Sys.machine, Sys.step], ih.1.trans ?_⟩
    simp

/-- Nothing is offered in the first cycle. -/
def Silent (ins : List OutputQueues.Input) : Prop := ∀ i ∈ ins.head?, i.tvalid = false

theorem Silent.of_append {past more : List OutputQueues.Input} (h : Silent (past ++ more)) :
    Silent past := by
  intro i hi
  refine h i ?_
  rw [Option.mem_def, List.head?_append, Option.mem_def.mp hi]
  rfl

theorem silent_start {s : Queues} {past : List OutputQueues.Input} (h : Silent past)
    (hlen : past.length ≤ 1) (q : Fin 3) :
    admitted s q past = [] ∧ addressed s q past = [] ∧
      Queues.machine.collect refused s past = [] := by
  cases past with
  | nil => exact ⟨rfl, rfl, rfl⟩
  | cons i more =>
    obtain rfl : more = [] :=
      List.length_eq_zero_iff.mp (Nat.le_zero.mp (Nat.le_of_succ_le_succ hlen))
    have hi : i.tvalid = false := h i rfl
    refine ⟨?_, ?_, ?_⟩
    · simp [admitted, Queues.stored, Queues.wrEn, hi, noQueue, openers]
    · simp [addressed, Queues.accepted, hi, openers]
    · simp [refused, hi]

/-- The registers after a further cycle: what has been stored and dropped before it, and what has
been removed with it. -/
structure Shows (s : Queues) (q : Fin 3) (past : List OutputQueues.Input) (i : OutputQueues.Input)
    (r : PortRegs) : Prop where
  pktstored : r.pktstored.toNat = (admitted s q past).length
  bytesstored : r.bytesstored.toNat = bytes (admitted s q past)
  pktdropped : r.pktdropped.toNat + (admitted s q past).length = (addressed s q past).length
  pktremoved : r.pktremoved.toNat = (removed s q (past ++ [i])).length
  bytesremoved : r.bytesremoved.toNat = bytes (removed s q (past ++ [i]))
  pktinqueue : r.pktinqueue.toNat + r.pktremoved.toNat = r.pktstored.toNat

theorem bytes_le_of_isPrefix {heads more : List Word} (h : heads <+: more) :
    bytes heads ≤ bytes more := by
  obtain ⟨rest, rfl⟩ := h
  rw [bytes_append]
  exact Nat.le_add_right ..

theorem Tallied.shows {s : Queues} {q : Fin 3} {past : List OutputQueues.Input} {t : Sys}
    (h : Tallied s q past t) (hqueues : t.queues = Queues.machine.run s past)
    (hreach : Queues.Reached s past (Queues.machine.run s past)) (hbelow : Below s q past)
    (i : OutputQueues.Input) {r : PortRegs}
    (hr : (t.regs q).step t.queues i q false ((plain i).clear q) = r) : Shows s q past i r := by
  obtain ⟨hgone, heads, hremoved, hpkt, hbytes⟩ := removed_concat hreach q i
  rw [← hqueues] at hpkt hbytes
  have hlen := hgone.length_le
  have hsum := bytes_le_of_isPrefix hgone
  rw [hremoved, List.length_append, hpkt] at hlen
  rw [hremoved, bytes_append, hbytes] at hsum
  obtain ⟨hin, hbytesin, hout⟩ := hbelow
  obtain ⟨hstored, hbytesstored, hdropped, hpktremoved, hbytesremoved, hinqueue⟩ := h
  have hstored' :
      r.pktstored.toNat = (t.regs q).pktstored.toNat + (t.queues.pktStored q).toNat := by
    rw [← hr]
    exact toNat_pktCounter (by omega)
  have hbytesstored' : r.bytesstored.toNat = (t.regs q).bytesstored.toNat +
      (if t.queues.pktStored q then t.queues.bytesStored else 0).toNat := by
    rw [← hr]
    exact toNat_byteCounter (by omega)
  have hdropped' : r.pktdropped.toNat =
      (t.regs q).pktdropped.toNat + (t.queues.pktDropped q).toNat := by
    rw [← hr]
    exact toNat_pktCounter (by omega)
  have hpktremoved' : r.pktremoved.toNat =
      (t.regs q).pktremoved.toNat + (t.queues.metadataComb i q).pktRemoved.toNat := by
    rw [← hr]
    exact toNat_pktCounter (by omega)
  have hbytesremoved' : r.bytesremoved.toNat =
      (t.regs q).bytesremoved.toNat + (t.queues.metadataComb i q).bytesRemoved.toNat := by
    rw [← hr]
    exact toNat_byteCounter (by omega)
  have hinqueue' : r.pktinqueue.toNat + (t.queues.metadataComb i q).pktRemoved.toNat =
      (t.regs q).pktinqueue.toNat + (t.queues.pktStored q).toNat := by
    rw [← hr]
    exact toNat_inQueue (by omega) (by omega)
  refine ⟨by omega, by omega, by omega, ?_, ?_, by omega⟩
  · rw [hremoved, List.length_append, hpkt]
    omega
  · rw [hremoved, bytes_append, hbytes]
    omega

theorem shows_zero {s : Queues} {q : Fin 3} {past : List OutputQueues.Input}
    (hreach : Queues.Reached s past (Queues.machine.run s past)) (hsilent : Silent past)
    (hlen : past.length ≤ 1) (i : OutputQueues.Input) :
    Shows s q past i ⟨0, 0, 0, 0, 0, 0, 0⟩ := by
  obtain ⟨hadmitted, haddressed, -⟩ := silent_start (s := s) hsilent hlen q
  obtain ⟨hgone, -⟩ := removed_concat hreach q i
  rw [hadmitted] at hgone
  have hremoved := List.prefix_nil.mp hgone
  constructor
  · rw [hadmitted]
    rfl
  · rw [hadmitted]
    rfl
  · rw [hadmitted, haddressed]
    rfl
  · rw [hremoved]
    rfl
  · rw [hremoved]
    rfl
  · rfl

theorem regs_step (t : Sys) (i : OutputQueues.Input) (q : Fin 3) :
    (Sys.machine.step t (plain i)).regs q = if !t.resetnSync then ⟨0, 0, 0, 0, 0, 0, 0⟩
      else (t.regs q).step t.queues i q false ((plain i).clear q) := by
  cases hs : t.resetnSync <;> simp [Sys.machine, Sys.step, plain, hs]

/-- The registers of a port after a cycle show the packets before it. -/
theorem Tallied.shows_step {s : Sys} {q : Fin 3} {past : List OutputQueues.Input}
    (h : Tallied s.queues.reset q past (Sys.machine.run s.reset (past.map plain)))
    (hreach : Queues.Reached s.queues.reset past (Queues.machine.run s.queues.reset past))
    (hsilent : Silent past) (hbelow : Below s.queues.reset q past) (i : OutputQueues.Input) :
    Shows s.queues.reset q past i
      ((Sys.machine.run s.reset ((past ++ [i]).map plain)).regs q) := by
  have hqueues := queues_run s.reset past
  have hsync := (resetn_run s past).2
  rw [List.map_append, List.map_singleton, Machine.run_concat]
  generalize Sys.machine.run s.reset (past.map plain) = t at *
  rw [regs_step, hsync]
  by_cases hlen : 1 < past.length
  · rw [decide_eq_true hlen]
    exact h.shows hqueues hreach hbelow i rfl
  · rw [decide_eq_false hlen]
    exact shows_zero hreach hsilent (Nat.not_lt.mp hlen) i

/-- With the pulses of the cycle the registers show the packets of the cycle too. -/
theorem Shows.tallied {s : Queues} {q : Fin 3} {past : List OutputQueues.Input}
    {i : OutputQueues.Input} {t : Sys} (h : Shows s.reset q past i (t.regs q))
    (hqueues : t.queues = (Queues.machine.run s.reset past).step i) :
    Tallied s.reset q (past ++ [i]) t := by
  obtain ⟨hstored, hbytes, hdropped, -⟩ := pulses (Queues.machine.run s.reset past) i q
  have hadmitted := admitted_concat s past q i
  have haddressed := addressed_concat s past q i
  rw [← hqueues] at hstored hbytes hdropped
  refine ⟨?_, ?_, ?_, h.pktremoved, h.bytesremoved, h.pktinqueue⟩
  · rw [h.pktstored, hstored, length_admitted_concat]
  · rw [h.bytesstored, hstored, hadmitted, bytes_append]
    cases hw : (Queues.machine.run s.reset past).metadataWrEn i q with
    | false => rfl
    | true => rw [if_pos rfl, if_pos rfl, hbytes hw, bytes_singleton]
  · have hbefore := h.pktdropped
    rw [length_admitted_concat, haddressed, List.length_append]
    omega

theorem tallied_reset (s : Sys) (q : Fin 3) : Tallied s.queues.reset q [] s.reset :=
  ⟨rfl, rfl, rfl, rfl, rfl, rfl⟩

/-- What fits at the end of a run fits before its last cycle. -/
theorem Below.of_concat {s : Queues} {q : Fin 3} {past : List OutputQueues.Input}
    {i : OutputQueues.Input} (h : Below s.reset q (past ++ [i])) : Below s.reset q past := by
  obtain ⟨-, -, hdropped, -⟩ := pulses (Queues.machine.run s.reset past) i q
  have hadmitted := admitted_concat s past q i
  have haddressed := addressed_concat s past q i
  obtain ⟨hin, hbytes, hout⟩ := h
  rw [length_admitted_concat] at hin
  rw [hadmitted, bytes_append] at hbytes
  rw [length_admitted_concat, haddressed, List.length_append] at hout
  exact ⟨by omega, by omega, by omega⟩

theorem tallied_run (s : Sys) (q : Fin 3) {ins : List OutputQueues.Input}
    (hwithin : (Queues.offered s.queues.reset ins).Within 25) (hsilent : Silent ins)
    (hbelow : Below s.queues.reset q ins) :
    Tallied s.queues.reset q ins (Sys.machine.run s.reset (ins.map plain)) := by
  induction ins using List.reverseRecOn with
  | nil => exact tallied_reset s q
  | append_singleton past i ih =>
    have hwithin' := (Queues.within_concat hwithin).1
    have hreach := Queues.reached_run s.queues hwithin'
    have hbelow' := hbelow.of_concat
    have hshows := (ih hwithin' hsilent.of_append hbelow').shows_step hreach hsilent.of_append
      hbelow' i
    refine hshows.tallied ?_
    rw [queues_run]
    exact Queues.machine.run_concat s.queues.reset past i

/-- From reset, with nothing in the first cycle: the registers of each port show the packets that
the queue has stored and refused, up to the cycle before, and those that have begun to leave it;
and what is in the queue is the difference. -/
theorem port_counters (s : Sys) (past : List OutputQueues.Input) (i : OutputQueues.Input)
    (h : (Queues.offered s.queues.reset past).Within 25) (silent : Silent past) (q : Fin 3)
    (below : Below s.queues.reset q past) :
    let r := (Sys.machine.run s.reset ((past ++ [i]).map plain)).regs q
    r.pktstored.toNat = (admitted s.queues.reset q past).length ∧
      r.bytesstored.toNat = bytes (admitted s.queues.reset q past) ∧
      r.pktdropped.toNat + (admitted s.queues.reset q past).length =
        (addressed s.queues.reset q past).length ∧
      r.pktremoved.toNat = (removed s.queues.reset q (past ++ [i])).length ∧
      r.bytesremoved.toNat = bytes (removed s.queues.reset q (past ++ [i])) ∧
      r.pktinqueue.toNat + r.pktremoved.toNat = r.pktstored.toNat := by
  have hreach := Queues.reached_run s.queues h
  obtain ⟨h1, h2, h3, h4, h5, h6⟩ :=
    (tallied_run s q h silent below).shows_step hreach silent below i
  exact ⟨h1, h2, h3, h4, h5, h6⟩

/-- A cycle in which nothing arrives. -/
def pause : OutputQueues.Input := ⟨false, default, fun _ => true⟩

/-- A packet of one word and 64 bytes for the first queue. -/
def packet : OutputQueues.Input := ⟨true, ⟨1, 0xffffffffffffffff, 0x1000040, true⟩, fun _ => true⟩

/-- A packet of `k + 1` words and `len` bytes for the first queue, while no receiver is ready. -/
def words (len : BitVec 128) (k : Nat) : List OutputQueues.Input :=
  List.replicate k ⟨true, ⟨1, 0xffffffffffffffff, 0x1000000 ||| len, false⟩, fun _ => false⟩ ++
    [⟨true, ⟨2, 0xffffffffffffffff, 0x1000000 ||| len, true⟩, fun _ => false⟩]

/-- Two packets fill the first queue up to its threshold. -/
def filling : List OutputQueues.Input := pause :: words 1280 19 ++ words 1472 22

/-- The third packet is refused; then the first one is read, and the second one begun. -/
theorem port_counters_refused :
    let s := (default : Sys)
    let past := filling ++ words 192 2 ++ List.replicate 24 pause
    let r := (Sys.machine.run s.reset ((past ++ [pause]).map plain)).regs 0
    (admitted s.queues.reset 0 past).length = 2 ∧ (addressed s.queues.reset 0 past).length = 3 ∧
      (removed s.queues.reset 0 (past ++ [pause])).length = 2 ∧
      r.pktstored.toNat = (admitted s.queues.reset 0 past).length ∧
      r.bytesstored.toNat = bytes (admitted s.queues.reset 0 past) ∧
      r.pktdropped.toNat + (admitted s.queues.reset 0 past).length =
        (addressed s.queues.reset 0 past).length ∧
      r.pktremoved.toNat = (removed s.queues.reset 0 (past ++ [pause])).length ∧
      r.bytesremoved.toNat = bytes (removed s.queues.reset 0 (past ++ [pause])) ∧
      r.pktinqueue.toNat + r.pktremoved.toNat = r.pktstored.toNat :=
  ⟨by decide +kernel, by decide +kernel, by decide +kernel,
    port_counters default (filling ++ words 192 2 ++ List.replicate 24 pause) pause
      (by decide +kernel) (fun i hi => by rw [← Option.some.inj hi]; rfl) 0
      ⟨by decide +kernel, by decide +kernel, by decide +kernel⟩⟩

/-- A packet that begins in the first cycle out of reset is stored and removed, but not counted as
stored. -/
theorem first_packet_not_counted :
    let s := (default : Sys)
    let past := [packet, pause, pause, pause]
    let r := (Sys.machine.run s.reset ((past ++ [pause]).map plain)).regs 0
    (Queues.offered s.queues.reset past).Within 25 ∧
      admitted s.queues.reset 0 past = [packet.word] ∧
      removed s.queues.reset 0 (past ++ [pause]) = [packet.word] ∧
      r.pktstored = 0 ∧ r.pktremoved = 1 ∧ r.pktinqueue = 0x7fffffff := by
  decide +kernel

end Osnt.PortCounters
