import Osnt.Proofs.PortCounters

/-! The byte counters of the output queues: what is dropped is not added up, but one bit of its
length, and for every port. -/
namespace Osnt.PortCounters
open Lib OutputQueues
open PacketCounters (low top bit assign pktCounter)

/-- Packets dropped whose length has the bit with the number of the port. -/
def droppedBits (s : Queues) (q : Fin 3) (ins : List OutputQueues.Input) : Nat :=
  (Queues.machine.collect refused s ins).countP fun w => (lengthField w.tuser).getLsbD q

/-- The two byte counters, with the pulses that are on their way to them. What begins in the first
cycle does not get there. -/
structure Accounts (s : Queues) (q : Fin 3) (past : List OutputQueues.Input) (t : Sys) : Prop where
  stored : (t.regs q).bytesstored.toNat +
    (if t.queues.pktStored q then t.queues.bytesStored else 0).toNat +
    (if 1 < past.length then bytes (admitted s q (past.take 1)) else 0) = bytes (admitted s q past)
  dropped : (t.regs q).bytesdropped.toNat + (t.queues.bytesDropped.getLsbD q).toNat =
    droppedBits s q past

/-- The bytes that are added up fit in 31 bits. -/
def Fits (s : Queues) (q : Fin 3) (ins : List OutputQueues.Input) : Prop :=
  bytes (admitted s q ins) < 2 ^ 31 ∧ droppedBits s q ins < 2 ^ 31

theorem refused_first (s : Queues) {past : List OutputQueues.Input} (hlen : past.length ≤ 1) :
    Queues.machine.collect refused s.reset past = [] := by
  cases past with
  | nil => rfl
  | cons i more =>
    obtain rfl : more = [] :=
      List.length_eq_zero_iff.mp (Nat.le_zero.mp (Nat.le_of_succ_le_succ hlen))
    have hadmits : s.reset.admits i.word.tuser = true := by
      rw [Queues.admits_iff]
      intro q _
      exact ⟨(by decide : 0 < bufferThreshold), rfl⟩
    simp [refused, hadmits]

section
variable {s : Queues} {q : Fin 3} {past : List OutputQueues.Input} {i : OutputQueues.Input}

theorem droppedBits_concat (s : Queues) (q : Fin 3) (past : List OutputQueues.Input)
    (i : OutputQueues.Input) :
    droppedBits s q (past ++ [i]) = droppedBits s q past +
      (refused (Queues.machine.run s past) i).countP fun w => (lengthField w.tuser).getLsbD q := by
  unfold droppedBits
  rw [Machine.collect_concat, List.countP_append]

theorem bytes_admitted_concat (s : Queues) (q : Fin 3) (past : List OutputQueues.Input)
    (i : OutputQueues.Input) :
    bytes (admitted s.reset q (past ++ [i])) = bytes (admitted s.reset q past) +
      if (Queues.machine.run s.reset past).metadataWrEn i q then
        (lengthField i.word.tuser).toNat else 0 := by
  rw [admitted_concat, bytes_append]
  cases (Queues.machine.run s.reset past).metadataWrEn i q with
  | false => rfl
  | true => rw [if_pos rfl, if_pos rfl, bytes_singleton]

theorem Fits.of_concat (h : Fits s.reset q (past ++ [i])) : Fits s.reset q past := by
  obtain ⟨hbytes, hbits⟩ := h
  rw [bytes_admitted_concat] at hbytes
  rw [droppedBits_concat] at hbits
  exact ⟨by omega, by omega⟩

theorem Fits.of_append (more : List OutputQueues.Input) (h : Fits s.reset q (past ++ more)) :
    Fits s.reset q past := by
  induction more using List.reverseRecOn with
  | nil => exact List.append_nil past ▸ h
  | append_singleton more i ih =>
    rw [← List.append_assoc] at h
    exact ih h.of_concat

end

theorem take_one_concat {past : List OutputQueues.Input} (hne : past ≠ [])
    (i : OutputQueues.Input) : (past ++ [i]).take 1 = past.take 1 :=
  List.take_append_of_le_length (List.length_pos_iff.mpr hne)

/-- The two byte counters after a cycle: what began before it, but in the first cycle. -/
theorem Accounts.shows {s : Sys} {q : Fin 3} {past : List OutputQueues.Input}
    (h : Accounts s.queues.reset q past (Sys.machine.run s.reset (past.map plain)))
    (fits : Fits s.queues.reset q past) (i : OutputQueues.Input) {r : PortRegs}
    (hr : (Sys.machine.run s.reset ((past ++ [i]).map plain)).regs q = r) :
    r.bytesstored.toNat + bytes (admitted s.queues.reset q (past.take 1)) =
        bytes (admitted s.queues.reset q past) ∧
      r.bytesdropped.toNat = droppedBits s.queues.reset q past := by
  have hsync := (resetn_run s past).2
  rw [List.map_append, List.map_singleton, Machine.run_concat, regs_step] at hr
  generalize Sys.machine.run s.reset (past.map plain) = t at *
  obtain ⟨hstored, hdropped⟩ := h
  obtain ⟨hbytes, hbits⟩ := fits
  by_cases hlen : 1 < past.length
  · rw [hsync, decide_eq_true hlen] at hr
    rw [if_pos hlen] at hstored
    have hstored' : r.bytesstored.toNat = (t.regs q).bytesstored.toNat +
        (if t.queues.pktStored q then t.queues.bytesStored else 0).toNat := by
      rw [← hr]
      exact toNat_byteCounter (by omega)
    have hdropped' : r.bytesdropped.toNat = (t.regs q).bytesdropped.toNat +
        (t.queues.bytesDropped.getLsbD q).toNat := by
      rw [← hr]
      exact toNat_pktCounter (by omega)
    exact ⟨by omega, by omega⟩
  · have hlen := Nat.not_lt.mp hlen
    rw [hsync, decide_eq_false (Nat.not_lt.mpr hlen)] at hr
    have hzero : droppedBits s.queues.reset q past = 0 := by
      unfold droppedBits
      rw [refused_first s.queues hlen]
      rfl
    rw [← hr, List.take_of_length_le hlen, hzero]
    exact ⟨Nat.zero_add _, rfl⟩

theorem accounts_run (s : Sys) (q : Fin 3) {ins : List OutputQueues.Input}
    (fits : Fits s.queues.reset q ins) :
    Accounts s.queues.reset q ins (Sys.machine.run s.reset (ins.map plain)) := by
  induction ins using List.reverseRecOn with
  | nil => exact ⟨rfl, by simp [Sys.reset, Queues.reset, droppedBits]⟩
  | append_singleton past i ih =>
    obtain ⟨hstored, hdropped⟩ := (ih fits.of_concat).shows fits.of_concat i rfl
    have hqueues : (Sys.machine.run s.reset ((past ++ [i]).map plain)).queues =
        (Queues.machine.run s.queues.reset past).step i := by
      rw [queues_run]
      exact Queues.machine.run_concat s.queues.reset past i
    obtain ⟨hpulse, hbytes, -, hbits⟩ := pulses (Queues.machine.run s.queues.reset past) i q
    rw [← hqueues] at hpulse hbytes hbits
    refine ⟨?_, ?_⟩
    · have htake : (if 1 < (past ++ [i]).length then
          bytes (admitted s.queues.reset q ((past ++ [i]).take 1)) else 0) =
            bytes (admitted s.queues.reset q (past.take 1)) := by
        by_cases hne : past = []
        · subst hne
          rfl
        · have hpos := List.length_pos_iff.mpr hne
          rw [if_pos (by simp; omega), take_one_concat hne]
      rw [htake, hpulse, bytes_admitted_concat, ← hstored]
      cases hw : (Queues.machine.run s.queues.reset past).metadataWrEn i q with
      | false => simp
      | true =>
        rw [if_pos rfl, if_pos rfl, hbytes hw]
        omega
    · rw [hdropped, hbits, droppedBits_concat]

/-- A packet that begins in a cycle leaves the balance of every port even: in the first cycle its
length is 0 if it is for the port; if it is dropped later, the bit of its length with the number of
the port is what the port should count. -/
def Accounted (t : Sys) (i : Input) : Prop :=
  ∀ w ∈ head t.queues i.stream, ∀ q : Fin 3,
    if t.resetnSyncD then
      t.queues.admits w.tuser = false →
        ((lengthField w.tuser).getLsbD q).toNat =
          if oq w.tuser q then (lengthField w.tuser).toNat else 0
    else oq w.tuser q = true → (lengthField w.tuser).toNat = 0

/-- Stored and dropped bytes are those of the packets for a port, less what begins in the first
cycle. -/
def Balanced (s : Queues) (q : Fin 3) (past : List OutputQueues.Input) : Prop :=
  bytes (admitted s q past) + droppedBits s q past =
    bytes (addressed s q past) + bytes (admitted s q (past.take 1))

theorem bytes_addressed_concat (s : Queues) (q : Fin 3) (past : List OutputQueues.Input)
    (i : OutputQueues.Input) :
    bytes (addressed s.reset q (past ++ [i])) = bytes (addressed s.reset q past) +
      bytes ((head (Queues.machine.run s.reset past) i).filter fun w => oq w.tuser q) := by
  rw [addressed_concat, bytes_append]

theorem shares (t : Queues) (i : OutputQueues.Input) (q : Fin 3) :
    (head t i = [] ∧ t.metadataWrEn i q = false ∧ refused t i = []) ∨
      (head t i = [i.word] ∧ t.admits i.word.tuser = true ∧
        t.metadataWrEn i q = oq i.word.tuser q ∧ refused t i = []) ∨
      (head t i = [i.word] ∧ t.admits i.word.tuser = false ∧ t.metadataWrEn i q = false ∧
        refused t i = [i.word]) := by
  cases hv : i.tvalid <;> cases hs : t.state <;> cases ha : t.admits i.word.tuser <;>
    simp [head, refused, Queues.metadataWrEn, Queues.sTready, noQueue, hv, hs, ha]

theorem bytes_filter (w : Word) (q : Fin 3) :
    bytes ([w].filter fun w => oq w.tuser q) =
      if oq w.tuser q then (lengthField w.tuser).toNat else 0 := by
  cases hq : oq w.tuser q <;> simp [hq]

theorem balanced_first {s : Queues} {q : Fin 3} {i : OutputQueues.Input} :
    Balanced s.reset q [i] ↔
      ∀ w ∈ head s.reset i, oq w.tuser q = true → (lengthField w.tuser).toNat = 0 := by
  have hone : [i].length ≤ 1 := Nat.le_refl 1
  have hbits : droppedBits s.reset q [i] = 0 := by
    unfold droppedBits
    rw [refused_first s hone]
    rfl
  have haddressed : bytes (addressed s.reset q [i]) =
      bytes ((head s.reset i).filter fun w => oq w.tuser q) :=
    (bytes_addressed_concat s q [] i).trans (Nat.zero_add _)
  unfold Balanced
  rw [hbits, haddressed, List.take_of_length_le hone]
  have hhead : head s.reset i = [] ∨ head s.reset i = [i.word] := by
    unfold head
    exact (ite_eq_or_eq _ _ _).symm
  rcases hhead with hhead | hhead
  · rw [hhead]
    simp
  · rw [hhead, bytes_filter]
    cases hq : oq i.word.tuser q with
    | false => simp [hq]
    | true =>
      rw [if_pos rfl]
      simp only [List.mem_singleton, forall_eq, hq, forall_const]
      omega

theorem balanced_later {s : Queues} {q : Fin 3} {past : List OutputQueues.Input}
    (h : Balanced s.reset q past) (hne : past ≠ []) (i : OutputQueues.Input) :
    Balanced s.reset q (past ++ [i]) ↔
      ∀ w ∈ head (Queues.machine.run s.reset past) i,
        (Queues.machine.run s.reset past).admits w.tuser = false →
          ((lengthField w.tuser).getLsbD q).toNat =
            if oq w.tuser q then (lengthField w.tuser).toNat else 0 := by
  unfold Balanced at *
  rw [take_one_concat hne, bytes_admitted_concat, droppedBits_concat, bytes_addressed_concat]
  generalize Queues.machine.run s.reset past = t
  rcases shares t i q with ⟨hhead, hwr, hrefused⟩ | ⟨hhead, hadmits, hwr, hrefused⟩ |
    ⟨hhead, hadmits, hwr, hrefused⟩
  · rw [hhead, hwr, hrefused]
    simpa using h
  · rw [hhead, hwr, hrefused, bytes_filter]
    refine iff_of_true ?_ fun w hw hnot => ?_
    · rw [List.countP_nil]
      omega
    · obtain rfl := List.mem_singleton.mp hw
      rw [hadmits] at hnot
      cases hnot
  · rw [hhead, hwr, hrefused, bytes_filter, List.countP_singleton]
    simp only [List.mem_singleton, forall_eq, hadmits, forall_const]
    cases (lengthField i.word.tuser).getLsbD q with
    | false =>
      simp only [Bool.false_eq_true, if_false, Bool.toNat_false]
      omega
    | true =>
      simp only [Bool.false_eq_true, if_false, if_true, Bool.toNat_true]
      omega

/-- One packet further the balance is even when the packet leaves it so. -/
theorem balanced_concat {s : Sys} {past : List OutputQueues.Input}
    (h : ∀ q, Balanced s.queues.reset q past) (i : OutputQueues.Input) :
    (∀ q, Balanced s.queues.reset q (past ++ [i])) ↔
      Accounted (Sys.machine.run s.reset (past.map plain)) (plain i) := by
  unfold Accounted
  rw [(resetn_run s past).1, queues_run]
  by_cases hne : past = []
  · subst hne
    refine (forall_congr' fun q => balanced_first).trans ?_
    exact ⟨fun h w hw q => h q w hw, fun h q w hw => h w hw q⟩
  · have hpos := List.length_pos_iff.mpr hne
    rw [decide_eq_true hpos]
    refine (forall_congr' fun q => balanced_later (h q) hne i).trans ?_
    exact ⟨fun h w hw q => h q w hw, fun h q w hw => h w hw q⟩

theorem balanced_run (s : Sys) (ins : List OutputQueues.Input) :
    (∀ past, past <+: ins → ∀ q, Balanced s.queues.reset q past) ↔
      Sys.machine.Along Accounted s.reset (ins.map plain) := by
  induction ins using List.reverseRecOn with
  | nil =>
    refine iff_of_true (fun past hpast q => ?_) trivial
    obtain rfl := List.prefix_nil.mp hpast
    rfl
  | append_singleton past i ih =>
    rw [List.map_append, List.map_singleton, Machine.along_concat, ← ih]
    constructor
    · intro h
      have hpast : ∀ p, p <+: past → ∀ q, Balanced s.queues.reset q p :=
        fun p hp => h p (hp.trans (List.prefix_append _ _))
      exact ⟨hpast, (balanced_concat (hpast past List.prefix_rfl) i).mp (h _ List.prefix_rfl)⟩
    · rintro ⟨hpast, hi⟩ p hp
      rcases List.prefix_concat_iff.mp hp with rfl | hp
      · exact (balanced_concat (hpast past List.prefix_rfl) i).mpr hi
      · exact hpast p hp

/-- In every state of a run the byte counters of each port make up for the packets for it before
the last cycle, exactly when every packet leaves the balance even. -/
theorem bytes_balance_iff (s : Sys) (ins : List OutputQueues.Input)
    (fits : ∀ q, Fits s.queues.reset q ins) :
    (∀ (past : List OutputQueues.Input) (next : OutputQueues.Input), past <+: ins → ∀ q : Fin 3,
      let r := (Sys.machine.run s.reset ((past ++ [next]).map plain)).regs q
      r.bytesstored.toNat + r.bytesdropped.toNat = bytes (addressed s.queues.reset q past)) ↔
    Sys.machine.Along Accounted s.reset (ins.map plain) := by
  rw [← balanced_run]
  have hregs : ∀ past, past <+: ins → ∀ (next : OutputQueues.Input) (q : Fin 3),
      (let r := (Sys.machine.run s.reset ((past ++ [next]).map plain)).regs q
      r.bytesstored.toNat + r.bytesdropped.toNat = bytes (addressed s.queues.reset q past)) ↔
        Balanced s.queues.reset q past := by
    rintro past ⟨more, rfl⟩ next q
    obtain ⟨hstored, hdropped⟩ :=
      (accounts_run s q ((fits q).of_append more)).shows ((fits q).of_append more) next rfl
    unfold Balanced
    dsimp only
    omega
  constructor
  · exact fun h past hpast q => (hregs past hpast Queues.quiet q).mp (h past Queues.quiet hpast q)
  · exact fun h past next hpast q => (hregs past hpast next q).mpr (h past hpast q)

instance (t : Sys) (i : Input) : Decidable (Accounted t i) :=
  inferInstanceAs (Decidable (∀ w ∈ _, _))

/-- The balance is even while two packets fill the first queue, and not any more once the third one
is refused. -/
theorem bytes_balance_iff_refused :
    let s := (default : Sys)
    let balanced (ins : List OutputQueues.Input) : Prop :=
      ∀ (past : List OutputQueues.Input) (next : OutputQueues.Input), past <+: ins → ∀ q : Fin 3,
        let r := (Sys.machine.run s.reset ((past ++ [next]).map plain)).regs q
        r.bytesstored.toNat + r.bytesdropped.toNat = bytes (addressed s.queues.reset q past)
    balanced (filling ++ List.replicate 24 pause) ∧ ¬ balanced (filling ++ words 192 2) := by
  intro s balanced
  constructor
  · exact (bytes_balance_iff default (filling ++ List.replicate 24 pause)
      (by unfold Fits; decide +kernel)).mpr (by decide +kernel)
  · intro h
    have hall := (bytes_balance_iff default (filling ++ words 192 2)
      (by unfold Fits; decide +kernel)).mp h
    revert hall
    decide +kernel

/-- No receiver is ready. -/
def paused : OutputQueues.Input := ⟨false, default, fun _ => false⟩

/-- A packet of one word and 64 bytes for the first queue. -/
def packet64 : OutputQueues.Input :=
  ⟨true, ⟨1, 0xffffffffffffffff, 0x1000040, true⟩, fun _ => false⟩

/-- One packet more than the queue has room for. -/
def packets : List OutputQueues.Input := paused :: List.replicate 68 packet64

theorem not_ready_of_mem {i : OutputQueues.Input} (h : i ∈ packets) (q : Fin 3) :
    i.tready q = false := by
  rcases List.mem_cons.mp h with rfl | h
  · rfl
  · rw [List.eq_of_mem_replicate h]
    rfl

theorem word_of_mem {i : OutputQueues.Input} (h : i ∈ packets) (hv : i.tvalid = true) :
    i.word = packet64.word := by
  rcases List.mem_cons.mp h with rfl | h
  · cases hv
  · rw [List.eq_of_mem_replicate h]

theorem admitted_word (s : Queues) {w : Word} (h : w ∈ admitted s 0 packets) :
    w = packet64.word := by
  obtain ⟨t, i, hi, hw⟩ := Queues.machine.mem_collect ((openers_sublist _ _ _).subset h)
  unfold Queues.stored at hw
  split at hw
  · rename_i hwr
    rw [List.mem_singleton.mp hw]
    refine word_of_mem hi ?_
    cases hv : i.tvalid with
    | true => rfl
    | false =>
      have hno : t.wrEn i 0 = false := by simp [Queues.wrEn, hv, noQueue]
      rw [hno] at hwr
      cases hwr
  · cases hw

theorem refused_word (s : Queues) {w : Word} (h : w ∈ Queues.machine.collect refused s packets) :
    w = packet64.word := by
  obtain ⟨t, i, hi, hw⟩ := Queues.machine.mem_collect h
  unfold refused at hw
  split at hw
  · rename_i hwr
    rw [List.mem_singleton.mp hw]
    rw [Bool.and_assoc, Bool.and_eq_true] at hwr
    exact word_of_mem hi hwr.1
  · cases hw

theorem admitted_le (s : Queues) (h : (Queues.offered s.reset packets).Within 25) :
    (admitted s.reset 0 packets).length ≤ 67 := by
  obtain ⟨sent, g, ha, hstored, hhanded⟩ := (Queues.reached_run s h).aligned 0
  have hnone : Queues.machine.collect (Queues.handed 0) s.reset packets = [] := by
    rw [List.eq_nil_iff_forall_not_mem]
    intro w hw
    obtain ⟨t, i, hi, hw⟩ := Queues.machine.mem_collect hw
    simp [Queues.handed, not_ready_of_mem hi 0] at hw
  have hsent : sent = [] := List.map_eq_nil_iff.mp (hhanded.symm.trans hnone)
  have hlen := ha.data.length
  have hbound := ha.data.wf.bound
  have hstaged := FallthroughFifo.staged_le_three ((Queues.machine.run s.reset packets).data 0)
  have hvals : (DelayQueue.mapVals dataWord g).length = g.length := List.length_map _
  have hle := length_openers_le Word.tlast true
    (Queues.machine.collect (Queues.stored 0) s.reset packets)
  rw [hstored, hsent, List.nil_append, DelayQueue.length_vals] at hle
  unfold admitted
  rw [hstored, hsent, List.nil_append]
  omega

theorem bytes_le {heads : List Word} {n : Nat}
    (h : ∀ w ∈ heads, (lengthField w.tuser).toNat ≤ n) : bytes heads ≤ heads.length * n := by
  induction heads with
  | nil => exact Nat.zero_le _
  | cons w heads ih =>
    have hw := h w (List.mem_cons_self ..)
    have hrest := ih fun v hv => h v (List.mem_cons_of_mem _ hv)
    have hbytes : bytes (w :: heads) = (lengthField w.tuser).toNat + bytes heads := rfl
    rw [hbytes, List.length_cons, Nat.succ_mul]
    omega

theorem packets_fit (s : Queues) (h : (Queues.offered s.reset packets).Within 25) :
    bytes (admitted s.reset 0 packets) ≤ 67 * 64 ∧ droppedBits s.reset 0 packets = 0 := by
  constructor
  · have hle : bytes (admitted s.reset 0 packets) ≤ (admitted s.reset 0 packets).length * 64 :=
      bytes_le fun w hw => by rw [admitted_word s.reset hw]; decide
    have hlen := admitted_le s h
    omega
  · rw [droppedBits, List.countP_eq_zero]
    intro w hw
    rw [refused_word s.reset hw]
    decide

/-- Sixty-eight packets of 64 bytes for a port that does not read: the byte counters have less than
their bytes. -/
theorem dropped_bytes_missing :
    let s := (default : Sys)
    let r := (Sys.machine.run s.reset ((packets ++ [paused]).map plain)).regs 0
    Fits s.queues.reset 0 packets ∧ bytes (addressed s.queues.reset 0 packets) = 68 * 64 ∧
      r.bytesstored.toNat + r.bytesdropped.toNat < 68 * 64 := by
  have hwithin : (Queues.offered (default : Sys).queues.reset packets).Within 25 := by
    decide +kernel
  obtain ⟨hbytes, hbits⟩ := packets_fit (default : Sys).queues hwithin
  have fits : Fits (default : Sys).queues.reset 0 packets := ⟨by omega, by omega⟩
  obtain ⟨hstored, hdropped⟩ := (accounts_run default 0 fits).shows fits paused rfl
  refine ⟨fits, by decide +kernel, ?_⟩
  omega

end Osnt.PortCounters
