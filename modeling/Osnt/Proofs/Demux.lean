import Osnt.Proofs.Parser
import Osnt.Proofs.Bram

namespace Osnt.PrePcapStore
open Lib PcapReplay

/-- `tuser[23:16]`, the source port. -/
def srcPort (w : Word) : BitVec 8 := w.tuser.extractLsb' 16 8

/-- The source port of the packet a stream is inside of, if it is inside one: that of
the packet's first word. -/
def framing : Machine (Option (BitVec 8)) Word :=
  ⟨fun inside w => if w.tlast then none else some (inside.getD (srcPort w))⟩

/-- The words of a stream that belong to packets with source port `p`. -/
def wordsOf (p : BitVec 8) (ws : List Word) : List Word :=
  framing.collect (fun inside w => if inside.getD (srcPort w) = p then [w] else []) none ws

/-- No packet of a stream of beats begins like a stamp frame. -/
def Plain : Bool → List Beat → Prop
  | _, [] => True
  | first, b :: bs => (first = true → b.tsSignatureEn = false) ∧ Plain b.tlast bs

theorem Plain.append {first : Bool} {bs cs : List Beat} (h : Plain first (bs ++ cs)) :
    Plain first bs := by
  induction bs generalizing first with
  | nil => trivial
  | cons b bs ih => exact ⟨h.1, ih h.2⟩

instance : (first : Bool) → (bs : List Beat) → Decidable (Plain first bs)
  | _, [] => isTrue trivial
  | _, b :: bs =>
    have : Decidable (Plain b.tlast bs) := instDecidablePlain b.tlast bs
    inferInstanceAs (Decidable (_ ∧ _))

/-- A stream without stamp frames passes the parser as it is. -/
theorem parse_plain {bs : List Beat} (h : Plain true bs) : Conv.parse bs = bs := by
  have hgen : ∀ (first : Bool) (bs : List Beat), Plain first bs →
      Conv.parser.collect Conv.emit ⟨if first then .idle else .pass, 0⟩ bs = bs := by
    intro first bs
    induction bs generalizing first with
    | nil => exact fun _ => rfl
    | cons b bs ih =>
      intro hp
      have hemit : Conv.emit ⟨if first then .idle else .pass, 0⟩ b = [b] := by
        cases first with
        | false => simp [Conv.emit, Conv.settle, Conv.comb]
        | true => simp [Conv.emit, Conv.settle, Conv.comb, hp.1 rfl]
      have hfeed : Conv.feed ⟨if first then .idle else .pass, 0⟩ b =
          ⟨if b.tlast then .idle else .pass, 0⟩ := by
        cases first with
        | false => simp [Conv.feed, Conv.settle, Conv.comb]
        | true => simp [Conv.feed, Conv.settle, Conv.comb, hp.1 rfl]
      rw [Machine.collect_cons, hemit]
      change [b] ++ Conv.parser.collect Conv.emit (Conv.feed _ b) bs = _
      rw [hfeed, ih _ hp.2]
      rfl
  exact hgen true bs h

namespace Loader

/-- Words the host has handed over. -/
def arrived (s : Loader) (ins : List LoaderInput) : List Word :=
  Store.machine.collect Store.accepted s.store (ins.map storeInput)

/-- Words that have left the store. -/
def emerged (s : Loader) (ins : List LoaderInput) : List Word :=
  Store.machine.collect Store.emerging s.store (ins.map storeInput)

/-- The source ports that stood on the host's stream in the cycles in which a word
left the store. -/
def livePorts (s : Loader) (ins : List LoaderInput) : List (BitVec 8) :=
  machine.collect
    (fun t i => if t.store.mWord.isSome then [srcPort i.axis.word] else []) s ins

/-- A word that leaves the store belongs to a packet of port `p` exactly if the host's
stream has shown `p` in its cycle or in that of a word before it. -/
def PortsAgree (p : BitVec 8) (s : Loader) (ins : List LoaderInput) : Prop :=
  ∀ past i, past ++ [i] <+: ins → ∀ w ∈ (machine.run s past).store.mWord,
    ((framing.run none (emerged s past)).getD (srcPort w) = p ↔ p ∈ livePorts s (past ++ [i]))

theorem run_store (s : Loader) (ins : List LoaderInput) :
    (machine.run s ins).store = Store.machine.run s.store (ins.map storeInput) :=
  machine.run_view Store.machine (fun t => t.store) storeInput (fun _ _ => rfl) s ins

theorem emerged_concat (s : Loader) (past : List LoaderInput) (i : LoaderInput) :
    emerged s (past ++ [i]) = emerged s past ++ (machine.run s past).store.mWord.toList := by
  have hr : ∀ t : Store, t.emerging (storeInput i) = t.mWord.toList := by
    intro t
    cases hd : t.mFifo.doutValid <;>
      simp [Store.emerging, Store.mRdEn, storeInput, Store.mWord, FallthroughFifo.empty, hd]
  rw [emerged, List.map_append, List.map_singleton, Machine.collect_concat, hr, ← run_store]
  rfl

theorem wordsOf_concat (p : BitVec 8) (ws : List Word) (w : Word) :
    wordsOf p (ws ++ [w]) =
      wordsOf p ws ++ if (framing.run none ws).getD (srcPort w) = p then [w] else [] := by
  simp [wordsOf]

section Queue
/- One of the two write machines, and its own `wr_done`. -/
variable {p : BitVec 8} (wr : Loader → WrMachine) (done : LoaderInput → Bool)
  (hwr : ∀ t i, wr (t.step i) = (wr t).step p (t.wrInput i (done i)))

/-- What the machine writes in a cycle. -/
def writes (p : BitVec 8) (t : Loader) (i : LoaderInput) : List MemWord :=
  let n := (wr t).next p (t.wrInput i (done i))
  if n.we then [n.data] else []

include hwr

/-- Until its `wr_done` the machine has left its idle state exactly if its port was
live when a word came. -/
theorem state_run {s : Loader} (h0 : wr s = .reset) (ins : List LoaderInput)
    (hq : ∀ i ∈ ins, i.swRst = false ∧ done i = false) :
    (wr (machine.run s ins)).state = if p ∈ livePorts s ins then .wr else .idle := by
  refine machine.run_keeps (machine.along_of_forall hq)
    (fun past t => (wr t).state = if p ∈ livePorts s past then .wr else .idle)
    (by simp [h0, WrMachine.reset, livePorts]) ?_
  intro past i hp hi
  change (wr ((machine.run s past).step i)).state = _
  rw [hwr, livePorts, Machine.collect_concat, ← livePorts]
  generalize machine.run s past = t at hp ⊢
  by_cases hm : p ∈ livePorts s past
  · rw [if_pos hm] at hp
    cases hw : t.store.mWord <;>
      simp [WrMachine.step, WrMachine.next, wrInput, hp, hi, hm, hw]
  · rw [if_neg hm] at hp
    cases hw : t.store.mWord with
    | none => simp [WrMachine.step, WrMachine.next, wrInput, hp, hi, hm, hw]
    | some w =>
      by_cases hl : p = srcPort i.axis.word
      · simp [WrMachine.step, WrMachine.next, hp, wrInput, hi, hw, hl, srcPort]
      · have hl' : ¬ BitVec.extractLsb' 16 8 i.axis.word.tuser = p := fun he => hl he.symm
        simp [WrMachine.step, WrMachine.next, hp, wrInput, hi, hw, hm, hl, hl']

/-- Until its `wr_done` the machine writes the word that leaves the store if its port
has been live by then. -/
theorem writes_run {s : Loader} (h0 : wr s = .reset) {past : List LoaderInput} {i : LoaderInput}
    (hq : ∀ j ∈ past ++ [i], j.swRst = false ∧ done j = false) :
    writes wr done p (machine.run s past) i =
      if p ∈ livePorts s (past ++ [i]) then
        (machine.run s past).store.mWord.toList.map .pack
      else [] := by
  have hs := state_run wr done hwr h0 past (fun j hj => hq j (by simp [hj]))
  have hi := hq i (by simp)
  rw [livePorts, Machine.collect_concat, ← livePorts]
  generalize machine.run s past = t at hs ⊢
  by_cases hm : p ∈ livePorts s past
  · rw [if_pos hm] at hs
    cases hw : t.store.mWord <;> simp [writes, WrMachine.next, wrInput, hs, hi, hm, hw]
  · rw [if_neg hm] at hs
    cases hw : t.store.mWord with
    | none => simp [writes, WrMachine.next, wrInput, hs, hw]
    | some w =>
      by_cases hl : p = srcPort i.axis.word
      · simp [writes, WrMachine.next, wrInput, hs, hw, hl, srcPort]
      · have hl' : ¬ BitVec.extractLsb' 16 8 i.axis.word.tuser = p := fun he => hl he.symm
        simp [writes, WrMachine.next, wrInput, hs, hw, hm, hl, hl']

/-- The machine writes exactly the words of its port in the runs in which the ports
agree. -/
theorem writes_iff {s : Loader} (h0 : wr s = .reset) (ins : List LoaderInput)
    (hq : ∀ i ∈ ins, i.swRst = false ∧ done i = false) :
    (∀ past, past <+: ins →
      machine.collect (writes wr done p) s past = (wordsOf p (emerged s past)).map .pack) ↔
      PortsAgree p s ins := by
  have hstep : ∀ past i, past ++ [i] <+: ins →
      machine.collect (writes wr done p) s past = (wordsOf p (emerged s past)).map .pack →
      (machine.collect (writes wr done p) s (past ++ [i]) =
          (wordsOf p (emerged s (past ++ [i]))).map .pack ↔
        ∀ w ∈ (machine.run s past).store.mWord,
          ((framing.run none (emerged s past)).getD (srcPort w) = p ↔
            p ∈ livePorts s (past ++ [i]))) := by
    intro past i hpre heq
    have hw := writes_run wr done hwr h0 (fun j hj => hq j (hpre.subset hj))
    rw [Machine.collect_concat, heq, hw, emerged_concat]
    cases hm : (machine.run s past).store.mWord with
    | none => simp
    | some w =>
      rw [Option.toList_some, wordsOf_concat, List.map_append, List.append_right_inj]
      by_cases h1 : p ∈ livePorts s (past ++ [i]) <;>
        by_cases h2 : (framing.run none (emerged s past)).getD (srcPort w) = p <;>
        simp [h1, h2]
  refine ⟨?_, ?_⟩
  · intro h past i hpre
    exact (hstep past i hpre (h past (List.IsPrefix.trans ⟨[i], rfl⟩ hpre))).mp (h _ hpre)
  · intro h past
    induction past using List.reverseRecOn with
    | nil => exact fun _ => rfl
    | append_singleton past i ih =>
      intro hpre
      exact (hstep past i hpre (ih (List.IsPrefix.trans ⟨[i], rfl⟩ hpre))).mpr (h past i hpre)

end Queue

/-- Without losses and stamp frames the words that have left the store are, in order,
the first of those that have arrived. -/
theorem emerged_of_arrived {cv : Converters} {s : Loader} {ins past : List LoaderInput}
    (hconv : cv.Lossless s.store.reset (ins.map storeInput))
    (hpaced : Store.Paced s.store.reset (ins.map storeInput))
    (hplain : Plain true ((arrived s.reset ins).flatMap cv.split)) (hp : past <+: ins) :
    emerged s.reset past <+: arrived s.reset past := by
  have hp' : past.map storeInput <+: ins.map storeInput := hp.map _
  have hpre := Store.emerged_prefix hconv hp'
  rw [Store.noLoss_of_paced hpaced _ hp'] at hpre
  have hpast : Plain true ((arrived s.reset past).flatMap cv.split) := by
    obtain ⟨later, rfl⟩ := hp
    rw [arrived, List.map_append, Machine.collect_append, List.flatMap_append] at hplain
    exact hplain.append
  have hparse := parse_plain hpast
  rw [arrived] at hparse
  change emerged s.reset past <+: cv.merge (Conv.parse ((Store.machine.collect Store.accepted
    s.reset.store (past.map storeInput)).flatMap cv.split)) at hpre
  rw [hparse, cv.merge_split] at hpre
  exact hpre

/-- The loader demultiplexes the host's packets, queue by queue until its `wr_done`,
exactly in the runs in which the port on the host's stream agrees with the words
that leave the store. -/
theorem demux_iff (cv : Converters) (s : Loader) (ins : List LoaderInput)
    (hconv : cv.Lossless s.store.reset (ins.map storeInput))
    (hpaced : Store.Paced s.store.reset (ins.map storeInput))
    (hplain : Plain true ((arrived s.reset ins).flatMap cv.split))
    (hrst : ∀ i ∈ ins, i.swRst = false) :
    (∀ past, past <+: ins → emerged s.reset past <+: arrived s.reset past) ∧
      ((∀ i ∈ ins, i.q0WrDone = false) →
        ((∀ past, past <+: ins → machine.collect written0 s.reset past =
          (wordsOf 0x02 (emerged s.reset past)).map .pack) ↔ PortsAgree 0x02 s.reset ins)) ∧
      ((∀ i ∈ ins, i.q1WrDone = false) →
        ((∀ past, past <+: ins → machine.collect written1 s.reset past =
          (wordsOf 0x08 (emerged s.reset past)).map .pack) ↔ PortsAgree 0x08 s.reset ins)) := by
  refine ⟨fun past hp => emerged_of_arrived hconv hpaced hplain hp, ?_, ?_⟩
  · intro hdone
    exact writes_iff (fun t => t.wr0) (fun i => i.q0WrDone) (fun _ _ => rfl) rfl ins
      (fun i hi => ⟨hrst i hi, hdone i hi⟩)
  · intro hdone
    exact writes_iff (fun t => t.wr1) (fun i => i.q1WrDone) (fun _ _ => rfl) rfl ins
      (fun i hi => ⟨hrst i hi, hdone i hi⟩)

/-- The cycles in which a word passes a store that is otherwise empty; `beats` is what the parser is
shown. The host keeps its lines as they were, with tvalid low. -/
def passing (w : Word) (beats : List Beat) : List LoaderInput :=
  let hold : StoreInput := ⟨false, w, true, none, true, none, true⟩
  let shown := beats.map (fun b => { hold with conv512Out := some b })
  let cycles := { hold with tvalid := true } :: List.replicate 3 hold ++
    shown ++ { hold with conv128Out := some w } :: List.replicate 3 hold
  cycles.map (fun i => ⟨i, false, false, false⟩)

/-- The first word of a packet, for whose first beat the parser takes one cycle more. -/
def carry (w : Word) : List LoaderInput :=
  passing w ((fourBeats w).head?.toList ++ fourBeats w)

/-- A word inside of a packet. -/
def carryOn (w : Word) : List LoaderInput := passing w (fourBeats w)

/-- A packet of two words of port `8'h02`, and after it one of port `8'h08`: BRAM 1 gets the second
packet and nothing else, but BRAM 0 does not get the first one alone. -/
theorem demux_iff_two :
    let ws : List Word := [⟨1, 0xffffffffffffffff, 0x20000, false⟩,
      ⟨2, 0xffffffffffffffff, 0, true⟩, ⟨3, 0xffffffffffffffff, 0x80000, false⟩,
      ⟨4, 0xffffffffffffffff, 0, true⟩]
    let ins := carry ⟨1, 0xffffffffffffffff, 0x20000, false⟩ ++
      carryOn ⟨2, 0xffffffffffffffff, 0, true⟩ ++
      carry ⟨3, 0xffffffffffffffff, 0x80000, false⟩ ++ carryOn ⟨4, 0xffffffffffffffff, 0, true⟩
    arrived (default : Loader).reset ins = ws ∧
      emerged (default : Loader).reset ins <+: arrived (default : Loader).reset ins ∧
      machine.collect written1 (default : Loader).reset ins =
        (wordsOf 0x08 (emerged (default : Loader).reset ins)).map .pack ∧
      ¬ ∀ past, past <+: ins → machine.collect written0 (default : Loader).reset past =
        (wordsOf 0x02 (emerged (default : Loader).reset past)).map .pack := by
  intro ws ins
  have hconv : fourLanes.Lossless (default : Store).reset (ins.map storeInput) :=
    ⟨forall_snoc (by decide +kernel), forall_snoc (by decide +kernel)⟩
  have hpaced : Store.Paced (default : Store).reset (ins.map storeInput) :=
    forall_snoc (by decide +kernel)
  have harrived : arrived (default : Loader).reset ins = ws := by decide +kernel
  have hplain : Plain true ((arrived (default : Loader).reset ins).flatMap fourLanes.split) := by
    rw [harrived]
    decide +kernel
  have hagree : PortsAgree 0x08 (default : Loader).reset ins := forall_snoc (by decide +kernel)
  obtain ⟨hpre, -, h1⟩ := demux_iff fourLanes default ins hconv hpaced hplain (by decide +kernel)
  refine ⟨harrived, hpre ins (List.prefix_refl _),
    (h1 (by decide +kernel)).mpr hagree ins (List.prefix_refl _), fun hall => ?_⟩
  exact absurd (hall ins (List.prefix_refl _)) (by decide +kernel)

/-- A packet of port `8'h02` and after it one of port `8'h08`: the write machine of the
first port has not gone back to idle and takes both. -/
theorem demux_mixes_ports :
    let w : Word := ⟨1, 0xffffffffffffffff, 0x20000, true⟩
    let v : Word := ⟨2, 0xffffffffffffffff, 0x80000, true⟩
    let ins := carry w ++ carry v
    fourLanes.Lossless (default : Store).reset (ins.map storeInput) ∧
      arrived (default : Loader).reset ins = [w, v] ∧
      machine.collect written0 (default : Loader).reset ins = [.pack w, .pack v] ∧
      machine.collect written0 (default : Loader).reset ins ≠ (wordsOf 0x02 [w, v]).map .pack := by
  intro w v ins
  have hw : machine.collect written0 (default : Loader).reset ins = [.pack w, .pack v] := by
    decide +kernel
  have hof : wordsOf 0x02 [w, v] = [w] := by decide +kernel
  refine ⟨⟨forall_snoc (by decide +kernel), forall_snoc (by decide +kernel)⟩, by decide +kernel,
    hw, ?_⟩
  rw [hw, hof]
  intro he
  cases congrArg List.length he

end Loader
end Osnt.PrePcapStore
