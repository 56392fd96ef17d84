import Osnt.PrePcapStore
import Osnt.Proofs.Fifo

namespace Osnt.PrePcapStore.Store
open Lib

theorem full_of_sWrEn {s : Store} {i : StoreInput} (h : s.sWrEn i = true) :
    s.sFifo.full = false := by
  simp only [sWrEn, Bool.and_eq_true, Bool.not_eq_true'] at h
  exact FallthroughFifo.full_of_nearlyFull h.2

theorem toConv512_eq (s : Store) (i : StoreInput) :
    s.toConv512 i = if s.sRdEn i && s.sFifo.doutValid then [s.sFifo.dout] else [] := by
  cases hd : s.sFifo.doutValid <;> simp [toConv512, sRdEn, FallthroughFifo.empty, hd]

/-- Words written into the input FIFO have left it for the converter or wait in it. -/
theorem stored_run (s : Store) (ins : List StoreInput) :
    (machine.run s.reset ins).sFifo.Sound ∧
      machine.collect stored s.reset ins =
        machine.collect toConv512 s.reset ins ++ (machine.run s.reset ins).sFifo.contents := by
  have hout : toConv512 =
      fun t i => if t.sRdEn i && t.sFifo.doutValid then [t.sFifo.dout] else [] :=
    funext₂ toConv512_eq
  have hflow := FallthroughFifo.flow_run machine (fun _ => True) (fun t => t.sFifo) sWrEn sRdEn
    (fun _ i => i.word) (fun _ _ _ => rfl) (fun _ _ _ => full_of_sWrEn) (s := s.reset)
    (FallthroughFifo.sound_reset _) (fun i (_ : i ∈ ins) => trivial)
  rw [← hout] at hflow
  have hnil : s.reset.sFifo.contents = [] := FallthroughFifo.contents_reset _
  rw [hnil, List.nil_append] at hflow
  exact hflow

/-- Every word the handshake takes is written into the input FIFO, at once and once. -/
def NoLoss (s : Store) (ins : List StoreInput) : Prop :=
  ∀ past, past <+: ins → machine.collect stored s past = machine.collect accepted s past

/-- Whenever a word is offered, fewer than 31 of the words accepted before it wait
behind the three output registers of the FIFO. -/
def Paced (s : Store) (ins : List StoreInput) : Prop :=
  ∀ past i, past ++ [i] <+: ins → i.tvalid = true →
    (machine.collect accepted s past).length <
      (machine.collect toConv512 s past).length + (machine.run s past).sFifo.staged + 31

theorem nearlyFull_iff_backlog (f : FallthroughFifo Word 5) :
    f.nearlyFull = false ↔ f.contents.length < f.staged + 31 := by
  have hl := f.length_contents
  simp only [FallthroughFifo.nearlyFull, SmallFifo.nearlyFull, decide_eq_false_iff_not]
  omega

/-- As long as nothing is lost, a word is refused exactly when the backlog is 31. -/
theorem nearlyFull_iff_paced (s : Store) (past : List StoreInput)
    (h : machine.collect stored s.reset past = machine.collect accepted s.reset past) :
    (machine.run s.reset past).sFifo.nearlyFull = false ↔
      (machine.collect accepted s.reset past).length <
        (machine.collect toConv512 s.reset past).length +
          (machine.run s.reset past).sFifo.staged + 31 := by
  rw [nearlyFull_iff_backlog, ← h, (stored_run s past).2, List.length_append]
  omega

theorem accepted_eq (s : Store) (i : StoreInput) :
    s.accepted i = if i.tvalid then [i.word] else [] := by simp [accepted, sTready]

theorem paced_of_noLoss {s : Store} {ins : List StoreInput} (h : NoLoss s.reset ins) :
    Paced s.reset ins := by
  intro past i hpre hv
  have h1 := h past (List.IsPrefix.trans ⟨[i], rfl⟩ hpre)
  have h2 := h (past ++ [i]) hpre
  rw [Machine.collect_concat, Machine.collect_concat, h1] at h2
  have h3 := List.append_cancel_left h2
  rw [← nearlyFull_iff_paced s past h1]
  cases hn : (machine.run s.reset past).sFifo.nearlyFull with
  | false => rfl
  | true => simp [stored, sWrEn, accepted_eq, hv, hn] at h3

theorem noLoss_of_paced {s : Store} {ins : List StoreInput} (h : Paced s.reset ins) :
    NoLoss s.reset ins := by
  intro past
  induction past using List.reverseRecOn with
  | nil => exact fun _ => rfl
  | append_singleton past i ih =>
    intro hpre
    have h1 := ih (List.IsPrefix.trans ⟨[i], rfl⟩ hpre)
    rw [Machine.collect_concat, Machine.collect_concat, h1]
    cases hv : i.tvalid with
    | false => simp [stored, sWrEn, accepted_eq, hv]
    | true =>
      have hn := (nearlyFull_iff_paced s past h1).mpr (h past i hpre hv)
      simp [stored, sWrEn, accepted_eq, hv, hn]

/-- The store loses no word exactly in the runs in which the host stays within the
room the converter leaves it. -/
theorem noLoss_iff (s : Store) (ins : List StoreInput) :
    NoLoss s.reset ins ↔ Paced s.reset ins :=
  ⟨paced_of_noLoss, noLoss_of_paced⟩

/-- Fifty words back to back, into a converter that takes one in four cycles. -/
theorem words_lost_of_burst :
    let ins : List StoreInput := (List.range 50).map (fun k =>
      ⟨true, ⟨BitVec.ofNat 512 k, 0xff, 0x20000, true⟩, k % 4 == 0, none, true, none, true⟩)
    (machine.collect accepted (default : Store).reset ins).length = 50 ∧
      (machine.collect stored (default : Store).reset ins).length = 45 ∧
      ¬ NoLoss (default : Store).reset ins := by
  intro ins
  have ha : (machine.collect accepted (default : Store).reset ins).length = 50 := by
    decide +kernel
  have hs : (machine.collect stored (default : Store).reset ins).length = 45 := by
    decide +kernel
  refine ⟨ha, hs, ?_⟩
  intro h
  rw [h ins (List.prefix_refl _), ha] at hs
  cases hs

end Osnt.PrePcapStore.Store
