import Osnt.Proofs.ReferenceDatapath
import Osnt.Proofs.SwitchLookup

namespace Osnt
open Lib
open OutputQueues (DataWord dataWord oq selects)
open SwitchLookup (withPorts stamp)

theorem Lookup.accepted_idle {ρ : Type} (L : Lookup ρ) (t : ρ) {ins : List LookupInput}
    (h : ∀ i ∈ ins, i.tvalid = false ∧ i.tready = true) :
    L.machine.collect L.accepted t ins = [] := by
  refine List.eq_nil_iff_forall_not_mem.mpr fun w hw => ?_
  obtain ⟨t, i, hi, hw⟩ := L.machine.mem_collect hw
  simp [Lookup.accepted, (h i hi).1] at hw

namespace SwitchLookup

theorem withPorts_tuser (w : Word) (ports : BitVec 8) {k : Nat} (hk : k < 8) :
    (withPorts w ports).tuser.getLsbD (24 + k) = ports.getLsbD k := by
  simp only [withPorts, BitVec.getLsbD_append, BitVec.getLsbD_extractLsb']
  rw [if_neg (by omega), if_pos (by omega)]
  simp

theorem oq_withPorts (w : Word) (ports : BitVec 8) (p : Fin 3) :
    oq (withPorts w ports).tuser p = portQueue ports p := by
  match p with
  | 0 => exact withPorts_tuser w ports (show 0 < 8 by decide)
  | 1 => exact withPorts_tuser w ports (show 2 < 8 by decide)
  | 2 =>
    exact congrArg₂ (· || ·) (withPorts_tuser w ports (show 1 < 8 by decide))
      (withPorts_tuser w ports (show 3 < 8 by decide))

theorem stamp_data {first : Bool} {ws : List Word} {ps : List (BitVec 8)}
    (h : ps.length = (openers Word.tlast first ws).length) :
    (stamp first ws ps).map dataWord = ws.map dataWord := by
  induction ws generalizing first ps with
  | nil => cases first <;> rfl
  | cons w ws ih =>
    cases first with
    | false => rw [stamp, List.map_cons, List.map_cons, ih h]
    | true =>
      cases ps with
      | nil => simp [openers] at h
      | cons p ps =>
        have hlen : ps.length = (openers Word.tlast w.tlast ws).length := by
          simpa [openers] using h
        rw [stamp, List.map_cons, List.map_cons, ih hlen]
        rfl

theorem length_openers_packet {pkt : List Word} (h : Packet Word.tlast pkt) :
    (openers Word.tlast true pkt).length = 1 := by
  have hone := openers_packet Word.tlast h []
  rw [List.append_nil] at hone
  rw [hone]
  cases pkt with
  | nil => exact absurd rfl (Packet.ne_nil Word.tlast h)
  | cons w pkt => rfl

theorem stamp_packet_data {pkt : List Word} (h : Packet Word.tlast pkt) (p : BitVec 8) :
    (stamp true pkt [p]).map dataWord = pkt.map dataWord :=
  stamp_data (length_openers_packet h).symm

theorem packet_stamp {pkt : List Word} (h : Packet Word.tlast pkt) (p : BitVec 8) :
    Packet Word.tlast (stamp true pkt [p]) := by
  have hmark : ∀ w : Word, (dataWord w).tlast = w.tlast := fun _ => rfl
  rw [← packet_map Word.tlast hmark, stamp_packet_data h, packet_map Word.tlast hmark]
  exact h

theorem stamp_packets {pkts : List (List Word)} (h : ∀ pkt ∈ pkts, Packet Word.tlast pkt)
    {ps : List (BitVec 8)} (hlen : ps.length = pkts.length) :
    stamp true pkts.flatten ps =
      ((pkts.zip ps).map fun e => stamp true e.1 [e.2]).flatten := by
  induction pkts generalizing ps with
  | nil => rfl
  | cons pkt pkts ih =>
    cases ps with
    | nil => cases hlen
    | cons p ps =>
      have hpkt := h pkt (by simp)
      have hone := length_openers_packet hpkt
      have hsplit := stamp_append true pkt pkts.flatten [p] ps hone.symm
      obtain ⟨ws, w, rfl, -, hl⟩ := hpkt
      rw [opens_concat, hl] at hsplit
      rw [List.flatten_cons, List.zip_cons_cons, List.map_cons, List.flatten_cons,
        ← ih (fun x hx => h x (by simp [hx])) (Nat.succ.inj hlen)]
      exact hsplit

theorem frames_stamp {pkts : List (List Word)} (h : ∀ pkt ∈ pkts, Packet Word.tlast pkt)
    {ps : List (BitVec 8)} (hlen : ps.length = pkts.length) :
    (frames Word.tlast (stamp true pkts.flatten ps)).closed =
      (pkts.zip ps).map fun e => stamp true e.1 [e.2] := by
  rw [stamp_packets h hlen, frames_packets Word.tlast]
  intro out hout
  obtain ⟨e, he, rfl⟩ := List.mem_map.mp hout
  exact packet_stamp (h e.1 (List.of_mem_zip he).1) e.2

theorem selects_stamp {pkt : List Word} (h : Packet Word.tlast pkt) (ports : BitVec 8)
    (p : Fin 3) : selects (stamp true pkt [ports]) p = portQueue ports p := by
  cases pkt with
  | nil => exact absurd rfl (Packet.ne_nil Word.tlast h)
  | cons w pkt => exact oq_withPorts w ports p

theorem stamp_share {pkt : List Word} (h : Packet Word.tlast pkt) (ports : BitVec 8) (v : Bool)
    (p : Fin 3) :
    (if v && selects (stamp true pkt [ports]) p then stamp true pkt [ports] else []).map dataWord =
      if v && portQueue ports p then pkt.map dataWord else [] := by
  rw [selects_stamp h, apply_ite (List.map dataWord), stamp_packet_data h]
  rfl

end SwitchLookup

namespace ReferenceDatapath
variable {ρ : Type} (L : Lookup ρ) (s : Sys ρ) (l : ρ) (ins : List Input)

theorem packet_of_source {ps : List (Fin 3 × List Word)}
    (h : ∀ q, Merge.ofSender q ps = (packets L s l ins q).closed) :
    ∀ e ∈ ps, Packet Word.tlast e.2 := by
  intro e he
  refine packet_of_closed Word.tlast (accepted L s l ins e.1) e.2 ?_
  change e.2 ∈ (packets L s l ins e.1).closed
  rw [← h e.1]
  exact Merge.mem_ofSender he

end ReferenceDatapath
end Osnt
