import Osnt.PacketHistory

/-! The output of `packet_history`: whatever the parser does, packets leave in order and each
behind two words. -/
namespace Osnt.PacketHistory
open Lib

/-- What a cycle can hand over. -/
inductive Cycle (s : History) (i : Ports) : Prop
  | nothing (sent : s.sent i = []) (forwarded : s.forwarded i = []) (rd : s.tupleRdEn i = false)
    (wr : s.wrMemEnNext i = false) (next : s.stateNext i = s.state)
  | first (state : s.state = .firstBatch) (tuples : s.tupleFifo ≠ [])
    (sent : s.sent i = [s.firstWord i]) (forwarded : s.forwarded i = [])
    (rd : s.tupleRdEn i = false) (wr : s.wrMemEnNext i = true) (next : s.stateNext i = .secondBatch)
  | second (state : s.state = .secondBatch) (sent : s.sent i = [s.secondWord i])
    (forwarded : s.forwarded i = []) (rd : s.tupleRdEn i = true) (wr : s.wrMemEnNext i = false)
    (next : s.stateNext i = .sendPacket)
  | word (w : Beat) (ws : List Beat) (state : s.state = .sendPacket)
    (words : s.inputFifo = w :: ws) (sent : s.sent i = [w]) (forwarded : s.forwarded i = [w])
    (rd : s.tupleRdEn i = false) (wr : s.wrMemEnNext i = false)
    (next : s.stateNext i = if w.tlast then .firstBatch else .sendPacket)

theorem cycle (s : History) (i : Ports) : Cycle s i := by
  cases hst : s.state with
  | firstBatch =>
    have hrd : s.tupleRdEn i = false := by simp [History.tupleRdEn, hst]
    have hfwd : s.forwarded i = [] := by simp [History.forwarded, History.inputRdEn, hst]
    cases hwr : s.wrMemEnNext i with
    | false =>
      exact .nothing (by simp [History.sent, hst, hwr]) hfwd hrd hwr
        (by simp [History.stateNext, hst, hwr])
    | true =>
      have hne : s.tupleFifo ≠ [] := by
        rintro h
        simp [History.wrMemEnNext, h] at hwr
      exact .first hst hne (by simp [History.sent, hst, hwr]) hfwd hrd hwr
        (by simp [History.stateNext, hst, hwr])
  | secondBatch =>
    have hwr : s.wrMemEnNext i = false := by simp [History.wrMemEnNext, hst]
    have hfwd : s.forwarded i = [] := by simp [History.forwarded, History.inputRdEn, hst]
    cases hrd : s.tupleRdEn i with
    | false =>
      exact .nothing (by simp [History.sent, hst, hrd]) hfwd hrd hwr
        (by simp [History.stateNext, hst, hrd])
    | true =>
      exact .second hst (by simp [History.sent, hst, hrd]) hfwd hrd hwr
        (by simp [History.stateNext, hst, hrd])
  | sendPacket =>
    have hrd : s.tupleRdEn i = false := by simp [History.tupleRdEn, hst]
    have hwr : s.wrMemEnNext i = false := by simp [History.wrMemEnNext, hst]
    cases hen : s.inputRdEn i with
    | false =>
      exact .nothing (by simp [History.sent, hst, hen]) (by simp [History.forwarded, hen]) hrd hwr
        (by simp [History.stateNext, hst, hen])
    | true =>
      cases hq : s.inputFifo with
      | nil => simp [History.inputRdEn, hq] at hen
      | cons w ws =>
        have hin : s.inFifo i = w := by simp [History.inFifo, hq]
        exact .word w ws hst hq (by simp [History.sent, hst, hen, hin])
          (by simp [History.forwarded, hen, hin]) hrd hwr
          (by simp [History.stateNext, hst, hen, hin])

/-- The tuples read from `tuple_fifo`. -/
def History.taken (s : History) (i : Ports) : List Tuple :=
  if s.tupleRdEn i then s.tupleFifo.take 1 else []

theorem forwarded_append (s : History) (i : Ports) :
    s.forwarded i ++ (if s.inputRdEn i then s.inputFifo.tail else s.inputFifo) = s.inputFifo := by
  rw [History.forwarded, History.inFifo]
  cases hen : s.inputRdEn i with
  | false => rfl
  | true =>
    cases hq : s.inputFifo with
    | nil => simp [History.inputRdEn, hq] at hen
    | cons w ws => rfl

theorem taken_append (s : History) (i : Ports) :
    s.taken i ++ (if s.tupleRdEn i then s.tupleFifo.tail else s.tupleFifo) = s.tupleFifo := by
  rw [History.taken]
  cases s.tupleRdEn i with
  | false => rfl
  | true => cases s.tupleFifo <;> rfl

theorem inputFifo_length (s : History) (i : Ports) :
    (s.forwarded i).length + (s.step i).inputFifo.length =
      s.inputFifo.length + (s.accepted i).length := by
  have hin : (s.step i).inputFifo =
    (if s.inputRdEn i then s.inputFifo.tail else s.inputFifo) ++ s.accepted i := rfl
  have hcut := congrArg List.length (forwarded_append s i)
  rw [List.length_append] at hcut
  rw [hin, List.length_append]
  omega

theorem tupleFifo_length (s : History) (i : Ports) :
    (s.taken i).length + (s.step i).tupleFifo.length = s.tupleFifo.length + s.written.length := by
  have htup : (s.step i).tupleFifo =
    (if s.tupleRdEn i then s.tupleFifo.tail else s.tupleFifo) ++ s.written := rfl
  have hcut := congrArg List.length (taken_append s i)
  rw [List.length_append] at hcut
  rw [htup, List.length_append]
  omega

section Output
variable {P Q : Nat → Beat → Prop} {out fwd : List Beat}

/-- What has been handed over for the packet at hand, of which `rest` has been sent. -/
def Begun (P Q : Nat → Beat → Prop) (k : Nat) (rest : List Beat) : State → List Beat → Prop
  | .firstBatch, o => rest = [] ∧ o = []
  | .secondBatch, o => rest = [] ∧ ∃ a, P k a ∧ o = [a]
  | .sendPacket, o => ∃ a b, P k a ∧ Q k b ∧ o = [a, b] ++ rest

/-- The output is the packets sent, each behind its history words, and what has been handed over
for the next. -/
def Woven (P Q : Nat → Beat → Prop) (out fwd : List Beat) (st : State) : Prop :=
  ∃ hs o, hs.length = (frames Beat.tlast fwd).closed.length ∧
    (∀ k h, hs[k]? = some h → IsHistory P Q k h) ∧
    out = headed hs (frames Beat.tlast fwd).closed ++ o ∧
    Begun P Q (frames Beat.tlast fwd).closed.length (frames Beat.tlast fwd).rest st o

theorem histories_concat {hs : List (List Beat)} {a b : Beat}
    (h : ∀ k h, hs[k]? = some h → IsHistory P Q k h) (ha : P hs.length a) (hb : Q hs.length b) :
    ∀ k h, (hs ++ [[a, b]])[k]? = some h → IsHistory P Q k h := by
  intro k c hk
  rw [List.getElem?_append] at hk
  split at hk
  next => exact h k c hk
  next hge =>
    rw [List.getElem?_singleton] at hk
    split at hk
    next hz =>
      obtain rfl : k = hs.length := by omega
      exact ⟨a, b, (Option.some.inj hk).symm, ha, hb⟩
    next => cases hk

theorem Woven.word {w : Beat} (h : Woven P Q out fwd .sendPacket) :
    Woven P Q (out ++ [w]) (fwd ++ [w]) (if w.tlast then .firstBatch else .sendPacket) := by
  obtain ⟨hs, o, hlen, hhs, rfl, a, b, ha, hb, rfl⟩ := h
  rw [Woven, frames_concat]
  cases hl : w.tlast with
  | false =>
    rw [Frames.push_inner _ hl]
    refine ⟨hs, [a, b] ++ ((frames Beat.tlast fwd).rest ++ [w]), hlen, hhs, ?_, a, b, ha, hb, rfl⟩
    rw [List.append_assoc, List.append_assoc]
  | true =>
    rw [Frames.push_last _ hl]
    rw [← hlen] at ha hb
    refine ⟨hs ++ [[a, b]], [], ?_, histories_concat hhs ha hb, ?_, rfl, rfl⟩
    · rw [List.length_append, List.length_append, hlen]
      rfl
    · rw [headed_append hlen, List.append_nil, List.append_assoc]
      simp [headed]

theorem Woven.step {s : History} (h : Woven P Q out fwd s.state) (i : Ports)
    (hP : s.state = .firstBatch → P (frames Beat.tlast fwd).closed.length (s.firstWord i))
    (hQ : s.state = .secondBatch → Q (frames Beat.tlast fwd).closed.length (s.secondWord i)) :
    Woven P Q (out ++ s.sent i) (fwd ++ s.forwarded i) (s.stateNext i) := by
  cases cycle s i with
  | nothing sent forwarded rd wr next =>
    rw [sent, forwarded, next, List.append_nil, List.append_nil]
    exact h
  | first state tuples sent forwarded rd wr next =>
    rw [state] at h
    rw [sent, forwarded, next, List.append_nil]
    obtain ⟨hs, o, hlen, hhs, rfl, hrest, rfl⟩ := h
    refine ⟨hs, [s.firstWord i], hlen, hhs, ?_, hrest, s.firstWord i, hP state, rfl⟩
    rw [List.append_nil]
  | second state sent forwarded rd wr next =>
    rw [state] at h
    rw [sent, forwarded, next, List.append_nil]
    obtain ⟨hs, o, hlen, hhs, rfl, hrest, a, ha, rfl⟩ := h
    refine ⟨hs, [a, s.secondWord i], hlen, hhs, ?_, a, s.secondWord i, ha, hQ state, ?_⟩
    · rw [List.append_assoc]
      rfl
    · rw [hrest]
      rfl
  | word w ws state words sent forwarded rd wr next =>
    rw [state] at h
    rw [sent, forwarded, next]
    exact h.word

theorem exists_histories {hs : List (List Beat)} (hhs : ∀ k h, hs[k]? = some h → IsHistory P Q k h)
    (hP : ∀ k, ∃ a, P k a) (hQ : ∀ k, ∃ b, Q k b) (m : Nat) :
    ∃ hs', hs'.length = m ∧ ∀ k h, (hs ++ hs')[k]? = some h → IsHistory P Q k h := by
  induction m with
  | zero => exact ⟨[], rfl, by simpa using hhs⟩
  | succ m ih =>
    obtain ⟨hs', hlen, hall⟩ := ih
    obtain ⟨a, ha⟩ := hP (hs ++ hs').length
    obtain ⟨b, hb⟩ := hQ (hs ++ hs').length
    refine ⟨hs' ++ [[a, b]], by simp [hlen], ?_⟩
    rw [← List.append_assoc]
    exact histories_concat hall ha hb

/-- What has been handed over for a packet is a beginning of the packet behind some history. -/
theorem Begun.begins {k : Nat} {rest o pkt : List Beat} {st : State} (h : Begun P Q k rest st o)
    (hP : ∃ a, P k a) (hQ : ∃ b, Q k b) (hpkt : rest <+: pkt) :
    ∃ a b, P k a ∧ Q k b ∧ o <+: [a, b] ++ pkt := by
  obtain ⟨a₀, ha₀⟩ := hP
  obtain ⟨b₀, hb₀⟩ := hQ
  cases st with
  | firstBatch => exact ⟨a₀, b₀, ha₀, hb₀, h.2 ▸ List.nil_prefix⟩
  | secondBatch =>
    obtain ⟨-, a, ha, rfl⟩ := h
    exact ⟨a, b₀, ha, hb₀, b₀ :: pkt, rfl⟩
  | sendPacket =>
    obtain ⟨a, b, ha, hb, rfl⟩ := h
    exact ⟨a, b, ha, hb, (List.prefix_append_right_inj _).mpr hpkt⟩

/-- The output of a block that has a packet for every history it has begun. -/
theorem Woven.delivers {pkts : List (List Beat)} {vs : List Beat} {st : State}
    (h : Woven P Q out fwd st) (hpkts : ∀ pkt ∈ pkts, Packet Beat.tlast pkt)
    (hcut : fwd ++ vs = pkts.flatten)
    (hmore : st ≠ .firstBatch → (frames Beat.tlast fwd).closed.length < pkts.length)
    (hP : ∀ k, ∃ a, P k a) (hQ : ∀ k, ∃ b, Q k b) : Delivers P Q pkts out := by
  obtain ⟨hs, o, hlen, hhs, rfl, hbegun⟩ := h
  obtain ⟨more, rfl, hrest⟩ := cut_packets Beat.tlast hpkts hcut
  cases more with
  | nil =>
    have hst : st = .firstBatch := by
      by_contra hst
      have hlt := hmore hst
      simp at hlt
    subst hst
    obtain ⟨-, rfl⟩ := hbegun
    exact ⟨hs, by simpa using hlen, hhs, by simp⟩
  | cons pkt more =>
    have hpkt : Packet Beat.tlast pkt := hpkts pkt (by simp)
    obtain ⟨a, b, ha, hb, ho⟩ := hbegun.begins (hP _) (hQ _) (rest_begins Beat.tlast hpkt hrest)
    rw [← hlen] at ha hb
    obtain ⟨hs', hlen', hall⟩ :=
      exists_histories (histories_concat hhs ha hb) hP hQ more.length
    refine ⟨hs ++ [[a, b]] ++ hs', by simp [hlen, hlen'], hall, ?_⟩
    rw [List.append_assoc, headed_append hlen, List.prefix_append_right_inj]
    exact ho.trans (by simp [headed])

end Output

end Osnt.PacketHistory
