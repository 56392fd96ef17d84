import Osnt.AxisConverter

namespace Osnt.AxisConverter
open Lib

/-- A byte stream with its packet boundaries. -/
inductive Sym where
  | byte (b : BitVec 8)
  | eop
deriving DecidableEq, Repr

/-- Bytes of the lanes that are kept. -/
def kept (ls : List Lane) : List (BitVec 8) :=
  ls.filterMap (fun l => if l.keep then some l.data else none)

/-- What lanes add to the byte stream. -/
def syms (ls : List Lane) (tlast : Bool) : List Sym :=
  (kept ls).map .byte ++ if tlast then [.eop] else []

/-- The byte stream of a list of words. -/
def symbols {n : Nat} (ws : List (Beat n)) : List Sym :=
  ws.flatMap (fun w => syms w.lanes.toList w.tlast)

/-- Lanes are kept from the first on. -/
def Contiguous (ls : List Lane) : Prop :=
  ∃ k, ∀ j (h : j < ls.length), ls[j].keep = true ↔ j < k

/-- A word as the stream protocol has it: full, or the last one and cut at the end. -/
def Beat.Wf {n : Nat} (w : Beat n) : Prop :=
  if w.tlast then Contiguous w.lanes.toList ∧ kept w.lanes.toList ≠ []
  else ∀ l ∈ w.lanes.toList, l.keep = true

@[simp] theorem kept_append (a b : List Lane) : kept (a ++ b) = kept a ++ kept b := by
  simp [kept]

theorem kept_eq_nil {ls : List Lane} : kept ls = [] ↔ ∀ l ∈ ls, l.keep = false := by
  simp [kept, List.filterMap_eq_nil_iff]

theorem kept_drop_eq_nil {ls : List Lane} {a b : Nat} (hab : a ≤ b) (h : kept (ls.drop a) = []) :
    kept (ls.drop b) = [] := by
  obtain ⟨c, rfl⟩ := Nat.exists_eq_add_of_le hab
  rw [kept_eq_nil] at h ⊢
  rw [← List.drop_drop]
  exact fun l hl => h l (List.drop_subset _ _ hl)

@[simp] theorem kept_noLanes (m : Nat) (k : Nat) : kept ((noLanes m).toList.drop k) = [] := by
  rw [kept_eq_nil]
  intro l hl
  have hm := List.drop_subset _ _ hl
  rw [noLanes, Vector.toList_replicate] at hm
  rw [(List.mem_replicate.mp hm).2]

@[simp] theorem symbols_cons {n : Nat} (w : Beat n) (ws : List (Beat n)) :
    symbols (w :: ws) = syms w.lanes.toList w.tlast ++ symbols ws := rfl

@[simp] theorem symbols_append {n : Nat} (ws vs : List (Beat n)) :
    symbols (ws ++ vs) = symbols ws ++ symbols vs := by
  simp [symbols]

theorem keepsNone_iff {n : Nat} (w : Vector Lane n) :
    keepsNone w = true ↔ kept w.toList = [] := by
  rw [kept_eq_nil, keepsNone, List.all_eq_true]
  simp

theorem toList_slice {n r : Nat} (w : Vector Lane (n * 2 ^ r)) (c : BitVec r) :
    (slice w c).toList = (w.toList.drop (n * c.toNat)).take n := by
  have hlt : ∀ j, j < n → n * c.toNat + j < n * 2 ^ r := fun j hj => lane_lt c ⟨j, hj⟩
  apply List.ext_getElem
  · rw [Vector.length_toList, List.length_take, List.length_drop, Vector.length_toList]
    have hc : n * c.toNat + n ≤ n * 2 ^ r := by
      rw [← Nat.mul_succ]
      exact Nat.mul_le_mul_left n c.isLt
    omega
  · intro j hj _
    simp [slice, Vector.get]

theorem toList_overlay {n r : Nat} (prev : Vector Lane (n * 2 ^ r)) (c : BitVec r)
    (w : Vector Lane n) :
    (overlay prev c w).toList =
      prev.toList.take (n * c.toNat) ++ w.toList ++ prev.toList.drop (n * c.toNat + n) := by
  have hc : n * c.toNat + n ≤ n * 2 ^ r := by
    rw [← Nat.mul_succ]
    exact Nat.mul_le_mul_left n c.isLt
  apply List.ext_getElem
  · simp only [Vector.length_toList, List.length_append, List.length_take, List.length_drop]
    omega
  · intro j hj _
    rw [Vector.length_toList] at hj
    have hmin : min (n * c.toNat) (n * 2 ^ r) = n * c.toNat := by omega
    have hget : ∀ {k : Nat} (v : Vector Lane k) (i : Fin k), v.get i = v[i.val] := fun _ _ => rfl
    simp only [overlay, Vector.toList_ofFn, List.getElem_ofFn, List.getElem_append,
      List.length_append, List.length_take, Vector.length_toList, hmin, List.getElem_take,
      List.getElem_drop, Vector.getElem_toList, hget]
    by_cases h1 : j < n * c.toNat
    · have hbelow : ¬ n * c.toNat ≤ j := by omega
      have hend : j < n * c.toNat + n := by omega
      simp [h1, hbelow, hend]
    · have habove : n * c.toNat ≤ j := by omega
      by_cases h2 : j < n * c.toNat + n
      · simp [h1, h2, habove]
      · have hj' : n * c.toNat + n + (j - (n * c.toNat + n)) = j := by omega
        simp [h2, hj']

/-- One cycle of a read side that sees the word `w` and has `ws` behind it: the bytes it
hands over are the first of those it owes, a packet's record is taken with its first word,
and the word that ends a packet is taken with the end of the packet and leaves nothing
behind. -/
structure Cycle {s m : Nat} {ρ : Type} (first : ρ → Bool) (Ok : ρ → List (Beat s) → Prop)
    (owes : ρ → List (Beat s) → List Sym) (regs : ρ) (w : Beat s) (ws : List (Beat s))
    (infoEmpty tready : Bool) (d : Drive ρ m) : Prop where
  ok : Ok d.next (if d.inFifoRdEn then ws else w :: ws)
  bytes : (if d.tvalid && tready then syms d.lanes.toList d.tlast else []) ++
    owes d.next (if d.inFifoRdEn then ws else w :: ws) = owes regs (w :: ws)
  record : d.infoFifoRdEn = (d.tvalid && tready && first regs)
  shown : d.tvalid = true → first regs = true → infoEmpty = false
  next : first d.next = if d.tvalid && tready then d.tlast else first regs
  ends : (d.inFifoRdEn && w.tlast) = (d.tvalid && tready && d.tlast)
  clean : d.inFifoRdEn = true → w.tlast = true → owes d.next [] = []

/-- A cycle in which a read side takes nothing and hands over nothing. With a ready
receiver only the record of the next packet can be missing. -/
structure Waits {ρ : Type} {m : Nat} (first : ρ → Bool) (regs : ρ) (infoEmpty tready : Bool)
    (d : Drive ρ m) : Prop where
  inFifo : d.inFifoRdEn = false
  infoFifo : d.infoFifoRdEn = false
  next : d.next = regs
  kept : (d.tvalid && tready) = false
  shown : d.tvalid = true → first regs = true → infoEmpty = false
  why : tready = true → first regs = true ∧ infoEmpty = true

theorem Waits.not_ready {m : Nat} {ρ : Type} {first : ρ → Bool} {regs : ρ} {infoEmpty : Bool}
    {d : Drive ρ m} (h : Waits first regs infoEmpty true d)
    (hinfo : first regs = true → infoEmpty = false) : False := by
  obtain ⟨hf, he⟩ := h.why rfl
  rw [hinfo hf] at he
  cases he

theorem Waits.cycle {s m : Nat} {ρ : Type} {first : ρ → Bool} {Ok : ρ → List (Beat s) → Prop}
    {owes : ρ → List (Beat s) → List Sym} {regs : ρ} {w : Beat s} {ws : List (Beat s)}
    {infoEmpty tready : Bool} {d : Drive ρ m} (h : Waits first regs infoEmpty tready d)
    (hok : Ok regs (w :: ws)) : Cycle first Ok owes regs w ws infoEmpty tready d where
  ok := by simpa [h.inFifo, h.next] using hok
  bytes := by simp [h.inFifo, h.next, h.kept]
  record := by simp [h.infoFifo, h.kept]
  shown := h.shown
  next := by simp [h.next, h.kept]
  ends := by simp [h.inFifo, h.kept]
  clean := by simp [h.inFifo]

/-- What is asked of a read side. `owes` is the byte stream it has still to hand over,
given the words in the input FIFO; `left` bounds the cycles it needs for one of them. -/
structure Reader.Spec {s m : Nat} (R : Reader s m) where
  first : R.Regs → Bool
  Ok : R.Regs → List (Beat s) → Prop
  owes : R.Regs → List (Beat s) → List Sym
  left : R.Regs → Nat
  bound : Nat
  ok_reset : Ok R.reset []
  first_reset : first R.reset = true
  owes_reset : owes R.reset [] = []
  write : ∀ {regs ws}, Ok regs ws → ∀ v, Ok regs (ws ++ [v]) ∧
    owes regs (ws ++ [v]) = owes regs ws ++ syms v.lanes.toList v.tlast
  cycle : ∀ {regs w ws infoEmpty}, Ok regs (w :: ws) → w.Wf →
    (first regs = true → w.tlast = true → infoEmpty = false) → ∀ tready,
    Cycle first Ok owes regs w ws infoEmpty tready (R.comb regs w infoEmpty tready)
  left_le : ∀ regs, left regs ≤ bound
  progress : ∀ {regs w ws infoEmpty}, Ok regs (w :: ws) → w.Wf →
    (first regs = true → infoEmpty = false) →
    (R.comb regs w infoEmpty true).inFifoRdEn = true ∨
      left (R.comb regs w infoEmpty true).next < left regs

theorem counter_succ {r : Nat} {c : BitVec r} (hc : c.toNat ≠ 2 ^ r - 1) :
    (c + 1).toNat = c.toNat + 1 := by
  have hlt := c.isLt
  cases r with
  | zero => omega
  | succ r =>
    have h1 : (1 : BitVec (r + 1)).toNat = 1 := BitVec.toNat_one (Nat.succ_pos r)
    rw [BitVec.toNat_add, h1, Nat.mod_eq_of_lt (by omega)]

section MasterWider
variable {n r : Nat}

/-- The gathered words fill the lanes below the counter. -/
def Gather.Ok (g : Gather n r) : Prop := kept (g.prev.toList.drop (n * g.counter.toNat)) = []

theorem kept_overlay {g : Gather n r} (h : g.Ok) (w : Vector Lane n) :
    kept (overlay g.prev g.counter w).toList = kept g.prev.toList ++ kept w.toList ∧
      kept ((overlay g.prev g.counter w).toList.drop (n * g.counter.toNat + n)) = [] := by
  have hc : n * g.counter.toNat + n ≤ n * 2 ^ r := by
    rw [← Nat.mul_succ]
    exact Nat.mul_le_mul_left n g.counter.isLt
  have hrest : kept (g.prev.toList.drop (n * g.counter.toNat + n)) = [] :=
    kept_drop_eq_nil (Nat.le_add_right _ _) h
  have hprev : kept g.prev.toList = kept (g.prev.toList.take (n * g.counter.toNat)) := by
    conv_lhs => rw [← List.take_append_drop (n * g.counter.toNat) g.prev.toList]
    rw [kept_append, h, List.append_nil]
  have hlen : (g.prev.toList.take (n * g.counter.toNat) ++ w.toList).length =
      n * g.counter.toNat + n := by
    simp only [List.length_append, List.length_take, Vector.length_toList]
    omega
  rw [toList_overlay]
  refine ⟨?_, ?_⟩
  · rw [kept_append, kept_append, hrest, List.append_nil, hprev]
  · rw [List.drop_left' hlen, hrest]

theorem kept_noLanes_toList (m : Nat) : kept (noLanes m).toList = [] := by
  have h := kept_noLanes m 0
  rwa [List.drop_zero] at h

/-- A wide word is handed over: the gathered lanes and those of the word that shows. -/
theorem bytes_gathered {g : Gather n r} (h : g.Ok) (w : Beat n) (ws : List (Beat n)) :
    syms (overlay g.prev g.counter w.lanes).toList w.tlast ++
        ((kept (noLanes (n * 2 ^ r)).toList).map .byte ++ symbols ws) =
      (kept g.prev.toList).map .byte ++ symbols (w :: ws) := by
  simp [syms, (kept_overlay h w.lanes).1, kept_noLanes_toList]

theorem ok_gather {g : Gather n r} (h : g.Ok) (hc : g.counter.toNat ≠ 2 ^ r - 1)
    (w : Vector Lane n) (f : Bool) :
    (Gather.mk (g.counter + 1) f (overlay g.prev g.counter w)).Ok := by
  have hk := (kept_overlay h w).2
  rw [Gather.Ok, counter_succ hc, Nat.mul_succ]
  exact hk

/-- Everything a cycle can do: wait, hand over the gathered lanes with those of the word
that shows, or gather that word. -/
theorem masterWider_cases (g : Gather n r) (w : Beat n) (infoEmpty tready : Bool)
    (hinfo : g.firstTime = true → w.tlast = true → infoEmpty = false) :
    Waits Gather.firstTime g infoEmpty tready ((masterWider n r).comb g w infoEmpty tready) ∨
      (tready = true ∧ (g.firstTime = true → infoEmpty = false) ∧
        (masterWider n r).comb g w infoEmpty tready =
          ⟨true, g.firstTime, true, overlay g.prev g.counter w.lanes, w.tlast,
            ⟨0, w.tlast, noLanes _⟩⟩) ∨
      (g.counter.toNat ≠ 2 ^ r - 1 ∧ w.tlast = false ∧
        (masterWider n r).comb g w infoEmpty tready =
          ⟨true, false, false, overlay g.prev g.counter w.lanes, false,
            ⟨g.counter + 1, g.firstTime, overlay g.prev g.counter w.lanes⟩⟩) := by
  by_cases hc : g.counter.toNat = 2 ^ r - 1
  · cases hf : g.firstTime <;> cases infoEmpty <;> cases tready <;>
      simp [masterWider, hc, hf]
    all_goals exact ⟨rfl, rfl, rfl, rfl, by simp [hf], by simp [hf]⟩
  · cases hl : w.tlast <;> cases hf : g.firstTime <;> cases infoEmpty <;> cases tready <;>
      simp_all [masterWider]
    all_goals exact ⟨rfl, rfl, rfl, rfl, by simp [hf], by simp [hf]⟩

def masterWiderSpec (n r : Nat) : (masterWider n r).Spec where
  first := Gather.firstTime
  Ok g _ := g.Ok
  owes g ws := (kept g.prev.toList).map .byte ++ symbols ws
  left _ := 0
  bound := 0
  ok_reset := kept_noLanes _ _
  first_reset := rfl
  owes_reset := by simp [masterWider, kept_noLanes_toList, symbols]
  write h v := ⟨h, by simp [symbols]⟩
  cycle := by
    intro g w ws infoEmpty h _ hinfo tready
    rcases masterWider_cases g w infoEmpty tready hinfo with hw | ⟨hr, he, hd⟩ | ⟨hc, hl, hd⟩
    · exact hw.cycle h
    · rw [hd]
      refine ⟨kept_noLanes _ _, ?_, by simp [hr], fun _ => he, by simp [hr], by simp [hr],
        fun _ _ => by simp [kept_noLanes_toList, symbols]⟩
      simpa [hr] using bytes_gathered h w ws
    · rw [hd]
      refine ⟨ok_gather h hc _ _, ?_, by simp, by simp, by simp, by simp [hl], by simp [hl]⟩
      simp [(kept_overlay h w.lanes).1, syms, hl]
  left_le _ := Nat.le_refl _
  progress := by
    intro g w ws infoEmpty _ _ hinfo
    rcases masterWider_cases g w infoEmpty true (fun hf _ => hinfo hf) with hw | ⟨_, _, hd⟩ |
      ⟨_, _, hd⟩
    · exact absurd hinfo hw.not_ready
    · exact .inl (by rw [hd])
    · exact .inl (by rw [hd])

end MasterWider

theorem same_cases {n : Nat} (g : Pass) (w : Beat n) (infoEmpty tready : Bool) :
    Waits Pass.firstTime g infoEmpty tready ((same n).comb g w infoEmpty tready) ∨
      (tready = true ∧ (g.firstTime = true → infoEmpty = false) ∧
        (same n).comb g w infoEmpty tready =
          ⟨true, g.firstTime, true, w.lanes, w.tlast, ⟨w.tlast⟩⟩) := by
  cases hf : g.firstTime <;> cases infoEmpty <;> cases tready <;> simp [same, hf]
  all_goals exact ⟨rfl, rfl, rfl, rfl, by simp [hf], by simp [hf]⟩

def sameSpec (n : Nat) : (same n).Spec where
  first := Pass.firstTime
  Ok _ _ := True
  owes _ ws := symbols ws
  left _ := 0
  bound := 0
  ok_reset := trivial
  first_reset := rfl
  owes_reset := rfl
  write _ v := ⟨trivial, by simp [symbols]⟩
  cycle := by
    intro g w ws infoEmpty h _ _ tready
    rcases same_cases g w infoEmpty tready with hw | ⟨hr, he, hd⟩
    · exact hw.cycle h
    · rw [hd]
      exact ⟨trivial, by simp [hr], by simp [hr], fun _ => he, by simp [hr], by simp [hr],
        fun _ _ => rfl⟩
  left_le _ := Nat.le_refl _
  progress := by
    intro g w ws infoEmpty _ _ hinfo
    rcases same_cases g w infoEmpty true with hw | ⟨_, _, hd⟩
    · exact absurd hinfo hw.not_ready
    · exact .inl (by rw [hd])

section SlaveWider
variable {n r : Nat}

/-- Only a word that is partly handed over is cut, and it is still in the FIFO. -/
def Scatter.Ok (g : Scatter r) (ws : List (Beat (n * 2 ^ r))) : Prop :=
  (g.firstTime = true → g.counter = 0) ∧ (ws = [] → g.counter = 0)

/-- The rest of the word that shows, and the words behind it. -/
def Scatter.owes (g : Scatter r) : List (Beat (n * 2 ^ r)) → List Sym
  | [] => []
  | w :: ws => syms (w.lanes.toList.drop (n * g.counter.toNat)) w.tlast ++ symbols ws

def Scatter.left (g : Scatter r) : Nat := 2 ^ r - g.counter.toNat

theorem Scatter.owes_zero (f : Bool) (ws : List (Beat (n * 2 ^ r))) :
    (Scatter.mk (0 : BitVec r) f).owes ws = symbols ws := by
  cases ws with
  | nil => rfl
  | cons w ws => simp [Scatter.owes]

theorem Scatter.write {g : Scatter r} {ws : List (Beat (n * 2 ^ r))} (h : g.Ok ws)
    (v : Beat (n * 2 ^ r)) :
    g.Ok (ws ++ [v]) ∧ g.owes (ws ++ [v]) = g.owes ws ++ syms v.lanes.toList v.tlast := by
  refine ⟨⟨h.1, by simp⟩, ?_⟩
  cases ws with
  | nil => simp [Scatter.owes, h.2 rfl, symbols]
  | cons w ws => simp [Scatter.owes, symbols]

theorem kept_slice (w : Vector Lane (n * 2 ^ r)) (c : BitVec r) :
    kept (w.toList.drop (n * c.toNat)) =
      kept (slice w c).toList ++ kept (w.toList.drop (n * c.toNat + n)) := by
  rw [toList_slice, ← kept_append, ← List.drop_drop, List.take_append_drop]

theorem kept_drop_last (w : Vector Lane (n * 2 ^ r)) {c : BitVec r} (hc : c.toNat = 2 ^ r - 1) :
    w.toList.drop (n * c.toNat + n) = [] := by
  have hp := Nat.two_pow_pos r
  have hn : n * c.toNat + n = n * 2 ^ r := by
    rw [← Nat.mul_succ, hc, Nat.succ_eq_add_one, Nat.sub_add_cancel hp]
  rw [List.drop_eq_nil_iff, Vector.length_toList, hn]

/-- A word that keeps nothing in its next part keeps nothing behind it. -/
theorem kept_of_nextEmpty {w : Beat (n * 2 ^ r)} (hn : 0 < n) (hw : w.Wf) {c : BitVec r}
    (hc : c.toNat ≠ 2 ^ r - 1) (h : keepsNone (slice w.lanes (c + 1)) = true) :
    w.tlast = true ∧ kept (w.lanes.toList.drop (n * c.toNat + n)) = [] := by
  have hlt := c.isLt
  have hnext : n * (c + 1).toNat = n * c.toNat + n := by rw [counter_succ hc, Nat.mul_succ]
  have hfit : n * c.toNat + n < n * 2 ^ r := by
    rw [← Nat.mul_succ]
    exact (Nat.mul_lt_mul_left hn).mpr (by omega)
  have hpos : n * c.toNat + n < w.lanes.toList.length := by rwa [Vector.length_toList]
  rw [keepsNone_iff, toList_slice, hnext, kept_eq_nil] at h
  have hlane : (w.lanes.toList[n * c.toNat + n]).keep = false := by
    apply h
    rw [List.mem_take_iff_getElem]
    exact ⟨0, by simp; omega, by simp⟩
  cases hl : w.tlast with
  | false =>
    rw [Beat.Wf, hl, if_neg (by simp)] at hw
    rw [hw _ (List.getElem_mem hpos)] at hlane
    cases hlane
  | true =>
    rw [Beat.Wf, hl, if_pos rfl] at hw
    obtain ⟨⟨k, hk⟩, _⟩ := hw
    refine ⟨rfl, kept_eq_nil.mpr (fun l hmem => ?_)⟩
    obtain ⟨j, hj, rfl⟩ := List.getElem_of_mem hmem
    rw [List.length_drop] at hj
    rw [List.getElem_drop, Bool.eq_false_iff, Ne, hk _ (by omega)]
    have hcut : ¬ n * c.toNat + n < k := by
      rw [← hk _ hpos, hlane]
      simp
    omega

/-- Everything a cycle can do with a word wider than the output: wait, hand over a part of
it, or hand over the last part that keeps anything and take the word. -/
inductive Parted (g : Scatter r) (w : Beat (n * 2 ^ r)) (infoEmpty tready : Bool)
    (d : Drive (Scatter r) n) : Prop where
  | wait (h : Waits Scatter.firstTime g infoEmpty tready d)
  | part (hr : tready = true) (he : g.firstTime = true → infoEmpty = false)
      (hc : g.counter.toNat ≠ 2 ^ r - 1)
      (hd : d = ⟨false, g.firstTime, true, slice w.lanes g.counter, false,
        ⟨g.counter + 1, false⟩⟩)
  | finish (hr : tready = true) (he : g.firstTime = true → infoEmpty = false)
      (hk : kept (w.lanes.toList.drop (n * g.counter.toNat + n)) = [])
      (hd : d = ⟨true, g.firstTime, true, slice w.lanes g.counter, w.tlast, ⟨0, w.tlast⟩⟩)

theorem Parted.cycle {g : Scatter r} {w : Beat (n * 2 ^ r)} {ws : List (Beat (n * 2 ^ r))}
    {infoEmpty tready : Bool} {d : Drive (Scatter r) n} (hp : Parted g w infoEmpty tready d)
    (h : g.Ok (w :: ws)) :
    Cycle Scatter.firstTime Scatter.Ok Scatter.owes g w ws infoEmpty tready d := by
  have hcut := kept_slice w.lanes g.counter
  cases hp with
  | wait hw => exact hw.cycle h
  | part hr he hc hd =>
    rw [hd]
    refine ⟨by simp [Scatter.Ok], ?_, by simp [hr], fun _ => he, by simp [hr], by simp,
      fun _ _ => rfl⟩
    simp only [hr, Bool.and_self, if_true, Bool.false_eq_true, if_false, Scatter.owes,
      counter_succ hc, Nat.mul_succ, syms, hcut, List.map_append, List.append_assoc,
      List.nil_append]
  | finish hr he hk hd =>
    rw [hd]
    refine ⟨by simp [Scatter.Ok], ?_, by simp [hr], fun _ => he, by simp [hr], by simp [hr],
      fun _ _ => rfl⟩
    simp only [hr, Bool.and_self, if_true, Scatter.owes_zero]
    simp only [Scatter.owes, syms, hcut, hk, List.append_nil]

theorem Parted.progress {g : Scatter r} {w : Beat (n * 2 ^ r)} {infoEmpty : Bool}
    {d : Drive (Scatter r) n} (hp : Parted g w infoEmpty true d)
    (hinfo : g.firstTime = true → infoEmpty = false) :
    d.inFifoRdEn = true ∨ d.next.left < g.left := by
  have hlt := g.counter.isLt
  cases hp with
  | wait hw => exact absurd hinfo hw.not_ready
  | part hr he hc hd =>
    right
    rw [hd]
    simp only [Scatter.left, counter_succ hc]
    omega
  | finish hr he hk hd => exact .inl (by rw [hd])

theorem counter_zero_ne (hr : 0 < r) : (0 : BitVec r).toNat ≠ 2 ^ r - 1 := by
  have h2 : 2 ^ 1 ≤ 2 ^ r := Nat.pow_le_pow_right (by omega) hr
  have h0 : (0 : BitVec r).toNat = 0 := BitVec.toNat_zero
  omega

theorem slaveWider_parted (hn : 1 < n) (hr : 0 < r) {g : Scatter r} {w : Beat (n * 2 ^ r)}
    {ws : List (Beat (n * 2 ^ r))} (h : g.Ok (w :: ws)) (hw : w.Wf) (infoEmpty tready : Bool) :
    Parted g w infoEmpty tready ((slaveWider n r).comb g w infoEmpty tready) := by
  have hend : g.counter.toNat ≠ 2 ^ r - 1 → keepsNone (slice w.lanes (g.counter + 1)) = true → _ :=
    kept_of_nextEmpty (by omega) hw
  cases hf : g.firstTime with
  | true =>
    have hc : g.counter.toNat ≠ 2 ^ r - 1 := by
      rw [h.1 hf]
      exact counter_zero_ne hr
    cases infoEmpty with
    | true =>
      exact .wait ⟨by simp [slaveWider, hf], by simp [slaveWider, hf], by simp [slaveWider, hf],
        by simp [slaveWider, hf], by simp [slaveWider, hf], by simp [hf]⟩
    | false =>
      cases tready with
      | false =>
        exact .wait ⟨by simp [slaveWider, hf], by simp [slaveWider, hf], by simp [slaveWider, hf],
          by simp, by simp, by simp⟩
      | true =>
        cases he : keepsNone (slice w.lanes (g.counter + 1)) with
        | true =>
          obtain ⟨hl, hk⟩ := hend hc he
          exact .finish rfl (fun _ => rfl) hk (by
            simp only [slaveWider, hf, he, hl, Bool.not_false, if_true])
        | false =>
          exact .part rfl (fun _ => rfl) hc (by
            simp only [slaveWider, hf, he, Bool.not_false, if_true, Bool.false_eq_true, if_false])
  | false =>
    cases tready with
    | false =>
      exact .wait ⟨by simp [slaveWider, hf], by simp [slaveWider, hf], by simp [slaveWider, hf],
        by simp, by simp [hf], by simp⟩
    | true =>
      by_cases hc : g.counter.toNat = 2 ^ r - 1
      · refine .finish rfl (by simp [hf]) ?_ (by simp [slaveWider, hf, hc])
        rw [kept_drop_last w.lanes hc]
        rfl
      · cases he : w.tlast && keepsNone (slice w.lanes (g.counter + 1)) with
        | true =>
          obtain ⟨hl, hn⟩ := Bool.and_eq_true_iff.mp he
          exact .finish rfl (by simp [hf]) (hend hc hn).2 (by
            simp only [slaveWider, hf, hc, hl, hn, Bool.and_self, if_true, Bool.false_eq_true,
              if_false])
        | false =>
          exact .part rfl (by simp [hf]) hc (by
            simp only [slaveWider, hf, hc, he, if_true, Bool.false_eq_true, if_false])

theorem special_parted (hr : 0 < r) {g : Scatter r} {w : Beat (1 * 2 ^ r)}
    {ws : List (Beat (1 * 2 ^ r))} (h : g.Ok (w :: ws)) (hw : w.Wf) (infoEmpty tready : Bool) :
    Parted g w infoEmpty tready ((special r).comb g w infoEmpty tready) := by
  cases hf : g.firstTime with
  | true =>
    have hc : g.counter.toNat ≠ 2 ^ r - 1 := by
      rw [h.1 hf]
      exact counter_zero_ne hr
    cases infoEmpty with
    | true =>
      exact .wait ⟨by simp [special, hf], by simp [special, hf], by simp [special, hf],
        by simp [special, hf], by simp [special, hf], by simp [hf]⟩
    | false =>
      cases tready with
      | false =>
        exact .wait ⟨by simp [special, hf], by simp [special, hf], by simp [special, hf], by simp,
          by simp, by simp⟩
      | true => exact .part rfl (fun _ => rfl) hc (by simp [special, hf])
  | false =>
    cases tready with
    | false =>
      exact .wait ⟨by simp [special, hf], by simp [special, hf], by simp [special, hf], by simp,
        by simp [hf], by simp⟩
    | true =>
      by_cases hc : g.counter.toNat = 2 ^ r - 1
      · refine .finish rfl (by simp [hf]) ?_ (by simp [special, hf, hc])
        rw [kept_drop_last w.lanes hc]
        rfl
      · cases he : w.tlast && keepsNone (slice w.lanes (g.counter + 1)) with
        | true =>
          obtain ⟨hl, hn⟩ := Bool.and_eq_true_iff.mp he
          exact .finish rfl (by simp [hf]) (kept_of_nextEmpty (by omega) hw hc hn).2
            (by simp only [special, hf, hc, hl, hn, Bool.and_self, Bool.or_true, if_true,
              Bool.false_eq_true, if_false])
        | false =>
          exact .part rfl (by simp [hf]) hc (by
            simp only [special, hf, hc, he, decide_false, Bool.false_or, if_true,
              Bool.false_eq_true, if_false])

theorem Scatter.left_le (g : Scatter r) : g.left ≤ 2 ^ r := Nat.sub_le _ _

def slaveWiderSpec (n r : Nat) (hn : 1 < n) (hr : 0 < r) : (slaveWider n r).Spec where
  first := Scatter.firstTime
  Ok := Scatter.Ok
  owes := Scatter.owes
  left := Scatter.left
  bound := 2 ^ r
  ok_reset := ⟨fun _ => rfl, fun _ => rfl⟩
  first_reset := rfl
  owes_reset := rfl
  write h v := Scatter.write h v
  cycle h hw _ tready := (slaveWider_parted hn hr h hw _ tready).cycle h
  left_le := Scatter.left_le
  progress h hw hinfo := (slaveWider_parted hn hr h hw _ true).progress hinfo

def specialSpec (r : Nat) (hr : 0 < r) : (special r).Spec where
  first := Scatter.firstTime
  Ok := Scatter.Ok
  owes := Scatter.owes
  left := Scatter.left
  bound := 2 ^ r
  ok_reset := ⟨fun _ => rfl, fun _ => rfl⟩
  first_reset := rfl
  owes_reset := rfl
  write h v := Scatter.write h v
  cycle h hw _ tready := (special_parted hr h hw _ tready).cycle h
  left_le := Scatter.left_le
  progress h hw hinfo := (special_parted hr h hw _ true).progress hinfo

end SlaveWider

/-- Every read side meets what is asked of it. -/
def readerSpec {s m : Nat} : (c : Widths s m) → (reader c).Spec
  | .masterWider n r _ => masterWiderSpec n r
  | .same n => sameSpec n
  | .special r hr => specialSpec r hr
  | .slaveWider n r hn hr => slaveWiderSpec n r hn hr

end Osnt.AxisConverter
