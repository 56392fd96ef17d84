import Osnt.Scone.Rtable

/-! The TCAM against the routing table. The sort puts longer masks first, so the first active
route for an address is the one `get_next_hop` keeps; the rows are the active routes in the same
order. Rows that are not needed are cleared to a mask of zero, which matches every address. -/
namespace Osnt.Scone.Rtable
open Lib

theorem swap_iff (a b : Entry) : swap a b = true ↔
    a.mask < b.mask ∨ a.mask = b.mask ∧ a.ip < b.ip ∨
      a.mask = b.mask ∧ a.ip = b.ip ∧ a.isStatic = false ∧ b.isStatic = true := by
  simp [swap, or_assoc, and_assoc]

theorem swap_asymm (a b : Entry) (h : swap a b = true) : swap b a = false := by
  refine Bool.eq_false_iff.mpr fun hba => ?_
  rcases (swap_iff a b).mp h with h | ⟨hm, h⟩ | ⟨hm, hi, -, hb⟩
  · rcases (swap_iff b a).mp hba with h' | ⟨hm', -⟩ | ⟨hm', -⟩
    · exact BitVec.lt_asymm h h'
    · exact BitVec.lt_irrefl _ (hm' ▸ h)
    · exact BitVec.lt_irrefl _ (hm' ▸ h)
  · rcases (swap_iff b a).mp hba with h' | ⟨-, h'⟩ | ⟨-, hi', -⟩
    · exact BitVec.lt_irrefl _ (hm ▸ h')
    · exact BitVec.lt_asymm h h'
    · exact BitVec.lt_irrefl _ (hi' ▸ h)
  · rcases (swap_iff b a).mp hba with h' | ⟨-, h'⟩ | ⟨-, -, hb', -⟩
    · exact BitVec.lt_irrefl _ (hm ▸ h')
    · exact BitVec.lt_irrefl _ (hi ▸ h')
    · rw [hb] at hb'
      cases hb'

/-- By decreasing mask, then by decreasing address, then static before dynamic. -/
def Entry.Precedes (a b : Entry) : Prop :=
  b.mask < a.mask ∨ a.mask = b.mask ∧ b.ip < a.ip ∨
    a.mask = b.mask ∧ a.ip = b.ip ∧ (b.isStatic = true → a.isStatic = true)

/-- What the sort compares. -/
def Entry.key (e : Entry) : BitVec 32 × BitVec 32 × Bool := (e.mask, e.ip, e.isStatic)

theorem precedes_of_not_swap {a b : Entry} (h : swap a b = false) : a.Precedes b := by
  have hnot := mt (swap_iff a b).mpr (Bool.eq_false_iff.mp h)
  obtain ⟨hmask, hip, hstatic⟩ : ¬a.mask < b.mask ∧ ¬(a.mask = b.mask ∧ a.ip < b.ip) ∧
      ¬(a.mask = b.mask ∧ a.ip = b.ip ∧ a.isStatic = false ∧ b.isStatic = true) := by
    simpa only [not_or] using hnot
  by_cases hmasks : a.mask = b.mask
  · by_cases hips : a.ip = b.ip
    · refine .inr (.inr ⟨hmasks, hips, fun hb => ?_⟩)
      by_contra ha
      exact hstatic ⟨hmasks, hips, Bool.eq_false_iff.mpr ha, hb⟩
    · have hle := BitVec.not_lt.mp fun hlt => hip ⟨hmasks, hlt⟩
      exact .inr (.inl ⟨hmasks, BitVec.lt_of_le_ne hle (Ne.symm hips)⟩)
  · exact .inl (BitVec.lt_of_le_ne (BitVec.not_lt.mp hmask) (Ne.symm hmasks))

theorem Entry.Precedes.trans {a b c : Entry} (hab : a.Precedes b) (hbc : b.Precedes c) :
    a.Precedes c := by
  rcases hab with hab | ⟨hmask, hab⟩ | ⟨hmask, hip, hstatic⟩
  · rcases hbc with hbc | ⟨hmask', -⟩ | ⟨hmask', -⟩
    · exact .inl (BitVec.lt_trans hbc hab)
    · exact .inl (hmask' ▸ hab)
    · exact .inl (hmask' ▸ hab)
  · rcases hbc with hbc | ⟨hmask', hbc⟩ | ⟨hmask', hip', -⟩
    · exact .inl (hmask ▸ hbc)
    · exact .inr (.inl ⟨hmask.trans hmask', BitVec.lt_trans hbc hab⟩)
    · exact .inr (.inl ⟨hmask.trans hmask', hip' ▸ hab⟩)
  · rcases hbc with hbc | ⟨hmask', hbc⟩ | ⟨hmask', hip', hstatic'⟩
    · exact .inl (hmask ▸ hbc)
    · exact .inr (.inl ⟨hmask.trans hmask', hip ▸ hbc⟩)
    · exact .inr (.inr ⟨hmask.trans hmask', hip.trans hip', hstatic ∘ hstatic'⟩)

theorem precedes_pairwise {xs : List Entry} (h : xs.IsChain fun x y => swap x y = false) :
    xs.Pairwise Entry.Precedes := by
  have : Trans Entry.Precedes Entry.Precedes Entry.Precedes := ⟨Entry.Precedes.trans⟩
  exact List.isChain_iff_pairwise.mp (h.imp fun _ _ => precedes_of_not_swap)

theorem Entry.Precedes.mask_le {a b : Entry} (h : a.Precedes b) : b.mask ≤ a.mask := by
  rcases h with hlt | ⟨hmask, -⟩ | ⟨hmask, -⟩
  · exact BitVec.le_of_lt hlt
  · exact hmask ▸ BitVec.le_refl _
  · exact hmask ▸ BitVec.le_refl _

theorem masks_descending {xs : List Entry} (h : xs.IsChain fun x y => swap x y = false) :
    xs.Pairwise fun x y => y.mask ≤ x.mask :=
  (precedes_pairwise h).imp Entry.Precedes.mask_le

theorem key_ne_of_swap {a b : Entry} (h : swap a b = true) : a.key ≠ b.key := by
  intro hkey
  obtain ⟨hmask, hip, hstatic⟩ : a.mask = b.mask ∧ a.ip = b.ip ∧ a.isStatic = b.isStatic := by
    simpa only [Entry.key, Prod.mk.injEq] using hkey
  rcases (swap_iff a b).mp h with h | ⟨-, h⟩ | ⟨-, -, ha, hb⟩
  · exact absurd (hmask ▸ h) (BitVec.lt_irrefl _)
  · exact absurd (hip ▸ h) (BitVec.lt_irrefl _)
  · rw [ha, hb] at hstatic
    cases hstatic

/-- For every table: the sort ends, after at most as many passes as the square of its length and
one, with the same entries, in order, those that compare equal as they were; and it is the sorted
table that the state keeps and that is written to the hardware. -/
theorem trigger_sorts (rs : RouterState) :
    ∃ sorted : List Entry,
      (∀ fuel, rs.rtable.length * rs.rtable.length < fuel →
        BubbleSort.loop swap fuel rs.rtable = some sorted ∧
          triggerRtableModified fuel rs =
            if rs.isNetfpga then
              (writeRtableToHw sorted).map fun hw => { rs with rtable := sorted, hw := hw }
            else some { rs with rtable := sorted }) ∧
      sorted.Perm rs.rtable ∧ sorted.Pairwise Entry.Precedes ∧
      ∀ k, sorted.filter (fun e => e.key = k) = rs.rtable.filter fun e => e.key = k := by
  obtain ⟨sorted, hsorted⟩ := BubbleSort.loop_isSome swap_asymm
    (Nat.lt_succ_of_le (BubbleSort.inversions_le swap rs.rtable))
  obtain ⟨hperm, hchain⟩ := BubbleSort.loop_spec swap hsorted
  refine ⟨sorted, fun fuel hfuel => ?_, hperm, precedes_pairwise hchain, fun k => ?_⟩
  · obtain ⟨ys, hloop⟩ := BubbleSort.loop_isSome swap_asymm
      (Nat.lt_of_le_of_lt (BubbleSort.inversions_le swap rs.rtable) hfuel)
    obtain rfl := BubbleSort.loop_unique swap hsorted hloop
    refine ⟨hloop, ?_⟩
    unfold triggerRtableModified
    cases hn : rs.isNetfpga with
    | false => simp [hloop]
    | true => cases hw : writeRtableToHw sorted <;> simp [hloop, hw]
  · refine BubbleSort.loop_filter (fun a b hs ha => ?_) hsorted
    rw [decide_eq_false_iff_not]
    exact fun hb => key_ne_of_swap hs ((of_decide_eq_true ha).trans hb.symm)

theorem bitsMatched_prefixMask : ∀ n ≤ 32, bitsMatched (prefixMask n) = n := by
  decide +kernel

/-- A contiguous mask that is larger as a number has at least as many bits. -/
theorem bitsMatched_mono {m n : BitVec 32} (hm : Contiguous m) (hn : Contiguous n) (h : m ≤ n) :
    bitsMatched m ≤ bitsMatched n := by
  have hall : ∀ j ≤ 32, ∀ k ≤ 32, prefixMask j ≤ prefixMask k → j ≤ k := by decide +kernel
  obtain ⟨j, hj, rfl⟩ := hm
  obtain ⟨k, hk, rfl⟩ := hn
  rw [bitsMatched_prefixMask j hj, bitsMatched_prefixMask k hk]
  exact hall j hj k hk h

/-- An active route for the address. -/
def Entry.serves (e : Entry) (dst : BitVec 32) : Bool := e.isActive && e.covers dst

/-- An entry that none further down beats is kept to the end. -/
theorem foldl_keeps {dst : BitVec 32} {best : Best} {xs : List Entry}
    (h : ∀ e ∈ xs, e.serves dst = true → (bitsMatched e.mask : Int) ≤ best.mostBitsMatched) :
    xs.foldl (Best.next dst) best = best := by
  induction xs with
  | nil => rfl
  | cons e xs ih =>
    have he : Best.next dst best e = best := by
      rw [Best.next]
      cases hs : e.isActive && e.covers dst with
      | false => rfl
      | true =>
        have := h e (by simp) hs
        simp only [Bool.true_and, decide_eq_true_eq]
        rw [if_neg (by omega)]
    rw [List.foldl_cons, he]
    exact ih (fun x hx => h x (by simp [hx]))

theorem next_not_serves {dst : BitVec 32} {e : Entry} (h : e.serves dst = false) (best : Best) :
    Best.next dst best e = best := by
  have h : (e.isActive && e.covers dst) = false := h
  simp [Best.next, h]

/-- The first active route for the address is taken whatever its mask is. -/
theorem next_serves {dst : BitVec 32} {e : Entry} (h : e.serves dst = true) :
    Best.next dst ⟨none, -1⟩ e = ⟨some e, bitsMatched e.mask⟩ := by
  have h : (e.isActive && e.covers dst) = true := h
  have hlt : (-1 : Int) < bitsMatched e.mask := by omega
  simp [Best.next, h, hlt]

/-- In a sorted table, `get_next_hop` keeps the first active route for the address. -/
theorem lpmEntry_eq_find {rtable : List Entry} (hs : rtable.Pairwise fun x y => y.mask ≤ x.mask)
    (hc : ∀ e ∈ rtable, Contiguous e.mask) (dst : BitVec 32) :
    lpmEntry rtable dst = rtable.find? fun e => e.serves dst := by
  induction rtable with
  | nil => rfl
  | cons e rtable ih =>
    obtain ⟨hfirst, hrest⟩ := List.pairwise_cons.mp hs
    have hce := hc e (by simp)
    rw [lpmEntry, List.foldl_cons]
    cases he : e.serves dst with
    | false =>
      rw [next_not_serves he, List.find?_cons, he]
      exact ih hrest (fun x hx => hc x (by simp [hx]))
    | true =>
      rw [next_serves he, foldl_keeps, List.find?_cons, he]
      intro x hx _
      exact Int.ofNat_le.mpr (bitsMatched_mono (hc x (by simp [hx])) hce (hfirst x hx))

/-- Whatever the masks are, an address has a route exactly if it has an active one. -/
theorem lpmEntry_eq_none_iff (rtable : List Entry) (dst : BitVec 32) :
    lpmEntry rtable dst = none ↔ ∀ e ∈ rtable, e.serves dst = false := by
  have hkept : ∀ (xs : List Entry) (best : Best), best.lpm ≠ none →
      (xs.foldl (Best.next dst) best).lpm ≠ none := by
    intro xs
    induction xs with
    | nil => exact fun _ h => h
    | cons x xs ih =>
      intro best h
      refine ih _ ?_
      rw [Best.next]
      split
      · simp
      · exact h
  induction rtable with
  | nil => simp [lpmEntry]
  | cons e rtable ih =>
    rw [lpmEntry, List.foldl_cons, List.forall_mem_cons]
    cases he : e.serves dst with
    | false =>
      rw [next_not_serves he]
      exact ih.trans (by simp)
    | true =>
      rw [next_serves he]
      simp [hkept rtable ⟨some e, bitsMatched e.mask⟩ (by simp)]

/-- The row is the one written for the entry. -/
def RowFor (e : Entry) (row : Row) : Prop := rowOf e = some row

theorem actives_skip (cur : List Entry) : actives (skip cur) = actives cur := by
  induction cur with
  | nil => rfl
  | cons e cur ih =>
    cases he : e.isActive with
    | true => simp [skip, he]
    | false =>
      have hskip : skip (e :: cur) = skip cur := by simp [skip, he]
      rw [hskip, ih, actives, actives, List.filter_cons, he]
      rfl

theorem skip_cons {cur : List Entry} {e : Entry} {rest : List Entry} (h : skip cur = e :: rest) :
    e.isActive = true ∧ actives cur = e :: actives rest ∧ ∀ x ∈ e :: rest, x ∈ cur := by
  have hhead := List.head?_dropWhile_not (fun e : Entry => !e.isActive) cur
  have hd : cur.dropWhile (fun e => !e.isActive) = e :: rest := h
  rw [hd] at hhead
  have he : e.isActive = true := by simpa using hhead
  refine ⟨he, ?_, fun x hx => ?_⟩
  · rw [← actives_skip, h, actives, List.filter_cons, he]
    rfl
  · rw [← h] at hx
    exact (List.dropWhile_sublist _).subset hx

theorem actives_of_skip_nil {cur : List Entry} (h : skip cur = []) : actives cur = [] := by
  rw [← actives_skip, h]
  rfl

/-- The active entries are written to the first rows in order, and the rows behind are cleared. -/
theorem writeRows_eq_some {n : Nat} {cur : List Entry} {rows : List Row}
    (hlen : (actives cur).length ≤ n) (h : writeRows n (skip cur) = some rows) :
    ∃ ws, List.Forall₂ RowFor (actives cur) ws ∧
      rows = ws ++ List.replicate (n - (actives cur).length) Row.clear := by
  induction n generalizing cur rows with
  | zero =>
    have hnil : actives cur = [] := List.length_eq_zero_iff.mp (Nat.le_zero.mp hlen)
    rw [hnil]
    exact ⟨[], .nil, by simpa [writeRows] using h.symm⟩
  | succ n ih =>
    cases hs : skip cur with
    | nil =>
      rw [hs, writeRows] at h
      have hnil : skip ([] : List Entry) = [] := rfl
      rw [← hnil] at h
      obtain ⟨rows', hr, he⟩ := Option.bind_eq_some_iff.mp h
      obtain ⟨ws, hw, rfl⟩ := ih (by simp [actives]) hr
      cases hw
      rw [actives_of_skip_nil hs]
      refine ⟨[], .nil, ?_⟩
      simp only [Option.some.injEq] at he
      rw [← he]
      rfl
    | cons e rest =>
      obtain ⟨-, hact, -⟩ := skip_cons hs
      rw [hs, writeRows] at h
      obtain ⟨row, hrow, h⟩ := Option.bind_eq_some_iff.mp h
      obtain ⟨rows', hr, he⟩ := Option.bind_eq_some_iff.mp h
      rw [hact, List.length_cons] at hlen
      obtain ⟨ws, hw, rfl⟩ := ih (by omega) hr
      simp only [Option.some.injEq] at he
      rw [hact]
      refine ⟨row :: ws, .cons hrow hw, ?_⟩
      rw [← he, List.length_cons, Nat.add_sub_add_right]
      rfl

/-- The loop is stopped only by an interface without a port number. -/
theorem writeRows_eq_none {n : Nat} {cur : List Entry} (h : writeRows n (skip cur) = none) :
    ∃ e ∈ cur, e.isActive = true ∧ getOneHotPortNumber e.iface = none := by
  induction n generalizing cur with
  | zero => cases h
  | succ n ih =>
    cases hs : skip cur with
    | nil =>
      have hnil : ∀ n, writeRows n [] = some (List.replicate n Row.clear) := by
        intro n
        induction n with
        | zero => rfl
        | succ n ih => simp [writeRows, ih, List.replicate_succ]
      rw [hs, hnil] at h
      cases h
    | cons e rest =>
      obtain ⟨hact, -, hsub⟩ := skip_cons hs
      cases hrow : rowOf e with
      | none => exact ⟨e, hsub e (by simp), hact, by simpa [rowOf] using hrow⟩
      | some row =>
        cases hr : writeRows n (skip rest) with
        | none =>
          obtain ⟨x, hx, hxa, hxp⟩ := ih hr
          exact ⟨x, hsub x (by simp [hx]), hxa, hxp⟩
        | some rows => simp [hs, writeRows, hrow, hr] at h

theorem hits_of_rowFor {e : Entry} {row : Row} (h : RowFor e row) (dst : BitVec 32) :
    row.hits dst = e.covers dst := by
  obtain ⟨port, -, rfl⟩ := Option.map_eq_some_iff.mp h
  have hxor : (e.ip ^^^ dst) &&& e.mask = (e.ip &&& e.mask) ^^^ (dst &&& e.mask) := by
    ext i
    simp [Bool.and_xor_distrib_right]
  have hiff : (e.ip ^^^ dst) &&& e.mask = 0 ↔ e.ip &&& e.mask = dst &&& e.mask := by
    rw [hxor]
    exact BitVec.xor_eq_zero_iff
  rw [Row.hits, Entry.covers, Bool.eq_iff_iff, beq_iff_eq, beq_iff_eq]
  exact hiff

/-- A cleared row matches every address: no bit of it is compared. -/
theorem hits_clear (dst : BitVec 32) : Row.clear.hits dst = true := by
  simp [Row.clear, Row.hits]

/-- Two lists with a test each that agree element by element have their first hits at the same
place. -/
theorem find_forall₂ {α β : Type} {R : α → β → Prop} {p : α → Bool} {q : β → Bool}
    (hpq : ∀ x y, R x y → p x = q y) {xs : List α} {ys : List β} (h : List.Forall₂ R xs ys) {x : α}
    (hx : xs.find? p = some x) :
    ∃ k y, xs[k]? = some x ∧ ys[k]? = some y ∧ R x y ∧ ys.findIdx? q = some k ∧
      ys.find? q = some y := by
  induction h with
  | nil => cases hx
  | @cons a b xs ys hab _ ih =>
    have hq := hpq a b hab
    cases hp : p a with
    | true =>
      rw [List.find?_cons, hp] at hx
      obtain rfl := Option.some.inj hx
      rw [hp] at hq
      exact ⟨0, b, rfl, rfl, hab, by simp [List.findIdx?_cons, ← hq], by simp [← hq]⟩
    | false =>
      rw [List.find?_cons, hp] at hx
      obtain ⟨k, y, hk, hy, hr, hi, hf⟩ := ih hx
      rw [hp] at hq
      exact ⟨k + 1, y, hk, hy, hr, by simp [List.findIdx?_cons, ← hq, hi], by simp [← hq, hf]⟩

theorem mem_right_forall₂ {α β : Type} {R : α → β → Prop} {xs : List α} {ys : List β}
    (h : List.Forall₂ R xs ys) {y : β} (hy : y ∈ ys) : ∃ x ∈ xs, R x y := by
  induction h with
  | nil => cases hy
  | cons hab _ ih =>
    rcases List.mem_cons.mp hy with rfl | hy
    · exact ⟨_, List.mem_cons_self, hab⟩
    · obtain ⟨x, hx, hr⟩ := ih hy
      exact ⟨x, List.mem_cons_of_mem _ hx, hr⟩

theorem strncpy_of_length_lt {s : String} {len : Nat} (h : s.length < len) : strncpy s len = s := by
  have h : s.toList.length ≤ len := Nat.le_of_lt h
  rw [strncpy, List.take_of_length_le h, String.ofList_toList]

/-- Every run of `trigger_rtable_modified` ends: the sort does, and so do the writes unless the
port of an active route has no number. -/
theorem trigger_eq_none {rs : RouterState} {fuel : Nat}
    (hfuel : rs.rtable.length * rs.rtable.length < fuel)
    (h : triggerRtableModified fuel rs = none) :
    ∃ e ∈ rs.rtable, e.isActive = true ∧ getOneHotPortNumber e.iface = none := by
  obtain ⟨rtable, hsort⟩ := BubbleSort.loop_isSome swap_asymm
    (Nat.lt_of_le_of_lt (BubbleSort.inversions_le swap rs.rtable) hfuel)
  have hperm := (BubbleSort.loop_spec swap hsort).1
  cases hw : writeRtableToHw rtable with
  | none =>
    obtain ⟨e, he, hact, hp⟩ := writeRows_eq_none hw
    exact ⟨e, hperm.subset he, hact, hp⟩
  | some rows =>
    cases hn : rs.isNetfpga <;> simp [triggerRtableModified, hsort, hn, hw] at h

/-- After `trigger_rtable_modified` the table is sorted and the rows are those of its active
routes. -/
theorem trigger_eq_some {rs rs' : RouterState} {fuel : Nat} (hnet : rs.isNetfpga = true)
    (hlen : (actives rs.rtable).length ≤ 32) (h : triggerRtableModified fuel rs = some rs') :
    rs'.rtable.Perm rs.rtable ∧ (rs'.rtable.Pairwise fun x y => y.mask ≤ x.mask) ∧
      ∃ ws, List.Forall₂ RowFor (actives rs'.rtable) ws ∧
        rs'.hw = ws ++ List.replicate (32 - (actives rs.rtable).length) Row.clear := by
  obtain ⟨rtable, hsort, h⟩ := Option.bind_eq_some_iff.mp h
  rw [if_pos hnet] at h
  obtain ⟨rows, hrows, h⟩ := Option.bind_eq_some_iff.mp h
  obtain rfl := Option.some.inj h
  obtain ⟨hperm, hchain⟩ := BubbleSort.loop_spec swap hsort
  have hact : (actives rtable).length = (actives rs.rtable).length :=
    (hperm.filter Entry.isActive).length_eq
  obtain ⟨ws, hw, hr⟩ := writeRows_eq_some (hact ▸ hlen) hrows
  exact ⟨hperm, masks_descending hchain, ws, hw, hact ▸ hr⟩

/-- For every table of contiguous masks with at most 32 active routes, and every address for which
`get_next_hop` finds one: the first row of the TCAM that matches is the one written for the same
route, and next hop and port agree. -/
theorem tcam_agrees_on_hits {rs : RouterState} (hnet : rs.isNetfpga = true)
    (hc : ∀ e ∈ rs.rtable, Contiguous e.mask) (hlen : (actives rs.rtable).length ≤ 32) {fuel : Nat}
    (hfuel : rs.rtable.length * rs.rtable.length < fuel) :
    (triggerRtableModified fuel rs = none →
        ∃ e ∈ rs.rtable, e.isActive = true ∧ getOneHotPortNumber e.iface = none) ∧
      ∀ rs', triggerRtableModified fuel rs = some rs' → ∀ dst hop iface,
        getNextHop 32 rs'.rtable dst = some (hop, iface) →
        ∃ k e row port, lpmEntry rs'.rtable dst = some e ∧ (actives rs'.rtable)[k]? = some e ∧
          rs'.hw[k]? = some row ∧ rowOf e = some row ∧ tcamIndex rs'.hw dst = some k ∧
          tcamLookup rs'.hw dst = some (hop, port) ∧ getOneHotPortNumber iface = some port := by
  refine ⟨trigger_eq_none hfuel, ?_⟩
  intro rs' h dst hop iface hhop
  obtain ⟨hperm, hsorted, ws, hws, hhw⟩ := trigger_eq_some hnet hlen h
  have hlpm := lpmEntry_eq_find hsorted (fun e he => hc e (hperm.subset he)) dst
  obtain ⟨e, he, heq⟩ := Option.map_eq_some_iff.mp hhop
  have hfind : (actives rs'.rtable).find? (fun e => e.covers dst) = some e := by
    rw [actives, List.find?_filter, ← he, hlpm]
    simp [Entry.serves]
  have hhits : ∀ e row, RowFor e row → e.covers dst = row.hits dst :=
    fun e row hr => (hits_of_rowFor hr dst).symm
  obtain ⟨k, row, hk, hrow, hfor, hidx, hf⟩ := find_forall₂ hhits hws hfind
  obtain ⟨port, hport, hmk⟩ := Option.map_eq_some_iff.mp hfor
  obtain ⟨rfl, rfl⟩ := Prod.mk.inj heq
  refine ⟨k, e, row, port, he, hk, ?_, hfor, ?_, ?_, ?_⟩
  · rw [hhw]
    exact List.getElem?_append_left (List.getElem?_eq_some_iff.mp hrow).1 ▸ hrow
  · rw [tcamIndex, hhw, List.findIdx?_append, hidx]
    rfl
  · rw [tcamLookup, hhw, List.find?_append, hf, ← hmk]
    rfl
  · rw [strncpy_of_length_lt e.iface_lt]
    exact hport

/-- A route to 10.0.0.0/8 by way of `eth1`, behind a default route that is not active. -/
def sampleState : RouterState where
  rtable := [⟨0, 0, 0, "eth0", true, false, by decide⟩,
    ⟨0x0A000000, 0, 0xFF000000, "eth1", true, true, by decide⟩]
  isNetfpga := true
  hw := []

/-- The same after `trigger_rtable_modified`. -/
def sampleSorted : RouterState where
  rtable := [⟨0x0A000000, 0, 0xFF000000, "eth1", true, true, by decide⟩,
    ⟨0, 0, 0, "eth0", true, false, by decide⟩]
  isNetfpga := true
  hw := ⟨0x0A000000, 0xFF000000, 0, 4⟩ :: List.replicate 31 Row.clear

theorem trigger_sampleState : triggerRtableModified 5 sampleState = some sampleSorted := by
  rfl

theorem contiguous_sampleState : ∀ e ∈ sampleState.rtable, Contiguous e.mask := by
  intro e he
  simp only [sampleState, List.mem_cons, List.not_mem_nil, or_false] at he
  rcases he with rfl | rfl
  · exact ⟨0, by decide, by decide⟩
  · exact ⟨8, by decide, by decide⟩

/-- 10.0.0.1 is found in the first row, with itself as the next hop. -/
theorem tcam_agrees_sampleState :
    triggerRtableModified 5 sampleState = some sampleSorted ∧
      getNextHop 32 sampleSorted.rtable 0x0A000001 = some (0x0A000001, "eth1") ∧
      ∃ k e row port, lpmEntry sampleSorted.rtable 0x0A000001 = some e ∧
        (actives sampleSorted.rtable)[k]? = some e ∧ sampleSorted.hw[k]? = some row ∧
        rowOf e = some row ∧ tcamIndex sampleSorted.hw 0x0A000001 = some k ∧
        tcamLookup sampleSorted.hw 0x0A000001 = some (0x0A000001, port) ∧
        getOneHotPortNumber "eth1" = some port := by
  have hhop : getNextHop 32 sampleSorted.rtable 0x0A000001 = some (0x0A000001, "eth1") := by
    decide +kernel
  refine ⟨trigger_sampleState, hhop, ?_⟩
  exact (tcam_agrees_on_hits rfl contiguous_sampleState (by decide) (by decide)).2 _
    trigger_sampleState _ _ _ hhop

/-- For every table with at most 32 active routes and every address without one: no row of the
TCAM matches exactly if there are 32, so that no row is cleared. -/
theorem tcam_misses_iff {rs : RouterState} (hnet : rs.isNetfpga = true)
    (hlen : (actives rs.rtable).length ≤ 32) {fuel : Nat}
    (hfuel : rs.rtable.length * rs.rtable.length < fuel) :
    (triggerRtableModified fuel rs = none →
        ∃ e ∈ rs.rtable, e.isActive = true ∧ getOneHotPortNumber e.iface = none) ∧
      ∀ rs', triggerRtableModified fuel rs = some rs' → ∀ dst,
        getNextHop 32 rs'.rtable dst = none →
        ((∀ row ∈ rs'.hw, row.hits dst = false) ↔ (actives rs.rtable).length = 32) := by
  refine ⟨trigger_eq_none hfuel, ?_⟩
  intro rs' h dst hmiss
  obtain ⟨-, -, ws, hws, hhw⟩ := trigger_eq_some hnet hlen h
  have hno := (lpmEntry_eq_none_iff _ _).mp (Option.map_eq_none_iff.mp hmiss)
  have hrows : ∀ row ∈ ws, row.hits dst = false := by
    intro row hrow
    obtain ⟨e, he, hfor⟩ := mem_right_forall₂ hws hrow
    obtain ⟨hmem, hact⟩ := List.mem_filter.mp he
    have hserves := hno e hmem
    rw [Entry.serves, hact, Bool.true_and] at hserves
    rw [hits_of_rowFor hfor, hserves]
  rw [hhw]
  constructor
  · intro hall
    by_contra hne
    have hclear := hall Row.clear (by simp; omega)
    rw [hits_clear] at hclear
    cases hclear
  · intro hfull row hrow
    rw [hfull, Nat.sub_self, List.replicate_zero, List.append_nil] at hrow
    exact hrows row hrow

theorem tcam_misses_sampleState :
    getNextHop 32 sampleSorted.rtable 0x0B000001 = none ∧
      ((∀ row ∈ sampleSorted.hw, row.hits 0x0B000001 = false) ↔
        (actives sampleState.rtable).length = 32) := by
  have hmiss : getNextHop 32 sampleSorted.rtable 0x0B000001 = none := by decide +kernel
  exact ⟨hmiss, (tcam_misses_iff rfl (by decide) (by decide)).2 _ trigger_sampleState _ hmiss⟩

/-- 11.0.0.1 has no route, and the second row, which was cleared, matches it. -/
theorem cleared_row_matches :
    triggerRtableModified 5 sampleState = some sampleSorted ∧
      (actives sampleState.rtable).length = 1 ∧
      getNextHop 32 sampleSorted.rtable 0x0B000001 = none ∧
      tcamIndex sampleSorted.hw 0x0B000001 = some 1 := by
  exact ⟨trigger_sampleState, by decide, by decide +kernel, by decide +kernel⟩

end Osnt.Scone.Rtable
