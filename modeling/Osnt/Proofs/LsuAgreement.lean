import Osnt.Proofs.LsuFlooding

/-! A network of routers floods as `Osnt.Lib.Flooding` has it: what they send is bounded, and while
no LSU is lost they come to agree on what each of them has said last. -/
namespace Osnt.Scone.LsuNetwork
open Lib Lib.Buffer Pwospf

section Events
variable {ι : Type}

/-- The neighbours stay, and no entry times out. The interfaces that a router comes to have are at
least one, numbered with their subnets, and an LSU of them fits in a packet. -/
def Event.Steady : Event ι → Prop
  | .readvertise _ interfaces =>
    Masked interfaces ∧ 32 + 12 * interfaces.length < 2 ^ 16 ∧ interfaces ≠ []
  | .timeout _ _ => False
  | .relink _ _ => False
  | _ => True

def Event.loses : Event ι → Bool
  | .lose _ => true
  | _ => false

def Event.repeats : Event ι → Bool
  | .duplicate _ => true
  | _ => false

variable [DecidableEq ι]

/-- Router `i` is to send an LSU. -/
def Event.asks (i : ι) : Event ι → Bool
  | .flood j => j = i
  | .readvertise j _ => j = i
  | _ => false

/-- Router `i` has other interfaces. -/
def Event.relists (i : ι) : Event ι → Bool
  | .readvertise j _ => j = i
  | _ => false

variable [Fintype ι]

/-- The LSUs that a router can come to send: those it is asked for, and one for each list of
interfaces of another router. -/
def most (events : List (Event ι)) (i : ι) : Nat :=
  events.countP (Event.asks i) + ∑ j ∈ Finset.univ.erase i, (1 + events.countP (Event.relists j))

theorem most_mono (events more : List (Event ι)) (i : ι) :
    most events i ≤ most (events ++ more) i := by
  unfold most
  simp only [List.countP_append]
  refine Nat.add_le_add (Nat.le_add_right _ _) (Finset.sum_le_sum fun j _ => ?_)
  omega

end Events

section Runs
variable {ι : Type} (routers : ι → Router) (owner : BitVec 32 → ι) (lossy : Prop)

/-- What a router holds about another one. -/
def view (st : State ι) (x y : ι) : Option Content :=
  (st.routers x).pwospf.entry (routers y).pwospf.routerId

/-- What no event changes. -/
structure Fixed (st : State ι) : Prop where
  ids : ∀ i, (st.routers i).pwospf.routerId = (routers i).pwospf.routerId ∧
    (st.routers i).pwospf.areaId = (routers i).pwospf.areaId
  flags : ∀ i, (st.routers i).pwospf.pwospfLsuBroadcast = true
  links : ∀ i, (st.routers i).ifList = (routers i).ifList ∧
    (st.routers i).addr = (routers i).addr

variable [DecidableEq ι] [Fintype ι]

/-- The network after `events`, beside the flooding. -/
structure Follows (events : List (Event ι)) (st : State ι) (h : ι → Story Text)
    (s : Flooding.State ι) (made repeated gone : Nat) : Prop where
  run : Flooding.Run (nbrs routers owner) 64 lossy made repeated gone s
  mirrors : Mirrors routers owner h (view routers st) st.flight s
  fixed : Fixed routers st
  built : ∀ i, (st.built i).length = s.level i i
  sent : st.sent + repeated = gone + st.flight.length
  repeats : repeated ≤ events.countP Event.repeats
  texts : ∀ i, (h i).texts.length = 1 + events.countP (Event.relists i)
  budget : ∀ i, s.level i i ≤ events.countP (Event.asks i) +
    ∑ j ∈ Finset.univ.erase i, (h j).seen (s.level i j)

/-- Before the LSU of router `i`, which has `rs` by now and passes `copies` on. -/
structure Midway (events : List (Event ι)) (st : State ι) (i : ι) (rs : RouterState)
    (copies : List Bytes) (entry : ι → ι → Option Content) (h : ι → Story Text)
    (s : Flooding.State ι) (made repeated gone : Nat) : Prop where
  run : Flooding.Run (nbrs routers owner) 64 lossy made repeated gone s
  mirrors : Mirrors routers owner h entry (st.flight ++ copies) s
  others : ∀ x y, x ≠ i → entry x y = view routers st x y
  held : ∀ y, y ≠ i → entry i y = rs.entry (routers y).pwospf.routerId
  fixed : Fixed routers st
  ids : rs.routerId = (routers i).pwospf.routerId ∧ rs.areaId = (routers i).pwospf.areaId
  flag : rs.pwospfLsuBroadcast = true
  built : ∀ j, (st.built j).length = s.level j j
  sent : st.sent + copies.length + repeated = gone + (st.flight ++ copies).length
  repeats : repeated ≤ events.countP Event.repeats
  budget : ∀ j, s.level j j ≤ events.countP (Event.asks j) +
    ∑ y ∈ Finset.univ.erase j, (h y).seen (s.level j y)

variable {routers owner lossy} {events : List (Event ι)} {st st' : State ι} {i : ι}
  {rs : RouterState} {copies sent : List Bytes} {flooded : Flood}
  {entry : ι → ι → Option Content}
  {h : ι → Story Text} {s : Flooding.State ι} {made repeated gone : Nat}

omit [Fintype ι] in
theorem Fixed.emit (hf : Fixed routers st)
    (hids : rs.routerId = (routers i).pwospf.routerId ∧ rs.areaId = (routers i).pwospf.areaId)
    (hflag : rs.pwospfLsuBroadcast = true) (he : Emitted st i rs copies flooded sent st') :
    Fixed routers st' := by
  refine ⟨fun x => ?_, fun x => ?_, fun x => ?_⟩
  · by_cases hx : x = i
    · subst hx
      rw [he.self]
      exact hids
    · rw [he.others x hx]
      exact hf.ids x
  · by_cases hx : x = i
    · subst hx
      rw [he.self]
      exact hflag
    · rw [he.others x hx]
      exact hf.flags x
  · rw [(he.links x).1, (he.links x).2]
    exact hf.links x

omit [Fintype ι] in
theorem view_emit (he : Emitted st i rs copies flooded sent st') (x y : ι) :
    view routers st' x y =
      if x = i then rs.entry (routers y).pwospf.routerId else view routers st x y := by
  unfold view
  by_cases hx : x = i
  · subst hx
    rw [he.self, if_pos rfl]
  · rw [he.others x hx, if_neg hx]

theorem Midway.silent
    (hm : Midway routers owner lossy events st i rs copies entry h s made repeated gone)
    (htexts : ∀ j, (h j).texts.length = 1 + events.countP (Event.relists j))
    (hown : rs.entry (routers i).pwospf.routerId = entry i i) :
    ∃ st', st.emit i rs copies .none = some st' ∧
      Follows routers owner lossy events st' h s made repeated gone := by
  have hflood : (st.routers i).flood .none = some [] := rfl
  obtain ⟨st', hst', he⟩ := emit_eq rs copies hflood
  have hview : view routers st' = entry := by
    funext x y
    rw [view_emit he]
    by_cases hx : x = i
    · subst hx
      rw [if_pos rfl]
      by_cases hy : y = x
      · subst hy
        exact hown
      · exact (hm.held y hy).symm
    · rw [if_neg hx, hm.others x y hx]
  have hflight : st'.flight = st.flight ++ copies := he.flight.trans (List.append_nil _)
  refine ⟨st', hst', hm.run, ?_, hm.fixed.emit hm.ids hm.flag he, fun j => ?_, ?_, hm.repeats,
    htexts, hm.budget⟩
  · rw [hview, hflight]
    exact hm.mirrors
  · by_cases hj : j = i
    · subst hj
      rw [he.built]
      exact (congrArg List.length (List.append_nil _)).trans (hm.built j)
    · rw [he.builds j hj]
      exact hm.built j
  · rw [he.sent, hflight]
    exact hm.sent

/-- A router has seen at most the lists that the others have had. -/
theorem seen_le_relists (hm : Mirrors routers owner h entry copies s) (hs : Flooding.Sound s)
    (i : ι) (htexts : ∀ y, y ≠ i → (h y).texts.length = 1 + events.countP (Event.relists y)) :
    ∑ y ∈ Finset.univ.erase i, (h y).seen (s.level i y) ≤
      ∑ y ∈ Finset.univ.erase i, (1 + events.countP (Event.relists y)) := by
  refine Finset.sum_le_sum fun y hy => ?_
  obtain ⟨own, -, hvoice, -⟩ := hm.own y
  rw [← htexts y (Finset.ne_of_mem_erase hy)]
  apply (h y).seen_le
  rw [hvoice.count]
  exact hs.own i y

theorem Midway.said (hw : Wired routers owner)
    (hm : Midway routers owner lossy events st i rs copies entry h s made repeated gone)
    {g : Story Text}
    {own : Content} (hgrow : ∀ n text, (h i).Says n text → g.Says n text)
    (hseen : ∀ n ≤ s.level i i, g.say.seen n = (h i).seen n) (hvoice : Voice g own (s.level i i))
    (htexts : ∀ j, (Function.update h i g j).texts.length = 1 + events.countP (Event.relists j))
    (hslack : s.level i i < events.countP (Event.asks i) +
      ∑ j ∈ Finset.univ.erase i, (h j).seen (s.level i j))
    (hfew : most events i ≤ 2 ^ 16) {interfaces : List PwospfInterface}
    (hsame : interfaces.map PwospfInterface.content = own.interfaces)
    (hself : rs.entry (routers i).pwospf.routerId = some { own with seq := own.seq + 1 }) :
    ∃ st', st.emit i rs copies (.lsu (lsuPacket (routers i).pwospf own.seq interfaces)) = some st' ∧
      Follows routers owner lossy events st' (Function.update h i g.say)
        (Flooding.originate (nbrs routers owner) 64 i s) (made + 1) repeated gone := by
  have hsound := hm.run.sound
  obtain ⟨hmasked, hshort⟩ := hvoice.sendable.of_content hsame
  have htargets : (st.routers i).targets none = (routers i).targets none := by
    rw [Router.targets, Router.targets, (hm.fixed.links i).1, (hm.fixed.links i).2]
  obtain ⟨sent, hsent, hall⟩ :=
    broadcast_carried (st.routers i) (routers i).pwospf own.seq 64 hshort none
  have hflood : (st.routers i).flood (.lsu (lsuPacket (routers i).pwospf own.seq interfaces)) =
      some sent := by
    rw [← carried_new]
    exact hsent
  rw [htargets] at hall
  obtain ⟨st', hst', he⟩ := emit_eq rs copies hflood
  have hsmall : s.level i i < 2 ^ 16 := by
    have hothers : ∀ y, y ≠ i → (h y).texts.length = 1 + events.countP (Event.relists y) := by
      intro y hy
      have hy' := htexts y
      rwa [Function.update_of_ne hy] at hy'
    have hle := seen_le_relists hm.mirrors hsound i hothers
    unfold most at hfew
    omega
  have hmirrors : Mirrors routers owner (Function.update h i g.say) (view routers st')
      (st.flight ++ copies ++ sent) (Flooding.originate (nbrs routers owner) 64 i s) := by
    refine hm.mirrors.say hw i hgrow hvoice hsmall hsame hall (fun x y hxy => ?_) ?_
    · rw [view_emit he]
      by_cases hx : x = i
      · subst hx
        rw [if_pos rfl, hm.held y fun hy => hxy ⟨rfl, hy⟩]
      · rw [if_neg hx, hm.others x y hx]
    · rw [view_emit he, if_pos rfl]
      exact hself
  refine ⟨st', hst', hm.run.originate i, ?_, hm.fixed.emit hm.ids hm.flag he, fun j => ?_, ?_,
    hm.repeats, fun j => ?_, fun j => ?_⟩
  · rw [he.flight]
    exact hmirrors
  · change _ = Flooding.raise s.level i i (s.level i i + 1) j j
    by_cases hj : j = i
    · subst hj
      rw [he.built, Flooding.raise_self, List.length_append, hm.built j]
      rfl
    · rw [he.builds j hj, Flooding.raise_of_ne _ fun h => hj h.1]
      exact hm.built j
  · have hsent := hm.sent
    rw [he.sent, he.flight]
    simp only [List.length_append] at hsent ⊢
    omega
  · have hj := htexts j
    by_cases hji : j = i
    · subst hji
      rw [Function.update_self] at hj ⊢
      exact hj
    · rw [Function.update_of_ne hji] at hj ⊢
      exact hj
  · change Flooding.raise s.level i i (s.level i i + 1) j j ≤ _ + ∑ y ∈ Finset.univ.erase j,
      (Function.update h i g.say y).seen (Flooding.raise s.level i i (s.level i i + 1) j y)
    have hsum : ∑ y ∈ Finset.univ.erase j, (Function.update h i g.say y).seen
          (Flooding.raise s.level i i (s.level i i + 1) j y) =
        ∑ y ∈ Finset.univ.erase j, (h y).seen (s.level j y) := by
      refine Finset.sum_congr rfl fun y hy => ?_
      have hne := Finset.ne_of_mem_erase hy
      rw [Flooding.raise_of_ne _ fun h => hne (h.2.trans h.1.symm)]
      by_cases hyi : y = i
      · subst hyi
        rw [Function.update_self, hseen _ (hsound.own j y)]
      · rw [Function.update_of_ne hyi]
    rw [hsum]
    by_cases hj : j = i
    · subst hj
      rw [Flooding.raise_self]
      exact hslack
    · rw [Flooding.raise_of_ne _ fun h => hj h.1]
      exact hm.budget j

theorem Follows.midway (hf : Follows routers owner lossy events st h s made repeated gone)
    (e : Event ι)
    {i : ι} {rs : RouterState} (hframes : Frames (st.routers i).pwospf rs)
    (hflag : rs.pwospfLsuBroadcast = (st.routers i).pwospf.pwospfLsuBroadcast)
    (hw : Wired routers owner) :
    Midway routers owner lossy (events ++ [e]) st i rs [] (view routers st) h s made repeated gone
    where
  run := hf.run
  mirrors := by
    rw [List.append_nil]
    exact hf.mirrors
  others _ _ _ := rfl
  held y hy := by
    refine (hframes.entry _ fun hid => hy (hw.ids y i ?_)).symm
    rw [hid]
    exact (hf.fixed.ids i).1
  fixed := hf.fixed
  ids := by
    rw [hframes.routerId, hframes.areaId]
    exact hf.fixed.ids i
  flag := hflag.trans (hf.fixed.flags i)
  built := hf.built
  sent := by
    rw [List.append_nil]
    exact hf.sent
  repeats := by
    rw [List.countP_append]
    exact hf.repeats.trans (Nat.le_add_right _ _)
  budget j := by
    rw [List.countP_append]
    exact (hf.budget j).trans (Nat.add_le_add_right (Nat.le_add_right _ _) _)

theorem Follows.flood (hw : Wired routers owner)
    (hf : Follows routers owner lossy events st h s made repeated gone) (i : ι)
    (hfew : most (events ++ [.flood i]) i ≤ 2 ^ 16) :
    ∃ st' h' s' made', st.step (.flood i) = some st' ∧
      Follows routers owner lossy (events ++ [.flood i]) st' h' s' made' repeated gone := by
  obtain ⟨own, hown, hvoice, -⟩ := hf.mirrors.own i
  have hid := (hf.fixed.ids i).1
  unfold view at hown
  rw [← hid] at hown
  obtain ⟨hfloods, hsome, hflag⟩ := startLsuBcastFlood_floods hown
  have hmid := hf.midway (.flood i) (startLsuBcastFlood_frames (st.routers i).pwospf) hflag hw
  cases hout : (startLsuBcastFlood (st.routers i).pwospf).2 with
  | none => exact absurd hout (hsome (hf.fixed.flags i))
  | aborts =>
    rw [hout] at hfloods
    cases hfloods
  | lsu bytes =>
    rw [hout] at hfloods
    cases hfloods with
    | built interfaces hsame hself =>
      rw [hid] at hself
      have hcongr := lsuPacket_congr hid (hf.fixed.ids i).2 own.seq interfaces
      have htexts : ∀ j, (Function.update h i (h i) j).texts.length =
          1 + (events ++ [Event.flood i]).countP (Event.relists j) := by
        intro j
        rw [Function.update_eq_self, List.countP_append, hf.texts j]
        rfl
      have hslack : s.level i i < (events ++ [Event.flood i]).countP (Event.asks i) +
          ∑ j ∈ Finset.univ.erase i, (h j).seen (s.level i j) := by
        have hbudget := hf.budget i
        have hone : [Event.flood i].countP (Event.asks i) = 1 := by simp [Event.asks]
        rw [List.countP_append, hone]
        omega
      obtain ⟨st', hst', hf'⟩ := hmid.said hw (fun _ _ h => h)
        (fun n hn => (h i).seen_say (hvoice.count ▸ hn)) hvoice htexts hslack hfew hsame hself
      refine ⟨st', _, _, _, ?_, hf'⟩
      change st.emit i _ [] (startLsuBcastFlood (st.routers i).pwospf).2 = _
      rw [hout, hcongr]
      exact hst'

theorem Voice.retext {g : Story Text} {own : Content} {n : Nat} (hv : Voice g own n)
    {interfaces : List PwospfInterface} (hmasked : Masked interfaces)
    (hshort : 32 + 12 * interfaces.length < 2 ^ 16) (hne : interfaces ≠ []) :
    Voice (g.retext (interfaces.map PwospfInterface.content))
      { own with interfaces := interfaces.map PwospfInterface.content } n := by
  refine ⟨⟨by rwa [List.length_map], fun t ht => ?_⟩, (g.current_retext _).symm, hv.seq, hv.count,
    fun text htext => ?_⟩
  · obtain ⟨x, hx, rfl⟩ := List.mem_map.mp ht
    exact hmasked x hx
  · rcases List.mem_append.mp htext with htext | htext
    · exact hv.nonempty text htext
    · rw [List.mem_singleton.mp htext]
      exact fun hnil => hne (List.map_eq_nil_iff.mp hnil)

/-- A router comes to have other interfaces, and says so. -/
theorem Follows.readvertise (hw : Wired routers owner)
    (hf : Follows routers owner lossy events st h s made repeated gone) (i : ι)
    {interfaces : List PwospfInterface} (hmasked : Masked interfaces)
    (hshort : 32 + 12 * interfaces.length < 2 ^ 16) (hne : interfaces ≠ [])
    (hfew : most (events ++ [.readvertise i interfaces]) i ≤ 2 ^ 16) :
    ∃ st' h' s' made', st.step (.readvertise i interfaces) = some st' ∧
      Follows routers owner lossy (events ++ [.readvertise i interfaces]) st' h' s' made' repeated
        gone := by
  obtain ⟨own, hown, hvoice, -⟩ := hf.mirrors.own i
  have hid := (hf.fixed.ids i).1
  unfold view at hown
  rw [← hid] at hown
  obtain ⟨rs, hrs, hids, hflag⟩ : ∃ rs, (st.routers i).pwospf.setOurs
      (fun r => { r with interfaceList := interfaces }) = rs ∧
      (rs.routerId = (routers i).pwospf.routerId ∧ rs.areaId = (routers i).pwospf.areaId) ∧
      rs.pwospfLsuBroadcast = (st.routers i).pwospf.pwospfLsuBroadcast :=
    ⟨_, rfl, hf.fixed.ids i, rfl⟩
  have hnew := entry_setInterfaces interfaces hown
  have hkept := fun rid hrid => @setInterfaces_entry (st.routers i).pwospf interfaces rid hrid
  rw [hrs, hid, ← hids.1] at hnew
  rw [hrs] at hkept
  obtain ⟨hfloods, hsome, hflag'⟩ := propagatePwospfChanges_floods hnew
  have hframes := propagatePwospfChanges_frames rs
  have hmid := hf.midway (.readvertise i interfaces)
    ⟨hframes.routerId.trans (hids.1.trans hid.symm),
      hframes.areaId.trans (hids.2.trans (hf.fixed.ids i).2.symm),
      fun rid hrid => (hframes.entry rid (hids.1.trans hid.symm ▸ hrid)).trans (hkept rid hrid)⟩
    (hflag'.trans hflag) hw
  have hstep : st.step (.readvertise i interfaces) =
      st.emit i (propagatePwospfChanges rs).1 [] (propagatePwospfChanges rs).2 := by
    rw [← hrs]
    rfl
  cases hout : (propagatePwospfChanges rs).2 with
  | none => exact absurd hout (hsome (hflag.trans (hf.fixed.flags i)))
  | aborts =>
    rw [hout] at hfloods
    cases hfloods
  | lsu bytes =>
    rw [hout] at hfloods hstep
    cases hfloods with
    | built interfaces' hsame hself =>
      rw [hids.1] at hself
      have hcongr := lsuPacket_congr hids.1 hids.2 own.seq interfaces'
      have htexts : ∀ j, (Function.update h i
          ((h i).retext (interfaces.map PwospfInterface.content)) j).texts.length =
          1 + (events ++ [Event.readvertise i interfaces]).countP (Event.relists j) := by
        intro j
        rw [List.countP_append]
        by_cases hj : j = i
        · subst hj
          have hone : [Event.readvertise j interfaces].countP (Event.relists j) = 1 := by
            simp [Event.relists]
          rw [Function.update_self, Story.length_retext, hf.texts j, hone, Nat.add_assoc]
        · have hzero : [Event.readvertise i interfaces].countP (Event.relists j) = 0 := by
            simp [Event.relists, Ne.symm hj]
          rw [Function.update_of_ne hj, hf.texts j, hzero, Nat.add_zero]
      have hslack : s.level i i <
          (events ++ [Event.readvertise i interfaces]).countP (Event.asks i) +
          ∑ j ∈ Finset.univ.erase i, (h j).seen (s.level i j) := by
        have hbudget := hf.budget i
        have hone : [Event.readvertise i interfaces].countP (Event.asks i) = 1 := by
          simp [Event.asks]
        rw [List.countP_append, hone]
        omega
      have hseen : ∀ n ≤ s.level i i,
          ((h i).retext (interfaces.map PwospfInterface.content)).say.seen n = (h i).seen n := by
        intro n hn
        rw [Story.seen_say _ (by rw [Story.retext_said, hvoice.count]; exact hn),
          Story.seen_retext]
      obtain ⟨st', hst', hf'⟩ := hmid.said hw
        (fun n text htext => htext.retext (interfaces.map PwospfInterface.content)) hseen
        (hvoice.retext hmasked hshort hne) htexts hslack hfew hsame hself
      refine ⟨st', _, _, _, ?_, hf'⟩
      rw [hstep, ← hst', ← hcongr]

/-- An LSU that changes anything is of a list that has not been seen. -/
theorem Knows.seen_lt {g : Story Text} {e : Option Content} {n : Nat} (hk : Knows g e n)
    (hnonempty : ∀ text ∈ g.texts, text ≠ []) {m : Nat} {text : Text} (hword : g.Says m text)
    (hnew : n < m + 1)
    (hchange : ∀ c, e = some c → c.interfaces ≠ [] → ¬ ∀ t, t ∈ c.interfaces ↔ t ∈ text) :
    g.seen n < g.seen (m + 1) := by
  cases hk with
  | nothing => exact Nat.succ_pos _
  | @entry c n text' hseq hsmall hword' hsame =>
    refine Nat.lt_of_le_of_ne (g.seen_mono hnew.le hword.lt) fun hseen => ?_
    obtain rfl := hword'.unique hword hseen
    refine hchange c rfl (fun hnil => hnonempty _ hword'.mem ?_) hsame
    exact List.eq_nil_iff_forall_not_mem.mpr fun t ht => by
      rw [← hsame, hnil] at ht
      cases ht

/-- What node `d` may have seen after update `n` of node `r`. -/
theorem seen_raise_le {level : ι → ι → Nat} {d r : ι} {n : Nat} (hnew : level d r < n)
    (hn : n ≤ (h r).said.length) (j : ι) :
    ∑ y ∈ Finset.univ.erase j, (h y).seen (level j y) ≤
      ∑ y ∈ Finset.univ.erase j, (h y).seen (Flooding.raise level d r n j y) := by
  refine Finset.sum_le_sum fun y _ => ?_
  by_cases hat : j = d ∧ y = r
  · obtain ⟨rfl, rfl⟩ := hat
    rw [Flooding.raise_self]
    exact (h y).seen_mono hnew.le hn
  · rw [Flooding.raise_of_ne _ hat]

theorem seen_raise_lt {level : ι → ι → Nat} {d r : ι} {n : Nat} (hne : r ≠ d)
    (hlt : (h r).seen (level d r) < (h r).seen n) :
    ∑ y ∈ Finset.univ.erase d, (h y).seen (level d y) <
      ∑ y ∈ Finset.univ.erase d, (h y).seen (Flooding.raise level d r n d y) := by
  refine Finset.sum_lt_sum (fun y _ => ?_) ⟨r, Finset.mem_erase.mpr ⟨hne, Finset.mem_univ r⟩, ?_⟩
  · by_cases hy : y = r
    · subst hy
      rw [Flooding.raise_self]
      exact hlt.le
    · rw [Flooding.raise_of_ne _ fun h => hy h.2]
  · rw [Flooding.raise_self]
    exact hlt

omit [DecidableEq ι] [Fintype ι] in
theorem Fixed.dst (hf : Fixed routers st) (hw : Wired routers owner) {i : ι} {packet : Bytes}
    {sourceIp destIp : BitVec 32} {pwospf : Bytes} (hframed : Framed packet sourceIp destIp pwospf)
    (hfor : (st.routers i).isFor packet = true) : owner destIp = i := by
  unfold Router.isFor at hfor
  rw [hframed.dest] at hfor
  obtain ⟨iface, hmem, hmatch⟩ := List.any_eq_true.mp hfor
  rw [Bool.and_eq_true, beq_iff_eq] at hmatch
  rw [(hf.links i).1] at hmem
  rw [← hmatch.2]
  exact hw.owns i iface hmem hmatch.1

theorem length_eraseIdx_of_get {k : Nat} {packet : Bytes} {flight : List Bytes}
    (hget : flight[k]? = some packet) : (flight.eraseIdx k).length + 1 = flight.length := by
  obtain ⟨hk, -⟩ := List.getElem?_eq_some_iff.mp hget
  exact List.length_eraseIdx_add_one hk

theorem Follows.ignore (hf : Follows routers owner lossy events st h s made repeated gone) (k : Nat)
    (i : ι) {packet : Bytes} (hget : st.flight[k]? = some packet) {s' : Flooding.State ι}
    (hstep : Flooding.Delivers (nbrs routers owner) s s') (hlevel : s'.level = s.level)
    (hrest : List.Forall₂ (Carries routers owner h) (st.flight.eraseIdx k) s'.flight) :
    ∃ st', ({ st with flight := st.flight.eraseIdx k } : State ι).emit i (st.routers i).pwospf []
        .none = some st' ∧
      Follows routers owner lossy (events ++ [.deliver k i]) st' h s' made repeated (gone + 1) := by
  have hmid : Midway routers owner lossy (events ++ [.deliver k i])
      { st with flight := st.flight.eraseIdx k } i (st.routers i).pwospf [] (view routers st) h s'
      made repeated (gone + 1) := by
    refine ⟨hf.run.deliver hstep, ⟨?_, ?_, ?_⟩, fun _ _ _ => rfl, fun _ _ => rfl,
      ⟨hf.fixed.ids, hf.fixed.flags, hf.fixed.links⟩, hf.fixed.ids i, hf.fixed.flags i, ?_, ?_, ?_,
      ?_⟩
    · rw [hlevel]
      exact hf.mirrors.own
    · rw [hlevel]
      exact hf.mirrors.held
    · rw [List.append_nil]
      exact hrest
    · rw [hlevel]
      exact hf.built
    · have hsent := hf.sent
      have hlen := length_eraseIdx_of_get hget
      rw [List.append_nil]
      dsimp only [List.length_nil]
      omega
    · rw [List.countP_append]
      exact hf.repeats
    · intro j
      rw [hlevel, List.countP_append]
      exact (hf.budget j).trans (Nat.add_le_add_right (Nat.le_add_right _ _) _)
  refine hmid.silent (fun j => ?_) rfl
  rw [List.countP_append, hf.texts j]
  rfl

/-- Router `m.dst` takes an LSU in, before any LSU of its own. -/
theorem Follows.accept {level : ι → ι → Nat} {front back : List (Flooding.Message ι)}
    {m : Flooding.Message ι}
    (hf : Follows routers owner lossy events st h ⟨level, front ++ m :: back⟩ made repeated gone)
    (hw : Wired routers owner) {k : Nat} {packet : Bytes} (hget : st.flight[k]? = some packet)
    {seq ttl : BitVec 16} {interfaces : List PwospfInterface} {sourceIp destIp : BitVec 32}
    (hcarry : Carrying routers owner h packet m seq ttl interfaces sourceIp destIp)
    (hrest : List.Forall₂ (Carries routers owner h) (st.flight.eraseIdx k) (front ++ back))
    (hother : m.dst ≠ m.origin) (hnew : level m.dst m.origin < m.number) {rs : RouterState}
    (hids : rs.routerId = (routers m.dst).pwospf.routerId ∧
      rs.areaId = (routers m.dst).pwospf.areaId)
    (hflag : rs.pwospfLsuBroadcast = true)
    (hframes : ∀ y, y ≠ m.origin → y ≠ m.dst →
      rs.entry (routers y).pwospf.routerId = view routers st m.dst y)
    {rid : BitVec 32} {held : Text}
    (hself : rs.entry (routers m.origin).pwospf.routerId = some ⟨rid, seq, held⟩)
    (hheld : ∀ t, t ∈ held ↔ t ∈ interfaces.map PwospfInterface.content)
    (hcopies : if ttl = 1 then copies = [] else
      List.Forall₂ (fun t packet => Framed packet t.2.1 t.2.2
        (carried (routers m.origin).pwospf seq interfaces (ttl - 1)))
        ((routers m.dst).targets (some sourceIp)) copies) :
    ∃ s' entry, s'.level = Flooding.raise level m.dst m.origin m.number ∧
      entry m.dst m.dst = view routers st m.dst m.dst ∧
      Midway routers owner lossy (events ++ [.deliver k m.dst])
        { st with flight := st.flight.eraseIdx k } m.dst rs copies entry h s' made repeated
        (gone + 1) := by
  have hnumber : m.number ≤ (h m.origin).said.length := by
    rw [hcarry.number]
    exact hcarry.told.lt
  have hdiag : ∀ j, Flooding.raise level m.dst m.origin m.number j j = level j j := fun j =>
    Flooding.raise_of_ne _ fun h => hother (h.1.symm.trans h.2)
  obtain ⟨hsub, hall⟩ := nbrs_passOn routers owner m.dst sourceIp
  rw [hcarry.src] at hall
  obtain ⟨entry, hentry, hat⟩ : ∃ entry : ι → ι → Option Content,
      (∀ x y, ¬ (x = m.dst ∧ y = m.origin) → entry x y = view routers st x y) ∧
        entry m.dst m.origin = rs.entry (routers m.origin).pwospf.routerId :=
    ⟨fun x y => if x = m.dst ∧ y = m.origin then rs.entry (routers m.origin).pwospf.routerId
      else view routers st x y, fun x y hxy => if_neg hxy, if_pos ⟨rfl, rfl⟩⟩
  refine ⟨_, entry, rfl, hentry _ _ fun h => hother h.2,
    hf.run.deliver (.accept _ hnew hsub hall),
    hf.mirrors.accept hw hcarry hrest hother hentry (hat.trans hself) hheld hcopies,
    fun x y hx => hentry x y fun h => hx h.1, fun y hy => ?_,
    ⟨hf.fixed.ids, hf.fixed.flags, hf.fixed.links⟩, hids, hflag, fun j => ?_, ?_, ?_, fun j => ?_⟩
  · by_cases hyo : y = m.origin
    · rw [hyo, hat]
    · rw [hentry _ _ fun h => hyo h.2, hframes y hyo hy]
  · exact (hf.built j).trans (hdiag j).symm
  · have hsent := hf.sent
    have hlen := length_eraseIdx_of_get hget
    rw [List.length_append]
    dsimp only
    omega
  · rw [List.countP_append]
    exact hf.repeats
  · dsimp only
    rw [hdiag, List.countP_append]
    have hbudget := hf.budget j
    have hsum := seen_raise_le hnew hnumber j
    dsimp only at hbudget
    omega

theorem Follows.old (hf : Follows routers owner lossy events st h s made repeated gone)
    (hw : Wired routers owner) {m : Flooding.Message ι} (hm : m ∈ s.flight) {packet : Bytes}
    {seq ttl : BitVec 16} {interfaces : List PwospfInterface} {sourceIp destIp : BitVec 32}
    (hcarry : Carrying routers owner h packet m seq ttl interfaces sourceIp destIp)
    (hold : (routers m.origin).pwospf.areaId = (st.routers m.dst).pwospf.areaId →
      swap32 (routers m.origin).pwospf.routerId ≠ (st.routers m.dst).pwospf.routerId →
      (st.routers m.dst).pwospf.routerId ≠ (routers m.origin).pwospf.routerId →
      ∃ c, view routers st m.dst m.origin = some c ∧ ¬ c.seq < seq) :
    m.number ≤ s.level m.dst m.origin := by
  have hsound := hf.run.sound
  obtain ⟨hid, harea⟩ := hf.fixed.ids m.dst
  by_cases horigin : m.dst = m.origin
  · rw [horigin]
    exact (hsound.known m hm).trans (hsound.own m.src m.origin)
  · obtain ⟨c, hc, hnot⟩ := hold ((hw.area m.origin m.dst).trans harea.symm)
      (fun he => hw.swapped m.origin m.dst (he.trans hid))
      (fun he => horigin (hw.ids m.dst m.origin (hid.symm.trans he)))
    rw [hcarry.number]
    exact (hf.mirrors.held m.dst m.origin horigin).le hc hnot

omit [DecidableEq ι] [Fintype ι] in
theorem Fixed.passOn (hf : Fixed routers st) {i : ι} {packet : Bytes} {sourceIp destIp : BitVec 32}
    {A : RouterState} {seq ttl : BitVec 16} {interfaces : List PwospfInterface}
    (hframed : Framed packet sourceIp destIp (carried A seq interfaces ttl))
    (hshort : 32 + 12 * interfaces.length < 2 ^ 16) :
    ∃ copies, (st.routers i).passOn packet
        (if ttl = 1 then .none else .copy (carried A seq interfaces (ttl - 1))) = some copies ∧
      if ttl = 1 then copies = [] else
        List.Forall₂ (fun t packet => Framed packet t.2.1 t.2.2
          (carried A seq interfaces (ttl - 1))) ((routers i).targets (some sourceIp)) copies := by
  by_cases hone : ttl = 1
  · simp only [if_pos hone]
    exact ⟨[], rfl, rfl⟩
  · simp only [if_neg hone]
    obtain ⟨copies, hcopies, hall⟩ :=
      broadcast_carried (st.routers i) A seq (ttl - 1) hshort (some sourceIp)
    have htargets : (st.routers i).targets (some sourceIp) =
        (routers i).targets (some sourceIp) := by
      rw [Router.targets, Router.targets, (hf.links i).1, (hf.links i).2]
    rw [htargets] at hall
    refine ⟨copies, ?_, hall⟩
    rw [Router.passOn, hframed.source, Option.bind_eq_bind, Option.bind_some, hcopies]

/-- An LSU of its own that a router sends for another one is for a list that it has not seen. -/
theorem Follows.seen_lt {level : ι → ι → Nat} {flight : List (Flooding.Message ι)}
    {m : Flooding.Message ι}
    (hf : Follows routers owner lossy events st h ⟨level, flight⟩ made repeated gone)
    {packet : Bytes} {seq ttl : BitVec 16} {interfaces : List PwospfInterface}
    {sourceIp destIp : BitVec 32}
    (hcarry : Carrying routers owner h packet m seq ttl interfaces sourceIp destIp)
    (hother : m.dst ≠ m.origin) (hnew : level m.dst m.origin < m.number)
    (hchange : ∀ c, view routers st m.dst m.origin = some c → c.interfaces ≠ [] →
      ¬ ∀ t, t ∈ c.interfaces ↔ t ∈ interfaces.map PwospfInterface.content) :
    (h m.origin).seen (level m.dst m.origin) < (h m.origin).seen m.number := by
  obtain ⟨origins, -, hspoken, -⟩ := hf.mirrors.own m.origin
  rw [hcarry.number] at hnew ⊢
  exact (hf.mirrors.held m.dst m.origin hother).seen_lt hspoken.nonempty hcarry.told hnew hchange

/-- Router `m.dst` has taken an LSU in, and sends one of its own if it is to. -/
theorem Follows.answer {level : ι → ι → Nat} {flight : List (Flooding.Message ι)}
    {m : Flooding.Message ι}
    (hf : Follows routers owner lossy events st h ⟨level, flight⟩ made repeated gone)
    (hw : Wired routers owner) {packet : Bytes} {seq ttl : BitVec 16}
    {interfaces : List PwospfInterface} {sourceIp destIp : BitVec 32}
    (hcarry : Carrying routers owner h packet m seq ttl interfaces sourceIp destIp)
    (hother : m.dst ≠ m.origin) (hnew : level m.dst m.origin < m.number) {own : Content}
    (hown : view routers st m.dst m.dst = some own) {k : Nat} {st₁ : State ι}
    {s' : Flooding.State ι}
    (hlevel : s'.level = Flooding.raise level m.dst m.origin m.number)
    (hkept : entry m.dst m.dst = view routers st m.dst m.dst)
    (hmid : Midway routers owner lossy (events ++ [.deliver k m.dst]) st₁ m.dst rs copies entry h s'
      made repeated (gone + 1))
    (hfloods : Floods (st.routers m.dst).pwospf own rs flooded)
    (hquiet : ∀ c, view routers st m.dst m.origin = some c → c.interfaces ≠ [] →
      (∀ t, t ∈ c.interfaces ↔ t ∈ interfaces.map PwospfInterface.content) → flooded = .none)
    (hfew : most (events ++ [.deliver k m.dst]) m.dst ≤ 2 ^ 16) :
    ∃ st' h' s'' made', st₁.emit m.dst rs copies flooded = some st' ∧
      Follows routers owner lossy (events ++ [.deliver k m.dst]) st' h' s'' made' repeated
        (gone + 1) := by
  obtain ⟨hid, harea⟩ := hf.fixed.ids m.dst
  have htexts : ∀ j, (h j).texts.length =
      1 + (events ++ [Event.deliver k m.dst]).countP (Event.relists j) := by
    intro j
    rw [List.countP_append, hf.texts j]
    rfl
  cases hfloods with
  | silent hself =>
    rw [hid] at hself
    obtain ⟨st', hst', hf'⟩ := hmid.silent htexts (hself.trans (hown.symm.trans hkept.symm))
    exact ⟨st', _, _, _, hst', hf'⟩
  | built interfaces' hsame hself =>
    rw [hid] at hself
    obtain ⟨own', hown', hvoice, -⟩ := hf.mirrors.own m.dst
    obtain rfl := Option.some.inj (hown.symm.trans hown')
    have hseen := hf.seen_lt hcarry hother hnew fun c hc hne hall =>
      Flood.noConfusion (hquiet c hc hne hall)
    have hdiag : s'.level m.dst m.dst = level m.dst m.dst := by
      rw [hlevel, Flooding.raise_of_ne _ fun h => hother h.2]
    have hslack : s'.level m.dst m.dst <
        (events ++ [Event.deliver k m.dst]).countP (Event.asks m.dst) +
          ∑ j ∈ Finset.univ.erase m.dst, (h j).seen (s'.level m.dst j) := by
      have hbudget := hf.budget m.dst
      have hsum := seen_raise_lt (Ne.symm hother) hseen
      rw [hdiag, hlevel, List.countP_append]
      dsimp only at hbudget
      omega
    have hvoice' : Voice (h m.dst) own (s'.level m.dst m.dst) := by
      rw [hdiag]
      exact hvoice
    obtain ⟨st', hst', hf'⟩ := hmid.said hw (fun _ _ h => h)
      (fun n hn => (h m.dst).seen_say (hvoice'.count ▸ hn)) hvoice'
      (by rwa [Function.update_eq_self]) hslack hfew hsame hself
    refine ⟨st', _, _, _, ?_, hf'⟩
    rw [lsuPacket_congr hid harea own.seq interfaces']
    exact hst'

theorem Follows.deliver (hw : Wired routers owner)
    (hf : Follows routers owner lossy events st h s made repeated gone) {k : Nat} {i : ι}
    {packet : Bytes} (hget : st.flight[k]? = some packet)
    (hfor : (st.routers i).isFor packet = true)
    (hfew : most (events ++ [.deliver k i]) i ≤ 2 ^ 16) :
    ∃ st' h' s' made', ({ st with flight := st.flight.eraseIdx k } : State ι).deliver i packet =
        some st' ∧
      Follows routers owner lossy (events ++ [.deliver k i]) st' h' s' made' repeated
        (gone + 1) := by
  obtain ⟨front, m, back, hflight, ⟨seq, ttl, interfaces, sourceIp, destIp, hcarry⟩, hrest⟩ :=
    forall₂_erase hf.mirrors.flight hget
  obtain ⟨level, flight⟩ := s
  obtain rfl : flight = front ++ m :: back := hflight
  obtain rfl : m.dst = i := hcarry.dst.symm.trans (hf.fixed.dst hw hcarry.framed hfor)
  obtain ⟨own, hown, -⟩ := hf.mirrors.own m.dst
  obtain ⟨hid, harea⟩ := hf.fixed.ids m.dst
  obtain ⟨o, ho, hprocessed⟩ : ∃ o, (st.routers m.dst).processIpPacket packet = some o ∧
      Processed (st.routers m.dst).pwospf own (routers m.origin).pwospf seq interfaces ttl o :=
    processIpPacket_framed (hid ▸ hown) hcarry.framed hcarry.masked hcarry.short
  cases hprocessed with
  | ignored hrs hforwarded hflooded hold =>
    have hle := hf.old hw (List.mem_append_right _ List.mem_cons_self) hcarry hold
    obtain ⟨st', hst', hf'⟩ := hf.ignore k m.dst hget (.ignore hle) rfl hrest
    have hnothing : (st.routers m.dst).passOn packet .none = some [] := rfl
    refine ⟨st', _, _, _, ?_, hf'⟩
    simp only [State.deliver, ho, hforwarded, hnothing, hrs, hflooded, Option.bind_eq_bind,
      Option.bind_some]
    exact hst'
  | accepted hne hnew hids hentry hframes hforwarded hfloods hquiet =>
    have hother : m.dst ≠ m.origin := fun he => hne (by rw [hid, he])
    have hlt : level m.dst m.origin < m.number := by
      rw [hcarry.number]
      exact (hf.mirrors.held m.dst m.origin hother).lt hnew
    obtain ⟨copies, hpass, hcopies⟩ := hf.fixed.passOn hcarry.framed hcarry.short
    obtain ⟨held, hheld, hsame⟩ := hentry
    obtain ⟨s', entry, hlevel, hkept, hmid⟩ := hf.accept hw hget hcarry hrest hother hlt
      ⟨hids.1.trans hid, hids.2.1.trans harea⟩ (hids.2.2.trans (hf.fixed.flags m.dst))
      (fun y hyo hyd => hframes _ (fun he => hyo (hw.ids y m.origin he))
        (fun he => hyd (hw.ids y m.dst (he.trans hid)))) hheld hsame hcopies
    obtain ⟨st', h', s'', made', hst', hf'⟩ :=
      hf.answer hw hcarry hother hlt hown hlevel hkept hmid hfloods hquiet hfew
    refine ⟨st', h', s'', made', ?_, hf'⟩
    simp only [State.deliver, ho, hforwarded, hpass, Option.bind_eq_bind, Option.bind_some]
    exact hst'

theorem Follows.start (hw : Wired routers owner) :
    ∃ h, Follows routers owner lossy [] (start routers) h Flooding.start 0 0 0 := by
  have hown : ∀ i, ∃ own : Content, view routers (LsuNetwork.start routers) i i = some own ∧
      Voice (Story.silent own.interfaces) own 0 := by
    intro i
    obtain ⟨⟨own, hown, hsend, hseq, hlen⟩, -⟩ := (hw.boots i).entry
    refine ⟨own, hown, hsend, rfl, hseq, rfl, fun text htext => ?_⟩
    rw [List.mem_singleton.mp htext]
    exact fun hnil => hw.linked i (List.length_eq_zero_iff.mp (hlen ▸ congrArg List.length hnil))
  choose own hentry hvoice using hown
  refine ⟨fun i => Story.silent (own i).interfaces, .start,
    ⟨fun i => ⟨own i, hentry i, hvoice i, fun n hn => by cases hn⟩, fun x y hxy => ?_, .nil⟩,
    ⟨fun _ => ⟨rfl, rfl⟩, hw.broadcasts, fun _ => ⟨rfl, rfl⟩⟩, fun _ => rfl, rfl, Nat.le_refl 0,
    fun _ => rfl, fun i => Nat.zero_le _⟩
  have hnone : view routers (LsuNetwork.start routers) x y = none :=
    (hw.boots x).entry.2 _ fun he => hxy (hw.ids y x he).symm
  rw [hnone]
  exact .nothing

theorem Follows.later (hf : Follows routers owner lossy events st h s made repeated gone)
    {e : Event ι} (he : ∀ i, e.relists i = false) :
    Follows routers owner lossy (events ++ [e]) st h s made repeated gone := by
  refine { hf with repeats := ?_, texts := fun j => ?_, budget := fun j => ?_ }
  · rw [List.countP_append]
    exact hf.repeats.trans (Nat.le_add_right _ _)
  · rw [List.countP_append, hf.texts j, List.countP_singleton, if_neg (by simp [he j]),
      Nat.add_zero]
  · rw [List.countP_append]
    exact (hf.budget j).trans (Nat.add_le_add_right (Nat.le_add_right _ _) _)

theorem Follows.lose (hlossy : lossy)
    (hf : Follows routers owner lossy events st h s made repeated gone) (k : Nat) :
    ∃ s' gone', Follows routers owner lossy (events ++ [.lose k])
      { st with flight := st.flight.eraseIdx k } h s' made repeated gone' := by
  have hlater := hf.later (e := .lose k) fun _ => rfl
  cases hget : st.flight[k]? with
  | none =>
    rw [List.eraseIdx_of_length_le (List.getElem?_eq_none_iff.mp hget)]
    exact ⟨s, gone, hlater⟩
  | some packet =>
    obtain ⟨front, m, back, hflight, -, hrest⟩ := forall₂_erase hf.mirrors.flight hget
    obtain ⟨level, flight⟩ := s
    obtain rfl : flight = front ++ m :: back := hflight
    have hlen := length_eraseIdx_of_get hget
    have hsent := hf.sent
    refine ⟨⟨level, front ++ back⟩, gone + 1, { hlater with
      run := hf.run.lose hlossy
      mirrors := ⟨hf.mirrors.own, hf.mirrors.held, hrest⟩
      fixed := ⟨hf.fixed.ids, hf.fixed.flags, hf.fixed.links⟩
      sent := ?_ }⟩
    dsimp only
    omega

theorem Follows.duplicate (hf : Follows routers owner lossy events st h s made repeated gone)
    (k : Nat) :
    ∃ s' repeated', Follows routers owner lossy (events ++ [.duplicate k])
      { st with flight := st.flight ++ st.flight[k]?.toList } h s' made repeated' gone := by
  have hlater := hf.later (e := .duplicate k) fun _ => rfl
  cases hget : st.flight[k]? with
  | none =>
    rw [Option.toList_none, List.append_nil]
    exact ⟨s, repeated, hlater⟩
  | some packet =>
    obtain ⟨front, m, back, hflight, hcarries, -⟩ := forall₂_erase hf.mirrors.flight hget
    have hm : m ∈ s.flight := by simp [hflight]
    have hsent := hf.sent
    refine ⟨{ s with flight := s.flight ++ [m] }, repeated + 1, { hlater with
      run := hf.run.duplicate hm
      mirrors := ⟨hf.mirrors.own, hf.mirrors.held,
        List.rel_append hf.mirrors.flight (.cons hcarries .nil)⟩
      fixed := ⟨hf.fixed.ids, hf.fixed.flags, hf.fixed.links⟩
      sent := ?_
      repeats := ?_ }⟩
    · rw [Option.toList_some, List.length_append, List.length_singleton]
      dsimp only
      omega
    · rw [List.countP_append]
      exact Nat.add_le_add_right hf.repeats 1

theorem Follows.step (hw : Wired routers owner)
    (hf : Follows routers owner lossy events st h s made repeated gone) {e : Event ι}
    (he : e.Steady) (hlossy : e.loses = true → lossy)
    (hfew : ∀ i, most (events ++ [e]) i ≤ 2 ^ 16) :
    ∃ st' h' s' made' repeated' gone', st.step e = some st' ∧
      Follows routers owner lossy (events ++ [e]) st' h' s' made' repeated' gone' := by
  cases e with
  | flood i =>
    obtain ⟨st', h', s', made', hst', hf'⟩ := hf.flood hw i (hfew i)
    exact ⟨st', h', s', made', repeated, gone, hst', hf'⟩
  | deliver k i =>
    rcases step_deliver st k i with hidle | ⟨packet, hget, hfor, hstep⟩
    · exact ⟨st, h, s, made, repeated, gone, hidle, hf.later fun _ => rfl⟩
    · obtain ⟨st', h', s', made', hst', hf'⟩ := hf.deliver hw hget hfor (hfew i)
      exact ⟨st', h', s', made', repeated, gone + 1, hstep.trans hst', hf'⟩
  | readvertise i interfaces =>
    obtain ⟨hmasked, hshort, hne⟩ := he
    obtain ⟨st', h', s', made', hst', hf'⟩ := hf.readvertise hw i hmasked hshort hne (hfew i)
    exact ⟨st', h', s', made', repeated, gone, hst', hf'⟩
  | timeout => exact he.elim
  | relink => exact he.elim
  | lose k =>
    obtain ⟨s', gone', hf'⟩ := hf.lose (hlossy rfl) k
    exact ⟨_, h, s', made, repeated, gone', rfl, hf'⟩
  | duplicate k =>
    obtain ⟨s', repeated', hf'⟩ := hf.duplicate k
    exact ⟨_, h, s', made, repeated', gone, rfl, hf'⟩

omit [Fintype ι] in
theorem run_append {st st' : State ι} {events more : List (Event ι)}
    (h : st.run events = some st') : st.run (events ++ more) = st'.run more := by
  unfold State.run at h ⊢
  rw [List.foldlM_append, h]
  rfl

theorem Follows.all (hw : Wired routers owner) (events : List (Event ι))
    (hsteady : ∀ e ∈ events, e.Steady) (hlossy : ∀ e ∈ events, e.loses = true → lossy)
    (hfew : ∀ i, most events i ≤ 2 ^ 16) :
    ∃ st h s made repeated gone, (LsuNetwork.start routers).run events = some st ∧
      Follows routers owner lossy events st h s made repeated gone := by
  induction events using List.reverseRecOn with
  | nil =>
    obtain ⟨h, hf⟩ := Follows.start hw
    exact ⟨_, h, _, 0, 0, 0, rfl, hf⟩
  | append_singleton events e ih =>
    obtain ⟨st, h, s, made, repeated, gone, hst, hf⟩ :=
      ih (fun x hx => hsteady x (List.mem_append_left _ hx))
        (fun x hx => hlossy x (List.mem_append_left _ hx))
        fun i => (most_mono events [e] i).trans (hfew i)
    obtain ⟨st', h', s', made', repeated', gone', hst', hf'⟩ :=
      hf.step hw (hsteady e (by simp)) (hlossy e (by simp)) hfew
    refine ⟨st', h', s', made', repeated', gone', ?_, hf'⟩
    rw [run_append hst]
    simpa [State.run] using hst'

/-- Up to 64 routers whose neighbours stay come to agree: no LSU is lost and no entry times out,
though LSUs may be repeated and overtake each other, and no router comes to more than 2^16 of them.
Whenever no LSU is on its way, a router that can be reached from another one then holds what that
one has said last, and that is what it would still say. -/
theorem lsus_agree (hw : Wired routers owner) (hcard : Fintype.card ι ≤ 64)
    (events : List (Event ι)) (hsteady : ∀ e ∈ events, e.Steady)
    (hkept : ∀ e ∈ events, e.loses = false) (hfew : ∀ i, most events i ≤ 2 ^ 16) :
    ∃ st, (LsuNetwork.start routers).run events = some st ∧ (st.flight = [] → ∀ i j, i ≠ j →
      Relation.ReflTransGen (fun a b => b ∈ nbrs routers owner a) j i →
      (st.built j = [] ∧ (st.routers i).pwospf.entry (routers j).pwospf.routerId = none) ∨
        ∃ c own, (st.routers i).pwospf.entry (routers j).pwospf.routerId = some c ∧
          (st.routers j).pwospf.entry (routers j).pwospf.routerId = some own ∧
          own.seq = c.seq + 1 ∧ ∀ t, t ∈ c.interfaces ↔ t ∈ own.interfaces) := by
  have hlossy : ∀ e ∈ events, e.loses = true → False := fun e he hlost => by
    simp [hkept e he] at hlost
  obtain ⟨st, h, s, made, repeated, gone, hst, hf⟩ :=
    Follows.all hw events hsteady hlossy hfew
  refine ⟨st, hst, fun hflight i j hij hpath => ?_⟩
  have hnone : s.flight = [] := by
    have hall := hf.mirrors.flight
    rw [hflight] at hall
    exact List.forall₂_nil_left_iff.mp hall
  have hlevel := hf.run.agreed hcard hnone hpath
  obtain ⟨own, hown, hvoice, hlatest⟩ := hf.mirrors.own j
  have hknows := hf.mirrors.held i j hij
  rw [hlevel] at hknows
  generalize hentry : view routers st i j = entry at hknows
  generalize hn : s.level j j = n at hknows
  cases hknows with
  | nothing =>
    exact .inl ⟨List.length_eq_zero_iff.mp ((hf.built j).trans hn), hentry⟩
  | @entry c n text hseq hsmall hword hsame =>
    refine .inr ⟨c, own, hentry, hown, ?_, fun t => (hsame t).trans ?_⟩
    · rw [hvoice.seq, hn, hseq]
      exact BitVec.ofNat_add ..
    · rw [hvoice.interfaces, hword.unique (hlatest n hn) rfl]

theorem lsus_agree_pair : ∃ st,
    (LsuNetwork.start pair).run [.flood false, .duplicate 0, .deliver 0 true, .deliver 1 false,
      .deliver 0 true, .deliver 0 true] = some st ∧
    st.flight = [] ∧ ∀ i j, i ≠ j →
      Relation.ReflTransGen (fun a b => b ∈ nbrs pair pairOwner a) j i →
      (st.built j = [] ∧ (st.routers i).pwospf.entry (pair j).pwospf.routerId = none) ∨
        ∃ c own, (st.routers i).pwospf.entry (pair j).pwospf.routerId = some c ∧
          (st.routers j).pwospf.entry (pair j).pwospf.routerId = some own ∧
          own.seq = c.seq + 1 ∧ ∀ t, t ∈ c.interfaces ↔ t ∈ own.interfaces := by
  obtain ⟨st, hst, hagree⟩ := lsus_agree pair_wired (by decide)
    [.flood false, .duplicate 0, .deliver 0 true, .deliver 1 false, .deliver 0 true,
      .deliver 0 true]
    (by simp [Event.Steady]) (by simp [Event.loses]) (by decide +kernel)
  have hflight : ((LsuNetwork.start pair).run [.flood false, .duplicate 0, .deliver 0 true,
      .deliver 1 false, .deliver 0 true, .deliver 0 true]).map State.flight = some [] := by
    decide +kernel
  rw [hst] at hflight
  have hnone : st.flight = [] := Option.some.inj hflight
  exact ⟨st, hst, hnone, hagree hnone⟩

/-- What the routers have sent, with at most `degree` neighbours each. -/
theorem Follows.bounded {degree : Nat} (hdegree : ∀ i, ((routers i).targets none).length ≤ degree)
    (hf : Follows routers owner lossy events st h s made repeated gone) :
    (∀ i, (st.built i).length ≤ most events i) ∧
      gone + st.flight.length ≤
        degree * Fintype.card ι * ∑ i, (st.built i).length + repeated := by
  have hsound := hf.run.sound
  have hlength : st.flight.length = s.flight.length := hf.mirrors.flight.length_eq
  have hmade : made = ∑ i, (st.built i).length := by
    rw [hf.run.made_eq]
    exact Finset.sum_congr rfl fun i _ => (hf.built i).symm
  refine ⟨fun i => ?_, ?_⟩
  · have hbudget := hf.budget i
    have hseen := seen_le_relists hf.mirrors hsound i fun y _ => hf.texts y
    rw [hf.built i]
    unfold most
    omega
  · have hnbrs : ∀ i, (nbrs routers owner i).length ≤ degree := fun i => by
      rw [nbrs, List.length_map]
      exact hdegree i
    have hle := hf.run.gone_le hnbrs
    rw [hmade] at hle
    unfold Flooding.work at hle
    omega

/-- Flooding is no storm, however LSUs are lost, repeated and overtaken, while the neighbours stay,
no entry times out, and no router comes to more than 2^16 LSUs: a router sends no more of them than
it is asked for and one for each list of interfaces of another router, and each of them crosses each
link at most once. -/
theorem lsus_bounded (hw : Wired routers owner) (events : List (Event ι))
    (hsteady : ∀ e ∈ events, e.Steady) (hfew : ∀ i, most events i ≤ 2 ^ 16) {degree : Nat}
    (hdegree : ∀ i, ((routers i).targets none).length ≤ degree) :
    ∃ st, (LsuNetwork.start routers).run events = some st ∧
      (∀ i, (st.built i).length ≤ most events i) ∧
      st.sent ≤ degree * Fintype.card ι * ∑ i, (st.built i).length := by
  obtain ⟨st, h, s, made, repeated, gone, hst, hf⟩ :=
    @Follows.all _ _ _ True _ _ hw events hsteady (fun _ _ _ => trivial) hfew
  obtain ⟨hbuilt, hgone⟩ := hf.bounded hdegree
  have hsent := hf.sent
  refine ⟨st, hst, hbuilt, ?_⟩
  omega

theorem lsus_bounded_pair : ∃ st,
    (LsuNetwork.start pair).run [.flood false, .duplicate 0, .deliver 0 true, .lose 1,
      .deliver 0 true] = some st ∧
    (∀ i, (st.built i).length ≤ most [.flood false, .duplicate 0, .deliver 0 true, .lose 1,
      .deliver 0 true] i) ∧
      st.sent ≤ 1 * Fintype.card Bool * ∑ i, (st.built i).length :=
  lsus_bounded pair_wired _ (by simp [Event.Steady]) (by decide +kernel) (by decide +kernel)

theorem most_deliver (events : List (Event ι)) (k : Nat) (i j : ι) :
    most (events ++ [.deliver k i]) j = most events j := by
  unfold most
  simp [List.countP_append, Event.asks, Event.relists]

theorem Follows.expected
    (hreach : ∀ i, ∀ t ∈ (routers i).targets none,
      ∃ j, ∃ iface ∈ (routers j).ifList, iface.isActive = true ∧ iface.ip = t.2.2)
    (hf : Follows routers owner lossy events st h s made repeated gone) {packet : Bytes}
    (hp : packet ∈ st.flight) : ∃ i, (st.routers i).isFor packet = true := by
  obtain ⟨k, hget⟩ := List.mem_iff_getElem?.mp hp
  obtain ⟨-, m, -, -, ⟨seq, ttl, interfaces, sourceIp, destIp, hcarry⟩, -⟩ :=
    forall₂_erase hf.mirrors.flight hget
  obtain ⟨i, t, ht, rfl⟩ := hcarry.target
  obtain ⟨j, iface, hmem, hactive, hip⟩ := hreach i t ht
  refine ⟨j, ?_⟩
  unfold Router.isFor
  rw [hcarry.framed.dest, (hf.fixed.links j).1]
  exact List.any_eq_true.mpr ⟨iface, hmem, by simp [hactive, hip]⟩

/-- As long as a packet is on its way it can arrive, and this comes to an end. -/
theorem Follows.settle (hw : Wired routers owner) {degree : Nat}
    (hdegree : ∀ i, ((routers i).targets none).length ≤ degree)
    (hreach : ∀ i, ∀ t ∈ (routers i).targets none,
      ∃ j, ∃ iface ∈ (routers j).ifList, iface.isActive = true ∧ iface.ip = t.2.2)
    (n : Nat) (hf : Follows routers owner lossy events st h s made repeated gone)
    (hfew : ∀ i, most events i ≤ 2 ^ 16)
    (hn : degree * Fintype.card ι * ∑ i, most events i + repeated ≤ gone + n) :
    ∃ deliveries : List (Event ι), (∀ e ∈ deliveries, ∃ k i, e = .deliver k i) ∧
      deliveries.length ≤ n ∧ ∃ st', st.run deliveries = some st' ∧ st'.flight = [] := by
  induction n generalizing events st h s made gone with
  | zero =>
    obtain ⟨hbuilt, hgone⟩ := hf.bounded hdegree
    have hsum := Nat.mul_le_mul_left (degree * Fintype.card ι)
      (Finset.sum_le_sum fun i (_ : i ∈ Finset.univ) => hbuilt i)
    refine ⟨[], by simp, Nat.le_refl 0, st, rfl, List.length_eq_zero_iff.mp ?_⟩
    omega
  | succ n ih =>
    cases hflight : st.flight with
    | nil => exact ⟨[], by simp, Nat.zero_le _, st, rfl, hflight⟩
    | cons packet rest =>
      have hget : st.flight[0]? = some packet := by rw [hflight]; rfl
      obtain ⟨i, hfor⟩ := hf.expected hreach (List.mem_of_getElem? hget)
      have hmost := most_deliver events 0 i
      obtain ⟨st₁, h₁, s₁, made₁, hst₁, hf₁⟩ :=
        hf.deliver hw hget hfor ((hmost i).le.trans (hfew i))
      have hstep : st.step (.deliver 0 i) = some st₁ := by
        simp only [State.step, hget, hfor, if_true]
        exact hst₁
      obtain ⟨deliveries, hall, hlen, st', hst', hdone⟩ :=
        ih hf₁ (fun j => (hmost j).le.trans (hfew j)) (by
          simp only [hmost]
          omega)
      refine ⟨.deliver 0 i :: deliveries, fun e he => ?_, Nat.succ_le_succ hlen, st', ?_, hdone⟩
      · rcases List.mem_cons.mp he with rfl | he
        · exact ⟨0, i, rfl⟩
        · exact hall e he
      · unfold State.run at hst' ⊢
        rw [List.foldlM_cons, hstep]
        exact hst'

/-- However LSUs were lost, repeated and overtaken, the network comes to rest when nothing else
happens. Its neighbours have stayed and are routers of it, no entry has timed out, and no router has
come to more than 2^16 LSUs. -/
theorem lsus_settle (hw : Wired routers owner) (events : List (Event ι))
    (hsteady : ∀ e ∈ events, e.Steady) (hfew : ∀ i, most events i ≤ 2 ^ 16) {degree : Nat}
    (hdegree : ∀ i, ((routers i).targets none).length ≤ degree)
    (hreach : ∀ i, ∀ t ∈ (routers i).targets none,
      ∃ j, ∃ iface ∈ (routers j).ifList, iface.isActive = true ∧ iface.ip = t.2.2) :
    ∃ deliveries : List (Event ι), (∀ e ∈ deliveries, ∃ k i, e = .deliver k i) ∧
      deliveries.length ≤
        degree * Fintype.card ι * ∑ i, most events i + events.countP Event.repeats ∧
      ∃ st, (LsuNetwork.start routers).run (events ++ deliveries) = some st ∧ st.flight = [] := by
  obtain ⟨st, h, s, made, repeated, gone, hst, hf⟩ :=
    @Follows.all _ _ _ True _ _ hw events hsteady (fun _ _ _ => trivial) hfew
  have hrepeats := hf.repeats
  obtain ⟨deliveries, hall, hlen, st', hst', hdone⟩ := hf.settle hw hdegree hreach
    (degree * Fintype.card ι * ∑ i, most events i + events.countP Event.repeats) hfew (by omega)
  exact ⟨deliveries, hall, hlen, st', (run_append hst).trans hst', hdone⟩

theorem lsus_settle_pair : ∃ deliveries : List (Event Bool),
    (∀ e ∈ deliveries, ∃ k i, e = .deliver k i) ∧
      deliveries.length ≤ 1 * Fintype.card Bool *
          ∑ i : Bool, most [.flood false, .duplicate 0, .flood true, .lose 0] i +
        [Event.flood false, .duplicate 0, .flood true, .lose 0].countP Event.repeats ∧
      ∃ st, (LsuNetwork.start pair).run
        ([.flood false, .duplicate 0, .flood true, .lose 0] ++ deliveries) = some st ∧
        st.flight = [] :=
  lsus_settle pair_wired _ (by simp [Event.Steady]) (by decide +kernel) (by decide +kernel)
    (by decide +kernel)

end Runs

end Osnt.Scone.LsuNetwork
