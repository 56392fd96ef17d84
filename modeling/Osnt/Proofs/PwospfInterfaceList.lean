import Osnt.Proofs.PwospfRouterList

namespace Osnt.Scone.Pwospf
open Lib Lib.Buffer

/-- The advertisements of a packet. -/
def advertised (packet : Bytes) : Option (List LsuAdv) := do
  let num ← load32 packet 62
  loadAdvs packet 66 (swap32 num).toNat

/-- What an advertisement says: the masked subnet, the mask and the router id. -/
def LsuAdv.content (adv : LsuAdv) : BitVec 32 × BitVec 32 × BitVec 32 :=
  (adv.sub &&& adv.mask, adv.mask, adv.rid)

/-- The subnet of the advertisement has no bits outside the mask. -/
def LsuAdv.Masked (adv : LsuAdv) : Prop := adv.sub &&& adv.mask = adv.sub

/-- The entry that is made of an advertisement that is not in the list. -/
def LsuAdv.stored (adv : LsuAdv) : PwospfInterface := ⟨adv.sub, adv.mask, adv.rid, false⟩

/-- The interfaces that an advertisement keeps in the list. -/
def keeps (advs : List LsuAdv) (i : PwospfInterface) : Bool := advs.any fun adv => i.matchesAdv adv

theorem matchesAdv_iff {i : PwospfInterface} {adv : LsuAdv} :
    i.matchesAdv adv = true ↔ i.content = adv.content := by
  simp [PwospfInterface.matchesAdv, PwospfInterface.content, LsuAdv.content, and_assoc]

theorem keeps_iff {advs : List LsuAdv} {i : PwospfInterface} :
    keeps advs i = true ↔ i.content ∈ advs.map LsuAdv.content := by
  simp only [keeps, List.any_eq_true, matchesAdv_iff, List.mem_map]
  constructor
  · rintro ⟨adv, hadv, he⟩
    exact ⟨adv, hadv, he.symm⟩
  · rintro ⟨adv, hadv, he⟩
    exact ⟨adv, hadv, he.symm⟩

theorem LsuAdv.Masked.stored_content {adv : LsuAdv} (h : adv.Masked) :
    adv.stored.content = adv.content :=
  congrArg (fun subnet => (subnet, adv.mask, adv.rid)) h.symm

/-- Only a masked advertisement is stored as an entry that some advertisement describes. -/
theorem masked_of_stored_content {adv other : LsuAdv} (h : adv.stored.content = other.content) :
    adv.Masked ∧ adv.content = other.content := by
  have hmask : adv.Masked := by
    simp only [PwospfInterface.content, LsuAdv.stored, LsuAdv.content, Prod.mk.injEq] at h
    obtain ⟨hsub, hmask, -⟩ := h
    rw [LsuAdv.Masked, hsub, hmask, BitVec.and_assoc, BitVec.and_self]
  exact ⟨hmask, hmask.stored_content.symm.trans h⟩

theorem addAdv_of_mem {interfaces : List PwospfInterface} {adv : LsuAdv}
    (h : adv.content ∈ interfaces.map PwospfInterface.content) :
    addAdv interfaces adv = interfaces := by
  obtain ⟨i, hi, he⟩ := List.mem_map.mp h
  exact if_pos (List.any_eq_true.mpr ⟨i, hi, matchesAdv_iff.mpr he⟩)

theorem addAdv_of_not_mem {interfaces : List PwospfInterface} {adv : LsuAdv}
    (h : adv.content ∉ interfaces.map PwospfInterface.content) :
    addAdv interfaces adv = interfaces ++ [adv.stored] := by
  have hany : ¬ interfaces.any (fun i => i.matchesAdv adv) = true := by
    intro hany
    obtain ⟨i, hi, hm⟩ := List.any_eq_true.mp hany
    exact h (List.mem_map.mpr ⟨i, hi, matchesAdv_iff.mp hm⟩)
  rw [addAdv, if_neg hany, BitVec.and_self]
  rfl

/-- What the first pass appends: entries for advertisements that were not in the list, until every
advertisement is in the list or has been stored. -/
structure Added (interfaces : List PwospfInterface) (advs : List LsuAdv)
    (added : List PwospfInterface) : Prop where
  is_new : ∀ i ∈ added, ∃ adv ∈ advs,
    i = adv.stored ∧ adv.content ∉ interfaces.map PwospfInterface.content
  all : ∀ adv ∈ advs,
    adv.content ∈ (interfaces ++ added).map PwospfInterface.content ∨ adv.stored ∈ added

theorem foldl_addAdv (interfaces : List PwospfInterface) (advs : List LsuAdv) :
    ∃ added, advs.foldl addAdv interfaces = interfaces ++ added ∧ Added interfaces advs added := by
  induction advs generalizing interfaces with
  | nil => exact ⟨[], by simp, by simp, by simp⟩
  | cons adv advs ih =>
    rw [List.foldl_cons]
    by_cases hmem : adv.content ∈ interfaces.map PwospfInterface.content
    · rw [addAdv_of_mem hmem]
      obtain ⟨added, hfold, hadded⟩ := ih interfaces
      refine ⟨added, hfold, fun i hi => ?_, fun a ha => ?_⟩
      · obtain ⟨a, ha, h⟩ := hadded.is_new i hi
        exact ⟨a, List.mem_cons_of_mem _ ha, h⟩
      · rcases List.mem_cons.mp ha with rfl | ha
        · exact .inl (by rw [List.map_append]; exact List.mem_append_left _ hmem)
        · exact hadded.all a ha
    · rw [addAdv_of_not_mem hmem]
      obtain ⟨added, hfold, hadded⟩ := ih (interfaces ++ [adv.stored])
      refine ⟨adv.stored :: added, by simpa using hfold, fun i hi => ?_, fun a ha => ?_⟩
      · rcases List.mem_cons.mp hi with rfl | hi
        · exact ⟨adv, List.mem_cons_self, rfl, hmem⟩
        · obtain ⟨a, ha, rfl, hnot⟩ := hadded.is_new i hi
          refine ⟨a, List.mem_cons_of_mem _ ha, rfl, fun h => hnot ?_⟩
          rw [List.map_append]
          exact List.mem_append_left _ h
      · rcases List.mem_cons.mp ha with rfl | ha
        · exact .inr List.mem_cons_self
        · rcases hadded.all a ha with h | h
          · exact .inl (by simpa using h)
          · exact .inr (List.mem_cons_of_mem _ h)

theorem Added.eq_nil_iff {interfaces added : List PwospfInterface} {advs : List LsuAdv}
    (h : Added interfaces advs added) :
    added = [] ↔ ∀ adv ∈ advs, adv.content ∈ interfaces.map PwospfInterface.content := by
  constructor
  · rintro rfl adv hadv
    simpa using h.all adv hadv
  · intro hall
    rw [List.eq_nil_iff_forall_not_mem]
    intro i hi
    obtain ⟨adv, hadv, -, hnot⟩ := h.is_new i hi
    exact hnot (hall adv hadv)

theorem populate_known {interfaces : List PwospfInterface} {packet : Bytes} {advs : List LsuAdv}
    (hne : interfaces ≠ []) (hload : advertised packet = some advs) :
    ∃ added changed, Added interfaces advs added ∧
      populatePwospfRouterInterfaceList interfaces packet =
        some (interfaces.filter (keeps advs) ++ added.filter (keeps advs), changed) ∧
      (changed = true ↔ added ≠ [] ∨ ∃ i ∈ interfaces ++ added, keeps advs i = false) := by
  obtain ⟨added, hfold, hadded⟩ := foldl_addAdv interfaces advs
  obtain ⟨num, hnum, hadvs⟩ := Option.bind_eq_some_iff.mp hload
  refine ⟨added, decide (interfaces.length < (interfaces ++ added).length) ||
    decide (((interfaces ++ added).filter (keeps advs)).length < (interfaces ++ added).length),
    hadded, ?_, ?_⟩
  · simp only [populatePwospfRouterInterfaceList, Option.bind_eq_bind, hnum, hadvs,
      Option.bind_some, List.isEmpty_eq_false_iff.mpr hne, Bool.false_eq_true, if_false, hfold]
    rw [← List.filter_append]
    rfl
  · have hgrown : interfaces.length < (interfaces ++ added).length ↔ added ≠ [] := by
      rw [List.length_append, Nat.lt_add_right_iff_pos, List.length_pos_iff]
    have hdropped : ((interfaces ++ added).filter (keeps advs)).length <
        (interfaces ++ added).length ↔ ∃ i ∈ interfaces ++ added, keeps advs i = false := by
      rw [List.length_filter_lt_length_iff_exists]
      simp only [Bool.not_eq_true]
    rw [Bool.or_eq_true, decide_eq_true_iff, decide_eq_true_iff]
    exact or_congr hgrown hdropped

/-- The result tells whether the set that is advertised differs from the one in the list. -/
theorem changed_iff {interfaces added : List PwospfInterface} {advs : List LsuAdv}
    (h : Added interfaces advs added) :
    (added ≠ [] ∨ ∃ i ∈ interfaces ++ added, keeps advs i = false) ↔
      ¬ ∀ t, t ∈ interfaces.map PwospfInterface.content ↔ t ∈ advs.map LsuAdv.content := by
  constructor
  · rintro (hnew | ⟨i, hi, hdrop⟩) hsame
    · apply hnew
      rw [h.eq_nil_iff]
      intro adv hadv
      exact (hsame adv.content).mpr (List.mem_map_of_mem hadv)
    · have hnil : added = [] := by
        rw [h.eq_nil_iff]
        intro adv hadv
        exact (hsame adv.content).mpr (List.mem_map_of_mem hadv)
      rw [hnil, List.append_nil] at hi
      have hkeep : keeps advs i = true :=
        keeps_iff.mpr ((hsame i.content).mp (List.mem_map_of_mem hi))
      rw [hkeep] at hdrop
      cases hdrop
  · intro hdiffer
    by_contra hno
    obtain ⟨hnil, hkeep⟩ := not_or.mp hno
    rw [not_not] at hnil
    subst hnil
    refine hdiffer fun t => ⟨fun ht => ?_, fun ht => ?_⟩
    · obtain ⟨i, hi, rfl⟩ := List.mem_map.mp ht
      rw [← keeps_iff]
      by_contra hk
      exact hkeep ⟨i, by simpa using hi, by simpa using hk⟩
    · obtain ⟨adv, hadv, rfl⟩ := List.mem_map.mp ht
      exact h.eq_nil_iff.mp rfl adv hadv

theorem populate_same {interfaces : List PwospfInterface} {packet : Bytes} {advs : List LsuAdv}
    (hne : interfaces ≠ []) (hload : advertised packet = some advs)
    (hsame : ∀ t, t ∈ interfaces.map PwospfInterface.content ↔ t ∈ advs.map LsuAdv.content) :
    populatePwospfRouterInterfaceList interfaces packet = some (interfaces, false) := by
  obtain ⟨added, changed, hadded, hpop, hchanged⟩ := populate_known hne hload
  rw [changed_iff hadded] at hchanged
  have hfalse : changed = false := by
    cases changed with
    | false => rfl
    | true => exact absurd hsame (hchanged.mp rfl)
  have hnil : added = [] := by
    rw [hadded.eq_nil_iff]
    intro adv hadv
    exact (hsame adv.content).mpr (List.mem_map_of_mem hadv)
  have hfilter : interfaces.filter (keeps advs) = interfaces := by
    rw [List.filter_eq_self]
    intro i hi
    exact keeps_iff.mpr ((hsame i.content).mp (List.mem_map_of_mem hi))
  rw [hpop, hfalse, hnil, hfilter, List.filter_nil, List.append_nil]

/-- What an update does to the list, as a set of triples and entry by entry. -/
structure Updated (interfaces : List PwospfInterface) (advs : List LsuAdv)
    (after : List PwospfInterface) (changed : Bool) : Prop where
  advertises : ∀ t, t ∈ after.map PwospfInterface.content ↔ t ∈ advs.map LsuAdv.content
  changed_iff : changed = true ↔ ¬ ∀ t,
    t ∈ interfaces.map PwospfInterface.content ↔ t ∈ after.map PwospfInterface.content
  survivors : ∃ added, after = interfaces.filter (keeps advs) ++ added
  again : ∀ packet, advertised packet = some advs →
    populatePwospfRouterInterfaceList after packet = some (after, false)

/-- Each advertisement is in the list, or is made by some advertisement without host bits. -/
def HostBitsKnown (interfaces : List PwospfInterface) (advs : List LsuAdv) : Prop :=
  ∀ adv ∈ advs, adv.content ∈ interfaces.map PwospfInterface.content ∨
    ∃ masked ∈ advs, masked.Masked ∧ masked.content = adv.content

theorem mem_after_iff {interfaces added : List PwospfInterface} {advs : List LsuAdv}
    {t : BitVec 32 × BitVec 32 × BitVec 32} :
    t ∈ (interfaces.filter (keeps advs) ++ added.filter (keeps advs)).map
        PwospfInterface.content ↔
      t ∈ (interfaces ++ added).map PwospfInterface.content ∧ t ∈ advs.map LsuAdv.content := by
  rw [← List.filter_append]
  constructor
  · intro ht
    obtain ⟨i, hi, rfl⟩ := List.mem_map.mp ht
    obtain ⟨hi, hkeep⟩ := List.mem_filter.mp hi
    exact ⟨List.mem_map_of_mem hi, keeps_iff.mp hkeep⟩
  · rintro ⟨ht, hadv⟩
    obtain ⟨i, hi, rfl⟩ := List.mem_map.mp ht
    exact List.mem_map_of_mem (List.mem_filter.mpr ⟨hi, keeps_iff.mpr hadv⟩)

/-- An advertisement is in the list after the first pass, unless only its subnet as it came is. -/
theorem Added.mem_iff {interfaces added : List PwospfInterface} {advs : List LsuAdv}
    (h : Added interfaces advs added) (adv : LsuAdv) :
    adv.content ∈ (interfaces ++ added).map PwospfInterface.content ↔
      adv.content ∈ interfaces.map PwospfInterface.content ∨
        ∃ masked ∈ advs, masked.Masked ∧ masked.content = adv.content := by
  rw [List.map_append, List.mem_append]
  constructor
  · rintro (hold | hnew)
    · exact .inl hold
    · obtain ⟨i, hi, he⟩ := List.mem_map.mp hnew
      obtain ⟨masked, hmem, rfl, -⟩ := h.is_new i hi
      exact .inr ⟨masked, hmem, masked_of_stored_content he⟩
  · rintro (hold | ⟨masked, hmem, hmask, he⟩)
    · exact .inl hold
    · rw [← he, ← List.mem_append, ← List.map_append]
      rcases h.all masked hmem with hin | hstored
      · exact hin
      · rw [← hmask.stored_content]
        exact List.mem_map_of_mem (List.mem_append_right _ hstored)

/-- An LSU of a known router makes its list the advertised one just when every advertisement with
host bits is one that the list, or an advertisement without host bits, has already. -/
theorem updated_iff {interfaces : List PwospfInterface} {packet : Bytes} {advs : List LsuAdv}
    (hne : interfaces ≠ []) (hload : advertised packet = some advs) (hadvs : advs ≠ []) :
    (∃ after changed,
      populatePwospfRouterInterfaceList interfaces packet = some (after, changed) ∧
        Updated interfaces advs after changed) ↔
      HostBitsKnown interfaces advs := by
  obtain ⟨added, changed, hadded, hpop, hchanged⟩ := populate_known hne hload
  constructor
  · rintro ⟨after, c, h, hupdated⟩ adv hadv
    rw [hpop] at h
    cases h
    rw [← hadded.mem_iff adv]
    exact (mem_after_iff.mp ((hupdated.advertises _).mpr (List.mem_map_of_mem hadv))).1
  · intro hknown
    have hset : ∀ t, t ∈ (interfaces.filter (keeps advs) ++ added.filter (keeps advs)).map
        PwospfInterface.content ↔ t ∈ advs.map LsuAdv.content := by
      intro t
      refine ⟨fun ht => (mem_after_iff.mp ht).2, fun ht => mem_after_iff.mpr ⟨?_, ht⟩⟩
      obtain ⟨adv, hadv, rfl⟩ := List.mem_map.mp ht
      exact (hadded.mem_iff adv).mpr (hknown adv hadv)
    have hafter : interfaces.filter (keeps advs) ++ added.filter (keeps advs) ≠ [] := by
      intro hnil
      obtain ⟨adv, hadv⟩ := List.exists_mem_of_ne_nil advs hadvs
      have hmem := (hset adv.content).mpr (List.mem_map_of_mem hadv)
      rw [hnil] at hmem
      cases hmem
    refine ⟨_, changed, hpop, hset, ?_, ⟨_, rfl⟩, fun _ hload => populate_same hafter hload hset⟩
    rw [hchanged, changed_iff hadded]
    simp only [hset]

/-- An LSU of router 10.0.0.2 with the given advertisements. -/
def lsuOf (seq : BitVec 16) (interfaces : List PwospfInterface) : Bytes :=
  List.replicate 34 0 ++ lsuPacket ⟨0x0200000a, 0, true, []⟩ seq interfaces

/-- 10.0.0.0/8. -/
def wideLink : PwospfInterface := ⟨0x0000000a, 0x000000ff, 0, false⟩

/-- 192.168.1.5/24, an address with host bits. -/
def hostLink : PwospfInterface := ⟨0x0501a8c0, 0x00ffffff, 0, false⟩

theorem updated_iff_same : (∃ after changed,
    populatePwospfRouterInterfaceList [wideLink] (lsuOf 2 [wideLink]) = some (after, changed) ∧
      Updated [wideLink] [⟨0x0000000a, 0x000000ff, 0⟩] after changed) ↔
    HostBitsKnown [wideLink] [⟨0x0000000a, 0x000000ff, 0⟩] :=
  updated_iff (by decide) (by decide +kernel) (by decide)

/-- After an LSU with one advertisement comes one with an advertisement with host bits, which the
list never has. -/
theorem host_bits_lost : ∃ held,
    populatePwospfRouterInterfaceList [] (lsuOf 1 [wideLink]) = some (held, true) ∧ held ≠ [] ∧
      advertised (lsuOf 2 [wideLink, hostLink]) =
        some [⟨0x0000000a, 0x000000ff, 0⟩, ⟨0x0501a8c0, 0x00ffffff, 0⟩] ∧
      ¬ ∃ after changed,
        populatePwospfRouterInterfaceList held (lsuOf 2 [wideLink, hostLink]) =
          some (after, changed) ∧
        Updated held [⟨0x0000000a, 0x000000ff, 0⟩, ⟨0x0501a8c0, 0x00ffffff, 0⟩] after changed := by
  have hrun : populatePwospfRouterInterfaceList [wideLink] (lsuOf 2 [wideLink, hostLink]) =
      some ([wideLink], true) := by decide +kernel
  refine ⟨[wideLink], by decide +kernel, by decide, by decide +kernel, ?_⟩
  rintro ⟨after, changed, h, hupdated⟩
  cases hrun.symm.trans h
  exact absurd ((hupdated.advertises (0x0001a8c0, 0x00ffffff, 0)).mpr (by decide)) (by decide)

end Osnt.Scone.Pwospf
