import Mathlib.Data.List.Nodup
import Mathlib.Tactic.ByContra
import Osnt.Scone.Arp

namespace Osnt.Scone.Arp
open Lib Lib.Buffer

/-- What the CAM holds of an entry. -/
def CacheEntry.row (e : CacheEntry) : Row := rowOf e.ip e.arpHa

def CacheEntry.isDynamic (e : CacheEntry) : Bool := !e.isStatic

/-- The entries in the order in which they are written. -/
def staticsFirst (cache : List CacheEntry) : List CacheEntry :=
  cache.filter CacheEntry.isStatic ++ cache.filter CacheEntry.isDynamic

/-- The copy of a cache: as many entries as there are rows, and zeros. -/
def copy (cache : List CacheEntry) : List Row :=
  ((staticsFirst cache).map CacheEntry.row).take arpCamWidth ++
    List.replicate (arpCamWidth - cache.length) .clear

/-- The rows below `i` are written. -/
structure Written (i : Nat) (rows : List Row) (hw : List Row) : Prop where
  length_hw : hw.length = arpCamWidth
  take_hw : hw.take i = rows
  length_rows : rows.length = i

theorem Written.le {i : Nat} {rows hw : List Row} (h : Written i rows hw) : i ≤ arpCamWidth := by
  rw [← h.length_rows, ← h.take_hw, ← h.length_hw]
  exact List.length_take_le' i hw

theorem Written.set {i : Nat} {rows hw : List Row} (h : Written i rows hw)
    (hi : i < arpCamWidth) (row : Row) : Written (i + 1) (rows ++ [row]) (hw.set i row) := by
  refine ⟨List.length_set.trans h.length_hw, ?_, ?_⟩
  · rw [List.take_add_one, List.take_set_of_le (Nat.le_refl i), h.take_hw,
      List.getElem?_set_self (h.length_hw ▸ hi)]
    rfl
  · rw [List.length_append, h.length_rows, List.length_singleton]

/-- The rows that a loop adds to those already written, as far as there is room. -/
theorem Written.full {i : Nat} {rows hw : List Row} (h : Written i rows hw)
    (hi : ¬ i < arpCamWidth) (more : List Row) : (rows ++ more).take arpCamWidth = hw := by
  have hle := h.le
  have hlength : arpCamWidth = rows.length := by
    rw [h.length_rows]
    omega
  rw [hlength, List.take_left, ← h.take_hw, List.take_of_length_le]
  rw [h.length_hw]
  omega

theorem writeStatics_written (cur : List CacheEntry) {i : Nat} {rows hw : List Row}
    (h : Written i rows hw) :
    ∃ hw' i', writeStatics cur i hw = (hw', i') ∧
      Written i' ((rows ++ (cur.filter CacheEntry.isStatic).map CacheEntry.row).take arpCamWidth)
        hw' := by
  induction cur generalizing i rows hw with
  | nil =>
    refine ⟨hw, i, rfl, ?_⟩
    have hle := h.le
    rw [List.filter_nil, List.map_nil, List.append_nil,
      List.take_of_length_le (by rw [h.length_rows]; exact hle)]
    exact h
  | cons e cur ih =>
    unfold writeStatics
    split
    · rename_i hi
      split
      · rename_i hstatic
        rw [List.filter_cons_of_pos hstatic, List.map_cons, ← List.singleton_append,
          ← List.append_assoc]
        exact ih (h.set hi e.row)
      · rename_i hstatic
        rw [List.filter_cons_of_neg hstatic]
        exact ih h
    · rename_i hi
      have hle := h.le
      refine ⟨hw, i, rfl, h.length_hw, ?_, ?_⟩
      · rw [h.full hi, List.take_of_length_le]
        rw [h.length_hw]
        omega
      · rw [h.full hi, h.length_hw]
        omega

theorem clearRows_written (n : Nat) {i : Nat} {rows hw : List Row} (h : Written i rows hw)
    (hn : i + n = arpCamWidth) :
    (List.range' i n).foldl (fun hw i => writeArpCacheEntryToHw hw none i) hw =
      rows ++ List.replicate n .clear := by
  induction n generalizing i rows hw with
  | zero =>
    rw [List.range'_zero, List.foldl_nil, List.replicate_zero, List.append_nil, ← h.take_hw,
      List.take_of_length_le]
    rw [h.length_hw]
    omega
  | succ n ih =>
    rw [List.range'_succ, List.foldl_cons, List.replicate_succ, ← List.singleton_append,
      ← List.append_assoc]
    exact ih (h.set (by omega) .clear) (by omega)

theorem writeOthers_written (cur : List CacheEntry) {i : Nat} {rows hw : List Row}
    (h : Written i rows hw) :
    writeOthers cur i hw =
      (rows ++ (cur.filter CacheEntry.isDynamic).map CacheEntry.row).take arpCamWidth ++
        List.replicate (arpCamWidth - (i + (cur.filter CacheEntry.isDynamic).length)) .clear := by
  induction cur generalizing i rows hw with
  | nil =>
    have hle := h.le
    rw [List.filter_nil, List.map_nil, List.append_nil, List.length_nil, Nat.add_zero,
      List.take_of_length_le (by rw [h.length_rows]; exact hle)]
    exact clearRows_written _ h (by omega)
  | cons e cur ih =>
    unfold writeOthers
    split
    · rename_i hi
      split
      · rename_i hstatic
        have hdynamic : e.isDynamic = true := by
          unfold CacheEntry.isDynamic
          rw [hstatic]
          rfl
        rw [List.filter_cons_of_pos hdynamic, List.map_cons, ← List.singleton_append,
          ← List.append_assoc, List.length_cons, ← Nat.add_assoc, Nat.add_right_comm]
        exact ih (h.set hi e.row)
      · rename_i hstatic
        have hdynamic : ¬ e.isDynamic = true := by
          unfold CacheEntry.isDynamic
          rw [eq_true_of_ne_false hstatic]
          exact Bool.false_ne_true
        rw [List.filter_cons_of_neg hdynamic]
        exact ih h
    · rename_i hi
      rw [h.full hi, Nat.sub_eq_zero_of_le (by omega), List.replicate_zero, List.append_nil]

theorem length_staticsFirst (cache : List CacheEntry) :
    (staticsFirst cache).length = cache.length := by
  unfold staticsFirst
  rw [List.length_append]
  exact (List.length_eq_length_filter_add CacheEntry.isStatic).symm

/-- The two loops share one row counter and leave the copy of the cache. -/
theorem writeArpCacheToHw_eq (cache : List CacheEntry) {hw : List Row}
    (hhw : hw.length = arpCamWidth) : writeArpCacheToHw cache hw = copy cache := by
  have hstart : Written 0 [] hw := ⟨hhw, List.take_zero, rfl⟩
  obtain ⟨hw', i', hstatics, hwritten⟩ := writeStatics_written cache hstart
  rw [List.nil_append] at hwritten
  have hlength := length_staticsFirst cache
  have hi' := hwritten.length_rows
  unfold writeArpCacheToHw copy
  rw [hstatics]
  refine (writeOthers_written cache hwritten).trans ?_
  unfold staticsFirst at hlength ⊢
  rw [List.length_append] at hlength
  rw [List.length_take, List.length_map] at hi'
  rw [List.map_append, List.take_append, List.take_append, List.take_take, Nat.min_self,
    List.length_take, List.length_map]
  congr 2
  · congr 1
    omega
  · omega

/-- One address, one entry. -/
def DistinctIps (cache : List CacheEntry) : Prop := (cache.map CacheEntry.ip).Nodup

/-- The rows are the copy of the cache. If the cache fits, an entry that is not all zero is in
exactly one row, and a row without an entry is zero. In no case a dynamic entry takes the place of a
static one. -/
structure Mirrors (cache : List CacheEntry) (hw : List Row) : Prop where
  copied : hw = copy cache
  fits : cache.length ≤ arpCamWidth →
    (∀ e ∈ cache, e.row ≠ .clear → hw.count e.row = 1) ∧
      ∀ row ∈ hw, row = .clear ∨ ∃ e ∈ cache, row = e.row
  statics : (∀ e ∈ cache, e.isStatic = true → e.row ∈ hw) ∨
    ∀ row ∈ hw, ∃ e ∈ cache, e.isStatic = true ∧ row = e.row

theorem staticsFirst_perm (cache : List CacheEntry) : (staticsFirst cache).Perm cache :=
  List.filter_append_perm CacheEntry.isStatic cache

theorem nodup_rows {cache : List CacheEntry} (h : DistinctIps cache) :
    ((staticsFirst cache).map CacheEntry.row).Nodup := by
  apply ((staticsFirst_perm cache).map CacheEntry.row).nodup_iff.mpr
  have hrow : cache.map CacheEntry.ip =
      (cache.map CacheEntry.row).map fun row => swap32 row.nextHop := by
    rw [List.map_map]
    apply List.map_congr_left
    intro e _
    exact (swap32_swap32 e.ip).symm
  unfold DistinctIps at h
  rw [hrow] at h
  exact List.Nodup.of_map _ h

theorem mem_rows_iff (cache : List CacheEntry) (row : Row) :
    row ∈ (staticsFirst cache).map CacheEntry.row ↔ ∃ e ∈ cache, row = e.row := by
  rw [List.mem_map]
  constructor
  · rintro ⟨e, he, rfl⟩
    exact ⟨e, (staticsFirst_perm cache).mem_iff.mp he, rfl⟩
  · rintro ⟨e, he, rfl⟩
    exact ⟨e, (staticsFirst_perm cache).mem_iff.mpr he, rfl⟩

theorem copy_of_fits {cache : List CacheEntry} (h : cache.length ≤ arpCamWidth) :
    copy cache = (staticsFirst cache).map CacheEntry.row ++
      List.replicate (arpCamWidth - cache.length) .clear := by
  unfold copy
  rw [List.take_of_length_le]
  rw [List.length_map, length_staticsFirst]
  exact h

theorem copy_fits {cache : List CacheEntry} (hips : DistinctIps cache)
    (h : cache.length ≤ arpCamWidth) :
    (∀ e ∈ cache, e.row ≠ .clear → (copy cache).count e.row = 1) ∧
      ∀ row ∈ copy cache, row = .clear ∨ ∃ e ∈ cache, row = e.row := by
  rw [copy_of_fits h]
  constructor
  · intro e he hne
    have hmem := (mem_rows_iff cache e.row).mpr ⟨e, he, rfl⟩
    rw [List.count_append, List.count_eq_one_of_mem (nodup_rows hips) hmem, List.count_replicate,
      if_neg fun heq => hne (eq_of_beq heq).symm]
  · intro row hrow
    rcases List.mem_append.mp hrow with hrow | hrow
    · exact .inr ((mem_rows_iff cache row).mp hrow)
    · exact .inl (List.eq_of_mem_replicate hrow)

/-- The static entries come first: either all of them have a row, or they have all rows. -/
theorem copy_statics (cache : List CacheEntry) :
    (∀ e ∈ cache, e.isStatic = true → e.row ∈ copy cache) ∨
      ∀ row ∈ copy cache, ∃ e ∈ cache, e.isStatic = true ∧ row = e.row := by
  by_cases hroom : (cache.filter CacheEntry.isStatic).length ≤ arpCamWidth
  · refine .inl fun e he hstatic => ?_
    unfold copy staticsFirst
    rw [List.map_append, List.take_append, List.take_of_length_le (by rwa [List.length_map])]
    apply List.mem_append_left
    apply List.mem_append_left
    exact List.mem_map_of_mem (List.mem_filter.mpr ⟨he, hstatic⟩)
  · refine .inr fun row hrow => ?_
    have hle := List.length_filter_le CacheEntry.isStatic cache
    unfold copy staticsFirst at hrow
    rw [Nat.sub_eq_zero_of_le (by omega), List.replicate_zero, List.append_nil, List.map_append,
      List.take_append_of_le_length (by rw [List.length_map]; omega)] at hrow
    obtain ⟨e, he, rfl⟩ := List.mem_map.mp (List.mem_of_mem_take hrow)
    obtain ⟨hmem, hstatic⟩ := List.mem_filter.mp he
    exact ⟨e, hmem, hstatic, rfl⟩

theorem mirrors_copy {cache : List CacheEntry} (hips : DistinctIps cache) :
    Mirrors cache (copy cache) :=
  ⟨rfl, copy_fits hips, copy_statics cache⟩

inductive Op
  | update (remoteIp : BitVec 32) (remoteMac : Mac) (isStatic : Bool) (now : Int)
  | del (ip : BitVec 32)
  | expire (time : Nat → Int)
  | nuke

def apply (st : State) : Op → State
  | .update remoteIp remoteMac isStatic now => updateArpCache st remoteIp remoteMac isStatic now
  | .del ip => cliIpArpDel st ip
  | .expire time => expireArpCache st time
  | .nuke => cliNukeArpCache st

/-- The operation has written the copy, or it has left the cache and the rows. -/
structure Copies (st st' : State) : Prop where
  isNetfpga : st'.isNetfpga = st.isNetfpga
  copied : st'.hw = copy st'.arpCache ∨ (st'.arpCache = st.arpCache ∧ st'.hw = st.hw)

theorem trigger_hw {st : State} (h : st.isNetfpga = true) :
    (triggerArpCacheModified st).hw = copy st.arpCache := by
  unfold triggerArpCacheModified
  rw [if_pos h]
  exact writeArpCacheToHw_eq st.arpCache st.length_hw

@[simp] theorem trigger_arpCache (st : State) :
    (triggerArpCacheModified st).arpCache = st.arpCache := by
  unfold triggerArpCacheModified
  split <;> rfl

@[simp] theorem trigger_isNetfpga (st : State) :
    (triggerArpCacheModified st).isNetfpga = st.isNetfpga := by
  unfold triggerArpCacheModified
  split <;> rfl

theorem Copies.trigger {st : State} (h : st.isNetfpga = true) (cache : List CacheEntry) :
    Copies st (triggerArpCacheModified { st with arpCache := cache }) := by
  refine ⟨trigger_isNetfpga _, .inl ?_⟩
  rw [@trigger_hw { st with arpCache := cache } h, trigger_arpCache]

/-- The entries that stay, and nothing has timed out only if all stay. -/
theorem expireLoop_spec (arpTtl : BitVec 32) (time : Nat → Int) (n : Nat)
    (cache : List CacheEntry) :
    (expireLoop arpTtl time n cache).1.Sublist cache ∧
      ((expireLoop arpTtl time n cache).2 = false →
        (expireLoop arpTtl time n cache).1 = cache) := by
  induction cache generalizing n with
  | nil => exact ⟨List.Sublist.refl _, fun _ => rfl⟩
  | cons e cache ih =>
    unfold expireLoop
    split
    · obtain ⟨hsub, hall⟩ := ih (n + 1)
      split
      · exact ⟨hsub.cons e, fun h => nomatch h⟩
      · exact ⟨hsub.cons_cons e, fun h => congrArg (List.cons e) (hall h)⟩
    · obtain ⟨hsub, hall⟩ := ih n
      exact ⟨hsub.cons_cons e, fun h => congrArg (List.cons e) (hall h)⟩

theorem apply_copies {st : State} (h : st.isNetfpga = true) (op : Op) :
    Copies st (apply st op) := by
  cases op with
  | update remoteIp remoteMac isStatic now => exact Copies.trigger h _
  | del ip =>
    change Copies st (cliIpArpDel st ip)
    unfold cliIpArpDel delArpCache
    dsimp only
    split
    · exact Copies.trigger h _
    · rename_i hnone
      refine ⟨rfl, .inr ⟨?_, rfl⟩⟩
      have hsub := List.filter_sublist (p := fun e => e.ip != ip) (l := st.arpCache)
      exact hsub.eq_of_length (by have := hsub.length_le; omega)
  | expire time =>
    change Copies st (expireArpCache st time)
    unfold expireArpCache
    dsimp only
    split
    · exact Copies.trigger h _
    · rename_i hnone
      have hall := (expireLoop_spec st.arpTtl time 0 st.arpCache).2 (Bool.eq_false_iff.mpr hnone)
      exact ⟨rfl, .inr ⟨hall, rfl⟩⟩
  | nuke =>
    change Copies st (cliNukeArpCache st)
    unfold cliNukeArpCache
    rw [if_pos h]
    exact Copies.trigger h []

theorem inArpCache_eq_none_iff (cache : List CacheEntry) (ip : BitVec 32) :
    inArpCache cache ip = none ↔ ip ∉ cache.map CacheEntry.ip := by
  unfold inArpCache
  rw [List.find?_eq_none, List.mem_map]
  constructor
  · rintro h ⟨e, he, rfl⟩
    exact h e he (beq_self_eq_true e.ip)
  · intro h e he heq
    exact h ⟨e, he, (eq_of_beq heq).symm⟩

theorem DistinctIps.sublist {cache kept : List CacheEntry} (h : DistinctIps cache)
    (hsub : kept.Sublist cache) : DistinctIps kept := (hsub.map CacheEntry.ip).nodup h

theorem apply_distinctIps {st : State} (h : DistinctIps st.arpCache) (op : Op) :
    DistinctIps (apply st op).arpCache := by
  cases op with
  | update remoteIp remoteMac isStatic now =>
    change DistinctIps (updateArpCache st remoteIp remoteMac isStatic now).arpCache
    unfold updateArpCache
    rw [trigger_arpCache]
    dsimp only
    split
    · unfold DistinctIps
      rw [map_modifyFirst_of_fixed CacheEntry.ip]
      · exact h
      · intro _ _
        rfl
    · rename_i hnone
      have hnotMem := (inArpCache_eq_none_iff st.arpCache remoteIp).mp
        (Option.not_isSome_iff_eq_none.mp hnone)
      unfold DistinctIps
      rw [List.map_append, List.map_singleton, List.nodup_append]
      refine ⟨h, List.nodup_singleton _, fun a ha b hb hab => hnotMem ?_⟩
      have hb : b = remoteIp := List.mem_singleton.mp hb
      rw [← hb, ← hab]
      exact ha
  | del ip =>
    change DistinctIps (cliIpArpDel st ip).arpCache
    unfold cliIpArpDel delArpCache
    dsimp only
    split
    · rw [trigger_arpCache]
      exact h.sublist List.filter_sublist
    · exact h.sublist List.filter_sublist
  | expire time =>
    have hsub := (expireLoop_spec st.arpTtl time 0 st.arpCache).1
    change DistinctIps (expireArpCache st time).arpCache
    unfold expireArpCache
    dsimp only
    split
    · rw [trigger_arpCache]
      exact h.sublist hsub
    · exact h.sublist hsub
  | nuke =>
    change DistinctIps (cliNukeArpCache st).arpCache
    unfold cliNukeArpCache
    dsimp only
    split
    · rw [trigger_arpCache]
      exact List.nodup_nil
    · exact List.nodup_nil

/-- In every state of a run the addresses are distinct, and after every operation that has changed
the cache the hardware mirrors it. -/
def AllMirrored : State → List Op → Prop
  | st, [] => DistinctIps st.arpCache
  | st, op :: ops => DistinctIps st.arpCache ∧
    ((apply st op).arpCache ≠ st.arpCache →
      Mirrors (apply st op).arpCache (apply st op).hw) ∧
    AllMirrored (apply st op) ops

/-- The hardware mirrors the cache over any sequence of operations. -/
theorem arp_cam_mirrors_cache (st : State) (hnet : st.isNetfpga = true)
    (hips : DistinctIps st.arpCache) (ops : List Op) : AllMirrored st ops := by
  induction ops generalizing st with
  | nil => exact hips
  | cons op ops ih =>
    have hcopies := apply_copies hnet op
    have hips' := apply_distinctIps hips op
    refine ⟨hips, fun hchanged => ?_, ih _ (hcopies.isNetfpga.trans hnet) hips'⟩
    rcases hcopies.copied with hcopied | ⟨hsame, _⟩
    · rw [hcopied]
      exact mirrors_copy hips'
    · exact absurd hsame hchanged

/-- A NetFPGA after its start. -/
def emptyCam : State := ⟨[], 300, true, List.replicate arpCamWidth .clear, List.length_replicate⟩

theorem arp_cam_mirrors_emptyCam : AllMirrored emptyCam
    [.update 0x0200000a ⟨0, 1, 2, 3, 4, 5⟩ false 0, .update 0x0300000a ⟨0, 1, 2, 3, 4, 6⟩ true 0,
      .expire (fun _ => 1000), .nuke] :=
  arp_cam_mirrors_cache emptyCam rfl List.nodup_nil _

/-- The entry of a reply that is all zero cannot be told from a row without an entry. -/
theorem zero_entry_in_many_rows :
    (apply emptyCam (.update 0 ⟨0, 0, 0, 0, 0, 0⟩ false 0)).arpCache ≠ emptyCam.arpCache ∧
      (apply emptyCam (.update 0 ⟨0, 0, 0, 0, 0, 0⟩ false 0)).arpCache.length ≤ arpCamWidth ∧
      ∃ e ∈ (apply emptyCam (.update 0 ⟨0, 0, 0, 0, 0, 0⟩ false 0)).arpCache,
        (apply emptyCam (.update 0 ⟨0, 0, 0, 0, 0, 0⟩ false 0)).hw.count e.row = 32 := by
  refine ⟨by decide, by decide, ⟨0, ⟨0, 0, 0, 0, 0, 0⟩, 0, false⟩, by decide, by decide⟩

end Osnt.Scone.Arp
