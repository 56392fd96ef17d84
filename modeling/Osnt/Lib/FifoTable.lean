import Mathlib.Data.Finset.Card
import Mathlib.Data.List.Nodup
import Mathlib.Data.List.Infix

/-! An associative table with a fixed number of rows: a key that is there gets a new value where it
stands, a new key takes the place of the one that came first. -/
namespace Osnt.Lib.FifoTable
variable {κ β : Type}

/-- The rows, oldest first. -/
abbrev Table (κ β : Type) := List (κ × β)

def keys (t : Table κ β) : List κ := t.map Prod.fst

theorem mem_keys {t : Table κ β} {k : κ} : k ∈ keys t ↔ ∃ e ∈ t, e.1 = k := List.mem_map

theorem keys_append (t u : Table κ β) : keys (t ++ u) = keys t ++ keys u := List.map_append

variable [DecidableEq κ]

/-- A new value in the rows of a key. -/
def rewrite (t : Table κ β) (k : κ) (v : β) : Table κ β :=
  t.map (fun e => if e.1 = k then (k, v) else e)

def learn (t : Table κ β) (e : κ × β) : Table κ β :=
  if e.1 ∈ keys t then rewrite t e.1 e.2 else t.tail ++ [e]

def find (t : Table κ β) (k : κ) : Option β := (t.find? (fun e => e.1 = k)).map Prod.snd

/-- The value learned last. -/
def latest (k : κ) (es : List (κ × β)) : Option β := find es.reverse k

def learnAll (t : Table κ β) (es : List (κ × β)) : Table κ β := es.foldl learn t

/-- Rows of one key hold one value. -/
def Agrees (t : Table κ β) : Prop := ∀ a ∈ t, ∀ b ∈ t, a.1 = b.1 → a.2 = b.2

theorem find_eq_none {t : Table κ β} {k : κ} : find t k = none ↔ k ∉ keys t := by
  rw [find, Option.map_eq_none_iff, List.find?_eq_none, mem_keys, not_exists]
  refine forall_congr' fun e => ?_
  rw [not_and, decide_eq_true_iff]

theorem learn_old {t : Table κ β} {e : κ × β} (h : e.1 ∈ keys t) : learn t e = rewrite t e.1 e.2 :=
  if_pos h

theorem learn_new {t : Table κ β} {e : κ × β} (h : e.1 ∉ keys t) : learn t e = t.tail ++ [e] :=
  if_neg h

theorem mem_of_find {t : Table κ β} {k : κ} {v : β} (h : find t k = some v) : (k, v) ∈ t := by
  obtain ⟨⟨a, b⟩, hf, rfl⟩ := Option.map_eq_some_iff.mp h
  have hmem := List.mem_of_find?_eq_some hf
  obtain rfl : a = k := by simpa using List.find?_some hf
  exact hmem

theorem find_of_mem {t : Table κ β} (h : Agrees t) {k : κ} {v : β} (hmem : (k, v) ∈ t) :
    find t k = some v := by
  cases hf : find t k with
  | none => exact absurd (mem_keys.mpr ⟨_, hmem, rfl⟩) (find_eq_none.mp hf)
  | some u => exact congrArg some (h (k, u) (mem_of_find hf) (k, v) hmem rfl)

theorem mem_rewrite {t : Table κ β} {k : κ} {v : β} {e : κ × β} :
    e ∈ rewrite t k v ↔ (e ∈ t ∧ e.1 ≠ k) ∨ (e = (k, v) ∧ k ∈ keys t) := by
  constructor
  · intro h
    obtain ⟨a, ha, rfl⟩ := List.mem_map.mp h
    by_cases hk : a.1 = k
    · exact .inr ⟨if_pos hk, mem_keys.mpr ⟨a, ha, hk⟩⟩
    · rw [if_neg hk]
      exact .inl ⟨ha, hk⟩
  · rintro (⟨he, hk⟩ | ⟨rfl, hk⟩)
    · exact List.mem_map.mpr ⟨e, he, if_neg hk⟩
    · obtain ⟨a, ha, hk⟩ := mem_keys.mp hk
      exact List.mem_map.mpr ⟨a, ha, if_pos hk⟩

theorem keys_rewrite (t : Table κ β) (k : κ) (v : β) : keys (rewrite t k v) = keys t := by
  rw [keys, rewrite, List.map_map]
  refine List.map_congr_left fun e _ => ?_
  by_cases hk : e.1 = k
  · simp [hk]
  · simp [hk]

/-- What is in a table that has learned something was there before or is what it learned. -/
theorem mem_learn {t : Table κ β} {e a : κ × β} (h : a ∈ learn t e) :
    (a ∈ t ∧ a.1 ≠ e.1) ∨ a = e := by
  rw [learn] at h
  split at h
  · rcases mem_rewrite.mp h with h | ⟨rfl, -⟩
    · exact .inl h
    · exact .inr rfl
  · rename_i hk
    rcases List.mem_append.mp h with h | h
    · refine .inl ⟨List.mem_of_mem_tail h, fun he => hk ?_⟩
      exact mem_keys.mpr ⟨a, List.mem_of_mem_tail h, he⟩
    · exact .inr (List.mem_singleton.mp h)

theorem Agrees.learn {t : Table κ β} (h : Agrees t) (e : κ × β) : Agrees (learn t e) := by
  intro a ha b hb hab
  rcases mem_learn ha with ⟨ha, hne⟩ | rfl
  · rcases mem_learn hb with ⟨hb, -⟩ | rfl
    · exact h a ha b hb hab
    · exact absurd hab hne
  · rcases mem_learn hb with ⟨hb, hne⟩ | rfl
    · exact absurd hab.symm hne
    · rfl

theorem agrees_learnAll {t : Table κ β} (h : Agrees t) (es : List (κ × β)) :
    Agrees (learnAll t es) := by
  induction es generalizing t with
  | nil => exact h
  | cons e es ih => exact ih (h.learn e)

theorem learnAll_concat (t : Table κ β) (es : List (κ × β)) (e : κ × β) :
    learnAll t (es ++ [e]) = learn (learnAll t es) e := by
  simp [learnAll]

theorem latest_concat (k : κ) (es : List (κ × β)) (e : κ × β) :
    latest k (es ++ [e]) = if e.1 = k then some e.2 else latest k es := by
  by_cases hk : e.1 = k
  · simp [latest, find, hk]
  · simp [latest, find, hk]

theorem latest_eq_none {k : κ} {es : List (κ × β)} : latest k es = none ↔ k ∉ keys es := by
  rw [latest, find_eq_none, keys, keys, List.map_reverse, List.mem_reverse]

/-- A value that is found is the one learned last, or one of the beginning. -/
theorem find_learnAll {t : Table κ β} (ht : Agrees t) (es : List (κ × β)) {k : κ} {v : β}
    (h : find (learnAll t es) k = some v) :
    latest k es = some v ∨ latest k es = none ∧ find t k = some v := by
  induction es using List.reverseRecOn generalizing v with
  | nil => exact .inr ⟨rfl, h⟩
  | append_singleton es e ih =>
    have hmem := mem_of_find h
    rw [learnAll_concat] at hmem
    rw [latest_concat]
    rcases mem_learn hmem with ⟨hold, hne⟩ | rfl
    · rw [if_neg (Ne.symm hne)]
      exact ih (find_of_mem (agrees_learnAll ht es) hold)
    · exact .inl (if_pos rfl)

/-- A table of `n` rows that began with rows of the key `z`: some of these are left, and behind them
is a row for every other key learned. -/
def Filled (z : κ) (n : Nat) (t : Table κ β) (es : List (κ × β)) : Prop :=
  ∃ m v rest, t = List.replicate m (z, v) ++ rest ∧ m + rest.length = n ∧ (keys rest).Nodup ∧
    (∀ k, k ∈ keys rest ↔ k ∈ keys es ∧ k ≠ z) ∧ (z ∈ keys es → 0 < m)

/-- The rows behind those of the beginning and the key that is new to them are keys learned. -/
theorem length_lt_card {rest : Table κ β} (ks : List κ) {k : κ} (hnodup : (keys rest).Nodup)
    (hsub : ∀ x ∈ keys rest, x ∈ ks) (hk : k ∈ ks) (hnew : k ∉ keys rest) :
    rest.length < ks.toFinset.card := by
  have hcard : (keys rest).toFinset.card = rest.length := by
    rw [List.toFinset_card_of_nodup hnodup, keys, List.length_map]
  rw [← hcard]
  refine Finset.card_lt_card ⟨fun x hx => ?_, fun hall => hnew ?_⟩
  · exact List.mem_toFinset.mpr (hsub x (List.mem_toFinset.mp hx))
  · exact List.mem_toFinset.mp (hall (List.mem_toFinset.mpr hk))

theorem rewrite_append (t u : Table κ β) (k : κ) (v : β) :
    rewrite (t ++ u) k v = rewrite t k v ++ rewrite u k v := List.map_append

theorem rewrite_of_not_mem {t : Table κ β} {k : κ} (h : k ∉ keys t) (v : β) :
    rewrite t k v = t := by
  refine List.map_congr_left (fun e he => if_neg fun hk => h ?_) |>.trans (List.map_id t)
  exact mem_keys.mpr ⟨e, he, hk⟩

omit [DecidableEq κ] in
theorem mem_keys_replicate {z k : κ} {m : Nat} {v : β} :
    k ∈ keys (List.replicate m (z, v)) ↔ k = z ∧ m ≠ 0 := by
  rw [keys, List.map_replicate, List.mem_replicate]
  exact and_comm

theorem Filled.concat {z : κ} {n : Nat} {t : Table κ β} {es : List (κ × β)}
    (h : Filled z n t es) {e : κ × β} (hroom : (keys (es ++ [e])).toFinset.card ≤ n) :
    Filled z n (learn t e) (es ++ [e]) := by
  obtain ⟨m, v, rest, rfl, hlen, hnodup, hrest, hz⟩ := h
  have hkeys : ∀ k, k ∈ keys (es ++ [e]) ↔ k ∈ keys es ∨ k = e.1 := by
    intro k
    simp [keys]
  have hold : ∀ k ∈ keys rest, k ∈ keys (es ++ [e]) := fun k hk =>
    (hkeys k).mpr (.inl ((hrest k).mp hk).1)
  have hthere : e.1 ∈ keys (List.replicate m (z, v) ++ rest) ↔
      e.1 = z ∧ m ≠ 0 ∨ e.1 ∈ keys rest := by
    rw [keys_append, List.mem_append, mem_keys_replicate]
  by_cases hez : e.1 = z
  · -- The key of the beginning: its rows are still there.
    have hnot : z ∉ keys rest := fun hk => ((hrest z).mp hk).2 rfl
    have hm : m ≠ 0 := by
      intro hm
      have hlt := length_lt_card _ hnodup hold ((hkeys e.1).mpr (.inr rfl)) (hez ▸ hnot)
      omega
    rw [learn_old (hthere.mpr (.inl ⟨hez, hm⟩)), hez]
    refine ⟨m, e.2, rest, ?_, hlen, hnodup, fun k => ?_, fun _ => Nat.pos_of_ne_zero hm⟩
    · rw [rewrite_append, rewrite_of_not_mem hnot, rewrite, List.map_replicate, if_pos rfl]
    · rw [hrest k, hkeys k, hez]
      constructor
      · exact fun hk => ⟨.inl hk.1, hk.2⟩
      · rintro ⟨hk | rfl, hne⟩
        · exact ⟨hk, hne⟩
        · exact absurd rfl hne
  · have hkeys' : ∀ k, k ∈ keys rest ∨ k = e.1 ↔ k ∈ keys (es ++ [e]) ∧ k ≠ z := by
      intro k
      rw [hrest k, hkeys k]
      constructor
      · rintro (hk | rfl)
        · exact ⟨.inl hk.1, hk.2⟩
        · exact ⟨.inr rfl, hez⟩
      · rintro ⟨hk | rfl, hne⟩
        · exact .inl ⟨hk, hne⟩
        · exact .inr rfl
    by_cases hmem : e.1 ∈ keys rest
    · rw [learn_old (hthere.mpr (.inr hmem))]
      refine ⟨m, v, rewrite rest e.1 e.2, ?_, ?_, ?_, fun k => ?_, fun hk => hz ?_⟩
      · rw [rewrite_append, rewrite_of_not_mem]
        exact fun hk => hez (mem_keys_replicate.mp hk).1
      · rw [rewrite, List.length_map, hlen]
      · rw [keys_rewrite]
        exact hnodup
      · rw [keys_rewrite, ← hkeys' k]
        exact ⟨.inl, fun hk => hk.elim id fun hk => hk ▸ hmem⟩
      · exact ((hkeys z).mp hk).resolve_right (Ne.symm hez)
    · -- A new key: there is a row of the beginning to take its place.
      rw [learn_new fun hk => (hthere.mp hk).elim (fun hk => hez hk.1) hmem]
      have hroom' : rest.length + (if z ∈ keys es then 1 else 0) < n := by
        split
        · rename_i hzmem
          have hcons : (keys ((z, v) :: rest)).Nodup :=
            List.nodup_cons.mpr ⟨fun hk => ((hrest z).mp hk).2 rfl, hnodup⟩
          have hlt := length_lt_card (keys (es ++ [e])) hcons (k := e.1) ?_
            ((hkeys e.1).mpr (.inr rfl)) ?_
          · rw [List.length_cons] at hlt
            omega
          · intro x hx
            rcases List.mem_cons.mp hx with rfl | hx
            · exact (hkeys _).mpr (.inl hzmem)
            · exact hold x hx
          · intro hx
            rcases List.mem_cons.mp hx with hx | hx
            · exact hez hx
            · exact hmem hx
        · have hlt := length_lt_card _ hnodup hold ((hkeys e.1).mpr (.inr rfl)) hmem
          omega
      obtain ⟨m, rfl⟩ : ∃ k, m = k + 1 := ⟨m - 1, by omega⟩
      refine ⟨m, v, rest ++ [e], ?_, ?_, ?_, fun k => ?_, fun hk => ?_⟩
      · rw [List.replicate_succ, List.cons_append, List.tail_cons, List.append_assoc]
      · rw [List.length_append, List.length_singleton]
        omega
      · rw [keys_append]
        exact List.nodup_append.mpr ⟨hnodup, List.nodup_singleton _, by
          intro a ha b hb
          rw [List.mem_singleton.mp hb]
          exact fun hab => hmem (hab ▸ ha)⟩
      · rw [keys_append, List.mem_append, ← hkeys' k]
        simp [keys]
      · have hzmem := ((hkeys z).mp hk).resolve_right (Ne.symm hez)
        rw [if_pos hzmem] at hroom'
        omega

theorem filled_learnAll (z : κ) (v : β) {n : Nat} {es : List (κ × β)}
    (h : (keys es).toFinset.card ≤ n) :
    Filled z n (learnAll (List.replicate n (z, v)) es) es := by
  induction es using List.reverseRecOn with
  | nil =>
    exact ⟨n, v, [], by simp [learnAll], by simp, List.nodup_nil, by simp [keys], by simp [keys]⟩
  | append_singleton es e ih =>
    have hle : (keys es).toFinset.card ≤ (keys (es ++ [e])).toFinset.card := by
      refine Finset.card_le_card fun k hk => ?_
      rw [List.mem_toFinset, keys_append, List.mem_append]
      exact .inl (List.mem_toFinset.mp hk)
    rw [learnAll_concat]
    exact (ih (hle.trans h)).concat h

/-- As long as there are no more keys than rows, what is found is what was learned last. -/
theorem find_filled (z : κ) (v : β) {n : Nat} {es : List (κ × β)}
    (h : (keys es).toFinset.card ≤ n) {k : κ} (hk : k ≠ z ∨ k ∈ keys es) :
    find (learnAll (List.replicate n (z, v)) es) k = latest k es := by
  have hagrees : Agrees (List.replicate n (z, v)) := by
    intro a ha b hb _
    rw [List.eq_of_mem_replicate ha, List.eq_of_mem_replicate hb]
  obtain ⟨m, u, rest, ht, -, -, hrest, hz⟩ := filled_learnAll z v h
  by_cases hmem : k ∈ keys es
  · obtain ⟨w, hw⟩ : ∃ w, find (learnAll (List.replicate n (z, v)) es) k = some w := by
      rw [← Option.ne_none_iff_exists', Ne, find_eq_none, not_not, ht, keys_append, List.mem_append]
      by_cases hkz : k = z
      · subst hkz
        exact .inl (mem_keys_replicate.mpr ⟨rfl, Nat.pos_iff_ne_zero.mp (hz hmem)⟩)
      · exact .inr ((hrest k).mpr ⟨hmem, hkz⟩)
    rcases find_learnAll hagrees es hw with hl | ⟨hl, -⟩
    · rw [hw, hl]
    · exact absurd hmem (latest_eq_none.mp hl)
  · have hkz := hk.resolve_right hmem
    rw [latest_eq_none.mpr hmem, find_eq_none, ht, keys_append, List.mem_append,
      mem_keys_replicate, hrest k]
    rintro (hx | hx)
    · exact hkz hx.1
    · exact hmem hx.1

end Osnt.Lib.FifoTable
