import Mathlib.Data.List.Basic

/-! Readers-writer locks among threads of any kind. -/
namespace Osnt.Lib

/-- Who reads and who writes. Nobody reads while one writes. -/
structure RwLock (T : Type) where
  readers : List T
  writer : Option T
  exclusive : writer = none ∨ readers = []

namespace RwLock
variable {T : Type}

def free : RwLock T := ⟨[], none, .inl rfl⟩

def Reads (l : RwLock T) (t : T) : Prop := t ∈ l.readers

def Writes (l : RwLock T) (t : T) : Prop := l.writer = some t

/-- `none` while a thread has to wait. -/
def rdlock (l : RwLock T) (t : T) : Option (RwLock T) :=
  match l.writer with
  | none => some ⟨t :: l.readers, none, .inl rfl⟩
  | some _ => none

def wrlock (l : RwLock T) (t : T) : Option (RwLock T) :=
  match l.writer, l.readers with
  | none, [] => some ⟨[], some t, .inr rfl⟩
  | _, _ => none

/-- `none` for a thread that does not hold the lock. -/
def unlock [DecidableEq T] (l : RwLock T) (t : T) : Option (RwLock T) :=
  if l.writer = some t then some free
  else if t ∈ l.readers then
    some ⟨l.readers.erase t, l.writer, l.exclusive.imp id fun h => by rw [h]; rfl⟩
  else none

theorem Reads.excludes {l : RwLock T} {t : T} (h : l.Reads t) (u : T) : ¬ l.Writes u := by
  intro hwrites
  rcases l.exclusive with hnone | hnil
  · rw [Writes, hnone] at hwrites
    cases hwrites
  · rw [Reads, hnil] at h
    cases h

theorem Writes.unique {l : RwLock T} {t u : T} (h : l.Writes t) (h' : l.Writes u) : t = u :=
  Option.some.inj (h.symm.trans h')

/-- What a thread does to the lock leaves what the others hold. -/
def LeavesOthers (l : RwLock T) (t : T) (l' : RwLock T) : Prop :=
  ∀ u, u ≠ t → (l.Reads u → l'.Reads u) ∧ (l.Writes u → l'.Writes u)

theorem rdlock_spec {l l' : RwLock T} {t : T} (h : l.rdlock t = some l') :
    l'.Reads t ∧ l.LeavesOthers t l' := by
  unfold rdlock at h
  split at h
  · rename_i hnone
    cases h
    refine ⟨List.mem_cons_self, fun u _ => ⟨List.mem_cons_of_mem _, fun hw => ?_⟩⟩
    rw [Writes, hnone] at hw
    cases hw
  · cases h

theorem wrlock_spec {l l' : RwLock T} {t : T} (h : l.wrlock t = some l') :
    l'.Writes t ∧ l.LeavesOthers t l' := by
  unfold wrlock at h
  split at h
  · rename_i hnone hnil
    cases h
    refine ⟨rfl, fun u _ => ⟨fun hr => ?_, fun hw => ?_⟩⟩
    · rw [Reads, hnil] at hr
      cases hr
    · rw [Writes, hnone] at hw
      cases hw
  · cases h

theorem unlock_spec [DecidableEq T] {l l' : RwLock T} {t : T} (h : l.unlock t = some l') :
    l.LeavesOthers t l' := by
  intro u hne
  unfold unlock at h
  split at h
  · rename_i hwriter
    cases h
    refine ⟨fun hr => absurd hwriter (hr.excludes t), fun hw => ?_⟩
    exact absurd (Writes.unique hw hwriter) hne
  · split at h
    · cases h
      exact ⟨fun hr => (List.mem_erase_of_ne hne).mpr hr, fun hw => hw⟩
    · cases h

end RwLock
end Osnt.Lib
