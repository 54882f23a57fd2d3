import Mathlib

/-!
# Advisory locks of a file

An owner holds a file shared or exclusively. `FileLocks` carries that an exclusive
holder is the only one, so that a request can be granted only where this stays so.
-/

namespace Lib

inductive LockMode
  | shared
  | exclusive
  deriving DecidableEq, Repr

@[ext]
structure FileLocks (ω : Type u) where
  held : ω → Option LockMode
  apart : ∀ o o' m m', o ≠ o' → held o = some m → held o' = some m' →
    m = .shared ∧ m' = .shared

namespace FileLocks

variable {ω : Type u} {l : FileLocks ω} {o o' : ω} {m : LockMode}

def free : FileLocks ω where
  held _ := none
  apart _ _ _ _ _ h _ := by cases h

instance [Fintype ω] [DecidableEq ω] : DecidableEq (FileLocks ω) := fun l l' =>
  decidable_of_iff (∀ o, l.held o = l'.held o)
    ⟨fun h => FileLocks.ext (funext h), fun h _ => h ▸ rfl⟩

/-- An exclusive holder is alone. -/
theorem held_none (h : l.held o = some .exclusive) (hne : o' ≠ o) : l.held o' = none := by
  rcases hm : l.held o' with _ | m
  · rfl
  · cases (l.apart o' o m _ hne hm h).2

/-- Nobody else holds the file in a mode that is not compatible with `m`. -/
def Grants (l : FileLocks ω) (o : ω) (m : LockMode) : Prop :=
  ∀ o', o' ≠ o → ∀ m', l.held o' = some m' → m = .shared ∧ m' = .shared

/-- A shared request is granted as long as nobody else is exclusive. -/
theorem grants_shared (h : ∀ o', o' ≠ o → l.held o' ≠ some .exclusive) : l.Grants o .shared := by
  intro o' hne m' hm'
  cases m' with
  | shared => exact ⟨rfl, rfl⟩
  | exclusive => exact absurd hm' (h o' hne)

theorem grants_free (o : ω) (m : LockMode) : free.Grants o m := by
  rintro o' - m' hm'
  cases hm'

/-- Nothing is granted beside an exclusive holder. -/
theorem not_grants (h : l.held o' = some .exclusive) (hne : o' ≠ o) : ¬ l.Grants o m :=
  fun hgrants => by cases (hgrants o' hne _ h).2

variable [DecidableEq ω]

instance [Fintype ω] : Decidable (l.Grants o m) :=
  decidable_of_iff
    (∀ o', o' = o ∨ l.held o' = none ∨ m = .shared ∧ l.held o' = some .shared) <| by
    constructor
    · intro h o' hne m' hm'
      rcases h o' with heq | hnone | ⟨hm, hshared⟩
      · exact absurd heq hne
      · rw [hnone] at hm'
        cases hm'
      · rw [hshared] at hm'
        cases hm'
        exact ⟨hm, rfl⟩
    · intro h o'
      rcases Decidable.em (o' = o) with heq | hne
      · exact .inl heq
      · rcases hm' : l.held o' with _ | m'
        · exact .inr (.inl rfl)
        · obtain ⟨hm, rfl⟩ := h o' hne m' hm'
          exact .inr (.inr ⟨hm, rfl⟩)

def release (l : FileLocks ω) (o : ω) : FileLocks ω where
  held := Function.update l.held o none
  apart a b m m' hne ha hb := by
    rcases Decidable.em (a = o) with rfl | hao
    · rw [Function.update_self] at ha
      cases ha
    rcases Decidable.em (b = o) with rfl | hbo
    · rw [Function.update_self] at hb
      cases hb
    rw [Function.update_of_ne hao] at ha
    rw [Function.update_of_ne hbo] at hb
    exact l.apart a b m m' hne ha hb

theorem release_of_none (h : l.held o = none) : l.release o = l := by
  ext1
  change Function.update l.held o none = l.held
  rw [← h, Function.update_eq_self]

/-- `o` comes to hold the file in `m`, also where it held it in the other mode. -/
def grant (l : FileLocks ω) (o : ω) (m : LockMode) (h : l.Grants o m) : FileLocks ω where
  held := Function.update l.held o (some m)
  apart a b m' m'' hne ha hb := by
    rcases Decidable.em (a = o) with rfl | hao
    · rw [Function.update_self] at ha
      rw [Function.update_of_ne hne.symm] at hb
      cases ha
      exact h b hne.symm m'' hb
    rw [Function.update_of_ne hao] at ha
    rcases Decidable.em (b = o) with rfl | hbo
    · rw [Function.update_self] at hb
      cases hb
      exact (h a hne m' ha).symm
    · rw [Function.update_of_ne hbo] at hb
      exact l.apart a b m' m'' hne ha hb

end FileLocks

end Lib
