import Mathlib

/-!
# Loops that search

A loop that goes on until something holds may not come to an end; it is run for a
number of rounds, and has a result when they are enough. What it finds is the first
of what it looks at. Of several such loops one after the other, each may take a
number of rounds of its own.
-/

namespace Lib.Search

/-- `while not p(x): x = f(x)`, for so many rounds. -/
def search (f : α → α) (p : α → Bool) : Nat → α → Option α
  | 0, _ => none
  | n + 1, x => if p x then some x else search f p n (f x)

/-- The first of `x`, `f x`, `f (f x)` and so on with `p`. -/
def First (f : α → α) (p : α → Bool) (x y : α) : Prop :=
  ∃ k, y = f^[k] x ∧ p y = true ∧ ∀ j < k, p (f^[j] x) = false

section
variable {f : α → α} {p : α → Bool} {x y z : α}

theorem first_of (h : p x = true) : First f p x y ↔ y = x := by
  constructor
  · rintro ⟨k, rfl, -, hbefore⟩
    cases k with
    | zero => rfl
    | succ k =>
      have hx : p x = false := hbefore 0 (Nat.succ_pos k)
      rw [h] at hx
      cases hx
  · rintro rfl
    exact ⟨0, rfl, h, fun j hj => absurd hj (Nat.not_lt_zero j)⟩

theorem first_step (h : p x = false) : First f p x y ↔ First f p (f x) y := by
  constructor
  · rintro ⟨k, rfl, hy, hbefore⟩
    cases k with
    | zero =>
      have hx : p x = true := hy
      rw [h] at hx
      cases hx
    | succ k => exact ⟨k, rfl, hy, fun j hj => hbefore (j + 1) (Nat.succ_lt_succ hj)⟩
  · rintro ⟨k, rfl, hy, hbefore⟩
    refine ⟨k + 1, rfl, hy, ?_⟩
    intro j hj
    cases j with
    | zero => exact h
    | succ j => exact hbefore j (Nat.lt_of_succ_lt_succ hj)

/-- The search ends where there is a first, and finds it. -/
theorem search_iff : (∃ n, search f p n x = some y) ↔ First f p x y := by
  constructor
  · rintro ⟨n, h⟩
    induction n generalizing x with
    | zero => cases h
    | succ n ih =>
      rw [search] at h
      split at h
      · next hp => exact (first_of hp).mpr (Option.some.inj h).symm
      · next hp => exact (first_step (Bool.eq_false_iff.mpr hp)).mpr (ih h)
  · rintro ⟨k, rfl, hy, hbefore⟩
    refine ⟨k + 1, ?_⟩
    induction k generalizing x with
    | zero =>
      have hx : p x = true := hy
      rw [search, if_pos hx]
      rfl
    | succ k ih =>
      have hx : p x = false := hbefore 0 (Nat.succ_pos k)
      rw [search, hx]
      exact ih hy fun j hj => hbefore (j + 1) (Nat.succ_lt_succ hj)

theorem First.unique (hy : First f p x y) (hz : First f p x z) : y = z := by
  obtain ⟨k, rfl, hy, hbefore⟩ := hy
  obtain ⟨m, rfl, hz, hbefore'⟩ := hz
  rcases Nat.lt_trichotomy k m with hlt | rfl | hlt
  · exact absurd (hbefore' k hlt) (by rw [hy]; decide)
  · rfl
  · exact absurd (hbefore m hlt) (by rw [hz]; decide)

end

-- ---------------------------------------------------------------------------
-- Searches one after the other
-- ---------------------------------------------------------------------------

def Stable (f : Nat → Option α) : Prop := ∀ n a, f n = some a → ∀ m, n ≤ m → f m = some a

theorem stable_search (f : α → α) (p : α → Bool) (x : α) : Stable fun n => search f p n x := by
  intro n y h m hle
  dsimp only at h ⊢
  induction n generalizing x m with
  | zero => cases h
  | succ n ih =>
    obtain ⟨m, rfl⟩ := Nat.exists_eq_add_of_le' (Nat.lt_of_lt_of_le (Nat.succ_pos n) hle)
    rw [search] at h ⊢
    split at h
    · next hp => rw [if_pos hp, h]
    · next hp =>
      rw [if_neg hp]
      exact ih (f x) h m (Nat.le_of_succ_le_succ hle)

section
variable {α β : Type} {f : Nat → Option α} {g : Nat → α → Option β} {b : β}

theorem stable_bind (hf : Stable f) (hg : ∀ a, Stable fun n => g n a) :
    Stable fun n => (f n).bind (g n) := by
  intro n b h m hle
  obtain ⟨a, ha, hb⟩ := Option.bind_eq_some_iff.mp h
  exact Option.bind_eq_some_iff.mpr ⟨a, hf n a ha m hle, hg a n b hb m hle⟩

/-- Each of two searches may take its own number of rounds. -/
theorem exists_bind_iff (hf : Stable f) (hg : ∀ a, Stable fun n => g n a) :
    (∃ n, (f n).bind (g n) = some b) ↔ ∃ a, (∃ n, f n = some a) ∧ ∃ n, g n a = some b := by
  constructor
  · rintro ⟨n, h⟩
    obtain ⟨a, ha, hb⟩ := Option.bind_eq_some_iff.mp h
    exact ⟨a, ⟨n, ha⟩, n, hb⟩
  · rintro ⟨a, ⟨n, ha⟩, m, hb⟩
    exact ⟨max n m, Option.bind_eq_some_iff.mpr
      ⟨a, hf n a ha _ (Nat.le_max_left n m), hg a m b hb _ (Nat.le_max_right n m)⟩⟩

/-- What follows a search without searching. -/
theorem exists_bind_const_iff {g : α → Option β} :
    (∃ n, (f n).bind g = some b) ↔ ∃ a, (∃ n, f n = some a) ∧ g a = some b := by
  constructor
  · rintro ⟨n, h⟩
    obtain ⟨a, ha, hb⟩ := Option.bind_eq_some_iff.mp h
    exact ⟨a, ⟨n, ha⟩, hb⟩
  · rintro ⟨a, ⟨n, ha⟩, hb⟩
    exact ⟨n, Option.bind_eq_some_iff.mpr ⟨a, ha, hb⟩⟩

theorem stable_const (x : Option β) : Stable fun _ => x := fun _ _ h _ _ => h

theorem mapM_cons (g : α → Option β) (x : α) (xs : List α) :
    (x :: xs).mapM g = (g x).bind fun y => (xs.mapM g).bind fun ys => some (y :: ys) :=
  List.mapM_cons

theorem stable_mapM (hg : ∀ x, Stable fun n => g n x) (xs : List α) :
    Stable fun n => xs.mapM (g n) := by
  induction xs with
  | nil => exact stable_const (some [])
  | cons x xs ih =>
    simp only [mapM_cons]
    exact stable_bind (hg x) fun y => stable_bind ih fun ys => stable_const _

theorem exists_mapM_iff (hg : ∀ x, Stable fun n => g n x) (xs : List α) (ys : List β) :
    (∃ n, xs.mapM (g n) = some ys) ↔ List.Forall₂ (fun x y => ∃ n, g n x = some y) xs ys := by
  induction xs generalizing ys with
  | nil => simp [eq_comm]
  | cons x xs ih =>
    have hrest : ∀ y, Stable fun n => (xs.mapM (g n)).bind fun ys => some (y :: ys) :=
      fun y => stable_bind (stable_mapM hg xs) fun ys => stable_const (some (y :: ys))
    have hcons (y : β) : (∃ n, ((xs.mapM (g n)).bind fun ys => some (y :: ys)) = some ys) ↔
        ∃ zs, List.Forall₂ (fun x y => ∃ n, g n x = some y) xs zs ∧ y :: zs = ys := by
      simp only [exists_bind_const_iff, ih, Option.some.injEq]
    simp only [mapM_cons]
    rw [exists_bind_iff (hg x) hrest]
    simp only [hcons, List.forall₂_cons_left_iff]
    constructor
    · rintro ⟨y, hy, zs, hzs, rfl⟩
      exact ⟨y, zs, hy, hzs, rfl⟩
    · rintro ⟨y, zs, hy, hzs, rfl⟩
      exact ⟨y, hy, zs, hzs, rfl⟩

theorem exists_forall₂ {R : α → β → Prop} {xs : List α} (h : ∀ x ∈ xs, ∃ y, R x y) :
    ∃ ys, List.Forall₂ R xs ys := by
  induction xs with
  | nil => exact ⟨[], .nil⟩
  | cons x xs ih =>
    rw [List.forall_mem_cons] at h
    obtain ⟨y, hy⟩ := h.1
    obtain ⟨ys, hys⟩ := ih h.2
    exact ⟨y :: ys, .cons hy hys⟩

/-- What can be among the results. -/
theorem exists_forall₂_mem_iff {R : α → β → Prop} (xs : List α) (z : β) :
    (∃ ys, List.Forall₂ R xs ys ∧ z ∈ ys) ↔ (∀ x ∈ xs, ∃ y, R x y) ∧ ∃ x ∈ xs, R x z := by
  constructor
  · rintro ⟨ys, hys, hz⟩
    constructor
    · clear hz
      induction hys with
      | nil => simp
      | cons hy _ ih => exact List.forall_mem_cons.mpr ⟨⟨_, hy⟩, ih⟩
    · induction hys with
      | nil => cases hz
      | cons hy _ ih =>
        rcases List.mem_cons.mp hz with rfl | hz
        · exact ⟨_, List.mem_cons_self, hy⟩
        · obtain ⟨x, hmem, hx⟩ := ih hz
          exact ⟨x, List.mem_cons_of_mem _ hmem, hx⟩
  · rintro ⟨hall, x, hmem, hx⟩
    induction xs with
    | nil => cases hmem
    | cons x' xs ih =>
      rw [List.forall_mem_cons] at hall
      rcases List.mem_cons.mp hmem with rfl | hmem
      · obtain ⟨ys, hys⟩ := exists_forall₂ hall.2
        exact ⟨z :: ys, .cons hx hys, List.mem_cons_self⟩
      · obtain ⟨y, hy⟩ := hall.1
        obtain ⟨ys, hys, hz⟩ := ih hall.2 hmem
        exact ⟨y :: ys, .cons hy hys, List.mem_cons_of_mem _ hz⟩

end

end Lib.Search
