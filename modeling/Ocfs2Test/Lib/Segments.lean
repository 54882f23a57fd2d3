import Mathlib

/-!
# Lists of segments

A segment gives every position of `[off, off + len)` one value, and a list of
segments a partial map. In a separated list each segment ends before the next
one begins and no two begin at the same place, so an empty segment sits
strictly between its neighbours' beginnings.
-/

namespace Lib

structure Segment (α : Type u) where
  val : α
  off : Nat
  len : Nat
  deriving DecidableEq, Repr

namespace Segment

def stop (x : Segment α) : Nat := x.off + x.len

def Covers (x : Segment α) (pos : Nat) : Prop := x.off ≤ pos ∧ pos < x.stop

instance (x : Segment α) (pos : Nat) : Decidable (x.Covers pos) :=
  inferInstanceAs (Decidable (_ ∧ _))

/-- `x` ends before `y` begins, and begins before it. -/
def Before (x y : Segment α) : Prop := x.stop ≤ y.off ∧ x.off < y.off

instance (x y : Segment α) : Decidable (Before x y) := inferInstanceAs (Decidable (_ ∧ _))

def Separated (xs : List (Segment α)) : Prop := xs.Pairwise Before

/-- The value at a position, of the first segment that covers it. -/
def lookup (xs : List (Segment α)) (pos : Nat) : Option α :=
  (xs.find? fun x => decide (x.Covers pos)).map (·.val)

/-- `f` with `x` written over it. -/
def override (f : Nat → Option α) (x : Segment α) : Nat → Option α :=
  fun pos => if x.Covers pos then some x.val else f pos

variable {x y c : Segment α} {xs ys : List (Segment α)}

theorem Before.trans (h : Before x y) (h' : Before y z) : Before x z := by
  unfold Before stop at *
  omega

theorem Before.not_covers_both (h : Before x y) (hx : x.Covers pos) (hy : y.Covers pos) : False := by
  unfold Before at h
  unfold Covers at hx hy
  omega

theorem stop_eq (x : Segment α) : x.stop = x.off + x.len := rfl

-- ---------------------------------------------------------------------------
-- Lookup
-- ---------------------------------------------------------------------------

theorem Separated.eq_of_covers (h : Separated xs) (hx : x ∈ xs) (hy : y ∈ xs)
    (hcx : x.Covers pos) (hcy : y.Covers pos) : x = y := by
  induction xs with
  | nil => cases hx
  | cons z zs ih =>
    obtain ⟨hz, hzs⟩ := List.pairwise_cons.mp h
    rcases List.mem_cons.mp hx with hx' | hx' <;> rcases List.mem_cons.mp hy with hy' | hy'
    · rw [hx', hy']
    · exact ((hz y hy').not_covers_both (hx' ▸ hcx) hcy).elim
    · exact ((hz x hx').not_covers_both (hy' ▸ hcy) hcx).elim
    · exact ih hzs hx' hy'

theorem lookup_eq_none : lookup xs pos = none ↔ ∀ x ∈ xs, ¬ x.Covers pos := by
  simp [lookup]

theorem Separated.lookup_eq_some (h : Separated xs) :
    lookup xs pos = some v ↔ ∃ x ∈ xs, x.Covers pos ∧ x.val = v := by
  simp only [lookup, Option.map_eq_some_iff]
  constructor
  · rintro ⟨x, hx, rfl⟩
    exact ⟨x, List.mem_of_find?_eq_some hx, by simpa using List.find?_some hx, rfl⟩
  · rintro ⟨x, hx, hc, rfl⟩
    cases hf : xs.find? fun y => decide (y.Covers pos) with
    | none => simpa [hc] using List.find?_eq_none.mp hf x hx
    | some y =>
      have hy : y.Covers pos := by simpa using List.find?_some hf
      exact ⟨y, rfl, by rw [h.eq_of_covers hx (List.mem_of_find?_eq_some hf) hc hy]⟩

/-- Separated lists that cover `pos` alike agree there. -/
theorem Separated.lookup_congr (h : Separated xs) (h' : Separated ys)
    (hm : ∀ v, (∃ x ∈ xs, x.Covers pos ∧ x.val = v) ↔ ∃ y ∈ ys, y.Covers pos ∧ y.val = v) :
    lookup xs pos = lookup ys pos := by
  apply Option.ext
  intro v
  rw [h.lookup_eq_some, h'.lookup_eq_some, hm]

-- ---------------------------------------------------------------------------
-- Insertion
-- ---------------------------------------------------------------------------

theorem separated_insert (h : Separated (xs ++ ys)) (hxs : ∀ x ∈ xs, Before x c)
    (hys : ∀ y ∈ ys, Before c y) : Separated (xs ++ c :: ys) := by
  obtain ⟨h₁, h₂, h₃⟩ := List.pairwise_append.mp h
  refine List.pairwise_append.mpr ⟨h₁, List.pairwise_cons.mpr ⟨hys, h₂⟩, ?_⟩
  intro x hx y hy
  rcases List.mem_cons.mp hy with rfl | hy
  · exact hxs x hx
  · exact h₃ x hx y hy

theorem lookup_insert (h : Separated (xs ++ ys)) (hxs : ∀ x ∈ xs, Before x c)
    (hys : ∀ y ∈ ys, Before c y) :
    lookup (xs ++ c :: ys) = override (lookup (xs ++ ys)) c := by
  have hc := separated_insert h hxs hys
  funext pos
  unfold override
  split
  · next hp => exact hc.lookup_eq_some.mpr ⟨c, by simp, hp, rfl⟩
  · next hp =>
    refine hc.lookup_congr h fun v => ?_
    constructor
    · rintro ⟨x, hx, hcov, rfl⟩
      have hne : x ≠ c := by
        rintro rfl
        exact hp hcov
      exact ⟨x, by simpa [hne] using hx, hcov, rfl⟩
    · rintro ⟨x, hx, hcov, rfl⟩
      refine ⟨x, ?_, hcov, rfl⟩
      simp only [List.mem_append, List.mem_cons] at hx ⊢
      exact hx.imp id .inr

theorem filter_off_lt (hxs : ∀ x ∈ xs, x.off < k) (hys : ∀ y ∈ ys, k ≤ y.off) :
    (xs ++ ys).filter (fun x => decide (x.off < k)) = xs := by
  rw [List.filter_append, List.filter_eq_self.mpr, List.filter_eq_nil_iff.mpr, List.append_nil]
  · intro y hy
    simpa using hys y hy
  · intro x hx
    simpa using hxs x hx

/-- There is one place for a segment between the others. -/
theorem split_unique {xs' ys' : List (Segment α)} (h : xs ++ ys = xs' ++ ys')
    (hxs : ∀ x ∈ xs, Before x c) (hys : ∀ y ∈ ys, Before c y)
    (hxs' : ∀ x ∈ xs', Before x c) (hys' : ∀ y ∈ ys', Before c y) : xs = xs' ∧ ys = ys' := by
  have hf := filter_off_lt (fun x hx => (hxs x hx).2) fun y hy => Nat.le_of_lt (hys y hy).2
  have hf' := filter_off_lt (fun x hx => (hxs' x hx).2) fun y hy => Nat.le_of_lt (hys' y hy).2
  have hx : xs = xs' := by rw [← hf, h, hf']
  subst hx
  exact ⟨rfl, List.append_cancel_left h⟩

theorem Separated.around (h : Separated (xs ++ c :: ys)) :
    (∀ x ∈ xs, Before x c) ∧ (∀ y ∈ ys, Before c y) ∧ Separated (xs ++ ys) := by
  refine ⟨fun x hx => (List.pairwise_append.mp h).2.2 x hx c (by simp), ?_, h.sublist (by simp)⟩
  exact (List.pairwise_cons.mp (List.pairwise_append.mp h).2.1).1

theorem Separated.cut_unique {xs' ys' : List (Segment α)} (hs : Separated (xs ++ c :: ys))
    (h : xs ++ c :: ys = xs' ++ c :: ys') : xs = xs' ∧ ys = ys' := by
  have hf (l m : List (Segment α)) (hs : Separated (l ++ c :: m)) :
      (l ++ c :: m).filter (fun x => decide (x.off < c.off)) = l := by
    obtain ⟨hl, hm, -⟩ := hs.around
    refine filter_off_lt (fun x hx => (hl x hx).2) fun y hy => ?_
    rcases List.mem_cons.mp hy with rfl | hy
    · exact Nat.le_refl _
    · exact Nat.le_of_lt (hm y hy).2
  have hx : xs = xs' := by rw [← hf xs ys hs, h, hf xs' ys' (h ▸ hs)]
  subst hx
  simpa using h

/-- Replacing a segment by pieces of it, and dropping empty segments, changes
nothing where the pieces cover what the segment did. -/
theorem lookup_replace {ps ys' : List (Segment α)} (h : Separated (xs ++ c :: ys))
    (h' : Separated (xs ++ ps ++ ys')) (hsub : ys'.Sublist ys)
    (hkeep : ∀ y ∈ ys, 0 < y.len → y ∈ ys') (hval : ∀ p ∈ ps, p.val = c.val)
    (hcov : c.Covers pos ↔ ∃ p ∈ ps, p.Covers pos) :
    lookup (xs ++ ps ++ ys') pos = lookup (xs ++ c :: ys) pos := by
  refine h'.lookup_congr h fun v => ?_
  constructor
  · rintro ⟨x, hx, hc, rfl⟩
    simp only [List.mem_append] at hx
    rcases hx with (hx | hx) | hx
    · exact ⟨x, by simp [hx], hc, rfl⟩
    · exact ⟨c, by simp, hcov.mpr ⟨x, hx, hc⟩, (hval x hx).symm⟩
    · exact ⟨x, by simp [hsub.subset hx], hc, rfl⟩
  · rintro ⟨x, hx, hc, rfl⟩
    simp only [List.mem_append, List.mem_cons] at hx
    rcases hx with hx | rfl | hx
    · exact ⟨x, by simp [hx], hc, rfl⟩
    · obtain ⟨p, hp, hpc⟩ := hcov.mp hc
      exact ⟨p, by simp [hp], hpc, hval p hp⟩
    · have hpos : 0 < x.len := by
        unfold Covers stop at hc
        omega
      exact ⟨x, by simp [hkeep x hx hpos], hc, rfl⟩

-- ---------------------------------------------------------------------------
-- Runs of overrides
-- ---------------------------------------------------------------------------

theorem foldl_override_none (f : Nat → Option α) (h : ∀ x ∈ xs, ¬ x.Covers pos) :
    xs.foldl override f pos = f pos := by
  induction xs generalizing f with
  | nil => rfl
  | cons x xs ih =>
    rw [List.foldl_cons, ih _ fun y hy => h y (by simp [hy]), override, if_neg (h x (by simp))]

/-- Where some segment covers, what was there before does not matter. -/
theorem foldl_override_covered (f g : Nat → Option α) (h : ∃ x ∈ xs, x.Covers pos) :
    xs.foldl override f pos = xs.foldl override g pos ∧ (xs.foldl override f pos).isSome := by
  induction xs generalizing f g with
  | nil => simp at h
  | cons x xs ih =>
    rw [List.foldl_cons, List.foldl_cons]
    by_cases hxs : ∃ y ∈ xs, y.Covers pos
    · exact ih _ _ hxs
    · have hx : x.Covers pos := by
        obtain ⟨y, hy, hc⟩ := h
        rcases List.mem_cons.mp hy with rfl | hy
        · exact hc
        · exact absurd ⟨y, hy, hc⟩ hxs
      have hno : ∀ y ∈ xs, ¬ y.Covers pos := fun y hy hc => hxs ⟨y, hy, hc⟩
      simp [foldl_override_none _ hno, override, hx]

end Segment

end Lib
