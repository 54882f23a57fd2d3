import Mathlib

/-!
# Rings

An array of `n` cells that is filled from the front and then, round after round,
from the front again. With `n` not zero it always holds the last `n` of what was
put into it.
-/

namespace Lib

structure Ring (n : Nat) (α : Type u) where
  cell : Nat → α
  /-- The cell that is filled next. -/
  next : Nat
  /-- How many were put into it so far. -/
  count : Nat

namespace Ring

def empty (n : Nat) (a : α) : Ring n α := ⟨fun _ => a, 0, 0⟩

def push (r : Ring n α) (a : α) : Ring n α where
  cell := Function.update r.cell r.next a
  next := if n ≤ r.next + 1 then 0 else r.next + 1
  count := r.count + 1

/-- `r` was made by putting in `xs`. -/
structure Holds (r : Ring n α) (xs : List α) : Prop where
  next_eq : r.next = xs.length % n
  count_eq : r.count = xs.length
  cell_eq : ∀ i (h : i < xs.length), xs.length ≤ i + n → r.cell (i % n) = xs[i]

theorem Holds.empty (n : Nat) (a : α) : (Ring.empty n a).Holds [] :=
  ⟨(Nat.zero_mod n).symm, rfl, fun _ h => absurd h (Nat.not_lt_zero _)⟩

theorem succ_mod (hn : 0 < n) (k : Nat) :
    (k + 1) % n = if n ≤ k % n + 1 then 0 else k % n + 1 := by
  have hk := Nat.mod_lt k hn
  rw [← Nat.mod_add_mod]
  split
  · next hle =>
    have heq : k % n + 1 = n := by omega
    rw [heq, Nat.mod_self]
  · next hlt => exact Nat.mod_eq_of_lt (by omega)

variable {r : Ring n α} {xs : List α}

theorem Holds.push (hn : 0 < n) (h : r.Holds xs) (a : α) : (r.push a).Holds (xs ++ [a]) := by
  refine ⟨?_, ?_, ?_⟩
  · rw [List.length_append, List.length_singleton, succ_mod hn, ← h.next_eq]
    rfl
  · rw [List.length_append, ← h.count_eq]
    rfl
  · rintro i hi hlast
    rw [List.length_append, List.length_singleton] at hi hlast
    simp only [Ring.push, h.next_eq]
    rcases Nat.lt_or_ge i xs.length with hlt | hge
    · -- two of the last `n` indices are never in one cell
      have hne : i % n ≠ xs.length % n := by
        intro heq
        have hmul : n ∣ xs.length - i := (Nat.modEq_iff_dvd' hlt.le).mp heq
        have := Nat.le_of_dvd (by omega) hmul
        omega
      rw [Function.update_of_ne hne, h.cell_eq i hlt (by omega), List.getElem_append_left hlt]
    · obtain rfl : i = xs.length := by omega
      rw [Function.update_self, List.getElem_append_right (by omega)]
      simp

/-- The cells from `i` on, `count` of them, by number and content. -/
def walk (r : Ring n α) : Nat → Nat → List (Nat × α)
  | _, 0 => []
  | i, count + 1 => (i, r.cell i) :: r.walk (if i + 1 = n then 0 else i + 1) count

end Ring

end Lib
