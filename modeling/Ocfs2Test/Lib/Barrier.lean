import Mathlib

/-!
# Barriers

A barrier shared by all processes of a family, called any number of times by
each. `entered p` counts the calls `p` has begun, `left p` those it has
returned from. A call returns only when every process has begun as many.
-/

namespace Lib

structure Barrier (ι : Type v) where
  entered : ι → Nat
  left : ι → Nat

namespace Barrier

/-- The call `p` is in may return. -/
def Open (b : Barrier ι) (p : ι) : Prop := ∀ q, b.entered p ≤ b.entered q

instance [Fintype ι] (b : Barrier ι) (p : ι) : Decidable (b.Open p) :=
  inferInstanceAs (Decidable (∀ _, _))

/-- Nobody is past a call that somebody has not begun. -/
def Synced (b : Barrier ι) : Prop := ∀ p q, b.left p ≤ b.entered q

def start : Barrier ι := ⟨fun _ => 0, fun _ => 0⟩

theorem synced_start : (start : Barrier ι).Synced := by simp [Synced, start]

variable [DecidableEq ι]

def enter (b : Barrier ι) (p : ι) : Barrier ι :=
  { b with entered := Function.update b.entered p (b.entered p + 1) }

def leave (b : Barrier ι) (p : ι) : Barrier ι :=
  { b with left := Function.update b.left p (b.left p + 1) }

variable {b : Barrier ι} {p : ι}

theorem Synced.enter (h : b.Synced) : (b.enter p).Synced := by
  intro q r
  have hq := h q r
  by_cases hr : r = p
  · subst hr
    simp only [Barrier.enter, Function.update_self]
    omega
  · simpa [Barrier.enter, hr] using hq

theorem Synced.leave (h : b.Synced) (hin : b.left p < b.entered p) (ho : b.Open p) :
    (b.leave p).Synced := by
  intro q r
  by_cases hq : q = p
  · subst hq
    have := ho r
    simp only [Barrier.leave, Function.update_self]
    omega
  · simpa [Barrier.leave, hq] using h q r

end Barrier

end Lib
