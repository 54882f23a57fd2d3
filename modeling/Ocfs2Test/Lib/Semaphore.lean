import Mathlib

/-!
# Mutual exclusion by a semaphore

A semaphore that begins at one and that each process takes before and gives
back after its critical section. `inside p` says that `p` is in it.
-/

namespace Lib

structure Guarded (sem : Nat) (inside : ι → Prop) : Prop where
  exclusive : ∀ p q, inside p → inside q → p = q
  free : 0 < sem → ∀ p, ¬ inside p
  one : sem ≤ 1

namespace Guarded

variable {sem : Nat} {inside inside' : ι → Prop}

theorem start (h : ∀ p, ¬ inside p) : Guarded 1 inside :=
  ⟨fun p _ hp => absurd hp (h p), fun _ => h, Nat.le_refl _⟩

theorem enter (h : Guarded sem inside) (h' : ∀ q, inside' q → q = p) : Guarded (sem - 1) inside' := by
  have := h.one
  exact ⟨fun q r hq hr => (h' q hq).trans (h' r hr).symm, by omega, by omega⟩

theorem stay (h : Guarded sem inside) (h' : ∀ q, inside' q → inside q) : Guarded sem inside' :=
  ⟨fun p q hp hq => h.exclusive p q (h' p hp) (h' q hq), fun hs p hp => h.free hs p (h' p hp), h.one⟩

theorem leave (h : Guarded sem inside) (hp : inside p) (h' : ∀ q, inside' q → inside q ∧ q ≠ p) :
    Guarded (sem + 1) inside' := by
  have hsem : sem = 0 := by
    by_cases h0 : 0 < sem
    · exact absurd hp (h.free h0 p)
    · omega
  have hnone : ∀ q, ¬ inside' q := fun q hq => (h' q hq).2 (h.exclusive q p (h' q hq).1 hp)
  exact ⟨fun q _ hq => absurd hq (hnone q), fun _ => hnone, by omega⟩

end Guarded

/-- The same for a semaphore that can be removed, which nobody inside survives. -/
def Removable (sem : Option Nat) (inside : ι → Prop) : Prop :=
  match sem with
  | some n => Guarded n inside
  | none => ∀ p, ¬ inside p

namespace Removable

variable {sem : Option Nat} {inside inside' : ι → Prop}

theorem exclusive (h : Removable sem inside) (hp : inside p) (hq : inside q) : p = q := by
  cases sem with
  | some n => exact Guarded.exclusive h p q hp hq
  | none => exact absurd hp (h p)

theorem stay (h : Removable sem inside) (h' : ∀ q, inside' q → inside q) : Removable sem inside' := by
  cases sem with
  | some n => exact Guarded.stay h h'
  | none => exact fun q hq => h q (h' q hq)

end Removable

end Lib
