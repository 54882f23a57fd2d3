import Mathlib

/-!
# Transfers in pieces

A call moves part of the bytes it is asked for, and a loop asks for the rest
until none are missing. It ends if every call moves something, and it never ends
where an invariant keeps bytes missing. What the loop reached is what the calls
preserve.
-/

namespace Lib.Transfer

section
variable {σ : Type}

/-- One call, and one more as long as bytes are missing. `call s done` asks for
what is behind the first `done` bytes: the state behind it and its result, `none`
for an error. The loop ends with whether all calls succeeded; after `fuel` calls
it may still be running. -/
def loop (call : σ → Nat → σ × Option Nat) (count : Nat) : Nat → σ → Nat → Option (σ × Bool)
  | 0, _, _ => none
  | fuel + 1, s, done =>
    match call s done with
    | (s', none) => some (s', false)
    | (s', some n) =>
      if done + n < count then loop call count fuel s' (done + n) else some (s', true)

end

section
variable {σ : Type} {call : σ → Nat → σ × Option Nat} {count fuel n done : Nat} {s s' : σ}

theorem loop_error (h : call s done = (s', none)) :
    loop call count (fuel + 1) s done = some (s', false) := by
  simp only [loop, h]

theorem loop_last (h : call s done = (s', some n)) (hlast : count ≤ done + n) :
    loop call count (fuel + 1) s done = some (s', true) := by
  simp only [loop, h, if_neg (Nat.not_lt.mpr hlast)]

theorem loop_more (h : call s done = (s', some n)) (hmore : done + n < count) :
    loop call count (fuel + 1) s done = loop call count fuel s' (done + n) := by
  simp only [loop, h, if_pos hmore]

/-- Kept by every call that succeeds. -/
def Preserved (call : σ → Nat → σ × Option Nat) (inv : σ → Nat → Prop) : Prop :=
  ∀ s done s' n, inv s done → call s done = (s', some n) → inv s' (done + n)

variable {inv : σ → Nat → Prop}

theorem Preserved.of_true (hinv : Preserved call inv) (h : inv s done)
    (hend : loop call count fuel s done = some (s', true)) :
    ∃ total, count ≤ total ∧ inv s' total := by
  induction fuel generalizing s done with
  | zero => cases hend
  | succ fuel ih =>
    cases hcall : call s done with
    | mk s₁ result =>
      cases result with
      | none =>
        rw [loop_error hcall] at hend
        cases hend
      | some n =>
        have hnext := hinv s done s₁ n h hcall
        by_cases hmore : done + n < count
        · rw [loop_more hcall hmore] at hend
          exact ih hnext hend
        · rw [loop_last hcall (Nat.not_lt.mp hmore)] at hend
          cases hend
          exact ⟨_, Nat.not_lt.mp hmore, hnext⟩

theorem Preserved.of_false (hinv : Preserved call inv) (h : inv s done)
    (hend : loop call count fuel s done = some (s', false)) :
    ∃ s₁ done₁, inv s₁ done₁ ∧ call s₁ done₁ = (s', none) := by
  induction fuel generalizing s done with
  | zero => cases hend
  | succ fuel ih =>
    cases hcall : call s done with
    | mk s₁ result =>
      cases result with
      | none =>
        rw [loop_error hcall] at hend
        cases hend
        exact ⟨s, done, h, hcall⟩
      | some n =>
        by_cases hmore : done + n < count
        · rw [loop_more hcall hmore] at hend
          exact ih (hinv s done s₁ n h hcall) hend
        · rw [loop_last hcall (Nat.not_lt.mp hmore)] at hend
          cases hend

/-- A call for each byte that is missing is enough for calls that move something. -/
theorem Preserved.exists_of_le (hinv : Preserved call inv) (h : inv s done)
    (hmoves : ∀ s done s' n, inv s done → done < count → call s done = (s', some n) → 0 < n)
    (hfuel : count - done ≤ fuel) (hpos : 0 < fuel) :
    ∃ r, loop call count fuel s done = some r := by
  induction fuel generalizing s done with
  | zero => exact absurd hpos (Nat.lt_irrefl 0)
  | succ fuel ih =>
    cases hcall : call s done with
    | mk s₁ result =>
      cases result with
      | none => exact ⟨_, loop_error hcall⟩
      | some n =>
        by_cases hmore : done + n < count
        · have hn := hmoves s done s₁ n h (by omega) hcall
          obtain ⟨r, hr⟩ := ih (hinv s done s₁ n h hcall) (by omega) (by omega)
          exact ⟨r, (loop_more hcall hmore).trans hr⟩
        · exact ⟨_, loop_last hcall (Nat.not_lt.mp hmore)⟩

/-- A loop ends whose calls move something as long as something is missing. -/
theorem Preserved.exists_loop (hinv : Preserved call inv) (h : inv s done)
    (hmoves : ∀ s done s' n, inv s done → done < count → call s done = (s', some n) → 0 < n) :
    ∃ fuel r, loop call count fuel s done = some r :=
  ⟨count - done + 1, hinv.exists_of_le h hmoves (Nat.le_succ _) (Nat.succ_pos _)⟩

/-- A loop does not end where every call succeeds and leaves bytes missing. -/
theorem loop_eq_none (h : inv s done)
    (hmissing : ∀ s done, inv s done →
      ∃ s' n, call s done = (s', some n) ∧ inv s' (done + n) ∧ done + n < count) :
    loop call count fuel s done = none := by
  induction fuel generalizing s done with
  | zero => rfl
  | succ fuel ih =>
    obtain ⟨s₁, n, hcall, hnext, hmore⟩ := hmissing s done h
    rw [loop_more hcall hmore]
    exact ih hnext

end

end Lib.Transfer
