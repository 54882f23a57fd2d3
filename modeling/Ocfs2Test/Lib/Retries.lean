import Mathlib

/-!
# Bounded retries

A loop draws until it has done what it is to do, or until a counter reaches a bound.
A counter of all rounds ends it; one that only counts rounds that do something does not.
-/

namespace Lib.Retries

/-- How a loop ends; it is pending when nothing is left to draw. -/
inductive Outcome (σ : Type)
  | returned (s : σ)
  | stopped
  | pending

section
variable {σ ρ : Type} (step : ρ → σ → Option σ)

/-- `while (iters > 0 && times < threshold)`. A round whose draw does not suit is skipped;
the other ones make a call, and one that fails may stop the loop. -/
def loop (countSkips : Bool) (stops : Nat → Bool) (threshold : Nat) :
    List ρ → Nat → Nat → Nat → σ → Outcome σ
  | [], iters, times, _, s => if 0 < iters ∧ times < threshold then .pending else .returned s
  | r :: rs, iters, times, calls, s =>
    if 0 < iters ∧ times < threshold then
      match step r s with
      | none => loop countSkips stops threshold rs iters (if countSkips then times + 1 else times)
          calls s
      | some s =>
        if stops calls then .stopped
        else loop countSkips stops threshold rs (iters - 1) (times + 1) (calls + 1) s
    else .returned s

/-- How many rounds are not skipped when nothing ends the loop. -/
def count : List ρ → σ → Nat
  | [], _ => 0
  | r :: rs, s =>
    match step r s with
    | none => count rs s
    | some s => count rs s + 1

variable {step} {stops : Nat → Bool} {threshold : Nat}

/-- Every round brings the counter closer to the threshold. -/
theorem loop_ends (rs : List ρ) (iters times calls : Nat) (s : σ)
    (h : threshold ≤ times + rs.length) :
    loop step true stops threshold rs iters times calls s ≠ .pending := by
  induction rs generalizing iters times calls s with
  | nil =>
    rw [List.length_nil] at h
    rw [loop, if_neg (by omega)]
    nofun
  | cons r rs ih =>
    rw [List.length_cons] at h
    rw [loop]
    split
    · cases step r s with
      | none => exact ih iters (times + 1) calls s (by omega)
      | some s' =>
        dsimp only
        split
        · nofun
        · exact ih (iters - 1) (times + 1) (calls + 1) s' (by omega)
    · nofun

/-- When skips are not counted the threshold does nothing, since each round that counts
is one of those wanted. -/
theorem loop_pending_iff (rs : List ρ) (iters times calls : Nat) (s : σ)
    (h : iters + times ≤ threshold) :
    loop step false stops threshold rs iters times calls s = .pending ↔
      count step rs s < iters ∧ ∀ k < count step rs s, stops (calls + k) = false := by
  induction rs generalizing iters times calls s with
  | nil =>
    rw [loop, count]
    by_cases hiters : 0 < iters
    · rw [if_pos ⟨hiters, by omega⟩]
      exact ⟨fun _ => ⟨hiters, nofun⟩, fun _ => rfl⟩
    · rw [if_neg fun hc => hiters hc.1]
      exact ⟨nofun, fun hc => absurd hc.1 hiters⟩
  | cons r rs ih =>
    rw [loop, count]
    by_cases hiters : 0 < iters
    · rw [if_pos ⟨hiters, by omega⟩]
      cases step r s with
      | none => exact ih iters times calls s h
      | some s' =>
        dsimp only
        have hcalls : (∀ k < count step rs s' + 1, stops (calls + k) = false) ↔
            stops calls = false ∧ ∀ k < count step rs s', stops (calls + 1 + k) = false := by
          rw [Nat.forall_lt_succ_left]
          simp only [Nat.add_zero, Nat.add_right_comm calls 1, Nat.add_assoc]
        rw [hcalls]
        cases hstop : stops calls with
        | true => simp
        | false =>
          rw [if_neg Bool.false_ne_true, ih (iters - 1) (times + 1) (calls + 1) s' (by omega)]
          constructor
          · rintro ⟨hlt, hall⟩
            exact ⟨by omega, rfl, hall⟩
          · rintro ⟨hlt, -, hall⟩
            exact ⟨by omega, hall⟩
    · rw [if_neg fun hc => hiters hc.1]
      exact ⟨nofun, fun hc => absurd (Nat.zero_lt_of_lt hc.1) hiters⟩

end

-- ---------------------------------------------------------------------------
-- Counting
-- ---------------------------------------------------------------------------

section
variable {σ τ ρ κ : Type} {step : ρ → σ → Option σ} {step' : ρ → τ → Option τ}

/-- Rounds that are skipped together count the same. -/
theorem count_eq_of_sim {R : σ → τ → Prop}
    (hsim : ∀ r s t, R s t → Option.Rel R (step r s) (step' r t)) (rs : List ρ) {s : σ} {t : τ}
    (h : R s t) : count step rs s = count step' rs t := by
  induction rs generalizing s t with
  | nil => rfl
  | cons r rs ih =>
    have hrel := hsim r s t h
    rw [count, count]
    cases hs : step r s with
    | none =>
      cases ht : step' r t with
      | none => exact ih h
      | some t' =>
        rw [hs, ht] at hrel
        cases hrel
    | some s' =>
      cases ht : step' r t with
      | none =>
        rw [hs, ht] at hrel
        cases hrel
      | some t' =>
        rw [hs, ht] at hrel
        cases hrel with
        | some h' => exact congrArg (· + 1) (ih h')

variable [DecidableEq κ] (index : ρ → κ)

/-- A draw from what is left takes the element away. -/
def take (r : ρ) (left : Finset κ) : Option (Finset κ) :=
  if index r ∈ left then some (left.erase (index r)) else none

/-- A draw from what is left leaves it there. -/
def use (r : ρ) (left : Finset κ) : Option (Finset κ) := if index r ∈ left then some left else none

theorem count_take (rs : List ρ) (left : Finset κ) :
    count (take index) rs left = ((rs.map index).toFinset ∩ left).card := by
  induction rs generalizing left with
  | nil => simp [count]
  | cons r rs ih =>
    rw [count, take, List.map_cons, List.toFinset_cons]
    by_cases hmem : index r ∈ left
    · rw [if_pos hmem, Finset.insert_inter_of_mem hmem]
      dsimp only
      rw [ih, Finset.inter_erase, ← Finset.erase_insert_eq_erase,
        Finset.card_erase_add_one (Finset.mem_insert_self _ _)]
    · rw [if_neg hmem, Finset.insert_inter_of_notMem hmem]
      exact ih left

theorem count_use (rs : List ρ) (left : Finset κ) :
    count (use index) rs left = rs.countP fun r => index r ∈ left := by
  induction rs with
  | nil => rfl
  | cons r rs ih =>
    rw [count, use, List.countP_cons]
    by_cases hmem : index r ∈ left
    · simp only [hmem, decide_true, if_true, ih]
    · simp only [hmem, decide_false, Bool.false_eq_true, if_false, ih, Nat.add_zero]

end

end Lib.Retries
