import Mathlib

/-!
# Transition systems

A system is a set of initial states and a step relation. Safety is one rule,
`System.Reachable.invariant`: what holds initially and is kept by every step of a
reachable state holds in every reachable state. A family of processes steps
one process at a time; `ProcSystem.system` is that interleaving.
-/

namespace Lib

structure System (σ : Type u) where
  Init : σ → Prop
  Step : σ → σ → Prop

namespace System

variable {S : System σ} {s s' : σ}

def Reachable (S : System σ) (s : σ) : Prop :=
  ∃ s₀, S.Init s₀ ∧ Relation.ReflTransGen S.Step s₀ s

theorem Reachable.init (h : S.Init s) : S.Reachable s := ⟨s, h, .refl⟩

theorem Reachable.step (h : S.Reachable s) (hs : S.Step s s') : S.Reachable s' := by
  obtain ⟨s₀, h₀, hr⟩ := h
  exact ⟨s₀, h₀, hr.tail hs⟩

theorem Reachable.steps (h : S.Reachable s) (hs : Relation.ReflTransGen S.Step s s') :
    S.Reachable s' := by
  obtain ⟨s₀, h₀, hr⟩ := h
  exact ⟨s₀, h₀, hr.trans hs⟩

/-- The invariant rule. The step premise may use that its source is reachable,
so invariants can be proved one after the other. -/
theorem Reachable.invariant {P : σ → Prop} (h : S.Reachable s) (hinit : ∀ s, S.Init s → P s)
    (hstep : ∀ s s', S.Reachable s → P s → S.Step s s' → P s') : P s := by
  obtain ⟨s₀, h₀, hr⟩ := h
  have hboth : S.Reachable s ∧ P s := by
    induction hr with
    | refl => exact ⟨.init h₀, hinit _ h₀⟩
    | tail _ hst ih => exact ⟨ih.1.step hst, hstep _ _ ih.1 ih.2 hst⟩
  exact hboth.2

/-- A state with no step out of it that is not a final one. -/
def Deadlocked (S : System σ) (Final : σ → Prop) (s : σ) : Prop :=
  ¬ Final s ∧ ∀ s', ¬ S.Step s s'

end System

/-- Processes named by `ι`, each deterministic: `next s p` is the state after a
step of `p`, or `none` while `p` is blocked or has ended. -/
structure ProcSystem (ι : Type v) (σ : Type u) where
  Init : σ → Prop
  next : σ → ι → Option σ

namespace ProcSystem

variable {M : ProcSystem ι σ} {s s' : σ}

def system (M : ProcSystem ι σ) : System σ where
  Init := M.Init
  Step s s' := ∃ p, M.next s p = some s'

def run (M : ProcSystem ι σ) : List ι → σ → Option σ
  | [], s => some s
  | p :: ps, s => (M.next s p).bind (M.run ps)

theorem reachable_run {ps : List ι} (h : M.system.Reachable s) (hrun : M.run ps s = some s') :
    M.system.Reachable s' := by
  induction ps generalizing s with
  | nil =>
    cases hrun
    exact h
  | cons p ps ih =>
    obtain ⟨t, ht, hrest⟩ := Option.bind_eq_some_iff.mp hrun
    exact ih (h.step ⟨p, ht⟩) hrest

theorem deadlocked_iff {Final : σ → Prop} :
    M.system.Deadlocked Final s ↔ ¬ Final s ∧ ∀ p, M.next s p = none := by
  simp only [System.Deadlocked, system, not_exists, Option.eq_none_iff_forall_not_mem,
    Option.mem_def]
  constructor
  · rintro ⟨hf, h⟩
    exact ⟨hf, fun p s' => h s' p⟩
  · rintro ⟨hf, h⟩
    exact ⟨hf, fun s' p => h p s'⟩

end ProcSystem

/-- After a step of process `i` alone. -/
theorem update_cases [DecidableEq ι] {f : ι → β} {P : β → Prop} (h : P (Function.update f i x q)) :
    (q = i ∧ P x) ∨ (q ≠ i ∧ P (f q)) := by
  by_cases hq : q = i
  · subst hq
    rw [Function.update_self] at h
    exact .inl ⟨rfl, h⟩
  · rw [Function.update_of_ne hq] at h
    exact .inr ⟨hq, h⟩

theorem update_stay [DecidableEq ι] {f : ι → β} {P : β → Prop} (hi : P x → P (f i))
    (h : P (Function.update f i x q)) : P (f q) := by
  rcases update_cases h with ⟨rfl, hx⟩ | ⟨-, hq⟩
  · exact hi hx
  · exact hq

/-- A sum over all processes after a step of process `i` alone. -/
theorem sum_update [Fintype ι] [DecidableEq ι] (f : ι → β) (g : β → Nat) (i : ι) (x : β) :
    ∑ q, g (Function.update f i x q) + g (f i) = ∑ q, g (f q) + g x := by
  have hcomp : (fun q => g (Function.update f i x q)) =
      Function.update (fun q => g (f q)) i (g x) := Function.comp_update g f i x
  rw [hcomp, Finset.sum_update_of_mem (Finset.mem_univ i),
    Finset.sum_eq_add_sum_sdiff_singleton_of_mem (Finset.mem_univ i) fun q => g (f q)]
  omega

end Lib
