import Ocfs2Test.LvbTorture.Safety

/-!
# Deadlocks

With the second barrier no state before the end of the run is stuck: among the
ranks that have begun the fewest barriers one can move, or the holder it waits
for can. Without it a rank may take EX for the next iteration before another
has taken PR for the current one, and the two then wait for each other. That
takes a third rank and a second iteration, and nothing more.
-/

namespace Ocfs2Test.LvbTorture

open Lib

section
variable {cfg : Config} {b : Bool} {s s' : State cfg.numProcs} {p q : Fin cfg.numProcs}

-- ---------------------------------------------------------------------------
-- What blocks a rank
-- ---------------------------------------------------------------------------

theorem blocked_cases (h : next cfg b s p = none) :
    (s.procs p).pc = .done ∨ (s.procs p).pc = .aborted ∨
      ((s.procs p).inside = 1 ∧ ¬ s.barrier.Open p) ∨
      ((s.procs p).pc = .clearLock ∧ ¬ Grantable s.held .ex) ∨
      ((s.procs p).pc = .lock ∧ ¬ Grantable s.held (s.procs p).level) := by
  unfold next at h
  simp only at h
  split at h <;> rename_i hpc <;> (repeat' split at h) <;>
    simp only [reduceCtorEq] at h <;> simp_all [Proc.inside]

/-- A blocked rank that holds the lock is a writer waiting in its first barrier. -/
theorem blocked_holder (hi : Inv cfg b s) (h : next cfg b s p = none) (hh : s.held p ≠ none) :
    (s.procs p).pc = .inBarrier ∧ (s.procs p).level = .ex ∧ ¬ s.barrier.Open p := by
  have hr := hi.rank p
  rw [hr.held] at hh
  rcases blocked_cases h with hpc | hpc | ⟨hin, ho⟩ | ⟨hpc, -⟩ | ⟨hpc, -⟩
  · simp [Proc.holds, hpc] at hh
  · simp [Proc.holds, hpc] at hh
  · cases hpc : (s.procs p).pc <;> cases hlv : (s.procs p).level <;>
      simp_all [Proc.inside, Proc.holds]
  · simp [Proc.holds, hpc] at hh
  · simp [Proc.holds, hpc] at hh

/-- The writer a stuck rank waits for, compared with a rank `p` that has begun
the fewest barriers. -/
theorem blocked_holder_round (hi : Inv cfg b s) (h : next cfg b s q = none)
    (hh : s.held q ≠ none) (hmin : s.barrier.Open p) :
    s.barrier.entered p = roundStart b (s.procs q).iter ∧
      (s.procs q).iter < cfg.maxIter ∧ (s.procs q).iter % cfg.numProcs = q.val := by
  obtain ⟨hpc, hex, ho⟩ := blocked_holder hi h hh
  have hr := hi.rank q
  have hl := hr.locals
  have hs := hi.synced q p
  have hent := hr.entered
  rw [hr.left] at hs
  simp only [Proc.left, Proc.inside, LocalsOk, Turn, hpc, hex, true_iff] at hs hent hl
  refine ⟨?_, hl.1, hl.2.1⟩
  simp only [Barrier.Open, not_forall, Nat.not_le] at ho
  obtain ⟨r, hr⟩ := ho
  have := hmin r
  omega

-- ---------------------------------------------------------------------------
-- Stuck states
-- ---------------------------------------------------------------------------

theorem not_grantable_pr (h : ¬ Grantable s.held .pr) : ∃ q, s.held q = some .ex := by
  simpa [Grantable] using h

theorem not_grantable_ex (h : ¬ Grantable s.held .ex) : ∃ q, s.held q ≠ none := by
  simpa [Grantable] using h

theorem roundStart_inj (h : roundStart b i = roundStart b j) : i = j := by
  unfold roundStart at h
  split at h <;> omega

theorem stuck_waits (hi : Inv cfg b s) (hstuck : ∀ p, next cfg b s p = none)
    (hmin : s.barrier.Open p) (hnd : (s.procs p).pc ≠ .done) :
    b = false ∧ ∃ q, (s.procs q).iter = (s.procs p).iter + 1 ∧ (s.procs q).iter < cfg.maxIter ∧
      (s.procs q).iter % cfg.numProcs = q.val ∧ (s.procs p).iter % cfg.numProcs ≠ p.val ∧ q ≠ p := by
  have hr := hi.rank p
  have hl := hr.locals
  have hent := hr.entered
  rcases blocked_cases (hstuck p) with hpc | hpc | ⟨-, ho⟩ | ⟨hpc, hg⟩ | ⟨hpc, hg⟩
  · exact absurd hpc hnd
  · simp [LocalsOk, hpc] at hl
  · exact absurd hmin ho
  · obtain ⟨q, hq⟩ := not_grantable_ex hg
    obtain ⟨he, -⟩ := blocked_holder_round hi (hstuck q) hq hmin
    simp only [Proc.left, Proc.inside, hpc] at hent
    unfold roundStart at he
    split at he <;> omega
  · have hfree : s.held p = none := by simp [hr.held, Proc.holds, hpc]
    simp only [LocalsOk, Turn, hpc] at hl
    simp only [Proc.left, Proc.inside, hpc] at hent
    cases hlv : (s.procs p).level with
    | ex =>
      rw [hlv] at hg
      obtain ⟨q, hq⟩ := not_grantable_ex hg
      obtain ⟨he, -, hturn⟩ := blocked_holder_round hi (hstuck q) hq hmin
      simp only [hlv] at hent
      have hj := roundStart_inj (he.symm.trans hent)
      have hqp : q = p := Fin.ext (by rw [← hturn, hj, hl.2.1.mp hlv])
      exact absurd hfree (hqp ▸ hq)
    | pr =>
      rw [hlv] at hg
      obtain ⟨q, hq⟩ := not_grantable_pr hg
      have hqn : s.held q ≠ none := by simp [hq]
      obtain ⟨he, hlt, hturn⟩ := blocked_holder_round hi (hstuck q) hqn hmin
      simp only [hlv] at hent
      rw [hent] at he
      have hne : q ≠ p := fun h => hqn (h ▸ hfree)
      have hnt : (s.procs p).iter % cfg.numProcs ≠ p.val := fun h => by
        simp [hl.2.1.mpr h] at hlv
      cases b with
      | true => simp only [roundStart, ↓reduceIte] at he; omega
      | false =>
        refine ⟨rfl, q, ?_, hlt, hturn, hnt, hne⟩
        simp only [roundStart, Bool.false_eq_true, ↓reduceIte] at he
        omega

theorem stuck_done (hi : Inv cfg b s) (hstuck : ∀ p, next cfg b s p = none)
    (hmin : s.barrier.Open p) (hd : (s.procs p).pc = .done) : Finished s := by
  have hent : s.barrier.entered p = roundStart b cfg.maxIter := by
    have hl := (hi.rank p).locals
    simp only [LocalsOk, hd] at hl
    simp [(hi.rank p).entered, Proc.left, Proc.inside, hd, hl]
  intro q
  have hr := hi.rank q
  have hl := hr.locals
  have hq := hr.entered
  have hge := hmin q
  rcases blocked_cases (hstuck q) with hpc | hpc | ⟨hin, ho⟩ | ⟨hpc, -⟩ | ⟨hpc, hg⟩
  · exact hpc
  · simp [LocalsOk, hpc] at hl
  · -- nobody has begun more barriers than a rank that is done
    refine absurd (fun r => ?_) ho
    have hle := hr.entered_le
    have hr' := hmin r
    have : (s.procs q).iter < cfg.maxIter ∨ s.barrier.entered q ≤ 1 := by
      cases hpc : (s.procs q).pc <;> simp_all [Proc.inside, LocalsOk, Proc.left]
    have : (s.procs q).iter < cfg.maxIter →
        roundStart b ((s.procs q).iter + 1) ≤ roundStart b cfg.maxIter := roundStart_mono
    have : 1 ≤ roundStart b cfg.maxIter := by unfold roundStart; split <;> omega
    omega
  · simp only [Proc.left, Proc.inside, hpc] at hq
    have : 1 ≤ roundStart b cfg.maxIter := by unfold roundStart; split <;> omega
    omega
  · have hlt : (s.procs q).iter < cfg.maxIter := by
      simp only [LocalsOk, hpc] at hl
      exact hl.1
    obtain ⟨r, hr⟩ : ∃ r, s.held r ≠ none := by
      cases hlv : (s.procs q).level with
      | ex => exact not_grantable_ex (hlv ▸ hg)
      | pr =>
        obtain ⟨r, hr⟩ := not_grantable_pr (hlv ▸ hg)
        exact ⟨r, by simp [hr]⟩
    obtain ⟨he, hj, -⟩ := blocked_holder_round hi (hstuck r) hr hmin
    have := roundStart_inj (hent.symm.trans he)
    omega

theorem three_of_turns {n i p q : Nat} (hlt : p < n) (hp : i % n ≠ p) (hq : (i + 1) % n = q)
    (hqp : q ≠ p) : 3 ≤ n := by
  by_contra hn
  obtain rfl | rfl : n = 1 ∨ n = 2 := by omega
  all_goals omega

/-- A reachable state that is stuck before the end: the second barrier is
missing, and there are a third rank and a second iteration. -/
theorem stuck_needs (hi : Inv cfg b s) (hstuck : ∀ p, next cfg b s p = none)
    (hnf : ¬ Finished s) : b = false ∧ 3 ≤ cfg.numProcs ∧ 2 ≤ cfg.maxIter := by
  have hne : Nonempty (Fin cfg.numProcs) := by
    by_contra hn
    exact hnf fun p => (hn ⟨p⟩).elim
  obtain ⟨p, hmin⟩ := Finite.exists_min s.barrier.entered
  have hnd : (s.procs p).pc ≠ .done := fun hd => hnf (stuck_done hi hstuck hmin hd)
  obtain ⟨hb, q, hj, hlt, hq, hp, hqp⟩ := stuck_waits hi hstuck hmin hnd
  refine ⟨hb, ?_, by omega⟩
  rw [hj] at hq
  exact three_of_turns p.isLt hp hq fun h => hqp (Fin.ext h)

end

-- ---------------------------------------------------------------------------
-- The deadlock without the second barrier
-- ---------------------------------------------------------------------------

/-- What a step of a rank can change. -/
structure View where
  proc : Proc
  left : Nat
  entered : Nat
  held : Option Level
  lvb : Nat

def State.view (s : State n) (p : Fin n) : View :=
  ⟨s.procs p, s.barrier.left p, s.barrier.entered p, s.held p, s.lvb⟩

def State.put (s : State n) (p : Fin n) (w : View) : State n where
  procs := Function.update s.procs p w.proc
  barrier := ⟨Function.update s.barrier.entered p w.entered,
    Function.update s.barrier.left p w.left⟩
  held := Function.update s.held p w.held
  lvb := w.lvb

theorem State.put_view (s : State n) (p : Fin n) : s.put p (s.view p) = s := by
  simp [State.put, State.view]

/-- Ranks below `k` as in `v`, the others still as in `u`. -/
def blend (k : Nat) (u v : State n) : State n where
  procs p := if p.val < k then v.procs p else u.procs p
  barrier := ⟨fun p => if p.val < k then v.barrier.entered p else u.barrier.entered p,
    fun p => if p.val < k then v.barrier.left p else u.barrier.left p⟩
  held p := if p.val < k then v.held p else u.held p
  lvb := u.lvb

theorem blend_view {u v : State n} (hk : k < n) :
    (blend k u v).put ⟨k, hk⟩ (u.view ⟨k, hk⟩) = blend k u v := by
  have hv : u.view ⟨k, hk⟩ = (blend k u v).view ⟨k, hk⟩ := by simp [State.view, blend]
  rw [hv, State.put_view]

theorem blend_succ {u v : State n} (hk : k < n) (hl : u.lvb = v.lvb) :
    (blend k u v).put ⟨k, hk⟩ (v.view ⟨k, hk⟩) = blend (k + 1) u v := by
  have hupd {α : Type} (f g : Fin n → α) :
      (fun p : Fin n => if p.val < k + 1 then f p else g p) =
        Function.update (fun p : Fin n => if p.val < k then f p else g p) ⟨k, hk⟩ (f ⟨k, hk⟩) := by
    funext p
    by_cases hp : p = ⟨k, hk⟩
    · subst hp
      simp
    · have hpk : p.val ≠ k := fun h => hp (Fin.ext h)
      have : p.val < k + 1 ↔ p.val < k := by omega
      simp [hp, this]
  simp only [blend, State.put, State.view, hupd, hl]

section
variable {cfg : Config} {s u v : State cfg.numProcs} {p : Fin cfg.numProcs}

/-- Rank `p` goes from one view to the other in a state otherwise like `s`. -/
abbrev Goes (cfg : Config) (s : State cfg.numProcs) (p : Fin cfg.numProcs) (w w' : View) : Prop :=
  Relation.ReflTransGen (lvbTorture cfg false).system.Step (s.put p w) (s.put p w')

theorem Goes.of_next (h : next cfg false (s.put p w) p = some (s.put p w')) : Goes cfg s p w w' :=
  .single ⟨p, h⟩

/-- One rank after the other goes from its place in `u` to its place in `v`. -/
theorem sweep (hl : u.lvb = v.lvb)
    (h : ∀ (k : Nat) (hk : k < cfg.numProcs),
      Goes cfg (blend k u v) ⟨k, hk⟩ (u.view ⟨k, hk⟩) (v.view ⟨k, hk⟩)) :
    Relation.ReflTransGen (lvbTorture cfg false).system.Step u v := by
  have hblend : ∀ k ≤ cfg.numProcs,
      Relation.ReflTransGen (lvbTorture cfg false).system.Step u (blend k u v) := by
    intro k hk
    induction k with
    | zero => simpa [blend] using Relation.ReflTransGen.refl
    | succ k ih =>
      have hgo := h k hk
      rw [Goes, blend_view, blend_succ hk hl] at hgo
      exact (ih (by omega)).trans hgo
  have hv : blend cfg.numProcs u v = v := by simp [blend, hl]
  simpa [hv] using hblend _ (Nat.le_refl _)

/-- Every rank inside the barrier of `main`. -/
def allPrep (n : Nat) : State n where
  procs _ := { pc := .inPrepBarrier }
  barrier := ⟨fun _ => 1, fun _ => 0⟩
  held _ := none
  lvb := 0

def allBarrier (n : Nat) : State n where
  procs p := { pc := .inBarrier, level := if p.val = 0 then .ex else .pr }
  barrier := ⟨fun _ => 2, fun _ => 1⟩
  held p := if p.val = 0 then some .ex else none
  lvb := 0

/-- Past that barrier: rank 0 about to read, the others about to take PR. -/
def allPast (n : Nat) : State n where
  procs p := if p.val = 0 then { pc := .readLvb, level := .ex, toWrite := 1 } else { pc := .lock }
  barrier := ⟨fun _ => 2, fun _ => 2⟩
  held p := if p.val = 0 then some .ex else none
  lvb := 0

theorem goes_allPrep : Relation.ReflTransGen (lvbTorture cfg false).system.Step
    (initial cfg.numProcs 0) (allPrep cfg.numProcs) := by
  refine sweep rfl fun k hk => ?_
  have enter (s : State cfg.numProcs) (p : Fin cfg.numProcs) :
      Goes cfg s p ⟨{ pc := .prepBarrier }, 0, 0, none, 0⟩
        ⟨{ pc := .inPrepBarrier }, 0, 1, none, 0⟩ :=
    .of_next (by simp [next, State.put, State.enter, State.setProc, Barrier.enter])
  rcases Nat.eq_zero_or_pos k with rfl | hpos
  · have lock : Goes cfg (blend 0 (initial _ 0) (allPrep _)) ⟨0, hk⟩
        ⟨{ pc := .clearLock }, 0, 0, none, 0⟩ ⟨{ pc := .clearWrite }, 0, 0, some .ex, 0⟩ :=
      .of_next (by simp [next, State.put, State.setHeld, State.setProc, Grantable, blend, initial])
    have write (s : State cfg.numProcs) : Goes cfg s ⟨0, hk⟩
        ⟨{ pc := .clearWrite }, 0, 0, some .ex, 0⟩ ⟨{ pc := .clearUnlock }, 0, 0, some .ex, 0⟩ :=
      .of_next (by simp [next, State.put, State.setProc])
    have unlock (s : State cfg.numProcs) : Goes cfg s ⟨0, hk⟩
        ⟨{ pc := .clearUnlock }, 0, 0, some .ex, 0⟩ ⟨{ pc := .prepBarrier }, 0, 0, none, 0⟩ :=
      .of_next (by simp [next, State.put, State.setHeld, State.setProc])
    exact ((lock.trans (write _)).trans (unlock _)).trans (enter _ _)
  · have hview : (initial cfg.numProcs 0).view ⟨k, hk⟩ = ⟨{ pc := .prepBarrier }, 0, 0, none, 0⟩ := by
      simp [State.view, initial, Barrier.start, Nat.ne_of_gt hpos]
    rw [hview]
    exact enter _ _

/-- A rank leaves the barrier of `main` and enters the first one of iteration 0. -/
theorem goes_allBarrier (hm : 0 < cfg.maxIter) :
    Relation.ReflTransGen (lvbTorture cfg false).system.Step
      (allPrep cfg.numProcs) (allBarrier cfg.numProcs) := by
  refine sweep rfl fun k hk => ?_
  have leave : Goes cfg (blend k (allPrep _) (allBarrier _)) ⟨k, hk⟩
      ⟨{ pc := .inPrepBarrier }, 0, 1, none, 0⟩ ⟨{ pc := .test }, 1, 1, none, 0⟩ := by
    have hopen : ((blend k (allPrep cfg.numProcs) (allBarrier _)).put ⟨k, hk⟩
        ⟨{ pc := .inPrepBarrier }, 0, 1, none, 0⟩).barrier.Open ⟨k, hk⟩ := by
      intro q
      simp only [State.put, blend, allPrep, allBarrier, Function.update_self, Function.update_apply]
      split <;> [exact Nat.le_refl 1; split <;> omega]
    refine .of_next ?_
    simp [next, State.put, State.leave, State.setProc, Barrier.leave]
    exact hopen
  have enter (s : State cfg.numProcs) (level : Level) (held : Option Level) :
      Goes cfg s ⟨k, hk⟩ ⟨{ pc := .barrier, level := level }, 1, 1, held, 0⟩
        ⟨{ pc := .inBarrier, level := level }, 1, 2, held, 0⟩ :=
    .of_next (by simp [next, State.put, State.enter, State.setProc, Barrier.enter])
  rcases Nat.eq_zero_or_pos k with rfl | hpos
  · have test (s : State cfg.numProcs) : Goes cfg s ⟨0, hk⟩
        ⟨{ pc := .test }, 1, 1, none, 0⟩ ⟨{ pc := .lock, level := .ex }, 1, 1, none, 0⟩ :=
      .of_next (by simp [next, beginIter, hm, State.put, State.setProc])
    have lock : Goes cfg (blend 0 (allPrep _) (allBarrier _)) ⟨0, hk⟩
        ⟨{ pc := .lock, level := .ex }, 1, 1, none, 0⟩
        ⟨{ pc := .barrier, level := .ex }, 1, 1, some .ex, 0⟩ :=
      .of_next (by simp [next, State.put, State.setHeld, State.setProc, Grantable, blend, allPrep])
    exact ((leave.trans (test _)).trans lock).trans (enter _ _ _)
  · have hview : (allBarrier cfg.numProcs).view ⟨k, hk⟩ =
        ⟨{ pc := .inBarrier }, 1, 2, none, 0⟩ := by
      simp [State.view, allBarrier, Nat.ne_of_gt hpos]
    have test (s : State cfg.numProcs) : Goes cfg s ⟨k, hk⟩
        ⟨{ pc := .test }, 1, 1, none, 0⟩ ⟨{ pc := .barrier }, 1, 1, none, 0⟩ :=
      .of_next (by
        simp [next, beginIter, hm, State.put, State.setProc, (Nat.ne_of_gt hpos).symm])
    rw [hview]
    exact (leave.trans (test _)).trans (enter _ _ _)

theorem goes_allPast : Relation.ReflTransGen (lvbTorture cfg false).system.Step
    (allBarrier cfg.numProcs) (allPast cfg.numProcs) := by
  refine sweep rfl fun k hk => ?_
  have hopen : ((blend k (allBarrier cfg.numProcs) (allPast _)).put ⟨k, hk⟩
      ((allBarrier _).view ⟨k, hk⟩)).barrier.Open ⟨k, hk⟩ := by
    intro q
    simp [State.put, State.view, blend, allBarrier, allPast]
  refine .of_next ?_
  rw [next]
  rcases Nat.eq_zero_or_pos k with rfl | hpos
  · simp [State.view, allBarrier, State.put, State.leave, State.setProc, Barrier.leave, allPast]
    exact hopen
  · simp [State.view, allBarrier, State.put, State.leave, State.setProc, Barrier.leave, allPast,
      Nat.ne_of_gt hpos]
    exact hopen

variable (cfg)

/-- Rank 0 has written 1 and waits in the first barrier of iteration 1. -/
def firstWaits (h0 : 0 < cfg.numProcs) : State cfg.numProcs :=
  (allPast cfg.numProcs).put ⟨0, h0⟩
    ⟨{ pc := .inBarrier, iter := 1, expected := 1, toWrite := 1 }, 2, 3, none,
      cfg.byteOrder.toBe 1⟩

/-- Rank 1 has read 1, taken EX for iteration 1 and waits in the same barrier. -/
def bothWait (h0 : 0 < cfg.numProcs) (h1 : 1 < cfg.numProcs) : State cfg.numProcs :=
  (firstWaits cfg h0).put ⟨1, h1⟩
    ⟨{ pc := .inBarrier, iter := 1, level := .ex, expected := 1 }, 2, 3, some .ex,
      cfg.byteOrder.toBe 1⟩

variable {cfg}

theorem goes_firstWaits (h0 : 0 < cfg.numProcs) (h1 : 1 < cfg.numProcs) (hm : 1 < cfg.maxIter) :
    Relation.ReflTransGen (lvbTorture cfg false).system.Step
      (allPast cfg.numProcs) (firstWaits cfg h0) := by
  have read (s : State cfg.numProcs) (p : Fin cfg.numProcs) : Goes cfg s p
      ⟨{ pc := .readLvb, level := .ex, toWrite := 1 }, 2, 2, some .ex, 0⟩
      ⟨{ pc := .writeLvb, level := .ex, toWrite := 1 }, 2, 2, some .ex, 0⟩ :=
    .of_next (by simp [next, State.put, State.setProc, cfg.byteOrder.fromBe_zero])
  have write (s : State cfg.numProcs) (p : Fin cfg.numProcs) : Goes cfg s p
      ⟨{ pc := .writeLvb, level := .ex, toWrite := 1 }, 2, 2, some .ex, 0⟩
      ⟨{ pc := .unlock, level := .ex, toWrite := 1 }, 2, 2, some .ex, cfg.byteOrder.toBe 1⟩ :=
    .of_next (by simp [next, State.put, State.setProc])
  have unlock (s : State cfg.numProcs) (p : Fin cfg.numProcs) : Goes cfg s p
      ⟨{ pc := .unlock, level := .ex, toWrite := 1 }, 2, 2, some .ex, cfg.byteOrder.toBe 1⟩
      ⟨{ pc := .test, iter := 1, level := .ex, toWrite := 1 }, 2, 2, none,
        cfg.byteOrder.toBe 1⟩ :=
    .of_next (by simp [next, State.put, State.setHeld, State.setProc])
  have test (s : State cfg.numProcs) : Goes cfg s ⟨0, h0⟩
      ⟨{ pc := .test, iter := 1, level := .ex, toWrite := 1 }, 2, 2, none, cfg.byteOrder.toBe 1⟩
      ⟨{ pc := .barrier, iter := 1, expected := 1, toWrite := 1 }, 2, 2, none,
        cfg.byteOrder.toBe 1⟩ :=
    .of_next (by
      simp [next, beginIter, hm, State.put, State.setProc, Nat.mod_eq_of_lt h1])
  have enter (s : State cfg.numProcs) (p : Fin cfg.numProcs) : Goes cfg s p
      ⟨{ pc := .barrier, iter := 1, expected := 1, toWrite := 1 }, 2, 2, none,
        cfg.byteOrder.toBe 1⟩
      ⟨{ pc := .inBarrier, iter := 1, expected := 1, toWrite := 1 }, 2, 3, none,
        cfg.byteOrder.toBe 1⟩ :=
    .of_next (by simp [next, State.put, State.enter, State.setProc, Barrier.enter])
  have h := ((((read (allPast _) ⟨0, h0⟩).trans (write _ _)).trans (unlock _ _)).trans
    (test _)).trans (enter _ _)
  have hview : (allPast cfg.numProcs).put ⟨0, h0⟩
      ⟨{ pc := .readLvb, level := .ex, toWrite := 1 }, 2, 2, some .ex, 0⟩ = allPast _ :=
    State.put_view (allPast cfg.numProcs) ⟨0, h0⟩
  rwa [hview] at h

theorem goes_bothWait (h0 : 0 < cfg.numProcs) (h1 : 1 < cfg.numProcs) (hm : 1 < cfg.maxIter) :
    Relation.ReflTransGen (lvbTorture cfg false).system.Step
      (firstWaits cfg h0) (bothWait cfg h0 h1) := by
  have lockPr : Goes cfg (firstWaits cfg h0) ⟨1, h1⟩
      ⟨{ pc := .lock }, 2, 2, none, cfg.byteOrder.toBe 1⟩
      ⟨{ pc := .readLvb, expected := 1 }, 2, 2, some .pr, cfg.byteOrder.toBe 1⟩ := by
    refine .of_next ?_
    have hg : Grantable ((firstWaits cfg h0).put ⟨1, h1⟩
        ⟨{ pc := .lock }, 2, 2, none, cfg.byteOrder.toBe 1⟩).held .pr := by
      intro q
      by_cases hq : q.val = 0 <;>
        simp [State.put, firstWaits, allPast, Function.update_apply, Fin.ext_iff, hq]
    simp [next, State.put, State.setHeld, State.setProc]
    exact hg
  have read (s : State cfg.numProcs) (p : Fin cfg.numProcs) : Goes cfg s p
      ⟨{ pc := .readLvb, expected := 1 }, 2, 2, some .pr, cfg.byteOrder.toBe 1⟩
      ⟨{ pc := .unlock, expected := 1 }, 2, 2, some .pr, cfg.byteOrder.toBe 1⟩ :=
    .of_next (by
      simp [next, State.put, State.setProc, cfg.byteOrder.fromBe_toBe 1 (by decide)])
  have unlock (s : State cfg.numProcs) (p : Fin cfg.numProcs) : Goes cfg s p
      ⟨{ pc := .unlock, expected := 1 }, 2, 2, some .pr, cfg.byteOrder.toBe 1⟩
      ⟨{ pc := .test, iter := 1, expected := 1 }, 2, 2, none, cfg.byteOrder.toBe 1⟩ :=
    .of_next (by simp [next, State.put, State.setHeld, State.setProc])
  have test (s : State cfg.numProcs) : Goes cfg s ⟨1, h1⟩
      ⟨{ pc := .test, iter := 1, expected := 1 }, 2, 2, none, cfg.byteOrder.toBe 1⟩
      ⟨{ pc := .lock, iter := 1, level := .ex, expected := 1 }, 2, 2, none,
        cfg.byteOrder.toBe 1⟩ :=
    .of_next (by
      simp [next, beginIter, hm, State.put, State.setProc, Nat.mod_eq_of_lt h1])
  have lockEx : Goes cfg (firstWaits cfg h0) ⟨1, h1⟩
      ⟨{ pc := .lock, iter := 1, level := .ex, expected := 1 }, 2, 2, none, cfg.byteOrder.toBe 1⟩
      ⟨{ pc := .barrier, iter := 1, level := .ex, expected := 1 }, 2, 2, some .ex,
        cfg.byteOrder.toBe 1⟩ := by
    refine .of_next ?_
    have hg : Grantable ((firstWaits cfg h0).put ⟨1, h1⟩
        ⟨{ pc := .lock, iter := 1, level := .ex, expected := 1 }, 2, 2, none,
          cfg.byteOrder.toBe 1⟩).held .ex := by
      intro q
      by_cases hq : q.val = 0 <;>
        simp [State.put, firstWaits, allPast, Function.update_apply, Fin.ext_iff, hq]
    simp [next, State.put, State.setHeld, State.setProc]
    exact hg
  have enter (s : State cfg.numProcs) (p : Fin cfg.numProcs) : Goes cfg s p
      ⟨{ pc := .barrier, iter := 1, level := .ex, expected := 1 }, 2, 2, some .ex,
        cfg.byteOrder.toBe 1⟩
      ⟨{ pc := .inBarrier, iter := 1, level := .ex, expected := 1 }, 2, 3, some .ex,
        cfg.byteOrder.toBe 1⟩ :=
    .of_next (by simp [next, State.put, State.enter, State.setProc, Barrier.enter])
  have h := ((((lockPr.trans (read _ _)).trans (unlock _ _)).trans (test _)).trans
    lockEx).trans (enter _ _)
  have hview : (firstWaits cfg h0).put ⟨1, h1⟩
      ⟨{ pc := .lock }, 2, 2, none, cfg.byteOrder.toBe 1⟩ = firstWaits cfg h0 := by
    conv_rhs => rw [← State.put_view (firstWaits cfg h0) ⟨1, h1⟩]
    simp [State.view, firstWaits, State.put, allPast, Fin.ext_iff]
  rwa [hview] at h

theorem bothWait_stuck (h0 : 0 < cfg.numProcs) (h1 : 1 < cfg.numProcs) (h2 : 2 < cfg.numProcs)
    (p : Fin cfg.numProcs) : next cfg false (bothWait cfg h0 h1) p = none := by
  have hproc : (bothWait cfg h0 h1).procs p =
      if p.val = 1 then { pc := .inBarrier, iter := 1, level := .ex, expected := 1 }
      else if p.val = 0 then { pc := .inBarrier, iter := 1, expected := 1, toWrite := 1 }
      else { pc := .lock } := by
    by_cases hp : p.val = 0 <;>
      simp [bothWait, firstWaits, State.put, allPast, Function.update_apply, Fin.ext_iff, hp]
  -- rank 2 has not entered the barrier that ranks 0 and 1 are in
  have hshut (hp : p.val = 1 ∨ p.val = 0) : ¬ (bothWait cfg h0 h1).barrier.Open p := by
    intro ho
    have := ho ⟨2, h2⟩
    rcases hp with hp | hp <;>
      simp [bothWait, firstWaits, State.put, allPast, Function.update_apply, Fin.ext_iff, hp] at this
  have hheld : ¬ Grantable (bothWait cfg h0 h1).held .pr := by
    intro hg
    exact hg ⟨1, h1⟩ (by simp [bothWait, State.put])
  rw [next, hproc]
  by_cases hp1 : p.val = 1
  · simp [hp1, hshut]
  by_cases hp0 : p.val = 0
  · simp [hp0, hshut]
  simp [hp1, hp0, hheld]

theorem deadlock_reachable (cfg : Config) (hn : 3 ≤ cfg.numProcs) (hm : 2 ≤ cfg.maxIter) :
    ∃ s, (lvbTorture cfg false).system.Reachable s ∧
      (lvbTorture cfg false).system.Deadlocked Finished s := by
  have h0 : 0 < cfg.numProcs := by omega
  have h1 : 1 < cfg.numProcs := by omega
  have hr : (lvbTorture cfg false).system.Reachable (initial cfg.numProcs 0) := .init ⟨0, rfl⟩
  refine ⟨bothWait cfg h0 h1, ?_, ?_⟩
  · exact ((((hr.steps goes_allPrep).steps (goes_allBarrier (by omega))).steps
      goes_allPast).steps (goes_firstWaits h0 h1 hm)).steps (goes_bothWait h0 h1 hm)
  · rw [ProcSystem.deadlocked_iff]
    refine ⟨fun hf => ?_, bothWait_stuck h0 h1 hn⟩
    have := hf ⟨1, h1⟩
    simp [bothWait, State.put] at this

end

-- ---------------------------------------------------------------------------
-- The two versions of run_test
-- ---------------------------------------------------------------------------

/-- Every `o2dlm_read_lvb` finds `iter` for the writer and `iter + 1` for a
reader, which is what `expected` is there. -/
def ReadsExpected (cfg : Config) (s : State cfg.numProcs) : Prop :=
  ∀ p, (s.procs p).pc = .readLvb →
    cfg.byteOrder.fromBe s.lvb = (s.procs p).expected ∧
      (s.procs p).expected =
        if (s.procs p).iter % cfg.numProcs = p.val then (s.procs p).iter
        else (s.procs p).iter + 1

structure Correct (cfg : Config) (secondBarrier : Bool) (s : State cfg.numProcs) : Prop where
  reads : ReadsExpected cfg s
  noAbort : ∀ p, (s.procs p).pc ≠ .aborted
  live : ¬ (lvbTorture cfg secondBarrier).system.Deadlocked Finished s

section
variable {cfg : Config} {b : Bool} {s : State cfg.numProcs}

theorem Inv.readsExpected (hi : Inv cfg b s) : ReadsExpected cfg s := by
  intro p hp
  have hl := (hi.rank p).locals
  refine ⟨hi.read_expected hp, ?_⟩
  simp only [LocalsOk, Turn, hp] at hl
  obtain ⟨-, hturn, -, he⟩ := hl
  rw [he]
  split
  · next hex => rw [if_pos (hturn.mp hex)]
  · next hpr => rw [if_neg fun h => by simp [hturn.mpr h] at hpr]

theorem Inv.correct (hi : Inv cfg b s)
    (h : b = true ∨ cfg.numProcs ≤ 2 ∨ cfg.maxIter ≤ 1) : Correct cfg b s where
  reads := hi.readsExpected
  noAbort p hp := by
    have hl := (hi.rank p).locals
    simp [LocalsOk, hp] at hl
  live hd := by
    rw [ProcSystem.deadlocked_iff] at hd
    obtain ⟨hb, hn, hm⟩ := stuck_needs hi hd.2 hd.1
    rcases h with h | h | h
    · simp [hb] at h
    · omega
    · omega

def bigEndian : ByteOrder := ⟨id, id, fun _ _ => rfl, rfl⟩

def threeRanks : Config := ⟨3, 2, by decide, bigEndian⟩

/-- With both barriers every run reads what it expects, never aborts and is
never stuck. -/
theorem runTest_correct (cfg : Config) :
    ∀ s, (lvbTorture cfg true).system.Reachable s → Correct cfg true s :=
  fun _ h => (reachable_inv h).correct (.inl rfl)

/-- Rank 0 clears the lock and writes 1 in iteration 0; ranks 1 and 2 read that. -/
def firstIteration : List (Fin threeRanks.numProcs) :=
  let a : Fin threeRanks.numProcs := ⟨0, by decide⟩
  let b : Fin threeRanks.numProcs := ⟨1, by decide⟩
  let c : Fin threeRanks.numProcs := ⟨2, by decide⟩
  [a, a, a, a, b, c, a, b, c, a, b, c, a, a, b, c, a, b, c, a, a, a, b, c, b, c]

theorem runTest_correct_threeRanks : ∃ s, (lvbTorture threeRanks true).system.Reachable s ∧
    s.lvb = 1 ∧ (∀ p, (s.procs p).pc = if p.val = 0 then .endBarrier else .unlock) ∧
    Correct threeRanks true s := by
  have hrun : ((lvbTorture threeRanks true).run firstIteration (initial 3 5)).map (fun s =>
      (s.lvb, decide (∀ p, (s.procs p).pc = if p.val = 0 then .endBarrier else .unlock))) =
      some (1, true) := by decide +kernel
  obtain ⟨s, hs, hfacts⟩ := Option.map_eq_some_iff.mp hrun
  simp only [Prod.mk.injEq, decide_eq_true_eq] at hfacts
  have hr := ProcSystem.reachable_run (M := lvbTorture threeRanks true) (.init ⟨5, rfl⟩) hs
  exact ⟨s, hr, hfacts.1, hfacts.2, runTest_correct threeRanks s hr⟩

/-- The comment in `run_test` is right for two ranks or one iteration only. -/
theorem secondBarrier_unnecessary_iff (cfg : Config) :
    (∀ s, (lvbTorture cfg false).system.Reachable s → Correct cfg false s) ↔
      cfg.numProcs ≤ 2 ∨ cfg.maxIter ≤ 1 := by
  constructor
  · intro h
    by_contra hbad
    obtain ⟨s, hr, hd⟩ := deadlock_reachable cfg (by omega) (by omega)
    exact (h s hr).live hd
  · intro hsmall s hr
    exact (reachable_inv hr).correct (.inr hsmall)

end

/-- Three ranks, two iterations: rank 1 holds EX inside the first barrier of
iteration 1, which rank 2 can not enter before it has PR for iteration 0. -/
theorem threeRanks_deadlock :
    ¬ ∀ s, (lvbTorture threeRanks false).system.Reachable s → Correct threeRanks false s := by
  intro h
  obtain ⟨s, hr, hd⟩ := deadlock_reachable threeRanks (by decide) (by decide)
  exact (h s hr).live hd

end Ocfs2Test.LvbTorture
