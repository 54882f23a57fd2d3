import Ocfs2Test.Lib.Transition

/-!
# aio-stress: the stages of the workers

The threads of `aio-stress.c` go through their stages together. Two counters under
one mutex and one condition make a barrier before each stage and one after it. A
thread stops coming back when none of its operations is restarted, so the number of
stages can differ from thread to thread. That is when the others wait for ever.
-/

namespace Ocfs2Test.AioStress

open Lib

-- ---------------------------------------------------------------------------
-- The barriers of worker
-- ---------------------------------------------------------------------------

/-- Where a thread is in `worker`. Asleep is in `pthread_cond_wait`, and awake is after
a broadcast and before the mutex is had again. Nothing else wakes a thread. -/
inductive Pc
  | restart
  | startAsleep
  | startAwake
  | stage
  | endAsleep
  | endAwake
  | done
  deriving DecidableEq, Repr

structure Thread where
  pc : Pc
  stages : Nat
  deriving DecidableEq, Repr

structure Shared (n : Nat) where
  threadsStarting : Nat
  threadsEnding : Nat
  thread : Fin n → Thread

def Thread.wake (t : Thread) : Thread :=
  match t.pc with
  | .startAsleep => { t with pc := .startAwake }
  | .endAsleep => { t with pc := .endAwake }
  | _ => t

/-- After the second barrier: back to `restart` as long as operations are restarted. -/
def Thread.leave (restarts : Nat) (t : Thread) : Thread :=
  ⟨if t.stages < restarts then .restart else .done, t.stages + 1⟩

def Shared.set (s : Shared n) (i : Fin n) (t : Thread) : Shared n :=
  { s with thread := Function.update s.thread i t }

def Shared.broadcast (s : Shared n) : Shared n :=
  { s with thread := fun q => (s.thread q).wake }

/-- Thread `i` runs to where it gives the mutex back; a stage is one step with the
arrival at the barrier after it. `restarts i` is how often it goes back. -/
def next (restarts : Fin n → Nat) (s : Shared n) (i : Fin n) : Option (Shared n) :=
  let t := s.thread i
  match t.pc with
  | .restart =>
    if s.threadsStarting + 1 = n then
      some ({ s with threadsStarting := s.threadsStarting + 1, threadsEnding := 0 }.broadcast.set i
        { t with pc := .stage })
    else
      some ({ s with threadsStarting := s.threadsStarting + 1 }.set i { t with pc := .startAsleep })
  | .startAwake =>
    some (s.set i { t with pc := if s.threadsStarting = n then .stage else .startAsleep })
  | .stage =>
    if s.threadsEnding + 1 = n then
      some ({ s with threadsEnding := s.threadsEnding + 1, threadsStarting := 0 }.broadcast.set i
        (t.leave (restarts i)))
    else some ({ s with threadsEnding := s.threadsEnding + 1 }.set i { t with pc := .endAsleep })
  | .endAwake =>
    some (s.set i
      (if s.threadsEnding = n then t.leave (restarts i) else { t with pc := .endAsleep }))
  | .startAsleep | .endAsleep | .done => none

def workers (restarts : Fin n → Nat) : ProcSystem (Fin n) (Shared n) where
  Init s := s = ⟨0, 0, fun _ => ⟨.restart, 0⟩⟩
  next := next restarts

def AllDone (s : Shared n) : Prop := ∀ i, (s.thread i).pc = .done

-- ---------------------------------------------------------------------------
-- Counting
-- ---------------------------------------------------------------------------

def Pc.atStart : Pc → Nat
  | .startAsleep | .startAwake => 1
  | _ => 0

def Pc.atEnd : Pc → Nat
  | .endAsleep | .endAwake => 1
  | _ => 0

@[simp] theorem stages_wake (t : Thread) : t.wake.stages = t.stages := by
  obtain ⟨pc, stages⟩ := t
  cases pc <;> rfl

theorem atStart_le_one (pc : Pc) : pc.atStart ≤ 1 := by
  cases pc <;> decide

theorem atEnd_le_one (pc : Pc) : pc.atEnd ≤ 1 := by
  cases pc <;> decide

/-- When all but one are needed to make up the count, all the others are counted. -/
theorem others_counted {g : Fin n → Nat} {i : Fin n} (hle : ∀ q, g q ≤ 1) (hi : g i = 0)
    (hsum : ∑ q, g q + 1 = n) : ∀ q, q ≠ i → g q = 1 := by
  have hpoint : ∀ q ∈ Finset.univ, g q ≤ if q = i then 0 else 1 := by
    rintro q -
    split
    · next heq => rw [heq, hi]
    · exact hle q
  have hones : ∑ q : Fin n, (if q = i then 0 else 1) + 1 = n := by
    have hsplit :
        ∑ q : Fin n, (if q = i then 0 else 1) + ∑ q : Fin n, (if q = i then 1 else 0) = n := by
      rw [← Finset.sum_add_distrib]
      calc ∑ q : Fin n, ((if q = i then 0 else 1) + (if q = i then 1 else 0))
          = ∑ _q : Fin n, 1 := Finset.sum_congr rfl fun q _ => by split <;> rfl
        _ = n := by simp
    rwa [Finset.sum_ite_eq' Finset.univ i, if_pos (Finset.mem_univ i)] at hsplit
  have heq := (Finset.sum_eq_sum_iff_of_le hpoint).mp (by omega)
  intro q hq
  rw [heq q (Finset.mem_univ q), if_neg hq]

-- ---------------------------------------------------------------------------
-- The invariant
-- ---------------------------------------------------------------------------

/-- Where a thread can be while the threads gather for stage `k`. -/
def GatherOk (k restarts : Nat) (t : Thread) : Prop :=
  ((t.pc = .restart ∨ t.pc.atStart = 1) ∧ t.stages = k ∧ k ≤ restarts) ∨
    (t.pc = .endAwake ∧ t.stages + 1 = k ∧ t.stages ≤ restarts) ∨
    (t.pc = .done ∧ t.stages = k ∧ k = restarts + 1)

def RunOk (k restarts : Nat) (t : Thread) : Prop :=
  (t.pc = .startAwake ∨ t.pc = .stage ∨ t.pc.atEnd = 1) ∧ t.stages = k ∧ k ≤ restarts

variable {n : Nat} {restarts : Fin n → Nat} {s s' : Shared n}

structure Gathering (restarts : Fin n → Nat) (k : Nat) (s : Shared n) : Prop where
  starting_eq : s.threadsStarting = ∑ q, (s.thread q).pc.atStart
  starting_lt : s.threadsStarting < n
  ending_eq : 0 < k → s.threadsEnding = n
  thread_ok : ∀ q, GatherOk k (restarts q) (s.thread q)

structure Running (restarts : Fin n → Nat) (k : Nat) (s : Shared n) : Prop where
  starting_eq : s.threadsStarting = n
  ending_eq : s.threadsEnding = ∑ q, (s.thread q).pc.atEnd
  ending_lt : s.threadsEnding < n
  thread_ok : ∀ q, RunOk k (restarts q) (s.thread q)

def Inv (restarts : Fin n → Nat) (s : Shared n) : Prop :=
  ∃ k, Gathering restarts k s ∨ Running restarts k s

theorem sum_set (g : Pc → Nat) (s : Shared n) (i : Fin n) (t : Thread) :
    ∑ q, g ((s.set i t).thread q).pc + g (s.thread i).pc =
      ∑ q, g (s.thread q).pc + g t.pc :=
  sum_update s.thread (fun t => g t.pc) i t

theorem forall_set {P : Fin n → Thread → Prop} (h : ∀ q, P q (s.thread q)) (ht : P i t) :
    ∀ q, P q ((s.set i t).thread q) := by
  intro q
  rcases Decidable.em (q = i) with rfl | hne
  · simpa [Shared.set] using ht
  · simpa [Shared.set, hne] using h q

theorem Gathering.init (hn : 0 < n) :
    Gathering restarts 0 (⟨0, 0, fun _ => ⟨.restart, 0⟩⟩ : Shared n) :=
  ⟨by simp [Pc.atStart], hn, fun h => absurd h (Nat.lt_irrefl 0),
    fun _ => .inl ⟨.inl rfl, rfl, Nat.zero_le _⟩⟩

theorem GatherOk.here {t : Thread} (h : GatherOk k r t) (hpc : t.pc = .restart ∨ t.pc.atStart = 1) :
    t.stages = k ∧ k ≤ r := by
  rcases h with ⟨-, hok⟩ | ⟨hend, -⟩ | ⟨hdone, -⟩
  · exact hok
  · rw [hend] at hpc
    rcases hpc with hpc | hpc <;> cases hpc
  · rw [hdone] at hpc
    rcases hpc with hpc | hpc <;> cases hpc

theorem wake_gathered {t : Thread} (h : GatherOk k r t) (hcount : t.pc.atStart = 1) :
    t.wake.pc = .startAwake ∧ t.stages = k ∧ k ≤ r := by
  have hok := h.here (.inr hcount)
  obtain ⟨pc, stages⟩ := t
  cases pc with
  | startAsleep | startAwake => exact ⟨rfl, hok⟩
  | _ => cases hcount

theorem wake_ran {t : Thread} (h : RunOk k r t) (hcount : t.pc.atEnd = 1) :
    t.wake.pc = .endAwake ∧ t.stages = k ∧ k ≤ r := by
  obtain ⟨pc, stages⟩ := t
  obtain ⟨-, hst, hk⟩ := h
  cases pc with
  | endAsleep | endAwake => exact ⟨rfl, hst, hk⟩
  | _ => cases hcount

theorem leave_ok {t : Thread} (hst : t.stages = k) (hk : k ≤ r) :
    GatherOk (k + 1) r (t.leave r) ∧ (t.leave r).pc.atStart = 0 := by
  rw [Thread.leave, hst]
  split
  · next hlt => exact ⟨.inl ⟨.inl rfl, rfl, hlt⟩, rfl⟩
  · next hge => exact ⟨.inr (.inr ⟨rfl, rfl, by omega⟩), rfl⟩

/-- The last thread to come begins the stage. -/
theorem Gathering.begin {i : Fin n} (h : Gathering restarts k s)
    (hpc : (s.thread i).pc = .restart) (hlast : s.threadsStarting + 1 = n) :
    Running restarts k
      ({ s with threadsStarting := s.threadsStarting + 1, threadsEnding := 0 }.broadcast.set i
        { s.thread i with pc := .stage }) := by
  have hcounted := others_counted (g := fun q => (s.thread q).pc.atStart) (i := i)
    (fun q => atStart_le_one _) (by rw [hpc]; rfl) (h.starting_eq ▸ hlast)
  have hi := (h.thread_ok i).here (.inl hpc)
  have hthread : ∀ q, ((({ s with
      threadsStarting := s.threadsStarting + 1, threadsEnding := 0 } : Shared n).broadcast.set i
        { s.thread i with pc := .stage }).thread q).pc.atEnd = 0 ∧
      RunOk k (restarts q) ((({ s with
        threadsStarting := s.threadsStarting + 1, threadsEnding := 0 } : Shared n).broadcast.set i
          { s.thread i with pc := .stage }).thread q) := by
    intro q
    rcases Decidable.em (q = i) with rfl | hne
    · simp only [Shared.set, Function.update_self]
      exact ⟨rfl, .inr (.inl rfl), hi⟩
    · simp only [Shared.set, Function.update_of_ne hne, Shared.broadcast]
      obtain ⟨hwake, hok⟩ := wake_gathered (h.thread_ok q) (hcounted q hne)
      refine ⟨by rw [hwake]; rfl, .inl hwake, ?_⟩
      rwa [stages_wake]
  exact ⟨hlast, (Finset.sum_eq_zero fun q _ => (hthread q).1).symm, i.pos, fun q => (hthread q).2⟩

/-- The last thread to leave a stage lets the threads gather again. -/
theorem Running.finish {i : Fin n} (h : Running restarts k s)
    (hpc : (s.thread i).pc = .stage) (hlast : s.threadsEnding + 1 = n) :
    Gathering restarts (k + 1)
      ({ s with threadsEnding := s.threadsEnding + 1, threadsStarting := 0 }.broadcast.set i
        ((s.thread i).leave (restarts i))) := by
  have hcounted := others_counted (g := fun q => (s.thread q).pc.atEnd) (i := i)
    (fun q => atEnd_le_one _) (by rw [hpc]; rfl) (h.ending_eq ▸ hlast)
  have hthread : ∀ q, ((({ s with
      threadsEnding := s.threadsEnding + 1, threadsStarting := 0 } : Shared n).broadcast.set i
        ((s.thread i).leave (restarts i))).thread q).pc.atStart = 0 ∧
      GatherOk (k + 1) (restarts q) ((({ s with
        threadsEnding := s.threadsEnding + 1, threadsStarting := 0 } : Shared n).broadcast.set i
          ((s.thread i).leave (restarts i))).thread q) := by
    intro q
    rcases Decidable.em (q = i) with rfl | hne
    · simp only [Shared.set, Function.update_self]
      exact (leave_ok (h.thread_ok q).2.1 (h.thread_ok q).2.2).symm
    · simp only [Shared.set, Function.update_of_ne hne, Shared.broadcast]
      obtain ⟨hwake, hst, hk⟩ := wake_ran (h.thread_ok q) (hcounted q hne)
      refine ⟨by rw [hwake]; rfl, .inr (.inl ⟨hwake, ?_, ?_⟩)⟩
      · rw [stages_wake, hst]
      · rw [stages_wake, hst]
        exact hk
  exact ⟨(Finset.sum_eq_zero fun q _ => (hthread q).1).symm, i.pos, fun _ => hlast,
    fun q => (hthread q).2⟩

/-- One thread moves on while the others stay, counted or not. -/
theorem Gathering.move {i : Fin n} {t : Thread} (h : Gathering restarts k s) (count : Nat)
    (hok : GatherOk k (restarts i) t) (hlt : count < n)
    (hcount : count + (s.thread i).pc.atStart = s.threadsStarting + t.pc.atStart) :
    Gathering restarts k ({ s with threadsStarting := count }.set i t) := by
  refine ⟨?_, hlt, h.ending_eq, forall_set h.thread_ok hok⟩
  have hsum := sum_set Pc.atStart s i t
  have hstart := h.starting_eq
  change count = ∑ q, ((s.set i t).thread q).pc.atStart
  omega

theorem Running.move {i : Fin n} {t : Thread} (h : Running restarts k s) (count : Nat)
    (hok : RunOk k (restarts i) t) (hlt : count < n)
    (hcount : count + (s.thread i).pc.atEnd = s.threadsEnding + t.pc.atEnd) :
    Running restarts k ({ s with threadsEnding := count }.set i t) := by
  refine ⟨h.starting_eq, ?_, hlt, forall_set h.thread_ok hok⟩
  have hsum := sum_set Pc.atEnd s i t
  have hend := h.ending_eq
  change count = ∑ q, ((s.set i t).thread q).pc.atEnd
  omega

theorem Gathering.step {i : Fin n} (h : Gathering restarts k s)
    (hs : next restarts s i = some s') : Inv restarts s' := by
  have hi := h.thread_ok i
  have hlt := h.starting_lt
  cases hpc : (s.thread i).pc with
  | restart =>
    simp only [next, hpc] at hs
    split at hs
    · next hlast =>
      injection hs with hs
      exact ⟨k, .inr (hs ▸ h.begin hpc hlast)⟩
    · next hmore =>
      injection hs with hs
      refine ⟨k, .inl (hs ▸ h.move _ (.inl ⟨.inr rfl, hi.here (.inl hpc)⟩) (by omega) ?_)⟩
      rw [hpc]
      rfl
  | startAwake =>
    simp only [next, hpc, if_neg hlt.ne] at hs
    injection hs with hs
    have hst := hi.here (.inr (by rw [hpc]; rfl))
    refine ⟨k, .inl (hs ▸ h.move s.threadsStarting (.inl ⟨.inr rfl, hst⟩) hlt ?_)⟩
    rw [hpc]
    rfl
  | endAwake =>
    have hst : (s.thread i).stages + 1 = k ∧ (s.thread i).stages ≤ restarts i := by
      rcases hi with ⟨hpos, -⟩ | ⟨-, hok⟩ | ⟨hdone, -⟩
      · rw [hpc] at hpos
        rcases hpos with hpos | hpos <;> cases hpos
      · exact hok
      · rw [hpc] at hdone
        cases hdone
    simp only [next, hpc, if_pos (h.ending_eq (by omega))] at hs
    injection hs with hs
    obtain ⟨hok, hzero⟩ := leave_ok (r := restarts i) (t := s.thread i) rfl hst.2
    rw [hst.1] at hok
    refine ⟨k, .inl (hs ▸ h.move s.threadsStarting hok hlt ?_)⟩
    rw [hzero, hpc]
    rfl
  | stage =>
    rcases hi with ⟨hpos, -⟩ | ⟨hend, -⟩ | ⟨hdone, -⟩
    · rw [hpc] at hpos
      rcases hpos with hpos | hpos <;> cases hpos
    · rw [hpc] at hend
      cases hend
    · rw [hpc] at hdone
      cases hdone
  | startAsleep | endAsleep | done => simp [next, hpc] at hs

theorem Running.step {i : Fin n} (h : Running restarts k s)
    (hs : next restarts s i = some s') : Inv restarts s' := by
  obtain ⟨hi, hst⟩ := h.thread_ok i
  have hlt := h.ending_lt
  cases hpc : (s.thread i).pc with
  | restart =>
    rw [hpc] at hi
    rcases hi with hi | hi | hi <;> cases hi
  | startAwake =>
    simp only [next, hpc, if_pos h.starting_eq] at hs
    injection hs with hs
    refine ⟨k, .inr (hs ▸ h.move s.threadsEnding ⟨.inr (.inl rfl), hst⟩ hlt ?_)⟩
    rw [hpc]
    rfl
  | stage =>
    simp only [next, hpc] at hs
    split at hs
    · next hlast =>
      injection hs with hs
      exact ⟨k + 1, .inl (hs ▸ h.finish hpc hlast)⟩
    · next hmore =>
      injection hs with hs
      refine ⟨k, .inr (hs ▸ h.move _ ⟨.inr (.inr rfl), hst⟩ (by omega) ?_)⟩
      rw [hpc]
      rfl
  | endAwake =>
    simp only [next, hpc, if_neg hlt.ne] at hs
    injection hs with hs
    refine ⟨k, .inr (hs ▸ h.move s.threadsEnding ⟨.inr (.inr rfl), hst⟩ hlt ?_)⟩
    rw [hpc]
    rfl
  | startAsleep | endAsleep | done => simp [next, hpc] at hs

theorem reachable_inv (hn : 0 < n) (h : (workers restarts).system.Reachable s) :
    Inv restarts s := by
  refine h.invariant (fun s hs => ?_) fun s s' _ hinv hstep => ?_
  · rw [show s = _ from hs]
    exact ⟨0, .inl (Gathering.init hn)⟩
  · obtain ⟨i, hs⟩ := hstep
    obtain ⟨k, hg | hr⟩ := hinv
    · exact hg.step hs
    · exact hr.step hs

-- ---------------------------------------------------------------------------
-- Every run ends
-- ---------------------------------------------------------------------------

def Thread.left (restarts : Nat) (t : Thread) : Nat :=
  4 * (restarts + 1 - t.stages) +
    match t.pc with
    | .restart => 4
    | .startAsleep | .startAwake => 3
    | .stage => 2
    | .endAsleep | .endAwake => 1
    | .done => 0

def Thread.awake (t : Thread) : Nat :=
  match t.pc with
  | .startAwake | .endAwake => 1
  | _ => 0

/-- What every step lowers: a thread comes nearer to its end, or, with nothing else
changed, goes back to sleep. -/
def potential (restarts : Fin n → Nat) (s : Shared n) : Nat :=
  (n + 1) * ∑ q, (s.thread q).left (restarts q) + ∑ q, (s.thread q).awake

@[simp] theorem left_wake (r : Nat) (t : Thread) : t.wake.left r = t.left r := by
  obtain ⟨pc, stages⟩ := t
  cases pc <;> rfl

theorem awake_le_one (t : Thread) : t.awake ≤ 1 := by
  obtain ⟨pc, stages⟩ := t
  cases pc <;> simp [Thread.awake]

theorem sum_awake_le (s : Shared n) : ∑ q, (s.thread q).awake ≤ n := by
  calc ∑ q, (s.thread q).awake ≤ ∑ _q : Fin n, 1 := Finset.sum_le_sum fun q _ => awake_le_one _
    _ = n := by simp

theorem sum_left_set (restarts : Fin n → Nat) (s : Shared n) (i : Fin n) (t : Thread) :
    ∑ q, ((s.set i t).thread q).left (restarts q) + (s.thread i).left (restarts i) =
      ∑ q, (s.thread q).left (restarts q) + t.left (restarts i) := by
  have hupdate : (fun q => ((s.set i t).thread q).left (restarts q)) =
      Function.update (fun q => (s.thread q).left (restarts q)) i (t.left (restarts i)) := by
    funext q
    rcases Decidable.em (q = i) with rfl | hne
    · simp [Shared.set]
    · simp [Shared.set, hne]
  rw [hupdate]
  have hsum := sum_update (fun q => (s.thread q).left (restarts q)) id i (t.left (restarts i))
  simpa using hsum

theorem potential_advance {i : Fin n} {t : Thread} {s₁ : Shared n}
    (hleft : ∀ q, (s₁.thread q).left (restarts q) = (s.thread q).left (restarts q))
    (ht : t.left (restarts i) < (s.thread i).left (restarts i)) :
    potential restarts (s₁.set i t) < potential restarts s := by
  have hsum := sum_left_set restarts s₁ i t
  have hsame : ∑ q, (s₁.thread q).left (restarts q) = ∑ q, (s.thread q).left (restarts q) :=
    Finset.sum_congr rfl fun q _ => hleft q
  rw [hsame, hleft i] at hsum
  have hlower : ∑ q, ((s₁.set i t).thread q).left (restarts q) + 1 ≤
      ∑ q, (s.thread q).left (restarts q) := by omega
  have hmul := Nat.mul_le_mul_left (n + 1) hlower
  have hawake := sum_awake_le (s₁.set i t)
  simp only [potential]
  rw [Nat.mul_add] at hmul
  omega

theorem left_leave (r : Nat) (t : Thread) : (t.leave r).left r < 4 * (r + 1 - t.stages) + 1 := by
  rw [Thread.leave]
  split <;> simp only [Thread.left] <;> omega

theorem potential_sleep {i : Fin n} {t : Thread}
    (hleft : t.left (restarts i) = (s.thread i).left (restarts i))
    (hawake : (s.thread i).awake = 1) (hasleep : t.awake = 0) :
    potential restarts (s.set i t) < potential restarts s := by
  have hsum := sum_left_set restarts s i t
  have hcount : ∑ q, ((s.set i t).thread q).awake + (s.thread i).awake =
      ∑ q, (s.thread q).awake + t.awake := sum_update s.thread Thread.awake i t
  have hsame : ∑ q, ((s.set i t).thread q).left (restarts q) =
      ∑ q, (s.thread q).left (restarts q) := by omega
  simp only [potential, hsame]
  omega

theorem potential_next {i : Fin n} (hs : next restarts s i = some s') :
    potential restarts s' < potential restarts s := by
  have hleft : (s.thread i).left (restarts i) = (s.thread i).left (restarts i) := rfl
  nth_rewrite 2 [Thread.left] at hleft
  cases hpc : (s.thread i).pc with
  | restart =>
    rw [hpc] at hleft
    simp only [next, hpc] at hs
    split at hs <;> injection hs with hs <;> subst hs
    · refine potential_advance (fun q => left_wake _ _) ?_
      rw [hleft]
      exact Nat.add_lt_add_left (show 2 < 4 by decide) _
    · refine potential_advance (fun q => rfl) ?_
      rw [hleft]
      exact Nat.lt_succ_self _
  | startAwake =>
    rw [hpc] at hleft
    simp only [next, hpc] at hs
    split at hs <;> injection hs with hs <;> subst hs
    · refine potential_advance (fun q => rfl) ?_
      rw [hleft]
      exact Nat.lt_succ_self _
    · exact potential_sleep (by rw [hleft]; rfl) (by rw [Thread.awake, hpc]) rfl
  | stage =>
    rw [hpc] at hleft
    simp only [next, hpc] at hs
    split at hs <;> injection hs with hs <;> subst hs
    · refine potential_advance (fun q => left_wake _ _) ?_
      rw [hleft]
      exact (left_leave _ _).trans (Nat.lt_succ_self _)
    · refine potential_advance (fun q => rfl) ?_
      rw [hleft]
      exact Nat.lt_succ_self _
  | endAwake =>
    rw [hpc] at hleft
    simp only [next, hpc] at hs
    split at hs <;> injection hs with hs <;> subst hs
    · refine potential_advance (fun q => rfl) ?_
      rw [hleft]
      exact left_leave _ _
    · exact potential_sleep (by rw [hleft]; rfl) (by rw [Thread.awake, hpc]) rfl
  | startAsleep | endAsleep | done => simp [next, hpc] at hs

-- ---------------------------------------------------------------------------
-- Where a run ends
-- ---------------------------------------------------------------------------

theorem next_eq_none {i : Fin n} (h : next restarts s i = none) :
    (s.thread i).pc = .startAsleep ∨ (s.thread i).pc = .endAsleep ∨ (s.thread i).pc = .done := by
  cases hpc : (s.thread i).pc with
  | startAsleep => exact .inl rfl
  | endAsleep => exact .inr (.inl rfl)
  | done => exact .inr (.inr rfl)
  | restart | stage =>
    simp only [next, hpc] at h
    split at h <;> cases h
  | startAwake | endAwake => simp [next, hpc] at h

theorem exists_uncounted {g : Fin n → Nat} (hle : ∀ q, g q ≤ 1) (hlt : ∑ q, g q < n) :
    ∃ q, g q = 0 := by
  by_contra hall
  rw [not_exists] at hall
  have hones : ∑ q, g q = n := by
    calc ∑ q, g q = ∑ _q : Fin n, 1 :=
          Finset.sum_congr rfl fun q _ => by
            have := hle q
            have := hall q
            omega
      _ = n := by simp
  omega

theorem ended_gathering (hinv : Inv restarts s) (hend : ∀ i, next restarts s i = none) :
    ∃ k, Gathering restarts k s ∧ ∃ q, (s.thread q).pc = .done ∧ restarts q + 1 = k := by
  obtain ⟨k, hg | hr⟩ := hinv
  · obtain ⟨q, hq⟩ := exists_uncounted (fun q => atStart_le_one (s.thread q).pc)
      (hg.starting_eq ▸ hg.starting_lt)
    refine ⟨k, hg, q, ?_⟩
    rcases hg.thread_ok q with ⟨hpc | hpc, -⟩ | ⟨hpc, -⟩ | ⟨hpc, -, hk⟩
    · rcases next_eq_none (hend q) with h | h | h <;> rw [hpc] at h <;> cases h
    · omega
    · rcases next_eq_none (hend q) with h | h | h <;> rw [hpc] at h <;> cases h
    · exact ⟨hpc, hk.symm⟩
  · obtain ⟨q, hq⟩ := exists_uncounted (fun q => atEnd_le_one (s.thread q).pc)
      (hr.ending_eq ▸ hr.ending_lt)
    obtain ⟨hpc | hpc | hpc, -⟩ := hr.thread_ok q
    · rcases next_eq_none (hend q) with h | h | h <;> rw [hpc] at h <;> cases h
    · rcases next_eq_none (hend q) with h | h | h <;> rw [hpc] at h <;> cases h
    · omega

/-- No two threads are ever in different stages, every run ends, and it ends with all
threads done exactly when they all want the same number of stages. Otherwise it
ends with some thread asleep before a stage for ever. -/
theorem workers_end (hn : 0 < n) (h : (workers restarts).system.Reachable s) :
    (∀ i j, (s.thread i).pc = .stage → (s.thread j).pc = .stage →
      (s.thread i).stages = (s.thread j).stages) ∧
    (∀ s', (workers restarts).system.Step s s' →
      potential restarts s' < potential restarts s) ∧
    ((∀ s', ¬ (workers restarts).system.Step s s') →
      ((AllDone s ↔ ∀ i j, restarts i = restarts j) ∧
        (¬ AllDone s → ∃ i, (s.thread i).pc = .startAsleep))) := by
  have hinv := reachable_inv hn h
  refine ⟨fun i j hi hj => ?_, ?_, fun hstuck => ?_⟩
  · obtain ⟨k, hg | hr⟩ := hinv
    · rcases hg.thread_ok i with ⟨hpc | hpc, -⟩ | ⟨hpc, -⟩ | ⟨hpc, -⟩ <;>
        rw [hi] at hpc <;> cases hpc
    · exact (hr.thread_ok i).2.1.trans (hr.thread_ok j).2.1.symm
  · rintro s' ⟨i, hs⟩
    exact potential_next hs
  · have hend : ∀ i, next restarts s i = none :=
      fun i => Option.eq_none_iff_forall_not_mem.mpr fun s' hs => hstuck s' ⟨i, hs⟩
    obtain ⟨k, hg, q, hq, hk⟩ := ended_gathering hinv hend
    have hplace : ∀ i, (s.thread i).pc = .done ∧ restarts i + 1 = k ∨
        (s.thread i).pc = .startAsleep ∧ k ≤ restarts i := by
      intro i
      rcases hg.thread_ok i with ⟨hpc, -, hle⟩ | ⟨hpc, -⟩ | ⟨hpc, -, heq⟩
      · rcases next_eq_none (hend i) with h | h | h
        · exact .inr ⟨h, hle⟩
        · rw [h] at hpc
          rcases hpc with hpc | hpc <;> cases hpc
        · rw [h] at hpc
          rcases hpc with hpc | hpc <;> cases hpc
      · rcases next_eq_none (hend i) with h | h | h <;> rw [hpc] at h <;> cases h
      · exact .inl ⟨hpc, heq.symm⟩
    refine ⟨⟨fun hdone i j => ?_, fun hsame i => ?_⟩, fun hnot => ?_⟩
    · have hcase : ∀ i, restarts i + 1 = k := by
        intro i
        rcases hplace i with ⟨-, hi⟩ | ⟨hi, -⟩
        · exact hi
        · rw [hdone i] at hi
          cases hi
      have := hcase i
      have := hcase j
      omega
    · rcases hplace i with ⟨hi, -⟩ | ⟨-, hi⟩
      · exact hi
      · have := hsame i q
        omega
    · rw [AllDone, not_forall] at hnot
      obtain ⟨i, hi⟩ := hnot
      rcases hplace i with ⟨hdone, -⟩ | ⟨hasleep, -⟩
      · exact absurd hdone hi
      · exact ⟨i, hasleep⟩

/-- Two threads that want one stage and two: the second sleeps for ever. -/
theorem workers_end_unequal : ∃ s : Shared 2, (∀ s', ¬ (workers ![0, 1]).system.Step s s') ∧
    ∃ i, (s.thread i).pc = .startAsleep := by
  have hstart : (workers ![0, 1]).system.Reachable ⟨0, 0, fun _ => ⟨.restart, 0⟩⟩ := .init rfl
  have hstage := ((hstart.step ⟨0, rfl⟩).step ⟨1, rfl⟩).step ⟨0, rfl⟩
  have hleft := ((hstage.step ⟨0, rfl⟩).step ⟨1, rfl⟩).step ⟨0, rfl⟩
  have hasleep := hleft.step ⟨1, rfl⟩
  have hends := (workers_end (by decide) hasleep).2.2
  refine ⟨_, ?stuck, (hends ?stuck).2 ?notDone⟩
  case stuck =>
    rintro s' ⟨i, hs⟩
    fin_cases i <;> cases hs
  case notDone => exact fun hdone => absurd (hdone 1) (by decide)

end Ocfs2Test.AioStress
