import Ocfs2Test.Lib.Transition

/-!
# Programs in phases

Ranks that each run one list of operations after the other, with a barrier behind
every list. An operation blocks, fails, or changes what the ranks share; a failure
stops them all.

A `Plan` describes the shared state within a phase by the operations that are
still to be done in it. It holds of every reachable state (`Plan.reachable`), and
where no phase of it is stuck, neither is the program (`Plan.not_deadlocked`).
-/

namespace Lib

inductive Outcome (σ : Type u)
  | next (s : σ)
  | blocked
  | failed

structure Phased (ι : Type v) (Op : Type w) (σ : Type u) where
  last : Nat
  script : Nat → ι → List Op
  exec : ι → Op → σ → Outcome σ

namespace Phased

structure State (ι : Type v) (Op : Type w) (σ : Type u) where
  phase : ι → Nat
  todo : ι → List Op
  store : σ
  failed : Bool

variable {ι : Type v} {Op : Type w} {σ : Type u}

/-- Every rank has come to the barrier behind the phase of `p`. -/
def State.Gathered (s : State ι Op σ) (p : ι) : Prop :=
  ∀ q, s.phase p < s.phase q ∨ s.phase q = s.phase p ∧ s.todo q = []

section
variable (M : Phased ι Op σ)

def start (t : σ) : State ι Op σ := ⟨fun _ => 0, M.script 0, t, false⟩

variable [DecidableEq ι]

inductive Step : State ι Op σ → State ι Op σ → Prop
  | next {s p op ops t} (hrun : s.failed = false) (htodo : s.todo p = op :: ops)
      (hexec : M.exec p op s.store = .next t) :
      Step s { s with todo := Function.update s.todo p ops, store := t }
  | fail {s p op ops} (hrun : s.failed = false) (htodo : s.todo p = op :: ops)
      (hexec : M.exec p op s.store = .failed) : Step s { s with failed := true }
  | pass {s p} (hrun : s.failed = false) (hlast : s.phase p < M.last) (hall : s.Gathered p) :
      Step s { s with
        phase := Function.update s.phase p (s.phase p + 1)
        todo := Function.update s.todo p (M.script (s.phase p + 1) p) }

def system (Init : σ → Prop) : System (State ι Op σ) where
  Init s := ∃ t, Init t ∧ s = M.start t
  Step := M.Step

def Finished (s : State ι Op σ) : Prop := ∀ p, s.phase p = M.last ∧ s.todo p = []

/-- `J k todo t`: in phase `k`, with `todo` still to be done, the ranks share `t`. -/
structure Plan (Init : σ → Prop) (J : Nat → (ι → List Op) → σ → Prop) : Prop where
  init : ∀ t, Init t → J 0 (M.script 0) t
  step : ∀ k todo t p op ops, k ≤ M.last → J k todo t → todo p = op :: ops →
    (∃ t', M.exec p op t = .next t' ∧ J k (Function.update todo p ops) t') ∨
      M.exec p op t = .blocked
  next : ∀ k t, k < M.last → J k (fun _ => []) t → J (k + 1) (M.script (k + 1)) t

/-- What is left of phase `k` where some ranks may still be at the barrier before it. -/
def pending (s : State ι Op σ) (k : Nat) (p : ι) : List Op :=
  if s.phase p = k then s.todo p else M.script k p

/-- No rank has failed, and the foremost ones are in phase `k`. -/
structure Follows (J : Nat → (ι → List Op) → σ → Prop) (s : State ι Op σ) (k : Nat) : Prop where
  running : s.failed = false
  le_last : k ≤ M.last
  near : ∀ p, s.phase p = k ∨ s.phase p + 1 = k ∧ s.todo p = []
  holds : J k (M.pending s k) s.store

end

variable {M : Phased ι Op σ} {Init : σ → Prop} {J : Nat → (ι → List Op) → σ → Prop}
  {s s' : State ι Op σ} {k : Nat} {p : ι}

theorem pending_eq (hp : s.phase p = k) : M.pending s k p = s.todo p := if_pos hp

/-- A rank that has something to do is in the foremost phase. -/
theorem Follows.phase_eq (h : M.Follows J s k) (hp : s.todo p ≠ []) : s.phase p = k :=
  (h.near p).resolve_right fun hc => hp hc.2

variable [DecidableEq ι]

theorem pending_update {ops : List Op} {t : σ} (hp : s.phase p = k) :
    M.pending { s with todo := Function.update s.todo p ops, store := t } k =
      Function.update (M.pending s k) p ops := by
  funext q
  by_cases hq : q = p
  · subst hq
    simp only [pending, hp, if_true, Function.update_self]
  · simp only [pending, Function.update_of_ne hq]

theorem Follows.next {op : Op} {ops : List Op} {t : σ} (hplan : M.Plan Init J)
    (h : M.Follows J s k) (htodo : s.todo p = op :: ops) (hexec : M.exec p op s.store = .next t) :
    M.Follows J { s with todo := Function.update s.todo p ops, store := t } k := by
  have hp := h.phase_eq (p := p) (by rw [htodo]; exact List.cons_ne_nil op ops)
  refine ⟨h.running, h.le_last, fun q => ?_, ?_⟩
  · refine (h.near q).imp_right fun hq => ⟨hq.1, ?_⟩
    have hne : q ≠ p := by
      rintro rfl
      exact absurd (hq.2.symm.trans htodo) (List.cons_ne_nil op ops).symm
    rw [← hq.2]
    exact Function.update_of_ne hne ..
  · rw [pending_update hp]
    obtain ⟨t', ht', hJ⟩ | hblocked := hplan.step k _ _ p op ops h.le_last h.holds
      ((pending_eq hp).trans htodo)
    · cases hexec.symm.trans ht'
      exact hJ
    · cases hexec.symm.trans hblocked

theorem Follows.not_failed {op : Op} {ops : List Op} (hplan : M.Plan Init J)
    (h : M.Follows J s k) (htodo : s.todo p = op :: ops) : M.exec p op s.store ≠ .failed := by
  intro hexec
  have hp := h.phase_eq (p := p) (by rw [htodo]; exact List.cons_ne_nil op ops)
  obtain ⟨t, ht, -⟩ | hblocked := hplan.step k _ _ p op ops h.le_last h.holds
    ((pending_eq hp).trans htodo)
  · cases hexec.symm.trans ht
  · cases hexec.symm.trans hblocked

/-- The first rank through a barrier takes the program into the next phase. -/
theorem Follows.pass (hplan : M.Plan Init J) (h : M.Follows J s k) (hlast : s.phase p < M.last)
    (hall : s.Gathered p) :
    ∃ k', M.Follows J { s with
      phase := Function.update s.phase p (s.phase p + 1)
      todo := Function.update s.todo p (M.script (s.phase p + 1) p) } k' := by
  rcases h.near p with hp | ⟨hp, -⟩
  · have hq (q : ι) : s.phase q = k ∧ s.todo q = [] := by
      rcases hall q with hlt | ⟨heq, hnil⟩
      · rcases h.near q with hq | ⟨hq, -⟩ <;> omega
      · exact ⟨heq.trans hp, hnil⟩
    have hdone : M.pending s k = fun _ => [] := by
      funext q
      rw [pending_eq (hq q).1, (hq q).2]
    have hJ := hplan.next k s.store (hp ▸ hlast) (hdone ▸ h.holds)
    refine ⟨k + 1, h.running, hp ▸ hlast, fun q => ?_, ?_⟩
    · by_cases hne : q = p
      · subst hne
        simp [hp]
      · simp [Function.update_of_ne hne, hq q]
    · convert hJ using 1
      funext q
      by_cases hne : q = p
      · subst hne
        simp [pending, hp]
      · simp [pending, Function.update_of_ne hne, (hq q).1]
  · refine ⟨k, h.running, h.le_last, fun q => ?_, ?_⟩
    · by_cases hne : q = p
      · subst hne
        simp [hp]
      · simpa [Function.update_of_ne hne] using h.near q
    · convert h.holds using 1
      funext q
      by_cases hne : q = p
      · subst hne
        simp [pending, hp, show s.phase q ≠ k by omega]
      · simp [pending, Function.update_of_ne hne]

theorem Plan.reachable (hplan : M.Plan Init J) (h : (M.system Init).Reachable s) :
    ∃ k, M.Follows J s k := by
  apply h.invariant (P := fun s => ∃ k, M.Follows J s k)
  · rintro s ⟨t, ht, rfl⟩
    exact ⟨0, rfl, Nat.zero_le _, fun _ => .inl rfl, hplan.init t ht⟩
  · rintro s s' - ⟨k, hf⟩ hstep
    cases hstep with
    | next hrun htodo hexec => exact ⟨k, hf.next hplan htodo hexec⟩
    | fail hrun htodo hexec => exact absurd hexec (hf.not_failed hplan htodo)
    | pass hrun hlast hall => exact hf.pass hplan hlast hall

/-- Where some rank can always go on within a phase, the program comes to its end. -/
theorem Plan.not_deadlocked [Nonempty ι] (hplan : M.Plan Init J)
    (hlive : ∀ k todo t, k ≤ M.last → J k todo t → (∃ p, todo p ≠ []) →
      ∃ p op ops t', todo p = op :: ops ∧ M.exec p op t = .next t')
    (h : (M.system Init).Reachable s) : ¬ (M.system Init).Deadlocked M.Finished s := by
  rintro ⟨hunfinished, hstuck⟩
  obtain ⟨k, hf⟩ := hplan.reachable h
  -- nobody is left behind at a barrier that the foremost have passed
  have hphase (p : ι) : s.phase p = k := by
    refine (hf.near p).resolve_right fun ⟨hp, hnil⟩ => hstuck _ (.pass (p := p) hf.running ?_ ?_)
    · have hle := hf.le_last
      omega
    · intro q
      rcases hf.near q with hq | ⟨hq, hq'⟩
      · exact .inl (by omega)
      · exact .inr ⟨by omega, hq'⟩
  have hpending : M.pending s k = s.todo := funext fun p => pending_eq (hphase p)
  have hJ := hf.holds
  rw [hpending] at hJ
  by_cases hsome : ∃ p, s.todo p ≠ []
  · obtain ⟨p, op, ops, t, htodo, hexec⟩ := hlive k s.todo s.store hf.le_last hJ hsome
    exact hstuck _ (.next hf.running htodo hexec)
  · push Not at hsome
    rcases Nat.eq_or_lt_of_le hf.le_last with rfl | hlt
    · exact hunfinished fun p => ⟨hphase p, hsome p⟩
    · obtain ⟨p⟩ := ‹Nonempty ι›
      refine hstuck _ (.pass (p := p) hf.running (by rw [hphase p]; exact hlt) fun q => ?_)
      exact .inr ⟨by rw [hphase p, hphase q], hsome q⟩

-- ---------------------------------------------------------------------------
-- Runs
-- ---------------------------------------------------------------------------

section
variable (M)

/-- `p` does `ops` while the others wait. -/
def alone (p : ι) : List Op → σ → Option σ
  | [], t => some t
  | op :: ops, t =>
    match M.exec p op t with
    | .next t => alone p ops t
    | _ => none

def atPhase (k : Nat) (t : σ) : State ι Op σ := ⟨fun _ => k, M.script k, t, false⟩

end

theorem steps_alone {ops rest : List Op} {t : σ} (hrun : s.failed = false)
    (htodo : s.todo p = ops ++ rest) (h : M.alone p ops s.store = some t) :
    Relation.ReflTransGen M.Step s
      { s with todo := Function.update s.todo p rest, store := t } := by
  induction ops generalizing s with
  | nil =>
    cases h
    rw [List.nil_append] at htodo
    rw [← htodo, Function.update_eq_self]
  | cons op ops ih =>
    rw [alone] at h
    split at h
    · next t' hexec =>
      have hhead : s.todo p = op :: (ops ++ rest) := htodo
      refine .head (.next hrun hhead hexec) ?_
      have hrest := ih (s := { s with
        todo := Function.update s.todo p (ops ++ rest), store := t' }) hrun
        (Function.update_self ..) h
      simpa only [Function.update_idem] using hrest
    · cases h

/-- From the end of a phase all ranks come to the start of the next one. -/
theorem steps_pass [Fintype ι] {t : σ} (hk : k < M.last) :
    Relation.ReflTransGen M.Step ⟨fun _ => k, fun _ => [], t, false⟩ (M.atPhase (k + 1) t) := by
  have hsome (S : Finset ι) :
      Relation.ReflTransGen M.Step ⟨fun _ => k, fun _ => [], t, false⟩
        ⟨fun q => if q ∈ S then k + 1 else k, fun q => if q ∈ S then M.script (k + 1) q else [],
          t, false⟩ := by
    induction S using Finset.induction_on with
    | empty =>
      simp only [Finset.notMem_empty, if_false]
      exact .refl
    | insert p S hp ih =>
      refine ih.tail ?_
      have hphase : (if p ∈ S then k + 1 else k) = k := if_neg hp
      convert Step.pass (M := M) (p := p) _ _ _ using 1
      · simp only [hphase, State.mk.injEq, and_true]
        constructor <;> funext q <;> by_cases hq : q = p <;> simp [hq]
      · rfl
      · simpa only [hphase] using hk
      · intro q
        simp only [hphase]
        by_cases hq : q ∈ S
        · exact .inl (by rw [if_pos hq]; exact Nat.lt_succ_self k)
        · exact .inr ⟨if_neg hq, if_neg hq⟩
  have hall := hsome Finset.univ
  simp only [Finset.mem_univ, if_true] at hall
  exact hall

/-- A phase in which only `p` has something to do. -/
theorem steps_phase [Fintype ι] {t t' : σ} (hk : k < M.last)
    (hidle : ∀ q, q ≠ p → M.script k q = []) (h : M.alone p (M.script k p) t = some t') :
    Relation.ReflTransGen M.Step (M.atPhase k t) (M.atPhase (k + 1) t') := by
  have htodo : (M.atPhase k t).todo p = M.script k p ++ [] := (List.append_nil _).symm
  have hdo := steps_alone (s := M.atPhase k t) rfl htodo h
  refine hdo.trans ?_
  have hnil : Function.update (M.atPhase k t).todo p [] = fun _ => [] := by
    funext q
    by_cases hq : q = p
    · subst hq
      exact Function.update_self ..
    · rw [Function.update_of_ne hq]
      exact hidle q hq
  rw [hnil]
  exact steps_pass hk

theorem reachable_alone {ops rest : List Op} {t : σ} (hs : (M.system Init).Reachable s)
    (hrun : s.failed = false) (htodo : s.todo p = ops ++ rest)
    (h : M.alone p ops s.store = some t) :
    ∃ s', (M.system Init).Reachable s' ∧ s'.failed = false ∧
      s'.todo = Function.update s.todo p rest ∧ s'.store = t :=
  ⟨_, hs.steps (steps_alone hrun htodo h), hrun, rfl, rfl⟩

omit [DecidableEq ι] in
theorem alone_cons {op : Op} {ops : List Op} {t t' : σ} (h : M.exec p op t = .next t') :
    M.alone p (op :: ops) t = M.alone p ops t' := by
  rw [alone, h]

omit [DecidableEq ι] in
theorem alone_append (ops rest : List Op) (t : σ) :
    M.alone p (ops ++ rest) t = (M.alone p ops t).bind (M.alone p rest) := by
  induction ops generalizing t with
  | nil => rfl
  | cons op ops ih =>
    rw [List.cons_append, alone, alone]
    split
    · exact ih _
    · rfl

-- ---------------------------------------------------------------------------
-- One rank that leads
-- ---------------------------------------------------------------------------

/-- In phase `k` only `w k` changes what the ranks share, and comes through when it is
alone; `F k` holds when the phase begins. -/
structure Led (M : Phased ι Op σ) (Init : σ → Prop) (w : Nat → ι) (F : Nat → σ → Prop) :
    Prop where
  init : ∀ t, Init t → F 0 t
  run : ∀ k t, k ≤ M.last → F k t →
    ∃ t', M.alone (w k) (M.script k (w k)) t = some t' ∧ (k < M.last → F (k + 1) t')
  quiet : ∀ k t done t' p op, k ≤ M.last → F k t → done <+: M.script k (w k) →
    M.alone (w k) done t = some t' → p ≠ w k → op ∈ M.script k p → M.exec p op t' = .next t'

/-- How far the leader of phase `k` has come. -/
def ledBy (M : Phased ι Op σ) (w : Nat → ι) (F : Nat → σ → Prop) (k : Nat)
    (todo : ι → List Op) (t : σ) : Prop :=
  ∃ t₀ done, F k t₀ ∧ M.script k (w k) = done ++ todo (w k) ∧
    M.alone (w k) done t₀ = some t ∧ ∀ p, p ≠ w k → todo p <:+ M.script k p

theorem Led.plan {w : Nat → ι} {F : Nat → σ → Prop} (h : M.Led Init w F) :
    M.Plan Init (M.ledBy w F) where
  init t ht := ⟨t, [], h.init t ht, rfl, rfl, fun _ _ => List.suffix_refl _⟩
  step k todo t p op ops hk := by
    rintro ⟨t₀, done, hF, hscript, halone, hothers⟩ htodo
    left
    by_cases hp : p = w k
    · subst hp
      obtain ⟨t', hrun, -⟩ := h.run k t₀ hk hF
      rw [hscript, htodo, alone_append, halone, Option.bind_some, alone] at hrun
      split at hrun
      · next t'' hexec =>
        refine ⟨t'', hexec, t₀, done ++ [op], hF, ?_, ?_, fun q hq => ?_⟩
        · rw [Function.update_self, hscript, htodo, List.append_cons]
        · rw [alone_append, halone, Option.bind_some, alone, hexec]
          rfl
        · rw [Function.update_of_ne hq]
          exact hothers q hq
      · cases hrun
    · have hsuffix := hothers p hp
      rw [htodo] at hsuffix
      have hmem : op ∈ M.script k p := hsuffix.subset List.mem_cons_self
      have hdone : done <+: M.script k (w k) := ⟨_, hscript.symm⟩
      refine ⟨t, h.quiet k t₀ done t p op hk hF hdone halone hp hmem, t₀, done, hF, ?_,
        halone, fun q hq => ?_⟩
      · rwa [Function.update_of_ne (Ne.symm hp)]
      · by_cases hqp : q = p
        · subst hqp
          rw [Function.update_self]
          exact (List.suffix_cons op ops).trans hsuffix
        · rw [Function.update_of_ne hqp]
          exact hothers q hq
  next k t hk := by
    rintro ⟨t₀, done, hF, hscript, halone, -⟩
    rw [List.append_nil] at hscript
    obtain ⟨t', hrun, hnext⟩ := h.run k t₀ (Nat.le_of_lt hk) hF
    rw [hscript, halone] at hrun
    cases hrun
    exact ⟨t, [], hnext hk, rfl, rfl, fun _ _ => List.suffix_refl _⟩

end Phased

end Lib
