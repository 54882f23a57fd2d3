import Ocfs2Test.FlockTests.UnitTest

/-!
# The runs of flock_unit_test

Between two barriers either only one rank changes the locks of the first file, or both
do things that go together, so each phase is settled by what a rank does alone.
-/

namespace Ocfs2Test.FlockUnitTest

open Lib

variable {φ : Type} [DecidableEq φ] {c : Config φ} {t t' : Store φ} {p : Process} {file : φ}
  {v v' : Part} {l l' : FileLocks Owner}

-- ---------------------------------------------------------------------------
-- What a process does alone
-- ---------------------------------------------------------------------------

def stepAlone (type : LockType) (p : Process) (v : Part) (op : LockOp) : Option Part :=
  match step type p false op v with
  | .next v => some v
  | _ => none

def work (type : LockType) (p : Process) (ops : List LockOp) (v : Part) : Option Part :=
  ops.foldlM (stepAlone type p) v

theorem part_put (t : Store φ) (file : φ) (p : Process) (v : Part) :
    (t.put file p v).part file p = v := by
  simp [Store.part, Store.put]

theorem put_put (t : Store φ) (file : φ) (p : Process) (v v' : Part) :
    (t.put file p v).put file p v' = t.put file p v' := by
  simp [Store.put]

theorem part_put_of_ne {q : Process} {other : φ} (hfile : other ≠ file) (hq : q ≠ p) :
    (t.put file p v).part other q = t.part other q := by
  simp [Store.part, Store.put, hfile, hq]

omit [DecidableEq φ] in
theorem not_interrupted (h : t.alarm ≠ .interrupting) (p : Process) : t.interrupted p = false := by
  simp [Store.interrupted, h]

theorem exec_onFile {op : LockOp} (halarm : t.alarm ≠ .interrupting)
    (h : stepAlone c.lockType p (t.part file p) op = some v) :
    exec c p (.onFile file op) t = .next (t.put file p v) := by
  rw [stepAlone] at h
  rw [exec, not_interrupted halarm]
  split at h
  · next hstep =>
    cases h
    rw [hstep]
  · cases h

theorem alone_work {ops : List LockOp} (halarm : t.alarm ≠ .interrupting)
    (h : work c.lockType p ops (t.part file p) = some v) :
    (program c).alone p (ops.map (.onFile file)) t = some (t.put file p v) := by
  induction ops generalizing t with
  | nil =>
    obtain rfl : t.part file p = v := Option.some.inj h
    simp [Phased.alone, Store.put, Store.part]
  | cons op ops ih =>
    rw [work, List.foldlM_cons] at h
    obtain ⟨v', hv', hrest⟩ := Option.bind_eq_some_iff.mp h
    rw [List.map_cons, Phased.alone_cons (exec_onFile halarm hv')]
    have hdone := ih (t := t.put file p v') halarm (by rw [part_put]; exact hrest)
    rwa [put_put] at hdone

-- ---------------------------------------------------------------------------
-- Phases
-- ---------------------------------------------------------------------------

structure At (c : Config φ) (alarm : Alarm) (P : FileLocks Owner → Prop) (t : Store φ) : Prop where
  alarm_eq : t.alarm = alarm
  locks : P (t.locks c.path1)
  awake : ∀ p, t.waiting p = false

theorem solo_triple {a : Process} {ops : List LockOp}
    (h : work c.lockType a ops ⟨l, false⟩ = some ⟨l', false⟩) :
    (program c).Triple (At c .off (· = l)) (solo c a ops) (At c .off (· = l')) := by
  refine .solo fun t ht => ⟨t.put c.path1 a ⟨l', false⟩, alone_work ?_ ?_, ?_⟩
  · rw [ht.alarm_eq]
    exact Alarm.noConfusion
  · rw [Store.part, ht.locks, ht.awake]
    exact h
  · refine ⟨ht.alarm_eq, Function.update_self .., fun q => ?_⟩
    rcases Decidable.em (q = a) with rfl | hq
    · exact Function.update_self ..
    · exact (Function.update_of_ne hq ..).trans (ht.awake q)

/-- Each section of the test on one file goes through and leaves the file free. -/
theorem work_section (type : LockType) (p : Process) :
    ∀ ops ∈ test1node1file type, work type p ops ⟨.free, false⟩ = some ⟨.free, false⟩ := by
  cases type <;> cases p <;> decide +kernel

theorem work_flatten {type : LockType} {sections : List (List LockOp)}
    (h : ∀ ops ∈ sections, work type p ops v = some v) : work type p sections.flatten v = some v := by
  induction sections with
  | nil => rfl
  | cons ops sections ih =>
    rw [List.flatten_cons, work, List.foldlM_append]
    have hhead : ops.foldlM (stepAlone type p) v = some v := h ops List.mem_cons_self
    rw [hhead]
    exact ih fun ops hops => h ops (List.mem_cons_of_mem _ hops)

def ownPart (c : Config φ) (p : Process) (t : Store φ) : Part :=
  if p = .timer then ⟨.free, t.waiting p⟩ else t.part (c.which p) p

def stepOwn (type : LockType) (p : Process) (op : Op φ) (v : Part) : Option Part :=
  match op with
  | .onFile _ op => stepAlone type p v op
  | _ => none

theorem test1node_triple (hne : c.path1 ≠ c.path2) :
    (program c).Triple (· = initial) (test1node c) (At c .off (· = .free)) := by
  have hwhich : ∀ p q, p ≠ .timer → q ≠ .timer → q ≠ p → c.which q ≠ c.which p := by
    intro p q hp hq hqp
    cases p <;> cases q <;> simp_all [Config.which, Ne.symm hne]
  have hsep : (program c).Triple
      (fun t => t.alarm = .off ∧ ∀ p, ownPart c p t = ⟨.free, false⟩) (test1node c)
      (fun t => t.alarm = .off ∧ ∀ p, ownPart c p t = ⟨.free, false⟩) := by
    have hrun : ∀ p, (test1node c p).foldlM (fun v op => stepOwn c.lockType p op v) ⟨.free, false⟩ =
        some ⟨.free, false⟩ := by
      intro p
      rw [test1node]
      split
      · rfl
      · rw [List.foldlM_map]
        exact work_flatten (work_section c.lockType p)
    refine .separate (fun p op hop t v halarm hstep => ?_) hrun
    rw [test1node] at hop
    split at hop
    · cases hop
    · next hp =>
      obtain ⟨op', -, rfl⟩ := List.mem_map.mp hop
      rw [ownPart, if_neg hp] at hstep
      have hrunning : t.alarm ≠ .interrupting := by
        rw [halarm]
        exact Alarm.noConfusion
      refine ⟨t.put (c.which p) p v, exec_onFile hrunning hstep, halarm, ?_, fun q hq => ?_⟩
      · rw [ownPart, if_neg hp, part_put]
      · rw [ownPart, ownPart]
        split
        · simp [Store.put, hq]
        · next hqt => exact part_put_of_ne (hwhich p q hp hqt hq) hq
  refine hsep.mono ?_ ?_
  · rintro t rfl
    refine ⟨rfl, fun p => ?_⟩
    rw [ownPart]
    split <;> rfl
  · rintro t ⟨halarm, hparts⟩
    have hmaster := hparts .master
    refine ⟨halarm, congrArg Part.locks hmaster, fun p => ?_⟩
    have hp := congrArg Part.waiting (hparts p)
    rw [ownPart] at hp
    split at hp <;> exact hp

-- ---------------------------------------------------------------------------
-- Both ranks on one file
-- ---------------------------------------------------------------------------

theorem owner_ne {type : LockType} {q : Process} {fd fd' : Fd} (h : q ≠ p) :
    owner type q fd ≠ owner type p fd' := by
  cases type <;> simp [owner, h]

def ByRanks (c : Config φ) (l : FileLocks Owner) : Prop :=
  ∀ o, l.held o = none ∨ ∃ p, p ≠ .timer ∧ o = owner c.lockType p .fd1

def ownLock (c : Config φ) (p : Process) (t : Store φ) : Option LockMode × Bool :=
  ((t.locks c.path1).held (owner c.lockType p .fd1), t.waiting p)

def stepShared (type : LockType) (op : LockOp) (e : Option LockMode × Bool) :
    Option (Option LockMode × Bool) :=
  match op with
  | .convert _ _ =>
    match type with
    | .flock => if e.1 = some .shared then some e else some (none, e.2)
    | .fcntl => some e
  | .request _ _ _ _ => some (some .shared, e.2)
  | .wait _ _ _ => if e.2 = false then some e else none
  | _ => none

def stepEntry (type : LockType) (op : Op φ) (e : Option LockMode × Bool) :
    Option (Option LockMode × Bool) :=
  match op with
  | .onFile _ op => stepShared type op e
  | _ => none

/-- Nobody is exclusive, so that a shared lock is granted at once. -/
structure Sharing (c : Config φ) (t : Store φ) : Prop where
  alarm_eq : t.alarm = .off
  byRanks : ByRanks c (t.locks c.path1)
  shared : ∀ o, (t.locks c.path1).held o ≠ some .exclusive

theorem ownLock_put {q : Process} (h : q ≠ p)
    (hlocks : v.locks.held (owner c.lockType q .fd1) =
      (t.locks c.path1).held (owner c.lockType q .fd1)) :
    ownLock c q (t.put c.path1 p v) = ownLock c q t := by
  simp [ownLock, Store.put, hlocks, h]

theorem Sharing.put (h : Sharing c t) (hp : p ≠ .timer)
    (hothers : ∀ o, o ≠ owner c.lockType p .fd1 → v.locks.held o = (t.locks c.path1).held o)
    (hown : v.locks.held (owner c.lockType p .fd1) ≠ some .exclusive) :
    Sharing c (t.put c.path1 p v) := by
  have hlocks : (t.put c.path1 p v).locks c.path1 = v.locks := Function.update_self ..
  refine ⟨h.alarm_eq, fun o => ?_, fun o => ?_⟩
  · rcases Decidable.em (o = owner c.lockType p .fd1) with rfl | hne
    · exact .inr ⟨p, hp, rfl⟩
    · rw [hlocks, hothers o hne]
      exact h.byRanks o
  · rcases Decidable.em (o = owner c.lockType p .fd1) with rfl | hne
    · rwa [hlocks]
    · rw [hlocks, hothers o hne]
      exact h.shared o

theorem stepAlone_shared {type : LockType} {op : LockOp} {e : Option LockMode × Bool}
    (hshared : ∀ o, v.locks.held o ≠ some .exclusive)
    (hop : op ∈ lockAbort .fd1 .ok .shared false)
    (hstep : stepShared type op (v.locks.held (owner type p .fd1), v.waiting) = some e) :
    ∃ v', stepAlone type p v op = some v' ∧ v'.locks.held (owner type p .fd1) = e.1 ∧
      v'.waiting = e.2 ∧ e.1 ≠ some .exclusive ∧
      ∀ o, o ≠ owner type p .fd1 → v'.locks.held o = v.locks.held o := by
  have hkept := hshared (owner type p .fd1)
  have hops : op = .convert .fd1 .shared ∨ op = .request .fd1 .shared false .ok ∨
      op = .wait .fd1 .shared .ok := by simpa [lockAbort] using hop
  rcases hops with rfl | rfl | rfl
  · cases type with
    | fcntl =>
      cases hstep
      exact ⟨v, rfl, rfl, rfl, hkept, fun o _ => rfl⟩
    | flock =>
      simp only [stepShared] at hstep
      simp only [stepAlone, step]
      split at hstep
      · next hsame =>
        cases hstep
        rw [if_pos hsame]
        exact ⟨v, rfl, rfl, rfl, hkept, fun o _ => rfl⟩
      · next hother =>
        cases hstep
        rw [if_neg hother]
        exact ⟨_, rfl, Function.update_self .., rfl, (Option.some_ne_none _).symm,
          fun o hne => Function.update_of_ne hne ..⟩
  · have hgrants : v.locks.Grants (owner type p .fd1) .shared :=
      FileLocks.grants_shared fun o _ => hshared o
    cases hstep
    simp only [stepAlone, step, dif_pos hgrants]
    exact ⟨_, rfl, Function.update_self .., rfl, by decide,
      fun o hne => Function.update_of_ne hne ..⟩
  · simp only [stepShared] at hstep
    split at hstep
    · next hawake =>
      cases hstep
      simp only [stepAlone, step, if_pos hawake]
      exact ⟨v, rfl, rfl, rfl, hkept, fun o _ => rfl⟩
    · cases hstep

theorem shared_triple :
    (program c).Triple (At c .off (· = .free)) (both c (lockAbort .fd1 .ok .shared false))
      (At c .off (ByRanks c)) := by
  have hrun : ∀ p, (both c (lockAbort .fd1 .ok .shared false) p).foldlM
      (fun e op => stepEntry c.lockType op e) (none, false) =
        some (if p = .timer then (none, false) else (some .shared, false)) := by
    intro p
    rw [both]
    split
    · rfl
    · cases htype : c.lockType <;> rfl
  have hsep : (program c).Triple (fun t => Sharing c t ∧ ∀ p, ownLock c p t = (none, false))
      (both c (lockAbort .fd1 .ok .shared false))
      (fun t => Sharing c t ∧ ∀ p, ownLock c p t =
        if p = .timer then (none, false) else (some .shared, false)) := by
    refine .separate (fun p op hop t e hsharing hstep => ?_) hrun
    rw [both] at hop
    split at hop
    · cases hop
    · next hp =>
      obtain ⟨op', hop', rfl⟩ := List.mem_map.mp hop
      obtain ⟨v, hv, hheld, hwaiting, hmode, hothers⟩ :=
        stepAlone_shared (v := t.part c.path1 p) hsharing.shared hop' hstep
      have hrunning : t.alarm ≠ .interrupting := by
        rw [hsharing.alarm_eq]
        exact Alarm.noConfusion
      refine ⟨t.put c.path1 p v, exec_onFile hrunning hv,
        hsharing.put hp hothers (hheld ▸ hmode), ?_, fun q hq =>
          ownLock_put hq (hothers _ (owner_ne hq))⟩
      rw [ownLock, ← Prod.eta e, ← hheld, ← hwaiting]
      simp [Store.put]
  refine hsep.mono ?_ ?_
  · rintro t ⟨halarm, hfree, hawake⟩
    have hnone : ∀ o, (t.locks c.path1).held o = none := fun o => by rw [hfree]; rfl
    refine ⟨⟨halarm, fun o => .inl (hnone o), fun o => ?_⟩, fun p => ?_⟩
    · rw [hnone o]
      exact (Option.some_ne_none _).symm
    rw [ownLock, hfree, hawake]
    rfl
  · rintro t ⟨hsharing, hlocks⟩
    refine ⟨hsharing.alarm_eq, hsharing.byRanks, fun p => ?_⟩
    have hp := congrArg Prod.snd (hlocks p)
    split at hp <;> exact hp

def Releases (c : Config φ) (op : Op φ) : Prop :=
  op = .onFile c.path1 (.unlock .fd1) ∨ op = .onFile c.path1 (.close .fd1)

omit [DecidableEq φ] in
theorem Releases.not_close (hne : c.path1 ≠ c.path2) {op : Op φ} (h : Releases c op) :
    op ≠ .onFile c.path2 (.close .fd2) := by
  rintro rfl
  rcases h with h | h <;> injection h with hfile hop <;> exact hne hfile.symm

def Releasing (c : Config φ) (alarm : Alarm) (todo : Process → List (Op φ)) (t : Store φ) : Prop :=
  At c alarm (fun l => ∀ o, l.held o = none ∨
    ∃ p, o = owner c.lockType p .fd1 ∧ ∃ op ∈ todo p, Releases c op) t ∧
  ∀ p, ∀ op ∈ todo p, Releases c op ∨ op = .onFile c.path2 (.close .fd2)

theorem Releasing.step {alarm : Alarm} {todo : Process → List (Op φ)} {op : Op φ}
    {ops : List (Op φ)} (hne : c.path1 ≠ c.path2) (h : Releasing c alarm todo t)
    (htodo : todo p = op :: ops) :
    ∃ t', exec c p op t = .next t' ∧ Releasing c alarm (Function.update todo p ops) t' := by
  obtain ⟨⟨halarm, hlocks, hawake⟩, hops⟩ := h
  have hrest : ∀ q, ∀ op ∈ Function.update todo p ops q,
      Releases c op ∨ op = .onFile c.path2 (.close .fd2) := by
    intro q op' hop'
    rcases update_cases (P := fun l => op' ∈ l) hop' with ⟨rfl, hmem⟩ | ⟨-, hmem⟩
    · exact hops _ op' (htodo ▸ List.mem_cons_of_mem op hmem)
    · exact hops q op' hmem
  have hput : ∀ file v, v.waiting = false → ∀ q, (t.put file p v).waiting q = false := by
    intro file v hv q
    rcases Decidable.em (q = p) with rfl | hq
    · exact (Function.update_self ..).trans hv
    · exact (Function.update_of_ne hq ..).trans (hawake q)
  have hhead : op ∈ todo p := htodo ▸ List.mem_cons_self
  rcases hops p op hhead with hrel | rfl
  · have hexec : exec c p op t = .next (t.put c.path1 p
        ⟨(t.locks c.path1).release (owner c.lockType p .fd1), t.waiting p⟩) := by
      rcases hrel with rfl | rfl <;> rfl
    refine ⟨_, hexec, ⟨halarm, fun o => ?_, hput _ _ (hawake p)⟩, hrest⟩
    rw [show (t.put c.path1 p _).locks c.path1 = _ from Function.update_self ..]
    rcases Decidable.em (o = owner c.lockType p .fd1) with rfl | ho
    · exact .inl (Function.update_self ..)
    · refine (hlocks o).imp (fun hnone => (Function.update_of_ne ho ..).trans hnone) ?_
      rintro ⟨q, rfl, op', hop', hrel'⟩
      have hq : q ≠ p := fun heq => ho (by rw [heq])
      exact ⟨q, rfl, op', by rwa [Function.update_of_ne hq], hrel'⟩
  · refine ⟨_, rfl, ⟨halarm, fun o => ?_, hput _ _ (hawake p)⟩, hrest⟩
    rw [show (t.put c.path2 p _).locks c.path1 = t.locks c.path1 from Function.update_of_ne hne ..]
    refine (hlocks o).imp_right ?_
    rintro ⟨q, rfl, op', hop', hrel'⟩
    refine ⟨q, rfl, op', ?_, hrel'⟩
    rcases Decidable.em (q = p) with rfl | hq
    · rw [Function.update_self]
      rw [htodo] at hop'
      exact (List.mem_cons.mp hop').resolve_left (hrel'.not_close hne)
    · rwa [Function.update_of_ne hq]

theorem release_triple {alarm : Alarm} {P : FileLocks Owner → Prop}
    {script : Process → List (Op φ)} (hne : c.path1 ≠ c.path2)
    (hops : ∀ p, ∀ op ∈ script p, Releases c op ∨ op = .onFile c.path2 (.close .fd2))
    (hall : ∀ l, P l → ∀ o, l.held o = none ∨
      ∃ p, o = owner c.lockType p .fd1 ∧ ∃ op ∈ script p, Releases c op) :
    (program c).Triple (At c alarm P) script (At c alarm (· = .free)) := by
  refine ⟨Releasing c alarm, ?_, ?_, ?_, ?_⟩
  · exact fun t ht => ⟨⟨ht.alarm_eq, hall _ ht.locks, ht.awake⟩, hops⟩
  · exact fun todo t p op ops h htodo => .inl (h.step hne htodo)
  · rintro todo t h ⟨p, hp⟩
    obtain ⟨op, ops, htodo⟩ := List.exists_cons_of_ne_nil hp
    obtain ⟨t', hexec, -⟩ := h.step hne htodo
    exact ⟨p, op, ops, t', htodo, hexec⟩
  · rintro t ⟨⟨halarm, hlocks, hawake⟩, -⟩
    refine ⟨halarm, FileLocks.ext (funext fun o => ?_), hawake⟩
    rcases hlocks o with hnone | ⟨p, -, op, hop, -⟩
    · exact hnone
    · cases hop

-- ---------------------------------------------------------------------------
-- The alarm
-- ---------------------------------------------------------------------------

/-- The first file with rank 0 as its exclusive holder. -/
def masterLocks (type : LockType) : FileLocks Owner :=
  FileLocks.free.grant (owner type .master .fd1) .exclusive (FileLocks.grants_free _ _)

theorem held_masterLocks (type : LockType) :
    (masterLocks type).held (owner type .master .fd1) = some .exclusive := Function.update_self ..

theorem masterLocks_refuses {type : LockType} (hp : p ≠ .master) (fd : Fd) (mode : LockMode) :
    ¬ (masterLocks type).Grants (owner type p fd) mode :=
  FileLocks.not_grants (held_masterLocks type) (owner_ne hp.symm)

theorem release_masterLocks {type : LockType} (hp : p ≠ .master) (fd : Fd) :
    (masterLocks type).release (owner type p fd) = masterLocks type :=
  FileLocks.release_of_none (FileLocks.held_none (held_masterLocks type) (owner_ne hp))

inductive Sleeping (c : Config φ) : List (Op φ) → List (Op φ) → Bool → Alarm → Prop
  | start : Sleeping c (waitForAlarm c .other) [.goOff] false .off
  | pending : Sleeping c (interruptedRequest c) [.goOff] false .pending
  | converted : Sleeping c (interruptedRequest c).tail [.goOff] false .pending
  | asleep : Sleeping c [.onFile c.path1 (.wait .fd1 .exclusive .intr)] [.goOff] true .pending
  | interrupted :
    Sleeping c [.onFile c.path1 (.wait .fd1 .exclusive .intr)] [] true .interrupting
  | done : Sleeping c [] [] false .interrupting

structure Waits (c : Config φ) (todo : Process → List (Op φ)) (t : Store φ) : Prop where
  master_idle : todo .master = []
  locks_eq : t.locks c.path1 = masterLocks c.lockType
  awake : ∀ p, p ≠ .other → t.waiting p = false
  sleeping : Sleeping c (todo .other) (todo .timer) (t.waiting .other) t.alarm

section
variable (type : LockType) (w interrupted : Bool)

theorem step_convert :
    step type .other interrupted (.convert .fd1 .exclusive) ⟨masterLocks type, w⟩ =
      .next ⟨masterLocks type, w⟩ := by
  have hne : owner type .other .fd1 ≠ owner type .master .fd1 := owner_ne Process.noConfusion
  have hnone : (masterLocks type).held (owner type .other .fd1) ≠ some .exclusive := by
    rw [FileLocks.held_none (held_masterLocks type) hne]
    exact (Option.some_ne_none _).symm
  cases type with
  | fcntl => rfl
  | flock =>
    simp only [step, if_neg hnone]
    rw [release_masterLocks Process.noConfusion]

theorem step_request :
    step type .other interrupted (.request .fd1 .exclusive false .intr) ⟨masterLocks type, w⟩ =
      .next ⟨masterLocks type, true⟩ := by
  rw [step]
  exact dif_neg (masterLocks_refuses Process.noConfusion .fd1 .exclusive)

theorem step_asleep :
    step type .other false (.wait .fd1 .exclusive .intr) ⟨masterLocks type, true⟩ = .blocked := by
  rw [step, if_neg (show ¬ true = false from Bool.noConfusion), if_neg Bool.noConfusion]
  exact dif_neg (masterLocks_refuses Process.noConfusion .fd1 .exclusive)

theorem step_interrupted :
    step type .other true (.wait .fd1 .exclusive .intr) ⟨masterLocks type, true⟩ =
      .next ⟨masterLocks type, false⟩ := rfl

end

theorem Waits.exec_other {op : LockOp} {w : Bool} {todo : Process → List (Op φ)}
    (h : Waits c todo t)
    (hstep : step c.lockType .other (t.interrupted .other) op
      ⟨masterLocks c.lockType, t.waiting .other⟩ = .next ⟨masterLocks c.lockType, w⟩) :
    exec c .other (.onFile c.path1 op) t =
      .next (t.put c.path1 .other ⟨masterLocks c.lockType, w⟩) := by
  rw [exec, Store.part, h.locks_eq, hstep]

theorem Waits.put {ops : List (Op φ)} {w : Bool} {todo : Process → List (Op φ)}
    (h : Waits c todo t) (hs : Sleeping c ops (todo .timer) w t.alarm) :
    Waits c (Function.update todo .other ops)
      (t.put c.path1 .other ⟨masterLocks c.lockType, w⟩) := by
  refine ⟨?_, Function.update_self .., fun q hq => ?_, ?_⟩
  · rw [Function.update_of_ne Process.noConfusion]
    exact h.master_idle
  · exact (Function.update_of_ne hq ..).trans (h.awake q hq)
  · rw [Function.update_self, Function.update_of_ne Process.noConfusion]
    simpa [Store.put] using hs

theorem Waits.timer {todo : Process → List (Op φ)} {op : Op φ} {ops : List (Op φ)}
    (hpatient : c.patient = true) (h : Waits c todo t) (htodo : todo .timer = op :: ops) :
    (∃ t', exec c .timer op t = .next t' ∧ Waits c (Function.update todo .timer ops) t') ∨
      exec c .timer op t = .blocked := by
  obtain ⟨hmaster, hlocks, hawake, hsleep⟩ := h
  rw [htodo] at hsleep
  generalize hother : todo .other = rest, hw : t.waiting .other = w, ha : t.alarm = alarm at hsleep
  cases hsleep with
  | start =>
    right
    simp only [exec, ha]
  | pending | converted =>
    right
    simp only [exec, ha, hw, hpatient, if_true, Bool.false_eq_true, if_false]
  | asleep =>
    refine .inl ⟨{ t with alarm := .interrupting }, ?_, ?_, hlocks, hawake, ?_⟩
    · simp only [exec, ha, hw, if_true]
    · rwa [Function.update_of_ne Process.noConfusion]
    · rw [Function.update_self, Function.update_of_ne Process.noConfusion, hother]
      simp only [hw]
      exact .interrupted

theorem Waits.other {todo : Process → List (Op φ)} {op : Op φ} {ops : List (Op φ)}
    (h : Waits c todo t) (htodo : todo .other = op :: ops) :
    (∃ t', exec c .other op t = .next t' ∧ Waits c (Function.update todo .other ops) t') ∨
      exec c .other op t = .blocked ∧ todo .timer = [.goOff] ∧
        exec c .timer .goOff t = .next { t with alarm := .interrupting } := by
  obtain ⟨hmaster, hlocks, hawake, hsleep⟩ := id h
  rw [htodo] at hsleep
  generalize htimer : todo .timer = rest, hw : t.waiting .other = w, ha : t.alarm = alarm at hsleep
  cases hsleep with
  | start =>
    refine .inl ⟨{ t with alarm := .pending }, rfl, ?_, hlocks, hawake, ?_⟩
    · rwa [Function.update_of_ne Process.noConfusion]
    · rw [Function.update_self, Function.update_of_ne Process.noConfusion, htimer]
      simp only [hw]
      exact .pending
  | pending =>
    refine .inl ⟨_, h.exec_other (step_convert ..), h.put ?_⟩
    rw [htimer, hw, ha]
    exact .converted
  | converted =>
    refine .inl ⟨_, h.exec_other (step_request ..), h.put ?_⟩
    rw [htimer, ha]
    exact .asleep
  | asleep =>
    refine .inr ⟨?_, rfl, by simp only [exec, ha, hw, if_true]⟩
    have hquiet : t.interrupted .other = false :=
      not_interrupted (by rw [ha]; exact Alarm.noConfusion) .other
    rw [exec, Store.part, hlocks, hw, hquiet, step_asleep]
  | interrupted =>
    have hinterrupted : t.interrupted .other = true := by simp [Store.interrupted, ha]
    refine .inl ⟨t.put c.path1 .other ⟨masterLocks c.lockType, false⟩, h.exec_other ?_, h.put ?_⟩
    · rw [hinterrupted, hw]
      exact step_interrupted _
    · rw [htimer, ha]
      exact .done

theorem alarm_triple (hpatient : c.patient = true) :
    (program c).Triple (At c .off (· = masterLocks c.lockType)) (waitForAlarm c)
      (At c .interrupting (· = masterLocks c.lockType)) := by
  refine ⟨Waits c, ?_, fun todo t p op ops h htodo => ?_, fun todo t h hsome => ?_, ?_⟩
  · rintro t ⟨halarm, hlocks, hawake⟩
    refine ⟨rfl, hlocks, fun p _ => hawake p, ?_⟩
    rw [halarm, hawake]
    exact .start
  · cases p with
    | master => cases h.master_idle.symm.trans htodo
    | other => exact (h.other htodo).imp_right And.left
    | timer => exact h.timer hpatient htodo
  · cases htodo : todo .other with
    | cons op ops =>
      rcases h.other htodo with ⟨t', hexec, -⟩ | ⟨-, htimer, hexec⟩
      · exact ⟨.other, op, ops, t', htodo, hexec⟩
      · exact ⟨.timer, .goOff, [], _, htimer, hexec⟩
    | nil =>
      have hsleep := h.sleeping
      rw [htodo] at hsleep
      generalize htimer : todo .timer = rest at hsleep
      generalize t.waiting .other = w at hsleep
      generalize t.alarm = alarm at hsleep
      obtain ⟨p, hp⟩ := hsome
      cases hsleep with
      | done =>
        cases p with
        | master => exact absurd h.master_idle hp
        | other => exact absurd htodo hp
        | timer => exact absurd htimer hp
  · rintro t ⟨-, hlocks, hawake, hsleep⟩
    generalize hw : t.waiting .other = w, ha : t.alarm = alarm at hsleep
    cases hsleep with
    | done =>
      refine ⟨ha, hlocks, fun p => ?_⟩
      rcases Decidable.em (p = .other) with rfl | hp
      · exact hw
      · exact hawake p hp

-- ---------------------------------------------------------------------------
-- The whole test
-- ---------------------------------------------------------------------------

theorem work_takes (type : LockType) :
    work type .master (lockAbort .fd1 .ok .exclusive true) ⟨.free, false⟩ =
        some ⟨masterLocks type, false⟩ ∧
      work type .master (lockAbort .fd1 .ok .exclusive false) ⟨.free, false⟩ =
        some ⟨masterLocks type, false⟩ ∧
      work type .master (.unlock .fd1 :: lockAbort .fd1 .ok .exclusive false)
        ⟨masterLocks type, false⟩ = some ⟨masterLocks type, false⟩ := by
  cases type <;> decide +kernel

theorem work_refused (type : LockType) (mode : LockMode) :
    work type .other (lockAbort .fd1 .wouldBlock mode true) ⟨masterLocks type, false⟩ =
      some ⟨masterLocks type, false⟩ := by
  cases type <;> cases mode <;> decide +kernel

omit [DecidableEq φ] in
theorem both_releases (hp : p ≠ .timer) :
    ∃ op ∈ both c [.unlock .fd1] p, Releases c op :=
  ⟨.onFile c.path1 (.unlock .fd1), by simp [both, hp], .inl rfl⟩

theorem masterLocks_byMaster (type : LockType) (o : Owner) :
    (masterLocks type).held o = none ∨ o = owner type .master .fd1 := by
  rcases Decidable.em (o = owner type .master .fd1) with ho | ho
  · exact .inr ho
  · exact .inl (FileLocks.held_none (held_masterLocks type) ho)

def beforeAlarm (c : Config φ) : List (Process → List (Op φ)) :=
  test1node c :: test2nodes1file c ++
    [unlockAndClose c, solo c .master (lockAbort .fd1 .ok .exclusive false)]

theorem seq_beforeAlarm (hne : c.path1 ≠ c.path2) :
    (program c).Seq (· = initial) (beforeAlarm c) (At c .off (· = masterLocks c.lockType)) := by
  refine .cons (test1node_triple hne) <| .cons shared_triple <| .cons (release_triple hne ?_ ?_) <|
    .cons (solo_triple (work_takes _).1) <| .cons (solo_triple (work_refused _ _)) <|
    .cons (solo_triple (work_takes _).2.2) <| .cons (solo_triple (work_refused _ _)) <|
    .cons (release_triple hne ?_ ?_) <| .cons (solo_triple (work_takes _).2.1) <|
    .nil fun t ht => ht
  · intro p op hop
    rw [both] at hop
    split at hop
    · cases hop
    · obtain rfl := List.mem_singleton.mp hop
      exact .inl (.inl rfl)
  · intro l hl o
    refine (hl o).imp_right ?_
    rintro ⟨p, hp, rfl⟩
    exact ⟨p, rfl, both_releases hp⟩
  · intro p op hop
    left
    cases p with
    | master => simpa [unlockAndClose, Releases] using hop
    | other => exact .inr (List.mem_singleton.mp hop)
    | timer => cases hop
  · rintro l rfl o
    refine (masterLocks_byMaster c.lockType o).imp_right fun ho => ⟨.master, ho, ?_⟩
    exact ⟨_, List.mem_cons_self, .inl rfl⟩

theorem seq_scripts (hne : c.path1 ≠ c.path2) (hpatient : c.patient = true) :
    (program c).Seq (· = initial) (scripts c) (At c .interrupting (· = .free)) := by
  have hscripts : scripts c = beforeAlarm c ++ [waitForAlarm c, unlockAndCloseBoth c] := rfl
  rw [hscripts]
  refine (seq_beforeAlarm hne).append ?_
  refine .cons (alarm_triple hpatient) <| .cons (release_triple hne ?_ ?_) <| .nil fun t ht => ht
  · intro p op hop
    cases p with
    | master => simpa [unlockAndCloseBoth, Releases, or_assoc] using hop
    | other =>
      have hops : op = .onFile c.path1 (.close .fd1) ∨ op = .onFile c.path2 (.close .fd2) := by
        simpa [unlockAndCloseBoth] using hop
      exact hops.imp_left .inr
    | timer => cases hop
  · rintro l rfl o
    refine (masterLocks_byMaster c.lockType o).imp_right fun ho => ⟨.master, ho, ?_⟩
    exact ⟨_, List.mem_cons_self, .inl rfl⟩

-- ---------------------------------------------------------------------------
-- Runs that go wrong
-- ---------------------------------------------------------------------------

/-- The first test takes shared locks and gives them back, and then tries an exclusive one. -/
theorem exists_first (type : LockType) : ∃ first rest : List LockOp,
    (test1node1file type).flatten = first ++ (lockAbort .fd1 .ok .exclusive true ++ rest) ∧
      ∀ p, work type p first ⟨.free, false⟩ = some ⟨.free, false⟩ :=
  ⟨_, _, rfl, fun p => work_section type p _ List.mem_cons_self⟩

/-- Where both ranks have the same file for themselves, one can come in the other's way. -/
theorem exists_failed (hsame : c.path1 = c.path2) :
    ∃ s, (flockUnitTest c).Reachable s ∧ s.failed = true := by
  obtain ⟨first, rest, hflatten, hfirst⟩ := exists_first c.lockType
  have hscript : ∀ p, p ≠ .timer → (program c).script 0 p = first.map (.onFile c.path1) ++
      ((lockAbort .fd1 .ok .exclusive true).map (.onFile c.path1) ++
        rest.map (.onFile c.path1)) := by
    intro p hp
    have hwhich : c.which p = c.path1 := by
      rw [Config.which, ← hsame, ite_self]
    have hhead : (program c).script 0 p = test1node c p := rfl
    rw [hhead, test1node, if_neg hp, hflatten, hwhich, List.map_append, List.map_append]
  have hstart : (flockUnitTest c).Reachable ((program c).start initial) := .init ⟨initial, rfl, rfl⟩
  obtain ⟨s₁, hs₁, hrun₁, htodo₁, hstore₁⟩ := Phased.reachable_alone (p := Process.other) hstart
    rfl (hscript .other Process.noConfusion) (alone_work Alarm.noConfusion (hfirst .other))
  have hpart₁ : s₁.store.part c.path1 .master = ⟨.free, false⟩ := by
    rw [hstore₁]
    simp [Store.part, Store.put, Phased.start, initial]
  -- rank 0 comes to hold the file that rank 1 expects to be free
  have htakes : work c.lockType .master (first ++ lockAbort .fd1 .ok .exclusive true)
      (s₁.store.part c.path1 .master) = some ⟨masterLocks c.lockType, false⟩ := by
    have hmaster : first.foldlM (stepAlone c.lockType .master) ⟨.free, false⟩ =
      some ⟨.free, false⟩ := hfirst .master
    rw [hpart₁, work, List.foldlM_append, hmaster]
    exact (work_takes c.lockType).1
  have hmaster : s₁.todo .master = (first ++ lockAbort .fd1 .ok .exclusive true).map
      (.onFile c.path1) ++ rest.map (.onFile c.path1) := by
    rw [htodo₁, Function.update_of_ne Process.noConfusion, List.map_append, List.append_assoc]
    exact hscript .master Process.noConfusion
  have halarm₁ : s₁.store.alarm ≠ .interrupting := by
    rw [hstore₁]
    exact Alarm.noConfusion
  obtain ⟨s₂, hs₂, hrun₂, htodo₂, hstore₂⟩ :=
    Phased.reachable_alone hs₁ hrun₁ hmaster (alone_work halarm₁ htakes)
  have hlocks₂ : s₂.store.locks c.path1 = masterLocks c.lockType := by
    rw [hstore₂]
    exact Function.update_self ..
  have hawake₂ : s₂.store.waiting .other = false := by
    rw [hstore₂, hstore₁]
    simp [Store.put]
  have halarm₂ : s₂.store.interrupted .other = false := by
    rw [hstore₂, hstore₁]
    rfl
  have hother : s₂.todo .other = [.onFile c.path1 (.convert .fd1 .exclusive)] ++
      .onFile c.path1 (.request .fd1 .exclusive true .ok) :: rest.map (.onFile c.path1) := by
    rw [htodo₂, Function.update_of_ne Process.noConfusion, htodo₁, Function.update_self]
    rfl
  have hconvert : exec c .other (.onFile c.path1 (.convert .fd1 .exclusive)) s₂.store =
      .next (s₂.store.put c.path1 .other ⟨masterLocks c.lockType, false⟩) := by
    rw [exec, Store.part, hlocks₂, hawake₂, step_convert]
  obtain ⟨s₃, hs₃, hrun₃, htodo₃, hstore₃⟩ :=
    Phased.reachable_alone hs₂ hrun₂ hother (Phased.alone_cons hconvert)
  have hrefused : exec c .other (.onFile c.path1 (.request .fd1 .exclusive true .ok)) s₃.store =
      .failed := by
    have hnot : ¬ (masterLocks c.lockType).Grants (owner c.lockType .other .fd1) .exclusive :=
      masterLocks_refuses Process.noConfusion .fd1 .exclusive
    rw [hstore₃, exec, part_put]
    simp [step, hnot, returns]
  have hnext : s₃.todo .other =
      .onFile c.path1 (.request .fd1 .exclusive true .ok) :: rest.map (.onFile c.path1) := by
    rw [htodo₃, Function.update_self]
  exact ⟨_, hs₃.step (.fail hrun₃ hnext hrefused), rfl⟩

theorem exists_deadlocked (hne : c.path1 ≠ c.path2) (himpatient : c.patient = false) :
    ∃ s, (flockUnitTest c).Reachable s ∧
      (flockUnitTest c).Deadlocked (program c).Finished s := by
  have hseq : (Phased.ofList (beforeAlarm c ++ [waitForAlarm c, unlockAndCloseBoth c])
      (exec c)).Seq (· = initial) (beforeAlarm c) (At c .off (· = masterLocks c.lockType)) :=
    seq_beforeAlarm hne
  obtain ⟨t, hreach, halarm, hlocks, hawake⟩ :=
    hseq.reachable_append (List.cons_ne_nil _ _) rfl
  have hstart : (flockUnitTest c).Reachable
      ⟨fun _ => (beforeAlarm c).length, waitForAlarm c, t, false⟩ := by
    have hscript := Phased.ofList_script (beforeAlarm c) [unlockAndCloseBoth c] (waitForAlarm c)
      (exec c)
    rwa [Phased.atPhase, hscript] at hreach
  -- the alarm is set and goes off, and only then does rank 1 make its request
  have hset : (program c).alone .other [.setAlarm] t = some { t with alarm := .pending } := rfl
  have hlost : exec c .timer .goOff { t with alarm := .pending } =
      .next { t with alarm := .handled } := by
    simp only [exec, hawake, himpatient, Bool.false_eq_true, if_false]
  have hoff : (program c).alone .timer [.goOff] { t with alarm := .pending } =
      some { t with alarm := .handled } := Phased.alone_cons hlost
  have hasks : (program c).alone .other ([LockOp.convert .fd1 .exclusive,
      .request .fd1 .exclusive false .intr].map (.onFile c.path1)) { t with alarm := .handled } =
        some (Store.put { t with alarm := .handled } c.path1 .other
          ⟨masterLocks c.lockType, true⟩) := by
    refine alone_work Alarm.noConfusion ?_
    have hpart : Store.part { t with alarm := .handled } c.path1 .other =
        ⟨masterLocks c.lockType, false⟩ := by
      rw [Store.part, hlocks, hawake]
    rw [hpart]
    cases c.lockType <;> decide +kernel
  have hrest : Function.update (Function.update (waitForAlarm c) .other (interruptedRequest c))
      .timer [] .other = [LockOp.convert .fd1 .exclusive,
        .request .fd1 .exclusive false .intr].map (.onFile c.path1) ++
          [.onFile c.path1 (.wait .fd1 .exclusive .intr)] := rfl
  have hwaits : waitForAlarm c .other = [.setAlarm] ++ interruptedRequest c := rfl
  have hgoes : Function.update (waitForAlarm c) .other (interruptedRequest c) .timer =
      [.goOff] ++ [] := rfl
  have hsleeps := Phased.reachable_doing (Phased.reachable_doing
    (Phased.reachable_doing hstart hwaits hset) hgoes hoff) hrest hasks
  generalize hasleep : Function.update (Function.update (Function.update (waitForAlarm c) .other
    (interruptedRequest c)) .timer []) .other
      [.onFile c.path1 (.wait .fd1 .exclusive .intr)] = todo at hsleeps
  have hother : todo .other = [.onFile c.path1 (.wait .fd1 .exclusive .intr)] := by
    rw [← hasleep, Function.update_self]
  have hnil : ∀ p, p ≠ .other → todo p = [] := by
    intro p hp
    rw [← hasleep, Function.update_of_ne hp]
    cases p with
    | master => rfl
    | timer => rfl
    | other => exact absurd rfl hp
  have hblocked : ∀ p op ops, todo p = op :: ops → exec c p op (Store.put
      { t with alarm := .handled } c.path1 .other ⟨masterLocks c.lockType, true⟩) = .blocked := by
    intro p op ops hp
    rcases Decidable.em (p = .other) with rfl | hne
    · cases hother.symm.trans hp
      rw [exec, part_put, not_interrupted Alarm.noConfusion, step_asleep]
    · cases (hnil p hne).symm.trans hp
  refine ⟨_, hsleeps, fun hfinished => ?_, fun s' hstep => ?_⟩
  · cases hother.symm.trans (hfinished .other).2
  · cases hstep with
    | next hrun htodo hexec => cases (hblocked _ _ _ htodo).symm.trans hexec
    | fail hrun htodo hexec => cases (hblocked _ _ _ htodo).symm.trans hexec
    | pass hrun hlast hall =>
      rcases hall .other with hlt | ⟨-, hnone⟩
      · exact Nat.lt_irrefl _ hlt
      · cases hother.symm.trans hnone

/-- No run aborts or hangs exactly when the two paths are different files and the alarm
never goes off before rank 1 sleeps. On one file some run aborts, for either type of lock. -/
theorem flockUnitTest_iff (c : Config φ) :
    ((∀ s, (flockUnitTest c).Reachable s → s.failed = false ∧
        ¬ (flockUnitTest c).Deadlocked (program c).Finished s) ↔
      c.path1 ≠ c.path2 ∧ c.patient = true) ∧
    (c.path1 = c.path2 → ∃ s, (flockUnitTest c).Reachable s ∧ s.failed = true) := by
  have hne : Nonempty Process := ⟨.master⟩
  refine ⟨⟨fun hgood => ?_, ?_⟩, exists_failed⟩
  · have hpaths : c.path1 ≠ c.path2 := by
      intro hsame
      obtain ⟨s, hs, hfailed⟩ := exists_failed hsame
      rw [(hgood s hs).1] at hfailed
      cases hfailed
    refine ⟨hpaths, ?_⟩
    by_contra himpatient
    obtain ⟨s, hs, hdead⟩ := exists_deadlocked hpaths (Bool.eq_false_of_not_eq_true himpatient)
    exact (hgood s hs).2 hdead
  · rintro ⟨hpaths, hpatient⟩ s hs
    exact (seq_scripts hpaths hpatient).correct hs

end Ocfs2Test.FlockUnitTest
