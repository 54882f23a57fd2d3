import Ocfs2Test.LvbTorture.Model

/-!
# Every read of the LVB is the expected one

The invariant ties a rank's place to the number of barriers it has left and to
the lock it holds, and the LVB to the ranks' progress: iteration `k` has been
written by its writer exactly when the LVB is above `k`. The barriers then
bound the LVB from both sides at every read. The second barrier plays no part.
-/

namespace Ocfs2Test.LvbTorture

open Lib

/-- Barriers a rank has left when it starts iteration `iter`. -/
def roundStart (secondBarrier : Bool) (iter : Nat) : Nat :=
  if secondBarrier then 1 + 2 * iter else 1 + iter

def Proc.left (secondBarrier : Bool) (x : Proc) : Nat :=
  match x.pc with
  | .clearLock | .clearWrite | .clearUnlock | .prepBarrier | .inPrepBarrier => 0
  | .test | .done | .barrier | .inBarrier => roundStart secondBarrier x.iter
  | .lock =>
    match x.level with
    | .ex => roundStart secondBarrier x.iter
    | .pr => roundStart secondBarrier x.iter + 1
  | .readLvb | .writeLvb | .unlock | .endBarrier | .inEndBarrier | .aborted =>
    roundStart secondBarrier x.iter + 1

def Proc.inside (x : Proc) : Nat :=
  match x.pc with
  | .inPrepBarrier | .inBarrier | .inEndBarrier => 1
  | _ => 0

def Proc.holds (x : Proc) : Option Level :=
  match x.pc with
  | .clearWrite | .clearUnlock => some .ex
  | .barrier | .inBarrier =>
    match x.level with
    | .ex => some .ex
    | .pr => none
  | .readLvb | .writeLvb | .unlock => some x.level
  | _ => none

/-- The rank has passed its write of iteration `k`. -/
def Proc.Wrote (x : Proc) (k : Nat) : Prop :=
  k < x.iter ∨ k = x.iter ∧ x.level = .ex ∧
    (x.pc = .unlock ∨ x.pc = .endBarrier ∨ x.pc = .inEndBarrier)

def Turn (p : Fin n) (x : Proc) : Prop := x.level = .ex ↔ x.iter % n = p.val

/-- What the locals of rank `p` are at each place; `aborted` is not one. -/
def LocalsOk (cfg : Config) (secondBarrier : Bool) (p : Fin n) (x : Proc) : Prop :=
  match x.pc with
  | .clearLock | .clearWrite | .clearUnlock => x.iter = 0 ∧ p.val = 0
  | .prepBarrier | .inPrepBarrier => x.iter = 0
  | .test => x.iter ≤ cfg.maxIter
  | .done => x.iter = cfg.maxIter
  | .lock | .barrier | .inBarrier => x.iter < cfg.maxIter ∧ Turn p x ∧ x.expected = x.iter
  | .readLvb => x.iter < cfg.maxIter ∧ Turn p x ∧ (x.level = .ex → x.toWrite = x.iter + 1) ∧
      x.expected = match x.level with | .ex => x.iter | .pr => x.iter + 1
  | .writeLvb => x.iter < cfg.maxIter ∧ Turn p x ∧ x.level = .ex ∧ x.toWrite = x.iter + 1
  | .unlock => x.iter < cfg.maxIter ∧ Turn p x
  | .endBarrier | .inEndBarrier => secondBarrier = true ∧ x.iter < cfg.maxIter ∧ Turn p x
  | .aborted => False

/-- The part of the invariant that speaks of one rank only. -/
structure RankOk (cfg : Config) (secondBarrier : Bool) (s : State n) (p : Fin n) : Prop where
  locals : LocalsOk cfg secondBarrier p (s.procs p)
  left : s.barrier.left p = (s.procs p).left secondBarrier
  entered : s.barrier.entered p = (s.procs p).left secondBarrier + (s.procs p).inside
  held : s.held p = (s.procs p).holds

def Exclusive (held : Fin n → Option Level) : Prop :=
  ∀ p q, held p = some .ex → q ≠ p → held q = none

def Cleared (s : State n) : Prop :=
  ∀ p : Fin n, p.val = 0 → (s.procs p).pc ≠ .clearLock ∧ (s.procs p).pc ≠ .clearWrite

structure Inv (cfg : Config) (secondBarrier : Bool) (s : State cfg.numProcs) : Prop where
  rank : ∀ p, RankOk cfg secondBarrier s p
  excl : Exclusive s.held
  synced : s.barrier.Synced
  lvb : Cleared s → ∀ (p : Fin cfg.numProcs) k, k % cfg.numProcs = p.val →
    ((s.procs p).Wrote k ↔ k < cfg.byteOrder.fromBe s.lvb)

-- ---------------------------------------------------------------------------
-- What a step changes
-- ---------------------------------------------------------------------------

/-- The steps of rank `p`, one constructor for each call it can return from. -/
inductive Move (cfg : Config) (b : Bool) (s : State cfg.numProcs) (p : Fin cfg.numProcs) :
    State cfg.numProcs → Prop
  | clearLock : (s.procs p).pc = .clearLock → Grantable s.held .ex →
      Move cfg b s p ((s.setHeld p (some .ex)).setProc p { s.procs p with pc := .clearWrite })
  | clearWrite : (s.procs p).pc = .clearWrite →
      Move cfg b s p ({ s with lvb := 0 }.setProc p { s.procs p with pc := .clearUnlock })
  | clearUnlock : (s.procs p).pc = .clearUnlock →
      Move cfg b s p ((s.setHeld p none).setProc p { s.procs p with pc := .prepBarrier })
  | prepEnter : (s.procs p).pc = .prepBarrier →
      Move cfg b s p ((s.enter p).setProc p { s.procs p with pc := .inPrepBarrier })
  | prepLeave : (s.procs p).pc = .inPrepBarrier → s.barrier.Open p →
      Move cfg b s p ((s.leave p).setProc p { s.procs p with pc := .test })
  | beginEx : (s.procs p).pc = .test → (s.procs p).iter < cfg.maxIter →
      (s.procs p).iter % cfg.numProcs = p.val →
      Move cfg b s p (s.setProc p
        { s.procs p with expected := (s.procs p).iter, level := .ex, pc := .lock })
  | beginPr : (s.procs p).pc = .test → (s.procs p).iter < cfg.maxIter →
      (s.procs p).iter % cfg.numProcs ≠ p.val →
      Move cfg b s p (s.setProc p
        { s.procs p with expected := (s.procs p).iter, level := .pr, pc := .barrier })
  | finish : (s.procs p).pc = .test → cfg.maxIter ≤ (s.procs p).iter →
      Move cfg b s p (s.setProc p { s.procs p with pc := .done })
  | enter : (s.procs p).pc = .barrier →
      Move cfg b s p ((s.enter p).setProc p { s.procs p with pc := .inBarrier })
  | leavePr : (s.procs p).pc = .inBarrier → s.barrier.Open p → (s.procs p).level = .pr →
      Move cfg b s p ((s.leave p).setProc p { s.procs p with pc := .lock })
  | leaveEx : (s.procs p).pc = .inBarrier → s.barrier.Open p → (s.procs p).level = .ex →
      Move cfg b s p ((s.leave p).setProc p
        { s.procs p with pc := .readLvb, toWrite := (s.procs p).iter + 1 })
  | lockPr : (s.procs p).pc = .lock → Grantable s.held .pr → (s.procs p).level = .pr →
      Move cfg b s p ((s.setHeld p (some .pr)).setProc p
        { s.procs p with pc := .readLvb, expected := (s.procs p).expected + 1 })
  | lockEx : (s.procs p).pc = .lock → Grantable s.held .ex → (s.procs p).level = .ex →
      Move cfg b s p ((s.setHeld p (some .ex)).setProc p { s.procs p with pc := .barrier })
  | readPr : (s.procs p).pc = .readLvb → cfg.byteOrder.fromBe s.lvb = (s.procs p).expected →
      (s.procs p).level = .pr → Move cfg b s p (s.setProc p { s.procs p with pc := .unlock })
  | readEx : (s.procs p).pc = .readLvb → cfg.byteOrder.fromBe s.lvb = (s.procs p).expected →
      (s.procs p).level = .ex → Move cfg b s p (s.setProc p { s.procs p with pc := .writeLvb })
  | readBad : (s.procs p).pc = .readLvb → cfg.byteOrder.fromBe s.lvb ≠ (s.procs p).expected →
      Move cfg b s p (s.setProc p { s.procs p with pc := .aborted })
  | write : (s.procs p).pc = .writeLvb →
      Move cfg b s p ({ s with lvb := cfg.byteOrder.toBe (s.procs p).toWrite }.setProc p
        { s.procs p with pc := .unlock })
  | unlock : (s.procs p).pc = .unlock → b = true →
      Move cfg b s p ((s.setHeld p none).setProc p { s.procs p with pc := .endBarrier })
  | unlockNext : (s.procs p).pc = .unlock → b = false →
      Move cfg b s p ((s.setHeld p none).setProc p
        { s.procs p with pc := .test, iter := (s.procs p).iter + 1 })
  | endEnter : (s.procs p).pc = .endBarrier →
      Move cfg b s p ((s.enter p).setProc p { s.procs p with pc := .inEndBarrier })
  | endLeave : (s.procs p).pc = .inEndBarrier → s.barrier.Open p →
      Move cfg b s p ((s.leave p).setProc p
        { s.procs p with pc := .test, iter := (s.procs p).iter + 1 })

section
variable {cfg : Config} {b : Bool} {s s' : State cfg.numProcs} {p q : Fin cfg.numProcs}

theorem next_move (h : next cfg b s p = some s') : Move cfg b s p s' := by
  unfold next beginIter at h
  simp only at h
  split at h <;> (repeat' split at h) <;>
    simp only [Option.some.injEq, reduceCtorEq] at h <;> subst h
  · exact .clearLock ‹_› ‹_›
  · exact .clearWrite ‹_›
  · exact .clearUnlock ‹_›
  · exact .prepEnter ‹_›
  · exact .prepLeave ‹_› ‹_›
  · exact .beginEx ‹_› ‹_› ‹_›
  · exact .beginPr ‹_› ‹_› ‹_›
  · exact .finish ‹_› (Nat.le_of_not_lt ‹_›)
  · exact .enter ‹_›
  · exact .leavePr ‹_› ‹_› ‹_›
  · exact .leaveEx ‹_› ‹_› ‹_›
  · rename_i hl
    exact .lockPr ‹_› (hl ▸ ‹Grantable _ _›) hl
  · rename_i hl
    exact .lockEx ‹_› (hl ▸ ‹Grantable _ _›) hl
  · exact .readPr ‹_› ‹_› ‹_›
  · exact .readEx ‹_› ‹_› ‹_›
  · exact .readBad ‹_› ‹_›
  · exact .write ‹_›
  · exact .unlock ‹_› ‹_›
  · exact .unlockNext ‹_› (Bool.eq_false_iff.mpr ‹_›)
  · exact .endEnter ‹_›
  · exact .endLeave ‹_› ‹_›

/-- A step of `p` touches nothing of another rank. -/
theorem Move.frame (h : Move cfg b s p s') (hq : q ≠ p) :
    s'.procs q = s.procs q ∧ s'.barrier.left q = s.barrier.left q ∧
      s'.barrier.entered q = s.barrier.entered q ∧ s'.held q = s.held q := by
  cases h <;> simp [State.setProc, State.setHeld, State.enter, State.leave, Barrier.enter,
    Barrier.leave, hq]

theorem Move.frame_rankOk (h : Move cfg b s p s') (hq : q ≠ p) (hr : RankOk cfg b s q) :
    RankOk cfg b s' q := by
  obtain ⟨hproc, hleft, hent, hheld⟩ := h.frame hq
  exact ⟨hproc ▸ hr.locals, by rw [hleft, hproc, hr.left], by rw [hent, hproc, hr.entered],
    by rw [hheld, hproc, hr.held]⟩

-- ---------------------------------------------------------------------------
-- Barriers and progress
-- ---------------------------------------------------------------------------

theorem roundStart_mono (h : i ≤ j) : roundStart b i ≤ roundStart b j := by
  unfold roundStart
  split <;> omega

theorem RankOk.entered_le (h : RankOk cfg b s p) :
    s.barrier.entered p ≤ roundStart b ((s.procs p).iter + 1) := by
  have hl := h.locals
  rw [h.entered]
  cases hpc : (s.procs p).pc <;> cases b <;> cases hlv : (s.procs p).level <;>
    simp_all [LocalsOk, Proc.left, Proc.inside, roundStart] <;> omega

theorem RankOk.left_of_wrote (h : RankOk cfg b s p) (hw : (s.procs p).Wrote k) :
    roundStart b k + 1 ≤ s.barrier.left p := by
  have hl := h.locals
  rw [h.left]
  rcases hw with hk | ⟨rfl, _, hpc | hpc | hpc⟩
  · cases hpc : (s.procs p).pc <;> cases b <;> cases hlv : (s.procs p).level <;>
      simp_all [LocalsOk, Proc.left, roundStart] <;> omega
  all_goals simp [Proc.left, hpc]

/-- The writer of its iteration that has begun the first barrier and does not
hold EX has written and dropped the lock. -/
theorem RankOk.wrote (h : RankOk cfg b s p) (hturn : (s.procs p).iter % cfg.numProcs = p.val)
    (hent : roundStart b (s.procs p).iter + 1 ≤ s.barrier.entered p)
    (hfree : s.held p ≠ some .ex) : (s.procs p).Wrote (s.procs p).iter := by
  have hl := h.locals
  rw [h.entered] at hent
  rw [h.held] at hfree
  have hlv : Turn p (s.procs p) → (s.procs p).level = .ex := fun ht => ht.mpr hturn
  refine .inr ⟨rfl, ?_⟩
  cases hpc : (s.procs p).pc <;> cases b <;>
    simp_all [LocalsOk, Proc.left, Proc.inside, Proc.holds, roundStart]

/-- Once somebody is past the first barrier of iteration `i`, everybody has
reached that iteration. -/
theorem Inv.iter_ge (hi : Inv cfg b s) (hp : roundStart b i + 1 ≤ s.barrier.left p) :
    i ≤ (s.procs q).iter := by
  have hs := hi.synced p q
  have he := (hi.rank q).entered_le
  by_contra hlt
  have := roundStart_mono (b := b) (show (s.procs q).iter + 1 ≤ i by omega)
  omega

theorem Inv.cleared (hi : Inv cfg b s) (hp : 1 ≤ s.barrier.left p) : Cleared s := by
  intro q _
  have hs := hi.synced p q
  have he := (hi.rank q).entered
  constructor <;> intro hpc <;> simp [Proc.left, Proc.inside, hpc] at he <;> omega

def writer (n k : Nat) (hn : 0 < n) : Fin n := ⟨k % n, Nat.mod_lt k hn⟩

theorem readEx_lvb (hi : Inv cfg b s)
    (hp : (s.procs p).pc = .readLvb ∨ (s.procs p).pc = .writeLvb)
    (hex : (s.procs p).level = .ex) : cfg.byteOrder.fromBe s.lvb = (s.procs p).iter := by
  have hr := hi.rank p
  have hleft : s.barrier.left p = roundStart b (s.procs p).iter + 1 := by
    rw [hr.left]
    rcases hp with hp | hp <;> simp [Proc.left, hp]
  have hturn : (s.procs p).iter % cfg.numProcs = p.val := by
    have hl := hr.locals
    rcases hp with hp | hp <;> simp_all [LocalsOk, Turn]
  have hlvb := hi.lvb (hi.cleared (p := p) (by omega))
  have hle : ¬ (s.procs p).iter < cfg.byteOrder.fromBe s.lvb := by
    rw [← hlvb p _ hturn]
    rcases hp with hp | hp <;> simp [Proc.Wrote, hp]
  rcases Nat.eq_zero_or_pos (s.procs p).iter with hz | hpos
  · omega
  · -- the writer of the iteration before is one iteration further, so it has written
    let q := writer cfg.numProcs ((s.procs p).iter - 1) p.pos
    have hq : (s.procs q).Wrote ((s.procs p).iter - 1) := by
      have := hi.iter_ge (q := q) (Nat.le_of_eq hleft.symm)
      exact .inl (by omega)
    have := (hlvb q _ rfl).mp hq
    omega

theorem readPr_lvb (hi : Inv cfg b s) (hp : (s.procs p).pc = .readLvb)
    (hpr : (s.procs p).level = .pr) :
    cfg.byteOrder.fromBe s.lvb = (s.procs p).iter + 1 := by
  have hr := hi.rank p
  have hleft : s.barrier.left p = roundStart b (s.procs p).iter + 1 := by
    simp [hr.left, Proc.left, hp]
  have hent : s.barrier.entered p = roundStart b (s.procs p).iter + 1 := by
    simp [hr.entered, Proc.left, Proc.inside, hp]
  have hlvb := hi.lvb (hi.cleared (p := p) (by omega))
  have hlt : (s.procs p).iter < cfg.byteOrder.fromBe s.lvb := by
    let w := writer cfg.numProcs (s.procs p).iter p.pos
    have hne : p ≠ w := by
      intro h
      have hl := hr.locals
      simp only [LocalsOk, hp, Turn, hpr, reduceCtorEq, false_iff] at hl
      exact hl.2.1 (congrArg Fin.val h).symm
    refine (hlvb w _ rfl).mp ?_
    have hge := hi.iter_ge (q := w) (Nat.le_of_eq hleft.symm)
    rcases Nat.lt_or_eq_of_le hge with hgt | heq
    · exact .inl hgt
    · have hfree : s.held w ≠ some .ex := by
        intro h
        have := hi.excl w p h hne
        simp [hr.held, Proc.holds, hp] at this
      rw [heq]
      exact (hi.rank w).wrote (by rw [← heq]; rfl) (heq ▸ hleft ▸ hi.synced p w) hfree
  have hle : ¬ (s.procs p).iter + 1 < cfg.byteOrder.fromBe s.lvb := by
    let w := writer cfg.numProcs ((s.procs p).iter + 1) p.pos
    rw [← hlvb w _ rfl]
    intro hw
    have := (hi.rank w).left_of_wrote hw
    have := hi.synced w p
    have := roundStart_mono (b := b) (show (s.procs p).iter ≤ (s.procs p).iter + 1 by omega)
    have : roundStart b (s.procs p).iter < roundStart b ((s.procs p).iter + 1) := by
      unfold roundStart
      split <;> omega
    omega
  omega

theorem Inv.read_expected (hi : Inv cfg b s) (hp : (s.procs p).pc = .readLvb) :
    cfg.byteOrder.fromBe s.lvb = (s.procs p).expected := by
  have hl := (hi.rank p).locals
  cases hlv : (s.procs p).level with
  | ex => simp_all [LocalsOk, readEx_lvb hi (.inl hp) hlv]
  | pr => simp_all [LocalsOk, readPr_lvb hi hp hlv]

-- ---------------------------------------------------------------------------
-- The invariant is kept
-- ---------------------------------------------------------------------------

theorem Move.rankOk (h : Move cfg b s p s') (hi : Inv cfg b s) : RankOk cfg b s' p := by
  obtain ⟨hl, hleft, hent, hheld⟩ := hi.rank p
  cases h with
  | readBad hpc hbad => exact absurd (hi.read_expected hpc) hbad
  | write hpc =>
    simp only [LocalsOk, hpc, Proc.left, Proc.inside, Proc.holds] at hl hleft hent hheld
    constructor <;>
      simp [State.setProc, LocalsOk, Proc.left, Proc.inside, Proc.holds, hleft, hent, hheld, hl]
    simpa [Turn, hl.2.2.1] using hl.2.1
  | _ =>
    constructor <;> simp_all [State.setProc, State.setHeld, State.enter, State.leave,
      Barrier.enter, Barrier.leave, LocalsOk, Proc.left, Proc.inside, Proc.holds, Turn,
      roundStart] <;> omega

theorem Grantable.exclusive {held : Fin n → Option Level} {p : Fin n} (hg : Grantable held level) :
    Exclusive (Function.update held p (some level)) := by
  intro q r hq hr
  simp only [Function.update_apply] at hq ⊢
  cases level with
  | ex =>
    have hnone : ∀ q, held q = none := hg
    by_cases hqp : q = p
    · subst hqp
      simp [hr, hnone]
    · simp [hqp, hnone] at hq
  | pr =>
    have hno : ∀ q, held q ≠ some .ex := hg
    by_cases hqp : q = p
    · simp [hqp] at hq
    · simp [hqp, hno] at hq

theorem Exclusive.release {held : Fin n → Option Level} {p : Fin n} (h : Exclusive held) :
    Exclusive (Function.update held p none) := by
  intro q r hq hr
  simp only [Function.update_apply] at hq ⊢
  by_cases hqp : q = p
  · simp [hqp] at hq
  · simp only [hqp, ↓reduceIte] at hq
    by_cases hrp : r = p
    · simp [hrp]
    · simpa [hrp] using h q r hq hr

theorem Move.excl (h : Move cfg b s p s') (he : Exclusive s.held) : Exclusive s'.held := by
  cases h with
  | clearLock _ hg | lockPr _ hg _ | lockEx _ hg _ => exact hg.exclusive
  | clearUnlock | unlock | unlockNext => exact he.release
  | _ => exact he

theorem Move.synced (h : Move cfg b s p s') (hi : Inv cfg b s) : s'.barrier.Synced := by
  have hs := hi.synced
  have hleft := (hi.rank p).left
  have hent := (hi.rank p).entered
  cases h with
  | prepEnter | enter | endEnter => exact hs.enter
  | prepLeave hpc ho | leavePr hpc ho | leaveEx hpc ho | endLeave hpc ho =>
    exact hs.leave (by rw [hleft, hent]; simp [Proc.inside, hpc]) ho
  | _ => exact hs

/-- Only the two LVB writes change what the LVB clause of the invariant says. -/
theorem Move.lvb_same (h : Move cfg b s p s') (hi : Inv cfg b s)
    (hc : (s.procs p).pc ≠ .clearWrite) (hw : (s.procs p).pc ≠ .writeLvb) :
    s'.lvb = s.lvb ∧ (Cleared s' → Cleared s) ∧
      ∀ k, k % cfg.numProcs = p.val → ((s'.procs p).Wrote k ↔ (s.procs p).Wrote k) := by
  have hl := (hi.rank p).locals
  refine ⟨by cases h <;> simp_all [State.setProc, State.setHeld, State.enter, State.leave], ?_, ?_⟩
  · intro hcl q hq
    by_cases hqp : q = p
    · subst hqp
      refine ⟨fun hpc => ?_, hc⟩
      have := (hcl q hq).2
      cases h <;> simp_all [State.setProc]
    · have := hcl q hq
      rwa [(h.frame hqp).1] at this
  · intro k hk
    have hturn : Turn p (s.procs p) → (s.procs p).level = .pr → k ≠ (s.procs p).iter := by
      intro ht hpr hki
      subst hki
      simp [ht.mpr hk] at hpr
    cases h <;> cases hlv : (s.procs p).level <;>
      simp_all [State.setProc, Proc.Wrote, LocalsOk] <;> omega

theorem Move.lvb (h : Move cfg b s p s') (hi : Inv cfg b s) (hcl : Cleared s')
    (q : Fin cfg.numProcs) (k : Nat) (hk : k % cfg.numProcs = q.val) :
    (s'.procs q).Wrote k ↔ k < cfg.byteOrder.fromBe s'.lvb := by
  by_cases hc : (s.procs p).pc = .clearWrite
  · -- rank 0 has not entered the first barrier, so nobody is in the loop
    have hnone : ¬ (s'.procs q).Wrote k := by
      have hr : RankOk cfg b s' q := by
        by_cases hqp : q = p
        · exact hqp ▸ h.rankOk hi
        · exact h.frame_rankOk hqp (hi.rank q)
      intro hw
      have hleft := hr.left_of_wrote hw
      have hs := h.synced hi q p
      have he := (h.rankOk hi).entered
      cases h <;> simp_all [State.setProc, Proc.left, Proc.inside]
    cases h <;> simp_all [State.setProc, cfg.byteOrder.fromBe_zero]
  by_cases hw : (s.procs p).pc = .writeLvb
  · have hl := (hi.rank p).locals
    simp only [LocalsOk, hw] at hl
    obtain ⟨hlt, ht, hex, hto⟩ := hl
    have hleft : 1 ≤ s.barrier.left p := by
      rw [(hi.rank p).left]
      simp [Proc.left, hw]
    have hold := readEx_lvb hi (.inr hw) hex
    have hinv := hi.lvb (hi.cleared hleft) q k hk
    have hmax := cfg.maxIter_lt
    cases h with
    | write =>
      simp only [State.setProc, hto, cfg.byteOrder.fromBe_toBe _ (by omega : (s.procs p).iter + 1 < _)]
      by_cases hqp : q = p
      · subst hqp
        simp only [Function.update_self, Proc.Wrote, hex, true_or, and_true]
        omega
      · have hki : k ≠ (s.procs p).iter := by
          rintro rfl
          exact hqp (Fin.ext (hk.symm.trans (ht.mp hex)))
        rw [Function.update_of_ne hqp, hinv, hold]
        omega
    | _ => simp_all
  · obtain ⟨hlvb, hclr, hwr⟩ := h.lvb_same hi hc hw
    rw [hlvb]
    by_cases hqp : q = p
    · subst hqp
      rw [hwr k hk]
      exact hi.lvb (hclr hcl) q k hk
    · rw [(h.frame hqp).1]
      exact hi.lvb (hclr hcl) q k hk

theorem Inv.step (hi : Inv cfg b s) (h : Move cfg b s p s') : Inv cfg b s' where
  rank q := by
    by_cases hqp : q = p
    · exact hqp ▸ h.rankOk hi
    · exact h.frame_rankOk hqp (hi.rank q)
  excl := h.excl hi.excl
  synced := h.synced hi
  lvb := h.lvb hi

theorem inv_initial : Inv cfg b (initial cfg.numProcs v) where
  rank p := by
    by_cases hp : p.val = 0 <;>
      constructor <;> simp [initial, hp, LocalsOk, Proc.left, Proc.inside, Proc.holds, Barrier.start]
  excl := by simp [Exclusive, initial]
  synced := Barrier.synced_start
  lvb hcl p := by
    have := hcl ⟨0, p.pos⟩ rfl
    simp [initial] at this

theorem reachable_inv (h : (lvbTorture cfg b).system.Reachable s) : Inv cfg b s := by
  refine h.invariant ?_ ?_
  · rintro s ⟨v, rfl⟩
    exact inv_initial
  · rintro s s' - hi ⟨p, hp⟩
    exact hi.step (next_move hp)

end

end Ocfs2Test.LvbTorture
