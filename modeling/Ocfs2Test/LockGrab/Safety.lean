import Ocfs2Test.LockGrab.Model

/-!
# The lock lists of lock_grab

`parse_args` only accepts water marks with `0 <= min < max <= num_locks`. That
is what keeps every pass inside the lists: locks are taken only below the high
mark and dropped only above the low one, so neither list is empty when a lock
is picked from it.
-/

namespace Ocfs2Test.LockGrab

open Lib

-- ---------------------------------------------------------------------------
-- Accepted arguments
-- ---------------------------------------------------------------------------

structure Args.Ok (a : Args) : Prop where
  minHeld : 0 ≤ a.minHeld
  maxHeld : a.minHeld < a.maxHeld
  numLocks : a.maxHeld ≤ a.numLocks
  small : a.numLocks < 2 ^ 31

def Args.Small (a : Args) : Prop :=
  a.numLocks < 2 ^ 31 ∧ a.minHeld < 2 ^ 31 ∧ a.maxHeld < 2 ^ 31

theorem bmod_lt (x : Int) : x.bmod (2 ^ 32) < 2 ^ 31 := by
  have := Int.bmod_lt (x := x) (m := 2 ^ 32) (by decide)
  omega

theorem atoi_lt (cs : List Char) : Stdio.atoi cs < 2 ^ 31 := bmod_lt _

theorem applyOpt_small {a a' : Args} {o : Opt} (h : a.applyOpt o = .ok a') (ha : a.Small) :
    a'.Small := by
  obtain ⟨hn, hmin, hmax⟩ := ha
  cases o with
  | count arg | minHeld arg | maxHeld arg =>
    simp only [Args.applyOpt] at h
    split at h
    · cases h
    · cases h
      exact ⟨by first | exact hn | exact atoi_lt _, by first | exact hmin | exact atoi_lt _,
        by first | exact hmax | exact atoi_lt _⟩
  | long arg =>
    simp only [Args.applyOpt] at h
    split at h <;> cases h
  | help | invalid | missing => cases h

theorem applyOpts_small {opts : List Opt} {a a' : Args}
    (h : opts.foldlM Args.applyOpt a = .ok a') (ha : a.Small) : a'.Small := by
  induction opts generalizing a with
  | nil => cases h; exact ha
  | cons o opts ih =>
    rw [List.foldlM_cons] at h
    cases ho : a.applyOpt o with
    | error e => simp [ho, bind, Except.bind] at h
    | ok b =>
      simp only [ho, bind, Except.bind] at h
      exact ih h (applyOpt_small ho ha)

theorem cleanup_small {a : Args} (ha : a.Small) : a.cleanup.numLocks < 2 ^ 31 := by
  obtain ⟨hn, -, hmax⟩ := ha
  have hb := bmod_lt (a.minHeld + 1)
  unfold Args.cleanup
  simp only
  split <;> split <;> split <;> assumption

theorem cleanup_minHeld (a : Args) : a.cleanup.minHeld = a.minHeld := by
  unfold Args.cleanup
  simp only
  split <;> split <;> split <;> rfl

theorem parseArgs_ok {opts : List Opt} {extraneous : Bool} {a : Args}
    (h : parseArgs opts extraneous = .ok a) : a.Ok := by
  unfold parseArgs at h
  cases hf : opts.foldlM Args.applyOpt {} with
  | error e => simp [hf, bind, Except.bind] at h
  | ok b =>
    have hsmall : b.Small := applyOpts_small hf ⟨by decide, by decide, by decide⟩
    simp only [hf, bind, Except.bind, throw, throwThe, MonadExceptOf.throw, pure, Except.pure,
      ge_iff_le, gt_iff_lt] at h
    repeat' split at h
    all_goals cases h
    have := cleanup_small hsmall
    have := cleanup_minHeld b
    constructor <;> omega

-- ---------------------------------------------------------------------------
-- Names
-- ---------------------------------------------------------------------------

theorem printNat_length_mono (h : i ≤ j) :
    (Stdio.printNat i).length ≤ (Stdio.printNat j).length := by
  have hpos : 0 < (Stdio.printNat j).length := Nat.length_toDigits_pos
  have hj := (Nat.length_toDigits_le_iff (n := j) (b := 10) (by decide) hpos).mp (Nat.le_refl _)
  exact (Nat.length_toDigits_le_iff (by decide) hpos).mpr (by omega)

theorem lockName_value (hi : i < n) :
    Nat.ofDigitChars 10 (lockName ((Stdio.printNat (n - 1)).length + 1) i) 0 = i := by
  have hlen := printNat_length_mono (show i ≤ n - 1 by omega)
  have hfull : (List.replicate ((Stdio.printNat (n - 1)).length + 1 - 1 -
      (Stdio.printNat i).length) '0' ++ Stdio.printNat i).length ≤
        (Stdio.printNat (n - 1)).length + 1 - 1 := by simp; omega
  simp only [lockName]
  rw [List.take_of_length_le hfull, Nat.ofDigitChars_append, Nat.ofDigitChars_replicate_zero,
    Nat.mul_zero]
  exact Nat.ofDigitChars_ten_toDigits

theorem lockNames_nodup (n : Nat) : (lockNames n).Nodup := by
  refine List.Nodup.map_on ?_ List.nodup_range
  intro i hi j hj h
  rw [← lockName_value (List.mem_range.mp hi), h, lockName_value (List.mem_range.mp hj)]

theorem length_lockNames (n : Nat) : (lockNames n).length = n := by simp [lockNames]

-- ---------------------------------------------------------------------------
-- The invariant
-- ---------------------------------------------------------------------------

/-- The direction of the last PR operation on `name` that succeeded. -/
def lastPrOp (ops : List (Name × Int)) (name : Name) : Option Int :=
  (ops.find? fun op => op.1 == name).map (·.2)

/-- `hs` is held and `fs` is free. -/
structure Lists (n : Nat) (w : World) (hs fs : List Name) : Prop where
  held : Slots.Holds n hs w.lgc.held
  free : Slots.Holds n fs w.lgc.free
  curHeld : w.lgc.curHeld = hs.length
  names : (hs ++ fs).Perm (lockNames n)
  lastOp : ∀ name, name ∈ hs ↔ lastPrOp w.prOps name = some DIRECTION_LOCK

structure Good (n : Nat) (w : World) : Prop where
  numLocks : w.lgc.numLocks = n
  small : n < 2 ^ 31
  minHeld : 0 ≤ w.lgc.minHeld
  maxHeld : w.lgc.minHeld < w.lgc.maxHeld
  maxHeld_le : w.lgc.maxHeld ≤ n
  lists : ∃ hs fs, Lists n w hs fs

/-- How many locks can move in a direction. -/
def room (lgc : Lgc) (direction : Int) : Int :=
  if direction = DIRECTION_LOCK then lgc.numLocks - lgc.curHeld else lgc.curHeld

def Direction (direction : Int) : Prop :=
  direction = DIRECTION_LOCK ∨ direction = DIRECTION_UNLOCK

structure Inv (n : Nat) (s : State) : Prop where
  good : Good n s.world
  pass : ∀ direction thisPass i, s.pc = .pass direction thisPass i →
    Direction direction ∧ thisPass - i ≤ room s.world.lgc direction

section
variable {n : Nat} {w w' : World} {hs fs : List Name} {direction : Int} (env : Env)

theorem Lists.length (h : Lists n w hs fs) : hs.length + fs.length = n := by
  have := h.names.length_eq
  rwa [List.length_append, length_lockNames] at this

theorem Good.curHeld (h : Good n w) : 0 ≤ w.lgc.curHeld ∧ w.lgc.curHeld ≤ n := by
  obtain ⟨hs, fs, hl⟩ := h.lists
  have := hl.length
  have := hl.curHeld
  omega

/-- Nothing but the use of the environment changes. -/
structure Same (w w' : World) : Prop where
  lgc : w'.lgc = w.lgc
  prOps : w'.prOps = w.prOps

theorem Same.trans (h : Same w₁ w₂) (h' : Same w₂ w₃) : Same w₁ w₃ :=
  ⟨h'.lgc.trans h.lgc, h'.prOps.trans h.prOps⟩

theorem Same.good (h : Same w w') (hg : Good n w) : Good n w' := by
  obtain ⟨hs, fs, hl⟩ := hg.lists
  exact ⟨h.lgc ▸ hg.numLocks, hg.small, h.lgc ▸ hg.minHeld, h.lgc ▸ hg.maxHeld,
    h.lgc ▸ hg.maxHeld_le, hs, fs, h.lgc ▸ hl.held, h.lgc ▸ hl.free, h.lgc ▸ hl.curHeld, hl.names,
    h.prOps ▸ hl.lastOp⟩

-- ---------------------------------------------------------------------------
-- What each function does
-- ---------------------------------------------------------------------------

theorem getRandomByte_same : Same w (getRandomByte env w).2 := ⟨rfl, rfl⟩

theorem callDlm_same : Same w (callDlm env w).2 := ⟨rfl, rfl⟩

theorem testSig_same : Same w (testSig env w).2 := ⟨rfl, rfl⟩

theorem readBytes_same (k : Nat) : Same w (readBytes env k w).2 := by
  induction k generalizing w with
  | zero => exact ⟨rfl, rfl⟩
  | succ k ih =>
    rw [readBytes]
    split
    · exact ⟨rfl, rfl⟩
    · next c hc =>
      have h := ih (w := { w with randomPos := w.randomPos + 1 })
      exact ⟨h.lgc, h.prOps⟩

theorem modulo_ok {x y : Int} (hx : 0 ≤ x) (hy : 0 < y) :
    ∃ r, modulo x y = .ok r ∧ 0 ≤ r ∧ r < y :=
  ⟨x.tmod y, if_neg (by omega), Int.tmod_nonneg _ hx, Int.tmod_lt_of_pos _ hy⟩

theorem locksThisPass_spec (hg : Good n w) (hd : Direction direction)
    (hroom : 0 < room w.lgc direction) :
    ∃ r w', locksThisPass env w direction = .ok (r, w') ∧ Same w w' ∧
      r ≤ room w.lgc direction := by
  have hc := hg.curHeld
  obtain ⟨rval, hr⟩ : ∃ rval, (getRandomByte env w).1 = rval := ⟨_, rfl⟩
  have hlgc : (getRandomByte env w).2.lgc = w.lgc := rfl
  rw [locksThisPass]
  simp only [hr, hlgc]
  by_cases hneg : rval < 0
  · exact ⟨rval, _, by simp [hneg, pure, Except.pure], getRandomByte_same env, by omega⟩
  obtain ⟨m, hm, -, hlt⟩ := modulo_ok (x := rval) (by omega) hroom
  rcases hd with rfl | rfl
  · simp only [room, if_true] at hroom hm hlt ⊢
    by_cases hbig : w.lgc.numLocks - w.lgc.curHeld < rval
    · exact ⟨m, _, by simp [hneg, hbig, hm, bind, Except.bind, pure, Except.pure],
        getRandomByte_same env, by omega⟩
    · exact ⟨rval, _, by simp [hneg, hbig, pure, Except.pure], getRandomByte_same env, by omega⟩
  · have hne : ¬ DIRECTION_UNLOCK = DIRECTION_LOCK := by decide
    simp only [room, if_neg hne] at hroom hm hlt ⊢
    by_cases hbig : rval > w.lgc.curHeld
    · exact ⟨m, _, by simp [hneg, hbig, hm, bind, Except.bind, pure, Except.pure],
        getRandomByte_same env, by omega⟩
    · exact ⟨rval, _, by simp [hneg, hbig, pure, Except.pure], getRandomByte_same env,
        by omega⟩

theorem pickLock_spec (hg : Good n w) (hd : Direction direction)
    (hroom : 0 < room w.lgc direction) :
    ∃ num w', pickLock env w direction = .ok (num, w') ∧ Same w w' ∧
      num < room w.lgc direction := by
  have hc := hg.curHeld
  have hn := hg.numLocks
  have hsmall := hg.small
  have hsame : Same w (readBytes env 4 w).2 := readBytes_same env 4
  obtain ⟨bytes, hb⟩ : ∃ bytes, (readBytes env 4 w).1 = bytes := ⟨_, rfl⟩
  have hbound : room w.lgc direction ≤ n := by
    unfold room
    split <;> omega
  have hcount : pickCount w.lgc direction = .ok (room w.lgc direction) := by
    rcases hd with rfl | rfl <;> simp [room, pickCount, DIRECTION_LOCK, DIRECTION_UNLOCK]
  cases bytes with
  | none =>
    exact ⟨- EIO, _, by simp [pickLock, hb, pure, Except.pure], hsame, by
      simp only [ EIO]; omega⟩
  | some cs =>
    have hmod : room w.lgc direction % 2 ^ 32 = room w.lgc direction :=
      Int.emod_eq_of_lt (by omega) (by omega)
    obtain ⟨num, hnum, h0, hlt⟩ := modulo_ok (x := wordOfBytes cs) (by omega) hroom
    have hbm : num.bmod (2 ^ 32) = num := Int.bmod_eq_of_le (by omega) (by omega)
    refine ⟨num, _, ?_, hsame, hlt⟩
    simp only [pickLock, hb, hsame.lgc, hcount, bind, Except.bind, hmod, hnum, hbm]
    rfl

theorem Lists.nameAt_free (hl : Lists n w hs fs) (hi : i < fs.length) :
    nameAt w.lgc.free (i : Int) = .ok fs[i] := by
  simp [nameAt, hl.free.load hi, index, bind, Except.bind]

theorem Lists.nameAt_held (hl : Lists n w hs fs) (hi : i < hs.length) :
    nameAt w.lgc.held (i : Int) = .ok hs[i] := by
  simp [nameAt, hl.held.load hi, index, bind, Except.bind]

theorem Lists.room_lock (hg : Good n w) (hl : Lists n w hs fs) :
    room w.lgc DIRECTION_LOCK = fs.length := by
  have := hl.length
  have := hl.curHeld
  have := hg.numLocks
  simp only [room, if_true]
  omega

theorem Lists.room_unlock (hl : Lists n w hs fs) : room w.lgc DIRECTION_UNLOCK = hs.length := by
  simp [room, DIRECTION_LOCK, DIRECTION_UNLOCK, hl.curHeld]

theorem tryExLock_spec (hg : Good n w) (hroom : 0 < room w.lgc DIRECTION_LOCK) (tries : Nat) :
    ∃ r w', tryExLock env tries w = .ok (r, w') ∧ Same w w' ∧
      ∀ name k, r = .tried .trylockFailed name k → LOCK_GRAB_MAX_EX_TRIES ≤ k := by
  induction hk : LOCK_GRAB_MAX_EX_TRIES - tries using Nat.strongRecOn
    generalizing tries w with
  | _ k ih =>
    obtain ⟨num, w₁, hpick, hs₁, hlt⟩ := pickLock_spec env hg (.inl rfl) hroom
    have hg₁ := hs₁.good hg
    obtain ⟨hs, fs, hl⟩ := hg₁.lists
    rw [← hs₁.lgc, hl.room_lock hg₁] at hlt
    rw [tryExLock]
    simp only [hpick, bind, Except.bind]
    by_cases hneg : num < 0
    · exact ⟨.failed num, w₁, by simp [hneg, pure, Except.pure], hs₁, by simp⟩
    have hname : nameAt w₁.lgc.free num = .ok fs[num.toNat] := by
      have := hl.nameAt_free (i := num.toNat) (by omega)
      rwa [Int.toNat_of_nonneg (by omega)] at this
    obtain ⟨err, he⟩ : ∃ err, (callDlm env w₁).1 = err := ⟨_, rfl⟩
    have hs₂ : Same w (callDlm env w₁).2 := hs₁.trans (callDlm_same env)
    simp only [hneg, hname, he, if_false]
    by_cases hagain : err = .trylockFailed ∧ tries + 1 < LOCK_GRAB_MAX_EX_TRIES
    · obtain ⟨r, w', hr, hs', hlast⟩ :=
        ih _ (by omega) (hs₂.good hg) (hs₂.lgc ▸ hroom) (tries + 1) rfl
      exact ⟨r, w', by rw [if_pos hagain, hr], hs₂.trans hs', hlast⟩
    · refine ⟨.tried err fs[num.toNat] (tries + 1), _, by rw [if_neg hagain]; rfl, hs₂, ?_⟩
      rintro name k h
      simp only [ExTry.tried.injEq] at h
      simp only [h.1, true_and, Nat.not_lt] at hagain
      omega

theorem doOneExLock_spec (hg : Good n w) (hroom : 0 < room w.lgc DIRECTION_LOCK) :
    ∃ ret w', doOneExLock env w = .ok (ret, w') ∧ Same w w' := by
  obtain ⟨r, w₁, hr, hs₁, hlast⟩ := tryExLock_spec env hg hroom 0
  simp only [doOneExLock, hr, bind, Except.bind]
  cases r with
  | failed num => exact ⟨num, w₁, rfl, hs₁⟩
  | tried err name tries =>
    cases err with
    | success => exact ⟨_, _, rfl, hs₁.trans ⟨rfl, rfl⟩⟩
    | other code => exact ⟨- EIO, w₁, rfl, hs₁⟩
    | trylockFailed =>
      have := hlast name tries rfl
      exact ⟨0, w₁, by simp [this, pure, Except.pure], hs₁⟩

theorem lastPrOp_cons (ops : List (Name × Int)) (name x : Name) (d : Int) :
    lastPrOp ((x, d) :: ops) name = if x = name then some d else lastPrOp ops name := by
  by_cases h : x = name <;> simp [lastPrOp, h]

theorem cons_eraseIdx_perm {l : List α} (hi : i < l.length) :
    (l[i] :: l.eraseIdx i).Perm l := by
  rw [List.eraseIdx_eq_take_drop_succ]
  refine (List.perm_middle.symm).trans ?_
  simp

theorem Lists.shift_lock (hg : Good n w) (hl : Lists n w hs fs) (hi : i < fs.length) :
    ∃ lgc, shiftLock w.lgc DIRECTION_LOCK i = .ok lgc ∧
      lgc.numLocks = w.lgc.numLocks ∧ lgc.minHeld = w.lgc.minHeld ∧ lgc.maxHeld = w.lgc.maxHeld ∧
      Lists n { w with lgc := lgc, prOps := (fs[i], DIRECTION_LOCK) :: w.prOps }
        (hs ++ [fs[i]]) (fs.eraseIdx i) := by
  have hlen := hl.length
  have hnum := hg.numLocks
  obtain ⟨held, hheld, hheld'⟩ := hl.held.push (by omega) fs[i]
  obtain ⟨free, hfree, hfree'⟩ := hl.free.closeGap hi
  have hcount : (n : Int) - hs.length = fs.length := by omega
  have hne : (hs.length : Int) ≠ n := by omega
  refine ⟨{ w.lgc with curHeld := w.lgc.curHeld + 1, held := held, free := free }, ?_, rfl, rfl,
    rfl, hheld', hfree', by simp [hl.curHeld], ?_, ?_⟩
  · simp [shiftLock, index, hl.curHeld, hnum, hl.free.load hi, hcount, hne, hheld, hfree, bind,
      Except.bind, pure, Except.pure]
  · have := cons_eraseIdx_perm hi
    refine List.Perm.trans ?_ hl.names
    simpa using this.append_left hs
  · intro name
    rw [lastPrOp_cons, List.mem_append, hl.lastOp, List.mem_singleton]
    by_cases hx : fs[i] = name
    · simp [hx]
    · simp [hx, Ne.symm hx]

theorem Lists.shift_unlock (hg : Good n w) (hl : Lists n w hs fs) (hi : i < hs.length) :
    ∃ lgc, shiftLock w.lgc DIRECTION_UNLOCK i = .ok lgc ∧
      lgc.numLocks = w.lgc.numLocks ∧ lgc.minHeld = w.lgc.minHeld ∧ lgc.maxHeld = w.lgc.maxHeld ∧
      Lists n { w with lgc := lgc, prOps := (hs[i], DIRECTION_UNLOCK) :: w.prOps }
        (hs.eraseIdx i) (fs ++ [hs[i]]) := by
  have hlen := hl.length
  have hnum := hg.numLocks
  obtain ⟨free, hfree, hfree'⟩ := hl.free.push (by omega) hs[i]
  obtain ⟨held, hheld, hheld'⟩ := hl.held.closeGap hi
  have hcount : (n : Int) - hs.length = fs.length := by omega
  have hne : (fs.length : Int) ≠ n := by omega
  have hdir : ¬ DIRECTION_UNLOCK = DIRECTION_LOCK := by decide
  have hperm := cons_eraseIdx_perm hi
  refine ⟨{ w.lgc with curHeld := w.lgc.curHeld - 1, held := held, free := free }, ?_, rfl, rfl,
    rfl, hheld', hfree', ?_, ?_, ?_⟩
  · simp [shiftLock, index, hl.curHeld, hnum, hl.held.load hi, hcount, hne, hdir, hheld, hfree,
      bind, Except.bind, pure, Except.pure]
  · have := List.length_eraseIdx_of_lt hi
    simp only [hl.curHeld]
    omega
  · refine List.Perm.trans ?_ hl.names
    refine List.Perm.trans ?_ (hperm.append_right fs)
    simpa using @List.perm_append_comm _ (hs.eraseIdx i ++ fs) [hs[i]]
  · intro name
    have hnd : (hs[i] :: hs.eraseIdx i).Nodup :=
      hperm.nodup_iff.mpr ((hl.names.nodup_iff.mpr (lockNames_nodup n)).of_append_left)
    rw [lastPrOp_cons]
    by_cases hx : hs[i] = name
    · simp [hx, DIRECTION_LOCK, DIRECTION_UNLOCK]
      exact hx ▸ (List.nodup_cons.mp hnd).1
    · have := hperm.mem_iff (a := name)
      simp only [List.mem_cons, Ne.symm hx, false_or] at this
      rw [if_neg hx, this, hl.lastOp]

theorem Good.shift {i : Nat} (hg : Good n w) (hd : Direction direction)
    (hi : (i : Int) < room w.lgc direction) :
    ∃ name lgc, pickName w.lgc direction i = .ok name ∧ shiftLock w.lgc direction i = .ok lgc ∧
      room lgc direction = room w.lgc direction - 1 ∧
      Good n { w with lgc := lgc, prOps := (name, direction) :: w.prOps } := by
  obtain ⟨hs, fs, hl⟩ := hg.lists
  rcases hd with rfl | rfl
  · rw [hl.room_lock hg] at hi
    obtain ⟨lgc, hsh, hnum, hmin, hmax, hl'⟩ := hl.shift_lock hg (i := i) (by omega)
    have hg' : Good n { w with lgc := lgc, prOps := (fs[i], DIRECTION_LOCK) :: w.prOps } :=
      ⟨hnum ▸ hg.numLocks, hg.small, hmin ▸ hg.minHeld, hmin ▸ hmax ▸ hg.maxHeld,
        hmax ▸ hg.maxHeld_le, _, _, hl'⟩
    refine ⟨fs[i], lgc, ?_, hsh, ?_, hg'⟩
    · simpa [pickName] using hl.nameAt_free (by omega)
    · have hroom := hl'.room_lock hg'
      have := List.length_eraseIdx_of_lt (l := fs) (i := i) (by omega)
      rw [hl.room_lock hg]
      simp only at hroom
      omega
  · rw [hl.room_unlock] at hi
    obtain ⟨lgc, hsh, hnum, hmin, hmax, hl'⟩ := hl.shift_unlock hg (i := i) (by omega)
    refine ⟨hs[i], lgc, ?_, hsh, ?_, hnum ▸ hg.numLocks, hg.small, hmin ▸ hg.minHeld,
      hmin ▸ hmax ▸ hg.maxHeld, hmax ▸ hg.maxHeld_le, _, _, hl'⟩
    · simpa [pickName, DIRECTION_LOCK, DIRECTION_UNLOCK] using hl.nameAt_held (by omega)
    · have hroom := hl'.room_unlock
      have := List.length_eraseIdx_of_lt (l := hs) (i := i) (by omega)
      rw [hl.room_unlock]
      simp only at hroom
      omega

theorem doOnePrLock_spec (hg : Good n w) (hd : Direction direction)
    (hroom : 0 < room w.lgc direction) :
    ∃ ret w', doOnePrLock env w direction = .ok (ret, w') ∧ Good n w' ∧
      (ret = 0 → room w'.lgc direction = room w.lgc direction - 1) := by
  obtain ⟨num, w₁, hpick, hs₁, hlt⟩ := pickLock_spec env hg hd hroom
  rw [doOnePrLock]
  simp only [hpick, bind, Except.bind]
  by_cases hneg : num < 0
  · exact ⟨num, w₁, by simp [hneg, pure, Except.pure], hs₁.good hg, by omega⟩
  obtain ⟨i, rfl⟩ := Int.eq_ofNat_of_zero_le (Int.not_lt.mp hneg)
  have hs₂ : Same w (callDlm env w₁).2 := hs₁.trans (callDlm_same env)
  obtain ⟨name, lgc, hname, hsh, hr, hg'⟩ := (hs₂.good hg).shift hd (i := i) (hs₂.lgc ▸ hlt)
  rw [show (callDlm env w₁).2.lgc = w₁.lgc from rfl] at hname
  simp only [hneg, hname, if_false]
  by_cases herr : (callDlm env w₁).1 = .success
  · exact ⟨0, _, by simp only [herr, hsh]; rfl, hg', fun _ => hs₂.lgc ▸ hr⟩
  · exact ⟨- EIO, _, by simp only [ne_eq, herr, not_false_eq_true, if_true]; rfl, hs₂.good hg,
      by simp [ EIO]⟩

-- ---------------------------------------------------------------------------
-- Steps
-- ---------------------------------------------------------------------------

theorem chooseMode_spec (w : World) :
    Same w (chooseMode env w).2 ∧
      ((chooseMode env w).1 = .ok .exMode → w.lgc.curHeld ≠ w.lgc.numLocks) := by
  unfold chooseMode
  simp only
  split
  · exact ⟨⟨rfl, rfl⟩, by simp⟩
  · next hne => split <;> exact ⟨⟨rfl, rfl⟩, fun _ => hne⟩

theorem chooseDirection_spec (hg : Good n w) :
    Same w (chooseDirection env w).2 ∧
      (0 ≤ (chooseDirection env w).1 → Direction (chooseDirection env w).1 ∧
        0 < room w.lgc (chooseDirection env w).1) := by
  have hmin := hg.minHeld
  have hmax := hg.maxHeld
  have hle := hg.maxHeld_le
  have hnum := hg.numLocks
  have hup : w.lgc.curHeld < w.lgc.maxHeld → 0 < room w.lgc DIRECTION_LOCK := by
    simp only [room, if_true]
    omega
  have hdown : w.lgc.minHeld < w.lgc.curHeld → 0 < room w.lgc DIRECTION_UNLOCK := by
    simp only [room, DIRECTION_LOCK, DIRECTION_UNLOCK]
    simp
    omega
  unfold chooseDirection
  simp only
  split
  · exact ⟨⟨rfl, rfl⟩, fun _ => ⟨.inr rfl, hdown (by omega)⟩⟩
  split
  · exact ⟨⟨rfl, rfl⟩, fun _ => ⟨.inl rfl, hup (by omega)⟩⟩
  split
  · exact ⟨⟨rfl, rfl⟩, by omega⟩
  split
  · exact ⟨⟨rfl, rfl⟩, fun _ => ⟨.inr rfl, hdown (by omega)⟩⟩
  · exact ⟨⟨rfl, rfl⟩, fun _ => ⟨.inl rfl, hup (by omega)⟩⟩

theorem beginPass_spec (hg : Good n w) : ∃ s, beginPass env w = .ok s ∧ Inv n s := by
  obtain ⟨hsame, hmode⟩ := chooseMode_spec env w
  obtain ⟨m, hm⟩ : ∃ m, (chooseMode env w).1 = m := ⟨_, rfl⟩
  obtain ⟨w₁, hw₁⟩ : ∃ w₁, (chooseMode env w).2 = w₁ := ⟨_, rfl⟩
  have hcm : chooseMode env w = (m, w₁) := by rw [← hm, ← hw₁]
  rw [hw₁] at hsame
  rw [hm] at hmode
  have hg₁ := hsame.good hg
  simp only [beginPass, hcm]
  rcases m with ret | _ | _
  · exact ⟨⟨.stop ret, w₁⟩, rfl, hg₁, by simp⟩
  · obtain ⟨hsd, hdir⟩ := chooseDirection_spec env hg₁
    have hg₂ := hsd.good hg₁
    by_cases hneg : (chooseDirection env w₁).1 < 0
    · exact ⟨_, by simp only [hneg, if_true]; rfl, hg₂, by simp⟩
    obtain ⟨hd, hroom⟩ := hdir (by omega)
    obtain ⟨r, w₃, hr, hs₃, hle⟩ :=
      locksThisPass_spec env hg₂ hd (by rw [hsd.lgc]; exact hroom)
    simp only [hneg, if_false, hr, bind, Except.bind]
    by_cases hrneg : r < 0
    · exact ⟨_, by simp only [hrneg, if_true]; rfl, hs₃.good hg₂, by simp⟩
    · refine ⟨_, by simp only [hrneg, if_false]; rfl, hs₃.good hg₂, ?_⟩
      simp only [Pc.pass.injEq, and_imp]
      rintro _ _ _ rfl rfl rfl
      exact ⟨hd, by rw [hs₃.lgc]; omega⟩
  · have hc := hg.curHeld
    have hnum := hg.numLocks
    have hroom : 0 < room w₁.lgc DIRECTION_LOCK := by
      have := hmode rfl
      simp only [room, if_true, hsame.lgc]
      omega
    obtain ⟨ret, w₂, hr, hs₂⟩ := doOneExLock_spec env hg₁ hroom
    exact ⟨⟨.top ret, w₂⟩, by simp only [hr, bind, Except.bind]; rfl, hs₂.good hg₁, by simp⟩

/-- Every step of `run` succeeds and keeps the lists. -/
theorem step_spec {s : State} (hi : Inv n s) : ∃ s', step env s = .ok s' ∧ Inv n s' := by
  obtain ⟨hg, hpass⟩ := hi
  obtain ⟨pc, w⟩ := s
  cases pc with
  | top ret =>
    have hs := (testSig_same env).good hg
    simp only [step]
    split
    · exact ⟨_, rfl, hs, by simp⟩
    · exact beginPass_spec env hs
  | stop ret => exact ⟨_, rfl, hg, by simp⟩
  | pass direction thisPass i =>
    obtain ⟨hd, hle⟩ := hpass _ _ _ rfl
    simp only at hg hle
    simp only [step]
    by_cases hlt : i < thisPass
    · obtain ⟨ret, w', hr, hg', hroom⟩ := doOnePrLock_spec env hg hd (by omega)
      rw [if_pos hlt]
      simp only [hr, bind, Except.bind]
      by_cases hret : ret = 0
      · subst hret
        have hs := (testSig_same env).good hg'
        simp only [ne_eq, not_true_eq_false, if_false]
        by_cases hsig : (testSig env w').1 = true
        · exact ⟨_, by simp only [hsig, if_true]; rfl, hs, by simp⟩
        · refine ⟨⟨.pass direction thisPass (i + 1), (testSig env w').2⟩, ?_, hs, ?_⟩
          · simp [hsig, pure, Except.pure]
          simp only [Pc.pass.injEq, and_imp]
          rintro _ _ _ rfl rfl rfl
          have := hroom rfl
          rw [(testSig_same env (w := w')).lgc]
          exact ⟨hd, by omega⟩
      · exact ⟨_, by simp only [ne_eq, hret, not_false_eq_true, if_true]; rfl, hg', by simp⟩
    · exact ⟨_, by rw [if_neg hlt], hg, by simp⟩

theorem inv_start {a : Args} (ha : a.Ok) :
    Inv a.numLocks.toNat ⟨.top 0, { lgc := buildLocklist a }⟩ := by
  obtain ⟨hmin, hmax, hnum, hsmall⟩ := ha
  have hfree := Slots.Holds.full (lockNames a.numLocks.toNat)
  rw [length_lockNames] at hfree
  refine ⟨⟨?_, ?_, hmin, hmax, ?_, [], lockNames a.numLocks.toNat, ?_⟩, by simp⟩
  · simp only [buildLocklist]
    omega
  · omega
  · simp only [buildLocklist]
    omega
  · exact ⟨Slots.Holds.empty _, hfree, rfl, by simp, by simp [lastPrOp]⟩

theorem reachable_inv {a : Args} {s : State} (ha : a.Ok)
    (h : (runSystem env (buildLocklist a)).Reachable s) : Inv a.numLocks.toNat s := by
  refine h.invariant ?_ ?_
  · rintro s rfl
    exact inv_start ha
  · rintro s s' - hi hs
    obtain ⟨s'', hs'', hi''⟩ := step_spec env hi
    rw [show step env s = .ok s' from hs] at hs''
    cases hs''
    exact hi''

end

/-- Whatever the options, the random bytes and the lock manager, the two lists
share the names among them, the counts are in range and no step of `run`
faults. -/
theorem run_safe (opts : List Opt) (extraneous : Bool) (a : Args) (env : Env) (s : State)
    (hargs : parseArgs opts extraneous = .ok a)
    (hr : (runSystem env (buildLocklist a)).Reachable s) :
    (∃ hs fs : List Name,
      Slots.Holds a.numLocks.toNat hs s.world.lgc.held ∧
      Slots.Holds a.numLocks.toNat fs s.world.lgc.free ∧
      s.world.lgc.curHeld = hs.length ∧ s.world.lgc.numLocks - s.world.lgc.curHeld = fs.length ∧
      (hs ++ fs).Perm (lockNames a.numLocks.toNat) ∧
      ∀ name, name ∈ hs ↔ lastPrOp s.world.prOps name = some DIRECTION_LOCK) ∧
    (lockNames a.numLocks.toNat).Nodup ∧
    (lockNames a.numLocks.toNat).length = s.world.lgc.numLocks ∧
    0 ≤ s.world.lgc.curHeld ∧ s.world.lgc.curHeld ≤ s.world.lgc.numLocks ∧
    ∀ fault, step env s ≠ .error fault := by
  have hi := reachable_inv env (parseArgs_ok hargs) hr
  obtain ⟨hs, fs, hl⟩ := hi.good.lists
  have hlen := hl.length
  have hcur := hl.curHeld
  have hnum := hi.good.numLocks
  refine ⟨⟨hs, fs, hl.held, hl.free, hcur, by omega, hl.names, hl.lastOp⟩, lockNames_nodup _,
    by rw [length_lockNames, hnum], by omega, by omega, fun fault hf => ?_⟩
  obtain ⟨s', hs', -⟩ := step_spec env hi
  rw [hf] at hs'
  cases hs'

/-- Bytes for a pass that takes three locks and one that gives a lock back. -/
def busyEnv : Env where
  random i := some ([100, 3, 0, 0, 0, 0, 0, 0, 0, 0, 0, 0, 0, 0, 100, 200, 1].getD i 0)
  dlm _ := .success
  caughtSig _ := false

def steps (env : Env) : Nat → State → Except Fault State
  | 0, s => .ok s
  | n + 1, s => step env s >>= steps env n

theorem reachable_steps {lgc : Lgc} (h : (runSystem env lgc).Reachable s)
    (hsteps : steps env n s = .ok s') : (runSystem env lgc).Reachable s' := by
  induction n generalizing s with
  | zero =>
    cases hsteps
    exact h
  | succ n ih =>
    rw [steps] at hsteps
    cases hstep : step env s with
    | error fault =>
      rw [hstep] at hsteps
      cases hsteps
    | ok t =>
      rw [hstep] at hsteps
      exact ih (h.step hstep) hsteps

/-- `-c 7 -L 2 -H 5`. -/
def sevenLocks : Args := ⟨7, 2, 5, true, true, true⟩

/-- Of seven locks two are held after four moves. -/
theorem run_safe_seven : ∃ s, (runSystem busyEnv (buildLocklist sevenLocks)).Reachable s ∧
    s.world.prOps.length = 4 ∧ s.world.lgc.curHeld = 2 ∧
    (∃ hs fs : List Name, Slots.Holds 7 hs s.world.lgc.held ∧ Slots.Holds 7 fs s.world.lgc.free ∧
      (hs ++ fs).Perm (lockNames 7)) ∧
    ∀ fault, step busyEnv s ≠ .error fault := by
  have hrun : (steps busyEnv 7 ⟨.top 0, { lgc := buildLocklist sevenLocks }⟩).toOption.map (fun s =>
      (s.world.prOps.length, s.world.lgc.curHeld)) = some (4, 2) := by decide +kernel
  obtain ⟨s, hs, hfacts⟩ := Option.map_eq_some_iff.mp hrun
  cases hsteps : steps busyEnv 7 ⟨.top 0, { lgc := buildLocklist sevenLocks }⟩ with
  | error fault =>
    rw [hsteps] at hs
    cases hs
  | ok t =>
    rw [hsteps] at hs
    cases hs
    have hr := reachable_steps (.init rfl) hsteps
    obtain ⟨⟨hs, fs, hheld, hfree, -, -, hnames, -⟩, -, -, -, -, hsafe⟩ :=
      run_safe [.count "7", .minHeld "2", .maxHeld "5"] false sevenLocks busyEnv s (by decide) hr
    simp only [Prod.mk.injEq] at hfacts
    exact ⟨s, hr, hfacts.1, hfacts.2, ⟨hs, fs, hheld, hfree, hnames⟩, hsafe⟩

end Ocfs2Test.LockGrab
