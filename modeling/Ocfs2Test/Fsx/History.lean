import Ocfs2Test.Fsx.Oracle

/-!
# fsx: what a run leaves behind

The operations of a run in order, beside what remains of them: the log lists the
last `LOGSIZE`, and each byte of the expected content names the operation that
wrote it last.
-/

namespace Ocfs2Test.Fsx

open Lib Lib.Stdio

variable {o : Options} {s : State}

structure Record where
  closeopen : Bool
  deed : Deed
  deriving DecidableEq, Repr

namespace State

def nextRecord (o : Options) (s : State) : Record :=
  let next := nextDeed o (s.random.2.nextCall o s.random.1) (pickOp o s.random.1)
  ⟨next.2.closeopen, next.1⟩

def records (o : Options) : Nat → State → List Record
  | 0, _ => []
  | n + 1, s => s.nextRecord o :: (s.step o).records o n

end State

@[simp] theorem length_records (o : Options) (n : Nat) (s : State) :
    (s.records o n).length = n := by
  induction n generalizing s with
  | zero => rfl
  | succ n ih => rw [State.records, List.length_cons, ih]

theorem records_succ (o : Options) (n : Nat) (s : State) :
    s.records o (n + 1) = s.records o n ++ [(s.steps o n).nextRecord o] := by
  induction n generalizing s with
  | zero => rfl
  | succ n ih =>
    rw [State.records, ih]
    rfl

-- ---------------------------------------------------------------------------
-- The log
-- ---------------------------------------------------------------------------

/-- The operation that determines byte `i` after one more. -/
def Effect.owner (i k : Nat) (owner : Option Nat) : Effect → Option Nat
  | .keep => owner
  | .write offset size => if offset ≤ i ∧ i < offset + size then some k else owner
  | .resize size => if size ≤ i then none else owner

/-- The last operation that wrote byte `i`, unless the byte was cut off since. -/
def lastWriter (records : List Record) (i : Nat) : Option Nat :=
  records.zipIdx.foldl (fun owner r => r.1.deed.effect.owner i r.2 owner) none

theorem lastWriter_succ (o : Options) (n : Nat) (s : State) (i : Nat) :
    lastWriter (s.records o (n + 1)) i =
      ((s.steps o n).nextRecord o).deed.effect.owner i n (lastWriter (s.records o n) i) := by
  rw [lastWriter, records_succ, List.zipIdx_append, List.foldl_append, length_records, lastWriter]
  simp

/-- What byte `i` shall be when the call with this index wrote it last. -/
def expectedByte (originalBuf : Nat → UInt8) (i : Nat) : Option Nat → UInt8
  | none => 0
  | some k => genByte originalBuf (k + 1) i

/-- `good_buf` has what `owner` says, and nothing beyond the end of the file has an owner. -/
structure Owned (owner : Nat → Option Nat) (s : State) : Prop where
  byte_eq : ∀ i < s.fileSize, s.goodBuf i = expectedByte s.originalBuf i (owner i)
  none_beyond : ∀ i, s.fileSize ≤ i → owner i = none

theorem Owned.apply {owner : Nat → Option Nat} (h : Owned owner s) (hcalls : s.testcalls = k + 1)
    (effect : Effect) : Owned (fun i => effect.owner i k (owner i)) (s.apply effect) := by
  cases effect with
  | keep => exact h
  | write offset size =>
    refine ⟨fun i hi => ?_, fun i hi => ?_⟩
    · simp only [State.apply, State.overwritten] at hi
      change (s.overwritten offset size).goodBuf i =
        expectedByte s.originalBuf i (if _ then _ else owner i)
      rw [goodBuf_overwritten, hcalls]
      rcases Decidable.em (offset ≤ i ∧ i < offset + size) with hin | hout
      · rw [if_pos hin, if_pos hin]
        rfl
      · rw [if_neg hout, if_neg hout]
        rcases Nat.lt_or_ge i s.fileSize with hlt | hge
        · rw [if_neg (by omega), h.byte_eq i hlt]
        · rw [if_pos (by omega), h.none_beyond i hge]
          rfl
    · simp only [State.apply, State.overwritten] at hi
      simp only [Effect.owner]
      rw [if_neg (by omega), h.none_beyond i (by omega)]
  | resize size =>
    refine ⟨fun i (hi : i < size) => ?_, fun i (hi : size ≤ i) => if_pos hi⟩
    change (s.resized size).goodBuf i = expectedByte s.originalBuf i (if _ then _ else owner i)
    rw [goodBuf_resized, if_neg (not_le.mpr hi)]
    rcases Nat.lt_or_ge i s.fileSize with hlt | hge
    · rw [if_neg (by omega), h.byte_eq i hlt]
    · rw [if_pos ⟨hge, hi⟩, h.none_beyond i hge]
      rfl

theorem Owned.start (o : Options) (rands : Nat → Rand) :
    Owned (fun _ => none) (start o rands) :=
  ⟨fun _ _ => rfl, fun _ _ => rfl⟩

theorem Owned.step {owner : Nat → Option Nat} (h : Owned owner s) (hcalls : s.testcalls = k) :
    Owned (fun i => (s.nextRecord o).deed.effect.owner i k (owner i)) (s.step o) := by
  obtain ⟨rands, hnext⟩ :=
    nextDeed_state o (s.random.2.nextCall o s.random.1) (pickOp o s.random.1)
  have hbefore : ∀ log, Owned owner { s.random.2.nextCall o s.random.1 with
      rands := rands, log := log } := fun _ => ⟨h.byte_eq, h.none_beyond⟩
  rw [State.step, hnext]
  exact (hbefore _).apply (congrArg (· + 1) hcalls) _

theorem steps_owned (o : Options) (n : Nat) (rands : Nat → Rand) :
    Owned (lastWriter ((start o rands).records o n)) ((start o rands).steps o n) := by
  induction n with
  | zero => exact Owned.start o rands
  | succ n ih =>
    have hcalls : ((start o rands).steps o n).testcalls = n := by
      rw [testcalls_steps]
      exact Nat.zero_add n
    have hstep := ih.step (o := o) hcalls
    rw [← steps_succ] at hstep
    have heq : lastWriter ((start o rands).records o (n + 1)) = _ :=
      funext fun i => lastWriter_succ o n (start o rands) i
    rwa [heq]

theorem owner_cases {effect : Effect} (h : effect.owner i n owner = some k) :
    owner = some k ∨ k = n := by
  cases effect with
  | keep => exact .inl h
  | write offset size =>
    rw [Effect.owner] at h
    split at h
    · injection h with h
      exact .inr h.symm
    · exact .inl h
  | resize size =>
    rw [Effect.owner] at h
    split at h
    · cases h
    · exact .inl h

theorem lastWriter_lt (h : lastWriter (s.records o n) i = some k) : k < n := by
  induction n with
  | zero => cases h
  | succ n ih =>
    rw [lastWriter_succ] at h
    rcases owner_cases h with hbefore | rfl
    · exact (ih hbefore).trans (Nat.lt_succ_self n)
    · exact Nat.lt_succ_self k

/-- At any time of a run a byte of the expected content is the generated one of the last
call that wrote there, and zero where none did or a truncate came after it. At an
even offset it is the number of that call modulo 256, which is what the report of
bad data goes by. -/
theorem goodBuf_lastWriter (o : Options) (n i : Nat) (rands : Nat → Rand) :
    let s := (start o rands).steps o n
    let owner := lastWriter ((start o rands).records o n) i
    (i < s.fileSize → s.goodBuf i = expectedByte s.originalBuf i owner) ∧
      (s.fileSize ≤ i → owner = none) ∧
      ∀ k, owner = some k → k < n ∧
        (i % 2 = 0 → (s.goodBuf i).toNat = (k + 1) % 256) := by
  have howned := steps_owned o n rands
  refine ⟨howned.byte_eq i, howned.none_beyond i, fun k hk => ⟨lastWriter_lt hk, fun heven => ?_⟩⟩
  · have hin : i < ((start o rands).steps o n).fileSize := by
      by_contra hout
      rw [howned.none_beyond i (by omega)] at hk
      cases hk
    rw [howned.byte_eq i hin, hk, expectedByte, genByte, if_neg (by omega)]
    simp

end Ocfs2Test.Fsx
