import Ocfs2Test.Lib.Transition
import Ocfs2Test.Lib.Barrier

/-!
# lvb_torture

`main` from `clear_lock` on and the whole of `run_test`, for any number of
ranks. A step is one call of a rank: a lock request returns when the lock
manager can grant it, a barrier when every rank has called it. The rank whose
turn it is takes EX before the first barrier of an iteration, the others take
PR after it.

`secondBarrier` says whether the barrier after `o2dlm_unlock` is compiled in;
the comment in `run_test` says that it can be left out.
-/

namespace Ocfs2Test.LvbTorture

open Lib

inductive Level
  | pr
  | ex
  deriving DecidableEq, Repr

/-- `cpu_to_be64` and `be64_to_cpu` of the host. -/
structure ByteOrder where
  toBe : Nat → Nat
  fromBe : Nat → Nat
  fromBe_toBe : ∀ x < 2 ^ 64, fromBe (toBe x) = x
  fromBe_zero : fromBe 0 = 0

structure Config where
  numProcs : Nat
  maxIter : Nat
  maxIter_lt : maxIter < 2 ^ 64
  byteOrder : ByteOrder

/-- The call a rank is about to make; `in…` is inside a barrier. -/
inductive Pc
  | clearLock | clearWrite | clearUnlock
  | prepBarrier | inPrepBarrier
  | test
  | lock
  | barrier | inBarrier
  | readLvb | writeLvb | unlock
  | endBarrier | inEndBarrier
  | done
  | aborted
  deriving DecidableEq, Repr

structure Proc where
  pc : Pc
  iter : Nat := 0
  level : Level := .pr
  expected : Nat := 0
  toWrite : Nat := 0
  deriving DecidableEq, Repr

structure State (n : Nat) where
  procs : Fin n → Proc
  barrier : Barrier (Fin n)
  held : Fin n → Option Level
  lvb : Nat

/-- The lock manager grants EX when nobody holds the lock and PR when nobody
holds EX. -/
def Grantable (held : Fin n → Option Level) : Level → Prop
  | .ex => ∀ q, held q = none
  | .pr => ∀ q, held q ≠ some .ex

instance (held : Fin n → Option Level) (level : Level) : Decidable (Grantable held level) := by
  cases level <;> unfold Grantable <;> infer_instance

def initial (n lvb : Nat) : State n where
  procs p := if p.val = 0 then { pc := .clearLock } else { pc := .prepBarrier }
  barrier := .start
  held _ := none
  lvb := lvb

variable {n : Nat}

def State.setProc (s : State n) (p : Fin n) (x : Proc) : State n :=
  { s with procs := Function.update s.procs p x }

def State.setHeld (s : State n) (p : Fin n) (level : Option Level) : State n :=
  { s with held := Function.update s.held p level }

def State.enter (s : State n) (p : Fin n) : State n := { s with barrier := s.barrier.enter p }

def State.leave (s : State n) (p : Fin n) : State n := { s with barrier := s.barrier.leave p }

/-- The head of the loop body up to the first call of an iteration. -/
def beginIter (rank : Fin n) (x : Proc) : Proc :=
  if x.iter % n = rank.val then
    { x with expected := x.iter, level := .ex, pc := .lock }
  else
    { x with expected := x.iter, level := .pr, pc := .barrier }

/-- One call of rank `p`, with the code up to its next one. -/
def next (cfg : Config) (secondBarrier : Bool) (s : State cfg.numProcs) (p : Fin cfg.numProcs) :
    Option (State cfg.numProcs) :=
  let x := s.procs p
  match x.pc with
  | .clearLock =>
    if Grantable s.held .ex then
      some ((s.setHeld p (some .ex)).setProc p { x with pc := .clearWrite })
    else none
  | .clearWrite => some ({ s with lvb := 0 }.setProc p { x with pc := .clearUnlock })
  | .clearUnlock => some ((s.setHeld p none).setProc p { x with pc := .prepBarrier })
  | .prepBarrier => some ((s.enter p).setProc p { x with pc := .inPrepBarrier })
  | .inPrepBarrier =>
    if s.barrier.Open p then some ((s.leave p).setProc p { x with pc := .test }) else none
  | .test =>
    if x.iter < cfg.maxIter then some (s.setProc p (beginIter p x))
    else some (s.setProc p { x with pc := .done })
  | .barrier => some ((s.enter p).setProc p { x with pc := .inBarrier })
  | .inBarrier =>
    if s.barrier.Open p then
      match x.level with
      | .pr => some ((s.leave p).setProc p { x with pc := .lock })
      | .ex => some ((s.leave p).setProc p { x with pc := .readLvb, toWrite := x.iter + 1 })
    else none
  | .lock =>
    if Grantable s.held x.level then
      match x.level with
      | .pr => some ((s.setHeld p (some .pr)).setProc p
          { x with pc := .readLvb, expected := x.expected + 1 })
      | .ex => some ((s.setHeld p (some .ex)).setProc p { x with pc := .barrier })
    else none
  | .readLvb =>
    if cfg.byteOrder.fromBe s.lvb = x.expected then
      match x.level with
      | .pr => some (s.setProc p { x with pc := .unlock })
      | .ex => some (s.setProc p { x with pc := .writeLvb })
    else some (s.setProc p { x with pc := .aborted })
  | .writeLvb =>
    some ({ s with lvb := cfg.byteOrder.toBe x.toWrite }.setProc p { x with pc := .unlock })
  | .unlock =>
    if secondBarrier then some ((s.setHeld p none).setProc p { x with pc := .endBarrier })
    else some ((s.setHeld p none).setProc p { x with pc := .test, iter := x.iter + 1 })
  | .endBarrier => some ((s.enter p).setProc p { x with pc := .inEndBarrier })
  | .inEndBarrier =>
    if s.barrier.Open p then
      some ((s.leave p).setProc p { x with pc := .test, iter := x.iter + 1 })
    else none
  | .done | .aborted => none

/-- `lvb_torture` with the lock's LVB holding anything before the run. -/
def lvbTorture (cfg : Config) (secondBarrier : Bool) :
    ProcSystem (Fin cfg.numProcs) (State cfg.numProcs) where
  Init s := ∃ lvb, s = initial cfg.numProcs lvb
  next := next cfg secondBarrier

def Finished (s : State n) : Prop := ∀ p, (s.procs p).pc = .done

end Ocfs2Test.LvbTorture
