import Ocfs2Test.Lib.FileLocks
import Ocfs2Test.Lib.PhaseRules

/-!
# flock_unit_test

Two ranks take locks on two files, each on its own file first and then both on the
first one, with barriers between. In the last part rank 1 waits for a lock that it
cannot have until an alarm interrupts it. The files are there.
-/

namespace Ocfs2Test.FlockUnitTest

open Lib

-- ---------------------------------------------------------------------------
-- Locks
-- ---------------------------------------------------------------------------

inductive LockType
  | flock
  | fcntl
  deriving DecidableEq

/-- The ranks, and the timer of rank 1. -/
inductive Process
  | master
  | other
  | timer
  deriving DecidableEq

inductive Fd
  | fd1
  | fd2
  deriving DecidableEq

theorem mem_processes (p : Process) : p ∈ ({.master, .other, .timer} : Finset Process) := by
  cases p <;> decide

theorem mem_fds (fd : Fd) : fd ∈ ({.fd1, .fd2} : Finset Fd) := by
  cases fd <;> decide

instance : Fintype Process := ⟨{.master, .other, .timer}, mem_processes⟩

instance : Fintype Fd := ⟨{.fd1, .fd2}, mem_fds⟩

abbrev Owner := Process × Option Fd

/-- A lock of `flock` belongs to the open file, and one of `fcntl` to the process. -/
def owner (type : LockType) (p : Process) (fd : Fd) : Owner :=
  match type with
  | .flock => (p, some fd)
  | .fcntl => (p, none)

inductive Ret
  | ok
  | wouldBlock
  | intr
  deriving DecidableEq

/-- `lock_abort` in the steps that others can come between. -/
inductive LockOp
  /-- `flock` gives a lock in the other mode back first. -/
  | convert (fd : Fd) (mode : LockMode)
  | request (fd : Fd) (mode : LockMode) (tryLock : Bool) (expected : Ret)
  /-- The rest of a request that waits. -/
  | wait (fd : Fd) (mode : LockMode) (expected : Ret)
  | unlock (fd : Fd)
  | close (fd : Fd)

/-- The locks of a file, and whether the process that uses it sleeps in a request. -/
@[ext]
structure Part where
  locks : FileLocks Owner
  waiting : Bool

instance : DecidableEq Part := fun v v' =>
  decidable_of_iff (v.locks = v'.locks ∧ v.waiting = v'.waiting) Part.ext_iff.symm

/-- `lock_abort` aborts when the request does not return what it should. -/
def returns (ret expected : Ret) (v : Part) : Outcome Part :=
  if ret = expected then .next v else .failed

def step (type : LockType) (p : Process) (interrupted : Bool) (op : LockOp) (v : Part) :
    Outcome Part :=
  match op with
  | .convert fd mode =>
    match type with
    | .flock =>
      if v.locks.held (owner type p fd) = some mode then .next v
      else .next { v with locks := v.locks.release (owner type p fd) }
    | .fcntl => .next v
  | .request fd mode tryLock expected =>
    if h : v.locks.Grants (owner type p fd) mode then
      let granted := { v with locks := v.locks.grant (owner type p fd) mode h }
      if tryLock then returns .ok expected granted else .next granted
    else if tryLock then returns .wouldBlock expected v
    else .next { v with waiting := true }
  | .wait fd mode expected =>
    if v.waiting = false then returns .ok expected v
    else if interrupted then returns .intr expected { v with waiting := false }
    else if h : v.locks.Grants (owner type p fd) mode then
      returns .ok expected ⟨v.locks.grant (owner type p fd) mode h, false⟩
    else .blocked
  | .unlock fd | .close fd => .next { v with locks := v.locks.release (owner type p fd) }

-- ---------------------------------------------------------------------------
-- Ranks
-- ---------------------------------------------------------------------------

/-- The alarm of rank 1. The handler has run when it went off before the rank slept. -/
inductive Alarm
  | off
  | pending
  | handled
  | interrupting
  deriving DecidableEq

variable {φ : Type} [DecidableEq φ]

/-- `patient`: the ten seconds are always enough for rank 1 to sleep in its request. -/
structure Config (φ : Type) where
  lockType : LockType
  path1 : φ
  path2 : φ
  patient : Bool

inductive Op (φ : Type)
  | onFile (file : φ) (op : LockOp)
  | setAlarm
  | goOff

structure Store (φ : Type) where
  locks : φ → FileLocks Owner
  waiting : Process → Bool
  alarm : Alarm

def Store.part (t : Store φ) (file : φ) (p : Process) : Part := ⟨t.locks file, t.waiting p⟩

def Store.put (t : Store φ) (file : φ) (p : Process) (v : Part) : Store φ :=
  { t with
    locks := Function.update t.locks file v.locks
    waiting := Function.update t.waiting p v.waiting }

/-- The signal goes to rank 1. -/
def Store.interrupted (t : Store φ) (p : Process) : Bool :=
  t.alarm = .interrupting ∧ p = .other

def exec (c : Config φ) (p : Process) (op : Op φ) (t : Store φ) : Outcome (Store φ) :=
  match op with
  | .onFile file op =>
    match step c.lockType p (t.interrupted p) op (t.part file p) with
    | .next v => .next (t.put file p v)
    | .blocked => .blocked
    | .failed => .failed
  | .setAlarm => .next { t with alarm := .pending }
  | .goOff =>
    match t.alarm with
    | .pending =>
      if t.waiting .other then .next { t with alarm := .interrupting }
      else if c.patient then .blocked
      else .next { t with alarm := .handled }
    | _ => .blocked

def lockAbort (fd : Fd) (expected : Ret) (mode : LockMode) (tryLock : Bool) : List LockOp :=
  [.convert fd mode, .request fd mode tryLock expected] ++
    if tryLock then [] else [.wait fd mode expected]

def test1node1file (type : LockType) : List (List LockOp) :=
  let trylockReturn := if type = .flock then Ret.wouldBlock else .ok
  [lockAbort .fd1 .ok .shared false ++ lockAbort .fd2 .ok .shared false ++
      [.unlock .fd1, .unlock .fd2],
    lockAbort .fd1 .ok .exclusive true ++ lockAbort .fd2 trylockReturn .exclusive true ++
      [.unlock .fd1],
    lockAbort .fd1 .ok .exclusive false ++ lockAbort .fd2 trylockReturn .shared true ++
      [.unlock .fd1],
    lockAbort .fd1 .ok .shared false ++ lockAbort .fd1 .ok .exclusive false ++ [.unlock .fd1],
    lockAbort .fd1 .ok .shared false ++ lockAbort .fd1 .ok .shared false ++ [.unlock .fd1],
    lockAbort .fd1 .ok .exclusive false ++ lockAbort .fd1 .ok .exclusive false ++ [.unlock .fd1],
    lockAbort .fd1 .ok .exclusive false ++ lockAbort .fd1 .ok .exclusive true ++ [.unlock .fd1],
    [.close .fd1, .close .fd2]]

def solo (c : Config φ) (a : Process) (ops : List LockOp) (p : Process) : List (Op φ) :=
  if p = a then ops.map (.onFile c.path1) else []

def both (c : Config φ) (ops : List LockOp) (p : Process) : List (Op φ) :=
  if p = .timer then [] else ops.map (.onFile c.path1)

/-- The file that a rank has for itself in the first test. -/
def Config.which (c : Config φ) (p : Process) : φ := if p = .master then c.path1 else c.path2

def test1node (c : Config φ) (p : Process) : List (Op φ) :=
  if p = .timer then []
  else (test1node1file c.lockType).flatten.map (.onFile (c.which p))

/-- What the barriers of `test_2nodes_1file` and the one behind it part. -/
def test2nodes1file (c : Config φ) : List (Process → List (Op φ)) :=
  [both c (lockAbort .fd1 .ok .shared false),
    both c [.unlock .fd1],
    solo c .master (lockAbort .fd1 .ok .exclusive true),
    solo c .other (lockAbort .fd1 .wouldBlock .exclusive true),
    solo c .master (.unlock .fd1 :: lockAbort .fd1 .ok .exclusive false),
    solo c .other (lockAbort .fd1 .wouldBlock .shared true)]

def unlockAndClose (c : Config φ) : Process → List (Op φ)
  | .master => [.unlock .fd1, .close .fd1].map (.onFile c.path1)
  | .other => [.onFile c.path1 (.close .fd1)]
  | .timer => []

/-- The request of rank 1 that has to end with EINTR. -/
def interruptedRequest (c : Config φ) : List (Op φ) :=
  (lockAbort .fd1 .intr .exclusive false).map (.onFile c.path1)

def waitForAlarm (c : Config φ) : Process → List (Op φ)
  | .master => []
  | .other => .setAlarm :: interruptedRequest c
  | .timer => [.goOff]

def unlockAndCloseBoth (c : Config φ) : Process → List (Op φ)
  | .master => [.onFile c.path1 (.unlock .fd1), .onFile c.path1 (.close .fd1),
      .onFile c.path2 (.close .fd2)]
  | .other => [.onFile c.path1 (.close .fd1), .onFile c.path2 (.close .fd2)]
  | .timer => []

def testDeadlocks (c : Config φ) : List (Process → List (Op φ)) :=
  [solo c .master (lockAbort .fd1 .ok .exclusive false), waitForAlarm c, unlockAndCloseBoth c]

def scripts (c : Config φ) : List (Process → List (Op φ)) :=
  test1node c :: test2nodes1file c ++ unlockAndClose c :: testDeadlocks c

def initial : Store φ := ⟨fun _ => .free, fun _ => false, .off⟩

def program (c : Config φ) : Phased Process (Op φ) (Store φ) := .ofList (scripts c) (exec c)

def flockUnitTest (c : Config φ) : System (Phased.State Process (Op φ) (Store φ)) :=
  (program c).system fun t => t = initial

end Ocfs2Test.FlockUnitTest
