import Ocfs2Test.Lib.Transition
import Ocfs2Test.Lib.Stdio
import Ocfs2Test.Lib.Slots

/-!
# lock_grab

`parse_args`, `build_locklist` and `run`. The random bytes, the results of the
lock manager and what each test of `caught_sig` finds are arbitrary; an
`abort()`, a modulo by zero and an access outside a lock list are faults.
-/

namespace Ocfs2Test.LockGrab

open Lib

inductive Fault
  | abort
  | divByZero
  | badIndex
  deriving DecidableEq, Repr

-- ---------------------------------------------------------------------------
-- Arguments
-- ---------------------------------------------------------------------------

inductive Opt
  | help
  | long (arg : String)
  | count (arg : String)
  | minHeld (arg : String)
  | maxHeld (arg : String)
  | invalid (opt : Char)
  | missing (opt : Char)

inductive ArgError
  | usage
  | einval (message : String)
  deriving DecidableEq

/-- The water marks with the flags `parse_args` keeps beside them. -/
structure Args where
  numLocks : Int := 100
  minHeld : Int := 0
  maxHeld : Int := 20
  countSet : Bool := false
  minSet : Bool := false
  maxSet : Bool := false
  deriving DecidableEq

def Args.applyOpt (a : Args) : Opt → Except ArgError Args
  | .help => .error .usage
  | .long arg =>
    if arg = "help" then .error .usage
    else .error (.einval ("Invalid option: '--" ++ arg ++ "'"))
  | .count arg =>
    let tmp := Stdio.atoi arg.toList
    if tmp = 0 then .error (.einval ("Invalid lock count: " ++ arg))
    else .ok { a with numLocks := tmp, countSet := true }
  | .minHeld arg =>
    let tmp := Stdio.atoi arg.toList
    if tmp = 0 then .error (.einval ("Invalid min held: " ++ arg))
    else .ok { a with minHeld := tmp, minSet := true }
  | .maxHeld arg =>
    let tmp := Stdio.atoi arg.toList
    if tmp = 0 then .error (.einval ("Invalid max held: " ++ arg))
    else .ok { a with maxHeld := tmp, maxSet := true }
  | .invalid opt => .error (.einval ("Invalid option: '-" ++ toString opt ++ "'"))
  | .missing opt => .error (.einval ("Option '-" ++ toString opt ++ "' requires an argument"))

/-- Defaults that do not match what the user set. -/
def Args.cleanup (a : Args) : Args :=
  let a := if a.minSet ∧ ¬ a.maxSet ∧ a.minHeld > a.maxHeld then
    { a with maxHeld := (a.minHeld + 1).bmod (2 ^ 32) } else a
  let a := if a.countSet ∧ ¬ a.maxSet ∧ a.maxHeld > a.numLocks then
    { a with maxHeld := a.numLocks } else a
  if ¬ a.countSet ∧ a.maxHeld > a.numLocks then { a with numLocks := a.maxHeld } else a

/-- `parse_args`; `extraneous` is `optind < argc` after the last option. -/
def parseArgs (opts : List Opt) (extraneous : Bool) : Except ArgError Args := do
  let a ← opts.foldlM Args.applyOpt {}
  if extraneous then throw (.einval "Extraneous arguments")
  if a.numLocks < 1 then throw (.einval "Lock count must be greater than zero")
  if a.minHeld < 0 then throw (.einval "Min held cannot be less than zero")
  if a.maxHeld < 1 then throw (.einval "Max held cannot be less than one")
  let a := a.cleanup
  if a.maxHeld ≤ a.minHeld then throw (.einval "Max held must be bigger than min held")
  if a.minHeld ≥ a.numLocks then
    throw (.einval "Min held must be less than the total lock count")
  if a.maxHeld > a.numLocks then
    throw (.einval "Max held cannot be greater than the total lock count")
  return a

-- ---------------------------------------------------------------------------
-- The context
-- ---------------------------------------------------------------------------

abbrev Name := List Char

structure Lgc where
  numLocks : Int
  minHeld : Int
  maxHeld : Int
  curHeld : Int
  held : List (Option Name)
  free : List (Option Name)

/-- `snprintf(buf, strsize, "%0*d", strsize - 1, i)`. -/
def lockName (strsize : Nat) (i : Nat) : Name :=
  let digits := Stdio.printNat i
  (List.replicate (strsize - 1 - digits.length) '0' ++ digits).take (strsize - 1)

def lockNames (numLocks : Nat) : List Name :=
  let strsize := (Stdio.printNat (numLocks - 1)).length + 1
  (List.range numLocks).map (lockName strsize)

/-- `build_locklist`, once memory has been found for both lists. -/
def buildLocklist (a : Args) : Lgc where
  numLocks := a.numLocks
  minHeld := a.minHeld
  maxHeld := a.maxHeld
  curHeld := 0
  held := List.replicate a.numLocks.toNat none
  free := (lockNames a.numLocks.toNat).map some

def DIRECTION_UNLOCK : Int := 0

def DIRECTION_LOCK : Int := 1

inductive Level
  | prMode
  | exMode
  deriving DecidableEq

inductive DlmResult
  | success
  | trylockFailed
  | other (code : Nat)
  deriving DecidableEq

/-- What the outside answers: the bytes of `/dev/urandom`, with `none` for a
failed read, the results of the lock manager, and `caught_sig`. -/
structure Env where
  random : Nat → Option UInt8
  dlm : Nat → DlmResult
  caughtSig : Nat → Bool

/-- The context, how much of the environment has been used, and the PR
operations that have succeeded, the latest first. -/
structure World where
  lgc : Lgc
  randomPos : Nat := 0
  dlmPos : Nat := 0
  sigPos : Nat := 0
  prOps : List (Name × Int) := []

variable (env : Env)

def EIO : Int := 5

def LOCK_GRAB_MAX_EX_TRIES : Nat := 10

def getRandomByte (w : World) : Int × World :=
  (match env.random w.randomPos with
    | some c => (c.toNat : Int)
    | none => -1, { w with randomPos := w.randomPos + 1 })

def callDlm (w : World) : DlmResult × World :=
  (env.dlm w.dlmPos, { w with dlmPos := w.dlmPos + 1 })

def testSig (w : World) : Bool × World :=
  (env.caughtSig w.sigPos, { w with sigPos := w.sigPos + 1 })

/-- A negative return value is an `error`. -/
def chooseMode (w : World) : Except Int Level × World :=
  if w.lgc.curHeld = w.lgc.numLocks then (.ok .prMode, w)
  else
    let (rval, w) := getRandomByte env w
    if rval < 0 then (.error rval, w)
    else (.ok (if rval > 200 then .exMode else .prMode), w)

def chooseDirection (w : World) : Int × World :=
  if w.lgc.curHeld ≥ w.lgc.maxHeld then (DIRECTION_UNLOCK, w)
  else if w.lgc.curHeld ≤ w.lgc.minHeld then (DIRECTION_LOCK, w)
  else
    let (rval, w) := getRandomByte env w
    if rval < 0 then (rval, w)
    else (if rval > 127 then DIRECTION_UNLOCK else DIRECTION_LOCK, w)

/-- C's `%`. -/
def modulo (x y : Int) : Except Fault Int := if y = 0 then .error .divByZero else .ok (x.tmod y)

def locksThisPass (w : World) (direction : Int) : Except Fault (Int × World) := do
  let (rval, w) := getRandomByte env w
  if rval < 0 then return (rval, w)
  if direction = DIRECTION_LOCK then
    if w.lgc.numLocks - w.lgc.curHeld < rval then
      return (← modulo rval (w.lgc.numLocks - w.lgc.curHeld), w)
    else return (rval, w)
  else if direction = DIRECTION_UNLOCK then
    if rval > w.lgc.curHeld then return (← modulo rval w.lgc.curHeld, w)
    else return (rval, w)
  else throw .abort

def index (o : Option α) : Except Fault α :=
  match o with
  | some a => .ok a
  | none => .error .badIndex

def shiftLock (lgc : Lgc) (direction num : Int) : Except Fault Lgc := do
  let heldCount := lgc.curHeld
  let freeCount := lgc.numLocks - heldCount
  if direction = DIRECTION_LOCK then
    if heldCount = lgc.numLocks then throw .abort
    let held ← index (Slots.store lgc.held heldCount (← index (Slots.load lgc.free num)))
    let free ← index (Slots.closeGap lgc.free num freeCount)
    return { lgc with curHeld := lgc.curHeld + 1, held := held, free := free }
  else if direction = DIRECTION_UNLOCK then
    if freeCount = lgc.numLocks then throw .abort
    let free ← index (Slots.store lgc.free freeCount (← index (Slots.load lgc.held num)))
    let held ← index (Slots.closeGap lgc.held num heldCount)
    return { lgc with curHeld := lgc.curHeld - 1, held := held, free := free }
  else throw .abort

/-- The next `n` bytes, or `none` when one of them can not be read. -/
def readBytes : Nat → World → Option (List UInt8) × World
  | 0, w => (some [], w)
  | n + 1, w =>
    match env.random w.randomPos with
    | none => (none, { w with randomPos := w.randomPos + 1 })
    | some c =>
      let (cs, w) := readBytes n { w with randomPos := w.randomPos + 1 }
      (cs.map (c :: ·), w)

/-- The `unsigned int` in four bytes, the lowest first. -/
def wordOfBytes (cs : List UInt8) : Nat := cs.foldr (fun c n => c.toNat + 256 * n) 0

/-- The bound on the random number of `pick_lock`. -/
def pickCount (lgc : Lgc) (direction : Int) : Except Fault Int :=
  if direction = DIRECTION_LOCK then .ok (lgc.numLocks - lgc.curHeld)
  else if direction = DIRECTION_UNLOCK then .ok lgc.curHeld
  else .error .abort

/-- `pick_lock`; `randval % count` is unsigned. -/
def pickLock (w : World) (direction : Int) : Except Fault (Int × World) := do
  let (bytes, w) := readBytes env 4 w
  match bytes with
  | none => return (- EIO, w)
  | some cs =>
    let count ← pickCount w.lgc direction
    let num ← modulo (wordOfBytes cs) (count % 2 ^ 32)
    return (num.bmod (2 ^ 32), w)

/-- The pointer in a slot, dereferenced. -/
def nameAt (a : List (Option Name)) (num : Int) : Except Fault Name := do
  index (← index (Slots.load a num))

/-- How the loop of `do_one_ex_lock` ends: a failed `pick_lock`, or the last
result of `o2dlm_lock` with the lock's name and the tries made. -/
inductive ExTry
  | failed (num : Int)
  | tried (err : DlmResult) (name : Name) (tries : Nat)

/-- The loop of `do_one_ex_lock`, with `tries` trylocks behind it. -/
def tryExLock (tries : Nat) (w : World) : Except Fault (ExTry × World) := do
  let (num, w) ← pickLock env w DIRECTION_LOCK
  if num < 0 then return (.failed num, w)
  let name ← nameAt w.lgc.free num
  let (err, w) := callDlm env w
  if err = .trylockFailed ∧ tries + 1 < LOCK_GRAB_MAX_EX_TRIES then tryExLock (tries + 1) w
  else return (.tried err name (tries + 1), w)
termination_by LOCK_GRAB_MAX_EX_TRIES - tries

def doOneExLock (w : World) : Except Fault (Int × World) := do
  match ← tryExLock env 0 w with
  | (.failed num, w) => return (num, w)
  | (.tried err _ tries, w) =>
    if err ≠ .success then
      if err ≠ .trylockFailed then return (- EIO, w)
      else if tries ≥ LOCK_GRAB_MAX_EX_TRIES then return (0, w)
      else throw .abort
    else
      -- the byte is only how long to hold the lock
      let (_, w) := getRandomByte env w
      let (err, w) := callDlm env w
      return (if err ≠ .success then - EIO else 0, w)

def pickName (lgc : Lgc) (direction num : Int) : Except Fault Name :=
  if direction = DIRECTION_LOCK then nameAt lgc.free num
  else if direction = DIRECTION_UNLOCK then nameAt lgc.held num
  else .error .abort

def doOnePrLock (w : World) (direction : Int) : Except Fault (Int × World) := do
  let (num, w) ← pickLock env w direction
  if num < 0 then return (num, w)
  let name ← pickName w.lgc direction num
  let (err, w) := callDlm env w
  if err ≠ .success then return (- EIO, w)
  let lgc ← shiftLock w.lgc direction num
  return (0, { w with lgc := lgc, prOps := (name, direction) :: w.prOps })

-- ---------------------------------------------------------------------------
-- run
-- ---------------------------------------------------------------------------

/-- Where `run` is: at the test of its `while`, at the test of the `for`, or
past the loop. -/
inductive Pc
  | top (ret : Int)
  | pass (direction thisPass i : Int)
  | stop (ret : Int)

structure State where
  pc : Pc
  world : World

/-- The body of the `while` up to the `for`, or the whole of it when there is
no pass of PR locks. -/
def beginPass (w : World) : Except Fault State := do
  match chooseMode env w with
  | (.error ret, w) => return ⟨.stop ret, w⟩
  | (.ok .exMode, w) =>
    let (ret, w) ← doOneExLock env w
    return ⟨.top ret, w⟩
  | (.ok .prMode, w) =>
    let (direction, w) := chooseDirection env w
    if direction < 0 then return ⟨.stop direction, w⟩
    let (thisPass, w) ← locksThisPass env w direction
    if thisPass < 0 then return ⟨.stop thisPass, w⟩
    return ⟨.pass direction thisPass 0, w⟩

def step (s : State) : Except Fault State :=
  match s.pc with
  | .top ret =>
    let (sig, w) := testSig env s.world
    if sig ∨ ret ≠ 0 then .ok ⟨.stop ret, w⟩ else beginPass env w
  | .pass direction thisPass i =>
    if i < thisPass then do
      let (ret, w) ← doOnePrLock env s.world direction
      if ret ≠ 0 then return ⟨.top ret, w⟩
      let (sig, w) := testSig env w
      return if sig then ⟨.top 0, w⟩ else ⟨.pass direction thisPass (i + 1), w⟩
    else .ok ⟨.top 0, s.world⟩
  | .stop _ => .ok s

def runSystem (lgc : Lgc) : System State where
  Init s := s = ⟨.top 0, { lgc := lgc }⟩
  Step s s' := step env s = .ok s'

end Ocfs2Test.LockGrab
