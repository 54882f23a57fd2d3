import Ocfs2Test.Lib.Interact

/-!
# aio-stress: the io units of a thread

`worker` of `aio-stress.c` where it is the only thread. A thread has `depth` io units for
each of its operations. A unit is free, or built for a request, or with the kernel, and
goes around as long as the thread runs. The kernel may take some of the requests it is
given, and gives events back in any order. Latencies and messages are left out, `iterations`
is `RUN_FOREVER`, and no count comes near 2^31.
-/

namespace Ocfs2Test.AioStress.Ious

open Lib

inductive Rw
  | write
  | read
  | rwrite
  | rread
  deriving DecidableEq

def Rw.writes : Rw → Bool
  | .write | .rwrite => true
  | .read | .rread => false

/-- `oper->rw >= RWRITE` -/
def Rw.isRandom : Rw → Bool
  | .rwrite | .rread => true
  | .write | .read => false

/-- The stages behind one, in the order of the `switch` of `restart_oper`. -/
def Rw.later : Rw → List Rw
  | .write => [.read, .rwrite, .rread]
  | .read => [.rwrite, .rread]
  | .rwrite => [.rread]
  | .rread => []

structure IoRange where
  start : Int
  stop : Int
  reclen : Int
  totalIos : Int

structure IoOper extends IoRange where
  rw : Rw
  startedIos : Int
  lastOffset : Int
  numPending : Int
  lastErr : Int
  numErr : Int

/-- A request for the file of `oper`, of `count` bytes. -/
structure Iocb where
  oper : Nat
  writes : Bool
  offset : Int
  count : Int

structure IoUnit where
  iocb : Iocb
  busy : Bool

/-- Operations and io units go by their numbers. The first of a list is its head. -/
structure ThreadInfo where
  opers : Nat → IoOper
  ios : Nat → IoUnit
  freeIous : List Nat
  numGlobalPending : Int
  activeOpers : List Nat
  finishedOpers : List Nat

/-- What `main` has made of the options: it lowers `io_iter` where it is above the others.
`stages` are those of `-o`. -/
structure Config where
  numFiles : Nat
  numContexts : Nat
  contextOffset : Nat
  fileSize : Nat
  recLen : Nat
  depth : Nat
  ioIter : Nat
  maxIoSubmit : Nat
  pageSizeMask : Nat
  stages : Rw → Bool
  firstStage : Rw
  ioIter_pos : 0 < ioIter
  ioIter_le_depth : ioIter ≤ depth
  ioIter_le_maxIoSubmit : ioIter ≤ maxIoSubmit

def Config.numOpers (c : Config) : Nat := c.numFiles * c.numContexts

/-- Units, and events that `io_getevents` may give at once. -/
def Config.numIos (c : Config) : Nat := c.numOpers * c.depth

-- ---------------------------------------------------------------------------
-- Calls
-- ---------------------------------------------------------------------------

def EAGAIN : Int := 11

def RAND_MAX : Nat := 2 ^ 31 - 1

inductive Call
  /-- Each request with its unit. -/
  | ioSubmit (iocbs : List (Nat × Iocb))
  | ioGetevents (minNr nr : Int)
  | fstat (oper : Nat)
  | rand

structure Stat where
  ret : Int
  isReg : Bool
  size : Int

/-- An event is a unit with a result; `none` is an error of `io_getevents`. -/
abbrev Answer : Call → Type
  | .ioSubmit _ => Int
  | .ioGetevents _ _ => Option (List (Nat × Int))
  | .fstat _ => Stat
  | .rand => Nat

inductive Stop
  /-- `abort`: a unit of the free list is pending -/
  | notFree
  /-- `abort`: no events behind a request that was not taken -/
  | noEvents
  /-- `exit`: an error of `io_submit` -/
  | submitError
  /-- `exit`: an error of `fstat` -/
  | fstatError
  /-- more requests than `iocbs` has room for -/
  | overrun
  /-- a loop that is not over when its fuel is -/
  | unending

abbrev Io (α : Type) := Prog Call Answer Stop α

def ask (c : Call) : Io (Answer c) := Prog.ask c

-- ---------------------------------------------------------------------------
-- Events
-- ---------------------------------------------------------------------------

def ThreadInfo.setOper (t : ThreadInfo) (o : Nat) (oper : IoOper) : ThreadInfo :=
  { t with opers := Function.update t.opers o oper }

def ThreadInfo.setUnit (t : ThreadInfo) (io : Nat) (unit : IoUnit) : ThreadInfo :=
  { t with ios := Function.update t.ios io unit }

/-- A difference that `-v` finds is printed and no more. -/
def checkFinishedIo (t : ThreadInfo) (io : Nat) (res : Int) : Io ThreadInfo :=
  let iocb := (t.ios io).iocb
  if res ≠ iocb.count then do
    let s ← ask (.fstat iocb.oper)
    let oper := t.opers iocb.oper
    if oper.rw.writes = false ∧ iocb.offset + res < s.size then
      pure (t.setOper iocb.oper { oper with lastErr := res, numErr := oper.numErr + 1 })
    else pure t
  else pure t

/-- `finish_io` up to `check_finished_io`. -/
def freeIou (t : ThreadInfo) (io : Nat) : ThreadInfo :=
  let o := (t.ios io).iocb.oper
  let oper := t.opers o
  { (t.setUnit io { t.ios io with busy := false }).setOper o
      { oper with numPending := oper.numPending - 1 } with
    freeIous := io :: t.freeIous
    numGlobalPending := t.numGlobalPending - 1 }

def finishIo (t : ThreadInfo) (io : Nat) (result : Int) : Io ThreadInfo :=
  checkFinishedIo (freeIou t io) io result

def finishIos : List (Nat × Int) → ThreadInfo → Io ThreadInfo
  | [], t => pure t
  | (io, result) :: events, t => do
    let t ← finishIo t io result
    finishIos events t

def minEvents (c : Config) (t : ThreadInfo) : Int :=
  if t.numGlobalPending < c.ioIter then t.numGlobalPending else c.ioIter

def readSomeEvents (c : Config) (t : ThreadInfo) : Io (Int × ThreadInfo) := do
  let events ← ask (.ioGetevents (minEvents c t) c.numIos)
  match events with
  | none => pure (-1, t)
  | some events => do
    let t ← finishIos events t
    pure (events.length, t)

-- ---------------------------------------------------------------------------
-- Requests
-- ---------------------------------------------------------------------------

/-- `grab_iou` of a unit that is at the head of the free list. -/
def grabIou (t : ThreadInfo) (io o : Nat) (rest : List Nat) : ThreadInfo :=
  { t.setUnit io ⟨{ (t.ios io).iocb with oper := o }, true⟩ with freeIous := rest }

def findIou (c : Config) (o : Nat) : Nat → ThreadInfo → Io (Option Nat × ThreadInfo)
  | 0, _ => .stop .unending
  | fuel + 1, t =>
    match t.freeIous with
    | io :: rest =>
      if (t.ios io).busy then .stop .notFree else pure (some io, grabIou t io o rest)
    | [] => do
      let (nr, t) ← readSomeEvents c t
      if 0 < nr then findIou c o fuel t else pure (none, t)

def MB : Nat := 1024 * 1024

/-- `(num + page_size_mask) & ~page_size_mask` -/
def pageAlign (mask num : Nat) : Nat := num + mask - ((num + mask) &&& mask)

def randomByteOffset (mask : Nat) (oper : IoOper) (r₁ r₂ : Nat) : Int :=
  let offset : Int := if MB < mask + 1 then (mask + 1) / MB else 1
  let range := (oper.stop - oper.start).tdiv MB
  let range := if range < offset then 0 else range - offset
  let randByte := oper.start + (1 + range * r₁ / (RAND_MAX + 1)) * MB
  let randByte := randByte + pageAlign mask (1 + MB * r₂ / (RAND_MAX + 1))
  if oper.stop < randByte + oper.reclen then randByte - oper.reclen else randByte

def prepIocb (t : ThreadInfo) (o io : Nat) (offset lastOffset : Int) : ThreadInfo :=
  let oper := t.opers o
  (t.setUnit io ⟨⟨o, oper.rw.writes, offset, oper.reclen⟩, (t.ios io).busy⟩).setOper o
    { oper with lastOffset := lastOffset }

/-- The loop of `find_iou` turns twice at most. -/
def buildIocb (c : Config) (t : ThreadInfo) (o : Nat) : Io (Option Nat × ThreadInfo) := do
  let (io, t) ← findIou c o 2 t
  match io with
  | none => pure (none, t)
  | some io =>
    let oper := t.opers o
    if oper.rw.isRandom then do
      let r₁ ← ask .rand
      let r₂ ← ask .rand
      let randByte := randomByteOffset c.pageSizeMask oper r₁ r₂
      pure (some io, prepIocb t o io randByte randByte)
    else pure (some io, prepIocb t o io oper.lastOffset (oper.lastOffset + oper.reclen))

/-- The loop of `build_oper`; `iocbs` are those built before. -/
def buildIocbs (c : Config) (o : Nat) :
    Nat → ThreadInfo → List Nat → Io (Bool × ThreadInfo × List Nat)
  | 0, t, iocbs => pure (true, t, iocbs)
  | n + 1, t, iocbs => do
    let (io, t) ← buildIocb c t o
    match io with
    | none => pure (false, t, iocbs)
    | some io =>
      if iocbs.length < c.maxIoSubmit then buildIocbs c o n t (iocbs ++ [io]) else .stop .overrun

def IoOper.numToBuild (oper : IoOper) (numIos : Int) : Int :=
  let numIos := if numIos = 0 then oper.totalIos else numIos
  if oper.totalIos < oper.startedIos + numIos then oper.totalIos - oper.startedIos else numIos

/-- The number it returns, and the requests with those of `o` behind them. -/
def buildOper (c : Config) (t : ThreadInfo) (o : Nat) (numIos : Int) (iocbs : List Nat) :
    Io (Int × ThreadInfo × List Nat) := do
  let numIos := (t.opers o).numToBuild numIos
  let (ok, t, built) ← buildIocbs c o numIos.toNat t iocbs
  if ok then pure (numIos, t, built) else pure (-1, t, iocbs)

def startIou (t : ThreadInfo) (io : Nat) : ThreadInfo :=
  let o := (t.ios io).iocb.oper
  let oper := t.opers o
  t.setOper o { oper with
    numPending := oper.numPending + 1
    startedIos := oper.startedIos + 1 }

/-- `update_iou_counters`, and the number of all that are pending. -/
def startIous (t : ThreadInfo) (ios : List Nat) : ThreadInfo :=
  let started := ios.foldl startIou t
  { started with numGlobalPending := started.numGlobalPending + ios.length }

/-- False where `io_submit` gives an error. -/
def runBuilt (c : Config) : Nat → ThreadInfo → List Nat → Io (Bool × ThreadInfo)
  | 0, _, _ => .stop .unending
  | fuel + 1, t, iocbs => do
    let ret : Int ← ask (.ioSubmit (iocbs.map fun io => (io, (t.ios io).iocb)))
    if ret ≠ iocbs.length then
      if 0 < ret ∨ ret = -EAGAIN then do
        -- nothing is taken where `ret` is an error
        let (nr, t) ← readSomeEvents c (startIous t (iocbs.take ret.toNat))
        if 0 < nr then runBuilt c fuel t (iocbs.drop ret.toNat) else .stop .noEvents
      else pure (false, t)
    else pure (true, startIous t iocbs)

-- ---------------------------------------------------------------------------
-- Rounds
-- ---------------------------------------------------------------------------

def operRunnable (t : ThreadInfo) (o : Nat) : Io Bool :=
  let oper := t.opers o
  if oper.startedIos ≠ 0 ∨ oper.start = 0 then pure true
  else if oper.rw.isRandom then pure true
  else do
    let s ← ask (.fstat o)
    if s.ret < 0 then .stop .fstatError else pure (¬ (s.isReg ∧ s.size < oper.start))

def firstRunnable (t : ThreadInfo) : List Nat → Io (Option Nat)
  | [] => pure none
  | o :: opers => do
    let runnable ← operRunnable t o
    if runnable then pure (some o) else firstRunnable t opers

/-- The first loop of `run_active_list`. Behind each operation it begins at the head of the
list again. -/
def buildActive (c : Config) :
    Nat → ThreadInfo → List Nat → List Nat → Io (ThreadInfo × List Nat × List Nat)
  | 0, _, _, _ => .stop .unending
  | fuel + 1, t, builtOpers, iocbs => do
    let oper ← firstRunnable t t.activeOpers
    match oper with
    | none => pure (t, builtOpers, iocbs)
    | some o => do
      let (ret, t, iocbs) ← buildOper c t o c.ioIter iocbs
      if 0 ≤ ret then
        let t := { t with activeOpers := t.activeOpers.erase o }
        if c.maxIoSubmit < iocbs.length + c.ioIter then pure (t, builtOpers ++ [o], iocbs)
        else buildActive c fuel t (builtOpers ++ [o]) iocbs
      else pure (t, builtOpers, iocbs)

def requeue (t : ThreadInfo) (o : Nat) : ThreadInfo :=
  if (t.opers o).startedIos = (t.opers o).totalIos then
    { t with finishedOpers := t.finishedOpers ++ [o] }
  else { t with activeOpers := t.activeOpers ++ [o] }

/-- Where nothing was built, the operations that were taken off the list are lost. -/
def runActiveList (c : Config) (t : ThreadInfo) : Io ThreadInfo := do
  let (t, builtOpers, iocbs) ← buildActive c (t.activeOpers.length + 1) t [] []
  if iocbs = [] then pure t
  else do
    let (ok, t) ← runBuilt c (2 * iocbs.length + t.numGlobalPending.toNat + 1) t iocbs
    if ok then pure (builtOpers.foldl requeue t) else .stop .submitError

-- ---------------------------------------------------------------------------
-- Stages
-- ---------------------------------------------------------------------------

def sendAll (c : Config) : Nat → ThreadInfo → Io ThreadInfo
  | 0, _ => .stop .unending
  | fuel + 1, t =>
    if t.activeOpers = [] then pure t
    else do
      let t ← runActiveList c t
      sendAll c fuel t

def ioOperWait (o : Nat) : Nat → ThreadInfo → Io ThreadInfo
  | 0, _ => .stop .unending
  | fuel + 1, t =>
    if (t.opers o).numPending = 0 then pure t
    else do
      let events ← ask (.ioGetevents 1 1)
      match events with
      | none => pure t
      | some [] => pure t
      | some events => do
        let t ← finishIos events t
        ioOperWait o fuel t

def waitAll : List Nat → ThreadInfo → Io ThreadInfo
  | [], t => pure t
  | o :: opers, t => do
    let t ← ioOperWait o (t.numGlobalPending.toNat + 1) t
    waitAll opers t

def nextStage (stages : Rw → Bool) (rw : Rw) : Option Rw := rw.later.find? stages

/-- `none` where the operation is done for. -/
def restartOper (c : Config) (oper : IoOper) : Option IoOper :=
  if oper.lastErr ≠ 0 then none
  else (nextStage c.stages oper.rw).map fun rw =>
    { oper with startedIos := 0, lastOffset := oper.start, rw := rw }

/-- A restart begins at the head of the list again, where the operations before stay
what they are. -/
def restartOpers (c : Config) (t : ThreadInfo) : ThreadInfo :=
  { t with
    opers := fun o =>
      if o ∈ t.finishedOpers then (restartOper c (t.opers o)).getD (t.opers o) else t.opers o
    activeOpers := t.activeOpers ++
      t.finishedOpers.filter fun o => (restartOper c (t.opers o)).isSome
    finishedOpers := t.finishedOpers.filter fun o => (restartOper c (t.opers o)).isNone }

def ThreadInfo.remaining (t : ThreadInfo) : Nat :=
  (t.activeOpers.map fun o => ((t.opers o).totalIos - (t.opers o).startedIos).toNat).sum

/-- From `restart` to the second barrier, which is none for a single thread. -/
def runStage (c : Config) (t : ThreadInfo) : Io ThreadInfo := do
  let t ← sendAll c (t.remaining + 1) t
  let t ← waitAll t.finishedOpers t
  pure (restartOpers c t)

/-- An operation is restarted three times at most. -/
def worker (c : Config) : Nat → ThreadInfo → Io ThreadInfo
  | 0, _ => .stop .unending
  | fuel + 1, t => do
    let t ← runStage c t
    if t.activeOpers = [] then pure t else worker c fuel t

/-- `create_oper` of context `j` of a file. -/
def createOper (c : Config) (j : Nat) : IoOper where
  start := j * c.contextOffset
  stop := c.fileSize - j * c.contextOffset
  reclen := c.recLen
  totalIos := ((c.fileSize - j * c.contextOffset : Int) - j * c.contextOffset).tdiv c.recLen
  rw := c.firstStage
  startedIos := 0
  lastOffset := j * c.contextOffset
  numPending := 0
  lastErr := 0
  numErr := 0

def Config.thread (c : Config) : ThreadInfo where
  opers o := createOper c (o % c.numContexts)
  ios _ := ⟨⟨0, false, 0, 0⟩, false⟩
  freeIous := (List.range c.numIos).reverse
  numGlobalPending := 0
  activeOpers := List.range c.numOpers
  finishedOpers := []

end Ocfs2Test.AioStress.Ious
