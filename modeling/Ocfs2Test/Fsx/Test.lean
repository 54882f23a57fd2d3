import Ocfs2Test.Fsx.File
import Ocfs2Test.Fsx.Log
import Ocfs2Test.Lib.Stdio

/-!
# fsx: the exerciser

`fsx-linux.c` from the set-up of its buffers to the end. Each call of `test` picks
an operation, does it to `good_buf`, and then, unless it is one of the simulated
operations that `-b` asks for, to the file as well. The program is a `Prog` that
asks the file; the numbers of `random` are a stream. Its messages are left out.
-/

namespace Ocfs2Test.Fsx

open Lib Lib.Stdio

/-- The globals that the options set; those for messages are not here. -/
structure Options where
  simulatedopcount : Nat := 0
  closeprob : Nat := 0
  doFsync : Bool := false
  maxfilelen : Nat := 256 * 1024
  sizechecks : Bool := true
  maxoplen : Nat := 64 * 1024
  readbdy : Nat := 1
  style : Nat := 0
  truncbdy : Nat := 1
  writebdy : Nat := 1
  lite : Bool := false
  randomoplen : Bool := true
  mappedWrites : Bool := true
  mappedReads : Bool := true
  oDirect : Bool := false
  deriving DecidableEq, Repr

structure State where
  originalBuf : Nat → UInt8
  goodBuf : Nat → UInt8
  fileSize : Nat
  testcalls : Nat
  closeopen : Bool
  badoff : Int
  log : Log
  /-- What the next calls of `random` return. -/
  rands : Nat → Rand

/-- How a run ends before its last line. `crash` is a division by zero or an access
outside of `good_buf` or `temp_buf`. -/
inductive Status
  | report (status : Nat) (s : State)
  | exit (status : Nat)
  | sigbus
  | crash

abbrev Io := Prog Call Answer Status

def ask (c : Call) : Io (Answer c) := Prog.ask c

/-- A call that ends the run with `failed` when it fails. -/
def orStop (failed : Status) (c : Call) (test : Answer c → Bool) : Io Unit :=
  Prog.require c test fun _ => failed

def reportFailure (status : Nat) (s : State) : Io α := .stop (.report status s)

def orReport (s : State) (status : Nat) (c : Call) (test : Answer c → Bool) : Io Unit :=
  orStop (.report status s) c test

namespace State

def shift (s : State) : State := { s with rands := fun i => s.rands (i + 1) }

def random (s : State) : Nat × State := (s.rands 0, s.shift)

def log4 (s : State) (operation arg0 arg1 arg2 : Int) : State :=
  { s with log := Fsx.log4 s.log s.closeopen operation arg0 arg1 arg2 }

end State

-- ---------------------------------------------------------------------------
-- Buffers
-- ---------------------------------------------------------------------------

def gendata (originalBuf : Nat → UInt8) (testcalls : Nat) (goodBuf : Nat → UInt8) :
    Nat → Nat → Nat → UInt8
  | _, 0 => goodBuf
  | offset, size + 1 =>
    let c := UInt8.ofNat (testcalls % 256)
    let c := if offset % 2 = 1 then c + originalBuf offset else c
    gendata originalBuf testcalls (Function.update goodBuf offset c) (offset + 1) size

def bzero (buf : Nat → UInt8) (offset size : Nat) : Nat → UInt8 :=
  fun i => if offset ≤ i ∧ i < offset + size then 0 else buf i

def extract (buf : Nat → UInt8) (offset size : Nat) : List UInt8 :=
  (List.range size).map fun i => buf (offset + i)

/-- The loop of `check_buffers` as far as it sets `badoff`. -/
def findBad (goodBuf : Nat → UInt8) : Nat → List UInt8 → Int → Int
  | _, [], badoff => badoff
  | offset, t :: temp, badoff =>
    findBad goodBuf (offset + 1) temp (if goodBuf offset ≠ t then offset else badoff)

def checkBuffers (s : State) (offset : Nat) (temp : List UInt8) : Io Unit :=
  if extract s.goodBuf offset temp.length ≠ temp then
    reportFailure 110 { s with badoff := findBad s.goodBuf offset temp s.badoff }
  else pure ()

def checkSize (s : State) : Io Unit := do
  let (ok, size) ← ask .fstat
  let stSize := if ok then size else -1
  let sizeBySeek ← ask .seekEnd
  if s.fileSize ≠ stSize ∨ s.fileSize ≠ sizeBySeek then reportFailure 120 s else pure ()

def checkTruncHack : Io Unit := do
  let _ ← ask (.ignored (.ftruncate 0))
  let _ ← ask (.ignored (.ftruncate 100000))
  let (_, size) ← ask .fstat
  if size ≠ 100000 then .stop (.exit 130) else ask (.ignored (.ftruncate 0))

-- ---------------------------------------------------------------------------
-- Operations
-- ---------------------------------------------------------------------------

/-- Under `O_DIRECT` `read` and `write` take whole blocks only. -/
def directSize (o : Options) (bdy size : Nat) : Nat :=
  if o.oDirect then size - size % bdy else size

def doread (o : Options) (s : State) (offset size : Nat) : Io State :=
  let offset := offset - offset % o.readbdy
  let size := directSize o o.readbdy size
  if size = 0 then pure (s.log4 Op.skipped Op.read offset size)
  else if s.fileSize < size + offset then pure (s.log4 Op.skipped Op.read offset size)
  else
    let s := s.log4 Op.read offset size 0
    if s.testcalls ≤ o.simulatedopcount then pure s
    else if o.maxoplen < size then .stop .crash
    else do
      orReport s 140 (.lseek offset) id
      let iret ← ask (.read size)
      match iret with
      | none => reportFailure 141 s
      | some bytes =>
        if bytes.1.length ≠ size then reportFailure 141 s
        else do
          checkBuffers s offset bytes
          pure s

def domapread (o : Options) (s : State) (offset size : Nat) : Io State :=
  let offset := offset - offset % o.readbdy
  if size = 0 then pure (s.log4 Op.skipped Op.mapread offset size)
  else if s.fileSize < size + offset then pure (s.log4 Op.skipped Op.mapread offset size)
  else
    let s := s.log4 Op.mapread offset size 0
    if s.testcalls ≤ o.simulatedopcount then pure s
    else if o.maxoplen < size then .stop .crash
    else do
      let pgOffset := offset % pageSize
      orReport s 190 (.mmap (pgOffset + size) (offset - pgOffset)) id
      let copied ← ask (.load offset size)
      match copied with
      | none => .stop .sigbus
      | some bytes => do
        orReport s 191 .munmap id
        checkBuffers s offset bytes
        pure s

/-- `gendata` and the growth of the file in `dowrite` and `domapwrite`, which differ in
the status of the "Lite file size bug". -/
def overwrite (o : Options) (s : State) (liteStatus offset size : Nat) : Io State :=
  if o.maxfilelen < offset + size then .stop .crash
  else
    let s := { s with goodBuf := gendata s.originalBuf s.testcalls s.goodBuf offset size }
    if s.fileSize < offset + size then
      let s := { s with
        goodBuf :=
          if s.fileSize < offset then bzero s.goodBuf s.fileSize (offset - s.fileSize)
          else s.goodBuf
        fileSize := offset + size }
      if o.lite then reportFailure liteStatus s else pure s
    else pure s

def dowrite (o : Options) (s : State) (offset size : Nat) : Io State :=
  let offset := offset - offset % o.writebdy
  let size := directSize o o.writebdy size
  if size = 0 then pure (s.log4 Op.skipped Op.write offset size)
  else do
    let s := s.log4 Op.write offset size s.fileSize
    let s ← overwrite o s 149 offset size
    if s.testcalls ≤ o.simulatedopcount then pure s
    else do
      orReport s 150 (.lseek offset) id
      orReport s 151 (.write (extract s.goodBuf offset size)) (· == some size)
      if o.doFsync then orReport s 152 .fsync id
      pure s

def domapwrite (o : Options) (s : State) (offset size : Nat) : Io State :=
  let offset := offset - offset % o.writebdy
  if size = 0 then pure (s.log4 Op.skipped Op.mapwrite offset size)
  else do
    let curFilesize := s.fileSize
    let s := s.log4 Op.mapwrite offset size 0
    let s ← overwrite o s 200 offset size
    if s.testcalls ≤ o.simulatedopcount then pure s
    else do
      if curFilesize < s.fileSize then
        orStop (.exit 201) (.ftruncate s.fileSize) id
      let pgOffset := offset % pageSize
      orReport s 202 (.mmap (pgOffset + size) (offset - pgOffset)) id
      orStop .sigbus (.store offset (extract s.goodBuf offset size)) id
      orReport s 203 .msync id
      orReport s 204 .munmap id
      pure s

def dotruncate (o : Options) (s : State) (size : Nat) : Io State :=
  let size := size - size % o.truncbdy
  let s := s.log4 Op.truncate size s.fileSize 0
  if s.fileSize < size ∧ o.maxfilelen < size then .stop .crash
  else
    let s := { s with
      goodBuf :=
        if s.fileSize < size then bzero s.goodBuf s.fileSize (size - s.fileSize) else s.goodBuf
      fileSize := size }
    if s.testcalls ≤ o.simulatedopcount then pure s
    else do
      orReport s 160 (.ftruncate size) id
      pure s

def writefileimage (o : Options) (s : State) : Io Unit := do
  orReport s 171 (.lseek 0) id
  orReport s 172 (.write (extract s.goodBuf 0 s.fileSize)) (· == some s.fileSize)
  if o.lite then pure () else orReport s 173 (.ftruncate s.fileSize) id

def docloseopen (o : Options) (s : State) : Io Unit :=
  if s.testcalls ≤ o.simulatedopcount then pure ()
  else do
    orReport s 180 .close id
    orReport s 181 (.openFile false) id

-- ---------------------------------------------------------------------------
-- The test loop
-- ---------------------------------------------------------------------------

def clip (limit offset size : Nat) : Nat :=
  if limit < offset + size then limit - offset else size

/-- The operation of `test` once its size is known. -/
def operateSized (o : Options) (s : State) (op size : Nat) : Io State :=
  if !o.lite && op == 3 then dotruncate o s size
  else
    let (offset, s) := s.random
    if op = 1 ∨ op = (if o.lite then 3 else 4) then
      if o.maxfilelen = 0 then .stop .crash
      else
        let offset := offset % o.maxfilelen
        let size := clip o.maxfilelen offset size
        if op ≠ 1 then domapwrite o s offset size else dowrite o s offset size
    else
      let offset := if s.fileSize ≠ 0 then offset % s.fileSize else 0
      let size := clip s.fileSize offset size
      if op ≠ 0 then domapread o s offset size else doread o s offset size

/-- The operation of `test`, after `op` is picked. -/
def operate (o : Options) (s : State) (op : Nat) : Io State :=
  if !o.lite && op == 3 && o.style % 2 == 0 then
    let (r, s) := s.random
    if o.maxfilelen = 0 then .stop .crash else dotruncate o s (r % o.maxfilelen)
  else if o.randomoplen then
    let (r, s) := s.random
    operateSized o s op (r % (o.maxoplen + 1))
  else operateSized o s op o.maxoplen

def pickOp (o : Options) (rv : Nat) : Nat :=
  let op := rv % (3 + (!o.lite).toNat + o.mappedWrites.toNat)
  if op = 2 ∧ !o.mappedReads then 0 else op

def State.nextCall (o : Options) (s : State) (rv : Nat) : State :=
  { s with
    testcalls := s.testcalls + 1
    closeopen :=
      if o.closeprob ≠ 0 then decide (rv / 8 < 2 ^ 28 / o.closeprob) else s.closeopen }

def test (o : Options) (s : State) : Io State := do
  let (rv, s) := s.random
  let op := pickOp o rv
  if 0 < o.simulatedopcount ∧ s.testcalls = o.simulatedopcount then writefileimage o s
  let s := s.nextCall o rv
  let s ← operate o s op
  if o.sizechecks ∧ o.simulatedopcount < s.testcalls then checkSize s
  if s.closeopen then docloseopen o s
  pure s

/-- The loop of `main` and what follows it. Without `-N` it has no end, and what was
done so far is then a run for some `numops`. -/
def tests (o : Options) (numops : Nat) (s : State) : Io State := do
  let s ← Prog.iterate (test o) numops s
  orReport s 99 .close id
  pure s

def start (o : Options) (rands : Nat → Rand) : State where
  originalBuf i := if i < o.maxfilelen then UInt8.ofNat ((rands i).val % 256) else 0
  goodBuf _ := 0
  fileSize := if o.lite then o.maxfilelen else 0
  testcalls := 0
  closeopen := false
  badoff := -1
  log := Log.zero
  rands i := rands (o.maxfilelen + i)

/-- The allocations of `main`. The size of `temp_buf` is a sum of two `int`; when it wraps,
or when a negative `-l` is the size of the others, `malloc` gives NULL. -/
def allocate (o : Options) : Io Unit :=
  if 2 ^ 63 ≤ o.maxfilelen ∨ 2 ^ 31 ≤ o.maxoplen + o.readbdy then .stop .crash else pure ()

/-- `main` after the options. Its own two files beside the one under test are
left out. -/
def main (o : Options) (numops : Nat) (rands : Nat → Rand) : Io State := do
  orStop (.exit 91) (.openFile (!o.lite)) id
  if o.lite then
    let size ← ask .seekEnd
    if size = -1 then .stop (.exit 94)
    else do
      orStop (.exit 95) (.lseek 0) id
      let o := { o with maxfilelen := size.toNat }
      allocate o
      orStop (.exit 98) (.write (List.replicate o.maxfilelen 0)) (· == some o.maxfilelen)
      tests o numops (start o rands)
  else do
    allocate o
    checkTruncHack
    tests o numops (start o rands)

end Ocfs2Test.Fsx
