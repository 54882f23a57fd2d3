import Ocfs2Test.Lib.Barrier
import Ocfs2Test.Lib.Transition
import Ocfs2Test.Chunks.Journal

/-!
# multi_directio_test

`test_runner` for any number of ranks. In each round the root prepares the work
file, and then, one chunk after the other, writes it, sends the unit to all
other ranks, and these verify the whole file against the units they have
received. Six barriers keep the ranks together. A message of the root is at its
receiver in the order of sending, and the file is the same for all ranks.
-/

namespace Ocfs2Test.DirectIO.Multi

open Lib Lib.Stdio Chunks

def DIRECTIO_SLICE : Nat := 512

structure Config where
  endian : Endian
  size : Nat
  numIterations : UInt64
  fileSize : UInt64
  /-- Other sizes are refused by `parse_opts`. -/
  aligned : fileSize.toNat % DIRECTIO_SLICE = 0

def Config.numChunks (c : Config) : Nat := c.fileSize.toNat / CHUNK_SIZE

/-- The calls of `MPI_Barrier_Sync`: behind the preparation, behind the first
verification, the two of the write loop, the one behind it, and the one of
`test_runner`. -/
inductive Sync
  | prepared
  | opened
  | head
  | sent
  | last
  | round
  deriving DecidableEq, Repr

inductive Pc
  | round
  | prep (offset chunkNo : UInt64)
  | call (b : Sync)
  | wait (b : Sync)
  | openFile
  | verifyFirst
  | loop
  | draw
  | write (wu : WriteUnit)
  | send (wu : WriteUnit) (j : Nat)
  | recv
  | verify
  | leave
  | done
  | aborted
  deriving DecidableEq, Repr

/-- A rank: `i` of `test_runner`, the locals of `one_round_run`, and
`remote_wus`. -/
structure Proc where
  pc : Pc
  roundNo : Nat
  i : Nat
  fd : Int
  ret : Int
  wus : Table

structure State (c : Config) where
  procs : Fin c.size → Proc
  barrier : Barrier (Fin c.size)
  clock : Micros
  file : ByteFile
  /-- Units sent to each rank and not received yet. -/
  chan : Fin c.size → List WriteUnit
  /-- The units written since the file was prepared, for the statements only. -/
  written : List WriteUnit

section
variable {c : Config}

def State.setProc (s : State c) (p : Fin c.size) (x : Proc) : State c :=
  { s with procs := Function.update s.procs p x }

/-- `should_exit`, and where a rank goes on if it does not. -/
def shouldExit (ret : Int) (pc : Pc) : Pc := if ret < 0 then .aborted else pc

def startRound (root : Bool) (x : Proc) : Proc :=
  { x with pc := if root then .prep 0 0 else .call .prepared, i := 0, fd := -1, ret := 0 }

def afterSync (root : Bool) (x : Proc) : Sync → Proc
  | .prepared => { x with pc := if root then .openFile else .verifyFirst }
  | .opened => { x with pc := .loop, i := 0 }
  | .head => { x with pc := if root then .draw else .recv }
  | .sent => if root then { x with pc := .loop, i := x.i + 1 } else { x with pc := .verify }
  | .last => { x with pc := .leave }
  | .round => { x with pc := .round, roundNo := x.roundNo + 1 }

def isRoot (p : Fin c.size) : Bool := p.val == 0

def Config.prepUnit (c : Config) (chunkNo : UInt64) (r : Rand) (t : Micros) : WriteUnit :=
  prepRandDestWriteUnit c.endian CHUNK_SIZE chunkNo r t

def Config.writeChunk (c : Config) (f : ByteFile) (wu : WriteUnit) : ByteFile :=
  doWriteChunk c.endian CHUNK_SIZE f wu

def Config.verifyFile (c : Config) (wus : Table) (f : ByteFile) : Outcome :=
  DirectioUtils.verifyFile c.endian (.remote wus) f c.fileSize

end

inductive Step (c : Config) (p : Fin c.size) (s : State c) : State c → Prop
  | start (hpc : (s.procs p).pc = .round) (hlt : (s.procs p).roundNo < c.numIterations.toNat) :
    Step c p s
      { s.setProc p (startRound (isRoot p) (s.procs p)) with
        written := if isRoot p then [] else s.written }
  | finish (hpc : (s.procs p).pc = .round) (hge : c.numIterations.toNat ≤ (s.procs p).roundNo) :
    Step c p s (s.setProc p { s.procs p with pc := .done })
  -- `prep_orig_file_in_chunks`
  | prepChunk (hpc : (s.procs p).pc = .prep offset chunkNo) (hlt : offset < c.fileSize) (r : Rand)
      (t : Micros) (ht : s.clock ≤ t) :
    Step c p s
      { s.setProc p
          { s.procs p with pc := .prep (offset + UInt64.ofNat CHUNK_SIZE) (chunkNo + 1) } with
        clock := t
        file := c.writeChunk s.file (c.prepUnit chunkNo r t) }
  | prepared (hpc : (s.procs p).pc = .prep offset chunkNo) (hge : c.fileSize ≤ offset) :
    Step c p s (s.setProc p { s.procs p with pc := shouldExit 0 (.call .prepared), ret := 0 })
  | enter (hpc : (s.procs p).pc = .call b) :
    Step c p s
      { s.setProc p { s.procs p with pc := .wait b } with barrier := s.barrier.enter p }
  | leave (hpc : (s.procs p).pc = .wait b) (hopen : s.barrier.Open p) :
    Step c p s
      { s.setProc p (afterSync (isRoot p) (s.procs p) b) with barrier := s.barrier.leave p }
  | openFile (hpc : (s.procs p).pc = .openFile) (fd : Nat) :
    Step c p s (s.setProc p { s.procs p with pc := shouldExit fd (.call .opened), fd := fd })
  -- the value that is tested is `fd`, not `ret`
  | verifyFirst (hpc : (s.procs p).pc = .verifyFirst)
      (hret : c.verifyFile (s.procs p).wus s.file = .returns ret) :
    Step c p s
      (s.setProc p
        { s.procs p with pc := shouldExit (s.procs p).fd (.call .opened), ret := ret })
  | loop (hpc : (s.procs p).pc = .loop) (hlt : (s.procs p).i < c.numChunks) :
    Step c p s (s.setProc p { s.procs p with pc := .call .head })
  | loopEnd (hpc : (s.procs p).pc = .loop) (hge : c.numChunks ≤ (s.procs p).i) :
    Step c p s (s.setProc p { s.procs p with pc := .call .last })
  | draw (hpc : (s.procs p).pc = .draw) (rNo rChar : Rand) (t : Micros) (ht : s.clock ≤ t) :
    Step c p s
      { s.setProc p { s.procs p with
          pc := .write (c.prepUnit (UInt64.ofNat (getRandUl 0 (c.numChunks - 1) rNo)) rChar t) } with
        clock := t }
  | write (hpc : (s.procs p).pc = .write wu) :
    Step c p s
      { s.setProc p { s.procs p with
          pc := shouldExit CHUNK_SIZE (.send wu 1)
          ret := CHUNK_SIZE
          wus := Function.update (s.procs p).wus wu.chunkNo.toNat wu } with
        file := c.writeChunk s.file wu
        written := s.written ++ [wu] }
  | send (hpc : (s.procs p).pc = .send wu j) (hj : j < c.size) :
    -- `MPI_Isend` returns `MPI_SUCCESS`
    Step c p s
      { s.setProc p { s.procs p with pc := .send wu (j + 1), ret := 0 } with
        chan := Function.update s.chan ⟨j, hj⟩ (s.chan ⟨j, hj⟩ ++ [wu]) }
  | sent (hpc : (s.procs p).pc = .send wu j) (hj : c.size ≤ j) :
    Step c p s (s.setProc p { s.procs p with pc := .call .sent })
  | recv (hpc : (s.procs p).pc = .recv) (hmsg : s.chan p = wu :: rest) :
    Step c p s
      { s.setProc p { s.procs p with pc := .call .sent, wus := record (s.procs p).wus wu } with
        chan := Function.update s.chan p rest }
  | verify (hpc : (s.procs p).pc = .verify)
      (hret : c.verifyFile (s.procs p).wus s.file = .returns ret) :
    Step c p s
      (s.setProc p
        { s.procs p with pc := shouldExit ret .loop, ret := ret, i := (s.procs p).i + 1 })
  | roundEnd (hpc : (s.procs p).pc = .leave) :
    Step c p s
      (s.setProc p
        { s.procs p with pc := if (s.procs p).ret ≠ 0 then .done else .call .round })

/-- `setup`. The work file may exist. -/
def init (c : Config) (clock : Micros) (file : ByteFile) : State c where
  procs _ := ⟨.round, 0, 0, -1, 0, initTable⟩
  barrier := .start
  clock := clock
  file := file
  chan _ := []
  written := []

def multiDirectio (c : Config) : System (State c) where
  Init s := ∃ clock file, s = init c clock file
  Step s s' := ∃ p, Step c p s s'

-- ---------------------------------------------------------------------------
-- What is asked of it
-- ---------------------------------------------------------------------------

/-- The last unit written to a chunk, or the empty one. -/
def Current (written : List WriteUnit) (i : Nat) (wu : WriteUnit) : Prop :=
  LastOf written i wu ∨ (∀ u ∈ written, u.chunkNo.toNat ≠ i) ∧ wu = initTable i

def Proc.Verifies (x : Proc) : Prop := x.pc = .verifyFirst ∨ x.pc = .verify

/-- Every rank that calls `verify_file` has the units of the current file, and
the call returns zero. -/
def Agrees (c : Config) (s : State c) : Prop :=
  ∀ p, isRoot p = false → (s.procs p).Verifies →
    (∀ i < c.numChunks, Current s.written i ((s.procs p).wus i)) ∧
      c.verifyFile (s.procs p).wus s.file = .returns 0

def NoAbort (s : State c) : Prop := ∀ p, (s.procs p).pc ≠ .aborted

end Ocfs2Test.DirectIO.Multi
