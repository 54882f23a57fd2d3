import Ocfs2Test.Lib.Semaphore
import Ocfs2Test.Lib.Transition
import Ocfs2Test.Chunks.Journal

/-!
# directio_test

`basic_test` with a local log. The parent prepares the work file, or reserves a
hole in it, and forks; each child writes as many chunks as the file has. A child
takes the semaphore, draws a chunk, stamps it, writes it, logs it and gives the
semaphore back. Children step in any order, and readings of the clock never
decrease.
-/

namespace Ocfs2Test.DirectIO

open Lib Lib.Stdio Chunks

inductive Mode
  | basic
  | append
  | holeFilling
  deriving DecidableEq, Repr

structure Config where
  endian : Endian
  mode : Mode
  numChildren : Nat
  fileSize : UInt64

def Config.numChunks (c : Config) : Nat := c.fileSize.toNat / CHUNK_SIZE

/-- The parent: in the loop of `prep_orig_file_in_chunks`, about to open the
file, or past the forks. -/
inductive Main
  | prep (offset chunkNo : UInt64)
  | opened
  | forked
  deriving DecidableEq, Repr

/-- A child in round `j` of its loop. -/
inductive Child
  | loop (j : Nat)
  | locked (j : Nat)
  | chosen (j : Nat) (chunkNo : UInt64)
  | stamped (j : Nat) (wu : WriteUnit)
  | written (j : Nat) (wu : WriteUnit)
  | logged (j : Nat)
  | exited
  deriving DecidableEq, Repr

structure State (c : Config) where
  main : Main
  sem : Nat
  clock : Micros
  file : ByteFile
  log : List Char
  child : Fin c.numChildren → Child

def Config.chooseChunk (c : Config) (j : Nat) (r : Rand) : UInt64 :=
  match c.mode with
  | .append => UInt64.ofNat j
  | _ => UInt64.ofNat (getRandUl 0 (c.numChunks - 1) r)

def Config.prepUnit (c : Config) (chunkNo : UInt64) (r : Rand) (t : Micros) : WriteUnit :=
  prepRandDestWriteUnit c.endian CHUNK_SIZE chunkNo r t

def Config.write (c : Config) (f : ByteFile) (wu : WriteUnit) : ByteFile :=
  doWriteChunk c.endian CHUNK_SIZE f wu

/-- `ftruncate` to the size of the file in the hole filling mode. -/
def Config.openFile (c : Config) (f : ByteFile) : ByteFile :=
  match c.mode with
  | .holeFilling => f.truncate c.fileSize.toNat
  | _ => f

inductive ChildStep (c : Config) (i : Fin c.numChildren) (s : State c) : State c → Prop
  | lock (hpc : s.child i = .loop j) (hj : j < c.numChunks) (hsem : 0 < s.sem) :
    ChildStep c i s
      { s with sem := s.sem - 1, child := Function.update s.child i (.locked j) }
  | exit (hpc : s.child i = .loop j) (hj : c.numChunks ≤ j) :
    ChildStep c i s { s with child := Function.update s.child i .exited }
  | choose (hpc : s.child i = .locked j) (r : Rand) :
    ChildStep c i s
      { s with child := Function.update s.child i (.chosen j (c.chooseChunk j r)) }
  | stamp (hpc : s.child i = .chosen j chunkNo) (r : Rand) (t : Micros) (ht : s.clock ≤ t) :
    ChildStep c i s
      { s with clock := t, child := Function.update s.child i (.stamped j (c.prepUnit chunkNo r t)) }
  | write (hpc : s.child i = .stamped j wu) :
    ChildStep c i s
      { s with file := c.write s.file wu, child := Function.update s.child i (.written j wu) }
  | log (hpc : s.child i = .written j wu) :
    ChildStep c i s
      { s with log := s.log ++ printRecord wu, child := Function.update s.child i (.logged j) }
  | unlock (hpc : s.child i = .logged j) :
    ChildStep c i s
      { s with sem := s.sem + 1, child := Function.update s.child i (.loop (j + 1)) }

inductive Step (c : Config) (s : State c) : State c → Prop
  | prepChunk (hmain : s.main = .prep offset chunkNo) (hlt : offset < c.fileSize) (r : Rand)
      (t : Micros) (ht : s.clock ≤ t) :
    Step c s
      { s with
        main := .prep (offset + UInt64.ofNat CHUNK_SIZE) (chunkNo + 1)
        clock := t
        file := c.write s.file (c.prepUnit chunkNo r t) }
  | prepared (hmain : s.main = .prep offset chunkNo) (hge : c.fileSize ≤ offset) :
    Step c s { s with main := .opened }
  | fork (hmain : s.main = .opened) :
    Step c s { s with main := .forked, file := c.openFile s.file }
  | child (i : Fin c.numChildren) (hmain : s.main = .forked) (hstep : ChildStep c i s s') :
    Step c s s'

def init (c : Config) (clock : Micros) : State c where
  main := if c.mode = .basic then .prep 0 0 else .opened
  sem := 1
  clock := clock
  file := ByteFile.empty
  log := []
  child _ := .loop 0

def basicTest (c : Config) : System (State c) where
  Init s := ∃ clock, s = init c clock
  Step := Step c

def Finished (s : State c) : Prop := s.main = .forked ∧ ∀ i, s.child i = .exited

end Ocfs2Test.DirectIO
