import Ocfs2Test.Lib.Semaphore
import Ocfs2Test.Lib.Transition
import Ocfs2Test.Reflink.DestVerify

/-!
# destructive_test

The parent prepares the original file in chunks, reflinks it a few times and
forks. A child writes a random chunk and logs it while it holds the semaphore,
takes the semaphore again for a reflink that it logs too, or not, and at some
round takes it to crash the machine. A child that leaves removes the semaphore,
and all others leave as well. What is written to the socket is in the log at
once, a line without the NUL behind it.
-/

namespace Ocfs2Test.Reflink

open Lib Lib.Stdio Chunks

def PATH_MAX : Nat := 4096

/-- The size of `log_rec`. -/
def LOG_REC : Nat := 1024

/-- `snprintf` cuts what does not fit. -/
def snprintf (size : Nat) (text : List Char) : List Char := text.take (size - 1)

/-- `"%s_target_%d_%d"`. -/
def destPath (orig : Path) (pid : Int) (j : Nat) : Path :=
  snprintf PATH_MAX
    (orig ++ ['_', 't', 'a', 'r', 'g', 'e', 't', '_'] ++ printInt pid ++ ['_'] ++ printInt j)

structure Config where
  endian : Endian
  fileSize : UInt64
  refCounts : Nat
  childNums : Nat
  semId : Nat
  orig : Path
  /-- `getpid` in each child. -/
  pid : Fin childNums → Int
  origOk : PathOk orig
  destOk : ∀ i, ∀ j < fileSize.toNat / CHUNK_SIZE, PathOk (destPath orig (pid i) j)

def Config.chunkNo (c : Config) : Nat := c.fileSize.toNat / CHUNK_SIZE

def Config.dest (c : Config) (i : Fin c.childNums) (j : Nat) : Path := destPath c.orig (c.pid i) j

-- ---------------------------------------------------------------------------
-- Files
-- ---------------------------------------------------------------------------

/-- An atomic copy, to a path that must not exist. -/
def reflink (fs : Files) (oldpath newpath : Path) : Option Files :=
  match fs oldpath, fs newpath with
  | some f, none => some (Function.update fs newpath (some f))
  | _, _ => none

/-- The first `chunks` chunks, each with its number and nothing else. -/
def prepOrigFileInChunks (e : Endian) (f : ByteFile) : Nat → ByteFile
  | 0 => f
  | chunks + 1 => doWriteChunk e CHUNK_SIZE (prepOrigFileInChunks e f chunks) (initTable chunks)

/-- `"%sr%ld"`. -/
def refPath (destPrefix : Path) (i : Nat) : Path :=
  snprintf PATH_MAX (destPrefix ++ 'r' :: printNat i)

/-- `do_reflinks` from number `i` on. The source is `src` itself, the reflink
before, or one of those before at random. -/
def doReflinks (src destPrefix : Path) (manner : Int) (rand : Nat → Rand) :
    Nat → Nat → Files → Option Files
  | 0, _, fs => some fs
  | iter + 1, i, fs =>
    let j :=
      if i = 0 then 0
      else if manner = 1 then i - 1
      else if manner > 1 then getRandUl 0 (i - 1) (rand i)
      else 0
    let source := if j = 0 then src else refPath destPrefix j
    match reflink fs source (refPath destPrefix i) with
    | none => none
    | some fs => doReflinks src destPrefix manner rand iter (i + 1) fs

/-- What the parent does to the files before it forks. -/
def setup (c : Config) (rand : Nat → Rand) (fs : Files) : Option Files :=
  let f := prepOrigFileInChunks c.endian ((fs c.orig).getD ByteFile.empty) c.chunkNo
  doReflinks c.orig c.orig 0 rand c.refCounts 0 (Function.update fs c.orig (some f))

-- ---------------------------------------------------------------------------
-- Children
-- ---------------------------------------------------------------------------

/-- A child in round `j` of its loop. Behind a crash that does not happen it
goes on with the semaphore held. -/
inductive Child
  | loop (j : Nat) (held : Bool)
  | locked (j : Nat)
  | stamped (j : Nat) (dwu : WriteUnit)
  | written (j : Nat) (dwu : WriteUnit)
  | logged (j : Nat)
  | draw (j : Nat)
  | link (j : Nat)
  | linkLocked (j : Nat)
  | linked (j : Nat)
  | linkLogged (j : Nat)
  | ready (j : Nat)
  | crashLock (j : Nat)
  | crashing (j : Nat)
  | bail (held : Bool)
  | exited
  deriving DecidableEq, Repr

structure State (c : Config) where
  sem : Option Nat
  clock : Micros
  fs : Files
  log : List Char
  child : Fin c.childNums → Child

def Config.afterP (c : Config) : Child → Option Child
  | .loop j _ => if j < c.chunkNo then some (.locked j) else none
  | .link j => some (.linkLocked j)
  | .crashLock j => some (.crashing j)
  | _ => none

def afterV : Child → Option Child
  | .logged j => some (.draw j)
  | .linkLogged j => some (.ready j)
  | _ => none

/-- The child has taken the semaphore and not given it back. -/
def Child.held : Child → Bool
  | .loop _ held | .bail held => held
  | .draw _ | .link _ | .ready _ | .crashLock _ | .exited => false
  | _ => true

def Config.prepUnit (c : Config) (rNo rChar : Rand) (t : Micros) : WriteUnit :=
  prepRandDestWriteUnit c.endian CHUNK_SIZE (UInt64.ofNat (getRandUl 0 (c.chunkNo - 1) rNo)) rChar t

/-- Whether a child in round `j` goes for the crash. -/
def Config.crashes (c : Config) (j : Nat) (r : Rand) : Bool :=
  if 1 < j ∧ j < c.chunkNo - 1 then getRandUl 1 c.chunkNo r == c.chunkNo / 2
  else j == c.chunkNo - 1

def Config.logRec (c : Config) (en : Entry) : List Char := snprintf LOG_REC (en.print c.orig)

inductive ChildStep (c : Config) (i : Fin c.childNums) (s : State c) : State c → Prop
  | p (hpc : c.afterP (s.child i) = some pc) (hsem : s.sem = some (n + 1)) :
    ChildStep c i s { s with sem := some n, child := Function.update s.child i pc }
  | pFails (hpc : c.afterP (s.child i) = some pc) (hsem : s.sem = none) :
    ChildStep c i s
      { s with child := Function.update s.child i (.bail (s.child i).held) }
  | v (hpc : afterV (s.child i) = some pc) (hsem : s.sem = some n) :
    ChildStep c i s { s with sem := some (n + 1), child := Function.update s.child i pc }
  | vFails (hpc : afterV (s.child i) = some pc) (hsem : s.sem = none) :
    ChildStep c i s
      { s with child := Function.update s.child i (.bail (s.child i).held) }
  | stamp (hpc : s.child i = .locked j) (rNo rChar : Rand) (t : Micros) (ht : s.clock ≤ t) :
    ChildStep c i s
      { s with
        clock := t
        child := Function.update s.child i (.stamped j (c.prepUnit rNo rChar t)) }
  | write (hpc : s.child i = .stamped j dwu) (hfile : s.fs c.orig = some f) :
    ChildStep c i s
      { s with
        fs := Function.update s.fs c.orig (some (doWriteChunk c.endian CHUNK_SIZE f dwu))
        child := Function.update s.child i (.written j dwu) }
  | log (hpc : s.child i = .written j dwu) :
    ChildStep c i s
      { s with
        log := s.log ++ c.logRec (.write dwu)
        child := Function.update s.child i (.logged j) }
  | draw (hpc : s.child i = .draw j) (r : Rand) :
    ChildStep c i s
      { s with
        child := Function.update s.child i (if getRandUl 0 1 r ≠ 0 then .link j else .ready j) }
  | link (hpc : s.child i = .linkLocked j) (hlink : reflink s.fs c.orig (c.dest i j) = some fs) :
    ChildStep c i s { s with fs := fs, child := Function.update s.child i (.linked j) }
  | linkFails (hpc : s.child i = .linkLocked j) (hlink : reflink s.fs c.orig (c.dest i j) = none) :
    ChildStep c i s { s with child := Function.update s.child i (.bail true) }
  | logLink (hpc : s.child i = .linked j) :
    ChildStep c i s
      { s with
        log := s.log ++ c.logRec (.reflink (c.dest i j))
        child := Function.update s.child i (.linkLogged j) }
  | ready (hpc : s.child i = .ready j) (r : Rand) :
    ChildStep c i s
      { s with
        child := Function.update s.child i
          (if c.crashes j r then .crashLock j else .loop (j + 1) false) }
  | crashed (hpc : s.child i = .crashing j) :
    ChildStep c i s { s with child := Function.update s.child i (.loop (j + 1) true) }
  | done (hpc : s.child i = .loop j held) (hj : c.chunkNo ≤ j) :
    ChildStep c i s { s with child := Function.update s.child i (.bail held) }
  -- a semaphore of number zero is not removed, but what is held of it is undone
  | exit (hpc : s.child i = .bail held) :
    ChildStep c i s
      { s with
        sem := if c.semId = 0 then s.sem.map (· + held.toNat) else none
        child := Function.update s.child i .exited }

def init (c : Config) (clock : Micros) (fs : Files) : State c where
  sem := some 1
  clock := clock
  fs := fs
  log := []
  child _ := .loop 0 false

def destructiveTest (c : Config) : System (State c) where
  Init s := ∃ clock rand fs₀ fs, setup c rand fs₀ = some fs ∧ s = init c clock fs
  Step s s' := ∃ i, ChildStep c i s s'

/-- A child that holds the semaphore triggers the crash, or all have finished. -/
def Stopped (s : State c) : Prop :=
  (∃ i j, s.child i = .crashing j) ∨ ∀ i, s.child i = .exited

end Ocfs2Test.Reflink
