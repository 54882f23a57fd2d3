import Ocfs2Test.Lib.Transition
import Ocfs2Test.Lib.Barrier
import Ocfs2Test.Lib.ByteFile

/-!
# multi_mmap

`prep_file`, `write_verify_blocks` and the passes of `main`, without `-e`. A
block goes to the file and comes back in as many pieces as the system likes, each
piece a step of its own. One `read` or `write` stops at `MAX_RW_COUNT` bytes, and
the test aborts on what is short. An access outside the mapping or past the end of
the file is a fault.
-/

namespace Ocfs2Test.MultiMmap

open Lib

/-- Linux moves no more in one `read` or `write`. -/
def MAX_RW_COUNT : Nat := 0x7ffff000

/-- The argument of `-r` and `-w`. -/
inductive How
  | mmap
  | regular
  | random
  deriving DecidableEq

/-- What `mmap_reads` or `mmap_writes` can be after `randomize_bool`. -/
def How.Allows : How → Bool → Prop
  | .mmap, viaMmap => viaMmap = true
  | .regular, viaMmap => viaMmap = false
  | .random, _ => True

/-- The options, after the checks of `parse_opts` and `main`. -/
structure Config where
  numProcs : Nat
  blocksize : UInt32
  maxPasses : Nat
  readers : How := .mmap
  writers : How := .mmap
  prePopulate : Bool := false
  /-- `-t` leaves `prep_open_flags` empty. -/
  truncFile : Bool := true
  zeroWithHole : Bool := false
  procs_le : numProcs ≤ 20
  le_procs : 2 ≤ numProcs
  blocksize_gt : 10 < blocksize.toNat
  flags_ok : zeroWithHole = true → truncFile = true

namespace Config

variable (cfg : Config)

/-- `num_blocks = num_procs`. -/
abbrev numBlocks : Nat := cfg.numProcs

/-- The length `prep_file` maps, a product of two `unsigned int`. -/
def length : Nat := (cfg.blocksize * UInt32.ofNat cfg.numBlocks).toNat

/-- Where `read_block` and `write_block` look for a block, as an `unsigned int`. -/
def offset (blkno : Nat) : Nat := (UInt32.ofNat blkno * cfg.blocksize).toNat

def fillWithExpectedPattern (startchar : UInt8) (block : Nat) : List UInt8 :=
  List.replicate cfg.blocksize.toNat (startchar + UInt8.ofNat block)

/-- What one `memcpy`, `read` or `write` moves of a block. -/
def transfer (viaMmap : Bool) : Nat :=
  if viaMmap then cfg.blocksize.toNat else min cfg.blocksize.toNat MAX_RW_COUNT

/-- What `main` does to `startchar` after a pass. -/
def nextStartchar (startchar : UInt8) : UInt8 :=
  if startchar.toNat + cfg.numProcs > 122 then 97 else startchar + 1

def zeroFile (f : ByteFile) : ByteFile :=
  if cfg.zeroWithHole then f.truncate cfg.length
  else (List.range cfg.numBlocks).foldl
    (fun f i => f.pwrite (List.replicate cfg.blocksize.toNat 0) (i * cfg.blocksize.toNat)) f

def openFile (f : ByteFile) : ByteFile := if cfg.truncFile then ByteFile.empty else f

def prepFile (f : ByteFile) : ByteFile := cfg.zeroFile (cfg.openFile f)

end Config

inductive Pc
  | prep
  | prepBarrier
  | inPrepBarrier
  | openAfter
  | block
  | write (done : Nat)
  | barrier
  | inBarrier
  | read
  | done
  | aborted
  | fault
  deriving DecidableEq

structure Rank where
  pc : Pc := .prep
  pass : Nat := 0
  block : Nat := 0
  startchar : UInt8 := 97
  mmapReads : Bool := true
  mmapWrites : Bool := true
  tmpblock : List UInt8 := []

structure State (n : Nat) where
  file : ByteFile
  barrier : Barrier (Fin n)
  ranks : Fin n → Rank

variable {n : Nat}

def State.setRank (s : State n) (p : Fin n) (r : Rank) : State n :=
  { s with ranks := Function.update s.ranks p r }

def State.goto (s : State n) (p : Fin n) (pc : Pc) : State n :=
  s.setRank p { s.ranks p with pc := pc }

def State.setFile (s : State n) (f : ByteFile) : State n := { s with file := f }

def State.enter (s : State n) (p : Fin n) : State n := { s with barrier := s.barrier.enter p }

def State.leave (s : State n) (p : Fin n) : State n := { s with barrier := s.barrier.leave p }

section
variable (s : State n) (p : Fin n) (f : ByteFile)

@[simp] theorem State.setFile_ranks : (s.setFile f).ranks = s.ranks := rfl

@[simp] theorem State.setFile_barrier : (s.setFile f).barrier = s.barrier := rfl

@[simp] theorem State.enter_ranks : (s.enter p).ranks = s.ranks := rfl

@[simp] theorem State.leave_ranks : (s.leave p).ranks = s.ranks := rfl

end

def beginPass (cfg : Config) (r : Rank) : Rank :=
  if r.pass < cfg.maxPasses then { r with pc := .block, block := 0 }
  else { r with pc := .done, block := 0 }

/-- On to the next block, or to the next pass after the last block. -/
def nextBlock (cfg : Config) (r : Rank) : Rank :=
  if r.block + 1 < cfg.numBlocks then { r with pc := .block, block := r.block + 1 }
  else beginPass cfg { r with pass := r.pass + 1, startchar := cfg.nextStartchar r.startchar }

def Rank.pattern (cfg : Config) (r : Rank) : List UInt8 :=
  cfg.fillWithExpectedPattern r.startchar r.block

/-- A piece of `m` bytes of the block, at `pos`, can be accessed that way. -/
def Accessible (cfg : Config) (f : ByteFile) (viaMmap : Bool) (pos m : Nat) : Prop :=
  viaMmap = true → pos + m ≤ cfg.length ∧ pos + m ≤ f.size

inductive Step (cfg : Config) : State cfg.numProcs → State cfg.numProcs → Prop
  | prepRoot {s p} : (s.ranks p).pc = .prep → p.val = 0 → cfg.length ≠ 0 →
      cfg.zeroWithHole = true ∨ cfg.blocksize.toNat ≤ MAX_RW_COUNT →
      Step cfg s ((s.setFile (cfg.prepFile s.file)).goto p .prepBarrier)
  /-- The first `write` of `zero_file` is short. -/
  | zeroAbort {s p} : (s.ranks p).pc = .prep → p.val = 0 → cfg.length ≠ 0 →
      cfg.zeroWithHole = false → MAX_RW_COUNT < cfg.blocksize.toNat →
      Step cfg s ((s.setFile ((cfg.openFile s.file).pwrite (List.replicate MAX_RW_COUNT 0) 0)).goto
        p .aborted)
  | prepRest {s p} : (s.ranks p).pc = .prep → p.val ≠ 0 → Step cfg s (s.goto p .prepBarrier)
  | enterPrep {s p} : (s.ranks p).pc = .prepBarrier →
      Step cfg s ((s.enter p).goto p .inPrepBarrier)
  | leavePrep {s p} : (s.ranks p).pc = .inPrepBarrier → s.barrier.Open p →
      Step cfg s ((s.leave p).goto p .openAfter)
  /-- `do_mmap` fails on an empty mapping. -/
  | mapAbort {s p} : (s.ranks p).pc = .prep ∧ p.val = 0 ∨ (s.ranks p).pc = .openAfter ∧ p.val ≠ 0 →
      cfg.length = 0 → Step cfg s (s.goto p .aborted)
  /-- Reading the whole file into `local_pattern` runs past the mapping. -/
  | populateFault {s p} : (s.ranks p).pc = .openAfter → cfg.prePopulate = true →
      cfg.length < cfg.numBlocks * cfg.blocksize.toNat → Step cfg s (s.goto p .fault)
  | populate {s p} : (s.ranks p).pc = .openAfter → cfg.length ≠ 0 →
      (cfg.prePopulate = true → cfg.numBlocks * cfg.blocksize.toNat ≤ cfg.length) →
      Step cfg s (s.setRank p (beginPass cfg (s.ranks p)))
  | doWriter {s p viaMmap} : (s.ranks p).pc = .block → (s.ranks p).block % cfg.numProcs = p.val →
      cfg.writers.Allows viaMmap →
      Step cfg s (s.setRank p { s.ranks p with pc := .write 0, mmapWrites := viaMmap })
  | doReader {s p viaMmap} : (s.ranks p).pc = .block → (s.ranks p).block % cfg.numProcs ≠ p.val →
      cfg.readers.Allows viaMmap →
      Step cfg s (s.setRank p { s.ranks p with pc := .barrier, mmapReads := viaMmap })
  | writePiece {s p k m} : (s.ranks p).pc = .write k → 0 < m →
      k + m ≤ cfg.transfer (s.ranks p).mmapWrites →
      Accessible cfg s.file (s.ranks p).mmapWrites (cfg.offset (s.ranks p).block + k) m →
      Step cfg s ((s.setFile (s.file.pwrite ((((s.ranks p).pattern cfg).drop k).take m)
        (cfg.offset (s.ranks p).block + k))).goto p (.write (k + m)))
  | writeFault {s p k} : (s.ranks p).pc = .write k → k < cfg.transfer (s.ranks p).mmapWrites →
      ¬ Accessible cfg s.file (s.ranks p).mmapWrites (cfg.offset (s.ranks p).block + k) 1 →
      Step cfg s (s.goto p .fault)
  | shortWrite {s p k} : (s.ranks p).pc = .write k → k = cfg.transfer (s.ranks p).mmapWrites →
      k < cfg.blocksize.toNat → Step cfg s (s.goto p .aborted)
  | written {s p} : (s.ranks p).pc = .write cfg.blocksize.toNat → Step cfg s (s.goto p .barrier)
  | enter {s p} : (s.ranks p).pc = .barrier → Step cfg s ((s.enter p).goto p .inBarrier)
  | leaveWriter {s p} : (s.ranks p).pc = .inBarrier → s.barrier.Open p →
      (s.ranks p).block % cfg.numProcs = p.val →
      Step cfg s ((s.leave p).setRank p (nextBlock cfg (s.ranks p)))
  | leaveReader {s p} : (s.ranks p).pc = .inBarrier → s.barrier.Open p →
      (s.ranks p).block % cfg.numProcs ≠ p.val →
      Step cfg s ((s.leave p).setRank p { s.ranks p with pc := .read, tmpblock := [] })
  | readPiece {s p m} : (s.ranks p).pc = .read → 0 < m →
      (s.ranks p).tmpblock.length + m ≤ cfg.transfer (s.ranks p).mmapReads →
      Accessible cfg s.file (s.ranks p).mmapReads
        (cfg.offset (s.ranks p).block + (s.ranks p).tmpblock.length) m →
      cfg.offset (s.ranks p).block + (s.ranks p).tmpblock.length + m ≤ s.file.size →
      Step cfg s (s.setRank p { s.ranks p with
        tmpblock := (s.ranks p).tmpblock ++ s.file.pread m
          (cfg.offset (s.ranks p).block + (s.ranks p).tmpblock.length) })
  | readFault {s p} : (s.ranks p).pc = .read →
      (s.ranks p).tmpblock.length < cfg.transfer (s.ranks p).mmapReads →
      ¬ Accessible cfg s.file (s.ranks p).mmapReads
        (cfg.offset (s.ranks p).block + (s.ranks p).tmpblock.length) 1 →
      Step cfg s (s.goto p .fault)
  | shortRead {s p} : (s.ranks p).pc = .read → (s.ranks p).mmapReads = false →
      (s.ranks p).tmpblock.length < cfg.blocksize.toNat →
      s.file.size ≤ cfg.offset (s.ranks p).block + (s.ranks p).tmpblock.length ∨
        (s.ranks p).tmpblock.length = cfg.transfer false →
      Step cfg s (s.goto p .aborted)
  | verified {s p} : (s.ranks p).pc = .read →
      (s.ranks p).tmpblock = (s.ranks p).pattern cfg →
      Step cfg s (s.setRank p (nextBlock cfg (s.ranks p)))
  | verifyFailed {s p} : (s.ranks p).pc = .read →
      (s.ranks p).tmpblock.length = cfg.blocksize.toNat →
      (s.ranks p).tmpblock ≠ (s.ranks p).pattern cfg →
      Step cfg s (s.goto p .aborted)

def initial (f : ByteFile) : State n := ⟨f, Barrier.start, fun _ => {}⟩

/-- Any file can be there before the run. -/
def multiMmap (cfg : Config) : System (State cfg.numProcs) where
  Init s := ∃ f, s = initial f
  Step := Step cfg

end Ocfs2Test.MultiMmap
