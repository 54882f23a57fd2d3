import Ocfs2Test.Lib.ByteFile
import Ocfs2Test.Lib.PhaseRules
import Ocfs2Test.Lib.Stdio

/-!
# multi-inline-data

Every rank has a pattern of its own. Rank 0 makes the file from its pattern and sends
the pattern to the others; they work on the file and their patterns and send these
back. All ranks share the store, so the file system is coherent. A space reservation
changes nothing that can be read.
-/

namespace Ocfs2Test.InlineData

open Lib Lib.Stdio

def PATTERN_SZ : Nat := 8192

structure Config where
  size : Nat
  blocksize : Nat
  maxInlineSize : Nat
  /-- Whether MPI keeps a copy of a message, so that `MPI_Wait` returns before it is received. -/
  buffered : Bool
  two_le_size : 2 ≤ size
  four_le_maxInlineSize : 4 ≤ maxInlineSize
  maxInlineSize_le : maxInlineSize ≤ blocksize
  blocksize_le : blocksize ≤ 4096

def Config.root (c : Config) : Fin c.size := ⟨0, Nat.lt_of_lt_of_le Nat.zero_lt_two c.two_le_size⟩

inductive Ioctl
  | ok
  | enotty
  deriving DecidableEq

/-- What `rand` gives each rank in each test, and what comes of the ioctls. -/
structure Choices (c : Config) where
  rand : Nat → Fin c.size → Nat → Rand
  reserve : Fin c.size → Ioctl
  punchHole : Fin c.size → Ioctl
  reserveAll : Fin c.size → Ioctl

-- ---------------------------------------------------------------------------
-- Patterns and files
-- ---------------------------------------------------------------------------

abbrev Pattern := Nat → UInt8

def getRand (min max : Nat) (r : Rand) : Nat :=
  if min = 0 ∧ max = 0 then 0 else min + r.val % (max - min + 1)

def randChar (r : Rand) : UInt8 := 'A'.toUInt8 + UInt8.ofNat (getRand 0 25 r)

def fillPattern (size : Nat) (rand : Nat → Rand) : Pattern := fun i =>
  if i < size then randChar (rand i) else 0

def clear (pattern : Pattern) (offset bytes : Nat) : Pattern := fun i =>
  if offset ≤ i ∧ i < offset + bytes then 0 else pattern i

def writeAt (f : ByteFile) (buf : Pattern) (count offset : Nat) : ByteFile :=
  f.pwrite ((List.range count).map buf) offset

/-- Stores behind the end of the file are lost. -/
def mmapWriteAt (f : ByteFile) (buf : Pattern) (count offset : Nat) : ByteFile where
  size := f.size
  byte i := if i < f.size ∧ offset ≤ i ∧ i < offset + count then buf (i - offset) else f.byte i
  zero_beyond i h := by
    rw [if_neg fun hc => Nat.not_le.mpr hc.1 h]
    exact f.zero_beyond i h

/-- The file as it is after `open` with O_TRUNC, and the writes. -/
def prepFileNoFill (c : Config) (pattern : Pattern) (size : Nat) (openDirect : Bool) : ByteFile :=
  let count := if openDirect then c.blocksize else size
  let f := writeAt ByteFile.empty pattern count 0
  if count > size then f.truncate size else f

/-- The ioctl that frees the space reads as zero where it succeeds. -/
def tryPunchHole (f : ByteFile) (offset count : Nat) : Ioctl → ByteFile
  | .ok =>
    { f with
      byte i := if offset ≤ i ∧ i < offset + count then 0 else f.byte i
      zero_beyond i h := by
        split
        · rfl
        · exact f.zero_beyond i h }
  | .enotty => f

-- ---------------------------------------------------------------------------
-- Ranks
-- ---------------------------------------------------------------------------

/-- `own p` is the file of rank `p` in the last test. -/
inductive FileName (size : Nat)
  | shared
  | own (p : Fin size)
  deriving DecidableEq

structure Store (c : Config) where
  pattern : Fin c.size → Pattern
  files : FileName c.size → Option ByteFile
  /-- The messages on their way from one rank to another. -/
  sent : Fin c.size → Fin c.size → List Pattern

/-- Each operation with the work on the pattern that goes with it. -/
inductive Op (c : Config)
  | fillPattern (size : Nat) (rand : Nat → Rand)
  | prepFileNoFill (file : FileName c.size) (size : Nat) (openDirect : Bool)
  | prepFile (file : FileName c.size) (size : Nat) (rand : Nat → Rand)
  | writeAt (file : FileName c.size) (count offset : Nat)
  | mmapWriteAt (file : FileName c.size) (count : Nat)
  | truncatePattern (file : FileName c.size) (oldSize newSize : Nat)
  | extendPattern (file : FileName c.size) (oldSize newSize : Nat)
  | tryPunchHole (file : FileName c.size) (offset count : Nat) (ret : Ioctl)
  | verifyPatternFd (file : FileName c.size) (size : Nat) (directRead : Bool)
  | verifyPatternMmap (file : FileName c.size) (size : Nat)
  | unlink (file : FileName c.size)
  | send (dest : Fin c.size)
  | wait (dest : Fin c.size)
  | recv (source : Fin c.size)

section
variable {c : Config}

def Store.setPattern (t : Store c) (p : Fin c.size) (pattern : Pattern) : Store c :=
  { t with pattern := Function.update t.pattern p pattern }

def Store.setFile (t : Store c) (file : FileName c.size) (f : Option ByteFile) : Store c :=
  { t with files := Function.update t.files file f }

def Store.setSent (t : Store c) (p q : Fin c.size) (messages : List Pattern) : Store c :=
  { t with sent := Function.update t.sent p (Function.update (t.sent p) q messages) }

def onFile (t : Store c) (file : FileName c.size) (f : ByteFile → Outcome (Store c)) :
    Outcome (Store c) :=
  match t.files file with
  | none => .failed
  | some b => f b

/-- A verification that finds a difference fails, also where its result is dropped. -/
def exec (p : Fin c.size) (op : Op c) (t : Store c) : Outcome (Store c) :=
  match op with
  | .fillPattern size rand => .next (t.setPattern p (fillPattern size rand))
  | .prepFileNoFill file size openDirect =>
    .next (t.setFile file (some (prepFileNoFill c (t.pattern p) size openDirect)))
  | .prepFile file size rand =>
    let pattern := fillPattern size rand
    .next ((t.setPattern p pattern).setFile file (some (prepFileNoFill c pattern size false)))
  | .writeAt file count offset => onFile t file fun f =>
    .next (t.setFile file (some (writeAt f (fun i => t.pattern p (offset + i)) count offset)))
  | .mmapWriteAt file count => onFile t file fun f =>
    .next (t.setFile file (some (mmapWriteAt f (t.pattern p) count 0)))
  | .truncatePattern file oldSize newSize => onFile t file fun f =>
    .next ((t.setPattern p (clear (t.pattern p) newSize (oldSize - newSize))).setFile file
      (some (f.truncate newSize)))
  | .extendPattern file oldSize newSize => onFile t file fun f =>
    .next ((t.setPattern p (clear (t.pattern p) oldSize (newSize - oldSize))).setFile file
      (some (f.truncate newSize)))
  | .tryPunchHole file offset count ret => onFile t file fun f =>
    .next ((t.setPattern p (clear (t.pattern p) offset count)).setFile file
      (some (tryPunchHole f offset count ret)))
  | .verifyPatternFd file size directRead => onFile t file fun f =>
    if f.pread (if directRead then c.blocksize else size) 0 = (List.range size).map (t.pattern p)
    then .next t else .failed
  | .verifyPatternMmap file size => onFile t file fun f =>
    if ∀ i < size, f.byte i = t.pattern p i then .next t else .failed
  | .unlink file => .next (t.setFile file none)
  | .send q => .next (t.setSent p q (t.sent p q ++ [t.pattern p]))
  | .wait q => if c.buffered ∨ t.sent p q = [] then .next t else .blocked
  | .recv q =>
    match t.sent q p with
    | [] => .blocked
    | m :: rest => .next ((t.setPattern p m).setSent q p rest)

-- ---------------------------------------------------------------------------
-- Scripts
-- ---------------------------------------------------------------------------

variable (c) in
def Config.others : List (Fin c.size) := (List.finRange c.size).tail

def sendPattern (dests : List (Fin c.size)) : List (Op c) :=
  dests.flatMap fun q => [.send q, .wait q]

def sendPatternToRanks (p : Fin c.size) : List (Op c) :=
  if p = c.root then sendPattern c.others else sendPattern [c.root]

def recvPatternFromRanks (p : Fin c.size) : List (Op c) :=
  if p = c.root then c.others.map .recv else [.recv c.root]

/-- Rank 0 has something to do and sends its pattern. -/
def fromRoot (ops : List (Op c)) (p : Fin c.size) : List (Op c) :=
  if p = c.root then ops ++ sendPatternToRanks p else recvPatternFromRanks p

/-- The others have something to do and send theirs. -/
def toRoot (ops : Fin c.size → List (Op c)) (p : Fin c.size) : List (Op c) :=
  if p ≠ c.root then ops p ++ sendPatternToRanks p else recvPatternFromRanks p

def onlyRoot (ops : List (Op c)) (p : Fin c.size) : List (Op c) := if p = c.root then ops else []

def onlyOthers (ops : Fin c.size → List (Op c)) (p : Fin c.size) : List (Op c) :=
  if p ≠ c.root then ops p else []

variable (o : Choices c)

/-- `get_rand(0, max_inline_size - 1)` and `get_rand(1, max_inline_size - offset)`. -/
def Choices.offset (n : Nat) (p : Fin c.size) : Nat := getRand 0 (c.maxInlineSize - 1) (o.rand n p 0)

def Choices.count (n : Nat) (p : Fin c.size) : Nat :=
  getRand 1 (c.maxInlineSize - o.offset n p) (o.rand n p 1)

/-- What `fill_pattern` draws, from draw `i` of test `n` on. -/
def Choices.chars (n : Nat) (i : Nat) : Nat → Rand := fun k => o.rand n c.root (i + k)

def writeBasic : List (Fin c.size → List (Op c)) :=
  [fromRoot [.prepFile .shared c.maxInlineSize (o.chars 1 0)],
    fun _ => [.verifyPatternFd .shared c.maxInlineSize false]]

def rewritePortion : List (Fin c.size → List (Op c)) :=
  [toRoot fun p => [.writeAt .shared (o.count 2 p) (o.offset 2 p)],
    onlyRoot [.verifyPatternFd .shared c.maxInlineSize false]]

variable (c) in
def reduceSize : List (Fin c.size → List (Op c)) :=
  [toRoot fun _ => [.truncatePattern .shared c.maxInlineSize (c.maxInlineSize / 2)],
    onlyRoot [.verifyPatternFd .shared (c.maxInlineSize / 2) false]]

variable (c) in
def extendFile : List (Fin c.size → List (Op c)) :=
  [toRoot fun _ => [.extendPattern .shared (c.maxInlineSize / 2) c.maxInlineSize],
    onlyRoot [.verifyPatternFd .shared c.maxInlineSize false]]

def doubleWrite : List (Fin c.size → List (Op c)) :=
  let count := c.maxInlineSize / 2
  let initCount := count / 2
  [fromRoot [.fillPattern count (o.chars 5 0), .prepFileNoFill .shared initCount false],
    toRoot fun p =>
      let offset := getRand 1 initCount (o.rand 5 p 0)
      [.writeAt .shared (count - offset) offset],
    onlyRoot [.verifyPatternFd .shared count false]]

def fsyncTest : List (Fin c.size → List (Op c)) :=
  [fromRoot [.prepFile .shared c.maxInlineSize (o.chars 6 0)],
    fun p => onlyOthers (fun _ => [.verifyPatternFd .shared c.maxInlineSize false]) p ++
      [.verifyPatternFd .shared c.maxInlineSize false]]

def fdatasyncTest : List (Fin c.size → List (Op c)) :=
  [fromRoot [.prepFile .shared c.maxInlineSize (o.chars 7 0)],
    fun _ => [.verifyPatternFd .shared c.maxInlineSize false]]

def mmapReads : List (Fin c.size → List (Op c)) :=
  [fromRoot [.prepFile .shared c.maxInlineSize (o.chars 8 0)],
    onlyOthers fun _ => (List.range c.maxInlineSize).map fun j =>
      .verifyPatternMmap .shared (j + 1)]

def reserveSpace : List (Fin c.size → List (Op c)) :=
  [onlyOthers fun p =>
    if o.reserve p ≠ .enotty then [.verifyPatternFd .shared c.maxInlineSize false] else []]

def punchHole : List (Fin c.size → List (Op c)) :=
  [fromRoot [.prepFile .shared c.maxInlineSize (o.chars 10 0)],
    toRoot fun p => [.tryPunchHole .shared (o.offset 10 p) (o.count 10 p) (o.punchHole p)],
    fun _ => []]

def largeWrite : List (Fin c.size → List (Op c)) :=
  [fromRoot [.fillPattern PATTERN_SZ (o.chars 11 0), .prepFileNoFill .shared c.maxInlineSize true],
    toRoot fun _ => [.writeAt .shared (PATTERN_SZ - c.maxInlineSize) c.maxInlineSize],
    onlyRoot [.verifyPatternFd .shared PATTERN_SZ false]]

def mmapWrite : List (Fin c.size → List (Op c)) :=
  [fromRoot [.prepFile .shared c.maxInlineSize (o.chars 12 0),
      .fillPattern c.maxInlineSize (o.chars 12 c.maxInlineSize),
      .mmapWriteAt .shared c.maxInlineSize],
    onlyOthers fun _ => [.verifyPatternFd .shared c.maxInlineSize false]]

def largeExtend : List (Fin c.size → List (Op c)) :=
  [fromRoot [.prepFile .shared c.maxInlineSize (o.chars 13 0)],
    toRoot fun _ => [.extendPattern .shared c.maxInlineSize (2 * c.maxInlineSize)],
    onlyRoot [.verifyPatternFd .shared (2 * c.maxInlineSize) false]]

/-- A rank sends its pattern only where the reservation did not fail with ENOTTY. -/
def expandByReservation (p : Fin c.size) : List (Op c) :=
  if p ≠ c.root then
    if o.reserveAll p ≠ .enotty then
      .extendPattern .shared c.maxInlineSize PATTERN_SZ :: sendPatternToRanks p
    else []
  else recvPatternFromRanks p

def largeReservation : List (Fin c.size → List (Op c)) :=
  [fromRoot [.prepFile .shared c.maxInlineSize (o.chars 14 0)],
    expandByReservation o,
    onlyRoot [.verifyPatternFd .shared PATTERN_SZ false]]

def directRead : List (Fin c.size → List (Op c)) :=
  [fromRoot [.prepFile .shared c.maxInlineSize (o.chars 15 0)],
    onlyOthers fun _ => [.verifyPatternFd .shared c.maxInlineSize true]]

def directWrite : List (Fin c.size → List (Op c)) :=
  [fromRoot [.fillPattern c.maxInlineSize (o.chars 16 0),
      .prepFileNoFill .shared c.maxInlineSize true],
    onlyOthers fun _ => [.verifyPatternFd .shared c.maxInlineSize true],
    onlyRoot [.unlink .shared]]

def multipleFiles : List (Fin c.size → List (Op c)) :=
  [fun p => [.prepFile (.own p) c.maxInlineSize (o.rand 17 p)],
    fun p => [.writeAt (.own p) (o.count 18 p) (o.offset 18 p)],
    fun p => [.verifyPatternFd (.own p) c.maxInlineSize false],
    fun p => [.unlink (.own p)]]

/-- The phases between the barriers, up to the large reservation. -/
def firstTests : List (Fin c.size → List (Op c)) :=
  (fun _ => []) :: writeBasic o ++ rewritePortion o ++ reduceSize c ++ extendFile c ++
    doubleWrite o ++ fsyncTest o ++ fdatasyncTest o ++ mmapReads o ++ reserveSpace o ++
    punchHole o ++ largeWrite o ++ mmapWrite o ++ largeExtend o

def lastTests : List (Fin c.size → List (Op c)) :=
  directRead o ++ directWrite o ++ multipleFiles o ++ [fun _ => [], fun _ => []]

def program : Phased (Fin c.size) (Op c) (Store c) :=
  .ofList (firstTests o ++ (largeReservation o ++ lastTests o)) exec

def Quiet (t : Store c) : Prop := ∀ p q, t.sent p q = []

def testRegularFile : System (Phased.State (Fin c.size) (Op c) (Store c)) :=
  (program o).system Quiet

end

end Ocfs2Test.InlineData
