import Ocfs2Test.Lib.Stdio
import Ocfs2Test.Lib.Directory

/-!
# The shadow table of inline-dirs and index_dir

Both programs keep an array `dirents` beside the directory they work on: a slot
for every file ever created, with `name_len` 0 while the file is unlinked, its
name staying for a later refill. The functions that change one entry are the same
text in `inline-dirs-utils.c` and `index_dir.c`, apart from the order in which
`unlink_dirent` does its work; the loops around them are in the modules of the
programs.
-/

namespace Ocfs2Test.Dirs

open Lib Lib.Stdio

def OCFS2_MAX_FILENAME_LEN : Nat := 255

structure Dirent where
  type : FileType
  nameLen : Nat
  seen : Nat := 0
  name : List Char
  deriving DecidableEq, Repr

def Dirent.isDotEntry (d : Dirent) : Bool :=
  d.nameLen == 1 && d.name[0]? == some '.' ||
    d.nameLen == 2 && d.name[0]? == some '.' && d.name[1]? == some '.'

structure Table where
  dirents : List Dirent
  dir : Directory (List Char)

inductive Stop
  /-- The numbers given for `rand()` are used up. -/
  | starved
  | exit
  /-- A write past an array. -/
  | fault
  deriving DecidableEq, Repr

def getRand (lo hi : Nat) (r : Rand) : Nat :=
  if lo = 0 ∧ hi = 0 then 0 else lo + r.val % (hi - lo + 1)

def dot : Dirent := ⟨.dir, 1, 0, ['.']⟩

def dotDot : Dirent := ⟨.dir, 2, 0, ['.', '.']⟩

def createAndPrepDir : Table where
  dirents := [dot, dotDot]
  dir := (AList.singleton ['.', '.'] .dir).insert ['.'] .dir

def isName (n : List Char) : Bool :=
  !n.isEmpty && n.length ≤ OCFS2_MAX_FILENAME_LEN && !n.contains '/' && !n.contains '\x00'

/-- `open` of `dir_name/n` with `FILE_BUFFERED_RW_FLAGS`. -/
def openFile (n : List Char) (d : Directory (List Char)) : Option (Directory (List Char)) :=
  if isName n then d.creat n else none

inductive Program
  | inlineDirs
  | indexDir
  deriving DecidableEq, Repr

def Program.maxDirents : Program → Nat
  | .inlineDirs => 1024
  | .indexDir => 40000

/-- What one call of `create_file`, or one iteration of a loop that does not
`continue`, does. -/
inductive Act
  | create (filename : List Char)
  | unlink (i : Nat)
  | fill (i : Nat)
  | rename (i : Nat)
  | deletingRename (i j : Nat)
  deriving DecidableEq, Repr

/-- `create_file`. The NUL after a name of 255 bytes falls into the padding of
`struct my_dirent`. -/
def createFile (p : Program) (filename : List Char) (s : Table) : Except Stop Table :=
  if s.dirents.length < p.maxDirents ∧ filename.length ≤ OCFS2_MAX_FILENAME_LEN then
    match openFile filename s.dir with
    | none => .error .exit
    | some dir => .ok ⟨s.dirents ++ [⟨.reg, filename.length, 0, filename⟩], dir⟩
  else .error .fault

/-- `unlink_dirent` and what follows it in `random_unlink`. `index_dir` clears the
slot first and prints a failure of `unlink` only. -/
def unlinkEntry : Program → Nat → Table → Except Stop Table
  | .inlineDirs, i, s =>
    match s.dirents[i]? with
    | none => .error .fault
    | some d =>
      match s.dir.unlink d.name with
      | none => .error .exit
      | some dir => .ok ⟨s.dirents.set i { d with nameLen := 0 }, dir⟩
  | .indexDir, i, s =>
    match s.dirents[i]? with
    | none => .error .fault
    | some d =>
      .ok ⟨s.dirents.set i { d with nameLen := 0, seen := 0 }, (s.dir.unlink d.name).getD s.dir⟩

def fillEntry (i : Nat) (s : Table) : Except Stop Table :=
  match s.dirents[i]? with
  | none => .error .fault
  | some d =>
    match openFile d.name s.dir with
    | none => .error .exit
    | some dir =>
      .ok ⟨s.dirents.set i { d with type := .reg, nameLen := d.name.length, seen := 0 }, dir⟩

def renameEntry (i : Nat) (s : Table) : Except Stop Table :=
  match s.dirents[i]? with
  | none => .error .fault
  | some d =>
    match s.dir.rename d.name ('R' :: d.name.tail) with
    | none => .error .exit
    | some dir => .ok ⟨s.dirents.set i { d with name := 'R' :: d.name.tail }, dir⟩

def deletingRenameEntry (i j : Nat) (s : Table) : Except Stop Table :=
  match s.dirents[i]?, s.dirents[j]? with
  | some d₁, some d₂ =>
    match s.dir.rename d₁.name d₂.name with
    | none => .error .exit
    | some dir =>
      .ok ⟨(s.dirents.set j { d₂ with type := d₁.type }).set i { d₁ with nameLen := 0 }, dir⟩
  | _, _ => .error .fault

def perform (p : Program) : Act → Table → Except Stop Table
  | .create filename => createFile p filename
  | .unlink i => unlinkEntry p i
  | .fill i => fillEntry i
  | .rename i => renameEntry i
  | .deletingRename i j => deletingRenameEntry i j

-- ---------------------------------------------------------------------------
-- Runs
-- ---------------------------------------------------------------------------

/-- A run: its acts with the tables they find, and the table and the random
numbers that it leaves. -/
structure Exec where
  steps : List (Table × Act) := []
  result : Except Stop (Table × List Rand)

def Exec.act (p : Program) (a : Act) (s : Table) (rest : Table → Exec) : Exec :=
  match perform p a s with
  | .error e => ⟨[(s, a)], .error e⟩
  | .ok s' => ⟨(s, a) :: (rest s').steps, (rest s').result⟩

def Exec.andThen (e : Exec) (rest : Table → List Rand → Exec) : Exec :=
  match e.result with
  | .error _ => e
  | .ok (s, rs) => ⟨e.steps ++ (rest s rs).steps, (rest s rs).result⟩

def pickLive (f : Nat → Act) (i : Nat) (s : Table) : Option Act :=
  match s.dirents[i]? with
  | none => none
  | some d => if d.isDotEntry ∨ d.nameLen = 0 then none else some (f i)

def pickEmpty (i : Nat) (s : Table) : Option Act :=
  match s.dirents[i]? with
  | none => none
  | some d => if d.isDotEntry ∨ 0 < d.nameLen then none else some (.fill i)

def pickTwo (i j : Nat) (s : Table) : Option Act :=
  match s.dirents[i]?, s.dirents[j]? with
  | some d₁, some d₂ =>
    if i = j then none
    else if d₁.isDotEntry ∨ d₂.isDotEntry then none
    else if d₁.nameLen = 0 ∨ d₂.nameLen = 0 then none
    else some (.deletingRename i j)
  | _, _ => none

def Table.drawIndex (s : Table) (r : Rand) : Nat := getRand 0 (s.dirents.length - 1) r

-- ---------------------------------------------------------------------------
-- Checks
-- ---------------------------------------------------------------------------

def findMyDirent (name : List Char) (ds : List Dirent) : Option Nat :=
  ds.findIdx? fun d => d.nameLen != 0 && (d.nameLen == name.length && d.name == name)

def Dirent.unseen (d : Dirent) : Dirent := { d with seen := 0 }

/-- The first loop of `verify_dirents`, over what `readdir` returns. -/
def verifyListing : List (Entry (List Char)) → List Dirent → Except Stop (List Dirent)
  | [], ds => .ok ds
  | ⟨name, type⟩ :: es, ds =>
    match findMyDirent name ds with
    | none => .error .exit
    | some i =>
      match ds[i]? with
      | none => .error .fault
      | some d =>
        if d.type ≠ type then .error .exit
        else if d.seen ≠ 0 then .error .exit
        else verifyListing es (ds.set i { d with seen := d.seen + 1 })

end Ocfs2Test.Dirs
