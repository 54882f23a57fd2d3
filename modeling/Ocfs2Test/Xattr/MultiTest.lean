import Ocfs2Test.Lib.Transition
import Ocfs2Test.Lib.Barrier
import Ocfs2Test.Lib.Xattr
import Ocfs2Test.Xattr.Value

/-!
# xattr-multi-test

A round of `one_round_run` from the first attribute to the last barrier, without
`-o`. The file has no attributes at first, whatever its type, and nobody else
touches it. A send is complete at once: what rank 0 sends waits for the receiver.
`teardown(MPI_RET_FAILED)` is where a rank fails; `fault` is a write past a buffer.
-/

namespace Ocfs2Test.Xattr.MultiTest

open Lib Stdio CString

def XATTR_NAME_LEAST_SZ : Nat := 20

def XATTR_LIST_MAX_SZ : Nat := 65536

structure Config where
  size : Nat
  xattrNums : Nat
  xattrNameSz : Nat
  xattrValueSz : Nat
  eaNmClass : NamespaceClass := .user
  doRandomTest : Bool := false
  keepEa : Bool := false
  size_pos : 0 < size

namespace Config

variable (c : Config)

def listSz : Nat := (c.xattrNameSz + 1) * c.xattrNums

def doList : Bool := c.listSz ≤ XATTR_LIST_MAX_SZ

def root : Fin c.size := ⟨0, c.size_pos⟩

def owner (j : Nat) : Fin c.size := ⟨j % c.size, Nat.mod_lt j c.size_pos⟩

end Config

/-- The barriers of a round, from the loop over the attributes on. -/
inductive Sync
  | names
  | added
  | raced
  | listed
  | removed
  | last
  deriving DecidableEq

inductive Pc
  | name
  | send (i : Nat)
  | add
  | readAdded
  | race
  | list
  | remove
  | verify
  | call (b : Sync)
  | wait (b : Sync)
  | done
  | failed
  | fault
  deriving DecidableEq

structure Rank where
  pc : Pc
  j : Nat
  nameList : Nat → Name

structure State (c : Config) where
  ranks : Fin c.size → Rank
  barrier : Barrier (Fin c.size)
  /-- Names sent to each rank and not received yet. -/
  chan : Fin c.size → List Name
  xattrs : Xattrs Name (Value c.xattrValueSz)
  /-- Who removed what, for the statements only. -/
  removals : List (Fin c.size × Name)

/-- What a step may draw: the random size and characters, the order of a listing,
and what is found behind an allocation of no bytes. -/
structure Choice where
  rsz : Rand := 0
  x : Nat → Nat := fun _ => 0
  order : List Name → List Name := id
  junk : Char := nul
  order_perm : ∀ ns, (order ns).Perm ns := by exact fun ns => .refl ns

section
variable {c : Config}

def State.setRank (s : State c) (p : Fin c.size) (r : Rank) : State c :=
  { s with ranks := Function.update s.ranks p r }

def State.goto (s : State c) (p : Fin c.size) (pc : Pc) : State c :=
  s.setRank p { s.ranks p with pc := pc }

theorem State.ranks_goto (s : State c) (p : Fin c.size) (pc : Pc) :
    (s.goto p pc).ranks p = { s.ranks p with pc := pc } := Function.update_self ..

theorem State.ranks_goto_of_ne (s : State c) (pc : Pc) (h : q ≠ p) :
    (s.goto p pc).ranks q = s.ranks q := Function.update_of_ne h ..

def Rank.name (r : Rank) : Name := r.nameList r.j

end

-- ---------------------------------------------------------------------------
-- The way through a round
-- ---------------------------------------------------------------------------

section
variable (c : Config)

def bail (r : Rank) : Rank :=
  if c.keepEa then { r with pc := .call .last } else { r with pc := .remove, j := 0 }

def loopHead (r : Rank) : Rank :=
  if r.j < c.xattrNums then { r with pc := .name }
  else if c.doList then { r with pc := .list } else bail c r

def afterSync (p : Fin c.size) (r : Rank) : Sync → Rank
  | .names => { r with pc := if p = c.root then .add else .call .added }
  | .added => { r with pc := .race }
  | .raced => loopHead c { r with j := r.j + 1 }
  | .listed => bail c r
  | .removed => { r with pc := if p = c.root then .verify else .call .last }
  | .last => { r with pc := .done }

end

section
variable {c : Config} (k : Choice) (s : State c) (p : Fin c.size)

def generate : State c :=
  let r := s.ranks p
  let lo := if c.doRandomTest then XATTR_NAME_LEAST_SZ else c.xattrNameSz
  let name := xattrNameGenerator r.j c.eaNmClass lo c.xattrNameSz k.rsz k.x
  s.setRank p { r with pc := .send 1, nameList := Function.update r.nameList r.j name }

def send (i : Nat) : State c :=
  if h : i < c.size then
    { s.goto p (.send (i + 1)) with
      chan := Function.update s.chan ⟨i, h⟩ (s.chan ⟨i, h⟩ ++ [(s.ranks p).name]) }
  else s.goto p (.call .names)

def recv : Option (State c) :=
  let r := s.ranks p
  match s.chan p with
  | [] => none
  | name :: rest =>
    some { s.setRank p { r with pc := .call .names, nameList := Function.update r.nameList r.j name } with
      chan := Function.update s.chan p rest }

/-- `xattr_value_constructor` and `add_or_update_ea`. -/
def addOrUpdateEa (set : Name → Value c.xattrValueSz → Xattrs Name (Value c.xattrValueSz) →
    Option (Xattrs Name (Value c.xattrValueSz))) (pc : Pc) : State c :=
  let name := (s.ranks p).name
  match xattrValueConstructor c.xattrValueSz name k.rsz k.x with
  | none => s.goto p .fault
  | some v =>
    match Xattrs.setxattr name.length c.xattrValueSz set name v s.xattrs with
    | none => s.goto p .failed
    | some xattrs => { s.goto p pc with xattrs := xattrs }

/-- `read_ea` and `xattr_value_validator`; the second read is `raced`, with a test
for an empty value in between. -/
def readEa (raced : Bool) (pc : Pc) : State c :=
  let name := (s.ranks p).name
  match s.xattrs.get name with
  | none => s.goto p .failed
  | some v =>
    if raced ∧ text v.toList = [] ∧ c.xattrValueSz < 80 then s.goto p .failed
    else
      match xattrValueValidator name v.toList with
      | .error _ => s.goto p .failed
      | .ok () => s.goto p pc

/-- What `listxattr` leaves in a zeroed buffer of `listSz` bytes. -/
def listxattr : Option (List Char) :=
  let bytes := listing (k.order s.xattrs.keys)
  if c.listSz = 0 then some []
  else if c.listSz < bytes.length then none
  else some (bytes ++ List.replicate (c.listSz - bytes.length) nul)

def listTest : State c :=
  match listxattr k s with
  | none => s.goto p .failed
  | some list =>
    if ∀ name ∈ listParser c.xattrNums list,
        isNamelistMember c.xattrNums name (s.ranks p).nameList = true then s.goto p (.call .listed)
    else s.goto p .failed

def removeEa : State c :=
  let r := s.ranks p
  if r.j < c.xattrNums then
    if r.j % c.size = p.val then
      match s.xattrs.remove r.name with
      | none => s.goto p .failed
      | some xattrs =>
        { s.setRank p { r with j := r.j + 1 } with
          xattrs := xattrs
          removals := (p, r.name) :: s.removals }
    else s.setRank p { r with j := r.j + 1 }
  else s.goto p (.call .removed)

/-- `strcmp(veri_list, "")`. -/
def verifyEmpty : State c :=
  match listxattr k s with
  | none => s.goto p .failed
  | some list => if list.headD k.junk ≠ nul then s.goto p .failed else s.goto p (.call .last)

def next : Option (State c) :=
  match (s.ranks p).pc with
  | .name => if p = c.root then some (generate k s p) else recv s p
  | .send i => some (send s p i)
  | .add => some (addOrUpdateEa k s p Xattrs.create .readAdded)
  | .readAdded => some (readEa s p false (.call .added))
  | .race =>
    some (if p = c.root then readEa s p true (.call .raced)
      else addOrUpdateEa k s p Xattrs.replace (.call .raced))
  | .list => some (listTest k s p)
  | .remove => some (removeEa s p)
  | .verify => some (verifyEmpty k s p)
  | .call b => some { s.goto p (.wait b) with barrier := s.barrier.enter p }
  | .wait b =>
    if s.barrier.Open p then
      some { s.setRank p (afterSync c p (s.ranks p) b) with barrier := s.barrier.leave p }
    else none
  | .done | .failed | .fault => none

end

section
variable (c : Config)

/-- The tables hold what `malloc` found. -/
def initial (tables : Fin c.size → Nat → Name) : State c where
  ranks p := loopHead c ⟨.name, 0, tables p⟩
  barrier := Barrier.start
  chan _ := []
  xattrs := ∅
  removals := []

def multiTest : System (State c) where
  Init s := ∃ tables, s = initial c tables
  Step s s' := ∃ k p, next k s p = some s'

end

def Finished {c : Config} (s : State c) : Prop := ∀ p, (s.ranks p).pc = .done

instance {c : Config} (s : State c) : Decidable (Finished s) :=
  inferInstanceAs (Decidable (∀ p, (s.ranks p).pc = .done))

end Ocfs2Test.Xattr.MultiTest
