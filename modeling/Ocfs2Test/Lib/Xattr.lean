import Mathlib

/-!
# Extended attributes

The attributes of one file, by name, and what `setxattr`, `getxattr`,
`removexattr` and `listxattr` do to them, each in one step. `none` is an error.
`create` and `replace` are of what Linux can store: `setxattr` is the whole call.
-/

namespace Lib

abbrev Xattrs (ν α : Type) := AList fun _ : ν => α

namespace Xattrs

def NAME_MAX : Nat := 255

def SIZE_MAX : Nat := 65536

section
variable {ν α : Type} {set : ν → α → Xattrs ν α → Option (Xattrs ν α)} {nameLen size : Nat}

/-- `ERANGE` for a name and `E2BIG` for a value come before everything else. -/
def setxattr (nameLen size : Nat) (set : ν → α → Xattrs ν α → Option (Xattrs ν α)) (n : ν) (v : α)
    (x : Xattrs ν α) : Option (Xattrs ν α) :=
  if nameLen ≤ NAME_MAX ∧ size ≤ SIZE_MAX then set n v x else none

theorem setxattr_of_le (hname : nameLen ≤ NAME_MAX) (hsize : size ≤ SIZE_MAX) :
    setxattr nameLen size set = set := by
  funext n v x
  exact if_pos ⟨hname, hsize⟩

end

section
variable {ν α : Type} [DecidableEq ν]

/-- `setxattr` with `XATTR_CREATE`. -/
def create (n : ν) (v : α) (x : Xattrs ν α) : Option (Xattrs ν α) :=
  if n ∈ x then none else some (x.insert n v)

/-- `setxattr` with `XATTR_REPLACE`. -/
def replace (n : ν) (v : α) (x : Xattrs ν α) : Option (Xattrs ν α) :=
  if n ∈ x then some (x.insert n v) else none

def get (n : ν) (x : Xattrs ν α) : Option α := x.lookup n

def remove (n : ν) (x : Xattrs ν α) : Option (Xattrs ν α) :=
  if n ∈ x then some (x.erase n) else none

end

section
variable {ν α : Type} [DecidableEq ν] {x x' : Xattrs ν α} {n m : ν} {v : α}

theorem mem_iff_get : n ∈ x ↔ ∃ v, x.get n = some v := by
  rw [get, ← Option.isSome_iff_exists, AList.lookup_isSome]

theorem create_of_notMem (h : n ∉ x) : x.create n v = some (x.insert n v) := if_neg h

theorem replace_of_mem (h : n ∈ x) : x.replace n v = some (x.insert n v) := if_pos h

theorem remove_of_mem (h : n ∈ x) : x.remove n = some (x.erase n) := if_pos h

theorem get_insert : get m (x.insert n v) = if m = n then some v else x.get m := by
  split
  · next h =>
    subst h
    exact AList.lookup_insert x
  · next h => exact AList.lookup_insert_ne h

theorem get_erase : get m (x.erase n) = if m = n then none else x.get m := by
  split
  · next h =>
    subst h
    exact AList.lookup_erase m x
  · next h => exact AList.lookup_erase_ne h

end

end Xattrs

end Lib
