import Mathlib

/-!
# A directory

What the calls that create, unlink and rename files do to the names of one
directory. `Lists d es` says that the entries `es`, in this order, are a listing
of `d`; the rules below say what each call makes of a listing.
-/

namespace Lib

/-- `d_type` of an entry. -/
inductive FileType
  | dir
  | reg
  deriving DecidableEq, Repr

abbrev Entry (ν : Type) := (_ : ν) × FileType

abbrev Directory (ν : Type) := AList fun _ : ν => FileType

namespace Directory

section
variable {ν : Type} [DecidableEq ν]

/-- `open` with `O_CREAT|O_TRUNC`. -/
def creat (n : ν) (d : Directory ν) : Option (Directory ν) :=
  match d.lookup n with
  | none => some (d.insert n .reg)
  | some .reg => some d
  | some .dir => none

def unlink (n : ν) (d : Directory ν) : Option (Directory ν) :=
  match d.lookup n with
  | some .reg => some (d.erase n)
  | _ => none

/-- `rename` of a file: another file of the new name is replaced. -/
def rename (a b : ν) (d : Directory ν) : Option (Directory ν) :=
  match d.lookup a, d.lookup b with
  | some .reg, some .dir => none
  | some .reg, _ => if a = b then some d else some ((d.erase a).insert b .reg)
  | _, _ => none

/-- `rmdir` of a directory in which only `dots` may be left. -/
def rmdir (dots : List ν) (d : Directory ν) : Option (Directory ν) :=
  if ∀ n ∈ d.keys, n ∈ dots then some ∅ else none

end

/-- The entries as `readdir` may return them. -/
def Lists {ν : Type} (d : Directory ν) (es : List (Entry ν)) : Prop := es.Perm d.entries

section
variable {ν : Type} {d : Directory ν} {es es' : List (Entry ν)} {a b n : ν} {t : FileType}

theorem Lists.perm (h : Lists d es) (hp : es'.Perm es) : Lists d es' := hp.trans h

theorem Lists.nodup (h : Lists d es) : es.keys.Nodup :=
  (List.Perm.map _ h).nodup_iff.mpr d.keys_nodup

theorem Lists.notMem_head (h : Lists d (⟨n, t⟩ :: es)) : n ∉ es.keys :=
  (List.nodup_cons.mp h.nodup).1

def Lists.toDirectory (h : Lists d es) : Directory ν := ⟨es, h.nodup⟩

variable [DecidableEq ν]

theorem Lists.mem_iff (h : Lists d es) : ⟨n, t⟩ ∈ es ↔ d.lookup n = some t :=
  (List.Perm.mem_iff h).trans AList.mem_lookup_iff.symm

theorem Lists.lookup_head (h : Lists d (⟨n, t⟩ :: es)) : d.lookup n = some t :=
  h.mem_iff.mp List.mem_cons_self

theorem Lists.lookup_none (h : Lists d es) (hn : n ∉ es.keys) : d.lookup n = none := by
  rw [AList.lookup_eq_none]
  exact fun hd => hn ((List.Perm.map _ h).mem_iff.mpr hd)

theorem Lists.erase_head (h : Lists d (⟨n, t⟩ :: es)) : Lists (d.erase n) es := by
  have hp : (h.toDirectory.erase n).entries.Perm (d.erase n).entries := AList.perm_erase h
  have hes : (h.toDirectory.erase n).entries = es := List.kerase_cons_eq rfl
  rwa [hes] at hp

theorem Lists.insert (h : Lists d es) (hn : n ∉ es.keys) : Lists (d.insert n t) (⟨n, t⟩ :: es) := by
  have hd : n ∉ d := AList.lookup_eq_none.mp (h.lookup_none hn)
  rw [Lists, AList.entries_insert_of_notMem hd]
  exact h.cons _

theorem Lists.replace_head {u : FileType} (h : Lists d (⟨n, t⟩ :: es)) :
    Lists (d.insert n u) (⟨n, u⟩ :: es) := by
  rw [Lists, AList.entries_insert]
  exact h.erase_head.cons _

theorem Lists.creat (h : Lists d es) (hn : n ∉ es.keys) :
    ∃ d', creat n d = some d' ∧ Lists d' (⟨n, .reg⟩ :: es) := by
  rw [Directory.creat, h.lookup_none hn]
  exact ⟨_, rfl, h.insert hn⟩

theorem Lists.unlink (h : Lists d (⟨n, .reg⟩ :: es)) : ∃ d', unlink n d = some d' ∧ Lists d' es := by
  rw [Directory.unlink, h.lookup_head]
  exact ⟨_, rfl, h.erase_head⟩

/-- A file is given a name that no other has. -/
theorem Lists.rename (h : Lists d (⟨a, .reg⟩ :: es)) (hb : b ∉ es.keys) :
    ∃ d', rename a b d = some d' ∧ Lists d' (⟨b, .reg⟩ :: es) := by
  by_cases hab : a = b
  · subst hab
    refine ⟨d, ?_, h⟩
    simp [Directory.rename, h.lookup_head]
  · have hd : d.lookup b = none := by
      refine h.lookup_none ?_
      rw [List.keys_cons, List.mem_cons, not_or]
      exact ⟨Ne.symm hab, hb⟩
    refine ⟨(d.erase a).insert b .reg, ?_, h.erase_head.insert hb⟩
    simp [Directory.rename, h.lookup_head, hd, hab]

/-- A file is given the name of another one. -/
theorem Lists.rename_over (h : Lists d (⟨a, .reg⟩ :: ⟨b, .reg⟩ :: es)) :
    ∃ d', Directory.rename a b d = some d' ∧ Lists d' (⟨b, .reg⟩ :: es) := by
  have hb : d.lookup b = some .reg := h.mem_iff.mp (by simp)
  have hab : a ≠ b := by
    rintro rfl
    exact h.notMem_head (by simp)
  refine ⟨(d.erase a).insert b .reg, ?_, h.erase_head.replace_head⟩
  simp [Directory.rename, h.lookup_head, hb, hab]

theorem Lists.rmdir {dots : List ν} (h : Lists d es) (hdots : ∀ n ∈ es.keys, n ∈ dots) :
    rmdir dots d = some ∅ := by
  refine if_pos fun n hn => hdots n ?_
  exact (List.Perm.map _ h).mem_iff.mpr hn

end

end Directory

end Lib
