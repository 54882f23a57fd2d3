import Ocfs2Test.Lib.MountTree

/-!
# What o2tf.Del deletes

A directory is deleted by its mount point: it must not be one of a list, or it must be that
of one of the directories that are allowed. The mount point is the longest head of the
path that is one, as it is written in the path, and it is compared as text.
-/

namespace Ocfs2Test.PythonCommon

open Lib CString MountTree Search

/-- How `Del` ends: with a result, or with a command that has been run. -/
inductive Deletion
  | returned (ret : Option Int)
  | ran (command : List Char)

def forbitMntPts : List (List Char) :=
  [['/'], ['/', 'u', 's', 'r'], ['/', 'h', 'o', 'm', 'e'], ['*'], ['/', 'v', 'a', 'r'],
    ['/', 'o', 'p', 't'], ['/', 'u', 's', 'r', '/', 'l', 'o', 'c', 'a', 'l']]

def rm (deldir : List Char) : List Char := ['r', 'm', ' ', '-', 'f', 'r', ' '] ++ deldir

section
variable (l : Layout)

/-- `GetMntPt` with a number of rounds for its loop; a NUL raises an exception. -/
def getMntPt (fuel : Nat) (dirname : List Char) : Option (List Char) :=
  if nul ∈ dirname then none
  else if l.isDir dirname ∧ l.isMount dirname then some dirname
  else search head l.isMount fuel (head dirname)

def bldAllowedMtPts (fuel : Nat) (allowlist : List Char) : Option (List (List Char)) :=
  let workingDirs := allowlist.splitOn ','
  if workingDirs.length = 1 then (getMntPt l fuel allowlist).map fun mntpt => [mntpt]
  else workingDirs.mapM (getMntPt l fuel)

/-- What `Del` does with either list, the allowed or the forbidden one. -/
def delByList (fuel : Nat) (deldir dirlist : List Char) : Option Deletion :=
  if dirlist ≠ [] then
    (bldAllowedMtPts l fuel dirlist).bind fun allowMntPt =>
      (getMntPt l fuel deldir).bind fun mntpt =>
        if mntpt ∉ allowMntPt then some (.returned (some 1)) else some (.ran (rm deldir))
  else
    (getMntPt l fuel deldir).bind fun mntpt =>
      if mntpt ∈ forbitMntPts then some (.returned (some 1)) else some (.ran (rm deldir))

/-- `Del`; an empty `dirlist` is none. -/
def del (fuel : Nat) (deldir dirlist : List Char) : Option Deletion :=
  if deldir = ['*'] ∨ deldir = ['/', '*'] then some (.returned none)
  else if nul ∈ deldir then none
  -- the checks of `dirlist` stand behind this return and are never reached
  else if !l.pathExists deldir then some (.returned (some 1))
  else delByList l fuel deldir dirlist

-- ---------------------------------------------------------------------------
-- What it is for
-- ---------------------------------------------------------------------------

/-- The loop ends, and with the nearest mount point that encloses the path. -/
def MntPtRight (dirname : List Char) : Prop :=
  ∃ fuel mntpt, getMntPt l fuel dirname = some mntpt ∧
    l.mountAt mntpt = some (l.enclosing dirname)

/-- An existing directory, with its path from the root. -/
def IsAbsDir (dir : List Char) : Prop := dir.head? = some '/' ∧ l.isDir dir = true

def Deletes (deldir dirlist : List Char) : Prop :=
  ∃ fuel, del l fuel deldir dirlist = some (.ran (rm deldir))

/-- What exists may be deleted, where its mount point is not forbidden, or where it is that
of one of the allowed directories. -/
def MayDelete (deldir dirlist : List Char) : Prop :=
  l.pathExists deldir = true ∧
    (dirlist = [] ∧ name (l.enclosing deldir) ∉ forbitMntPts ∨
      dirlist ≠ [] ∧ (∀ dir ∈ dirlist.splitOn ',', IsAbsDir l dir) ∧
        ∃ dir ∈ dirlist.splitOn ',', l.enclosing dir = l.enclosing deldir)

-- ---------------------------------------------------------------------------
-- What it goes by
-- ---------------------------------------------------------------------------

/-- The longest head of a path, or the path itself, that names a mount point. -/
def MountHead (dirname mntpt : List Char) : Prop :=
  nul ∉ dirname ∧ First head l.isMount dirname mntpt

/-- A head of the path names the nearest mount point, and no longer one names another. -/
def HeadsStand (dirname : List Char) : Prop :=
  nul ∉ dirname ∧ ∃ k, l.mountAt (head^[k] dirname) = some (l.enclosing dirname) ∧
    ∀ j < k, ∀ loc, l.mountAt (head^[j] dirname) = some loc → loc = l.enclosing dirname

def Reaches (deldir : List Char) : Prop :=
  deldir ≠ ['*'] ∧ deldir ≠ ['/', '*'] ∧ l.pathExists deldir = true

/-- A forbidden mount point that is written in another way. -/
def SlipsForbidden (deldir : List Char) : Prop :=
  name (l.enclosing deldir) ∈ forbitMntPts ∧ ∃ mntpt, MountHead l deldir mntpt ∧
    mntpt ∉ forbitMntPts

/-- The mount point is written as that of an allowed directory, and all of these have one; but
one of them is no directory, or none has this mount point. -/
def SlipsAllowed (deldir dirlist : List Char) : Prop :=
  (∃ mntpt, MountHead l deldir mntpt ∧ ∃ dir ∈ dirlist.splitOn ',', MountHead l dir mntpt) ∧
    (∀ dir ∈ dirlist.splitOn ',', ∃ mntpt, MountHead l dir mntpt) ∧
    ((∃ dir ∈ dirlist.splitOn ',', ¬ IsAbsDir l dir) ∨
      ∀ dir ∈ dirlist.splitOn ',', l.enclosing dir ≠ l.enclosing deldir)

def Slips (deldir dirlist : List Char) : Prop :=
  Reaches l deldir ∧ (dirlist = [] ∧ SlipsForbidden l deldir ∨
    dirlist ≠ [] ∧ SlipsAllowed l deldir dirlist)

-- ---------------------------------------------------------------------------
-- The functions one by one
-- ---------------------------------------------------------------------------

theorem stable_getMntPt (dirname : List Char) : Stable fun fuel => getMntPt l fuel dirname := by
  intro n mntpt h m hle
  dsimp only [getMntPt] at h ⊢
  split at h
  · cases h
  · next hnul =>
    rw [if_neg hnul]
    split at h
    · next hmount => rw [if_pos hmount, h]
    · next hmount =>
      rw [if_neg hmount]
      exact stable_search head l.isMount (head dirname) n mntpt h m hle

theorem getMntPt_iff (dirname mntpt : List Char) :
    (∃ fuel, getMntPt l fuel dirname = some mntpt) ↔ MountHead l dirname mntpt := by
  simp only [getMntPt, MountHead]
  split
  · next hnul => simp [hnul]
  · next hnul =>
    simp only [hnul, not_false_eq_true, true_and]
    cases hmount : l.isMount dirname with
    | true =>
      rw [first_of hmount]
      simp [l.isDir_of_isMount hmount, eq_comm]
    | false =>
      rw [first_step hmount, ← search_iff]
      simp

theorem mapM_getMntPt_iff (dirs mntpts : List (List Char)) :
    (∃ fuel, dirs.mapM (getMntPt l fuel) = some mntpts) ↔
      List.Forall₂ (MountHead l) dirs mntpts := by
  rw [exists_mapM_iff (stable_getMntPt l)]
  simp only [getMntPt_iff]

theorem bldAllowedMtPts_eq (fuel : Nat) (allowlist : List Char) :
    bldAllowedMtPts l fuel allowlist = (allowlist.splitOn ',').mapM (getMntPt l fuel) := by
  rw [bldAllowedMtPts]
  split
  · next hlen =>
    obtain ⟨dir, hdir⟩ := List.length_eq_one_iff.mp hlen
    have hself : dir = allowlist := by
      have hjoin : [','].intercalate (allowlist.splitOn ',') = allowlist :=
        List.intercalate_splitOn ','
      rw [hdir] at hjoin
      simpa using hjoin
    rw [hdir, hself]
    cases hmntpt : getMntPt l fuel allowlist <;> simp [hmntpt]
  · rfl

theorem mountHead_unique {dirname m m' : List Char} (h : MountHead l dirname m)
    (h' : MountHead l dirname m') : m = m' :=
  h.2.unique h'.2

theorem deletes_iff_delByList (deldir dirlist : List Char) : Deletes l deldir dirlist ↔
    Reaches l deldir ∧ nul ∉ deldir ∧
      ∃ fuel, delByList l fuel deldir dirlist = some (.ran (rm deldir)) := by
  simp only [Deletes, del, Reaches]
  by_cases hstar : deldir = ['*'] ∨ deldir = ['/', '*']
  · have hnot : ¬ (deldir ≠ ['*'] ∧ deldir ≠ ['/', '*']) := fun h => hstar.elim h.1 h.2
    simp only [hstar, if_true, Option.some.injEq, reduceCtorEq, exists_false, false_iff]
    rintro ⟨⟨h, h', -⟩, -⟩
    exact hnot ⟨h, h'⟩
  · rw [not_or] at hstar
    by_cases hnul : nul ∈ deldir
    · simp [hstar, hnul]
    · cases hexists : l.pathExists deldir <;> simp [hstar, hnul]

theorem deletes_nil_iff (deldir : List Char) : Deletes l deldir [] ↔
    Reaches l deldir ∧ ∃ mntpt, MountHead l deldir mntpt ∧ mntpt ∉ forbitMntPts := by
  have hend (mntpt : List Char) : (if mntpt ∈ forbitMntPts then
      some (Deletion.returned (some 1)) else some (.ran (rm deldir))) = some (.ran (rm deldir)) ↔
      mntpt ∉ forbitMntPts := by
    by_cases hmem : mntpt ∈ forbitMntPts <;> simp [hmem]
  rw [deletes_iff_delByList]
  simp only [delByList, ne_eq, not_true, if_false, exists_bind_const_iff, hend, getMntPt_iff]
  constructor
  · rintro ⟨hreach, -, mntpt, h⟩
    exact ⟨hreach, mntpt, h⟩
  · rintro ⟨hreach, mntpt, hmount, h⟩
    exact ⟨hreach, hmount.1, mntpt, hmount, h⟩

theorem deletes_list_iff (deldir : List Char) {dirlist : List Char} (hne : dirlist ≠ []) :
    Deletes l deldir dirlist ↔ Reaches l deldir ∧
      (∃ mntpt, MountHead l deldir mntpt ∧ ∃ dir ∈ dirlist.splitOn ',', MountHead l dir mntpt) ∧
      ∀ dir ∈ dirlist.splitOn ',', ∃ mntpt, MountHead l dir mntpt := by
  have hend (allowMntPt : List (List Char)) (mntpt : List Char) : (if mntpt ∉ allowMntPt then
      some (Deletion.returned (some 1)) else some (.ran (rm deldir))) = some (.ran (rm deldir)) ↔
      mntpt ∈ allowMntPt := by
    by_cases hmem : mntpt ∈ allowMntPt <;> simp [hmem]
  have hbuild : Stable fun fuel => bldAllowedMtPts l fuel dirlist := by
    simp only [bldAllowedMtPts_eq]
    exact stable_mapM (stable_getMntPt l) _
  have hlookup (allowMntPt : List (List Char)) : Stable fun fuel =>
      (getMntPt l fuel deldir).bind fun mntpt =>
        if mntpt ∉ allowMntPt then some (Deletion.returned (some 1))
        else some (.ran (rm deldir)) :=
    stable_bind (stable_getMntPt l deldir) fun mntpt _ _ h _ _ => h
  rw [deletes_iff_delByList]
  simp only [delByList, hne, ne_eq, not_false_eq_true, if_true]
  rw [exists_bind_iff hbuild hlookup]
  simp only [exists_bind_const_iff, hend, getMntPt_iff, bldAllowedMtPts_eq, mapM_getMntPt_iff]
  constructor
  · rintro ⟨hreach, -, mntpts, hmntpts, mntpt, hmount, hmem⟩
    obtain ⟨hall, hdir⟩ := (exists_forall₂_mem_iff _ mntpt).mp ⟨mntpts, hmntpts, hmem⟩
    exact ⟨hreach, ⟨mntpt, hmount, hdir⟩, hall⟩
  · rintro ⟨hreach, ⟨mntpt, hmount, hdir⟩, hall⟩
    obtain ⟨mntpts, hmntpts, hmem⟩ := (exists_forall₂_mem_iff _ mntpt).mpr ⟨hall, hdir⟩
    exact ⟨hreach, hmount.1, mntpts, hmntpts, mntpt, hmount, hmem⟩

-- ---------------------------------------------------------------------------
-- When it does what it is for
-- ---------------------------------------------------------------------------

theorem mntPtRight_iff_mountHead (dirname : List Char) : MntPtRight l dirname ↔
    ∃ mntpt, MountHead l dirname mntpt ∧ l.mountAt mntpt = some (l.enclosing dirname) := by
  simp only [← getMntPt_iff]
  constructor
  · rintro ⟨fuel, mntpt, h, hat⟩
    exact ⟨mntpt, ⟨fuel, h⟩, hat⟩
  · rintro ⟨mntpt, ⟨fuel, h⟩, hat⟩
    exact ⟨fuel, mntpt, h, hat⟩

theorem mntPtRight_iff (dirname : List Char) : MntPtRight l dirname ↔ HeadsStand l dirname := by
  rw [mntPtRight_iff_mountHead]
  constructor
  · rintro ⟨mntpt, ⟨hnul, k, rfl, -, hbefore⟩, hat⟩
    refine ⟨hnul, k, hat, ?_⟩
    intro j hj loc hloc
    have hnone : l.isMount (head^[j] dirname) = false := hbefore j hj
    rw [Layout.isMount, hloc] at hnone
    cases hnone
  · rintro ⟨hnul, k, hat, hbefore⟩
    -- the least head that is a mount point; it is the `k`-th or names the same
    have hsome : ∃ j, l.isMount (head^[j] dirname) = true := ⟨k, by rw [Layout.isMount, hat]; rfl⟩
    have hmount := Nat.find_spec hsome
    have hle : Nat.find hsome ≤ k := Nat.find_min' hsome (by rw [Layout.isMount, hat]; rfl)
    refine ⟨head^[Nat.find hsome] dirname, ⟨hnul, _, rfl, hmount, ?_⟩, ?_⟩
    · intro j hj
      exact Bool.eq_false_iff.mpr (Nat.find_min hsome hj)
    · obtain ⟨loc, hloc⟩ := Option.isSome_iff_exists.mp hmount
      rcases Nat.lt_or_eq_of_le hle with hlt | heq
      · rw [hloc, hbefore _ hlt loc hloc]
      · rw [heq, hat]

theorem deletes_safe_iff (deldir dirlist : List Char) :
    (Deletes l deldir dirlist → MayDelete l deldir dirlist) ↔ ¬ Slips l deldir dirlist := by
  by_cases hne : dirlist = []
  · subst hne
    rw [deletes_nil_iff]
    constructor
    · rintro h ⟨hreach, ⟨-, hforbid, hmount⟩ | ⟨hnot, -⟩⟩
      · obtain ⟨-, ⟨-, hname⟩ | ⟨hnot, -⟩⟩ := h ⟨hreach, hmount⟩
        · exact hname hforbid
        · exact hnot rfl
      · exact hnot rfl
    · rintro h ⟨hreach, hmount⟩
      refine ⟨hreach.2.2, .inl ⟨rfl, ?_⟩⟩
      intro hforbid
      exact h ⟨hreach, .inl ⟨rfl, hforbid, hmount⟩⟩
  · rw [deletes_list_iff l deldir hne]
    constructor
    · rintro h ⟨hreach, ⟨hnil, -⟩ | ⟨-, hmount, hall, hwrong⟩⟩
      · exact hne hnil
      · obtain ⟨-, ⟨hnil, -⟩ | ⟨-, hdirs, dir, hdir, hsame⟩⟩ := h ⟨hreach, hmount, hall⟩
        · exact hne hnil
        · rcases hwrong with ⟨bad, hbad, hnot⟩ | hnone
          · exact hnot (hdirs bad hbad)
          · exact hnone dir hdir hsame
    · rintro h ⟨hreach, hmount, hall⟩
      have hright : ¬ ((∃ dir ∈ dirlist.splitOn ',', ¬ IsAbsDir l dir) ∨
          ∀ dir ∈ dirlist.splitOn ',', l.enclosing dir ≠ l.enclosing deldir) :=
        fun hwrong => h ⟨hreach, .inr ⟨hne, hmount, hall, hwrong⟩⟩
      push Not at hright
      exact ⟨hreach.2.2, .inr ⟨hne, hright⟩⟩

/-- The plain path of something that exists and is no link is looked up right, and cannot
slip past the forbidden mount points. -/
theorem plain_path {loc : Loc} {k : Kind} (h : l.kind loc = some k)
    (hlink : ∀ target, k ≠ .link target) (hshort : (name loc).length < PATH_MAX) :
    MntPtRight l (name loc) ∧ ¬ SlipsForbidden l (name loc) := by
  have hsome : l.kind loc ≠ none := by rw [h]; simp
  have hhead : MountHead l (name loc) (name (l.nearest loc)) :=
    ⟨l.clean_name hsome, l.first_name h hlink hshort⟩
  have henclosing : l.enclosing (name loc) = l.nearest loc := by
    rw [Layout.enclosing, l.location_name hsome hshort]
  have hmount := l.mount_nearest loc
  have hat : l.mountAt (name (l.nearest loc)) = some (l.nearest loc) := by
    rw [l.mountAt_name (l.mount_dir _ hmount) (by simp)
      (Nat.lt_of_le_of_lt (l.length_name_nearest_le loc) hshort), if_pos hmount]
  constructor
  · rw [mntPtRight_iff_mountHead, henclosing]
    exact ⟨_, hhead, hat⟩
  · rw [SlipsForbidden, henclosing]
    rintro ⟨hforbid, mntpt, hmntpt, hnot⟩
    rw [mountHead_unique l hmntpt hhead] at hnot
    exact hnot hforbid

/-- **Exactly the directories that are deleted wrongly, and the paths that are looked up
wrongly.** -/
theorem del_getMntPt_iff (deldir dirlist dirname : List Char) :
    ((Deletes l deldir dirlist → MayDelete l deldir dirlist) ↔ ¬ Slips l deldir dirlist) ∧
      (MntPtRight l dirname ↔ HeadsStand l dirname) :=
  ⟨deletes_safe_iff l deldir dirlist, mntPtRight_iff l dirname⟩

end

-- ---------------------------------------------------------------------------
-- A file system on /home
-- ---------------------------------------------------------------------------

/-- The directories `/`, `/home` and `/tmp`; the first two are mount points. -/
def homeLayout : Layout where
  kind
    | [] => some .dir
    | [c] => if c ∈ [['h', 'o', 'm', 'e'], ['t', 'm', 'p']] then some .dir else none
    | _ => none
  mount loc := loc = [] ∨ loc = [['h', 'o', 'm', 'e']]
  cwd := []
  followsLast := false
  root_dir := rfl
  cwd_dir := rfl
  parent_dir c loc h := by
    cases loc with
    | nil => rfl
    | cons d loc => exact absurd rfl h
  entry c loc h := by
    cases loc with
    | nil =>
      have hmem : c ∈ [['h', 'o', 'm', 'e'], ['t', 'm', 'p']] := by
        by_contra hnot
        exact h (if_neg hnot)
      have hall : ∀ c ∈ [['h', 'o', 'm', 'e'], ['t', 'm', 'p']], FilePath.IsEntry c ∧ Clean c := by
        decide
      exact hall c hmem
    | cons d loc => exact absurd rfl h
  root_mount := rfl
  mount_dir loc h := by
    rcases of_decide_eq_true h with rfl | rfl <;> rfl

/-- `/home/`, written with a slash at its end, is deleted; so is `/tmp` where the allowed
directory does not exist; and of a relative path no mount point is found. -/
theorem not_safe_not_right :
    (Deletes homeLayout ['/', 'h', 'o', 'm', 'e', '/'] [] ∧
        ¬ MayDelete homeLayout ['/', 'h', 'o', 'm', 'e', '/'] []) ∧
      (Deletes homeLayout ['/', 't', 'm', 'p'] ['/', 'n', 'o'] ∧
        ¬ MayDelete homeLayout ['/', 't', 'm', 'p'] ['/', 'n', 'o']) ∧
      ¬ MntPtRight homeLayout ['t', 'm', 'p'] := by
  have hroot (p : List Char) (hnul : nul ∉ p) (hp : homeLayout.isMount p = false)
      (hhead : head p = ['/']) : MountHead homeLayout p ['/'] := by
    refine ⟨hnul, (first_step hp).mpr ?_⟩
    rw [hhead]
    exact (first_of (by decide +kernel)).mpr rfl
  refine ⟨?_, ?_, ?_⟩
  · rw [← Classical.not_imp, deletes_safe_iff, not_not]
    exact ⟨⟨by decide, by decide, by decide +kernel⟩, .inl ⟨rfl, by decide +kernel,
      ['/', 'h', 'o', 'm', 'e', '/'], ⟨by decide, (first_of (by decide +kernel)).mpr rfl⟩,
      by decide⟩⟩
  · have hsplit : ['/', 'n', 'o'].splitOn ',' = [['/', 'n', 'o']] := by decide +kernel
    have hdir := hroot ['/', 'n', 'o'] (by decide) (by decide +kernel) (by decide +kernel)
    have hdel := hroot ['/', 't', 'm', 'p'] (by decide) (by decide +kernel) (by decide +kernel)
    rw [← Classical.not_imp, deletes_safe_iff, not_not]
    refine ⟨⟨by decide, by decide, by decide +kernel⟩, .inr ⟨by decide, ?_⟩⟩
    rw [SlipsAllowed, hsplit]
    simp only [List.mem_singleton, exists_eq_left, forall_eq]
    refine ⟨⟨['/'], hdel, hdir⟩, ⟨['/'], hdir⟩, .inl ?_⟩
    rintro ⟨-, hno⟩
    exact absurd hno (by decide +kernel)
  · rw [mntPtRight_iff]
    rintro ⟨-, k, hat, -⟩
    cases k with
    | zero =>
      have hnone : homeLayout.mountAt ['t', 'm', 'p'] = none := by decide +kernel
      rw [Function.iterate_zero_apply, hnone] at hat
      cases hat
    | succ k =>
      have hempty : head^[k] [] = [] := Function.iterate_fixed (by decide) k
      have hhead : head ['t', 'm', 'p'] = [] := by decide +kernel
      rw [Function.iterate_succ_apply, hhead, hempty] at hat
      cases hat

end Ocfs2Test.PythonCommon
