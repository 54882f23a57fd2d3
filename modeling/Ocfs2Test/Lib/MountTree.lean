import Ocfs2Test.Lib.CString
import Ocfs2Test.Lib.FileTree
import Ocfs2Test.Lib.Search

/-!
# Directory trees with mount points

Directories, files and links by their place in a tree, and what a path string
names: it is walked from the root or from the working directory, and links are
followed. A place belongs to the nearest mount point above it. From the plain path
of a place, a search that shortens it finds that mount point.
-/

namespace Lib.MountTree

open CString FilePath Search

/-- A place: its names from the innermost on. The root is the empty list. -/
abbrev Loc := List (List Char)

inductive Kind
  | dir
  | file
  | link (target : List Char)
  deriving DecidableEq

/-- What is in a file system, where others are mounted in it, and the working directory.
Whether `ismount` follows a link at the end of a path depends on the version. -/
structure Layout where
  kind : Loc → Option Kind
  mount : Loc → Bool
  cwd : Loc
  followsLast : Bool
  root_dir : kind [] = some .dir
  cwd_dir : kind cwd = some .dir
  parent_dir : ∀ c loc, kind (c :: loc) ≠ none → kind loc = some .dir
  entry : ∀ c loc, kind (c :: loc) ≠ none → IsEntry c ∧ Clean c
  root_mount : mount [] = true
  mount_dir : ∀ loc, mount loc = true → kind loc = some .dir

-- ---------------------------------------------------------------------------
-- Paths
-- ---------------------------------------------------------------------------

def PATH_MAX : Nat := 4096

/-- How many links are followed in one path. -/
def MAXSYMLINKS : Nat := 40

/-- `os.path.split(p)[0]`: what is before the last slash, without slashes at its end
unless there is nothing else. -/
def head (p : List Char) : List Char :=
  let h := p.rdropWhile (· ≠ '/')
  if h.all (· = '/') then h else h.rdropWhile (· = '/')

namespace Layout

variable (l : Layout)

def start (at' : Loc) (p : List Char) : Loc := if p.head? = some '/' then [] else at'

/-- The names of a path one after the other; `self` goes on behind a link, and a link at
the end may be meant itself. -/
def walkWith (self : Loc → List (List Char) → Option Loc) (follow : Bool) :
    Loc → List (List Char) → Option Loc
  | loc, [] => some loc
  | loc, c :: cs =>
    if l.kind loc ≠ some .dir then none
    else if c = [] ∨ c = ['.'] then walkWith self follow loc cs
    else if c = ['.', '.'] then walkWith self follow loc.tail cs
    else
      match l.kind (c :: loc) with
      | none => none
      | some (.link target) =>
        if cs = [] ∧ follow = false then some (c :: loc)
        else self (start loc target) (target.splitOn '/' ++ cs)
      | some _ => walkWith self follow (c :: loc) cs

/-- With at most so many links. -/
def walk (follow : Bool) : Nat → Loc → List (List Char) → Option Loc
  | 0 => l.walkWith (fun _ _ => none) follow
  | n + 1 => l.walkWith (walk follow n) follow

def resolve (follow : Bool) (p : List Char) : Option Loc :=
  if p = [] ∨ PATH_MAX ≤ p.length then none
  else l.walk follow MAXSYMLINKS (start l.cwd p) (p.splitOn '/')

def stat (p : List Char) : Option Loc := l.resolve true p

def lstat (p : List Char) : Option Loc := l.resolve false p

/-- `os.path.exists`. -/
def pathExists (p : List Char) : Bool := (l.stat p).isSome

/-- `os.path.isdir`. -/
def isDir (p : List Char) : Bool := (l.stat p).any fun loc => l.kind loc = some .dir

/-- The mount point that a path names. -/
def mountAt (p : List Char) : Option Loc := (l.resolve l.followsLast p).filter l.mount

/-- `os.path.ismount`. It looks up `path/..` as well, which fails where `path` is within
three bytes of `PATH_MAX`; that is left out. -/
def isMount (p : List Char) : Bool := (l.mountAt p).isSome

-- ---------------------------------------------------------------------------
-- The mount point above a place
-- ---------------------------------------------------------------------------

def nearest : Loc → Loc
  | [] => []
  | c :: loc => if l.mount (c :: loc) then c :: loc else nearest loc

/-- The first head of a path that exists; all heads are directories. -/
def above : Nat → List Char → Loc
  | 0, p => start l.cwd p
  | n + 1, p =>
    if p = [] then l.cwd
    else
      match l.stat p with
      | some loc => loc
      | none => above n (head p)

/-- Where the object of a path is, or where it would be. -/
def location (p : List Char) : Loc :=
  match l.lstat p with
  | some loc => loc
  | none => l.above p.length (head p)

def enclosing (p : List Char) : Loc := l.nearest (l.location p)

end Layout

-- ---------------------------------------------------------------------------
-- Mount points are directories
-- ---------------------------------------------------------------------------

namespace Layout

variable (l : Layout) {loc at' : Loc} {self self' : Loc → List (List Char) → Option Loc}

/-- Where the end of a path is no link, it does not matter whether one would be followed. -/
theorem walkWith_follow
    (hself : ∀ loc cs, self loc cs = some at' → self' loc cs = some at')
    (hlink : ∀ target, l.kind at' ≠ some (.link target)) (cs : List (List Char))
    (h : l.walkWith self false loc cs = some at') : l.walkWith self' true loc cs = some at' := by
  induction cs generalizing loc with
  | nil => exact h
  | cons c cs ih =>
    rw [walkWith] at h ⊢
    split at h
    · cases h
    · next hdir =>
      rw [if_neg hdir]
      split at h
      · next hdot =>
        rw [if_pos hdot]
        exact ih h
      · next hdot =>
        rw [if_neg hdot]
        split at h
        · next hup =>
          rw [if_pos hup]
          exact ih h
        · next hup =>
          rw [if_neg hup]
          split at h
          · cases h
          · next target hkind =>
            split at h
            · rw [Option.some.injEq] at h
              subst h
              exact absurd hkind (hlink target)
            · rw [if_neg (by simp)]
              exact hself _ _ h
          · exact ih h

theorem walk_follow (n : Nat) (hlink : ∀ target, l.kind at' ≠ some (.link target))
    (cs : List (List Char)) (h : l.walk false n loc cs = some at') :
    l.walk true n loc cs = some at' := by
  induction n generalizing loc cs with
  | zero => exact l.walkWith_follow (fun _ _ h => h) hlink cs h
  | succ n ih => exact l.walkWith_follow (fun _ cs h => ih cs h) hlink cs h

theorem stat_of_lstat {p : List Char} (h : l.lstat p = some loc)
    (hlink : ∀ target, l.kind loc ≠ some (.link target)) : l.stat p = some loc := by
  rw [lstat, resolve] at h
  rw [stat, resolve]
  split at h
  · cases h
  · next hp =>
    rw [if_neg hp]
    exact l.walk_follow _ hlink _ h

theorem mountAt_eq_some {p : List Char} :
    l.mountAt p = some loc ↔ l.resolve l.followsLast p = some loc ∧ l.mount loc = true := by
  rw [mountAt, Option.filter_eq_some_iff]

theorem isDir_of_isMount {p : List Char} (h : l.isMount p = true) : l.isDir p = true := by
  obtain ⟨loc, hloc⟩ := Option.isSome_iff_exists.mp h
  obtain ⟨hresolve, hmount⟩ := l.mountAt_eq_some.mp hloc
  have hdir := l.mount_dir loc hmount
  have hstat : l.stat p = some loc := by
    cases hfollow : l.followsLast with
    | true =>
      rw [hfollow] at hresolve
      exact hresolve
    | false =>
      rw [hfollow] at hresolve
      refine l.stat_of_lstat hresolve ?_
      intro target hkind
      rw [hdir] at hkind
      cases hkind
  rw [isDir, hstat]
  simp [hdir]

end Layout

-- ---------------------------------------------------------------------------
-- The names of places
-- ---------------------------------------------------------------------------

def stem : Loc → List Char
  | [] => []
  | c :: loc => stem loc ++ '/' :: c

/-- The path of a place without anything superfluous. -/
def name : Loc → List Char
  | [] => ['/']
  | c :: loc => stem (c :: loc)

theorem rdropWhile_append {p : Char → Bool} {a b : List Char} (h : ∀ c ∈ b, p c = true) :
    (a ++ b).rdropWhile p = a.rdropWhile p := by
  have hdrop : (b.reverse ++ a.reverse).dropWhile p = a.reverse.dropWhile p :=
    List.dropWhile_append_of_pos fun c hc => h c (List.mem_reverse.mp hc)
  rw [List.rdropWhile, List.reverse_append, hdrop, List.rdropWhile]

section
variable {c d : List Char} {loc : Loc}

/-- Behind the last slash. -/
theorem rdropWhile_stem (hc : IsEntry c) :
    (stem (c :: loc)).rdropWhile (· ≠ '/') = stem loc ++ ['/'] := by
  have hsplit : stem (c :: loc) = (stem loc ++ ['/']) ++ c := by simp [stem]
  rw [hsplit, rdropWhile_append, List.rdropWhile_concat_neg _ _ _ (by simp)]
  intro x hx
  rw [decide_eq_true_eq]
  rintro rfl
  exact hc.noSlash hx

theorem rdropWhile_slashes (hc : IsEntry c) :
    (stem (c :: loc) ++ ['/']).rdropWhile (· = '/') = stem (c :: loc) := by
  obtain ⟨cs, x, rfl⟩ := (List.eq_nil_or_concat' c).resolve_left hc.ne_nil
  have hx : x ≠ '/' := by
    rintro rfl
    exact hc.noSlash (by simp)
  have hsplit : stem ((cs ++ [x]) :: loc) = (stem loc ++ '/' :: cs) ++ [x] := by simp [stem]
  rw [hsplit, rdropWhile_append (by simp), List.rdropWhile_concat_neg _ _ _ (by simpa using hx)]

theorem head_name (hc : IsEntry c) (hloc : ∀ d ∈ loc, IsEntry d) :
    head (name (c :: loc)) = name loc := by
  rw [head, name, rdropWhile_stem hc]
  cases loc with
  | nil => rfl
  | cons d loc =>
    have hd := hloc d List.mem_cons_self
    have hall : (stem (d :: loc) ++ ['/']).all (· = '/') = false := by
      obtain ⟨x, hx⟩ := List.exists_mem_of_ne_nil d hd.ne_nil
      refine List.all_eq_false.mpr ⟨x, by simp [stem, hx], ?_⟩
      rw [decide_eq_true_eq]
      rintro rfl
      exact hd.noSlash hx
    simp only [hall, Bool.false_eq_true, if_false]
    rw [rdropWhile_slashes hd, name]

theorem head?_stem : (stem (c :: loc)).head? = some '/' := by
  induction loc generalizing c with
  | nil => rfl
  | cons d loc ih =>
    rw [stem, List.head?_append, ih]
    rfl

theorem splitOn_stem (hloc : ∀ d ∈ loc, IsEntry d) :
    (stem loc).splitOn '/' = [] :: loc.reverse := by
  induction loc with
  | nil => rfl
  | cons d loc ih =>
    rw [List.forall_mem_cons] at hloc
    rw [stem, List.splitOn_append_cons_self, ih hloc.2, List.splitOn_eq_singleton hloc.1.noSlash,
      List.reverse_cons, List.cons_append]

end

namespace Layout

variable (l : Layout) {loc : Loc}

theorem entries (h : l.kind loc ≠ none) : ∀ d ∈ loc, IsEntry d ∧ Clean d := by
  induction loc with
  | nil => simp
  | cons c loc ih =>
    rw [List.forall_mem_cons]
    have hdir := l.parent_dir c loc h
    exact ⟨l.entry c loc h, ih (by rw [hdir]; simp)⟩

/-- From the root down to a directory. -/
theorem walkWith_reverse (self : Loc → List (List Char) → Option Loc) (follow : Bool)
    (h : l.kind loc = some .dir) (cs : List (List Char)) :
    l.walkWith self follow [] (loc.reverse ++ cs) = l.walkWith self follow loc cs := by
  induction loc generalizing cs with
  | nil => rfl
  | cons c loc ih =>
    have hsome : l.kind (c :: loc) ≠ none := by rw [h]; simp
    have hdir := l.parent_dir c loc hsome
    have hc := (l.entry c loc hsome).1
    rw [List.reverse_cons, List.append_assoc, ih hdir, List.singleton_append, walkWith]
    simp only [hdir, h, hc.ne_nil, hc.ne_dot, hc.ne_dotDot, ne_eq, not_true, or_self, if_false]

/-- The path of what exists names it; a link itself only where it is not followed. -/
theorem resolve_name {follow : Bool} {k : Kind} (h : l.kind loc = some k)
    (hshort : (name loc).length < PATH_MAX) (hlink : follow = false ∨ ∀ target, k ≠ .link target) :
    l.resolve follow (name loc) = some loc := by
  have hwalk (self : Loc → List (List Char) → Option Loc) :
      l.walkWith self follow [] (loc.reverse) = some loc := by
    cases loc with
    | nil => rfl
    | cons c loc =>
      have hsome : l.kind (c :: loc) ≠ none := by rw [h]; simp
      have hdir := l.parent_dir c loc hsome
      have hc := (l.entry c loc hsome).1
      rw [List.reverse_cons, l.walkWith_reverse self follow hdir, walkWith]
      simp only [hdir, h, hc.ne_nil, hc.ne_dot, hc.ne_dotDot, ne_eq, not_true, or_self, if_false]
      cases k with
      | link target =>
        rcases hlink with hfollow | hlink
        · simp [hfollow]
        · exact absurd rfl (hlink target)
      | _ => rfl
  have hskip (self : Loc → List (List Char) → Option Loc) (cs : List (List Char)) :
      l.walkWith self follow [] ([] :: cs) = l.walkWith self follow [] cs := by
    rw [walkWith]
    simp [l.root_dir]
  have hnames : ∃ cs, (name loc).splitOn '/' = [] :: cs ∧
      ∀ self, l.walkWith self follow [] cs = some loc := by
    cases loc with
    | nil => exact ⟨[[]], rfl, fun self => hskip self []⟩
    | cons c loc =>
      refine ⟨(c :: loc).reverse, splitOn_stem ?_, hwalk⟩
      intro d hd
      exact (l.entries (by rw [h]; simp) d hd).1
  have hhead : (name loc).head? = some '/' := by
    cases loc with
    | nil => rfl
    | cons c loc => exact head?_stem
  have hne : name loc ≠ [] := by
    intro hnil
    rw [hnil] at hhead
    cases hhead
  obtain ⟨cs, hsplit, hcs⟩ := hnames
  rw [resolve, if_neg (by simp [hne, hshort]), start, if_pos hhead, hsplit, MAXSYMLINKS, walk,
    hskip]
  exact hcs _

theorem location_name (h : l.kind loc ≠ none) (hshort : (name loc).length < PATH_MAX) :
    l.location (name loc) = loc := by
  obtain ⟨k, hk⟩ := Option.ne_none_iff_exists'.mp h
  have hlstat : l.lstat (name loc) = some loc := l.resolve_name hk hshort (.inl rfl)
  rw [location, hlstat]

theorem mountAt_name {k : Kind} (h : l.kind loc = some k) (hlink : ∀ target, k ≠ .link target)
    (hshort : (name loc).length < PATH_MAX) :
    l.mountAt (name loc) = if l.mount loc then some loc else none := by
  rw [mountAt, l.resolve_name h hshort (.inr hlink), Option.filter_some]

theorem length_name_le (c : List Char) : (name loc).length ≤ (name (c :: loc)).length := by
  cases loc with
  | nil => simp [name, stem]
  | cons d loc => simp [name, stem]

theorem mount_nearest (loc : Loc) : l.mount (l.nearest loc) = true := by
  induction loc with
  | nil => exact l.root_mount
  | cons c loc ih =>
    rw [nearest]
    split
    · next hmount => exact hmount
    · exact ih

theorem length_name_nearest_le (loc : Loc) : (name (l.nearest loc)).length ≤ (name loc).length := by
  induction loc with
  | nil => exact Nat.le_refl _
  | cons c loc ih =>
    rw [nearest]
    split
    · exact Nat.le_refl _
    · exact Nat.le_trans ih (length_name_le c)

theorem clean_name (h : l.kind loc ≠ none) : Clean (name loc) := by
  have hstem : Clean (stem loc) := by
    have hclean : ∀ d ∈ loc, Clean d := fun d hd => (l.entries h d hd).2
    clear h
    induction loc with
    | nil => exact List.not_mem_nil
    | cons c loc ih =>
      rw [List.forall_mem_cons] at hclean
      have hslash : Clean ('/' :: c) := by
        rintro (_ | ⟨_, hmem⟩)
        exact hclean.1 hmem
      exact (ih hclean.2).append hslash
  cases loc with
  | nil => decide
  | cons c loc => exact hstem

/-- From the path of what exists, the search finds the mount point that it is in. -/
theorem first_name {k : Kind} (h : l.kind loc = some k) (hlink : ∀ target, k ≠ .link target)
    (hshort : (name loc).length < PATH_MAX) :
    First head l.isMount (name loc) (name (l.nearest loc)) := by
  induction loc generalizing k with
  | nil =>
    have hmount : l.isMount (name []) = true := by
      rw [isMount, l.mountAt_name h hlink hshort, if_pos l.root_mount]
      rfl
    exact (first_of hmount).mpr rfl
  | cons c loc ih =>
    have hsome : l.kind (c :: loc) ≠ none := by rw [h]; simp
    have hat := l.mountAt_name h hlink hshort
    rw [nearest]
    cases hmount : l.mount (c :: loc) with
    | true =>
      rw [hmount] at hat
      exact (first_of (by rw [isMount, hat]; rfl)).mpr rfl
    | false =>
      rw [hmount] at hat
      have hentry := l.entries hsome
      rw [List.forall_mem_cons] at hentry
      have hhead := head_name hentry.1.1 fun d hd => (hentry.2 d hd).1
      rw [first_step (by rw [isMount, hat]; rfl), hhead]
      exact ih (l.parent_dir c loc hsome) (by simp) (Nat.lt_of_le_of_lt (length_name_le c) hshort)

end Layout

end Lib.MountTree
