import Ocfs2Test.Dirs.AnyCalls
import Ocfs2Test.Lib.FileTree

/-!
# build_dir_tree and traverse_and_destroy

A directory is listed, and what is found is removed on the way: files at once, empty
directories with `rmdir`, others with what is in them by a recursion whose result is
not looked at. At the end nothing is left in it and it is removed itself.
-/

namespace Ocfs2Test.Dirs.Destroy

open Lib Lib.Stdio FilePath AnyCalls

/-- `d_name` and `d_type`. -/
abbrev Entry := List Char × FileKind

def dots : List Entry := [(['.'], .dir), (['.', '.'], .dir)]

/-- `"%s/%s"` in a buffer of `PATH_MAX` bytes. -/
def fullpath (name dName : List Char) : List Char := (join name dName).take (PATH_MAX - 1)

/-- What the system answers: at each `opendir` the entries that `readdir` returns, in any
order, and `errno` when a call fails. -/
structure Answers where
  readdir : Nat → FileTree → List Char → List Entry
  lists : ∀ k t p, t.lookup p = some .dir → (readdir k t p).Perm (dots ++ t.children p)
  errno : Errno

structure State where
  tree : FileTree
  opens : Nat := 0

/-- How the function ends; `readdir` of a directory that is not open is a fault. -/
inductive Outcome
  | returned (ret : Int) (s : State)
  | exited (ret : Int) (s : State)
  | fault

section
variable (a : Answers)

def opendir (name : List Char) (s : State) : Option (List Entry × State) :=
  if s.tree.lookup name = some .dir then
    some (a.readdir s.opens s.tree name, { s with opens := s.opens + 1 })
  else none

/-- The count of `is_dir_empty`, which breaks off at three. -/
def countEntries : List Entry → Nat → Nat
  | [], entries => entries
  | _ :: dirents, entries =>
    if entries + 1 > 2 then entries + 1 else countEntries dirents (entries + 1)

def isDirEmpty (name : List Char) (s : State) : Option (Bool × State) :=
  (opendir a name s).map fun r => (countEntries r.1 0 == 2, r.2)

/-- The loop over the entries; `self` is the recursion. -/
def destroyEntries (self : List Char → State → Option Outcome) (name : List Char) :
    List Entry → State → Option (Except Outcome State)
  | [], s => some (.ok s)
  | (dName, .reg) :: dirents, s =>
    if s.tree.lookup (fullpath name dName) = none then some (.error (.returned a.errno s))
    else
      match s.tree.unlink (fullpath name dName) with
      | none => some (.error (.returned a.errno s))
      | some tree => destroyEntries self name dirents { s with tree := tree }
  | (dName, .dir) :: dirents, s =>
    if dName = ['.'] ∨ dName = ['.', '.'] then destroyEntries self name dirents s
    else if s.tree.lookup (fullpath name dName) = none then some (.error (.returned a.errno s))
    else
      match isDirEmpty a (fullpath name dName) s with
      | none => some (.error .fault)
      | some (false, s) =>
        match self (fullpath name dName) s with
        | none => none
        | some (.returned _ s) => destroyEntries self name dirents s
        | some out => some (.error out)
      | some (true, s) =>
        match s.tree.rmdir (fullpath name dName) with
        | none => some (.error (.returned a.errno s))
        | some tree => destroyEntries self name dirents { s with tree := tree }
  | (_, .other) :: dirents, s => destroyEntries self name dirents s

/-- The fuel is for the depth of the recursion. -/
def traverseAndDestroy : Nat → List Char → State → Option Outcome
  | 0, _, _ => none
  | fuel + 1, name, s =>
    match opendir a name s with
    | none => some .fault
    | some (dirents, s) =>
      match destroyEntries a (traverseAndDestroy fuel) name dirents s with
      | none => none
      | some (.error out) => some out
      | some (.ok s) =>
        match s.tree.rmdir name with
        | none => some (.exited a.errno s)
        | some tree => some (.returned 0 { s with tree := tree })

end

-- ---------------------------------------------------------------------------
-- build_dir_tree
-- ---------------------------------------------------------------------------

structure BuildState where
  tree : FileTree
  drawn : Nat := 0

/-- The arguments that all calls share, what `rand` returns, and where the system
refuses to create something. -/
structure Build where
  entries : UInt64
  random : Bool
  rand : Nat → Rand
  refuses : BuildState → List Char → Bool

def printLong (n : Nat) : List Char := printInt ((n : Int).bmod (2 ^ 64))

section
variable (b : Build)

def mkdir (path : List Char) (s : BuildState) : Option FileTree :=
  if b.refuses s path then none else s.tree.mkdir path

def openCreat (path : List Char) (s : BuildState) : Option FileTree :=
  if b.refuses s path then none else s.tree.creat path

/-- The name of entry `i`: a random one, or a letter, and two numbers. -/
def entryName (letter : Char) (layer i k : Nat) : List Char × Nat :=
  let r := if b.random then getRandNam 1 (OCFS2_MAX_FILENAME_LEN - 20) b.rand k else ([letter], k)
  (r.1 ++ printLong layer ++ printLong i, r.2)

/-- The loop over the files, from file `i` on; it ends with whether all were created. -/
def buildFiles (dirname : List Char) (layer : Nat) : Nat → Nat → BuildState → BuildState × Bool
  | 0, _, s => (s, true)
  | n + 1, i, s =>
    let name := entryName b 'F' layer i s.drawn
    match openCreat b (fullpath dirname name.1) { s with drawn := name.2 } with
    | none => ({ s with drawn := name.2 }, false)
    | some tree => buildFiles dirname layer n (i + 1) ⟨tree, name.2⟩

/-- The loop over the directories; it ends with whether a division by zero has ended
it. `self` is the recursion, whose result is not looked at. -/
def buildDirs (self : List Char → BuildState → BuildState × Bool) (dirname : List Char)
    (layer : Nat) : Nat → Nat → BuildState → BuildState × Bool
  | 0, _, s => (s, false)
  | n + 1, i, s =>
    let name := entryName b 'D' layer i s.drawn
    match self (fullpath dirname name.1) { s with drawn := name.2 } with
    | (s, true) => (s, true)
    | (s, false) => buildDirs self dirname layer n (i + 1) s

def buildDirTree : Nat → List Char → BuildState → BuildState × Bool
  | depth, dirname, s =>
    match mkdir b dirname s with
    | none => (s, false)
    | some tree =>
      match depth with
      | 0 => ({ s with tree := tree }, false)
      | depth + 1 =>
        if b.random ∧ b.entries = 1 then ({ s with tree := tree }, true)
        else
          let dirDirents :=
            if b.random then 1 + UInt64.ofNat ((b.rand s.drawn).val % (b.entries - 1).toNat)
            else b.entries / 2
          let drawn := if b.random then s.drawn + 1 else s.drawn
          match buildFiles b dirname (depth + 1) (b.entries - dirDirents).toNat 0 ⟨tree, drawn⟩ with
          | (s, false) => (s, false)
          | (s, true) =>
            buildDirs b (buildDirTree depth) dirname (depth + 1) dirDirents.toNat 0 s

end

/-- Files and directories only, all of them with paths that fit their buffer. -/
structure Plain (t : FileTree) (name : List Char) : Prop where
  kind : ∀ q, Below name q → t.lookup q ≠ some .other
  short : ∀ q, Below name q → t.lookup q ≠ none → q.length < PATH_MAX

-- ---------------------------------------------------------------------------
-- Entries
-- ---------------------------------------------------------------------------

section
variable {a : Answers} {t t' : FileTree} {s : State} {name n c : List Char} {k : FileKind}

theorem Plain.of_removed (h : Plain t name) (hr : t.Removed c t') : Plain t' name where
  kind q hq hother := by
    rw [hr] at hother
    split at hother
    · cases hother
    · exact h.kind q hq hother
  short q hq hne := by
    rw [hr] at hne
    split at hne
    · exact absurd rfl hne
    · exact h.short q hq hne

theorem Plain.below (h : Plain t name) (hc : Below name c) : Plain t c where
  kind q hq := h.kind q (hc.trans hq)
  short q hq := h.short q (hc.trans hq)

theorem Plain.fullpath_eq (h : Plain t name) (hn : t.lookup (join name n) ≠ none) :
    fullpath name n = join name n :=
  List.take_of_length_le (Nat.le_pred_of_lt (h.short _ (below_join name n) hn))

theorem countEntries_eq (es : List Entry) (hi : i ≤ 2) :
    countEntries es i = min 3 (i + es.length) := by
  induction es generalizing i with
  | nil =>
    rw [countEntries, List.length_nil]
    omega
  | cons e es ih =>
    rw [countEntries, List.length_cons]
    split
    · omega
    · rw [ih (by omega)]
      omega

theorem opendir_eq (a : Answers) (h : s.tree.lookup name = some .dir) : ∃ es,
    opendir a name s = some (es, { s with opens := s.opens + 1 }) ∧
      es.Perm (dots ++ s.tree.children name) :=
  ⟨_, if_pos h, a.lists _ _ _ h⟩

theorem isDirEmpty_eq (a : Answers) (h : s.tree.lookup name = some .dir) : ∃ empty,
    isDirEmpty a name s = some (empty, { s with opens := s.opens + 1 }) ∧
      (empty = true ↔ s.tree.children name = []) := by
  obtain ⟨es, hes, hperm⟩ := opendir_eq a h
  refine ⟨countEntries es 0 == 2, by rw [isDirEmpty, hes]; rfl, ?_⟩
  have hlen : es.length = 2 + (s.tree.children name).length := by
    rw [hperm.length_eq, List.length_append]
    rfl
  rw [beq_iff_eq, countEntries_eq es (Nat.zero_le 2), ← List.length_eq_zero_iff]
  omega

-- ---------------------------------------------------------------------------
-- The loop
-- ---------------------------------------------------------------------------

def Destroys (self : List Char → State → Option Outcome) (c : List Char) : Prop :=
  ∀ s, s.tree.lookup c = some .dir → Plain s.tree c → ∃ s', self c s = some (.returned 0 s') ∧
    s.tree.Removed c s'.tree

variable {self : List Char → State → Option Outcome}

theorem destroyEntries_child (hchild : (n, k) ∈ s.tree.children name) (hplain : Plain s.tree name)
    (hself : Destroys self (join name n)) (dirents : List Entry) :
    ∃ s', destroyEntries a self name ((n, k) :: dirents) s = destroyEntries a self name dirents s' ∧
      s.tree.Removed (join name n) s'.tree := by
  have hlookup := (FileTree.mem_children.mp hchild).2
  have hthere : s.tree.lookup (join name n) ≠ none := by simp [hlookup]
  have hpath := hplain.fullpath_eq hthere
  have hentry := FileTree.IsEntry.of_mem_children hchild
  cases k with
  | reg =>
    obtain ⟨tree, hunlink, hremoved⟩ := FileTree.exists_unlink hlookup
    refine ⟨{ s with tree := tree }, ?_, hremoved⟩
    rw [destroyEntries, hpath, if_neg hthere, hunlink]
  | dir =>
    have hnot : ¬ (n = ['.'] ∨ n = ['.', '.']) := not_or.mpr ⟨hentry.ne_dot, hentry.ne_dotDot⟩
    obtain ⟨empty, hempty, hiff⟩ := isDirEmpty_eq a hlookup
    rw [destroyEntries, if_neg hnot, hpath, if_neg hthere, hempty]
    cases empty with
    | false =>
      have hbelow := hplain.below (below_join name n)
      obtain ⟨s', hs', hremoved⟩ := hself { s with opens := s.opens + 1 } hlookup hbelow
      exact ⟨s', by simp only [hs'], hremoved⟩
    | true =>
      obtain ⟨tree, hrmdir, hremoved⟩ := FileTree.exists_rmdir hlookup (hiff.mp rfl)
      exact ⟨⟨tree, s.opens + 1⟩, by simp only [hrmdir], hremoved⟩
  | other => exact absurd hlookup (hplain.kind _ (below_join name n))

theorem destroyEntries_dot (h : (n, k) ∈ dots) (dirents : List Entry) :
    destroyEntries a self name ((n, k) :: dirents) s = destroyEntries a self name dirents s := by
  simp only [dots, List.mem_cons, List.not_mem_nil, or_false, Prod.mk.injEq] at h
  obtain ⟨rfl, rfl⟩ | ⟨rfl, rfl⟩ := h
  · rw [destroyEntries, if_pos (.inl rfl)]
  · rw [destroyEntries, if_pos (.inr rfl)]

theorem mem_children_of_removed {e : Entry} (hne : e.1 ≠ n) (h : e ∈ t.children name)
    (hn : '/' ∉ n) (hr : t.Removed (join name n) t') : e ∈ t'.children name := by
  obtain ⟨m, k⟩ := e
  obtain ⟨hslash, hlookup⟩ := FileTree.mem_children.mp h
  refine FileTree.mem_children.mpr ⟨hslash, ?_⟩
  rw [hr, if_neg, hlookup]
  rw [below_join_iff hn, List.takeWhile_eq_self_iff.mpr]
  · exact hne
  · intro c hc
    rw [decide_eq_true_eq]
    rintro rfl
    exact hslash hc

def Covered (name : List Char) (dirents : List Entry) (q : List Char) : Prop :=
  ∃ e ∈ dirents, e ∉ dots ∧ Below (join name e.1) q

theorem covered_cons {e : Entry} {dirents : List Entry} {q : List Char} :
    Covered name (e :: dirents) q ↔
      (e ∉ dots ∧ Below (join name e.1) q) ∨ Covered name dirents q := by
  simp only [Covered, List.exists_mem_cons_iff]

structure Cleared (name : List Char) (dirents : List Entry) (t t' : FileTree) : Prop where
  gone : ∀ q, Covered name dirents q → t'.lookup q = none
  kept : ∀ q, ¬ Covered name dirents q → t'.lookup q = t.lookup q

theorem Cleared.dot {e : Entry} {dirents : List Entry} (h : Cleared name dirents t t')
    (hdot : e ∈ dots) : Cleared name (e :: dirents) t t' where
  gone q hq := h.gone q ((covered_cons.mp hq).resolve_left fun hc => hc.1 hdot)
  kept q hq := h.kept q fun hc => hq (covered_cons.mpr (.inr hc))

theorem Cleared.cons {dirents : List Entry} (hdot : (n, k) ∉ dots)
    (hr : t.Removed (join name n) t₁) (h : Cleared name dirents t₁ t') :
    Cleared name ((n, k) :: dirents) t t' where
  gone q hq := by
    by_cases hc : Covered name dirents q
    · exact h.gone q hc
    · obtain ⟨-, hbelow⟩ := (covered_cons.mp hq).resolve_right hc
      rw [h.kept q hc, hr, if_pos hbelow]
  kept q hq := by
    rw [covered_cons, not_or] at hq
    rw [h.kept q hq.2, hr, if_neg fun hbelow => hq.1 ⟨hdot, hbelow⟩]

theorem destroyEntries_all (dirents : List Entry) (hnodup : (dirents.map Prod.fst).Nodup)
    (hmem : ∀ e ∈ dirents, e ∈ dots ∨ e ∈ s.tree.children name) (hplain : Plain s.tree name)
    (hself : ∀ n, Destroys self (join name n)) :
    ∃ s', destroyEntries a self name dirents s = some (.ok s') ∧
      Cleared name dirents s.tree s'.tree := by
  induction dirents generalizing s with
  | nil => exact ⟨s, rfl, fun q ⟨e, he, _⟩ => absurd he List.not_mem_nil, fun _ _ => rfl⟩
  | cons e dirents ih =>
    obtain ⟨n, k⟩ := e
    rw [List.map_cons, List.nodup_cons] at hnodup
    rw [List.forall_mem_cons] at hmem
    by_cases hdot : (n, k) ∈ dots
    · obtain ⟨s', hs', hcleared⟩ := ih hnodup.2 hmem.2 hplain
      exact ⟨s', by rw [destroyEntries_dot hdot, hs'], hcleared.dot hdot⟩
    · have hchild := hmem.1.resolve_left hdot
      have hslash := (FileTree.IsEntry.of_mem_children hchild).noSlash
      obtain ⟨s₁, hstep, hremoved⟩ := destroyEntries_child (a := a) hchild hplain (hself n) dirents
      have hmem₁ : ∀ e ∈ dirents, e ∈ dots ∨ e ∈ s₁.tree.children name := by
        intro e he
        refine (hmem.2 e he).imp id fun h => mem_children_of_removed (fun heq => ?_) h hslash hremoved
        exact hnodup.1 (List.mem_map.mpr ⟨e, he, heq⟩)
      obtain ⟨s', hs', hcleared⟩ := ih hnodup.2 hmem₁ (hplain.of_removed hremoved)
      exact ⟨s', by rw [hstep, hs'], .cons hdot hremoved hcleared⟩

theorem isEntry_of_mem_dots (h : (n, k) ∈ dots) : ¬ IsEntry n := by
  intro hentry
  simp only [dots, List.mem_cons, List.not_mem_nil, or_false, Prod.mk.injEq] at h
  rcases h with ⟨hdot, -⟩ | ⟨hdot, -⟩
  · exact hentry.ne_dot hdot
  · exact hentry.ne_dotDot hdot

theorem nodup_entries (t : FileTree) (name : List Char) :
    ((dots ++ t.children name).map Prod.fst).Nodup := by
  rw [List.map_append, List.nodup_append]
  refine ⟨by decide, t.nodup_children name, ?_⟩
  rintro d hd n hn rfl
  obtain ⟨⟨m, k⟩, hmem, rfl⟩ := List.mem_map.mp hn
  obtain ⟨⟨m', k'⟩, hdot, rfl⟩ := List.mem_map.mp hd
  exact isEntry_of_mem_dots hdot (FileTree.IsEntry.of_mem_children hmem)

/-- With all entries cleared, the directory is all that is left of the tree. -/
theorem Cleared.children_eq_nil {dirents : List Entry} (h : Cleared name dirents t t')
    (hall : ∀ e ∈ t.children name, e ∈ dirents) : t'.children name = [] := by
  rw [List.eq_nil_iff_forall_not_mem]
  rintro ⟨n, k⟩ hleft
  obtain ⟨hslash, hleft⟩ := FileTree.mem_children.mp hleft
  have hno : ¬ Covered name dirents (join name n) := fun hc => by
    rw [h.gone _ hc] at hleft
    cases hleft
  rw [h.kept _ hno] at hleft
  have hchild : (n, k) ∈ t.children name := FileTree.mem_children.mpr ⟨hslash, hleft⟩
  refine hno ⟨(n, k), hall _ hchild, fun hdot => ?_, .refl _⟩
  exact isEntry_of_mem_dots hdot (FileTree.IsEntry.of_mem_children hchild)

theorem Covered.below {dirents : List Entry} {q : List Char} (h : Covered name dirents q) :
    Below name q ∧ q ≠ name := by
  obtain ⟨e, -, -, hbelow⟩ := h
  refine ⟨(below_join name e.1).trans hbelow, ?_⟩
  rintro rfl
  exact not_below_self_of_join q e.1 hbelow

/-- The tree is removed. The induction is on the fuel, which is enough for all paths
that are longer. -/
theorem traverseAndDestroy_removes (a : Answers) (fuel : Nat) (name : List Char) (s : State)
    (hroot : s.tree.lookup name = some .dir) (hplain : Plain s.tree name)
    (hfuel : PATH_MAX - name.length ≤ fuel) :
    ∃ s', traverseAndDestroy a fuel name s = some (.returned 0 s') ∧
      s.tree.Removed name s'.tree := by
  induction fuel generalizing name s with
  | zero =>
    have := hplain.short name (.refl name) (by simp [hroot])
    omega
  | succ fuel ih =>
    obtain ⟨dirents, hopen, hperm⟩ := opendir_eq a hroot
    have hself (n : List Char) : Destroys (traverseAndDestroy a fuel) (join name n) := by
      intro s' hdir hplain'
      refine ih (join name n) s' hdir hplain' ?_
      rw [length_join]
      omega
    have hnodup : (dirents.map Prod.fst).Nodup :=
      (hperm.map Prod.fst).nodup_iff.mpr (nodup_entries s.tree name)
    have hmem : ∀ e ∈ dirents, e ∈ dots ∨ e ∈ s.tree.children name := fun e he =>
      List.mem_append.mp (hperm.mem_iff.mp he)
    obtain ⟨s₁, hloop, hcleared⟩ := destroyEntries_all (a := a) (s := { s with opens := s.opens + 1 })
      dirents hnodup hmem hplain hself
    have hroot₁ : s₁.tree.lookup name = some .dir := by
      rw [hcleared.kept name fun hc => hc.below.2 rfl]
      exact hroot
    have hempty : s₁.tree.children name = [] := hcleared.children_eq_nil fun e he =>
      hperm.mem_iff.mpr (List.mem_append_right _ he)
    obtain ⟨tree, hrmdir, hremoved⟩ := FileTree.exists_rmdir hroot₁ hempty
    refine ⟨{ s₁ with tree := tree }, ?_, fun q => ?_⟩
    · rw [traverseAndDestroy, hopen]
      simp only [hloop, hrmdir]
    · show tree.lookup q = _
      rw [hremoved]
      split
      · rfl
      · next hq => exact hcleared.kept q fun hc => hq hc.below.1

end

-- ---------------------------------------------------------------------------
-- What is built
-- ---------------------------------------------------------------------------

/-- New are only files and directories below a path, with paths that fit their buffer. -/
structure Grown (name : List Char) (t t' : FileTree) : Prop where
  kept : ∀ q, t.lookup q ≠ none → t'.lookup q = t.lookup q
  new : ∀ q, t.lookup q = none → t'.lookup q ≠ none →
    Below name q ∧ q.length < PATH_MAX ∧ t'.lookup q ≠ some .other

section
variable {name c : List Char} {t t' t'' : FileTree}

theorem Grown.refl (name : List Char) (t : FileTree) : Grown name t t where
  kept _ _ := rfl
  new _ hq hne := absurd hq hne

theorem Grown.trans (h : Grown name t t') (h' : Grown name t' t'') : Grown name t t'' where
  kept q hq := by
    have hkept := h.kept q hq
    rw [h'.kept q (hkept ▸ hq), hkept]
  new q hq hne := by
    by_cases hq' : t'.lookup q = none
    · exact h'.new q hq' hne
    · rw [h'.kept q hq']
      exact h.new q hq hq'

theorem Grown.mono (hc : Below name c) (h : Grown c t t') : Grown name t t' where
  kept := h.kept
  new q hq hne := by
    obtain ⟨hbelow, hrest⟩ := h.new q hq hne
    exact ⟨hc.trans hbelow, hrest⟩

theorem grown_of_lookup {k : FileKind} (hshort : c.length < PATH_MAX) (hk : k ≠ .other)
    (hnew : t.lookup c = none) (h : ∀ q, t'.lookup q = if q = c then some k else t.lookup q) :
    Grown c t t' where
  kept q hq := by
    rw [h, if_neg]
    rintro rfl
    exact hq hnew
  new q hq hne := by
    rw [h] at hne ⊢
    split at hne
    · next heq =>
      subst heq
      rw [if_pos rfl]
      exact ⟨.refl q, hshort, fun hc => hk (Option.some.inj hc)⟩
    · exact absurd hq hne

theorem grown_mkdir {b : Build} {s : BuildState} (hshort : c.length < PATH_MAX)
    (h : mkdir b c s = some t') : Grown c s.tree t' := by
  unfold mkdir at h
  split at h
  · cases h
  · obtain ⟨hnew, hlookup⟩ := FileTree.lookup_mkdir h
    exact grown_of_lookup hshort (by decide) hnew hlookup

theorem grown_openCreat {b : Build} {s : BuildState} (hshort : c.length < PATH_MAX)
    (h : openCreat b c s = some t') : Grown c s.tree t' := by
  unfold openCreat at h
  split at h
  · cases h
  · obtain rfl | ⟨hnew, hlookup⟩ := FileTree.lookup_creat h
    · exact .refl c s.tree
    · exact grown_of_lookup hshort (by decide) hnew hlookup

theorem fullpath_spec (h : name.length < PATH_MAX) (n : List Char) :
    Below name (fullpath name n) ∧ (fullpath name n).length < PATH_MAX := by
  constructor
  · have hle : name.length ≤ PATH_MAX - 1 := Nat.le_pred_of_lt h
    rw [fullpath, join, List.take_append, List.take_of_length_le hle]
    cases PATH_MAX - 1 - name.length with
    | zero =>
      rw [List.take_zero, List.append_nil]
      exact .refl name
    | succ m => exact below_join name (n.take m)
  · refine (List.length_take_le _ _).trans_lt ?_
    decide

end

section
variable {b : Build} {name : List Char} {s : BuildState}

theorem Grown.of_eq {t : FileTree} {r : BuildState × Bool} {s : BuildState} {b : Bool}
    (hr : Grown name t r.1.tree) (h : r = (s, b)) : Grown name t s.tree := by
  rw [h] at hr
  exact hr

theorem buildFiles_grown (h : name.length < PATH_MAX) (layer n i : Nat) (s : BuildState) :
    Grown name s.tree (buildFiles b name layer n i s).1.tree := by
  induction n generalizing i s with
  | zero => exact .refl name s.tree
  | succ n ih =>
    obtain ⟨hbelow, hshort⟩ := fullpath_spec h (entryName b 'F' layer i s.drawn).1
    rw [buildFiles]
    split
    · exact .refl name s.tree
    · next tree hcreat =>
      exact (Grown.mono hbelow (grown_openCreat hshort hcreat)).trans (ih (i + 1) ⟨tree, _⟩)

theorem buildDirs_grown {self : List Char → BuildState → BuildState × Bool}
    (hself : ∀ c s, c.length < PATH_MAX → Grown c s.tree (self c s).1.tree)
    (h : name.length < PATH_MAX) (layer n i : Nat) (s : BuildState) :
    Grown name s.tree (buildDirs b self name layer n i s).1.tree := by
  induction n generalizing i s with
  | zero => exact .refl name s.tree
  | succ n ih =>
    obtain ⟨hbelow, hshort⟩ := fullpath_spec h (entryName b 'D' layer i s.drawn).1
    have hgrown := Grown.mono hbelow (hself (fullpath name (entryName b 'D' layer i s.drawn).1)
      { s with drawn := (entryName b 'D' layer i s.drawn).2 } hshort)
    rw [buildDirs]
    split
    · next s' hs' => exact hgrown.of_eq hs'
    · next s' hs' => exact (hgrown.of_eq hs').trans (ih (i + 1) s')

theorem buildDirTree_grown (depth : Nat) (h : name.length < PATH_MAX) (s : BuildState) :
    Grown name s.tree (buildDirTree b depth name s).1.tree := by
  induction depth generalizing name s with
  | zero =>
    rw [buildDirTree]
    split
    · exact .refl name s.tree
    · next tree hmkdir => exact grown_mkdir h hmkdir
  | succ depth ih =>
    have hself (c : List Char) (s : BuildState) (hc : c.length < PATH_MAX) := ih hc s
    cases hmkdir : mkdir b name s with
    | none =>
      rw [buildDirTree, hmkdir]
      exact .refl name s.tree
    | some tree =>
      have hgrown := grown_mkdir h hmkdir
      rw [buildDirTree, hmkdir]
      by_cases hzero : b.random ∧ b.entries = 1
      · simp only [if_pos hzero]
        exact hgrown
      · simp only [if_neg hzero]
        split
        · next s' hfiles =>
          exact hgrown.trans ((buildFiles_grown h (depth + 1) _ 0 ⟨tree, _⟩).of_eq hfiles)
        · next s' hfiles =>
          have hgrown' := (buildFiles_grown h (depth + 1) _ 0 ⟨tree, _⟩).of_eq hfiles
          exact (hgrown.trans hgrown').trans (buildDirs_grown hself h (depth + 1) _ 0 s')

theorem Grown.plain {t t' : FileTree} (h : Grown name t t') (hnone : t.lookup name = none) :
    Plain t' name where
  kind q hq hother :=
    (h.new q (FileTree.lookup_eq_none_of_below hnone hq) (by simp [hother])).2.2 hother
  short q hq hne := (h.new q (FileTree.lookup_eq_none_of_below hnone hq) hne).2.1

theorem Grown.lookup_of_removed {t t₁ t' : FileTree} (h : Grown name t t₁)
    (hnone : t.lookup name = none) (hr : t₁.Removed name t') (q : List Char) :
    t'.lookup q = t.lookup q := by
  rw [hr]
  split
  · next hq => exact (FileTree.lookup_eq_none_of_below hnone hq).symm
  · next hq =>
    by_cases hthere : t.lookup q = none
    · rw [hthere]
      by_contra hnew
      exact hq (h.new q hthere hnew).1
    · exact h.kept q hthere

end

/-- All that is below the root is removed and nothing else; what has been built is removed
so that the tree is as before. -/
theorem traverseAndDestroy_exact (a : Answers) (fuel : Nat) (hfuel : PATH_MAX ≤ fuel) :
    (∀ (s : State) (name : List Char), s.tree.lookup name = some .dir → Plain s.tree name →
      ∃ s', traverseAndDestroy a fuel name s = some (.returned 0 s') ∧
        s.tree.Removed name s'.tree) ∧
    ∀ (b : Build) (depth : Nat) (name : List Char) (s : BuildState) (opens : Nat),
      s.tree.lookup name = none → name.length < PATH_MAX →
      (buildDirTree b depth name s).1.tree.lookup name = some .dir →
      ∃ s', traverseAndDestroy a fuel name ⟨(buildDirTree b depth name s).1.tree, opens⟩ =
          some (.returned 0 s') ∧
        ∀ q, s'.tree.lookup q = s.tree.lookup q := by
  have henough (name : List Char) : PATH_MAX - name.length ≤ fuel := (Nat.sub_le _ _).trans hfuel
  constructor
  · intro s name hroot hplain
    exact traverseAndDestroy_removes a fuel name s hroot hplain (henough name)
  · intro b depth name s opens hnone hshort hroot
    have hgrown := buildDirTree_grown (b := b) depth hshort s
    obtain ⟨s', hs', hremoved⟩ := traverseAndDestroy_removes a fuel name
      ⟨(buildDirTree b depth name s).1.tree, opens⟩ hroot (hgrown.plain hnone) (henough name)
    exact ⟨s', hs', hgrown.lookup_of_removed hnone hremoved⟩

def inOrder : Answers where
  readdir _ t p := dots ++ t.children p
  lists _ _ _ _ := .refl _
  errno := ⟨2, by decide⟩

def emptyTree : FileTree where
  objects := ∅
  parent _ _ _ h := absurd h (AList.notMem_empty _)
  isEntry _ _ _ h := absurd h (AList.notMem_empty _)

def twoEntries : Build where
  entries := 2
  random := false
  rand _ := ⟨0, by decide⟩
  refuses _ _ := false

theorem traverseAndDestroy_exact_built :
    (buildDirTree twoEntries 1 ['d'] ⟨emptyTree, 0⟩).1.tree.lookup "d/D10".toList = some .dir ∧
    ∃ s', traverseAndDestroy inOrder PATH_MAX ['d']
        ⟨(buildDirTree twoEntries 1 ['d'] ⟨emptyTree, 0⟩).1.tree, 0⟩ = some (.returned 0 s') ∧
      ∀ q, s'.tree.lookup q = emptyTree.lookup q :=
  ⟨by decide, (traverseAndDestroy_exact inOrder PATH_MAX le_rfl).2 twoEntries 1 ['d'] ⟨emptyTree, 0⟩ 0
    (by decide) (by decide) (by decide)⟩

end Ocfs2Test.Dirs.Destroy
