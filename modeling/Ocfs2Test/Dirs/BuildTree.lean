import Ocfs2Test.Dirs.Destroy

/-!
# What build_dir_tree builds

A directory above the lowest level gets files first and then sub-directories, under
names that carry the level and a number behind random letters. Two of them are the same
only when a sub-directory draws the letters of the file with its number; the tree is
complete unless that happens or a random split of one entry divides by zero.
-/

namespace Ocfs2Test.Dirs.BuildTree

open Lib Lib.Stdio FilePath AnyCalls Destroy

-- ---------------------------------------------------------------------------
-- index_dir
-- ---------------------------------------------------------------------------

section
variable (b : Build)

/-- `build_dir_tree` of `index_dir.c`, with whether the process has ended. It goes on when
the directory cannot be created, and ends it when a file cannot. -/
def buildDirTree : Nat → List Char → BuildState → BuildState × Bool
  | depth, dirname, s =>
    let tree := (mkdir b dirname s).getD s.tree
    match depth with
    | 0 => ({ s with tree := tree }, false)
    | depth + 1 =>
      if b.random ∧ b.entries = 1 then ({ s with tree := tree }, true)
      else
        let dirDirents :=
          if b.random then 1 + UInt64.ofNat ((b.rand s.drawn).val % (b.entries - 1).toNat)
          else b.entries / 2
        let drawn := if b.random then s.drawn + 1 else s.drawn
        match buildFiles b dirname (depth + 1) (b.entries - dirDirents).toNat 0 ⟨tree, drawn⟩ with
        | (s, false) => (s, true)
        | (s, true) =>
          buildDirs b (buildDirTree depth) dirname (depth + 1) dirDirents.toNat 0 s

-- ---------------------------------------------------------------------------
-- The tree that is asked for
-- ---------------------------------------------------------------------------

structure Level where
  path : List Char
  files : List (List Char)
  dirs : List (List Char)

/-- The names of `n` files, and the next random number. -/
def planFiles (layer : Nat) : Nat → Nat → Nat → List (List Char) × Nat
  | 0, _, k => ([], k)
  | n + 1, i, k =>
    let name := entryName b 'F' layer i k
    let rest := planFiles layer n (i + 1) name.2
    (name.1 :: rest.1, rest.2)

/-- The names of `n` sub-directories, what is planned in them, and the next random number. -/
def planDirs (self : List Char → Nat → List Level × Nat) (dirname : List Char) (layer : Nat) :
    Nat → Nat → Nat → List (List Char) × List Level × Nat
  | 0, _, k => ([], [], k)
  | n + 1, i, k =>
    let name := entryName b 'D' layer i k
    let sub := self (join dirname name.1) name.2
    let rest := planDirs self dirname layer n (i + 1) sub.2
    (name.1 :: rest.1, sub.1 ++ rest.2.1, rest.2.2)

/-- How many of the entries are directories, and the next random number. -/
def dirDirents (k : Nat) : UInt64 × Nat :=
  if b.random then (1 + UInt64.ofNat ((b.rand k).val % (b.entries - 1).toNat), k + 1)
  else (b.entries / 2, k)

/-- All directories above the lowest level with the names drawn for them. -/
def plan : Nat → List Char → Nat → List Level × Nat
  | 0, _, k => ([], k)
  | depth + 1, dirname, k =>
    if b.random ∧ b.entries = 1 then ([], k)
    else
      let dirs := dirDirents b k
      let files := planFiles b (depth + 1) (b.entries - dirs.1).toNat 0 dirs.2
      let subs := planDirs b (plan depth) dirname (depth + 1) dirs.1.toNat 0 files.2
      (⟨dirname, files.1, subs.1⟩ :: subs.2.1, subs.2.2)

def Level.Short (l : Level) : Prop :=
  ∀ n ∈ l.files ++ l.dirs, (join l.path n).length < PATH_MAX

instance (l : Level) : Decidable l.Short := inferInstanceAs (Decidable (∀ n ∈ _, _))

/-- No sub-directory has drawn the name of the file with its number. -/
def Level.Distinct (l : Level) : Prop := ∀ p ∈ l.files.zip l.dirs, p.1 ≠ p.2

instance (l : Level) : Decidable l.Distinct := inferInstanceAs (Decidable (∀ p ∈ _, _))

/-- Exactly `entries` children above the lowest level, none on it. -/
def Full (entries : Nat) : Nat → List Char → FileTree → Prop
  | 0, p, t => t.lookup p = some .dir ∧ t.children p = []
  | depth + 1, p, t => t.lookup p = some .dir ∧ (t.children p).length = entries ∧
      ∀ n, (n, .dir) ∈ t.children p → Full entries depth (join p n) t

/-- No division by zero and no exit, and a tree that is full. -/
structure Builds (build : Nat → List Char → BuildState → BuildState × Bool) (depth : Nat)
    (name : List Char) (s : BuildState) : Prop where
  goesOn : (build depth name s).2 = false
  full : Full b.entries.toNat depth name (build depth name s).1.tree

end

-- ---------------------------------------------------------------------------
-- Names
-- ---------------------------------------------------------------------------

theorem printInt_injective {x y : Int} (hx : -2 ^ 63 ≤ x ∧ x < 2 ^ 63)
    (hy : -2 ^ 63 ≤ y ∧ y < 2 ^ 63) (h : printInt x = printInt y) : x = y := by
  rw [← strtol_printInt hx.1 hx.2, h, strtol_printInt hy.1 hy.2]

theorem printLong_injective {m n : Nat} (hm : m < 2 ^ 64) (hn : n < 2 ^ 64)
    (h : printLong m = printLong n) : m = n := by
  have hbounds (k : Nat) :
      -2 ^ 63 ≤ (k : Int).bmod (2 ^ 64) ∧ (k : Int).bmod (2 ^ 64) < 2 ^ 63 := by
    rw [Int.bmod_def]
    omega
  have heq := printInt_injective (hbounds m) (hbounds n) h
  rw [Int.bmod_def, Int.bmod_def] at heq
  omega

theorem mem_printLong {n : Nat} {c : Char} (h : c ∈ printLong n) : c.isDigit = true ∨ c = '-' := by
  rw [printLong] at h
  cases hn : (n : Int).bmod (2 ^ 64) with
  | ofNat m =>
    rw [hn] at h
    exact .inl (isDigit_of_mem_printNat h)
  | negSucc m =>
    rw [hn, printInt, List.mem_cons] at h
    exact h.symm.imp isDigit_of_mem_printNat id

theorem not_isUpper_of_mem {n : Nat} {c : Char} (h : c ∈ printLong n) : c.isUpper = false := by
  obtain hdigit | rfl := mem_printLong h
  · simp only [Char.isDigit, Bool.and_eq_true, decide_eq_true_eq] at hdigit
    rw [Char.isUpper, decide_eq_false_iff_not]
    rintro ⟨hle, -⟩
    exact absurd (UInt32.le_trans hle hdigit.2) (by decide)
  · rfl

theorem randChar_isUpper (r : Rand) : (IndexDir.randChar r).isUpper = true := by
  have hall : ∀ k ≤ 25, (Char.ofNat (65 + k)).isUpper = true := by decide
  have hle := (IndexDir.getRand_bounds (show 0 < 25 by decide) r).2
  rw [IndexDir.randChar]
  generalize getRand 0 25 r = k at hle
  exact hall k hle

theorem getRandNam_upper {most : Nat} (hmost : 1 < most) (rand : Nat → Rand) (k : Nat) :
    (getRandNam 1 most rand k).1 ≠ [] ∧ ∀ c ∈ (getRandNam 1 most rand k).1, c.isUpper = true := by
  constructor
  · have hpos := (IndexDir.getRand_bounds hmost (rand k)).1
    rw [getRandNam, Ne, List.map_eq_nil_iff, List.range_eq_nil]
    omega
  · intro c hc
    rw [getRandNam, List.mem_map] at hc
    obtain ⟨j, -, rfl⟩ := hc
    exact randChar_isUpper _

section
variable (b : Build)

theorem entryName_eq {letter : Char} (hletter : letter.isUpper = true) (layer i k : Nat) :
    ∃ letters, (entryName b letter layer i k).1 = letters ++ (printLong layer ++ printLong i) ∧
      letters ≠ [] ∧ (∀ c ∈ letters, c.isUpper = true) ∧
      (b.random = false → letters = [letter]) := by
  simp only [entryName, List.append_assoc]
  cases b.random with
  | false =>
    refine ⟨[letter], by rw [if_neg Bool.false_ne_true], List.cons_ne_nil _ _, ?_, fun _ => by rfl⟩
    intro c hc
    rw [List.mem_singleton.mp hc]
    exact hletter
  | true =>
    obtain ⟨hne, hupper⟩ :=
      getRandNam_upper (show 1 < OCFS2_MAX_FILENAME_LEN - 20 by decide) b.rand k
    exact ⟨_, by rw [if_pos rfl], hne, hupper, nofun⟩

theorem isEntry_entryName {letter : Char} (hletter : letter.isUpper = true) (layer i k : Nat) :
    IsEntry (entryName b letter layer i k).1 := by
  obtain ⟨letters, heq, hne, hupper, -⟩ := entryName_eq b hletter layer i k
  have hmem : ∀ c ∈ (entryName b letter layer i k).1,
      c.isUpper = true ∨ c.isDigit = true ∨ c = '-' := by
    intro c hc
    rw [heq, List.mem_append, List.mem_append] at hc
    exact hc.imp (hupper c) fun hc => hc.elim mem_printLong mem_printLong
  have hnot (c : Char) (hc : (c.isUpper || c.isDigit || c == '-') = false) :
      c ∉ (entryName b letter layer i k).1 := by
    intro h
    rcases hmem c h with h | h | h <;> simp [h] at hc
  have hdot (n : List Char) (hn : '.' ∈ n) : (entryName b letter layer i k).1 ≠ n := by
    rintro rfl
    exact hnot '.' (by decide) hn
  refine ⟨?_, hdot _ (by decide), hdot _ (by decide), hnot '/' (by decide)⟩
  rw [heq]
  exact List.append_ne_nil_of_left_ne_nil hne _

theorem takeWhile_letters {letters : List Char} (h : ∀ c ∈ letters, c.isUpper = true)
    (layer i : Nat) :
    (letters ++ (printLong layer ++ printLong i)).takeWhile Char.isUpper = letters := by
  rw [List.takeWhile_append_of_pos h, List.append_right_eq_self, List.takeWhile_eq_nil_iff]
  intro hlen hupper
  have hmem := List.mem_append.mp (List.get_mem (printLong layer ++ printLong i) ⟨0, hlen⟩)
  rw [hmem.elim not_isUpper_of_mem not_isUpper_of_mem] at hupper
  cases hupper

theorem entryName_inj {x y : Char} (hx : x.isUpper = true) (hy : y.isUpper = true)
    {layer i j k l : Nat} (hi : i < 2 ^ 64) (hj : j < 2 ^ 64)
    (h : (entryName b x layer i k).1 = (entryName b y layer j l).1) :
    i = j ∧ (b.random = false → x = y) := by
  obtain ⟨letters, heq, -, hupper, hgiven⟩ := entryName_eq b hx layer i k
  obtain ⟨letters', heq', -, hupper', hgiven'⟩ := entryName_eq b hy layer j l
  rw [heq, heq'] at h
  have hletters : letters = letters' := by
    rw [← takeWhile_letters hupper layer i, h, takeWhile_letters hupper' layer j]
  subst hletters
  rw [List.append_cancel_left_eq, List.append_cancel_left_eq] at h
  refine ⟨printLong_injective hi hj h, ?_⟩
  intro hrandom
  exact (List.cons.inj ((hgiven hrandom).symm.trans (hgiven' hrandom))).1

-- ---------------------------------------------------------------------------
-- Planned names
-- ---------------------------------------------------------------------------

/-- Entry `j` of the list carries the number `i + j`. -/
def Numbered (letter : Char) (layer i : Nat) (names : List (List Char)) : Prop :=
  ∀ j n, names[j]? = some n → ∃ k, n = (entryName b letter layer (i + j) k).1

variable {b} {letter : Char} {layer i : Nat} {fs ds : List (List Char)}

theorem Numbered.nil : Numbered b letter layer i [] := nofun

theorem Numbered.cons (k : Nat) (h : Numbered b letter layer (i + 1) fs) :
    Numbered b letter layer i ((entryName b letter layer i k).1 :: fs) := by
  intro j n hn
  cases j with
  | zero =>
    rw [List.getElem?_cons_zero, Option.some.injEq] at hn
    exact ⟨k, hn.symm⟩
  | succ j =>
    obtain ⟨l, hl⟩ := h j n hn
    refine ⟨l, ?_⟩
    rw [hl]
    congr 2
    omega

theorem planFiles_numbered (layer n i k : Nat) :
    Numbered b 'F' layer i (planFiles b layer n i k).1 := by
  induction n generalizing i k with
  | zero => exact .nil
  | succ n ih => exact .cons k (ih (i + 1) _)

theorem planDirs_numbered (self : List Char → Nat → List Level × Nat) (p : List Char)
    (layer n i k : Nat) : Numbered b 'D' layer i (planDirs b self p layer n i k).1 := by
  induction n generalizing i k with
  | zero => exact .nil
  | succ n ih => exact .cons k (ih (i + 1) _)

theorem length_planFiles (layer n i k : Nat) : (planFiles b layer n i k).1.length = n := by
  induction n generalizing i k with
  | zero => rfl
  | succ n ih => rw [planFiles, List.length_cons, ih]

theorem length_planDirs (self : List Char → Nat → List Level × Nat) (p : List Char)
    (layer n i k : Nat) : (planDirs b self p layer n i k).1.length = n := by
  induction n generalizing i k with
  | zero => rfl
  | succ n ih => rw [planDirs, List.length_cons, ih]

theorem Numbered.isEntry (hletter : letter.isUpper = true) (h : Numbered b letter layer i fs) :
    ∀ n ∈ fs, IsEntry n := by
  intro n hn
  obtain ⟨j, hj⟩ := List.mem_iff_getElem?.mp hn
  obtain ⟨k, rfl⟩ := h j n hj
  exact isEntry_entryName b hletter layer (i + j) k

theorem Numbered.index_eq {x y : Char} (hx : x.isUpper = true) (hy : y.isUpper = true)
    (hfs : Numbered b x layer i fs) (hds : Numbered b y layer i ds)
    (hflen : i + fs.length ≤ 2 ^ 64) (hdlen : i + ds.length ≤ 2 ^ 64) {j l : Nat} {n : List Char}
    (hj : fs[j]? = some n) (hl : ds[l]? = some n) : j = l ∧ (b.random = false → x = y) := by
  obtain ⟨k, hk⟩ := hfs j n hj
  obtain ⟨k', hk'⟩ := hds l n hl
  have hjlt := (List.getElem?_eq_some_iff.mp hj).1
  have hllt := (List.getElem?_eq_some_iff.mp hl).1
  obtain ⟨hnumber, hletter⟩ := entryName_inj b hx hy (by omega) (by omega) (hk.symm.trans hk')
  exact ⟨Nat.add_left_cancel hnumber, hletter⟩

theorem Numbered.nodup (hletter : letter.isUpper = true) (h : Numbered b letter layer i fs)
    (hlen : i + fs.length ≤ 2 ^ 64) : fs.Nodup := by
  rw [List.nodup_iff_getElem?_ne_getElem?]
  intro j l hlt hl heq
  rw [List.getElem?_eq_getElem hl] at heq
  have := (index_eq hletter hletter h h hlen hlen heq (List.getElem?_eq_getElem hl)).1
  omega

/-- No two entries of a directory have one name when those with one number have not. -/
theorem disjoint_iff (hfs : Numbered b 'F' layer i fs) (hds : Numbered b 'D' layer i ds)
    (hflen : i + fs.length ≤ 2 ^ 64) (hdlen : i + ds.length ≤ 2 ^ 64) :
    (∀ p ∈ fs.zip ds, p.1 ≠ p.2) ↔ ∀ n ∈ ds, n ∉ fs := by
  constructor
  · intro h n hd hf
    obtain ⟨l, hl⟩ := List.mem_iff_getElem?.mp hd
    obtain ⟨j, hj⟩ := List.mem_iff_getElem?.mp hf
    obtain ⟨rfl, -⟩ := Numbered.index_eq rfl rfl hfs hds hflen hdlen hj hl
    refine h (n, n) ?_ rfl
    exact List.mem_iff_getElem?.mpr ⟨j, List.getElem?_zip_eq_some.mpr ⟨hj, hl⟩⟩
  · intro h p hmem heq
    obtain ⟨hf, hd⟩ := List.of_mem_zip hmem
    exact h p.2 hd (heq ▸ hf)

theorem disjoint_of_not_random (hrandom : b.random = false) (hfs : Numbered b 'F' layer i fs)
    (hds : Numbered b 'D' layer i ds) (hflen : i + fs.length ≤ 2 ^ 64)
    (hdlen : i + ds.length ≤ 2 ^ 64) : ∀ n ∈ ds, n ∉ fs := by
  intro n hd hf
  obtain ⟨l, hl⟩ := List.mem_iff_getElem?.mp hd
  obtain ⟨j, hj⟩ := List.mem_iff_getElem?.mp hf
  exact absurd ((Numbered.index_eq rfl rfl hfs hds hflen hdlen hj hl).2 hrandom) (by decide)

end

-- ---------------------------------------------------------------------------
-- Growth
-- ---------------------------------------------------------------------------

section
variable {p m : List Char} {t t' : FileTree} {e d : Nat}

theorem names_grown (hm : '/' ∉ m) (h : Grown (join p m) t t') :
    t.names p ⊆ t'.names p ∧ t'.names p ⊆ insert m (t.names p) := by
  constructor
  · intro n hn
    obtain ⟨hslash, hne⟩ := FileTree.mem_names.mp hn
    exact FileTree.mem_names.mpr ⟨hslash, by rw [h.kept _ hne]; exact hne⟩
  · intro n hn
    obtain ⟨hslash, hne⟩ := FileTree.mem_names.mp hn
    rw [Finset.mem_insert]
    by_cases hold : t.lookup (join p n) = none
    · have hbelow := (below_join_iff hm).mp (h.new _ hold hne).1
      rw [List.takeWhile_eq_self_iff.mpr] at hbelow
      · exact .inl hbelow
      · intro c hc
        rw [decide_eq_true_eq]
        rintro rfl
        exact hslash hc
    · exact .inr (FileTree.mem_names.mpr ⟨hslash, hold⟩)

theorem children_congr (h : ∀ q, Below p q → t'.lookup q = t.lookup q) (n : List Char)
    (k : FileKind) : (n, k) ∈ t'.children p ↔ (n, k) ∈ t.children p := by
  rw [FileTree.mem_children, FileTree.mem_children, h _ (below_join p n)]

theorem names_congr (h : ∀ q, Below p q → t'.lookup q = t.lookup q) : t'.names p = t.names p := by
  ext n
  rw [FileTree.mem_names, FileTree.mem_names, h _ (below_join p n)]

theorem Full.congr (h : ∀ q, Below p q → t'.lookup q = t.lookup q) (hfull : Full e d p t) :
    Full e d p t' := by
  induction d generalizing p with
  | zero =>
    obtain ⟨hdir, hnil⟩ := hfull
    refine ⟨by rw [h p (.refl p), hdir], List.eq_nil_iff_forall_not_mem.mpr ?_⟩
    rintro ⟨n, k⟩ hmem
    rw [children_congr h, hnil] at hmem
    cases hmem
  | succ d ih =>
    obtain ⟨hdir, hlen, hall⟩ := hfull
    refine ⟨by rw [h p (.refl p), hdir], ?_, ?_⟩
    · rw [← FileTree.card_names, names_congr h, FileTree.card_names, hlen]
    · intro n hmem
      exact ih (fun q hq => h q ((below_join p n).trans hq))
        (hall n ((children_congr h n _).mp hmem))

theorem Full.lookup (h : Full e d p t) : t.lookup p = some .dir := by
  cases d with
  | zero => exact h.1
  | succ d => exact h.1

variable {b : Build} {self : List Char → BuildState → BuildState × Bool}

/-- What the recursion does stays below the path it is given. -/
def Grows (self : List Char → BuildState → BuildState × Bool) : Prop :=
  ∀ c s, c.length < PATH_MAX → Grown c s.tree (self c s).1.tree

theorem exists_fullpath (hp : p.length + 1 < PATH_MAX) {n : List Char} (hn : '/' ∉ n) :
    ∃ m, '/' ∉ m ∧ fullpath p n = join p m := by
  refine ⟨n.take (PATH_MAX - 1 - (p ++ ['/']).length), fun h => hn (List.mem_of_mem_take h), ?_⟩
  have hle : (p ++ ['/']).length ≤ PATH_MAX - 1 := by
    rw [List.length_append, List.length_singleton]
    omega
  rw [fullpath, join_eq, join_eq, List.take_append, List.take_of_length_le hle]

theorem lookup_of_new_name {a q : List Char} (hslash : '/' ∉ m) (ha : a ∈ t.names p)
    (hm : m ∉ t.names p) (h : Grown (join p m) t t') (hq : Below (join p a) q) :
    t'.lookup q = t.lookup q := by
  by_cases hold : t.lookup q = none
  · rw [hold]
    by_contra hne
    have hbelow := (h.new q hold hne).1
    obtain ⟨r, rfl⟩ := hq.of_join
    have heq : m = a := ((below_join_iff hslash).mp hbelow).symm.trans
      ((below_join_iff (FileTree.mem_names.mp ha).1).mp hq)
    exact hm (heq ▸ ha)
  · exact h.kept q hold

/-- Each sub-directory adds at most one name. When each adds one, what was there before
is as it was, with all that is below it. -/
theorem buildDirs_card (hself : Grows self) (hp : p.length + 1 < PATH_MAX) (layer n i : Nat)
    (s : BuildState) :
    ((buildDirs b self p layer n i s).1.tree.names p).card ≤ (s.tree.names p).card + n ∧
    (((buildDirs b self p layer n i s).1.tree.names p).card = (s.tree.names p).card + n →
      ∀ a ∈ s.tree.names p, ∀ q, Below (join p a) q →
        (buildDirs b self p layer n i s).1.tree.lookup q = s.tree.lookup q) := by
  induction n generalizing i s with
  | zero => exact ⟨le_rfl, fun _ _ _ _ _ => rfl⟩
  | succ n ih =>
    have hentry := isEntry_entryName b (show 'D'.isUpper = true from rfl) layer i s.drawn
    obtain ⟨m, hslash, hm⟩ := exists_fullpath hp hentry.noSlash
    have hshort := (fullpath_spec (Nat.lt_of_succ_lt hp) (entryName b 'D' layer i s.drawn).1).2
    have hgrown := hself _ { s with drawn := (entryName b 'D' layer i s.drawn).2 } hshort
    rw [buildDirs]
    generalize self (fullpath p (entryName b 'D' layer i s.drawn).1)
      { s with drawn := (entryName b 'D' layer i s.drawn).2 } = r at hgrown ⊢
    obtain ⟨s₁, stopped⟩ := r
    rw [hm] at hgrown
    change Grown (join p m) s.tree s₁.tree at hgrown
    obtain ⟨-, hsub⟩ := names_grown hslash hgrown
    have hcard : (s₁.tree.names p).card ≤ (s.tree.names p).card + 1 :=
      (Finset.card_le_card hsub).trans (Finset.card_insert_le _ _)
    -- a card that grows by one has a new name
    have hnew (hlt : (s.tree.names p).card < (s₁.tree.names p).card) : m ∉ s.tree.names p := by
      intro hmem
      rw [Finset.insert_eq_of_mem hmem] at hsub
      exact absurd (Finset.card_le_card hsub) (Nat.not_le_of_lt hlt)
    cases stopped with
    | true =>
      dsimp only
      refine ⟨hcard.trans (by omega), ?_⟩
      intro heq a ha q hq
      exact lookup_of_new_name hslash ha (hnew (by omega)) hgrown hq
    | false =>
      dsimp only
      obtain ⟨hle, hrest⟩ := ih (i + 1) s₁
      refine ⟨hle.trans (by omega), ?_⟩
      intro heq a ha q hq
      have hnew := hnew (by omega)
      have ha₁ := (names_grown hslash hgrown).1 ha
      rw [hrest (by omega) a ha₁ q hq]
      exact lookup_of_new_name hslash ha hnew hgrown hq

theorem fullpath_eq_join {n : List Char} (h : (join p n).length < PATH_MAX) :
    fullpath p n = join p n :=
  List.take_of_length_le (Nat.le_pred_of_lt h)

theorem buildFiles_eq (hrefuses : ∀ s c, b.refuses s c = false) (layer n i : Nat) (s : BuildState)
    (hdir : s.tree.lookup p = some .dir)
    (hshort : ∀ a ∈ (planFiles b layer n i s.drawn).1, (join p a).length < PATH_MAX)
    (hfree : ∀ a ∈ (planFiles b layer n i s.drawn).1,
      s.tree.lookup (join p a) = none ∨ s.tree.lookup (join p a) = some .reg) :
    ∃ tree, buildFiles b p layer n i s = (⟨tree, (planFiles b layer n i s.drawn).2⟩, true) ∧
      ∀ q, tree.lookup q = if ∃ a ∈ (planFiles b layer n i s.drawn).1, q = join p a then some .reg
        else s.tree.lookup q := by
  induction n generalizing i s with
  | zero => exact ⟨s.tree, rfl, fun q => by simp [planFiles]⟩
  | succ n ih =>
    rw [planFiles, List.forall_mem_cons] at hshort hfree
    obtain ⟨hshort₀, hshort⟩ := hshort
    obtain ⟨hfree₀, hfree⟩ := hfree
    have hentry := isEntry_entryName b (show 'F'.isUpper = true from rfl) layer i s.drawn
    obtain ⟨tree₁, hcreat, hlookup₁⟩ :=
      FileTree.exists_creat hfree₀ (FileTree.placeable_join hdir hentry)
    have hopen : openCreat b (fullpath p (entryName b 'F' layer i s.drawn).1)
        { s with drawn := (entryName b 'F' layer i s.drawn).2 } = some tree₁ := by
      rw [openCreat, hrefuses, fullpath_eq_join hshort₀]
      exact hcreat
    have hdir₁ : tree₁.lookup p = some .dir := by
      rw [hlookup₁, if_neg, hdir]
      intro heq
      have := congrArg List.length heq
      rw [length_join] at this
      omega
    have hfree₁ : ∀ a ∈ (planFiles b layer n (i + 1) (entryName b 'F' layer i s.drawn).2).1,
        tree₁.lookup (join p a) = none ∨ tree₁.lookup (join p a) = some .reg := by
      intro a ha
      rw [hlookup₁]
      split
      · exact .inr rfl
      · exact hfree a ha
    obtain ⟨tree, hrest, hlookup⟩ :=
      ih (i + 1) ⟨tree₁, (entryName b 'F' layer i s.drawn).2⟩ hdir₁ hshort hfree₁
    refine ⟨tree, ?_, ?_⟩
    · rw [buildFiles, hopen]
      exact hrest
    · intro q
      rw [hlookup, planFiles]
      simp only [List.exists_mem_cons_iff, hlookup₁]
      by_cases hq : q = join p (entryName b 'F' layer i s.drawn).1
      · simp [hq]
      · simp only [hq, false_or, if_false]

-- ---------------------------------------------------------------------------
-- Builders
-- ---------------------------------------------------------------------------

structure Builder (b : Build) (build : Nat → List Char → BuildState → BuildState × Bool) :
    Prop where
  grows : ∀ depth, Grows (build depth)
  lowest : ∀ p s tree, mkdir b p s = some tree → build 0 p s = ({ s with tree := tree }, false)
  divByZero : ∀ depth p s tree, mkdir b p s = some tree → b.random ∧ b.entries = 1 →
    (build (depth + 1) p s).2 = true
  upper : ∀ depth p s tree s', mkdir b p s = some tree → ¬ (b.random ∧ b.entries = 1) →
    buildFiles b p (depth + 1) (b.entries - (dirDirents b s.drawn).1).toNat 0
      ⟨tree, (dirDirents b s.drawn).2⟩ = (s', true) →
    build (depth + 1) p s = buildDirs b (build depth) p (depth + 1)
      (dirDirents b s.drawn).1.toNat 0 s'

/-- What is shown for one depth: at a path that is free, the tree is full exactly when the
plan keeps its names apart, and the plan has counted the random numbers. -/
structure Agrees (b : Build) (build : Nat → List Char → BuildState → BuildState × Bool)
    (depth : Nat) (p : List Char) (s : BuildState) : Prop where
  builds : Builds b build depth p s ↔ ∀ l ∈ (plan b depth p s.drawn).1, l.Distinct
  drawn : Builds b build depth p s → (build depth p s).1.drawn = (plan b depth p s.drawn).2
  root : (build depth p s).2 = false → (build depth p s).1.tree.lookup p = some .dir

structure Free (b : Build) (depth : Nat) (p : List Char) (s : BuildState) : Prop where
  new : s.tree.lookup p = none
  placeable : s.tree.Placeable p
  fits : p.length < PATH_MAX
  short : ∀ l ∈ (plan b depth p s.drawn).1, l.Short

/-- A loop over `n` sub-directories that has added all of them, each full. -/
structure Added (b : Build) (depth : Nat) (p : List Char) (n : Nat) (s : BuildState)
    (r : BuildState × Bool) : Prop where
  goesOn : r.2 = false
  card : (r.1.tree.names p).card = (s.tree.names p).card + n
  full : ∀ a, (a, .dir) ∈ r.1.tree.children p → a ∉ s.tree.names p →
    Full b.entries.toNat depth (join p a) r.1.tree

variable {build : Nat → List Char → BuildState → BuildState × Bool} {depth layer n i : Nat}
  {s s₁ : BuildState} {a : List Char} {r : BuildState × Bool}

theorem names_of_taken (hslash : '/' ∉ a) (ha : a ∈ s.tree.names p)
    (hgrown : Grown (join p a) s.tree s₁.tree) : s₁.tree.names p = s.tree.names p := by
  obtain ⟨hsub, hinsert⟩ := names_grown hslash hgrown
  rw [Finset.insert_eq_of_mem ha] at hinsert
  exact hinsert.antisymm hsub

theorem names_of_new (hslash : '/' ∉ a) (hgrown : Grown (join p a) s.tree s₁.tree)
    (hthere : s₁.tree.lookup (join p a) ≠ none) : s₁.tree.names p = insert a (s.tree.names p) := by
  obtain ⟨hsub, hinsert⟩ := names_grown hslash hgrown
  exact hinsert.antisymm (Finset.insert_subset (FileTree.mem_names.mpr ⟨hslash, hthere⟩) hsub)

theorem Added.full_of_rest (hself : Grows (build depth)) (hp : p.length + 1 < PATH_MAX)
    (hslash : '/' ∉ a) (hnew : a ∉ s.tree.names p) (hgrown : Grown (join p a) s.tree s₁.tree)
    (hdir : s₁.tree.lookup (join p a) = some .dir)
    (h : Added b depth p (n + 1) s (buildDirs b (build depth) p layer n i s₁)) :
    Full b.entries.toNat depth (join p a) s₁.tree := by
  obtain ⟨-, hcard, hfull⟩ := h
  obtain ⟨hle, hkept⟩ := buildDirs_card (b := b) hself hp layer n i s₁
  have hcard₁ := (Finset.card_le_card (names_grown hslash hgrown).2).trans
    (Finset.card_insert_le _ _)
  have hmem : a ∈ s₁.tree.names p := FileTree.mem_names.mpr ⟨hslash, by simp [hdir]⟩
  have hkept := hkept (by omega) a hmem
  have hchild : (a, .dir) ∈ (buildDirs b (build depth) p layer n i s₁).1.tree.children p :=
    FileTree.mem_children.mpr ⟨hslash, by rw [hkept _ (.refl _), hdir]⟩
  exact (hfull a hchild hnew).congr fun q hq => (hkept q hq).symm

theorem added_cons (hself : Grows (build depth)) (hp : p.length + 1 < PATH_MAX)
    (hslash : '/' ∉ a) (hnew : a ∉ s.tree.names p) (hgrown : Grown (join p a) s.tree s₁.tree)
    (hfull : Full b.entries.toNat depth (join p a) s₁.tree) :
    Added b depth p (n + 1) s (buildDirs b (build depth) p layer n i s₁) ↔
      Added b depth p n s₁ (buildDirs b (build depth) p layer n i s₁) := by
  have hsub := (names_grown hslash hgrown).1
  have hmem : a ∈ s₁.tree.names p := FileTree.mem_names.mpr ⟨hslash, by simp [hfull.lookup]⟩
  have hnames := names_of_new hslash hgrown (by simp [hfull.lookup])
  have hcard : (s₁.tree.names p).card = (s.tree.names p).card + 1 := by
    rw [hnames, Finset.card_insert_of_notMem hnew]
  constructor
  · rintro ⟨hgoes, hcount, hrest⟩
    exact ⟨hgoes, by omega, fun c hc hnot => hrest c hc fun h => hnot (hsub h)⟩
  · rintro ⟨hgoes, hcount, hrest⟩
    refine ⟨hgoes, by omega, ?_⟩
    intro c hc hnot
    by_cases hold : c ∈ s₁.tree.names p
    · rw [hnames, Finset.mem_insert] at hold
      rw [hold.resolve_right hnot]
      exact hfull.congr ((buildDirs_card hself hp layer n i s₁).2 hcount a hmem)
    · exact hrest c hc hold

theorem buildDirs_succ {self : List Char → BuildState → BuildState × Bool} {k : Nat}
    {stopped : Bool} (hname : entryName b 'D' layer i s.drawn = (a, k))
    (hshort : (join p a).length < PATH_MAX)
    (hr : self (join p a) { s with drawn := k } = (s₁, stopped)) :
    buildDirs b self p layer (n + 1) i s =
      if stopped then (s₁, true) else buildDirs b self p layer n (i + 1) s₁ := by
  rw [buildDirs, hname, fullpath_eq_join hshort, hr]
  cases stopped with
  | true => rfl
  | false => rfl

theorem not_added_of_taken (layer i : Nat) (hself : Grows (build depth)) (hp : p.length + 1 < PATH_MAX)
    (hslash : '/' ∉ a) (htaken : a ∈ s.tree.names p) (hgrown : Grown (join p a) s.tree s₁.tree)
    (stopped : Bool) :
    ¬ Added b depth p (n + 1) s
      (if stopped then (s₁, true) else buildDirs b (build depth) p layer n i s₁) := by
  rintro ⟨hgoes, hcard, -⟩
  cases stopped with
  | true => cases hgoes
  | false =>
    rw [if_neg Bool.false_ne_true] at hcard
    have hle := (buildDirs_card (b := b) hself hp layer n i s₁).1
    rw [names_of_taken hslash htaken hgrown] at hle
    omega

/-- The loop over the sub-directories. A name that is taken is missing in the count; with
one that is free the recursion decides. -/
theorem buildDirs_iff (hself : Grows (build depth))
    (hagrees : ∀ c s, Free b depth c s → Agrees b build depth c s)
    (hp : p.length + 1 < PATH_MAX) (hi : i + n ≤ 2 ^ 64) (hdir : s.tree.lookup p = some .dir)
    (hshort : ∀ a ∈ (planDirs b (plan b depth) p layer n i s.drawn).1,
      (join p a).length < PATH_MAX)
    (hlevels : ∀ l ∈ (planDirs b (plan b depth) p layer n i s.drawn).2.1, l.Short) :
    (Added b depth p n s (buildDirs b (build depth) p layer n i s) ↔
      (∀ a ∈ (planDirs b (plan b depth) p layer n i s.drawn).1, a ∉ s.tree.names p) ∧
      ∀ l ∈ (planDirs b (plan b depth) p layer n i s.drawn).2.1, l.Distinct) ∧
    (Added b depth p n s (buildDirs b (build depth) p layer n i s) →
      (buildDirs b (build depth) p layer n i s).1.drawn =
        (planDirs b (plan b depth) p layer n i s.drawn).2.2) := by
  induction n generalizing i s with
  | zero =>
    refine ⟨⟨fun _ => ⟨nofun, nofun⟩, fun _ => ⟨rfl, rfl, ?_⟩⟩, fun _ => rfl⟩
    intro a hchild hnot
    obtain ⟨hslash, hlookup⟩ := FileTree.mem_children.mp hchild
    have hlookup : s.tree.lookup (join p a) = some .dir := hlookup
    exact absurd (FileTree.mem_names.mpr ⟨hslash, by simp [hlookup]⟩) hnot
  | succ n ih =>
    have hnumbered := planDirs_numbered (b := b) (plan b depth) p layer (n + 1) i s.drawn
    have hlength := length_planDirs (b := b) (plan b depth) p layer (n + 1) i s.drawn
    have hnodup := hnumbered.nodup rfl (by rw [hlength]; exact hi)
    have hentry := isEntry_entryName b (show 'D'.isUpper = true from rfl) layer i s.drawn
    rw [planDirs] at hshort hlevels hnodup ⊢
    cases hname : entryName b 'D' layer i s.drawn with
    | mk a k =>
    rw [hname] at hshort hlevels hnodup hentry
    dsimp only at *
    rw [List.forall_mem_cons] at hshort
    obtain ⟨hshort₀, hshort⟩ := hshort
    rw [List.forall_mem_append] at hlevels
    obtain ⟨hlevels₀, hlevels⟩ := hlevels
    rw [List.nodup_cons] at hnodup
    have hgrown := hself (join p a) { s with drawn := k } hshort₀
    cases hr : build depth (join p a) { s with drawn := k } with
    | mk s₁ stopped =>
    rw [hr] at hgrown
    change Grown (join p a) s.tree s₁.tree at hgrown
    rw [buildDirs_succ hname hshort₀ hr]
    by_cases htaken : a ∈ s.tree.names p
    · have hnot := not_added_of_taken (b := b) (n := n) layer (i + 1) hself hp hentry.noSlash
        htaken hgrown stopped
      refine ⟨⟨fun h => absurd h hnot, ?_⟩, fun h => absurd h hnot⟩
      rintro ⟨hfree, -⟩
      exact absurd htaken (hfree a List.mem_cons_self)
    · have hnone : s.tree.lookup (join p a) = none := by
        by_contra hne
        exact htaken (FileTree.mem_names.mpr ⟨hentry.noSlash, hne⟩)
      obtain ⟨hbuilds, hdrawn, hroot⟩ := hagrees (join p a) { s with drawn := k }
        ⟨hnone, FileTree.placeable_join hdir hentry, hshort₀, hlevels₀⟩
      by_cases hbuilt : Builds b build depth (join p a) { s with drawn := k }
      · have hfull := hbuilt.full
        have hgoes := hbuilt.goesOn
        have hdrawn := hdrawn hbuilt
        rw [hr] at hfull hgoes hdrawn
        change stopped = false at hgoes
        subst hgoes
        have hdir₁ : s₁.tree.lookup p = some .dir := by
          rw [hgrown.kept p (by simp [hdir]), hdir]
        change s₁.drawn = _ at hdrawn
        rw [← hdrawn] at hshort hlevels hnodup ⊢
        rw [if_neg Bool.false_ne_true]
        obtain ⟨hiff, hend⟩ := ih (i := i + 1) (s := s₁) (by omega) hdir₁ hshort hlevels
        rw [added_cons hself hp hentry.noSlash htaken hgrown hfull]
        refine ⟨hiff.trans ?_, hend⟩
        rw [names_of_new hentry.noSlash hgrown (by simp [hfull.lookup]), List.forall_mem_cons,
          List.forall_mem_append]
        constructor
        · rintro ⟨hfree, hdistinct⟩
          refine ⟨⟨htaken, fun x hx hmem => ?_⟩, hbuilds.mp hbuilt, hdistinct⟩
          exact hfree x hx (Finset.mem_insert_of_mem hmem)
        · rintro ⟨⟨-, hfree⟩, -, hdistinct⟩
          refine ⟨fun x hx hmem => ?_, hdistinct⟩
          obtain rfl | hmem := Finset.mem_insert.mp hmem
          · exact hnodup.1 hx
          · exact hfree x hx hmem
      · have hnot : ¬ Added b depth p (n + 1) s
            (if stopped then (s₁, true) else buildDirs b (build depth) p layer n (i + 1) s₁) := by
          intro h
          rw [hr] at hroot
          cases stopped with
          | true => cases h.goesOn
          | false =>
            rw [if_neg Bool.false_ne_true] at h
            have hfull := h.full_of_rest hself hp hentry.noSlash htaken hgrown (hroot rfl)
            exact hbuilt ⟨by rw [hr], by rw [hr]; exact hfull⟩
        refine ⟨⟨fun h => absurd h hnot, ?_⟩, fun h => absurd h hnot⟩
        rintro ⟨-, hdistinct⟩
        exact absurd (hbuilds.mpr (List.forall_mem_append.mp hdistinct).1) hbuilt

-- ---------------------------------------------------------------------------
-- The whole tree
-- ---------------------------------------------------------------------------

theorem dirDirents_lt (hentries : b.entries ≠ 0) (hdiv : ¬ (b.random ∧ b.entries = 1)) (k : Nat) :
    (dirDirents b k).1.toNat < b.entries.toNat := by
  have hpos : 0 < b.entries.toNat := by
    rw [Nat.pos_iff_ne_zero]
    intro h
    exact hentries (UInt64.toNat_inj.mp h)
  have hlt : b.entries.toNat < UInt64.size := b.entries.toNat_lt
  rw [dirDirents]
  split
  · next hrandom =>
    have hne : b.entries.toNat ≠ 1 := fun h => hdiv ⟨hrandom, UInt64.toNat_inj.mp h⟩
    have hsub : (b.entries - 1).toNat = b.entries.toNat - 1 :=
      UInt64.toNat_sub_of_le _ _ (UInt64.le_iff_toNat_le.mpr hpos)
    have hmod := Nat.mod_lt (b.rand k).val (show 0 < (b.entries - 1).toNat by omega)
    rw [UInt64.toNat_add, UInt64.toNat_ofNat_of_lt' (by omega), UInt64.toNat_one]
    omega
  · rw [UInt64.toNat_div]
    exact Nat.div_lt_self hpos (by decide)

theorem toNat_fileDirents (hentries : b.entries ≠ 0) (hdiv : ¬ (b.random ∧ b.entries = 1))
    (k : Nat) : (b.entries - (dirDirents b k).1).toNat =
      b.entries.toNat - (dirDirents b k).1.toNat :=
  UInt64.toNat_sub_of_le _ _
    (UInt64.le_iff_toNat_le.mpr (dirDirents_lt hentries hdiv k).le)

theorem exists_mkdir (hrefuses : ∀ s c, b.refuses s c = false) (hnew : s.tree.lookup p = none)
    (hplace : s.tree.Placeable p) : ∃ tree, mkdir b p s = some tree ∧
      ∀ q, tree.lookup q = if q = p then some .dir else s.tree.lookup q := by
  rw [mkdir, hrefuses]
  exact FileTree.exists_mkdir hnew hplace

theorem join_ne (p n : List Char) : join p n ≠ p := by
  intro h
  have := congrArg List.length h
  rw [length_join] at this
  omega

theorem full_iff_added {fs : List (List Char)} (hdir : s.tree.lookup p = some .dir)
    (hfiles : ∀ c, s.tree.lookup (join p c) = if c ∈ fs then some .reg else none)
    (hslash : ∀ c ∈ fs, '/' ∉ c) (hnodup : fs.Nodup) (hentries : b.entries.toNat = fs.length + n)
    (hgrown : Grown p s.tree r.1.tree) :
    r.2 = false ∧ Full b.entries.toNat (depth + 1) p r.1.tree ↔ Added b depth p n s r := by
  have hnames : s.tree.names p = fs.toFinset := by
    ext c
    rw [FileTree.mem_names, hfiles, List.mem_toFinset, Ne, ite_eq_right_iff, Classical.not_imp]
    exact ⟨fun h => h.2.1, fun h => ⟨hslash c h, h, nofun⟩⟩
  have hcard : (s.tree.names p).card = fs.length := by
    rw [hnames, List.toFinset_card_of_nodup hnodup]
  constructor
  · rintro ⟨hgoes, -, hlen, hfull⟩
    refine ⟨hgoes, by rw [FileTree.card_names, hlen, hcard, hentries], ?_⟩
    intro c hchild _
    exact hfull c hchild
  · rintro ⟨hgoes, hcount, hfull⟩
    refine ⟨hgoes, by rw [hgrown.kept p (by simp [hdir]), hdir], ?_, ?_⟩
    · rw [← FileTree.card_names, hcount, hcard, hentries]
    · intro c hchild
      refine hfull c hchild ?_
      rw [hnames, List.mem_toFinset]
      intro hmem
      have hreg : s.tree.lookup (join p c) = some .reg := by rw [hfiles, if_pos hmem]
      have hlookup := (FileTree.mem_children.mp hchild).2
      rw [hgrown.kept _ (by simp [hreg]), hreg] at hlookup
      cases hlookup

theorem builds_iff : Builds b build depth p s ↔
    (build depth p s).2 = false ∧ Full b.entries.toNat depth p (build depth p s).1.tree :=
  ⟨fun h => ⟨h.goesOn, h.full⟩, fun h => ⟨h.1, h.2⟩⟩

variable {dirs : UInt64 × Nat} {files : List (List Char) × Nat}
  {subs : List (List Char) × List Level × Nat}

theorem plan_succ (hdiv : ¬ (b.random ∧ b.entries = 1)) {k : Nat} (hdirs : dirDirents b k = dirs)
    (hfiles : planFiles b (depth + 1) (b.entries - dirs.1).toNat 0 dirs.2 = files)
    (hsubs : planDirs b (plan b depth) p (depth + 1) dirs.1.toNat 0 files.2 = subs) :
    plan b (depth + 1) p k = (⟨p, files.1, subs.1⟩ :: subs.2.1, subs.2.2) := by
  subst hdirs hfiles hsubs
  rw [plan, if_neg hdiv]

theorem Builder.upper_eq (hb : Builder b build) (hrefuses : ∀ s c, b.refuses s c = false)
    (hdiv : ¬ (b.random ∧ b.entries = 1)) (hnew : s.tree.lookup p = none)
    (hplace : s.tree.Placeable p) (hdirs : dirDirents b s.drawn = dirs)
    (hfiles : planFiles b (depth + 1) (b.entries - dirs.1).toNat 0 dirs.2 = files)
    (hshort : ∀ c ∈ files.1, (join p c).length < PATH_MAX) :
    ∃ tree, build (depth + 1) p s =
        buildDirs b (build depth) p (depth + 1) dirs.1.toNat 0 ⟨tree, files.2⟩ ∧
      tree.lookup p = some .dir ∧
      ∀ c, tree.lookup (join p c) = if c ∈ files.1 then some .reg else none := by
  subst hdirs hfiles
  obtain ⟨tree, hmkdir, hlookup⟩ := exists_mkdir hrefuses hnew hplace
  have hdir : tree.lookup p = some .dir := by rw [hlookup, if_pos rfl]
  have hnone : ∀ c, tree.lookup (join p c) = none := by
    intro c
    rw [hlookup, if_neg (join_ne p c), FileTree.lookup_eq_none_of_below hnew (below_join p c)]
  obtain ⟨tree₁, hrun, hlookup₁⟩ := buildFiles_eq hrefuses (depth + 1)
    (b.entries - (dirDirents b s.drawn).1).toNat 0 ⟨tree, (dirDirents b s.drawn).2⟩ hdir hshort
    (fun c _ => .inl (hnone c))
  refine ⟨tree₁, hb.upper depth p s tree _ hmkdir hdiv hrun, ?_, ?_⟩
  · rw [hlookup₁, if_neg, hdir]
    rintro ⟨c, -, heq⟩
    exact join_ne p c heq.symm
  · intro c
    rw [hlookup₁, hnone]
    simp only [join_inj_right, exists_eq_right']

theorem Builder.agrees_lowest (hb : Builder b build) (hrefuses : ∀ s c, b.refuses s c = false)
    (h : Free b 0 p s) : Agrees b build 0 p s := by
  obtain ⟨tree, hmkdir, hlookup⟩ := exists_mkdir hrefuses h.new h.placeable
  have hdir : tree.lookup p = some .dir := by rw [hlookup, if_pos rfl]
  have hempty : tree.children p = [] := by
    rw [List.eq_nil_iff_forall_not_mem]
    rintro ⟨c, k⟩ hmem
    have hchild := (FileTree.mem_children.mp hmem).2
    rw [hlookup, if_neg (join_ne p c), FileTree.lookup_eq_none_of_below h.new (below_join p c)]
      at hchild
    cases hchild
  have hrun := hb.lowest p s tree hmkdir
  refine ⟨⟨fun _ => nofun, fun _ => ⟨by rw [hrun], ?_⟩⟩, fun _ => by rw [hrun]; rfl,
    fun _ => by rw [hrun]; exact hdir⟩
  rw [hrun]
  exact ⟨hdir, hempty⟩

/-- The induction is on the depth: the files are created, and the loop over the
sub-directories adds a full tree for each of them unless a name is taken. -/
theorem Builder.agrees (hb : Builder b build) (hentries : b.entries ≠ 0)
    (hrefuses : ∀ s c, b.refuses s c = false) (hdiv : ¬ (b.random ∧ b.entries = 1))
    (depth : Nat) (p : List Char) (s : BuildState) (h : Free b depth p s) :
    Agrees b build depth p s := by
  induction depth generalizing p s with
  | zero => exact hb.agrees_lowest hrefuses h
  | succ depth ih =>
    have hlt := dirDirents_lt hentries hdiv s.drawn
    have hsub := toNat_fileDirents hentries hdiv s.drawn
    have h64 : b.entries.toNat < 2 ^ 64 := b.entries.toNat_lt
    cases hdirs : dirDirents b s.drawn with
    | mk dirs k =>
    rw [hdirs] at hlt hsub
    cases hfiles : planFiles b (depth + 1) (b.entries - dirs).toNat 0 k with
    | mk files k₁ =>
    have hnumFiles := planFiles_numbered (b := b) (depth + 1) (b.entries - dirs).toNat 0 k
    have hlenFiles := length_planFiles (b := b) (depth + 1) (b.entries - dirs).toNat 0 k
    rw [hfiles] at hnumFiles hlenFiles
    cases hsubs : planDirs b (plan b depth) p (depth + 1) dirs.toNat 0 k₁ with
    | mk subs rest =>
    have hnumDirs := planDirs_numbered (b := b) (plan b depth) p (depth + 1) dirs.toNat 0 k₁
    have hlenDirs := length_planDirs (b := b) (plan b depth) p (depth + 1) dirs.toNat 0 k₁
    rw [hsubs] at hnumDirs hlenDirs
    dsimp only at *
    have hplan := plan_succ hdiv hdirs hfiles hsubs
    have hshort := h.short
    rw [hplan, List.forall_mem_cons, Level.Short, List.forall_mem_append] at hshort
    obtain ⟨⟨hshortFiles, hshortDirs⟩, hlevels⟩ := hshort
    obtain ⟨tree, hrun, hdir, hlookup⟩ :=
      hb.upper_eq hrefuses hdiv h.new h.placeable hdirs hfiles hshortFiles
    dsimp only at hrun hlookup
    have hp : p.length + 1 < PATH_MAX := by
      obtain ⟨c, hc⟩ := List.exists_mem_of_length_pos (show 0 < files.length by omega)
      have hjoin : (join p c).length < PATH_MAX := hshortFiles c hc
      rw [length_join] at hjoin
      omega
    obtain ⟨hiff, hend⟩ := buildDirs_iff (i := 0) (n := dirs.toNat) (s := ⟨tree, k₁⟩)
      (hb.grows depth) ih hp (by omega) hdir (by rw [hsubs]; exact hshortDirs)
      (by rw [hsubs]; exact hlevels)
    rw [hsubs] at hiff hend
    have hgrown := buildDirs_grown (b := b) (hb.grows depth) h.fits (depth + 1) dirs.toNat 0
      ⟨tree, k₁⟩
    have hslash : ∀ c ∈ files, '/' ∉ c := fun c hc => (hnumFiles.isEntry rfl c hc).noSlash
    have hnodup : files.Nodup := hnumFiles.nodup rfl (by omega)
    rw [← hrun] at hiff hend hgrown
    have hadded : (build (depth + 1) p s).2 = false ∧
        Full b.entries.toNat (depth + 1) p (build (depth + 1) p s).1.tree ↔
          Added b depth p dirs.toNat ⟨tree, k₁⟩ (build (depth + 1) p s) :=
      full_iff_added hdir hlookup hslash hnodup (by omega) hgrown
    rw [← hadded, ← builds_iff] at hiff hend
    have hown : (∀ c ∈ subs, c ∉ tree.names p) ↔ (⟨p, files, subs⟩ : Level).Distinct := by
      rw [Level.Distinct, disjoint_iff hnumFiles hnumDirs (by omega) (by omega)]
      have hmem (c : List Char) (hc : c ∈ subs) : c ∈ tree.names p ↔ c ∈ files := by
        rw [FileTree.mem_names, hlookup, Ne, ite_eq_right_iff, Classical.not_imp]
        exact ⟨fun h => h.2.1, fun h => ⟨hslash c h, h, nofun⟩⟩
      exact ⟨fun h c hc => (hmem c hc).not.mp (h c hc), fun h c hc => (hmem c hc).not.mpr (h c hc)⟩
    refine ⟨?_, ?_, ?_⟩
    · rw [hiff, hplan, List.forall_mem_cons, hown]
    · rw [hplan]
      exact hend
    · intro _
      rw [hgrown.kept p (by simp [hdir]), hdir]

-- ---------------------------------------------------------------------------
-- The two functions
-- ---------------------------------------------------------------------------

theorem dirDirents_eq (b : Build) (k : Nat) : dirDirents b k =
    (if b.random then 1 + UInt64.ofNat ((b.rand k).val % (b.entries - 1).toNat)
      else b.entries / 2, if b.random then k + 1 else k) := by
  rw [dirDirents]
  cases b.random with
  | false => rfl
  | true => rfl

theorem builder_dirOps (b : Build) : Builder b (Destroy.buildDirTree b) where
  grows depth _ s hc := buildDirTree_grown depth hc s
  lowest p s tree hmkdir := by rw [Destroy.buildDirTree, hmkdir]
  divByZero depth p s tree hmkdir hdiv := by
    rw [Destroy.buildDirTree, hmkdir]
    simp only [if_pos hdiv]
  upper depth p s tree s' hmkdir hdiv hfiles := by
    rw [dirDirents_eq] at hfiles
    rw [Destroy.buildDirTree, hmkdir, dirDirents_eq]
    simp only [if_neg hdiv, hfiles]

theorem grown_mkdir_getD (b : Build) (hp : p.length < PATH_MAX) (s : BuildState) :
    Grown p s.tree ((mkdir b p s).getD s.tree) := by
  cases hmkdir : mkdir b p s with
  | none => exact .refl p s.tree
  | some tree => exact grown_mkdir hp hmkdir

theorem buildDirTree_grows (b : Build) (depth : Nat) : Grows (buildDirTree b depth) := by
  induction depth with
  | zero =>
    intro p s hp
    exact grown_mkdir_getD b hp s
  | succ depth ih =>
    intro p s hp
    have hgrown := grown_mkdir_getD b hp s
    rw [buildDirTree]
    by_cases hdiv : b.random ∧ b.entries = 1
    · simp only [if_pos hdiv]
      exact hgrown
    · simp only [if_neg hdiv]
      split
      · next s₁ hfiles =>
        exact hgrown.trans ((buildFiles_grown hp (depth + 1) _ 0 ⟨_, _⟩).of_eq hfiles)
      · next s₁ hfiles =>
        have hgrown₁ := (buildFiles_grown hp (depth + 1) _ 0 ⟨_, _⟩).of_eq hfiles
        exact (hgrown.trans hgrown₁).trans (buildDirs_grown ih hp (depth + 1) _ 0 s₁)

theorem builder_indexDir (b : Build) : Builder b (buildDirTree b) where
  grows := buildDirTree_grows b
  lowest p s tree hmkdir := by
    rw [buildDirTree, hmkdir]
    rfl
  divByZero depth p s tree hmkdir hdiv := by
    rw [buildDirTree, hmkdir]
    simp only [if_pos hdiv]
  upper depth p s tree s' hmkdir hdiv hfiles := by
    rw [dirDirents_eq] at hfiles
    rw [buildDirTree, hmkdir, dirDirents_eq]
    simp only [if_neg hdiv, Option.getD_some, hfiles]

-- ---------------------------------------------------------------------------
-- When the tree is built
-- ---------------------------------------------------------------------------

theorem planDirs_distinct {self : List Char → Nat → List Level × Nat}
    (hself : ∀ c k, ∀ l ∈ (self c k).1, l.Distinct) (p : List Char) (layer n i k : Nat) :
    ∀ l ∈ (planDirs b self p layer n i k).2.1, l.Distinct := by
  induction n generalizing i k with
  | zero => exact nofun
  | succ n ih =>
    rw [planDirs]
    exact List.forall_mem_append.mpr ⟨hself _ _, ih (i + 1) _⟩

theorem plan_distinct (hrandom : b.random = false) (hentries : b.entries ≠ 0) (depth : Nat)
    (p : List Char) (k : Nat) : ∀ l ∈ (plan b depth p k).1, l.Distinct := by
  induction depth generalizing p k with
  | zero => exact nofun
  | succ depth ih =>
    have hdiv : ¬ (b.random ∧ b.entries = 1) := by simp [hrandom]
    have hlt := dirDirents_lt hentries hdiv k
    have hsub := toNat_fileDirents hentries hdiv k
    have h64 : b.entries.toNat < 2 ^ 64 := b.entries.toNat_lt
    rw [plan_succ hdiv rfl rfl rfl, List.forall_mem_cons]
    refine ⟨?_, planDirs_distinct ih p (depth + 1) _ 0 _⟩
    have hfiles := planFiles_numbered (b := b) (depth + 1)
      (b.entries - (dirDirents b k).1).toNat 0 (dirDirents b k).2
    have hflen := length_planFiles (b := b) (depth + 1)
      (b.entries - (dirDirents b k).1).toNat 0 (dirDirents b k).2
    generalize planFiles b (depth + 1) (b.entries - (dirDirents b k).1).toNat 0
      (dirDirents b k).2 = files at hfiles hflen ⊢
    have hdirs := planDirs_numbered (b := b) (plan b depth) p (depth + 1)
      (dirDirents b k).1.toNat 0 files.2
    have hdlen := length_planDirs (b := b) (plan b depth) p (depth + 1)
      (dirDirents b k).1.toNat 0 files.2
    rw [Level.Distinct, disjoint_iff hfiles hdirs (by omega) (by omega)]
    exact disjoint_of_not_random hrandom hfiles hdirs (by omega) (by omega)

/-- No random split of one entry, and no sub-directory with the letters of the file that
has its number. -/
def Separate (b : Build) (depth : Nat) (p : List Char) (k : Nat) : Prop :=
  b.random = true → (depth ≠ 0 → b.entries ≠ 1) ∧ ∀ l ∈ (plan b depth p k).1, l.Distinct

theorem Builder.builds_iff (hb : Builder b build) (hentries : b.entries ≠ 0)
    (hrefuses : ∀ s c, b.refuses s c = false) (h : Free b depth p s) :
    Builds b build depth p s ↔ Separate b depth p s.drawn := by
  by_cases hdiv : b.random ∧ b.entries = 1
  · cases depth with
    | zero =>
      rw [(hb.agrees_lowest hrefuses h).builds]
      exact ⟨fun h _ => ⟨fun hne => absurd rfl hne, h⟩, fun _ => nofun⟩
    | succ depth =>
      obtain ⟨tree, hmkdir, -⟩ := exists_mkdir hrefuses h.new h.placeable
      constructor
      · intro hbuilds
        have hstop := hb.divByZero depth p s tree hmkdir hdiv
        rw [hbuilds.goesOn] at hstop
        cases hstop
      · intro hsep
        exact absurd hdiv.2 ((hsep hdiv.1).1 (Nat.succ_ne_zero depth))
  · rw [(hb.agrees hentries hrefuses hdiv depth p s h).builds]
    constructor
    · intro hall hrandom
      exact ⟨fun _ hone => hdiv ⟨hrandom, hone⟩, hall⟩
    · intro hsep
      cases hrandom : b.random with
      | false => exact plan_distinct hrandom hentries depth p s.drawn
      | true => exact (hsep hrandom).2

/-- Both functions build a tree at a free path exactly then. -/
theorem buildDirTree_builds_iff (b : Build) (hentries : b.entries ≠ 0)
    (hrefuses : ∀ s c, b.refuses s c = false) (depth : Nat) (name : List Char) (s : BuildState)
    (h : Free b depth name s) :
    (Builds b (Destroy.buildDirTree b) depth name s ↔ Separate b depth name s.drawn) ∧
    (Builds b (buildDirTree b) depth name s ↔ Separate b depth name s.drawn) :=
  ⟨(builder_dirOps b).builds_iff hentries hrefuses h,
    (builder_indexDir b).builds_iff hentries hrefuses h⟩

end

def drawing (rand : Nat → Rand) : Build where
  entries := 2
  random := true
  rand := rand
  refuses _ _ := false

theorem buildDirTree_builds_drawn :
    Builds (drawing (Fin.ofNat _)) (Destroy.buildDirTree (drawing (Fin.ofNat _))) 1 ['d']
      ⟨emptyTree, 0⟩ ∧
    Builds (drawing (Fin.ofNat _)) (buildDirTree (drawing (Fin.ofNat _))) 1 ['d']
      ⟨emptyTree, 0⟩ := by
  have hfree : Free (drawing (Fin.ofNat _)) 1 ['d'] ⟨emptyTree, 0⟩ :=
    ⟨by decide, by decide, by decide, by decide⟩
  have hiff := buildDirTree_builds_iff (drawing (Fin.ofNat _)) (by decide) (fun _ _ => rfl) 1 ['d']
    ⟨emptyTree, 0⟩ hfree
  have hseparate : Separate (drawing (Fin.ofNat _)) 1 ['d'] 0 := fun _ => by decide
  exact ⟨hiff.1.mpr hseparate, hiff.2.mpr hseparate⟩

/-- The file and the sub-directory of two entries both draw the letter 'A'; one entry is
not split. -/
theorem buildDirTree_same_letters :
    ¬ Builds (drawing fun _ => 0) (Destroy.buildDirTree (drawing fun _ => 0)) 1 ['d']
      ⟨emptyTree, 0⟩ ∧
    ¬ Builds (drawing fun _ => 0) (buildDirTree (drawing fun _ => 0)) 1 ['d'] ⟨emptyTree, 0⟩ ∧
    ∃ b : Build, b.entries = 1 ∧ (Destroy.buildDirTree b 1 ['d'] ⟨emptyTree, 0⟩).2 = true ∧
      (buildDirTree b 1 ['d'] ⟨emptyTree, 0⟩).2 = true := by
  refine ⟨?_, ?_, { drawing (fun _ => 0) with entries := 1 }, rfl, by decide, by decide⟩
  · intro h
    exact absurd h.full.2.1 (by decide)
  · intro h
    exact absurd h.full.2.1 (by decide)

end Ocfs2Test.Dirs.BuildTree
