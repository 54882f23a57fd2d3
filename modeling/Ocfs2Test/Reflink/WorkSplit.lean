import Ocfs2Test.Lib.Phases
import Ocfs2Test.Reflink.Destructive

/-!
# comp_test and xattr_basic_test

What the ranks of multi_reflink_test do to the paths of the file system. Rank 0
reflinks the original file. Behind a barrier each rank has a role: one reflinks and
unlinks the target of the last reflink, the others use the reflinks of the original.
-/

namespace Ocfs2Test.Reflink.WorkSplit

open Lib Lib.Stdio Chunks

def XATTR_LIST_MAX_SZ : Nat := 65536

def target : List Char := ['_', 't', 'a', 'r', 'g', 'e', 't']

/-- No path of the tests is cut. -/
structure Config where
  size : Nat
  refCounts : Nat
  listSz : Nat
  orig : Path
  size_pos : 0 < size
  fits : ∀ i ≤ refCounts, (orig ++ target ++ 'r' :: printNat i).length < PATH_MAX

def Config.dest (c : Config) : Path := snprintf PATH_MAX (c.orig ++ target)

def Config.root (c : Config) : Fin c.size := ⟨0, c.size_pos⟩

/-- `openRw` is an `open` with O_CREAT, `openRo` one without. -/
inductive Op
  | openRw (path : Path)
  | openRo (path : Path)
  | reflink (oldpath newpath : Path)
  | unlink (path : Path)

/-- The paths there are, and who has created and unlinked what. -/
structure Store (size : Nat) where
  files : Finset Path
  created : List (Fin size × Path)
  unlinked : List (Fin size × Path)

section
variable {size : Nat}

def Store.create (t : Store size) (p : Fin size) (path : Path) : Store size :=
  { t with files := insert path t.files, created := (p, path) :: t.created }

def Store.remove (t : Store size) (p : Fin size) (path : Path) : Store size :=
  { t with files := t.files.erase path, unlinked := (p, path) :: t.unlinked }

def exec (p : Fin size) (op : Op) (t : Store size) : Outcome (Store size) :=
  match op with
  | .openRw path => if path ∈ t.files then .next t else .next (t.create p path)
  | .openRo path => if path ∈ t.files then .next t else .failed
  | .reflink oldpath newpath =>
    if oldpath ∈ t.files ∧ newpath ∉ t.files then .next (t.create p newpath) else .failed
  | .unlink path => if path ∈ t.files then .next (t.remove p path) else .failed

end

-- ---------------------------------------------------------------------------
-- The tests
-- ---------------------------------------------------------------------------

def doReflinks (src destPrefix : Path) (iter : Nat) (manner : Int) (rand : Nat → Rand) : List Op :=
  (List.range iter).map fun i =>
    let j :=
      if i = 0 then 0
      else if manner = 1 then i - 1
      else if manner > 1 then getRandUl 0 (i - 1) (rand i)
      else 0
    .reflink (if j = 0 then src else refPath destPrefix j) (refPath destPrefix i)

/-- One operation on each of the reflinks `is`. -/
def onRefs (op : Path → Op) (refPfx : Path) (is : List Nat) : List Op :=
  is.map fun i => op (refPath refPfx i)

/-- A third of the reflinks is left as it is. -/
def notThird (iter : Nat) : List Nat := (List.range iter).filter fun i => i % 3 ≠ 0

def doReadsOnReflinks (refPfx : Path) (iter : Nat) : List Op :=
  onRefs .openRo refPfx (notThird iter)

def doCowsOnWrite (refPfx : Path) (iter : Nat) : List Op := onRefs .openRw refPfx (notThird iter)

def doCowsOnFtruncate (refPfx : Path) (iter : Nat) : List Op :=
  onRefs .openRw refPfx (List.range iter)

def doAppends (refPfx : Path) (iter : Nat) : List Op := onRefs .openRw refPfx (List.range iter)

def doUnlinks (refPfx : Path) (iter : Nat) : List Op := onRefs .unlink refPfx (List.range iter)

def doXattrCows (refPfx : Path) (iter : Nat) : List Op := onRefs .openRw refPfx (List.range iter)

def doXattrDataCows (refPfx : Path) (iter : Nat) : List Op :=
  onRefs .openRw refPfx (List.range iter)

def doXattrReads (refPfx : Path) (iter : Nat) : List Op := onRefs .openRo refPfx (List.range iter)

def doXattrLists (refPfx : Path) (iter : Nat) : List Op := onRefs .openRo refPfx (List.range iter)

def doXattrRemoves (refPfx : Path) (iter : Nat) : List Op :=
  onRefs .openRw refPfx (List.range iter)

section
variable (c : Config)

/-- The original file, its reflinks, and the target. Manner 0 draws nothing. -/
def makeReflinks : List Op :=
  .openRw c.orig :: doReflinks c.orig c.orig c.refCounts 0 (fun _ => 0) ++
    [.reflink c.orig c.dest]

def compScript : Nat → Fin c.size → List Op
  | 0, p => if p.val = 0 then makeReflinks c else []
  | 1, p =>
    (if p.val = 1 then
      doReflinks c.dest c.dest c.refCounts 0 (fun _ => 0) ++ doCowsOnWrite c.dest c.refCounts ++
        doUnlinks c.dest c.refCounts
    else []) ++
    ((if p.val % 6 = 2 then doCowsOnWrite c.orig c.refCounts else []) ++
    (if p.val % 6 = 3 then doReadsOnReflinks c.orig c.refCounts else []) ++
    (if p.val % 6 = 4 then doAppends c.orig c.refCounts else []) ++
    (if p.val % 6 = 5 then doCowsOnFtruncate c.orig c.refCounts else []) ++
    -- verify_orig_file
    (if p.val = 0 then List.replicate c.size (.openRo c.orig) else []))
  | 2, p =>
    if p.val = 0 then
      .openRo c.orig :: doUnlinks c.orig c.refCounts ++ [.unlink c.orig, .unlink c.dest]
    else []
  | _, _ => []

/-- Phase 1 hands out the names of the attributes, and touches no path. -/
def xattrBasicScript : Nat → Fin c.size → List Op
  | 0, p => if p.val = 0 then [.openRw c.orig] else []
  | 2, p => if p.val = 0 then makeReflinks c else []
  | 3, p =>
    (if p.val % 6 = 1 then
      doReflinks c.dest c.dest c.refCounts 0 (fun _ => 0) ++ doXattrCows c.dest c.refCounts ++
        doUnlinks c.dest c.refCounts
    else []) ++
    ((if p.val % 6 = 2 then doXattrCows c.orig c.refCounts else []) ++
    (if p.val % 6 = 3 then doXattrDataCows c.orig c.refCounts else []) ++
    (if p.val % 6 = 4 then doXattrReads c.orig c.refCounts else []) ++
    (if p.val % 6 = 5 then
      if c.listSz < XATTR_LIST_MAX_SZ then doXattrLists c.orig c.refCounts else []
    else []))
  | 4, p => if p.val = 0 then doXattrRemoves c.orig c.refCounts else []
  | 5, p =>
    if p.val = 0 then doUnlinks c.orig c.refCounts ++ [.unlink c.dest, .unlink c.orig] else []
  | _, _ => []

def program (last : Nat) (script : Nat → Fin c.size → List Op) :
    Phased (Fin c.size) Op (Store c.size) where
  last := last
  script := script
  exec := exec

def Config.refs (refPfx : Path) : Finset Path :=
  (Finset.range c.refCounts).image (refPath refPfx)

/-- Nobody has done anything yet, and no reflink of an earlier run is there. -/
structure Clean (t : Store c.size) : Prop where
  created : t.created = []
  unlinked : t.unlinked = []
  dest : c.dest ∉ t.files
  refs : Disjoint t.files (c.refs c.orig)
  destRefs : Disjoint t.files (c.refs c.dest)

def compTest : System (Phased.State (Fin c.size) Op (Store c.size)) :=
  (program c 3 (compScript c)).system (Clean c)

def xattrBasicTest : System (Phased.State (Fin c.size) Op (Store c.size)) :=
  (program c 5 (xattrBasicScript c)).system (Clean c)

end

/-- No two ranks have created, or unlinked, one path, and no call has failed. -/
structure Divided {size : Nat} (s : Phased.State (Fin size) Op (Store size)) : Prop where
  created : ∀ path p q, (p, path) ∈ s.store.created → (q, path) ∈ s.store.created → p = q
  unlinked : ∀ path p q, (p, path) ∈ s.store.unlinked → (q, path) ∈ s.store.unlinked → p = q
  succeeds : s.failed = false

-- ---------------------------------------------------------------------------
-- Paths
-- ---------------------------------------------------------------------------

section
variable {c : Config} {i j : Nat} {path : Path}

theorem dest_eq : c.dest = c.orig ++ target := by
  have hfits := c.fits 0 (Nat.zero_le _)
  simp only [List.length_append] at hfits
  apply List.take_of_length_le
  rw [List.length_append]
  omega

theorem refPath_dest (hi : i < c.refCounts) :
    refPath c.dest i = c.orig ++ (target ++ 'r' :: printNat i) := by
  have hfits := c.fits i (Nat.le_of_lt hi)
  rw [← List.append_assoc, ← dest_eq] at *
  exact List.take_of_length_le (Nat.le_sub_one_of_lt hfits)

theorem refPath_orig (hi : i < c.refCounts) : refPath c.orig i = c.orig ++ 'r' :: printNat i := by
  have hfits := c.fits i (Nat.le_of_lt hi)
  simp only [List.length_append] at hfits
  apply List.take_of_length_le
  rw [List.length_append]
  omega

theorem mem_refs {refPfx : Path} :
    path ∈ c.refs refPfx ↔ ∃ i < c.refCounts, refPath refPfx i = path := by
  simp [Config.refs]

theorem refPath_mem (refPfx : Path) (hi : i < c.refCounts) : refPath refPfx i ∈ c.refs refPfx :=
  mem_refs.mpr ⟨i, hi, rfl⟩

theorem orig_ne_dest : c.orig ≠ c.dest := by
  rw [dest_eq]
  simp [target]

theorem orig_notMem_refs : c.orig ∉ c.refs c.orig := by
  rintro hmem
  obtain ⟨i, hi, heq⟩ := mem_refs.mp hmem
  simp [refPath_orig hi] at heq

theorem orig_notMem_destRefs : c.orig ∉ c.refs c.dest := by
  rintro hmem
  obtain ⟨i, hi, heq⟩ := mem_refs.mp hmem
  simp [refPath_dest hi, target] at heq

theorem dest_notMem_refs : c.dest ∉ c.refs c.orig := by
  rintro hmem
  obtain ⟨i, hi, heq⟩ := mem_refs.mp hmem
  simp [refPath_orig hi, dest_eq, target] at heq

theorem dest_notMem_destRefs : c.dest ∉ c.refs c.dest := by
  rintro hmem
  obtain ⟨i, hi, heq⟩ := mem_refs.mp hmem
  rw [refPath_dest hi, dest_eq] at heq
  simp [target] at heq

theorem refs_disjoint : Disjoint (c.refs c.orig) (c.refs c.dest) := by
  rw [Finset.disjoint_left]
  rintro path horig hdest
  obtain ⟨i, hi, rfl⟩ := mem_refs.mp horig
  obtain ⟨j, hj, heq⟩ := mem_refs.mp hdest
  simp [refPath_orig hi, refPath_dest hj, target] at heq

def Prefix (c : Config) (refPfx : Path) : Prop := refPfx = c.orig ∨ refPfx = c.dest

theorem refPath_injOn {refPfx : Path} (hpfx : Prefix c refPfx) (hi : i < c.refCounts)
    (hj : j < c.refCounts) (h : refPath refPfx i = refPath refPfx j) : i = j := by
  rcases hpfx with rfl | rfl
  · rw [refPath_orig hi, refPath_orig hj] at h
    exact printNat_injective (List.cons.inj (List.append_cancel_left h)).2
  · rw [refPath_dest hi, refPath_dest hj] at h
    exact printNat_injective (List.cons.inj (List.append_cancel_left (List.append_cancel_left h))).2

theorem refPath_notMem_image {refPfx : Path} (hpfx : Prefix c refPfx) (hi : i < c.refCounts) :
    refPath refPfx i ∉ (Finset.range i).image (refPath refPfx) := by
  intro hmem
  obtain ⟨j, hj, heq⟩ := Finset.mem_image.mp hmem
  have hlt := Finset.mem_range.mp hj
  exact Nat.ne_of_lt hlt (refPath_injOn hpfx (hlt.trans hi) hi heq)

end

-- ---------------------------------------------------------------------------
-- Lists of calls
-- ---------------------------------------------------------------------------

section
variable {c : Config} {last : Nat} {script : Nat → Fin c.size → List Op} {p : Fin c.size}
  {t t' : Store c.size} {op : Op} {ops : List Op} {refPfx : Path} {n : Nat}

def Op.Opens (S : Finset Path) : Op → Prop
  | .openRw path | .openRo path => path ∈ S
  | .reflink _ _ | .unlink _ => False

theorem Op.Opens.mono {S S' : Finset Path} (h : op.Opens S) (hsub : S ⊆ S') : op.Opens S' := by
  cases op with
  | openRw path | openRo path => exact hsub h
  | reflink oldpath newpath | unlink path => exact h

theorem exec_opens (h : op.Opens t.files) : exec p op t = .next t := by
  cases op with
  | openRw path | openRo path => exact if_pos h
  | reflink oldpath newpath | unlink path => exact h.elim

theorem alone_opens (h : ∀ op ∈ ops, op.Opens t.files) :
    (program c last script).alone p ops t = some t := by
  induction ops with
  | nil => rfl
  | cons op ops ih =>
    rw [Phased.alone_cons (exec_opens (h op List.mem_cons_self))]
    exact ih fun op hmem => h op (List.mem_cons_of_mem _ hmem)

theorem onRefs_opens {f : Path → Op} {is : List Nat} (hop : ∀ path, (f path).Opens {path})
    (his : ∀ i ∈ is, i < c.refCounts) : ∀ op ∈ onRefs f refPfx is, op.Opens (c.refs refPfx) := by
  intro op hmem
  obtain ⟨i, hi, rfl⟩ := List.mem_map.mp hmem
  refine (hop _).mono ?_
  rw [Finset.singleton_subset_iff]
  exact refPath_mem refPfx (his i hi)

variable (last script p) in
theorem alone_reflinks (hpfx : Prefix c refPfx) {src : Path} (hsrc : src ∈ t.files)
    (hn : n ≤ c.refCounts) (hnew : Disjoint t.files (c.refs refPfx)) (rand : Nat → Rand) :
    ∃ t', (program c last script).alone p (doReflinks src refPfx n 0 rand) t = some t' ∧
      t'.files = t.files ∪ (Finset.range n).image (refPath refPfx) := by
  induction n with
  | zero => exact ⟨t, rfl, by simp⟩
  | succ n ih =>
    obtain ⟨t', hrun, hfiles⟩ := ih (Nat.le_of_succ_le hn)
    have hsplit : doReflinks src refPfx (n + 1) 0 rand =
        doReflinks src refPfx n 0 rand ++ [Op.reflink src (refPath refPfx n)] := by
      simp [doReflinks, List.range_succ]
    have hold : src ∈ t'.files := by
      rw [hfiles]
      exact Finset.mem_union_left _ hsrc
    have hfresh : refPath refPfx n ∉ t'.files := by
      rw [hfiles, Finset.mem_union, not_or]
      exact ⟨Finset.disjoint_right.mp hnew (refPath_mem refPfx hn), refPath_notMem_image hpfx hn⟩
    refine ⟨t'.create p (refPath refPfx n), ?_, ?_⟩
    · rw [hsplit, Phased.alone_append, hrun]
      simp [Phased.alone, program, exec, hold, hfresh]
    · rw [Finset.range_add_one, Finset.image_insert, Finset.union_insert, ← hfiles]
      rfl

variable (last script p) in
theorem alone_unlinks (hpfx : Prefix c refPfx) (hn : n ≤ c.refCounts)
    (hthere : c.refs refPfx ⊆ t.files) :
    ∃ t', (program c last script).alone p (doUnlinks refPfx n) t = some t' ∧
      t'.files = t.files \ (Finset.range n).image (refPath refPfx) := by
  induction n with
  | zero => exact ⟨t, rfl, by simp⟩
  | succ n ih =>
    obtain ⟨t', hrun, hfiles⟩ := ih (Nat.le_of_succ_le hn)
    have hsplit : doUnlinks refPfx (n + 1) =
        doUnlinks refPfx n ++ [Op.unlink (refPath refPfx n)] := by
      simp [doUnlinks, onRefs, List.range_succ]
    have hmem : refPath refPfx n ∈ t'.files := by
      rw [hfiles, Finset.mem_sdiff]
      exact ⟨hthere (refPath_mem refPfx hn), refPath_notMem_image hpfx hn⟩
    refine ⟨t'.remove p (refPath refPfx n), ?_, ?_⟩
    · rw [hsplit, Phased.alone_append, hrun]
      simp only [Option.bind_some, Phased.alone, program, exec, if_pos hmem]
    · rw [Finset.range_add_one, Finset.image_insert, Finset.sdiff_insert, ← hfiles]
      rfl

end

-- ---------------------------------------------------------------------------
-- Who owns a path
-- ---------------------------------------------------------------------------

def Config.one (c : Config) : Fin c.size := if h : 1 < c.size then ⟨1, h⟩ else c.root

theorem Config.eq_one {c : Config} {p : Fin c.size} (hp : p.val = 1) : p = c.one := by
  have hlt : 1 < c.size := hp ▸ p.isLt
  simp [Config.one, hlt, Fin.ext_iff, hp]

/-- The reflinks of the target are those of rank 1, all else is that of rank 0. -/
def Config.owner (c : Config) (path : Path) : Fin c.size :=
  if path ∈ c.refs c.dest then c.one else c.root

theorem Config.owner_of_notMem {c : Config} {path : Path} (h : path ∉ c.refs c.dest) :
    c.owner path = c.root := if_neg h

theorem Config.owner_refs {c : Config} {path : Path} (h : path ∈ c.refs c.orig) :
    c.owner path = c.root :=
  owner_of_notMem (Finset.disjoint_left.mp refs_disjoint h)

structure Owned {c : Config} (t : Store c.size) : Prop where
  created : ∀ p path, (p, path) ∈ t.created → p = c.owner path
  unlinked : ∀ p path, (p, path) ∈ t.unlinked → p = c.owner path

section
variable {c : Config} {last : Nat} {script : Nat → Fin c.size → List Op} {p : Fin c.size}
  {t t' : Store c.size} {op : Op} {ops : List Op} {K : Finset Path}

theorem Owned.create {path : Path} (h : Owned t) (hp : p = c.owner path) :
    Owned (t.create p path) where
  created q x hmem := by
    rcases List.mem_cons.mp hmem with heq | hmem
    · cases heq
      exact hp
    · exact h.created q x hmem
  unlinked := h.unlinked

theorem Owned.remove {path : Path} (h : Owned t) (hp : p = c.owner path) :
    Owned (t.remove p path) where
  created := h.created
  unlinked q x hmem := by
    rcases List.mem_cons.mp hmem with heq | hmem
    · cases heq
      exact hp
    · exact h.unlinked q x hmem

/-- What `p` may do while the paths of `K` have to stay. -/
def Op.Allowed (c : Config) (K : Finset Path) (p : Fin c.size) : Op → Prop
  | .openRw path => path ∈ K ∨ p = c.owner path
  | .openRo _ => True
  | .reflink _ newpath => p = c.owner newpath
  | .unlink path => path ∉ K ∧ p = c.owner path

theorem Op.Opens.allowed (h : op.Opens K) : op.Allowed c K p := by
  cases op with
  | openRw path => exact .inl h
  | openRo path => trivial
  | reflink oldpath newpath | unlink path => exact h.elim

theorem exec_allowed (hop : op.Allowed c K p) (hK : K ⊆ t.files) (h : Owned t)
    (hexec : exec p op t = .next t') : K ⊆ t'.files ∧ Owned t' := by
  cases op with
  | openRw path =>
    simp only [exec] at hexec
    split at hexec
    · cases hexec
      exact ⟨hK, h⟩
    · next hnew =>
      cases hexec
      have hp := hop.resolve_left fun hmem => hnew (hK hmem)
      exact ⟨hK.trans (Finset.subset_insert path t.files), h.create hp⟩
  | openRo path =>
    simp only [exec] at hexec
    split at hexec <;> cases hexec
    exact ⟨hK, h⟩
  | reflink oldpath newpath =>
    simp only [exec] at hexec
    split at hexec <;> cases hexec
    exact ⟨hK.trans (Finset.subset_insert newpath t.files), h.create hop⟩
  | unlink path =>
    simp only [exec] at hexec
    split at hexec <;> cases hexec
    exact ⟨Finset.subset_erase.mpr ⟨hK, hop.1⟩, h.remove hop.2⟩

theorem alone_allowed (hops : ∀ op ∈ ops, op.Allowed c K p) (hK : K ⊆ t.files) (h : Owned t)
    (hrun : (program c last script).alone p ops t = some t') : K ⊆ t'.files ∧ Owned t' := by
  induction ops generalizing t with
  | nil =>
    cases hrun
    exact ⟨hK, h⟩
  | cons op ops ih =>
    rw [Phased.alone] at hrun
    split at hrun
    · next t₁ hexec =>
      obtain ⟨hK₁, h₁⟩ := exec_allowed (hops op List.mem_cons_self) hK h hexec
      exact ih (fun op hmem => hops op (List.mem_cons_of_mem _ hmem)) hK₁ h₁ hrun
    · cases hrun

/-- A phase that `w` leads, from files of `F` to such of `F'`: it leaves the paths of
`K`, and the others only open these. -/
structure Solo (c : Config) (K : Finset Path) (w : Fin c.size) (scripts : Fin c.size → List Op)
    (F F' : Finset Path → Prop) : Prop where
  kept : ∀ files, F files → K ⊆ files
  allowed : ∀ op ∈ scripts w, op.Allowed c K w
  others : ∀ p, p ≠ w → ∀ op ∈ scripts p, op.Opens K
  run : ∀ last script t, F t.files →
    ∃ t', (program c last script).alone w (scripts w) t = some t' ∧ F' t'.files

theorem reachable_divided {w : Nat → Fin c.size} {K : Nat → Finset Path}
    {F : Nat → Finset Path → Prop} (hinit : ∀ t, Clean c t → F 0 t.files)
    (hsolo : ∀ k ≤ last, Solo c (K k) (w k) (script k) (F k) (F (k + 1)))
    {s : Phased.State (Fin c.size) Op (Store c.size)}
    (h : ((program c last script).system (Clean c)).Reachable s) : Divided s := by
  have hkeeps (k : Nat) (hk : k ≤ last) (t₀ t : Store c.size) (done : List Op)
      (hF : Owned t₀ ∧ F k t₀.files) (hdone : done <+: script k (w k))
      (hrun : (program c last script).alone (w k) done t₀ = some t) :
      K k ⊆ t.files ∧ Owned t :=
    alone_allowed (fun op hmem => (hsolo k hk).allowed op (hdone.subset hmem))
      ((hsolo k hk).kept _ hF.2) hF.1 hrun
  have hled : (program c last script).Led (Clean c) w fun k t => Owned t ∧ F k t.files :=
    { init := fun t ht => ⟨⟨by simp [ht.created], by simp [ht.unlinked]⟩, hinit t ht⟩
      run := fun k t hk hF => by
        obtain ⟨t', hrun, hF'⟩ := (hsolo k hk).run last script t hF.2
        exact ⟨t', hrun, fun _ => ⟨(hkeeps k hk t t' _ hF (List.prefix_refl _) hrun).2, hF'⟩⟩
      quiet := fun k t done t' p op hk hF hdone hrun hp hmem =>
        exec_opens (((hsolo k hk).others p hp op hmem).mono (hkeeps k hk t t' done hF hdone hrun).1) }
  obtain ⟨k, hf⟩ := hled.plan.reachable h
  obtain ⟨t₀, done, hF, hscript, hrun, -⟩ := hf.holds
  obtain ⟨-, howned⟩ := hkeeps k hf.le_last t₀ _ done hF ⟨_, hscript.symm⟩ hrun
  exact {
    created := fun path p q hp hq =>
      (howned.created p path hp).trans (howned.created q path hq).symm
    unlinked := fun path p q hp hq =>
      (howned.unlinked p path hp).trans (howned.unlinked q path hq).symm
    succeeds := hf.running }

end

-- ---------------------------------------------------------------------------
-- The phases
-- ---------------------------------------------------------------------------

section
variable {c : Config} {p : Fin c.size}

/-- The paths that are there while the ranks play their roles. -/
def Config.kept (c : Config) : Finset Path := insert c.orig (insert c.dest (c.refs c.orig))

structure Fresh (c : Config) (files : Finset Path) : Prop where
  dest : c.dest ∉ files
  refs : Disjoint files (c.refs c.orig)
  destRefs : Disjoint files (c.refs c.dest)

structure Ready (c : Config) (files : Finset Path) : Prop where
  kept : c.kept ⊆ files
  destRefs : Disjoint files (c.refs c.dest)

theorem refs_subset_kept : c.refs c.orig ⊆ c.kept :=
  (Finset.subset_insert _ _).trans (Finset.subset_insert _ _)

theorem kept_disjoint : Disjoint c.kept (c.refs c.dest) := by
  simp only [Config.kept, Finset.disjoint_insert_left]
  exact ⟨orig_notMem_destRefs, dest_notMem_destRefs, refs_disjoint⟩

def rootOnly (c : Config) (ops : List Op) (p : Fin c.size) : List Op := if p.val = 0 then ops else []

theorem Solo.rootOnly {K : Finset Path} {ops : List Op} {F F' : Finset Path → Prop}
    (hkept : ∀ files, F files → K ⊆ files) (hallowed : ∀ op ∈ ops, op.Allowed c K c.root)
    (hrun : ∀ last script t, F t.files →
      ∃ t', (program c last script).alone c.root ops t = some t' ∧ F' t'.files) :
    Solo c K c.root (rootOnly c ops) F F' where
  kept := hkept
  allowed := hallowed
  others p hp op hmem := by
    have hne : p.val ≠ 0 := fun h => hp (Fin.ext h)
    rw [WorkSplit.rootOnly, if_neg hne] at hmem
    cases hmem
  run := hrun

theorem Solo.idle {F : Finset Path → Prop} : Solo c ∅ c.root (fun _ => []) F F where
  kept _ _ := Finset.empty_subset _
  allowed := nofun
  others _ _ := nofun
  run _ _ t h := ⟨t, rfl, h⟩

theorem Fresh.insert_orig {files : Finset Path} (h : Fresh c files) :
    Fresh c (insert c.orig files) where
  dest := by
    rw [Finset.mem_insert, not_or]
    exact ⟨orig_ne_dest.symm, h.dest⟩
  refs := Finset.disjoint_insert_left.mpr ⟨orig_notMem_refs, h.refs⟩
  destRefs := Finset.disjoint_insert_left.mpr ⟨orig_notMem_destRefs, h.destRefs⟩

theorem exec_openRw (path : Path) (t : Store c.size) :
    ∃ t', exec p (.openRw path) t = .next t' ∧ t'.files = insert path t.files := by
  by_cases hmem : path ∈ t.files
  · exact ⟨t, if_pos hmem, (Finset.insert_eq_of_mem hmem).symm⟩
  · exact ⟨t.create p path, if_neg hmem, rfl⟩

theorem solo_prep : Solo c ∅ c.root (rootOnly c [.openRw c.orig]) (Fresh c) (Fresh c) := by
  apply Solo.rootOnly
  · exact fun files _ => Finset.empty_subset files
  · simp [Op.Allowed, Config.owner_of_notMem orig_notMem_destRefs]
  · intro last script t h
    obtain ⟨t', hexec, hfiles⟩ := exec_openRw (p := c.root) c.orig t
    refine ⟨t', Phased.alone_cons hexec, ?_⟩
    rw [hfiles]
    exact h.insert_orig

theorem solo_make : Solo c ∅ c.root (rootOnly c (makeReflinks c)) (Fresh c) (Ready c) := by
  apply Solo.rootOnly
  · exact fun files _ => Finset.empty_subset files
  · intro op hmem
    simp only [makeReflinks, doReflinks, List.cons_append, List.mem_cons, List.mem_append,
      List.mem_map, List.mem_range, List.not_mem_nil, or_false] at hmem
    rcases hmem with rfl | ⟨i, hi, rfl⟩ | rfl
    · exact .inr (Config.owner_of_notMem orig_notMem_destRefs).symm
    · exact (Config.owner_refs (refPath_mem c.orig hi)).symm
    · exact (Config.owner_of_notMem dest_notMem_destRefs).symm
  · intro last script t h
    obtain ⟨t₁, hexec, hfiles₁⟩ := exec_openRw (p := c.root) c.orig t
    have h₁ := h.insert_orig
    rw [← hfiles₁] at h₁
    have horig : c.orig ∈ t₁.files := by
      rw [hfiles₁]
      exact Finset.mem_insert_self ..
    obtain ⟨t₂, hrun, hfiles₂⟩ := alone_reflinks last script c.root (.inl rfl) horig le_rfl
      h₁.refs fun _ => 0
    have hold : c.orig ∈ t₂.files := by
      rw [hfiles₂]
      exact Finset.mem_union_left _ horig
    have hnew : c.dest ∉ t₂.files := by
      rw [hfiles₂, Finset.mem_union, not_or]
      exact ⟨h₁.dest, dest_notMem_refs⟩
    refine ⟨t₂.create c.root c.dest, ?_, ?_, ?_⟩
    · rw [makeReflinks, List.cons_append, Phased.alone_cons hexec, Phased.alone_append, hrun]
      simp only [Option.bind_some, Phased.alone, program, exec, hold, hnew, not_false_eq_true,
        and_self, if_true]
    · intro path hmem
      simp only [Config.kept, Finset.mem_insert] at hmem
      simp only [Store.create, Finset.mem_insert, hfiles₂, Finset.mem_union]
      rcases hmem with rfl | rfl | hmem
      · exact .inr (.inl horig)
      · exact .inl rfl
      · exact .inr (.inr hmem)
    · simp only [Store.create, hfiles₂, Finset.disjoint_insert_left, Finset.disjoint_union_left]
      exact ⟨dest_notMem_destRefs, h₁.destRefs, refs_disjoint⟩

theorem solo_removes : Solo c c.kept c.root
    (rootOnly c (doXattrRemoves c.orig c.refCounts)) (Ready c) (Ready c) := by
  have hopens : ∀ op ∈ doXattrRemoves c.orig c.refCounts, op.Opens c.kept := fun op hmem =>
    (onRefs_opens (fun _ => Finset.mem_singleton_self _) (fun _ => List.mem_range.mp) op hmem).mono
      refs_subset_kept
  apply Solo.rootOnly
  · exact fun files h => h.kept
  · exact fun op hmem => (hopens op hmem).allowed
  · exact fun last script t h =>
      ⟨t, alone_opens fun op hmem => (hopens op hmem).mono h.kept, h⟩

def onTarget (c : Config) (cows : List Op) : List Op :=
  doReflinks c.dest c.dest c.refCounts 0 (fun _ => 0) ++ cows ++ doUnlinks c.dest c.refCounts

theorem onTarget_allowed {cows : List Op} (hcows : ∀ op ∈ cows, op.Opens (c.refs c.dest))
    {op : Op} (hmem : op ∈ onTarget c cows) : op.Allowed c c.kept c.one := by
  have howner {path : Path} (h : path ∈ c.refs c.dest) : c.one = c.owner path := (if_pos h).symm
  simp only [onTarget, List.mem_append] at hmem
  rcases hmem with (hmem | hmem) | hmem
  · obtain ⟨i, hi, rfl⟩ := List.mem_map.mp hmem
    exact howner (refPath_mem c.dest (List.mem_range.mp hi))
  · have hopens := hcows op hmem
    cases op with
    | openRw path => exact .inr (howner hopens)
    | openRo path => trivial
    | reflink oldpath newpath | unlink path => exact hopens.elim
  · obtain ⟨i, hi, rfl⟩ := List.mem_map.mp hmem
    have href := refPath_mem c.dest (List.mem_range.mp hi)
    exact ⟨Finset.disjoint_right.mp kept_disjoint href, howner href⟩

theorem alone_onTarget {cows : List Op} (hcows : ∀ op ∈ cows, op.Opens (c.refs c.dest))
    (last : Nat) (script : Nat → Fin c.size → List Op) {t : Store c.size} (h : Ready c t.files) :
    ∃ t', (program c last script).alone p (onTarget c cows) t = some t' ∧ Ready c t'.files := by
  have hdest : c.dest ∈ t.files := h.kept (Finset.mem_insert_of_mem (Finset.mem_insert_self ..))
  obtain ⟨t₁, hrun₁, hfiles₁⟩ := alone_reflinks last script p (.inr rfl) hdest le_rfl h.destRefs
    fun _ => 0
  have hthere : c.refs c.dest ⊆ t₁.files := by
    rw [hfiles₁]
    exact Finset.subset_union_right
  have hrun₂ : (program c last script).alone p cows t₁ = some t₁ :=
    alone_opens fun op hmem => (hcows op hmem).mono hthere
  obtain ⟨t₃, hrun₃, hfiles₃⟩ := alone_unlinks last script p (.inr rfl) le_rfl hthere
  refine ⟨t₃, ?_, ?_⟩
  · rw [onTarget, Phased.alone_append, Phased.alone_append, hrun₁, Option.bind_some, hrun₂]
    exact hrun₃
  · have hsame : t₃.files = t.files := by
      rw [hfiles₃, hfiles₁]
      exact Finset.union_sdiff_cancel_right h.destRefs
    rwa [hsame]

/-- The phase of the roles: rank 1 alone has the target, or there are no reflinks of it. -/
theorem solo_roles {cows : List Op} {role : Fin c.size → Prop} [DecidablePred role]
    {scripts : Fin c.size → List Op} (hcows : ∀ op ∈ cows, op.Opens (c.refs c.dest))
    (hrole : ∀ p, p ≠ c.one → role p → onTarget c cows = [])
    (hothers : ∀ p, ∀ op ∈ scripts p, op.Opens c.kept) :
    Solo c c.kept c.one (fun p => (if role p then onTarget c cows else []) ++ scripts p)
      (Ready c) (Ready c) where
  kept files h := h.kept
  allowed op hmem := by
    rcases List.mem_append.mp hmem with hmem | hmem
    · split at hmem
      · exact onTarget_allowed hcows hmem
      · cases hmem
    · exact (hothers _ op hmem).allowed
  others p hp op hmem := by
    rcases List.mem_append.mp hmem with hmem | hmem
    · split at hmem
      · next h =>
        rw [hrole p hp h] at hmem
        cases hmem
      · cases hmem
    · exact hothers p op hmem
  run last script t h := by
    have hfirst : ∃ t', (program c last script).alone c.one
        (if role c.one then onTarget c cows else []) t = some t' ∧ Ready c t'.files := by
      split
      · exact alone_onTarget hcows last script h
      · exact ⟨t, rfl, h⟩
    obtain ⟨t₁, hrun, h₁⟩ := hfirst
    refine ⟨t₁, ?_, h₁⟩
    rw [Phased.alone_append, hrun]
    exact alone_opens fun op hmem => (hothers _ op hmem).mono h₁.kept

theorem solo_unlinks {first lastly : List Op} (hfirst : ∀ op ∈ first, op.Opens c.kept)
    (hlastly : lastly = [.unlink c.orig, .unlink c.dest] ∨
      lastly = [.unlink c.dest, .unlink c.orig]) :
    Solo c ∅ c.root (rootOnly c (first ++ doUnlinks c.orig c.refCounts ++ lastly)) (Ready c)
      fun _ => True := by
  apply Solo.rootOnly
  · exact fun files _ => Finset.empty_subset files
  · intro op hmem
    simp only [List.mem_append] at hmem
    rcases hmem with (hmem | hmem) | hmem
    · have hopens := hfirst op hmem
      cases op with
      | openRw path => exact .inr (Config.owner_of_notMem
          (Finset.disjoint_left.mp kept_disjoint hopens)).symm
      | openRo path => trivial
      | reflink oldpath newpath | unlink path => exact hopens.elim
    · obtain ⟨i, hi, rfl⟩ := List.mem_map.mp hmem
      exact ⟨Finset.notMem_empty _,
        (Config.owner_refs (refPath_mem c.orig (List.mem_range.mp hi))).symm⟩
    · have hends : op = .unlink c.orig ∨ op = .unlink c.dest := by
        rcases hlastly with rfl | rfl
        · simpa using hmem
        · simpa [or_comm] using hmem
      rcases hends with rfl | rfl
      · exact ⟨Finset.notMem_empty _, (Config.owner_of_notMem orig_notMem_destRefs).symm⟩
      · exact ⟨Finset.notMem_empty _, (Config.owner_of_notMem dest_notMem_destRefs).symm⟩
  · intro last script t h
    have hopen : (program c last script).alone c.root first t = some t :=
      alone_opens fun op hmem => (hfirst op hmem).mono h.kept
    obtain ⟨t₁, hrun, hfiles⟩ := alone_unlinks last script c.root (.inl rfl) le_rfl
      (refs_subset_kept.trans h.kept)
    have horig : c.orig ∈ t₁.files := by
      rw [hfiles, Finset.mem_sdiff]
      exact ⟨h.kept (Finset.mem_insert_self ..), orig_notMem_refs⟩
    have hdest : c.dest ∈ t₁.files := by
      rw [hfiles, Finset.mem_sdiff]
      exact ⟨h.kept (Finset.mem_insert_of_mem (Finset.mem_insert_self ..)), dest_notMem_refs⟩
    have hends : ∃ t', (program c last script).alone c.root lastly t₁ = some t' := by
      have hne := orig_ne_dest (c := c)
      rcases hlastly with rfl | rfl
      · refine ⟨(t₁.remove c.root c.orig).remove c.root c.dest, ?_⟩
        simp [Phased.alone, program, exec, horig, hdest, Store.remove, hne.symm]
      · refine ⟨(t₁.remove c.root c.dest).remove c.root c.orig, ?_⟩
        simp [Phased.alone, program, exec, horig, hdest, Store.remove, hne]
    obtain ⟨t', hends⟩ := hends
    refine ⟨t', ?_, trivial⟩
    rw [Phased.alone_append, Phased.alone_append, hopen, Option.bind_some, hrun]
    exact hends

end

-- ---------------------------------------------------------------------------
-- The two tests
-- ---------------------------------------------------------------------------

section
variable {c : Config} {s : Phased.State (Fin c.size) Op (Store c.size)}

theorem opens_ite {b : Prop} [Decidable b] {ops : List Op} {K : Finset Path}
    (h : ∀ op ∈ ops, op.Opens K) : ∀ op ∈ (if b then ops else []), op.Opens K := by
  split
  · exact h
  · nofun

theorem openRw_refs (refPfx : Path) :
    ∀ op ∈ onRefs .openRw refPfx (List.range c.refCounts), op.Opens (c.refs refPfx) :=
  onRefs_opens (fun _ => Finset.mem_singleton_self _) fun _ => List.mem_range.mp

theorem openRo_refs (refPfx : Path) :
    ∀ op ∈ onRefs .openRo refPfx (List.range c.refCounts), op.Opens (c.refs refPfx) :=
  onRefs_opens (fun _ => Finset.mem_singleton_self _) fun _ => List.mem_range.mp

theorem openRw_notThird (refPfx : Path) :
    ∀ op ∈ onRefs .openRw refPfx (notThird c.refCounts), op.Opens (c.refs refPfx) :=
  onRefs_opens (fun _ => Finset.mem_singleton_self _) fun _ hi =>
    List.mem_range.mp (List.mem_filter.mp hi).1

theorem openRo_notThird (refPfx : Path) :
    ∀ op ∈ onRefs .openRo refPfx (notThird c.refCounts), op.Opens (c.refs refPfx) :=
  onRefs_opens (fun _ => Finset.mem_singleton_self _) fun _ hi =>
    List.mem_range.mp (List.mem_filter.mp hi).1

theorem opens_kept {ops : List Op} (h : ∀ op ∈ ops, op.Opens (c.refs c.orig)) :
    ∀ op ∈ ops, op.Opens c.kept :=
  fun op hmem => (h op hmem).mono refs_subset_kept

theorem openRo_orig {op : Op} (h : op = .openRo c.orig) : op.Opens c.kept := by
  subst h
  exact Finset.mem_insert_self ..

theorem Clean.fresh {t : Store c.size} (h : Clean c t) : Fresh c t.files :=
  ⟨h.dest, h.refs, h.destRefs⟩

theorem comp_divided (h : (compTest c).Reachable s) : Divided s := by
  refine reachable_divided
    (w := fun k => if k = 1 then c.one else c.root)
    (K := fun k => if k = 1 then c.kept else ∅)
    (F := fun k => if k = 0 then Fresh c else if k ≤ 2 then Ready c else fun _ => True)
    (fun t ht => ht.fresh) (fun k hk => ?_) h
  match k, hk with
  | 0, _ => exact solo_make
  | 1, _ =>
    refine solo_roles (openRw_notThird c.dest) (fun p hp hrole => absurd (Config.eq_one hrole) hp)
      fun p op hmem => ?_
    simp only [List.mem_append] at hmem
    rcases hmem with (((hmem | hmem) | hmem) | hmem) | hmem
    · exact opens_ite (opens_kept (openRw_notThird c.orig)) op hmem
    · exact opens_ite (opens_kept (openRo_notThird c.orig)) op hmem
    · exact opens_ite (opens_kept (openRw_refs c.orig)) op hmem
    · exact opens_ite (opens_kept (openRw_refs c.orig)) op hmem
    · exact opens_ite (fun op hop => openRo_orig (List.eq_of_mem_replicate hop)) op hmem
  | 2, _ =>
    have hunlinks : Solo c ∅ c.root (rootOnly c ([Op.openRo c.orig] ++ doUnlinks c.orig c.refCounts ++
        [Op.unlink c.orig, .unlink c.dest])) (Ready c) fun _ => True :=
      solo_unlinks (fun op hmem => openRo_orig (List.mem_singleton.mp hmem)) (.inl rfl)
    exact hunlinks
  | 3, _ => exact Solo.idle

theorem xattrBasic_divided (hc : c.size ≤ 7 ∨ c.refCounts = 0)
    (h : (xattrBasicTest c).Reachable s) : Divided s := by
  refine reachable_divided
    (w := fun k => if k = 3 then c.one else c.root)
    (K := fun k => if k = 3 ∨ k = 4 then c.kept else ∅)
    (F := fun k => if k ≤ 2 then Fresh c else if k ≤ 5 then Ready c else fun _ => True)
    (fun t ht => ht.fresh) (fun k hk => ?_) h
  match k, hk with
  | 0, _ => exact solo_prep
  | 1, _ => exact Solo.idle
  | 2, _ => exact solo_make
  | 3, _ =>
    refine solo_roles (openRw_refs c.dest) (fun p hp hrole => ?_) fun p op hmem => ?_
    · rcases hc with hsize | hnone
      · have hlt := p.isLt
        exact absurd (Config.eq_one (p := p) (by omega)) hp
      · simp [onTarget, doReflinks, doXattrCows, onRefs, doUnlinks, hnone]
    · simp only [List.mem_append] at hmem
      rcases hmem with ((hmem | hmem) | hmem) | hmem
      · exact opens_ite (opens_kept (openRw_refs c.orig)) op hmem
      · exact opens_ite (opens_kept (openRw_refs c.orig)) op hmem
      · exact opens_ite (opens_kept (openRo_refs c.orig)) op hmem
      · exact opens_ite (opens_ite (opens_kept (openRo_refs c.orig))) op hmem
  | 4, _ => exact solo_removes
  | 5, _ =>
    have hunlinks : Solo c ∅ c.root (rootOnly c ([] ++ doUnlinks c.orig c.refCounts ++
        [Op.unlink c.dest, .unlink c.orig])) (Ready c) fun _ => True :=
      solo_unlinks nofun (.inr rfl)
    exact hunlinks

theorem target_first (hn : 0 < c.refCounts) {p : Fin c.size} (hp : p.val % 6 = 1) :
    ∃ ops, xattrBasicScript c 3 p = .reflink c.dest (refPath c.dest 0) :: ops := by
  obtain ⟨n, hn⟩ := Nat.exists_eq_add_of_lt hn
  simp [xattrBasicScript, hp, doReflinks, hn, List.range_succ_eq_map]

theorem xattrBasic_conflict (hsize : 7 < c.size) (hn : 0 < c.refCounts) :
    ∃ s, (xattrBasicTest c).Reachable s ∧ ¬ Divided s := by
  have hclean : Clean c ⟨∅, [], []⟩ := ⟨rfl, rfl, by simp, by simp, by simp⟩
  have hidle (ops : List Op) (p : Fin c.size) (hp : p ≠ c.root) : rootOnly c ops p = [] :=
    if_neg fun h => hp (Fin.ext h)
  obtain ⟨t₁, hrun₁, h₁⟩ := solo_prep.run 5 (xattrBasicScript c) ⟨∅, [], []⟩ hclean.fresh
  obtain ⟨t₂, hrun₂, h₂⟩ := solo_make.run 5 (xattrBasicScript c) t₁ h₁
  have hroles : (xattrBasicTest c).Reachable
      ((program c 5 (xattrBasicScript c)).atPhase 3 t₂) := by
    have hinit : (xattrBasicTest c).Init ((program c 5 (xattrBasicScript c)).start ⟨∅, [], []⟩) :=
      ⟨_, hclean, rfl⟩
    refine (System.Reachable.init hinit).steps ?_
    refine .trans (Phased.steps_phase (p := c.root) (by decide : 0 < 5) (hidle _) hrun₁) ?_
    refine .trans (Phased.steps_phase (p := c.root) (by decide : 1 < 5) (fun _ _ => rfl) rfl) ?_
    exact Phased.steps_phase (p := c.root) (by decide : 2 < 5) (hidle _) hrun₂
  obtain ⟨ops₁, hops₁⟩ := target_first hn (p := ⟨1, by omega⟩) (rfl : 1 % 6 = 1)
  obtain ⟨ops₇, hops₇⟩ := target_first hn (p := ⟨7, hsize⟩) (rfl : 7 % 6 = 1)
  have hdest : c.dest ∈ t₂.files := h₂.kept (Finset.mem_insert_of_mem (Finset.mem_insert_self ..))
  have hnew : refPath c.dest 0 ∉ t₂.files := Finset.disjoint_right.mp h₂.destRefs
    (refPath_mem c.dest hn)
  have hreflink : (program c 5 (xattrBasicScript c)).alone ⟨1, by omega⟩
      [.reflink c.dest (refPath c.dest 0)] t₂ =
        some (t₂.create ⟨1, by omega⟩ (refPath c.dest 0)) := by
    simp [Phased.alone, program, exec, hdest, hnew]
  have hone : ((program c 5 (xattrBasicScript c)).atPhase 3 t₂).todo ⟨1, by omega⟩ =
      [Op.reflink c.dest (refPath c.dest 0)] ++ ops₁ := hops₁
  obtain ⟨s, hs, hrun, htodo, hstore⟩ := Phased.reachable_alone hroles rfl hone hreflink
  have hseven : s.todo ⟨7, hsize⟩ = .reflink c.dest (refPath c.dest 0) :: ops₇ := by
    rw [htodo, Function.update_of_ne (by simp)]
    exact hops₇
  refine ⟨_, hs.step (.fail hrun hseven ?_), fun h => ?_⟩
  · simp [program, exec, hstore, Store.create]
  · cases h.succeeds

end

def eightRanks : Config where
  size := 8
  refCounts := 1
  listSz := 256
  orig := ['f']
  size_pos := by decide
  fits := by decide

/-- The ranks have divided the work as long as rank 7 does not join rank 1. -/
theorem multiReflink_divided_iff (c : Config) :
    ((∀ s, (compTest c).Reachable s → Divided s) ∧
      ∀ s, (xattrBasicTest c).Reachable s → Divided s) ↔ c.size ≤ 7 ∨ c.refCounts = 0 := by
  constructor
  · rintro ⟨-, hxattr⟩
    by_contra hc
    rw [not_or] at hc
    obtain ⟨s, hs, hnot⟩ := xattrBasic_conflict (Nat.not_le.mp hc.1) (Nat.pos_of_ne_zero hc.2)
    exact hnot (hxattr s hs)
  · intro hc
    exact ⟨fun s => comp_divided, fun s => xattrBasic_divided hc⟩

theorem multiReflink_eight_ranks :
    ∃ s, (xattrBasicTest eightRanks).Reachable s ∧ ¬ Divided s :=
  xattrBasic_conflict (by decide) (by decide)

end Ocfs2Test.Reflink.WorkSplit
