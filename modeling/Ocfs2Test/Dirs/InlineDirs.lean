import Ocfs2Test.Dirs.Shadow

/-!
# inline-dirs

The operations of `inline-dirs-utils.c` on the table, `verify_dirents` and
`destroy_dir`. A rename gives an entry the first character 'R', so what has to be
different of the names is the rest: with that, no operation ever meets another
entry of its new name, in whatever order files are unlinked, refilled and renamed.
-/

namespace Ocfs2Test.Dirs.InlineDirs

open Lib Lib.Stdio

-- ---------------------------------------------------------------------------
-- The operations
-- ---------------------------------------------------------------------------

def padded (i : Nat) : List Char := List.replicate (11 - (printNat i).length) '0' ++ printNat i

def fileNames (start : List Char) (num : Nat) : List (List Char) :=
  (List.range num).map fun i => start ++ padded i

def createEach : List (List Char) → List Rand → Table → Exec
  | [], rs, s => { result := .ok (s, rs) }
  | name :: names, rs, s => .act .inlineDirs (.create name) s fun s => createEach names rs s

/-- The `while (iters > 0)` loops: a slot that does not suit is drawn anew. -/
def randomLoop (pick : Nat → Table → Option Act) :
    Nat → List Rand → Table → Exec
  | 0, rs, s => { result := .ok (s, rs) }
  | _ + 1, [], _ => { result := .error .starved }
  | iters + 1, r :: rs, s =>
    match pick (s.drawIndex r) s with
    | none => randomLoop pick (iters + 1) rs s
    | some a => .act .inlineDirs a s fun s => randomLoop pick iters rs s

/-- `while (iters--)`: here a slot that does not suit counts. -/
def randomDeletingRename : Nat → List Rand → Table → Exec
  | 0, rs, s => { result := .ok (s, rs) }
  | iters + 1, r₁ :: r₂ :: rs, s =>
    match pickTwo (s.drawIndex r₁) (s.drawIndex r₂) s with
    | none => randomDeletingRename iters rs s
    | some a => .act .inlineDirs a s fun s => randomDeletingRename iters rs s
  | _ + 1, _, _ => { result := .error .starved }

inductive Op
  | createFiles (start : List Char) (num : Nat)
  | randomUnlink (iters : Nat)
  | randomFillEmptyEntries (iters : Nat)
  | randomRenameSameReclen (iters : Nat)
  | randomDeletingRename (iters : Nat)
  deriving DecidableEq, Repr

def Op.run : Op → List Rand → Table → Exec
  | .createFiles start num => createEach (fileNames start num)
  | .randomUnlink iters => randomLoop (pickLive .unlink) iters
  | .randomFillEmptyEntries iters => randomLoop pickEmpty iters
  | .randomRenameSameReclen iters => randomLoop (pickLive .rename) iters
  | .randomDeletingRename iters => InlineDirs.randomDeletingRename iters

def run : List Op → List Rand → Table → Exec
  | [], rs, s => { result := .ok (s, rs) }
  | op :: ops, rs, s => (op.run rs s).andThen fun s rs => run ops rs s

/-- `verify_dirents`, given what `readdir` returns. -/
def verifyDirents (es : List (Entry (List Char))) (s : Table) : Except Stop Table :=
  match verifyListing es s.dirents with
  | .error e => .error e
  | .ok ds => if ds.all fun d => d.seen != 0 || d.nameLen == 0 then .ok ⟨ds, s.dir⟩ else .error .exit

/-- The loop of `destroy_dir`. -/
def destroySlots : List Dirent → Directory (List Char) →
    Except Stop (List Dirent × Directory (List Char))
  | [], dir => .ok ([], dir)
  | d :: ds, dir =>
    if d.nameLen = 0 then
      match destroySlots ds dir with
      | .error e => .error e
      | .ok (ds, dir) => .ok (d :: ds, dir)
    else
      match if d.isDotEntry then some dir else dir.unlink d.name with
      | none => .error .exit
      | some dir =>
        match destroySlots ds dir with
        | .error e => .error e
        | .ok (ds, dir) => .ok ({ d with nameLen := 0 } :: ds, dir)

def destroyDir (s : Table) : Except Stop Table :=
  match destroySlots s.dirents s.dir with
  | .error e => .error e
  | .ok (ds, dir) =>
    match dir.rmdir [['.'], ['.', '.']] with
    | none => .error .exit
    | some dir => .ok ⟨ds, dir⟩

-- ---------------------------------------------------------------------------
-- Names
-- ---------------------------------------------------------------------------

def Op.names : Op → List (List Char)
  | .createFiles start num => fileNames start num
  | _ => []

def names (ops : List Op) : List (List Char) := ops.flatMap Op.names

theorem length_padded (i : Nat) : 11 ≤ (padded i).length := by
  simp [padded]
  omega

theorem length_of_mem_fileNames {start name : List Char} {num : Nat} (h : name ∈ fileNames start num) :
    3 ≤ name.length := by
  obtain ⟨i, -, rfl⟩ := List.mem_map.mp h
  have := length_padded i
  rw [List.length_append]
  omega

structure Creates (ns : List (List Char)) (e : Exec) : Prop where
  first : ∃ more, e.created ++ more = ns
  all : ∀ x, e.result = .ok x → e.created = ns

theorem Creates.nil {e : Exec} (h : e.created = []) : Creates [] e :=
  ⟨⟨[], by rw [h, List.append_nil]⟩, fun _ _ => h⟩

theorem Creates.andThen {ns ns' : List (List Char)} {e : Exec} {next : Table → List Rand → Exec}
    (h : Creates ns e) (hnext : ∀ s rs, Creates ns' (next s rs)) :
    Creates (ns ++ ns') (e.andThen next) := by
  unfold Exec.andThen
  split
  · next err herr =>
    obtain ⟨more, rfl⟩ := h.first
    exact ⟨⟨more ++ ns', (List.append_assoc ..).symm⟩, fun x hx => by simp [herr] at hx⟩
  · next s rs hok =>
    have hcreated : Exec.created ⟨e.steps ++ (next s rs).steps, (next s rs).result⟩ =
        ns ++ (next s rs).created := by
      rw [← h.all _ hok]
      exact List.flatMap_append
    refine ⟨?_, fun x hx => ?_⟩
    · obtain ⟨more, hmore⟩ := (hnext s rs).first
      exact ⟨more, by rw [hcreated, List.append_assoc, hmore]⟩
    · rw [hcreated, (hnext s rs).all x hx]

theorem createEach_creates (ns : List (List Char)) (rs : List Rand) (s : Table) :
    Creates ns (createEach ns rs s) := by
  induction ns generalizing s with
  | nil => exact .nil rfl
  | cons n ns ih =>
    unfold createEach
    cases hact : perform .inlineDirs (.create n) s with
    | error e =>
      rw [Exec.act_of_error hact]
      exact ⟨⟨ns, rfl⟩, nofun⟩
    | ok s' =>
      rw [Exec.act_of_ok hact]
      obtain ⟨more, hmore⟩ := (ih s').first
      exact ⟨⟨more, congrArg (n :: ·) hmore⟩, fun x hx => congrArg (n :: ·) ((ih s').all x hx)⟩

theorem randomLoop_chain {pick : Nat → Table → Option Act} (hpick : Picks pick) (iters : Nat)
    (rs : List Rand) (s : Table) :
    Chain .inlineDirs s (randomLoop pick iters rs s) ∧ (randomLoop pick iters rs s).created = [] := by
  induction rs generalizing iters s with
  | nil =>
    cases iters with
    | zero => exact ⟨.done, rfl⟩
    | succ iters => exact ⟨.starved, rfl⟩
  | cons r rs ih =>
    cases iters with
    | zero => exact ⟨.done, rfl⟩
    | succ iters =>
      rw [randomLoop]
      split
      · exact ih _ _
      · next a ha =>
        obtain ⟨hallowed, hcreated⟩ := hpick _ _ _ ha
        exact ⟨.act hallowed fun s' _ => (ih iters s').1,
          Exec.created_act hcreated fun s' => (ih iters s').2⟩

theorem randomDeletingRename_chain (iters : Nat) (rs : List Rand) (s : Table) :
    Chain .inlineDirs s (randomDeletingRename iters rs s) ∧
      (randomDeletingRename iters rs s).created = [] := by
  induction iters generalizing rs s with
  | zero => exact ⟨.done, rfl⟩
  | succ iters ih =>
    match rs with
    | [] | [_] => exact ⟨.starved, rfl⟩
    | r₁ :: r₂ :: rs =>
      rw [randomDeletingRename]
      split
      · exact ih rs s
      · next a ha =>
        obtain ⟨hallowed, hcreated⟩ := pickTwo_allowed ha
        exact ⟨.act hallowed fun s' _ => (ih rs s').1, Exec.created_act hcreated fun s' => (ih rs s').2⟩

theorem Op.run_creates (op : Op) (rs : List Rand) (s : Table) : Creates op.names (op.run rs s) := by
  cases op with
  | createFiles start num => exact createEach_creates _ rs s
  | randomUnlink iters => exact .nil (randomLoop_chain picks_unlink iters rs s).2
  | randomFillEmptyEntries iters => exact .nil (randomLoop_chain picks_fill iters rs s).2
  | randomRenameSameReclen iters => exact .nil (randomLoop_chain picks_rename iters rs s).2
  | randomDeletingRename iters => exact .nil (randomDeletingRename_chain iters rs s).2

theorem run_creates (ops : List Op) (rs : List Rand) (s : Table) : Creates (names ops) (run ops rs s) := by
  induction ops generalizing rs s with
  | nil => exact .nil rfl
  | cons op ops ih => exact (op.run_creates rs s).andThen fun s rs => ih rs s

-- ---------------------------------------------------------------------------
-- The invariant
-- ---------------------------------------------------------------------------

section
variable {p : Program} {s : Table} {a : Act} {ds : List Dirent} {d : Dirent} {i : Nat}

theorem tail_ne_of_erased (h : (ds.map (·.name.tail)).Nodup) (hi : ds[i]? = some d) :
    ∀ n ∈ (live (ds.eraseIdx i)).keys, n.tail ≠ d.name.tail := by
  rintro n hn htail
  obtain ⟨e, he, rfl⟩ := List.mem_map.mp hn
  obtain ⟨j', d', hd', -, hname, -⟩ := exists_of_mem_live he
  obtain ⟨j, hji, hj⟩ := List.mem_eraseIdx_iff_getElem?.mp (List.mem_of_getElem? hd')
  have hp := (List.getElem_cons_eraseIdx_perm (List.getElem?_eq_some_iff.mp hi).1).map (·.name.tail)
  obtain ⟨hlt, rfl⟩ := List.getElem?_eq_some_iff.mp hi
  rw [List.map_cons] at hp
  refine (List.nodup_cons.mp (hp.nodup_iff.mpr h)).1 ?_
  rw [← htail, ← hname]
  exact List.mem_map_of_mem (f := (·.name.tail)) (List.mem_of_getElem? hd')

theorem clear_of_tails (h : (s.dirents.map (·.name.tail) ++ a.created.map List.tail).Nodup)
    (hfit : s.dirents.length + a.created.length ≤ p.maxDirents) : a.Clear p s := by
  have htails := (List.nodup_append.mp h).1
  cases a with
  | create name =>
    refine ⟨by simpa [Act.created] using hfit, fun hmem => ?_⟩
    obtain ⟨e, he, rfl⟩ := List.mem_map.mp hmem
    obtain ⟨i, d, hd, -, hname, -⟩ := exists_of_mem_live he
    refine (List.nodup_append.mp h).2.2 d.name.tail ?_ e.1.tail (by simp [Act.created]) (hname ▸ rfl)
    exact List.mem_map_of_mem (f := (·.name.tail)) (List.mem_of_getElem? hd)
  | unlink i => trivial
  | fill i => exact fun d hi hmem => tail_ne_of_erased htails hi _ hmem rfl
  | rename i => exact fun d hi hmem => tail_ne_of_erased htails hi _ hmem rfl
  | deletingRename i j => trivial

end

theorem Chain.shadows {p : Program} {s : Table} {e : Exec} (h : Chain p s e) (hs : Shadows s)
    (hseen : ∀ d ∈ s.dirents, d.seen = 0)
    (htails : (s.dirents.map (·.name.tail) ++ e.created.map List.tail).Nodup)
    (hfit : s.dirents.length + e.created.length ≤ p.maxDirents) :
    (∀ stop, e.result = .error stop → stop = .starved) ∧
      ∀ s' rs, e.result = .ok (s', rs) → Shadows s' ∧ ∀ d ∈ s'.dirents, d.seen = 0 := by
  induction h with
  | done =>
    refine ⟨nofun, ?_⟩
    rintro s' rs ⟨⟩
    exact ⟨hs, hseen⟩
  | starved =>
    refine ⟨?_, nofun⟩
    rintro stop ⟨⟩
    rfl
  | @act s a rest ha _ ih =>
    have hfirst : ∃ more, (Exec.act p a s rest).created = a.created ++ more := by
      cases hact : perform p a s with
      | error e => exact ⟨[], by rw [Exec.act_of_error hact]; rfl⟩
      | ok s' => exact ⟨(rest s').created, by rw [Exec.act_of_ok hact]; rfl⟩
    have hclear : a.Clear p s := by
      obtain ⟨more, hmore⟩ := hfirst
      rw [hmore, List.map_append, ← List.append_assoc] at htails
      rw [hmore, List.length_append] at hfit
      exact clear_of_tails (List.nodup_append.mp htails).1 (by omega)
    obtain ⟨s', hact, hfollows⟩ := perform_clear hs ha hclear
    have hcreated : (Exec.act p a s rest).created = a.created ++ (rest s').created := by
      rw [Exec.act_of_ok hact]
      rfl
    have hlen : s'.dirents.length = s.dirents.length + a.created.length := by
      simpa using congrArg List.length hfollows.tails
    rw [hcreated, List.map_append, ← List.append_assoc, ← hfollows.tails] at htails
    rw [hcreated, List.length_append, ← Nat.add_assoc, ← hlen] at hfit
    rw [Exec.act_of_ok hact]
    exact ih s' hact hfollows.shadows (hfollows.seen hseen) htails hfit

theorem createEach_chain {ns : List (List Char)} (hns : ∀ n ∈ ns, isName n = true ∧ 3 ≤ n.length)
    (rs : List Rand) (s : Table) : Chain .inlineDirs s (createEach ns rs s) := by
  induction ns generalizing s with
  | nil => exact .done
  | cons n ns ih =>
    rw [List.forall_mem_cons] at hns
    exact .act hns.1 fun s' _ => ih hns.2 s'

theorem Op.run_chain {op : Op} (hop : ∀ n ∈ op.names, isName n = true) (rs : List Rand) (s : Table) :
    Chain .inlineDirs s (op.run rs s) := by
  cases op with
  | createFiles start num =>
    exact createEach_chain (fun n hn => ⟨hop n hn, length_of_mem_fileNames hn⟩) rs s
  | randomUnlink iters => exact (randomLoop_chain picks_unlink iters rs s).1
  | randomFillEmptyEntries iters => exact (randomLoop_chain picks_fill iters rs s).1
  | randomRenameSameReclen iters => exact (randomLoop_chain picks_rename iters rs s).1
  | randomDeletingRename iters => exact (randomDeletingRename_chain iters rs s).1

theorem run_chain {ops : List Op} (hops : ∀ n ∈ names ops, isName n = true) (rs : List Rand) (s : Table) :
    Chain .inlineDirs s (run ops rs s) := by
  induction ops generalizing rs s with
  | nil => exact .done
  | cons op ops ih =>
    rw [names, List.flatMap_cons, List.forall_mem_append] at hops
    exact (Op.run_chain hops.1 rs s).andThen fun s rs => ih hops.2 rs s

-- ---------------------------------------------------------------------------
-- verify_dirents and destroy_dir
-- ---------------------------------------------------------------------------

section
variable {s : Table} {d : Dirent}

theorem verifyDirents_ok {es : List (Entry (List Char))} (hs : Shadows s)
    (hseen : ∀ d ∈ s.dirents, d.seen = 0) (hes : s.dir.Lists es) :
    ∃ s', verifyDirents es s = .ok s' ∧ Shadows s' := by
  obtain ⟨ds, hrun, hsame, hmarked⟩ := hs.verifyListing hseen hes
  refine ⟨⟨ds, s.dir⟩, ?_, hs.congr_unseen hsame⟩
  simp only [verifyDirents, hrun]
  refine if_pos (List.all_eq_true.mpr fun d hd => ?_)
  simpa using hmarked d hd

theorem destroySlots_ok {ds : List Dirent} {dir dir' : Directory (List Char)}
    (h : unlinkFiles ds dir = some dir') :
    ∃ ds', destroySlots ds dir = .ok (ds', dir') ∧ ∀ d ∈ ds', d.nameLen = 0 := by
  induction ds generalizing dir with
  | nil =>
    cases h
    exact ⟨[], rfl, by simp⟩
  | cons d ds ih =>
    rw [unlinkFiles] at h
    rw [destroySlots]
    by_cases hlive : d.nameLen = 0
    · rw [if_pos (.inl hlive)] at h
      obtain ⟨ds', hrun, hempty⟩ := ih h
      rw [if_pos hlive, hrun]
      exact ⟨d :: ds', rfl, List.forall_mem_cons.mpr ⟨hlive, hempty⟩⟩
    · rw [if_neg hlive]
      cases hdot : d.isDotEntry with
      | true =>
        rw [hdot, if_pos (.inr rfl)] at h
        obtain ⟨ds', hrun, hempty⟩ := ih h
        simp only [if_true, hrun]
        exact ⟨_, rfl, List.forall_mem_cons.mpr ⟨rfl, hempty⟩⟩
      | false =>
        rw [hdot, if_neg (not_or.mpr ⟨hlive, Bool.false_ne_true⟩)] at h
        split at h
        · cases h
        · next dir₁ hunlink =>
          obtain ⟨ds', hrun, hempty⟩ := ih h
          simp only [Bool.false_eq_true, if_false, hunlink, hrun]
          exact ⟨_, rfl, List.forall_mem_cons.mpr ⟨rfl, hempty⟩⟩

theorem destroyDir_ok (hs : Shadows s) :
    ∃ ds, destroyDir s = .ok ⟨ds, ∅⟩ ∧ ∀ d ∈ ds, d.nameLen = 0 := by
  obtain ⟨dir, hunlink, hrmdir⟩ := hs.unlinkFiles
  obtain ⟨ds, hrun, hempty⟩ := destroySlots_ok hunlink
  refine ⟨ds, ?_, hempty⟩
  simp only [destroyDir, hrun, hrmdir]

end

-- ---------------------------------------------------------------------------
-- The program
-- ---------------------------------------------------------------------------

theorem length_of_mem_names {ops : List Op} {n : List Char} (h : n ∈ names ops) : 3 ≤ n.length := by
  obtain ⟨op, -, hop⟩ := List.mem_flatMap.mp h
  cases op with
  | createFiles start num => exact length_of_mem_fileNames hop
  | _ => cases hop

theorem tails_nodup {ops : List Op} (h : ((names ops).map List.tail).Nodup) :
    (createAndPrepDir.dirents.map (·.name.tail) ++ (names ops).map List.tail).Nodup := by
  refine List.nodup_append.mpr ⟨by decide, h, ?_⟩
  rintro t ht t' ht' rfl
  obtain ⟨n, hn, rfl⟩ := List.mem_map.mp ht'
  have hlen := length_of_mem_names hn
  have hshort : n.tail.length ≤ 1 := by
    simp only [createAndPrepDir, dot, dotDot, List.map_cons, List.map_nil, List.mem_cons,
      List.not_mem_nil, or_false] at ht
    rcases ht with ht | ht <;> simp [ht]
  rw [List.length_tail] at hshort
  omega

/-- Whatever numbers are drawn, a run of operations does not exit, and where it
ends the live slots are the listing of the directory; then `verify_dirents` does
not exit either, in whatever order `readdir` returns the entries, and `destroy_dir`
removes the directory, before and after the check. -/
theorem inlineDirs_shadow (ops : List Op) (rs : List Rand)
    (hnames : ∀ n ∈ names ops, isName n = true) (hdistinct : ((names ops).map List.tail).Nodup)
    (hfit : 2 + (names ops).length ≤ Program.inlineDirs.maxDirents) :
    (∀ stop, (run ops rs createAndPrepDir).result = .error stop → stop = .starved) ∧
    ∀ s rs', (run ops rs createAndPrepDir).result = .ok (s, rs') →
      (live s.dirents).keys.Nodup ∧ s.dir.Lists (live s.dirents) ∧
      (∃ ds, destroyDir s = .ok ⟨ds, ∅⟩) ∧
      ∀ es, s.dir.Lists es → ∃ s', verifyDirents es s = .ok s' ∧ ∃ ds, destroyDir s' = .ok ⟨ds, ∅⟩ := by
  obtain ⟨more, hmore⟩ := (run_creates ops rs createAndPrepDir).first
  have htails : (createAndPrepDir.dirents.map (·.name.tail) ++
      (run ops rs createAndPrepDir).created.map List.tail).Nodup :=
    (tails_nodup hdistinct).sublist
      (((hmore ▸ List.sublist_append_left _ _ : List.Sublist _ (names ops)).map _).append_left _)
  have hlen : createAndPrepDir.dirents.length + (run ops rs createAndPrepDir).created.length ≤
      Program.inlineDirs.maxDirents := by
    rw [← hmore, List.length_append] at hfit
    exact Nat.le_trans (by simp [createAndPrepDir]) hfit
  obtain ⟨herror, hok⟩ := Chain.shadows (run_chain hnames rs _) shadows_createAndPrepDir
    (by simp [createAndPrepDir, dot, dotDot]) htails hlen
  refine ⟨herror, fun s rs' hrun => ?_⟩
  obtain ⟨hs, hseen⟩ := hok s rs' hrun
  obtain ⟨ds, hdestroy, -⟩ := destroyDir_ok hs
  refine ⟨hs.lists.nodup, hs.lists, ⟨ds, hdestroy⟩, fun es hes => ?_⟩
  obtain ⟨s', hverify, hs'⟩ := verifyDirents_ok hs hseen hes
  obtain ⟨ds', hdestroy', -⟩ := destroyDir_ok hs'
  exact ⟨s', hverify, ds', hdestroy'⟩

def twoFiles : List Op :=
  [.createFiles ['f'] 2, .randomUnlink 1, .randomFillEmptyEntries 1, .randomRenameSameReclen 1,
    .randomDeletingRename 1]

theorem inlineDirs_shadow_twoFiles :
    ∃ s rs', (run twoFiles [2, 2, 3, 2, 3] createAndPrepDir).result = .ok (s, rs') ∧
      (live s.dirents).keys.Nodup ∧ s.dir.Lists (live s.dirents) ∧
      (∃ ds, destroyDir s = .ok ⟨ds, ∅⟩) ∧
      ∀ es, s.dir.Lists es → ∃ s', verifyDirents es s = .ok s' ∧ ∃ ds, destroyDir s' = .ok ⟨ds, ∅⟩ := by
  have hrun : ∃ x, (run twoFiles [2, 2, 3, 2, 3] createAndPrepDir).result = .ok x := by
    exact ⟨_, rfl⟩
  obtain ⟨⟨s, rs'⟩, hrun⟩ := hrun
  exact ⟨s, rs', hrun, (inlineDirs_shadow twoFiles [2, 2, 3, 2, 3] (by decide) (by decide)
    (by decide)).2 s rs' hrun⟩

end Ocfs2Test.Dirs.InlineDirs
