import Ocfs2Test.Dirs.Shadow

/-!
# index_dir

The operations of `index_dir.c` with names from `get_rand_nam`. Nothing keeps a
drawn name, the name left in an empty slot or a name that begins with the 'R' of a
rename from being that of another file; the first time one is, the table holds it
twice and stops being the listing (`indexDir_shadow_iff`).
-/

namespace Ocfs2Test.Dirs.IndexDir

open Lib Lib.Stdio

-- ---------------------------------------------------------------------------
-- The operations
-- ---------------------------------------------------------------------------

def randChar (r : Rand) : Char := Char.ofNat (65 + getRand 0 25 r)

def randChars : Nat → List Rand → Option (List Char × List Rand)
  | 0, rs => some ([], rs)
  | _ + 1, [] => none
  | n + 1, r :: rs =>
    match randChars n rs with
    | none => none
    | some (cs, rs) => some (randChar r :: cs, rs)

def getRandNam (least most : Nat) : List Rand → Option (List Char × List Rand)
  | [] => none
  | r :: rs => randChars (getRand least most r) rs

def createFiles : Nat → List Rand → Table → Exec
  | 0, rs, s => { result := .ok (s, rs) }
  | num + 1, rs, s =>
    match getRandNam 3 (OCFS2_MAX_FILENAME_LEN / 4) rs with
    | none => { result := .error .starved }
    | some (name, rs) => .act .indexDir (.create name) s fun s => createFiles num rs s

/-- The `while ((iters > 0) && (times < threshold))` loops that draw one slot. -/
def randomLoop (pick : Nat → Table → Option Act) (threshold : Nat) :
    List Rand → Nat → Nat → Table → Exec
  | [], iters, times, s =>
    if 0 < iters ∧ times < threshold then { result := .error .starved } else { result := .ok (s, []) }
  | r :: rs, iters, times, s =>
    if 0 < iters ∧ times < threshold then
      match pick (s.drawIndex r) s with
      | none => randomLoop pick threshold rs iters times s
      | some a => .act .indexDir a s fun s => randomLoop pick threshold rs (iters - 1) (times + 1) s
    else { result := .ok (s, r :: rs) }

/-- The loop that draws two slots. -/
def randomLoopTwo (threshold : Nat) : List Rand → Nat → Nat → Table → Exec
  | r₁ :: r₂ :: rs, iters, times, s =>
    if 0 < iters ∧ times < threshold then
      match pickTwo (s.drawIndex r₁) (s.drawIndex r₂) s with
      | none => randomLoopTwo threshold rs iters times s
      | some a => .act .indexDir a s fun s => randomLoopTwo threshold rs (iters - 1) (times + 1) s
    else { result := .ok (s, r₁ :: r₂ :: rs) }
  | rs, iters, times, s =>
    if 0 < iters ∧ times < threshold then { result := .error .starved } else { result := .ok (s, rs) }

inductive Op
  | createFiles (num : Nat)
  | randomUnlink (iters : Nat)
  | randomFillEmptyEntries (iters : Nat)
  | randomRenameSameReclen (iters : Nat)
  | randomDeletingRename (iters : Nat)
  deriving DecidableEq, Repr

def Op.run : Op → List Rand → Table → Exec
  | .createFiles num, rs, s => IndexDir.createFiles num rs s
  | .randomUnlink iters, rs, s => randomLoop (pickLive .unlink) (iters * 2) rs iters 0 s
  | .randomFillEmptyEntries iters, rs, s => randomLoop pickEmpty (iters * 2) rs iters 0 s
  | .randomRenameSameReclen iters, rs, s => randomLoop (pickLive .rename) (iters * 2) rs iters 0 s
  | .randomDeletingRename iters, rs, s => randomLoopTwo (iters * 2) rs iters 0 s

def run : List Op → List Rand → Table → Exec
  | [], rs, s => { result := .ok (s, rs) }
  | op :: ops, rs, s => (op.run rs s).andThen fun s rs => run ops rs s

/-- `verify_dirents`, given what `readdir` returns: how many entries it reports to
be missing, and the table with `seen` reset. -/
def verifyDirents (es : List (Entry (List Char))) (s : Table) : Except Stop (Nat × Table) :=
  match verifyListing es s.dirents with
  | .error e => .error e
  | .ok ds =>
    .ok (ds.countP fun d => !(d.seen != 0 || d.nameLen == 0), ⟨ds.map Dirent.unseen, s.dir⟩)

/-- The loop of `destroy_dir`: how many calls of `unlink` fail, and what is left. -/
def destroySlots : List Dirent → Directory (List Char) → Nat × List Dirent × Directory (List Char)
  | [], dir => (0, [], dir)
  | d :: ds, dir =>
    if d.nameLen = 0 ∨ d.isDotEntry then
      let (failed, ds, dir) := destroySlots ds dir
      (failed, d :: ds, dir)
    else
      match dir.unlink d.name with
      | none =>
        let (failed, ds, dir) := destroySlots ds dir
        (failed + 1, { d with nameLen := 0, seen := 0 } :: ds, dir)
      | some dir =>
        let (failed, ds, dir) := destroySlots ds dir
        (failed, { d with nameLen := 0, seen := 0 } :: ds, dir)

/-- `destroy_dir`: how many calls of `unlink` fail, and if it comes to its end. -/
def destroyDir (s : Table) : Nat × Except Stop Table :=
  let (failed, _, dir) := destroySlots s.dirents s.dir
  match dir.rmdir [['.'], ['.', '.']] with
  | none => (failed, .error .exit)
  | some dir => (failed, .ok ⟨[], dir⟩)

-- ---------------------------------------------------------------------------
-- Names
-- ---------------------------------------------------------------------------

theorem getRand_bounds {lo hi : Nat} (h : lo < hi) (r : Rand) :
    lo ≤ getRand lo hi r ∧ getRand lo hi r ≤ hi := by
  have hlt := Nat.mod_lt r.val (show 0 < hi - lo + 1 by omega)
  rw [getRand, if_neg (by omega)]
  omega

theorem randChar_ne {c : Char} (h : c.toNat < 65) (r : Rand) : randChar r ≠ c := by
  intro hc
  have hlt := (getRand_bounds (show 0 < 25 by decide) r).2
  rw [← hc, randChar, Char.toNat_ofNat, if_pos (by left; omega)] at h
  omega

theorem randChars_spec {n : Nat} {rs rs' : List Rand} {cs : List Char}
    (h : randChars n rs = some (cs, rs')) :
    cs.length = n ∧ ∀ c : Char, c.toNat < 65 → c ∉ cs := by
  induction n generalizing rs cs with
  | zero =>
    cases h
    simp
  | succ n ih =>
    cases rs with
    | nil => cases h
    | cons r rs =>
      rw [randChars] at h
      split at h
      · cases h
      · next cs' rs'' hcs =>
        cases h
        obtain ⟨hlen, hnot⟩ := ih hcs
        refine ⟨by rw [List.length_cons, hlen], fun c hc => ?_⟩
        rw [List.mem_cons, not_or]
        exact ⟨Ne.symm (randChar_ne hc r), hnot c hc⟩

theorem getRandNam_spec {rs rs' : List Rand} {name : List Char}
    (h : getRandNam 3 (OCFS2_MAX_FILENAME_LEN / 4) rs = some (name, rs')) :
    isName name = true ∧ 3 ≤ name.length := by
  cases rs with
  | nil => cases h
  | cons r rs =>
    obtain ⟨hlen, hnot⟩ := randChars_spec h
    have hbounds := getRand_bounds (show 3 < OCFS2_MAX_FILENAME_LEN / 4 by decide) r
    rw [← hlen] at hbounds
    refine ⟨isName_iff.mpr ⟨⟨?_, ?_⟩, hnot _ (by decide), hnot _ (by decide)⟩, hbounds.1⟩
    · rw [← List.length_pos_iff]
      omega
    · exact hbounds.2.trans (Nat.div_le_self _ _)

-- ---------------------------------------------------------------------------
-- Runs are chains of acts
-- ---------------------------------------------------------------------------

theorem createFiles_chain (num : Nat) (rs : List Rand) (s : Table) :
    Chain .indexDir s (createFiles num rs s) := by
  induction num generalizing rs s with
  | zero => exact .done
  | succ num ih =>
    rw [createFiles]
    split
    · exact .starved
    · next name rs' hname => exact .act (getRandNam_spec hname) fun s' _ => ih rs' s'

theorem randomLoop_chain {pick : Nat → Table → Option Act} (hpick : Picks pick) (threshold : Nat)
    (rs : List Rand) (iters times : Nat) (s : Table) :
    Chain .indexDir s (randomLoop pick threshold rs iters times s) := by
  induction rs generalizing iters times s with
  | nil =>
    rw [randomLoop]
    split
    · exact .starved
    · exact .done
  | cons r rs ih =>
    rw [randomLoop]
    split
    · split
      · exact ih _ _ _
      · next a ha => exact .act (hpick _ _ _ ha).1 fun s' _ => ih _ _ s'
    · exact .done

theorem randomLoopTwo_chain (threshold : Nat) (rs : List Rand) (iters times : Nat) (s : Table) :
    Chain .indexDir s (randomLoopTwo threshold rs iters times s) := by
  fun_induction randomLoopTwo threshold rs iters times s with
  | case1 _ _ _ _ _ _ _ _ ih => exact ih
  | case2 _ _ _ _ _ _ _ a ha ih => exact .act (pickTwo_allowed ha).1 fun s' _ => ih s'
  | case3 => exact .done
  | case4 => exact .starved
  | case5 => exact .done

theorem Op.run_chain (op : Op) (rs : List Rand) (s : Table) : Chain .indexDir s (op.run rs s) := by
  cases op with
  | createFiles num => exact createFiles_chain num rs s
  | randomUnlink iters => exact randomLoop_chain picks_unlink _ rs iters 0 s
  | randomFillEmptyEntries iters => exact randomLoop_chain picks_fill _ rs iters 0 s
  | randomRenameSameReclen iters => exact randomLoop_chain picks_rename _ rs iters 0 s
  | randomDeletingRename iters => exact randomLoopTwo_chain _ rs iters 0 s

theorem run_chain (ops : List Op) (rs : List Rand) (s : Table) : Chain .indexDir s (run ops rs s) := by
  induction ops generalizing rs s with
  | nil => exact .done
  | cons op ops ih => exact (op.run_chain rs s).andThen fun s rs => ih rs s

-- ---------------------------------------------------------------------------
-- verify_dirents and destroy_dir
-- ---------------------------------------------------------------------------

/-- What the test relies on: the live slots are the listing, `verify_dirents` has
nothing to report, and `destroy_dir` unlinks every file and removes the directory. -/
structure Good (s : Table) : Prop where
  distinct : (live s.dirents).keys.Nodup
  lists : s.dir.Lists (live s.dirents)
  verify : ∀ es, s.dir.Lists es → ∃ s', verifyDirents es s = .ok (0, s')
  destroy : destroyDir s = (0, .ok ⟨[], ∅⟩)

section
variable {p : Program} {s s' : Table} {a : Act} {i : Nat} {d : Dirent}

theorem destroySlots_ok {ds : List Dirent} {dir dir' : Directory (List Char)}
    (h : unlinkFiles ds dir = some dir') : ∃ ds', destroySlots ds dir = (0, ds', dir') := by
  induction ds generalizing dir with
  | nil =>
    cases h
    exact ⟨[], rfl⟩
  | cons d ds ih =>
    rw [unlinkFiles] at h
    rw [destroySlots]
    split at h
    · next hskip =>
      obtain ⟨ds', hrun⟩ := ih h
      rw [if_pos hskip, hrun]
      exact ⟨d :: ds', rfl⟩
    · next hfile =>
      rw [if_neg hfile]
      cases hunlink : dir.unlink d.name with
      | none =>
        rw [hunlink] at h
        cases h
      | some dir₁ =>
        rw [hunlink] at h
        obtain ⟨ds', hrun⟩ := ih h
        simp only [hrun]
        exact ⟨_, rfl⟩

theorem Shadows.good (hs : Shadows s) (hseen : ∀ d ∈ s.dirents, d.seen = 0) : Good s where
  distinct := hs.lists.nodup
  lists := hs.lists
  verify es hes := by
    obtain ⟨ds, hrun, -, hmarked⟩ := hs.verifyListing hseen hes
    refine ⟨⟨ds.map Dirent.unseen, s.dir⟩, ?_⟩
    have hcount : (ds.countP fun d => !(d.seen != 0 || d.nameLen == 0)) = 0 := by
      refine List.countP_eq_zero.mpr fun d hd => ?_
      rcases hmarked d hd with h | h <;> simp [h]
    simp only [verifyDirents, hrun, hcount]
  destroy := by
    obtain ⟨dir, hunlink, hrmdir⟩ := hs.unlinkFiles
    obtain ⟨ds, hrun⟩ := destroySlots_ok hunlink
    simp only [destroyDir, hrun, hrmdir]

-- ---------------------------------------------------------------------------
-- Acts that are not clear
-- ---------------------------------------------------------------------------

theorem perform_ne_starved : perform p a s ≠ .error .starved := by
  intro h
  cases a <;> cases p <;>
    simp only [perform, createFile, unlinkEntry, fillEntry, renameEntry, deletingRenameEntry] at h <;>
    repeat' split at h
  all_goals cases h

theorem not_nodup_of_set {d' : Dirent} (hi : s.dirents[i]? = some d) (hlive : d'.nameLen ≠ 0)
    (hmem : d'.name ∈ (live (s.dirents.eraseIdx i)).keys) : ¬ (live (s.dirents.set i d')).keys.Nodup := by
  have hp := (live_set_perm hi d').map Sigma.fst
  rw [Dirent.listed, if_neg hlive] at hp
  intro hnodup
  exact (List.nodup_cons.mp (hp.nodup_iff.mp hnodup)).1 hmem

theorem perform_unclear (hs : Shadows s) (ha : a.Allowed s) (hc : ¬ a.Clear p s)
    (h : perform p a s = .ok s') : ¬ (live s'.dirents).keys.Nodup := by
  cases a with
  | create name =>
    rw [perform, createFile] at h
    split at h
    · next hslot =>
      have hmem : name ∈ (live s.dirents).keys := by
        by_contra hnot
        exact hc ⟨hslot.1, hnot⟩
      split at h
      · cases h
      · cases h
        have hne : name.length ≠ 0 := by
          have := ha.2
          omega
        simp only [live, List.filterMap_append, List.filterMap_cons, List.filterMap_nil, Dirent.listed,
          if_neg hne, List.keys, List.map_append, List.map_cons, List.map_nil]
        intro hnodup
        exact (List.nodup_append.mp hnodup).2.2 name hmem name (by simp) rfl
    · cases h
  | unlink i => exact absurd trivial hc
  | fill i =>
    obtain ⟨d, hfile, -⟩ := ha
    have hlen := (hfile.ok hs).2.2.1
    simp only [perform, fillEntry, hfile.1] at h
    split at h
    · cases h
    · cases h
      refine not_nodup_of_set hfile.1 (by dsimp only; omega) ?_
      by_contra hnot
      exact hc fun d' hd' => Option.some.inj (hfile.1.symm.trans hd') ▸ hnot
  | rename i =>
    obtain ⟨d, hfile, hlive⟩ := ha
    simp only [perform, renameEntry, hfile.1] at h
    split at h
    · cases h
    · cases h
      refine not_nodup_of_set hfile.1 hlive ?_
      by_contra hnot
      exact hc fun d' hd' => Option.some.inj (hfile.1.symm.trans hd') ▸ hnot
  | deletingRename i j => exact absurd trivial hc

/-- In a run every act is clear if and only if every act leaves a good table and
nothing stops the program. -/
theorem Chain.good_iff {e : Exec} (h : Chain p s e) (hs : Shadows s)
    (hseen : ∀ d ∈ s.dirents, d.seen = 0) :
    ((∀ x ∈ e.steps, ∀ s', perform p x.2 x.1 = .ok s' → Good s') ∧
        ∀ stop, e.result = .error stop → stop = .starved) ↔
      ∀ x ∈ e.steps, x.2.Clear p x.1 := by
  induction h with
  | done => simp
  | starved => simp
  | @act s a rest ha _ ih =>
    by_cases hc : a.Clear p s
    · obtain ⟨s', hact, hfollows⟩ := perform_clear hs ha hc
      have hgood := Shadows.good hfollows.shadows (hfollows.seen hseen)
      rw [Exec.act_of_ok hact, List.forall_mem_cons, List.forall_mem_cons,
        ← ih s' hact hfollows.shadows (hfollows.seen hseen)]
      constructor
      · rintro ⟨⟨-, hrest⟩, hstop⟩
        exact ⟨hc, hrest, hstop⟩
      · rintro ⟨-, hrest, hstop⟩
        refine ⟨⟨fun s'' h'' => ?_, hrest⟩, hstop⟩
        cases hact.symm.trans h''
        exact hgood
    · refine iff_of_false ?_ ?_
      · rintro ⟨hsteps, hstop⟩
        cases hact : perform p a s with
        | error e =>
          rw [Exec.act_of_error hact] at hstop
          exact perform_ne_starved (hact.trans (congrArg Except.error (hstop e rfl)))
        | ok s' =>
          rw [Exec.act_of_ok hact, List.forall_mem_cons] at hsteps
          exact perform_unclear hs ha hc hact (hsteps.1 s' hact).distinct
      · intro hclear
        refine hc (hclear (s, a) ?_)
        cases hact : perform p a s with
        | error e =>
          rw [Exec.act_of_error hact]
          exact List.mem_cons_self
        | ok s' =>
          rw [Exec.act_of_ok hact]
          exact List.mem_cons_self

end

-- ---------------------------------------------------------------------------
-- The program
-- ---------------------------------------------------------------------------

def Reached (e : Exec) (s : Table) : Prop :=
  s = createAndPrepDir ∨ ∃ x ∈ e.steps, perform .indexDir x.2 x.1 = .ok s

/-- A run shadows its directory throughout, and comes to its end, if and only if no
file is given the name of another one and there is a slot for each. -/
theorem indexDir_shadow_iff (ops : List Op) (rs : List Rand) :
    ((∀ s, Reached (run ops rs createAndPrepDir) s → Good s) ∧
        ∀ stop, (run ops rs createAndPrepDir).result = .error stop → stop = .starved) ↔
      ∀ x ∈ (run ops rs createAndPrepDir).steps, x.2.Clear .indexDir x.1 := by
  have hseen : ∀ d ∈ createAndPrepDir.dirents, d.seen = 0 := by
    simp [createAndPrepDir, dot, dotDot]
  have hinit := Shadows.good shadows_createAndPrepDir hseen
  rw [← Chain.good_iff (run_chain ops rs _) shadows_createAndPrepDir hseen]
  refine and_congr_left fun _ => ?_
  constructor
  · intro h x hx s hs
    exact h s (.inr ⟨x, hx, hs⟩)
  · rintro h s (rfl | ⟨x, hx, hs⟩)
    · exact hinit
    · exact h x hx s hs

/-- `rand()` returns 0 eight times, and two files are to be called "AAA". -/
theorem sameName_twice : ∃ s,
    (run [.createFiles 2] (List.replicate 8 0) createAndPrepDir).result = .ok (s, []) ∧
    ¬ (live s.dirents).keys.Nodup ∧ (destroyDir s).1 = 1 := by
  refine ⟨_, rfl, ?_, ?_⟩
  · decide
  · rfl

end Ocfs2Test.Dirs.IndexDir
