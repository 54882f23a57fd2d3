import Ocfs2Test.Dirs.DirOps
import Ocfs2Test.Dirs.IndexDir
import Ocfs2Test.Dirs.InlineDirs

/-!
# dir_ops under failing calls

The functions of `dir_ops.c` with whatever the system calls return. The table is
changed before the call is made and not put back, and `create_file` returns a
positive `errno` where `create_files` looks for a negative value.
-/

namespace Ocfs2Test.Dirs.AnyCalls

open Lib Lib.Stdio

/-- `errno` of a call that failed. -/
abbrev Errno := { e : Int // 0 < e }

abbrev Call := Except Errno Unit

def errno : Call → Int
  | .error e => e
  | .ok () => 0

def PATH_MAX : Nat := 4096

def unlinkDirent (call : Call) (i : Nat) (ds : List Dirent) : Except Stop (Int × List Dirent) :=
  match ds[i]?, ds.getLast? with
  | some _, some last =>
    let ds := (ds.set i last).dropLast
    match call with
    | .error _ => .ok (-1, ds)
    | .ok () => .ok (0, ds)
  | _, _ => .error .fault

def createFile (call : Call) (filename : List Char) (ds : List Dirent) :
    Except Stop (Int × List Dirent) :=
  if ds.length < DirOps.MAX_DIRENTS ∧ filename.length ≤ OCFS2_MAX_FILENAME_LEN then
    .ok (errno call, ds ++ [⟨.reg, filename.length, 0, filename⟩])
  else .error .fault

/-- `get_rand_nam` from the `k`-th random number on, and the next one. -/
def getRandNam (least most : Nat) (rand : Nat → Rand) (k : Nat) : List Char × Nat :=
  let namLen := getRand least most (rand k)
  ((List.range namLen).map fun j => IndexDir.randChar (rand (k + 1 + j)), k + 1 + namLen)

def nextName (start : Option (List Char)) (rand : Nat → Rand) (i k : Nat) : List Char × Nat :=
  match start with
  | none => getRandNam 3 OCFS2_MAX_FILENAME_LEN rand k
  | some start => ((start ++ InlineDirs.padded i).take (PATH_MAX - 1), k)

structure Run (α : Type) where
  made : List Call
  result : Except Stop (α × List Dirent)

section
variable (calls : Nat → Call)

/-- The loop of `create_files` with `n` files to go from file `i` on. -/
def createFilesFrom (start : Option (List Char)) (rand : Nat → Rand) :
    Nat → Nat → Nat → List Dirent → Run Int
  | 0, _, _, ds => ⟨[], .ok (0, ds)⟩
  | n + 1, i, k, ds =>
    let next := nextName start rand i k
    match createFile (calls i) next.1 ds with
    | .error e => ⟨[], .error e⟩
    | .ok (ret, ds) =>
      if ret < 0 then ⟨[calls i], .ok (ret, ds)⟩
      else
        let rest := createFilesFrom start rand n (i + 1) next.2 ds
        ⟨calls i :: rest.made, rest.result⟩

def createFiles (start : Option (List Char)) (rand : Nat → Rand) (num : Nat) (ds : List Dirent) :
    Run Int :=
  createFilesFrom calls start rand num 0 0 ds

/-- The loop of `destroy_dir` with the slots below `k` to go and `m` calls made:
what is returned, if the loop is left. -/
def destroySlots : Nat → Nat → List Dirent → Run (Option Int)
  | 0, _, ds => ⟨[], .ok (none, ds)⟩
  | k + 1, m, ds =>
    match ds[k]? with
    | none => ⟨[], .error .fault⟩
    | some d =>
      if d.isDotEntry then destroySlots k m ds
      else
        match unlinkDirent (calls m) k ds with
        | .error e => ⟨[], .error e⟩
        | .ok (ret, ds) =>
          if ret < 0 then ⟨[calls m], .ok (some (errno (calls m)), ds)⟩
          else
            let rest := destroySlots k (m + 1) ds
            ⟨calls m :: rest.made, rest.result⟩

def destroyDir (rmdir : Call) (ds : List Dirent) : Run Int :=
  let loop := destroySlots calls ds.length 0 ds
  match loop.result with
  | .error e => ⟨loop.made, .error e⟩
  | .ok (some ret, ds) => ⟨loop.made, .ok (ret, ds)⟩
  | .ok (none, ds) =>
    match rmdir with
    | .error e => ⟨loop.made, .ok (e, ds)⟩
    | .ok () => ⟨loop.made, .ok (0, [])⟩

end

-- ---------------------------------------------------------------------------
-- Calls on a directory
-- ---------------------------------------------------------------------------

theorem unlinkDirent_dirOps {s : Table} {i : Nat} {d : Dirent} (hd : s.dirents[i]? = some d)
    (e : Errno) :
    DirOps.unlinkDirent i s = match s.dir.unlink d.name with
      | none => (unlinkDirent (.error e) i s.dirents).map fun r => (false, ⟨r.2, s.dir⟩)
      | some dir => (unlinkDirent (.ok ()) i s.dirents).map fun r => (true, ⟨r.2, dir⟩) := by
  have hlast := List.getLast?_eq_some_getLast (List.ne_nil_of_mem (List.mem_of_getElem? hd))
  simp only [DirOps.unlinkDirent, unlinkDirent, hd, hlast]
  cases s.dir.unlink d.name <;> rfl

theorem createFile_dirOps (filename : List Char) (s : Table) (e : Errno) :
    DirOps.createFile filename s = match openFile filename s.dir with
      | none => (createFile (.error e) filename s.dirents).map fun r => (false, ⟨r.2, s.dir⟩)
      | some dir => (createFile (.ok ()) filename s.dirents).map fun r => (true, ⟨r.2, dir⟩) := by
  unfold DirOps.createFile createFile
  split <;> cases openFile filename s.dir <;> rfl

-- ---------------------------------------------------------------------------
-- What a failure leaves
-- ---------------------------------------------------------------------------

def Fails (call : Call) : Prop := ∃ e, call = .error e

theorem errno_ne_zero (h : Fails call) : errno call ≠ 0 := by
  obtain ⟨e, rfl⟩ := h
  exact Int.ne_of_gt e.2

theorem errno_nonneg (call : Call) : 0 ≤ errno call := by
  cases call with
  | error e => exact Int.le_of_lt e.2
  | ok => exact Int.le_refl _

/-- A failing call leaves the table as it was. -/
def Keeps (f : Call → List Dirent → Except Stop (Int × List Dirent)) (call : Call)
    (ds : List Dirent) : Prop :=
  Fails call → ∃ ret, f call ds = .ok (ret, ds)

/-- A failing call makes the function return another value than 0. -/
def Reports (run : Run Int) : Prop :=
  (∃ call ∈ run.made, Fails call) → ∃ ret ds, run.result = .ok (ret, ds) ∧ ret ≠ 0

theorem unlinkDirent_ok (h : unlinkDirent call i ds = .ok (ret, ds')) :
    ds.length = ds'.length + 1 ∧ (ret < 0 ↔ Fails call) := by
  unfold unlinkDirent at h
  split at h
  · next last _ hlast =>
    have hpos := List.length_pos_of_mem (List.mem_of_getLast? hlast)
    have hlen : ds.length = ((ds.set i last).dropLast).length + 1 := by
      rw [List.length_dropLast, List.length_set]
      omega
    cases call with
    | error e =>
      cases h
      exact ⟨hlen, iff_of_true (by decide) ⟨e, rfl⟩⟩
    | ok =>
      cases h
      exact ⟨hlen, iff_of_false (by decide) (by rintro ⟨e, he⟩; cases he)⟩
  · cases h

theorem createFile_ok (h : createFile call filename ds = .ok (ret, ds')) :
    ds'.length = ds.length + 1 ∧ 0 ≤ ret := by
  unfold createFile at h
  split at h
  · cases h
    exact ⟨List.length_append, errno_nonneg call⟩
  · cases h

theorem unlinkDirent_keeps_iff : Keeps (unlinkDirent · i ·) call ds ↔ ¬ Fails call := by
  refine ⟨fun h hfails => ?_, fun hok hfails => absurd hfails hok⟩
  obtain ⟨ret, hrun⟩ := h hfails
  have := (unlinkDirent_ok hrun).1
  omega

theorem createFile_keeps_iff : Keeps (createFile · filename ·) call ds ↔ ¬ Fails call := by
  refine ⟨fun h hfails => ?_, fun hok hfails => absurd hfails hok⟩
  obtain ⟨ret, hrun⟩ := h hfails
  have := (createFile_ok hrun).1
  omega

section
variable {calls : Nat → Call}

/-- No call of `create_file` returns a negative value, so the loop goes on to its
end. -/
theorem createFilesFrom_zero {start : Option (List Char)} {rand : Nat → Rand} {n i k : Nat}
    {ds ds' : List Dirent} {ret : Int}
    (h : (createFilesFrom calls start rand n i k ds).result = .ok (ret, ds')) : ret = 0 := by
  induction n generalizing i k ds with
  | zero =>
    cases h
    rfl
  | succ n ih =>
    rw [createFilesFrom] at h
    dsimp only at h
    split at h
    · cases h
    · next hcreate =>
      rw [if_neg (Int.not_lt.mpr (createFile_ok hcreate).2)] at h
      exact ih h

theorem createFiles_reports_iff {start : Option (List Char)} {rand : Nat → Rand} {num : Nat}
    {ds : List Dirent} :
    Reports (createFiles calls start rand num ds) ↔
      ∀ call ∈ (createFiles calls start rand num ds).made, ¬ Fails call := by
  constructor
  · intro h call hcall hfails
    obtain ⟨ret, ds', hrun, hret⟩ := h ⟨call, hcall, hfails⟩
    exact hret (createFilesFrom_zero hrun)
  · rintro h ⟨call, hcall, hfails⟩
    exact absurd hfails (h call hcall)

theorem destroySlots_reports {k m : Nat} {ds : List Dirent}
    (h : ∃ call ∈ (destroySlots calls k m ds).made, Fails call) :
    ∃ ret ds', (destroySlots calls k m ds).result = .ok (some ret, ds') ∧ ret ≠ 0 := by
  induction k generalizing m ds with
  | zero => simp [destroySlots] at h
  | succ k ih =>
    rw [destroySlots] at h ⊢
    cases hd : ds[k]? with
    | none => simp [hd] at h
    | some d =>
      simp only [hd] at h ⊢
      cases hdot : d.isDotEntry with
      | true =>
        simp only [hdot, if_true] at h
        exact ih h
      | false =>
        simp only [hdot, Bool.false_eq_true, if_false] at h ⊢
        cases hunlink : unlinkDirent (calls m) k ds with
        | error e => simp [hunlink] at h
        | ok result =>
          obtain ⟨ret, ds₁⟩ := result
          have hret := (unlinkDirent_ok hunlink).2
          simp only [hunlink] at h ⊢
          by_cases hfails : Fails (calls m)
          · rw [if_pos (hret.mpr hfails)]
            exact ⟨_, _, rfl, errno_ne_zero hfails⟩
          · rw [if_neg (mt hret.mp hfails)] at h ⊢
            obtain ⟨call, hmem, hcall⟩ := h
            rcases List.mem_cons.mp hmem with rfl | hmem
            · exact absurd hcall hfails
            · exact ih ⟨call, hmem, hcall⟩

theorem destroyDir_reports (rmdir : Call) (ds : List Dirent) : Reports (destroyDir calls rmdir ds) := by
  intro h
  have hmade : (destroyDir calls rmdir ds).made = (destroySlots calls ds.length 0 ds).made := by
    unfold destroyDir
    dsimp only
    split
    · rfl
    · rfl
    · cases rmdir <;> rfl
  rw [hmade] at h
  obtain ⟨ret, ds', hrun, hret⟩ := destroySlots_reports h
  refine ⟨ret, ds', ?_, hret⟩
  simp only [destroyDir, hrun]

end

/-- A failing call of `unlink` or `open` always changes the table, and no failure of
`create_file` is ever reported by `create_files`; `destroy_dir` reports all of its
own. -/
theorem failure_atomic_iff (call rmdir : Call) (calls : Nat → Call) (i num : Nat)
    (filename : List Char) (start : Option (List Char)) (rand : Nat → Rand) (ds : List Dirent) :
    (Keeps (unlinkDirent · i ·) call ds ↔ ¬ Fails call) ∧
    (Keeps (createFile · filename ·) call ds ↔ ¬ Fails call) ∧
    (Reports (createFiles calls start rand num ds) ↔
      ∀ call ∈ (createFiles calls start rand num ds).made, ¬ Fails call) ∧
    Reports (destroyDir calls rmdir ds) :=
  ⟨unlinkDirent_keeps_iff, createFile_keeps_iff, createFiles_reports_iff,
    destroyDir_reports rmdir ds⟩

def noSpace : Call := .error ⟨28, by decide⟩

/-- One file in a full file system: it is in the table, and 0 is returned. -/
theorem createFiles_noSpace :
    Fails noSpace ∧
    (createFiles (fun _ => noSpace) (some ['f']) (fun _ => 0) 1 [dot, dotDot]).made = [noSpace] ∧
    (createFiles (fun _ => noSpace) (some ['f']) (fun _ => 0) 1 [dot, dotDot]).result =
      .ok (0, [dot, dotDot, ⟨.reg, 12, 0, 'f' :: List.replicate 11 '0'⟩]) ∧
    unlinkDirent noSpace 2 [dot, dotDot, ⟨.reg, 1, 0, ['a']⟩] = .ok (-1, [dot, dotDot]) :=
  ⟨⟨_, rfl⟩, by rfl, by rfl, by rfl⟩

end Ocfs2Test.Dirs.AnyCalls
