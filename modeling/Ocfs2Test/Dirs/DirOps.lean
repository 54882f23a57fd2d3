import Ocfs2Test.Lib.Transition
import Ocfs2Test.Dirs.Table

/-!
# The table of libocfs2test

`dir_ops.c` keeps no empty slots: `unlink_dirent` copies the last slot over the one
it frees and shortens the table. `destroy_dir` walks the table from its end while
that happens; as the dots stay in the first two slots, it always finds the last
entry and removes that.
-/

namespace Ocfs2Test.Dirs.DirOps

open Lib

def MAX_DIRENTS : Nat := 40000

/-- `unlink_dirent` of slot `i`: whether `unlink` succeeds, and the table. -/
def unlinkDirent (i : Nat) (s : Table) : Except Stop (Bool × Table) :=
  match s.dirents[i]?, s.dirents.getLast? with
  | some d, some last =>
    let ds := (s.dirents.set i last).dropLast
    match s.dir.unlink d.name with
    | none => .ok (false, ⟨ds, s.dir⟩)
    | some dir => .ok (true, ⟨ds, dir⟩)
  | _, _ => .error .fault

def findMyDirent (name : List Char) (ds : List Dirent) : Option Nat :=
  ds.findIdx? fun d => d.nameLen == name.length && d.name == name

/-- `unlink_dirent_nam`. A name that is not there gives a null pointer. -/
def unlinkDirentNam (name : List Char) (s : Table) : Except Stop (Bool × Table) :=
  match findMyDirent name s.dirents with
  | none => .error .fault
  | some i => unlinkDirent i s

/-- `create_file`: whether `open` succeeds, and the table. -/
def createFile (filename : List Char) (s : Table) : Except Stop (Bool × Table) :=
  if s.dirents.length < MAX_DIRENTS ∧ filename.length ≤ OCFS2_MAX_FILENAME_LEN then
    let ds := s.dirents ++ [⟨.reg, filename.length, 0, filename⟩]
    match openFile filename s.dir with
    | none => .ok (false, ⟨ds, s.dir⟩)
    | some dir => .ok (true, ⟨ds, dir⟩)
  else .error .fault

/-- The loop of `destroy_dir` with the slots below `k` to go, and the names it
unlinks. To read a slot behind the end of the table is a fault. -/
def destroySlots : Nat → Table → Except Stop (Bool × Table × List (List Char))
  | 0, s => .ok (true, s, [])
  | k + 1, s =>
    match s.dirents[k]? with
    | none => .error .fault
    | some d =>
      if d.isDotEntry then destroySlots k s
      else
        match unlinkDirent k s with
        | .error e => .error e
        | .ok (false, s) => .ok (false, s, [d.name])
        | .ok (true, s) =>
          match destroySlots k s with
          | .error e => .error e
          | .ok (ret, s, unlinked) => .ok (ret, s, d.name :: unlinked)

/-- `destroy_dir`: whether it returns 0, what is left and the names it has
unlinked. -/
def destroyDir (s : Table) : Except Stop (Bool × Table × List (List Char)) :=
  match destroySlots s.dirents.length s with
  | .error e => .error e
  | .ok (false, s, unlinked) => .ok (false, s, unlinked)
  | .ok (true, s, unlinked) =>
    match s.dir.rmdir [['.'], ['.', '.']] with
    | none => .ok (false, s, unlinked)
    | some dir => .ok (true, ⟨[], dir⟩, unlinked)

/-- The operations on the table, all calls succeeding. -/
inductive Step : Table → Table → Prop
  | createFile {s s' : Table} {name : List Char} : (∀ d ∈ s.dirents, d.name ≠ name) →
      createFile name s = .ok (true, s') → Step s s'
  | unlinkDirent {s s' : Table} {i : Nat} {d : Dirent} : s.dirents[i]? = some d →
      d.isDotEntry = false → unlinkDirent i s = .ok (true, s') → Step s s'
  | unlinkDirentNam {s s' : Table} {d : Dirent} : d ∈ s.dirents →
      unlinkDirentNam d.name s = .ok (true, s') → Step s s'

def system : System Table where
  Init s := s = createAndPrepDir
  Step := Step

-- ---------------------------------------------------------------------------
-- The invariant
-- ---------------------------------------------------------------------------

def entry (d : Dirent) : Entry (List Char) := ⟨d.name, d.type⟩

structure FileSlot (d : Dirent) : Prop where
  type : d.type = .reg
  len : d.nameLen = d.name.length
  noDot : d.name ≠ ['.']
  noDotDot : d.name ≠ ['.', '.']

/-- The dots come first, then files; all of them are the listing. -/
structure Inv (s : Table) (files : List Dirent) : Prop where
  dirents : s.dirents = dot :: dotDot :: files
  files : ∀ d ∈ files, FileSlot d
  lists : s.dir.Lists (s.dirents.map entry)

section
variable {s s' : Table} {files : List Dirent} {d : Dirent} {i : Nat} {name : List Char}

theorem FileSlot.isDotEntry (h : FileSlot d) : d.isDotEntry = false := by
  obtain ⟨type, nameLen, seen, name⟩ := d
  obtain ⟨-, hlen, hdot, hdotDot⟩ := h
  dsimp only at hlen hdot hdotDot
  subst hlen
  match name with
  | [] => rfl
  | [c] => simpa [Dirent.isDotEntry] using hdot
  | [c, c'] => simpa [Dirent.isDotEntry] using hdotDot
  | _ :: _ :: _ :: _ => simp [Dirent.isDotEntry]

theorem set_getLast_perm {α : Type} {l : List α} {x : α} (hi : i < l.length) (hx : l.getLast? = some x) :
    ((l.set i x).dropLast).Perm (l.eraseIdx i) := by
  obtain ⟨l, rfl⟩ := List.getLast?_eq_some_iff.mp hx
  rw [List.length_append, List.length_singleton] at hi
  rcases Nat.lt_succ_iff_lt_or_eq.mp hi with hlt | rfl
  · rw [List.set_append_left _ _ hlt, List.dropLast_concat, List.eraseIdx_append_of_lt_length hlt]
    exact (List.set_perm_cons_eraseIdx hlt x).trans (List.perm_append_singleton _ _).symm
  · rw [List.set_append_right _ _ (Nat.le_refl _), List.eraseIdx_append_of_length_le (Nat.le_refl _)]
    simp

theorem inv_init : Inv createAndPrepDir [] := ⟨rfl, by simp, List.Perm.refl _⟩

theorem Inv.file_of_getElem (h : Inv s files) (hi : s.dirents[i]? = some d) (hdot : d.isDotEntry = false) :
    ∃ j, i = j + 2 ∧ files[j]? = some d := by
  rw [h.dirents] at hi
  match i with
  | 0 =>
    cases hi
    simp [Dirent.isDotEntry, dot] at hdot
  | 1 =>
    cases hi
    simp [Dirent.isDotEntry, dotDot] at hdot
  | j + 2 => exact ⟨j, rfl, hi⟩

theorem Inv.file_lists {j : Nat} (h : Inv s files) (hj : files[j]? = some d) :
    s.dir.Lists (⟨d.name, .reg⟩ :: (dot :: dotDot :: files.eraseIdx j).map entry) := by
  obtain ⟨hlt, rfl⟩ := List.getElem?_eq_some_iff.mp hj
  have hp := (List.getElem_cons_eraseIdx_perm (l := s.dirents) (n := j + 2)
    (by rw [h.dirents]; simpa using hlt)).map entry
  simp only [h.dirents, List.getElem_cons_succ, List.eraseIdx_cons_succ, List.map_cons] at hp
  have hentry : entry files[j] = ⟨files[j].name, .reg⟩ :=
    congrArg (Sigma.mk _) (h.files _ (List.getElem_mem hlt)).type
  rw [hentry] at hp
  refine h.lists.perm ?_
  rw [h.dirents]
  exact hp

theorem Inv.unlinkDirent {j : Nat} {last : Dirent} (h : Inv s files) (hj : files[j]? = some d)
    (hlast : files.getLast? = some last) :
    ∃ s', unlinkDirent (j + 2) s = .ok (true, s') ∧ Inv s' (files.set j last).dropLast := by
  have hlt := (List.getElem?_eq_some_iff.mp hj).1
  have hne : files.set j last ≠ [] := by
    rw [← List.length_pos_iff, List.length_set]
    omega
  have hperm := set_getLast_perm hlt hlast
  obtain ⟨dir, hunlink, hlists⟩ := (h.file_lists hj).unlink
  have hds : (s.dirents.set (j + 2) last).dropLast = dot :: dotDot :: (files.set j last).dropLast := by
    rw [h.dirents, List.set_cons_succ, List.set_cons_succ, List.dropLast_cons_of_ne_nil (by simp),
      List.dropLast_cons_of_ne_nil hne]
  refine ⟨⟨dot :: dotDot :: (files.set j last).dropLast, dir⟩, ?_, rfl, ?_, ?_⟩
  · have hd : s.dirents[j + 2]? = some d := by
      rw [h.dirents]
      exact hj
    have hend : s.dirents.getLast? = some last := by
      rw [h.dirents, List.getLast?_cons_cons, List.getLast?_cons, hlast]
      rfl
    simp only [DirOps.unlinkDirent, hd, hend, hunlink, hds]
  · intro e he
    exact h.files e (List.mem_of_mem_eraseIdx (hperm.mem_iff.mp he))
  · exact hlists.perm (((hperm.cons dotDot).cons dot).map entry)

theorem unlinkDirent_eq (h : DirOps.unlinkDirent i s = .ok (true, s')) :
    ∃ d dir, s.dirents[i]? = some d ∧ s.dir.unlink d.name = some dir := by
  unfold DirOps.unlinkDirent at h
  split at h
  · next d last hd _ =>
    cases hunlink : s.dir.unlink d.name with
    | none => simp [hunlink] at h
    | some dir => exact ⟨d, dir, hd, hunlink⟩
  · cases h

theorem Inv.unlinkDirent_inv (h : Inv s files) (hrun : DirOps.unlinkDirent i s = .ok (true, s')) :
    ∃ files', Inv s' files' := by
  obtain ⟨d, dir, hd, hunlink⟩ := unlinkDirent_eq hrun
  have hlookup : s.dir.lookup d.name = some d.type :=
    h.lists.mem_iff.mp (List.mem_map_of_mem (f := entry) (List.mem_of_getElem? hd))
  have hdot : d.isDotEntry = false := by
    rw [Directory.unlink, hlookup] at hunlink
    rcases List.mem_cons.mp (h.dirents ▸ List.mem_of_getElem? hd) with rfl | hmem
    · cases hunlink
    · rcases List.mem_cons.mp hmem with rfl | hmem
      · cases hunlink
      · exact (h.files d hmem).isDotEntry
  obtain ⟨j, rfl, hj⟩ := h.file_of_getElem hd hdot
  have hne : files ≠ [] := by
    rintro rfl
    cases hj
  obtain ⟨s₁, hrun₁, hinv⟩ := h.unlinkDirent hj (List.getLast?_eq_some_getLast hne)
  cases hrun.symm.trans hrun₁
  exact ⟨_, hinv⟩

theorem Inv.createFile_inv (h : Inv s files) (hname : ∀ d ∈ s.dirents, d.name ≠ name)
    (hrun : createFile name s = .ok (true, s')) : ∃ files', Inv s' files' := by
  have hfresh : name ∉ (s.dirents.map entry).keys := by
    intro hmem
    obtain ⟨e, he, rfl⟩ := List.mem_map.mp hmem
    obtain ⟨d, hd, rfl⟩ := List.mem_map.mp he
    exact hname d hd rfl
  obtain ⟨dir, hcreat, hlists⟩ := h.lists.creat hfresh
  unfold createFile openFile at hrun
  split at hrun
  · split at hrun
    · cases hrun
    · next dir' hopen =>
      cases hrun
      split at hopen
      · cases hcreat.symm.trans hopen
        refine ⟨files ++ [⟨.reg, name.length, 0, name⟩], ?_, ?_, ?_⟩
        · simp [h.dirents]
        · rw [List.forall_mem_append, List.forall_mem_singleton]
          refine ⟨h.files, rfl, rfl, ?_, ?_⟩
          · exact Ne.symm (hname dot (by simp [h.dirents]))
          · exact Ne.symm (hname dotDot (by simp [h.dirents]))
        · rw [List.map_append]
          exact hlists.perm (List.perm_append_singleton _ _)
      · cases hopen
  · cases hrun

theorem Inv.step (h : Inv s files) (hstep : Step s s') : ∃ files', Inv s' files' := by
  cases hstep with
  | createFile hname hrun => exact h.createFile_inv hname hrun
  | unlinkDirent _ _ hrun => exact h.unlinkDirent_inv hrun
  | unlinkDirentNam _ hrun =>
    unfold unlinkDirentNam at hrun
    split at hrun
    · cases hrun
    · exact h.unlinkDirent_inv hrun

-- ---------------------------------------------------------------------------
-- destroy_dir
-- ---------------------------------------------------------------------------

theorem Inv.destroySlots (h : Inv s files) :
    ∃ s', destroySlots (files.length + 2) s = .ok (true, s', (files.map Dirent.name).reverse) ∧
      Inv s' [] := by
  induction files using List.reverseRecOn generalizing s with
  | nil =>
    refine ⟨s, ?_, h⟩
    simp [DirOps.destroySlots, h.dirents, dot, dotDot, Dirent.isDotEntry]
  | append_singleton files d ih =>
    have hd : (files ++ [d])[files.length]? = some d := by simp
    have hslot : s.dirents[files.length + 2]? = some d := by
      rw [h.dirents]
      exact hd
    have hset : ((files ++ [d]).set files.length d).dropLast = files := by
      rw [List.set_append_right _ _ (Nat.le_refl _)]
      simp
    obtain ⟨s₁, hrun, hinv⟩ := h.unlinkDirent hd (List.getLast?_concat ..)
    rw [hset] at hinv
    obtain ⟨s', hrest, hinv'⟩ := ih hinv
    refine ⟨s', ?_, hinv'⟩
    have hdot := (h.files d (by simp)).isDotEntry
    rw [List.length_append, List.length_singleton, Nat.add_right_comm, DirOps.destroySlots]
    simp only [hslot, hdot, Bool.false_eq_true, if_false, hrun, hrest]
    simp

theorem Inv.destroyDir (h : Inv s files) :
    destroyDir s = .ok (true, ⟨[], ∅⟩, (files.map Dirent.name).reverse) := by
  obtain ⟨s', hrun, hinv⟩ := h.destroySlots
  have hlen : s.dirents.length = files.length + 2 := by rw [h.dirents]; rfl
  have hrmdir : s'.dir.rmdir [['.'], ['.', '.']] = some ∅ := by
    refine hinv.lists.rmdir ?_
    rw [hinv.dirents]
    decide
  simp only [DirOps.destroyDir, hlen, hrun, hrmdir]

theorem reachable_inv (h : system.Reachable s) : ∃ files, Inv s files := by
  refine h.invariant (P := fun s => ∃ files, Inv s files) ?_ ?_
  · rintro s rfl
    exact ⟨[], inv_init⟩
  · rintro s s' - ⟨files, hinv⟩ hstep
    exact hinv.step hstep

end

/-- The table is the listing of the directory, without a repeated name, and
`destroy_dir` unlinks every file of it once, removes the directory and returns 0. -/
theorem dirOps_shadow (s : Table) (h : system.Reachable s) :
    ((s.dirents.map Dirent.name).Nodup ∧ dot ∈ s.dirents ∧ dotDot ∈ s.dirents ∧
      s.dir.Lists (s.dirents.map entry)) ∧
    ∃ unlinked, destroyDir s = .ok (true, ⟨[], ∅⟩, unlinked) ∧
      unlinked.Perm ((s.dirents.filter fun d => !d.isDotEntry).map Dirent.name) := by
  obtain ⟨files, hinv⟩ := reachable_inv h
  have hnames : s.dirents.map Dirent.name = (s.dirents.map entry).keys := by
    rw [List.keys, List.map_map]
    rfl
  have hfiles : s.dirents.filter (fun d => !d.isDotEntry) = files := by
    have hall : files.filter (fun d => !d.isDotEntry) = files :=
      List.filter_eq_self.mpr fun d hd => by rw [(hinv.files d hd).isDotEntry]; rfl
    rw [hinv.dirents, List.filter_cons_of_neg (by decide), List.filter_cons_of_neg (by decide), hall]
  refine ⟨⟨?_, ?_, ?_, hinv.lists⟩, _, hinv.destroyDir, ?_⟩
  · rw [hnames]
    exact hinv.lists.nodup
  · simp [hinv.dirents]
  · simp [hinv.dirents]
  · rw [hfiles]
    exact List.reverse_perm _

/-- Three files are created, the first is unlinked and the last takes its slot. -/
theorem dirOps_shadow_threeFiles : ∃ s, system.Reachable s ∧ s.dirents.length = 4 ∧
    ((s.dirents.map Dirent.name).Nodup ∧ dot ∈ s.dirents ∧ dotDot ∈ s.dirents ∧
      s.dir.Lists (s.dirents.map entry)) ∧
    ∃ unlinked, destroyDir s = .ok (true, ⟨[], ∅⟩, unlinked) ∧
      unlinked.Perm ((s.dirents.filter fun d => !d.isDotEntry).map Dirent.name) := by
  have h : system.Reachable createAndPrepDir := .init rfl
  have h := h.step (@Step.createFile _ _ ['a'] (by decide) rfl)
  have h := h.step (@Step.createFile _ _ ['b'] (by decide) rfl)
  have h := h.step (@Step.createFile _ _ ['c'] (by decide) rfl)
  have h := h.step (Step.unlinkDirent (i := 2) rfl rfl rfl)
  exact ⟨_, h, rfl, dirOps_shadow _ h⟩

end Ocfs2Test.Dirs.DirOps
