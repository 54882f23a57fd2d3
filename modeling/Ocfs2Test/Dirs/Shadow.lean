import Ocfs2Test.Dirs.Table

/-!
# When the table shadows the directory

`Shadows` says that the live slots are a listing of the directory. An act that
finds no other file of its new name keeps that (`perform_clear`); a run is a chain
of acts; and on a table that shadows its directory `verify_dirents` finds nothing.
-/

namespace Ocfs2Test.Dirs

open Lib Lib.Stdio

-- ---------------------------------------------------------------------------
-- What the table says of the directory
-- ---------------------------------------------------------------------------

def Dirent.listed (d : Dirent) : Option (Entry (List Char)) :=
  if d.nameLen = 0 then none else some ⟨d.name, d.type⟩

/-- The entries that the table takes to be there. -/
def live (ds : List Dirent) : List (Entry (List Char)) := ds.filterMap Dirent.listed

/-- A slot is one of the dots, or a file that is there or not. -/
inductive Dirent.Ok : Dirent → Prop
  | dot {seen : Nat} : Dirent.Ok ⟨.dir, 1, seen, ['.']⟩
  | dotDot {seen : Nat} : Dirent.Ok ⟨.dir, 2, seen, ['.', '.']⟩
  | file {nameLen seen : Nat} {name : List Char} : isName name = true → 3 ≤ name.length →
      nameLen = 0 ∨ nameLen = name.length → Dirent.Ok ⟨.reg, nameLen, seen, name⟩

structure Shadows (s : Table) : Prop where
  ok : ∀ d ∈ s.dirents, d.Ok
  lists : s.dir.Lists (live s.dirents)

theorem shadows_createAndPrepDir : Shadows createAndPrepDir where
  ok d hd := by
    simp only [createAndPrepDir, List.mem_cons, List.not_mem_nil, or_false] at hd
    rcases hd with rfl | rfl
    · exact .dot
    · exact .dotDot
  lists := List.Perm.refl _

section
variable {p : Program} {s s' : Table} {a : Act} {ds : List Dirent} {d d' : Dirent} {i j : Nat}
  {name : List Char}

theorem live_perm (h : ds[i]? = some d) : (live ds).Perm (d.listed.toList ++ live (ds.eraseIdx i)) := by
  obtain ⟨hi, rfl⟩ := List.getElem?_eq_some_iff.mp h
  have hp := (List.getElem_cons_eraseIdx_perm hi).symm.filterMap Dirent.listed
  rw [List.filterMap_cons] at hp
  cases he : ds[i].listed with
  | none => simpa [he, live] using hp
  | some e => simpa [he, live] using hp

theorem live_set_perm (h : ds[i]? = some d) (d' : Dirent) :
    (live (ds.set i d')).Perm (d'.listed.toList ++ live (ds.eraseIdx i)) := by
  obtain ⟨hi, -⟩ := List.getElem?_eq_some_iff.mp h
  have hp := (List.set_perm_cons_eraseIdx hi d').filterMap Dirent.listed
  rw [List.filterMap_cons] at hp
  cases he : d'.listed with
  | none => simpa [he, live] using hp
  | some e => simpa [he, live] using hp

theorem Dirent.Ok.isDotEntry_file {nameLen seen : Nat} (hlen : 3 ≤ name.length)
    (h : nameLen = 0 ∨ nameLen = name.length) :
    (Dirent.mk .reg nameLen seen name).isDotEntry = false := by
  have h₁ : nameLen ≠ 1 := by omega
  have h₂ : nameLen ≠ 2 := by omega
  simp [Dirent.isDotEntry, h₁, h₂]

theorem Dirent.Ok.of_not_dot (h : d.Ok) (hdot : d.isDotEntry = false) :
    d.type = .reg ∧ isName d.name = true ∧ 3 ≤ d.name.length ∧
      (d.nameLen = 0 ∨ d.nameLen = d.name.length) := by
  cases h with
  | dot => simp [Dirent.isDotEntry] at hdot
  | dotDot => simp [Dirent.isDotEntry] at hdot
  | file hname hlen hor => exact ⟨rfl, hname, hlen, hor⟩

theorem Dirent.Ok.name_of_dot (h : d.Ok) (hdot : d.isDotEntry = true) :
    d.name ∈ [['.'], ['.', '.']] := by
  cases h with
  | dot => simp
  | dotDot => simp
  | file _ hlen hor => simp [isDotEntry_file hlen hor] at hdot

theorem ok_set (h : ∀ d ∈ ds, d.Ok) (hd : d.Ok) : ∀ d' ∈ ds.set i d, d'.Ok := by
  intro d' hd'
  rcases List.mem_or_eq_of_mem_set hd' with hmem | rfl
  · exact h d' hmem
  · exact hd

-- ---------------------------------------------------------------------------
-- One act
-- ---------------------------------------------------------------------------

def Table.File (s : Table) (i : Nat) (d : Dirent) : Prop :=
  s.dirents[i]? = some d ∧ d.isDotEntry = false

/-- What the loops make sure of before an act. -/
def Act.Allowed (s : Table) : Act → Prop
  | .create name => isName name = true ∧ 3 ≤ name.length
  | .unlink i => ∃ d, s.File i d ∧ d.nameLen ≠ 0
  | .fill i => ∃ d, s.File i d ∧ d.nameLen = 0
  | .rename i => ∃ d, s.File i d ∧ d.nameLen ≠ 0
  | .deletingRename i j =>
    i ≠ j ∧ ∃ d₁ d₂, s.File i d₁ ∧ s.File j d₂ ∧ d₁.nameLen ≠ 0 ∧ d₂.nameLen ≠ 0

/-- A new entry has a slot, and no other entry has its name. -/
def Act.Clear (p : Program) (s : Table) : Act → Prop
  | .create name => s.dirents.length < p.maxDirents ∧ name ∉ (live s.dirents).keys
  | .fill i => ∀ d, s.dirents[i]? = some d → d.name ∉ (live (s.dirents.eraseIdx i)).keys
  | .rename i => ∀ d, s.dirents[i]? = some d →
      'R' :: d.name.tail ∉ (live (s.dirents.eraseIdx i)).keys
  | .unlink _ => True
  | .deletingRename _ _ => True

def Act.created : Act → List (List Char)
  | .create name => [name]
  | _ => []

structure Follows (a : Act) (s s' : Table) : Prop where
  shadows : Shadows s'
  tails : s'.dirents.map (·.name.tail) = s.dirents.map (·.name.tail) ++ a.created.map List.tail
  seen : (∀ d ∈ s.dirents, d.seen = 0) → ∀ d ∈ s'.dirents, d.seen = 0

theorem tails_set (h : ds[i]? = some d) (htail : d'.name.tail = d.name.tail) :
    (ds.set i d').map (·.name.tail) = ds.map (·.name.tail) := by
  obtain ⟨hi, rfl⟩ := List.getElem?_eq_some_iff.mp h
  rw [List.map_set, htail]
  have hi' : i < (ds.map (·.name.tail)).length := by rwa [List.length_map]
  have hself := List.set_getElem_self hi'
  rwa [List.getElem_map] at hself

theorem Table.File.ok (h : s.File i d) (hs : Shadows s) :
    d.type = .reg ∧ isName d.name = true ∧ 3 ≤ d.name.length ∧
      (d.nameLen = 0 ∨ d.nameLen = d.name.length) :=
  (hs.ok d (List.mem_of_getElem? h.1)).of_not_dot h.2

theorem Table.File.lists (h : s.File i d) (hs : Shadows s) (hlive : d.nameLen ≠ 0) :
    s.dir.Lists (⟨d.name, .reg⟩ :: live (s.dirents.eraseIdx i)) := by
  have hp := live_perm h.1
  rw [Dirent.listed, if_neg hlive, (h.ok hs).1] at hp
  exact hs.lists.perm hp.symm

theorem Table.File.lists_empty (h : s.File i d) (hs : Shadows s) (hempty : d.nameLen = 0) :
    s.dir.Lists (live (s.dirents.eraseIdx i)) := by
  have hp := live_perm h.1
  rw [Dirent.listed, if_pos hempty] at hp
  exact hs.lists.perm hp.symm

theorem isName_iff : isName name = true ↔
    (name ≠ [] ∧ name.length ≤ OCFS2_MAX_FILENAME_LEN) ∧ '/' ∉ name ∧ '\x00' ∉ name := by
  simp [isName, and_assoc]

theorem isName_rename (h : isName name = true) : isName ('R' :: name.tail) = true := by
  rw [isName_iff] at h ⊢
  obtain ⟨⟨hne, hlen⟩, hslash, hnul⟩ := h
  have hpos := List.length_pos_iff.mpr hne
  refine ⟨⟨List.cons_ne_nil _ _, ?_⟩, ?_, ?_⟩
  · rw [List.length_cons, List.length_tail]
    omega
  · exact List.not_mem_cons_of_ne_of_not_mem (by decide) (mt List.mem_of_mem_tail hslash)
  · exact List.not_mem_cons_of_ne_of_not_mem (by decide) (mt List.mem_of_mem_tail hnul)

theorem Follows.set {dir : Directory (List Char)} (hs : Shadows s) (hi : s.dirents[i]? = some d)
    (hok : d'.Ok) (htail : d'.name.tail = d.name.tail) (hseen : d.seen = 0 → d'.seen = 0)
    (hcreated : a.created = [])
    (hlists : dir.Lists (d'.listed.toList ++ live (s.dirents.eraseIdx i))) :
    Follows a s ⟨s.dirents.set i d', dir⟩ where
  shadows := ⟨ok_set hs.ok hok, hlists.perm (live_set_perm hi d')⟩
  tails := by
    rw [hcreated, List.map_nil, List.append_nil]
    exact tails_set hi htail
  seen h := by
    intro e he
    rcases List.mem_or_eq_of_mem_set he with hmem | rfl
    · exact h e hmem
    · exact hseen (h d (List.mem_of_getElem? hi))

theorem perform_create (hs : Shadows s) (ha : (Act.create name).Allowed s)
    (hc : (Act.create name).Clear p s) :
    ∃ s', perform p (.create name) s = .ok s' ∧ Follows (.create name) s s' := by
  obtain ⟨hname, hlen⟩ := ha
  obtain ⟨hslot, hfresh⟩ := hc
  obtain ⟨dir, hopen, hlists⟩ := hs.lists.creat hfresh
  have hmax := (isName_iff.mp hname).1.2
  have hne : name.length ≠ 0 := by omega
  refine ⟨⟨s.dirents ++ [⟨.reg, name.length, 0, name⟩], dir⟩, ?_, ⟨?_, ?_⟩, ?_, ?_⟩
  · rw [perform, createFile, if_pos ⟨hslot, hmax⟩, openFile, if_pos hname, hopen]
  · rw [List.forall_mem_append, List.forall_mem_singleton]
    exact ⟨hs.ok, .file hname hlen (.inr rfl)⟩
  · refine hlists.perm ?_
    simp only [live, List.filterMap_append, List.filterMap_cons, List.filterMap_nil, Dirent.listed,
      if_neg hne]
    exact List.perm_append_singleton _ _
  · simp [Act.created]
  · intro hseen
    rw [List.forall_mem_append, List.forall_mem_singleton]
    exact ⟨hseen, rfl⟩

theorem perform_unlink (hs : Shadows s) (ha : (Act.unlink i).Allowed s) :
    ∃ s', perform p (.unlink i) s = .ok s' ∧ Follows (.unlink i) s s' := by
  obtain ⟨d, hfile, hlive⟩ := ha
  obtain ⟨htype, hname, hlen, -⟩ := hfile.ok hs
  obtain ⟨dir, hunlink, hlists⟩ := (hfile.lists hs hlive).unlink
  have hok (seen : Nat) : Dirent.Ok { d with nameLen := 0, seen := seen } := by
    rw [htype]
    exact .file hname hlen (.inl rfl)
  cases p with
  | inlineDirs =>
    refine ⟨_, ?_, Follows.set hs hfile.1 (hok d.seen) rfl id rfl hlists⟩
    simp only [perform, unlinkEntry, hfile.1, hunlink]
  | indexDir =>
    refine ⟨_, ?_, Follows.set hs hfile.1 (hok 0) rfl (fun _ => rfl) rfl hlists⟩
    simp only [perform, unlinkEntry, hfile.1, hunlink, Option.getD_some]

theorem perform_fill (hs : Shadows s) (ha : (Act.fill i).Allowed s) (hc : (Act.fill i).Clear p s) :
    ∃ s', perform p (.fill i) s = .ok s' ∧ Follows (.fill i) s s' := by
  obtain ⟨d, hfile, hempty⟩ := ha
  obtain ⟨-, hname, hlen, -⟩ := hfile.ok hs
  obtain ⟨dir, hopen, hlists⟩ := (hfile.lists_empty hs hempty).creat (hc d hfile.1)
  have hne : d.name.length ≠ 0 := by omega
  refine ⟨⟨s.dirents.set i ⟨.reg, d.name.length, 0, d.name⟩, dir⟩, ?_,
    Follows.set hs hfile.1 (.file hname hlen (.inr rfl)) rfl (fun _ => rfl) rfl ?_⟩
  · simp only [perform, fillEntry, hfile.1, openFile, if_pos hname, hopen]
  · rw [Dirent.listed, if_neg hne]
    exact hlists

theorem perform_rename (hs : Shadows s) (ha : (Act.rename i).Allowed s)
    (hc : (Act.rename i).Clear p s) :
    ∃ s', perform p (.rename i) s = .ok s' ∧ Follows (.rename i) s s' := by
  obtain ⟨d, hfile, hlive⟩ := ha
  obtain ⟨htype, hname, hlen, hlens⟩ := hfile.ok hs
  obtain ⟨dir, hrename, hlists⟩ := (hfile.lists hs hlive).rename (hc d hfile.1)
  have hlength : ('R' :: d.name.tail).length = d.name.length := by
    rw [List.length_cons, List.length_tail]
    omega
  refine ⟨⟨s.dirents.set i { d with name := 'R' :: d.name.tail }, dir⟩, ?_,
    Follows.set hs hfile.1 ?_ rfl id rfl ?_⟩
  · simp only [perform, renameEntry, hfile.1, hrename]
  · rw [htype]
    exact .file (isName_rename hname) (hlength ▸ hlen) (hlength ▸ hlens)
  · rw [Dirent.listed, if_neg hlive, htype]
    exact hlists

theorem perform_deletingRename (hs : Shadows s) (ha : (Act.deletingRename i j).Allowed s) :
    ∃ s', perform p (.deletingRename i j) s = .ok s' ∧ Follows (.deletingRename i j) s s' := by
  obtain ⟨hij, d₁, d₂, hfile₁, hfile₂, hlive₁, hlive₂⟩ := ha
  obtain ⟨htype₁, hname, hlen, -⟩ := hfile₁.ok hs
  have htype₂ := (hfile₂.ok hs).1
  have hmem : ⟨d₂.name, .reg⟩ ∈ live (s.dirents.eraseIdx i) := by
    refine List.mem_filterMap.mpr ⟨d₂, ?_, ?_⟩
    · exact List.mem_eraseIdx_iff_getElem?.mpr ⟨j, Ne.symm hij, hfile₂.1⟩
    · rw [Dirent.listed, if_neg hlive₂, htype₂]
  have hp := List.perm_cons_erase hmem
  obtain ⟨dir, hrename, hlists⟩ := ((hfile₁.lists hs hlive₁).perm (hp.symm.cons _)).rename_over
  have hkeep : s.dirents.set j { d₂ with type := d₁.type } = s.dirents := by
    obtain ⟨hj, rfl⟩ := List.getElem?_eq_some_iff.mp hfile₂.1
    rw [htype₁, ← htype₂]
    exact List.set_getElem_self hj
  refine ⟨⟨s.dirents.set i { d₁ with nameLen := 0 }, dir⟩, ?_,
    Follows.set hs hfile₁.1 ?_ rfl id rfl (hlists.perm hp)⟩
  · simp only [perform, deletingRenameEntry, hfile₁.1, hfile₂.1, hrename, hkeep]
  · rw [htype₁]
    exact .file hname hlen (.inl rfl)

theorem perform_clear (hs : Shadows s) (ha : a.Allowed s) (hc : a.Clear p s) :
    ∃ s', perform p a s = .ok s' ∧ Follows a s s' := by
  cases a with
  | create name => exact perform_create hs ha hc
  | unlink i => exact perform_unlink hs ha
  | fill i => exact perform_fill hs ha hc
  | rename i => exact perform_rename hs ha hc
  | deletingRename i j => exact perform_deletingRename hs ha

-- ---------------------------------------------------------------------------
-- Runs, act by act
-- ---------------------------------------------------------------------------

/-- Every act of the run is allowed where it is done. -/
inductive Chain (p : Program) : Table → Exec → Prop
  | done {s : Table} {rs : List Rand} : Chain p s { result := .ok (s, rs) }
  | starved {s : Table} : Chain p s { result := .error .starved }
  | act {s : Table} {a : Act} {rest : Table → Exec} : a.Allowed s →
      (∀ s', perform p a s = .ok s' → Chain p s' (rest s')) → Chain p s (.act p a s rest)

def Exec.created (e : Exec) : List (List Char) := e.steps.flatMap fun x => x.2.created

theorem Exec.act_of_ok {rest : Table → Exec} (h : perform p a s = .ok s') :
    Exec.act p a s rest = ⟨(s, a) :: (rest s').steps, (rest s').result⟩ := by
  rw [Exec.act, h]

theorem Exec.act_of_error {rest : Table → Exec} {e : Stop} (h : perform p a s = .error e) :
    Exec.act p a s rest = ⟨[(s, a)], .error e⟩ := by
  rw [Exec.act, h]

theorem Exec.andThen_act {rest : Table → Exec} {next : Table → List Rand → Exec} :
    (Exec.act p a s rest).andThen next = .act p a s fun s' => (rest s').andThen next := by
  unfold Exec.act
  cases perform p a s with
  | error e => rfl
  | ok s' =>
    simp only [Exec.andThen]
    obtain ⟨steps, result⟩ := rest s'
    cases result <;> rfl

theorem Chain.andThen {e : Exec} {next : Table → List Rand → Exec} (h : Chain p s e)
    (hnext : ∀ s' rs, Chain p s' (next s' rs)) : Chain p s (e.andThen next) := by
  induction h with
  | done => exact hnext _ _
  | starved => exact .starved
  | act ha _ ih =>
    rw [Exec.andThen_act]
    exact .act ha ih

theorem pickLive_eq {f : Nat → Act} (h : pickLive f i s = some a) :
    a = f i ∧ ∃ d, s.File i d ∧ d.nameLen ≠ 0 := by
  unfold pickLive at h
  split at h
  · cases h
  · next d hd =>
    split at h
    · cases h
    · next hnot =>
      cases h
      rw [not_or, Bool.not_eq_true] at hnot
      exact ⟨rfl, d, ⟨hd, hnot.1⟩, hnot.2⟩

theorem pickEmpty_eq (h : pickEmpty i s = some a) : a = .fill i ∧ ∃ d, s.File i d ∧ d.nameLen = 0 := by
  unfold pickEmpty at h
  split at h
  · cases h
  · next d hd =>
    split at h
    · cases h
    · next hnot =>
      cases h
      rw [not_or, Bool.not_eq_true, Nat.not_lt, Nat.le_zero] at hnot
      exact ⟨rfl, d, ⟨hd, hnot.1⟩, hnot.2⟩

theorem pickTwo_allowed (h : pickTwo i j s = some a) : a.Allowed s ∧ a.created = [] := by
  unfold pickTwo at h
  split at h
  · next d₁ d₂ h₁ h₂ =>
    split_ifs at h with hij hdot hlive
    cases h
    rw [not_or, Bool.not_eq_true, Bool.not_eq_true] at hdot
    rw [not_or] at hlive
    exact ⟨⟨hij, d₁, d₂, ⟨h₁, hdot.1⟩, ⟨h₂, hdot.2⟩, hlive.1, hlive.2⟩, rfl⟩
  · cases h

/-- An index that is drawn gives an allowed act and no new name. -/
def Picks (pick : Nat → Table → Option Act) : Prop :=
  ∀ i s a, pick i s = some a → a.Allowed s ∧ a.created = []

theorem picks_unlink : Picks (pickLive .unlink) := by
  intro i s a h
  obtain ⟨rfl, hd⟩ := pickLive_eq h
  exact ⟨hd, rfl⟩

theorem picks_rename : Picks (pickLive .rename) := by
  intro i s a h
  obtain ⟨rfl, hd⟩ := pickLive_eq h
  exact ⟨hd, rfl⟩

theorem picks_fill : Picks pickEmpty := by
  intro i s a h
  obtain ⟨rfl, hd⟩ := pickEmpty_eq h
  exact ⟨hd, rfl⟩

theorem Exec.created_act {rest : Table → Exec} (ha : a.created = []) (h : ∀ s', (rest s').created = []) :
    (Exec.act p a s rest).created = [] := by
  unfold Exec.act
  cases perform p a s with
  | error e => simp [Exec.created, ha]
  | ok s' =>
    have hrest := h s'
    simp only [Exec.created] at hrest
    simp [Exec.created, ha, hrest]

-- ---------------------------------------------------------------------------
-- verify_dirents
-- ---------------------------------------------------------------------------

theorem findMyDirent_congr {ds ds' : List Dirent} (h : ds'.map Dirent.unseen = ds.map Dirent.unseen) :
    findMyDirent name ds' = findMyDirent name ds := by
  have hmap (l : List Dirent) : findMyDirent name l = findMyDirent name (l.map Dirent.unseen) := by
    rw [findMyDirent, findMyDirent, List.findIdx?_map]
    rfl
  rw [hmap ds', h, ← hmap]

theorem findMyDirent_name (h : findMyDirent name ds = some i) (hi : ds[i]? = some d) : d.name = name := by
  obtain ⟨hlt, hp, -⟩ := List.findIdx?_eq_some_iff_getElem.mp h
  obtain ⟨-, rfl⟩ := List.getElem?_eq_some_iff.mp hi
  simp only [Bool.and_eq_true, beq_iff_eq] at hp
  exact hp.2.2

theorem unseen_set (h : ds[i]? = some d) (hd : d'.unseen = d.unseen) :
    (ds.set i d').map Dirent.unseen = ds.map Dirent.unseen := by
  obtain ⟨hi, rfl⟩ := List.getElem?_eq_some_iff.mp h
  have hi' : i < (ds.map Dirent.unseen).length := by rwa [List.length_map]
  have hself := List.set_getElem_self hi'
  rw [List.map_set, hd]
  rwa [List.getElem_map] at hself

/-- The loop over a listing marks the slots it finds and changes nothing else. -/
theorem verifyListing_marks {es : List (Entry (List Char))} (hnodup : es.keys.Nodup)
    (hfind : ∀ e ∈ es, ∃ i d, findMyDirent e.1 ds = some i ∧ ds[i]? = some d ∧ d.type = e.2 ∧
      d.seen = 0) :
    ∃ ds', verifyListing es ds = .ok ds' ∧ ds'.map Dirent.unseen = ds.map Dirent.unseen ∧
      ∀ i d', ds'[i]? = some d' →
        (∃ e ∈ es, findMyDirent e.1 ds = some i) ∨ (∃ d, ds[i]? = some d ∧ d.seen ≠ 0) →
        d'.seen ≠ 0 := by
  induction es generalizing ds with
  | nil =>
    refine ⟨ds, rfl, rfl, ?_⟩
    rintro i d' hd' (⟨e, he, -⟩ | ⟨d, hd, hne⟩)
    · cases he
    · cases hd.symm.trans hd'
      exact hne
  | cons e es ih =>
    obtain ⟨name, type⟩ := e
    rw [List.keys_cons, List.nodup_cons] at hnodup
    rw [List.forall_mem_cons] at hfind
    obtain ⟨⟨i, d, hi, hd, htype, hseen⟩, hfind⟩ := hfind
    have hsame : (ds.set i { d with seen := d.seen + 1 }).map Dirent.unseen = ds.map Dirent.unseen :=
      unseen_set hd rfl
    have hlt := (List.getElem?_eq_some_iff.mp hd).1
    have hothers : ∀ e ∈ es, ∃ i' d', findMyDirent e.1 (ds.set i { d with seen := d.seen + 1 }) = some i' ∧
        (ds.set i { d with seen := d.seen + 1 })[i']? = some d' ∧ d'.type = e.2 ∧ d'.seen = 0 := by
      intro e he
      obtain ⟨i', d', hi', hd', hrest⟩ := hfind e he
      refine ⟨i', d', (findMyDirent_congr hsame).trans hi', ?_, hrest⟩
      -- another name has another slot
      have hne : i ≠ i' := by
        rintro rfl
        cases hd.symm.trans hd'
        have hname : e.1 = name := (findMyDirent_name hi' hd').symm.trans (findMyDirent_name hi hd)
        exact hnodup.1 (List.mem_map.mpr ⟨e, he, hname⟩)
      rw [List.getElem?_set_ne hne, hd']
    obtain ⟨ds', hrun, hds', hmarked⟩ := ih hnodup.2 hothers
    refine ⟨ds', ?_, hds'.trans hsame, ?_⟩
    · rw [verifyListing]
      simp only [hi, hd, htype, ne_eq, not_true_eq_false, if_false, hseen]
      rwa [hseen, htype] at hrun
    · intro k d' hd' hk
      refine hmarked k d' hd' ?_
      by_cases hki : i = k
      · subst hki
        exact .inr ⟨_, List.getElem?_set_self hlt, Nat.succ_ne_zero _⟩
      · rcases hk with ⟨e, he, hek⟩ | ⟨d₀, hd₀, hne⟩
        · rcases List.mem_cons.mp he with rfl | he
          · exact absurd (Option.some.inj (hi.symm.trans hek)) hki
          · exact .inl ⟨e, he, (findMyDirent_congr hsame).trans hek⟩
        · exact .inr ⟨d₀, (List.getElem?_set_ne hki).trans hd₀, hne⟩

theorem Dirent.Ok.nameLen_eq (h : d.Ok) (hlive : d.nameLen ≠ 0) : d.nameLen = d.name.length := by
  cases h with
  | dot | dotDot => rfl
  | file _ _ hor => exact hor.resolve_left hlive

theorem mem_live (hi : ds[i]? = some d) (hlive : d.nameLen ≠ 0) : ⟨d.name, d.type⟩ ∈ live ds :=
  List.mem_filterMap.mpr ⟨d, List.mem_of_getElem? hi, if_neg hlive⟩

theorem exists_of_mem_live {e : Entry (List Char)} (h : e ∈ live ds) :
    ∃ (i : Nat) (d : Dirent), ds[i]? = some d ∧ d.nameLen ≠ 0 ∧ d.name = e.1 ∧ d.type = e.2 := by
  obtain ⟨d, hd, he⟩ := List.mem_filterMap.mp h
  obtain ⟨i, hi⟩ := List.mem_iff_getElem?.mp hd
  unfold Dirent.listed at he
  split at he
  · cases he
  · next hlive =>
    cases he
    exact ⟨i, d, hi, hlive, rfl, rfl⟩

theorem slot_unique (hnodup : (live ds).keys.Nodup) (hi : ds[i]? = some d) (hj : ds[j]? = some d')
    (hlive : d.nameLen ≠ 0) (hlive' : d'.nameLen ≠ 0) (hname : d.name = d'.name) : i = j := by
  by_contra hij
  have hp := live_perm hi
  rw [Dirent.listed, if_neg hlive] at hp
  have hother : ⟨d'.name, d'.type⟩ ∈ live (ds.eraseIdx i) :=
    List.mem_filterMap.mpr
      ⟨d', List.mem_eraseIdx_iff_getElem?.mpr ⟨j, Ne.symm hij, hj⟩, if_neg hlive'⟩
  have hkeys := (hp.map Sigma.fst).nodup_iff.mp hnodup
  have hkey : d'.name ∈ (live (ds.eraseIdx i)).keys := List.mem_map_of_mem hother
  exact (List.nodup_cons.mp hkeys).1 (hname ▸ hkey)

theorem Shadows.find (hs : Shadows s) (hi : s.dirents[i]? = some d) (hlive : d.nameLen ≠ 0) :
    findMyDirent d.name s.dirents = some i := by
  have hlen := (hs.ok d (List.mem_of_getElem? hi)).nameLen_eq hlive
  obtain ⟨hlt, rfl⟩ := List.getElem?_eq_some_iff.mp hi
  refine List.findIdx?_eq_some_iff_getElem.mpr ⟨hlt, ?_, ?_⟩
  · simp only [Bool.and_eq_true, bne_iff_ne, beq_iff_eq]
    exact ⟨hlive, hlen, trivial⟩
  · intro j hji hj
    simp only [Bool.and_eq_true, bne_iff_ne, beq_iff_eq] at hj
    have hjs := List.getElem?_eq_getElem (Nat.lt_trans hji hlt)
    exact absurd (slot_unique hs.lists.nodup hjs hi hj.1 hlive hj.2.2) (Nat.ne_of_lt hji)

theorem live_congr {ds ds' : List Dirent} (h : ds'.map Dirent.unseen = ds.map Dirent.unseen) :
    live ds' = live ds := by
  have hmap (l : List Dirent) : live l = live (l.map Dirent.unseen) := by
    rw [live, live, List.filterMap_map]
    rfl
  rw [hmap ds', h, ← hmap]

theorem Dirent.Ok.of_unseen (h : d.Ok) (hd : d'.unseen = d.unseen) : d'.Ok := by
  obtain ⟨type, nameLen, seen, name⟩ := d'
  cases h <;> cases hd
  · exact .dot
  · exact .dotDot
  · next hname hlen hor => exact .file hname hlen hor

theorem Shadows.congr_unseen {ds' : List Dirent} (hs : Shadows s)
    (h : ds'.map Dirent.unseen = s.dirents.map Dirent.unseen) : Shadows ⟨ds', s.dir⟩ where
  ok d' hd' := by
    obtain ⟨d, hd, heq⟩ := List.mem_map.mp (h ▸ List.mem_map_of_mem hd')
    exact (hs.ok d hd).of_unseen heq.symm
  lists := by
    rw [live_congr h]
    exact hs.lists

/-- On a table that shadows its directory the listing is found, marked and
complete. -/
theorem Shadows.verifyListing {es : List (Entry (List Char))} (hs : Shadows s)
    (hseen : ∀ d ∈ s.dirents, d.seen = 0) (hes : s.dir.Lists es) :
    ∃ ds', verifyListing es s.dirents = .ok ds' ∧
      ds'.map Dirent.unseen = s.dirents.map Dirent.unseen ∧
      ∀ d ∈ ds', d.seen ≠ 0 ∨ d.nameLen = 0 := by
  have hperm : es.Perm (live s.dirents) := hes.trans hs.lists.symm
  have hfind : ∀ e ∈ es, ∃ i d, findMyDirent e.1 s.dirents = some i ∧ s.dirents[i]? = some d ∧
      d.type = e.2 ∧ d.seen = 0 := by
    intro e he
    obtain ⟨i, d, hi, hlive, hname, htype⟩ := exists_of_mem_live (hperm.mem_iff.mp he)
    exact ⟨i, d, hname ▸ hs.find hi hlive, hi, htype, hseen d (List.mem_of_getElem? hi)⟩
  obtain ⟨ds', hrun, hsame, hmarked⟩ := verifyListing_marks hes.nodup hfind
  refine ⟨ds', hrun, hsame, ?_⟩
  intro d' hd'
  obtain ⟨i, hi'⟩ := List.mem_iff_getElem?.mp hd'
  have hunseen : (s.dirents[i]?).map Dirent.unseen = some d'.unseen := by
    rw [← List.getElem?_map, ← hsame, List.getElem?_map, hi']
    rfl
  obtain ⟨d, hi, hd⟩ := Option.map_eq_some_iff.mp hunseen
  have hlen : d.unseen.nameLen = d'.unseen.nameLen := by rw [hd]
  by_cases hlive : d.nameLen = 0
  · exact .inr (hlen.symm.trans hlive)
  · exact .inl (hmarked i d' hi' (.inl ⟨_, hperm.mem_iff.mpr (mem_live hi hlive), hs.find hi hlive⟩))

-- ---------------------------------------------------------------------------
-- destroy_dir
-- ---------------------------------------------------------------------------

def unlinkFiles : List Dirent → Directory (List Char) → Option (Directory (List Char))
  | [], dir => some dir
  | d :: ds, dir =>
    if d.nameLen = 0 ∨ d.isDotEntry then unlinkFiles ds dir
    else
      match dir.unlink d.name with
      | none => none
      | some dir => unlinkFiles ds dir

theorem unlinkFiles_ok {dir : Directory (List Char)} {dots : List (Entry (List Char))}
    (hok : ∀ d ∈ ds, d.Ok) (hdots : ∀ n ∈ dots.keys, n ∈ [['.'], ['.', '.']])
    (hlists : dir.Lists (dots ++ live ds)) :
    ∃ dir', unlinkFiles ds dir = some dir' ∧ dir'.rmdir [['.'], ['.', '.']] = some ∅ := by
  induction ds generalizing dir dots with
  | nil =>
    rw [live, List.filterMap_nil, List.append_nil] at hlists
    exact ⟨dir, rfl, hlists.rmdir hdots⟩
  | cons d ds ih =>
    rw [List.forall_mem_cons] at hok
    rw [live, List.filterMap_cons] at hlists
    rw [unlinkFiles]
    by_cases hlive : d.nameLen = 0
    · rw [Dirent.listed, if_pos hlive] at hlists
      rw [if_pos (.inl hlive)]
      exact ih hok.2 hdots hlists
    · rw [Dirent.listed, if_neg hlive] at hlists
      cases hdot : d.isDotEntry with
      | true =>
        have hmore : ∀ n ∈ List.keys (dots ++ [⟨d.name, d.type⟩]), n ∈ [['.'], ['.', '.']] := by
          intro n hn
          rw [List.keys, List.map_append, List.mem_append] at hn
          rcases hn with hn | hn
          · exact hdots n hn
          · rw [List.map_singleton, List.mem_singleton] at hn
            exact hn ▸ hok.1.name_of_dot hdot
        rw [if_pos (.inr rfl)]
        refine ih hok.2 hmore ?_
        rw [List.append_assoc]
        exact hlists
      | false =>
        rw [(hok.1.of_not_dot hdot).1] at hlists
        obtain ⟨dir', hunlink, hlists'⟩ := (hlists.perm List.perm_middle.symm).unlink
        rw [if_neg (not_or.mpr ⟨hlive, Bool.false_ne_true⟩), hunlink]
        exact ih hok.2 hdots hlists'

theorem Shadows.unlinkFiles (hs : Shadows s) :
    ∃ dir, unlinkFiles s.dirents s.dir = some dir ∧ dir.rmdir [['.'], ['.', '.']] = some ∅ :=
  unlinkFiles_ok hs.ok (List.forall_mem_nil _) (List.nil_append (live s.dirents) ▸ hs.lists)

end

end Ocfs2Test.Dirs
