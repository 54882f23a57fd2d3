import Ocfs2Test.Dirs.IndexDir
import Ocfs2Test.Dirs.DirOps

/-!
# The verdict on a directory

`verify_dirents` of `dir_ops.c` and of `index_dir.c`, on any listing that `readdir`
may give. Both leave the loop at the first entry that is wrong; an entry that is
missing is printed and nothing more, and where the loop is left early the marks
stay.
-/

namespace Ocfs2Test.Dirs

open Lib

def mode : FileType → UInt8
  | .dir => 4
  | .reg => 8

/-- What is looked at of a `struct dirent`. -/
structure ReadDirent where
  dName : List Char
  dType : UInt8
  deriving DecidableEq, Repr

def raw (e : Entry (List Char)) : ReadDirent := ⟨e.1, mode e.2⟩

def expected (ds : List Dirent) : List ReadDirent := (live ds).map raw

theorem mode_injective : Function.Injective mode := by
  intro t t' h
  cases t <;> cases t' <;> simp_all [mode]

theorem raw_injective : Function.Injective raw := by
  rintro ⟨name, type⟩ ⟨name', type'⟩ h
  simp only [raw, ReadDirent.mk.injEq, mode_injective.eq_iff] at h
  obtain ⟨rfl, rfl⟩ := h
  rfl

section
variable (find : List Char → List Dirent → Option Nat)

/-- The loop over the listing: the table at its end, or where it is left. -/
def checkEntries : List ReadDirent → List Dirent → Except (List Dirent) (List Dirent)
  | [], ds => .ok ds
  | e :: es, ds =>
    match find e.dName ds with
    | none => .error ds
    | some i =>
      match ds[i]? with
      -- a slot that is found is in the table
      | none => .error ds
      | some d =>
        if mode d.type ≠ e.dType then .error ds
        else if d.seen ≠ 0 then .error ds
        else checkEntries es (ds.set i { d with seen := d.seen + 1 })

end

def Dirent.isMissing (d : Dirent) : Bool := !(d.seen != 0 || d.nameLen == 0)

/-- What `verify_dirents` of `dir_ops.c` returns, how many entries it prints as
missing, and the table it leaves. -/
structure Verdict where
  ret : Int
  missing : Nat
  dirents : List Dirent

def DirOps.verifyDirents (es : List ReadDirent) (ds : List Dirent) : Verdict :=
  match checkEntries DirOps.findMyDirent es ds with
  | .error ds => ⟨-1, 0, ds⟩
  | .ok ds => ⟨0, ds.countP Dirent.isMissing, ds.map Dirent.unseen⟩

/-- `verify_dirents` of `index_dir.c`. -/
def IndexDir.verifyReadDirents (es : List ReadDirent) (ds : List Dirent) :
    Except Stop (Nat × List Dirent) :=
  match checkEntries findMyDirent es ds with
  | .error _ => .error .exit
  | .ok ds => .ok (ds.countP Dirent.isMissing, ds.map Dirent.unseen)

-- ---------------------------------------------------------------------------
-- The search
-- ---------------------------------------------------------------------------

/-- The lengths are those of the names, but for empty slots, and no name is there
twice. -/
structure WellFormed (ds : List Dirent) : Prop where
  lens : ∀ d ∈ ds, d.nameLen = 0 ∨ d.nameLen = d.name.length
  names : (live ds).keys.Nodup

structure Searches (find : List Char → List Dirent → Option Nat) : Prop where
  found : ∀ {name ds i}, name ≠ [] → find name ds = some i →
    ∃ d, ds[i]? = some d ∧ d.nameLen ≠ 0 ∧ d.name = name
  missed : ∀ {name ds}, name ≠ [] → find name ds = none →
    ∀ d ∈ ds, d.nameLen = name.length → d.name ≠ name

theorem searches_dirOps : Searches DirOps.findMyDirent where
  found hname h := by
    obtain ⟨hlt, hp, -⟩ := List.findIdx?_eq_some_iff_getElem.mp h
    simp only [Bool.and_eq_true, beq_iff_eq] at hp
    refine ⟨_, List.getElem?_eq_getElem hlt, ?_, hp.2⟩
    rw [hp.1]
    exact fun hzero => hname (List.length_eq_zero_iff.mp hzero)
  missed _ h d hd hlen hname := by
    have hno := List.findIdx?_eq_none_iff.mp h d hd
    simp [hlen, hname] at hno

theorem searches_indexDir : Searches findMyDirent where
  found _ h := by
    obtain ⟨hlt, hp, -⟩ := List.findIdx?_eq_some_iff_getElem.mp h
    simp only [Bool.and_eq_true, bne_iff_ne, beq_iff_eq] at hp
    exact ⟨_, List.getElem?_eq_getElem hlt, hp.1, hp.2.2⟩
  missed hne h d hd hlen hname := by
    have hno := List.findIdx?_eq_none_iff.mp h d hd
    simp [hlen, hname, List.length_eq_zero_iff.not.mpr hne] at hno

-- ---------------------------------------------------------------------------
-- The loop
-- ---------------------------------------------------------------------------

def Unmarked (ds : List Dirent) (e : ReadDirent) : Prop :=
  ∃ (i : Nat) (d : Dirent), ds[i]? = some d ∧ d.nameLen ≠ 0 ∧ d.seen = 0 ∧ raw ⟨d.name, d.type⟩ = e

section
variable {find : List Char → List Dirent → Option Nat} {es : List ReadDirent} {e : ReadDirent}
  {ds ds' : List Dirent}

theorem WellFormed.congr (h : WellFormed ds) (heq : ds'.map Dirent.unseen = ds.map Dirent.unseen) :
    WellFormed ds' where
  lens d' hd' := by
    obtain ⟨d, hd, hdd⟩ := List.mem_map.mp (heq ▸ List.mem_map_of_mem hd')
    have hlens := h.lens d hd
    have hsame : d.nameLen = d'.nameLen ∧ d.name = d'.name := by
      simp only [Dirent.unseen, Dirent.mk.injEq] at hdd
      exact ⟨hdd.2.1, hdd.2.2.2⟩
    rwa [hsame.1, hsame.2] at hlens
  names := by
    rw [live_congr heq]
    exact h.names

theorem Unmarked.slot (h : Unmarked ds e) (hfind : Searches find) (hwf : WellFormed ds)
    (hname : e.dName ≠ []) :
    ∃ (i : Nat) (d : Dirent), find e.dName ds = some i ∧ ds[i]? = some d ∧ d.nameLen ≠ 0 ∧
      d.name = e.dName ∧ mode d.type = e.dType ∧ d.seen = 0 := by
  obtain ⟨i, d, hi, hlive, hseen, rfl⟩ := h
  have hlen := (hwf.lens d (List.mem_of_getElem? hi)).resolve_left hlive
  cases hslot : find d.name ds with
  | none => exact absurd rfl (hfind.missed hname hslot d (List.mem_of_getElem? hi) hlen)
  | some j =>
    obtain ⟨d', hj, hlive', hname'⟩ := hfind.found hname hslot
    obtain rfl := slot_unique hwf.names hj hi hlive' hlive hname'
    cases hi.symm.trans hj
    exact ⟨j, d, hslot, hi, hlive, rfl, rfl, hseen⟩

theorem checkEntries_error (hfind : Searches find) (hname : e.dName ≠ []) (h : ¬ Unmarked ds e) :
    checkEntries find (e :: es) ds = .error ds := by
  rw [checkEntries]
  split
  · rfl
  · next i hslot =>
    obtain ⟨d, hd, hlive, hdname⟩ := hfind.found hname hslot
    simp only [hd]
    by_cases htype : mode d.type = e.dType
    · have hseen : d.seen ≠ 0 := by
        refine fun hseen => h ⟨i, d, hd, hlive, hseen, ?_⟩
        rw [raw, hdname, htype]
      simp [htype, hseen]
    · simp [htype]

theorem checkEntries_mark (es : List ReadDirent) (hfind : Searches find) (hwf : WellFormed ds)
    (hname : e.dName ≠ []) (h : Unmarked ds e) :
    ∃ ds₁, checkEntries find (e :: es) ds = checkEntries find es ds₁ ∧
      ds₁.map Dirent.unseen = ds.map Dirent.unseen ∧ (∃ d ∈ ds₁, d.seen ≠ 0) ∧
      ∀ x, Unmarked ds₁ x ↔ Unmarked ds x ∧ x ≠ e := by
  obtain ⟨i, d, hslot, hd, hlive, hdname, htype, hseen⟩ := h.slot hfind hwf hname
  have hlt := (List.getElem?_eq_some_iff.mp hd).1
  refine ⟨ds.set i { d with seen := d.seen + 1 }, ?_, unseen_set hd rfl, ?_, fun x => ?_⟩
  · simp [checkEntries, hslot, hd, htype, hseen]
  · exact ⟨_, List.mem_set hlt _, Nat.succ_ne_zero _⟩
  · have hraw : raw ⟨d.name, d.type⟩ = e := by rw [raw, hdname, htype]
    constructor
    · rintro ⟨j, d', hj, hlive', hseen', rfl⟩
      rcases eq_or_ne i j with rfl | hij
      · rw [List.getElem?_set_self hlt] at hj
        cases hj
        exact absurd hseen' (Nat.succ_ne_zero _)
      · rw [List.getElem?_set_ne hij] at hj
        refine ⟨⟨j, d', hj, hlive', hseen', rfl⟩, fun heq => hij ?_⟩
        -- another slot has another name
        exact slot_unique hwf.names hd hj hlive hlive' (hdname.trans (congrArg ReadDirent.dName heq).symm)
    · rintro ⟨⟨j, d', hj, hlive', hseen', rfl⟩, hne⟩
      refine ⟨j, d', ?_, hlive', hseen', rfl⟩
      rw [List.getElem?_set_ne, hj]
      rintro rfl
      cases hd.symm.trans hj
      exact hne hraw

/-- The loop comes to its end where the entries are different ones of the table. -/
theorem checkEntries_ok_iff (hfind : Searches find) (hwf : WellFormed ds)
    (hes : ∀ e ∈ es, e.dName ≠ []) :
    (∃ ds', checkEntries find es ds = .ok ds') ↔ es.Nodup ∧ ∀ e ∈ es, Unmarked ds e := by
  induction es generalizing ds with
  | nil => simp [checkEntries]
  | cons e es ih =>
    rw [List.forall_mem_cons] at hes
    by_cases he : Unmarked ds e
    · obtain ⟨ds₁, hrun, hsame, -, hmark⟩ := checkEntries_mark es hfind hwf hes.1 he
      rw [hrun, ih (hwf.congr hsame) hes.2, List.nodup_cons, List.forall_mem_cons]
      simp only [hmark]
      constructor
      · rintro ⟨hnodup, hall⟩
        exact ⟨⟨fun hmem => (hall e hmem).2 rfl, hnodup⟩, he, fun x hx => (hall x hx).1⟩
      · rintro ⟨⟨hnot, hnodup⟩, -, hall⟩
        exact ⟨hnodup, fun x hx => ⟨hall x hx, fun heq => hnot (heq ▸ hx)⟩⟩
    · rw [checkEntries_error hfind hes.1 he, List.forall_mem_cons]
      simp [he]

theorem checkEntries_keeps_marks (hfind : Searches find) (hwf : WellFormed ds)
    (hes : ∀ e ∈ es, e.dName ≠ []) (hmarked : ∃ d ∈ ds, d.seen ≠ 0)
    (h : checkEntries find es ds = .error ds') : ∃ d ∈ ds', d.seen ≠ 0 := by
  induction es generalizing ds with
  | nil => cases h
  | cons e es ih =>
    rw [List.forall_mem_cons] at hes
    by_cases he : Unmarked ds e
    · obtain ⟨ds₁, hrun, hsame, hmarked₁, -⟩ := checkEntries_mark es hfind hwf hes.1 he
      exact ih (hwf.congr hsame) hes.2 hmarked₁ (hrun ▸ h)
    · rw [checkEntries_error hfind hes.1 he] at h
      cases h
      exact hmarked

theorem unmarked_iff (hseen : ∀ d ∈ ds, d.seen = 0) : Unmarked ds e ↔ e ∈ expected ds := by
  constructor
  · rintro ⟨i, d, hi, hlive, -, rfl⟩
    exact List.mem_map_of_mem (mem_live hi hlive)
  · intro h
    obtain ⟨en, hen, rfl⟩ := List.mem_map.mp h
    obtain ⟨i, d, hi, hlive, hname, htype⟩ := exists_of_mem_live hen
    exact ⟨i, d, hi, hlive, hseen d (List.mem_of_getElem? hi), by rw [hname, htype]⟩

theorem expected_nodup (hwf : WellFormed ds) : (expected ds).Nodup :=
  (List.Nodup.of_map _ hwf.names).map raw_injective

theorem checkEntries_fresh_iff (hfind : Searches find) (hwf : WellFormed ds)
    (hseen : ∀ d ∈ ds, d.seen = 0) (hes : ∀ e ∈ es, e.dName ≠ []) :
    (∃ ds', checkEntries find es ds = .ok ds') ↔ es.Nodup ∧ ∀ e ∈ es, e ∈ expected ds := by
  simp only [checkEntries_ok_iff hfind hwf hes, unmarked_iff hseen]

theorem checkEntries_of_perm (hfind : Searches find) (hwf : WellFormed ds)
    (hseen : ∀ d ∈ ds, d.seen = 0) (hes : ∀ e ∈ es, e.dName ≠ []) (hperm : es.Perm (expected ds)) :
    ∃ ds', checkEntries find es ds = .ok ds' :=
  (checkEntries_fresh_iff hfind hwf hseen hes).mpr
    ⟨hperm.nodup_iff.mpr (expected_nodup hwf), fun _ he => hperm.mem_iff.mp he⟩

/-- Where the loop is left, a mark stays behind unless it was at the first entry. -/
theorem checkEntries_error_marks (hfind : Searches find) (hwf : WellFormed ds)
    (hseen : ∀ d ∈ ds, d.seen = 0) (hes : ∀ e ∈ es, e.dName ≠ [])
    (h : checkEntries find es ds = .error ds') :
    (∀ d ∈ ds', d.seen = 0) ↔ ∃ e rest, es = e :: rest ∧ e ∉ expected ds := by
  cases es with
  | nil => cases h
  | cons e es =>
    rw [List.forall_mem_cons] at hes
    have hhead : (∃ e' rest, e :: es = e' :: rest ∧ e' ∉ expected ds) ↔ ¬ Unmarked ds e := by
      rw [unmarked_iff hseen]
      constructor
      · rintro ⟨e', rest, heq, hnot⟩
        cases heq
        exact hnot
      · exact fun hnot => ⟨e, es, rfl, hnot⟩
    rw [hhead]
    by_cases he : Unmarked ds e
    · obtain ⟨ds₁, hrun, hsame, hmarked, -⟩ := checkEntries_mark es hfind hwf hes.1 he
      obtain ⟨d, hd, hne⟩ :=
        checkEntries_keeps_marks hfind (hwf.congr hsame) hes.2 hmarked (hrun ▸ h)
      exact iff_of_false (fun hall => hne (hall d hd)) (not_not_intro he)
    · rw [checkEntries_error hfind hes.1 he] at h
      cases h
      exact iff_of_true hseen he

end

-- ---------------------------------------------------------------------------
-- The verdicts
-- ---------------------------------------------------------------------------

section
variable (es : List ReadDirent) (ds : List Dirent)

/-- 0 says that the listing is complete, and no mark is left. -/
def DirOps.Verified : Prop :=
  ((DirOps.verifyDirents es ds).ret = 0 ↔ es.Perm (expected ds)) ∧
    ∀ d ∈ (DirOps.verifyDirents es ds).dirents, d.seen = 0

/-- To return says that the listing is complete. -/
def IndexDir.Verified : Prop :=
  (∃ result, IndexDir.verifyReadDirents es ds = .ok result) ↔ es.Perm (expected ds)

end

section
variable {es : List ReadDirent} {ds : List Dirent}

theorem DirOps.verified_iff (hwf : WellFormed ds) (hseen : ∀ d ∈ ds, d.seen = 0)
    (hes : ∀ e ∈ es, e.dName ≠ []) :
    DirOps.Verified es ds ↔
      es.Perm (expected ds) ∨ ∃ e rest, es = e :: rest ∧ e ∉ expected ds := by
  unfold DirOps.Verified DirOps.verifyDirents
  cases hrun : checkEntries DirOps.findMyDirent es ds with
  | error ds' =>
    have hmarks := checkEntries_error_marks searches_dirOps hwf hseen hes hrun
    have hnot : ¬ es.Perm (expected ds) := by
      intro hperm
      obtain ⟨ds'', hok⟩ := checkEntries_of_perm searches_dirOps hwf hseen hes hperm
      cases hrun.symm.trans hok
    simp [hmarks, hnot]
  | ok ds' =>
    have hsub := (checkEntries_fresh_iff searches_dirOps hwf hseen hes).mp ⟨ds', hrun⟩
    have hfirst : ¬ ∃ e rest, es = e :: rest ∧ e ∉ expected ds := by
      rintro ⟨e, rest, rfl, hnot⟩
      exact hnot (hsub.2 e List.mem_cons_self)
    rw [or_iff_left hfirst]
    simp [Dirent.unseen]

theorem IndexDir.verified_iff (hwf : WellFormed ds) (hseen : ∀ d ∈ ds, d.seen = 0)
    (hes : ∀ e ∈ es, e.dName ≠ []) :
    IndexDir.Verified es ds ↔
      es.Perm (expected ds) ∨ ¬ es.Nodup ∨ ∃ e ∈ es, e ∉ expected ds := by
  have hok := checkEntries_fresh_iff searches_indexDir hwf hseen hes
  have hperm : es.Perm (expected ds) → ∃ ds', checkEntries findMyDirent es ds = .ok ds' :=
    checkEntries_of_perm searches_indexDir hwf hseen hes
  have hreturns : (∃ result, IndexDir.verifyReadDirents es ds = .ok result) ↔
      ∃ ds', checkEntries findMyDirent es ds = .ok ds' := by
    unfold IndexDir.verifyReadDirents
    cases checkEntries findMyDirent es ds <;> simp
  have hbad : (¬ es.Nodup ∨ ∃ e ∈ es, e ∉ expected ds) ↔
      ¬ ∃ ds', checkEntries findMyDirent es ds = .ok ds' := by
    rw [hok]
    simp only [not_and_or, not_forall, exists_prop]
  rw [IndexDir.Verified, hreturns, hbad]
  constructor
  · intro h
    rw [← h]
    exact em _
  · rintro (h | h)
    · exact iff_of_true (hperm h) h
    · exact iff_of_false h fun hes' => h (hperm hes')

end

/-- A missing entry is the one thing that `index_dir` takes for complete; `dir_ops`
does so too, and beyond the first entry it leaves its marks. -/
theorem verifyDirents_iff (es : List ReadDirent) (ds : List Dirent) (hwf : WellFormed ds)
    (hseen : ∀ d ∈ ds, d.seen = 0) (hes : ∀ e ∈ es, e.dName ≠ []) :
    (DirOps.Verified es ds ↔
      es.Perm (expected ds) ∨ ∃ e rest, es = e :: rest ∧ e ∉ expected ds) ∧
    (IndexDir.Verified es ds ↔
      es.Perm (expected ds) ∨ ¬ es.Nodup ∨ ∃ e ∈ es, e ∉ expected ds) :=
  ⟨DirOps.verified_iff hwf hseen hes, IndexDir.verified_iff hwf hseen hes⟩

theorem wellFormed_dots : WellFormed [dot, dotDot] := ⟨by decide, by decide⟩

theorem verifyDirents_dots :
    DirOps.Verified [⟨['.', '.'], 4⟩, ⟨['.'], 4⟩] [dot, dotDot] ∧
      IndexDir.Verified [⟨['.', '.'], 4⟩, ⟨['.'], 4⟩] [dot, dotDot] := by
  have h := verifyDirents_iff [⟨['.', '.'], 4⟩, ⟨['.'], 4⟩] [dot, dotDot] wellFormed_dots
    (by decide) (by decide)
  exact ⟨h.1.mpr (.inl (by decide)), h.2.mpr (.inl (by decide))⟩

/-- A listing without "..", and one with a name that is not in the table. -/
theorem verifyDirents_missing :
    WellFormed [dot, dotDot] ∧ (∀ d ∈ [dot, dotDot], d.seen = 0) ∧
    (DirOps.verifyDirents [⟨['.'], 4⟩] [dot, dotDot]).ret = 0 ∧
    IndexDir.verifyReadDirents [⟨['.'], 4⟩] [dot, dotDot] = .ok (1, [dot, dotDot]) ∧
    ¬ [⟨['.'], 4⟩].Perm (expected [dot, dotDot]) ∧
    (DirOps.verifyDirents [⟨['.'], 4⟩, ⟨['x'], 8⟩] [dot, dotDot]).dirents =
      [{ dot with seen := 1 }, dotDot] :=
  ⟨wellFormed_dots, by decide, by decide, by rfl, by decide, by decide⟩

end Ocfs2Test.Dirs
