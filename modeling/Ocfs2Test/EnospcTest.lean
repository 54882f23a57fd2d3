import Ocfs2Test.Lib.Stdio

/-!
# The fill phase of enospc_test

`main` fills the volume with files of `MAX_FILE_SIZE` bytes until `TEST_FILE_SIZE` bytes are
free. It fixes the number of files first; in the loop the size of the next file comes out of
unsigned differences, and the test for a size below zero never holds.
-/

namespace Ocfs2Test.EnospcTest

open Lib.Stdio

def MB : UInt64 := 1048576
def HDR_SIZE : UInt64 := 512
def MAX_FILE_SIZE : UInt64 := 2147483648
def TEST_FILE_SIZE : UInt64 := 524288000
def OCFS2_SUPER_MAGIC : UInt64 := 0x7461636f
def OCFS1_SUPER_MAGIC : UInt64 := 0xa156f7eb

-- ---------------------------------------------------------------------------
-- create_file
-- ---------------------------------------------------------------------------

/-- What the calls of one `create_file` return: an `errno` or 0 for the two `open`s, the bytes
of the header that `pwrite` has written, and whether the volume lets `ftruncate` succeed. -/
structure Calls where
  create : UInt64
  openDirect : UInt64
  pwrite : Int
  ftruncate : Bool
  pwrite_le : pwrite ≤ HDR_SIZE.toNat

/-- `create_file` of a new file without `write_to_file` and `delete`: what it returns, and the
size the file then has. `ftruncate` takes no negative length. -/
def createFile (calls : Calls) (fileSize : UInt64) : UInt64 × Nat :=
  if calls.create ≠ 0 then (calls.create, 0)
  else if calls.openDirect ≠ 0 then (calls.openDirect, 0)
  else if calls.pwrite < 1 then (0, 0)
  else
    let fszBytes := ((fileSize - HDR_SIZE).toNat : Int).bmod (2 ^ 64)
    if calls.ftruncate ∧ 0 ≤ fszBytes then (0, fszBytes.toNat)
    else (2 ^ 64 - 1, calls.pwrite.toNat)

-- ---------------------------------------------------------------------------
-- main
-- ---------------------------------------------------------------------------

structure StatFs where
  type : UInt64
  bsize : UInt64
  blocks : UInt64
  bavail : UInt64

def StatFs.volSize (fs : StatFs) : UInt64 := fs.bsize * fs.blocks

def StatFs.freeSize (fs : StatFs) : UInt64 := fs.bavail * fs.bsize

/-- A round of the loop: what `create_file` is called with while `free_size` bytes are free,
and what it made of it. -/
structure Round where
  name : List Char
  freeSize : UInt64
  fileSize : UInt64
  created : UInt64 × Nat

/-- `file_name`: the number of the last file is put behind it. -/
def fileName (dirname : List Char) (i : Nat) : List Char :=
  dirname ++ "/testfile".toList ++ if i = 0 then [] else printNat i

def nextSize (freeSize fileSize : UInt64) : UInt64 :=
  if freeSize < MAX_FILE_SIZE then freeSize - TEST_FILE_SIZE - 100 * MB else fileSize

/-- The rounds that are left, from the `i`th on. Nothing looks at what `create_file` returns. -/
def fillLoop (dirname : List Char) (calls : Nat → Calls) :
    (numfiles i : Nat) → (freeSize fileSize : UInt64) → List Round
  | 0, _, _, _ => []
  | n + 1, i, freeSize, fileSize =>
    let left := freeSize - fileSize
    let next := nextSize left fileSize
    ⟨fileName dirname i, freeSize, fileSize, createFile (calls i) fileSize⟩ ::
      if next < 0 then [] else fillLoop dirname calls n (i + 1) left next

/-- `main` from `statfs` to the end of the loop; `none` where it returns before it. -/
def main (dirname : List Char) (fs : StatFs) (allocated : Bool) (calls : Nat → Calls) :
    Option (List Round) :=
  if fs.type ≠ OCFS2_SUPER_MAGIC ∧ fs.type ≠ OCFS1_SUPER_MAGIC then none
  else if fs.volSize < TEST_FILE_SIZE then none
  else if fs.freeSize < TEST_FILE_SIZE then none
  else if allocated = false then none
  else
    let fillSize := fs.freeSize - TEST_FILE_SIZE
    let numfiles := fillSize / MAX_FILE_SIZE + 1
    let fileSize := if MAX_FILE_SIZE > fillSize then fillSize else MAX_FILE_SIZE
    some (fillLoop dirname calls numfiles.toNat 0 fs.freeSize fileSize)

-- ---------------------------------------------------------------------------
-- What the fill phase is to do
-- ---------------------------------------------------------------------------

/-- No subtraction of the round wraps around: the header is taken off the size of the file, the
size off the free space, and what is kept off what is left. -/
structure Round.NoWrap (r : Round) : Prop where
  header : HDR_SIZE ≤ r.fileSize
  file : r.fileSize ≤ r.freeSize
  reserve : r.freeSize - r.fileSize < MAX_FILE_SIZE → TEST_FILE_SIZE ≤ r.freeSize - r.fileSize
  slack : r.freeSize - r.fileSize < MAX_FILE_SIZE →
    100 * MB ≤ r.freeSize - r.fileSize - TEST_FILE_SIZE

/-- The files leave `TEST_FILE_SIZE` bytes, each is given no more than is free, and nothing
wraps around. -/
structure Fills (freeSize : UInt64) (rounds : List Round) : Prop where
  sum : (rounds.map fun r => r.created.2).sum + TEST_FILE_SIZE.toNat ≤ freeSize.toNat
  free : ∀ r ∈ rounds, r.fileSize ≤ r.freeSize
  noWrap : ∀ r ∈ rounds, r.NoWrap

/-- There is a full file to fill; and the rest behind the full files takes the slack and a
header, and with what is kept is less than a full file. -/
def HasSlack (freeSize : UInt64) : Prop :=
  let fillSize := freeSize.toNat - TEST_FILE_SIZE.toNat
  MAX_FILE_SIZE.toNat ≤ fillSize ∧
    100 * MB.toNat + HDR_SIZE.toNat ≤ fillSize % MAX_FILE_SIZE.toNat ∧
    fillSize % MAX_FILE_SIZE.toNat + TEST_FILE_SIZE.toNat < MAX_FILE_SIZE.toNat

instance : DecidablePred HasSlack := fun _ => inferInstanceAs (Decidable (_ ∧ _ ∧ _))

-- ---------------------------------------------------------------------------
-- One round
-- ---------------------------------------------------------------------------

section
variable {dirname : List Char} {calls : Nat → Calls} {n i k r : Nat} {freeSize fileSize : UInt64}

theorem toNat_HDR_SIZE : HDR_SIZE.toNat = 512 := rfl
theorem toNat_MAX_FILE_SIZE : MAX_FILE_SIZE.toNat = 2147483648 := rfl
theorem toNat_TEST_FILE_SIZE : TEST_FILE_SIZE.toNat = 524288000 := rfl
theorem toNat_slack : (100 * MB).toNat = 104857600 := rfl

theorem toNat_left (h : fileSize ≤ freeSize) :
    (freeSize - fileSize).toNat = freeSize.toNat - fileSize.toNat :=
  UInt64.toNat_sub_of_le _ _ h

theorem keeps_iff (left : UInt64) :
    TEST_FILE_SIZE ≤ left ∧ 100 * MB ≤ left - TEST_FILE_SIZE ↔ 629145600 ≤ left.toNat := by
  constructor
  · rintro ⟨htest, hslack⟩
    rw [UInt64.le_iff_toNat_le, toNat_left htest, toNat_slack, toNat_TEST_FILE_SIZE] at hslack
    omega
  · rintro hleft
    have htest : TEST_FILE_SIZE ≤ left := by
      rw [UInt64.le_iff_toNat_le, toNat_TEST_FILE_SIZE]
      omega
    refine ⟨htest, ?_⟩
    rw [UInt64.le_iff_toNat_le, toNat_left htest, toNat_slack, toNat_TEST_FILE_SIZE]
    omega

theorem noWrap_iff {name : List Char} {created : UInt64 × Nat} :
    (⟨name, freeSize, fileSize, created⟩ : Round).NoWrap ↔
      512 ≤ fileSize.toNat ∧ fileSize.toNat ≤ freeSize.toNat ∧
        (freeSize.toNat - fileSize.toNat < 2147483648 →
          629145600 ≤ freeSize.toNat - fileSize.toNat) := by
  constructor
  · rintro ⟨hheader, hfile, hreserve, hslack⟩
    refine ⟨UInt64.le_iff_toNat_le.mp hheader, UInt64.le_iff_toNat_le.mp hfile, fun hleft => ?_⟩
    rw [← toNat_left hfile] at hleft ⊢
    have hlt : freeSize - fileSize < MAX_FILE_SIZE := UInt64.lt_iff_toNat_lt.mpr hleft
    exact (keeps_iff _).mp ⟨hreserve hlt, hslack hlt⟩
  · rintro ⟨hheader, hfile, hkeeps⟩
    have hfile : fileSize ≤ freeSize := UInt64.le_iff_toNat_le.mpr hfile
    rw [← toNat_left hfile] at hkeeps
    exact ⟨UInt64.le_iff_toNat_le.mpr hheader, hfile,
      fun hlt => ((keeps_iff _).mpr (hkeeps (UInt64.lt_iff_toNat_lt.mp hlt))).1,
      fun hlt => ((keeps_iff _).mpr (hkeeps (UInt64.lt_iff_toNat_lt.mp hlt))).2⟩

theorem fillLoop_succ : fillLoop dirname calls (n + 1) i freeSize fileSize =
    ⟨fileName dirname i, freeSize, fileSize, createFile (calls i) fileSize⟩ ::
      fillLoop dirname calls n (i + 1) (freeSize - fileSize)
        (nextSize (freeSize - fileSize) fileSize) := by
  rw [fillLoop, if_neg UInt64.not_lt_zero]

theorem nextSize_full (h : 2147483648 ≤ freeSize.toNat) :
    nextSize freeSize fileSize = fileSize := by
  rw [nextSize, if_neg]
  rw [UInt64.lt_iff_toNat_lt, toNat_MAX_FILE_SIZE]
  omega

theorem nextSize_last (h : freeSize.toNat < 2147483648) (hkeeps : 629145600 ≤ freeSize.toNat) :
    (nextSize freeSize fileSize).toNat = freeSize.toNat - 629145600 := by
  obtain ⟨htest, hslack⟩ := (keeps_iff freeSize).mpr hkeeps
  rw [nextSize, if_pos (UInt64.lt_iff_toNat_lt.mpr h), toNat_left hslack, toNat_left htest,
    toNat_slack, toNat_TEST_FILE_SIZE]
  omega

-- ---------------------------------------------------------------------------
-- All rounds
-- ---------------------------------------------------------------------------

theorem created_le (c : Calls) (h : 512 ≤ fileSize.toNat) :
    (createFile c fileSize).2 ≤ fileSize.toNat := by
  have hheader : HDR_SIZE ≤ fileSize := UInt64.le_iff_toNat_le.mpr h
  have hwritten : c.pwrite ≤ 512 := c.pwrite_le
  rw [createFile]
  split
  · exact Nat.zero_le _
  split
  · exact Nat.zero_le _
  split
  · exact Nat.zero_le _
  dsimp only
  generalize hlen : ((fileSize - HDR_SIZE).toNat : Int).bmod (2 ^ 64) = len
  split
  · next hok =>
    rw [toNat_left hheader, toNat_HDR_SIZE, Int.bmod_def] at hlen
    dsimp only
    omega
  · dsimp only
    omega

theorem fillLoop_sum (hfree : TEST_FILE_SIZE ≤ freeSize)
    (h : ∀ x ∈ fillLoop dirname calls n i freeSize fileSize, x.NoWrap) :
    ((fillLoop dirname calls n i freeSize fileSize).map fun x => x.created.2).sum +
      TEST_FILE_SIZE.toNat ≤ freeSize.toNat := by
  induction n generalizing i freeSize fileSize with
  | zero =>
    rw [fillLoop, List.map_nil, List.sum_nil, Nat.zero_add]
    exact UInt64.le_iff_toNat_le.mp hfree
  | succ n ih =>
    rw [fillLoop_succ, List.forall_mem_cons] at h
    obtain ⟨hround, hrest⟩ := h
    obtain ⟨hheader, hfile, hkeeps⟩ := noWrap_iff.mp hround
    have hle : fileSize ≤ freeSize := hround.file
    have hleft := toNat_left hle
    have hkept : TEST_FILE_SIZE ≤ freeSize - fileSize := by
      rw [UInt64.le_iff_toNat_le, hleft, toNat_TEST_FILE_SIZE]
      omega
    have hsum := ih hkept hrest
    have hcreated := created_le (calls i) hheader
    rw [fillLoop_succ, List.map_cons, List.sum_cons]
    dsimp only
    omega

theorem fillLoop_one_iff :
    (∀ x ∈ fillLoop dirname calls 1 i freeSize fileSize, x.NoWrap) ↔
      512 ≤ fileSize.toNat ∧ fileSize.toNat ≤ freeSize.toNat ∧
        (freeSize.toNat - fileSize.toNat < 2147483648 →
          629145600 ≤ freeSize.toNat - fileSize.toNat) := by
  rw [fillLoop_succ, List.forall_mem_cons, noWrap_iff, fillLoop]
  exact and_iff_left nofun

/-- The last round takes what there is to fill but the slack, or a file too large. -/
theorem fillLoop_last_iff (hfree : freeSize.toNat = r + 524288000) (hr : r < 2147483648)
    (hkeeps : freeSize.toNat < 2147483648 → 629145600 ≤ freeSize.toNat) :
    (∀ x ∈ fillLoop dirname calls 1 i freeSize (nextSize freeSize MAX_FILE_SIZE), x.NoWrap) ↔
      104858112 ≤ r ∧ r + 524288000 < 2147483648 := by
  rw [fillLoop_one_iff]
  by_cases hlast : freeSize.toNat < 2147483648
  · rw [nextSize_last hlast (hkeeps hlast)]
    omega
  · rw [nextSize_full (Nat.not_lt.mp hlast), toNat_MAX_FILE_SIZE]
    omega

theorem toNat_left_full (h : freeSize.toNat = r + 2147483648) :
    (freeSize - MAX_FILE_SIZE).toNat = r := by
  rw [toNat_left]
  · rw [toNat_MAX_FILE_SIZE, h, Nat.add_sub_cancel]
  · rw [UInt64.le_iff_toNat_le, toNat_MAX_FILE_SIZE, h]
    exact Nat.le_add_left _ _

theorem noWrap_full_iff {name : List Char} {created : UInt64 × Nat}
    (h : freeSize.toNat = r + 2147483648) :
    (⟨name, freeSize, MAX_FILE_SIZE, created⟩ : Round).NoWrap ↔
      (r < 2147483648 → 629145600 ≤ r) := by
  rw [noWrap_iff, toNat_MAX_FILE_SIZE, h, Nat.add_sub_cancel]
  exact ⟨fun h => h.2.2, fun h => ⟨by decide, Nat.le_add_left _ _, h⟩⟩

/-- The loop from a round on in which a file of the full size leaves `k` more of them and `r`
bytes to fill. -/
theorem fillLoop_noWrap_iff (hfree : freeSize.toNat = (k + 1) * 2147483648 + r + 524288000)
    (hr : r < 2147483648) :
    (∀ x ∈ fillLoop dirname calls (k + 2) i freeSize MAX_FILE_SIZE, x.NoWrap) ↔
      104858112 ≤ r ∧ r + 524288000 < 2147483648 := by
  induction k generalizing i freeSize with
  | zero =>
    have hfull : freeSize.toNat = r + 524288000 + 2147483648 := by omega
    have hleft := toNat_left_full hfull
    rw [fillLoop_succ, List.forall_mem_cons, noWrap_full_iff hfull]
    constructor
    · rintro ⟨hkeeps, hrest⟩
      exact (fillLoop_last_iff hleft hr (hleft ▸ hkeeps)).mp hrest
    · rintro hcond
      exact ⟨fun _ => by omega, (fillLoop_last_iff hleft hr fun _ => by omega).mpr hcond⟩
  | succ k ih =>
    have hfull : freeSize.toNat = (k + 1) * 2147483648 + r + 524288000 + 2147483648 := by
      rw [hfree]
      ring
    have hleft := toNat_left_full hfull
    -- More than a full file is free after the round, so the next one is as large.
    rw [fillLoop_succ, List.forall_mem_cons, noWrap_full_iff hfull, nextSize_full (by omega),
      ih hleft]
    constructor
    · rintro ⟨-, hcond⟩
      exact hcond
    · rintro hcond
      exact ⟨fun _ => by omega, hcond⟩

theorem fills_iff_noWrap (hfree : TEST_FILE_SIZE ≤ freeSize) :
    Fills freeSize (fillLoop dirname calls n i freeSize fileSize) ↔
      ∀ x ∈ fillLoop dirname calls n i freeSize fileSize, x.NoWrap :=
  ⟨Fills.noWrap, fun h => ⟨fillLoop_sum hfree h, fun x hx => (h x hx).file, h⟩⟩

/-- With less than one full file to fill the only file takes all of it, and the slack is more
than what is left. -/
theorem fillLoop_one_wraps (hfree : freeSize.toNat = fileSize.toNat + 524288000) :
    ¬ ∀ x ∈ fillLoop dirname calls 1 i freeSize fileSize, x.NoWrap := by
  rw [fillLoop_one_iff]
  omega

end

theorem toNat_numfiles (fillSize : UInt64) :
    (fillSize / MAX_FILE_SIZE + 1).toNat = fillSize.toNat / 2147483648 + 1 := by
  have hlt := fillSize.toNat_lt
  rw [UInt64.toNat_add, UInt64.toNat_div, toNat_MAX_FILE_SIZE, UInt64.toNat_one]
  omega

theorem main_eq_some {dirname : List Char} {fs : StatFs} {allocated : Bool} {calls : Nat → Calls}
    {rounds : List Round} (h : main dirname fs allocated calls = some rounds) :
    TEST_FILE_SIZE ≤ fs.freeSize ∧
      rounds = fillLoop dirname calls ((fs.freeSize - TEST_FILE_SIZE).toNat / 2147483648 + 1) 0
        fs.freeSize
        (if MAX_FILE_SIZE > fs.freeSize - TEST_FILE_SIZE then fs.freeSize - TEST_FILE_SIZE
          else MAX_FILE_SIZE) := by
  rw [main] at h
  split at h
  · cases h
  split at h
  · cases h
  split at h
  · cases h
  next hfree =>
  split at h
  · cases h
  cases h
  exact ⟨UInt64.not_lt.mp hfree, by rw [toNat_numfiles]⟩

/-- Whatever the calls of `create_file` return. -/
theorem fills_iff {dirname : List Char} {fs : StatFs} {allocated : Bool} {calls : Nat → Calls}
    {rounds : List Round} (h : main dirname fs allocated calls = some rounds) :
    Fills fs.freeSize rounds ↔ HasSlack fs.freeSize := by
  obtain ⟨hfree, rfl⟩ := main_eq_some h
  rw [fills_iff_noWrap hfree]
  have hfill := toNat_left hfree
  rw [toNat_TEST_FILE_SIZE] at hfill
  have htest : 524288000 ≤ fs.freeSize.toNat := UInt64.le_iff_toNat_le.mp hfree
  have hslack : HasSlack fs.freeSize ↔
      2147483648 ≤ (fs.freeSize - TEST_FILE_SIZE).toNat ∧
        104858112 ≤ (fs.freeSize - TEST_FILE_SIZE).toNat % 2147483648 ∧
        (fs.freeSize - TEST_FILE_SIZE).toNat % 2147483648 + 524288000 < 2147483648 := by
    rw [hfill]
    exact Iff.rfl
  rw [hslack]
  generalize hsize : fs.freeSize - TEST_FILE_SIZE = fillSize at hfill ⊢
  by_cases hfull : 2147483648 ≤ fillSize.toNat
  · have hlarge : ¬ MAX_FILE_SIZE > fillSize := by
      rw [gt_iff_lt, UInt64.lt_iff_toNat_lt, toNat_MAX_FILE_SIZE]
      exact Nat.not_lt.mpr hfull
    obtain ⟨k, hk⟩ : ∃ k, fillSize.toNat / 2147483648 = k + 1 :=
      Nat.exists_eq_add_one.mpr (Nat.div_pos hfull (by decide))
    rw [if_neg hlarge, hk, and_iff_right hfull]
    exact fillLoop_noWrap_iff (by omega) (Nat.mod_lt _ (by decide))
  · have hsmall : MAX_FILE_SIZE > fillSize := UInt64.lt_iff_toNat_lt.mpr (Nat.not_le.mp hfull)
    rw [if_pos hsmall, Nat.div_eq_of_lt (Nat.not_le.mp hfull)]
    constructor
    · rintro hwrap
      exact absurd hwrap (fillLoop_one_wraps (by omega))
    · rintro ⟨hle, -⟩
      exact absurd hle hfull

def succeeding : Calls := ⟨0, 0, 512, true, by decide⟩

def freeMB (n : UInt64) : StatFs := ⟨OCFS2_SUPER_MAGIC, MB, n, n⟩

theorem fills_three_gib :
    ∃ rounds, main ['/'] (freeMB 3072) true (fun _ => succeeding) = some rounds ∧
      Fills (freeMB 3072).freeSize rounds := by
  obtain ⟨rounds, h⟩ :
      ∃ rounds, main ['/'] (freeMB 3072) true (fun _ => succeeding) = some rounds := ⟨_, rfl⟩
  exact ⟨rounds, h, (fills_iff h).mpr (by decide)⟩

/-- With 4 GiB free both files get 2 GiB. -/
theorem overfills_four_gib :
    ∃ rounds, main ['/'] (freeMB 4096) true (fun _ => succeeding) = some rounds ∧
      (∀ r ∈ rounds, r.created.1 = 0) ∧ ¬ Fills (freeMB 4096).freeSize rounds := by
  refine ⟨_, rfl, by decide, fun h => ?_⟩
  exact absurd h.sum (by decide)

end Ocfs2Test.EnospcTest
