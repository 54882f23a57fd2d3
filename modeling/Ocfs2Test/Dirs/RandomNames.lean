import Ocfs2Test.Dirs.Destroy
import Ocfs2Test.Lib.CharBuffer

/-!
# Random names and their buffers

`get_rand_nam` draws the length of a name from an inclusive range and writes a
NUL behind it, into an array of `OCFS2_MAX_FILENAME_LEN` bytes. Callers that
give that constant as the end of the range step over the array with the last
draw; where numbers are printed behind the name, they have to be short.
-/

namespace Ocfs2Test.Dirs.RandomNames

open Lib Lib.Stdio CString CharBuffer Destroy

def NAME_MAX : Nat := 255

/-- An array of names' size, with anything in it. -/
abbrev NameBuf := { buf : List Char // buf.length = OCFS2_MAX_FILENAME_LEN }

/-- `get_rand_nam` from the `k`-th random number on; it has no result when it
writes outside `str`. -/
def getRandNam (str : List Char) (least most : Nat) (rand : Nat → Rand) (k : Nat) :
    Option (List Char) := do
  let letters := (AnyCalls.getRandNam least most rand k).1
  let str ← clear str OCFS2_MAX_FILENAME_LEN
  let str ← storeFrom str 0 letters
  store str letters.length nul

/-- The calls, with the numbers that the caller prints behind the name. -/
inductive CallSite
  | dirOpsCreateFiles
  | dirOpsBuildDirTree (layer i : UInt64)
  | indexDirCreateFiles
  | indexDirBuildDirTree (layer i : UInt64)
  | indexDirStressTest
  | multiIndexDirCreateFiles
  | multiIndexDirStressTest (rank : Nat)

namespace CallSite

def least : CallSite → Nat
  | dirOpsCreateFiles | indexDirCreateFiles => 3
  | _ => 1

def most : CallSite → Nat
  | indexDirCreateFiles => OCFS2_MAX_FILENAME_LEN / 4
  | dirOpsBuildDirTree .. | indexDirBuildDirTree .. => OCFS2_MAX_FILENAME_LEN - 20
  | multiIndexDirStressTest _ => OCFS2_MAX_FILENAME_LEN - 4
  | _ => OCFS2_MAX_FILENAME_LEN

/-- `"%s%ld%ld"` and `"%s-%d"` behind the name. -/
def suffix : CallSite → List Char
  | dirOpsBuildDirTree layer i | indexDirBuildDirTree layer i =>
    printLong layer.toNat ++ printLong i.toNat
  | multiIndexDirStressTest rank => '-' :: printInt rank
  | _ => []

/-- The name goes through `create_file`. -/
def copied : CallSite → Bool
  | dirOpsCreateFiles | indexDirCreateFiles | multiIndexDirCreateFiles => true
  | _ => false

/-- The name of the file, from the arrays `dirent_nam` and `my_dirent.name`;
none when something is written outside of one. -/
def makeName (c : CallSite) (direntNam name : NameBuf) (rand : Nat → Rand) (k : Nat) :
    Option (List Char) := do
  let direntNam ← getRandNam direntNam.val c.least c.most rand k
  match c.copied with
  | true => (strcpy name.val direntNam).map text
  | false => some (text direntNam ++ c.suffix)

/-- Everything stays inside its array, and the system takes the name. -/
def Fits (c : CallSite) (direntNam name : NameBuf) (rand : Nat → Rand) (k : Nat) : Prop :=
  ∃ file, c.makeName direntNam name rand k = some file ∧ file.length ≤ NAME_MAX

/-- The draw is not the last one, or what is printed behind the name is short. -/
def DrawFits : CallSite → Rand → Prop
  | dirOpsCreateFiles, r => r.val % 253 ≠ 252
  | indexDirCreateFiles, _ => True
  | indexDirStressTest, r | multiIndexDirCreateFiles, r => r.val % 255 ≠ 254
  | dirOpsBuildDirTree layer i, r | indexDirBuildDirTree layer i, r =>
    r.val % 235 + 1 + (printLong layer.toNat).length + (printLong i.toNat).length ≤ 255
  | multiIndexDirStressTest rank, r => r.val % 251 + 2 + (printInt rank).length ≤ 255

end CallSite

section
variable (least most : Nat) (rand : Nat → Rand) (k : Nat)

theorem clean_letters : Clean (AnyCalls.getRandNam least most rand k).1 := by
  intro hmem
  rw [AnyCalls.getRandNam, List.mem_map] at hmem
  obtain ⟨j, -, hj⟩ := hmem
  exact IndexDir.randChar_ne (show nul.toNat < 65 by decide) _ hj

theorem length_letters : (AnyCalls.getRandNam least most rand k).1.length =
    getRand least most (rand k) := by
  simp [AnyCalls.getRandNam]

theorem getRandNam_eq_some_iff (str : NameBuf) (str' : List Char) :
    getRandNam str.val least most rand k = some str' ↔
      getRand least most (rand k) < OCFS2_MAX_FILENAME_LEN ∧
        str' = (AnyCalls.getRandNam least most rand k).1 ++
          List.replicate (OCFS2_MAX_FILENAME_LEN - getRand least most (rand k)) nul := by
  rw [getRandNam, clear_all str.2, Option.bind_eq_bind, Option.bind_some, ← length_letters]
  generalize (AnyCalls.getRandNam least most rand k).1 = letters
  constructor
  · intro h
    obtain ⟨buf, hbuf, h⟩ := Option.bind_eq_some_iff.mp h
    obtain ⟨hle, rfl⟩ := storeFrom_cleared_iff.mp hbuf
    exact (store_nul_iff hle).mp h
  · rintro ⟨hlt, rfl⟩
    have hle := Nat.le_of_lt hlt
    exact Option.bind_eq_some_iff.mpr
      ⟨_, storeFrom_cleared_iff.mpr ⟨hle, rfl⟩, (store_nul_iff hle).mpr ⟨hlt, rfl⟩⟩

theorem text_getRandNam (str : NameBuf) (h : getRandNam str.val least most rand k = some str') :
    text str' = (AnyCalls.getRandNam least most rand k).1 := by
  obtain ⟨-, rfl⟩ := (getRandNam_eq_some_iff least most rand k str str').mp h
  exact text_padded (clean_letters least most rand k) _

end

namespace CallSite

theorem least_lt_most (c : CallSite) : c.least < c.most := by
  cases c <;> simp [least, most, OCFS2_MAX_FILENAME_LEN]

theorem suffix_of_copied {c : CallSite} (h : c.copied = true) : c.suffix = [] := by
  cases c <;> first | contradiction | rfl

section
variable (c : CallSite) (direntNam name : NameBuf) (rand : Nat → Rand) (k : Nat)

theorem makeName_eq_some_iff (file : List Char) :
    c.makeName direntNam name rand k = some file ↔
      getRand c.least c.most (rand k) < OCFS2_MAX_FILENAME_LEN ∧
        file = (AnyCalls.getRandNam c.least c.most rand k).1 ++ c.suffix := by
  have htext (str : List Char) (h : getRandNam direntNam.val c.least c.most rand k = some str) :
      text str = (AnyCalls.getRandNam c.least c.most rand k).1 :=
    text_getRandNam c.least c.most rand k direntNam h
  have hlen := length_letters c.least c.most rand k
  have hsome (hlt : getRand c.least c.most (rand k) < OCFS2_MAX_FILENAME_LEN) :
      ∃ str, getRandNam direntNam.val c.least c.most rand k = some str :=
    ⟨_, (getRandNam_eq_some_iff c.least c.most rand k direntNam _).mpr ⟨hlt, rfl⟩⟩
  rw [makeName, Option.bind_eq_bind, Option.bind_eq_some_iff]
  cases hc : c.copied with
  | false =>
    constructor
    · rintro ⟨str, hstr, hfile⟩
      refine ⟨((getRandNam_eq_some_iff _ _ _ _ _ _).mp hstr).1, ?_⟩
      rw [← htext str hstr]
      exact (Option.some.inj hfile).symm
    · rintro ⟨hlt, rfl⟩
      obtain ⟨str, hstr⟩ := hsome hlt
      exact ⟨str, hstr, by simp only [htext str hstr]⟩
  | true =>
    rw [suffix_of_copied hc, List.append_nil]
    constructor
    · rintro ⟨str, hstr, hfile⟩
      obtain ⟨buf, hbuf, rfl⟩ := Option.map_eq_some_iff.mp hfile
      refine ⟨((getRandNam_eq_some_iff _ _ _ _ _ _).mp hstr).1, ?_⟩
      rw [text_strcpy hbuf, htext str hstr]
    · rintro ⟨hlt, rfl⟩
      obtain ⟨str, hstr⟩ := hsome hlt
      have hfits : (text str).length < name.val.length := by
        rw [htext str hstr, hlen, name.2]
        exact hlt
      have hbuf := strcpy_eq_some_iff.mpr ⟨hfits, rfl⟩
      refine ⟨str, hstr, Option.map_eq_some_iff.mpr ⟨_, hbuf, ?_⟩⟩
      rw [text_strcpy hbuf, htext str hstr]

theorem makeName_buildDirTree (b : Build) (hrandom : b.random = true) (letter : Char)
    (layer i : UInt64)
    (h : (indexDirBuildDirTree layer i).makeName direntNam name b.rand k = some file) :
    file = (entryName b letter layer.toNat i.toNat k).1 := by
  obtain ⟨-, rfl⟩ := (makeName_eq_some_iff _ _ _ _ _ _).mp h
  rw [entryName, if_pos hrandom, List.append_assoc]
  rfl

theorem fits_iff_getRand : c.Fits direntNam name rand k ↔
    getRand c.least c.most (rand k) < OCFS2_MAX_FILENAME_LEN ∧
      getRand c.least c.most (rand k) + c.suffix.length ≤ NAME_MAX := by
  rw [Fits]
  simp only [makeName_eq_some_iff]
  constructor
  · rintro ⟨file, ⟨hlt, rfl⟩, hle⟩
    rw [List.length_append, length_letters] at hle
    exact ⟨hlt, hle⟩
  · rintro ⟨hlt, hle⟩
    refine ⟨_, ⟨hlt, rfl⟩, ?_⟩
    rw [List.length_append, length_letters]
    exact hle

theorem drawFits_iff_getRand (r : Rand) : c.DrawFits r ↔
    getRand c.least c.most r < OCFS2_MAX_FILENAME_LEN ∧
      getRand c.least c.most r + c.suffix.length ≤ NAME_MAX := by
  have hdraw : getRand c.least c.most r = c.least + r.val % (c.most - c.least + 1) := by
    have := c.least_lt_most
    rw [getRand, if_neg (by omega)]
  rw [hdraw]
  have hlt (n : Nat) := Nat.mod_lt r.val (Nat.succ_pos n)
  cases c with
  | indexDirCreateFiles =>
    have := hlt 60
    simp only [least, most, suffix, DrawFits, OCFS2_MAX_FILENAME_LEN, NAME_MAX, List.length_nil,
      true_iff]
    omega
  | dirOpsCreateFiles | indexDirStressTest | multiIndexDirCreateFiles =>
    have := hlt 252
    have := hlt 254
    simp only [least, most, suffix, DrawFits, OCFS2_MAX_FILENAME_LEN, NAME_MAX, List.length_nil]
    omega
  | dirOpsBuildDirTree layer i | indexDirBuildDirTree layer i =>
    have := hlt 234
    simp only [least, most, suffix, DrawFits, OCFS2_MAX_FILENAME_LEN, NAME_MAX, List.length_append]
    omega
  | multiIndexDirStressTest rank =>
    have := hlt 250
    simp only [least, most, suffix, DrawFits, OCFS2_MAX_FILENAME_LEN, NAME_MAX, List.length_cons]
    omega

/-- **Exactly the draws that fit.** -/
theorem fits_iff_drawFits : c.Fits direntNam name rand k ↔ c.DrawFits (rand k) := by
  rw [fits_iff_getRand, drawFits_iff_getRand]

end

/-- The last length of the range in `create_files` of `dir_ops.c`. -/
theorem not_always_fits : ¬ ∀ (c : CallSite) (direntNam name : NameBuf) (rand : Nat → Rand)
    (k : Nat), c.Fits direntNam name rand k := by
  intro h
  let cleared : NameBuf := ⟨List.replicate OCFS2_MAX_FILENAME_LEN nul, List.length_replicate⟩
  have hfits := h .dirOpsCreateFiles cleared cleared (fun _ => 252) 0
  rw [fits_iff_getRand] at hfits
  exact absurd hfits.1 (by decide)

end CallSite

end Ocfs2Test.Dirs.RandomNames
