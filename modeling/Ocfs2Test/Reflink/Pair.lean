import Ocfs2Test.Lib.ByteFile

/-!
# verify_reflink_pair

Two files are read hunk by hunk until one of them ends. Which of them it is, and
whether the other one has ended too, is not asked.
-/

namespace Ocfs2Test.Reflink

open Lib

def HUNK_SIZE : Nat := 1024 * 1024

def memcmp (a b : List UInt8) : Int := if a = b then 0 else if a < b then -1 else 1

/-- The loop of `verify_reflink_pair` with both files at `offset`. -/
def comparePair (src dest : ByteFile) (offset : Nat) : Int :=
  let bufs := src.pread HUNK_SIZE offset
  if bufs.length = 0 then 0
  else
    let bufd := dest.pread HUNK_SIZE offset
    if bufd.length = 0 then 0
    else if bufs.length ≠ bufd.length then 1
    else if memcmp bufs bufd ≠ 0 then memcmp bufs bufd
    else comparePair src dest (offset + bufs.length)
termination_by src.size - offset
decreasing_by
  simp only [ByteFile.length_pread, bufs] at *
  omega

/-- A file that cannot be opened gives `none`. -/
def verifyReflinkPair (src dest : Option ByteFile) : Int :=
  match src, dest with
  | some src, some dest => comparePair src dest 0
  | none, _ | some _, none => -1

variable {src dest : ByteFile} {offset : Nat}

theorem memcmp_eq_zero {a b : List UInt8} : memcmp a b = 0 ↔ a = b := by
  rw [memcmp]
  split
  · next h => exact iff_of_true rfl h
  · next h =>
    refine iff_of_false ?_ h
    split <;> decide

def SameBytes (a b : Nat → UInt8) (lo hi : Nat) : Prop := ∀ x, lo ≤ x → x < hi → a x = b x

theorem SameBytes.split {a b : Nat → UInt8} {lo mid hi : Nat} (hlo : lo ≤ mid) (hhi : mid ≤ hi) :
    SameBytes a b lo hi ↔ SameBytes a b lo mid ∧ SameBytes a b mid hi := by
  constructor
  · intro h
    exact ⟨fun x hx hx' => h x hx (by omega), fun x hx hx' => h x (by omega) hx'⟩
  · rintro ⟨hfst, hsnd⟩ x hx hx'
    by_cases hmid : x < mid
    · exact hfst x hx hmid
    · exact hsnd x (Nat.not_lt.mp hmid) hx'

theorem pread_eq_pread {n k : Nat} (hs : (src.pread n offset).length = k)
    (hd : (dest.pread n offset).length = k) :
    src.pread n offset = dest.pread n offset ↔ SameBytes src.byte dest.byte offset (offset + k) := by
  constructor
  · intro h x hx hx'
    obtain ⟨i, rfl⟩ := Nat.exists_eq_add_of_le hx
    have hi : i < (src.pread n offset).length := by omega
    have hi' : i < (dest.pread n offset).length := by omega
    have hbyte : (src.pread n offset)[i] = (dest.pread n offset)[i] := by
      simp only [h]
    rwa [ByteFile.pread_getElem, ByteFile.pread_getElem] at hbyte
  · intro h
    apply List.ext_getElem (hs.trans hd.symm)
    intro i hi _
    rw [ByteFile.pread_getElem, ByteFile.pread_getElem]
    apply h
    · exact Nat.le_add_right offset i
    · omega

theorem comparePair_eq_zero (h : offset ≤ min src.size dest.size) :
    comparePair src dest offset = 0 ↔
      SameBytes src.byte dest.byte offset (min src.size dest.size) ∧
        (src.size = dest.size ∨ (min src.size dest.size - offset) % HUNK_SIZE = 0) := by
  have hhunk : 0 < HUNK_SIZE := by decide
  fun_induction comparePair src dest offset with
  | case1 offset bufs hbufs =>
    simp only [bufs, ByteFile.length_pread] at hbufs
    have hend : min src.size dest.size = offset := by omega
    rw [hend, Nat.sub_self]
    exact iff_of_true rfl ⟨fun x hx hx' => by omega, .inr rfl⟩
  | case2 offset bufs hbufs bufd hbufd =>
    simp only [bufd, ByteFile.length_pread] at hbufd
    have hend : min src.size dest.size = offset := by omega
    rw [hend, Nat.sub_self]
    exact iff_of_true rfl ⟨fun x hx hx' => by omega, .inr rfl⟩
  | case3 offset bufs hbufs bufd hbufd hne =>
    -- the shorter file ends inside this hunk
    simp only [bufs, bufd, ByteFile.length_pread] at hbufs hbufd hne
    refine iff_of_false (by decide) ?_
    rintro ⟨-, heq | hmod⟩
    · rw [heq] at hne
      exact hne rfl
    · rw [Nat.mod_eq_of_lt (by omega)] at hmod
      omega
  | case4 offset bufs hbufs bufd hbufd hlen hne =>
    refine iff_of_false hne ?_
    rintro ⟨hsame, -⟩
    refine hne (memcmp_eq_zero.mpr ((pread_eq_pread rfl (not_not.mp hlen).symm).mpr ?_))
    intro x hx hx'
    apply hsame x hx
    rw [not_not] at hlen
    simp only [bufs, bufd, ByteFile.length_pread] at hlen hx'
    omega
  | case5 offset bufs hbufs bufd hbufd hlen heq ih =>
    rw [not_not] at hlen heq
    have hsame : SameBytes src.byte dest.byte offset (offset + bufs.length) :=
      (pread_eq_pread rfl hlen.symm).mp (memcmp_eq_zero.mp heq)
    have hle : offset + bufs.length ≤ min src.size dest.size := by
      simp only [bufs, bufd, ByteFile.length_pread] at hlen ⊢
      omega
    have hmod : (min src.size dest.size - (offset + bufs.length)) % HUNK_SIZE =
          (min src.size dest.size - offset) % HUNK_SIZE ∨ src.size = dest.size := by
      simp only [bufs, bufd, ByteFile.length_pread] at hlen hle ⊢
      by_cases hfull : HUNK_SIZE ≤ src.size - offset
      · rw [Nat.min_eq_left hfull] at hle ⊢
        left
        rw [← Nat.sub_sub, ← Nat.mod_eq_sub_mod (by omega)]
      · right
        omega
    refine (ih hle).trans ?_
    rw [SameBytes.split (Nat.le_add_right offset bufs.length) hle]
    rcases hmod with hmod | heq
    · rw [hmod]
      simp only [hsame, true_and]
    · simp only [hsame, heq, true_and, true_or]

/-- Every difference of the two files is found when they have one size, or the
shorter one does not end with a hunk, or they differ before its end. -/
theorem verifyReflinkPair_iff (src dest : ByteFile) :
    (verifyReflinkPair (some src) (some dest) = 0 ↔ src = dest) ↔
      src.size = dest.size ∨ min src.size dest.size % HUNK_SIZE ≠ 0 ∨
        ∃ x < min src.size dest.size, src.byte x ≠ dest.byte x := by
  have hfile : src = dest ↔
      SameBytes src.byte dest.byte 0 (min src.size dest.size) ∧ src.size = dest.size := by
    constructor
    · rintro rfl
      exact ⟨fun x _ _ => rfl, rfl⟩
    · rintro ⟨hsame, hsize⟩
      refine ByteFile.ext hsize (funext fun x => ?_)
      by_cases hx : x < src.size
      · exact hsame x (Nat.zero_le x) (by omega)
      · rw [src.zero_beyond x (by omega), dest.zero_beyond x (by omega)]
  have hdiff : (∃ x < min src.size dest.size, src.byte x ≠ dest.byte x) ↔
      ¬ SameBytes src.byte dest.byte 0 (min src.size dest.size) := by
    simp only [SameBytes, Nat.zero_le, true_imp_iff, not_forall, exists_prop, ne_eq]
  rw [verifyReflinkPair, comparePair_eq_zero (Nat.zero_le _), Nat.sub_zero, hfile, hdiff]
  tauto

/-- An empty file is taken for a copy of one with a byte. -/
theorem verifyReflinkPair_empty :
    ∃ src : ByteFile, verifyReflinkPair (some src) (some ByteFile.empty) = 0 ∧
      src ≠ ByteFile.empty := by
  refine ⟨ByteFile.empty.pwrite [65] 0, ?_, fun h => ?_⟩
  · rw [verifyReflinkPair, comparePair_eq_zero (Nat.zero_le _)]
    exact ⟨fun x _ hx => absurd hx (Nat.not_lt_zero x), .inr rfl⟩
  · exact absurd (congrArg ByteFile.size h) (by decide)

end Ocfs2Test.Reflink
