import Ocfs2Test.Lib.Transfer

/-!
# read_at

Four programs have a `read_at` of their own. Each calls `pread` until no bytes are
missing, whether or not there are any left in the file; the one of file_verify.c
cuts the range at a size it is given before it starts.
-/

namespace Ocfs2Test.FileOps

open Lib

/-- What the calls of `pread` find: the size of the file, and for each call in turn
an error, or how many bytes it gets at once. -/
structure Reads where
  size : Nat
  result : Nat → Option Nat

/-- No read or write is longer. -/
def MAX_RW_COUNT : Nat := 0x7ffff000

/-- Nothing is read at the end of the file, and nowhere else. -/
def Reads.pread (e : Reads) (k count offset : Nat) : Option Nat :=
  (e.result k).map fun n => min (min count (e.size - offset)) (max 1 (min n MAX_RW_COUNT))

/-- The call behind `done` bytes; `k` calls came before it. -/
def Reads.call (e : Reads) (count offset k done : Nat) : Nat × Option Nat :=
  (k + 1, e.pread k (count - done) (offset + done))

def toInt (n : Nat) : Int := (n : Int).bmod (2 ^ 32)

section
variable (e : Reads)

def readLoop (count offset : Nat) (success : Int) (fuel : Nat) : Option Int :=
  (Transfer.loop (e.call count offset) count fuel 0 0).map fun r => if r.2 then success else -1

/-- `read_at` of libocfs2test's file_ops.c. -/
def readAt (count offset fuel : Nat) : Option Int := readLoop e count offset 0 fuel

def DirectioUtils.readAt (count offset fuel : Nat) : Option Int :=
  readLoop e count offset (toInt count) fuel

def ReflinkTestUtils.readAt (count offset fuel : Nat) : Option Int := readLoop e count offset 0 fuel

/-- What file_verify.c reads of the range. The sum is one of `size_t`. -/
def FileVerify.clamp (count offset iSize : Nat) : Nat :=
  if iSize < (offset + count) % 2 ^ 64 ∧ offset ≤ iSize then iSize - offset else count

def FileVerify.readAt (count offset iSize fuel : Nat) : Option Int :=
  let count := FileVerify.clamp count offset iSize
  if count = 0 then some 0 else readLoop e count offset (toInt count) fuel

end

/-- Nothing is asked for that the file does not have. -/
def Inside (size offset count : Nat) : Prop := count = 0 ∨ offset + count ≤ size

instance (size offset count : Nat) : Decidable (Inside size offset count) :=
  inferInstanceAs (Decidable (_ ∨ _))

/-- The call ends, and bytes that are missing are not returned as read. `all` is
what it returns for all of them. -/
def Reports (size offset count : Nat) (all : Int) (run : Nat → Option Int) : Prop :=
  ∃ fuel r, run fuel = some r ∧ (¬ Inside size offset count → r ≠ all)

def Reads.Fails (e : Reads) : Prop := ∃ k, e.result k = none

-- ---------------------------------------------------------------------------
-- The loop
-- ---------------------------------------------------------------------------

section
variable {e : Reads} {count offset fuel k done : Nat}

def InFile (size count offset : Nat) (_ done : Nat) : Prop :=
  done ≤ count ∧ (done = 0 ∨ offset + done ≤ size)

theorem call_some (h : e.call count offset k done = (k', some n)) :
    n ≤ count - done ∧ n ≤ e.size - (offset + done) ∧
      (0 < count - done → 0 < e.size - (offset + done) → 0 < n) := by
  simp only [Reads.call, Reads.pread, Prod.mk.injEq, Option.map_eq_some_iff] at h
  obtain ⟨-, m, -, rfl⟩ := h
  omega

theorem call_of_result (h : e.result k = some n) :
    ∃ m, e.call count offset k done = (k + 1, some m) := by
  rw [Reads.call, Reads.pread, h, Option.map_some]
  exact ⟨_, rfl⟩

theorem preserved_inFile (e : Reads) (count offset : Nat) :
    Transfer.Preserved (e.call count offset) (InFile e.size count offset) := by
  rintro k done k' n ⟨hcount, hsize⟩ hcall
  obtain ⟨hn, hleft, -⟩ := call_some hcall
  exact ⟨by omega, by omega⟩

theorem inside_of_loop (h : Transfer.loop (e.call count offset) count fuel 0 0 = some (k', true)) :
    Inside e.size offset count := by
  obtain ⟨total, htotal, hcount, hsize⟩ :=
    (preserved_inFile e count offset).of_true ⟨Nat.zero_le count, .inl rfl⟩ h
  obtain rfl : total = count := Nat.le_antisymm hcount htotal
  exact hsize

theorem exists_loop_of_inside (h : Inside e.size offset count) :
    ∃ fuel r, Transfer.loop (e.call count offset) count fuel 0 0 = some r := by
  refine (preserved_inFile e count offset).exists_loop ⟨Nat.zero_le count, .inl rfl⟩ ?_
  rintro k done k' n ⟨-, -⟩ hmore hcall
  obtain ⟨-, -, hpos⟩ := call_some hcall
  rcases h with rfl | h
  · exact absurd hmore (Nat.not_lt_zero done)
  · exact hpos (by omega) (by omega)

theorem result_of_running (h : Transfer.loop (e.call count offset) count fuel k done = none)
    (hj : j < fuel) : e.result (k + j) ≠ none := by
  induction fuel generalizing k done j with
  | zero => exact absurd hj (Nat.not_lt_zero j)
  | succ fuel ih =>
    cases hresult : e.result k with
    | none =>
      have hcall : e.call count offset k done = (k + 1, none) := by
        rw [Reads.call, Reads.pread, hresult, Option.map_none]
      rw [Transfer.loop_error hcall] at h
      cases h
    | some n =>
      cases j with
      | zero => simp [hresult]
      | succ j =>
        obtain ⟨m, hcall⟩ := call_of_result hresult
        by_cases hmore : done + m < count
        · rw [Transfer.loop_more hcall hmore] at h
          have := ih h (Nat.lt_of_succ_lt_succ hj)
          rwa [Nat.add_assoc, Nat.add_comm 1] at this
        · rw [Transfer.loop_last hcall (Nat.not_lt.mp hmore)] at h
          cases h

theorem loop_outside (hin : ¬ Inside e.size offset count) (hok : ¬ e.Fails) :
    Transfer.loop (e.call count offset) count fuel 0 0 = none := by
  rw [Inside, not_or, Nat.not_le] at hin
  obtain ⟨hpos, hout⟩ := hin
  have hstart : InFile e.size count offset 0 0 := ⟨Nat.zero_le count, .inl rfl⟩
  refine Transfer.loop_eq_none hstart ?_
  intro k done hinv
  cases hresult : e.result k with
  | none => exact absurd ⟨k, hresult⟩ hok
  | some n =>
    obtain ⟨m, hcall⟩ := call_of_result hresult
    have hnext := preserved_inFile e count offset k done (k + 1) m hinv hcall
    exact ⟨_, m, hcall, hnext, by have := hnext.2; omega⟩

/-- A loop ends where the range is inside of the file or a call fails, and only
there. -/
theorem exists_loop_iff : (∃ fuel r, Transfer.loop (e.call count offset) count fuel 0 0 = some r) ↔
    Inside e.size offset count ∨ e.Fails := by
  constructor
  · rintro ⟨fuel, r, h⟩
    by_contra hout
    rw [not_or] at hout
    rw [loop_outside hout.1 hout.2] at h
    cases h
  · rintro (h | ⟨k, hk⟩)
    · exact exists_loop_of_inside h
    · refine ⟨k + 1, ?_⟩
      rw [← Option.ne_none_iff_exists']
      intro h
      have := result_of_running h (Nat.lt_succ_self k)
      rw [Nat.zero_add] at this
      exact this hk

theorem exists_readLoop_iff (success : Int) :
    (∃ fuel r, readLoop e count offset success fuel = some r) ↔
      Inside e.size offset count ∨ e.Fails := by
  rw [← exists_loop_iff]
  constructor
  · rintro ⟨fuel, r, h⟩
    obtain ⟨s, hs, -⟩ := Option.map_eq_some_iff.mp h
    exact ⟨fuel, s, hs⟩
  · rintro ⟨fuel, s, hs⟩
    exact ⟨fuel, _, Option.map_eq_some_iff.mpr ⟨s, hs, rfl⟩⟩

theorem exists_readLoop_success (h : Inside e.size offset count) (hok : ¬ e.Fails) (success : Int) :
    ∃ fuel, readLoop e count offset success fuel = some success := by
  obtain ⟨fuel, ⟨k', ok⟩, hloop⟩ := exists_loop_of_inside h
  cases ok with
  | true => exact ⟨fuel, by rw [readLoop, hloop]; rfl⟩
  | false =>
    obtain ⟨k, done, -, hcall⟩ :=
      (preserved_inFile e count offset).of_false ⟨Nat.zero_le count, .inl rfl⟩ hloop
    simp only [Reads.call, Reads.pread, Prod.mk.injEq, Option.map_eq_none_iff] at hcall
    exact absurd ⟨k, hcall.2⟩ hok

theorem readLoop_outside {success r : Int} (h : readLoop e count offset success fuel = some r)
    (hout : ¬ Inside e.size offset count) : r = -1 := by
  rw [readLoop, Option.map_eq_some_iff] at h
  obtain ⟨⟨k', ok⟩, hloop, rfl⟩ := h
  cases ok with
  | false => rfl
  | true => exact absurd (inside_of_loop hloop) hout

theorem reports_readLoop {all success : Int} (hall : all ≠ -1) :
    Reports e.size offset count all (readLoop e count offset success) ↔
      Inside e.size offset count ∨ e.Fails := by
  rw [← exists_readLoop_iff success]
  constructor
  · rintro ⟨fuel, r, h, -⟩
    exact ⟨fuel, r, h⟩
  · rintro ⟨fuel, r, h⟩
    exact ⟨fuel, r, h, fun hout => (readLoop_outside h hout).trans_ne hall.symm⟩

end

-- ---------------------------------------------------------------------------
-- The range that is cut
-- ---------------------------------------------------------------------------

section
variable {e : Reads} {count offset iSize : Nat}

theorem toInt_le (n : Nat) : toInt n ≤ n := by
  have hmod : (n : Int) % (2 ^ 32 : Nat) ≤ n := by
    exact_mod_cast Nat.mod_le n (2 ^ 32)
  unfold toInt
  rw [Int.bmod_def]
  split
  · exact hmod
  · exact (Int.sub_le_self _ (Int.natCast_nonneg _)).trans hmod

theorem FileVerify.clamp_lt (h : clamp count offset iSize ≠ count) :
    clamp count offset iSize < count := by
  unfold clamp at h ⊢
  split
  · next hcut =>
    have := Nat.mod_le (offset + count) (2 ^ 64)
    omega
  · next hcut => exact absurd (if_neg hcut) h

theorem FileVerify.reports_iff :
    Reports e.size offset count count (FileVerify.readAt e count offset iSize) ↔
      Inside e.size offset (clamp count offset iSize) ∨ e.Fails := by
  by_cases hzero : clamp count offset iSize = 0
  · refine iff_of_true ⟨0, 0, by rw [readAt, if_pos hzero], fun hout hall => ?_⟩ (.inl (.inl hzero))
    exact hout (.inl (by omega))
  · have hrun : FileVerify.readAt e count offset iSize =
        readLoop e (clamp count offset iSize) offset (toInt (clamp count offset iSize)) :=
      funext fun _ => if_neg hzero
    rw [hrun, ← exists_readLoop_iff (toInt (clamp count offset iSize))]
    constructor
    · rintro ⟨fuel, r, h, -⟩
      exact ⟨fuel, r, h⟩
    · rintro ⟨fuel, r, h⟩
      refine ⟨fuel, r, h, fun hout hall => ?_⟩
      have hin : Inside e.size offset (clamp count offset iSize) := by
        by_contra hin
        rw [readLoop_outside h hin] at hall
        omega
      -- the range was cut, and less than all of it is returned
      have hlt : clamp count offset iSize < count := by
        refine clamp_lt fun heq => hout ?_
        rwa [heq] at hin
      rw [readLoop, Option.map_eq_some_iff] at h
      obtain ⟨⟨k, ok⟩, -, rfl⟩ := h
      have := toInt_le (clamp count offset iSize)
      cases ok <;> simp at hall; omega

end

/-- A `read_at` ends, and tells of missing bytes, where its range is inside of the
file or a call fails. The one of file_verify.c may cut the range before. -/
theorem readAt_reports_iff (e : Reads) (count offset iSize : Nat) :
    (Reports e.size offset count 0 (readAt e count offset) ↔
        Inside e.size offset count ∨ e.Fails) ∧
      (Reports e.size offset count count (DirectioUtils.readAt e count offset) ↔
        Inside e.size offset count ∨ e.Fails) ∧
      (Reports e.size offset count 0 (ReflinkTestUtils.readAt e count offset) ↔
        Inside e.size offset count ∨ e.Fails) ∧
      (Reports e.size offset count count (FileVerify.readAt e count offset iSize) ↔
        Inside e.size offset (FileVerify.clamp count offset iSize) ∨ e.Fails) :=
  ⟨reports_readLoop (by decide), reports_readLoop (by omega), reports_readLoop (by decide),
    FileVerify.reports_iff⟩

/-- Two bytes of a file of one byte, whatever the reads get; for file_verify.c the
file was two bytes long before. -/
theorem readAt_short_file :
    ¬ Reports 1 0 2 0 (readAt ⟨1, fun _ => some 1⟩ 2 0) ∧
      ¬ Reports 1 0 2 2 (DirectioUtils.readAt ⟨1, fun _ => some 1⟩ 2 0) ∧
      ¬ Reports 1 0 2 0 (ReflinkTestUtils.readAt ⟨1, fun _ => some 1⟩ 2 0) ∧
      ¬ Reports 1 0 2 2 (FileVerify.readAt ⟨1, fun _ => some 1⟩ 2 0 2) := by
  have hok : ¬ Reads.Fails ⟨1, fun _ => some 1⟩ := by
    rintro ⟨k, hk⟩
    cases hk
  have hout : ¬ (Inside 1 0 2 ∨ Reads.Fails ⟨1, fun _ => some 1⟩) :=
    not_or.mpr ⟨by decide, hok⟩
  exact ⟨fun h => hout ((reports_readLoop (by decide)).mp h),
    fun h => hout ((reports_readLoop (by decide)).mp h),
    fun h => hout ((reports_readLoop (by decide)).mp h), fun h => hout (FileVerify.reports_iff.mp h)⟩

end Ocfs2Test.FileOps
