import Ocfs2Test.InlineData.RegularFile
import Ocfs2Test.Lib.Transition

/-!
# The shadow of an inline-data file

`inline-data-utils.c` keeps what a file should hold in `pattern`. Each call that
changes the file changes the buffer to match, and what is in the buffer past the end
of the file stays zero, so that the file can grow again. The two checks compare the
file with the buffer; the one through `mmap` drops what it finds.
-/

namespace Ocfs2Test.InlineData.Utils

open Lib Lib.Stdio

def ENOTTY : Int := 25

/-- `pattern`, the file, and the size of the file as the caller keeps it. -/
structure Shadow where
  pattern : Pattern
  file : ByteFile
  size : Nat

/-- `memset(pattern + offset, 0, bytes)`, with `bytes` as a `size_t`; outside of the
buffer it is a fault. -/
def memset (pattern : Pattern) (offset : Nat) (bytes : Int) : Option Pattern :=
  let n := (bytes % 2 ^ 64).toNat
  if offset + n ≤ PATTERN_SZ then some (clear pattern offset n) else none

/-- `int bytes`, the difference of two `unsigned int`. -/
def diff (x y : Nat) : Int := ((x : Int) - y).bmod (2 ^ 32)

-- ---------------------------------------------------------------------------
-- The calls
-- ---------------------------------------------------------------------------

/-- What is returned where `ioctl` succeeds, or fails with an `errno`. -/
def ioctlRet : Option Int → Int
  | none => 0
  | some errno => if errno = ENOTTY then errno else -1

section
variable (s : Shadow)

def ftruncate (newSize : Nat) (ok : Bool) : Shadow × Int :=
  if ok then ({ s with file := s.file.truncate newSize, size := newSize }, 0) else (s, -1)

def truncatePattern (oldSize newSize : Nat) (ok : Bool) : Option (Shadow × Int) :=
  (memset s.pattern newSize (diff oldSize newSize)).map fun pattern =>
    ftruncate { s with pattern := pattern } newSize ok

def extendPattern (oldSize newSize : Nat) (ok : Bool) : Option (Shadow × Int) :=
  (memset s.pattern oldSize (diff newSize oldSize)).map fun pattern =>
    ftruncate { s with pattern := pattern } newSize ok

def tryReserve (errno : Option Int) : Option (Shadow × Int) := some (s, ioctlRet errno)

def tryPunchHole (offset count : Nat) (errno : Option Int) : Option (Shadow × Int) :=
  (memset s.pattern offset count).map fun pattern =>
    let file := if errno = none then InlineData.tryPunchHole s.file offset count .ok else s.file
    ({ s with pattern := pattern, file := file }, ioctlRet errno)

def overwrite (pattern : Pattern) (offset : Nat) (bytes : List UInt8) : Pattern := fun i =>
  if offset ≤ i ∧ i < offset + bytes.length then bytes.getD (i - offset) 0 else pattern i

/-- `write_at`, with how many bytes `pwrite` writes, or none where it fails. -/
def writeAt (buf : Pattern) (count offset : Nat) : Option Nat → Shadow × Int
  | none => (s, -1)
  | some n =>
    let n := min n count
    ({ s with file := InlineData.writeAt s.file buf n offset }, if n ≠ count then -1 else 0)

def mmapWriteAt (buf : Pattern) (count offset : Nat) (ok : Bool) : Shadow × Int :=
  if ok then ({ s with file := InlineData.mmapWriteAt s.file buf count offset }, 0) else (s, -1)

end

def prepFile (size : Nat) (rand : Nat → Rand) (result : Option Nat) : Shadow × Int :=
  let pattern := fillPattern size rand
  writeAt ⟨pattern, ByteFile.empty, size⟩ pattern size 0 result

-- ---------------------------------------------------------------------------
-- The checks
-- ---------------------------------------------------------------------------

def verifyPattern (size : Nat) (buf pattern : Pattern) : Int :=
  if ∀ i < size, buf i = pattern i then 0 else -1

/-- `__verify_pattern_fd`; `pread` gets all there is. -/
def verifyPatternFdWith (f : ByteFile) (pattern : Pattern) (size rdSize : Nat) : Int :=
  let readBuf := f.pread rdSize 0
  if readBuf.length ≠ size then -1 else verifyPattern size (readBuf.getD · 0) pattern

def verifyPatternFd (f : ByteFile) (pattern : Pattern) (size : Nat) : Int :=
  verifyPatternFdWith f pattern size size

/-- What `verify_pattern` returns is not looked at. -/
def verifyPatternMmap (f : ByteFile) (pattern : Pattern) (size : Nat) : Int :=
  let _ret := verifyPattern size f.byte pattern
  0

-- ---------------------------------------------------------------------------
-- Histories
-- ---------------------------------------------------------------------------

/-- A call with what the system answers; the writes come after a change of the bytes
in the buffer. -/
inductive Op
  | truncatePattern (newSize : Nat) (ok : Bool)
  | extendPattern (newSize : Nat) (ok : Bool)
  | tryReserve (offset count : Nat) (errno : Option Int)
  | tryPunchHole (offset count : Nat) (errno : Option Int)
  | writeAt (offset : Nat) (bytes : List UInt8) (result : Option Nat)
  | mmapWriteAt (offset : Nat) (bytes : List UInt8) (ok : Bool)

def Op.run (s : Shadow) : Op → Option (Shadow × Int)
  | .truncatePattern newSize ok => Utils.truncatePattern s s.size newSize ok
  | .extendPattern newSize ok => Utils.extendPattern s s.size newSize ok
  | .tryReserve _ _ errno => Utils.tryReserve s errno
  | .tryPunchHole offset count errno => Utils.tryPunchHole s offset count errno
  | .writeAt offset bytes result =>
    let pattern := overwrite s.pattern offset bytes
    some (Utils.writeAt { s with pattern := pattern } (fun i => pattern (offset + i)) bytes.length
      offset result)
  | .mmapWriteAt offset bytes ok =>
    let pattern := overwrite s.pattern offset bytes
    some (Utils.mmapWriteAt { s with pattern := pattern } (fun i => pattern (offset + i))
      bytes.length offset ok)

/-- New sizes are within the buffer, all else is inside of the file. -/
def Op.Inside (s : Shadow) : Op → Prop
  | .truncatePattern newSize _ => newSize ≤ PATTERN_SZ
  | .extendPattern newSize _ => newSize ≤ PATTERN_SZ
  | .tryReserve offset count _ => offset + count ≤ s.size
  | .tryPunchHole offset count _ => offset + count ≤ s.size
  | .writeAt offset bytes _ => offset + bytes.length ≤ s.size
  | .mmapWriteAt offset bytes _ => offset + bytes.length ≤ s.size

/-- A file from `prep_file`, and calls that return 0. -/
def system : System Shadow where
  Init s := ∃ size rand result, size ≤ PATTERN_SZ ∧ prepFile size rand result = (s, 0)
  Step s s' := ∃ op : Op, op.Inside s ∧ op.run s = some (s', 0)

structure Mirrors (s : Shadow) : Prop where
  size_le : s.size ≤ PATTERN_SZ
  file : Matches s.pattern s.size s.file
  rest : ∀ i, s.size ≤ i → i < PATTERN_SZ → s.pattern i = 0

-- ---------------------------------------------------------------------------
-- Each call
-- ---------------------------------------------------------------------------

section
variable {s s' : Shadow} {pattern pattern' : Pattern} {f : ByteFile} {x y offset count n : Nat}

/-- A negative difference would be a very large `size_t`. -/
theorem memset_diff (hx : x ≤ PATTERN_SZ) (hy : y ≤ PATTERN_SZ)
    (h : memset pattern y (diff x y) = some pattern') :
    y ≤ x ∧ pattern' = clear pattern y (x - y) := by
  have hsz : PATTERN_SZ = 8192 := rfl
  have hdiff : diff x y = (x : Int) - y := by
    unfold diff
    rw [Int.bmod_def]
    split <;> omega
  rw [memset, hdiff] at h
  split at h
  · next hle =>
    have hyx : y ≤ x := by omega
    have hn : (((x : Int) - y) % 2 ^ 64).toNat = x - y := by omega
    rw [hn] at h
    exact ⟨hyx, (Option.some.inj h).symm⟩
  · cases h

theorem memset_inside (h : offset + count ≤ PATTERN_SZ) :
    memset pattern offset count = some (clear pattern offset count) := by
  have hsz : PATTERN_SZ = 8192 := rfl
  have hn : ((count : Int) % 2 ^ 64).toNat = count := by omega
  simp only [memset, hn, if_pos h]

theorem ioctlRet_eq_zero {errno : Option Int} (h : ioctlRet errno = 0) : errno = none := by
  cases errno with
  | none => rfl
  | some e =>
    have hret : ioctlRet (some e) = if e = ENOTTY then e else -1 := rfl
    rw [hret] at h
    split at h
    · next he => exact absurd (he.symm.trans h) (by decide)
    · cases h

theorem ftruncate_eq_zero {newSize : Nat} {ok : Bool} (h : ftruncate s newSize ok = (s', 0)) :
    s' = { s with file := s.file.truncate newSize, size := newSize } := by
  cases ok with
  | false => cases h
  | true => exact (congrArg Prod.fst h).symm

theorem Mirrors.truncatePattern {newSize : Nat} {ok : Bool} (h : Mirrors s)
    (hsz : newSize ≤ PATTERN_SZ)
    (hrun : Utils.truncatePattern s s.size newSize ok = some (s', 0)) : Mirrors s' := by
  rw [Utils.truncatePattern, Option.map_eq_some_iff] at hrun
  obtain ⟨pattern, hset, hret⟩ := hrun
  obtain ⟨hle, rfl⟩ := memset_diff h.size_le hsz hset
  obtain rfl := ftruncate_eq_zero hret
  refine ⟨hsz, truncate_matches (fun i hi hold => ?_) h.file.1 fun i hi hnew => ?_,
    fun i hi hlt => ?_⟩
  · rw [h.file.2 i hold]
    exact (if_neg fun hc => Nat.not_le.mpr hi hc.1).symm
  · exact absurd hi (Nat.not_lt.mpr (hle.trans hnew))
  · show clear s.pattern newSize (s.size - newSize) i = 0
    have hi : newSize ≤ i := hi
    unfold clear
    split
    · rfl
    · next hout => exact h.rest i (by omega) hlt

theorem Mirrors.extendPattern {newSize : Nat} {ok : Bool} (h : Mirrors s)
    (hsz : newSize ≤ PATTERN_SZ)
    (hrun : Utils.extendPattern s s.size newSize ok = some (s', 0)) : Mirrors s' := by
  rw [Utils.extendPattern, Option.map_eq_some_iff] at hrun
  obtain ⟨pattern, hset, hret⟩ := hrun
  obtain ⟨hle, rfl⟩ := memset_diff hsz h.size_le hset
  obtain rfl := ftruncate_eq_zero hret
  refine ⟨hsz, truncate_matches (fun i hi hold => ?_) h.file.1 fun i hi hnew => ?_,
    fun i hi hlt => ?_⟩
  · rw [h.file.2 i hold]
    exact (if_neg fun hc => Nat.not_le.mpr hold hc.1).symm
  · have hi : i < newSize := hi
    exact if_pos ⟨hnew, by omega⟩
  · show clear s.pattern s.size (newSize - s.size) i = 0
    have hi : newSize ≤ i := hi
    rw [clear, if_neg (by omega)]
    exact h.rest i (hle.trans hi) hlt

theorem Mirrors.tryPunchHole {errno : Option Int} (h : Mirrors s)
    (hin : offset + count ≤ s.size)
    (hrun : Utils.tryPunchHole s offset count errno = some (s', 0)) : Mirrors s' := by
  rw [Utils.tryPunchHole, memset_inside (hin.trans h.size_le)] at hrun
  simp only [Option.map_some, Option.some.injEq, Prod.mk.injEq] at hrun
  obtain ⟨rfl, hret⟩ := hrun
  obtain rfl := ioctlRet_eq_zero hret
  refine ⟨h.size_le, ⟨h.file.1, fun i hi => ?_⟩, fun i hi hlt => ?_⟩
  · simp only [if_pos, InlineData.tryPunchHole, clear]
    rw [h.file.2 i hi]
  · have hi : s.size ≤ i := hi
    exact (if_neg (by omega)).trans (h.rest i hi hlt)

theorem Mirrors.overwrite {bytes : List UInt8} (h : Mirrors s)
    (hin : offset + bytes.length ≤ s.size) (hsize : f.size = s.size)
    (hbyte : ∀ i < s.size, f.byte i =
      if offset ≤ i ∧ i < offset + bytes.length then Utils.overwrite s.pattern offset bytes i
      else s.file.byte i) :
    Mirrors ⟨Utils.overwrite s.pattern offset bytes, f, s.size⟩ where
  size_le := h.size_le
  file := by
    refine ⟨hsize, fun i hi => ?_⟩
    rw [hbyte i hi]
    split
    · rfl
    · next hout =>
      rw [h.file.2 i hi]
      exact (if_neg hout).symm
  rest i hi hlt := by
    have hi : s.size ≤ i := hi
    exact (if_neg (by omega)).trans (h.rest i hi hlt)

theorem writeAt_eq_zero {buf : Pattern} {result : Option Nat}
    (h : writeAt s buf count offset result = (s', 0)) :
    s' = { s with file := InlineData.writeAt s.file buf count offset } := by
  cases result with
  | none => cases h
  | some n =>
    simp only [writeAt, Prod.mk.injEq] at h
    obtain ⟨hs', hret⟩ := h
    have hn : min n count = count := by
      by_contra hne
      rw [if_pos hne] at hret
      cases hret
    rw [← hs', hn]

theorem mmapWriteAt_eq_zero {buf : Pattern} {ok : Bool}
    (h : mmapWriteAt s buf count offset ok = (s', 0)) :
    s' = { s with file := InlineData.mmapWriteAt s.file buf count offset } := by
  cases ok with
  | false => cases h
  | true => exact (congrArg Prod.fst h).symm

theorem byte_writeAt (f : ByteFile) (buf : Pattern) (count offset i : Nat) :
    (InlineData.writeAt f buf count offset).byte i =
      if offset ≤ i ∧ i < offset + count then buf (i - offset) else f.byte i := by
  rw [InlineData.writeAt, ByteFile.byte_pwrite, List.length_map, List.length_range]
  split
  · next hin =>
    have hlt : i - offset < count := by omega
    simp [List.getElem?_range hlt]
  · rfl

theorem Mirrors.writeAt {bytes : List UInt8} {result : Option Nat} (h : Mirrors s)
    (hin : offset + bytes.length ≤ s.size)
    (hrun : (Op.writeAt offset bytes result).run s = some (s', 0)) : Mirrors s' := by
  obtain rfl := writeAt_eq_zero (Option.some.inj hrun)
  refine h.overwrite hin ?_ fun i hi => ?_
  · have hle : offset + bytes.length ≤ s.file.size := h.file.1 ▸ hin
    rw [InlineData.writeAt, ByteFile.size_pwrite_of_le, h.file.1]
    simpa using hle
  · rw [byte_writeAt]
    split
    · next hmem => rw [Nat.add_sub_cancel' hmem.1]
    · rfl

theorem Mirrors.mmapWriteAt {bytes : List UInt8} {ok : Bool} (h : Mirrors s)
    (hin : offset + bytes.length ≤ s.size)
    (hrun : (Op.mmapWriteAt offset bytes ok).run s = some (s', 0)) : Mirrors s' := by
  obtain rfl := mmapWriteAt_eq_zero (Option.some.inj hrun)
  refine h.overwrite hin h.file.1 fun i hi => ?_
  have hlt : i < s.file.size := h.file.1 ▸ hi
  simp only [InlineData.mmapWriteAt, hlt, true_and]
  split
  · next hmem => rw [Nat.add_sub_cancel' hmem.1]
  · rfl

theorem mirrors_prepFile {rand : Nat → Rand} {result : Option Nat} {size : Nat}
    (hsz : size ≤ PATTERN_SZ) (h : prepFile size rand result = (s, 0)) : Mirrors s := by
  obtain rfl := writeAt_eq_zero h
  have hbyte (i : Nat) := byte_writeAt ByteFile.empty (fillPattern size rand) size 0 i
  refine ⟨hsz, ⟨?_, fun i hi => ?_⟩, fun i hi _ => if_neg (Nat.not_lt.mpr hi)⟩
  · cases size with
    | zero => rfl
    | succ n => simp [InlineData.writeAt, ByteFile.pwrite, ByteFile.empty]
  · rw [hbyte, if_pos ⟨Nat.zero_le i, by simpa using hi⟩]
    rfl

theorem Mirrors.step {op : Op} (h : Mirrors s) (hin : op.Inside s)
    (hrun : op.run s = some (s', 0)) : Mirrors s' := by
  cases op with
  | truncatePattern newSize ok => exact h.truncatePattern hin hrun
  | extendPattern newSize ok => exact h.extendPattern hin hrun
  | tryReserve offset count errno =>
    obtain ⟨rfl, -⟩ := Prod.mk.inj (Option.some.inj hrun)
    exact h
  | tryPunchHole offset count errno => exact h.tryPunchHole hin hrun
  | writeAt offset bytes result => exact h.writeAt hin hrun
  | mmapWriteAt offset bytes ok => exact h.mmapWriteAt hin hrun

end

-- ---------------------------------------------------------------------------
-- What the checks say
-- ---------------------------------------------------------------------------

def Same (f : ByteFile) (pattern : Pattern) (size : Nat) : Prop := ∀ i < size, f.byte i = pattern i

theorem verifyPatternFd_eq_zero (pattern : Pattern) {f : ByteFile} {size : Nat}
    (h : size ≤ f.size) : verifyPatternFd f pattern size = 0 ↔ Same f pattern size := by
  have hlen : (f.pread size 0).length = size := by
    rw [ByteFile.length_pread, Nat.sub_zero, Nat.min_eq_left h]
  have hbuf : ∀ i < size, (f.pread size 0).getD i 0 = f.byte i := by
    intro i hi
    have hi' : i < (f.pread size 0).length := hlen.symm ▸ hi
    rw [List.getD_eq_getElem _ _ hi', ByteFile.pread_getElem, Nat.zero_add]
  have hall : (∀ i < size, (f.pread size 0).getD i 0 = pattern i) ↔ Same f pattern size := by
    refine forall₂_congr fun i hi => ?_
    rw [hbuf i hi]
  simp only [verifyPatternFd, verifyPatternFdWith, verifyPattern, if_neg (not_not.mpr hlen)]
  split
  · next hsame => exact iff_of_true rfl (hall.mp hsame)
  · next hne => exact iff_of_false (by decide) (mt hall.mpr hne)

/-- The two checks give one verdict, which is that of the bytes, if and only if the
bytes are those of the buffer: the check through `mmap` finds every file good. -/
theorem verifyPatternMmap_agrees_iff (f : ByteFile) (pattern : Pattern) (size : Nat)
    (hfile : size ≤ f.size) :
    ((verifyPatternMmap f pattern size = 0 ↔ verifyPatternFd f pattern size = 0) ∧
      (verifyPatternFd f pattern size = 0 ↔ Same f pattern size)) ↔ Same f pattern size := by
  have hfd := verifyPatternFd_eq_zero pattern hfile
  constructor
  · rintro ⟨hagree, -⟩
    exact hfd.mp (hagree.mp rfl)
  · intro hsame
    exact ⟨iff_of_true rfl (hfd.mpr hsame), hfd⟩

/-- A byte that is zero in the file and not in the buffer. -/
theorem verifyPatternMmap_wrong_byte :
    verifyPatternMmap (ByteFile.empty.truncate 1) (fun _ => 65) 1 = 0 ∧
      verifyPatternFd (ByteFile.empty.truncate 1) (fun _ => 65) 1 = -1 := by
  decide

theorem verifyPatternMmap_agrees_wrong_byte :
    ((verifyPatternMmap (ByteFile.empty.truncate 1) (fun _ => 65) 1 = 0 ↔
        verifyPatternFd (ByteFile.empty.truncate 1) (fun _ => 65) 1 = 0) ∧
      (verifyPatternFd (ByteFile.empty.truncate 1) (fun _ => 65) 1 = 0 ↔
        Same (ByteFile.empty.truncate 1) (fun _ => 65) 1)) ↔
      Same (ByteFile.empty.truncate 1) (fun _ => 65) 1 :=
  verifyPatternMmap_agrees_iff _ _ 1 le_rfl

/-- After `prep_file` and any calls that return 0, the file is what the buffer says,
the rest of the buffer is zero, and `verify_pattern_fd` returns 0. -/
theorem reachable_mirrors {s : Shadow} (h : system.Reachable s) :
    s.file.size = s.size ∧ Same s.file s.pattern s.size ∧
      (∀ i, s.size ≤ i → i < PATTERN_SZ → s.pattern i = 0) ∧
      verifyPatternFd s.file s.pattern s.size = 0 := by
  have hmirrors : Mirrors s := by
    refine h.invariant ?_ ?_
    · rintro s ⟨size, rand, result, hsz, hprep⟩
      exact mirrors_prepFile hsz hprep
    · rintro s s' - hs ⟨op, hin, hrun⟩
      exact hs.step hin hrun
  obtain ⟨hsize, hsame⟩ := hmirrors.file
  exact ⟨hsize, hsame, hmirrors.rest, (verifyPatternFd_eq_zero _ hsize.ge).mpr hsame⟩

/-- Two bytes, of which one is cut off and the size is extended again. -/
theorem reachable_mirrors_extended : ∃ s : Shadow, s.size = 2 ∧ s.pattern 0 = 65 ∧
    s.pattern 1 = 0 ∧ verifyPatternFd s.file s.pattern s.size = 0 := by
  have hprep : system.Reachable (prepFile 2 (fun _ => 0) (some 2)).1 :=
    .init ⟨2, fun _ => 0, some 2, by decide, rfl⟩
  have hcut := hprep.step ⟨.truncatePattern 1 true, Nat.le_of_ble_eq_true rfl, rfl⟩
  have hextended := hcut.step ⟨.extendPattern 2 true, Nat.le_of_ble_eq_true rfl, rfl⟩
  obtain ⟨-, -, -, hverify⟩ := reachable_mirrors hextended
  exact ⟨_, rfl, rfl, rfl, hverify⟩

end Ocfs2Test.InlineData.Utils
