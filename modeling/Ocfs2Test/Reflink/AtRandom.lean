import Ocfs2Test.FileOps.ReadAt
import Ocfs2Test.Reflink.OrigFile

/-!
# do_reflinks_at_random

Between two reflinks of a file it is written to, appended to, truncated or read
at random. `tmp_file_size` stands for the size of the file: a write through the
`O_APPEND` descriptor makes the file longer than that, nothing makes it shorter,
and a read stays below it.
-/

namespace Ocfs2Test.Reflink

open Lib Lib.Stdio FileOps

def DIRECTIO_SLICE : Nat := 512

/-- The largest `off_t`. -/
def OFF_MAX : Nat := 2 ^ 63 - 1

namespace AtRandom

/-- Why the loop is left: a system call failed, or `get_rand` divided by zero. -/
inductive Stop
  | failed
  | divided
  deriving DecidableEq

/-- `get_rand` on an `unsigned long`. -/
def getRand (min max : Nat) (r : Rand) : Except Stop Nat :=
  if min = 0 ∧ max = 0 then .ok 0
  else
    let n := (max + 2 ^ 64 - min + 1) % 2 ^ 64
    if n = 0 then .error .divided else .ok ((min + r.val % n) % 2 ^ 64)

/-- `file_size`, and `ODCT_TEST` of `test_flags`. -/
structure Options where
  fileSize : Nat
  odct : Bool

/-- What one round draws, and whether its system call fails. -/
structure Draws where
  method : Rand
  size : Rand
  offset : Rand
  buf : Nat → Rand
  fails : Bool

/-- The source file and `tmp_file_size`. -/
structure State where
  file : ByteFile
  tmpFileSize : Nat
  size_le : file.size ≤ OFF_MAX

section
variable (o : Options) (d : Draws) (s : State)

def pieceSize : Except Stop Nat :=
  if o.odct then .ok DIRECTIO_SLICE else getRand 1 (2 * HUNK_SIZE) d.size

def randBuf (size : Nat) : List UInt8 := (List.range size).map fun i => randChar (d.buf i)

/-- The source file with a new content, unless the call fails or the file gets too
large. A call does all of what it is asked, or nothing. -/
def State.change (file : ByteFile) : Except Stop State :=
  if h : file.size ≤ OFF_MAX then
    if d.fails then .error .failed else .ok { s with file := file, size_le := h }
  else .error .failed

/-- Where `write_at` is told to write; `O_APPEND` writes elsewhere. -/
def writeOffset : Except Stop Nat :=
  if o.odct then (· * DIRECTIO_SLICE) <$> getRand 0 (o.fileSize / DIRECTIO_SLICE) d.offset
  else getRand 0 ((o.fileSize + 2 ^ 64 - 1) % 2 ^ 64) d.offset

def truncateSize : Except Stop Nat :=
  if o.odct then (· * DIRECTIO_SLICE) <$> getRand 1 (o.fileSize / DIRECTIO_SLICE) d.size
  else getRand 1 o.fileSize d.size

def readOffset : Except Stop Nat :=
  if o.odct then (· * DIRECTIO_SLICE) <$> getRand 0 (s.tmpFileSize / DIRECTIO_SLICE) d.offset
  else getRand 0 s.tmpFileSize d.offset

def readRange : Except Stop (Nat × Nat) := do
  let readSize ← pieceSize o d
  let offset ← readOffset o d s
  let readSize :=
    if (offset + readSize) % 2 ^ 64 > s.tmpFileSize then (s.tmpFileSize + 2 ^ 64 - offset) % 2 ^ 64
    else readSize
  let readSize := if o.odct then readSize / DIRECTIO_SLICE * DIRECTIO_SLICE else readSize
  return (offset, readSize)

/-- One round. The reflink leaves the source as it is. -/
def round : Except Stop State := do
  let method ← getRand 1 4 d.method
  if method = 1 then
    let writeSize ← pieceSize o d
    let _ ← writeOffset o d
    s.change d (s.file.append (randBuf d writeSize))
  else if method = 2 then
    let appendSize ← pieceSize o d
    let s ← s.change d (s.file.append (randBuf d appendSize))
    return { s with tmpFileSize := (s.tmpFileSize + appendSize) % 2 ^ 64 }
  else if method = 3 then
    let truncateSize ← truncateSize o d
    let s ← s.change d (s.file.truncate truncateSize)
    return { s with tmpFileSize := truncateSize }
  else
    let _ ← readRange o d s
    s.change d s.file

end

def rounds (o : Options) (draws : Nat → Draws) (s : State) : Nat → Except Stop State
  | 0 => .ok s
  | k + 1 => rounds o draws s k >>= round o (draws k)

-- ---------------------------------------------------------------------------
-- What comes out of a step
-- ---------------------------------------------------------------------------

/-- The step succeeds with something in `P`, or stops for a reason in `E`. -/
inductive Runs (E : Stop → Prop) (P : α → Prop) : Except Stop α → Prop
  | ok (h : P a) : Runs E P (.ok a)
  | error (h : E e) : Runs E P (.error e)

section
variable {α β : Type} {E : Stop → Prop} {P Q : α → Prop} {R : β → Prop} {x : Except Stop α}
  {f : α → Except Stop β}

theorem Runs.bind (hx : Runs E P x) (hf : ∀ a, P a → Runs E R (f a)) : Runs E R (x >>= f) := by
  cases hx with
  | ok h => exact hf _ h
  | error h => exact .error h

theorem Runs.mono (hx : Runs E P x) (h : ∀ a, P a → Q a) : Runs E Q x := by
  cases hx with
  | ok ha => exact .ok (h _ ha)
  | error h => exact .error h

theorem Runs.map {g : α → β} (hx : Runs E P x) (hg : ∀ a, P a → R (g a)) : Runs E R (g <$> x) := by
  cases hx with
  | ok h => exact .ok (hg _ h)
  | error h => exact .error h

end

section
variable {E : Stop → Prop} {o : Options} {d : Draws} {s : State}

theorem runs_getRand (min max : Nat) (r : Rand) (hle : min ≤ max) (hmax : max < 2 ^ 63) :
    Runs E (fun n => min ≤ n ∧ n ≤ max) (getRand min max r) := by
  rw [getRand]
  split
  · next h => exact .ok ⟨by omega, by omega⟩
  · have hn : (max + 2 ^ 64 - min + 1) % 2 ^ 64 = max - min + 1 := by omega
    have hlt := Nat.mod_lt r.val (show 0 < max - min + 1 by omega)
    simp only [hn, if_neg (show max - min + 1 ≠ 0 by omega)]
    rw [Nat.mod_eq_of_lt (by omega)]
    exact .ok ⟨by omega, by omega⟩

theorem runs_pieceSize (o : Options) (d : Draws) :
    Runs E (fun n => n ≤ 2 * HUNK_SIZE) (pieceSize o d) := by
  rw [pieceSize]
  split
  · exact .ok (by decide)
  · exact (runs_getRand 1 (2 * HUNK_SIZE) d.size (by decide) (by decide)).mono fun _ h => h.2

/-- The options under which no range to draw from is empty. -/
structure Options.Ok (o : Options) : Prop where
  pos : 1 ≤ o.fileSize
  slice : o.odct = true → DIRECTIO_SLICE ≤ o.fileSize
  le : o.fileSize ≤ OFF_MAX

theorem runs_writeOffset (ho : o.Ok) : Runs E (fun _ => True) (writeOffset o d) := by
  have hle : o.fileSize < 2 ^ 63 := Nat.lt_of_le_of_lt ho.le (by decide)
  rw [writeOffset]
  split
  · have hdiv := Nat.div_le_self o.fileSize DIRECTIO_SLICE
    exact (runs_getRand 0 _ d.offset (Nat.zero_le _) (by omega)).map fun _ _ => trivial
  · have hpos := ho.pos
    have hsub : (o.fileSize + 2 ^ 64 - 1) % 2 ^ 64 = o.fileSize - 1 := by omega
    rw [hsub]
    exact (runs_getRand 0 _ d.offset (Nat.zero_le _) (by omega)).mono fun _ _ => trivial

theorem runs_truncateSize (ho : o.Ok) : Runs E (fun _ => True) (truncateSize o d) := by
  have hle : o.fileSize < 2 ^ 63 := Nat.lt_of_le_of_lt ho.le (by decide)
  rw [truncateSize]
  split
  · next hodct =>
    have hdiv := Nat.div_le_self o.fileSize DIRECTIO_SLICE
    have hone : 1 ≤ o.fileSize / DIRECTIO_SLICE := Nat.div_pos (ho.slice hodct) (by decide)
    exact (runs_getRand 1 _ d.size hone (by omega)).map fun _ _ => trivial
  · exact (runs_getRand 1 _ d.size ho.pos hle).mono fun _ _ => trivial

theorem runs_readOffset (o : Options) (d : Draws) (hs : s.tmpFileSize < 2 ^ 63) :
    Runs E (fun n => n ≤ s.tmpFileSize) (readOffset o d s) := by
  rw [readOffset]
  split
  · have hdiv := Nat.div_le_self s.tmpFileSize DIRECTIO_SLICE
    refine (runs_getRand 0 _ d.offset (Nat.zero_le _) (by omega)).map fun n hn => ?_
    exact (Nat.le_div_iff_mul_le (by decide)).mp hn.2
  · exact (runs_getRand 0 _ d.offset (Nat.zero_le _) hs).mono fun _ hn => hn.2

theorem runs_readRange (o : Options) (d : Draws) (hs : s.tmpFileSize < 2 ^ 63) :
    Runs E (fun range => range.1 + range.2 ≤ s.tmpFileSize) (readRange o d s) := by
  refine (runs_pieceSize o d).bind fun size hsize =>
    (runs_readOffset o d hs).bind fun offset hoffset => ?_
  have hhunk : 2 * HUNK_SIZE < 2 ^ 32 := by decide
  have hsum : (offset + size) % 2 ^ 64 = offset + size := Nat.mod_eq_of_lt (by omega)
  have hsub : (s.tmpFileSize + 2 ^ 64 - offset) % 2 ^ 64 = s.tmpFileSize - offset := by omega
  have hcut : offset + (if offset + size > s.tmpFileSize then s.tmpFileSize - offset else size) ≤
      s.tmpFileSize := by
    split <;> omega
  rw [hsum, hsub]
  refine .ok ?_
  show offset + _ ≤ _
  split
  · -- whole slices are no more than that
    exact (Nat.add_le_add_left (Nat.div_mul_le_self _ _) offset).trans hcut
  · exact hcut

-- ---------------------------------------------------------------------------
-- The rounds
-- ---------------------------------------------------------------------------

/-- The file is at least as long as `tmp_file_size` says. -/
def State.Tracked (s : State) : Prop := s.tmpFileSize ≤ s.file.size

theorem runs_change {file : ByteFile} :
    Runs (· = .failed) (fun s' => s'.file = file ∧ s'.tmpFileSize = s.tmpFileSize)
      (s.change d file) := by
  rw [State.change]
  split
  · split
    · exact .error rfl
    · exact .ok ⟨rfl, rfl⟩
  · exact .error rfl

theorem size_append (f : ByteFile) (data : List UInt8) :
    (f.append data).size = f.size + data.length := by
  simp only [ByteFile.append, ByteFile.pwrite]
  split
  · next h => simp [h]
  · exact Nat.max_eq_right (Nat.le_add_right _ _)

theorem length_randBuf (d : Draws) (n : Nat) : (randBuf d n).length = n := by simp [randBuf]

theorem State.Tracked.lt (h : s.Tracked) : s.tmpFileSize < 2 ^ 63 :=
  Nat.lt_of_le_of_lt (Nat.le_trans h s.size_le) (by decide)

theorem round_tracked (ho : o.Ok) (hs : s.Tracked) :
    Runs (· = .failed) State.Tracked (round o d s) := by
  refine (runs_getRand 1 4 d.method (by decide) (by decide)).bind fun method _ => ?_
  split
  · refine (runs_pieceSize o d).bind fun size _ => (runs_writeOffset ho).bind fun _ _ => ?_
    refine runs_change.mono fun s' hs' => ?_
    rw [State.Tracked, hs'.1, hs'.2, size_append]
    exact Nat.le_add_right_of_le hs
  · split
    · refine (runs_pieceSize o d).bind fun size hsize => runs_change.bind fun s' hs' => ?_
      refine .ok ?_
      show (s'.tmpFileSize + size) % 2 ^ 64 ≤ s'.file.size
      rw [hs'.1, hs'.2, size_append, length_randBuf]
      exact (Nat.mod_le _ _).trans (Nat.add_le_add_right hs size)
    · split
      · refine (runs_truncateSize ho).bind fun size _ => runs_change.bind fun s' hs' => ?_
        refine .ok ?_
        show size ≤ s'.file.size
        rw [hs'.1, ByteFile.size_truncate]
      · refine (runs_readRange o d hs.lt).bind fun _ _ => runs_change.mono fun s' hs' => ?_
        rw [State.Tracked, hs'.1, hs'.2]
        exact hs

theorem rounds_tracked (draws : Nat → Draws) (ho : o.Ok) (hs : s.Tracked) (k : Nat) :
    Runs (· = .failed) State.Tracked (rounds o draws s k) := by
  induction k with
  | zero => exact .ok hs
  | succ k ih => exact ih.bind fun _ h => round_tracked ho h

/-- The size is tracked, and whatever the next round draws, its read is inside of
the file and ends, however short the single reads are. -/
structure State.ReadsEnd (o : Options) (s : State) : Prop where
  tracked : s.tmpFileSize ≤ s.file.size
  read : ∀ d, ∃ offset size, readRange o d s = .ok (offset, size) ∧ offset + size ≤ s.file.size ∧
    ∀ result : Nat → Option Nat, (∀ k, result k ≠ none) →
      ∃ fuel, ReflinkTestUtils.readAt ⟨s.file.size, result⟩ size offset fuel = some 0

theorem State.Tracked.readsEnd (o : Options) (h : s.Tracked) : s.ReadsEnd o where
  tracked := h
  read d := by
    have hrange := runs_readRange (E := fun _ => False) o d (h.lt)
    generalize readRange o d s = range at hrange
    cases hrange with
    | @ok range hle =>
      obtain ⟨offset, size⟩ := range
      have hin : offset + size ≤ s.file.size := hle.trans h
      refine ⟨offset, size, rfl, hin, fun result hok => ?_⟩
      exact exists_readLoop_success (.inr hin) (fun ⟨k, hk⟩ => hok k hk) 0
    | error h => exact h.elim

end

/-- `do_reflinks_at_random` behind any number of rounds, on a file of `file_size`
bytes or more: no draw divides by zero, and unless a system call has failed, no read
reaches behind the end of the file. -/
theorem rounds_reads_end (o : Options) (draws : Nat → Draws) (s : State) (hpos : 1 ≤ o.fileSize)
    (hslice : o.odct = true → DIRECTIO_SLICE ≤ o.fileSize) (htmp : s.tmpFileSize = o.fileSize)
    (hsize : o.fileSize ≤ s.file.size) (k : Nat) :
    Runs (· = .failed) (State.ReadsEnd o) (rounds o draws s k) := by
  have ho : o.Ok := ⟨hpos, hslice, hsize.trans s.size_le⟩
  have hs : s.Tracked := by rwa [State.Tracked, htmp]
  exact (rounds_tracked draws ho hs k).mono fun _ h => h.readsEnd o

/-- Three rounds that append to a file of one byte, cut it and read it. -/
theorem rounds_reads_end_three :
    Runs (· = .failed) (State.ReadsEnd ⟨1, false⟩)
      (rounds ⟨1, false⟩ (fun k => ⟨Fin.ofNat (2 ^ 31) (k + 1), 0, 0, fun _ => 0, false⟩)
        ⟨ByteFile.empty.truncate 1, 1, by decide⟩ 3) :=
  rounds_reads_end ⟨1, false⟩ _ _ (by decide) (by decide) rfl (by decide) 3

end AtRandom

end Ocfs2Test.Reflink
