import Ocfs2Test.Chunks.Log

/-!
# verify_file

The two copies of `verify_file`, of libocfs2test and of directio_utils. They
share the loop over the log and the check of a chunk; they differ in what a
read at the end of the file does. A chunk with a record is decoded, encoded
again and compared with the encoding of the record: what `dump_pattern` does
not read is not compared.
-/

namespace Ocfs2Test.Chunks

open Lib Lib.Stdio

/-- What `do_read_chunk` and the test in front of it come to: the end of the
file, an error, a read that never ends, or a buffer with so many bytes read
into it. -/
inductive Read
  | past
  | failed (ret : Int)
  | hangs
  | buf (bytes : List UInt8) (count : Nat)

/-- The log, or with `is_remote` the table of the caller. The units of such a
table have the size of the chunks. -/
inductive Source
  | log (text : List Char)
  | remote (wus : Table)

def Source.table (numChunks : Nat) : Source → Except Outcome Table
  | .log text => readLog numChunks ⟨text, false⟩ initTable
  | .remote wus => .ok wus

section
variable (e : Endian) (cs : Nat)

/-- One chunk against what is expected of it: the value that is returned, or
`none` to go on. -/
def checkChunk (i : Nat) (expected : WriteUnit) (buf : List UInt8) (count : Nat) : Option Int :=
  let wu := dumpPattern e cs buf
  if expected.timestamp = 0 then
    -- no record: a hole is skipped
    if wu.timestamp = 0 then none
    else if wu.chunkNo ≠ UInt64.ofNat i then some (-EINVAL)
    else
      let ewu := (fillChunkPattern e cs wu).2
      if wu.checksum ≠ ewu.checksum then some (-1) else none
  else if count < cs then some (-1)
  else
    let tmp := (fillChunkPattern e cs wu).1
    if verifyChunkPattern e cs tmp expected then none else some (-1)

/-- The loop over the chunks, `n` of them from chunk `i` on. -/
def verifyFrom (read : Nat → Read) (wus : Table) : Nat → Nat → Outcome
  | 0, _ => .returns 0
  | n + 1, i =>
    match read i with
    | .past => .returns 0
    | .failed ret => .returns ret
    | .hangs => .hangs
    | .buf bytes count =>
      match checkChunk e cs i (wus i) bytes count with
      | some ret => .returns ret
      | none => verifyFrom read wus n (i + 1)

def verifyBody (read : Nat → Read) (src : Source) (numChunks : Nat) : Outcome :=
  match src.table numChunks with
  | .error o => o
  | .ok wus => verifyFrom e cs read wus numChunks 0

end

namespace Libocfs2test

/-- `do_read_chunk`: `read_at` stops at the size of the file, and what is not
read of the buffer keeps what `malloc` left there. The count is returned as an
`int`. -/
def doReadChunk (junk : Nat → Nat → UInt8) (f : ByteFile) (cs i : Nat) : Read :=
  if f.size ≤ i * cs then .past
  else
    let count := min cs (f.size - i * cs)
    if 2 ^ 31 ≤ count then .failed (count - 2 ^ 32)
    else .buf (f.pread cs (i * cs) ++ (List.range (cs - count)).map fun k => junk i (count + k)) count

def verifyFile (e : Endian) (junk : Nat → Nat → UInt8) (src : Source) (f : ByteFile)
    (filesize : UInt64) (chunksize : UInt32) : Outcome :=
  verifyBody e chunksize.toNat (doReadChunk junk f chunksize.toNat) src
    (filesize.toNat / chunksize.toNat)

end Libocfs2test

namespace DirectioUtils

/-- `do_read_chunk`: `read_at` repeats the read until all of the chunk is there. -/
def doReadChunk (f : ByteFile) (i : Nat) : Read :=
  if (i + 1) * CHUNK_SIZE ≤ f.size then .buf (f.pread CHUNK_SIZE (i * CHUNK_SIZE)) CHUNK_SIZE
  else .hangs

def verifyFile (e : Endian) (src : Source) (f : ByteFile) (filesize : UInt64) : Outcome :=
  verifyBody e CHUNK_SIZE (doReadChunk f) src (filesize.toNat / CHUNK_SIZE)

end DirectioUtils

-- ---------------------------------------------------------------------------
-- Acceptance
-- ---------------------------------------------------------------------------

/-- What is compared of a chunk: the fields at its end and the first byte of its
body. -/
def Decodes (e : Endian) (cs i : Nat) (expected : WriteUnit) (buf : List UInt8) (count : Nat) :
    Prop :=
  let wu := dumpPattern e cs buf
  if expected.timestamp = 0 then
    wu.timestamp = 0 ∨ wu.chunkNo = UInt64.ofNat i ∧ wu.checksum = bodySum e cs wu.char
  else
    cs ≤ count ∧ wu.chunkNo = expected.chunkNo ∧ wu.timestamp = expected.timestamp ∧
      wu.char = expected.char

section
variable {e : Endian} {cs : Nat} {read : Nat → Read} {wus : Table}

theorem checkChunk_eq_none (hcs : 41 ≤ cs) :
    checkChunk e cs i expected buf count = none ↔ Decodes e cs i expected buf count := by
  have hsum (wu : WriteUnit) : (fillChunkPattern e cs wu).2.checksum = bodySum e cs wu.char := by
    rw [fillChunkPattern_eq (by omega)]
  simp only [checkChunk, Decodes]
  split
  · split
    · next hts => simp [hts]
    · next hts =>
      simp only [hts, false_or, hsum]
      split
      · next hno => simp [hno]
      · next hno => simp_all
  · split
    · next hcount =>
      simp
      omega
    · next hcount =>
      have hinj := @pattern_inj e cs hcs (dumpPattern e cs buf) expected
      simp only [verifyChunkPattern, beq_iff_eq]
      rw [show (fillChunkPattern e cs (dumpPattern e cs buf)).1 =
        pattern e cs (dumpPattern e cs buf) from rfl]
      simp only [Nat.not_lt.mp hcount, true_and]
      rw [← hinj]
      simp

theorem checkChunk_ne_zero : checkChunk e cs i expected buf count ≠ some 0 := by
  simp only [checkChunk]
  repeat' split
  all_goals simp [EINVAL]

def Passes (e : Endian) (cs : Nat) (read : Nat → Read) (wus : Table) (i : Nat) : Prop :=
  ∃ buf count, read i = .buf buf count ∧ Decodes e cs i (wus i) buf count

theorem verifyFrom_eq_zero (hcs : 41 ≤ cs) (hfail : ∀ i ret, read i = .failed ret → ret ≠ 0) :
    verifyFrom e cs read wus n i = .returns 0 ↔
      ∀ k, i ≤ k → k < i + n → (∀ j, i ≤ j → j ≤ k → read j ≠ .past) → Passes e cs read wus k := by
  induction n generalizing i with
  | zero =>
    simp only [verifyFrom, true_iff]
    intro k h₁ h₂
    omega
  | succ n ih =>
    -- anything but a passing chunk or the end of the file settles it here
    have hstop : (∀ buf count, read i = .buf buf count → ¬ Decodes e cs i (wus i) buf count) →
        read i ≠ .past → ¬ ∀ k, i ≤ k → k < i + (n + 1) → (∀ j, i ≤ j → j ≤ k → read j ≠ .past) →
          Passes e cs read wus k := by
      intro hbad hpast hall
      obtain ⟨buf, count, hread, hdec⟩ := hall i (Nat.le_refl _) (by omega) fun j h₁ h₂ => by
        rw [Nat.le_antisymm h₂ h₁]
        exact hpast
      exact hbad buf count hread hdec
    rw [verifyFrom]
    split
    · next hread =>
      simp only [true_iff]
      intro k h₁ _ hnot
      exact absurd hread (hnot i (Nat.le_refl _) h₁)
    · next ret hread =>
      refine iff_of_false (by simpa using hfail i ret hread) (hstop ?_ ?_) <;> simp [hread]
    · next hread => refine iff_of_false (by simp) (hstop ?_ ?_) <;> simp [hread]
    · next buf count hread =>
      split
      · next ret hcheck =>
        have hne : ret ≠ 0 := by
          rintro rfl
          exact checkChunk_ne_zero hcheck
        refine iff_of_false (by simpa using hne) (hstop ?_ ?_)
        · simp only [hread, Read.buf.injEq]
          rintro _ _ ⟨rfl, rfl⟩ hdec
          rw [← checkChunk_eq_none hcs, hcheck] at hdec
          cases hdec
        · simp [hread]
      · next hcheck =>
        have hdec := (checkChunk_eq_none hcs).mp hcheck
        rw [ih]
        constructor
        · intro hall k h₁ h₂ hnot
          by_cases hk : k = i
          · exact hk ▸ ⟨buf, count, hread, hdec⟩
          · exact hall k (by omega) (by omega) fun j h₃ h₄ => hnot j (by omega) h₄
        · intro hall k h₁ h₂ hnot
          refine hall k (by omega) (by omega) fun j h₃ h₄ => ?_
          by_cases hj : j = i
          · simp [hj, hread]
          · exact hnot j (by omega) h₄

end

structure ReadsFile (f : ByteFile) (cs : Nat) (read : Nat → Read) : Prop where
  failed : ∀ i ret, read i = .failed ret → ret ≠ 0
  past : ∀ i, read i = .past → f.size ≤ i * cs
  full : ∀ i buf count, read i = .buf buf count → cs ≤ count →
    (i + 1) * cs ≤ f.size ∧ buf = chunkAt f cs i

theorem Libocfs2test.doReadChunk_full {f : ByteFile} {cs i : Nat} (hpos : 0 < cs)
    (hcs : cs < 2 ^ 31) (h : (i + 1) * cs ≤ f.size) :
    doReadChunk junk f cs i = .buf (chunkAt f cs i) cs := by
  have hlt : i * cs + cs ≤ f.size := by rwa [Nat.add_mul, Nat.one_mul] at h
  have hmin : min cs (f.size - i * cs) = cs := by omega
  simp only [doReadChunk, hmin, Nat.sub_self, pread_chunk h]
  rw [if_neg (by omega), if_neg (by omega)]
  simp

theorem DirectioUtils.doReadChunk_full {f : ByteFile} {i : Nat} (h : (i + 1) * CHUNK_SIZE ≤ f.size) :
    doReadChunk f i = .buf (chunkAt f CHUNK_SIZE i) CHUNK_SIZE := by
  rw [doReadChunk, if_pos h, pread_chunk h]

theorem Libocfs2test.readsFile (junk : Nat → Nat → UInt8) (f : ByteFile) (cs : Nat)
    (hcs : cs < 2 ^ 32) : ReadsFile f cs (doReadChunk junk f cs) := by
  refine ⟨fun i ret h => ?_, fun i h => ?_, fun i buf count h hfull => ?_⟩ <;>
    simp only [doReadChunk] at h <;> split at h
  · cases h
  · split at h
    · cases h
      omega
    · cases h
  · assumption
  · split at h <;> cases h
  · cases h
  · split at h
    · cases h
    · next hpast hint =>
      cases h
      have hsize : (i + 1) * cs ≤ f.size := by
        rw [Nat.add_mul]
        omega
      have hmin : min cs (f.size - i * cs) = cs := by omega
      refine ⟨hsize, ?_⟩
      rw [pread_chunk hsize, hmin, Nat.sub_self]
      simp

theorem DirectioUtils.readsFile (f : ByteFile) : ReadsFile f CHUNK_SIZE (doReadChunk f) := by
  refine ⟨fun i ret h => ?_, fun i h => ?_, fun i buf count h hfull => ?_⟩ <;>
    simp only [doReadChunk] at h <;> split at h
  · cases h
  · cases h
  · cases h
  · cases h
  · next hsize =>
    cases h
    exact ⟨hsize, pread_chunk hsize⟩
  · cases h

theorem readLog_error (h : readLog numChunks s wus = .error o) : o ≠ .returns 0 := by
  fun_induction readLog numChunks s wus with
  | case1 => cases h
  | case2 | case3 | case4 | case5 =>
    cases h
    simp [EINVAL]
  | case6 s wus heof wu rest hscan hbig hend ih => exact ih h

/-- All records have an entry in the table and all chunks before the end of the
file pass. -/
structure Accepts (e : Endian) (cs : Nat) (read : Nat → Read) (numChunks : Nat)
    (units : List WriteUnit) : Prop where
  inTable : ∀ wu ∈ units, wu.chunkNo.toNat < numChunks
  passes : ∀ k < numChunks, (∀ j ≤ k, read j ≠ .past) →
    Passes e cs read (units.foldl record initTable) k

section
variable {e : Endian} {cs : Nat} {f : ByteFile} {read : Nat → Read}

theorem verifyBody_eq_zero (hcs : 41 ≤ cs) (hread : ReadsFile f cs read) :
    verifyBody e cs read (.log text) numChunks = .returns 0 ↔
      ∃ units, logUnits ⟨text, false⟩ = some units ∧ Accepts e cs read numChunks units := by
  simp only [verifyBody, Source.table]
  constructor
  · intro h
    split at h
    · next o htable => exact absurd h (readLog_error htable)
    · next t htable =>
      obtain ⟨units, hunits, hin, rfl⟩ := readLog_ok_iff.mp htable
      refine ⟨units, hunits, hin, fun k hk hnot => ?_⟩
      exact (verifyFrom_eq_zero hcs hread.failed).mp h k (Nat.zero_le _) (by omega)
        fun j _ hj => hnot j hj
  · rintro ⟨units, hunits, hacc⟩
    rw [readLog_ok_iff.mpr ⟨units, hunits, hacc.inTable, rfl⟩]
    refine (verifyFrom_eq_zero hcs hread.failed).mpr fun k _ hk hnot => ?_
    exact hacc.passes k (by omega) fun j hj => hnot j (Nat.zero_le _) hj

/-- A chunk that is the pattern of what it decodes to. Where the newest record
has no time nothing is compared with it, so the chunk has to be of that
record. -/
structure Intact (e : Endian) (cs : Nat) (f : ByteFile) (i : Nat) (wu : WriteUnit) : Prop where
  full : (i + 1) * cs ≤ f.size
  regular : pattern e cs (dumpPattern e cs (chunkAt f cs i)) = chunkAt f cs i
  timeless : wu.timestamp = 0 → (dumpPattern e cs (chunkAt f cs i)).timestamp = 0 ∧
    (dumpPattern e cs (chunkAt f cs i)).chunkNo = wu.chunkNo ∧
    (dumpPattern e cs (chunkAt f cs i)).char = wu.char

theorem Newest.mem (h : Newest units i wu) : wu ∈ units ∧ wu.chunkNo.toNat = i := by
  obtain ⟨before, after, rfl, hi, -, -⟩ := h
  exact ⟨by simp, hi⟩

theorem Intact.pattern_eq (hcs : 41 ≤ cs) (hread : ReadsFile f cs read) (h : Intact e cs f i wu)
    (hnew : Newest units i wu) (hpass : Passes e cs read (units.foldl record initTable) i) :
    chunkAt f cs i = pattern e cs wu := by
  obtain ⟨buf, count, hbuf, hdec⟩ := hpass
  rw [foldl_record_newest rfl hnew] at hdec
  rw [← h.regular, pattern_inj hcs]
  unfold Decodes at hdec
  split at hdec
  · next hts =>
    obtain ⟨h₁, h₂, h₃⟩ := h.timeless hts
    exact ⟨h₂, h₁.trans hts.symm, h₃⟩
  · obtain ⟨hcount, h₁, h₂, h₃⟩ := hdec
    rw [(hread.full i buf count hbuf hcount).2] at h₁ h₂ h₃
    exact ⟨h₁, h₂, h₃⟩

end

section
variable {e : Endian} {cs : Nat}

end

end Ocfs2Test.Chunks
