import Ocfs2Test.Chunks.Bounds

/-!
# What a short read leaves in the buffer

`do_read_chunk` decodes its buffer whatever the length of the read. Where the
file ends within a chunk that has no record, the fields at the end of the chunk
are partly what `malloc` gave. Fields that begin in front of a small buffer are
part of the heap around it, which is the same in both runs.
-/

namespace Ocfs2Test.Chunks

open Lib

section
variable {e : Endian} {cs off k : Nat} {buf : List UInt8}

section
variable {chunksize : UInt32} {slack : Nat → UInt8} (hlen : buf.length = chunksize.toNat)
include hlen

end

end

-- ---------------------------------------------------------------------------
-- One chunk
-- ---------------------------------------------------------------------------

/-- The buffer of a read that got `count` bytes. -/
def readInto (junk : Nat → Nat → UInt8) (f : ByteFile) (cs i count : Nat) : List UInt8 :=
  f.pread cs (i * cs) ++ (List.range (cs - count)).map fun k => junk i (count + k)

section
variable {e : Endian} {chunksize : UInt32} {cs : Nat} {f : ByteFile} {i count : Nat}
  {slack : Nat → UInt8} {junk : Nat → Nat → UInt8} {expected : WriteUnit} {buf : List UInt8}

section
variable (hts : expected.timestamp = 0)
include hts

end

end

-- ---------------------------------------------------------------------------
-- The loop over the chunks
-- ---------------------------------------------------------------------------

/-- What the loop ends with at chunk `i`, if it does. -/
def chunkOutcome (e : Endian) (chunksize : UInt32) (slack : Nat → Nat → UInt8) (read : Nat → Read)
    (wus : Table) (i : Nat) : Option Outcome :=
  match read i with
  | .past => some (.returns 0)
  | .failed ret => some (.returns ret)
  | .hangs => some .hangs
  | .buf bytes count => checkBounded e chunksize (slack i) i (wus i) bytes count

section
variable {e : Endian} {chunksize : UInt32} {slack : Nat → Nat → UInt8} {read read' : Nat → Read}
  {wus : Table} {n i k : Nat}

theorem verifyFromBounded_succ : verifyFromBounded e chunksize slack read wus (n + 1) i =
    (chunkOutcome e chunksize slack read wus i).getD
      (verifyFromBounded e chunksize slack read wus n (i + 1)) := by
  rw [verifyFromBounded, chunkOutcome]
  cases read i with
  | past => rfl
  | failed ret => rfl
  | hangs => rfl
  | buf bytes count =>
    simp only
    cases checkBounded e chunksize (slack i) i (wus i) bytes count with
    | none => rfl
    | some o => rfl

theorem verifyFromBounded_reach (hi : i ≤ k) (hk : k < i + n)
    (hbefore : ∀ m, i ≤ m → m < k → chunkOutcome e chunksize slack read wus m = none) :
    verifyFromBounded e chunksize slack read wus n i =
      (chunkOutcome e chunksize slack read wus k).getD
        (verifyFromBounded e chunksize slack read wus (i + n - (k + 1)) (k + 1)) := by
  induction n generalizing i with
  | zero => omega
  | succ n ih =>
    rw [verifyFromBounded_succ]
    rcases Nat.eq_or_lt_of_le hi with rfl | hlt
    · rw [show i + (n + 1) - (i + 1) = n by omega]
    · rw [hbefore i (Nat.le_refl i) hlt, Option.getD_none,
        ih hlt (by omega) fun m hm hm' => hbefore m (by omega) hm']
      rw [show i + 1 + n - (k + 1) = i + (n + 1) - (k + 1) by omega]

end

section
variable {e : Endian} {chunksize : UInt32} {slack : Nat → Nat → UInt8} {f : ByteFile} {wus : Table}
  {i : Nat} (junk : Nat → Nat → UInt8)

theorem chunkOutcome_past (h : f.size ≤ i * chunksize.toNat) :
    chunkOutcome e chunksize slack (Libocfs2test.doReadChunk junk f chunksize.toNat) wus i =
      some (.returns 0) := by
  simp only [chunkOutcome, Libocfs2test.doReadChunk, if_pos h]

theorem chunkOutcome_buf (h : i * chunksize.toNat < f.size) (count : Nat)
    (hcount : count = min chunksize.toNat (f.size - i * chunksize.toNat)) :
    chunkOutcome e chunksize slack (Libocfs2test.doReadChunk junk f chunksize.toNat) wus i =
      if 2 ^ 31 ≤ count then some (.returns (count - 2 ^ 32))
      else checkBounded e chunksize (slack i) i (wus i) (readInto junk f chunksize.toNat i count)
        count := by
  simp only [chunkOutcome, Libocfs2test.doReadChunk, if_neg (Nat.not_le.mpr h), ← hcount]
  split
  · next hread =>
    split at hread <;> cases hread
  · next ret hread =>
    split at hread
    · next hbig =>
      cases hread
      rw [if_pos hbig]
    · cases hread
  · next hread =>
    split at hread <;> cases hread
  · next hread =>
    split at hread
    · cases hread
    · next hbig =>
      cases hread
      rw [if_neg hbig]
      rfl

theorem readInto_full (h : (i + 1) * cs ≤ f.size) :
    readInto junk f cs i cs = chunkAt f cs i := by
  rw [readInto, pread_chunk h, Nat.sub_self]
  exact List.append_nil _

theorem chunkOutcome_full (hpos : 0 < chunksize.toNat) (h : (i + 1) * chunksize.toNat ≤ f.size) :
    chunkOutcome e chunksize slack (Libocfs2test.doReadChunk junk f chunksize.toNat) wus i =
      if 2 ^ 31 ≤ chunksize.toNat then some (.returns (chunksize.toNat - 2 ^ 32))
      else checkBounded e chunksize (slack i) i (wus i) (chunkAt f chunksize.toNat i)
        chunksize.toNat := by
  have hlt : i * chunksize.toNat + chunksize.toNat ≤ f.size := by
    rwa [Nat.add_mul, Nat.one_mul] at h
  rw [chunkOutcome_buf junk (by omega) chunksize.toNat (by omega), readInto_full junk h]

end

-- ---------------------------------------------------------------------------
-- verify_file
-- ---------------------------------------------------------------------------

section
variable (e : Endian) (slack : Nat → Nat → UInt8) (text : List Char) (f : ByteFile)
  (filesize : UInt64) (chunksize : UInt32)

/-- The chunk in which the file ends, and how much there is of it. -/
def lastChunk : Nat := f.size / chunksize.toNat

def lastCount : Nat := f.size % chunksize.toNat

/-- The loop gets to a chunk without a record in which the file ends. -/
structure EndsUnrecorded (wus : Table) : Prop where
  room : ¬ tableEntries Libocfs2test.SIZEOF_WRITE_UNIT (filesize.toNat / chunksize.toNat) <
    filesize.toNat / chunksize.toNat
  table : readLog (filesize.toNat / chunksize.toNat) ⟨text, false⟩ initTable = .ok wus
  pos : 0 < chunksize.toNat
  inside : lastChunk f chunksize < filesize.toNat / chunksize.toNat
  short : lastCount f chunksize ≠ 0
  count : lastCount f chunksize < 2 ^ 31
  before : ∀ i < lastChunk f chunksize, chunksize.toNat < 2 ^ 31 ∧
    checkBounded e chunksize (slack i) i (wus i) (chunkAt f chunksize.toNat i) chunksize.toNat =
      none
  unrecorded : (wus (lastChunk f chunksize)).timestamp = 0

end

section
variable {e : Endian} {slack : Nat → Nat → UInt8} {text : List Char} {f : ByteFile}
  {filesize : UInt64} {chunksize : UInt32} {wus : Table}

theorem last_eq (hpos : 0 < chunksize.toNat) :
    lastChunk f chunksize * chunksize.toNat + lastCount f chunksize = f.size ∧
      lastCount f chunksize < chunksize.toNat := by
  constructor
  · rw [Nat.mul_comm]
    exact Nat.div_add_mod ..
  · exact Nat.mod_lt _ hpos

theorem lastCount_eq (hpos : 0 < chunksize.toNat) : lastCount f chunksize =
    min chunksize.toNat (f.size - lastChunk f chunksize * chunksize.toNat) := by
  have := @last_eq f chunksize hpos
  omega

theorem verifyFromBounded_past (junk : Nat → Nat → UInt8) (h : f.size ≤ i * chunksize.toNat) :
    verifyFromBounded e chunksize slack (Libocfs2test.doReadChunk junk f chunksize.toNat) wus n i =
      .returns 0 := by
  cases n with
  | zero => rfl
  | succ n =>
    rw [verifyFromBounded_succ, chunkOutcome_past junk h]
    rfl

theorem EndsUnrecorded.outcome (h : EndsUnrecorded e slack text f filesize chunksize wus)
    (junk : Nat → Nat → UInt8) :
    Libocfs2test.verifyFileBounded e slack junk text f filesize chunksize =
      (checkBounded e chunksize (slack (lastChunk f chunksize)) (lastChunk f chunksize)
        (wus (lastChunk f chunksize))
        (readInto junk f chunksize.toNat (lastChunk f chunksize) (lastCount f chunksize))
        (lastCount f chunksize)).getD (.returns 0) := by
  have hpos := h.pos
  obtain ⟨hsize, hlt⟩ := @last_eq f chunksize hpos
  have hshort := h.short
  have hne : chunksize ≠ 0 := by
    rintro rfl
    exact absurd hpos (by decide)
  have hbefore : ∀ m, 0 ≤ m → m < lastChunk f chunksize →
      chunkOutcome e chunksize slack (Libocfs2test.doReadChunk junk f chunksize.toNat) wus m =
        none := by
    intro m _ hm
    obtain ⟨hint, hcheck⟩ := h.before m hm
    have hfull := Nat.mul_le_mul_right chunksize.toNat (Nat.succ_le_of_lt hm)
    rw [chunkOutcome_full junk hpos (by rw [Nat.succ_eq_add_one] at hfull; omega),
      if_neg (by omega), hcheck]
  have hrest : f.size ≤ (lastChunk f chunksize + 1) * chunksize.toNat := by
    rw [Nat.succ_mul]
    omega
  simp only [Libocfs2test.verifyFileBounded, hne, h.room, or_self, if_false, h.table]
  rw [verifyFromBounded_reach (Nat.zero_le _) (by have := h.inside; omega) hbefore,
    verifyFromBounded_past junk hrest,
    chunkOutcome_buf junk (by omega) (lastCount f chunksize) (lastCount_eq hpos),
    if_neg (by have := h.count; omega)]

end

end Ocfs2Test.Chunks
