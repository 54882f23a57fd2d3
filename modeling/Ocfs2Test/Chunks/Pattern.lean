import Ocfs2Test.Lib.ByteFile
import Ocfs2Test.Chunks.Crc32

/-!
# Chunks

A chunk carries its number, the time it was written and a checksum at both
ends, mirrored, and one character repeated in between. `fill_chunk_pattern`
makes the bytes and `dump_pattern` reads the fields back; the fields at the end
of the chunk are the ones that count.
-/

namespace Ocfs2Test.Chunks

open Lib

/-- `struct write_unit` and `struct dest_write_unit`. The size of a chunk is an
argument of the functions here: `wu_chunksize` of one copy, `CHUNK_SIZE` of the
others. -/
structure WriteUnit where
  chunkNo : UInt64
  timestamp : UInt64
  checksum : UInt32
  char : UInt8
  deriving DecidableEq, Repr

/-- `CHUNK_SIZE` of directio_test and reflink_test. -/
def CHUNK_SIZE : Nat := 1024 * 8

section
variable (e : Endian) (cs : Nat)

/-- The pattern, and the unit with its checksum filled in. The sizes do not wrap
from 40 bytes on. -/
def fillChunkPattern (wu : WriteUnit) : List UInt8 × WriteUnit :=
  let chunkNo := e.store 8 wu.chunkNo.toNat
  let timestamp := e.store 8 wu.timestamp.toNat
  let pattern := List.replicate cs 0
  let pattern := patch pattern 0 chunkNo
  let pattern := patch pattern 8 timestamp
  let pattern := patch pattern 20 (List.replicate (cs - 20 * 2) wu.char)
  let sum := crc32Checksum e 20 0xffffffff (slice pattern 20 (cs - 20 * 2))
  let pattern := patch pattern (cs - 20) (e.store 4 sum.toNat)
  let pattern := patch pattern (cs - 20 + 4) timestamp
  let pattern := patch pattern (cs - 20 + 12) chunkNo
  let pattern := patch pattern 16 (e.store 4 sum.toNat)
  (pattern, { wu with checksum := sum })

/-- What `fill_chunk_pattern` stores into a buffer behind the `memset`. -/
def fillFields (buf : List UInt8) (wu : WriteUnit) : List UInt8 × WriteUnit :=
  let chunkNo := e.store 8 wu.chunkNo.toNat
  let timestamp := e.store 8 wu.timestamp.toNat
  let buf := patch buf 0 chunkNo
  let buf := patch buf 8 timestamp
  let buf := patch buf 20 (List.replicate (cs - 20 * 2) wu.char)
  let sum := crc32Checksum e 20 0xffffffff (slice buf 20 (cs - 20 * 2))
  let buf := patch buf (cs - 20) (e.store 4 sum.toNat)
  let buf := patch buf (cs - 20 + 4) timestamp
  let buf := patch buf (cs - 20 + 12) chunkNo
  let buf := patch buf 16 (e.store 4 sum.toNat)
  (buf, { wu with checksum := sum })

theorem fillChunkPattern_eq_fillFields (wu : WriteUnit) :
    fillChunkPattern e cs wu = fillFields e cs (List.replicate cs 0) wu := rfl

def dumpPattern (pattern : List UInt8) : WriteUnit :=
  let wu : WriteUnit := ⟨0, 0, 0, 0⟩
  let wu := { wu with chunkNo := UInt64.ofNat (e.load (slice pattern 0 8)) }
  let wu := { wu with timestamp := UInt64.ofNat (e.load (slice pattern 8 8)) }
  let wu := { wu with checksum := UInt32.ofNat (e.load (slice pattern 16 4)) }
  let wu := { wu with char := pattern.getD 20 0 }
  let wu := { wu with checksum := UInt32.ofNat (e.load (slice pattern (cs - 20) 4)) }
  let wu := { wu with timestamp := UInt64.ofNat (e.load (slice pattern (cs - 20 + 4) 8)) }
  { wu with chunkNo := UInt64.ofNat (e.load (slice pattern (cs - 20 + 12) 8)) }

def pattern (wu : WriteUnit) : List UInt8 := (fillChunkPattern e cs wu).1

/-- `verify_chunk_pattern`: `memcmp` with the pattern of the unit. -/
def verifyChunkPattern (buf : List UInt8) (wu : WriteUnit) : Bool := buf == pattern e cs wu

/-- The checksum of a body of one character. -/
def bodySum (char : UInt8) : UInt32 :=
  crc32Checksum e 20 0xffffffff (List.replicate (cs - 40) char)

end

section
variable {e : Endian} {cs : Nat}

/-- The layout of a chunk. -/
def fields (e : Endian) (cs : Nat) (chunkNo timestamp : UInt64) (sum : UInt32) (char : UInt8) :
    List UInt8 :=
  e.store 8 chunkNo.toNat ++ (e.store 8 timestamp.toNat ++ (e.store 4 sum.toNat ++
    (List.replicate (cs - 40) char ++ (e.store 4 sum.toNat ++ (e.store 8 timestamp.toNat ++
      e.store 8 chunkNo.toNat)))))

section
variable {no ts sum z₁ z₂ z₃ z₄ z₅ z₆ z₇ : List UInt8}

theorem patch_body {data r : List UInt8} (h₁ : z₁.length = 8) (h₂ : z₂.length = 8)
    (h₃ : z₃.length = 4) (h₄ : z₄.length = data.length) :
    patch (z₁ ++ (z₂ ++ (z₃ ++ (z₄ ++ r)))) 20 data = z₁ ++ (z₂ ++ (z₃ ++ (data ++ r))) := by
  rw [patch_skip (by omega), patch_skip (by omega), patch_skip (by omega), h₁, h₂, h₃,
    patch_head h₄]

theorem slice_body {r : List UInt8} (h₁ : z₁.length = 8) (h₂ : z₂.length = 8)
    (h₃ : z₃.length = 4) (h₄ : z₄.length = n) :
    slice (z₁ ++ (z₂ ++ (z₃ ++ (z₄ ++ r)))) 20 n = z₄ := by
  rw [slice_skip (by omega), slice_skip (by omega), slice_skip (by omega), h₁, h₂, h₃,
    slice_head h₄]

theorem patch_tail {data r : List UInt8} (h₁ : z₁.length = 8) (h₂ : z₂.length = 8)
    (h₃ : z₃.length = 4) (hoff : 20 + z₄.length ≤ off) :
    patch (z₁ ++ (z₂ ++ (z₃ ++ (z₄ ++ r)))) off data =
      z₁ ++ (z₂ ++ (z₃ ++ (z₄ ++ patch r (off - 20 - z₄.length) data))) := by
  rw [patch_skip (by omega), patch_skip (by omega), patch_skip (by omega), patch_skip (by omega),
    h₁, h₂, h₃]
  rfl

end

theorem exists_cut (hcs : 40 ≤ cs) {buf : List UInt8} (hlen : buf.length = cs) :
    ∃ z₁ z₂ z₃ z₄ z₅ z₆ z₇ : List UInt8,
      buf = z₁ ++ (z₂ ++ (z₃ ++ (z₄ ++ (z₅ ++ (z₆ ++ z₇))))) ∧ z₁.length = 8 ∧ z₂.length = 8 ∧
        z₃.length = 4 ∧ z₄.length = cs - 40 ∧ z₅.length = 4 ∧ z₆.length = 8 ∧ z₇.length = 8 := by
  have hcut (n : Nat) (l : List UInt8) (h : n ≤ l.length) :
      ∃ a b, l = a ++ b ∧ a.length = n ∧ b.length = l.length - n :=
    ⟨l.take n, l.drop n, (List.take_append_drop n l).symm, by simpa using h, by simp⟩
  obtain ⟨z₁, r₁, rfl, h₁, hr₁⟩ := hcut 8 buf (by omega)
  obtain ⟨z₂, r₂, rfl, h₂, hr₂⟩ := hcut 8 r₁ (by omega)
  obtain ⟨z₃, r₃, rfl, h₃, hr₃⟩ := hcut 4 r₂ (by omega)
  obtain ⟨z₄, r₄, rfl, h₄, hr₄⟩ := hcut (cs - 40) r₃ (by omega)
  obtain ⟨z₅, r₅, rfl, h₅, hr₅⟩ := hcut 4 r₄ (by omega)
  obtain ⟨z₆, z₇, rfl, h₆, h₇⟩ := hcut 8 r₅ (by omega)
  exact ⟨z₁, z₂, z₃, z₄, z₅, z₆, z₇, rfl, h₁, h₂, h₃, h₄, h₅, h₆, by omega⟩

theorem fillFields_eq (hcs : 40 ≤ cs) {buf : List UInt8} (hlen : buf.length = cs)
    (wu : WriteUnit) : fillFields e cs buf wu =
      (fields e cs wu.chunkNo wu.timestamp (bodySum e cs wu.char) wu.char,
        { wu with checksum := bodySum e cs wu.char }) := by
  obtain ⟨z₁, z₂, z₃, z₄, z₅, z₆, z₇, rfl, h₁, h₂, h₃, h₄, h₅, h₆, h₇⟩ := exists_cut hcs hlen
  have hbody : cs - 20 * 2 = cs - 40 := rfl
  have hrep (n : Nat) (x : UInt8) : (List.replicate n x).length = n := List.length_replicate
  have h8 (x : Nat) : (e.store 8 x).length = 8 := e.length_store 8 x
  have h4 (x : Nat) : (e.store 4 x).length = 4 := e.length_store 4 x
  simp only [fillFields, hbody]
  rw [patch_head (by rw [h₁, h8]), patch_skip (Nat.le_of_eq (h8 _)), h8,
    patch_head (by rw [h₂, h8]), patch_body (h8 _) (h8 _) h₃ (by rw [h₄, hrep]),
    slice_body (h8 _) (h8 _) h₃ (hrep _ _)]
  -- the three fields at the end
  rw [patch_tail (h8 _) (h8 _) h₃ (by rw [hrep]; omega), hrep,
    show cs - 20 - 20 - (cs - 40) = 0 by omega, patch_head (by rw [h₅, h4])]
  rw [patch_tail (h8 _) (h8 _) h₃ (by rw [hrep]; omega), hrep,
    show cs - 20 + 4 - 20 - (cs - 40) = 4 by omega, patch_skip (Nat.le_of_eq (h4 _)), h4,
    patch_head (by rw [h₆, h8])]
  rw [patch_tail (h8 _) (h8 _) h₃ (by rw [hrep]; omega), hrep,
    show cs - 20 + 12 - 20 - (cs - 40) = 12 by omega,
    patch_skip (Nat.le_trans (Nat.le_of_eq (h4 _)) (by decide : 4 ≤ 12)), h4,
    patch_skip (Nat.le_trans (Nat.le_of_eq (h8 _)) (by decide : 8 ≤ 12 - 4)), h8,
    patch_all (by rw [h₇, h8])]
  -- and the checksum at the front
  rw [patch_skip (Nat.le_trans (Nat.le_of_eq (h8 _)) (by decide : 8 ≤ 16)), h8,
    patch_skip (Nat.le_of_eq (h8 _)), h8, patch_head (by rw [h₃, h4])]
  rfl

theorem fillChunkPattern_eq (hcs : 40 ≤ cs) (wu : WriteUnit) :
    fillChunkPattern e cs wu =
      (fields e cs wu.chunkNo wu.timestamp (bodySum e cs wu.char) wu.char,
        { wu with checksum := bodySum e cs wu.char }) :=
  fillFields_eq hcs List.length_replicate wu

theorem pattern_eq (hcs : 40 ≤ cs) (wu : WriteUnit) :
    pattern e cs wu = fields e cs wu.chunkNo wu.timestamp (bodySum e cs wu.char) wu.char := by
  rw [pattern, fillChunkPattern_eq hcs]

theorem length_fields (hcs : 40 ≤ cs) : (fields e cs no ts sum char).length = cs := by
  simp only [fields, List.length_append, Endian.length_store, List.length_replicate]
  omega

@[simp] theorem length_pattern (hcs : 40 ≤ cs) (wu : WriteUnit) : (pattern e cs wu).length = cs := by
  rw [pattern_eq hcs, length_fields hcs]

theorem slice_tail {z₁ z₂ z₃ z₄ r : List UInt8} (h₁ : z₁.length = 8) (h₂ : z₂.length = 8)
    (h₃ : z₃.length = 4) (hoff : 20 + z₄.length ≤ off) :
    slice (z₁ ++ (z₂ ++ (z₃ ++ (z₄ ++ r)))) off n = slice r (off - 20 - z₄.length) n := by
  rw [slice_skip (by omega), slice_skip (by omega), slice_skip (by omega), slice_skip (by omega),
    h₁, h₂, h₃]
  rfl

theorem dumpPattern_fields (hcs : 41 ≤ cs) (no ts : UInt64) (sum : UInt32) (char : UInt8) :
    dumpPattern e cs (fields e cs no ts sum char) = ⟨no, ts, sum, char⟩ := by
  have h8 (x : Nat) : (e.store 8 x).length = 8 := e.length_store 8 x
  have h4 (x : Nat) : (e.store 4 x).length = 4 := e.length_store 4 x
  have hbody (x : UInt8) : (List.replicate (cs - 40) x).length = cs - 40 := List.length_replicate
  have hno' : no.toNat < 256 ^ 8 := no.toNat_lt
  have hts' : ts.toNat < 256 ^ 8 := ts.toNat_lt
  have hsum' : sum.toNat < 256 ^ 4 := sum.toNat_lt
  have hno : UInt64.ofNat (e.load (slice (fields e cs no ts sum char) (cs - 20 + 12) 8)) = no := by
    rw [fields, slice_tail (h8 _) (h8 _) (h4 _) (by rw [hbody]; omega), hbody,
      show cs - 20 + 12 - 20 - (cs - 40) = 12 by omega, slice_skip (by simp), h4,
      slice_skip (by simp), h8, slice_all (h8 _), Endian.load_store, Nat.mod_eq_of_lt hno']
    simp
  have hts : UInt64.ofNat (e.load (slice (fields e cs no ts sum char) (cs - 20 + 4) 8)) = ts := by
    rw [fields, slice_tail (h8 _) (h8 _) (h4 _) (by rw [hbody]; omega), hbody,
      show cs - 20 + 4 - 20 - (cs - 40) = 4 by omega, slice_skip (by simp), h4,
      slice_head (h8 _), Endian.load_store, Nat.mod_eq_of_lt hts']
    simp
  have hsum : UInt32.ofNat (e.load (slice (fields e cs no ts sum char) (cs - 20) 4)) = sum := by
    rw [fields, slice_tail (h8 _) (h8 _) (h4 _) (by rw [hbody]; omega), hbody,
      show cs - 20 - 20 - (cs - 40) = 0 by omega, slice_head (h4 _), Endian.load_store,
      Nat.mod_eq_of_lt hsum']
    simp
  have hchar : (fields e cs no ts sum char).getD 20 0 = char := by
    obtain ⟨n, hn⟩ : ∃ n, cs - 40 = n + 1 := ⟨cs - 41, by omega⟩
    simp [fields, List.getElem?_append, hn, List.replicate_succ]
  simp only [dumpPattern, hno, hts, hsum, hchar]

theorem dumpPattern_pattern (hcs : 41 ≤ cs) (wu : WriteUnit) :
    dumpPattern e cs (pattern e cs wu) = { wu with checksum := bodySum e cs wu.char } := by
  rw [pattern_eq (by omega), dumpPattern_fields hcs]

theorem pattern_inj (hcs : 41 ≤ cs) {wu wu' : WriteUnit} :
    pattern e cs wu = pattern e cs wu' ↔
      wu.chunkNo = wu'.chunkNo ∧ wu.timestamp = wu'.timestamp ∧ wu.char = wu'.char := by
  constructor
  · intro h
    have hdump := congrArg (dumpPattern e cs) h
    rw [dumpPattern_pattern hcs, dumpPattern_pattern hcs, WriteUnit.mk.injEq] at hdump
    exact ⟨hdump.1, hdump.2.1, hdump.2.2.2⟩
  · rintro ⟨hno, hts, hchar⟩
    rw [pattern_eq (by omega), pattern_eq (by omega), hno, hts, hchar]

end

-- ---------------------------------------------------------------------------
-- Chunks of a file
-- ---------------------------------------------------------------------------

/-- The bytes of chunk `i`, zeros where the file has ended. -/
def chunkAt (f : ByteFile) (cs i : Nat) : List UInt8 :=
  (List.range cs).map fun k => f.byte (i * cs + k)

/-- `do_write_chunk`, with the write done in full. The offset has 64 bits. -/
def doWriteChunk (e : Endian) (cs : Nat) (f : ByteFile) (wu : WriteUnit) : ByteFile :=
  f.pwrite (pattern e cs wu) (cs * wu.chunkNo.toNat % 2 ^ 64)

section
variable {e : Endian} {cs : Nat} {f : ByteFile} {wu : WriteUnit}

@[simp] theorem length_chunkAt (f : ByteFile) (cs i : Nat) : (chunkAt f cs i).length = cs := by
  simp [chunkAt]

theorem pread_chunk (h : (i + 1) * cs ≤ f.size) : f.pread cs (i * cs) = chunkAt f cs i := by
  have hmin : min cs (f.size - i * cs) = cs := by
    rw [Nat.add_mul] at h
    omega
  rw [ByteFile.pread, hmin, chunkAt]

theorem chunkAt_pwrite {data : List UInt8} (hlen : data.length = cs) (no i : Nat) :
    chunkAt (f.pwrite data (no * cs)) cs i = if i = no then data else chunkAt f cs i := by
  split
  · next hi =>
    subst hi
    refine List.ext_getElem (by rw [length_chunkAt, hlen]) fun k hk hk' => ?_
    rw [hlen] at hk'
    simp [chunkAt, ByteFile.byte_pwrite, hlen, hk']
  · next hi =>
    refine List.ext_getElem (by simp) fun k hk hk' => ?_
    rw [length_chunkAt] at hk
    have hout : ¬ (no * cs ≤ i * cs + k ∧ i * cs + k < no * cs + cs) := by
      rcases Nat.lt_or_gt_of_ne hi with h | h
      · have := Nat.mul_le_mul_right cs (Nat.succ_le_of_lt h)
        rw [Nat.succ_mul] at this
        omega
      · have := Nat.mul_le_mul_right cs (Nat.succ_le_of_lt h)
        rw [Nat.succ_mul] at this
        omega
    simp [chunkAt, ByteFile.byte_pwrite, hlen, hout]

theorem chunkAt_doWriteChunk (hcs : 40 ≤ cs) (hoff : cs * wu.chunkNo.toNat < 2 ^ 64) (i : Nat) :
    chunkAt (doWriteChunk e cs f wu) cs i =
      if i = wu.chunkNo.toNat then pattern e cs wu else chunkAt f cs i := by
  rw [doWriteChunk, Nat.mod_eq_of_lt hoff, Nat.mul_comm, chunkAt_pwrite (length_pattern hcs wu)]

theorem size_doWriteChunk (hcs : 40 ≤ cs) (hoff : cs * wu.chunkNo.toNat < 2 ^ 64) :
    (doWriteChunk e cs f wu).size = max f.size ((wu.chunkNo.toNat + 1) * cs) := by
  have hne : pattern e cs wu ≠ [] := by
    intro h
    have := length_pattern hcs wu (e := e)
    rw [h] at this
    simp at this
    omega
  simp only [doWriteChunk, ByteFile.pwrite, hne, if_false, length_pattern hcs,
    Nat.mod_eq_of_lt hoff]
  rw [Nat.add_mul, Nat.one_mul, Nat.mul_comm]

end

end Ocfs2Test.Chunks
