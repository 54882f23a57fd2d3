import Ocfs2Test.Chunks.Pattern

/-!
# The layout of a chunk

Three programs have a `fill_chunk_pattern` and a `dump_pattern` of their own.
They differ in the size of a chunk only: the chunk is the same fields from both
ends, and one character in between.
-/

namespace Ocfs2Test.Chunks

open Lib

/-- `fill_chunk_pattern` and `dump_pattern` of libocfs2test, for the units of one
`wu_chunksize`. -/
def Libocfs2test.fillChunkPattern (e : Endian) (chunksize : UInt32) :
    WriteUnit → List UInt8 × WriteUnit :=
  Chunks.fillChunkPattern e chunksize.toNat

def Libocfs2test.dumpPattern (e : Endian) (chunksize : UInt32) : List UInt8 → WriteUnit :=
  Chunks.dumpPattern e chunksize.toNat

def DirectioUtils.fillChunkPattern (e : Endian) : WriteUnit → List UInt8 × WriteUnit :=
  Chunks.fillChunkPattern e CHUNK_SIZE

def DirectioUtils.dumpPattern (e : Endian) : List UInt8 → WriteUnit :=
  Chunks.dumpPattern e CHUNK_SIZE

def ReflinkTestUtils.fillChunkPattern (e : Endian) : WriteUnit → List UInt8 × WriteUnit :=
  Chunks.fillChunkPattern e CHUNK_SIZE

def ReflinkTestUtils.dumpPattern (e : Endian) : List UInt8 → WriteUnit :=
  Chunks.dumpPattern e CHUNK_SIZE

/-- What an encoder of units and its decoder owe each other. -/
structure RoundTrip (e : Endian) (cs : Nat) (fill : WriteUnit → List UInt8 × WriteUnit)
    (dump : List UInt8 → WriteUnit) : Prop where
  stored : ∀ wu, (fill wu).2 = { wu with checksum := (fill wu).2.checksum }
  dump_fill : ∀ wu, dump (fill wu).1 = (fill wu).2
  length : ∀ wu, (fill wu).1.length = cs
  head : ∀ wu, slice (fill wu).1 0 20 = e.store 8 wu.chunkNo.toNat ++
    e.store 8 wu.timestamp.toNat ++ e.store 4 (fill wu).2.checksum.toNat
  body : ∀ wu, slice (fill wu).1 20 (cs - 40) = List.replicate (cs - 40) wu.char
  tail : ∀ wu, slice (fill wu).1 (cs - 20) 20 = e.store 4 (fill wu).2.checksum.toNat ++
    e.store 8 wu.timestamp.toNat ++ e.store 8 wu.chunkNo.toNat
  /-- Of a buffer with anything in it the stores leave nothing. -/
  overwrites : ∀ wu buf, buf.length = cs → fillFields e cs buf wu = fill wu
  injective : ∀ wu wu', (fill wu).1 = (fill wu').1 →
    wu.chunkNo = wu'.chunkNo ∧ wu.timestamp = wu'.timestamp ∧ wu.char = wu'.char

section
variable {e : Endian} {cs : Nat}

theorem fields_eq_head (no ts : UInt64) (sum : UInt32) (char : UInt8) :
    fields e cs no ts sum char = (e.store 8 no.toNat ++ e.store 8 ts.toNat ++ e.store 4 sum.toNat) ++
      (List.replicate (cs - 40) char ++
        (e.store 4 sum.toNat ++ e.store 8 ts.toNat ++ e.store 8 no.toNat)) := by
  simp only [fields, List.append_assoc]

theorem slice_fields_head (no ts : UInt64) (sum : UInt32) (char : UInt8) :
    slice (fields e cs no ts sum char) 0 20 =
      e.store 8 no.toNat ++ e.store 8 ts.toNat ++ e.store 4 sum.toNat := by
  rw [fields_eq_head, slice_head (by simp)]

theorem slice_fields_body (no ts : UInt64) (sum : UInt32) (char : UInt8) :
    slice (fields e cs no ts sum char) 20 (cs - 40) = List.replicate (cs - 40) char := by
  have hhead : (e.store 8 no.toNat ++ e.store 8 ts.toNat ++ e.store 4 sum.toNat).length = 20 := by
    simp
  rw [fields_eq_head, slice_skip (Nat.le_of_eq hhead), hhead]
  apply slice_head
  simp

theorem slice_fields_tail (hcs : 40 ≤ cs) (no ts : UInt64) (sum : UInt32) (char : UInt8) :
    slice (fields e cs no ts sum char) (cs - 20) 20 =
      e.store 4 sum.toNat ++ e.store 8 ts.toNat ++ e.store 8 no.toNat := by
  have hoff : cs - 20 - 20 - (cs - 40) = 0 := by omega
  rw [fields_eq_head, slice_skip (by simp; omega), slice_skip (by simp; omega)]
  simp only [List.length_append, Endian.length_store, List.length_replicate, hoff]
  apply slice_all
  simp

theorem roundTrip (hcs : 41 ≤ cs) : RoundTrip e cs (fillChunkPattern e cs) (dumpPattern e cs) := by
  have hfill (wu : WriteUnit) := @fillChunkPattern_eq e cs (by omega) wu
  constructor
  · intro wu
    rw [hfill]
  · intro wu
    rw [hfill, dumpPattern_fields hcs]
  · intro wu
    rw [hfill, length_fields (by omega)]
  · intro wu
    rw [hfill, slice_fields_head]
  · intro wu
    rw [hfill, slice_fields_body]
  · intro wu
    rw [hfill, slice_fields_tail (by omega)]
  · intro wu buf hbuf
    rw [hfill, fillFields_eq (by omega) hbuf]
  · intro wu wu' h
    apply (pattern_inj hcs).mp h

end

/-- Each of the programs reads back what it has filled in. -/
theorem chunk_roundTrip (e : Endian) (chunksize : UInt32) (hcs : 41 ≤ chunksize.toNat) :
    RoundTrip e chunksize.toNat (Libocfs2test.fillChunkPattern e chunksize)
        (Libocfs2test.dumpPattern e chunksize) ∧
      RoundTrip e CHUNK_SIZE (DirectioUtils.fillChunkPattern e) (DirectioUtils.dumpPattern e) ∧
      RoundTrip e CHUNK_SIZE (ReflinkTestUtils.fillChunkPattern e)
        (ReflinkTestUtils.dumpPattern e) := by
  refine ⟨?_, ?_, ?_⟩
  · apply roundTrip hcs
  · apply roundTrip
    decide
  · apply roundTrip
    decide

theorem chunk_roundTrip_41 :
    RoundTrip .little 41 (Libocfs2test.fillChunkPattern .little 41)
        (Libocfs2test.dumpPattern .little 41) ∧
      RoundTrip .little CHUNK_SIZE (DirectioUtils.fillChunkPattern .little)
        (DirectioUtils.dumpPattern .little) ∧
      RoundTrip .little CHUNK_SIZE (ReflinkTestUtils.fillChunkPattern .little)
        (ReflinkTestUtils.dumpPattern .little) :=
  chunk_roundTrip .little 41 (by decide)

end Ocfs2Test.Chunks
