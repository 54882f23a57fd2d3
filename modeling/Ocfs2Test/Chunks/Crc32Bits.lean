import Ocfs2Test.Chunks.Crc32
import Ocfs2Test.Lib.CrcBits

/-!
# The checksum of the patterns is CRC-32

`crc32_checksum` against the division bit by bit, without the inversions
before and after it.
-/

namespace Ocfs2Test.Chunks

open Lib Lib.Crc

/-- The polynomial of CRC-32, the highest power at the low end. -/
def crc32Poly : BitVec 32 := 0xedb88320

/-- CRC-32 of `p`, from the register `crc` on. -/
def crc32 (crc : UInt32) (p : List UInt8) : UInt32 := ⟨p.foldl (bitByte crc32Poly) crc.toBitVec⟩

theorem tole_eq_reorder (e : Endian) (x : BitVec 32) : tole e x = reorder e x := by
  cases e with
  | little =>
    obtain ⟨a, b, c, d, rfl⟩ := exists_word .little x
    rw [reorder_word]
    rfl
  | big => rfl

theorem toList_crc32tableLe : crc32tableLe.toList =
    (List.range 256).map fun i => (bitStep crc32Poly)^[8] (BitVec.ofNat 32 i) := by
  decide +kernel

theorem tableOf_crc32tableLe : TableOf crc32Poly fun i => crc32tableLe.getD i.toNat 0 := by
  intro i
  have hindex : (List.range 256)[i.toNat]? = some i.toNat := List.getElem?_range i.isLt
  show crc32tableLe.getD i.toNat 0 = _
  rw [Array.getD_eq_getD_getElem?, ← Array.getElem?_toList, toList_crc32tableLe,
    List.getElem?_map, hindex, Option.map_some, Option.getD_some, BitVec.ofNat_toNat]

/-- What the code keeps of the bytes before is all that the bytes after need. -/
theorem crc32_append (crc : UInt32) (a b : List UInt8) :
    crc32 crc (a ++ b) = crc32 (crc32 crc a) b := by
  rw [crc32, crc32, crc32, List.foldl_append]

theorem crc32Checksum_eq_crc32 (e : Endian) (addr : Nat) (crc : UInt32) (p : List UInt8) :
    crc32Checksum e addr crc p = crc32 crc p := by
  have htab : crcTable e = fun i => reorder e (crc32tableLe.getD i.toNat 0) := by
    funext i
    rw [crcTable, tole_eq_reorder]
  rw [crc32Checksum, htab, tole_eq_reorder, tole_eq_reorder,
    run_reorder crc32Poly e tableOf_crc32tableLe, reorder_reorder, crc32]

-- ---------------------------------------------------------------------------
-- The copies
-- ---------------------------------------------------------------------------

def FileVerify.crc32Checksum := Chunks.crc32Checksum

def DirectioUtils.crc32Checksum := Chunks.crc32Checksum

def ReflinkTestUtils.crc32Checksum := Chunks.crc32Checksum

/-- On any host and at any address: the checksum is CRC-32, it continues over
two strings, and the copies agree. -/
theorem crc32Checksum_refines (e e' : Endian) (addr addr' addr'' : Nat) (crc : UInt32)
    (a b : List UInt8) :
    FileVerify.crc32Checksum e addr crc a = crc32 crc a ∧
      FileVerify.crc32Checksum e addr' (FileVerify.crc32Checksum e addr crc a) b =
        FileVerify.crc32Checksum e addr'' crc (a ++ b) ∧
      DirectioUtils.crc32Checksum e' addr' crc a = FileVerify.crc32Checksum e addr crc a ∧
      ReflinkTestUtils.crc32Checksum e' addr' crc a = FileVerify.crc32Checksum e addr crc a := by
  simp only [FileVerify.crc32Checksum, DirectioUtils.crc32Checksum, ReflinkTestUtils.crc32Checksum,
    crc32Checksum_eq_crc32, crc32_append, and_self]

end Ocfs2Test.Chunks
