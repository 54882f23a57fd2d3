import Mathlib

/-!
# Files as byte arrays

A regular file that reads as zero where nothing was written. `pread` stops at
the end of the file, and `pwrite` past the end leaves a hole in between.
-/

namespace Lib

@[ext]
structure ByteFile where
  size : Nat
  byte : Nat → UInt8
  zero_beyond : ∀ i, size ≤ i → byte i = 0

namespace ByteFile

def empty : ByteFile := ⟨0, fun _ => 0, fun _ _ => rfl⟩

/-- `ftruncate`, which cuts or extends. -/
def truncate (f : ByteFile) (size : Nat) : ByteFile where
  size := size
  byte i := if i < size then f.byte i else 0
  zero_beyond _ h := if_neg (Nat.not_lt.mpr h)

/-- All of `data` at `off`; nothing happens for no data. -/
def pwrite (f : ByteFile) (data : List UInt8) (off : Nat) : ByteFile where
  size := if data = [] then f.size else max f.size (off + data.length)
  byte i := if off ≤ i ∧ i < off + data.length then data.getD (i - off) 0 else f.byte i
  zero_beyond i h := by
    split at h
    · next hnil =>
      subst hnil
      simpa using f.zero_beyond i h
    · rw [if_neg (by omega), f.zero_beyond i (by omega)]

/-- `write` on a descriptor opened with `O_APPEND`. -/
def append (f : ByteFile) (data : List UInt8) : ByteFile := f.pwrite data f.size

/-- At most `count` bytes from `off`. -/
def pread (f : ByteFile) (count off : Nat) : List UInt8 :=
  (List.range (min count (f.size - off))).map fun i => f.byte (off + i)

variable {f : ByteFile} {data : List UInt8}

@[simp] theorem length_pread : (f.pread count off).length = min count (f.size - off) := by
  simp [pread]

theorem pread_getElem (h : i < (f.pread count off).length) :
    (f.pread count off)[i] = f.byte (off + i) := by
  simp [pread]

theorem byte_pwrite (f : ByteFile) (data : List UInt8) (off i : Nat) :
    (f.pwrite data off).byte i =
      if off ≤ i ∧ i < off + data.length then data.getD (i - off) 0 else f.byte i := rfl

theorem byte_truncate (f : ByteFile) (size i : Nat) :
    (f.truncate size).byte i = if i < size then f.byte i else 0 := rfl

@[simp] theorem size_truncate (f : ByteFile) (n : Nat) : (f.truncate n).size = n := rfl

theorem size_pwrite_of_le (h : off + data.length ≤ f.size) : (f.pwrite data off).size = f.size := by
  simp only [pwrite]
  split <;> omega

theorem byte_append_replicate (f : ByteFile) (n : Nat) (c : UInt8) (i : Nat) :
    (f.append (List.replicate n c)).byte i =
      if f.size ≤ i ∧ i < f.size + n then c else f.byte i := by
  rw [append, byte_pwrite, List.length_replicate]
  split
  · rw [List.getD_replicate _ (by omega)]
  · rfl

theorem size_append_replicate (f : ByteFile) (n : Nat) (c : UInt8) :
    (f.append (List.replicate n c)).size = f.size + n := by
  cases n with
  | zero => simp [append, pwrite]
  | succ n => simp [append, pwrite, List.replicate_succ]

theorem size_le_pwrite (f : ByteFile) (data : List UInt8) (off : Nat) :
    f.size ≤ (f.pwrite data off).size := by
  simp only [pwrite]
  split <;> omega

theorem lt_size_pwrite (hlo : off ≤ i) (hhi : i < off + data.length) :
    i < (f.pwrite data off).size := by
  have hne : data ≠ [] := by
    rintro rfl
    rw [List.length_nil] at hhi
    omega
  simp only [pwrite, if_neg hne]
  omega

theorem byte_pwrite_of_mem (hlo : off ≤ i) (hhi : i < off + data.length) :
    (f.pwrite data off).byte i = data.getD (i - off) 0 := if_pos ⟨hlo, hhi⟩

theorem byte_pwrite_of_lt (h : i < off) : (f.pwrite data off).byte i = f.byte i :=
  if_neg fun hc => Nat.not_le.mpr h hc.1

end ByteFile

end Lib
