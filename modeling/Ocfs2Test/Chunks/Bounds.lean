import Ocfs2Test.Chunks.Layout
import Ocfs2Test.Chunks.Verify

/-!
# The buffer of a chunk

`fill_chunk_pattern` and `dump_pattern` count from both ends of a buffer of
`chunksize` bytes. The size comes from an option and is not compared with what
the fields at the two ends take.
-/

namespace Ocfs2Test.Chunks

open Lib Lib.Stdio

/-- A stretch of a buffer, by the 64-bit numbers the code has for it. -/
structure Access where
  offset : UInt64
  length : UInt64

def Access.Inside (size : Nat) (a : Access) : Prop := a.offset.toNat + a.length.toNat ≤ size

instance (size : Nat) (a : Access) : Decidable (a.Inside size) :=
  inferInstanceAs (Decidable (_ ≤ _))

section
variable (chunksize : UInt32)

def fillAccesses : List Access :=
  let offset : UInt64 := 8 + 8 + 4
  let body := chunksize.toUInt64 - offset * 2
  let behind := chunksize.toUInt64 - offset
  [⟨0, chunksize.toUInt64⟩, ⟨0, 8⟩, ⟨8, 8⟩, ⟨offset, body⟩, ⟨offset, body⟩, ⟨behind, 4⟩,
    ⟨behind + 4, 8⟩, ⟨behind + 4 + 8, 8⟩, ⟨8 + 8, 4⟩]

def dumpAccesses : List Access :=
  let offset : UInt64 := 8 + 8 + 4
  let behind := chunksize.toUInt64 - offset
  [⟨0, 8⟩, ⟨8, 8⟩, ⟨8 + 8, 4⟩, ⟨offset, 1⟩, ⟨behind, 4⟩, ⟨behind + 4, 8⟩, ⟨behind + 4 + 8, 8⟩]

def differences : List (UInt64 × UInt64) :=
  let offset : UInt64 := 8 + 8 + 4
  [(chunksize.toUInt64, offset * 2), (chunksize.toUInt64, offset)]

def FillInside : Prop := ∀ a ∈ fillAccesses chunksize, a.Inside chunksize.toNat

def DumpInside : Prop := ∀ a ∈ dumpAccesses chunksize, a.Inside chunksize.toNat

instance : Decidable (FillInside chunksize) := List.decidableBAll _ _

instance : Decidable (DumpInside chunksize) := List.decidableBAll _ _

structure InBounds : Prop where
  fill : FillInside chunksize
  dump : DumpInside chunksize
  noWrap : ∀ d ∈ differences chunksize, d.2 ≤ d.1

theorem fillAccesses_eq (h : 40 ≤ chunksize.toNat) :
    (fillAccesses chunksize).map (fun a => (a.offset.toNat, a.length.toNat)) =
      let cs := chunksize.toNat
      [(0, cs), (0, 8), (8, 8), (20, cs - 20 * 2), (20, cs - 20 * 2), (cs - 20, 4),
        (cs - 20 + 4, 8), (cs - 20 + 12, 8), (16, 4)] := by
  have hlt := chunksize.toNat_lt
  simp only [fillAccesses, List.map_cons, List.map_nil, UInt64.toNat_add, UInt64.toNat_sub,
    UInt32.toNat_toUInt64, UInt64.reduceToNat, UInt64.reduceAdd, UInt64.reduceMul]
  simp only [List.cons.injEq, Prod.mk.injEq, true_and, and_true]
  omega

theorem dumpAccesses_eq (h : 20 ≤ chunksize.toNat) :
    (dumpAccesses chunksize).map (fun a => (a.offset.toNat, a.length.toNat)) =
      let cs := chunksize.toNat
      [(0, 8), (8, 8), (16, 4), (20, 1), (cs - 20, 4), (cs - 20 + 4, 8), (cs - 20 + 12, 8)] := by
  have hlt := chunksize.toNat_lt
  simp only [dumpAccesses, List.map_cons, List.map_nil, UInt64.toNat_add, UInt64.toNat_sub,
    UInt32.toNat_toUInt64, UInt64.reduceToNat, UInt64.reduceAdd]
  simp only [List.cons.injEq, Prod.mk.injEq, true_and, and_true]
  omega

end

section
variable {chunksize : UInt32}

theorem inside_all_iff (l : List Access) :
    (∀ a ∈ l, a.Inside n) ↔
      ∀ p ∈ l.map (fun a => (a.offset.toNat, a.length.toNat)), p.1 + p.2 ≤ n := by
  simp [Access.Inside]

theorem fillInside_iff : FillInside chunksize ↔ 40 ≤ chunksize.toNat := by
  constructor
  · intro h
    have hlt := chunksize.toNat_lt
    -- the body has less than the size of the buffer
    have hbody := h ⟨20, chunksize.toUInt64 - 40⟩ (by simp [fillAccesses])
    simp only [Access.Inside, UInt64.toNat_sub, UInt32.toNat_toUInt64, UInt64.reduceToNat] at hbody
    omega
  · intro h
    rw [FillInside, inside_all_iff, fillAccesses_eq chunksize h]
    simp only [List.forall_mem_cons, List.not_mem_nil, false_implies, implies_true, and_true]
    omega

theorem dumpInside_iff : DumpInside chunksize ↔ 21 ≤ chunksize.toNat := by
  constructor
  · intro h
    have hchar := h ⟨20, 1⟩ (by simp [dumpAccesses])
    exact hchar
  · intro h
    rw [DumpInside, inside_all_iff, dumpAccesses_eq chunksize (by omega)]
    simp only [List.forall_mem_cons, List.not_mem_nil, false_implies, implies_true, and_true]
    omega

theorem inBounds_iff : InBounds chunksize ↔ 40 ≤ chunksize.toNat := by
  constructor
  · intro h
    exact fillInside_iff.mp h.fill
  · intro h
    refine ⟨fillInside_iff.mpr h, dumpInside_iff.mpr (by omega), ?_⟩
    simp only [differences, List.forall_mem_cons, List.not_mem_nil, false_implies, implies_true,
      and_true, UInt64.le_iff_toNat_le, UInt32.toNat_toUInt64, UInt64.reduceToNat,
      UInt64.reduceAdd, UInt64.reduceMul]
    omega

end

-- ---------------------------------------------------------------------------
-- The option
-- ---------------------------------------------------------------------------

/-- `-k` of frager; any number will do. -/
def Frager.parseChunkSize : Option (List Char) → UInt64
  | none => 32 * 1024
  | some optarg => UInt64.ofInt (atol optarg)

/-- `-k` of verify_file and the test of `setup`. -/
def VerifyFile.parseChunksize : Option (List Char) → Option UInt64
  | none => none
  | some optarg =>
    let chunksize := UInt64.ofInt (atol optarg)
    if chunksize = 0 then none else some chunksize

/-- Both hand the number on as an `unsigned int`. -/
theorem chunkBuffer_inBounds_iff (arg : Option (List Char)) :
    (InBounds (Frager.parseChunkSize arg).toUInt32 ↔
        40 ≤ (Frager.parseChunkSize arg).toNat % 2 ^ 32) ∧
      ∀ chunksize, VerifyFile.parseChunksize arg = some chunksize →
        (InBounds chunksize.toUInt32 ↔ 40 ≤ chunksize.toNat % 2 ^ 32) := by
  constructor
  · rw [inBounds_iff, UInt64.toNat_toUInt32]
  · intro chunksize _
    rw [inBounds_iff, UInt64.toNat_toUInt32]

theorem chunkBuffer_32 :
    (∃ chunksize, VerifyFile.parseChunksize (some ['3', '2']) = some chunksize ∧
      ¬ InBounds chunksize.toUInt32) ∧
    Frager.parseChunkSize (some ['3', '2']) = 32 ∧
    ¬ InBounds (Frager.parseChunkSize (some ['3', '2'])).toUInt32 := by
  have h : UInt64.ofInt (atol ['3', '2']) = 32 := by decide +kernel
  refine ⟨⟨32, ?_, ?_⟩, h, ?_⟩
  · simp [VerifyFile.parseChunksize, h]
  · rw [inBounds_iff]
    decide
  · rw [inBounds_iff, Frager.parseChunkSize, h]
    decide

-- ---------------------------------------------------------------------------
-- verify_file at any size of a chunk
-- ---------------------------------------------------------------------------

section
variable (e : Endian) (chunksize : UInt32)

def fillBounded (wu : WriteUnit) : Option (List UInt8 × WriteUnit) :=
  if FillInside chunksize then some (fillChunkPattern e chunksize.toNat wu) else none

/-- A buffer and 20 bytes of the heap on either side of it. -/
def around (slack : Nat → UInt8) (buf : List UInt8) : List UInt8 :=
  (List.range 20).map slack ++ (buf ++ (List.range 20).map fun k => slack (20 + k))

/-- `dumpPattern` of a buffer of any size. Below 20 bytes `chunksize - offset` wraps and
leads in front of the buffer; nothing that is read there faults. -/
def dumpBounded (slack : Nat → UInt8) (buf : List UInt8) : WriteUnit :=
  let heap := around slack buf
  -- the fields at the head are overwritten by those at the end
  let char := heap.getD (20 + 20) 0
  let behind := chunksize.toNat
  let checksum := UInt32.ofNat (e.load (slice heap behind 4))
  let timestamp := UInt64.ofNat (e.load (slice heap (behind + 4) 8))
  ⟨UInt64.ofNat (e.load (slice heap (behind + 12) 8)), timestamp, checksum, char⟩

/-- `checkChunk`, with a fault where `fill_chunk_pattern` leaves its buffer. -/
def checkBounded (slack : Nat → UInt8) (i : Nat) (expected : WriteUnit) (buf : List UInt8)
    (count : Nat) : Option Outcome :=
  let wu := dumpBounded e chunksize slack buf
  if expected.timestamp = 0 then
    if wu.timestamp = 0 then none
    else if wu.chunkNo ≠ UInt64.ofNat i then some (.returns (-EINVAL))
    else
      match fillBounded e chunksize wu with
      | none => some .fault
      | some (_, ewu) => if wu.checksum ≠ ewu.checksum then some (.returns (-1)) else none
  else if count < chunksize.toNat then some (.returns (-1))
  else
    match fillBounded e chunksize wu with
    | none => some .fault
    | some (tmp, _) =>
      if verifyChunkPattern e chunksize.toNat tmp expected then none else some (.returns (-1))

def verifyFromBounded (slack : Nat → Nat → UInt8) (read : Nat → Read) (wus : Table) :
    Nat → Nat → Outcome
  | 0, _ => .returns 0
  | n + 1, i =>
    match read i with
    | .past => .returns 0
    | .failed ret => .returns ret
    | .hangs => .hangs
    | .buf bytes count =>
      match checkBounded e chunksize (slack i) i (wus i) bytes count with
      | some o => o
      | none => verifyFromBounded slack read wus n (i + 1)

end

/-- The units of `sizeof` bytes there is room for in `t_bytes`, which has 64
bits. -/
def tableEntries (sizeof numChunks : Nat) : Nat := sizeof * numChunks % 2 ^ 64 / sizeof

namespace Libocfs2test

def SIZEOF_WRITE_UNIT : Nat := 32

/-- `verify_file` of a log: a division by zero, a table too small for its first
loop and a buffer too small for what is filled in all fault. `slack` is the heap around
the buffers, `junk` what `malloc` left in them. -/
def verifyFileBounded (e : Endian) (slack junk : Nat → Nat → UInt8) (text : List Char)
    (f : ByteFile) (filesize : UInt64) (chunksize : UInt32) : Outcome :=
  let numChunks := filesize.toNat / chunksize.toNat
  if chunksize = 0 ∨ tableEntries SIZEOF_WRITE_UNIT numChunks < numChunks then .fault
  else
    match readLog numChunks ⟨text, false⟩ initTable with
    | .error o => o
    | .ok wus =>
      verifyFromBounded e chunksize slack (doReadChunk junk f chunksize.toNat) wus numChunks 0

end Libocfs2test

section
variable {e : Endian} {chunksize : UInt32}

theorem dumpBounded_eq (h : 21 ≤ chunksize.toNat) (slack : Nat → UInt8) {buf : List UInt8}
    (hbuf : buf.length = chunksize.toNat) :
    dumpBounded e chunksize slack buf = dumpPattern e chunksize.toNat buf := by
  have hfront : ((List.range 20).map slack).length = 20 := by simp
  have hfield {off n : Nat} (hoff : 20 ≤ off) (hend : off + n ≤ 20 + buf.length) :
      slice (around slack buf) off n = slice buf (off - 20) n := by
    rw [around, slice_skip (by omega), hfront, slice_append (by omega)]
  have hchar : (around slack buf).getD (20 + 20) 0 = buf.getD 20 0 := by
    rw [around, List.getD_eq_getElem?_getD, List.getElem?_append_right (by omega), hfront,
      List.getElem?_append_left (by omega), ← List.getD_eq_getElem?_getD]
  simp only [dumpBounded, dumpPattern, hchar]
  rw [hfield (by omega) (by omega), hfield (by omega) (by omega), hfield (by omega) (by omega)]
  rw [show chunksize.toNat + 4 - 20 = chunksize.toNat - 20 + 4 by omega,
    show chunksize.toNat + 12 - 20 = chunksize.toNat - 20 + 12 by omega]

theorem checkBounded_eq (h : 40 ≤ chunksize.toNat) (slack : Nat → UInt8) (i : Nat)
    (expected : WriteUnit) {buf : List UInt8} (hbuf : buf.length = chunksize.toNat) (count : Nat) :
    checkBounded e chunksize slack i expected buf count =
      (checkChunk e chunksize.toNat i expected buf count).map .returns := by
  have hfill := fillInside_iff.mpr h
  simp only [checkBounded, dumpBounded_eq (by omega) slack hbuf, fillBounded, if_pos hfill,
    checkChunk]
  repeat' split
  all_goals rfl

theorem verifyFromBounded_eq (h : 40 ≤ chunksize.toNat) (slack : Nat → Nat → UInt8)
    {read : Nat → Read}
    (hread : ∀ i bytes count, read i = .buf bytes count → bytes.length = chunksize.toNat)
    (wus : Table) (n i : Nat) : verifyFromBounded e chunksize slack read wus n i =
      verifyFrom e chunksize.toNat read wus n i := by
  induction n generalizing i with
  | zero => rfl
  | succ n ih =>
    rw [verifyFromBounded, verifyFrom]
    cases hbuf : read i with
    | past => rfl
    | failed ret => rfl
    | hangs => rfl
    | buf bytes count =>
      simp only [checkBounded_eq h _ _ _ (hread i bytes count hbuf)]
      cases checkChunk e chunksize.toNat i (wus i) bytes count with
      | none => exact ih (i + 1)
      | some ret => rfl

theorem Libocfs2test.tableEntries_lt_iff (hn : n < 2 ^ 64) :
    tableEntries SIZEOF_WRITE_UNIT n < n ↔ 2 ^ 59 ≤ n := by
  have h : tableEntries SIZEOF_WRITE_UNIT n = n % 2 ^ 59 := by
    simp only [tableEntries, SIZEOF_WRITE_UNIT]
    omega
  rw [h]
  omega

theorem Libocfs2test.length_doReadChunk {junk : Nat → Nat → UInt8} {f : ByteFile}
    (h : doReadChunk junk f cs i = .buf bytes count) : bytes.length = cs := by
  simp only [doReadChunk] at h
  split at h
  · cases h
  · split at h
    · cases h
    · cases h
      simp only [List.length_append, ByteFile.length_pread, List.length_map, List.length_range]
      omega

theorem Libocfs2test.verifyFileBounded_eq (h : 40 ≤ chunksize.toNat)
    (slack junk : Nat → Nat → UInt8) (text : List Char) (f : ByteFile) (filesize : UInt64) :
    verifyFileBounded e slack junk text f filesize chunksize =
      verifyFile e junk (.log text) f filesize chunksize := by
  have hne : chunksize ≠ 0 := by
    rintro rfl
    exact absurd h (by decide)
  have hnum : filesize.toNat / chunksize.toNat < 2 ^ 59 := by
    rw [Nat.div_lt_iff_lt_mul (by omega)]
    have := filesize.toNat_lt
    omega
  have hroom : ¬ tableEntries SIZEOF_WRITE_UNIT (filesize.toNat / chunksize.toNat) <
      filesize.toNat / chunksize.toNat := by
    rw [tableEntries_lt_iff (by omega)]
    omega
  simp only [verifyFileBounded, hne, hroom, or_self, if_false, verifyFile, verifyBody, Source.table]
  cases readLog (filesize.toNat / chunksize.toNat) ⟨text, false⟩ initTable with
  | error o => rfl
  | ok wus =>
    exact verifyFromBounded_eq h slack (fun _ _ _ hbuf => length_doReadChunk hbuf) ..

end

end Ocfs2Test.Chunks
