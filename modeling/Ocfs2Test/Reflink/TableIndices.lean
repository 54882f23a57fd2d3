import Ocfs2Test.Chunks.Bounds
import Ocfs2Test.Reflink.DestVerify

/-!
# The index into the table of expected units

All readers of a log take the number of a chunk for an index after a comparison
with the number of chunks. The number of chunks itself passes, and it is the
number of the last chunk of a file that ends within one.
-/

namespace Ocfs2Test.Reflink

open Lib Lib.Stdio Chunks

/-- The records `fscanf` finds up to the end of the log, or up to what is none. -/
def recordsRead (s : Stream) : List WriteUnit :=
  if s.eof then []
  else
    match _h : scanRecord s with
    | .unit wu rest => wu :: recordsRead rest
    | _ => []
termination_by s.text.length
decreasing_by exact scanRecord_length _h

/-- The writes that `verify_dest_file` reads. -/
def writesRead (index : Nat) : List Entry → Nat → List WriteUnit
  | [], _ => []
  | .reflink _ :: es, recordIndex => writesRead index es recordIndex
  | .write dwu :: es, recordIndex =>
    dwu :: if recordIndex + 1 = index then [] else writesRead index es (recordIndex + 1)

section
variable (numChunks : Nat)

/-- The indices used for the records, one after the other. Behind one outside of
the table nothing is known. -/
def tableIndices : List WriteUnit → List Nat
  | [] => []
  | wu :: wus =>
    if wu.chunkNo.toNat > numChunks then []
    else wu.chunkNo.toNat ::
      if wu.chunkNo.toNat = numChunks then [] else tableIndices wus

/-- The first record of a chunk outside of the file. -/
def firstOutside (wus : List WriteUnit) : Option WriteUnit :=
  wus.find? fun wu => numChunks ≤ wu.chunkNo.toNat

/-- Every index has an entry, and a record outside of the file makes the function
return an error. -/
structure IndexSafe (entries : Nat) (indices : List Nat) (records : List WriteUnit) (o : Outcome) :
    Prop where
  inside : ∀ i ∈ indices, i < entries
  rejects : (∃ wu ∈ records, numChunks ≤ wu.chunkNo.toNat) → ∃ ret, ret ≠ 0 ∧ o = .returns ret

end

/-- `verify_file` of libocfs2test reads nothing where its table has too few
entries. -/
def logIndices (text : List Char) (filesize : UInt64) (chunksize : UInt32) : List Nat :=
  let numChunks := filesize.toNat / chunksize.toNat
  if chunksize = 0 ∨ tableEntries Libocfs2test.SIZEOF_WRITE_UNIT numChunks < numChunks then []
  else tableIndices numChunks (recordsRead ⟨text, false⟩)

/-- `sizeof(struct write_unit)` of directio_test, and of `struct dest_write_unit`. -/
def SIZEOF_DEST_WRITE_UNIT : Nat := 24

section
variable {numChunks : Nat} {wus : List WriteUnit}

theorem exists_firstOutside :
    (∃ wu ∈ wus, numChunks ≤ wu.chunkNo.toNat) ↔ ∃ wu, firstOutside numChunks wus = some wu := by
  rw [← Option.isSome_iff_exists, firstOutside, List.find?_isSome]
  simp

theorem indices_inside_iff : (∀ i ∈ tableIndices numChunks wus, i < numChunks) ↔
    ∀ wu, firstOutside numChunks wus = some wu → wu.chunkNo.toNat ≠ numChunks := by
  induction wus with
  | nil => simp [tableIndices, firstOutside]
  | cons wu wus ih =>
    rw [tableIndices, firstOutside, List.find?_cons]
    rcases Nat.lt_trichotomy wu.chunkNo.toNat numChunks with hlt | heq | hgt
    · rw [if_neg (by omega), if_neg (by omega), List.forall_mem_cons, ih]
      simp only [hlt, true_and, Nat.not_le.mpr hlt, decide_false]
      rfl
    · simp [heq]
    · simp [hgt, Nat.le_of_lt hgt]
      omega

theorem readLog_outside {t : Table}
    (h : firstOutside numChunks (recordsRead s) = some wu) : readLog numChunks s t =
      .error (if wu.chunkNo.toNat = numChunks then .fault else .returns (-EINVAL)) := by
  fun_induction recordsRead s generalizing t with
  | case1 => cases h
  | case2 s heof u rest hscan ih =>
    rw [firstOutside, List.find?_cons] at h
    rw [readLog, if_neg heof]
    split
    · next h' => rw [hscan] at h'; cases h'
    · next h' => rw [hscan] at h'; cases h'
    · next u' rest' h' =>
      rw [hscan] at h'
      cases h'
      rcases Nat.lt_trichotomy u.chunkNo.toNat numChunks with hlt | heq | hgt
      · simp only [Nat.not_le.mpr hlt, decide_false] at h
        rw [if_neg (by omega), if_neg (by omega)]
        exact ih h
      · simp only [heq, le_refl, decide_true, Option.some.injEq] at h
        subst h
        rw [if_neg (by omega), if_pos heq, if_pos heq]
      · simp only [Nat.le_of_lt hgt, decide_true, Option.some.injEq] at h
        subst h
        rw [if_pos hgt, if_neg (by omega)]
  | case3 => cases h

theorem readDestLog_outside {t : Table}
    (h : firstOutside numChunks (writesRead index es k) = some wu) :
    readDestLog numChunks index last es k t =
      .error (if wu.chunkNo.toNat = numChunks then .fault else .returns (-1)) := by
  induction es generalizing k t with
  | nil => cases h
  | cons en es ih =>
    cases en with
    | reflink dest => exact ih h
    | write dwu =>
      rw [writesRead, firstOutside, List.find?_cons] at h
      rw [readDestLog]
      rcases Nat.lt_trichotomy dwu.chunkNo.toNat numChunks with hlt | heq | hgt
      · simp only [Nat.not_le.mpr hlt, decide_false] at h
        rw [if_neg (by omega), if_neg (by omega)]
        split at h
        · cases h
        · next hk =>
          rw [if_neg hk]
          exact ih h
      · simp only [heq, le_refl, decide_true, Option.some.injEq] at h
        subst h
        rw [if_neg (by omega), if_pos heq, if_pos heq]
      · simp only [Nat.le_of_lt hgt, decide_true, Option.some.injEq] at h
        subst h
        rw [if_pos hgt, if_neg (by omega)]

/-- A reader whose table has an entry for each chunk, and that ends with the
loop over the log at a record outside of the file. -/
theorem indexSafe_iff (ret : Int) (hret : ret ≠ 0)
    (ho : ∀ wu, firstOutside numChunks wus = some wu →
      o = if wu.chunkNo.toNat = numChunks then .fault else .returns ret) :
    IndexSafe numChunks numChunks (tableIndices numChunks wus) wus o ↔
      ∀ wu, firstOutside numChunks wus = some wu → wu.chunkNo.toNat ≠ numChunks := by
  constructor
  · intro h
    exact indices_inside_iff.mp h.inside
  · intro h
    refine ⟨indices_inside_iff.mpr h, fun hex => ?_⟩
    obtain ⟨wu, hwu⟩ := exists_firstOutside.mp hex
    refine ⟨ret, hret, ?_⟩
    rw [ho wu hwu, if_neg (h wu hwu)]

theorem tableEntries_chunks (n : Nat) (h : n < 2 ^ 64) :
    tableEntries SIZEOF_DEST_WRITE_UNIT (n / CHUNK_SIZE) = n / CHUNK_SIZE := by
  simp only [tableEntries, SIZEOF_DEST_WRITE_UNIT, CHUNK_SIZE]
  omega

end

section
variable (e : Endian) (text : List Char) (f : ByteFile) (filesize : UInt64)

/-- `verify_file` of libocfs2test. -/
def LibIndexSafe (slack junk : Nat → Nat → UInt8) (chunksize : UInt32) : Prop :=
  let numChunks := filesize.toNat / chunksize.toNat
  IndexSafe numChunks (tableEntries Libocfs2test.SIZEOF_WRITE_UNIT numChunks)
    (logIndices text filesize chunksize) (recordsRead ⟨text, false⟩)
    (Libocfs2test.verifyFileBounded e slack junk text f filesize chunksize)

/-- `verify_file` of directio_utils. -/
def DirectioIndexSafe : Prop :=
  let numChunks := filesize.toNat / CHUNK_SIZE
  IndexSafe numChunks (tableEntries SIZEOF_DEST_WRITE_UNIT numChunks)
    (tableIndices numChunks (recordsRead ⟨text, false⟩)) (recordsRead ⟨text, false⟩)
    (DirectioUtils.verifyFile e (.log text) f filesize)

def destWrites (dLog : DestLogs) : List WriteUnit :=
  writesRead dLog.index (logEntries ⟨text, false⟩).1 0

def DestIndexSafe (fs : Files) (dLog : DestLogs) : Prop :=
  let chunkNo := filesize.toNat / CHUNK_SIZE
  IndexSafe chunkNo (tableEntries SIZEOF_DEST_WRITE_UNIT chunkNo)
    (tableIndices chunkNo (destWrites text dLog)) (destWrites text dLog)
    (verifyDestFile e fs text chunkNo dLog)

end

theorem libocfs2test_indexSafe_iff (e : Endian) (slack junk : Nat → Nat → UInt8)
    (text : List Char) (f : ByteFile) (filesize : UInt64) (chunksize : UInt32) :
    LibIndexSafe e text f filesize slack junk chunksize ↔
      ∀ wu, firstOutside (filesize.toNat / chunksize.toNat) (recordsRead ⟨text, false⟩) = some wu →
        chunksize ≠ 0 ∧ filesize.toNat / chunksize.toNat < 2 ^ 59 ∧
          wu.chunkNo.toNat ≠ filesize.toNat / chunksize.toNat := by
  rw [LibIndexSafe]
  generalize hn : filesize.toNat / chunksize.toNat = numChunks
  have hnum : numChunks < 2 ^ 64 :=
    hn ▸ Nat.lt_of_le_of_lt (Nat.div_le_self _ _) filesize.toNat_lt
  have hroom := Libocfs2test.tableEntries_lt_iff hnum
  by_cases hsetup : chunksize = 0 ∨
      tableEntries Libocfs2test.SIZEOF_WRITE_UNIT numChunks < numChunks
  · -- the function faults before it reads a record
    have hfault :
        Libocfs2test.verifyFileBounded e slack junk text f filesize chunksize = .fault := by
      simp only [Libocfs2test.verifyFileBounded, hn, if_pos hsetup]
    have hnone : logIndices text filesize chunksize = [] := by
      simp only [logIndices, hn, if_pos hsetup]
    rw [hfault, hnone]
    rw [hroom] at hsetup
    constructor
    · intro h wu hwu
      obtain ⟨ret, -, hret⟩ := h.rejects (exists_firstOutside.mpr ⟨wu, hwu⟩)
      cases hret
    · intro h
      refine ⟨by simp, fun hex => ?_⟩
      obtain ⟨wu, hwu⟩ := exists_firstOutside.mp hex
      obtain ⟨hne, hlt, -⟩ := h wu hwu
      exact absurd hsetup (not_or.mpr ⟨hne, Nat.not_le.mpr hlt⟩)
  · have hindices : logIndices text filesize chunksize =
        tableIndices numChunks (recordsRead ⟨text, false⟩) := by
      simp only [logIndices, hn, if_neg hsetup]
    rw [hroom, not_or, Nat.not_le] at hsetup
    have hentries : tableEntries Libocfs2test.SIZEOF_WRITE_UNIT numChunks = numChunks := by
      simp only [tableEntries, Libocfs2test.SIZEOF_WRITE_UNIT]
      omega
    rw [hindices, hentries, indexSafe_iff (-EINVAL) (by decide)]
    · simp only [hsetup, ne_eq, not_false_eq_true, true_and]
    · intro wu hwu
      have hread := @readLog_outside _ _ _ initTable hwu
      simp only [Libocfs2test.verifyFileBounded, hn, hroom, hsetup.1, Nat.not_le.mpr hsetup.2,
        or_self, if_false]
      rw [hread]

theorem directio_indexSafe_iff (e : Endian) (text : List Char) (f : ByteFile) (filesize : UInt64) :
    DirectioIndexSafe e text f filesize ↔
      ∀ wu, firstOutside (filesize.toNat / CHUNK_SIZE) (recordsRead ⟨text, false⟩) = some wu →
        wu.chunkNo.toNat ≠ filesize.toNat / CHUNK_SIZE := by
  simp only [DirectioIndexSafe]
  rw [tableEntries_chunks _ filesize.toNat_lt]
  apply indexSafe_iff (-EINVAL) (by decide)
  intro wu hwu
  have hread := @readLog_outside _ _ _ initTable hwu
  simp only [DirectioUtils.verifyFile, verifyBody, Source.table]
  rw [hread]

theorem dest_indexSafe_iff (e : Endian) (text : List Char) (filesize : UInt64) (fs : Files)
    (dLog : DestLogs) :
    DestIndexSafe e text filesize fs dLog ↔
      ∀ dwu, firstOutside (filesize.toNat / CHUNK_SIZE) (destWrites text dLog) = some dwu →
        dwu.chunkNo.toNat ≠ filesize.toNat / CHUNK_SIZE := by
  simp only [DestIndexSafe]
  rw [tableEntries_chunks _ filesize.toNat_lt]
  apply indexSafe_iff (-1) (by decide)
  intro dwu hdwu
  have hread := @readDestLog_outside _ _ _ _ _ (logEntries ⟨text, false⟩).2 initTable hdwu
  simp only [verifyDestFile]
  rw [hread]

/-- The readers stay in their tables unless the first record outside of the file
has the number of chunks for its own. -/
theorem log_indexSafe_iff (e : Endian) (slack junk : Nat → Nat → UInt8) (text : List Char)
    (f : ByteFile) (fs : Files) (dLog : DestLogs) (filesize : UInt64) (chunksize : UInt32) :
    (LibIndexSafe e text f filesize slack junk chunksize ↔
      ∀ wu, firstOutside (filesize.toNat / chunksize.toNat) (recordsRead ⟨text, false⟩) = some wu →
        chunksize ≠ 0 ∧ filesize.toNat / chunksize.toNat < 2 ^ 59 ∧
          wu.chunkNo.toNat ≠ filesize.toNat / chunksize.toNat) ∧
    (DirectioIndexSafe e text f filesize ↔
      ∀ wu, firstOutside (filesize.toNat / CHUNK_SIZE) (recordsRead ⟨text, false⟩) = some wu →
        wu.chunkNo.toNat ≠ filesize.toNat / CHUNK_SIZE) ∧
    (DestIndexSafe e text filesize fs dLog ↔
      ∀ dwu, firstOutside (filesize.toNat / CHUNK_SIZE) (destWrites text dLog) = some dwu →
        dwu.chunkNo.toNat ≠ filesize.toNat / CHUNK_SIZE) :=
  ⟨libocfs2test_indexSafe_iff e slack junk text f filesize chunksize,
    directio_indexSafe_iff e text f filesize, dest_indexSafe_iff e text filesize fs dLog⟩

-- ---------------------------------------------------------------------------
-- The last chunk of an unaligned file
-- ---------------------------------------------------------------------------

/-- The record of chunk 1 of a file that has one chunk and a part of the next. -/
def lastUnit : WriteUnit := ⟨1, 1, 0, 65⟩

theorem lastUnit_ok : RecordOk lastUnit := ⟨by decide, by decide, by decide⟩

theorem recordsRead_last : recordsRead ⟨printLog [lastUnit], false⟩ = [lastUnit] := by
  have hscan := @scanRecord_print lastUnit [] false lastUnit_ok (by simp)
  have hend : recordsRead ⟨[], true⟩ = [] := by
    rw [recordsRead, if_pos rfl]
  rw [recordsRead, if_neg (by simp)]
  split
  · next h =>
    rw [hscan] at h
    cases h
    exact congrArg (lastUnit :: ·) hend
  · next h => exact absurd hscan (h _ _)

theorem destWrites_last : destWrites (printLog [lastUnit]) ⟨['a'], 1⟩ = [lastUnit] := by
  have horig : Word ARG_SIZE ['a'] := word_of_all (by decide) (by decide) (by decide)
  have hentries := @logEntries_print ['a'] [.write lastUnit] horig (by
    rw [List.forall_mem_singleton]
    exact lastUnit_ok)
  have hprint : printLog [lastUnit] = printEntries ['a'] [.write lastUnit] := by
    simp only [printLog, printEntries, List.flatMap_cons, List.flatMap_nil]
    rfl
  rw [List.isEmpty_cons, ← hprint] at hentries
  rw [destWrites, hentries]
  rfl

/-- All three use index 1 of a table with one entry. -/
theorem log_index_outside :
    ¬ LibIndexSafe .little (printLog [lastUnit]) ByteFile.empty 60 (fun _ _ => 0) (fun _ _ => 0)
        41 ∧
      ¬ DirectioIndexSafe .little (printLog [lastUnit]) ByteFile.empty 10000 ∧
      ¬ DestIndexSafe .little (printLog [lastUnit]) 10000 (fun _ => none) ⟨['a'], 1⟩ := by
  refine ⟨fun h => ?_, fun h => ?_, fun h => ?_⟩
  · have hone := h.inside 1 (by
      rw [logIndices, if_neg (by decide), recordsRead_last]
      decide)
    exact absurd hone (by decide)
  · have hone := h.inside 1 (by
      rw [recordsRead_last]
      decide)
    exact absurd hone (by decide)
  · have hone := h.inside 1 (by
      rw [destWrites_last]
      decide)
    exact absurd hone (by decide)

end Ocfs2Test.Reflink
