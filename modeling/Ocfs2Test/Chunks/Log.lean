import Ocfs2Test.Lib.Stdio
import Ocfs2Test.Chunks.Pattern

/-!
# The log of chunk writes

One record a line, four words each. Reading it keeps, for every chunk, the
record with the greatest timestamp and the later one of two with the same.
-/

namespace Ocfs2Test.Chunks

open Lib Lib.Stdio

inductive Outcome
  | returns (ret : Int)
  /-- An access outside of a buffer or a table. -/
  | fault
  /-- A read at the end of the file is repeated for ever. -/
  | hangs
  deriving DecidableEq, Repr

def EINVAL : Int := 22

/-- The size of `arg1` to `arg4`. -/
def ARG_SIZE : Nat := 100

-- ---------------------------------------------------------------------------
-- Records
-- ---------------------------------------------------------------------------

/-- `"%lu\t%llu\t%d\t%c\n"`, as words and what follows each. -/
def recordWords (wu : WriteUnit) : List (List Char × Char) :=
  [(printNat wu.chunkNo.toNat, '\t'), (printNat wu.timestamp.toNat, '\t'),
    (printInt ((wu.checksum.toNat : Int).bmod (2 ^ 32)), '\t'), ([Char.ofUInt8 wu.char], '\n')]

/-- `log_write` to a stream. -/
def printRecord (wu : WriteUnit) : List Char := spaced (recordWords wu)

def printLog (wus : List WriteUnit) : List Char := wus.flatMap printRecord

theorem printLog_cons (wu : WriteUnit) (wus : List WriteUnit) :
    printLog (wu :: wus) = printRecord wu ++ printLog wus := List.flatMap_cons

theorem printLog_append (us vs : List WriteUnit) : printLog (us ++ vs) = printLog us ++ printLog vs :=
  List.flatMap_append

theorem printRecord_ne_nil (wu : WriteUnit) : printRecord wu ≠ [] :=
  spaced_ne_nil (List.cons_ne_nil _ _)

theorem printLog_eq_nil : printLog wus = [] ↔ wus = [] := by
  cases wus with
  | nil => exact iff_of_true rfl rfl
  | cons wu wus =>
    rw [printLog_cons, List.append_eq_nil_iff]
    exact iff_of_false (fun h => printRecord_ne_nil wu h.1) (List.cons_ne_nil _ _)

/-- What the four words are stored as. -/
def ofWords (arg1 arg2 arg3 arg4 : List Char) : WriteUnit where
  chunkNo := UInt64.ofInt (atol arg1)
  timestamp := UInt64.ofInt (atol arg2)
  checksum := UInt32.ofInt (atoi arg3)
  char := (arg4.headD '\x00').toUInt8

/-- A record as the writers make them. -/
structure RecordOk (wu : WriteUnit) : Prop where
  chunkNo : wu.chunkNo.toNat < 2 ^ 63
  timestamp : wu.timestamp.toNat < 2 ^ 63
  char : isSpace (Char.ofUInt8 wu.char) = false

theorem recordWords_ok (h : isSpace (Char.ofUInt8 wu.char) = false) :
    ∀ p ∈ recordWords wu, Word ARG_SIZE p.1 ∧ isSpace p.2 = true := by
  have hsum : ((wu.checksum.toNat : Int).bmod (2 ^ 32)).natAbs < 10 ^ 10 := by
    have := @Int.bmod_lt wu.checksum.toNat (2 ^ 32) (by decide)
    have := @Int.le_bmod wu.checksum.toNat (2 ^ 32) (by decide)
    omega
  have hno := wu.chunkNo.toNat_lt
  have hts := wu.timestamp.toNat_lt
  simp only [recordWords, List.forall_mem_cons, List.not_mem_nil, false_implies, implies_true,
    and_true]
  refine ⟨⟨word_printNat (k := 20) (by omega) (by decide) (by decide), by decide⟩,
    ⟨word_printNat (k := 20) (by omega) (by decide) (by decide), by decide⟩,
    ⟨word_printInt hsum (by decide) (by decide), by decide⟩, ⟨?_, ?_, ?_⟩, by decide⟩
  · simp
  · simpa using h
  · simp [ARG_SIZE]

theorem RecordOk.words (h : RecordOk wu) :
    ∀ p ∈ recordWords wu, Word ARG_SIZE p.1 ∧ isSpace p.2 = true :=
  recordWords_ok h.char

theorem ofInt_natCast_toNat (x : UInt64) : UInt64.ofInt (x.toNat : Int) = x := by
  have := x.toNat_lt
  have hx : ((x.toNat : Int) % 2 ^ 64).toNat = x.toNat := by omega
  rw [UInt64.ofInt, hx, UInt64.ofNat_toNat]

theorem ofInt_bmod_toNat (x : UInt32) : UInt32.ofInt ((x.toNat : Int).bmod (2 ^ 32)) = x := by
  have := x.toNat_lt
  have hmod : ((x.toNat : Int).bmod (2 ^ 32)) % 2 ^ 32 = (x.toNat : Int) % 2 ^ 32 :=
    Int.bmod_emod
  have hx : ((x.toNat : Int) % 2 ^ 32).toNat = x.toNat := by omega
  rw [UInt32.ofInt, hmod, hx, UInt32.ofNat_toNat]

theorem ofWords_record (h : RecordOk wu) :
    ofWords (printNat wu.chunkNo.toNat) (printNat wu.timestamp.toNat)
      (printInt ((wu.checksum.toNat : Int).bmod (2 ^ 32))) [Char.ofUInt8 wu.char] = wu := by
  have hsum := atoi_printInt (x := (wu.checksum.toNat : Int).bmod (2 ^ 32))
    (by have := @Int.le_bmod wu.checksum.toNat (2 ^ 32) (by decide); omega)
    (by have := @Int.bmod_lt wu.checksum.toNat (2 ^ 32) (by decide); omega)
  have hchar : (Char.ofUInt8 wu.char).toUInt8 = wu.char := by
    simp [Char.ofUInt8, Char.toUInt8]
  simp only [ofWords, atol, strtol_printNat h.chunkNo, strtol_printNat h.timestamp, hsum,
    ofInt_natCast_toNat, ofInt_bmod_toNat, List.headD_cons, hchar]

-- ---------------------------------------------------------------------------
-- The log loop
-- ---------------------------------------------------------------------------

/-- `fscanf` of one record. -/
inductive Scanned
  | short
  | overflow
  | unit (wu : WriteUnit) (rest : Stream)

def scanRecord (s : Stream) : Scanned :=
  match scanWords ARG_SIZE 4 s with
  | .words [arg1, arg2, arg3, arg4] rest => .unit (ofWords arg1 arg2 arg3 arg4) rest
  | .overflow => .overflow
  | _ => .short

theorem scanRecord_length (h : scanRecord s = .unit wu rest) :
    rest.text.length < s.text.length := by
  unfold scanRecord at h
  split at h
  · next hw =>
    cases h
    have := scanWords_length hw
    omega
  · cases h
  · cases h

abbrev Table := Nat → WriteUnit

/-- A record replaces the entry of its chunk unless that one is later. -/
def record (wus : Table) (wu : WriteUnit) : Table :=
  if wu.timestamp ≥ (wus wu.chunkNo.toNat).timestamp then
    Function.update wus wu.chunkNo.toNat wu
  else wus

/-- `wus[i].wu_chunk_no = i` in a table of zeros. -/
def initTable : Table := fun i => ⟨UInt64.ofNat i, 0, 0, 0⟩

/-- The loop over the log, up to `feof`. The number of a chunk is compared with
the number of entries, but that number itself is no index of the table. -/
def readLog (numChunks : Nat) (s : Stream) (wus : Table) : Except Outcome Table :=
  if s.eof then .ok wus
  else
    match _h : scanRecord s with
    | .short => .error (.returns (-EINVAL))
    | .overflow => .error .fault
    | .unit wu rest =>
      if wu.chunkNo.toNat > numChunks then .error (.returns (-EINVAL))
      else if wu.chunkNo.toNat = numChunks then .error .fault
      else readLog numChunks rest (record wus wu)
termination_by s.text.length
decreasing_by exact scanRecord_length _h

/-- The records of a log that is read to its end. -/
def logUnits (s : Stream) : Option (List WriteUnit) :=
  if s.eof then some []
  else
    match _h : scanRecord s with
    | .unit wu rest => (logUnits rest).map (wu :: ·)
    | _ => none
termination_by s.text.length
decreasing_by exact scanRecord_length _h

theorem logUnits_eof (h : s.eof = true) : logUnits s = some [] := by
  rw [logUnits, if_pos h]

theorem logUnits_unit (heof : s.eof = false) (h : scanRecord s = .unit wu rest) :
    logUnits s = (logUnits rest).map (wu :: ·) := by
  rw [logUnits, if_neg (by simp [heof])]
  split
  · next h' =>
    rw [h] at h'
    cases h'
    rfl
  · next hne => exact absurd h (hne _ _)

theorem logUnits_none (heof : s.eof = false) (h : ∀ wu rest, scanRecord s ≠ .unit wu rest) :
    logUnits s = none := by
  rw [logUnits, if_neg (by simp [heof])]
  split
  · next h' => exact absurd h' (h _ _)
  · rfl

/-- The log loop ends with a table exactly when the log is read to its end and
all its records have an entry. -/
theorem readLog_ok_iff {wus t : Table} : readLog numChunks s wus = .ok t ↔
    ∃ units, logUnits s = some units ∧ (∀ wu ∈ units, wu.chunkNo.toNat < numChunks) ∧
      t = units.foldl record wus := by
  fun_induction readLog numChunks s wus with
  | case1 s wus heof => simp [logUnits_eof heof, eq_comm]
  | case2 s wus heof hscan =>
    simp [logUnits_none (by simpa using heof) (by simp [hscan])]
  | case3 s wus heof hscan =>
    simp [logUnits_none (by simpa using heof) (by simp [hscan])]
  | case4 s wus heof wu rest hscan hbig =>
    have hunits := logUnits_unit (by simpa using heof) hscan
    simp [hunits]
    omega
  | case5 s wus heof wu rest hscan hbig hend =>
    have hunits := logUnits_unit (by simpa using heof) hscan
    simp [hunits]
    omega
  | case6 s wus heof wu rest hscan hbig hend ih =>
    have hunits := logUnits_unit (by simpa using heof) hscan
    have hlt : wu.chunkNo.toNat < numChunks := by omega
    rw [ih, hunits]
    simp [hlt]

theorem printLog_lines (wus : List WriteUnit) : printLog wus = (wus.map recordWords).flatMap spaced :=
  (List.flatMap_map recordWords spaced wus).symm

theorem scanRecord_print (h : RecordOk wu) (hs : ∀ u ∈ wus, RecordOk u) :
    scanRecord ⟨printLog (wu :: wus), e⟩ = .unit wu ⟨printLog wus, e || wus.isEmpty⟩ := by
  have hwords : ∀ l ∈ recordWords wu :: wus.map recordWords,
      ∀ p ∈ l, Word ARG_SIZE p.1 ∧ isSpace p.2 = true := by
    rw [List.forall_mem_cons]
    refine ⟨h.words, fun l hl => ?_⟩
    obtain ⟨u, hu, rfl⟩ := List.mem_map.mp hl
    exact (hs u hu).words
  have hscan := scanWords_line (e := e) (recordWords wu) (wus.map recordWords)
    (List.cons_ne_nil _ _) (by simp [recordWords]) hwords
  rw [printLog_lines, printLog_lines, List.map_cons, scanRecord,
    show 4 = (recordWords wu).length from rfl, hscan]
  simp only [recordWords, List.map_cons, List.map_nil, ofWords_record h, List.isEmpty_map]

theorem logUnits_print (h : ∀ u ∈ wus, RecordOk u) :
    logUnits ⟨printLog wus, wus.isEmpty⟩ = some wus := by
  induction wus with
  | nil => exact logUnits_eof rfl
  | cons wu wus ih =>
    rw [List.forall_mem_cons] at h
    have hscan := scanRecord_print (e := false) h.1 h.2
    rw [List.isEmpty_cons, logUnits_unit rfl hscan, Bool.false_or, ih h.2]
    rfl

-- ---------------------------------------------------------------------------
-- The table
-- ---------------------------------------------------------------------------

/-- The record of chunk `i` with the greatest timestamp, the last one of those
with the same. -/
def Newest (units : List WriteUnit) (i : Nat) (wu : WriteUnit) : Prop :=
  ∃ before after, units = before ++ wu :: after ∧ wu.chunkNo.toNat = i ∧
    (∀ u ∈ before, u.chunkNo.toNat = i → u.timestamp ≤ wu.timestamp) ∧
    (∀ u ∈ after, u.chunkNo.toNat = i → u.timestamp < wu.timestamp)

section
variable {units : List WriteUnit} {wus : Table} {wu : WriteUnit} {i : Nat}

theorem exists_newest (h : ∃ u ∈ units, u.chunkNo.toNat = i) : ∃ wu, Newest units i wu := by
  induction units with
  | nil => simp at h
  | cons u us ih =>
    by_cases hus : ∃ v ∈ us, v.chunkNo.toNat = i
    · obtain ⟨wu, before, after, rfl, hi, hbefore, hafter⟩ := ih hus
      by_cases hu : u.chunkNo.toNat = i ∧ wu.timestamp < u.timestamp
      · -- the first record beats the newest of the others, and so all of them
        refine ⟨u, [], before ++ wu :: after, rfl, hu.1, by simp, fun v hv hvi => ?_⟩
        rcases List.mem_append.mp hv with hv | hv
        · exact UInt64.lt_of_le_of_lt (hbefore v hv hvi) hu.2
        · rcases List.mem_cons.mp hv with rfl | hv
          · exact hu.2
          · exact UInt64.lt_trans (hafter v hv hvi) hu.2
      · refine ⟨wu, u :: before, after, rfl, hi, ?_, hafter⟩
        rw [List.forall_mem_cons]
        exact ⟨fun hui => UInt64.not_lt.mp fun hlt => hu ⟨hui, hlt⟩, hbefore⟩
    · obtain ⟨v, hv, hvi⟩ := h
      rcases List.mem_cons.mp hv with rfl | hv
      · exact ⟨v, [], us, rfl, hvi, by simp, fun w hw hwi => absurd ⟨w, hw, hwi⟩ hus⟩
      · exact absurd ⟨v, hv, hvi⟩ hus

theorem record_other (h : wu.chunkNo.toNat ≠ i) : record wus wu i = wus i := by
  unfold record
  split
  · exact Function.update_of_ne (Ne.symm h) _ _
  · rfl

theorem record_self (h : (wus wu.chunkNo.toNat).timestamp ≤ wu.timestamp) :
    record wus wu = Function.update wus wu.chunkNo.toNat wu := if_pos h

theorem foldl_record_other (h : ∀ u ∈ units, u.chunkNo.toNat ≠ i) :
    units.foldl record wus i = wus i := by
  induction units generalizing wus with
  | nil => rfl
  | cons u us ih =>
    rw [List.forall_mem_cons] at h
    rw [List.foldl_cons, ih h.2, record_other h.1]

theorem foldl_record_le (h₀ : (wus i).timestamp ≤ time)
    (h : ∀ u ∈ units, u.chunkNo.toNat = i → u.timestamp ≤ time) :
    (units.foldl record wus i).timestamp ≤ time := by
  induction units generalizing wus with
  | nil => exact h₀
  | cons u us ih =>
    rw [List.forall_mem_cons] at h
    refine ih ?_ h.2
    unfold record
    split
    · by_cases hi : u.chunkNo.toNat = i
      · rw [hi, Function.update_self]
        exact h.1 hi
      · rwa [Function.update_of_ne (Ne.symm hi)]
    · exact h₀

theorem foldl_record_keep
    (h : ∀ u ∈ units, u.chunkNo.toNat = i → u.timestamp < (wus i).timestamp) :
    units.foldl record wus i = wus i := by
  induction units generalizing wus with
  | nil => rfl
  | cons u us ih =>
    rw [List.forall_mem_cons] at h
    have hkeep : record wus u i = wus i := by
      by_cases hi : u.chunkNo.toNat = i
      · rw [record, if_neg (by rw [hi]; exact UInt64.not_le.mpr (h.1 hi))]
      · exact record_other hi
    rw [List.foldl_cons, ih (by rw [hkeep]; exact h.2), hkeep]

theorem foldl_record_newest (h₀ : (wus i).timestamp = 0) (h : Newest units i wu) :
    units.foldl record wus i = wu := by
  obtain ⟨before, after, rfl, rfl, hbefore, hafter⟩ := h
  have hzero : (wus wu.chunkNo.toNat).timestamp ≤ wu.timestamp := by
    rw [h₀]
    exact UInt64.zero_le
  have hle := foldl_record_le hzero hbefore
  rw [List.foldl_append, List.foldl_cons, record_self hle]
  rw [foldl_record_keep (by rw [Function.update_self]; exact hafter), Function.update_self]

end

end Ocfs2Test.Chunks
