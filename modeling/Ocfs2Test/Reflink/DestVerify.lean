import Ocfs2Test.Chunks.Journal

/-!
# verify_dest_files

The log of the destructive test holds writes and reflinks. The original file is
checked against all writes, and every reflink against those logged before it.
-/

namespace Ocfs2Test.Reflink

open Lib Lib.Stdio Chunks

abbrev Path := List Char

abbrev Files := Path → Option ByteFile

def cString (w : List Char) : List Char := w.takeWhile (· != '\x00')

def reflinkTag : List Char := ['R', 'e', 'f', 'l', 'i', 'n', 'k', ':']

inductive Entry
  | write (dwu : WriteUnit)
  | reflink (dest : Path)

inductive ScannedEntry
  | short
  | overflow
  | entry (en : Entry) (rest : Stream)

def scanEntry (s : Stream) : ScannedEntry :=
  match scanWords ARG_SIZE 4 s with
  | .words [arg1, arg2, arg3, arg4] rest =>
    if cString arg1 = reflinkTag then .entry (.reflink (cString arg4)) rest
    else .entry (.write (ofWords arg1 arg2 arg3 arg4)) rest
  | .overflow => .overflow
  | _ => .short

theorem scanEntry_length (h : scanEntry s = .entry en rest) :
    rest.text.length < s.text.length := by
  unfold scanEntry at h
  split at h
  · next hw =>
    have := scanWords_length hw
    split at h <;> cases h <;> omega
  · cases h
  · cases h

/-- What the loop over a log meets behind its records: `feof`, or a `fscanf`
that fails or writes past its buffers. -/
inductive LogEnd
  | eof
  | short
  | overflow
  deriving DecidableEq, Repr

/-- `while (!feof(logfile))` with `fscanf`. -/
def logEntries (s : Stream) : List Entry × LogEnd :=
  if s.eof then ([], .eof)
  else
    match _h : scanEntry s with
    | .short => ([], .short)
    | .overflow => ([], .overflow)
    | .entry en rest =>
      let (es, last) := logEntries rest
      (en :: es, last)
termination_by s.text.length
decreasing_by exact scanEntry_length _h

/-- The end of a loop that returns `ret` on an input failure. -/
def LogEnd.close (ret : Int) (a : α) : LogEnd → Except Outcome α
  | .eof => .ok a
  | .short => .error (.returns ret)
  | .overflow => .error .fault

/-- One log for the original file and one for each reflink. -/
def getVerifyLogsNum (last : LogEnd) : List Entry → Int → Except Outcome Int
  | [], numLogs => last.close (-1) numLogs
  | .write _ :: es, numLogs => getVerifyLogsNum last es numLogs
  | .reflink _ :: es, numLogs => getVerifyLogsNum last es (numLogs + 1)

/-- `struct dest_logs`: a file and the number of writes it has seen. -/
structure DestLogs where
  filename : Path
  index : Nat
  deriving DecidableEq, Repr

/-- The first loop of `verify_dest_files`: the logs of the reflinks, and the
number of writes in all. -/
def collectLogs (last : LogEnd) :
    List Entry → Nat → List DestLogs → Except Outcome (List DestLogs × Nat)
  | [], recordIndex, logs => last.close (-EINVAL) (logs, recordIndex)
  | .write _ :: es, recordIndex, logs => collectLogs last es (recordIndex + 1) logs
  | .reflink dest :: es, recordIndex, logs =>
    collectLogs last es recordIndex (logs ++ [⟨dest, recordIndex⟩])

/-- The loop of `verify_dest_file` over the log, which ends with the write of
number `index`. A reflink goes on to the next record without that test. -/
def readDestLog (chunkNo index : Nat) (last : LogEnd) :
    List Entry → Nat → Table → Except Outcome Table
  | [], _, dwus => last.close (-EINVAL) dwus
  | .reflink _ :: es, recordIndex, dwus => readDestLog chunkNo index last es recordIndex dwus
  | .write dwu :: es, recordIndex, dwus =>
    if dwu.chunkNo.toNat > chunkNo then .error (.returns (-1))
    else if dwu.chunkNo.toNat = chunkNo then .error .fault
    else if recordIndex + 1 = index then .ok (record dwus dwu)
    else readDestLog chunkNo index last es (recordIndex + 1) (record dwus dwu)

section
variable (e : Endian) (fs : Files) (log : List Char) (chunkNo : Nat)

/-- The loop over the chunks, `n` of them from chunk `i` on. -/
def compareFrom (f : ByteFile) (dwus : Table) : Nat → Nat → Int → Outcome
  | 0, _, ret => .returns ret
  | n + 1, i, _ =>
    let buf := f.pread CHUNK_SIZE (CHUNK_SIZE * i)
    if buf.length < CHUNK_SIZE then .returns (-1)
    else if verifyChunkPattern e CHUNK_SIZE buf (dwus i) then compareFrom f dwus n (i + 1) buf.length
    else .returns (-1)

def verifyDestFile (dLog : DestLogs) : Outcome :=
  let (es, last) := logEntries ⟨log, false⟩
  match readDestLog chunkNo dLog.index last es 0 initTable with
  | .error o => o
  | .ok dwus =>
    match fs dLog.filename with
    | none => .returns (-1)
    -- `ret` is what the last `fscanf` returned
    | some f => compareFrom e f dwus chunkNo 0 4

def verifyEach : List DestLogs → Int → Outcome
  | [], ret => .returns ret
  | dLog :: logs, _ =>
    match verifyDestFile e fs log chunkNo dLog with
    | .returns ret => if ret < 0 then .returns (-1) else verifyEach logs ret
    | other => other

def verifyDestFiles (orig : Path) : Outcome :=
  let (es, last) := logEntries ⟨log, false⟩
  match getVerifyLogsNum last es 1 with
  | .error o => o
  | .ok _ =>
    match collectLogs last es 0 [] with
    | .error o => o
    | .ok (logs, recordIndex) => verifyEach e fs log chunkNo (⟨orig, recordIndex⟩ :: logs) 4

end

def Accepted (o : Outcome) : Prop := ∃ ret : Int, o = .returns ret ∧ 0 ≤ ret

-- ---------------------------------------------------------------------------
-- Printed logs
-- ---------------------------------------------------------------------------

/-- The record of a write, or `"Reflink:\t%s\t->\t%s\n"`. -/
def Entry.words (orig : Path) : Entry → List (List Char × Char)
  | .write dwu => recordWords dwu
  | .reflink dest => [(reflinkTag, '\t'), (orig, '\t'), (['-', '>'], '\t'), (dest, '\n')]

def Entry.print (orig : Path) (en : Entry) : List Char := spaced (en.words orig)

def printEntries (orig : Path) (es : List Entry) : List Char := es.flatMap (Entry.print orig)

/-- A path that is read back as it was printed. -/
structure PathOk (p : Path) : Prop extends Word ARG_SIZE p where
  noNul : '\x00' ∉ p

def Entry.Ok : Entry → Prop
  | .write dwu => RecordOk dwu
  | .reflink dest => PathOk dest

def writesOf (es : List Entry) : List WriteUnit :=
  es.filterMap fun
    | .write dwu => some dwu
    | .reflink _ => none

/-- The reflinks of a log that begins behind `k` writes. -/
def destLogs : Nat → List Entry → List DestLogs
  | _, [] => []
  | k, .write _ :: es => destLogs (k + 1) es
  | k, .reflink dest :: es => ⟨dest, k⟩ :: destLogs k es

theorem cString_eq (h : '\x00' ∉ w) : cString w = w := by
  refine List.takeWhile_eq_self_iff.mpr fun c hc => ?_
  simp only [bne_iff_ne]
  rintro rfl
  exact h hc

theorem cString_printNat_ne (n : Nat) : cString (printNat n) ≠ reflinkTag := by
  obtain ⟨d, ds, hds, hd⟩ := printNat_cons n
  rw [hds, cString, List.takeWhile_cons]
  split
  · intro h
    rw [reflinkTag, List.cons.injEq] at h
    rw [h.1] at hd
    exact absurd hd (by decide)
  · simp [reflinkTag]

section
variable {orig : Path} {es es' : List Entry} {en : Entry}

theorem Entry.length_words (en : Entry) : (en.words orig).length = 4 := by
  cases en <;> rfl

theorem Entry.Ok.words (h : en.Ok) (horig : Word ARG_SIZE orig) :
    ∀ p ∈ en.words orig, Word ARG_SIZE p.1 ∧ isSpace p.2 = true := by
  cases en with
  | write dwu => exact RecordOk.words h
  | reflink dest =>
    simp only [Entry.words, List.forall_mem_cons, List.not_mem_nil, false_implies, implies_true,
      and_true]
    exact ⟨⟨word_of_all (by decide) (by decide) (by decide), by decide⟩, ⟨horig, by decide⟩,
      ⟨word_of_all (by decide) (by decide) (by decide), by decide⟩, ⟨h.toWord, by decide⟩⟩

theorem printEntries_cons : printEntries orig (en :: es) = en.print orig ++ printEntries orig es :=
  List.flatMap_cons

theorem printEntries_append :
    printEntries orig (es ++ [en]) = printEntries orig es ++ en.print orig := by
  simp [printEntries]

theorem printEntries_eq_nil : printEntries orig es = [] ↔ es = [] := by
  cases es with
  | nil => exact iff_of_true rfl rfl
  | cons en es =>
    rw [printEntries_cons, List.append_eq_nil_iff]
    refine iff_of_false (fun h => spaced_ne_nil ?_ h.1) (List.cons_ne_nil _ _)
    rw [← List.length_pos_iff, Entry.length_words]
    decide

theorem printEntries_lines :
    printEntries orig es = (es.map (Entry.words orig)).flatMap spaced :=
  (List.flatMap_map (Entry.words orig) spaced es).symm

theorem scanEntry_print (horig : Word ARG_SIZE orig) (hen : en.Ok) (hes : ∀ en ∈ es, en.Ok) :
    scanEntry ⟨printEntries orig (en :: es), e⟩ =
      .entry en ⟨printEntries orig es, e || es.isEmpty⟩ := by
  have hwords : ∀ l ∈ en.words orig :: es.map (Entry.words orig),
      ∀ p ∈ l, Word ARG_SIZE p.1 ∧ isSpace p.2 = true := by
    rw [List.forall_mem_cons]
    refine ⟨hen.words horig, fun l hl => ?_⟩
    obtain ⟨en', hen', rfl⟩ := List.mem_map.mp hl
    exact (hes en' hen').words horig
  have hne (en : Entry) : en.words orig ≠ [] := by
    rw [← List.length_pos_iff, Entry.length_words]
    decide
  have hscan := scanWords_line (e := e) (en.words orig) (es.map (Entry.words orig))
    (hne en) (by simp [hne]) hwords
  rw [Entry.length_words] at hscan
  rw [printEntries_lines, printEntries_lines, List.map_cons, scanEntry, hscan, List.isEmpty_map]
  cases en with
  | write dwu =>
    simp only [Entry.words, recordWords, List.map_cons, List.map_nil, cString_printNat_ne, if_false,
      ofWords_record hen]
  | reflink dest =>
    have htag : cString reflinkTag = reflinkTag := by decide
    simp only [Entry.words, List.map_cons, List.map_nil, htag, if_true, cString_eq hen.noNul]

-- ---------------------------------------------------------------------------
-- The loops over a printed log
-- ---------------------------------------------------------------------------

@[simp] theorem writesOf_nil : writesOf [] = [] := rfl

@[simp] theorem writesOf_write : writesOf (.write dwu :: es) = dwu :: writesOf es := rfl

@[simp] theorem writesOf_reflink : writesOf (.reflink dest :: es) = writesOf es := rfl

theorem writesOf_append : writesOf (es ++ es') = writesOf es ++ writesOf es' := List.filterMap_append

theorem destLogs_append :
    destLogs k (es ++ es') = destLogs k es ++ destLogs (k + (writesOf es).length) es' := by
  induction es generalizing k with
  | nil => rfl
  | cons en es ih =>
    cases en with
    | write dwu =>
      simp only [List.cons_append, destLogs, ih, writesOf_write, List.length_cons]
      congr 2
      omega
    | reflink dest => simp [destLogs, ih]

theorem index_le_of_mem (h : d ∈ destLogs k es) : d.index ≤ k + (writesOf es).length := by
  induction es generalizing k with
  | nil => simp [destLogs] at h
  | cons en es ih =>
    cases en with
    | write dwu =>
      have := ih h
      rw [writesOf_write, List.length_cons]
      omega
    | reflink dest =>
      rcases List.mem_cons.mp h with rfl | h
      · exact Nat.le_add_right _ _
      · exact ih h

theorem logEntries_print (horig : Word ARG_SIZE orig) (hes : ∀ en ∈ es, en.Ok) :
    logEntries ⟨printEntries orig es, es.isEmpty⟩ = (es, .eof) := by
  induction es with
  | nil => rw [logEntries, if_pos (by rfl)]
  | cons en es ih =>
    rw [List.forall_mem_cons] at hes
    have hscan := scanEntry_print (e := false) horig hes.1 hes.2
    rw [List.isEmpty_cons, logEntries, if_neg (by exact Bool.false_ne_true)]
    split
    · next h => simp [hscan] at h
    · next h => simp [hscan] at h
    · next h =>
      rw [hscan, Bool.false_or] at h
      cases h
      rw [ih hes.2]

theorem getVerifyLogsNum_eof (es : List Entry) (n : Int) : ∃ m, getVerifyLogsNum .eof es n = .ok m := by
  induction es generalizing n with
  | nil => exact ⟨n, rfl⟩
  | cons en es ih => cases en <;> exact ih _

theorem collectLogs_eof : collectLogs .eof es k logs =
    .ok (logs ++ destLogs k es, k + (writesOf es).length) := by
  induction es generalizing k logs with
  | nil => simp [collectLogs, LogEnd.close, destLogs]
  | cons en es ih =>
    cases en with
    | write dwu =>
      rw [collectLogs, ih, writesOf_write, List.length_cons, destLogs]
      congr 2
      omega
    | reflink dest => simp [collectLogs, ih, destLogs]

/-- The first `index` writes make the table. -/
theorem readDestLog_eof (hin : ∀ u ∈ writesOf es, u.chunkNo.toNat < chunkNo) (hk : k < index)
    {dwus : Table} : readDestLog chunkNo index .eof es k dwus =
      .ok (((writesOf es).take (index - k)).foldl record dwus) := by
  induction es generalizing k dwus with
  | nil => simp [readDestLog, LogEnd.close]
  | cons en es ih =>
    cases en with
    | write dwu =>
      rw [writesOf_write, List.forall_mem_cons] at hin
      have hdwu := hin.1
      have htake : index - k = index - (k + 1) + 1 := by omega
      rw [readDestLog, if_neg (by omega), if_neg (by omega), writesOf_write, htake,
        List.take_succ_cons, List.foldl_cons]
      split
      · next hlast => simp [← hlast]
      · next hmore => exact ih hin.2 (by omega)
    | reflink dest => exact ih hin hk

-- ---------------------------------------------------------------------------
-- Acceptance
-- ---------------------------------------------------------------------------

/-- Every chunk of the file is the pattern of its unit, to the byte. -/
def Matches (e : Endian) (chunkNo : Nat) (f : ByteFile) (dwus : Table) : Prop :=
  ∀ i < chunkNo, f.pread CHUNK_SIZE (CHUNK_SIZE * i) = pattern e CHUNK_SIZE (dwus i)

theorem not_accepted_neg : ¬ Accepted (.returns (-1)) := by
  rintro ⟨ret, heq, hret⟩
  cases heq
  exact absurd hret (by decide)

theorem compareFrom_accepted {ret : Int} (hret : 0 ≤ ret) :
    Accepted (compareFrom e f dwus n i ret) ↔
      ∀ k, i ≤ k → k < i + n →
        f.pread CHUNK_SIZE (CHUNK_SIZE * k) = pattern e CHUNK_SIZE (dwus k) := by
  induction n generalizing i ret with
  | zero => exact iff_of_true ⟨ret, rfl, hret⟩ (by omega)
  | succ n ih =>
    have hstep : (∀ k, i ≤ k → k < i + (n + 1) →
        f.pread CHUNK_SIZE (CHUNK_SIZE * k) = pattern e CHUNK_SIZE (dwus k)) ↔
        f.pread CHUNK_SIZE (CHUNK_SIZE * i) = pattern e CHUNK_SIZE (dwus i) ∧
          ∀ k, i + 1 ≤ k → k < i + 1 + n →
            f.pread CHUNK_SIZE (CHUNK_SIZE * k) = pattern e CHUNK_SIZE (dwus k) := by
      constructor
      · exact fun h => ⟨h i (by omega) (by omega), fun k h₁ h₂ => h k (by omega) (by omega)⟩
      · rintro ⟨hi, h⟩ k h₁ h₂
        by_cases hk : k = i
        · exact hk ▸ hi
        · exact h k (by omega) (by omega)
    rw [hstep]
    simp only [compareFrom]
    split
    · next hshort =>
      -- a short read is no pattern
      refine iff_of_false not_accepted_neg fun h => ?_
      rw [h.1, length_pattern (by decide)] at hshort
      omega
    · split
      · next hsame =>
        rw [verifyChunkPattern, beq_iff_eq] at hsame
        rw [ih (by omega)]
        simp [hsame]
      · next hdiff =>
        refine iff_of_false not_accepted_neg fun h => hdiff ?_
        rw [verifyChunkPattern, beq_iff_eq]
        exact h.1

theorem verifyDestFile_accepted_of (horig : Word ARG_SIZE orig) (hes : ∀ en ∈ es, en.Ok)
    (hne : es ≠ []) {dwus : Table}
    (htable : readDestLog chunkNo dLog.index .eof es 0 initTable = .ok dwus) :
    Accepted (verifyDestFile e fs (printEntries orig es) chunkNo dLog) ↔
      ∃ f, fs dLog.filename = some f ∧ Matches e chunkNo f dwus := by
  have hread := logEntries_print horig hes
  rw [List.isEmpty_eq_false_iff.mpr hne] at hread
  simp only [verifyDestFile, hread, htable]
  cases hfile : fs dLog.filename with
  | none => simpa using not_accepted_neg
  | some f =>
    simp only [Option.some.injEq, exists_eq_left']
    rw [compareFrom_accepted (by decide)]
    exact ⟨fun h i hi => h i (by omega) (by omega), fun h k _ hk => h k (by omega)⟩

theorem verifyDestFile_accepted (horig : Word ARG_SIZE orig) (hes : ∀ en ∈ es, en.Ok)
    (hne : es ≠ []) (hin : ∀ u ∈ writesOf es, u.chunkNo.toNat < chunkNo) (hindex : 0 < dLog.index) :
    Accepted (verifyDestFile e fs (printEntries orig es) chunkNo dLog) ↔
      ∃ f, fs dLog.filename = some f ∧
        Matches e chunkNo f (((writesOf es).take dLog.index).foldl record initTable) :=
  verifyDestFile_accepted_of horig hes hne (readDestLog_eof hin hindex)

theorem verifyEach_accepted {ret : Int} (hret : 0 ≤ ret) :
    Accepted (verifyEach e fs log chunkNo logs ret) ↔
      ∀ dLog ∈ logs, Accepted (verifyDestFile e fs log chunkNo dLog) := by
  induction logs generalizing ret with
  | nil => exact iff_of_true ⟨ret, rfl, hret⟩ (by simp)
  | cons dLog logs ih =>
    rw [verifyEach, List.forall_mem_cons]
    cases hfile : verifyDestFile e fs log chunkNo dLog with
    | returns ret' =>
      dsimp only
      split
      · next hneg =>
        refine iff_of_false not_accepted_neg ?_
        rintro ⟨⟨r, heq, hr⟩, -⟩
        cases heq
        omega
      · next hpos =>
        rw [ih (by omega), and_iff_right ⟨ret', rfl, by omega⟩]
    | fault => exact iff_of_false (by rintro ⟨_, h, _⟩; cases h) (by rintro ⟨⟨_, h, _⟩, _⟩; cases h)
    | hangs => exact iff_of_false (by rintro ⟨_, h, _⟩; cases h) (by rintro ⟨⟨_, h, _⟩, _⟩; cases h)

theorem verifyDestFiles_accepted (horig : Word ARG_SIZE orig) (hes : ∀ en ∈ es, en.Ok)
    (hne : es ≠ []) :
    Accepted (verifyDestFiles e fs (printEntries orig es) chunkNo orig) ↔
      ∀ dLog ∈ ⟨orig, (writesOf es).length⟩ :: destLogs 0 es,
        Accepted (verifyDestFile e fs (printEntries orig es) chunkNo dLog) := by
  have hread := logEntries_print horig hes
  rw [List.isEmpty_eq_false_iff.mpr hne] at hread
  obtain ⟨m, hnum⟩ := getVerifyLogsNum_eof es 1
  simp only [verifyDestFiles, hread, hnum, collectLogs_eof, List.nil_append, Nat.zero_add]
  exact verifyEach_accepted (by decide)

end

end Ocfs2Test.Reflink
