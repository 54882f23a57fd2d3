import Ocfs2Test.Chunks.LogOrder
import Ocfs2Test.Reflink.DestVerify

/-!
# The snapshot of a reflink

`verify_dest_file` stops reading the log when it has counted `index` writes. The
count is looked at behind a write only, so a reflink made before any write is
checked against all of them.
-/

namespace Ocfs2Test.Reflink

open Lib Lib.Stdio Chunks

section
variable (e : Endian) (orig : Path) (es : List Entry) (chunkNo : Nat) (dLog : DestLogs)

/-- An entry of the array that `verify_dest_files` builds from a log. -/
def Built : Prop :=
  ∃ logs recordIndex,
    collectLogs (logEntries ⟨printEntries orig es, false⟩).2
      (logEntries ⟨printEntries orig es, false⟩).1 0 [] = .ok (logs, recordIndex) ∧
    dLog ∈ ⟨orig, recordIndex⟩ :: logs

/-- `verify_dest_file` makes the table of the first `index` writes and takes a
file whose chunks are the patterns of that table, and no other. -/
def Checked : Prop :=
  ∃ dwus, TableOf ((writesOf es).take dLog.index) dwus ∧
    readDestLog chunkNo dLog.index (logEntries ⟨printEntries orig es, false⟩).2
      (logEntries ⟨printEntries orig es, false⟩).1 0 initTable = .ok dwus ∧
    ∀ fs, Accepted (verifyDestFile e fs (printEntries orig es) chunkNo dLog) ↔
      ∃ f, fs dLog.filename = some f ∧ Matches e chunkNo f dwus

end

section
variable {e : Endian} {orig : Path} {es : List Entry} {chunkNo : Nat} {dLog : DestLogs}

theorem Built.ne_nil (h : Built orig es dLog) : es ≠ [] := by
  rintro rfl
  obtain ⟨logs, recordIndex, hcollect, -⟩ := h
  have hshort : logEntries ⟨printEntries orig [], false⟩ = ([], .short) := by
    rw [logEntries, if_neg (by exact Bool.false_ne_true)]
    split
    · rfl
    · next h => exact absurd h (by simp [printEntries, scanEntry, scanWords, Stream.word, skipSpace])
    · next h => exact absurd h (by simp [printEntries, scanEntry, scanWords, Stream.word, skipSpace])
  rw [hshort] at hcollect
  cases hcollect

theorem readDestLog_all (hin : ∀ u ∈ writesOf es, u.chunkNo.toNat < chunkNo) (hk : index ≤ k)
    {dwus : Table} :
    readDestLog chunkNo index .eof es k dwus = .ok ((writesOf es).foldl record dwus) := by
  induction es generalizing k dwus with
  | nil => rfl
  | cons en es ih =>
    cases en with
    | write dwu =>
      rw [writesOf_write, List.forall_mem_cons] at hin
      have hdwu := hin.1
      rw [readDestLog, if_neg (by omega), if_neg (by omega), if_neg (by omega), ih hin.2 (by omega)]
      rfl
    | reflink dest => exact ih hin hk

theorem checked_iff (horig : Word ARG_SIZE orig) (hes : ∀ en ∈ es, en.Ok) (hne : es ≠ [])
    {dwus : Table} (hread : readDestLog chunkNo dLog.index .eof es 0 initTable = .ok dwus) :
    Checked e orig es chunkNo dLog ↔ TableOf ((writesOf es).take dLog.index) dwus := by
  have hlog := logEntries_print horig hes
  rw [List.isEmpty_eq_false_iff.mpr hne] at hlog
  simp only [Checked, hlog, hread]
  constructor
  · rintro ⟨dwus', htable, heq, -⟩
    cases heq
    exact htable
  · exact fun htable => ⟨dwus, htable, rfl, fun fs => verifyDestFile_accepted_of horig hes hne hread⟩

theorem tableOf_nil_iff {us : List WriteUnit} :
    TableOf [] (us.foldl record initTable) ↔ ∀ c wu, Newest us c wu → wu = initTable c := by
  constructor
  · intro h c wu hnew
    have hfold : us.foldl record initTable c = wu := foldl_record_newest rfl hnew
    rw [← hfold]
    exact h.initial c (by simp)
  · refine fun h => ⟨by simp, fun c _ => ?_⟩
    by_cases hc : ∃ u ∈ us, u.chunkNo.toNat = c
    · obtain ⟨wu, hnew⟩ := exists_newest hc
      rw [foldl_record_newest rfl hnew]
      exact h c wu hnew
    · exact foldl_record_other fun u hu huc => hc ⟨u, hu, huc⟩

end

/-- The entry is checked against its own writes if it has any, or if those of
the whole log make no difference. -/
theorem verifyDestFile_checked_iff (e : Endian) (orig : Path) (es : List Entry) (chunkNo : Nat)
    (dLog : DestLogs) (horig : Word ARG_SIZE orig) (hes : ∀ en ∈ es, en.Ok)
    (hin : ∀ dwu ∈ writesOf es, dwu.chunkNo.toNat < chunkNo) (hbuilt : Built orig es dLog) :
    Checked e orig es chunkNo dLog ↔
      0 < dLog.index ∨ ∀ c dwu, Newest (writesOf es) c dwu → dwu = initTable c := by
  rcases Nat.eq_zero_or_pos dLog.index with hzero | hpos
  · have hread : readDestLog chunkNo dLog.index .eof es 0 initTable =
        .ok ((writesOf es).foldl record initTable) := readDestLog_all hin (Nat.le_of_eq hzero)
    rw [checked_iff horig hes hbuilt.ne_nil hread, hzero, List.take_zero, tableOf_nil_iff]
    simp
  · have hread : readDestLog chunkNo dLog.index .eof es 0 initTable =
        .ok (((writesOf es).take dLog.index).foldl record initTable) := readDestLog_eof hin hpos
    rw [checked_iff horig hes hbuilt.ne_nil hread]
    exact iff_of_true (tableOf_foldl _) (.inl hpos)

-- A reflink, and then the first write.

def lateWrite : WriteUnit := ⟨0, 1, 0, 65⟩

def earlyReflink : List Entry := [.reflink ['b'], .write lateWrite]

theorem earlyReflink_ok : ∀ en ∈ earlyReflink, en.Ok := by
  simp only [earlyReflink, List.forall_mem_cons, List.not_mem_nil, false_implies, implies_true,
    and_true]
  exact ⟨⟨word_of_all (by decide) (by decide) (by decide), by decide⟩,
    ⟨by decide, by decide, by decide⟩⟩

theorem word_a : Word ARG_SIZE ['a'] := word_of_all (by decide) (by decide) (by decide)

theorem earlyReflink_built (hd : dLog ∈ [⟨['a'], 1⟩, ⟨['b'], 0⟩]) :
    Built ['a'] earlyReflink dLog := by
  have hlog := logEntries_print word_a earlyReflink_ok
  rw [show earlyReflink.isEmpty = false from rfl] at hlog
  refine ⟨[⟨['b'], 0⟩], 1, ?_, hd⟩
  rw [hlog, collectLogs_eof]
  rfl

theorem verifyDestFile_checked_original : Checked .little ['a'] earlyReflink 1 ⟨['a'], 1⟩ :=
  (verifyDestFile_checked_iff .little ['a'] earlyReflink 1 ⟨['a'], 1⟩ word_a earlyReflink_ok
    (by decide) (earlyReflink_built (by decide))).mpr (.inl (by decide))

theorem earlyReflink_unchecked :
    Word ARG_SIZE ['a'] ∧ (∀ en ∈ earlyReflink, en.Ok) ∧
    (∀ dwu ∈ writesOf earlyReflink, dwu.chunkNo.toNat < 1) ∧ Built ['a'] earlyReflink ⟨['b'], 0⟩ ∧
    ¬ Checked .little ['a'] earlyReflink 1 ⟨['b'], 0⟩ := by
  refine ⟨word_a, earlyReflink_ok, by decide, earlyReflink_built (by decide), ?_⟩
  have hread : readDestLog 1 0 .eof earlyReflink 0 initTable =
      .ok ((writesOf earlyReflink).foldl record initTable) :=
    readDestLog_all (by decide) (Nat.le_refl 0)
  rw [checked_iff word_a earlyReflink_ok (List.cons_ne_nil _ _) hread]
  intro htable
  have hzero := htable.initial 0 (by simp)
  exact absurd hzero (by decide)

end Ocfs2Test.Reflink
