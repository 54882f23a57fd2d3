import Ocfs2Test.Chunks.Remote

/-!
# Logs in another order

A local log is read back as it was written. The table made of a log depends on
the order of two records only where they have the same chunk and timestamp, so
the logs of several processes can be merged in any way that keeps each of them
in order.
-/

namespace Ocfs2Test.Chunks

open Lib Lib.Stdio

-- ---------------------------------------------------------------------------
-- Reading back
-- ---------------------------------------------------------------------------

theorem printLog_local (wus : List WriteUnit) :
    wus.flatMap (fun wu => Libocfs2test.logWrite wu false) = printLog wus := rfl

/-- The loop reads what was written, sees the end of the file with the last
record, and makes the table of just these records. -/
theorem local_log_read_back (wus : List WriteUnit) (hne : wus ≠ [])
    (h : ∀ wu ∈ wus, RecordOk wu) :
    scanLog ⟨wus.flatMap fun wu => Libocfs2test.logWrite wu false, false⟩ = (wus, .eof) ∧
    ∀ numChunks t, (∀ wu ∈ wus, wu.chunkNo.toNat < numChunks) →
      readLog numChunks ⟨wus.flatMap fun wu => Libocfs2test.logWrite wu false, false⟩ t =
        .ok (wus.foldl record t) := by
  have hunits := logUnits_print h
  rw [List.isEmpty_eq_false_iff.mpr hne] at hunits
  rw [printLog_local]
  refine ⟨logUnits_eq_some.mp hunits, fun numChunks t hin => ?_⟩
  rw [readLog_ok_iff]
  exact ⟨wus, hunits, hin, rfl⟩

theorem local_log_read_back_two :
    scanLog ⟨[⟨7, 3, 0xfedcba98, 65⟩, ⟨0, 4, 17, 200⟩].flatMap
        fun wu => Libocfs2test.logWrite wu false, false⟩ =
      ([⟨7, 3, 0xfedcba98, 65⟩, ⟨0, 4, 17, 200⟩], .eof) := by
  refine (local_log_read_back _ (List.cons_ne_nil _ _) ?_).1
  simp only [List.forall_mem_cons, List.not_mem_nil, false_implies, implies_true, and_true]
  exact ⟨⟨by decide, by decide, by decide⟩, ⟨by decide, by decide, by decide⟩⟩

-- ---------------------------------------------------------------------------
-- Rearranged logs
-- ---------------------------------------------------------------------------

def Tied (u v : WriteUnit) : Prop := u.chunkNo = v.chunkNo ∧ u.timestamp = v.timestamp

/-- `vs` is a permutation of `us` that keeps the order of tied records. -/
def Rearranged (us vs : List WriteUnit) : Prop :=
  ∃ σ : Fin us.length ≃ Fin vs.length, (∀ k, vs.get (σ k) = us.get k) ∧
    ∀ k l, k < l → Tied (us.get k) (us.get l) → σ k < σ l

section
variable {us vs : List WriteUnit} {wu : WriteUnit} {i : Nat}

theorem newest_iff : Newest us i wu ↔
    ∃ k, us.get k = wu ∧ wu.chunkNo.toNat = i ∧
      (∀ l < k, (us.get l).chunkNo.toNat = i → (us.get l).timestamp ≤ wu.timestamp) ∧
      (∀ l > k, (us.get l).chunkNo.toNat = i → (us.get l).timestamp < wu.timestamp) := by
  constructor
  · rintro ⟨before, after, rfl, hi, hbefore, hafter⟩
    refine ⟨⟨before.length, by simp⟩, by simp, hi, ?_, ?_⟩
    · rintro ⟨l, hl⟩ hlt
      have hl' : l < before.length := hlt
      simp only [List.get_eq_getElem, List.getElem_append_left hl']
      exact hbefore _ (List.getElem_mem _)
    · rintro ⟨l, hl⟩ hgt
      have hl' : before.length < l := hgt
      obtain ⟨n, rfl⟩ := Nat.exists_eq_add_of_lt hl'
      have hget : (before ++ wu :: after)[before.length + n + 1] ∈ after := by
        simp [List.getElem_append_right, Nat.add_assoc]
      exact hafter _ hget
  · rintro ⟨k, rfl, hi, hbefore, hafter⟩
    have hsplit : us = us.take k ++ us.get k :: us.drop (k + 1) := by
      rw [List.get_eq_getElem, List.getElem_cons_drop, List.take_append_drop]
    refine ⟨us.take k, us.drop (k + 1), hsplit, hi, fun u hu => ?_, fun u hu => ?_⟩
    · obtain ⟨l, hl, rfl⟩ := List.mem_take_iff_getElem.mp hu
      exact hbefore ⟨l, by omega⟩ (by simp [Fin.lt_def]; omega)
    · obtain ⟨l, hl, rfl⟩ := List.mem_drop_iff_getElem.mp hu
      exact hafter ⟨k + 1 + l, by omega⟩ (by simp [Fin.lt_def]; omega)

theorem Rearranged.mem (h : Rearranged us vs) : ∀ u ∈ vs, u ∈ us := by
  obtain ⟨σ, hget, -⟩ := h
  intro u hu
  obtain ⟨l, rfl⟩ := List.mem_iff_get.mp hu
  rw [← σ.apply_symm_apply l, hget]
  exact List.get_mem _ _

/-- A rearrangement keeps the newest records: one that comes behind a record of
the same time was behind it before. -/
theorem Rearranged.newest (h : Rearranged us vs) (hnew : Newest us i wu) : Newest vs i wu := by
  obtain ⟨σ, hget, horder⟩ := h
  obtain ⟨k, rfl, rfl, hbefore, hafter⟩ := newest_iff.mp hnew
  have hle : ∀ l, (us.get l).chunkNo = (us.get k).chunkNo →
      (us.get l).timestamp ≤ (us.get k).timestamp := by
    intro l hl
    rcases lt_trichotomy l k with hlt | rfl | hgt
    · exact hbefore l hlt (by rw [hl])
    · exact UInt64.le_refl _
    · exact UInt64.le_of_lt (hafter l hgt (by rw [hl]))
  refine newest_iff.mpr ⟨σ k, hget k, rfl, fun m hm hno => ?_, fun m hm hno => ?_⟩
  · obtain ⟨l, rfl⟩ := σ.surjective m
    rw [hget] at hno ⊢
    exact hle l (UInt64.toNat_inj.mp hno)
  · obtain ⟨l, rfl⟩ := σ.surjective m
    rw [hget] at hno ⊢
    have hsame : (us.get l).chunkNo = (us.get k).chunkNo := UInt64.toNat_inj.mp hno
    refine UInt64.lt_of_le_of_ne (hle l hsame) fun htime => ?_
    rcases lt_trichotomy l k with hlt | rfl | hgt
    · exact absurd (horder l k hlt ⟨hsame, htime⟩) (lt_asymm hm)
    · exact lt_irrefl _ hm
    · exact UInt64.ne_of_lt (hafter l hgt hno) htime

end

-- ---------------------------------------------------------------------------
-- The table
-- ---------------------------------------------------------------------------

/-- A table made of a log: the newest record of each chunk, and the initial unit
of one without records. -/
structure TableOf (wus : List WriteUnit) (table : Table) : Prop where
  newest : ∀ c, (∃ wu ∈ wus, wu.chunkNo.toNat = c) → Newest wus c (table c)
  initial : ∀ c, (∀ wu ∈ wus, wu.chunkNo.toNat ≠ c) → table c = initTable c

section
variable {us vs : List WriteUnit} {table : Table}

theorem tableOf_foldl (us : List WriteUnit) : TableOf us (us.foldl record initTable) where
  newest c hc := by
    obtain ⟨wu, hnew⟩ := exists_newest hc
    rwa [foldl_record_newest rfl hnew]
  initial c hc := foldl_record_other hc

theorem TableOf.eq_foldl (h : TableOf us table) : table = us.foldl record initTable := by
  funext c
  by_cases hc : ∃ u ∈ us, u.chunkNo.toNat = c
  · exact (foldl_record_newest rfl (h.newest c hc)).symm
  · have hnone : ∀ u ∈ us, u.chunkNo.toNat ≠ c := fun u hu huc => hc ⟨u, hu, huc⟩
    rw [h.initial c hnone, foldl_record_other hnone]

theorem Rearranged.tableOf (h : Rearranged us vs) (ht : TableOf us table) : TableOf vs table where
  newest := by
    rintro c ⟨u, hu, huc⟩
    exact h.newest (ht.newest c ⟨u, h.mem u hu, huc⟩)
  initial c hc := by
    refine ht.initial c fun u hu => hc u ?_
    obtain ⟨σ, hget, -⟩ := h
    obtain ⟨k, rfl⟩ := List.mem_iff_get.mp hu
    rw [← hget]
    exact List.get_mem _ _

end

/-- The table that the log loop of either `verify_file` makes. A rearranged log
makes the same. -/
theorem readLog_table (numChunks : Nat) (wus : List WriteUnit)
    (hin : ∀ wu ∈ wus, wu.chunkNo.toNat < numChunks) :
    ∃ table, TableOf wus table ∧
      (∀ s, logUnits s = some wus → readLog numChunks s initTable = .ok table) ∧
      ∀ wus', Rearranged wus wus' → TableOf wus' table ∧
        ∀ s, logUnits s = some wus' → readLog numChunks s initTable = .ok table := by
  have htable := tableOf_foldl wus
  refine ⟨wus.foldl record initTable, htable, fun s hs => ?_, fun wus' hre => ?_⟩
  · exact readLog_ok_iff.mpr ⟨wus, hs, hin, rfl⟩
  · have htable' := hre.tableOf htable
    refine ⟨htable', fun s hs => ?_⟩
    exact readLog_ok_iff.mpr ⟨wus', hs, fun u hu => hin u (hre.mem u hu), htable'.eq_foldl⟩

/-- Two records of chunk 0 with the same time and one of chunk 2, in two orders. -/
def tiedLog : List WriteUnit := [⟨0, 5, 1, 65⟩, ⟨2, 4, 2, 66⟩, ⟨0, 5, 3, 67⟩]

def tiedLog' : List WriteUnit := [⟨2, 4, 2, 66⟩, ⟨0, 5, 1, 65⟩, ⟨0, 5, 3, 67⟩]

theorem tiedLog_rearranged : Rearranged tiedLog tiedLog' :=
  ⟨(Equiv.swap 0 1 : Equiv.Perm (Fin 3)), by decide, by unfold Tied; decide⟩

theorem tiedLog_ok : ∀ wu ∈ tiedLog, RecordOk wu := by
  simp only [tiedLog, List.forall_mem_cons, List.not_mem_nil, false_implies, implies_true, and_true]
  exact ⟨⟨by decide, by decide, by decide⟩, ⟨by decide, by decide, by decide⟩,
    ⟨by decide, by decide, by decide⟩⟩

theorem readLog_table_tied : ∃ table : Table,
    readLog 3 ⟨printLog tiedLog, false⟩ initTable = .ok table ∧
      readLog 3 ⟨printLog tiedLog', false⟩ initTable = .ok table ∧
      TableOf tiedLog table := by
  obtain ⟨table, htable, hread, hsame⟩ := readLog_table 3 tiedLog (by decide)
  refine ⟨table, hread _ (logUnits_print tiedLog_ok), ?_, htable⟩
  exact (hsame _ tiedLog_rearranged).2 _
    (logUnits_print fun u hu => tiedLog_ok u (tiedLog_rearranged.mem u hu))

end Ocfs2Test.Chunks
