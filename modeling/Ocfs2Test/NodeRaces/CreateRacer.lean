import Ocfs2Test.Lib.CString
import Ocfs2Test.Lib.PhaseRules

/-!
# create_racer

In each pass one rank, a different one each time, creates a file with O_EXCL and all
ranks then access it. The files stay, so a second run in the same directory fails.
-/

namespace Ocfs2Test.CreateRacer

open Lib Lib.CString

def PATH_MAX : Nat := 4096

def namePrefix : List Char := "create_racer".toList

/-- `max_iter` of the option `-i`. The passes are counted in an `int`. -/
structure Config where
  numProcs : Nat
  path : List Char
  maxIter : Nat
  numProcs_pos : 0 < numProcs
  maxIter_le : maxIter ≤ 2 ^ 31

/-- `"%s/%s:%06d"` -/
def Config.file (c : Config) (i : Nat) : List Char :=
  c.path ++ '/' :: namePrefix ++ ':' :: printPadded 6 (i : Int)

inductive Op
  /-- `abort_printf` over a name that `snprintf` has cut off -/
  | pathTooLong
  | create (fname : List Char)
  | access (fname : List Char)
  deriving DecidableEq

/-- The ranks share the names that are in the directory; it can be written to. -/
abbrev Store := Finset (List Char)

def exec : Op → Store → Outcome Store
  | .pathTooLong, _ => .failed
  | .create fname, t => if fname ∈ t then .failed else .next (insert fname t)
  | .access fname, t => if fname ∈ t then .next t else .failed

def Config.creator (c : Config) (i : Nat) : Fin c.numProcs :=
  ⟨i % c.numProcs, Nat.mod_lt i c.numProcs_pos⟩

/-- `run_test` up to the first barrier of `create_access`. -/
def createPart (c : Config) (i : Nat) (p : Fin c.numProcs) : List Op :=
  (if PATH_MAX ≤ (c.file i).length then [.pathTooLong] else []) ++
    if p = c.creator i then [.create (c.file i)] else []

/-- Two phases for each pass, and nothing behind the last barrier. -/
def script (c : Config) (k : Nat) (p : Fin c.numProcs) : List Op :=
  if 2 * c.maxIter ≤ k then []
  else if k % 2 = 0 then createPart c (k / 2) p
  else [.access (c.file (k / 2))]

def program (c : Config) : Phased (Fin c.numProcs) Op Store where
  last := 2 * c.maxIter
  script := script c
  exec _ := exec

/-- `old` is in the directory before. -/
def runTest (c : Config) (old : Store) : System (Phased.State (Fin c.numProcs) Op Store) :=
  (program c).system fun t => t = old

-- ---------------------------------------------------------------------------
-- Names
-- ---------------------------------------------------------------------------

variable {c : Config} {old t : Store} {i j k n : Nat}

theorem file_injective (h : c.file i = c.file j) : i = j := by
  have hdigits : printPadded 6 (i : Int) = printPadded 6 (j : Int) := by
    simpa [Config.file] using h
  exact printPadded_injective hdigits

def Config.files (c : Config) (n : Nat) : Store := (Finset.range n).image c.file

theorem file_mem_files : c.file i ∈ c.files n ↔ i < n := by
  simp only [Config.files, Finset.mem_image, Finset.mem_range]
  constructor
  · rintro ⟨j, hj, heq⟩
    exact file_injective heq ▸ hj
  · exact fun hi => ⟨i, hi, rfl⟩

theorem files_succ (c : Config) (n : Nat) : c.files (n + 1) = insert (c.file n) (c.files n) := by
  rw [Config.files, Finset.range_add_one, Finset.image_insert, Config.files]

-- ---------------------------------------------------------------------------
-- Passes that succeed
-- ---------------------------------------------------------------------------

/-- Pass `i` can be done in a directory that holds `old` and the files before it. -/
def Clear (c : Config) (old : Store) (i : Nat) : Prop :=
  (c.file i).length < PATH_MAX ∧ c.file i ∉ old

def Holds (c : Config) (old : Store) (k : Nat) (t : Store) : Prop :=
  t = old ∪ c.files (min c.maxIter ((k + 1) / 2))

theorem exec_create (hclear : Clear c old i) :
    exec (.create (c.file i)) (old ∪ c.files i) = .next (old ∪ c.files (i + 1)) := by
  have hnew : c.file i ∉ old ∪ c.files i := by
    rw [Finset.mem_union, file_mem_files, not_or]
    exact ⟨hclear.2, Nat.lt_irrefl i⟩
  rw [exec, if_neg hnew, files_succ, Finset.union_insert]

theorem createPart_eq (hclear : Clear c old i) :
    createPart c i = fun p => if p = c.creator i then [.create (c.file i)] else [] := by
  funext p
  rw [createPart, if_neg (Nat.not_le.mpr hclear.1), List.nil_append]

theorem phase_triple (hk : k < 2 * c.maxIter) (hclear : Clear c old (k / 2)) :
    (program c).Triple (Holds c old k) ((program c).script k) (Holds c old (k + 1)) := by
  have hpass : k / 2 < c.maxIter := by omega
  rcases Nat.mod_two_eq_zero_or_one k with heven | hodd
  · have hscript : (program c).script k = createPart c (k / 2) := by
      funext p
      simp only [program, script, if_neg (Nat.not_le.mpr hk), if_pos heven]
    have hbefore : min c.maxIter ((k + 1) / 2) = k / 2 := by omega
    have hafter : min c.maxIter ((k + 1 + 1) / 2) = k / 2 + 1 := by omega
    rw [hscript, createPart_eq hclear]
    refine .solo ?_
    rintro t rfl
    refine ⟨old ∪ c.files (k / 2 + 1), ?_, ?_⟩
    · rw [hbefore, Phased.alone_cons (exec_create hclear)]
      rfl
    · rw [Holds, hafter]
  · have hscript : (program c).script k = fun _ => [.access (c.file (k / 2))] := by
      funext p
      simp only [program, script, if_neg (Nat.not_le.mpr hk), hodd, if_neg Nat.one_ne_zero]
    have hcount : min c.maxIter ((k + 1) / 2) = k / 2 + 1 := by omega
    have hafter : min c.maxIter ((k + 1 + 1) / 2) = k / 2 + 1 := by omega
    have hsame : Holds c old (k + 1) = Holds c old k := by
      funext t
      rw [Holds, Holds, hcount, hafter]
    rw [hscript, hsame]
    refine .readOnly fun t ht p op hop => ?_
    have hthere : c.file (k / 2) ∈ t := by
      rw [ht, hcount, Finset.mem_union, file_mem_files]
      exact .inr (Nat.lt_succ_self _)
    rw [List.mem_singleton.mp hop]
    exact if_pos hthere

theorem last_triple :
    (program c).Triple (Holds c old (2 * c.maxIter)) ((program c).script (2 * c.maxIter))
      (Holds c old (2 * c.maxIter + 1)) := by
  have hscript : (program c).script (2 * c.maxIter) = fun _ => [] := by
    funext p
    simp only [program, script, le_refl, if_true]
  have hsame : Holds c old (2 * c.maxIter + 1) = Holds c old (2 * c.maxIter) := by
    funext t
    rw [Holds, Holds, show min c.maxIter ((2 * c.maxIter + 1 + 1) / 2) = c.maxIter by omega,
      show min c.maxIter ((2 * c.maxIter + 1) / 2) = c.maxIter by omega]
  rw [hscript, hsame]
  exact .idle

theorem triples (hclear : ∀ i < c.maxIter, Clear c old i) :
    ∀ k ≤ (program c).last,
      (program c).Triple (Holds c old k) ((program c).script k) (Holds c old (k + 1)) := by
  intro k hk
  rcases Nat.eq_or_lt_of_le hk with rfl | hlt
  · exact last_triple
  · exact phase_triple hlt (hclear _ (by have : k < 2 * c.maxIter := hlt; omega))

theorem holds_old (c : Config) (old : Store) : ∀ t, t = old → Holds c old 0 t := by
  rintro t rfl
  simp [Holds, Config.files]

-- ---------------------------------------------------------------------------
-- Passes that do not
-- ---------------------------------------------------------------------------

theorem stuck_op (hbad : ¬ Clear c old i) :
    ∃ op ops, createPart c i (c.creator i) = op :: ops ∧
      ∀ t : Store, old ⊆ t → exec op t = .failed := by
  rcases Nat.lt_or_ge (c.file i).length PATH_MAX with hfits | hlong
  · have hold : c.file i ∈ old := by
      by_contra hnew
      exact hbad ⟨hfits, hnew⟩
    refine ⟨.create (c.file i), [], ?_, fun t ht => ?_⟩
    · rw [createPart, if_neg (Nat.not_le.mpr hfits), if_pos rfl]
      rfl
    · rw [exec, if_pos (ht hold)]
  · refine ⟨.pathTooLong, [.create (c.file i)], ?_, fun t _ => rfl⟩
    rw [createPart, if_pos hlong, if_pos rfl]
    rfl

theorem exec_keeps_old {op : Op} {t t' : Store} (ht : old ⊆ t)
    (hexec : exec op t = .next t') : old ⊆ t' := by
  cases op with
  | pathTooLong => cases hexec
  | create fname =>
    rw [exec] at hexec
    split at hexec
    · cases hexec
    · cases hexec
      exact ht.trans (Finset.subset_insert fname t)
  | access fname =>
    rw [exec] at hexec
    split at hexec
    · cases hexec
      exact ht
    · cases hexec

theorem script_create (hi : i < c.maxIter) (p : Fin c.numProcs) :
    (program c).script (2 * i) p = createPart c i p := by
  simp only [program, script]
  rw [if_neg (by omega), if_pos (by omega), Nat.mul_div_cancel_left i (by decide)]

theorem not_finished {s : Phased.State (Fin c.numProcs) Op Store} (hi : i < c.maxIter)
    (hbad : ¬ Clear c old i) (h : (runTest c old).Reachable s) : ¬ (program c).Finished s := by
  intro hfinished
  obtain ⟨op, ops, hops, hfails⟩ := stuck_op hbad
  have hmem : op ∈ (program c).script (2 * i) (c.creator i) := by
    rw [script_create hi, hops]
    exact List.mem_cons_self
  obtain ⟨hle, -⟩ := Phased.phase_le_of_stuck (M := program c) (K := fun t => old ⊆ t)
    (fun t ht => Finset.subset_of_eq ht.symm) (fun _ _ _ _ => exec_keeps_old) hmem
    (fun t t' ht hexec => by cases (hfails t ht).symm.trans hexec) h
  have hphase := hle (c.creator i)
  rw [(hfinished (c.creator i)).1] at hphase
  have hlast : (program c).last = 2 * c.maxIter := rfl
  omega

theorem exists_failed (hi : i < c.maxIter) (hbefore : ∀ j < i, Clear c old j)
    (hbad : ¬ Clear c old i) : ∃ s, (runTest c old).Reachable s ∧ s.failed = true := by
  obtain ⟨t, hreach, hholds⟩ : ∃ t, (runTest c old).Reachable ((program c).atPhase (2 * i) t) ∧
      Holds c old (2 * i) t :=
    Phased.reachable_atPhase rfl (holds_old c old old rfl)
      (by have : (program c).last = 2 * c.maxIter := rfl; omega)
      fun k hk => phase_triple (by omega) (hbefore _ (by omega))
  obtain ⟨op, ops, hops, hfails⟩ := stuck_op hbad
  have htodo : ((program c).atPhase (2 * i) t).todo (c.creator i) = op :: ops :=
    (script_create hi (c.creator i)).trans hops
  have hkept : old ⊆ t := by
    rw [hholds]
    exact Finset.subset_union_left
  exact ⟨_, hreach.step (.fail rfl htodo (hfails t hkept)), rfl⟩

/-- No run aborts exactly when none of the files is there before and all names fit into
the buffer, and also only then does any run come to its end. It then never hangs,
and leaves just the files of its passes behind. -/
theorem runTest_iff (c : Config) (old : Store) :
    ((∀ s, (runTest c old).Reachable s → s.failed = false) ↔ ∀ i < c.maxIter, Clear c old i) ∧
    ((∃ s, (runTest c old).Reachable s ∧ (program c).Finished s) ↔
      ∀ i < c.maxIter, Clear c old i) ∧
    ((∀ i < c.maxIter, Clear c old i) → ∀ s, (runTest c old).Reachable s →
      ¬ (runTest c old).Deadlocked (program c).Finished s) ∧
    ∀ s, (runTest c old).Reachable s → (program c).Finished s →
      s.store = old ∪ c.files c.maxIter := by
  have hne : Nonempty (Fin c.numProcs) := ⟨c.creator 0⟩
  have hclear_of_finished : ∀ s, (runTest c old).Reachable s → (program c).Finished s →
      ∀ i < c.maxIter, Clear c old i := by
    intro s hs hfinished i hi
    by_contra hbad
    exact not_finished hi hbad hs hfinished
  refine ⟨⟨fun hsafe => ?_, fun hclear s hs => ?_⟩, ⟨?_, fun hclear => ?_⟩, fun hclear s hs => ?_, ?_⟩
  · intro i hi
    induction i using Nat.strong_induction_on with
    | _ i ih =>
      by_contra hbad
      obtain ⟨s, hs, hfailed⟩ := exists_failed hi (fun j hj => ih j hj (hj.trans hi)) hbad
      rw [hsafe s hs] at hfailed
      cases hfailed
  · exact (Phased.correct (holds_old c old) (triples hclear) hs).1
  · rintro ⟨s, hs, hfinished⟩
    exact hclear_of_finished s hs hfinished
  · obtain ⟨t, hreach, -⟩ : ∃ t, (runTest c old).Reachable
        ((program c).atPhase (program c).last t) ∧ Holds c old (program c).last t :=
      Phased.reachable_atPhase rfl (holds_old c old old rfl) le_rfl
        fun k hk => triples hclear k (Nat.le_of_lt hk)
    refine ⟨_, hreach, fun p => ⟨rfl, ?_⟩⟩
    simp [Phased.atPhase, program, script]
  · exact (Phased.correct (holds_old c old) (triples hclear) hs).2
  · intro s hs hfinished
    have hend := Phased.finished_store (holds_old c old)
      (triples (hclear_of_finished s hs hfinished)) hs hfinished
    rw [hend, show min c.maxIter (((program c).last + 1 + 1) / 2) = c.maxIter by
      have : (program c).last = 2 * c.maxIter := rfl
      omega]

def threeRanks : Config where
  numProcs := 3
  path := ['d']
  maxIter := 2
  numProcs_pos := by decide
  maxIter_le := by decide

example : ∀ i < threeRanks.maxIter, Clear threeRanks ∅ i := by
  intro i hi
  have hi : i = 0 ∨ i = 1 := by
    have : i < 2 := hi
    omega
  rcases hi with rfl | rfl <;> exact ⟨by decide, Finset.notMem_empty _⟩

end Ocfs2Test.CreateRacer
