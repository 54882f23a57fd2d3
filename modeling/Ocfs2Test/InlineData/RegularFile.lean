import Ocfs2Test.InlineData.Messages

/-!
# test_regular_file

In every test the file stays what the patterns say, and every message is received. The
exception is the large reservation, where a rank whose reservation fails with ENOTTY
sends nothing, while rank 0 waits for a pattern of every rank.
-/

namespace Ocfs2Test.InlineData

open Lib Lib.Stdio

section
variable {c : Config} {t : Store c} {p : Fin c.size} {x y : Pattern} {n m count offset : Nat}
  {f : ByteFile} {file : FileName c.size} {scripts : List (Fin c.size → List (Op c))}
  {ops : List (Op c)} {o : Choices c}

-- ---------------------------------------------------------------------------
-- Files and patterns
-- ---------------------------------------------------------------------------

theorem writeAt_matches (h : Matches x n f) (hle : offset ≤ n) (hcount : 0 < count)
    (hm : max n (offset + count) = m) :
    Matches x m (writeAt f (fun i => x (offset + i)) count offset) := by
  have hne : (List.range count).map (fun i => x (offset + i)) ≠ [] := by
    rw [ne_eq, List.map_eq_nil_iff, List.range_eq_nil]
    exact Nat.ne_of_gt hcount
  refine ⟨?_, fun i hi => ?_⟩
  · simp only [writeAt, ByteFile.pwrite, if_neg hne, List.length_map, List.length_range, h.1, hm]
  · rw [writeAt, ByteFile.byte_pwrite, List.length_map, List.length_range]
    split
    · next hin =>
      have hlt : i - offset < count := by omega
      simp [List.getElem?_range hlt, Nat.add_sub_cancel' hin.1]
    · exact h.2 i (by omega)

theorem truncate_matches (hold : ∀ i < m, i < n → f.byte i = y i) (hsize : f.size = n)
    (hzero : ∀ i < m, n ≤ i → y i = 0) : Matches y m (f.truncate m) := by
  refine ⟨rfl, fun i hi => ?_⟩
  rw [ByteFile.byte_truncate, if_pos hi]
  by_cases hin : i < n
  · exact hold i hi hin
  · rw [hzero i hi (Nat.le_of_not_lt hin)]
    exact f.zero_beyond i (by omega)

theorem prepFileNoFill_matches (x : Pattern) {openDirect : Bool} (hn : 0 < n)
    (hdirect : openDirect = true → n ≤ c.blocksize) :
    Matches x n (prepFileNoFill c x n openDirect) := by
  have hempty : Matches x 0 ByteFile.empty := ⟨rfl, nofun⟩
  have hwrite (count : Nat) (hcount : 0 < count) :
      Matches x count (writeAt ByteFile.empty x count 0) := by
    have hzero : Matches x (max 0 (0 + count))
        (writeAt ByteFile.empty (fun i => x (0 + i)) count 0) :=
      writeAt_matches hempty le_rfl hcount rfl
    simpa only [Nat.zero_add, Nat.zero_max] using hzero
  cases openDirect with
  | false => simpa only [prepFileNoFill, Bool.false_eq_true, if_false, gt_iff_lt, lt_irrefl]
      using hwrite n hn
  | true =>
    have hle := hdirect rfl
    have hblock := hwrite c.blocksize (Nat.lt_of_lt_of_le hn hle)
    simp only [prepFileNoFill, if_true]
    split
    · refine truncate_matches (fun i hi hin => hblock.2 i hin) hblock.1 fun i hi hin => ?_
      omega
    · obtain rfl : n = c.blocksize := by omega
      exact hblock

theorem mmapWriteAt_matches (x : Pattern) (h : f.size = n) :
    Matches x n (mmapWriteAt f x n 0) := by
  refine ⟨h, fun i hi => ?_⟩
  simp only [mmapWriteAt]
  rw [if_pos (by omega), Nat.sub_zero]

-- ---------------------------------------------------------------------------
-- Verifications
-- ---------------------------------------------------------------------------

theorem exec_verifyPatternFd {directRead : Bool} (h : MatchesAt t file (t.pattern p) n)
    (hdirect : directRead = true → n ≤ c.blocksize) :
    exec p (.verifyPatternFd file n directRead) t = .next t := by
  obtain ⟨f, hf, hsize, hbytes⟩ := h
  simp only [exec, onFile, hf]
  refine if_pos ?_
  have hlen : min (if directRead then c.blocksize else n) (f.size - 0) = n := by
    rw [hsize]
    split
    · next hd => exact Nat.min_eq_right (hdirect hd)
    · exact Nat.min_self n
  rw [ByteFile.pread, hlen]
  refine List.map_congr_left fun i hi => ?_
  rw [Nat.zero_add]
  exact hbytes i (List.mem_range.mp hi)

/-- A verification of what ranks have that are synced over `n` bytes. -/
def Op.Reads (n : Nat) : Op c → Prop
  | .verifyPatternFd .shared size directRead => size = n ∧ (directRead = true → n ≤ c.blocksize)
  | .verifyPatternMmap .shared size => size ≤ n
  | _ => False

theorem reads_triple {script : Fin c.size → List (Op c)} (h : ∀ p, ∀ op ∈ script p, op.Reads n) :
    (Phased.ofList scripts exec).Triple (Synced n) script (Synced n) := by
  apply Phased.Triple.readOnly
  rintro t ⟨x, hx⟩ p op hmem
  have hfile : MatchesAt t .shared (t.pattern p) n := by
    rw [hx.pattern p]
    exact hx.file
  have hreads := h p op hmem
  match op with
  | .verifyPatternFd .shared size directRead =>
    obtain ⟨rfl, hdirect⟩ := hreads
    exact exec_verifyPatternFd hfile hdirect
  | .verifyPatternMmap .shared size =>
    obtain ⟨f, hf, -, hbytes⟩ := hfile
    show exec p (.verifyPatternMmap .shared size) t = .next t
    simp only [exec, onFile, hf]
    exact if_pos fun i hi => hbytes i (Nat.lt_of_lt_of_le hi hreads)

theorem reads_fd (n : Nat) : (Op.verifyPatternFd .shared n false : Op c).Reads n := ⟨rfl, nofun⟩

theorem reads_direct : (Op.verifyPatternFd .shared c.maxInlineSize true : Op c).Reads
    c.maxInlineSize := ⟨rfl, fun _ => c.maxInlineSize_le⟩

theorem onlyRoot_reads {ops : List (Op c)} (h : ∀ op ∈ ops, op.Reads n) :
    ∀ p, ∀ op ∈ onlyRoot ops p, op.Reads n := by
  intro p op hmem
  unfold onlyRoot at hmem
  split at hmem
  · exact h op hmem
  · cases hmem

theorem onlyOthers_reads {ops : Fin c.size → List (Op c)} (h : ∀ p, ∀ op ∈ ops p, op.Reads n) :
    ∀ p, ∀ op ∈ onlyOthers ops p, op.Reads n := by
  intro p op hmem
  unfold onlyOthers at hmem
  split at hmem
  · exact h p op hmem
  · cases hmem

theorem singleton_reads {op : Op c} (h : op.Reads n) : ∀ op' ∈ [op], op'.Reads n := by
  intro op' hmem
  rw [List.mem_singleton.mp hmem]
  exact h

-- ---------------------------------------------------------------------------
-- What rank 0 prepares
-- ---------------------------------------------------------------------------

theorem matchesAt_set {g : ByteFile} (t : Store c) (p : Fin c.size) (file : FileName c.size)
    (h : Matches x n g) : MatchesAt ((t.setPattern p x).setFile file (some g)) file
      (((t.setPattern p x).setFile file (some g)).pattern p) n := by
  refine ⟨g, ?_, ?_⟩
  · rw [setFile_files, Function.update_self]
  · rw [setFile_pattern, setPattern_pattern, Function.update_self]
    exact h

theorem maxInlineSize_pos (c : Config) : 0 < c.maxInlineSize :=
  Nat.lt_of_lt_of_le (by decide) c.four_le_maxInlineSize

theorem prepFile_triple (rand : Nat → Rand) :
    (Phased.ofList scripts exec).Triple Quiet
      (fromRoot [.prepFile .shared c.maxInlineSize rand]) (Synced (c := c) c.maxInlineSize) := by
  refine fromRoot_triple (fun t t' op hop hexec => ?_) fun t => ?_
  · cases List.mem_singleton.mp hop
    cases hexec
    rfl
  · exact ⟨_, rfl, rfl, matchesAt_set _ _ _ (prepFileNoFill_matches _ (maxInlineSize_pos c) nofun)⟩

theorem fillPattern_triple (size : Nat) (rand : Nat → Rand) {openDirect : Bool} (hn : 0 < n)
    (hdirect : openDirect = true → n ≤ c.blocksize) :
    (Phased.ofList scripts exec).Triple Quiet
      (fromRoot [.fillPattern size rand, .prepFileNoFill .shared n openDirect])
      (Synced (c := c) n) := by
  refine fromRoot_triple (fun t t' op hop hexec => ?_) fun t => ?_
  · simp only [List.mem_cons, List.not_mem_nil, or_false] at hop
    rcases hop with rfl | rfl
    · cases hexec
      rfl
    · cases hexec
      rfl
  · refine ⟨(t.setPattern c.root (fillPattern size rand)).setFile .shared
      (some (prepFileNoFill c (fillPattern size rand) n openDirect)), ?_, rfl,
      matchesAt_set _ _ _ (prepFileNoFill_matches _ hn hdirect)⟩
    simp only [Phased.alone, Phased.ofList, exec, setPattern_pattern, Function.update_self]

theorem mmapWrite_triple (rand rand' : Nat → Rand) :
    (Phased.ofList scripts exec).Triple Quiet
      (fromRoot [.prepFile .shared c.maxInlineSize rand, .fillPattern c.maxInlineSize rand',
        .mmapWriteAt .shared c.maxInlineSize]) (Synced (c := c) c.maxInlineSize) := by
  refine fromRoot_triple (fun t t' op hop hexec => ?_) fun t => ?_
  · simp only [List.mem_cons, List.not_mem_nil, or_false] at hop
    rcases hop with rfl | rfl | rfl
    · cases hexec
      rfl
    · cases hexec
      rfl
    · simp only [exec, onFile] at hexec
      split at hexec <;> cases hexec
      rfl
  · have hprep : Matches (fillPattern c.maxInlineSize rand) c.maxInlineSize
        (prepFileNoFill c (fillPattern c.maxInlineSize rand) c.maxInlineSize false) :=
      prepFileNoFill_matches _ (maxInlineSize_pos c) fun h => absurd h Bool.false_ne_true
    generalize hx : fillPattern c.maxInlineSize rand = x at hprep
    generalize hy : fillPattern c.maxInlineSize rand' = y
    generalize hf : prepFileNoFill c x c.maxInlineSize false = f at hprep
    refine ⟨(((t.setPattern c.root x).setFile .shared (some f)).setPattern c.root y).setFile .shared
      (some (mmapWriteAt f y c.maxInlineSize 0)), ?_, rfl,
      matchesAt_set _ _ _ (mmapWriteAt_matches y hprep.1)⟩
    simp only [Phased.alone, Phased.ofList, exec, onFile, setFile_files, setPattern_files,
      setPattern_pattern, Function.update_self, hx, hy, hf]

-- ---------------------------------------------------------------------------
-- What the others do
-- ---------------------------------------------------------------------------

/-- There is a file, and it has `P`. -/
def Is (P : ByteFile → Prop) (file : Option ByteFile) : Prop := ∃ f, file = some f ∧ P f

theorem works_of {op : Op c} {P Q : ByteFile → Prop}
    (h : ∀ (t : Store c) f, t.pattern p = x → t.files .shared = some f → P f ∨ Q f →
      ∃ g, Q g ∧ exec p op t = .next ((t.setPattern p y).setFile .shared (some g))) :
    Works op p x y (Is P) (Is Q) := by
  rintro t hpattern (⟨f, hf, hP⟩ | ⟨f, hf, hQ⟩)
  · obtain ⟨g, hg, hexec⟩ := h t f hpattern hf (.inl hP)
    exact ⟨some g, ⟨g, rfl, hg⟩, hexec⟩
  · obtain ⟨g, hg, hexec⟩ := h t f hpattern hf (.inr hQ)
    exact ⟨some g, ⟨g, rfl, hg⟩, hexec⟩

theorem writeAt_works (hle : offset ≤ n) (hcount : 0 < count) (hm : max n (offset + count) = m) :
    Works (.writeAt .shared count offset : Op c) p x x (Is (Matches x n)) (Is (Matches x m)) := by
  refine works_of fun t f hpattern hf hmatches => ⟨writeAt f (fun i => x (offset + i)) count offset,
    ?_, ?_⟩
  · rcases hmatches with hold | hnew
    · exact writeAt_matches hold hle hcount hm
    · exact writeAt_matches hnew (by omega) hcount (by omega)
  · rw [setPattern_eq_self hpattern]
    simp only [exec, onFile, hf, hpattern]

theorem truncatePattern_works (hle : m ≤ n) :
    Works (.truncatePattern .shared n m : Op c) p x (clear x m (n - m)) (Is (Matches x n))
      (Is (Matches (clear x m (n - m)) m)) := by
  refine works_of fun t f hpattern hf hmatches => ⟨f.truncate m, ?_, ?_⟩
  · have hkeep (i : Nat) (hi : i < m) : clear x m (n - m) i = x i :=
      if_neg fun hc => Nat.not_le.mpr hi hc.1
    rcases hmatches with hold | hnew
    · exact truncate_matches (fun i hi hin => (hold.2 i hin).trans (hkeep i hi).symm) hold.1
        fun i hi hin => by omega
    · exact truncate_matches (fun i hi hin => hnew.2 i hin) hnew.1 fun i hi hin => by omega
  · simp only [exec, onFile, hf, hpattern]

theorem extendPattern_works (n m : Nat) :
    Works (.extendPattern .shared n m : Op c) p x (clear x n (m - n)) (Is (Matches x n))
      (Is (Matches (clear x n (m - n)) m)) := by
  refine works_of fun t f hpattern hf hmatches => ⟨f.truncate m, ?_, ?_⟩
  · rcases hmatches with hold | hnew
    · refine truncate_matches (fun i hi hin => ?_) hold.1 fun i hi hin => ?_
      · rw [hold.2 i hin]
        exact (if_neg fun hc => Nat.not_le.mpr hin hc.1).symm
      · exact if_pos ⟨hin, by omega⟩
    · exact truncate_matches (fun i hi hin => hnew.2 i hin) hnew.1 fun i hi hin => by omega
  · simp only [exec, onFile, hf, hpattern]

theorem tryPunchHole_works (ret : Ioctl) :
    Works (.tryPunchHole .shared offset count ret : Op c) p x (clear x offset count)
      (Is fun _ => True) (Is fun _ => True) :=
  works_of fun t f hpattern hf _ => ⟨tryPunchHole f offset count ret, trivial, by
    simp only [exec, onFile, hf, hpattern]⟩

theorem toRoot_synced {work : Fin c.size → Op c} (y : Pattern → Pattern)
    (hwork : ∀ x q, Works (work q) q x (y x) (Is (Matches x n)) (Is (Matches (y x) m))) :
    (Phased.ofList scripts exec).Triple (Synced n) (toRoot fun q => [work q]) (Synced m) := by
  refine (Phased.Triple.exists fun x => toRoot_triple fun q _ => hwork x q).mono ?_ ?_
  · rintro t ⟨x, hx⟩
    exact ⟨x, hx.quiet, hx.pattern, hx.file⟩
  · rintro t ⟨x, hquiet, hfile, hothers, q, -, hroot⟩
    refine ⟨y x, hquiet, fun p => ?_, hfile⟩
    by_cases hp : p = c.root
    · rw [hp]
      exact hroot
    · exact hothers p hp

theorem punchHole_triple {offset count : Fin c.size → Nat} {ret : Fin c.size → Ioctl} :
    (Phased.ofList scripts exec).Triple (Synced n)
      (toRoot fun q => [.tryPunchHole .shared (offset q) (count q) (ret q)]) Quiet := by
  refine (Phased.Triple.exists fun x => toRoot_triple (x := x) fun q _ =>
    tryPunchHole_works (ret q)).mono ?_ ?_
  · rintro t ⟨x, hx⟩
    obtain ⟨f, hf, -⟩ := hx.file
    exact ⟨x, hx.quiet, hx.pattern, f, hf, trivial⟩
  · rintro t ⟨x, hquiet, -⟩
    exact hquiet

-- ---------------------------------------------------------------------------
-- The last test
-- ---------------------------------------------------------------------------

def OwnSynced (p : Fin c.size) (t : Store c) : Prop :=
  MatchesAt t (.own p) (t.pattern p) c.maxInlineSize

theorem OwnSynced.congr {t' : Store c} (hpattern : t'.pattern p = t.pattern p)
    (hfile : t'.files (.own p) = t.files (.own p)) (h : OwnSynced p t) : OwnSynced p t' := by
  unfold OwnSynced MatchesAt
  rw [hpattern, hfile]
  exact h

theorem update_own {p q : Fin c.size} (h : q ≠ p) (g : FileName c.size → Option ByteFile)
    (f : Option ByteFile) : Function.update g (.own p) f (.own q) = g (.own q) := by
  refine Function.update_of_ne (fun hc => h ?_) ..
  cases hc
  rfl

theorem prepOwn_triple (rand : Fin c.size → Nat → Rand) :
    (Phased.ofList scripts exec).Triple (fun _ => ∀ _ : Fin c.size, True)
      (fun p => [.prepFile (.own p) c.maxInlineSize (rand p)]) fun t => ∀ p, OwnSynced p t := by
  refine Phased.Triple.each fun t p _ => ⟨_, rfl, ?_, fun q hq => ⟨fun _ => trivial, ?_⟩⟩
  · exact matchesAt_set _ _ _ (prepFileNoFill_matches _ (maxInlineSize_pos c) nofun)
  · apply OwnSynced.congr
    · rw [setFile_pattern, setPattern_pattern, Function.update_of_ne hq]
    · rw [setFile_files, update_own hq]
      rfl

theorem getRand_bounds {min max : Nat} (h : min ≤ max) (r : Rand) :
    min ≤ getRand min max r ∧ getRand min max r ≤ max := by
  have hlt : r.val % (max - min + 1) < max - min + 1 := Nat.mod_lt _ (Nat.succ_pos _)
  unfold getRand
  split <;> omega

theorem offset_lt (o : Choices c) (k : Nat) (p : Fin c.size) : o.offset k p < c.maxInlineSize := by
  have hle := (getRand_bounds (Nat.zero_le (c.maxInlineSize - 1)) (o.rand k p 0)).2
  exact Nat.lt_of_le_sub_one (maxInlineSize_pos c) hle

theorem count_bounds (o : Choices c) (k : Nat) (p : Fin c.size) :
    0 < o.count k p ∧ o.offset k p + o.count k p ≤ c.maxInlineSize := by
  have hlt := offset_lt o k p
  have hle : 1 ≤ c.maxInlineSize - o.offset k p := Nat.sub_pos_of_lt hlt
  obtain ⟨hlow, hhigh⟩ := getRand_bounds hle (o.rand k p 1)
  refine ⟨hlow, ?_⟩
  rw [Choices.count]
  omega

theorem writeOwn_triple (o : Choices c) (k : Nat) :
    (Phased.ofList scripts exec).Triple (fun t => ∀ p, OwnSynced p t)
      (fun p => [.writeAt (.own p) (o.count k p) (o.offset k p)]) fun t => ∀ p, OwnSynced p t := by
  refine Phased.Triple.each fun t p h => ?_
  obtain ⟨f, hf, hmatches⟩ := h
  obtain ⟨hcount, hbound⟩ := count_bounds o k p
  have hexec : exec p (.writeAt (.own p) (o.count k p) (o.offset k p)) t =
      .next (t.setFile (.own p) (some (writeAt f (fun i => t.pattern p (o.offset k p + i))
        (o.count k p) (o.offset k p)))) := by
    simp only [exec, onFile, hf]
  have hnew : Matches (t.pattern p) c.maxInlineSize (writeAt f
      (fun i => t.pattern p (o.offset k p + i)) (o.count k p) (o.offset k p)) :=
    writeAt_matches hmatches (Nat.le_of_lt (offset_lt o k p)) hcount (by omega)
  refine ⟨_, hexec, ⟨_, Function.update_self .., hnew⟩, fun q hq => ⟨?_, ?_⟩⟩
  · exact OwnSynced.congr rfl (update_own hq ..)
  · exact OwnSynced.congr rfl (update_own hq ..)

theorem verifyOwn_triple :
    (Phased.ofList scripts exec).Triple (fun t => ∀ p, OwnSynced p t)
      (fun p => [.verifyPatternFd (.own p) c.maxInlineSize false])
      fun t => ∀ p : Fin c.size, OwnSynced p t := by
  apply Phased.Triple.readOnly
  intro t h p op hmem
  rw [List.mem_singleton.mp hmem]
  exact exec_verifyPatternFd (h p) nofun

theorem unlinkOwn_triple :
    (Phased.ofList scripts exec).Triple (fun _ => ∀ _ : Fin c.size, True)
      (fun p => [.unlink (.own p)]) fun _ => ∀ _ : Fin c.size, True :=
  Phased.Triple.each fun _ _ _ => ⟨_, rfl, trivial, fun _ _ => ⟨fun h => h, fun h => h⟩⟩

theorem unlinkShared_triple :
    (Phased.ofList scripts exec).Triple (fun _ : Store c => True) (onlyRoot [.unlink .shared])
      fun _ => True := by
  have hscript : (onlyRoot [.unlink .shared] : Fin c.size → List (Op c)) =
      Function.update (fun _ => []) c.root ([.unlink .shared] ++ []) := by
    funext p
    by_cases hp : p = c.root
    · subst hp
      simp [onlyRoot]
    · simp [onlyRoot, hp]
  rw [hscript]
  exact Phased.Triple.idle.lead (fun t ht => ht) (fun _ _ _ _ _ _ => trivial)
    (fun _ _ _ _ _ _ => nofun) fun t _ => ⟨t.setFile .shared none, rfl, trivial⟩

-- ---------------------------------------------------------------------------
-- The tests
-- ---------------------------------------------------------------------------

theorem Synced.quiet (h : Synced n t) : Quiet t := by
  obtain ⟨x, hx⟩ := h
  exact hx.quiet

theorem verify_triple (n : Nat) :
    (Phased.ofList scripts exec).Triple (Synced n)
      (onlyRoot [.verifyPatternFd .shared n false]) (Synced (c := c) n) :=
  reads_triple (onlyRoot_reads (singleton_reads (reads_fd n)))

theorem writeBasic_seq : (Phased.ofList scripts exec).Seq Quiet (writeBasic o)
    (Synced c.maxInlineSize) :=
  .cons (prepFile_triple _) (.cons (reads_triple fun _ => singleton_reads (reads_fd _))
    (.nil fun _ h => h))

theorem rewritePortion_seq : (Phased.ofList scripts exec).Seq (Synced c.maxInlineSize)
    (rewritePortion o) (Synced c.maxInlineSize) := by
  refine .cons (toRoot_synced (fun x => x) fun x p => ?_) (.cons (verify_triple _) (.nil fun _ h => h))
  obtain ⟨hcount, hbound⟩ := count_bounds o 2 p
  exact writeAt_works (Nat.le_of_lt (offset_lt o 2 p)) hcount (by omega)

theorem reduceSize_seq : (Phased.ofList scripts exec).Seq (Synced c.maxInlineSize)
    (reduceSize c) (Synced (c.maxInlineSize / 2)) :=
  .cons (toRoot_synced _ fun _ _ => truncatePattern_works (Nat.div_le_self ..))
    (.cons (verify_triple _) (.nil fun _ h => h))

theorem extendFile_seq : (Phased.ofList scripts exec).Seq (Synced (c.maxInlineSize / 2))
    (extendFile c) (Synced c.maxInlineSize) :=
  .cons (toRoot_synced _ fun _ _ => extendPattern_works _ _)
    (.cons (verify_triple _) (.nil fun _ h => h))

theorem doubleWrite_seq : (Phased.ofList scripts exec).Seq Quiet (doubleWrite o) Quiet := by
  have hfour := c.four_le_maxInlineSize
  refine .cons (fillPattern_triple _ _ (by omega) nofun) (.cons
    (toRoot_synced (fun x => x) fun x p => ?_) (.cons (verify_triple _) (.nil fun _ h => h.quiet)))
  have hbounds := getRand_bounds (by omega : 1 ≤ c.maxInlineSize / 2 / 2) (o.rand 5 p 0)
  exact writeAt_works hbounds.2 (by omega) (by omega)

theorem fsyncTest_seq : (Phased.ofList scripts exec).Seq Quiet (fsyncTest o) Quiet := by
  refine .cons (prepFile_triple _) (.cons (reads_triple fun p op hmem => ?_)
    (.nil fun _ h => h.quiet))
  rcases List.mem_append.mp hmem with hmem | hmem
  · exact onlyOthers_reads (fun _ => singleton_reads (reads_fd _)) p op hmem
  · exact singleton_reads (reads_fd _) op hmem

theorem fdatasyncTest_seq : (Phased.ofList scripts exec).Seq Quiet (fdatasyncTest o) Quiet :=
  .cons (prepFile_triple _) (.cons (reads_triple fun _ => singleton_reads (reads_fd _))
    (.nil fun _ h => h.quiet))

theorem mmapReads_seq : (Phased.ofList scripts exec).Seq Quiet (mmapReads o)
    (Synced c.maxInlineSize) := by
  refine .cons (prepFile_triple _) (.cons (reads_triple (onlyOthers_reads fun _ op hmem => ?_))
    (.nil fun _ h => h))
  obtain ⟨j, hj, rfl⟩ := List.mem_map.mp hmem
  exact Nat.succ_le_of_lt (List.mem_range.mp hj)

theorem reserveSpace_seq : (Phased.ofList scripts exec).Seq (Synced c.maxInlineSize)
    (reserveSpace o) Quiet := by
  refine .cons (reads_triple (onlyOthers_reads fun p op hmem => ?_)) (.nil fun _ h => h.quiet)
  split at hmem
  · exact singleton_reads (reads_fd _) op hmem
  · cases hmem

theorem punchHole_seq : (Phased.ofList scripts exec).Seq Quiet (punchHole o) Quiet :=
  .cons (prepFile_triple _) (.cons punchHole_triple (.cons .idle (.nil fun _ h => h)))

theorem largeWrite_seq : (Phased.ofList scripts exec).Seq Quiet (largeWrite o) Quiet := by
  have hmax := c.maxInlineSize_le
  have hblock := c.blocksize_le
  refine .cons (fillPattern_triple _ _ (maxInlineSize_pos c) fun _ => hmax) (.cons
    (toRoot_synced (fun x => x) fun x p => ?_) (.cons (verify_triple _) (.nil fun _ h => h.quiet)))
  unfold PATTERN_SZ
  exact writeAt_works le_rfl (by omega) (by omega)

theorem mmapWrite_seq : (Phased.ofList scripts exec).Seq Quiet (mmapWrite o) Quiet :=
  .cons (mmapWrite_triple _ _) (.cons
    (reads_triple (onlyOthers_reads fun _ => singleton_reads (reads_fd _)))
    (.nil fun _ h => h.quiet))

theorem largeExtend_seq : (Phased.ofList scripts exec).Seq Quiet (largeExtend o) Quiet :=
  .cons (prepFile_triple _) (.cons (toRoot_synced _ fun _ _ => extendPattern_works _ _)
    (.cons (verify_triple _) (.nil fun _ h => h.quiet)))

theorem firstTests_seq : (Phased.ofList scripts exec).Seq Quiet (firstTests o) Quiet := by
  have hsizes : (Phased.ofList scripts exec).Seq Quiet ((fun _ => []) :: writeBasic o ++
      rewritePortion o ++ reduceSize c ++ extendFile c) (Synced c.maxInlineSize) :=
    (((Phased.Seq.cons .idle writeBasic_seq).append rewritePortion_seq).append
      reduceSize_seq).append extendFile_seq
  have hsyncs := ((hsizes.append ((doubleWrite_seq (o := o)).mono fun _ h => h.quiet)).append
    (fsyncTest_seq (o := o))).append (fdatasyncTest_seq (o := o))
  exact (((((hsyncs.append mmapReads_seq).append reserveSpace_seq).append punchHole_seq).append
    largeWrite_seq).append mmapWrite_seq).append largeExtend_seq

theorem largeReservation_seq (h : ∀ p, p ≠ c.root → o.reserveAll p = .ok) :
    (Phased.ofList scripts exec).Seq Quiet (largeReservation o) Quiet := by
  have hscript : expandByReservation o =
      toRoot fun _ => [.extendPattern .shared c.maxInlineSize PATTERN_SZ] := by
    funext p
    by_cases hp : p = c.root
    · simp [expandByReservation, toRoot, hp]
    · simp [expandByReservation, toRoot, hp, h p hp]
  refine .cons (prepFile_triple _) (.cons ?_ (.cons (verify_triple _) (.nil fun _ h => h.quiet)))
  rw [hscript]
  exact toRoot_synced _ fun _ _ => extendPattern_works _ _

theorem directRead_seq : (Phased.ofList scripts exec).Seq Quiet (directRead o) Quiet :=
  .cons (prepFile_triple _) (.cons (reads_triple (onlyOthers_reads fun _ =>
    singleton_reads reads_direct)) (.nil fun _ h => h.quiet))

theorem directWrite_seq :
    (Phased.ofList scripts exec).Seq Quiet (directWrite o) fun _ => True :=
  .cons (fillPattern_triple _ _ (maxInlineSize_pos c) fun _ => c.maxInlineSize_le) (.cons
    (reads_triple (onlyOthers_reads fun _ => singleton_reads reads_direct))
    (.cons (unlinkShared_triple.mono (fun _ _ => trivial) fun _ h => h) (.nil fun _ h => h)))

theorem multipleFiles_seq : (Phased.ofList scripts exec).Seq (fun _ => True) (multipleFiles o)
    fun _ => True :=
  .cons ((prepOwn_triple _).mono (fun _ _ _ => trivial) fun _ h => h) (.cons (writeOwn_triple o 18)
    (.cons verifyOwn_triple (.cons (unlinkOwn_triple.mono (fun _ _ _ => trivial) fun _ h => h)
      (.nil fun _ _ => trivial))))

theorem lastTests_seq : (Phased.ofList scripts exec).Seq Quiet (lastTests o) fun _ => True :=
  ((directRead_seq.append directWrite_seq).append multipleFiles_seq).append
    (.cons .idle (.cons .idle (.nil fun _ h => h)))

theorem testRegularFile_correct (h : ∀ p, p ≠ c.root → o.reserveAll p = .ok)
    {s : Phased.State (Fin c.size) (Op c) (Store c)} (hs : (testRegularFile o).Reachable s) :
    s.failed = false ∧ ¬ (testRegularFile o).Deadlocked (program o).Finished s := by
  have : Nonempty (Fin c.size) := ⟨c.root⟩
  exact (firstTests_seq.append ((largeReservation_seq h).append lastTests_seq)).correct hs

-- ---------------------------------------------------------------------------
-- The reservation that fails
-- ---------------------------------------------------------------------------

/-- Rank 0 waits for the ranks that do not send. -/
structure Waiting (o : Choices c) (sources : List (Fin c.size)) (todo : Fin c.size → List (Op c))
    (t : Store c) : Prop where
  file : ∃ f, t.files .shared = some f
  root : todo c.root = sources.map .recv
  silent : ∀ p, p ≠ c.root → o.reserveAll p = .enotty →
    p ∈ sources ∧ todo p = [] ∧ t.sent p c.root = []
  others : ∀ p, p ≠ c.root →
    todo p <:+ [.extendPattern .shared c.maxInlineSize PATTERN_SZ, .send c.root, .wait c.root]

theorem waiting_step {todo : Fin c.size → List (Op c)} {op : Op c} {sources : List (Fin c.size)}
    (h : Waiting o sources todo t) (htodo : todo p = op :: ops) :
    (∃ t', exec p op t = .next t' ∧ ∃ sources, Waiting o sources (Function.update todo p ops) t') ∨
      exec p op t = .blocked := by
  obtain ⟨hfile, hroot, hsilent, hothers⟩ := h
  by_cases hp : p = c.root
  · subst hp
    cases sources with
    | nil => cases hroot.symm.trans htodo
    | cons q sources =>
      cases hroot.symm.trans htodo
      cases hsent : t.sent q c.root with
      | nil =>
        right
        simp only [exec, hsent]
      | cons message messages =>
        refine .inl ⟨(t.setPattern c.root message).setSent q c.root messages, ?_, sources, hfile,
          Function.update_self .., fun r hr hret => ?_, fun r hr => ?_⟩
        · simp only [exec, hsent]
        · obtain ⟨hmem, hnil, hempty⟩ := hsilent r hr hret
          have hrq : r ≠ q := by
            rintro rfl
            cases hempty.symm.trans hsent
          refine ⟨(List.mem_cons.mp hmem).resolve_left hrq, ?_, ?_⟩
          · rw [Function.update_of_ne hr]
            exact hnil
          · rw [setSent_of_ne (.inl hrq)]
            exact hempty
        · rw [Function.update_of_ne hr]
          exact hothers r hr
  · have hops := hothers p hp
    have hnext (t' : Store c) (hfile' : ∃ f, t'.files .shared = some f)
        (hsent' : ∀ r, r ≠ p → t'.sent r c.root = t.sent r c.root) :
        Waiting o sources (Function.update todo p ops) t' := by
      refine ⟨hfile', ?_, fun r hr hret => ?_, fun r hr => ?_⟩
      · rw [Function.update_of_ne (Ne.symm hp)]
        exact hroot
      · obtain ⟨hmem, hnil, hempty⟩ := hsilent r hr hret
        have hrp : r ≠ p := by
          rintro rfl
          cases hnil.symm.trans htodo
        rw [Function.update_of_ne hrp, hsent' r hrp]
        exact ⟨hmem, hnil, hempty⟩
      · by_cases hrp : r = p
        · subst hrp
          rw [Function.update_self]
          rw [htodo] at hops
          exact (List.suffix_cons op ops).trans hops
        · rw [Function.update_of_ne hrp]
          exact hothers r hr
    have hop : op = .extendPattern .shared c.maxInlineSize PATTERN_SZ ∨ op = .send c.root ∨
        op = .wait c.root := by
      rw [htodo] at hops
      simpa using hops.subset List.mem_cons_self
    rcases hop with rfl | rfl | rfl
    · obtain ⟨f, hf⟩ := hfile
      refine .inl ⟨(t.setPattern p (clear (t.pattern p) c.maxInlineSize (PATTERN_SZ -
        c.maxInlineSize))).setFile .shared (some (f.truncate PATTERN_SZ)), ?_, sources,
        hnext _ ⟨f.truncate PATTERN_SZ, by rw [setFile_files, Function.update_self]⟩
          fun _ _ => rfl⟩
      simp only [exec, onFile, hf]
    · exact .inl ⟨_, rfl, sources, hnext _ hfile fun r hr => setSent_of_ne (.inl hr) _⟩
    · by_cases hdone : c.buffered ∨ t.sent p c.root = []
      · exact .inl ⟨t, if_pos hdone, sources, hnext t hfile fun _ _ => rfl⟩
      · exact .inr (if_neg hdone)

theorem expandByReservation_deadlocks (hp : p ≠ c.root) (hret : o.reserveAll p = .enotty) :
    ∃ s, (testRegularFile o).Reachable s ∧
      (testRegularFile o).Deadlocked (program o).Finished s := by
  have hprogram : program o = .ofList ((firstTests o ++ [fromRoot [.prepFile .shared
      c.maxInlineSize (o.chars 14 0)]]) ++ (expandByReservation o ::
        onlyRoot [.verifyPatternFd .shared PATTERN_SZ false] :: lastTests o)) exec := by
    simp [program, largeReservation]
  have hquiet : Quiet (⟨fun _ _ => 0, fun _ => none, fun _ _ => []⟩ : Store c) := fun _ _ => rfl
  rw [testRegularFile, hprogram]
  obtain ⟨t, hs, x, hx⟩ := Phased.Seq.reachable_append (List.cons_ne_nil _ _)
    (firstTests_seq.append (.cons (prepFile_triple _) (.nil fun _ h => h))) hquiet
  rw [Phased.atPhase, Phased.ofList_script] at hs
  refine Phased.exists_deadlocked (I := fun todo t => ∃ sources, Waiting o sources todo t)
    (fun todo t p op ops ⟨sources, h⟩ htodo => waiting_step h htodo) ?_
    ⟨c.others, hx.file.imp fun f hf => hf.1, ?_, fun q hq hret => ⟨mem_others.mpr hq, ?_,
      hx.quiet q _⟩, fun q hq => ?_⟩ hs
  · rintro todo t ⟨sources, h⟩
    refine ⟨c.root, ?_⟩
    rw [h.root, ne_eq, List.map_eq_nil_iff]
    exact List.ne_nil_of_mem (h.silent p hp hret).1
  · simp [expandByReservation, recvPatternFromRanks]
  · simp [expandByReservation, hq, hret]
  · by_cases hret : o.reserveAll q = .enotty
    · simp [expandByReservation, hq, hret]
    · simp [expandByReservation, hq, hret, sendPatternToRanks, sendPattern]

end

/-- The ranks come through, and every verification finds what it expects, just where the
large reservation does not fail with ENOTTY for any rank but rank 0. -/
theorem regularFile_iff {c : Config} (o : Choices c) :
    (∀ s, (testRegularFile o).Reachable s → s.failed = false ∧
      ¬ (testRegularFile o).Deadlocked (program o).Finished s) ↔
        ∀ p, p ≠ c.root → o.reserveAll p = .ok := by
  constructor
  · intro h p hp
    cases hret : o.reserveAll p with
    | ok => rfl
    | enotty =>
      obtain ⟨s, hs, hdeadlocked⟩ := expandByReservation_deadlocks hp hret
      exact absurd hdeadlocked (h s hs).2
  · exact fun h s hs => testRegularFile_correct h hs

def twoRanks : Config where
  size := 2
  blocksize := 4096
  maxInlineSize := 3800
  buffered := true
  two_le_size := by decide
  four_le_maxInlineSize := by decide
  maxInlineSize_le := by decide
  blocksize_le := by decide

def noIoctls : Choices twoRanks where
  rand _ _ _ := 0
  reserve _ := .enotty
  punchHole _ := .enotty
  reserveAll _ := .enotty

theorem regularFile_noIoctls_deadlocks :
    ∃ s, (testRegularFile noIoctls).Reachable s ∧
      (testRegularFile noIoctls).Deadlocked (program noIoctls).Finished s :=
  expandByReservation_deadlocks (p := (1 : Fin 2)) (by decide : (1 : Fin 2) ≠ 0) rfl

end Ocfs2Test.InlineData
