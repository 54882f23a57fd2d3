import Ocfs2Test.Holes.Writers

/-!
# Writers, verifier and replay agree

A run of a writer is a list of records: what it logs is their text and what it
leaves is their effect on a file of zeros, one after the other. The verifier
reads the same effect off the text, and a replay draws the same records from it.
-/

namespace Ocfs2Test.Holes

open Lib Lib.Segment Lib.Stdio

-- ---------------------------------------------------------------------------
-- Drawn records
-- ---------------------------------------------------------------------------

structure Drawn (size : Nat) (wu : WriteUnit) : Prop where
  charStart : RAND_CHAR_START ≤ wu.val
  charEnd : wu.val ≤ 122
  pos : 0 < wu.len
  len : wu.len ≤ MAX_WRITE_SIZE
  inside : wu.stop ≤ size

theorem getRand_zero (h : getRand 0 hi rs = .ok (x, rs')) : x < 2 ^ 31 ∧ (hi ≠ 0 → x < hi) := by
  unfold getRand at h
  split at h
  · cases h
    exact ⟨by decide, by omega⟩
  · cases rs with
    | nil => cases h
    | cons r rs =>
      simp only [Except.ok.injEq, Prod.mk.injEq] at h
      have hr := r.isLt
      have hle := Nat.mod_le r.val hi
      have hx : x = r.val % hi := by omega
      rw [hx]
      exact ⟨by omega, fun hhi => Nat.mod_lt _ (by omega)⟩

theorem getRand_one (h : getRand 1 MAX_WRITE_SIZE rs = .ok (x, rs')) : x < MAX_WRITE_SIZE := by
  unfold getRand at h
  rw [if_neg (by decide)] at h
  cases rs with
  | nil => cases h
  | cons r rs =>
    simp only [Except.ok.injEq, Prod.mk.injEq] at h
    have hlt := Nat.mod_lt r.val (show 0 < MAX_WRITE_SIZE by decide)
    simp only [MAX_WRITE_SIZE] at *
    omega

theorem assertUnit_ok (h : assertUnit wu rs = .ok (wu', rs')) :
    wu' = wu ∧ RAND_CHAR_START ≤ wu.val ∧ wu.val ≤ 122 ∧ wu.len ≤ MAX_WRITE_SIZE ∧ 0 < wu.len := by
  unfold assertUnit at h
  split at h
  · cases h
  · next hn =>
    cases h
    simp only [not_or, UInt8.not_lt, Nat.not_lt, gt_iff_lt] at hn
    exact ⟨rfl, hn.1, hn.2.1, hn.2.2.1, by omega⟩

/-- A length that passed the assertions was cut at the end of the file, not
wrapped around it. -/
theorem cutLen_inside {size off len : Nat} (hsize : size < 2 ^ 63) (hoff : off ≤ size + 2 ^ 31)
    (hlen : len ≤ MAX_WRITE_SIZE) (hcut : cutLen size off len ≤ MAX_WRITE_SIZE)
    (hpos : 0 < cutLen size off len) : off + cutLen size off len ≤ size := by
  simp only [MAX_WRITE_SIZE] at hlen hcut
  by_cases hover : (off + len) % 2 ^ 64 > size
  · rw [cutLen, if_pos hover] at hcut hpos ⊢
    omega
  · rw [cutLen, if_neg hover]
    omega

theorem align_le {x n : Nat} (hx : x ≤ 512 * n) (hn : n < 2 ^ 32) : align x 512 ≤ 512 * n := by
  unfold align
  omega

theorem fhDraw_drawn {c : FillCtx} (hsize : c.fileSize < 2 ^ 63) (hoff : iterOffset ≤ c.fileSize)
    (h : fhDraw c maxRange iterOffset char rs = .ok (wu, rs')) : Drawn c.fileSize wu := by
  fun_induction fhDraw c maxRange iterOffset char rs with
  | case1 | case2 => cases h
  | case3 rs r rs₁ h₁ l rs₂ h₂ off len len' hlen ih => exact ih h
  | case4 rs r rs₁ h₁ l rs₂ h₂ off len len' hlen =>
    obtain ⟨rfl, hlo, hhi, hmax, hpos⟩ := assertUnit_ok h
    have hr := (getRand_zero h₁).1
    have hl := getRand_one h₂
    have hr' := align_le (x := r) (n := 2 ^ 22) (by omega) (by decide)
    have hl' := align_le (x := l) (n := 64) (by simp only [MAX_WRITE_SIZE] at hl; omega) (by decide)
    have hoff' : off ≤ c.fileSize + 2 ^ 31 := by
      refine Nat.le_trans (Nat.mod_le _ _) ?_
      split <;> omega
    have hlen' : len ≤ MAX_WRITE_SIZE := by
      refine Nat.le_trans (Nat.mod_le _ _) ?_
      split
      · exact hl'
      · exact Nat.le_of_lt hl
    exact ⟨hlo, hhi, hpos, hmax, cutLen_inside hsize hoff' hlen' hmax hpos⟩

theorem phDraw_drawn (hsize : fileSize < 2 ^ 63)
    (h : phDraw fileSize maxRange rs = .ok (wu, rs')) : Drawn fileSize wu := by
  fun_induction phDraw fileSize maxRange rs with
  | case1 | case2 | case3 => cases h
  | case4 rs char rs₁ h₁ off rs₂ h₂ l rs₃ h₃ len hlen ih => exact ih h
  | case5 rs char rs₁ h₁ off rs₂ h₂ l rs₃ h₃ len hlen =>
    obtain ⟨rfl, hlo, hhi, hmax, hpos⟩ := assertUnit_ok h
    have hr := (getRand_zero h₂).1
    have hl := getRand_one h₃
    have hlen' : l % 2 ^ 32 ≤ MAX_WRITE_SIZE := Nat.le_trans (Nat.mod_le _ _) (Nat.le_of_lt hl)
    have hoff : off ≤ fileSize + 2 ^ 31 := by omega
    exact ⟨hlo, hhi, hpos, hmax, cutLen_inside hsize hoff hlen' hmax hpos⟩

-- ---------------------------------------------------------------------------
-- Records and their effect
-- ---------------------------------------------------------------------------

structure Logged (size : Nat) (wu : WriteUnit) : Prop where
  charStart : MAGIC_HOLE_CHAR ≤ wu.val
  charEnd : wu.val ≤ 122
  pos : 0 < wu.len
  len : wu.len ≤ MAX_WRITE_SIZE
  inside : wu.stop ≤ size

theorem Drawn.logged (h : Drawn size wu) : Logged size wu :=
  ⟨UInt8.le_trans (by decide) h.charStart, h.charEnd, h.pos, h.len, h.inside⟩

theorem Drawn.hole (h : Drawn size wu) : Logged size { wu with val := MAGIC_HOLE_CHAR } :=
  ⟨UInt8.le_refl _, (by decide : MAGIC_HOLE_CHAR ≤ 122), h.pos, h.len, h.inside⟩

theorem Drawn.mapHole (h : Drawn size wu) : mapHole wu = wu := by
  refine if_neg fun hv => ?_
  have := h.charStart
  rw [hv] at this
  exact absurd this (by decide)

theorem Logged.unitOk (hsize : size < 2 ^ 63) (h : Logged size wu) : UnitOk wu := by
  have hlen := h.len
  have hin := h.inside
  refine ⟨?_, ?_, ?_⟩
  · have hlo : 64 ≤ wu.val.toNat := h.charStart
    have hv : (Char.ofUInt8 wu.val).toNat = wu.val.toNat := by simp [Char.ofUInt8, Char.toNat]
    simp only [isSpace, hv]
    simp
    omega
  · simp only [MAX_WRITE_SIZE] at hlen
    omega
  · unfold stop at hin
    omega

def applyUnit (f : ByteFile) (wu : WriteUnit) : ByteFile :=
  f.pwrite (List.replicate wu.len (mapHole wu).val) wu.off

theorem applyUnit_size {f : ByteFile} {wu : WriteUnit} (h : wu.stop ≤ f.size) :
    (applyUnit f wu).size = f.size :=
  ByteFile.size_pwrite_of_le (by rw [List.length_replicate]; exact h)

theorem applyUnit_byte (f : ByteFile) (wu : WriteUnit) (pos : Nat) :
    (applyUnit f wu).byte pos = if wu.Covers pos then (mapHole wu).val else f.byte pos := by
  simp only [applyUnit, ByteFile.byte_pwrite, List.length_replicate]
  by_cases hc : wu.Covers pos
  · have hc' : wu.off ≤ pos ∧ pos < wu.off + wu.len := hc
    have hlt : pos - wu.off < wu.len := by omega
    simp [hc, hc', hlt]
  · have hc' : ¬ (wu.off ≤ pos ∧ pos < wu.off + wu.len) := hc
    rw [if_neg hc, if_neg hc']

theorem punchHole_eq {f : ByteFile} {wu : WriteUnit} (hval : wu.val = MAGIC_HOLE_CHAR)
    (h : wu.stop ≤ f.size) : punchHole f wu = applyUnit f wu := by
  refine ByteFile.ext (applyUnit_size h).symm ?_
  funext pos
  rw [applyUnit_byte, mapHole, if_pos hval]
  rfl

theorem doWrite_eq {f : ByteFile} (h : Drawn size wu) : doWrite f wu = .ok (applyUnit f wu) := by
  rw [doWrite, if_neg (Nat.not_lt.mpr h.len), applyUnit, h.mapHole]

theorem fhDoWrite_eq {f : ByteFile} (h : Drawn f.size wu) : fhDoWrite o f wu = .ok (applyUnit f wu) := by
  unfold fhDoWrite
  split
  · rw [if_pos h.inside, applyUnit, h.mapHole]
  · exact doWrite_eq h

def applyUnits (f : ByteFile) (units : List WriteUnit) : ByteFile := units.foldl applyUnit f

theorem applyUnits_append (f : ByteFile) (us vs : List WriteUnit) :
    applyUnits f (us ++ vs) = applyUnits (applyUnits f us) vs := List.foldl_append

theorem printLog_append (us vs : List WriteUnit) : printLog (us ++ vs) = printLog us ++ printLog vs :=
  List.flatMap_append

theorem printLog_cons (wu : WriteUnit) (us : List WriteUnit) :
    printLog (wu :: us) = printUnit wu ++ printLog us := List.flatMap_cons

theorem applyUnits_spec {f : ByteFile} {g : Nat → Option UInt8}
    (hunits : ∀ wu ∈ units, Logged f.size wu) (hg : ∀ pos, f.byte pos = (g pos).getD 0) :
    (applyUnits f units).size = f.size ∧
      ∀ pos, (applyUnits f units).byte pos = ((units.map mapHole).foldl override g pos).getD 0 := by
  induction units generalizing f g with
  | nil => exact ⟨rfl, hg⟩
  | cons wu units ih =>
    have hsize := applyUnit_size (hunits wu (by simp)).inside
    obtain ⟨h₁, h₂⟩ := ih (f := applyUnit f wu) (g := override g (mapHole wu))
      (fun u hu => hsize ▸ hunits u (by simp [hu])) (fun pos => by
        rw [applyUnit_byte, override]
        simp only [mapHole_covers]
        split
        · rfl
        · exact hg pos)
    exact ⟨h₁.trans hsize, h₂⟩

theorem clearRun_of_pos (h : ∀ wu ∈ units, 0 < wu.len) (g : Nat → Option UInt8) :
    ClearRun g units := by
  induction units generalizing g with
  | nil => trivial
  | cons wu units ih => exact ⟨.inl (h wu (by simp)), ih (fun u hu => h u (by simp [hu])) _⟩

theorem verifyHoles_run {f : ByteFile} (rb : Rebalance WriteUnit) (hsize : f.size < 2 ^ 63)
    (hunits : ∀ wu ∈ units, Logged f.size wu) (hzero : ∀ pos, f.byte pos = 0) :
    verifyHoles rb (applyUnits f units) (printLog units) = .code 0 := by
  obtain ⟨hs, hb⟩ := applyUnits_spec (g := fun _ => none) hunits hzero
  refine verifyHoles_of_matches rb (fun wu hwu => (hunits wu hwu).unitOk hsize) ?_ ⟨?_, ?_⟩
  · refine clearRun_of_pos (fun wu hwu => ?_) _
    obtain ⟨u, hu, rfl⟩ := List.mem_map.mp hwu
    have := (hunits u hu).pos
    unfold mapHole
    split <;> exact this
  · intro wu hwu _
    rw [hs]
    exact (hunits wu hwu).inside
  · intro pos _
    exact hb pos

-- ---------------------------------------------------------------------------
-- fill_holes
-- ---------------------------------------------------------------------------

/-- What `main` sets up for `total` iterations. -/
structure CtxOk (c : FillCtx) (total : Nat) : Prop where
  size : c.fileSize < 2 ^ 63
  chunks : c.maxIterPerChunk ≠ 0 →
    ∃ q, c.fileSize = q * TWO_GIGA_BYTE ∧ total < (c.maxIterPerChunk + 1) * q

/-- With `n` of `total` iterations to go the writer is in its `j`-th 2G. -/
def Paced (c : FillCtx) (total n : Nat) (st : FillState) : Prop :=
  if c.maxIterPerChunk = 0 then st.curIterOffset = 0
  else ∃ j, st.curIterOffset = j * TWO_GIGA_BYTE ∧
    j * (c.maxIterPerChunk + 1) + st.curIterPerChunk + n = total

theorem Paced.le_size (hc : CtxOk c total) (h : Paced c total n st) :
    st.curIterOffset ≤ c.fileSize := by
  unfold Paced at h
  split at h
  · omega
  · next hm =>
    obtain ⟨q, hq, hlt⟩ := hc.chunks hm
    obtain ⟨j, hj, hsum⟩ := h
    have hjq : j < q := by
      refine Nat.lt_of_mul_lt_mul_left (a := c.maxIterPerChunk + 1) ?_
      rw [Nat.mul_comm _ j]
      omega
    rw [hj, hq]
    exact Nat.mul_le_mul_right _ (Nat.le_of_lt hjq)

theorem Paced.advance (hc : CtxOk c total) (hm : c.maxIterPerChunk ≠ 0)
    (h : Paced c total (n + 1) st) : Paced c total n (st.advance c) := by
  have hle := h.le_size hc
  have hsize := hc.size
  rw [Paced, if_neg hm] at h ⊢
  obtain ⟨j, hj, hsum⟩ := h
  unfold FillState.advance
  split
  · next hcur =>
    refine ⟨j + 1, ?_, ?_⟩
    · simp only [TWO_GIGA_BYTE] at hj ⊢
      omega
    · rw [Nat.add_mul]
      simp only
      omega
  · refine ⟨j, hj, ?_⟩
    simp only
    omega

theorem fhPrepRandWriteUnit_drawn (hc : CtxOk c total) (hp : Paced c total (n + 1) st)
    (h : fhPrepRandWriteUnit c st rs = .ok (wu, st', rs')) :
    Drawn c.fileSize wu ∧ Paced c total n st' := by
  simp only [fhPrepRandWriteUnit, bind, Except.bind, pure, Except.pure, throw, throwThe,
    MonadExceptOf.throw] at h
  by_cases hm : c.maxIterPerChunk = 0
  · simp only [hm, ne_eq, not_true_eq_false, if_false] at h
    split at h
    · cases h
    split at h
    · cases h
    split at h
    · cases h
    next hd =>
    cases h
    have hp' : st.curIterOffset = 0 := by simpa [Paced, hm] using hp
    exact ⟨fhDraw_drawn hc.size (hp.le_size hc) hd, by simpa [Paced, hm] using hp'⟩
  · simp only [ne_eq, hm, not_false_eq_true, if_true] at h
    split at h
    · cases h
    split at h
    · cases h
    next hd =>
    cases h
    have hadv := hp.advance hc hm
    exact ⟨fhDraw_drawn hc.size (hadv.le_size hc) hd, hadv⟩

theorem Drawn.mono {m n : Nat} (h : Drawn m wu) (hle : m ≤ n) : Drawn n wu :=
  ⟨h.charStart, h.charEnd, h.pos, h.len, Nat.le_trans h.inside hle⟩

theorem fillLoop_rand {f : ByteFile} (hc : CtxOk c total) (hfile : c.fileSize ≤ f.size)
    (hp : Paced c total n st) (h : fillLoop o c n (.rand rs) st f log = .ok (f', log')) :
    ∃ units, (∀ wu ∈ units, Drawn f.size wu) ∧ units.length ≤ n ∧ f' = applyUnits f units ∧
      log' = log ++ printLog units := by
  induction n generalizing rs st f log with
  | zero =>
    cases h
    exact ⟨[], by simp, Nat.le_refl _, rfl, by simp [printLog]⟩
  | succ n ih =>
    simp only [fillLoop, Source.eof, Bool.false_eq_true, if_false, fhPrepWriteUnit, bind,
      Except.bind, pure, Except.pure] at h
    cases hprep : fhPrepRandWriteUnit c st rs with
    | error e => simp [hprep] at h
    | ok res =>
      obtain ⟨wu, st₁, rs₁⟩ := res
      obtain ⟨hdrawn, hp₁⟩ := fhPrepRandWriteUnit_drawn hc hp hprep
      have hwu := hdrawn.mono hfile
      have hsize := applyUnit_size hwu.inside
      simp only [hprep, fhDoWrite_eq hwu] at h
      obtain ⟨units, hunits, hlen, hf, hlog⟩ := ih (hsize.symm ▸ hfile) hp₁ h
      refine ⟨wu :: units, ?_, Nat.succ_le_succ hlen, hf, ?_⟩
      · rw [List.forall_mem_cons]
        exact ⟨hwu, hsize ▸ hunits⟩
      · rw [hlog, printLog_cons, List.append_assoc]

theorem fillLoop_replay (o : FillOpts) (c : FillCtx) (st : FillState) (log : List Char) {f : ByteFile}
    (hsize : f.size < 2 ^ 63) (hunits : ∀ wu ∈ units, Drawn f.size wu) (hlen : units.length ≤ n) :
    fillLoop o c n (.replay ⟨printLog units, units.isEmpty⟩) st f log =
      .ok (applyUnits f units, log ++ printLog units) := by
  induction units generalizing n f log with
  | nil =>
    cases n with
    | zero => simp [fillLoop, applyUnits, printLog]
    | succ n => simp [fillLoop, applyUnits, printLog, Source.eof]
  | cons wu units ih =>
    obtain ⟨n, rfl⟩ : ∃ m, n = m + 1 := ⟨n - 1, by simp at hlen; omega⟩
    rw [List.forall_mem_cons] at hunits
    have hwu := hunits.1
    have hkeep := applyUnit_size hwu.inside
    have hscan := scanUnit_print (e := false) (hwu.logged.unitOk hsize)
      fun u hu => (hunits.2 u hu).logged.unitOk hsize
    simp only [fillLoop, Source.eof, List.isEmpty_cons, Bool.false_eq_true, if_false,
      fhPrepWriteUnit, hscan, Bool.false_or, bind, Except.bind, fhDoWrite_eq hwu]
    rw [ih _ (hkeep.symm ▸ hsize) (hkeep.symm ▸ hunits.2) (by simpa using hlen), printLog_cons,
      List.append_assoc]
    rfl

def FillOpts.fileSize (o : FillOpts) (size : UInt64) : Nat :=
  if o.useDio then align size.toNat ONE_MEGA_BYTE else size.toNat

theorem fillCtx_ok (hsize : fileSize < 2 ^ 63) : CtxOk (fillCtx o fileSize) o.maxIter.toNat := by
  unfold fillCtx
  split
  · next hbig =>
    have hq : 0 < fileSize / TWO_GIGA_BYTE := Nat.div_pos (Nat.le_of_lt hbig) (by decide)
    refine ⟨Nat.lt_of_le_of_lt (Nat.div_mul_le_self _ _) hsize, fun _ => ⟨_, rfl, ?_⟩⟩
    rw [Nat.mul_comm]
    exact Nat.lt_mul_div_succ _ hq
  · exact ⟨hsize, fun h => absurd rfl h⟩

theorem fillCtx_fileSize_le : (fillCtx o fileSize).fileSize ≤ fileSize := by
  unfold fillCtx
  split
  · exact Nat.div_mul_le_self _ _
  · exact Nat.le_refl _

theorem fillHoles_ok_iff : fillHoles o size src = .ok res ↔
    ¬ (o.useMmap ∧ o.fileSize size > TWO_GIGA_BYTE) ∧ o.fileSize size < 2 ^ 63 ∧
      fillLoop o (fillCtx o (o.fileSize size)) o.maxIter.toNat src {}
        (ByteFile.empty.truncate (o.fileSize size)) [] = .ok res := by
  have hdef : fillHoles o size src = (do
      if o.useMmap ∧ o.fileSize size > TWO_GIGA_BYTE then throw .usage
      let f ← prepEmpty (o.fileSize size)
      fillLoop o (fillCtx o (o.fileSize size)) o.maxIter.toNat src {} f []) := rfl
  rw [hdef]
  generalize o.fileSize size = fileSize
  by_cases hu : o.useMmap ∧ fileSize > TWO_GIGA_BYTE
  · simp [hu, bind, Except.bind, throw, throwThe, MonadExceptOf.throw]
  by_cases hs : fileSize < 2 ^ 63
  · simp only [hu, hs, prepEmpty, bind, Except.bind, if_true, if_false, true_and, not_false_eq_true]
  · have hfail : prepEmpty fileSize = .error .failed := if_neg hs
    simp only [hu, hs, hfail, bind, Except.bind, if_false, false_and, and_false, reduceCtorEq]

theorem empty_truncate_byte (n pos : Nat) : (ByteFile.empty.truncate n).byte pos = 0 := by
  rw [ByteFile.byte_truncate]
  split <;> rfl

theorem isEmpty_of_printLog (h : printLog units ≠ []) : units.isEmpty = false := by
  cases units with
  | nil => exact absurd rfl h
  | cons => rfl

theorem le_UINT_MAX {maxIter : UInt32} {n : Nat} (h : n ≤ maxIter.toNat) :
    n ≤ (UInt32.ofNat UINT_MAX).toNat := by
  have := maxIter.toNat_lt
  have : (UInt32.ofNat UINT_MAX).toNat = 2 ^ 32 - 1 := by decide
  omega

theorem fillHoles_agree (rb : Rebalance WriteUnit)
    (h : fillHoles o size (.rand rs) = .ok (f, log)) (hlog : log ≠ []) :
    verifyHoles rb f log = .code 0 ∧
      fillHoles { o with maxIter := UInt32.ofNat UINT_MAX } size (.replay ⟨log, false⟩) =
        .ok (f, log) := by
  obtain ⟨husage, hsize, hloop⟩ := fillHoles_ok_iff.mp h
  have hp : Paced (fillCtx o (o.fileSize size)) o.maxIter.toNat o.maxIter.toNat {} := by
    unfold Paced
    split
    · rfl
    · exact ⟨0, by simp, by simp⟩
  obtain ⟨units, hunits, hlen, hf, hlog'⟩ :=
    fillLoop_rand (fillCtx_ok hsize) fillCtx_fileSize_le hp hloop
  rw [List.nil_append] at hlog'
  subst hf hlog'
  constructor
  · exact verifyHoles_run rb hsize (fun wu hwu => (hunits wu hwu).logged) (empty_truncate_byte _)
  · refine fillHoles_ok_iff.mpr ⟨husage, hsize, ?_⟩
    have hreplay := fillLoop_replay { o with maxIter := UInt32.ofNat UINT_MAX }
      (fillCtx { o with maxIter := UInt32.ofNat UINT_MAX } (o.fileSize size)) {} [] hsize hunits
      (le_UINT_MAX hlen)
    rw [isEmpty_of_printLog hlog, List.nil_append] at hreplay
    exact hreplay

-- ---------------------------------------------------------------------------
-- punch_holes
-- ---------------------------------------------------------------------------

/-- Records that take `ph_prep_file` from `start` to the end of the file and no
further. -/
def Prepares (size : Nat) : Nat → List WriteUnit → Prop
  | start, [] => size ≤ start
  | start, wu :: us => start < size ∧ Prepares size ((start + (wu.off + wu.len)) % 2 ^ 64) us

theorem cutLen_le {size start len : Nat} (hstart : start < size) (hsize : size < 2 ^ 63)
    (hlen : len ≤ MAX_WRITE_SIZE) :
    cutLen size start len ≤ len ∧ start + cutLen size start len ≤ size := by
  simp only [MAX_WRITE_SIZE] at hlen
  unfold cutLen
  split <;> omega

theorem prepUnit_drawn (hstart : start < size) (hsize : size < 2 ^ 63) (h : Drawn size wu)
    (hpos : (prepUnit size start (.rand rs) wu).len ≠ 0) :
    Drawn size (prepUnit size start (.rand rs) wu) := by
  obtain ⟨hle, hin⟩ := cutLen_le hstart hsize h.len
  exact ⟨h.charStart, h.charEnd, Nat.pos_of_ne_zero hpos, Nat.le_trans hle h.len, hin⟩

theorem phPrepWriteUnit_rand (hsize : size < 2 ^ 63)
    (h : phPrepWriteUnit size (.rand rs) = .ok (res, src')) :
    ∃ wu rs', res = some wu ∧ src' = .rand rs' ∧ Drawn size wu := by
  simp only [phPrepWriteUnit] at h
  split at h
  · cases h
  · next wu rs' hd =>
    cases h
    exact ⟨wu, rs', rfl, rfl, phDraw_drawn hsize hd⟩

theorem phPrepWriteUnit_replay (hsize : size < 2 ^ 63) (hwu : Logged size wu)
    (hunits : ∀ u ∈ units, Logged size u) :
    phPrepWriteUnit size (.replay ⟨printLog (wu :: units), false⟩) =
      .ok (some wu, .replay ⟨printLog units, units.isEmpty⟩) := by
  simp only [phPrepWriteUnit]
  rw [scanUnit_print (hwu.unitOk hsize) fun u hu => (hunits u hu).unitOk hsize]
  rfl

theorem phPrepLoop_rand {f : ByteFile} (hsize : size < 2 ^ 63) (hfile : f.size = size)
    (h : phPrepLoop size start (.rand rs) f log = .ok (ok, src', f', log')) :
    ∃ units rs', ok = true ∧ src' = .rand rs' ∧ (∀ wu ∈ units, Drawn size wu) ∧
      Prepares size start units ∧ f' = applyUnits f units ∧ log' = log ++ printLog units := by
  generalize hn : rs.length = n
  induction n using Nat.strongRecOn generalizing start rs f log with
  | ind n ih =>
  rw [phPrepLoop] at h
  by_cases hstart : start < size
  · rw [if_pos hstart] at h
    split at h
    · cases h
    · next hprep =>
      obtain ⟨wu, rs', hnone, -, -⟩ := phPrepWriteUnit_rand hsize hprep
      cases hnone
    · next hprep =>
      have hleft := phPrepWriteUnit_left hprep
      obtain ⟨wu, rs₁, hsome, rfl, hdrawn⟩ := phPrepWriteUnit_rand hsize hprep
      cases hsome
      have hrs : rs₁.length < n := hn ▸ show rs₁.length < rs.length from hleft
      simp only [Source.drawn, true_and] at h
      split at h
      · exact ih _ hrs hfile h rfl
      · next hpos =>
        have hwu := prepUnit_drawn hstart hsize hdrawn hpos
        have hkeep := applyUnit_size (f := f) (Nat.le_trans hwu.inside (Nat.le_of_eq hfile.symm))
        rw [doWrite_eq hwu] at h
        obtain ⟨units, rs', hok, hsrc, hunits, hprepares, hf, hlog⟩ :=
          ih _ hrs (hkeep.trans hfile) h rfl
        refine ⟨_ :: units, rs', hok, hsrc, ?_, ⟨hstart, hprepares⟩, hf, ?_⟩
        · rw [List.forall_mem_cons]
          exact ⟨hwu, hunits⟩
        · rw [hlog, printLog_cons, List.append_assoc]
  · rw [if_neg hstart] at h
    cases h
    exact ⟨[], rs, rfl, rfl, by simp, Nat.not_lt.mp hstart, rfl, by simp [printLog]⟩

theorem phPrepLoop_step {f : ByteFile} (log : List Char) (hstart : start < size)
    (hread : phPrepWriteUnit size src = .ok (some wu, src'))
    (hunit : prepUnit size start src wu = wu') (hlen : ¬ (src.drawn ∧ wu'.len = 0))
    (hwrite : doWrite f wu' = .ok f₁) :
    phPrepLoop size start src f log =
      phPrepLoop size ((start + (wu'.off + wu'.len)) % 2 ^ 64) src' f₁ (log ++ printUnit wu') := by
  rw [phPrepLoop, if_pos hstart]
  split
  · next h =>
    rw [hread] at h
    cases h
  · next h =>
    rw [hread] at h
    cases h
  · next h =>
    rw [hread] at h
    cases h
    rw [hunit]
    simp only [if_neg hlen, hwrite]

/-- A replayed prep phase takes the records that fill the file and leaves the
others to the punch loop. -/
theorem phPrepLoop_replay (log : List Char) {f : ByteFile} (hsize : size < 2 ^ 63) (hfile : f.size = size)
    (hprepares : Prepares size start prep) (hprep : ∀ wu ∈ prep, Drawn size wu)
    (hrest : ∀ wu ∈ rest, Logged size wu) :
    phPrepLoop size start (.replay ⟨printLog (prep ++ rest), (prep ++ rest).isEmpty⟩) f log =
      .ok (true, .replay ⟨printLog rest, rest.isEmpty⟩, applyUnits f prep, log ++ printLog prep) := by
  induction prep generalizing start f log with
  | nil =>
    rw [phPrepLoop, if_neg (Nat.not_lt.mpr hprepares)]
    simp [applyUnits, printLog]
  | cons wu prep ih =>
    obtain ⟨hstart, hnext⟩ := hprepares
    rw [List.forall_mem_cons] at hprep
    have hwu := hprep.1
    have hkeep := applyUnit_size (hfile.symm ▸ hwu.inside)
    have hlogged : ∀ u ∈ prep ++ rest, Logged size u := fun u hu =>
      (List.mem_append.mp hu).elim (fun h => (hprep.2 u h).logged) (hrest u)
    have hread := phPrepWriteUnit_replay hsize hwu.logged hlogged
    have hstep := phPrepLoop_step (f := f) log hstart hread (show prepUnit size start _ wu = wu from rfl)
      (by simp [Source.drawn]) (doWrite_eq hwu)
    rw [List.cons_append, List.isEmpty_cons, hstep, ih _ (hkeep.trans hfile) hnext hprep.2,
      printLog_cons, List.append_assoc]
    rfl

theorem punchLoop_rand {f : ByteFile} (hsize : size < 2 ^ 63) (hfile : f.size = size)
    (h : punchLoop size true n (.rand rs) f log = .ok (f', log')) :
    ∃ units, (∀ wu ∈ units, Logged size wu ∧ wu.val = MAGIC_HOLE_CHAR) ∧ units.length ≤ n ∧
      f' = applyUnits f units ∧ log' = log ++ printLog units := by
  induction n generalizing rs f log with
  | zero =>
    cases h
    exact ⟨[], by simp, Nat.le_refl _, rfl, by simp [printLog]⟩
  | succ n ih =>
    simp only [punchLoop, Source.eof, Bool.false_eq_true, if_false, if_true] at h
    split at h
    · cases h
    · cases h
    · next hprep =>
      obtain ⟨wu, rs₁, hsome, rfl, hdrawn⟩ := phPrepWriteUnit_rand hsize hprep
      cases hsome
      have hin := hdrawn.hole.inside
      rw [← hfile] at hin
      rw [punchHole_eq rfl hin] at h
      obtain ⟨units, hunits, hlen, hf, hlog⟩ := ih ((applyUnit_size hin).trans hfile) h
      refine ⟨_ :: units, ?_, Nat.succ_le_succ hlen, hf, ?_⟩
      · rw [List.forall_mem_cons]
        exact ⟨⟨hdrawn.hole, rfl⟩, hunits⟩
      · rw [hlog, printLog_cons, List.append_assoc]

theorem punchLoop_replay {f : ByteFile} (hsize : size < 2 ^ 63) (hfile : f.size = size)
    (hunits : ∀ wu ∈ units, Logged size wu ∧ wu.val = MAGIC_HOLE_CHAR) (hlen : units.length ≤ n) :
    punchLoop size true n (.replay ⟨printLog units, units.isEmpty⟩) f log =
      .ok (applyUnits f units, log ++ printLog units) := by
  induction units generalizing n f log with
  | nil =>
    cases n with
    | zero => simp [punchLoop, applyUnits, printLog]
    | succ n => simp [punchLoop, applyUnits, printLog, Source.eof]
  | cons wu units ih =>
    obtain ⟨n, rfl⟩ : ∃ m, n = m + 1 := ⟨n - 1, by simp at hlen; omega⟩
    rw [List.forall_mem_cons] at hunits
    obtain ⟨⟨hwu, hval⟩, hunits⟩ := hunits
    have hin := hwu.inside
    rw [← hfile] at hin
    have hread := phPrepWriteUnit_replay hsize hwu fun u hu => (hunits u hu).1
    have hhole : { wu with val := MAGIC_HOLE_CHAR } = wu := by rw [← hval]
    simp only [punchLoop, Source.eof, List.isEmpty_cons, Bool.false_eq_true, if_false, if_true,
      hread, hhole]
    rw [punchHole_eq hval hin, ih ((applyUnit_size hin).trans hfile) hunits (by simpa using hlen),
      printLog_cons, List.append_assoc]
    rfl

theorem punchHoles_eq (maxIter : UInt32) (size : UInt64) (src : Source)
    (hsize : size.toNat < 2 ^ 63) : punchHoles maxIter size src = (do
      let (fdOk, src, f, log) ← phPrepLoop size.toNat 0 src (ByteFile.empty.truncate size.toNat) []
      punchLoop size.toNat fdOk maxIter.toNat src f log) := by
  simp only [punchHoles, prepEmpty, if_pos hsize]
  rfl

theorem punchHoles_rand (h : punchHoles maxIter size (.rand rs) = .ok (f, log)) :
    ∃ prep holes rs', size.toNat < 2 ^ 63 ∧ (∀ wu ∈ prep, Drawn size.toNat wu) ∧
      Prepares size.toNat 0 prep ∧
      (∀ wu ∈ holes, Logged size.toNat wu ∧ wu.val = MAGIC_HOLE_CHAR) ∧
      holes.length ≤ maxIter.toNat ∧
      phPrepLoop size.toNat 0 (.rand rs) (ByteFile.empty.truncate size.toNat) [] =
        .ok (true, .rand rs', applyUnits (ByteFile.empty.truncate size.toNat) prep, printLog prep) ∧
      f = applyUnits (ByteFile.empty.truncate size.toNat) (prep ++ holes) ∧
      log = printLog (prep ++ holes) := by
  by_cases hsize : size.toNat < 2 ^ 63
  · rw [punchHoles_eq maxIter size _ hsize] at h
    cases hprep : phPrepLoop size.toNat 0 (.rand rs) (ByteFile.empty.truncate size.toNat) [] with
    | error e => simp [hprep, bind, Except.bind] at h
    | ok res =>
      obtain ⟨fdOk, src, f₁, log₁⟩ := res
      obtain ⟨prep, rs', rfl, rfl, hdrawn, hprepares, rfl, rfl⟩ :=
        phPrepLoop_rand hsize (ByteFile.size_truncate _ _) hprep
      have hkeep : (applyUnits (ByteFile.empty.truncate size.toNat) prep).size = size.toNat :=
        (applyUnits_spec (g := fun _ => none) (fun wu hwu => (hdrawn wu hwu).logged)
          (empty_truncate_byte _)).1
      simp only [hprep, bind, Except.bind] at h
      obtain ⟨holes, hholes, hlen, rfl, rfl⟩ := punchLoop_rand hsize hkeep h
      exact ⟨prep, holes, rs', hsize, hdrawn, hprepares, hholes, hlen, rfl,
        (applyUnits_append _ _ _).symm, by rw [List.nil_append, printLog_append]⟩
  · have hfail : prepEmpty size.toNat = .error .failed := if_neg hsize
    simp [punchHoles, hfail, bind, Except.bind] at h

theorem Logged.append {prep holes : List WriteUnit} (hprep : ∀ wu ∈ prep, Drawn size wu)
    (hholes : ∀ wu ∈ holes, Logged size wu ∧ wu.val = MAGIC_HOLE_CHAR) :
    ∀ wu ∈ prep ++ holes, Logged size wu := by
  intro wu hwu
  rcases List.mem_append.mp hwu with h | h
  · exact (hprep wu h).logged
  · exact (hholes wu h).1

theorem punchHoles_replay {size : UInt64} (hsize : size.toNat < 2 ^ 63)
    (hprep : ∀ wu ∈ prep, Drawn size.toNat wu) (hprepares : Prepares size.toNat 0 prep)
    (hholes : ∀ wu ∈ holes, Logged size.toNat wu ∧ wu.val = MAGIC_HOLE_CHAR)
    (hlen : holes.length ≤ maxIter.toNat) (hlog : printLog (prep ++ holes) ≠ []) :
    phPrepLoop size.toNat 0 (.replay ⟨printLog (prep ++ holes), false⟩)
        (ByteFile.empty.truncate size.toNat) [] =
      .ok (true, .replay ⟨printLog holes, holes.isEmpty⟩,
        applyUnits (ByteFile.empty.truncate size.toNat) prep, printLog prep) ∧
    punchHoles maxIter size (.replay ⟨printLog (prep ++ holes), false⟩) =
      .ok (applyUnits (ByteFile.empty.truncate size.toNat) (prep ++ holes),
        printLog (prep ++ holes)) := by
  have hphase := phPrepLoop_replay [] hsize (ByteFile.size_truncate ByteFile.empty _)
    hprepares hprep fun wu hwu => (hholes wu hwu).1
  have hkeep : (applyUnits (ByteFile.empty.truncate size.toNat) prep).size = size.toNat :=
    (applyUnits_spec (g := fun _ => none) (fun wu hwu => (hprep wu hwu).logged)
      (empty_truncate_byte _)).1
  rw [isEmpty_of_printLog hlog, List.nil_append] at hphase
  refine ⟨hphase, ?_⟩
  rw [punchHoles_eq _ _ _ hsize, hphase]
  simp only [bind, Except.bind]
  rw [punchLoop_replay hsize hkeep hholes hlen, ← applyUnits_append, ← printLog_append]

/-- Whatever a random run of either writer leaves is accepted by `verify_holes`
and written again by a replay of the log, record by record; the replayed prep
phase of `punch_holes` ends where the original one did. -/
theorem writers_agree (rb : Rebalance WriteUnit) (rs : List Rand) (size : UInt64) (f : ByteFile)
    (log : List Char) (hlog : log ≠ []) :
    (∀ o, fillHoles o size (.rand rs) = .ok (f, log) →
      verifyHoles rb f log = .code 0 ∧
      fillHoles { o with maxIter := UInt32.ofNat UINT_MAX } size (.replay ⟨log, false⟩) =
        .ok (f, log)) ∧
    (∀ maxIter, punchHoles maxIter size (.rand rs) = .ok (f, log) →
      verifyHoles rb f log = .code 0 ∧
      punchHoles (UInt32.ofNat UINT_MAX) size (.replay ⟨log, false⟩) = .ok (f, log) ∧
      ∃ prep holes rs' f', log = printLog (prep ++ holes) ∧
        phPrepLoop size.toNat 0 (.rand rs) (ByteFile.empty.truncate size.toNat) [] =
          .ok (true, .rand rs', f', printLog prep) ∧
        phPrepLoop size.toNat 0 (.replay ⟨log, false⟩) (ByteFile.empty.truncate size.toNat) [] =
          .ok (true, .replay ⟨printLog holes, holes.isEmpty⟩, f', printLog prep)) := by
  refine ⟨fun o h => fillHoles_agree rb h hlog, fun maxIter h => ?_⟩
  obtain ⟨prep, holes, rs', hsize, hprep, hprepares, hholes, hlen, hphase, rfl, rfl⟩ :=
    punchHoles_rand h
  obtain ⟨hreplayPhase, hreplay⟩ :=
    punchHoles_replay hsize hprep hprepares hholes (le_UINT_MAX hlen) hlog
  refine ⟨?_, hreplay, prep, holes, rs', _, rfl, hphase, hreplayPhase⟩
  exact verifyHoles_run rb hsize (Logged.append hprep hholes) (empty_truncate_byte _)

theorem phPrepWriteUnit_whole (rs : List Rand) :
    phPrepWriteUnit 3 (.rand (0 :: 0 :: 3 :: rs)) = .ok (some ⟨65, 0, 3⟩, .rand rs) := by
  rw [phPrepWriteUnit, phPrepRandWriteUnit, phDraw]
  simp [getRand, randChar, lessOne, cutLen, assertUnit, MAX_WRITE_SIZE, RAND_CHAR_START]

theorem phPrepWriteUnit_middle :
    phPrepWriteUnit 3 (.rand [0, 1, 1]) = .ok (some ⟨65, 1, 1⟩, .rand []) := by
  rw [phPrepWriteUnit, phPrepRandWriteUnit, phDraw]
  simp [getRand, randChar, lessOne, cutLen, assertUnit, MAX_WRITE_SIZE, RAND_CHAR_START]

theorem writers_agree_small :
    (∃ f log, fillHoles ⟨false, false, 1⟩ 10 (.rand [0, 2, 3]) = .ok (f, log) ∧ log ≠ [] ∧
      verifyHoles kernelRb f log = .code 0) ∧
    (∃ f log, punchHoles 1 3 (.rand [0, 0, 3, 0, 1, 1]) = .ok (f, log) ∧ log ≠ [] ∧
      verifyHoles kernelRb f log = .code 0) := by
  have hfill : fillHoles ⟨false, false, 1⟩ 10 (.rand [0, 2, 3]) =
      .ok (applyUnits (ByteFile.empty.truncate 10) [⟨65, 2, 3⟩], printLog [⟨65, 2, 3⟩]) := by
    refine fillHoles_ok_iff.mpr ⟨by decide, by decide, ?_⟩
    simp [fillLoop, fhPrepWriteUnit, fhPrepRandWriteUnit, fhDraw, randChar, getRand, lessOne, cutLen,
      assertUnit, MAX_WRITE_SIZE, RAND_CHAR_START, Source.eof, fillCtx, TWO_GIGA_BYTE,
      FillOpts.fileSize, bind, Except.bind, pure, Except.pure, fhDoWrite, doWrite, applyUnits,
      applyUnit, mapHole, MAGIC_HOLE_CHAR, printLog]
  have hpunch : punchHoles 1 3 (.rand [0, 0, 3, 0, 1, 1]) =
      .ok (applyUnits (ByteFile.empty.truncate 3) [⟨65, 0, 3⟩, ⟨64, 1, 1⟩],
        printLog [⟨65, 0, 3⟩, ⟨64, 1, 1⟩]) := by
    rw [punchHoles_eq _ _ _ (by decide)]
    have hdone (src : Source) (f : ByteFile) (log : List Char) :
        phPrepLoop 3 3 src f log = .ok (true, src, f, log) := by
      rw [phPrepLoop, if_neg (by decide)]
    have hprep : phPrepLoop 3 0 (.rand [0, 0, 3, 0, 1, 1]) (ByteFile.empty.truncate 3) [] =
        .ok (true, .rand [0, 1, 1], applyUnit (ByteFile.empty.truncate 3) ⟨65, 0, 3⟩,
          printUnit ⟨65, 0, 3⟩) := by
      have hunit : prepUnit 3 0 (.rand [0, 0, 3, 0, 1, 1]) ⟨65, 0, 3⟩ = ⟨65, 0, 3⟩ := by decide
      rw [phPrepLoop_step _ (by decide) (phPrepWriteUnit_whole [0, 1, 1]) hunit (by decide)
        (if_neg (by decide))]
      exact hdone _ _ _
    have hsize : (3 : UInt64).toNat = 3 := rfl
    have hiter : (1 : UInt32).toNat = 1 := rfl
    rw [hsize, hiter, hprep]
    simp only [bind, Except.bind, punchLoop, Source.eof, Bool.false_eq_true, if_false,
      phPrepWriteUnit_middle, if_true]
    rw [punchHole_eq rfl (by decide)]
    simp [applyUnits, printLog, MAGIC_HOLE_CHAR, RAND_CHAR_START]
  have hne : ∀ wu us, printLog (wu :: us) ≠ [] := by simp [printLog, printUnit]
  exact ⟨⟨_, _, hfill, hne _ _, ((writers_agree kernelRb _ _ _ _ (hne _ _)).1 _ hfill).1⟩,
    ⟨_, _, hpunch, hne _ _, ((writers_agree kernelRb _ _ _ _ (hne _ _)).2 _ hpunch).1⟩⟩

end Ocfs2Test.Holes
