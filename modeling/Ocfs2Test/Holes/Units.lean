import Ocfs2Test.Holes.ExitStatus

/-!
# The units of fill_holes

Above 2G the writer stays in one 2G for a number of calls and then goes on to
the next. What call number `t` draws depends on the state the calls before it
left, and that is known in advance.
-/

namespace Ocfs2Test.Holes

open Lib Lib.Stdio

/-- FILE with its SIZE, or with `-b` a device of so many sectors. -/
inductive Target
  | file (size : UInt64)
  | bdev (sectors : Fin (2 ^ 54))

/-- `file_size` behind `fh_parse_opts`. -/
def Target.fileSize (o : FillOpts) : Target → Nat
  | .file size => o.fileSize size
  | .bdev sectors => 512 * sectors.val

/-- `fh_parse_opts` takes the options, and nothing of `fh_prep_file` has to fail: a
size is an `off_t`, and a mapping is not empty. -/
def FillOpts.Ready (o : FillOpts) : Target → Prop
  | .file size => o.fileSize size < 2 ^ 63 ∧
    (o.useMmap = true → o.fileSize size ≤ TWO_GIGA_BYTE ∧ o.fileSize size ≠ 0)
  | .bdev _ => o.useMmap = false

/-- The records of a run without `-r`, and what ends it early. -/
def FillOpts.run (o : FillOpts) (t : Target) (rs : List Rand) : List WriteUnit × Option Stop :=
  Status.fillRecords o (fillCtx o (t.fileSize o)) (t.fileSize o) o.maxIter.toNat (.rand rs) {}

-- ---------------------------------------------------------------------------
-- The state of a call
-- ---------------------------------------------------------------------------

def FillCtx.stateAt (c : FillCtx) (t : Nat) : FillState :=
  if c.maxIterPerChunk = 0 then {}
  else ⟨t % (c.maxIterPerChunk + 1), t / (c.maxIterPerChunk + 1) * TWO_GIGA_BYTE⟩

def FillCtx.offsetAt (c : FillCtx) (t : Nat) : Nat := (c.stateAt t).curIterOffset

def FillCtx.maxRange (c : FillCtx) : Nat :=
  if c.maxIterPerChunk = 0 then lessOne 32 c.fileSize else TWO_GIGA_BYTE - 1

/-- A context for `total` calls in which no assertion has to fail. -/
structure Fits (c : FillCtx) (total : Nat) : Prop extends CtxOk c total where
  aligned : c.useDio = true → 512 ∣ c.fileSize
  small : c.maxIterPerChunk = 0 → 0 < c.fileSize ∧ c.fileSize ≤ TWO_GIGA_BYTE

section
variable {c : FillCtx} {total t : Nat}

theorem stateAt_zero : c.stateAt 0 = {} := by
  unfold FillCtx.stateAt
  split
  · rfl
  · simp

theorem offsetAt_small (h : c.maxIterPerChunk = 0) : c.offsetAt t = 0 := by
  rw [FillCtx.offsetAt, FillCtx.stateAt, if_pos h]

theorem offsetAt_big (h : c.maxIterPerChunk ≠ 0) :
    c.offsetAt t = t / (c.maxIterPerChunk + 1) * TWO_GIGA_BYTE := by
  rw [FillCtx.offsetAt, FillCtx.stateAt, if_neg h]

theorem CtxOk.window_lt (hc : CtxOk c total) (h : c.maxIterPerChunk ≠ 0) (ht : t ≤ total) :
    ∃ q, c.fileSize = q * TWO_GIGA_BYTE ∧ t / (c.maxIterPerChunk + 1) < q := by
  obtain ⟨q, hq, hlt⟩ := hc.chunks h
  refine ⟨q, hq, ?_⟩
  rw [Nat.div_lt_iff_lt_mul (Nat.succ_pos _), Nat.mul_comm]
  exact Nat.lt_of_le_of_lt ht hlt

theorem Fits.room (hc : Fits c total) (ht : t ≤ total) :
    c.offsetAt t + c.maxRange < c.fileSize := by
  by_cases h : c.maxIterPerChunk = 0
  · obtain ⟨hpos, hle⟩ := hc.small h
    rw [offsetAt_small h, FillCtx.maxRange, if_pos h, lessOne]
    simp only [TWO_GIGA_BYTE] at hle
    omega
  · obtain ⟨q, hq, hlt⟩ := hc.window_lt h ht
    rw [offsetAt_big h, FillCtx.maxRange, if_neg h, hq]
    have := Nat.mul_le_mul_right TWO_GIGA_BYTE (Nat.succ_le_of_lt hlt)
    rw [Nat.succ_mul] at this
    simp only [TWO_GIGA_BYTE] at this ⊢
    omega

theorem offsetAt_aligned : 512 ∣ c.offsetAt t := by
  by_cases h : c.maxIterPerChunk = 0
  · rw [offsetAt_small h]
    exact Nat.dvd_zero _
  · rw [offsetAt_big h]
    exact Nat.dvd_mul_left_of_dvd (by decide) _

theorem advance_stateAt (hc : CtxOk c total) (h : c.maxIterPerChunk ≠ 0) (ht : t + 1 ≤ total) :
    (c.stateAt t).advance c = c.stateAt (t + 1) := by
  obtain ⟨q, hq, hlt⟩ := hc.window_lt h ht
  have hwrap : (t + 1) / (c.maxIterPerChunk + 1) * TWO_GIGA_BYTE < 2 ^ 64 := by
    have hsize := hc.size
    have := Nat.mul_lt_mul_of_pos_right hlt (show 0 < TWO_GIGA_BYTE by decide)
    omega
  simp only [FillCtx.stateAt, if_neg h, FillState.advance]
  generalize hm : c.maxIterPerChunk = m at *
  have hdiv := Nat.div_add_mod t (m + 1)
  have hmod := Nat.mod_lt t (Nat.succ_pos m)
  split
  · next hcur =>
    -- the last call of this 2G
    have hnext : t + 1 = (m + 1) * (t / (m + 1) + 1) := by
      rw [Nat.mul_add, Nat.mul_one]
      omega
    have hquot : (t + 1) / (m + 1) = t / (m + 1) + 1 := by
      rw [hnext, Nat.mul_div_cancel_left _ (Nat.succ_pos m)]
    have hrest : (t + 1) % (m + 1) = 0 := by
      rw [hnext, Nat.mul_mod_right]
    rw [hquot, Nat.succ_mul] at hwrap
    rw [hquot, hrest, Nat.mod_eq_of_lt hwrap, Nat.succ_mul]
  · next hcur =>
    have hlow : t % (m + 1) + 1 < m + 1 :=
      Nat.succ_lt_succ (Nat.lt_of_le_of_ne (Nat.le_of_lt_succ hmod) hcur)
    have hnext : t + 1 = (t % (m + 1) + 1) + (m + 1) * (t / (m + 1)) := by omega
    have hquot : (t + 1) / (m + 1) = t / (m + 1) := by
      rw [hnext, Nat.add_mul_div_left _ _ (Nat.succ_pos m), Nat.div_eq_of_lt hlow, Nat.zero_add]
    have hrest : (t + 1) % (m + 1) = t % (m + 1) + 1 := by
      rw [hnext, Nat.add_mul_mod_self_left, Nat.mod_eq_of_lt hlow]
    rw [hquot, hrest]

end

-- ---------------------------------------------------------------------------
-- One call
-- ---------------------------------------------------------------------------

/-- What a call draws in the 2G at `base`. -/
structure Placed (c : FillCtx) (base maxRange : Nat) (wu : WriteUnit) : Prop
    extends Drawn c.fileSize wu where
  low : base ≤ wu.off
  high : c.useDio = false → wu.off ≤ base + maxRange
  sectors : c.useDio = true → 512 ∣ wu.off ∧ 512 ∣ wu.len

theorem getRand_error (h : getRand lo hi rs = .error e) : e = .starved := by
  unfold getRand at h
  split at h
  · cases h
  · cases rs with
    | nil =>
      cases h
      rfl
    | cons r rs => cases h

theorem getRand_le (h : getRand 0 hi rs = .ok (x, rs')) : x ≤ hi := by
  by_cases hhi : hi = 0
  · subst hhi
    cases h
    exact Nat.le_refl 0
  · exact Nat.le_of_lt ((getRand_zero h).2 hhi)

theorem randChar_cases (rs : List Rand) : randChar rs = .error .starved ∨
    ∃ char rs', randChar rs = .ok (char, rs') ∧ RAND_CHAR_START ≤ char ∧ char ≤ 122 := by
  unfold randChar
  split
  · next e h =>
    rw [getRand_error h]
    exact .inl rfl
  · next r rs' h =>
    have hlt := (getRand_zero h).2 (by decide)
    have hbyte : r.toUInt8.toNat = r := by
      rw [Nat.toUInt8_eq, UInt8.toNat_ofNat']
      omega
    refine .inr ⟨_, _, rfl, ?_, ?_⟩
    · simp only [RAND_CHAR_START, UInt8.le_iff_toNat_le, UInt8.toNat_add, hbyte, UInt8.reduceToNat]
      omega
    · simp only [RAND_CHAR_START, UInt8.le_iff_toNat_le, UInt8.toNat_add, hbyte, UInt8.reduceToNat]
      omega

theorem dvd_align (x : Nat) : 512 ∣ align x 512 := Nat.dvd_mul_left 512 _

theorem cutLen_eq {size off len : Nat} (hsize : size < 2 ^ 63) (hoff : off ≤ size)
    (hlen : len ≤ MAX_WRITE_SIZE) : cutLen size off len = min len (size - off) := by
  simp only [MAX_WRITE_SIZE] at hlen
  unfold cutLen
  split <;> omega

section
variable {c : FillCtx} {base maxRange : Nat}

/-- From the label `again` on no assertion fails. -/
theorem fhDraw_placed (hsize : c.fileSize < 2 ^ 63) (haligned : c.useDio = true → 512 ∣ c.fileSize)
    (hbase : 512 ∣ base) (hroom : base + maxRange < c.fileSize) (hlo : RAND_CHAR_START ≤ char)
    (hhi : char ≤ 122) (rs : List Rand) :
    fhDraw c maxRange base char rs = .error .starved ∨
      ∃ wu rs', fhDraw c maxRange base char rs = .ok (wu, rs') ∧ Placed c base maxRange wu := by
  fun_induction fhDraw c maxRange base char rs with
  | case1 rs e h =>
    rw [getRand_error h]
    exact .inl rfl
  | case2 rs r rs₁ h₁ e h₂ =>
    rw [getRand_error h₂]
    exact .inl rfl
  | case3 rs r rs₁ h₁ l rs₂ h₂ off len len' hlen ih => exact ih
  | case4 rs r rs₁ h₁ l rs₂ h₂ off len len' hlen =>
    have hr := getRand_le h₁
    have hr' := (getRand_zero h₁).1
    have hl := getRand_one h₂
    simp only [MAX_WRITE_SIZE] at hl
    have hr₂ := align_le (x := r) (n := 2 ^ 22) (by omega) (by decide)
    -- the offset is not behind the end of the file
    have hoff : off = (if c.useDio then align r 512 else r) + base := by
      refine Nat.mod_eq_of_lt ?_
      split <;> omega
    have hend : off ≤ c.fileSize := by
      rw [hoff]
      split
      · next hdio =>
        obtain ⟨k, hk⟩ := haligned hdio
        obtain ⟨b, hb⟩ := hbase
        have hround : align r 512 ≤ 512 * (k - b) := by
          unfold align
          omega
        omega
      · omega
    have hlen₁ : len = if c.useDio then align l 512 else l := by
      refine Nat.mod_eq_of_lt ?_
      split
      · have := align_le (x := l) (n := 64) (by omega) (by decide)
        omega
      · omega
    have hmax : len ≤ MAX_WRITE_SIZE := by
      rw [hlen₁]
      split
      · exact align_le (n := 64) (by omega) (by decide)
      · exact Nat.le_of_lt hl
    have hcut : len' = min len (c.fileSize - off) := cutLen_eq hsize hend hmax
    have hpos : 0 < len' := Nat.pos_of_ne_zero fun h => hlen (.inl h)
    refine .inr ⟨⟨char, off, len'⟩, rs₂, ?_, ⟨⟨hlo, hhi, hpos, ?_, ?_⟩, ?_, ?_, ?_⟩⟩
    · rw [assertUnit, if_neg]
      simp only [not_or, UInt8.not_lt, Nat.not_lt, gt_iff_lt]
      exact ⟨hlo, hhi, by omega, by omega⟩
    · simp only
      omega
    · simp only [Segment.stop]
      omega
    · simp only
      omega
    · intro hdio
      simp only [hoff, hdio]
      simp only [Bool.false_eq_true, if_false]
      omega
    · intro hdio
      have hoff' : 512 ∣ off := by
        rw [hoff, if_pos hdio]
        exact Nat.dvd_add (dvd_align r) hbase
      refine ⟨hoff', ?_⟩
      simp only [hcut]
      rcases Nat.le_total len (c.fileSize - off) with h | h
      · rw [Nat.min_eq_left h, hlen₁, if_pos hdio]
        exact dvd_align l
      · rw [Nat.min_eq_right h]
        exact Nat.dvd_sub (haligned hdio) hoff'

end

section
variable {c : FillCtx} {total t : Nat}

/-- Call `t + 1`: it draws in its 2G or finds no more numbers. -/
theorem fhPrepRandWriteUnit_cases (hc : Fits c total) (ht : t + 1 ≤ total) (rs : List Rand) :
    fhPrepRandWriteUnit c (c.stateAt t) rs = .error .starved ∨
      ∃ wu rs', fhPrepRandWriteUnit c (c.stateAt t) rs = .ok (wu, c.stateAt (t + 1), rs') ∧
        Placed c (c.offsetAt (t + 1)) c.maxRange wu := by
  have hroom := hc.room ht
  rcases randChar_cases rs with hchar | ⟨char, rs₁, hchar, hlo, hhi⟩
  · by_cases h : c.maxIterPerChunk = 0
    · have hle : ¬ c.fileSize > TWO_GIGA_BYTE := Nat.not_lt.mpr (hc.small h).2
      simp [fhPrepRandWriteUnit, h, hle, hchar, bind, Except.bind]
    · simp [fhPrepRandWriteUnit, h, hchar, bind, Except.bind]
  · have hdraw := fhDraw_placed hc.size hc.aligned (offsetAt_aligned (c := c) (t := t + 1)) hroom
      hlo hhi rs₁
    by_cases h : c.maxIterPerChunk = 0
    · have hle : ¬ c.fileSize > TWO_GIGA_BYTE := Nat.not_lt.mpr (hc.small h).2
      have hsame : c.stateAt (t + 1) = c.stateAt t := by
        simp only [FillCtx.stateAt, if_pos h]
      rw [FillCtx.offsetAt, hsame, FillCtx.maxRange, if_pos h] at hdraw
      rw [FillCtx.offsetAt, hsame, FillCtx.maxRange, if_pos h]
      rcases hdraw with hd | ⟨wu, rs', hd, hplaced⟩
      · simp [fhPrepRandWriteUnit, h, hle, hchar, hd, bind, Except.bind]
      · refine .inr ⟨wu, rs', ?_, hplaced⟩
        simp [fhPrepRandWriteUnit, h, hle, hchar, hd, bind, Except.bind, pure, Except.pure]
    · have hadv := advance_stateAt hc.toCtxOk h ht
      rw [FillCtx.maxRange, if_neg h, FillCtx.offsetAt] at hdraw
      rw [FillCtx.maxRange, if_neg h, FillCtx.offsetAt]
      rcases hdraw with hd | ⟨wu, rs', hd, hplaced⟩
      · simp [fhPrepRandWriteUnit, h, hchar, hadv, hd, bind, Except.bind]
      · refine .inr ⟨wu, rs', ?_, hplaced⟩
        simp [fhPrepRandWriteUnit, h, hchar, hadv, hd, bind, Except.bind, pure, Except.pure]

end

-- ---------------------------------------------------------------------------
-- All calls
-- ---------------------------------------------------------------------------

section
variable {o : FillOpts} {c : FillCtx} {total size : Nat}

theorem fillRecords_succ (n : Nat) (rs : List Rand) (st : FillState) :
    Status.fillRecords o c size (n + 1) (.rand rs) st =
      match fhPrepRandWriteUnit c st rs with
      | .error e => ([], some e)
      | .ok (wu, st, rs) =>
        if Status.Faults o.useMmap size wu then ([wu], some .crash)
        else
          (wu :: (Status.fillRecords o c size n (.rand rs) st).1,
            (Status.fillRecords o c size n (.rand rs) st).2) := by
  simp only [Status.fillRecords, Source.eof, Bool.false_eq_true, if_false, fhPrepWriteUnit]
  cases fhPrepRandWriteUnit c st rs with
  | error e => rfl
  | ok res => rfl

theorem Placed.not_faults (h : Placed c base maxRange wu) (hsize : c.fileSize ≤ size) :
    ¬ Status.Faults o.useMmap size wu := by
  have hinside := h.inside
  have hlen := h.len
  unfold Status.Faults
  split <;> omega

/-- From the state of `t` calls on, every call draws in its own 2G, up to the last
or to the end of the numbers. -/
theorem fillRecords_placed (hc : Fits c total) (hsize : c.fileSize ≤ size) (rs : List Rand)
    {n t : Nat} (ht : t + n ≤ total) {units : List WriteUnit} {ended : Option Stop}
    (h : Status.fillRecords o c size n (.rand rs) (c.stateAt t) = (units, ended)) :
    (ended = none ∧ units.length = n ∨ ended = some .starved) ∧
      ∀ k wu, units[k]? = some wu → Placed c (c.offsetAt (t + k + 1)) c.maxRange wu := by
  induction n generalizing rs t units ended with
  | zero =>
    cases h
    exact ⟨.inl ⟨rfl, rfl⟩, by simp⟩
  | succ n ih =>
    rw [fillRecords_succ] at h
    rcases fhPrepRandWriteUnit_cases hc (show t + 1 ≤ total by omega) rs with
      hprep | ⟨wu, rs', hprep, hplaced⟩
    · rw [hprep] at h
      cases h
      exact ⟨.inr rfl, by simp⟩
    · simp only [hprep, if_neg (hplaced.not_faults hsize)] at h
      obtain ⟨hend, hrest⟩ := ih rs' (t := t + 1) (by omega) Prod.mk.eta.symm
      cases h
      refine ⟨?_, fun k wu' hk => ?_⟩
      · rcases hend with ⟨hnone, hlen⟩ | hstarved
        · exact .inl ⟨hnone, congrArg Nat.succ hlen⟩
        · exact .inr hstarved
      · cases k with
        | zero =>
          cases hk
          exact hplaced
        | succ k =>
          rw [List.getElem?_cons_succ] at hk
          rw [show t + (k + 1) + 1 = t + 1 + k + 1 by omega]
          exact hrest k wu' hk

end

section
variable {o : FillOpts} {t : Target}

theorem Target.fileSize_lt (h : o.Ready t) : t.fileSize o < 2 ^ 63 := by
  cases t with
  | file size => exact h.1
  | bdev sectors =>
    have := sectors.isLt
    simp only [Target.fileSize]
    omega

theorem Target.fileSize_aligned (t : Target) (hdio : o.useDio = true) : 512 ∣ t.fileSize o := by
  cases t with
  | file size =>
    rw [Target.fileSize, FillOpts.fileSize, if_pos hdio, align]
    exact Nat.dvd_mul_left_of_dvd (by decide) _
  | bdev sectors => exact Nat.dvd_mul_right 512 _

theorem fillCtx_fits (hsize : fileSize < 2 ^ 63) (haligned : o.useDio = true → 512 ∣ fileSize)
    (hpos : 0 < fileSize)
    (hiter : TWO_GIGA_BYTE < fileSize → fileSize / TWO_GIGA_BYTE ≤ o.maxIter.toNat) :
    Fits (fillCtx o fileSize) o.maxIter.toNat := by
  refine ⟨fillCtx_ok hsize, ?_, ?_⟩
  · unfold fillCtx
    split
    · exact fun _ => Nat.dvd_mul_left_of_dvd (by decide) _
    · exact haligned
  · unfold fillCtx
    split
    · next hbig =>
      intro hzero
      have hq : 0 < fileSize / TWO_GIGA_BYTE := Nat.div_pos (Nat.le_of_lt hbig) (by decide)
      have := Nat.div_pos (hiter hbig) hq
      exact absurd hzero (Nat.ne_of_gt this)
    · next hsmall => exact fun _ => ⟨hpos, Nat.not_lt.mp hsmall⟩

theorem run_placed (hfits : Fits (fillCtx o (t.fileSize o)) o.maxIter.toNat) (rs : List Rand) :
    ((o.run t rs).2 = none ∧ (o.run t rs).1.length = o.maxIter.toNat ∨
        (o.run t rs).2 = some .starved) ∧
      ∀ k wu, (o.run t rs).1[k]? = some wu →
        Placed (fillCtx o (t.fileSize o)) ((fillCtx o (t.fileSize o)).offsetAt (k + 1))
          (fillCtx o (t.fileSize o)).maxRange wu := by
  have hrun : Status.fillRecords o (fillCtx o (t.fileSize o)) (t.fileSize o) o.maxIter.toNat
      (.rand rs) ((fillCtx o (t.fileSize o)).stateAt 0) = ((o.run t rs).1, (o.run t rs).2) := by
    rw [stateAt_zero]
    rfl
  obtain ⟨hend, hplaced⟩ := fillRecords_placed hfits fillCtx_fileSize_le rs
    (Nat.le_of_eq (Nat.zero_add _)) hrun
  refine ⟨hend, fun k wu hk => ?_⟩
  have hwu := hplaced k wu hk
  rwa [Nat.zero_add] at hwu

/-- What a unit has to be: `fileSize` is the one `main` works with. -/
structure Produced (o : FillOpts) (fileSize : Nat) (wu : WriteUnit) : Prop where
  pos : 1 ≤ wu.len
  len : wu.len ≤ MAX_WRITE_SIZE
  inside : wu.off + wu.len ≤ fileSize
  charStart : RAND_CHAR_START ≤ wu.val
  charEnd : wu.val ≤ 122
  sectors : o.useDio = true → 512 ∣ wu.off ∧ 512 ∣ wu.len

/-- No assertion fails in any run, and all units are right. -/
def UnitsOk (o : FillOpts) (t : Target) : Prop :=
  o.Ready t → ∀ rs, (o.run t rs).2 ≠ some .crash ∧
    ∀ wu ∈ (o.run t rs).1, Produced o (fillCtx o (t.fileSize o)).fileSize wu

theorem Placed.produced (h : Placed (fillCtx o fileSize) base maxRange wu) :
    Produced o (fillCtx o fileSize).fileSize wu := by
  have hdio : (fillCtx o fileSize).useDio = o.useDio := by
    unfold fillCtx
    split <;> rfl
  exact ⟨h.pos, h.len, h.inside, h.charStart, h.charEnd, fun hd => h.sectors (hdio.trans hd)⟩

theorem empty_crash (useDio : Bool) :
    fhPrepRandWriteUnit ⟨useDio, 0, 0⟩ {} [0, 1, 1] = .error .crash := by
  cases useDio <;>
    simp [fhPrepRandWriteUnit, randChar, getRand, fhDraw, lessOne, align, cutLen, assertUnit,
      MAX_WRITE_SIZE, bind, Except.bind]

theorem run_crash (hiter : o.maxIter ≠ 0)
    (h : fhPrepRandWriteUnit (fillCtx o (t.fileSize o)) {} rs = .error .crash) :
    (o.run t rs).2 = some .crash := by
  have hne : o.maxIter.toNat ≠ 0 := fun hzero => hiter (UInt32.toNat_inj.mp hzero)
  obtain ⟨n, hn⟩ := Nat.exists_eq_succ_of_ne_zero hne
  rw [FillOpts.run, hn, fillRecords_succ, h]

theorem few_crash (hbig : TWO_GIGA_BYTE < fileSize)
    (hfew : o.maxIter.toNat < fileSize / TWO_GIGA_BYTE) (hiter : o.maxIter ≠ 0) (rs : List Rand) :
    fhPrepRandWriteUnit (fillCtx o fileSize) {} rs = .error .crash := by
  have hone : 0 < o.maxIter.toNat := by
    rw [Nat.pos_iff_ne_zero]
    exact fun hzero => hiter (UInt32.toNat_inj.mp hzero)
  have hctx : fillCtx o fileSize = ⟨o.useDio, fileSize / TWO_GIGA_BYTE * TWO_GIGA_BYTE, 0⟩ := by
    simp only [fillCtx, if_pos hbig, Nat.div_eq_of_lt hfew]
  have hover : fileSize / TWO_GIGA_BYTE * TWO_GIGA_BYTE > TWO_GIGA_BYTE := by
    have := Nat.mul_le_mul_right TWO_GIGA_BYTE (show 2 ≤ fileSize / TWO_GIGA_BYTE by omega)
    simp only [TWO_GIGA_BYTE] at this ⊢
    omega
  rw [hctx]
  simp [fhPrepRandWriteUnit, hover, throw, throwThe, MonadExceptOf.throw]

end

/-- All runs of an option combination are right unless there are fewer iterations
than 2Gs, or the size has wrapped to zero. -/
theorem fillHoles_units_iff (o : FillOpts) (t : Target) : UnitsOk o t ↔
    (o.Ready t → o.maxIter = 0 ∨ 0 < t.fileSize o ∧
      (TWO_GIGA_BYTE < t.fileSize o → t.fileSize o / TWO_GIGA_BYTE ≤ o.maxIter.toNat)) := by
  constructor
  · intro h hready
    rw [or_iff_not_imp_left]
    intro hiter
    constructor
    · by_contra hzero
      have hctx : fillCtx o (t.fileSize o) = ⟨o.useDio, 0, 0⟩ := by
        rw [Nat.eq_zero_of_not_pos hzero]
        rfl
      exact (h hready [0, 1, 1]).1 (run_crash hiter (by rw [hctx, empty_crash]))
    · intro hbig
      by_contra hfew
      exact (h hready []).1 (run_crash hiter (few_crash hbig (Nat.not_le.mp hfew) hiter []))
  · intro h hready rs
    rcases h hready with hnone | ⟨hpos, hiter⟩
    · simp [FillOpts.run, hnone, Status.fillRecords]
    · have hfits := fillCtx_fits (Target.fileSize_lt hready) t.fileSize_aligned hpos hiter
      obtain ⟨hend, hplaced⟩ := run_placed hfits rs
      constructor
      · intro hcrash
        rw [hcrash] at hend
        simp at hend
      · intro wu hwu
        obtain ⟨k, hk, rfl⟩ := List.getElem_of_mem hwu
        exact (hplaced k _ (List.getElem?_eq_getElem hk)).produced

theorem fillHoles_one_iteration : ¬ UnitsOk ⟨false, false, 1⟩ (.file 4294967296) := by
  intro h
  have hready : FillOpts.Ready ⟨false, false, 1⟩ (.file 4294967296) := ⟨by decide, nofun⟩
  refine (h hready []).1 (run_crash (by decide) (few_crash ?_ ?_ (by decide) []))
  · decide
  · decide

end Ocfs2Test.Holes
