import Ocfs2Test.Holes.Units

/-!
# The share of each 2G

The usage text promises writes in the first 2G, then in the next, and so on. The
counter of the 2G is set back in the call that is already one of the next, so
all but the first get one more than their share and the last gets what is left.
-/

namespace Ocfs2Test.Holes

open Lib Lib.Stdio

def window (wu : WriteUnit) : Nat := wu.off / TWO_GIGA_BYTE

/-- Every 2G has its share, and they come in their order. -/
structure Covered (numChunks maxIter : Nat) (units : List WriteUnit) : Prop where
  share : ∀ w < numChunks, maxIter / numChunks ≤ units.countP fun wu => window wu = w
  ordered : (units.map window).Pairwise (· ≤ ·)

/-- Every run of all iterations on a file above 2G covers it. -/
def CoversWindows (o : FillOpts) (t : Target) : Prop :=
  o.Ready t → TWO_GIGA_BYTE < t.fileSize o → t.fileSize o / TWO_GIGA_BYTE ≤ o.maxIter.toNat →
    ∀ rs, (o.run t rs).2 = none →
      Covered (t.fileSize o / TWO_GIGA_BYTE) o.maxIter.toNat (o.run t rs).1

-- ---------------------------------------------------------------------------
-- Counting calls
-- ---------------------------------------------------------------------------

section
variable {n m w N : Nat}

theorem countP_range_between (N a b : Nat) :
    (List.range N).countP (fun k => a ≤ k ∧ k < b) = min N b - min N a := by
  induction N with
  | zero => simp
  | succ N ih =>
    rw [List.range_succ, List.countP_append, ih, List.countP_singleton]
    split
    · next h =>
      have := of_decide_eq_true h
      omega
    · next h =>
      have : ¬ (a ≤ N ∧ N < b) := by simpa using h
      omega

theorem countP_calls (N m w : Nat) :
    (List.range N).countP (fun k => (k + 1) / (m + 1) = w) =
      min N ((w + 1) * (m + 1) - 1) - min N (w * (m + 1) - 1) := by
  rw [← countP_range_between]
  refine List.countP_congr fun k _ => ?_
  simp only [decide_eq_true_eq]
  rw [Nat.div_eq_iff (Nat.succ_pos m), Nat.succ_mul]
  generalize w * (m + 1) = first
  omega

/-- The last 2G has its share when the calls that are left over are one or two
fewer than the 2Gs. -/
theorem shares_iff (hn : 0 < n) (hN : n ≤ N) :
    (∀ w < n, N / n ≤ (List.range N).countP fun k => (k + 1) / (N / n + 1) = w) ↔
      n ≤ N % n + 2 := by
  have hm := Nat.div_pos hN hn
  have hsum := Nat.div_add_mod N n
  have hr := Nat.mod_lt N hn
  generalize N / n = m at *
  generalize N % n = r at *
  obtain ⟨q, rfl⟩ : ∃ q, n = q + 1 := ⟨n - 1, by omega⟩
  simp only [countP_calls]
  rw [Nat.succ_mul] at hsum
  constructor
  · intro h
    have hlast := h q (Nat.lt_succ_self q)
    rw [Nat.succ_mul, Nat.mul_add q m 1] at hlast
    omega
  · intro h w hw
    have hle := Nat.mul_le_mul_right (m + 1) (Nat.le_of_lt_succ hw)
    rw [Nat.mul_add q m 1] at hle
    rw [Nat.succ_mul]
    rcases Nat.eq_zero_or_pos w with rfl | hpos
    · omega
    · have hlow := Nat.mul_le_mul_right (m + 1) hpos
      omega

end

-- ---------------------------------------------------------------------------
-- The 2Gs of a run
-- ---------------------------------------------------------------------------

section
variable {o : FillOpts} {t : Target}

theorem fillCtx_big (hbig : TWO_GIGA_BYTE < fileSize) : fillCtx o fileSize =
    ⟨o.useDio, fileSize / TWO_GIGA_BYTE * TWO_GIGA_BYTE,
      o.maxIter.toNat / (fileSize / TWO_GIGA_BYTE)⟩ := by
  simp only [fillCtx, if_pos hbig]

theorem windows_pos (hbig : TWO_GIGA_BYTE < fileSize) : 0 < fileSize / TWO_GIGA_BYTE :=
  Nat.div_pos (Nat.le_of_lt hbig) (by decide)

theorem ready_fits (hready : o.Ready t) (hbig : TWO_GIGA_BYTE < t.fileSize o)
    (hiter : t.fileSize o / TWO_GIGA_BYTE ≤ o.maxIter.toNat) :
    Fits (fillCtx o (t.fileSize o)) o.maxIter.toNat :=
  fillCtx_fits (Target.fileSize_lt hready) t.fileSize_aligned (Nat.zero_lt_of_lt hbig) fun _ => hiter

theorem offsetAt_window (hbig : TWO_GIGA_BYTE < fileSize)
    (hiter : fileSize / TWO_GIGA_BYTE ≤ o.maxIter.toNat) (k : Nat) :
    (fillCtx o fileSize).offsetAt k =
      k / (o.maxIter.toNat / (fileSize / TWO_GIGA_BYTE) + 1) * TWO_GIGA_BYTE := by
  have hm : (fillCtx o fileSize).maxIterPerChunk ≠ 0 := by
    rw [fillCtx_big hbig]
    exact Nat.ne_of_gt (Nat.div_pos hiter (windows_pos hbig))
  rw [offsetAt_big hm, fillCtx_big hbig]

theorem map_window (hready : o.Ready t) (hbig : TWO_GIGA_BYTE < t.fileSize o)
    (hiter : t.fileSize o / TWO_GIGA_BYTE ≤ o.maxIter.toNat) (hdio : o.useDio = false)
    {rs : List Rand} (hend : (o.run t rs).2 = none) :
    (o.run t rs).1.map window = (List.range o.maxIter.toNat).map fun k =>
      (k + 1) / (o.maxIter.toNat / (t.fileSize o / TWO_GIGA_BYTE) + 1) := by
  obtain ⟨hlen, hplaced⟩ := run_placed (ready_fits hready hbig hiter) rs
  have hlen' : (o.run t rs).1.length = o.maxIter.toNat := by
    rcases hlen with ⟨-, hlen⟩ | hstarved
    · exact hlen
    · rw [hend] at hstarved
      cases hstarved
  apply List.ext_getElem (by simp [hlen'])
  intro k hk hk'
  rw [List.length_map] at hk
  have hwu := hplaced k _ (List.getElem?_eq_getElem hk)
  have hlow := hwu.low
  have hhigh := hwu.high (by rw [fillCtx_big hbig]; exact hdio)
  have hrange : (fillCtx o (t.fileSize o)).maxRange ≤ TWO_GIGA_BYTE - 1 := by
    rw [FillCtx.maxRange, fillCtx_big hbig, if_neg]
    exact Nat.ne_of_gt (Nat.div_pos hiter (windows_pos hbig))
  rw [offsetAt_window hbig hiter] at hlow hhigh
  rw [List.getElem_map, List.getElem_map, List.getElem_range, window,
    Nat.div_eq_iff (by decide)]
  simp only [TWO_GIGA_BYTE] at *
  omega

/-- Without `-d` the numbers drawn make no difference. -/
theorem covered_iff (hready : o.Ready t) (hbig : TWO_GIGA_BYTE < t.fileSize o)
    (hiter : t.fileSize o / TWO_GIGA_BYTE ≤ o.maxIter.toNat) (hdio : o.useDio = false)
    {rs : List Rand} (hend : (o.run t rs).2 = none) :
    Covered (t.fileSize o / TWO_GIGA_BYTE) o.maxIter.toNat (o.run t rs).1 ↔
      t.fileSize o / TWO_GIGA_BYTE ≤ o.maxIter.toNat % (t.fileSize o / TWO_GIGA_BYTE) + 2 := by
  have hmap := map_window hready hbig hiter hdio hend
  have hcount (w : Nat) : ((o.run t rs).1.countP fun wu => window wu = w) =
      (List.range o.maxIter.toNat).countP fun k =>
        (k + 1) / (o.maxIter.toNat / (t.fileSize o / TWO_GIGA_BYTE) + 1) = w := by
    have h := congrArg (List.countP fun x => x = w) hmap
    rwa [List.countP_map, List.countP_map] at h
  rw [← shares_iff (windows_pos hbig) hiter]
  constructor
  · intro h w hw
    rw [← hcount]
    exact h.share w hw
  · intro h
    refine ⟨fun w hw => ?_, ?_⟩
    · rw [hcount]
      exact h w hw
    · rw [hmap, List.pairwise_map]
      refine List.pairwise_lt_range.imp fun hlt => ?_
      exact Nat.div_le_div_right (Nat.succ_le_succ (Nat.le_of_lt hlt))

theorem covered_one (hready : o.Ready t) (hbig : TWO_GIGA_BYTE < t.fileSize o)
    (hone : t.fileSize o / TWO_GIGA_BYTE = 1) (hiter : 1 ≤ o.maxIter.toNat)
    {rs : List Rand} (hend : (o.run t rs).2 = none) :
    Covered 1 o.maxIter.toNat (o.run t rs).1 := by
  obtain ⟨hlen, hplaced⟩ := run_placed (ready_fits hready hbig (by rwa [hone])) rs
  have hzero : ∀ wu ∈ (o.run t rs).1, window wu = 0 := by
    intro wu hwu
    obtain ⟨k, hk, rfl⟩ := List.getElem_of_mem hwu
    have hunit := hplaced k _ (List.getElem?_eq_getElem hk)
    have hpos := hunit.pos
    have hsize : (fillCtx o (t.fileSize o)).fileSize = TWO_GIGA_BYTE := by
      simp only [fillCtx_big hbig, hone, Nat.one_mul]
    have hinside : (o.run t rs).1[k].off + (o.run t rs).1[k].len ≤ TWO_GIGA_BYTE :=
      hsize ▸ hunit.inside
    exact Nat.div_eq_of_lt (by omega)
  refine ⟨fun w hw => ?_, ?_⟩
  · obtain rfl : w = 0 := by omega
    rw [List.countP_eq_length.mpr fun wu hwu => decide_eq_true (hzero wu hwu), Nat.div_one]
    rcases hlen with ⟨-, hlen⟩ | hstarved
    · exact Nat.le_of_eq hlen.symm
    · rw [hend] at hstarved
      cases hstarved
  · rw [List.pairwise_map]
    refine List.pairwise_of_forall_mem_list fun a ha b hb => ?_
    rw [hzero a ha]
    exact Nat.zero_le _

end

-- ---------------------------------------------------------------------------
-- Runs that exist
-- ---------------------------------------------------------------------------

/-- Numbers of which every call takes three: for the character, the offset and the
length. -/
def stream (ds : List Rand) : List Rand := ds.flatMap fun d => [0, d, 1]

/-- A number for the offset that is taken at the first go in call `t`. -/
structure Taken (c : FillCtx) (t : Nat) (d : Rand) : Prop where
  range : d.val < TWO_GIGA_BYTE - 1
  room : c.offsetAt t + d.val + 1024 ≤ c.fileSize

def unitAt (c : FillCtx) (t : Nat) (d : Rand) : WriteUnit :=
  ⟨RAND_CHAR_START, (if c.useDio then align d.val 512 else d.val) + c.offsetAt t,
    if c.useDio then 512 else 1⟩

section
variable {o : FillOpts} {c : FillCtx} {total size t : Nat}

theorem getRand_cons (d : Rand) (rs : List Rand) (hd : d.val < hi) :
    getRand 0 hi (d :: rs) = .ok (d.val, rs) := by
  have hlt := d.isLt
  have hx : (0 + (d.val % hi + 2 ^ 64 - 0)) % 2 ^ 64 = d.val := by
    rw [Nat.mod_eq_of_lt hd]
    omega
  rw [getRand, if_neg (by omega)]
  simp only [hx]

theorem fhDraw_taken (hsize : c.fileSize < 2 ^ 63) (hd : Taken c t d) (rs : List Rand) :
    fhDraw c (TWO_GIGA_BYTE - 1) (c.offsetAt t) RAND_CHAR_START (d :: 1 :: rs) =
      .ok (unitAt c t d, rs) := by
  have hone : getRand 1 MAX_WRITE_SIZE (1 :: rs) = .ok (1, rs) := rfl
  have hroom := hd.room
  have hlt := d.isLt
  have hround : align d.val 512 < d.val + 512 := by
    unfold align
    omega
  have hlen : align 1 512 = 512 := by decide
  rw [fhDraw]
  split
  · next h => rw [getRand_cons d _ hd.range] at h; cases h
  · next r rs₁ h =>
    rw [getRand_cons d _ hd.range] at h
    cases h
    split
    · next h => rw [hone] at h; cases h
    · next l rs₂ h =>
      rw [hone] at h
      cases h
      cases hdio : c.useDio with
      | true =>
        have hoff : (align d.val 512 + c.offsetAt t) % 2 ^ 64 = align d.val 512 + c.offsetAt t :=
          Nat.mod_eq_of_lt (by omega)
        have hcut : cutLen c.fileSize (align d.val 512 + c.offsetAt t) (512 % 2 ^ 32) = 512 := by
          rw [cutLen_eq hsize (by omega) (by decide)]
          omega
        simp [-Nat.reducePow, hlen, hoff, hcut, unitAt, hdio, assertUnit, RAND_CHAR_START, MAX_WRITE_SIZE]
      | false =>
        have hoff : (d.val + c.offsetAt t) % 2 ^ 64 = d.val + c.offsetAt t :=
          Nat.mod_eq_of_lt (by omega)
        have hcut : cutLen c.fileSize (d.val + c.offsetAt t) 1 = 1 := by
          rw [cutLen_eq hsize (by omega) (by decide)]
          omega
        simp [-Nat.reducePow, hoff, hcut, unitAt, hdio, assertUnit, RAND_CHAR_START, MAX_WRITE_SIZE]

theorem fhPrepRandWriteUnit_taken (hc : Fits c total) (hm : c.maxIterPerChunk ≠ 0)
    (ht : t + 1 ≤ total) (hd : Taken c (t + 1) d) (rs : List Rand) :
    fhPrepRandWriteUnit c (c.stateAt t) (0 :: d :: 1 :: rs) =
      .ok (unitAt c (t + 1) d, c.stateAt (t + 1), rs) := by
  have hchar : randChar (0 :: d :: 1 :: rs) = .ok (RAND_CHAR_START, d :: 1 :: rs) := rfl
  have hdraw := fhDraw_taken hc.size hd rs
  rw [FillCtx.offsetAt] at hdraw
  simp [fhPrepRandWriteUnit, hm, hchar, advance_stateAt hc.toCtxOk hm ht, hdraw, bind, Except.bind,
    pure, Except.pure]

theorem fillRecords_stream (hc : Fits c total) (hm : c.maxIterPerChunk ≠ 0)
    (hsize : c.fileSize ≤ size) {ds : List Rand} (ht : t + ds.length ≤ total)
    (htaken : ∀ k d, ds[k]? = some d → Taken c (t + k + 1) d) :
    (Status.fillRecords o c size ds.length (.rand (stream ds)) (c.stateAt t)).2 = none ∧
      ∀ d ∈ ds.head?, ∃ rest,
        (Status.fillRecords o c size ds.length (.rand (stream ds)) (c.stateAt t)).1 =
          unitAt c (t + 1) d :: rest := by
  induction ds generalizing t with
  | nil => exact ⟨rfl, by simp⟩
  | cons d ds ih =>
    rw [List.length_cons] at ht
    have hd := htaken 0 d rfl
    have hprep := fhPrepRandWriteUnit_taken hc hm (by omega) hd (stream ds)
    have hplaced : Placed c (c.offsetAt (t + 1)) c.maxRange (unitAt c (t + 1) d) := by
      rcases fhPrepRandWriteUnit_cases hc (show t + 1 ≤ total by omega)
        (0 :: d :: 1 :: stream ds) with h | ⟨wu, rs', h, hwu⟩
      · rw [hprep] at h
        cases h
      · rw [hprep] at h
        cases h
        exact hwu
    have hstream : stream (d :: ds) = 0 :: d :: 1 :: stream ds := rfl
    rw [hstream, List.length_cons, fillRecords_succ]
    simp only [hprep, if_neg (hplaced.not_faults hsize)]
    have hrest := ih (t := t + 1) (by omega) fun k x hk => by
      have hx := htaken (k + 1) x (by rwa [List.getElem?_cons_succ])
      rwa [show t + (k + 1) + 1 = t + 1 + k + 1 by omega] at hx
    refine ⟨hrest.1, ?_⟩
    simp

end

section
variable {o : FillOpts} {t : Target}

theorem run_stream (hready : o.Ready t) (hbig : TWO_GIGA_BYTE < t.fileSize o)
    (hiter : t.fileSize o / TWO_GIGA_BYTE ≤ o.maxIter.toNat) {ds : List Rand}
    (hlen : ds.length = o.maxIter.toNat)
    (htaken : ∀ k d, ds[k]? = some d → Taken (fillCtx o (t.fileSize o)) (k + 1) d) :
    (o.run t (stream ds)).2 = none ∧ ∀ d ∈ ds.head?, ∃ rest,
      (o.run t (stream ds)).1 = unitAt (fillCtx o (t.fileSize o)) 1 d :: rest := by
  have hm : (fillCtx o (t.fileSize o)).maxIterPerChunk ≠ 0 := by
    rw [fillCtx_big hbig]
    exact Nat.ne_of_gt (Nat.div_pos hiter (windows_pos hbig))
  have h := @fillRecords_stream o _ _ _ 0 (ready_fits hready hbig hiter) hm fillCtx_fileSize_le ds
    (by omega) fun k d hk => by
      rw [Nat.zero_add]
      exact htaken k d hk
  rw [stateAt_zero, hlen] at h
  exact h

theorem taken_zero (hready : o.Ready t) (hbig : TWO_GIGA_BYTE < t.fileSize o)
    (hiter : t.fileSize o / TWO_GIGA_BYTE ≤ o.maxIter.toNat) (hk : k ≤ o.maxIter.toNat) :
    Taken (fillCtx o (t.fileSize o)) k 0 := by
  have hroom := (ready_fits hready hbig hiter).room hk
  have hrange : (fillCtx o (t.fileSize o)).maxRange = TWO_GIGA_BYTE - 1 := by
    rw [FillCtx.maxRange, fillCtx_big hbig, if_neg]
    exact Nat.ne_of_gt (Nat.div_pos hiter (windows_pos hbig))
  rw [hrange] at hroom
  simp only [TWO_GIGA_BYTE] at hroom
  refine ⟨by decide, ?_⟩
  simp only [Fin.val_zero]
  omega

/-- The greatest number for an offset, which `ALIGN` takes to the next 2G. -/
def lastDraw : Rand := ⟨2147483646, by decide⟩

theorem few_early {units : List WriteUnit} (hm : 0 < m)
    (hlow : ∀ k wu, units[k]? = some wu → (k + 1 + 1) / (m + 1) * TWO_GIGA_BYTE ≤ wu.off) :
    (units.countP fun wu => window wu = 0) ≤ m - 1 := by
  have hlate : ((units.drop (m - 1)).countP fun wu => window wu = 0) = 0 := by
    rw [List.countP_eq_zero]
    intro wu hwu hzero
    obtain ⟨k, hk⟩ := List.getElem?_of_mem hwu
    rw [List.getElem?_drop] at hk
    have hquot : 1 ≤ (m - 1 + k + 1 + 1) / (m + 1) := by
      rw [Nat.le_div_iff_mul_le (Nat.succ_pos m)]
      omega
    have hnext := Nat.le_trans (Nat.mul_le_mul_right TWO_GIGA_BYTE hquot) (hlow _ wu hk)
    rw [decide_eq_true_eq, window, Nat.div_eq_zero_iff_lt (by decide)] at hzero
    omega
  have hearly : ((units.take (m - 1)).countP fun wu => window wu = 0) ≤ m - 1 := by
    refine Nat.le_trans List.countP_le_length ?_
    rw [List.length_take]
    exact Nat.min_le_left _ _
  rw [← List.take_append_drop (m - 1) units, List.countP_append, hlate]
  exact hearly

/-- With `-d` a unit of the first 2G may begin in the second. -/
theorem not_covered_dio (hready : o.Ready t) (hbig : TWO_GIGA_BYTE < t.fileSize o)
    (hiter : t.fileSize o / TWO_GIGA_BYTE ≤ o.maxIter.toNat) (hdio : o.useDio = true)
    (htwo : 2 ≤ t.fileSize o / TWO_GIGA_BYTE) :
    ∃ rs, (o.run t rs).2 = none ∧
      ¬ Covered (t.fileSize o / TWO_GIGA_BYTE) o.maxIter.toNat (o.run t rs).1 := by
  have hshare := Nat.div_pos hiter (windows_pos hbig)
  have hbegin : (fillCtx o (t.fileSize o)).offsetAt 1 = 0 := by
    rw [offsetAt_window hbig hiter, Nat.div_eq_of_lt (Nat.succ_lt_succ hshare), Nat.zero_mul]
  obtain ⟨n, hn⟩ : ∃ n, o.maxIter.toNat = n + 1 := ⟨o.maxIter.toNat - 1, by omega⟩
  have hlen : (lastDraw :: List.replicate n 0).length = o.maxIter.toNat := by simp [hn]
  have hrun := run_stream hready hbig hiter hlen fun k d hk => by
    cases k with
    | zero =>
      cases hk
      refine ⟨by decide, ?_⟩
      have := Nat.mul_le_mul_right TWO_GIGA_BYTE htwo
      rw [hbegin, fillCtx_big hbig]
      simp only [TWO_GIGA_BYTE] at this
      simp only [lastDraw, TWO_GIGA_BYTE]
      omega
    | succ k =>
      rw [List.getElem?_cons_succ] at hk
      obtain ⟨hk', rfl⟩ := List.getElem?_eq_some_iff.mp hk
      rw [List.length_replicate] at hk'
      rw [List.getElem_replicate]
      exact taken_zero hready hbig hiter (by omega)
  refine ⟨_, hrun.1, fun hcov => ?_⟩
  obtain ⟨rest, hunits⟩ := hrun.2 lastDraw rfl
  obtain ⟨-, hplaced⟩ := run_placed (ready_fits hready hbig hiter)
    (stream (lastDraw :: List.replicate n 0))
  rw [hunits] at hplaced
  have hfirst : window (unitAt (fillCtx o (t.fileSize o)) 1 lastDraw) = 1 := by
    have hd : (fillCtx o (t.fileSize o)).useDio = true := by
      rw [fillCtx_big hbig]
      exact hdio
    rw [window, unitAt, hbegin]
    simp only [hd, if_true]
    decide
  have hcount := hcov.share 0 (windows_pos hbig)
  rw [hunits, List.countP_cons_of_neg (by simp [hfirst])] at hcount
  generalize hm : o.maxIter.toNat / (t.fileSize o / TWO_GIGA_BYTE) = m at *
  have hfew := few_early hshare fun k wu hk => by
    have hlow := (hplaced (k + 1) wu (by rwa [List.getElem?_cons_succ])).low
    rwa [offsetAt_window hbig hiter, hm] at hlow
  omega

end

/-- All runs cover the file when at most one iteration fewer than 2Gs less one is
left over, and nothing is aligned across two 2Gs. -/
theorem fillHoles_covers_iff (o : FillOpts) (t : Target) : CoversWindows o t ↔
    (o.Ready t → TWO_GIGA_BYTE < t.fileSize o →
      t.fileSize o / TWO_GIGA_BYTE ≤ o.maxIter.toNat →
        t.fileSize o / TWO_GIGA_BYTE ≤ o.maxIter.toNat % (t.fileSize o / TWO_GIGA_BYTE) + 2 ∧
          (o.useDio = true → t.fileSize o / TWO_GIGA_BYTE = 1)) := by
  constructor
  · intro h hready hbig hiter
    have hone : o.useDio = true → t.fileSize o / TWO_GIGA_BYTE = 1 := by
      intro hdio
      by_contra hne
      have hpos := windows_pos hbig
      obtain ⟨rs, hend, hnot⟩ := not_covered_dio hready hbig hiter hdio (by omega)
      exact hnot (h hready hbig hiter rs hend)
    refine ⟨?_, hone⟩
    cases hdio : o.useDio with
    | true =>
      rw [hone hdio]
      omega
    | false =>
      have hlen : (List.replicate o.maxIter.toNat (0 : Rand)).length = o.maxIter.toNat :=
        List.length_replicate
      have hrun := run_stream hready hbig hiter hlen fun k d hk => by
        obtain ⟨hk', rfl⟩ := List.getElem?_eq_some_iff.mp hk
        rw [List.getElem_replicate]
        exact taken_zero hready hbig hiter (by rw [hlen] at hk'; omega)
      exact (covered_iff hready hbig hiter hdio hrun.1).mp (h hready hbig hiter _ hrun.1)
  · intro h hready hbig hiter rs hend
    obtain ⟨hleft, hone⟩ := h hready hbig hiter
    cases hdio : o.useDio with
    | true =>
      have hq := hone hdio
      rw [hq] at hiter ⊢
      exact covered_one hready hbig hq hiter hend
    | false => exact (covered_iff hready hbig hiter hdio hend).mpr hleft

/-- Three 2Gs and three iterations: the last 2G has none. -/
theorem fillHoles_three_iterations : ¬ CoversWindows ⟨false, false, 3⟩ (.file 6442450944) := by
  intro h
  have hready : FillOpts.Ready ⟨false, false, 3⟩ (.file 6442450944) := ⟨by decide, nofun⟩
  have hbig : TWO_GIGA_BYTE < Target.fileSize ⟨false, false, 3⟩ (.file 6442450944) := by decide
  have hiter : Target.fileSize ⟨false, false, 3⟩ (.file 6442450944) / TWO_GIGA_BYTE ≤
      (FillOpts.mk false false 3).maxIter.toNat := by decide
  have hlen : (List.replicate 3 (0 : Rand)).length = (FillOpts.mk false false 3).maxIter.toNat := rfl
  have hrun := run_stream hready hbig hiter hlen fun k d hk => by
    obtain ⟨hk', rfl⟩ := List.getElem?_eq_some_iff.mp hk
    rw [List.getElem_replicate]
    exact taken_zero hready hbig hiter (by rw [hlen] at hk'; omega)
  have hcov := (covered_iff hready hbig hiter rfl hrun.1).mp (h hready hbig hiter _ hrun.1)
  exact absurd hcov (by decide)

end Ocfs2Test.Holes
