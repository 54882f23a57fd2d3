import Ocfs2Test.Holes.ExitStatus

/-!
# The prep phase of punch_holes

`ph_prep_file` writes at `start`, and then adds to `start` the end of the write
and not its length. From the second write on it skips what it has written
before, and as many bytes again.
-/

namespace Ocfs2Test.Holes

open Lib Lib.Segment Lib.Stdio

/-- Writes one behind the other from `start` to the end of the file. -/
def Tiles (size : Nat) : Nat → List WriteUnit → Prop
  | start, [] => start = size
  | start, wu :: us => wu.off = start ∧ Tiles size (wu.off + wu.len) us

/-- The writes go from 0 to the end, and every byte is written once. -/
structure Populates (size : Nat) (units : List WriteUnit) : Prop where
  tiles : Tiles size 0 units
  once : ∀ pos < size, (units.countP fun wu => wu.Covers pos) = 1

section
variable {size start pos : Nat} {units : List WriteUnit}

theorem Tiles.le_off (h : Tiles size start units) : ∀ wu ∈ units, start ≤ wu.off := by
  induction units generalizing start with
  | nil => simp
  | cons wu us ih =>
    rw [List.forall_mem_cons]
    refine ⟨Nat.le_of_eq h.1.symm, fun u hu => ?_⟩
    have hle := ih h.2 u hu
    have hoff := h.1
    omega

theorem Tiles.once (h : Tiles size start units) (hlo : start ≤ pos) (hhi : pos < size) :
    (units.countP fun wu => wu.Covers pos) = 1 := by
  induction units generalizing start with
  | nil =>
    rw [Tiles] at h
    omega
  | cons wu us ih =>
    obtain ⟨hoff, hrest⟩ := h
    by_cases hcov : wu.Covers pos
    · have hnone : (us.countP fun wu => wu.Covers pos) = 0 := by
        rw [List.countP_eq_zero]
        intro u hu hc
        have hle := hrest.le_off u hu
        have hc' := of_decide_eq_true hc
        unfold Covers stop at hcov hc'
        omega
      simp only [List.countP_cons, hnone, hcov, decide_true, if_true]
    · simp only [List.countP_cons, hcov, decide_false, Bool.false_eq_true, if_false, Nat.add_zero]
      apply ih hrest
      unfold Covers stop at hcov
      omega

theorem prepRecords_rand {prepared : Status.Prepared} {p : Bool × Source} (hsize : size < 2 ^ 63)
    (hstart : start < size)
    (h : Status.prepRecords size start (.rand rs) = (units, prepared)) (hok : prepared = .ok p) :
    ∃ wu rs' us, phPrepRandWriteUnit size rs = .ok (wu, rs') ∧ 0 < wu.len ∧ wu.len ≤ size ∧
      units = { wu with off := start, len := min wu.len (size - start) } :: us ∧
      Status.prepRecords size (start + (start + min wu.len (size - start))) (.rand rs') =
        (us, prepared) := by
  rw [Status.prepRecords, if_pos hstart] at h
  split at h
  · cases h
    cases hok
  · next hprep =>
    obtain ⟨wu, rs', hnone, -, -⟩ := phPrepWriteUnit_rand hsize hprep
    cases hnone
  · next wu src' hprep =>
    obtain ⟨wu', rs', hsome, rfl, hdrawn⟩ := phPrepWriteUnit_rand hsize hprep
    cases hsome
    have hdraw : phPrepRandWriteUnit size rs = .ok (wu, rs') := by
      simp only [phPrepWriteUnit] at hprep
      split at hprep
      · cases hprep
      · next hd =>
        cases hprep
        exact hd
    have hpos := hdrawn.pos
    have hinside := hdrawn.inside
    have hmax := hdrawn.len
    have hcut : cutLen size start wu.len = min wu.len (size - start) := by
      simp only [MAX_WRITE_SIZE] at hmax
      unfold cutLen
      split <;> omega
    have hunit : prepUnit size start (.rand rs) wu =
        { wu with off := start, len := min wu.len (size - start) } := by
      rw [prepUnit, hcut]
    simp only [hunit, Source.drawn, true_and] at h
    rw [if_neg (by omega), if_neg (by omega), Nat.mod_eq_of_lt (by omega)] at h
    cases h
    refine ⟨wu, rs', _, hdraw, hpos, ?_, rfl, Prod.mk.eta.symm⟩
    unfold stop at hinside
    omega

theorem prepRecords_done (h : size ≤ start)
    (hrun : Status.prepRecords size start src = (units, prepared)) : units = [] := by
  rw [Status.prepRecords, if_neg (Nat.not_lt.mpr h)] at hrun
  exact (congrArg Prod.fst hrun).symm

end

/-- The first write, or the first two, take the whole file. -/
def TwoSuffice (size : Nat) (rs : List Rand) : Prop :=
  ∃ wu rs', phPrepRandWriteUnit size rs = .ok (wu, rs') ∧
    (wu.len = size ∨
      ∃ wu' rs'', phPrepRandWriteUnit size rs' = .ok (wu', rs'') ∧ size ≤ wu.len + wu'.len)

/-- The writes of a prep phase that ends populate the file when there are no more
than two of them. -/
theorem phPrepFile_populates_iff (size : UInt64) (rs : List Rand) (units : List WriteUnit)
    (p : Bool × Source) (hpos : 1 ≤ size.toNat) (hsize : size.toNat < 2 ^ 63)
    (h : Status.prepRecords size.toNat 0 (.rand rs) = (units, .ok p)) :
    Populates size.toNat units ↔ TwoSuffice size.toNat rs := by
  generalize size.toNat = n at *
  obtain ⟨wu, rs₁, us, hdraw, hlen, hle, rfl, hrest⟩ := prepRecords_rand hsize hpos h rfl
  rw [Nat.sub_zero, Nat.min_eq_left hle, Nat.zero_add, Nat.zero_add] at hrest
  rw [Nat.sub_zero, Nat.min_eq_left hle]
  have htiles (us : List WriteUnit) (ht : Tiles n wu.len us) :
      Populates n ({ wu with off := 0, len := wu.len } :: us) := by
    have ht' : Tiles n 0 ({ wu with off := 0, len := wu.len } :: us) := by
      refine ⟨rfl, ?_⟩
      rwa [Nat.zero_add]
    exact ⟨ht', fun pos hlt => ht'.once (Nat.zero_le pos) hlt⟩
  rcases Nat.eq_or_lt_of_le hle with hall | hlt
  · -- the first write is the only one
    obtain rfl := prepRecords_done (Nat.le_of_eq hall.symm) hrest
    exact iff_of_true (htiles [] hall) ⟨wu, rs₁, hdraw, .inl hall⟩
  · obtain ⟨wu₂, rs₂, us₂, hdraw₂, hlen₂, -, rfl, hrest₂⟩ := prepRecords_rand hsize hlt hrest rfl
    have htwo : TwoSuffice n rs ↔ n ≤ wu.len + wu₂.len := by
      constructor
      · rintro ⟨v, rs', hv, hsum⟩
        cases hdraw.symm.trans hv
        rcases hsum with heq | ⟨v', rs'', hv', hsum⟩
        · omega
        · cases hdraw₂.symm.trans hv'
          exact hsum
      · intro hsum
        exact ⟨wu, rs₁, hdraw, .inr ⟨wu₂, rs₂, hdraw₂, hsum⟩⟩
    rw [htwo]
    constructor
    · -- behind a second write that ends too early there is a gap
      intro hpop
      obtain ⟨-, -, hgap⟩ := hpop.tiles
      by_contra hshort
      cases us₂ with
      | nil =>
        rw [Tiles] at hgap
        simp only at hgap
        omega
      | cons wu₃ us₃ =>
        have hoff := hgap.1
        by_cases hmore : wu.len + (wu.len + min wu₂.len (n - wu.len)) < n
        · obtain ⟨v, rs₃, us, -, -, -, hcons, -⟩ := prepRecords_rand hsize hmore hrest₂ rfl
          cases hcons
          simp only at hoff
          omega
        · cases prepRecords_done (Nat.not_lt.mp hmore) hrest₂
    · intro hsum
      have hend : wu.len + min wu₂.len (n - wu.len) = n := by omega
      obtain rfl := prepRecords_done (by omega) hrest₂
      exact htiles _ ⟨rfl, hend⟩

theorem prepRecords_step {size start next : Nat} {rs rs' : List Rand} {wu : WriteUnit}
    (hstart : start < size) (hdraw : phPrepRandWriteUnit size rs = .ok (wu, rs'))
    (hlen : 0 < cutLen size start wu.len) (hmax : cutLen size start wu.len ≤ MAX_WRITE_SIZE)
    (hnext : (start + (start + cutLen size start wu.len)) % 2 ^ 64 = next) :
    Status.prepRecords size start (.rand rs) =
      ({ wu with off := start, len := cutLen size start wu.len } ::
        (Status.prepRecords size next (.rand rs')).1,
        (Status.prepRecords size next (.rand rs')).2) := by
  have hread : phPrepWriteUnit size (.rand rs) = .ok (some wu, .rand rs') := by
    rw [phPrepWriteUnit, hdraw]
  rw [Status.prepRecords, if_pos hstart]
  split
  · next h => cases hread.symm.trans h
  · next h => cases hread.symm.trans h
  · next h =>
    cases hread.symm.trans h
    simp only [prepUnit, hnext]
    rw [if_neg (fun h => Nat.ne_of_gt hlen h.2), if_neg (Nat.not_lt.mpr hmax)]

theorem prepRecords_end {size start : Nat} (h : size ≤ start) (src : Source) :
    Status.prepRecords size start src = ([], .ok (true, src)) := by
  rw [Status.prepRecords, if_neg (Nat.not_lt.mpr h)]

theorem phPrepRandWriteUnit_three {r : Rand} (hr : r = 1 ∨ r = 2) (rs : List Rand) :
    phPrepRandWriteUnit 3 (0 :: 0 :: r :: rs) = .ok (⟨65, 0, r.val⟩, rs) := by
  rw [phPrepRandWriteUnit, phDraw]
  rcases hr with rfl | rfl <;>
    simp [getRand, randChar, lessOne, cutLen, assertUnit, MAX_WRITE_SIZE, RAND_CHAR_START]

theorem prepRecords_cut :
    Status.prepRecords 3 0 (.rand [0, 0, 2, 0, 0, 2]) =
      ([⟨65, 0, 2⟩, ⟨65, 2, 1⟩], .ok (true, .rand [])) := by
  have hfirst : cutLen 3 0 (2 : Rand).val = 2 := by decide
  have hsecond : cutLen 3 2 (2 : Rand).val = 1 := by decide
  rw [prepRecords_step (by decide) (phPrepRandWriteUnit_three (.inr rfl) _) (by decide) (by decide)
      (by decide : _ = 2),
    prepRecords_step (by decide) (phPrepRandWriteUnit_three (.inr rfl) _) (by decide) (by decide)
      (by decide : _ = 5),
    hfirst, hsecond, prepRecords_end (by decide)]

theorem phPrepFile_populates_two :
    Populates 3 [⟨65, 0, 2⟩, ⟨65, 2, 1⟩] ↔ TwoSuffice 3 [0, 0, 2, 0, 0, 2] :=
  phPrepFile_populates_iff 3 [0, 0, 2, 0, 0, 2] [⟨65, 0, 2⟩, ⟨65, 2, 1⟩] (true, .rand [])
    (by decide) (by decide) prepRecords_cut

/-- Two writes of one byte each, at 0 and at 1, are taken for a file of three bytes. -/
theorem phPrepFile_three :
    ∃ rs units p, Status.prepRecords 3 0 (.rand rs) = (units, .ok p) ∧ ¬ Populates 3 units := by
  have hcut (start : Nat) (h : start < 2) : cutLen 3 start (1 : Rand).val = 1 := by
    interval_cases start <;> decide
  refine ⟨[0, 0, 1, 0, 0, 1], [⟨65, 0, 1⟩, ⟨65, 1, 1⟩], (true, .rand []), ?_, fun h => ?_⟩
  · rw [prepRecords_step (by decide) (phPrepRandWriteUnit_three (.inl rfl) _) (by decide)
        (by decide) (by decide : _ = 1),
      prepRecords_step (by decide) (phPrepRandWriteUnit_three (.inl rfl) _) (by decide)
        (by decide) (by decide : _ = 3),
      hcut 0 (by decide), hcut 1 (by decide), prepRecords_end (by decide)]
  · have hlast := h.once 2 (by decide)
    revert hlast
    decide

end Ocfs2Test.Holes
