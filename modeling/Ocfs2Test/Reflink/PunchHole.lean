import Ocfs2Test.Reflink.AtRandom

/-!
# The punch loop of verify_punch_hole_cow_test

A round skips a random number of bytes, punches a hole of a random length and goes
on behind it. The length is cut at the end of the file; that the skip has not gone
past it before is not checked.
-/

namespace Ocfs2Test.Reflink.PunchHole

open Lib.Stdio

structure Draws where
  skip : Rand
  len : Rand

structure Hole where
  offset : Nat
  len : Nat
  deriving DecidableEq

section
variable (fileSize clustersize : UInt64)

/-- The hole of a round that starts at `offset`, in 64 bits. -/
def hole (d : Draws) (offset : Nat) : Except AtRandom.Stop Hole := do
  let skip ← AtRandom.getRand 0 clustersize.toNat d.skip
  let offset := (offset + skip) % 2 ^ 64
  let len ← AtRandom.getRand clustersize.toNat (2 * clustersize.toNat % 2 ^ 64) d.len
  let len :=
    if (offset + len) % 2 ^ 64 > fileSize.toNat then (fileSize.toNat + 2 ^ 64 - offset) % 2 ^ 64
    else len
  return ⟨offset, len⟩

inductive Reaches (draws : Nat → Draws) : Nat → Nat → Prop
  | start : Reaches draws 0 0
  | next (h : Reaches draws k offset) (hlt : offset < fileSize.toNat)
      (hhole : hole fileSize clustersize (draws k) offset = .ok x) :
      Reaches draws (k + 1) ((x.offset + x.len) % 2 ^ 64)

/-- The numbers that a round draws, if its ranges do not wrap around. -/
def skipOf (d : Draws) : Nat := d.skip.val % (clustersize.toNat + 1)

def lenOf (d : Draws) : Nat := clustersize.toNat + d.len.val % (clustersize.toNat + 1)

/-- Every sum and difference of a round is the one of the numbers. -/
structure NoWrap (d : Draws) (offset : Nat) (x : Hole) : Prop where
  range : 2 * clustersize.toNat < 2 ^ 64
  skip : x.offset = offset + skipOf clustersize d
  len : x.offset + lenOf clustersize d < 2 ^ 64
  left : x.len = min (lenOf clustersize d) (fileSize.toNat - x.offset)
  advance : x.offset + x.len < 2 ^ 64

/-- Every hole is inside of the file, and the loop ends. -/
structure StaysInside (draws : Nat → Draws) : Prop where
  hole : ∀ k offset, Reaches fileSize clustersize draws k offset → offset < fileSize.toNat →
    ∃ x, hole fileSize clustersize (draws k) offset = .ok x ∧ x.offset ≤ fileSize.toNat ∧
      x.offset + x.len ≤ fileSize.toNat ∧ NoWrap fileSize clustersize (draws k) offset x
  ends : ∃ k offset, Reaches fileSize clustersize draws k offset ∧ fileSize.toNat ≤ offset

/-- No skip goes past the end of the file, and no length past the end of 64 bits. -/
structure Fits (draws : Nat → Draws) : Prop where
  range : clustersize.toNat < 2 ^ 63
  skip : ∀ k offset, Reaches fileSize clustersize draws k offset → offset < fileSize.toNat →
    skipOf clustersize (draws k) ≤ fileSize.toNat - offset
  len : ∀ k offset, Reaches fileSize clustersize draws k offset → offset < fileSize.toNat →
    offset + skipOf clustersize (draws k) + lenOf clustersize (draws k) < 2 ^ 64

end

section
variable {fileSize clustersize : UInt64} {draws : Nat → Draws}

theorem skipOf_le (clustersize : UInt64) (d : Draws) : skipOf clustersize d ≤ clustersize.toNat :=
  Nat.le_of_lt_succ (Nat.mod_lt _ (Nat.succ_pos _))

theorem le_lenOf (clustersize : UInt64) (d : Draws) : clustersize.toNat ≤ lenOf clustersize d :=
  Nat.le_add_right _ _

theorem lenOf_le (clustersize : UInt64) (d : Draws) :
    lenOf clustersize d ≤ 2 * clustersize.toNat := by
  have hlt : d.len.val % (clustersize.toNat + 1) < clustersize.toNat + 1 :=
    Nat.mod_lt _ (Nat.succ_pos _)
  rw [lenOf]
  omega

theorem hole_eq (hcs : 1 ≤ clustersize.toNat) (hrange : clustersize.toNat < 2 ^ 63) (d : Draws)
    (hskip : offset + skipOf clustersize d ≤ fileSize.toNat)
    (hlen : offset + skipOf clustersize d + lenOf clustersize d < 2 ^ 64) :
    hole fileSize clustersize d offset = .ok ⟨offset + skipOf clustersize d,
      min (lenOf clustersize d) (fileSize.toNat - (offset + skipOf clustersize d))⟩ := by
  have hfile := fileSize.toNat_lt
  have hle := lenOf_le clustersize d
  have hskipDraw : AtRandom.getRand 0 clustersize.toNat d.skip = .ok (skipOf clustersize d) := by
    have hn : (clustersize.toNat + 2 ^ 64 - 0 + 1) % 2 ^ 64 = clustersize.toNat + 1 := by omega
    rw [AtRandom.getRand, if_neg (by omega)]
    simp only [hn, if_neg (Nat.succ_ne_zero clustersize.toNat)]
    rw [Nat.zero_add, ← skipOf, Nat.mod_eq_of_lt (by omega)]
  have hlenDraw : AtRandom.getRand clustersize.toNat (2 * clustersize.toNat % 2 ^ 64) d.len =
      .ok (lenOf clustersize d) := by
    have hn : (2 * clustersize.toNat % 2 ^ 64 + 2 ^ 64 - clustersize.toNat + 1) % 2 ^ 64 =
        clustersize.toNat + 1 := by omega
    rw [AtRandom.getRand, if_neg (by omega)]
    simp only [hn, if_neg (Nat.succ_ne_zero clustersize.toNat)]
    rw [← lenOf, Nat.mod_eq_of_lt (by omega)]
  have hoffset : (offset + skipOf clustersize d) % 2 ^ 64 = offset + skipOf clustersize d :=
    Nat.mod_eq_of_lt (by omega)
  simp only [hole, hskipDraw, hlenDraw, bind, Except.bind, pure, Except.pure, hoffset,
    Nat.mod_eq_of_lt hlen]
  congr 2
  split <;> omega

theorem Fits.hole (h : Fits fileSize clustersize draws) (hcs : 1 ≤ clustersize.toNat)
    (hk : Reaches fileSize clustersize draws k offset) (hlt : offset < fileSize.toNat) :
    ∃ x, PunchHole.hole fileSize clustersize (draws k) offset = .ok x ∧
      x.offset ≤ fileSize.toNat ∧ x.offset + x.len ≤ fileSize.toNat ∧ offset < x.offset + x.len ∧
      NoWrap fileSize clustersize (draws k) offset x := by
  have hrange := h.range
  have hskip := h.skip k offset hk hlt
  have hlen := h.len k offset hk hlt
  have hle := le_lenOf clustersize (draws k)
  have hfile := fileSize.toNat_lt
  have hx := hole_eq hcs hrange (draws k) (show _ ≤ fileSize.toNat by omega) hlen
  refine ⟨_, hx, ?_, ?_, ?_, ⟨by omega, rfl, hlen, rfl, ?_⟩⟩
  all_goals simp only
  all_goals omega

theorem Fits.ends (h : Fits fileSize clustersize draws) (hcs : 1 ≤ clustersize.toNat)
    (hk : Reaches fileSize clustersize draws k offset) :
    ∃ k offset, Reaches fileSize clustersize draws k offset ∧ fileSize.toNat ≤ offset := by
  induction hm : fileSize.toNat - offset using Nat.strong_induction_on generalizing k offset with
  | _ m ih =>
    by_cases hlt : offset < fileSize.toNat
    · obtain ⟨x, hx, -, hle, hmore, hwrap⟩ := h.hole hcs hk hlt
      have hnext := Reaches.next hk hlt hx
      rw [Nat.mod_eq_of_lt hwrap.advance] at hnext
      exact ih _ (by omega) hnext rfl
    · exact ⟨k, offset, hk, Nat.not_lt.mp hlt⟩

theorem Fits.staysInside (h : Fits fileSize clustersize draws) (hcs : 1 ≤ clustersize.toNat) :
    StaysInside fileSize clustersize draws where
  hole k offset hk hlt := by
    obtain ⟨x, hx, hoffset, hle, -, hwrap⟩ := h.hole hcs hk hlt
    exact ⟨x, hx, hoffset, hle, hwrap⟩
  ends := h.ends hcs .start

theorem StaysInside.fits (h : StaysInside fileSize clustersize draws) (hfile : 1 ≤ fileSize.toNat) :
    Fits fileSize clustersize draws where
  range := by
    obtain ⟨x, -, -, -, hwrap⟩ := h.hole 0 0 .start hfile
    have := hwrap.range
    omega
  skip k offset hk hlt := by
    obtain ⟨x, -, hoffset, -, hwrap⟩ := h.hole k offset hk hlt
    have := hwrap.skip
    omega
  len k offset hk hlt := by
    obtain ⟨x, -, -, -, hwrap⟩ := h.hole k offset hk hlt
    rw [← hwrap.skip]
    exact hwrap.len

end

/-- The loop punches inside of the file and ends, if and only if no skip is longer
than what is left of the file, and 64 bits hold every sum. -/
theorem punchLoop_iff (fileSize clustersize : UInt64) (draws : Nat → Draws)
    (hfile : 1 ≤ fileSize.toNat) (hcs : 1 ≤ clustersize.toNat) :
    StaysInside fileSize clustersize draws ↔ Fits fileSize clustersize draws :=
  ⟨fun h => h.fits hfile, fun h => h.staysInside hcs⟩

/-- A file of one cluster and a bit, and skips of no byte and of a cluster. -/
def lastSkip (k : Nat) : Draws := if k = 0 then ⟨0, 0⟩ else ⟨4096, 0⟩

theorem lastSkip_reaches : Reaches 5000 4096 lastSkip 1 4096 :=
  Reaches.next (x := ⟨0, 4096⟩) .start (by decide) (by decide +kernel)

/-- The second hole starts behind the end of the file, and its length has wrapped
around. -/
theorem punchLoop_past_end :
    hole 5000 4096 (lastSkip 1) 4096 = .ok ⟨8192, 2 ^ 64 - 3192⟩ ∧
      ¬ StaysInside 5000 4096 lastSkip := by
  refine ⟨by decide +kernel, fun h => ?_⟩
  have hskip := (h.fits (by decide)).skip 1 4096 lastSkip_reaches (by decide)
  exact absurd hskip (by decide)

/-- A file that is punched in three rounds, the last one cut at its end. -/
theorem punchLoop_inside : StaysInside 10 4 (fun _ => ⟨0, 0⟩) ↔ Fits 10 4 fun _ => ⟨0, 0⟩ :=
  punchLoop_iff 10 4 _ (by decide) (by decide)

-- ---------------------------------------------------------------------------
-- Whatever is drawn
-- ---------------------------------------------------------------------------

section
variable {fileSize clustersize : UInt64} {draws : Nat → Draws}

theorem Reaches.uncut (h : Reaches fileSize clustersize draws k offset)
    (hcs : 1 ≤ clustersize.toNat) (hrange : clustersize.toNat < 2 ^ 63)
    (hle : offset + skipOf clustersize (draws k) + lenOf clustersize (draws k) ≤ fileSize.toNat) :
    Reaches fileSize clustersize draws (k + 1)
      (offset + skipOf clustersize (draws k) + lenOf clustersize (draws k)) := by
  have hfile := fileSize.toNat_lt
  have hlen := le_lenOf clustersize (draws k)
  have hx := hole_eq hcs hrange (draws k) (show offset + _ ≤ fileSize.toNat by omega) (by omega)
  have hnext := h.next (by omega) hx
  have hmin : min (lenOf clustersize (draws k))
      (fileSize.toNat - (offset + skipOf clustersize (draws k))) = lenOf clustersize (draws k) := by
    omega
  simp only [hmin] at hnext
  rwa [Nat.mod_eq_of_lt (by omega)] at hnext

/-- Where the clusters are larger than the file, the first skip may go past its end. -/
theorem exists_past_of_lt (hcs : clustersize.toNat < 2 ^ 31) (hlt : fileSize.toNat < clustersize.toNat)
    (hfile : 1 ≤ fileSize.toNat) : ∃ draws, ¬ Fits fileSize clustersize draws := by
  refine ⟨fun _ => ⟨⟨fileSize.toNat + 1, by omega⟩, 0⟩, fun h => ?_⟩
  have hskip := h.skip 0 0 .start hfile
  simp only [skipOf] at hskip
  rw [Nat.mod_eq_of_lt (by omega)] at hskip
  omega

/-- A file of some clusters and more may be punched up to its last byte, and the next
skip goes past that. -/
theorem exists_past_of_gt (hcs : 2 ≤ clustersize.toNat) (hmax : clustersize.toNat < 2 ^ 31)
    (hlt : clustersize.toNat < fileSize.toNat) : ∃ draws, ¬ Fits fileSize clustersize draws := by
  obtain ⟨q, hq⟩ : ∃ q, (fileSize.toNat - 1) / clustersize.toNat = q + 1 :=
    Nat.exists_eq_succ_of_ne_zero (Nat.div_pos (by omega) (by omega)).ne'
  have hdiv := Nat.div_add_mod (fileSize.toNat - 1) clustersize.toNat
  have hrest := Nat.mod_lt (fileSize.toNat - 1) (show 0 < clustersize.toNat by omega)
  generalize (fileSize.toNat - 1) % clustersize.toNat = rest at hdiv hrest
  rw [hq, Nat.mul_succ, Nat.mul_comm] at hdiv
  let draws (k : Nat) : Draws :=
    if k < q then ⟨0, 0⟩ else if k = q then ⟨⟨rest, by omega⟩, 0⟩ else ⟨⟨2, by decide⟩, 0⟩
  have hlen (k : Nat) : lenOf clustersize (draws k) = clustersize.toNat := by
    simp only [lenOf, draws]
    split <;> [skip; split] <;> simp
  refine ⟨draws, fun h => ?_⟩
  have hreach (k : Nat) (hk : k ≤ q) : Reaches fileSize clustersize draws k (k * clustersize.toNat) := by
    induction k with
    | zero => simpa using Reaches.start
    | succ k ih =>
      have hskip : skipOf clustersize (draws k) = 0 := by
        simp [skipOf, draws, show k < q by omega]
      have hmul := Nat.mul_le_mul_right clustersize.toNat hk
      rw [Nat.succ_mul] at hmul ⊢
      have := (ih (by omega)).uncut (by omega) (by omega) (by rw [hskip, hlen]; omega)
      rwa [hskip, hlen] at this
  have hskip : skipOf clustersize (draws q) = rest := by
    simp [skipOf, draws]
    omega
  have hlast := (hreach q (Nat.le_refl q)).uncut (by omega) (by omega) (by rw [hskip, hlen]; omega)
  rw [hskip, hlen] at hlast
  have htwo : skipOf clustersize (draws (q + 1)) = 2 := by
    simp [skipOf, draws]
    omega
  have := h.skip _ _ hlast (by omega)
  omega

theorem fits_of_one (hfile : fileSize.toNat < 2 ^ 63) (hcs : clustersize.toNat = 1) :
    Fits fileSize clustersize draws where
  range := by omega
  skip k offset _ hlt := by
    have := skipOf_le clustersize (draws k)
    omega
  len k offset _ hlt := by
    have hskip := skipOf_le clustersize (draws k)
    have hlen := lenOf_le clustersize (draws k)
    omega

theorem reaches_of_eq (hfile : fileSize.toNat < 2 ^ 62) (hpos : 1 ≤ fileSize.toNat)
    (hcs : clustersize.toNat = fileSize.toNat) (h : Reaches fileSize clustersize draws k offset) :
    offset = 0 ∨ offset = fileSize.toNat := by
  induction h with
  | start => exact .inl rfl
  | @next k offset x hk hlt hx ih =>
    obtain rfl : offset = 0 := by omega
    have hskip := skipOf_le clustersize (draws k)
    have hle := le_lenOf clustersize (draws k)
    have hlen := lenOf_le clustersize (draws k)
    have heq := hole_eq (by omega) (by omega) (draws k)
      (show 0 + skipOf clustersize (draws k) ≤ fileSize.toNat by omega) (by omega)
    rw [hx] at heq
    cases heq
    right
    simp only
    rw [Nat.mod_eq_of_lt (by omega)]
    omega

theorem fits_of_eq (hfile : fileSize.toNat < 2 ^ 62) (hpos : 1 ≤ fileSize.toNat)
    (hcs : clustersize.toNat = fileSize.toNat) : Fits fileSize clustersize draws where
  range := by omega
  skip k offset hk hlt := by
    have hskip := skipOf_le clustersize (draws k)
    rcases reaches_of_eq hfile hpos hcs hk with rfl | rfl
    · omega
    · exact absurd hlt (Nat.lt_irrefl _)
  len k offset hk hlt := by
    have hskip := skipOf_le clustersize (draws k)
    have hlen := lenOf_le clustersize (draws k)
    omega

/-- For every sequence of draws the loop stays inside of the file only where a cluster
is one byte, or the whole file. -/
theorem fits_forall_iff (hfile : 1 ≤ fileSize.toNat) (hmax : fileSize.toNat < 2 ^ 62)
    (hcs : 1 ≤ clustersize.toNat) (hcsMax : clustersize.toNat < 2 ^ 31) :
    (∀ draws, Fits fileSize clustersize draws) ↔
      clustersize.toNat = 1 ∨ clustersize.toNat = fileSize.toNat := by
  constructor
  · intro hall
    by_contra hne
    rw [not_or] at hne
    obtain ⟨draws, h⟩ : ∃ draws, ¬ Fits fileSize clustersize draws := by
      rcases Nat.lt_or_gt_of_ne hne.2 with hlt | hgt
      · exact exists_past_of_gt (by omega) hcsMax hlt
      · exact exists_past_of_lt hcsMax hgt hfile
    exact h (hall draws)
  · rintro (hone | heq) draws
    · exact fits_of_one (by omega) hone
    · exact fits_of_eq hmax hfile heq

end

end Ocfs2Test.Reflink.PunchHole
