import Ocfs2Test.Lib.Stdio

/-!
# The size of the file of test_truncate

`create_file` counts the clusters in base `e`, the number of records in an extent block:
two full records in the root, and at each level a random digit. One cluster to a record
gives a root with three records. The count and the file size are formed in 32 bits.
-/

namespace Ocfs2Test.TestTruncate

open Lib Lib.Stdio

-- ---------------------------------------------------------------------------
-- create_file
-- ---------------------------------------------------------------------------

section
variable (rand : Nat → Rand)

/-- `get_rand`, and the next random number. -/
def getRand (min max : Int) (k : Nat) : Int × Nat :=
  if min = max then (min, k) else (min + ((rand k).val : Int).tmod (max - min), k + 1)

/-- `while (tree_depth--)`. -/
def growTree (extRecPerEb : UInt32) : Nat → UInt32 → Nat → UInt32
  | 0, clusters, _ => clusters
  | treeDepth + 1, clusters, k =>
    let randomRecInLastEb := getRand rand 1 extRecPerEb.toNat k
    growTree extRecPerEb treeDepth
      (clusters * extRecPerEb + UInt32.ofInt randomRecInLastEb.1) randomRecInLastEb.2

/-- `create_file` when all calls succeed: the clusters that are allocated, and `i_size`. -/
def createFile (extRecPerInode extRecPerEb clustersize : UInt32) (treeDepth : Nat) :
    Option (UInt32 × UInt64) :=
  let randomRecInDinode := getRand rand 1 extRecPerInode.toNat 0
  let clusters :=
    if treeDepth = 0 then UInt32.ofInt randomRecInDinode.1
    else growTree rand extRecPerEb treeDepth 2 randomRecInDinode.2
  if clusters = 0 then none else some (clusters, (clusters * clustersize).toUInt64)

-- ---------------------------------------------------------------------------
-- Exact numbers
-- ---------------------------------------------------------------------------

def digit (e k : Nat) : Nat := 1 + (rand k).val % (e - 1)

/-- The digits of `n` levels from random number `k` on, the highest first. -/
def digits (e : Nat) (n k : Nat) : List Nat := (List.range' k n).map (digit rand e)

/-- No step of the loop exceeds 32 bits. -/
def NoWrap (e : Nat) : Nat → Nat → Nat → Prop
  | 0, _, _ => True
  | n + 1, c, k => c * e < 2 ^ 32 ∧ c * e + digit rand e k < 2 ^ 32 ∧
      NoWrap e n (c * e + digit rand e k) (k + 1)

def firstDigit (extRecPerInode : UInt32) : Nat := (getRand rand 1 extRecPerInode.toNat 0).2

end

/-- What a tree of depth `treeDepth` with three root records needs, and a size that fits. -/
structure Meets (rand : Nat → Rand) (extRecPerInode extRecPerEb clustersize : UInt32)
    (treeDepth : Nat) (clusters : UInt32) (iSize : UInt64) : Prop where
  noWrap : NoWrap rand extRecPerEb.toNat treeDepth 2 (firstDigit rand extRecPerInode)
  above : 2 * extRecPerEb.toNat ^ treeDepth < clusters.toNat
  below : clusters.toNat ≤ 3 * extRecPerEb.toNat ^ treeDepth - 1
  roots : clusters.toNat ⌈/⌉ extRecPerEb.toNat ^ treeDepth = 3
  product : clusters.toNat * clustersize.toNat < 2 ^ 32
  iSize : iSize.toNat = clusters.toNat * clustersize.toNat

/-- The count with the leading digit 2, exactly. -/
def count (rand : Nat → Rand) (extRecPerInode extRecPerEb : UInt32) (treeDepth : Nat) : Nat :=
  2 * extRecPerEb.toNat ^ treeDepth +
    Nat.ofDigits extRecPerEb.toNat
      (digits rand extRecPerEb.toNat treeDepth (firstDigit rand extRecPerInode)).reverse

-- ---------------------------------------------------------------------------
-- Digits
-- ---------------------------------------------------------------------------

section
variable {rand : Nat → Rand} {e n c k : Nat}

theorem digit_lt (he : 2 ≤ e) : digit rand e k < e := by
  have := Nat.mod_lt (rand k).val (show 0 < e - 1 by omega)
  rw [digit]
  omega

theorem digits_succ (e n k : Nat) :
    digits rand e (n + 1) k = digit rand e k :: digits rand e n (k + 1) := by
  rw [digits, List.range'_succ, List.map_cons, digits]

theorem ofDigits_succ (e n k : Nat) :
    Nat.ofDigits e (digits rand e (n + 1) k).reverse =
      Nat.ofDigits e (digits rand e n (k + 1)).reverse + e ^ n * digit rand e k := by
  rw [digits_succ, List.reverse_cons, Nat.ofDigits_append, List.length_reverse,
    Nat.ofDigits_singleton, digits, List.length_map, List.length_range']

theorem ofDigits_pos (rand : Nat → Rand) (he : 2 ≤ e) (hn : n ≠ 0) (k : Nat) :
    0 < Nat.ofDigits e (digits rand e n k).reverse := by
  obtain ⟨n, rfl⟩ := Nat.exists_eq_succ_of_ne_zero hn
  have hpos : 0 < e ^ n * digit rand e k :=
    Nat.mul_pos (Nat.pow_pos (by omega)) (by rw [digit]; omega)
  rw [Nat.succ_eq_add_one, ofDigits_succ]
  omega

theorem ofDigits_lt (rand : Nat → Rand) (he : 2 ≤ e) (n k : Nat) :
    Nat.ofDigits e (digits rand e n k).reverse < e ^ n := by
  have hlen : (digits rand e n k).reverse.length = n := by
    rw [List.length_reverse, digits, List.length_map, List.length_range']
  have hlt := Nat.ofDigits_lt_base_pow_length (l := (digits rand e n k).reverse) he ?_
  · rw [hlen] at hlt
    exact hlt
  · intro d hd
    rw [List.mem_reverse, digits, List.mem_map] at hd
    obtain ⟨j, -, rfl⟩ := hd
    exact digit_lt he

theorem getRand_digit (he : 2 ≤ e) (k : Nat) :
    getRand rand 1 e k = ((digit rand e k : Int), k + 1) := by
  have hsub : (e : Int) - 1 = (e - 1 : Nat) := by omega
  rw [getRand, if_neg (by omega), hsub, ← Int.ofNat_tmod, digit]
  rfl

-- ---------------------------------------------------------------------------
-- The loop
-- ---------------------------------------------------------------------------

theorem toNat_ofInt (n : Nat) : (UInt32.ofInt n).toNat = n % 2 ^ 32 := by
  rw [UInt32.ofInt, UInt32.toNat_ofNat']
  omega

/-- In 32 bits the loop computes the number with these digits behind what it starts from. -/
theorem toNat_growTree {extRecPerEb : UInt32} (he : 2 ≤ extRecPerEb.toNat) (n : Nat)
    (clusters : UInt32) (k : Nat) :
    (growTree rand extRecPerEb n clusters k).toNat =
      (Nat.ofDigits extRecPerEb.toNat (digits rand extRecPerEb.toNat n k).reverse +
        extRecPerEb.toNat ^ n * clusters.toNat) % 2 ^ 32 := by
  induction n generalizing clusters k with
  | zero =>
    have hlt : clusters.toNat < 2 ^ 32 := clusters.toNat_lt
    rw [growTree, digits, List.range'_zero, List.map_nil, List.reverse_nil, Nat.ofDigits_nil,
      Nat.pow_zero, Nat.one_mul, Nat.zero_add, Nat.mod_eq_of_lt hlt]
  | succ n ih =>
    have hstep : (clusters * extRecPerEb + UInt32.ofInt (digit rand extRecPerEb.toNat k)).toNat =
        (clusters.toNat * extRecPerEb.toNat + digit rand extRecPerEb.toNat k) % 2 ^ 32 := by
      rw [UInt32.toNat_add, UInt32.toNat_mul, toNat_ofInt]
      exact (Nat.add_mod _ _ _).symm
    rw [growTree, getRand_digit he]
    dsimp only
    rw [ih, hstep, ofDigits_succ, Nat.add_mod, Nat.mul_mod_mod, ← Nat.add_mod]
    congr 1
    ring

theorem noWrap_iff (rand : Nat → Rand) (he : 2 ≤ e) (n k : Nat) (hc : c < 2 ^ 32) :
    NoWrap rand e n c k ↔
      Nat.ofDigits e (digits rand e n k).reverse + e ^ n * c < 2 ^ 32 := by
  induction n generalizing c k with
  | zero =>
    rw [NoWrap, digits, List.range'_zero, List.map_nil, List.reverse_nil, Nat.ofDigits_nil,
      Nat.pow_zero, Nat.one_mul, Nat.zero_add]
    exact (iff_true_intro hc).symm
  | succ n ih =>
    have htotal : Nat.ofDigits e (digits rand e (n + 1) k).reverse + e ^ (n + 1) * c =
        Nat.ofDigits e (digits rand e n (k + 1)).reverse + e ^ n * (c * e + digit rand e k) := by
      rw [ofDigits_succ]
      ring
    rw [NoWrap, htotal]
    constructor
    · rintro ⟨-, hlt, hrest⟩
      exact (ih (k + 1) hlt).mp hrest
    · intro h
      have hpow : 0 < e ^ n := Nat.pow_pos (by omega)
      have hle : c * e + digit rand e k ≤ e ^ n * (c * e + digit rand e k) :=
        Nat.le_mul_of_pos_left _ hpow
      have hlt : c * e + digit rand e k < 2 ^ 32 := by omega
      exact ⟨by omega, hlt, (ih (k + 1) hlt).mpr h⟩

-- ---------------------------------------------------------------------------
-- The size
-- ---------------------------------------------------------------------------

variable {extRecPerInode extRecPerEb clustersize : UInt32} {treeDepth : Nat}

theorem count_bounds (rand : Nat → Rand) (extRecPerInode : UInt32) (he : 2 ≤ extRecPerEb.toNat)
    (hdepth : treeDepth ≠ 0) :
    2 * extRecPerEb.toNat ^ treeDepth < count rand extRecPerInode extRecPerEb treeDepth ∧
      count rand extRecPerInode extRecPerEb treeDepth < 3 * extRecPerEb.toNat ^ treeDepth := by
  have hpos := ofDigits_pos rand he hdepth (firstDigit rand extRecPerInode)
  have hlt := ofDigits_lt rand he treeDepth (firstDigit rand extRecPerInode)
  rw [count]
  omega

theorem ceilDiv_eq_three {b : Nat} (hlow : 2 * b < c) (hhigh : c < 3 * b) : c ⌈/⌉ b = 3 := by
  rw [Nat.ceilDiv_eq_add_pred_div]
  refine Nat.div_eq_of_lt_le ?_ ?_
  · omega
  · omega

theorem createFile_eq (rand : Nat → Rand) (extRecPerInode clustersize : UInt32)
    (he : 2 ≤ extRecPerEb.toNat) (hdepth : treeDepth ≠ 0) :
    ∃ clusters : UInt32,
      clusters.toNat = count rand extRecPerInode extRecPerEb treeDepth % 2 ^ 32 ∧
      createFile rand extRecPerInode extRecPerEb clustersize treeDepth =
        if clusters = 0 then none else some (clusters, (clusters * clustersize).toUInt64) := by
  refine ⟨growTree rand extRecPerEb treeDepth 2 (firstDigit rand extRecPerInode), ?_, ?_⟩
  · rw [toNat_growTree he, count]
    congr 1
    rw [Nat.add_comm, Nat.mul_comm]
    rfl
  · rw [createFile]
    simp only [if_neg hdepth, firstDigit]
    rfl

/-- The file is as the tree needs it as long as the exact size fits in 32 bits. -/
theorem createFile_meets_iff (rand : Nat → Rand) (extRecPerInode extRecPerEb clustersize : UInt32)
    (treeDepth : Nat) (hdepth : treeDepth ≠ 0) (he : 2 ≤ extRecPerEb.toNat)
    (hsize : 0 < clustersize.toNat) :
    (∃ clusters iSize,
      createFile rand extRecPerInode extRecPerEb clustersize treeDepth = some (clusters, iSize) ∧
      Meets rand extRecPerInode extRecPerEb clustersize treeDepth clusters iSize) ↔
    count rand extRecPerInode extRecPerEb treeDepth * clustersize.toNat < 2 ^ 32 := by
  obtain ⟨clusters, hclusters, hcreate⟩ := createFile_eq rand extRecPerInode clustersize he hdepth
  obtain ⟨hlow, hhigh⟩ := count_bounds rand extRecPerInode he hdepth
  have hwrap := noWrap_iff (c := 2) rand he treeDepth (firstDigit rand extRecPerInode)
    (by decide)
  rw [Nat.add_comm, Nat.mul_comm, ← count] at hwrap
  rw [hcreate]
  constructor
  · rintro ⟨c, iSize, hsome, hmeets⟩
    rw [Option.ite_none_left_eq_some] at hsome
    cases hsome.2
    have hproduct := hmeets.product
    rw [hclusters, Nat.mod_eq_of_lt (hwrap.mp hmeets.noWrap)] at hproduct
    exact hproduct
  · intro h
    have hlt : count rand extRecPerInode extRecPerEb treeDepth < 2 ^ 32 :=
      (Nat.le_mul_of_pos_right _ hsize).trans_lt h
    rw [Nat.mod_eq_of_lt hlt] at hclusters
    have hne : clusters ≠ 0 := by
      rintro rfl
      have hzero : (0 : UInt32).toNat = 0 := rfl
      omega
    refine ⟨clusters, _, if_neg hne, hwrap.mpr hlt, by omega, by omega, ?_, ?_, ?_⟩
    · rw [hclusters]
      exact ceilDiv_eq_three hlow hhigh
    · rw [hclusters]
      exact h
    · rw [UInt32.toNat_toUInt64, UInt32.toNat_mul, hclusters, Nat.mod_eq_of_lt h]

end

theorem createFile_meets_small :
    ∃ clusters iSize, createFile (fun _ => 0) 19 28 4096 2 = some (clusters, iSize) ∧
      Meets (fun _ => 0) 19 28 4096 2 clusters iSize :=
  (createFile_meets_iff (fun _ => 0) 19 28 4096 2 (by decide) (by decide) (by decide)).mpr
    (by decide)

/-- A tree of depth 2 in blocks of 4 KiB, with clusters of 1 MiB: 285 MiB are written for
127261 clusters. -/
theorem createFile_large_clusters : ∃ clusters iSize,
    createFile (fun _ => 0) 243 252 (2 ^ 20) 2 = some (clusters, iSize) ∧
      clusters.toNat = 127261 ∧ iSize.toNat = 285 * 2 ^ 20 ∧
      ¬ Meets (fun _ => 0) 243 252 (2 ^ 20) 2 clusters iSize := by
  refine ⟨127261, 285 * 2 ^ 20, by decide, by decide, by decide, ?_⟩
  intro h
  exact absurd h.product (by decide)

end Ocfs2Test.TestTruncate
