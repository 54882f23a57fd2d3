import Ocfs2Test.Lib.ByteFile
import Ocfs2Test.Lib.Bytes
import Ocfs2Test.Lib.Stdio

/-!
# verify_truncate

A file of clusters with one pattern is cut to a new size and extended to a
cluster boundary. `verify_truncate` reads it back, all but one cluster of it.
-/

namespace Ocfs2Test.Truncate

open Lib Lib.Stdio

/-- The globals that `setup` fills and `file_truncate` changes. -/
structure Globals where
  clustersize : Nat
  pattern : List UInt8
  lastPattern : List UInt8
  lastCluster : Int
  clustersize_pos : 0 < clustersize
  length_pattern : pattern.length = clustersize
  length_lastPattern : lastPattern.length = clustersize

def getRandUll (min max : Nat) (r₁ r₂ r₃ : Rand) : Nat :=
  if min = 0 ∧ max = 0 then 0
  else min + (r₁.val <<< 32 ||| r₂.val <<< 16 ||| r₃.val) % (max - min + 1)

/-- The loop of `prep_file_with_pattern`. With `once` clear the same bytes go to a
second file that has no name. -/
def prepLoop (g : Globals) (size : Nat) (f : ByteFile) (offset : Nat) : ByteFile :=
  if offset < size then
    let writeSize := if offset + g.clustersize > size then size - offset else g.clustersize
    prepLoop g size (f.pwrite (g.pattern.take writeSize) offset) (offset + writeSize)
  else f
termination_by size - offset
decreasing_by
  have := g.clustersize_pos
  split <;> omega

/-- The file is opened without `O_TRUNC`. -/
def prepFileWithPattern (g : Globals) (size : Nat) (f : ByteFile) : ByteFile := prepLoop g size f 0

theorem Globals.length_patched (g : Globals) (newISize : Nat) :
    (if newISize % g.clustersize ≠ 0 then
      patch g.pattern (newISize % g.clustersize)
        (List.replicate (g.clustersize - newISize % g.clustersize) 0)
    else g.pattern).length = g.clustersize := by
  have hlt := Nat.mod_lt newISize g.clustersize_pos
  split
  · rw [length_patch, g.length_pattern]
    rw [List.length_replicate, g.length_pattern]
    omega
  · exact g.length_pattern

/-- What `file_truncate` leaves in the globals. A size of 0 takes `last_cluster` to -1. -/
def fileTruncate (g : Globals) (newISize : Nat) : Globals where
  clustersize := g.clustersize
  pattern := g.pattern
  lastPattern :=
    if newISize % g.clustersize ≠ 0 then
      patch g.pattern (newISize % g.clustersize)
        (List.replicate (g.clustersize - newISize % g.clustersize) 0)
    else g.pattern
  lastCluster :=
    if newISize % g.clustersize ≠ 0 then Int.bmod (newISize / g.clustersize : Nat) (2 ^ 64)
    else Int.bmod ((newISize / g.clustersize : Nat) - 1) (2 ^ 64)
  clustersize_pos := g.clustersize_pos
  length_pattern := g.length_pattern
  length_lastPattern := g.length_patched newISize

/-- `pread` of a cluster into `buf`. What a short read does not reach stays. -/
def readCluster (g : Globals) (f : ByteFile) (i : Nat) (buf : List UInt8) : List UInt8 :=
  patch buf 0 (f.pread g.clustersize (i * g.clustersize))

/-- `n` clusters from `i` on, with the buffer they leave. -/
def verifyClusters (g : Globals) (f : ByteFile) : Nat → Nat → List UInt8 → Option (List UInt8)
  | 0, _, buf => some buf
  | n + 1, i, buf =>
    let buf := readCluster g f i buf
    if buf = g.pattern then verifyClusters g f n (i + 1) buf else none

def verifyTruncate (g : Globals) (f : ByteFile) : Int :=
  if g.lastCluster < 0 then 0
  else
    match verifyClusters g f (g.lastCluster - 1).toNat 0 (List.replicate g.clustersize 0) with
    | none => -1
    | some buf =>
      let buf := readCluster g f g.lastCluster.toNat buf
      if buf ≠ g.lastPattern then -1
      else
        -- once more behind the `fsync`
        let buf := readCluster g f g.lastCluster.toNat buf
        if buf ≠ g.lastPattern then -1 else 0

/-- The file that `run` has verified. -/
def truncatedFile (g : Globals) (clusters newSize : Nat) (f : ByteFile) : ByteFile :=
  let f := (prepFileWithPattern g (clusters * g.clustersize) f).truncate newSize
  if newSize % g.clustersize ≠ 0 then f.truncate ((newSize / g.clustersize + 1) * g.clustersize)
  else f

/-- `run` where no call fails, on what the last run left at this name. -/
def run (g : Globals) (clusters : Nat) (f : ByteFile) (r₁ r₂ r₃ : Rand) : Int :=
  let newSize := getRandUll 0 (clusters * g.clustersize) r₁ r₂ r₃
  verifyTruncate (fileTruncate g newSize) (truncatedFile g clusters newSize f)

-- ---------------------------------------------------------------------------
-- The file a truncate should leave
-- ---------------------------------------------------------------------------

section
variable (g : Globals) (newSize : Nat) (f : ByteFile)

def clusterCount : Nat := (newSize + g.clustersize - 1) / g.clustersize

/-- The pattern, and zeros from the new size on. -/
def expected (x : Nat) : UInt8 :=
  if x < newSize then g.pattern.getD (x % g.clustersize) 0 else 0

def Truncated : Prop :=
  ∀ x < clusterCount g newSize * g.clustersize, x < f.size ∧ f.byte x = expected g newSize x

/-- The bytes that are compared: the last cluster but one is left out. -/
def Compared (x : Nat) : Prop :=
  x < (clusterCount g newSize - 2) * g.clustersize ∨
    (clusterCount g newSize - 1) * g.clustersize ≤ x ∧ x < clusterCount g newSize * g.clustersize

/-- The byte in the buffer for byte `x` of the file: behind the end of the file it
is what the cluster before has left, or the zeros of the first `memset`. -/
def shown (x : Nat) : UInt8 :=
  if x < f.size then f.byte x
  else if x < g.clustersize ∨ clusterCount g newSize = 2 then 0
  else g.pattern.getD (x % g.clustersize) 0

/-- The file shows a difference where it is looked at, or it is whole and has none
in the cluster that is left out. -/
def Judged : Prop :=
  (∃ x, Compared g newSize x ∧ shown g newSize f x ≠ expected g newSize x) ∨
    clusterCount g newSize * g.clustersize ≤ f.size ∧
      ∀ x, (clusterCount g newSize - 2) * g.clustersize ≤ x →
        x < (clusterCount g newSize - 1) * g.clustersize → f.byte x = expected g newSize x

end

-- ---------------------------------------------------------------------------
-- What is read
-- ---------------------------------------------------------------------------

section
variable {g : Globals} {f : ByteFile} {buf pat : List UInt8} {newSize i j n x : Nat}

theorem length_readCluster (hbuf : buf.length = g.clustersize) :
    (readCluster g f i buf).length = g.clustersize := by
  rw [readCluster, patch, List.length_append, List.length_append, List.length_take,
    List.length_drop, ByteFile.length_pread, hbuf]
  omega

theorem getD_readCluster (hj : j < g.clustersize) :
    (readCluster g f i buf).getD j 0 =
      if i * g.clustersize + j < f.size then f.byte (i * g.clustersize + j) else buf.getD j 0 := by
  rw [readCluster, patch, List.take_zero, List.nil_append, Nat.zero_add]
  split
  · next hlt =>
    have hlen : j < (f.pread g.clustersize (i * g.clustersize)).length := by
      rw [ByteFile.length_pread]
      omega
    rw [List.getD_append _ _ _ _ hlen, List.getD_eq_getElem _ _ hlen, ByteFile.pread_getElem]
  · next hge =>
    have hlen : (f.pread g.clustersize (i * g.clustersize)).length ≤ j := by
      rw [ByteFile.length_pread]
      omega
    rw [List.getD_append_right _ _ _ _ hlen]
    simp only [List.getD_eq_getElem?_getD, List.getElem?_drop, Nat.add_sub_cancel' hlen]

theorem readCluster_eq_iff (hbuf : buf.length = g.clustersize) (hpat : pat.length = g.clustersize) :
    readCluster g f i buf = pat ↔
      ∀ j < g.clustersize,
        (if i * g.clustersize + j < f.size then f.byte (i * g.clustersize + j)
          else buf.getD j 0) = pat.getD j 0 := by
  constructor
  · rintro rfl j hj
    exact (getD_readCluster hj).symm
  · intro h
    apply List.ext_getElem
    · rw [length_readCluster hbuf, hpat]
    · intro j hj hj'
      rw [← List.getD_eq_getElem _ 0 hj, ← List.getD_eq_getElem _ 0 hj']
      rw [hpat] at hj'
      rw [getD_readCluster hj', h j hj']

theorem readCluster_again (hbuf : buf.length = g.clustersize) (h : readCluster g f i buf = pat) :
    readCluster g f i pat = pat := by
  have hpat : pat.length = g.clustersize := by
    rw [← h, length_readCluster hbuf]
  rw [readCluster_eq_iff hpat hpat]
  intro j hj
  have hbyte := (readCluster_eq_iff hbuf hpat).mp h j hj
  split
  · next hlt => rwa [if_pos hlt] at hbyte
  · rfl

/-- The buffer when cluster `i` is read. -/
def before (g : Globals) (i : Nat) : List UInt8 :=
  if i = 0 then List.replicate g.clustersize 0 else g.pattern

theorem length_before (g : Globals) (i : Nat) : (before g i).length = g.clustersize := by
  rw [before]
  split
  · rw [List.length_replicate]
  · exact g.length_pattern

theorem verifyClusters_eq_some :
    verifyClusters g f n i (before g i) = some buf ↔
      before g (i + n) = buf ∧ ∀ k < n, readCluster g f (i + k) (before g (i + k)) = g.pattern := by
  induction n generalizing i with
  | zero => simp [verifyClusters]
  | succ n ih =>
    rw [Nat.forall_lt_succ_left, verifyClusters]
    simp only [Nat.add_zero]
    split
    · next heq =>
      have hpat : before g (i + 1) = g.pattern := if_neg (Nat.succ_ne_zero i)
      rw [heq, ← hpat, ih, hpat]
      simp only [true_and, Nat.add_assoc, Nat.add_comm 1]
    · next hne => simp [hne]

theorem verifyTruncate_eq_zero (hlast : g.lastCluster = n - 1) :
    verifyTruncate g f = 0 ↔
      n = 0 ∨ (∀ k < n - 2, readCluster g f k (before g k) = g.pattern) ∧
        readCluster g f (n - 1) (before g (n - 2)) = g.lastPattern := by
  have hloop (buf : List UInt8) := @verifyClusters_eq_some g f buf 0 (n - 2)
  simp only [Nat.zero_add] at hloop
  have hn : (g.lastCluster - 1).toNat = n - 2 := by omega
  have hn' : g.lastCluster.toNat = n - 1 := by omega
  have hzeros : List.replicate g.clustersize 0 = before g 0 := rfl
  rw [verifyTruncate, hn, hn', hzeros]
  split
  · simp [show n = 0 by omega]
  · rw [or_iff_right (show n ≠ 0 by omega)]
    cases hrun : verifyClusters g f (n - 2) 0 (before g 0) with
    | none =>
      simp only [Int.reduceNeg, reduceCtorEq, false_iff]
      rintro ⟨hall, -⟩
      rw [(hloop _).mpr ⟨rfl, hall⟩] at hrun
      cases hrun
    | some buf =>
      obtain ⟨rfl, hall⟩ := (hloop _).mp hrun
      by_cases hread : readCluster g f (n - 1) (before g (n - 2)) = g.lastPattern
      · simpa [hread, readCluster_again (length_before g _) hread] using hall
      · simp [hread]

-- ---------------------------------------------------------------------------
-- The same by bytes
-- ---------------------------------------------------------------------------

theorem getD_before (hj : j < g.clustersize) :
    (before g i).getD j 0 = if i = 0 then 0 else g.pattern.getD j 0 := by
  rw [before]
  split
  · rw [List.getD_replicate _ hj]
  · rfl

theorem clusterCount_eq (g : Globals) (newSize : Nat) :
    clusterCount g newSize =
      newSize / g.clustersize + if newSize % g.clustersize = 0 then 0 else 1 := by
  have hpos := g.clustersize_pos
  have hdiv := Nat.div_add_mod newSize g.clustersize
  have hlt := Nat.mod_lt newSize hpos
  rw [clusterCount]
  generalize newSize / g.clustersize = q at *
  generalize newSize % g.clustersize = r at *
  split
  · next hr =>
    rw [← hdiv, hr, Nat.add_zero, Nat.add_zero, Nat.add_sub_assoc hpos, Nat.mul_add_div hpos,
      Nat.div_eq_of_lt (by omega), Nat.add_zero]
  · rw [← hdiv, show g.clustersize * q + r + g.clustersize - 1 =
        g.clustersize * (q + 1) + (r - 1) by rw [Nat.mul_succ]; omega,
      Nat.mul_add_div hpos, Nat.div_eq_of_lt (by omega), Nat.add_zero]

theorem lastCluster_fileTruncate (h : newSize < 2 ^ 63) :
    (fileTruncate g newSize).lastCluster = clusterCount g newSize - 1 := by
  have hle := Nat.div_le_self newSize g.clustersize
  rw [clusterCount_eq]
  simp only [fileTruncate]
  generalize newSize / g.clustersize = q at *
  by_cases hr : newSize % g.clustersize = 0
  · rw [if_pos hr, if_neg (not_not_intro hr), Int.bmod_eq_of_le (by omega) (by omega)]
    omega
  · rw [if_neg hr, if_pos hr, Int.bmod_eq_of_le (by omega) (by omega)]
    omega

theorem lt_of_succ_lt_clusterCount (hi : i + 1 < clusterCount g newSize) (hj : j < g.clustersize) :
    i * g.clustersize + j < newSize := by
  have hle : (i + 1) * g.clustersize ≤ newSize / g.clustersize * g.clustersize := by
    apply Nat.mul_le_mul_right
    rw [clusterCount_eq] at hi
    split at hi <;> omega
  have hdiv := Nat.div_mul_le_self newSize g.clustersize
  rw [Nat.succ_mul] at hle
  omega

theorem expected_of_lt (hi : i + 1 < clusterCount g newSize) (hj : j < g.clustersize) :
    expected g newSize (i * g.clustersize + j) = g.pattern.getD j 0 := by
  rw [expected, if_pos (lt_of_succ_lt_clusterCount hi hj), Nat.mul_add_mod_of_lt hj]

theorem getD_memset (hn : n < g.clustersize) (hj : j < g.clustersize) :
    (patch g.pattern n (List.replicate (g.clustersize - n) 0)).getD j 0 =
      if j < n then g.pattern.getD j 0 else 0 := by
  have hlen : (g.pattern.take n).length = n := by
    rw [List.length_take, g.length_pattern, Nat.min_eq_left (Nat.le_of_lt hn)]
  rw [patch, List.drop_eq_nil_of_le (by rw [List.length_replicate, g.length_pattern]; omega),
    List.append_nil]
  split
  · next h =>
    rw [List.getD_append _ _ _ _ (by rwa [hlen]), List.getD_eq_getElem?_getD,
      List.getElem?_take_of_lt h, List.getD_eq_getElem?_getD]
  · rw [List.getD_append_right _ _ _ _ (by omega), List.getD_replicate _ (by omega)]

theorem expected_last (hn : 0 < clusterCount g newSize) (hj : j < g.clustersize) :
    expected g newSize ((clusterCount g newSize - 1) * g.clustersize + j) =
      (fileTruncate g newSize).lastPattern.getD j 0 := by
  have hdiv := Nat.div_add_mod newSize g.clustersize
  have hlt := Nat.mod_lt newSize g.clustersize_pos
  rw [clusterCount_eq] at hn ⊢
  rw [expected, Nat.mul_add_mod_of_lt hj, Nat.mul_comm _ g.clustersize]
  simp only [fileTruncate]
  generalize newSize / g.clustersize = q at *
  generalize newSize % g.clustersize = r at *
  by_cases hr : r = 0
  · -- the last cluster is whole
    rw [if_pos hr, Nat.add_zero] at hn
    have hmul : g.clustersize * q = g.clustersize * (q - 1) + g.clustersize := by
      rw [← Nat.mul_succ, Nat.succ_eq_add_one, Nat.sub_add_cancel hn]
    rw [if_pos hr, if_neg (not_not_intro hr), if_pos (by rw [Nat.add_zero]; omega)]
  · rw [if_neg hr, if_pos hr, Nat.add_sub_cancel, getD_memset hlt hj]
    exact if_congr (by omega) rfl rfl

theorem forall_compared {P : Nat → Prop} :
    (∀ x, Compared g newSize x → P x) ↔
      (∀ i < clusterCount g newSize - 2, ∀ j < g.clustersize, P (i * g.clustersize + j)) ∧
        (0 < clusterCount g newSize →
          ∀ j < g.clustersize, P ((clusterCount g newSize - 1) * g.clustersize + j)) := by
  have hpos := g.clustersize_pos
  generalize hn : clusterCount g newSize = n
  constructor
  · intro h
    refine ⟨fun i hi j hj => h _ (.inl ?_), fun hn' j hj => h _ (.inr ⟨?_, ?_⟩)⟩
    · have hle := Nat.mul_le_mul_right g.clustersize (Nat.succ_le_of_lt hi)
      rw [Nat.succ_mul] at hle
      rw [hn]
      omega
    · rw [hn]
      omega
    · have hle := Nat.succ_mul (n - 1) g.clustersize
      rw [Nat.succ_eq_add_one, Nat.sub_add_cancel hn'] at hle
      rw [hn]
      omega
  · rintro ⟨hall, hlast⟩ x hx
    rw [Compared, hn] at hx
    have hdiv := Nat.div_add_mod' x g.clustersize
    have hlt := Nat.mod_lt x hpos
    rw [← hdiv]
    rcases hx with hx | ⟨hlo, hhi⟩
    · exact hall _ (Nat.div_lt_of_lt_mul (by rwa [Nat.mul_comm])) _ hlt
    · have hn' : 0 < n := by
        apply Nat.pos_of_ne_zero
        rintro rfl
        omega
      have hq : x / g.clustersize = n - 1 := by
        apply Nat.div_eq_of_lt_le hlo
        rwa [Nat.sub_add_cancel hn']
      rw [hq]
      exact hlast hn' _ hlt

theorem shown_eq (hj : j < g.clustersize) (hn : n = 0 ↔ i = 0 ∨ clusterCount g newSize = 2) :
    shown g newSize f (i * g.clustersize + j) =
      if i * g.clustersize + j < f.size then f.byte (i * g.clustersize + j)
      else (before g n).getD j 0 := by
  have hfirst : i * g.clustersize + j < g.clustersize ↔ i = 0 := by
    cases i with
    | zero => simp [hj]
    | succ i =>
      rw [Nat.succ_mul]
      omega
  simp only [shown, hfirst, ← hn, getD_before hj, Nat.mul_add_mod_of_lt hj]

theorem verifyTruncate_fileTruncate (h : newSize < 2 ^ 63) :
    verifyTruncate (fileTruncate g newSize) f = 0 ↔
      ∀ x, Compared g newSize x → shown g newSize f x = expected g newSize x := by
  rw [verifyTruncate_eq_zero (lastCluster_fileTruncate h), forall_compared]
  rcases Nat.eq_zero_or_pos (clusterCount g newSize) with hn | hn
  · simp [hn]
  rw [or_iff_right (Nat.ne_of_gt hn), forall_prop_of_true hn]
  apply and_congr
  · refine forall₂_congr fun i hi => ?_
    have hread := @readCluster_eq_iff (fileTruncate g newSize) f _ _ i
      (length_before g i) g.length_pattern
    refine hread.trans (forall₂_congr fun j hj => ?_)
    have hshown := @shown_eq g f newSize i j i hj (by omega)
    have hexp := @expected_of_lt g newSize i j (by omega) hj
    rw [hshown, hexp]
    rfl
  · have hread := @readCluster_eq_iff (fileTruncate g newSize) f _ _ (clusterCount g newSize - 1)
      (length_before g (clusterCount g newSize - 2)) (fileTruncate g newSize).length_lastPattern
    refine hread.trans (forall₂_congr fun j hj => ?_)
    have hshown := @shown_eq g f newSize (clusterCount g newSize - 1) j
      (clusterCount g newSize - 2) hj (by omega)
    rw [hshown, expected_last hn hj]
    rfl

theorem Compared.lt (h : Compared g newSize x) : x < clusterCount g newSize * g.clustersize := by
  rcases h with h | h
  · apply h.trans_le
    apply Nat.mul_le_mul_right
    apply Nat.sub_le
  · exact h.2

theorem compared_or (h : x < clusterCount g newSize * g.clustersize) :
    Compared g newSize x ∨ (clusterCount g newSize - 2) * g.clustersize ≤ x ∧
      x < (clusterCount g newSize - 1) * g.clustersize := by
  unfold Compared
  omega

theorem Truncated.shown (h : Truncated g newSize f) (hx : Compared g newSize x) :
    shown g newSize f x = expected g newSize x := by
  obtain ⟨hlt, hbyte⟩ := h x hx.lt
  rw [Truncate.shown, if_pos hlt, hbyte]

theorem judged_iff (h : newSize < 2 ^ 63) :
    (verifyTruncate (fileTruncate g newSize) f = 0 ↔ Truncated g newSize f) ↔
      Judged g newSize f := by
  rw [verifyTruncate_fileTruncate h]
  constructor
  · intro hiff
    by_cases hall : ∀ x, Compared g newSize x → shown g newSize f x = expected g newSize x
    · have htrunc := hiff.mp hall
      refine .inr ⟨Nat.le_of_not_lt fun hlt => ?_, fun x _ hx => ?_⟩
      · exact Nat.lt_irrefl _ (htrunc _ hlt).1
      · refine (htrunc x (hx.trans_le ?_)).2
        apply Nat.mul_le_mul_right
        apply Nat.sub_le
    · push Not at hall
      exact .inl hall
  · rintro (⟨x, hx, hne⟩ | ⟨hsize, hskip⟩)
    · exact iff_of_false (fun hall => hne (hall x hx)) fun htrunc => hne (htrunc.shown hx)
    · constructor
      · intro hall x hx
        have hlt := hx.trans_le hsize
        refine ⟨hlt, ?_⟩
        rcases compared_or hx with hc | ⟨hlo, hhi⟩
        · rw [← hall x hc, shown, if_pos hlt]
        · exact hskip x hlo hhi
      · exact fun htrunc x hx => htrunc.shown hx

end

-- ---------------------------------------------------------------------------
-- The run
-- ---------------------------------------------------------------------------

section
variable {g : Globals} {f : ByteFile} {clusters newSize k : Nat}

theorem prepLoop_step (h : offset + g.clustersize ≤ size) :
    prepLoop g size f offset =
      prepLoop g size (f.pwrite g.pattern offset) (offset + g.clustersize) := by
  have hpos := g.clustersize_pos
  conv_lhs => rw [prepLoop, if_pos (by omega)]
  simp only [Nat.not_lt.mpr h, if_false, List.take_of_length_le (Nat.le_of_eq g.length_pattern)]

def Patterned (g : Globals) (n : Nat) (f : ByteFile) : Prop :=
  ∀ x < n, x < f.size ∧ f.byte x = g.pattern.getD (x % g.clustersize) 0

theorem Patterned.write (h : Patterned g (k * g.clustersize) f) :
    Patterned g ((k + 1) * g.clustersize) (f.pwrite g.pattern (k * g.clustersize)) := by
  intro x hx
  rw [Nat.succ_mul] at hx
  by_cases hlo : k * g.clustersize ≤ x
  · obtain ⟨j, rfl⟩ := Nat.exists_eq_add_of_le hlo
    have hj : j < g.clustersize := by omega
    have hhi : k * g.clustersize + j < k * g.clustersize + g.pattern.length := by
      rwa [g.length_pattern]
    refine ⟨ByteFile.lt_size_pwrite hlo hhi, ?_⟩
    rw [ByteFile.byte_pwrite_of_mem hlo hhi, Nat.add_sub_cancel_left, Nat.mul_add_mod_of_lt hj]
  · obtain ⟨hlt, hbyte⟩ := h x (Nat.not_le.mp hlo)
    refine ⟨hlt.trans_le (f.size_le_pwrite _ _), ?_⟩
    rw [ByteFile.byte_pwrite_of_lt (Nat.not_le.mp hlo), hbyte]

theorem Patterned.prepLoop (hk : k ≤ clusters) (h : Patterned g (k * g.clustersize) f) :
    Patterned g (clusters * g.clustersize)
      (prepLoop g (clusters * g.clustersize) f (k * g.clustersize)) := by
  induction hn : clusters - k generalizing k f with
  | zero =>
    obtain rfl : k = clusters := by omega
    rwa [Truncate.prepLoop, if_neg (Nat.lt_irrefl _)]
  | succ n ih =>
    have hle : k * g.clustersize + g.clustersize ≤ clusters * g.clustersize := by
      rw [← Nat.succ_mul]
      apply Nat.mul_le_mul_right
      omega
    rw [prepLoop_step hle, ← Nat.succ_mul]
    exact ih (by omega) h.write (by omega)

theorem patterned_prepFileWithPattern (g : Globals) (clusters : Nat) (f : ByteFile) :
    Patterned g (clusters * g.clustersize)
      (prepFileWithPattern g (clusters * g.clustersize) f) := by
  have hnone : Patterned g (0 * g.clustersize) f := by
    intro x hx
    omega
  have h := hnone.prepLoop (Nat.zero_le clusters)
  rwa [Nat.zero_mul] at h

theorem truncated_truncatedFile (h : newSize ≤ clusters * g.clustersize) :
    Truncated g newSize (truncatedFile g clusters newSize f) := by
  have hprep := patterned_prepFileWithPattern g clusters f
  have hdiv := Nat.div_add_mod' newSize g.clustersize
  intro x hx
  rw [clusterCount_eq] at hx
  simp only [truncatedFile]
  split
  · next hr =>
    rw [if_neg hr] at hx
    refine ⟨hx, ?_⟩
    rw [ByteFile.byte_truncate, if_pos hx, ByteFile.byte_truncate, expected]
    split
    · next hlt => exact (hprep x (hlt.trans_le h)).2
    · rfl
  · next hr =>
    rw [if_pos (Decidable.not_not.mp hr), Nat.add_zero] at hx
    have hlt : x < newSize := by omega
    refine ⟨hlt, ?_⟩
    rw [ByteFile.byte_truncate, if_pos hlt, expected, if_pos hlt]
    exact (hprep x (hlt.trans_le h)).2

theorem getRandUll_le (max : Nat) (r₁ r₂ r₃ : Rand) : getRandUll 0 max r₁ r₂ r₃ ≤ max := by
  rw [getRandUll]
  split
  · exact Nat.zero_le max
  · rw [Nat.zero_add]
    apply Nat.le_of_lt_succ
    apply Nat.mod_lt
    exact Nat.succ_pos _

theorem run_eq_zero (h : clusters * g.clustersize < 2 ^ 63) (f : ByteFile) (r₁ r₂ r₃ : Rand) :
    run g clusters f r₁ r₂ r₃ = 0 := by
  have hle := getRandUll_le (clusters * g.clustersize) r₁ r₂ r₃
  have htrunc := @truncated_truncatedFile g f clusters _ hle
  exact (verifyTruncate_fileTruncate (by omega)).mpr fun x hx => htrunc.shown hx

end

/-- The verdict is about the whole file when it is judged where it differs; `run`
is content with what a truncate should leave. -/
theorem verifyTruncate_iff (g : Globals) (clusters newSize : Nat) (f : ByteFile)
    (hsize : clusters * g.clustersize < 2 ^ 63) (hnew : newSize ≤ clusters * g.clustersize) :
    ((verifyTruncate (fileTruncate g newSize) f = 0 ↔ Truncated g newSize f) ↔
      Judged g newSize f) ∧
    ∀ f₀ r₁ r₂ r₃, run g clusters f₀ r₁ r₂ r₃ = 0 :=
  ⟨judged_iff (by omega), run_eq_zero hsize⟩

def letters : Globals where
  clustersize := 4096
  pattern := List.replicate 4096 65
  lastPattern := List.replicate 4096 65
  lastCluster := 0
  clustersize_pos := by decide
  length_pattern := List.length_replicate
  length_lastPattern := List.length_replicate

def spoilt : ByteFile where
  size := 8192
  byte x := if x < 4096 then 66 else if x < 8192 then 65 else 0
  zero_beyond x hx := by
    rw [if_neg (by omega), if_neg (by omega)]

theorem verifyTruncate_letters :
    ((verifyTruncate (fileTruncate letters 5000) spoilt = 0 ↔ Truncated letters 5000 spoilt) ↔
      Judged letters 5000 spoilt) ∧
    ∀ f₀ r₁ r₂ r₃, run letters 100 f₀ r₁ r₂ r₃ = 0 :=
  verifyTruncate_iff letters 100 5000 spoilt (by decide) (by decide)

/-- The first of two clusters is not looked at. -/
theorem verifyTruncate_spoilt :
    verifyTruncate (fileTruncate letters 8192) spoilt = 0 ∧ ¬ Truncated letters 8192 spoilt := by
  have hexp (x : Nat) (hx : x < 8192) : expected letters 8192 x = 65 := by
    rw [expected, if_pos hx]
    exact List.getD_replicate _ (Nat.mod_lt x (by decide))
  constructor
  · rw [verifyTruncate_fileTruncate (by decide)]
    rintro x (hx | ⟨hlo, hhi⟩)
    · exact absurd hx (Nat.not_lt_zero x)
    · change 4096 ≤ x at hlo
      change x < 8192 at hhi
      have hin : x < spoilt.size := hhi
      rw [hexp x hhi, shown, if_pos hin]
      exact (if_neg (Nat.not_lt.mpr hlo)).trans (if_pos hhi)
  · intro h
    obtain ⟨-, hbyte⟩ := h 0 (by decide)
    rw [hexp 0 (by decide)] at hbyte
    exact absurd hbyte (by decide)

end Ocfs2Test.Truncate
