import Ocfs2Test.Lib.Stdio
import Ocfs2Test.Reflink.Pair

/-!
# The original file

`prep_orig_file` fills a file from `orig_pattern`, and `verify_orig_file`
compares the two again. With `MMAP_TEST` it goes by `file_size`, and otherwise
by the end of the file.
-/

namespace Ocfs2Test.Reflink

open Lib Lib.Stdio

def PATTERN_SIZE : Nat := 1024 * 1024 * 100

def M_SIZE : Nat := 1024 * 1024

def getRand (min max : Nat) (r : Rand) : Nat :=
  if min = 0 ∧ max = 0 then 0 else min + r.val % (max - min + 1)

def randChar (r : Rand) : UInt8 := 65 + (getRand 0 25 r).toUInt8

/-- `orig_pattern` by its index. -/
abbrev Pattern := Nat → UInt8

/-- `fill_pattern`, which draws one number for each byte. -/
def fillPattern (draws : Nat → Rand) (size : Nat) : Pattern :=
  fun i => if i < size then randChar (draws i) else 0

def Pattern.bytes (p : Pattern) (start n : Nat) : List UInt8 :=
  (List.range n).map fun i => p (start + i)

/-- A loop of `prep_orig_file`: the longest write it makes in each round, and
where in `orig_pattern` the bytes for an offset are. -/
structure WriteLoop where
  chunk : Nat → Nat
  start : Nat → Nat
  chunk_pos : ∀ k, 0 < chunk k

/-- From round `k` on. The file without a name that is written in turn is left out. -/
def WriteLoop.run (l : WriteLoop) (p : Pattern) (size k : Nat) (f : ByteFile) (offset : Nat) :
    ByteFile :=
  if offset < size then
    let writeSize := if offset + l.chunk k > size then size - offset else l.chunk k
    l.run p size (k + 1) (f.pwrite (p.bytes (l.start offset) writeSize) offset)
      (offset + writeSize)
  else f
termination_by size - offset
decreasing_by
  have := l.chunk_pos k
  split <;> omega

/-- More than `PATTERN_SIZE`, with `once`. -/
def hugeOnce : WriteLoop where
  chunk _ := PATTERN_SIZE
  start _ := 0
  chunk_pos _ := by decide

/-- More than `PATTERN_SIZE`, in turns. -/
def hugeTurns : WriteLoop where
  chunk _ := M_SIZE
  start offset := offset % PATTERN_SIZE
  chunk_pos _ := by decide

/-- Up to `PATTERN_SIZE`, in turns; `draws` go on behind those of the pattern. -/
def smallTurns (randTest : Bool) (draws : Nat → Rand) (size : Nat) : WriteLoop where
  chunk k :=
    if randTest then
      if size ≥ HUNK_SIZE * 2 then getRand 1 (HUNK_SIZE * 2) (draws (size + k))
      else getRand 1 size (draws (size + k))
    else HUNK_SIZE
  start offset := offset
  chunk_pos k := by
    have hpos (max : Nat) (r : Rand) : 0 < getRand 1 max r := by
      rw [getRand, if_neg (by omega)]
      omega
    split
    · split <;> apply hpos
    · decide

/-- `orig_pattern` and the file. It is opened without `O_TRUNC`. -/
def prepOrigFile (randTest once : Bool) (draws : Nat → Rand) (size : Nat) (f : ByteFile) :
    Pattern × ByteFile :=
  if size > PATTERN_SIZE then
    let p := fillPattern draws PATTERN_SIZE
    if once then (p, hugeOnce.run p size 0 f 0) else (p, hugeTurns.run p size 0 f 0)
  else
    let p := fillPattern draws size
    if once then (p, f.pwrite (p.bytes 0 size) 0)
    else (p, (smallTurns randTest draws size).run p size 0 f 0)

/-- `n` bytes from `buf + i` on. A byte that is not there to be read is a `SIGBUS`. -/
def verifyPattern (p : Pattern) (buf : Nat → Option UInt8) (offset : Nat) : Nat → Nat → Option Int
  | 0, _ => some 0
  | n + 1, i =>
    match buf i with
    | none => none
    | some c => if c ≠ p (offset + i) then some (-1) else verifyPattern p buf offset n (i + 1)

def verifyReads (p : Pattern) (f : ByteFile) (offset : Nat) : Option Int :=
  let buf := f.pread HUNK_SIZE offset
  if 0 < buf.length then
    match verifyPattern p (fun i => buf[i]?) offset buf.length 0 with
    | some 0 =>
      if offset + buf.length ≥ PATTERN_SIZE then some 0
      else verifyReads p f (offset + buf.length)
    | ret => ret
  else some 0
termination_by f.size - offset
decreasing_by
  simp only [buf, ByteFile.length_pread] at *
  omega

structure Mapping where
  pageSize : Nat
  fails : Bool
  pageSize_pos : 0 < pageSize

/-- The last page of a file goes on with zeros; behind it nothing is mapped. -/
def Mapping.region (m : Mapping) (f : ByteFile) (i : Nat) : Option UInt8 :=
  if i < (f.size + m.pageSize - 1) / m.pageSize * m.pageSize then some (f.byte i) else none

def verifySize (fileSize : Nat) : Nat := if fileSize > PATTERN_SIZE then PATTERN_SIZE else fileSize

/-- `verify_orig_file`; a file that cannot be opened is `none`. -/
def verifyOrigFile (mmapTest : Bool) (m : Mapping) (p : Pattern) (fileSize : Nat) :
    Option ByteFile → Option Int
  | none => some (-1)
  | some f =>
    if mmapTest then
      -- the error of a failed `mmap` is given up for the 0 from before
      if m.fails then some 0 else verifyPattern p (m.region f) 0 (verifySize fileSize) 0
    else verifyReads p f 0

-- ---------------------------------------------------------------------------
-- What is verified
-- ---------------------------------------------------------------------------

section
variable {p : Pattern} {buf : Nat → Option UInt8} {f : ByteFile} {offset n k i : Nat}

theorem verifyPattern_add (n k i : Nat) :
    verifyPattern p buf offset (n + k) i =
      if verifyPattern p buf offset n i = some 0 then verifyPattern p buf offset k (i + n)
      else verifyPattern p buf offset n i := by
  induction n generalizing i with
  | zero => simp [verifyPattern]
  | succ n ih =>
    rw [Nat.succ_add, verifyPattern, verifyPattern]
    split
    · rfl
    · split
      · rfl
      · rw [ih, Nat.succ_add_eq_add_succ]

theorem verifyPattern_eq (hbuf : ∀ j, i ≤ j → j < i + n → buf j = some (f.byte (offset + j))) :
    (verifyPattern p buf offset n i = some 0 ∧
        SameBytes f.byte p (offset + i) (offset + i + n)) ∨
      (verifyPattern p buf offset n i = some (-1) ∧
        ¬ SameBytes f.byte p (offset + i) (offset + i + n)) := by
  induction n generalizing i with
  | zero => exact .inl ⟨rfl, fun x hx hx' => by omega⟩
  | succ n ih =>
    rw [verifyPattern, hbuf i (Nat.le_refl i) (by omega)]
    by_cases hc : f.byte (offset + i) = p (offset + i)
    · have hrest := @ih (i + 1) fun j hj hj' => hbuf j (by omega) (by omega)
      have hfirst : SameBytes f.byte p (offset + i) (offset + i + 1) := by
        intro x hx hx'
        obtain rfl : x = offset + i := by omega
        exact hc
      rw [SameBytes.split (Nat.le_succ (offset + i)) (by omega : _ ≤ offset + i + (n + 1)),
        and_iff_right hfirst]
      simp only [hc, ne_eq, not_true_eq_false, if_false]
      rwa [← Nat.add_assoc, Nat.add_right_comm (offset + i) 1 n] at hrest
    · refine .inr ⟨if_pos hc, fun h => hc (h _ (Nat.le_refl _) (by omega))⟩

theorem verifyPattern_pread (p : Pattern) (f : ByteFile) (n offset : Nat) :
    (verifyPattern p (fun i => (f.pread n offset)[i]?) offset (f.pread n offset).length 0 = some 0 ∧
        SameBytes f.byte p offset (offset + (f.pread n offset).length)) ∨
      (verifyPattern p (fun i => (f.pread n offset)[i]?) offset (f.pread n offset).length 0 =
          some (-1) ∧
        ¬ SameBytes f.byte p offset (offset + (f.pread n offset).length)) := by
  apply verifyPattern_eq
  intro j _ hj
  rw [Nat.zero_add] at hj
  rw [List.getElem?_eq_getElem hj, ByteFile.pread_getElem]

theorem verifyReads_eq (h : (PATTERN_SIZE - offset) % HUNK_SIZE = 0 ∧ offset < PATTERN_SIZE ∨
      f.size ≤ offset) :
    (verifyReads p f offset = some 0 ∧
        SameBytes f.byte p offset (min f.size PATTERN_SIZE)) ∨
      (verifyReads p f offset = some (-1) ∧
        ¬ SameBytes f.byte p offset (min f.size PATTERN_SIZE)) := by
  have hhunk : 0 < HUNK_SIZE := by decide
  have hlen (o : Nat) : (f.pread HUNK_SIZE o).length = min HUNK_SIZE (f.size - o) :=
    ByteFile.length_pread
  -- a hunk that is not empty is inside the pattern
  have hinside (o : Nat) (ho : (PATTERN_SIZE - o) % HUNK_SIZE = 0 ∧ o < PATTERN_SIZE ∨ f.size ≤ o)
      (hpos : 0 < (f.pread HUNK_SIZE o).length) :
      (PATTERN_SIZE - o) % HUNK_SIZE = 0 ∧ o + HUNK_SIZE ≤ PATTERN_SIZE := by
    rw [ByteFile.length_pread] at hpos
    obtain ⟨hmod, hlt⟩ : _ ∧ o < PATTERN_SIZE := ho.resolve_right (by omega)
    have hle := Nat.le_of_dvd (by omega) (Nat.dvd_of_mod_eq_zero hmod)
    exact ⟨hmod, by omega⟩
  fun_induction verifyReads p f offset with
  | case1 offset buf hbuf hver hend =>
    have hin := hinside offset h hbuf
    obtain ⟨-, hsame⟩ | ⟨hneg, -⟩ := verifyPattern_pread p f HUNK_SIZE offset
    · have hstop : min f.size PATTERN_SIZE = offset + (f.pread HUNK_SIZE offset).length := by
        simp only [buf] at hend
        rw [hlen] at hend ⊢
        omega
      rw [hstop]
      exact .inl ⟨rfl, hsame⟩
    · cases hver.symm.trans hneg
  | case2 offset buf hbuf hver hend ih =>
    have hin := hinside offset h hbuf
    obtain ⟨-, hsame⟩ | ⟨hneg, -⟩ := verifyPattern_pread p f HUNK_SIZE offset
    · have hnext : (PATTERN_SIZE - (offset + buf.length)) % HUNK_SIZE = 0 ∧
          offset + buf.length < PATTERN_SIZE ∨ f.size ≤ offset + buf.length := by
        simp only [buf, hlen] at hend ⊢
        by_cases hfull : HUNK_SIZE ≤ f.size - offset
        · rw [Nat.min_eq_left hfull] at hend ⊢
          left
          rw [← Nat.sub_sub, ← Nat.mod_eq_sub_mod (by omega)]
          exact ⟨hin.1, by omega⟩
        · right
          omega
      have hle : offset + buf.length ≤ min f.size PATTERN_SIZE := by
        simp only [buf, hlen] at hbuf ⊢
        omega
      rw [SameBytes.split (Nat.le_add_right offset buf.length) hle, and_iff_right hsame]
      exact ih hnext
    · cases hver.symm.trans hneg
  | case3 offset buf hbuf hver =>
    have hin := hinside offset h hbuf
    obtain ⟨hzero, -⟩ | ⟨hneg, hdiff⟩ := verifyPattern_pread p f HUNK_SIZE offset
    · exact absurd hzero hver
    · refine .inr ⟨hneg, fun hall => hdiff fun x hx hx' => hall x hx ?_⟩
      rw [hlen] at hx'
      omega
  | case4 offset buf hbuf =>
    refine .inl ⟨rfl, fun x hx hx' => ?_⟩
    simp only [buf, hlen] at hbuf
    omega

theorem lt_pages (m : Mapping) (h : i < f.size) :
    i < (f.size + m.pageSize - 1) / m.pageSize * m.pageSize := by
  have hdiv := Nat.div_add_mod' (f.size + m.pageSize - 1) m.pageSize
  have hlt := Nat.mod_lt (f.size + m.pageSize - 1) m.pageSize_pos
  have hpos := m.pageSize_pos
  omega

theorem region_eq (m : Mapping) (h : i < f.size) : m.region f i = some (f.byte i) :=
  if_pos (lt_pages m h)

theorem verifyPattern_region (m : Mapping) (p : Pattern) (h : n ≤ f.size) :
    (verifyPattern p (m.region f) 0 n 0 = some 0 ∧ SameBytes f.byte p 0 n) ∨
      (verifyPattern p (m.region f) 0 n 0 = some (-1) ∧ ¬ SameBytes f.byte p 0 n) := by
  have hregion : ∀ j, 0 ≤ j → j < 0 + n → m.region f j = some (f.byte (0 + j)) := by
    intro j _ hj
    rw [region_eq m (by omega), Nat.zero_add]
  have hver := verifyPattern_eq (p := p) hregion
  rwa [Nat.add_zero, Nat.zero_add] at hver

end

-- ---------------------------------------------------------------------------
-- The prepared file
-- ---------------------------------------------------------------------------

/-- `f₀` with the pattern over its first `n` bytes. -/
structure Written (p : Pattern) (n : Nat) (f₀ f : ByteFile) : Prop where
  size_le : n ≤ f.size
  bytes : ∀ x < n, f.byte x = p (x % PATTERN_SIZE)
  rest : ∀ x, n ≤ x → f.byte x = f₀.byte x

section
variable {p : Pattern} {f₀ f : ByteFile} {l : WriteLoop} {A : Nat → Prop}
  {size offset start n k : Nat}

theorem Written.write (h : Written p offset f₀ f)
    (hstart : ∀ j < n, p (start + j) = p ((offset + j) % PATTERN_SIZE)) :
    Written p (offset + n) f₀ (f.pwrite (p.bytes start n) offset) := by
  have hlen : (p.bytes start n).length = n := by
    rw [Pattern.bytes, List.length_map, List.length_range]
  refine ⟨?_, fun x hx => ?_, fun x hx => ?_⟩
  · rcases Nat.eq_zero_or_pos n with rfl | hn
    · exact h.size_le.trans (f.size_le_pwrite _ _)
    · apply Nat.le_of_pred_lt
      apply ByteFile.lt_size_pwrite
      · rw [Nat.pred_eq_sub_one]
        omega
      · rw [hlen, Nat.pred_eq_sub_one]
        omega
  · by_cases hlo : offset ≤ x
    · obtain ⟨j, rfl⟩ := Nat.exists_eq_add_of_le hlo
      have hj : j < n := by omega
      rw [ByteFile.byte_pwrite_of_mem hlo (by rwa [hlen]), Nat.add_sub_cancel_left, ← hstart j hj,
        List.getD_eq_getElem _ _ (by rwa [hlen])]
      simp only [Pattern.bytes, List.getElem_map, List.getElem_range]
    · rw [ByteFile.byte_pwrite_of_lt (Nat.not_le.mp hlo), h.bytes x (Nat.not_le.mp hlo)]
  · rw [ByteFile.byte_pwrite, if_neg (by rw [hlen]; omega), h.rest x (by omega)]

/-- `A` holds of the offsets that the loop comes to, and there it starts at the
right place of the pattern. -/
structure WriteLoop.Follows (l : WriteLoop) (p : Pattern) (size : Nat) (A : Nat → Prop) : Prop where
  zero : A 0
  next : ∀ k o, A o → A (o + l.chunk k)
  start : ∀ k o, A o → ∀ j < l.chunk k, o + j < size →
    p (l.start o + j) = p ((o + j) % PATTERN_SIZE)

theorem WriteLoop.Follows.run (hl : l.Follows p size A) (ho : offset ≤ size)
    (hA : offset < size → A offset) (h : Written p offset f₀ f) :
    Written p size f₀ (l.run p size k f offset) := by
  fun_induction WriteLoop.run l p size k f offset with
  | case1 k f offset hlt writeSize ih =>
    have hlen : writeSize ≤ l.chunk k ∧ offset + writeSize ≤ size := by
      simp only [writeSize]
      split <;> omega
    apply ih hlen.2
    · -- a write that is cut is the last one
      intro hmore
      have hfull : writeSize = l.chunk k := by
        simp only [writeSize] at hmore ⊢
        split at hmore
        · omega
        · next hcut => exact if_neg hcut
      rw [hfull]
      exact hl.next k offset (hA hlt)
    · apply h.write
      exact fun j hj => hl.start k offset (hA hlt) j (by omega) (by omega)
  | case2 k f offset hge =>
    obtain rfl : offset = size := by omega
    exact h

theorem written_zero (p : Pattern) (f₀ : ByteFile) : Written p 0 f₀ f₀ :=
  ⟨Nat.zero_le _, fun x hx => absurd hx (Nat.not_lt_zero x), fun _ _ => rfl⟩

theorem WriteLoop.Follows.run_zero (hl : l.Follows p size A) (f₀ : ByteFile) :
    Written p size f₀ (l.run p size 0 f₀ 0) := by
  apply hl.run (Nat.zero_le size) (fun _ => hl.zero)
  apply written_zero

theorem hugeOnce_follows (p : Pattern) (size : Nat) :
    hugeOnce.Follows p size fun o => o % PATTERN_SIZE = 0 where
  zero := Nat.zero_mod _
  next k o ho := by
    rw [hugeOnce, Nat.add_mod_right]
    exact ho
  start k o ho j hj _ := by
    have hj' : j < PATTERN_SIZE := hj
    rw [hugeOnce, Nat.zero_add, Nat.add_mod, ho, Nat.zero_add, Nat.mod_mod, Nat.mod_eq_of_lt hj']

theorem hugeTurns_follows (p : Pattern) (size : Nat) :
    hugeTurns.Follows p size fun o => o % M_SIZE = 0 where
  zero := Nat.zero_mod _
  next k o ho := by
    rw [hugeTurns, Nat.add_mod_right]
    exact ho
  start k o ho j hj _ := by
    have hj' : j < M_SIZE := hj
    have hlt : o % PATTERN_SIZE + j < PATTERN_SIZE := by
      simp only [PATTERN_SIZE, M_SIZE] at ho hj' ⊢
      omega
    rw [hugeTurns, ← Nat.mod_add_mod, Nat.mod_eq_of_lt hlt]

theorem smallTurns_follows (p : Pattern) (randTest : Bool) (draws : Nat → Rand)
    (h : size ≤ PATTERN_SIZE) : (smallTurns randTest draws size).Follows p size fun _ => True where
  zero := trivial
  next _ _ _ := trivial
  start k o _ j _ hlt := by
    rw [Nat.mod_eq_of_lt (by omega)]
    rfl

theorem prepOrigFile_written (randTest once : Bool) (draws : Nat → Rand) (size : Nat)
    (f₀ : ByteFile) :
    (prepOrigFile randTest once draws size f₀).1 = fillPattern draws (verifySize size) ∧
      Written (prepOrigFile randTest once draws size f₀).1 size f₀
        (prepOrigFile randTest once draws size f₀).2 := by
  rw [prepOrigFile, verifySize]
  split
  · cases once with
    | true => exact ⟨rfl, (hugeOnce_follows _ size).run_zero f₀⟩
    | false => exact ⟨rfl, (hugeTurns_follows _ size).run_zero f₀⟩
  · next hle =>
    cases once with
    | false =>
      exact ⟨rfl, (smallTurns_follows _ randTest draws (Nat.not_lt.mp hle)).run_zero f₀⟩
    | true =>
      have hwrite := @Written.write (fillPattern draws size) f₀ f₀ 0 0 size (written_zero _ f₀)
      rw [Nat.zero_add] at hwrite
      refine ⟨rfl, hwrite fun j hj => ?_⟩
      rw [Nat.zero_add, Nat.mod_eq_of_lt (by omega)]

end

-- ---------------------------------------------------------------------------
-- The verdicts
-- ---------------------------------------------------------------------------

section
variable (m : Mapping) (p : Pattern) (fileSize : Nat) (f : ByteFile)

/-- The file has the bytes that are to be verified. -/
def Original : Prop := verifySize fileSize ≤ f.size ∧ SameBytes f.byte p 0 (verifySize fileSize)

/-- A 0 says that the file is the original one, and both modes say the same. -/
structure Trusted : Prop where
  mmap : verifyOrigFile true m p fileSize (some f) = some 0 → Original p fileSize f
  read : verifyOrigFile false m p fileSize (some f) = some 0 → Original p fileSize f
  same : verifyOrigFile true m p fileSize (some f) = verifyOrigFile false m p fileSize (some f)

/-- A byte that both modes look at differs, or the file is long enough and no byte
behind `file_size` differs that only the reads look at. When `mmap` fails nothing
may differ. -/
def Decides : Prop :=
  if m.fails then
    verifySize fileSize ≤ f.size ∧ SameBytes f.byte p 0 (min f.size PATTERN_SIZE)
  else
    ¬ SameBytes f.byte p 0 (min f.size (verifySize fileSize)) ∨
      verifySize fileSize ≤ f.size ∧
        SameBytes f.byte p (verifySize fileSize) (min f.size PATTERN_SIZE)

end

section
variable {m : Mapping} {p : Pattern} {fileSize : Nat} {f : ByteFile}

theorem verifySize_le (fileSize : Nat) : verifySize fileSize ≤ PATTERN_SIZE := by
  rw [verifySize]
  split <;> omega

theorem verifyOrigFile_read (m : Mapping) (p : Pattern) (fileSize : Nat) (f : ByteFile) :
    (verifyOrigFile false m p fileSize (some f) = some 0 ∧
        SameBytes f.byte p 0 (min f.size PATTERN_SIZE)) ∨
      (verifyOrigFile false m p fileSize (some f) = some (-1) ∧
        ¬ SameBytes f.byte p 0 (min f.size PATTERN_SIZE)) :=
  verifyReads_eq (.inl (by decide))

theorem verifyPattern_short (m : Mapping) (p : Pattern) (h : f.size ≤ n) :
    verifyPattern p (m.region f) 0 n 0 = some (-1) ∨ SameBytes f.byte p 0 f.size := by
  obtain ⟨k, rfl⟩ := Nat.exists_eq_add_of_le h
  rw [verifyPattern_add]
  obtain ⟨-, hsame⟩ | ⟨hneg, -⟩ := verifyPattern_region m p (Nat.le_refl f.size)
  · exact .inr hsame
  · left
    rw [hneg, if_neg (by decide)]

theorem trusted_of_fails (hm : m.fails = true) :
    Trusted m p fileSize f ↔
      verifySize fileSize ≤ f.size ∧ SameBytes f.byte p 0 (min f.size PATTERN_SIZE) := by
  have hmmap : verifyOrigFile true m p fileSize (some f) = some 0 := if_pos hm
  constructor
  · intro h
    refine ⟨(h.mmap hmmap).1, ?_⟩
    obtain ⟨-, hsame⟩ | ⟨hneg, -⟩ := verifyOrigFile_read m p fileSize f
    · exact hsame
    · cases hmmap.symm.trans (h.same.trans hneg)
  · rintro ⟨hsize, hsame⟩
    have horig : Original p fileSize f := by
      refine ⟨hsize, fun x hx hx' => hsame x hx ?_⟩
      have hle := verifySize_le fileSize
      omega
    obtain ⟨hzero, -⟩ | ⟨-, hdiff⟩ := verifyOrigFile_read m p fileSize f
    · exact ⟨fun _ => horig, fun _ => horig, hmmap.trans hzero.symm⟩
    · exact absurd hsame hdiff

theorem trusted_of_le (hm : m.fails = false) (hsize : verifySize fileSize ≤ f.size) :
    Trusted m p fileSize f ↔
      ¬ SameBytes f.byte p 0 (verifySize fileSize) ∨
        SameBytes f.byte p (verifySize fileSize) (min f.size PATTERN_SIZE) := by
  have hle := verifySize_le fileSize
  have hmmap : verifyOrigFile true m p fileSize (some f) =
      verifyPattern p (m.region f) 0 (verifySize fileSize) 0 := if_neg (by rw [hm]; decide)
  have hread := verifyOrigFile_read m p fileSize f
  rw [SameBytes.split (Nat.zero_le _) (by omega : verifySize fileSize ≤ min f.size PATTERN_SIZE)]
    at hread
  obtain ⟨hzero, hsame⟩ | ⟨hneg, hdiff⟩ := verifyPattern_region m p hsize
  · have horig : Original p fileSize f := ⟨hsize, hsame⟩
    obtain ⟨hr, -, hrest⟩ | ⟨hr, hrest⟩ := hread
    · exact iff_of_true ⟨fun _ => horig, fun _ => horig, by rw [hmmap, hzero, hr]⟩ (.inr hrest)
    · refine iff_of_false (fun h => ?_) ?_
      · have hsame := h.same
        rw [hmmap, hzero, hr] at hsame
        cases hsame
      · rintro (hdiff | hrest')
        · exact hdiff hsame
        · exact hrest ⟨hsame, hrest'⟩
  · obtain ⟨-, hsame, -⟩ | ⟨hr, -⟩ := hread
    · exact absurd hsame hdiff
    · refine iff_of_true ⟨fun h => ?_, fun h => ?_, by rw [hmmap, hneg, hr]⟩ (.inl hdiff)
      · cases h.symm.trans (hmmap.trans hneg)
      · cases h.symm.trans hr

theorem trusted_of_lt (hm : m.fails = false) (hsize : f.size < verifySize fileSize) :
    Trusted m p fileSize f ↔ ¬ SameBytes f.byte p 0 f.size := by
  have hle := verifySize_le fileSize
  have hmmap : verifyOrigFile true m p fileSize (some f) =
      verifyPattern p (m.region f) 0 (verifySize fileSize) 0 := if_neg (by rw [hm]; decide)
  have hread := verifyOrigFile_read m p fileSize f
  rw [Nat.min_eq_left (by omega : f.size ≤ PATTERN_SIZE)] at hread
  obtain ⟨hr, hsame⟩ | ⟨hr, hdiff⟩ := hread
  · refine iff_of_false (fun h => ?_) (not_not_intro hsame)
    exact absurd (h.read hr).1 (Nat.not_le.mpr hsize)
  · obtain hneg | hsame := verifyPattern_short m p (Nat.le_of_lt hsize)
    · refine iff_of_true ⟨fun h => ?_, fun h => ?_, by rw [hmmap, hneg, hr]⟩ hdiff
      · cases h.symm.trans (hmmap.trans hneg)
      · cases h.symm.trans hr
    · exact absurd hsame hdiff

theorem trusted_iff : Trusted m p fileSize f ↔ Decides m p fileSize f := by
  rw [Decides]
  split
  · next hm => exact trusted_of_fails hm
  · next hm =>
    rw [Bool.not_eq_true] at hm
    by_cases hsize : verifySize fileSize ≤ f.size
    · rw [trusted_of_le hm hsize, Nat.min_eq_right hsize]
      simp only [hsize, true_and]
    · rw [trusted_of_lt hm (Nat.not_le.mp hsize), Nat.min_eq_left (Nat.le_of_not_le hsize)]
      simp only [hsize, false_and, or_false]

theorem prepOrigFile_verifies (m : Mapping) (randTest once : Bool) (draws : Nat → Rand)
    (size : Nat) (f₀ : ByteFile) :
    verifyOrigFile true m (prepOrigFile randTest once draws size f₀).1 size
        (some (prepOrigFile randTest once draws size f₀).2) = some 0 ∧
      (verifyOrigFile false m (prepOrigFile randTest once draws size f₀).1 size
          (some (prepOrigFile randTest once draws size f₀).2) = some 0 ↔
        ∀ x, size ≤ x → x < PATTERN_SIZE → f₀.byte x = 0) := by
  obtain ⟨hp, hw⟩ := prepOrigFile_written randTest once draws size f₀
  generalize (prepOrigFile randTest once draws size f₀).1 = p at *
  generalize (prepOrigFile randTest once draws size f₀).2 = f at *
  have hle := verifySize_le size
  have hsize : verifySize size ≤ size := by
    rw [verifySize]
    split <;> omega
  have hsame (x : Nat) (hx : x < size) (hx' : x < PATTERN_SIZE) : f.byte x = p x := by
    rw [hw.bytes x hx, Nat.mod_eq_of_lt hx']
  constructor
  · rw [verifyOrigFile, if_pos rfl]
    split
    · rfl
    · obtain ⟨hzero, -⟩ | ⟨-, hdiff⟩ := verifyPattern_region m p (hsize.trans hw.size_le)
      · exact hzero
      · exact absurd (fun x _ hx => hsame x (by omega) (by omega)) hdiff
  · have hzeros (x : Nat) (hx : size ≤ x) (hx' : x < PATTERN_SIZE) : p x = 0 := by
      rw [hp, fillPattern, if_neg (by omega)]
    obtain ⟨hr, hall⟩ | ⟨hr, hdiff⟩ := verifyOrigFile_read m p size f
    · refine iff_of_true hr fun x hx hx' => ?_
      rw [← hw.rest x hx]
      by_cases hend : x < f.size
      · rw [hall x (Nat.zero_le x) (by omega), hzeros x hx hx']
      · exact f.zero_beyond x (Nat.not_lt.mp hend)
    · refine iff_of_false (fun h => ?_) fun hrest => hdiff fun x _ hx => ?_
      · cases h.symm.trans hr
      · by_cases hlt : x < size
        · exact hsame x hlt (by omega)
        · rw [hw.rest x (by omega), hrest x (by omega) (by omega), hzeros x (by omega) (by omega)]

end

/-- Prepared files pass, and for any file the verdicts can be trusted exactly when
the file is as `Decides` says. -/
theorem verifyOrigFile_trusted_iff (m : Mapping) (fileSize : Nat) :
    (∀ randTest once draws f₀,
      verifyOrigFile true m (prepOrigFile randTest once draws fileSize f₀).1 fileSize
          (some (prepOrigFile randTest once draws fileSize f₀).2) = some 0 ∧
        (verifyOrigFile false m (prepOrigFile randTest once draws fileSize f₀).1 fileSize
            (some (prepOrigFile randTest once draws fileSize f₀).2) = some 0 ↔
          ∀ x, fileSize ≤ x → x < PATTERN_SIZE → f₀.byte x = 0)) ∧
      ∀ p f, Trusted m p fileSize f ↔ Decides m p fileSize f :=
  ⟨fun randTest once draws f₀ => prepOrigFile_verifies m randTest once draws fileSize f₀,
    fun _ _ => trusted_iff⟩

/-- A file that has lost all its bytes is read to its end at once. -/
theorem verifyOrigFile_empty :
    verifyOrigFile false ⟨4096, false, by decide⟩ (fillPattern (fun _ => 0) 1048576) 1048576
        (some ByteFile.empty) = some 0 ∧
      ¬ Original (fillPattern (fun _ => 0) 1048576) 1048576 ByteFile.empty := by
  constructor
  · obtain ⟨hzero, -⟩ | ⟨-, hdiff⟩ := verifyOrigFile_read ⟨4096, false, by decide⟩
      (fillPattern (fun _ => 0) 1048576) 1048576 ByteFile.empty
    · exact hzero
    · refine absurd (fun x _ hx => ?_) hdiff
      exact absurd hx (Nat.not_lt_zero x)
  · intro h
    exact absurd h.1 (by decide)

end Ocfs2Test.Reflink
