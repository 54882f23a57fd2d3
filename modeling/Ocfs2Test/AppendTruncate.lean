import Ocfs2Test.Lib.ByteFile
import Ocfs2Test.Lib.Stdio

/-!
# write_append_truncate

The loop of `main`: one rank appends, another truncates up, and rank 0 then
decides from what it reads whether the two came one after the other. The file the
race leaves is arbitrary. `memcmp` is known only to be 0 on equal bytes; the
bytes of `read_buf` past the end of the file are those of an earlier loop, or of
the stack.
-/

namespace Ocfs2Test.AppendTruncate

open Lib Stdio

def CHUNK_SIZE_MAX : Nat := 123456

def CHUNK_CHAR : UInt8 := 67

def APPEND_SIZE_MAX : Nat := 123456

def APPEND_CHAR : UInt8 := 65

def TRUNC_SIZE_MAX : Nat := CHUNK_SIZE_MAX + APPEND_SIZE_MAX

def READ_BUF_SIZE : Nat := TRUNC_SIZE_MAX + APPEND_SIZE_MAX

structure Draw where
  chunkSize : Nat
  appendSize : Nat
  truncOffset : Nat
  chunk_pos : 0 < chunkSize
  append_pos : 0 < appendSize
  chunk_le : chunkSize < CHUNK_SIZE_MAX
  append_le : appendSize < APPEND_SIZE_MAX
  chunk_le_trunc : chunkSize ≤ truncOffset
  trunc_lt : truncOffset < chunkSize + appendSize

def draw (r₁ r₂ r₃ : Rand) : Draw where
  chunkSize := r₁.val % (CHUNK_SIZE_MAX - 1) + 1
  appendSize := r₂.val % (APPEND_SIZE_MAX - 1) + 1
  truncOffset := r₁.val % (CHUNK_SIZE_MAX - 1) + 1 + r₃.val % (r₂.val % (APPEND_SIZE_MAX - 1) + 1)
  chunk_pos := Nat.succ_pos _
  append_pos := Nat.succ_pos _
  chunk_le := by
    have := Nat.mod_lt r₁.val (show 0 < CHUNK_SIZE_MAX - 1 by decide)
    simp only [CHUNK_SIZE_MAX] at *
    omega
  append_le := by
    have := Nat.mod_lt r₂.val (show 0 < APPEND_SIZE_MAX - 1 by decide)
    simp only [APPEND_SIZE_MAX] at *
    omega
  chunk_le_trunc := Nat.le_add_right _ _
  trunc_lt := Nat.add_lt_add_left (Nat.mod_lt _ (Nat.succ_pos _)) _

-- ---------------------------------------------------------------------------
-- What the race may leave
-- ---------------------------------------------------------------------------

section
variable (d : Draw)

/-- `write` on a descriptor opened with `O_APPEND`. -/
def append (f : ByteFile) (data : List UInt8) : ByteFile := f.pwrite data f.size

def chunkFile : ByteFile := append ByteFile.empty (List.replicate d.chunkSize CHUNK_CHAR)

def appendFirst : ByteFile :=
  (append (chunkFile d) (List.replicate d.appendSize APPEND_CHAR)).truncate d.truncOffset

def truncateFirst : ByteFile :=
  append ((chunkFile d).truncate d.truncOffset) (List.replicate d.appendSize APPEND_CHAR)

def Serial (f : ByteFile) : Prop := f = appendFirst d ∨ f = truncateFirst d

end

-- ---------------------------------------------------------------------------
-- The check
-- ---------------------------------------------------------------------------

abbrev Buffer := Nat → UInt8

def Buffer.bytes (b : Buffer) (off n : Nat) : List UInt8 := (List.range n).map fun i => b (off + i)

/-- `read_buf` once all of the file is in it. -/
def readBuf (old : Buffer) (f : ByteFile) : Buffer := fun i => if i < f.size then f.byte i else old i

abbrev Memcmp := List UInt8 → List UInt8 → Int

def checkResult (memcmp : Memcmp) (d : Draw) (size : Nat) (buf : Buffer) : Int :=
  let base := memcmp (buf.bytes 0 d.chunkSize) (List.replicate d.chunkSize CHUNK_CHAR)
  let error := if base ≠ 0 then 1 else 0
  if size = d.truncOffset then
    memcmp (buf.bytes d.chunkSize (d.truncOffset - d.chunkSize))
      (List.replicate (d.truncOffset - d.chunkSize) APPEND_CHAR)
  else
    if memcmp (buf.bytes d.chunkSize (d.truncOffset - d.chunkSize))
        (List.replicate (d.truncOffset - d.chunkSize) 0) ≠ 0 then 1
    else if memcmp (buf.bytes d.truncOffset d.appendSize)
        (List.replicate d.appendSize APPEND_CHAR) ≠ 0 then 1
    else error

inductive Verdict
  /-- `read` runs past the end of `read_buf`. -/
  | overrun
  /-- `rprintf` on every rank. -/
  | abort
  | go (buf : Buffer)

/-- From the second barrier of a loop to its end; every rank has the `error` of
rank 0 after the broadcast. -/
def endOfLoop (memcmp : Memcmp) (d : Draw) (old : Buffer) (f : ByteFile) : Verdict :=
  if READ_BUF_SIZE < f.size then .overrun
  else
    let buf := readBuf old f
    if checkResult memcmp d f.size buf = 1 then .abort else .go buf

structure Round where
  draw : Draw
  raced : ByteFile

def mainLoop (memcmp : Memcmp) : List Round → Buffer → Verdict
  | [], buf => .go buf
  | round :: rounds, buf =>
    match endOfLoop memcmp round.draw buf round.raced with
    | .go buf => mainLoop memcmp rounds buf
    | verdict => verdict

-- ---------------------------------------------------------------------------
-- When the verdict is right
-- ---------------------------------------------------------------------------

def Filled (b : Buffer) (off n : Nat) (c : UInt8) : Prop := ∀ i < n, b (off + i) = c

def ZeroIffEqual (memcmp : Memcmp) : Prop :=
  ∀ a b, a.length = b.length → (memcmp a b = 0 ↔ a = b)

/-- The chunk, the hole and the append, as far as the second case looks. -/
structure Passes (d : Draw) (b : Buffer) : Prop where
  chunk : Filled b 0 d.chunkSize CHUNK_CHAR
  hole : Filled b d.chunkSize (d.truncOffset - d.chunkSize) 0
  tail : Filled b d.truncOffset d.appendSize APPEND_CHAR

/-- `error` of the chunk is overwritten by that of what follows it. -/
structure ChunkForgotten (d : Draw) (f : ByteFile) : Prop where
  size : f.size = d.truncOffset
  chunk : ¬ Filled f.byte 0 d.chunkSize CHUNK_CHAR
  tail : Filled f.byte d.chunkSize (d.truncOffset - d.chunkSize) APPEND_CHAR

/-- A difference for which `memcmp` returns something other than 1. -/
structure OtherSign (memcmp : Memcmp) (d : Draw) (f : ByteFile) : Prop where
  size : f.size = d.truncOffset
  tail : ¬ Filled f.byte d.chunkSize (d.truncOffset - d.chunkSize) APPEND_CHAR
  sign : memcmp (Buffer.bytes f.byte d.chunkSize (d.truncOffset - d.chunkSize))
    (List.replicate (d.truncOffset - d.chunkSize) APPEND_CHAR) ≠ 1

/-- What the file lacks is still in `read_buf`. -/
structure StaleTail (d : Draw) (old : Buffer) (f : ByteFile) : Prop where
  size : f.size ≠ d.truncOffset
  short : f.size < d.truncOffset + d.appendSize
  passes : Passes d (readBuf old f)

/-- Nothing looks past the append. -/
structure TooLong (d : Draw) (f : ByteFile) : Prop where
  long : d.truncOffset + d.appendSize < f.size
  passes : Passes d f.byte

section
variable {memcmp : Memcmp} {d : Draw} {old : Buffer} {f : ByteFile} {b b' : Buffer} {off n : Nat}
  {c : UInt8}

theorem Filled.byte (h : Filled b off n c) (hlo : off ≤ i) (hhi : i < off + n) : b i = c := by
  rw [← Nat.add_sub_cancel' hlo]
  exact h _ (by omega)

theorem bytes_eq_replicate : b.bytes off n = List.replicate n c ↔ Filled b off n c := by
  rw [List.eq_replicate_iff]
  simp [Buffer.bytes, Filled]

theorem memcmp_eq_zero (h : ZeroIffEqual memcmp) :
    memcmp (b.bytes off n) (List.replicate n c) = 0 ↔ Filled b off n c := by
  rw [h _ _ (by simp [Buffer.bytes]), bytes_eq_replicate]

theorem bytes_readBuf (old : Buffer) (h : off + n ≤ f.size) :
    (readBuf old f).bytes off n = Buffer.bytes f.byte off n := by
  refine List.map_congr_left fun i hi => ?_
  rw [readBuf, if_pos (by have := List.mem_range.mp hi; omega)]

theorem filled_readBuf (old : Buffer) (h : off + n ≤ f.size) :
    Filled (readBuf old f) off n c ↔ Filled f.byte off n c := by
  rw [← bytes_eq_replicate, bytes_readBuf old h, bytes_eq_replicate]

theorem passes_readBuf (old : Buffer) (h : d.truncOffset + d.appendSize ≤ f.size) :
    Passes d (readBuf old f) ↔ Passes d f.byte := by
  have := d.chunk_le_trunc
  have hchunk := filled_readBuf old (c := CHUNK_CHAR) (show 0 + d.chunkSize ≤ f.size by omega)
  have hhole := filled_readBuf old (c := 0)
    (show d.chunkSize + (d.truncOffset - d.chunkSize) ≤ f.size by omega)
  have htail := filled_readBuf old (c := APPEND_CHAR) h
  constructor
  · rintro ⟨h₁, h₂, h₃⟩
    exact ⟨hchunk.mp h₁, hhole.mp h₂, htail.mp h₃⟩
  · rintro ⟨h₁, h₂, h₃⟩
    exact ⟨hchunk.mpr h₁, hhole.mpr h₂, htail.mpr h₃⟩

theorem byte_append (f : ByteFile) (n : Nat) (c : UInt8) (i : Nat) :
    (append f (List.replicate n c)).byte i = if f.size ≤ i ∧ i < f.size + n then c else f.byte i :=
  f.byte_append_replicate n c i

theorem size_append (f : ByteFile) (n : Nat) (c : UInt8) :
    (append f (List.replicate n c)).size = f.size + n :=
  f.size_append_replicate n c

theorem size_chunkFile : (chunkFile d).size = d.chunkSize :=
  (size_append _ _ _).trans (Nat.zero_add _)

theorem byte_chunkFile (i : Nat) :
    (chunkFile d).byte i = if i < d.chunkSize then CHUNK_CHAR else 0 := by
  rw [chunkFile, byte_append]
  simp [ByteFile.empty]

theorem byte_appendFirst (i : Nat) : (appendFirst d).byte i =
    if i < d.chunkSize then CHUNK_CHAR else if i < d.truncOffset then APPEND_CHAR else 0 := by
  have := d.chunk_le_trunc
  have := d.trunc_lt
  rw [appendFirst, ByteFile.byte_truncate, byte_append, byte_chunkFile, size_chunkFile]
  grind

theorem byte_truncateFirst (i : Nat) : (truncateFirst d).byte i =
    if i < d.chunkSize then CHUNK_CHAR else if i < d.truncOffset then 0
    else if i < d.truncOffset + d.appendSize then APPEND_CHAR else 0 := by
  have := d.chunk_le_trunc
  rw [truncateFirst, byte_append, ByteFile.byte_truncate, byte_chunkFile, ByteFile.size_truncate]
  grind

theorem size_truncateFirst : (truncateFirst d).size = d.truncOffset + d.appendSize :=
  size_append _ _ _

theorem eq_appendFirst_iff : f = appendFirst d ↔
    f.size = d.truncOffset ∧ Filled f.byte 0 d.chunkSize CHUNK_CHAR ∧
      Filled f.byte d.chunkSize (d.truncOffset - d.chunkSize) APPEND_CHAR := by
  have hle := d.chunk_le_trunc
  constructor
  · rintro rfl
    refine ⟨rfl, fun i hi => ?_, fun i hi => ?_⟩ <;> rw [byte_appendFirst] <;> grind
  · rintro ⟨hsize, hchunk, htail⟩
    refine ByteFile.ext hsize (funext fun i => ?_)
    rw [byte_appendFirst]
    split
    · exact hchunk.byte (Nat.zero_le _) (by omega)
    · split
      · exact htail.byte (by omega) (by omega)
      · exact f.zero_beyond i (by omega)

theorem eq_truncateFirst_iff : f = truncateFirst d ↔
    f.size = d.truncOffset + d.appendSize ∧ Passes d f.byte := by
  have hle := d.chunk_le_trunc
  constructor
  · rintro rfl
    refine ⟨size_truncateFirst, fun i hi => ?_, fun i hi => ?_, fun i hi => ?_⟩ <;>
      rw [byte_truncateFirst] <;> grind
  · rintro ⟨hsize, hchunk, hhole, htail⟩
    refine ByteFile.ext (hsize.trans size_truncateFirst.symm) (funext fun i => ?_)
    rw [byte_truncateFirst]
    split
    · exact hchunk.byte (Nat.zero_le _) (by omega)
    · split
      · exact hhole.byte (by omega) (by omega)
      · split
        · exact htail.byte (by omega) (by omega)
        · exact f.zero_beyond i (by omega)

theorem checkResult_truncFirst (hm : ZeroIffEqual memcmp) (hsize : size ≠ d.truncOffset) :
    checkResult memcmp d size b = 1 ↔ ¬ Passes d b := by
  have hpasses : Passes d b ↔ Filled b 0 d.chunkSize CHUNK_CHAR ∧
      Filled b d.chunkSize (d.truncOffset - d.chunkSize) 0 ∧
      Filled b d.truncOffset d.appendSize APPEND_CHAR :=
    ⟨fun h => ⟨h.chunk, h.hole, h.tail⟩, fun h => ⟨h.1, h.2.1, h.2.2⟩⟩
  rw [hpasses, ← memcmp_eq_zero hm, ← memcmp_eq_zero hm, ← memcmp_eq_zero hm]
  simp only [checkResult, if_neg hsize]
  grind

theorem endOfLoop_abort (hfit : f.size ≤ READ_BUF_SIZE) :
    endOfLoop memcmp d old f = .abort ↔ checkResult memcmp d f.size (readBuf old f) = 1 := by
  rw [endOfLoop, if_neg (Nat.not_lt.mpr hfit)]
  simp only
  split
  · next h => simp [h]
  · next h => simp [h]

theorem serial_trunc (hsize : f.size = d.truncOffset) : Serial d f ↔
    Filled f.byte 0 d.chunkSize CHUNK_CHAR ∧
      Filled f.byte d.chunkSize (d.truncOffset - d.chunkSize) APPEND_CHAR := by
  have := d.append_pos
  rw [Serial, eq_appendFirst_iff, eq_truncateFirst_iff]
  constructor
  · rintro (⟨_, h⟩ | ⟨h, _⟩)
    · exact h
    · omega
  · exact fun h => .inl ⟨hsize, h⟩

theorem serial_other (hsize : f.size ≠ d.truncOffset) : Serial d f ↔
    f.size = d.truncOffset + d.appendSize ∧ Passes d f.byte := by
  rw [Serial, eq_appendFirst_iff, eq_truncateFirst_iff]
  constructor
  · rintro (⟨h, _⟩ | h)
    · exact absurd h hsize
    · exact h
  · exact .inr

/-- No serial order leaves more than `read_buf` holds. -/
theorem Serial.size_le (h : Serial d f) : f.size ≤ READ_BUF_SIZE := by
  have := d.chunk_le
  have := d.append_le
  have := d.trunc_lt
  rw [Serial, eq_appendFirst_iff, eq_truncateFirst_iff] at h
  simp only [READ_BUF_SIZE, TRUNC_SIZE_MAX, CHUNK_SIZE_MAX, APPEND_SIZE_MAX] at *
  rcases h with ⟨h, _⟩ | ⟨h, _⟩ <;> omega

theorem endOfLoop_trunc (hm : ZeroIffEqual memcmp) (hfit : f.size ≤ READ_BUF_SIZE)
    (hsize : f.size = d.truncOffset) :
    (endOfLoop memcmp d old f = .abort ↔ ¬ Serial d f) ↔
      ¬ ChunkForgotten d f ∧ ¬ OtherSign memcmp d f := by
  have hle := d.chunk_le_trunc
  have hbuf := bytes_readBuf old
    (show d.chunkSize + (d.truncOffset - d.chunkSize) ≤ f.size by omega)
  have hzero : memcmp (Buffer.bytes f.byte d.chunkSize (d.truncOffset - d.chunkSize))
      (List.replicate (d.truncOffset - d.chunkSize) APPEND_CHAR) = 0 ↔ _ := memcmp_eq_zero hm
  rw [endOfLoop_abort hfit, serial_trunc hsize]
  simp only [checkResult, if_pos hsize, hbuf]
  constructor
  · intro h
    constructor
    · rintro ⟨-, hchunk, htail⟩
      have := h.mpr fun hboth => hchunk hboth.1
      rw [hzero.mpr htail] at this
      exact absurd this (by decide)
    · rintro ⟨-, htail, hsign⟩
      exact hsign (h.mpr fun hboth => htail hboth.2)
  · rintro ⟨hforgot, hsign⟩
    constructor
    · rintro hone ⟨-, htail⟩
      rw [hzero.mpr htail] at hone
      exact absurd hone (by decide)
    · intro hboth
      by_contra hone
      have htail : Filled f.byte d.chunkSize (d.truncOffset - d.chunkSize) APPEND_CHAR := by
        by_contra htail
        exact hsign ⟨hsize, htail, hone⟩
      exact hforgot ⟨hsize, fun hchunk => hboth ⟨hchunk, htail⟩, htail⟩

theorem endOfLoop_other (hm : ZeroIffEqual memcmp) (hfit : f.size ≤ READ_BUF_SIZE)
    (hsize : f.size ≠ d.truncOffset) :
    (endOfLoop memcmp d old f = .abort ↔ ¬ Serial d f) ↔
      ¬ StaleTail d old f ∧ ¬ TooLong d f := by
  rw [endOfLoop_abort hfit, checkResult_truncFirst hm hsize, serial_other hsize]
  have hstale : StaleTail d old f ↔
      f.size < d.truncOffset + d.appendSize ∧ Passes d (readBuf old f) :=
    ⟨fun h => ⟨h.short, h.passes⟩, fun h => ⟨hsize, h.1, h.2⟩⟩
  have hlong : TooLong d f ↔ d.truncOffset + d.appendSize < f.size ∧ Passes d f.byte :=
    ⟨fun h => ⟨h.long, h.passes⟩, fun h => ⟨h.1, h.2⟩⟩
  rw [hstale, hlong]
  rcases Nat.lt_trichotomy f.size (d.truncOffset + d.appendSize) with hlt | heq | hgt
  · simp [hlt, hlt.ne, hlt.not_gt]
  · simp [passes_readBuf old heq.ge, heq]
  · simp [passes_readBuf old hgt.le, hgt, hgt.ne', hgt.not_gt]

theorem endOfLoop_serial_iff (hm : ZeroIffEqual memcmp) (d : Draw) (old : Buffer) (f : ByteFile) :
    (endOfLoop memcmp d old f = .abort ↔ ¬ Serial d f) ↔
      f.size ≤ READ_BUF_SIZE ∧ ¬ ChunkForgotten d f ∧ ¬ OtherSign memcmp d f ∧
        ¬ StaleTail d old f ∧ ¬ TooLong d f := by
  have := d.append_pos
  by_cases hfit : f.size ≤ READ_BUF_SIZE
  · by_cases hsize : f.size = d.truncOffset
    · have hstale : ¬ StaleTail d old f := fun h => h.size hsize
      have hlong : ¬ TooLong d f := fun h => by
        have := h.long
        omega
      rw [endOfLoop_trunc hm hfit hsize]
      simp [hfit, hstale, hlong]
    · have hforgot : ¬ ChunkForgotten d f := fun h => hsize h.size
      have hsign : ¬ OtherSign memcmp d f := fun h => hsize h.size
      rw [endOfLoop_other hm hfit hsize]
      simp [hfit, hforgot, hsign]
  · have hover : endOfLoop memcmp d old f = .overrun := if_pos (Nat.lt_of_not_le hfit)
    have hserial : ¬ Serial d f := fun h => hfit h.size_le
    simp [hover, hserial, hfit]

def Sound (memcmp : Memcmp) : List Round → Buffer → Prop
  | [], _ => True
  | r :: rounds, buf =>
    (r.raced.size ≤ READ_BUF_SIZE ∧ ¬ ChunkForgotten r.draw r.raced ∧
      ¬ OtherSign memcmp r.draw r.raced ∧ ¬ StaleTail r.draw buf r.raced ∧ ¬ TooLong r.draw r.raced) ∧
    Sound memcmp rounds (readBuf buf r.raced)

theorem mainLoop_abort_iff (hm : ZeroIffEqual memcmp) {rounds : List Round} {buf : Buffer}
    (h : Sound memcmp rounds buf) :
    mainLoop memcmp rounds buf = .abort ↔ ∃ r ∈ rounds, ¬ Serial r.draw r.raced := by
  induction rounds generalizing buf with
  | nil => simp [mainLoop]
  | cons r rounds ih =>
    obtain ⟨hr, hrest⟩ := h
    have hfit := hr.1
    have hround := (endOfLoop_serial_iff hm r.draw buf r.raced).mpr hr
    rw [mainLoop]
    by_cases hserial : Serial r.draw r.raced
    · have hgo : endOfLoop memcmp r.draw buf r.raced = .go (readBuf buf r.raced) := by
        have hne : ¬ checkResult memcmp r.draw r.raced.size (readBuf buf r.raced) = 1 :=
          fun hone => hround.mp ((endOfLoop_abort hfit).mpr hone) hserial
        rw [endOfLoop, if_neg (Nat.not_lt.mpr hfit)]
        exact if_neg hne
      rw [hgo]
      simp [ih hrest, hserial]
    · rw [hround.mpr hserial]
      simp [hserial]

/-- The ranks abort exactly on what no serial order leaves, as long as the file
fits in `read_buf` and none of the four things happens that the check misses;
and so for all rounds of the loop. -/
theorem abort_iff_not_serial (memcmp : Memcmp) (hm : ZeroIffEqual memcmp) :
    (∀ d old f, (endOfLoop memcmp d old f = .abort ↔ ¬ Serial d f) ↔
      f.size ≤ READ_BUF_SIZE ∧ ¬ ChunkForgotten d f ∧ ¬ OtherSign memcmp d f ∧
        ¬ StaleTail d old f ∧ ¬ TooLong d f) ∧
    ∀ rounds buf, Sound memcmp rounds buf →
      (mainLoop memcmp rounds buf = .abort ↔ ∃ r ∈ rounds, ¬ Serial r.draw r.raced) :=
  ⟨endOfLoop_serial_iff hm, fun _ _ => mainLoop_abort_iff hm⟩

end

-- ---------------------------------------------------------------------------
-- A lost append
-- ---------------------------------------------------------------------------

/-- The usual `memcmp`: the difference of the first two bytes that differ. -/
def firstDifference : Memcmp
  | a :: as, b :: bs => if a = b then firstDifference as bs else a.toNat - b.toNat
  | _, _ => 0

theorem firstDifference_eq_zero : ZeroIffEqual firstDifference := by
  intro a
  induction a with
  | nil =>
    intro b hlen
    simp [firstDifference, List.eq_nil_of_length_eq_zero hlen.symm]
  | cons x xs ih =>
    intro b hlen
    cases b with
    | nil => simp at hlen
    | cons y ys =>
      rw [firstDifference]
      split
      · next h => simp [h, ih ys (by simpa using hlen)]
      · next h =>
        have : x.toNat ≠ y.toNat := fun h' => h (UInt8.toNat_inj.mp h')
        simp [h]
        omega

def smallDraw : Draw where
  chunkSize := 1
  appendSize := 2
  truncOffset := 2
  chunk_pos := by decide
  append_pos := by decide
  chunk_le := by decide
  append_le := by decide
  chunk_le_trunc := by decide
  trunc_lt := by decide

/-- The append came first; and never came, as the file without it is not serial. -/
theorem abort_iff_not_serial_small :
    endOfLoop firstDifference smallDraw (fun _ => 0) (appendFirst smallDraw) ≠ .abort ∧
      endOfLoop firstDifference smallDraw (fun _ => 0) ByteFile.empty = .abort := by
  have hround := (abort_iff_not_serial firstDifference firstDifference_eq_zero).1 smallDraw (fun _ => 0)
  constructor
  · intro habort
    refine (((hround _).mpr ?_).mp habort) (.inl rfl)
    refine ⟨by decide, fun h => h.chunk ?_, fun h => h.tail ?_, fun h => h.size rfl, fun h => ?_⟩
    · exact (eq_appendFirst_iff.mp rfl).2.1
    · exact (eq_appendFirst_iff.mp rfl).2.2
    · exact absurd h.long (by decide)
  · refine ((hround _).mpr ?_).mpr ?_
    · refine ⟨by decide, fun h => absurd h.size (by decide), fun h => absurd h.size (by decide),
        fun h => ?_, fun h => absurd h.long (by decide)⟩
      exact absurd (h.passes.chunk 0 (by decide)) (by decide)
    · rw [Serial, eq_appendFirst_iff, eq_truncateFirst_iff]
      rintro (⟨h, _⟩ | ⟨h, _⟩) <;> exact absurd h (by decide)

/-- The append never happened: `memcmp` is negative and nobody aborts. -/
theorem lostAppend_accepted :
    ¬ (endOfLoop firstDifference smallDraw (fun _ => 0)
        ((chunkFile smallDraw).truncate smallDraw.truncOffset) = .abort ↔
      ¬ Serial smallDraw ((chunkFile smallDraw).truncate smallDraw.truncOffset)) := by
  have hsign : OtherSign firstDifference smallDraw
      ((chunkFile smallDraw).truncate smallDraw.truncOffset) := by
    refine ⟨rfl, fun h => ?_, by decide⟩
    exact absurd (h 0 (by decide)) (by decide)
  intro h
  exact ((endOfLoop_serial_iff firstDifference_eq_zero _ _ _).mp h).2.2.1 hsign

end Ocfs2Test.AppendTruncate
