import Ocfs2Test.Holes.Verify

/-!
# fill_holes and punch_holes

Both programs take their records from `rand()` or, with `-r`, from the log of
an earlier run, print each to the log and then write or punch it. Asynchronous
or direct writes, a mapping and a reserved file end in the same bytes; what the
options change is the file's size and how records are drawn.
-/

namespace Ocfs2Test.Holes

open Lib Lib.Segment Lib.Stdio

inductive Stop
  /-- The stream of `rand()` given is used up. -/
  | starved
  /-- A failed assertion or a write outside the buffer or the mapping. -/
  | crash
  | usage
  /-- `return 1`. -/
  | failed
  deriving DecidableEq, Repr

def TWO_GIGA_BYTE : Nat := 2147483648

def ONE_MEGA_BYTE : Nat := 1024 * 1024

def UINT_MAX : Nat := 2 ^ 32 - 1

/-- `ALIGN(x, a)` in 64 bits, for a power of two. -/
def align (x a : Nat) : Nat := (x + a - 1) % 2 ^ 64 / a * a

def getRand (lo hi : Nat) (rs : List Rand) : Except Stop (Nat × List Rand) :=
  if lo = 0 ∧ hi = 0 then .ok (0, rs)
  else
    match rs with
    | [] => .error .starved
    | r :: rs => .ok ((lo + (r.val % hi + 2 ^ 64 - lo)) % 2 ^ 64, rs)

theorem getRand_length (hlo : lo ≠ 0) (h : getRand lo hi rs = .ok (x, rs')) :
    rs'.length < rs.length := by
  unfold getRand at h
  rw [if_neg (by omega)] at h
  cases rs with
  | nil => cases h
  | cons r rs =>
    cases h
    simp

theorem getRand_length_le (h : getRand lo hi rs = .ok (x, rs')) : rs'.length ≤ rs.length := by
  unfold getRand at h
  split at h
  · cases h
    exact Nat.le_refl _
  · cases rs with
    | nil => cases h
    | cons r rs =>
      cases h
      simp

/-- `RAND_CHAR_START + (char) fh_get_rand(0, 52)`. -/
def randChar (rs : List Rand) : Except Stop (UInt8 × List Rand) :=
  match getRand 0 52 rs with
  | .error e => .error e
  | .ok (r, rs) => .ok (RAND_CHAR_START + r.toUInt8, rs)

theorem randChar_length_le (h : randChar rs = .ok (x, rs')) : rs'.length ≤ rs.length := by
  unfold randChar at h
  split at h
  · cases h
  · next hr =>
    cases h
    exact getRand_length_le hr

/-- `file_size - 1`, stored in a number of bits. -/
def lessOne (bits fileSize : Nat) : Nat := (fileSize + 2 ^ 64 - 1) % 2 ^ bits

/-- Cuts the length at the end of the file, in 64 and then 32 bits. -/
def cutLen (fileSize off len : Nat) : Nat :=
  if (off + len) % 2 ^ 64 > fileSize then (fileSize + 2 ^ 64 - off) % 2 ^ 32 else len

/-- The assertions at the end of both `prep_rand_write_unit`. -/
def assertUnit (wu : WriteUnit) (rs : List Rand) : Except Stop (WriteUnit × List Rand) :=
  if wu.val < RAND_CHAR_START ∨ wu.val > 122 ∨ wu.len > MAX_WRITE_SIZE ∨ wu.len = 0 then
    .error .crash
  else .ok (wu, rs)

inductive Source
  | rand (rs : List Rand)
  | replay (s : Stream)

def Source.eof : Source → Bool
  | .rand _ => false
  | .replay s => s.eof

def Source.left : Source → Nat
  | .rand rs => rs.length
  | .replay s => s.text.length

def doWrite (f : ByteFile) (wu : WriteUnit) : Except Stop ByteFile :=
  if wu.len > MAX_WRITE_SIZE then .error .crash
  else .ok (f.pwrite (List.replicate wu.len wu.val) wu.off)

/-- `ftruncate` of the new file to a size that has to be an `off_t`. -/
def prepEmpty (size : Nat) : Except Stop ByteFile :=
  if size < 2 ^ 63 then .ok (ByteFile.empty.truncate size) else .error .failed

-- ---------------------------------------------------------------------------
-- fill_holes
-- ---------------------------------------------------------------------------

structure FillOpts where
  useMmap : Bool
  useDio : Bool
  maxIter : UInt32

/-- The globals that the draw of a record reads, and those it changes. -/
structure FillCtx where
  useDio : Bool
  fileSize : Nat
  maxIterPerChunk : Nat

structure FillState where
  curIterPerChunk : Nat := 0
  curIterOffset : Nat := 0

/-- From the label `again` on. -/
def fhDraw (c : FillCtx) (maxRange iterOffset : Nat) (char : UInt8) (rs : List Rand) :
    Except Stop (WriteUnit × List Rand) :=
  match _h₁ : getRand 0 maxRange rs with
  | .error e => .error e
  | .ok (r, rs₁) =>
    match h₂ : getRand 1 MAX_WRITE_SIZE rs₁ with
    | .error e => .error e
    | .ok (l, rs₂) =>
      let off := ((if c.useDio then align r 512 else r) + iterOffset) % 2 ^ 64
      let len := (if c.useDio then align l 512 else l) % 2 ^ 32
      let len := cutLen c.fileSize off len
      if len = 0 ∨ (c.useDio ∧ len < 512) then fhDraw c maxRange iterOffset char rs₂
      else assertUnit ⟨char, off, len⟩ rs₂
termination_by rs.length
decreasing_by exact Nat.lt_of_lt_of_le (getRand_length (by decide) h₂) (getRand_length_le _h₁)

/-- How `fh_prep_rand_write_unit` moves on to the next 2G. -/
def FillState.advance (c : FillCtx) (st : FillState) : FillState :=
  if st.curIterPerChunk = c.maxIterPerChunk then
    ⟨0, (st.curIterOffset + TWO_GIGA_BYTE) % 2 ^ 64⟩
  else ⟨st.curIterPerChunk + 1, st.curIterOffset⟩

def fhPrepRandWriteUnit (c : FillCtx) (st : FillState) (rs : List Rand) :
    Except Stop (WriteUnit × FillState × List Rand) := do
  if c.maxIterPerChunk ≠ 0 then
    let st := st.advance c
    let (char, rs) ← randChar rs
    let (wu, rs) ← fhDraw c (TWO_GIGA_BYTE - 1) st.curIterOffset char rs
    return (wu, st, rs)
  else if c.fileSize > TWO_GIGA_BYTE then throw .crash
  else
    let (char, rs) ← randChar rs
    let (wu, rs) ← fhDraw c (lessOne 32 c.fileSize) st.curIterOffset char rs
    return (wu, st, rs)

def fhPrepWriteUnit (c : FillCtx) (st : FillState) : Source →
    Except Stop (WriteUnit × FillState × Source)
  | .rand rs => do
    let (wu, st, rs) ← fhPrepRandWriteUnit c st rs
    return (wu, st, .rand rs)
  | .replay s =>
    match scanUnit s with
    | .unit wu rest => .ok (wu, st, .replay rest)
    | _ => .error .failed

def fhDoWrite (o : FillOpts) (f : ByteFile) (wu : WriteUnit) : Except Stop ByteFile :=
  if o.useMmap then
    if wu.stop ≤ f.size then .ok (f.pwrite (List.replicate wu.len wu.val) wu.off)
    else .error .crash
  else doWrite f wu

/-- The loop of `main` with `n` iterations to go. -/
def fillLoop (o : FillOpts) (c : FillCtx) :
    Nat → Source → FillState → ByteFile → List Char → Except Stop (ByteFile × List Char)
  | 0, _, _, f, log => .ok (f, log)
  | n + 1, src, st, f, log =>
    if src.eof then .ok (f, log)
    else do
      let (wu, st, src) ← fhPrepWriteUnit c st src
      let log := log ++ printUnit wu
      let f ← fhDoWrite o f wu
      fillLoop o c n src st f log

/-- What `main` makes of the size before the loop: above 2G the file is written
2G after 2G. -/
def fillCtx (o : FillOpts) (fileSize : Nat) : FillCtx :=
  if fileSize > TWO_GIGA_BYTE then
    let numChunks := fileSize / TWO_GIGA_BYTE
    ⟨o.useDio, numChunks * TWO_GIGA_BYTE, o.maxIter.toNat / numChunks⟩
  else ⟨o.useDio, fileSize, 0⟩

/-- `fill_holes` on a regular file: the file and the log it leaves. -/
def fillHoles (o : FillOpts) (size : UInt64) (src : Source) :
    Except Stop (ByteFile × List Char) := do
  let fileSize := if o.useDio then align size.toNat ONE_MEGA_BYTE else size.toNat
  if o.useMmap ∧ fileSize > TWO_GIGA_BYTE then throw .usage
  let f ← prepEmpty fileSize
  fillLoop o (fillCtx o fileSize) o.maxIter.toNat src {} f []

-- ---------------------------------------------------------------------------
-- punch_holes
-- ---------------------------------------------------------------------------

/-- From the label `again` on. -/
def phDraw (fileSize maxRange : Nat) (rs : List Rand) : Except Stop (WriteUnit × List Rand) :=
  match _h₁ : randChar rs with
  | .error e => .error e
  | .ok (char, rs₁) =>
    match _h₂ : getRand 0 maxRange rs₁ with
    | .error e => .error e
    | .ok (off, rs₂) =>
      match h₃ : getRand 1 MAX_WRITE_SIZE rs₂ with
      | .error e => .error e
      | .ok (l, rs₃) =>
        let len := cutLen fileSize off (l % 2 ^ 32)
        if len = 0 then phDraw fileSize maxRange rs₃
        else assertUnit ⟨char, off, len⟩ rs₃
termination_by rs.length
decreasing_by
  exact Nat.lt_of_lt_of_le (getRand_length (by decide) h₃)
    (Nat.le_trans (getRand_length_le _h₂) (randChar_length_le _h₁))

def phPrepRandWriteUnit (fileSize : Nat) (rs : List Rand) : Except Stop (WriteUnit × List Rand) :=
  phDraw fileSize (lessOne 64 fileSize) rs

/-- `ph_prep_write_unit`; `none` is `-EINVAL`. -/
def phPrepWriteUnit (fileSize : Nat) : Source → Except Stop (Option WriteUnit × Source)
  | .rand rs =>
    match phPrepRandWriteUnit fileSize rs with
    | .error e => .error e
    | .ok (wu, rs) => .ok (some wu, .rand rs)
  | .replay s =>
    match scanUnit s with
    | .unit wu rest => .ok (some wu, .replay rest)
    | .short _ rest => .ok (none, .replay rest)
    | .eof => .ok (none, .replay ⟨[], true⟩)

theorem phDraw_length (h : phDraw fileSize maxRange rs = .ok (wu, rs')) :
    rs'.length < rs.length := by
  fun_induction phDraw fileSize maxRange rs with
  | case1 | case2 | case3 => cases h
  | case4 rs char rs₁ h₁ off rs₂ h₂ l rs₃ h₃ len hlen ih =>
    have := ih h
    have := getRand_length (by decide) h₃
    have := getRand_length_le h₂
    have := randChar_length_le h₁
    omega
  | case5 rs char rs₁ h₁ off rs₂ h₂ l rs₃ h₃ len hlen =>
    unfold assertUnit at h
    split at h
    · cases h
    · cases h
      have := getRand_length (by decide) h₃
      have := getRand_length_le h₂
      have := randChar_length_le h₁
      omega

theorem phPrepWriteUnit_left (h : phPrepWriteUnit fileSize src = .ok (some wu, src')) :
    src'.left < src.left := by
  cases src with
  | rand rs =>
    simp only [phPrepWriteUnit] at h
    split at h
    · cases h
    · next hr =>
      cases h
      exact phDraw_length hr
  | replay s =>
    simp only [phPrepWriteUnit] at h
    split at h
    · next hs =>
      cases h
      exact scanUnit_length hs
    · cases h
    · cases h

/-- The record that `ph_prep_file` writes at `start`: a drawn one is moved there,
a replayed one is taken as it is. -/
def prepUnit (size start : Nat) (src : Source) (wu : WriteUnit) : WriteUnit :=
  match src with
  | .rand _ => { wu with off := start, len := cutLen size start wu.len }
  | .replay _ => wu

def Source.drawn : Source → Bool
  | .rand _ => true
  | .replay _ => false

/-- The loop of `ph_prep_file`. It gives back `false` for a descriptor when a
record can not be read. -/
def phPrepLoop (size start : Nat) (src : Source) (f : ByteFile) (log : List Char) :
    Except Stop (Bool × Source × ByteFile × List Char) :=
  if start < size then
    match _h : phPrepWriteUnit size src with
    | .error e => .error e
    | .ok (none, src') => .ok (false, src', f, log)
    | .ok (some wu, src') =>
      let wu := prepUnit size start src wu
      if src.drawn ∧ wu.len = 0 then phPrepLoop size start src' f log
      else
        match doWrite f wu with
        | .error e => .error e
        | .ok f => phPrepLoop size ((start + (wu.off + wu.len)) % 2 ^ 64) src' f (log ++ printUnit wu)
  else .ok (true, src, f, log)
termination_by src.left
decreasing_by
  · exact phPrepWriteUnit_left _h
  · exact phPrepWriteUnit_left _h

/-- `OCFS2_IOC_UNRESVSP64`: the range reads as zeros. -/
def punchHole (f : ByteFile) (wu : WriteUnit) : ByteFile where
  size := f.size
  byte i := if wu.Covers i then 0 else f.byte i
  zero_beyond i h := by
    split
    · rfl
    · exact f.zero_beyond i h

/-- The loop of `main` with `n` iterations to go. -/
def punchLoop (size : Nat) (fdOk : Bool) :
    Nat → Source → ByteFile → List Char → Except Stop (ByteFile × List Char)
  | 0, _, f, log => .ok (f, log)
  | n + 1, src, f, log =>
    if src.eof then .ok (f, log)
    else
      match phPrepWriteUnit size src with
      | .error e => .error e
      | .ok (none, _) => .error .failed
      | .ok (some wu, src) =>
        let wu := { wu with val := MAGIC_HOLE_CHAR }
        if fdOk then punchLoop size fdOk n src (punchHole f wu) (log ++ printUnit wu)
        else .error .failed

/-- `punch_holes`: the file and the log it leaves. -/
def punchHoles (maxIter : UInt32) (size : UInt64) (src : Source) :
    Except Stop (ByteFile × List Char) := do
  let f ← prepEmpty size.toNat
  let (fdOk, src, f, log) ← phPrepLoop size.toNat 0 src f []
  punchLoop size.toNat fdOk maxIter.toNat src f log

end Ocfs2Test.Holes
