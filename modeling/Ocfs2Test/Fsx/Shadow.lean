import Ocfs2Test.Fsx.Test

/-!
# fsx: the shadow of a run

What a run is to do, without the file: each call of `test` keeps, writes or resizes
the expected content. Whatever device is under test, `test` does that to `good_buf`
or ends the run, and on a file that obeys POSIX it never ends it.
-/

namespace Ocfs2Test.Fsx

open Lib Lib.Stdio

-- ---------------------------------------------------------------------------
-- Deeds
-- ---------------------------------------------------------------------------

/-- What an operation does to the expected content. -/
inductive Effect
  | keep
  | write (offset size : Nat)
  | resize (size : Nat)
  deriving DecidableEq, Repr

/-- An operation with what is logged for it. -/
structure Deed where
  effect : Effect
  operation : Int
  args : Int × Int × Int
  deriving DecidableEq, Repr

def readDeed (o : Options) (fileSize : Nat) (operation : Int) (offset size : Nat) : Deed :=
  let offset := offset - offset % o.readbdy
  if size = 0 ∨ fileSize < size + offset then ⟨.keep, Op.skipped, operation, offset, size⟩
  else ⟨.keep, operation, offset, size, 0⟩

/-- `arg2` is the third number that is logged. -/
def writeDeed (o : Options) (operation : Int) (offset size arg2 : Nat) : Deed :=
  let offset := offset - offset % o.writebdy
  if size = 0 then ⟨.keep, Op.skipped, operation, offset, size⟩
  else ⟨.write offset size, operation, offset, size, arg2⟩

def truncateDeed (o : Options) (fileSize size : Nat) : Deed :=
  let size := size - size % o.truncbdy
  ⟨.resize size, Op.truncate, size, fileSize, 0⟩

/-- What `operateSized` does, and the state it does it in. -/
def sizedDeed (o : Options) (s : State) (op size : Nat) : Deed × State :=
  if !o.lite && op == 3 then (truncateDeed o s.fileSize size, s)
  else
    let (offset, s) := s.random
    let deed :=
      if op = 1 ∨ op = (if o.lite then 3 else 4) then
        let offset := offset % o.maxfilelen
        let size := clip o.maxfilelen offset size
        if op ≠ 1 then writeDeed o Op.mapwrite offset size 0
        else writeDeed o Op.write offset (directSize o o.writebdy size) s.fileSize
      else
        let offset := if s.fileSize ≠ 0 then offset % s.fileSize else 0
        let size := clip s.fileSize offset size
        if op ≠ 0 then readDeed o s.fileSize Op.mapread offset size
        else readDeed o s.fileSize Op.read offset (directSize o o.readbdy size)
    (deed, s)

/-- The same for `operate`. -/
def nextDeed (o : Options) (s : State) (op : Nat) : Deed × State :=
  if !o.lite && op == 3 && o.style % 2 == 0 then
    let (r, s) := s.random
    (truncateDeed o s.fileSize (r % o.maxfilelen), s)
  else if o.randomoplen then
    let (r, s) := s.random
    sizedDeed o s op (r % (o.maxoplen + 1))
  else sizedDeed o s op o.maxoplen

namespace State

def overwritten (s : State) (offset size : Nat) : State :=
  let buf := gendata s.originalBuf s.testcalls s.goodBuf offset size
  { s with
    goodBuf := if s.fileSize < offset then bzero buf s.fileSize (offset - s.fileSize) else buf
    fileSize := max s.fileSize (offset + size) }

def resized (s : State) (size : Nat) : State :=
  { s with
    goodBuf :=
      if s.fileSize < size then bzero s.goodBuf s.fileSize (size - s.fileSize) else s.goodBuf
    fileSize := size }

def apply (s : State) : Effect → State
  | .keep => s
  | .write offset size => s.overwritten offset size
  | .resize size => s.resized size

def perform (s : State) (deed : Deed) : State :=
  (s.log4 deed.operation deed.args.1 deed.args.2.1 deed.args.2.2).apply deed.effect

/-- What one call of `test` does besides the file. -/
def step (o : Options) (s : State) : State :=
  let next := nextDeed o (s.random.2.nextCall o s.random.1) (pickOp o s.random.1)
  next.2.perform next.1

end State

theorem nextDeed_state (o : Options) (s : State) (op : Nat) :
    ∃ rands, (nextDeed o s op).2 = { s with rands := rands } := by
  have hsized : ∀ (s : State) size,
      (sizedDeed o s op size).2 = s ∨ (sizedDeed o s op size).2 = s.shift := by
    intro s size
    rw [sizedDeed]
    split
    · exact .inl rfl
    · exact .inr rfl
  rw [nextDeed]
  split
  · exact ⟨_, rfl⟩
  · split
    · rcases hsized s.shift ((s.rands 0).val % (o.maxoplen + 1)) with h | h
      · exact ⟨_, h⟩
      · exact ⟨_, h⟩
    · rcases hsized s o.maxoplen with h | h
      · exact ⟨_, h⟩
      · exact ⟨_, h⟩

-- ---------------------------------------------------------------------------
-- Buffers
-- ---------------------------------------------------------------------------

/-- What `gendata` puts at an offset. -/
def genByte (originalBuf : Nat → UInt8) (testcalls i : Nat) : UInt8 :=
  if i % 2 = 1 then UInt8.ofNat (testcalls % 256) + originalBuf i
  else UInt8.ofNat (testcalls % 256)

theorem gendata_apply (originalBuf : Nat → UInt8) (testcalls : Nat) (buf : Nat → UInt8)
    (offset size i : Nat) :
    gendata originalBuf testcalls buf offset size i =
      if offset ≤ i ∧ i < offset + size then genByte originalBuf testcalls i else buf i := by
  induction size generalizing buf offset with
  | zero => rw [gendata, if_neg (by omega)]
  | succ size ih =>
    rw [gendata, ih]
    rcases Nat.lt_trichotomy i offset with hlt | rfl | hgt
    · rw [Function.update_of_ne (by omega), if_neg (by omega), if_neg (by omega)]
    · rw [Function.update_self, if_neg (show ¬ (i + 1 ≤ i ∧ i < i + 1 + size) by omega),
        if_pos (show i ≤ i ∧ i < i + (size + 1) by omega)]
      rfl
    · rw [Function.update_of_ne (by omega)]
      refine if_congr ?_ rfl rfl
      omega

@[simp] theorem length_extract (buf : Nat → UInt8) (offset size : Nat) :
    (extract buf offset size).length = size := by
  simp [extract]

theorem extract_getD (buf : Nat → UInt8) (h : i < size) :
    (extract buf offset size).getD i 0 = buf (offset + i) := by
  rw [List.getD_eq_getElem _ _ (by simpa using h)]
  simp [extract]

theorem goodBuf_overwritten (s : State) (offset size i : Nat) :
    (s.overwritten offset size).goodBuf i =
      if offset ≤ i ∧ i < offset + size then genByte s.originalBuf s.testcalls i
      else if s.fileSize ≤ i ∧ i < offset then 0 else s.goodBuf i := by
  have hgap : s.fileSize < offset → (s.fileSize ≤ i ∧ i < s.fileSize + (offset - s.fileSize) ↔
      s.fileSize ≤ i ∧ i < offset) := by omega
  simp only [State.overwritten]
  split
  · next hlt =>
    rw [bzero, gendata_apply]
    simp only [hgap hlt]
    split
    · rw [if_neg (by omega)]
    · rfl
  · rw [gendata_apply]
    split
    · rfl
    · rw [if_neg (by omega)]

theorem goodBuf_resized (s : State) (size i : Nat) :
    (s.resized size).goodBuf i =
      if s.fileSize ≤ i ∧ i < size then 0 else s.goodBuf i := by
  simp only [State.resized]
  split
  · next hlt =>
    simp only [bzero]
    refine if_congr ?_ rfl rfl
    omega
  · rw [if_neg (by omega)]

-- ---------------------------------------------------------------------------
-- The file beside its shadow
-- ---------------------------------------------------------------------------

structure Same (buf : Nat → UInt8) (size : Nat) (f : ByteFile) : Prop where
  size_eq : f.size = size
  byte_eq : ∀ i < size, f.byte i = buf i

theorem Same.window (h : Same buf n f) (hle : offset + size ≤ n) :
    window f offset size = extract buf offset size := by
  refine List.map_congr_left fun i hi => ?_
  have hi := List.mem_range.mp hi
  exact h.byte_eq _ (by omega)

theorem Same.pwrite {s : State} (h : Same s.goodBuf s.fileSize f) (offset : Nat)
    (hsize : 0 < size) :
    Same (s.overwritten offset size).goodBuf (s.overwritten offset size).fileSize
      (f.pwrite (extract (s.overwritten offset size).goodBuf offset size) offset) := by
  have hne : extract (s.overwritten offset size).goodBuf offset size ≠ [] := by
    intro hnil
    have hlen := length_extract (s.overwritten offset size).goodBuf offset size
    rw [hnil, List.length_nil] at hlen
    omega
  refine ⟨?_, fun i hi => ?_⟩
  · simp only [ByteFile.pwrite, if_neg hne, length_extract, h.size_eq]
    rfl
  · rw [ByteFile.byte_pwrite, length_extract]
    split
    · next hin =>
      rw [extract_getD _ (by omega)]
      congr 1
      omega
    · next hout =>
      rw [goodBuf_overwritten, if_neg hout]
      split
      · next hgap => exact f.zero_beyond i (h.size_eq ▸ hgap.1)
      · next hgap =>
        refine h.byte_eq i ?_
        simp only [State.overwritten] at hi
        omega

theorem Same.truncate {s : State} (h : Same s.goodBuf s.fileSize f) :
    Same (s.resized size).goodBuf (s.resized size).fileSize (f.truncate size) := by
  refine ⟨rfl, fun i (hi : i < size) => ?_⟩
  rw [ByteFile.byte_truncate, if_pos hi, goodBuf_resized]
  split
  · next hgap => exact f.zero_beyond i (h.size_eq ▸ hgap.1)
  · next hin => exact h.byte_eq i (by omega)

end Ocfs2Test.Fsx
