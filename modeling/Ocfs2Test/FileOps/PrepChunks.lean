import Ocfs2Test.Chunks.Layout
import Ocfs2Test.Chunks.Journal
import Ocfs2Test.FileOps.ReadAt
import Ocfs2Test.Reflink.AtRandom

/-!
# Files prepared in chunks

Three programs have a `prep_orig_file_in_chunks` of their own. It writes one chunk
after the other with `write_at`, which calls `pwrite` until no bytes are missing, and
leaves its loop at the first error. `write_at` of reflink_test has an asynchronous way
besides.
-/

namespace Ocfs2Test.FileOps

open Lib Lib.Stdio Chunks Reflink

def EINVAL : Int := 22

/-- What one asynchronous write finds on its way: whether each call succeeds, and the
result of the write that the event carries. -/
structure Aio where
  memalign : Bool
  setup : Bool
  submit : Bool
  query : Bool
  pread : Bool
  destroy : Bool
  event : Option Nat

def Aio.fails (odct : Bool) (a : Aio) : Bool :=
  odct && !a.memalign || !a.setup || !a.submit || !a.query || !a.pread || !a.destroy

/-- What the calls find: for each `pwrite` in turn an error, or how many bytes it moves
at once; for each chunk its asynchronous write, and what its unit is made of. -/
structure Calls where
  opened : Bool
  pwrite : Nat → Option Nat
  aio : Nat → Aio
  char : Nat → Rand
  time : Nat → Micros

/-- How far a program has come: the calls of `pwrite`, whether a write has failed, and
what the others moved. -/
structure Progress where
  calls : Nat := 0
  failed : Bool := false
  writes : List (Nat × List UInt8) := []

def Progress.replay (s : Progress) (f : ByteFile) : ByteFile :=
  s.writes.foldl (fun f w => f.pwrite w.2 w.1) f

/-- The bytes that are moved of `count`. No file is longer than an `off_t` says. -/
def moved (count offset : Nat) (result : Option Nat) : Option Nat :=
  if offset < OFF_MAX then
    result.map fun n => min (min count (OFF_MAX - offset)) (max 1 (min n MAX_RW_COUNT))
  else none

def Progress.land (s : Progress) (data : List UInt8) (offset : Nat) (result : Option Nat) :
    Progress × Option Nat :=
  match moved data.length offset result with
  | none => ({ s with failed := true }, none)
  | some n => ({ s with writes := s.writes ++ [(offset, data.take n)] }, some n)

section
variable (c : Calls)

def Calls.write (data : List UInt8) (offset : Nat) (s : Progress) (done : Nat) :
    Progress × Option Nat :=
  { s with calls := s.calls + 1 }.land (data.drop done) (offset + done) (c.pwrite s.calls)

/-- The loop, with what is returned behind it. Every call moves a byte. -/
def writeLoop (data : List UInt8) (offset : Nat) (success : Int) (s : Progress) :
    Option (Progress × Int) :=
  (Transfer.loop (c.write data offset) data.length data.length s 0).map fun r =>
    (r.1, if r.2 then success else -1)

/-- `write_at` of libocfs2test and of directio_utils.c. -/
def writeAt (data : List UInt8) (offset : Nat) (s : Progress) : Option (Progress × Int) :=
  writeLoop c data offset (toInt data.length) s

/-- The asynchronous way. What is read back is compared, and differences are printed. -/
def asioWriteAt (odct : Bool) (a : Aio) (data : List UInt8) (offset : Nat) (s : Progress) :
    Progress × Int :=
  if odct && !a.memalign then (s, -1)
  else if !a.setup then (s, -1)
  else if !a.submit then ({ s with failed := true }, -1)
  else
    let s := (s.land data offset a.event).1
    if !a.query then (s, -1)
    else if !a.pread then (s, -1)
    else (s, if a.destroy then 0 else -1)

def ReflinkTestUtils.writeAt (asio odct : Bool) (no : Nat) (data : List UInt8) (offset : Nat)
    (s : Progress) : Option (Progress × Int) :=
  if asio then some (asioWriteAt odct (c.aio no) data offset s) else writeLoop c data offset 0 s

def prepLoop (write : Nat → Nat → Progress → Option (Progress × Int)) (cs size : Nat) :
    Nat → Nat → Nat → Progress → Option (Progress × Int)
  | 0, _, _, _ => none
  | fuel + 1, no, offset, s =>
    if offset < size then
      match write no offset s with
      | none => none
      | some (s', ret) =>
        if ret < 0 then some (s', ret)
        else prepLoop write cs size fuel (no + 1) ((offset + cs) % 2 ^ 64) s'
    else some (s, 0)

variable (e : Endian)

def Libocfs2test.doWriteChunk (chunksize : UInt32) (wu : WriteUnit) (s : Progress) :
    Option (Progress × Int) :=
  writeAt c (Libocfs2test.fillChunkPattern e chunksize wu).1
    (chunksize.toNat * wu.chunkNo.toNat % 2 ^ 64) s

def DirectioUtils.doWriteChunk (wu : WriteUnit) (s : Progress) : Option (Progress × Int) :=
  writeAt c (DirectioUtils.fillChunkPattern e wu).1 (CHUNK_SIZE * wu.chunkNo.toNat % 2 ^ 64) s

/-- Whatever the loop was left with, `bail` returns 0. -/
def Libocfs2test.prepOrigFileInChunks (filesize : UInt64) (chunksize : UInt32) (fuel : Nat) :
    Option (Progress × Int) :=
  if !c.opened then some ({}, -1)
  else
    let write no (_ : Nat) := Libocfs2test.doWriteChunk c e chunksize
      (prepRandDestWriteUnit e chunksize.toNat (UInt64.ofNat no) (c.char no) (c.time no))
    (prepLoop write chunksize.toNat filesize.toNat fuel 0 0 {}).map fun r => (r.1, 0)

def DirectioUtils.prepOrigFileInChunks (filesize : UInt64) (fuel : Nat) : Option (Progress × Int) :=
  if CHUNK_SIZE % DIRECTIO_SLICE ≠ 0 then some ({}, -EINVAL)
  else if !c.opened then some ({}, -1)
  else
    let write no (_ : Nat) := DirectioUtils.doWriteChunk c e
      (prepRandDestWriteUnit e CHUNK_SIZE (UInt64.ofNat no) (c.char no) (c.time no))
    prepLoop write CHUNK_SIZE filesize.toNat fuel 0 0 {}

def ReflinkTestUtils.prepOrigFileInChunks (asio odct : Bool) (chunks : UInt64) (fuel : Nat) :
    Option (Progress × Int) :=
  let size := CHUNK_SIZE * chunks.toNat % 2 ^ 64
  if CHUNK_SIZE % DIRECTIO_SLICE ≠ 0 then some ({}, -1)
  else if !c.opened then some ({}, -1)
  else
    let write no := ReflinkTestUtils.writeAt c asio odct no
      (ReflinkTestUtils.fillChunkPattern e ⟨UInt64.ofNat no, 0, 0, 0⟩).1
    prepLoop write CHUNK_SIZE size fuel 0 0 {}

/-- A preparation that returns 0 leaves its own unit in every chunk up to the size,
whatever was in the file, and no failed write is returned as 0. -/
structure Truthful (cs size : Nat) (s : Progress) (ret : Int) : Prop where
  chunks : ret = 0 → ∀ i, i * cs < size → ∃ wu : WriteUnit, wu.chunkNo.toNat = i ∧
    ∀ f, chunkAt (s.replay f) cs i = pattern e cs wu
  negative : s.failed = true → ret < 0

end

-- ---------------------------------------------------------------------------
-- One write
-- ---------------------------------------------------------------------------

section
variable {c : Calls} {data : List UInt8} {offset done n : Nat} {s s' : Progress} {f : ByteFile}

theorem replay_writes (s : Progress) (ws : List (Nat × List UInt8)) (f : ByteFile) :
    { s with writes := s.writes ++ ws }.replay f =
      ws.foldl (fun f w => f.pwrite w.2 w.1) (s.replay f) :=
  List.foldl_append ..

theorem moved_some {count : Nat} {result : Option Nat} (h : moved count offset result = some n) :
    n ≤ count ∧ offset + n ≤ OFF_MAX ∧ (0 < count → 0 < n) := by
  unfold moved at h
  split at h
  · next hlt =>
    obtain ⟨m, -, rfl⟩ := Option.map_eq_some_iff.mp h
    omega
  · cases h

theorem land_none (h : moved data.length offset result = none) :
    s.land data offset result = ({ s with failed := true }, none) := by
  simp only [Progress.land, h]

theorem land_some (h : moved data.length offset result = some n) :
    s.land data offset result =
      ({ s with writes := s.writes ++ [(offset, data.take n)] }, some n) := by
  simp only [Progress.land, h]

/-- The file holds the first `done` bytes of the data, and what it held before elsewhere. -/
structure Written (data : List UInt8) (offset : Nat) (s s' : Progress) (done : Nat) : Prop where
  le : done ≤ data.length
  small : done = 0 ∨ offset + done ≤ OFF_MAX
  failed : s'.failed = s.failed
  byte : ∀ f i, (s'.replay f).byte i =
    if offset ≤ i ∧ i < offset + done then data.getD (i - offset) 0 else (s.replay f).byte i

theorem Written.start (s : Progress) : Written data offset s s 0 where
  le := Nat.zero_le _
  small := .inl rfl
  failed := rfl
  byte f i := by rw [if_neg (by omega)]

/-- A call of `pwrite` fails, or it moves some of the bytes that are missing. -/
theorem write_cases {r : Option Nat} (h : c.write data offset s done = (s', r)) :
    (r = none ∧ s'.failed = true) ∨
      ∃ n, r = some n ∧ n ≤ data.length - done ∧ offset + done + n ≤ OFF_MAX ∧
        (done < data.length → 0 < n) ∧ s'.failed = s.failed ∧
        ∀ f, s'.replay f = (s.replay f).pwrite ((data.drop done).take n) (offset + done) := by
  rw [Calls.write] at h
  cases hmoved : moved (data.drop done).length (offset + done) (c.pwrite s.calls) with
  | none =>
    rw [land_none hmoved] at h
    cases h
    exact .inl ⟨rfl, rfl⟩
  | some n =>
    rw [land_some hmoved] at h
    cases h
    obtain ⟨hle, hsmall, hpos⟩ := moved_some hmoved
    rw [List.length_drop] at hle hpos
    exact .inr ⟨n, rfl, hle, hsmall, fun hmore => hpos (by omega), rfl, fun f => replay_writes _ _ f⟩

theorem preserved_written (c : Calls) (data : List UInt8) (offset : Nat) (s : Progress) :
    Transfer.Preserved (c.write data offset) (Written data offset s) := by
  intro s₁ done s₂ n h hcall
  obtain ⟨hnone, -⟩ | ⟨m, hm, hle, hsmall, -, hfailed, hreplay⟩ := write_cases hcall
  · cases hnone
  cases hm
  have hdone := h.le
  refine ⟨by omega, .inr (by omega), hfailed.trans h.failed, fun f i => ?_⟩
  have hpiece : ((data.drop done).take n).length = n := by
    rw [List.length_take, List.length_drop, Nat.min_eq_left hle]
  rw [hreplay, ByteFile.byte_pwrite, hpiece]
  split
  · next hin =>
    rw [if_pos (by omega), List.getD_eq_getElem?_getD, List.getD_eq_getElem?_getD,
      List.getElem?_take_of_lt (by omega), List.getElem?_drop,
      show done + (i - (offset + done)) = i - offset by omega]
  · next hout =>
    rw [h.byte]
    split
    · next hold => rw [if_pos (by omega)]
    · next hold => rw [if_neg (by omega)]

theorem writeLoop_error (hpos : 0 < data.length) (h : c.pwrite s.calls = none) (offset : Nat)
    (success : Int) : writeLoop c data offset success s =
      some ({ s with calls := s.calls + 1, failed := true }, -1) := by
  have hcall : c.write data offset s 0 = ({ s with calls := s.calls + 1, failed := true }, none) := by
    rw [Calls.write, h]
    refine land_none ?_
    unfold moved
    split
    · rfl
    · rfl
  obtain ⟨n, hn⟩ := Nat.exists_eq_succ_of_ne_zero hpos.ne'
  rw [writeLoop, hn, Transfer.loop_error hcall]
  rfl

theorem writeLoop_spec (hpos : 0 < data.length) (c : Calls) (offset : Nat) (success : Int)
    (s : Progress) : ∃ s' ret, writeLoop c data offset success s = some (s', ret) ∧
      (ret = success ∧ Written data offset s s' data.length ∨ ret = -1 ∧ s'.failed = true) := by
  have hinv := preserved_written c data offset s
  have hmoves (s₁ : Progress) (done : Nat) (s₂ : Progress) (n : Nat)
      (_ : Written data offset s s₁ done) (hmore : done < data.length)
      (hcall : c.write data offset s₁ done = (s₂, some n)) : 0 < n := by
    obtain ⟨hnone, -⟩ | ⟨m, hm, -, -, hmoves, -⟩ := write_cases hcall
    · cases hnone
    · cases hm
      exact hmoves hmore
  obtain ⟨⟨s', ok⟩, hloop⟩ := hinv.exists_of_le (.start s) hmoves (Nat.sub_le _ 0) hpos
  refine ⟨s', _, by rw [writeLoop, hloop]; rfl, ?_⟩
  cases ok with
  | true =>
    obtain ⟨total, htotal, hwritten⟩ := hinv.of_true (.start s) hloop
    obtain rfl : data.length = total := Nat.le_antisymm htotal hwritten.le
    exact .inl ⟨rfl, hwritten⟩
  | false =>
    obtain ⟨s₁, done, -, hcall⟩ := hinv.of_false (.start s) hloop
    obtain ⟨-, hfailed⟩ | ⟨n, hn, -⟩ := write_cases hcall
    · exact .inr ⟨rfl, hfailed⟩
    · cases hn

end

-- ---------------------------------------------------------------------------
-- Chunks
-- ---------------------------------------------------------------------------

section
variable {e : Endian} {cs size no : Nat} {unit : Nat → WriteUnit} {s s' : Progress}

theorem in_chunk_iff {k n : Nat} (hk : k < cs) (hn : n ≤ cs) :
    (no * cs ≤ i * cs + k ∧ i * cs + k < no * cs + n) ↔ i = no ∧ k < n := by
  constructor
  · rintro ⟨hlo, hhi⟩
    rcases Nat.lt_trichotomy i no with hlt | rfl | hgt
    · have := Nat.mul_le_mul_right cs (Nat.succ_le_of_lt hlt)
      rw [Nat.succ_mul] at this
      omega
    · exact ⟨rfl, by omega⟩
    · have := Nat.mul_le_mul_right cs (Nat.succ_le_of_lt hgt)
      rw [Nat.succ_mul] at this
      omega
  · rintro ⟨rfl, hlt⟩
    omega

theorem getElem_chunkAt (f : ByteFile) (i : Nat) {k : Nat} (hk : k < (chunkAt f cs i).length) :
    (chunkAt f cs i)[k] = f.byte (i * cs + k) := by
  simp [chunkAt]

theorem not_own (hk : k < cs)
    (hfree : ∀ f, (s.replay f).byte (i * cs + k) = f.byte (i * cs + k)) :
    ¬ ∃ wu : WriteUnit, wu.chunkNo.toNat = i ∧ ∀ f, chunkAt (s.replay f) cs i = pattern e cs wu := by
  rintro ⟨wu, -, hown⟩
  have hbyte (f : ByteFile) : f.byte (i * cs + k) = (pattern e cs wu).getD k 0 := by
    have hk' : k < (chunkAt (s.replay f) cs i).length := by rwa [length_chunkAt]
    rw [← hown f, List.getD_eq_getElem _ _ hk', getElem_chunkAt, hfree]
  have hzero := hbyte .empty
  have hone := hbyte (ByteFile.empty.pwrite [1] (i * cs + k))
  rw [← hzero, ByteFile.byte_pwrite_of_mem (Nat.le_refl _) (by simp), Nat.sub_self] at hone
  cases hone

structure Prepared (e : Endian) (cs : Nat) (unit : Nat → WriteUnit) (s : Progress) (no : Nat) :
    Prop where
  failed : s.failed = false
  chunks : ∀ i < no, ∀ f, chunkAt (s.replay f) cs i = pattern e cs (unit i)

theorem Prepared.write (hcs : 40 ≤ cs) (h : Prepared e cs unit s no)
    (hw : Written (pattern e cs (unit no)) (no * cs) s s' (pattern e cs (unit no)).length) :
    Prepared e cs unit s' (no + 1) := by
  refine ⟨hw.failed.trans h.failed, fun i hi f => ?_⟩
  have hlen := length_pattern (e := e) hcs (unit no)
  rw [hlen] at hw
  refine List.ext_getElem ?_ fun k hk hk' => ?_
  · rw [length_chunkAt, length_pattern hcs]
  rw [length_chunkAt] at hk
  rw [getElem_chunkAt, hw.byte]
  simp only [in_chunk_iff hk (Nat.le_refl cs)]
  split
  · next hnew =>
    obtain ⟨rfl, -⟩ := hnew
    rw [Nat.add_sub_cancel_left, List.getD_eq_getElem _ _ hk']
  · next hold =>
    have hlt : i < no := by omega
    have hchunk := h.chunks i hlt f
    have hk'' : k < (chunkAt (s.replay f) cs i).length := (length_chunkAt _ _ _).symm ▸ hk
    rw [← getElem_chunkAt _ _ hk'']
    simp only [hchunk]

variable {write : Nat → Nat → Progress → Option (Progress × Int)} {success : Int}

def WritesChunk (e : Endian) (cs : Nat) (unit : Nat → WriteUnit) (success : Int)
    (write : Nat → Nat → Progress → Option (Progress × Int)) : Prop :=
  ∀ no s, no * cs < 2 ^ 64 → ∃ s' ret, write no (no * cs) s = some (s', ret) ∧
    (ret = success ∧
        Written (pattern e cs (unit no)) (no * cs) s s' (pattern e cs (unit no)).length ∨
      ret = -1 ∧ s'.failed = true)

/-- The loop ends with all chunks written, or with a failed write. The induction is
on what is left of the size. -/
theorem WritesChunk.prepLoop (hw : WritesChunk e cs unit success write) (hcs : 40 ≤ cs)
    (hsuccess : 0 ≤ success) (hsize : size < 2 ^ 64) (h : Prepared e cs unit s no) :
    ∃ fuel s' ret, prepLoop write cs size fuel no (no * cs) s = some (s', ret) ∧
      (ret = 0 ∧ (∃ no', size ≤ no' * cs ∧ Prepared e cs unit s' no') ∨
        ret = -1 ∧ s'.failed = true) := by
  induction hm : size - no * cs using Nat.strong_induction_on generalizing no s with
  | _ m ih =>
    by_cases hmore : no * cs < size
    · obtain ⟨s', ret, hwrite, hcase⟩ := hw no s (by omega)
      obtain ⟨rfl, hwritten⟩ | ⟨rfl, hfailed⟩ := hcase
      · have hsmall := hwritten.small
        rw [length_pattern hcs, OFF_MAX] at hsmall
        obtain ⟨fuel, s'', ret', hloop, hend⟩ :=
          ih _ (by rw [Nat.succ_mul]; omega) (h.write hcs hwritten) rfl
        refine ⟨fuel + 1, s'', ret', ?_, hend⟩
        rw [FileOps.prepLoop, if_pos hmore, hwrite]
        simp only
        rw [if_neg (Int.not_lt.mpr hsuccess), Nat.mod_eq_of_lt (by omega), ← Nat.succ_mul, hloop]
      · refine ⟨1, s', -1, ?_, .inr ⟨rfl, hfailed⟩⟩
        rw [FileOps.prepLoop, if_pos hmore, hwrite]
        rfl
    · exact ⟨1, s, 0, by rw [FileOps.prepLoop, if_neg hmore],
        .inl ⟨rfl, no, Nat.not_lt.mp hmore, h⟩⟩

theorem Prepared.start : Prepared e cs unit {} 0 where
  failed := rfl
  chunks _ hi := absurd hi (Nat.not_lt_zero _)

theorem Prepared.truthful (hcs : 0 < cs) (hsize : size < 2 ^ 64)
    (hunit : ∀ no, (unit no).chunkNo = UInt64.ofNat no) (h : Prepared e cs unit s no)
    (hall : size ≤ no * cs) (ret : Int) : Truthful e cs size s ret where
  chunks _ i hi := by
    have hlt : i < no := Nat.lt_of_mul_lt_mul_right (hi.trans_le hall)
    have hsmall : i < 2 ^ 64 := (Nat.le_mul_of_pos_right i hcs).trans_lt (hi.trans hsize)
    refine ⟨unit i, ?_, h.chunks i hlt⟩
    rw [hunit]
    exact UInt64.toNat_ofNat_of_lt hsmall
  negative hfailed := by
    rw [h.failed] at hfailed
    cases hfailed

theorem Truthful.of_negative {ret : Int} (h : ret < 0) : Truthful e cs size s ret where
  chunks h0 := absurd h0 h.ne
  negative _ := h

end

-- ---------------------------------------------------------------------------
-- The three programs
-- ---------------------------------------------------------------------------

section
variable {e : Endian} {c : Calls} {chunksize : UInt32} {filesize : UInt64} {cs size : Nat}
  {unit : Nat → WriteUnit} {success : Int}

theorem toNat_ofNat_of_mul_lt (hcs : 0 < cs) (h : no * cs < 2 ^ 64) :
    (UInt64.ofNat no).toNat = no :=
  UInt64.toNat_ofNat_of_lt ((Nat.le_mul_of_pos_right no hcs).trans_lt h)

theorem writeAt_chunk (hcs : 40 ≤ cs) (h : no * cs < 2 ^ 64) {wu : WriteUnit}
    (hno : wu.chunkNo = UInt64.ofNat no) (c : Calls) (s : Progress) :
    writeAt c (pattern e cs wu) (cs * wu.chunkNo.toNat % 2 ^ 64) s =
      writeLoop c (pattern e cs wu) (no * cs) (toInt cs) s := by
  rw [writeAt, hno, toNat_ofNat_of_mul_lt (by omega) h, Nat.mul_comm cs, Nat.mod_eq_of_lt h,
    length_pattern hcs]

/-- The unit of a chunk of libocfs2test and directio_test. -/
def randUnit (e : Endian) (cs : Nat) (c : Calls) (no : Nat) : WriteUnit :=
  prepRandDestWriteUnit e cs (UInt64.ofNat no) (c.char no) (c.time no)

theorem writesChunk_writeAt (hcs : 40 ≤ cs) (e : Endian) (c : Calls) :
    WritesChunk e cs (randUnit e cs c) (toInt cs) fun no _ =>
      writeAt c (pattern e cs (randUnit e cs c no))
        (cs * (randUnit e cs c no).chunkNo.toNat % 2 ^ 64) := by
  intro no s hno
  have hpos : 0 < (pattern e cs (randUnit e cs c no)).length := by
    rw [length_pattern hcs]
    omega
  obtain ⟨s', ret, hwrite, hcase⟩ := writeLoop_spec hpos c (no * cs) (toInt cs) s
  exact ⟨s', ret, (writeAt_chunk hcs hno rfl c s).trans hwrite, hcase⟩

theorem Libocfs2test.writesChunk (hcs : 40 ≤ chunksize.toNat) (e : Endian) (c : Calls) :
    WritesChunk e chunksize.toNat (randUnit e chunksize.toNat c) (toInt chunksize.toNat)
      fun no _ => Libocfs2test.doWriteChunk c e chunksize (randUnit e chunksize.toNat c no) :=
  writesChunk_writeAt hcs e c

theorem forty_le_CHUNK_SIZE : 40 ≤ CHUNK_SIZE := by decide

theorem DirectioUtils.writesChunk (e : Endian) (c : Calls) :
    WritesChunk e CHUNK_SIZE (randUnit e CHUNK_SIZE c) (toInt CHUNK_SIZE)
      fun no _ => DirectioUtils.doWriteChunk c e (randUnit e CHUNK_SIZE c no) :=
  writesChunk_writeAt forty_le_CHUNK_SIZE e c

theorem ReflinkTestUtils.writesChunk (e : Endian) (c : Calls) (odct : Bool) :
    WritesChunk e CHUNK_SIZE initTable 0 fun no =>
      ReflinkTestUtils.writeAt c false odct no (pattern e CHUNK_SIZE (initTable no)) := by
  intro no s _
  have hpos : 0 < (pattern e CHUNK_SIZE (initTable no)).length := by
    rw [length_pattern forty_le_CHUNK_SIZE]
    decide
  exact writeLoop_spec hpos c (no * CHUNK_SIZE) 0 s

theorem toInt_nonneg (n : UInt32) : 0 ≤ toInt n.toNat ↔ n.toNat < 2 ^ 31 := by
  have := n.toNat_lt
  unfold toInt
  rw [Int.bmod_def]
  split
  · omega
  · omega

theorem prepLoop_negative {write : Nat → Nat → Progress → Option (Progress × Int)} {s s' : Progress}
    {ret : Int} (hsize : 0 < size) (h : write 0 0 s = some (s', ret)) (hneg : ret < 0) :
    prepLoop write cs size 1 0 0 s = some (s', ret) := by
  rw [prepLoop, if_pos hsize, h]
  exact if_pos hneg

theorem Truthful.failed_of_zero {s : Progress} (h : Truthful e cs size s 0) : s.failed = false := by
  rw [← Bool.not_eq_true]
  intro hfailed
  exact absurd (h.negative hfailed) (lt_irrefl 0)

theorem Truthful.nothing {s : Progress} (hsize : size = 0) (h : s.failed = false) (ret : Int) :
    Truthful e cs size s ret where
  chunks _ i hi := absurd (hsize ▸ hi) (Nat.not_lt_zero _)
  negative hfailed := by
    rw [h] at hfailed
    cases hfailed

theorem Libocfs2test.prep_opened (e : Endian) (hopened : c.opened = true) (fuel : Nat) :
    Libocfs2test.prepOrigFileInChunks c e filesize chunksize fuel =
      (prepLoop (fun no _ => Libocfs2test.doWriteChunk c e chunksize (randUnit e chunksize.toNat c no))
        chunksize.toNat filesize.toNat fuel 0 0 {}).map fun r => (r.1, 0) := by
  rw [Libocfs2test.prepOrigFileInChunks, hopened]
  rfl

theorem Libocfs2test.prep_small (e : Endian) (filesize : UInt64) (hcs : 40 ≤ chunksize.toNat)
    (hsmall : chunksize.toNat < 2 ^ 31) (hopened : c.opened = true) : ∃ fuel s,
      Libocfs2test.prepOrigFileInChunks c e filesize chunksize fuel = some (s, 0) ∧
        (Truthful e chunksize.toNat filesize.toNat s 0 ↔ s.failed = false) := by
  obtain ⟨fuel, s, ret, hloop, hend⟩ := (Libocfs2test.writesChunk hcs e c).prepLoop hcs
    ((toInt_nonneg chunksize).mpr hsmall) filesize.toNat_lt .start
  rw [Nat.zero_mul] at hloop
  refine ⟨fuel, s, by rw [prep_opened e hopened, hloop]; rfl, Truthful.failed_of_zero, fun hfailed => ?_⟩
  obtain ⟨-, no, hall, hprepared⟩ | ⟨-, hfailed'⟩ := hend
  · exact hprepared.truthful (by omega) filesize.toNat_lt (fun _ => rfl) hall 0
  · rw [hfailed] at hfailed'
    cases hfailed'

theorem Libocfs2test.prep_huge (e : Endian) (filesize : UInt64) (hcs : 2 ^ 31 ≤ chunksize.toNat)
    (hopened : c.opened = true) : ∃ fuel s,
      Libocfs2test.prepOrigFileInChunks c e filesize chunksize fuel = some (s, 0) ∧
        (Truthful e chunksize.toNat filesize.toNat s 0 ↔
          s.failed = false ∧ filesize.toNat ≤ chunksize.toNat) := by
  have h40 : 40 ≤ chunksize.toNat := by omega
  rcases Nat.eq_zero_or_pos filesize.toNat with hzero | hsize
  · refine ⟨1, {}, ?_, fun _ => ⟨rfl, by omega⟩, fun _ => .nothing hzero rfl 0⟩
    rw [prep_opened e hopened, hzero]
    rfl
  obtain ⟨s, ret, hwrite, hcase⟩ := Libocfs2test.writesChunk h40 e c 0 {}
    (by rw [Nat.zero_mul]; exact Nat.two_pow_pos 64)
  rw [Nat.zero_mul] at hwrite
  have hneg : ret < 0 := by
    rcases hcase with ⟨hret, -⟩ | ⟨hret, -⟩
    · rw [hret, ← not_le, toInt_nonneg]
      exact Nat.not_lt.mpr hcs
    · rw [hret]
      decide
  have hloop : prepLoop (fun no _ => Libocfs2test.doWriteChunk c e chunksize
      (randUnit e chunksize.toNat c no)) chunksize.toNat filesize.toNat 1 0 0 {} = some (s, ret) :=
    prepLoop_negative hsize hwrite hneg
  refine ⟨1, s, by rw [prep_opened e hopened, hloop]; rfl, ?_⟩
  obtain ⟨-, hwritten⟩ | ⟨-, hfailed⟩ := hcase
  · constructor
    · intro h
      refine ⟨h.failed_of_zero, ?_⟩
      by_contra hlong
      -- the first byte of the second chunk
      refine not_own (k := 0) (by omega) (fun f => ?_) (h.chunks rfl 1 (by omega))
      rw [hwritten.byte, length_pattern h40, if_neg (by omega)]
      rfl
    · rintro ⟨-, hle⟩
      have hprepared := Prepared.start.write h40 hwritten
      exact hprepared.truthful (by omega) filesize.toNat_lt (fun _ => rfl) (by omega) 0
  · constructor
    · intro h
      exact absurd (h.negative hfailed) (lt_irrefl 0)
    · rintro ⟨hok, -⟩
      rw [hok] at hfailed
      cases hfailed

theorem Libocfs2test.prep_error (e : Endian) (hcs : 40 ≤ chunksize.toNat)
    (hsize : 0 < filesize.toNat) (hopened : c.opened = true) (h : c.pwrite 0 = none) :
    Libocfs2test.prepOrigFileInChunks c e filesize chunksize 1 =
      some ({ calls := 1, failed := true }, 0) := by
  have hpos : 0 < (pattern e chunksize.toNat (randUnit e chunksize.toNat c 0)).length := by
    rw [length_pattern hcs]
    omega
  have hunit : (randUnit e chunksize.toNat c 0).chunkNo = UInt64.ofNat 0 := rfl
  have hwrite := writeAt_chunk (e := e) hcs (show 0 * chunksize.toNat < 2 ^ 64 by omega) hunit c {}
  rw [writeLoop_error hpos h] at hwrite
  have hloop : prepLoop (fun no _ => Libocfs2test.doWriteChunk c e chunksize
      (randUnit e chunksize.toNat c no)) chunksize.toNat filesize.toNat 1 0 0 {} =
        some ({ calls := 1, failed := true }, -1) :=
    prepLoop_negative hsize hwrite (by decide)
  rw [prep_opened e hopened, hloop]
  rfl

theorem Libocfs2test.prep_iff (e : Endian) (c : Calls) (filesize : UInt64)
    (hcs : 40 ≤ chunksize.toNat) : ∃ fuel s ret,
      Libocfs2test.prepOrigFileInChunks c e filesize chunksize fuel = some (s, ret) ∧
        (Truthful e chunksize.toNat filesize.toNat s ret ↔ c.opened = false ∨
          s.failed = false ∧ (chunksize.toNat < 2 ^ 31 ∨ filesize.toNat ≤ chunksize.toNat)) := by
  cases hopened : c.opened with
  | false =>
    refine ⟨0, {}, -1, by rw [prepOrigFileInChunks, hopened]; rfl, ?_⟩
    exact iff_of_true (.of_negative (by decide)) (.inl rfl)
  | true =>
    rcases Nat.lt_or_ge chunksize.toNat (2 ^ 31) with hsmall | hhuge
    · obtain ⟨fuel, s, hrun, hiff⟩ := prep_small e filesize hcs hsmall hopened
      refine ⟨fuel, s, 0, hrun, hiff.trans ⟨fun h => .inr ⟨h, .inl hsmall⟩, fun h => ?_⟩⟩
      obtain h | ⟨h, -⟩ := h
      · cases h
      · exact h
    · obtain ⟨fuel, s, hrun, hiff⟩ := prep_huge e filesize hhuge hopened
      refine ⟨fuel, s, 0, hrun, hiff.trans ⟨fun h => .inr ⟨h.1, .inr h.2⟩, fun h => ?_⟩⟩
      obtain h | ⟨h, hsmall | hle⟩ := h
      · cases h
      · exact absurd hsmall (Nat.not_lt.mpr hhuge)
      · exact ⟨h, hle⟩

theorem WritesChunk.prepLoop_truthful {e : Endian} {cs size : Nat} {unit : Nat → WriteUnit}
    {success : Int} {write : Nat → Nat → Progress → Option (Progress × Int)}
    (hw : WritesChunk e cs unit success write) (hcs : 40 ≤ cs) (hsuccess : 0 ≤ success)
    (hsize : size < 2 ^ 64) (hunit : ∀ no, (unit no).chunkNo = UInt64.ofNat no) :
    ∃ fuel s ret, FileOps.prepLoop write cs size fuel 0 0 {} = some (s, ret) ∧
      Truthful e cs size s ret := by
  obtain ⟨fuel, s, ret, hloop, hend⟩ := hw.prepLoop hcs hsuccess hsize .start
  rw [Nat.zero_mul] at hloop
  refine ⟨fuel, s, ret, hloop, ?_⟩
  obtain ⟨-, no, hall, hprepared⟩ | ⟨hret, -⟩ := hend
  · exact hprepared.truthful (by omega) hsize hunit hall ret
  · exact .of_negative (hret ▸ by decide)

theorem chunk_aligned : CHUNK_SIZE % DIRECTIO_SLICE = 0 := by decide

theorem DirectioUtils.prep_truthful (e : Endian) (c : Calls) (filesize : UInt64) :
    ∃ fuel s ret, DirectioUtils.prepOrigFileInChunks c e filesize fuel = some (s, ret) ∧
      Truthful e CHUNK_SIZE filesize.toNat s ret := by
  cases hopened : c.opened with
  | false =>
    refine ⟨0, {}, -1, ?_, .of_negative (by decide)⟩
    rw [prepOrigFileInChunks, if_neg (not_not.mpr chunk_aligned), hopened]
    rfl
  | true =>
    have hsuccess : 0 ≤ toInt CHUNK_SIZE := by decide
    obtain ⟨fuel, s, ret, hloop, htruthful⟩ := (DirectioUtils.writesChunk e c).prepLoop_truthful
      forty_le_CHUNK_SIZE hsuccess filesize.toNat_lt fun _ => rfl
    refine ⟨fuel, s, ret, ?_, htruthful⟩
    rw [prepOrigFileInChunks, if_neg (not_not.mpr chunk_aligned), hopened]
    exact hloop

theorem chunks_size (filesize : UInt64) :
    CHUNK_SIZE * (filesize / UInt64.ofNat CHUNK_SIZE).toNat % 2 ^ 64 =
      filesize.toNat / CHUNK_SIZE * CHUNK_SIZE := by
  have hchunk : (UInt64.ofNat CHUNK_SIZE).toNat = CHUNK_SIZE := by decide
  have hle := Nat.div_mul_le_self filesize.toNat CHUNK_SIZE
  rw [UInt64.toNat_div, hchunk, Nat.mul_comm, Nat.mod_eq_of_lt (hle.trans_lt filesize.toNat_lt)]

theorem ReflinkTestUtils.prep_truthful (e : Endian) (c : Calls) (odct : Bool) (filesize : UInt64) :
    ∃ fuel s ret, ReflinkTestUtils.prepOrigFileInChunks c e false odct
        (filesize / UInt64.ofNat CHUNK_SIZE) fuel = some (s, ret) ∧
      Truthful e CHUNK_SIZE (filesize.toNat / CHUNK_SIZE * CHUNK_SIZE) s ret := by
  cases hopened : c.opened with
  | false =>
    refine ⟨0, {}, -1, ?_, .of_negative (by decide)⟩
    rw [prepOrigFileInChunks, if_neg (not_not.mpr chunk_aligned), hopened]
    rfl
  | true =>
    have hsize : filesize.toNat / CHUNK_SIZE * CHUNK_SIZE < 2 ^ 64 :=
      (Nat.div_mul_le_self _ _).trans_lt filesize.toNat_lt
    obtain ⟨fuel, s, ret, hloop, htruthful⟩ :=
      (ReflinkTestUtils.writesChunk e c odct).prepLoop_truthful forty_le_CHUNK_SIZE
        (Int.le_refl 0) hsize fun _ => rfl
    refine ⟨fuel, s, ret, ?_, htruthful⟩
    rw [prepOrigFileInChunks, if_neg (not_not.mpr chunk_aligned), hopened, chunks_size]
    exact hloop

end

-- ---------------------------------------------------------------------------
-- The asynchronous way
-- ---------------------------------------------------------------------------

section
variable {e : Endian} {c : Calls} {odct : Bool} {a : Aio} {data : List UInt8} {s : Progress}

theorem asioWriteAt_fails (h : a.fails odct = true) (data : List UInt8) (offset : Nat)
    (s : Progress) :
    (asioWriteAt odct a data offset s).2 = -1 := by
  unfold asioWriteAt
  split
  · rfl
  split
  · rfl
  split
  · rfl
  simp only
  split
  · rfl
  split
  · rfl
  · next hmemalign hsetup hsubmit hquery hpread =>
    simp only [Bool.not_eq_true] at hmemalign hsetup hsubmit hquery hpread
    simp only [Aio.fails, hmemalign, hsetup, hsubmit, hquery, hpread, Bool.false_or,
      Bool.not_eq_true'] at h
    rw [h]
    rfl

theorem asioWriteAt_ok (h : a.fails odct = false) (data : List UInt8) (offset : Nat)
    (s : Progress) :
    asioWriteAt odct a data offset s = ((s.land data offset a.event).1, 0) := by
  simp only [Aio.fails, Bool.or_eq_false_iff] at h
  obtain ⟨⟨⟨⟨⟨hmemalign, hsetup⟩, hsubmit⟩, hquery⟩, hpread⟩, hdestroy⟩ := h
  rw [Bool.not_eq_false'] at hdestroy
  simp [asioWriteAt, hmemalign, hsetup, hsubmit, hquery, hpread, hdestroy]

def Calls.movedChunk (c : Calls) (i : Nat) : Option Nat :=
  moved CHUNK_SIZE (i * CHUNK_SIZE) (c.aio i).event

/-- The first chunks are what their writes moved of them. -/
structure Landed (e : Endian) (c : Calls) (s : Progress) (no : Nat) : Prop where
  failed : s.failed = true ↔ ∃ i < no, c.movedChunk i = none
  byte : ∀ f i k, k < CHUNK_SIZE → (s.replay f).byte (i * CHUNK_SIZE + k) =
    if i < no ∧ k < (c.movedChunk i).getD 0 then (pattern e CHUNK_SIZE (initTable i)).getD k 0
    else f.byte (i * CHUNK_SIZE + k)

theorem Landed.start : Landed e c {} 0 where
  failed := by simp
  byte f i k _ := by
    rw [if_neg (by omega)]
    rfl

theorem Landed.land (h : Landed e c s no) :
    Landed e c (s.land (pattern e CHUNK_SIZE (initTable no)) (no * CHUNK_SIZE) (c.aio no).event).1
      (no + 1) := by
  have hlen : (pattern e CHUNK_SIZE (initTable no)).length = CHUNK_SIZE :=
    length_pattern forty_le_CHUNK_SIZE _
  have hevent : moved (pattern e CHUNK_SIZE (initTable no)).length (no * CHUNK_SIZE)
      (c.aio no).event = c.movedChunk no := by
    rw [hlen, Calls.movedChunk]
  cases hmoved : c.movedChunk no with
  | none =>
    rw [land_none (hevent.trans hmoved)]
    refine ⟨iff_of_true rfl ⟨no, Nat.lt_succ_self no, hmoved⟩, fun f i k hk => ?_⟩
    show (s.replay f).byte _ = _
    rw [h.byte f i k hk]
    rcases Nat.lt_trichotomy i no with hlt | rfl | hgt
    · simp only [hlt, Nat.lt_succ_of_lt hlt]
    · simp [hmoved]
    · rw [if_neg (by omega), if_neg (by omega)]
  | some n =>
    have hle := (moved_some hmoved).1
    rw [land_some (hevent.trans hmoved)]
    refine ⟨h.failed.trans ?_, fun f i k hk => ?_⟩
    · constructor
      · rintro ⟨i, hi, hnone⟩
        exact ⟨i, Nat.lt_succ_of_lt hi, hnone⟩
      · rintro ⟨i, hi, hnone⟩
        refine ⟨i, lt_of_le_of_ne (Nat.le_of_lt_succ hi) ?_, hnone⟩
        rintro rfl
        rw [hmoved] at hnone
        cases hnone
    · have hpiece : ((pattern e CHUNK_SIZE (initTable no)).take n).length = n := by
        rw [List.length_take, hlen, Nat.min_eq_left hle]
      rw [replay_writes, List.foldl_cons, List.foldl_nil, ByteFile.byte_pwrite, hpiece]
      simp only [in_chunk_iff hk hle]
      split
      · next hnew =>
        obtain ⟨rfl, hkn⟩ := hnew
        rw [hmoved, Option.getD_some, if_pos ⟨Nat.lt_succ_self i, hkn⟩, Nat.add_sub_cancel_left,
          List.getD_eq_getElem?_getD, List.getD_eq_getElem?_getD, List.getElem?_take_of_lt hkn]
      · next hold =>
        rw [h.byte f i k hk]
        rcases Nat.lt_trichotomy i no with hlt | rfl | hgt
        · simp only [hlt, Nat.lt_succ_of_lt hlt]
        · rw [hmoved, Option.getD_some, if_neg (by omega), if_neg (by omega)]
        · rw [if_neg (by omega), if_neg (by omega)]

/-- The loop ends with all of its writes landed, or at a call that fails. The
induction is on the chunks that are left. -/
theorem prepLoop_asio (e : Endian) (c : Calls) (odct : Bool) {chunks no : Nat} {s : Progress}
    (hsize : chunks * CHUNK_SIZE < 2 ^ 64) (hno : no ≤ chunks) (h : Landed e c s no)
    (hnone : ∀ i < no, (c.aio i).fails odct = false) :
    ∃ fuel s' ret, prepLoop (fun no => ReflinkTestUtils.writeAt c true odct no
        (pattern e CHUNK_SIZE (initTable no))) CHUNK_SIZE (chunks * CHUNK_SIZE) fuel no
        (no * CHUNK_SIZE) s = some (s', ret) ∧
      (ret = 0 ∧ Landed e c s' chunks ∧ (∀ i < chunks, (c.aio i).fails odct = false) ∨
        ret = -1 ∧ ∃ i < chunks, (c.aio i).fails odct = true) := by
  induction hm : chunks - no generalizing no s with
  | zero =>
    obtain rfl : no = chunks := by omega
    exact ⟨1, s, 0, by rw [prepLoop, if_neg (Nat.lt_irrefl _)], .inl ⟨rfl, h, hnone⟩⟩
  | succ m ih =>
    have hlt : no < chunks := by omega
    have hmore : no * CHUNK_SIZE < chunks * CHUNK_SIZE := Nat.mul_lt_mul_of_pos_right hlt (by decide)
    have hnext : (no + 1) * CHUNK_SIZE ≤ chunks * CHUNK_SIZE := Nat.mul_le_mul_right _ hlt
    cases hfails : (c.aio no).fails odct with
    | true =>
      have hret := asioWriteAt_fails hfails (pattern e CHUNK_SIZE (initTable no)) (no * CHUNK_SIZE) s
      cases hwrite : asioWriteAt odct (c.aio no) (pattern e CHUNK_SIZE (initTable no))
          (no * CHUNK_SIZE) s with
      | mk s' ret =>
        rw [hwrite] at hret
        subst hret
        refine ⟨1, s', -1, ?_, .inr ⟨rfl, no, hlt, hfails⟩⟩
        rw [prepLoop, if_pos hmore, ReflinkTestUtils.writeAt, if_pos rfl, hwrite]
        rfl
    | false =>
      have hwrite := asioWriteAt_ok hfails (pattern e CHUNK_SIZE (initTable no)) (no * CHUNK_SIZE) s
      have hnone' : ∀ i < no + 1, (c.aio i).fails odct = false := by
        intro i hi
        rcases Nat.lt_succ_iff_lt_or_eq.mp hi with hi | rfl
        · exact hnone i hi
        · exact hfails
      obtain ⟨fuel, s', ret, hloop, hend⟩ := ih hlt h.land hnone' (by omega)
      refine ⟨fuel + 1, s', ret, ?_, hend⟩
      rw [prepLoop, if_pos hmore, ReflinkTestUtils.writeAt, if_pos rfl, hwrite]
      simp only
      rw [if_neg (lt_irrefl 0), ← Nat.succ_mul, Nat.mod_eq_of_lt (hnext.trans_lt hsize), hloop]

theorem Landed.truthful_iff {chunks : Nat} (h : Landed e c s chunks)
    (hsize : chunks * CHUNK_SIZE < 2 ^ 64) :
    Truthful e CHUNK_SIZE (chunks * CHUNK_SIZE) s 0 ↔
      ∀ i < chunks, c.movedChunk i = some CHUNK_SIZE := by
  constructor
  · intro ht i hi
    cases hmoved : c.movedChunk i with
    | none =>
      have hfailed := h.failed.mpr ⟨i, hi, hmoved⟩
      exact absurd (ht.negative hfailed) (lt_irrefl 0)
    | some n =>
      rcases (moved_some hmoved).1.lt_or_eq with hlt | rfl
      · have hin : i * CHUNK_SIZE < chunks * CHUNK_SIZE := Nat.mul_lt_mul_of_pos_right hi (by decide)
        refine absurd (ht.chunks rfl i hin) (not_own hlt fun f => ?_)
        rw [h.byte f i n hlt, hmoved, Option.getD_some, if_neg fun hc => lt_irrefl n hc.2]
      · rfl
  · intro hfull
    refine ⟨fun _ i hin => ?_, fun hfailed => ?_⟩
    · have hi : i < chunks := Nat.lt_of_mul_lt_mul_right hin
      refine ⟨initTable i, toNat_ofNat_of_mul_lt (by decide) (hin.trans hsize), fun f => ?_⟩
      have hlen : (pattern e CHUNK_SIZE (initTable i)).length = CHUNK_SIZE :=
        length_pattern forty_le_CHUNK_SIZE _
      refine List.ext_getElem ((length_chunkAt _ _ _).trans hlen.symm) fun k hk hk' => ?_
      rw [length_chunkAt] at hk
      rw [getElem_chunkAt, h.byte f i k hk, hfull i hi, Option.getD_some, if_pos ⟨hi, hk⟩,
        List.getD_eq_getElem _ _ hk']
    · obtain ⟨i, hi, hnone⟩ := h.failed.mp hfailed
      rw [hfull i hi] at hnone
      cases hnone

theorem ReflinkTestUtils.prep_asio_iff (e : Endian) (c : Calls) (odct : Bool) (filesize : UInt64) :
    ∃ fuel s ret, ReflinkTestUtils.prepOrigFileInChunks c e true odct
        (filesize / UInt64.ofNat CHUNK_SIZE) fuel = some (s, ret) ∧
      (Truthful e CHUNK_SIZE (filesize.toNat / CHUNK_SIZE * CHUNK_SIZE) s ret ↔
        c.opened = false ∨ (∃ i < filesize.toNat / CHUNK_SIZE, (c.aio i).fails odct = true) ∨
          ∀ i < filesize.toNat / CHUNK_SIZE, c.movedChunk i = some CHUNK_SIZE) := by
  cases hopened : c.opened with
  | false =>
    refine ⟨0, {}, -1, ?_, iff_of_true (.of_negative (by decide)) (.inl rfl)⟩
    rw [prepOrigFileInChunks, if_neg (not_not.mpr chunk_aligned), hopened]
    rfl
  | true =>
    have hsize : filesize.toNat / CHUNK_SIZE * CHUNK_SIZE < 2 ^ 64 :=
      (Nat.div_mul_le_self _ _).trans_lt filesize.toNat_lt
    obtain ⟨fuel, s, ret, hloop, hend⟩ := prepLoop_asio e c odct hsize (Nat.zero_le _) .start
      fun i hi => absurd hi (Nat.not_lt_zero i)
    rw [Nat.zero_mul] at hloop
    refine ⟨fuel, s, ret, ?_, ?_⟩
    · rw [prepOrigFileInChunks, if_neg (not_not.mpr chunk_aligned), hopened, chunks_size]
      exact hloop
    · obtain ⟨rfl, hlanded, hnone⟩ | ⟨rfl, hfails⟩ := hend
      · rw [hlanded.truthful_iff hsize]
        constructor
        · exact fun hfull => .inr (.inr hfull)
        · rintro (h | ⟨i, hi, hfails⟩ | hfull)
          · cases h
          · rw [hnone i hi] at hfails
            cases hfails
          · exact hfull
      · exact iff_of_true (.of_negative (by decide)) (.inr (.inl hfails))

end

/-- Every preparation ends. The one of directio_test is truthful; the one of
libocfs2test as long as no write fails and no chunk has 2 GiB, or there is one chunk
only; the one of reflink_test unless an asynchronous write is not done in full and
nothing else fails. -/
theorem prepOrigFileInChunks_iff (e : Endian) (c : Calls) (filesize : UInt64) (chunksize : UInt32)
    (asio odct : Bool) (hcs : 41 ≤ chunksize.toNat) :
    (∃ fuel s ret, Libocfs2test.prepOrigFileInChunks c e filesize chunksize fuel = some (s, ret) ∧
        (Truthful e chunksize.toNat filesize.toNat s ret ↔ c.opened = false ∨
          s.failed = false ∧ (chunksize.toNat < 2 ^ 31 ∨ filesize.toNat ≤ chunksize.toNat))) ∧
      (∃ fuel s ret, DirectioUtils.prepOrigFileInChunks c e filesize fuel = some (s, ret) ∧
        Truthful e CHUNK_SIZE filesize.toNat s ret) ∧
      ∃ fuel s ret, ReflinkTestUtils.prepOrigFileInChunks c e asio odct
          (filesize / UInt64.ofNat CHUNK_SIZE) fuel = some (s, ret) ∧
        (Truthful e CHUNK_SIZE (filesize.toNat / CHUNK_SIZE * CHUNK_SIZE) s ret ↔
          asio = false ∨ c.opened = false ∨
            (∃ i < filesize.toNat / CHUNK_SIZE, (c.aio i).fails odct = true) ∨
            ∀ i < filesize.toNat / CHUNK_SIZE, c.movedChunk i = some CHUNK_SIZE) := by
  refine ⟨Libocfs2test.prep_iff e c filesize (by omega),
    DirectioUtils.prep_truthful e c filesize, ?_⟩
  cases asio with
  | false =>
    obtain ⟨fuel, s, ret, hrun, htruthful⟩ := ReflinkTestUtils.prep_truthful e c odct filesize
    exact ⟨fuel, s, ret, hrun, iff_of_true htruthful (.inl rfl)⟩
  | true =>
    obtain ⟨fuel, s, ret, hrun, hiff⟩ := ReflinkTestUtils.prep_asio_iff e c odct filesize
    refine ⟨fuel, s, ret, hrun, hiff.trans ⟨.inr, ?_⟩⟩
    rintro (h | h)
    · cases h
    · exact h

/-- A `pwrite` moves 5000 bytes at most, and the asynchronous write of the second chunk
fails. -/
def shortWrites : Calls where
  opened := true
  pwrite _ := some 5000
  aio i := ⟨true, true, true, true, true, true, if i = 0 then some CHUNK_SIZE else none⟩
  char _ := 0
  time _ := 0

theorem prepOrigFileInChunks_shortWrites :
    (∃ fuel s ret,
        Libocfs2test.prepOrigFileInChunks shortWrites .little 16384 512 fuel = some (s, ret) ∧
        (Truthful .little 512 16384 s ret ↔ shortWrites.opened = false ∨
          s.failed = false ∧ (512 < 2 ^ 31 ∨ 16384 ≤ 512))) ∧
      (∃ fuel s ret,
        DirectioUtils.prepOrigFileInChunks shortWrites .little 16384 fuel = some (s, ret) ∧
        Truthful .little CHUNK_SIZE 16384 s ret) ∧
      ∃ fuel s ret, ReflinkTestUtils.prepOrigFileInChunks shortWrites .little true false
          (16384 / UInt64.ofNat CHUNK_SIZE) fuel = some (s, ret) ∧
        (Truthful .little CHUNK_SIZE (16384 / CHUNK_SIZE * CHUNK_SIZE) s ret ↔
          true = false ∨ shortWrites.opened = false ∨
            (∃ i < 16384 / CHUNK_SIZE, (shortWrites.aio i).fails false = true) ∨
            ∀ i < 16384 / CHUNK_SIZE, shortWrites.movedChunk i = some CHUNK_SIZE) :=
  prepOrigFileInChunks_iff .little shortWrites 16384 512 true false (by decide)

def fullDisk : Calls where
  opened := true
  pwrite _ := none
  aio _ := ⟨true, true, true, true, true, true, none⟩
  char _ := 0
  time _ := 0

/-- One chunk that is not written at all, and 0 is returned. -/
theorem Libocfs2test.prep_fullDisk : ∃ s,
    Libocfs2test.prepOrigFileInChunks fullDisk .little 512 512 1 = some (s, 0) ∧ s.failed = true ∧
      ¬ Truthful .little 512 512 s 0 := by
  refine ⟨_, prep_error .little (by decide) (by decide) rfl rfl, rfl, fun h => ?_⟩
  exact absurd (h.negative rfl) (lt_irrefl 0)

end Ocfs2Test.FileOps
