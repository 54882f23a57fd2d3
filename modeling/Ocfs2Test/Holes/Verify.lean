import Ocfs2Test.Lib.Stdio
import Ocfs2Test.Lib.ByteFile
import Ocfs2Test.Holes.Tree

/-!
# verify_holes

The log is text, one record a line, read with `fscanf`. `main` builds the tree
from it over one chunk for the whole file and compares every chunk with the
file. That first chunk has a 32-bit length: from `size mod 2^32` on, only what
the records cover is compared.
-/

namespace Ocfs2Test.Holes

open Lib Lib.Segment Lib.Stdio

def MAX_WRITE_SIZE : Nat := 32768

def RAND_CHAR_START : UInt8 := 65

def MAGIC_HOLE_CHAR : UInt8 := RAND_CHAR_START - 1

def EINVAL : Nat := 22

-- ---------------------------------------------------------------------------
-- The log
-- ---------------------------------------------------------------------------

/-- `"%c\t%lu\t%u\n"` of `fh_log_write` and `ph_log_write`. -/
def printUnit (wu : WriteUnit) : List Char :=
  Char.ofUInt8 wu.val :: '\t' :: (printNat wu.off ++ '\t' :: (printNat wu.len ++ ['\n']))

def printLog (units : List WriteUnit) : List Char := units.flatMap printUnit

/-- What `fscanf` with that format returns: `EOF`, fewer than three, or a record.
At `EOF` nothing is left of the stream. -/
inductive Scanned
  | eof
  | short (count : Nat) (rest : Stream)
  | unit (wu : WriteUnit) (rest : Stream)

def scanUnit (s : Stream) : Scanned :=
  match s.char with
  | none => .eof
  | some (c, s) =>
    match s.skip.number with
    | none => .short 1 s.skip.noNumber
    | some ((neg, off), s) =>
      match s.skip.number with
      | none => .short 2 s.skip.noNumber
      | some ((neg', len), s) =>
        .unit ⟨c.toUInt8, toUnsignedLong neg off, toUnsignedLong neg' len % 2 ^ 32⟩ s.skip

-- ---------------------------------------------------------------------------
-- The program
-- ---------------------------------------------------------------------------

/-- A hole is checked for zeros. -/
def mapHole (wu : WriteUnit) : WriteUnit :=
  if wu.val = MAGIC_HOLE_CHAR then { wu with val := 0 } else wu

inductive Exit
  | code (n : Nat)
  | fault (f : Fault)
  deriving DecidableEq, Repr

theorem scanUnit_length (h : scanUnit s = .unit wu rest) :
    rest.text.length < s.text.length := by
  unfold scanUnit at h
  split at h
  · cases h
  next hc =>
  split at h
  · cases h
  next hoff =>
  split at h
  · cases h
  next hlen =>
  cases h
  have h₁ := Stream.char_length hc
  have h₂ := Stream.number_length hoff
  have h₃ := Stream.number_length hlen
  have h₄ (s : Stream) := Stream.skip_length s
  exact Nat.lt_of_le_of_lt (Nat.le_trans (h₄ _) (Nat.le_trans h₃ (Nat.le_trans (h₄ _)
    (Nat.le_trans h₂ (h₄ _))))) h₁

/-- `vh_read_log`: the records one after the other until `EOF`. -/
def readLog (rb : Rebalance WriteUnit) (s : Stream) (t : RbTree WriteUnit) :
    Except Exit (RbTree WriteUnit) :=
  match _ : scanUnit s with
  | .eof => .ok t
  | .short _ _ => .error (.code 1)
  | .unit wu rest =>
    match insertChunk rb (mapHole wu) t with
    | .error f => .error (.fault f)
    | .ok t => readLog rb rest t
termination_by s.text.length
decreasing_by exact scanUnit_length ‹_›

/-- The loop of `vh_check_chunk`, with `len` bytes to go. An offset that no
`off_t` holds is behind the end of any file. -/
def checkFrom (f : ByteFile) (char : UInt8) (off len : Nat) : Nat :=
  if len = 0 then 0
  else
    let count := min len MAX_WRITE_SIZE
    let buf := f.pread count off
    if buf.length = 0 then EINVAL
    else if buf.length ≠ count then EINVAL
    else if buf.any (· ≠ char) then 1
    else checkFrom f char ((off + count) % 2 ^ 64) (len - count)
termination_by len
decreasing_by
  simp only [MAX_WRITE_SIZE]
  omega

def checkChunk (f : ByteFile) (wu : WriteUnit) : Nat := checkFrom f wu.val wu.off wu.len

/-- `vh_check_file` over the chunks as `rb_first` and `rb_next` give them. -/
def checkFile (f : ByteFile) : List WriteUnit → Nat
  | [] => 0
  | wu :: wus => if checkChunk f wu ≠ 0 then EINVAL else checkFile f wus

/-- `main`, once both files are open. -/
def verifyHoles (rb : Rebalance WriteUnit) (f : ByteFile) (log : List Char) : Exit :=
  match initTree rb f.size with
  | .error e => .fault e
  | .ok t =>
    match readLog rb ⟨log, false⟩ t with
    | .error e => e
    | .ok t => .code (if checkFile f t.inorder ≠ 0 then 1 else 0)

-- ---------------------------------------------------------------------------
-- Reading the log back
-- ---------------------------------------------------------------------------

/-- A record as the writers make them: no white space for a character, 32 bits
of length and an end below 2^64. -/
structure UnitOk (wu : WriteUnit) : Prop where
  char : isSpace (Char.ofUInt8 wu.val) = false
  wellFormed : WellFormed wu

theorem toUInt8_ofUInt8 (b : UInt8) : (Char.ofUInt8 b).toUInt8 = b := by
  simp [Char.ofUInt8, Char.toUInt8]

theorem printUnit_append (wu : WriteUnit) (cs : List Char) :
    printUnit wu ++ cs = Char.ofUInt8 wu.val :: '\t' ::
      (printNat wu.off ++ '\t' :: (printNat wu.len ++ '\n' :: cs)) := by
  simp [printUnit]

/-- A record is read back as it was printed; the end of the log is seen with the
last one, since the format goes on to the next character that is no space. -/
theorem scanUnit_print (hwu : UnitOk wu) (hwus : ∀ u ∈ wus, UnitOk u) :
    scanUnit ⟨printLog (wu :: wus), e⟩ = .unit wu ⟨printLog wus, e || wus.isEmpty⟩ := by
  have htab : isSpace '\t' = true := by decide
  have hnl : isSpace '\n' = true := by decide
  have hoff : toUnsignedLong false wu.off = wu.off := by
    have := hwu.wellFormed.stop
    rw [toUnsignedLong, if_neg (by omega)]
    rfl
  have hlen : toUnsignedLong false wu.len % 2 ^ 32 = wu.len := by
    have := hwu.wellFormed.len
    rw [toUnsignedLong, if_neg (by omega)]
    exact Nat.mod_eq_of_lt this
  have hrest : Stream.skip ⟨'\n' :: printLog wus, e⟩ = ⟨printLog wus, e || wus.isEmpty⟩ := by
    rw [Stream.skip_space hnl]
    cases wus with
    | nil => simp [printLog, Stream.skip, skipSpace]
    | cons u us =>
      have hprint : printLog (u :: us) = printUnit u ++ printLog us := by simp [printLog]
      rw [hprint, printUnit_append, Stream.skip_stop (hwus u (by simp)).char]
      simp
  have hprint : printLog (wu :: wus) = printUnit wu ++ printLog wus := by simp [printLog]
  rw [hprint, printUnit_append]
  simp only [scanUnit, Stream.char, Stream.skip_space htab, Stream.skip_printNat,
    Stream.number_printNat htab, Stream.number_printNat hnl, toUInt8_ofUInt8, hoff, hlen, hrest]

theorem readLog_print {rb : Rebalance WriteUnit} {t : RbTree WriteUnit}
    (hwus : ∀ u ∈ wus, UnitOk u)
    (h : (wus.map mapHole).foldlM (fun t chunk => insertChunk rb chunk t) t = .ok t') :
    readLog rb ⟨printLog wus, e⟩ t = .ok t' := by
  induction wus generalizing t e with
  | nil =>
    rw [readLog]
    cases h
    rfl
  | cons wu wus ih =>
    rw [readLog, scanUnit_print (hwus wu (by simp)) fun u hu => hwus u (by simp [hu])]
    rw [List.map_cons, List.foldlM_cons] at h
    cases hins : insertChunk rb (mapHole wu) t with
    | error f => simp [hins, bind, Except.bind] at h
    | ok t₁ =>
      simp only [hins, bind, Except.bind] at h ⊢
      exact ih (fun u hu => hwus u (by simp [hu])) h

-- ---------------------------------------------------------------------------
-- Checking
-- ---------------------------------------------------------------------------

theorem pread_any_ne (char : UInt8) {f : ByteFile} {off count : Nat} (h : off + count ≤ f.size) :
    (f.pread count off).any (· ≠ char) = false ↔
      ∀ pos, off ≤ pos → pos < off + count → f.byte pos = char := by
  have hmin : min count (f.size - off) = count := by omega
  simp only [ByteFile.pread, hmin, List.any_eq_false, List.mem_map, List.mem_range, ne_eq,
    decide_eq_true_eq, not_not]
  constructor
  · intro hall pos h₁ h₂
    exact hall _ ⟨pos - off, by omega, by rw [Nat.add_sub_cancel' h₁]⟩
  · rintro hall _ ⟨i, hi, rfl⟩
    exact hall _ (by omega) (by omega)

theorem checkFrom_eq_zero (f : ByteFile) (char : UInt8) {off len : Nat} (h : off + len < 2 ^ 64) :
    checkFrom f char off len = 0 ↔
      ∀ pos, off ≤ pos → pos < off + len → pos < f.size ∧ f.byte pos = char := by
  induction len using Nat.strongRecOn generalizing off with
  | _ len ih =>
    rw [checkFrom]
    by_cases hzero : len = 0
    · simp only [hzero, if_true, true_iff]
      intro pos h₁ h₂
      omega
    obtain ⟨count, hcount⟩ : ∃ count, min len MAX_WRITE_SIZE = count := ⟨_, rfl⟩
    have hpos : 0 < count ∧ count ≤ len := by
      simp only [MAX_WRITE_SIZE] at hcount
      omega
    simp only [hzero, if_false, hcount, ByteFile.length_pread]
    by_cases hin : off + count ≤ f.size
    · have hbuf := pread_any_ne char hin
      have hmod : (off + count) % 2 ^ 64 = off + count := Nat.mod_eq_of_lt (by omega)
      have hrest := ih (len - count) (by omega) (show off + count + (len - count) < 2 ^ 64 by omega)
      rw [if_neg (by omega), if_neg (by omega), hmod]
      cases hany : (f.pread count off).any (· ≠ char) with
      | true =>
        rw [hany] at hbuf
        simp only [if_true, Nat.one_ne_zero, false_iff]
        intro hall
        exact absurd (hbuf.mpr fun pos h₁ h₂ => (hall pos h₁ (by omega)).2) (by simp)
      | false =>
        simp only [Bool.false_eq_true, if_false]
        rw [hrest]
        have hbuf := hbuf.mp hany
        constructor
        · intro hall pos h₁ h₂
          by_cases hlt : pos < off + count
          · exact ⟨by omega, hbuf pos h₁ hlt⟩
          · exact hall pos (by omega) (by omega)
        · intro hall pos h₁ h₂
          exact hall pos (by omega) (by omega)
    · -- the read is short, and the file ends inside the range
      have hbad : (if min count (f.size - off) = 0 then EINVAL
          else if min count (f.size - off) ≠ count then EINVAL
          else if (f.pread count off).any (· ≠ char) then 1
          else checkFrom f char ((off + count) % 2 ^ 64) (len - count)) ≠ 0 := by
        split
        · decide
        · rw [if_pos (by omega)]
          decide
      refine iff_of_false hbad fun hall => ?_
      have := (hall (max off f.size) (by omega) (by omega)).1
      omega

theorem checkFile_eq_zero {f : ByteFile} {wus : List WriteUnit}
    (hwf : ∀ wu ∈ wus, WellFormed wu) :
    checkFile f wus = 0 ↔
      ∀ wu ∈ wus, ∀ pos, wu.Covers pos → pos < f.size ∧ f.byte pos = wu.val := by
  induction wus with
  | nil => simp [checkFile]
  | cons wu wus ih =>
    have hchunk := checkFrom_eq_zero f wu.val (hwf wu (by simp)).stop
    rw [checkFile, List.forall_mem_cons, ← ih fun u hu => hwf u (by simp [hu])]
    by_cases hc : checkChunk f wu = 0
    · simp only [hc, ne_eq, not_true_eq_false, if_false]
      refine (and_iff_right fun pos hcov => ?_).symm
      exact hchunk.mp hc pos hcov.1 hcov.2
    · simp only [ne_eq, hc, not_false_eq_true, if_true]
      refine iff_of_false (by decide) fun hall => hc (hchunk.mpr fun pos h₁ h₂ => ?_)
      exact hall.1 pos ⟨h₁, h₂⟩

-- ---------------------------------------------------------------------------
-- The verdict
-- ---------------------------------------------------------------------------

/-- The byte the log leaves at a position of a file of zeros. -/
def replayedByte (units : List WriteUnit) (pos : Nat) : UInt8 :=
  ((units.map mapHole).foldl override (fun _ => none) pos).getD 0

structure Matches (f : ByteFile) (units : List WriteUnit) : Prop where
  inside : ∀ wu ∈ units, 0 < wu.len → wu.stop ≤ f.size
  bytes : ∀ pos < f.size, f.byte pos = replayedByte units pos

/-- The positions `verify_holes` looks at. -/
def Checked (f : ByteFile) (units : List WriteUnit) (pos : Nat) : Prop :=
  pos < f.size % 2 ^ 32 ∨ ∃ wu ∈ units, wu.Covers pos

section
variable (rb : Rebalance WriteUnit) {f : ByteFile} {units : List WriteUnit}

theorem mapHole_covers (wu : WriteUnit) (pos : Nat) : (mapHole wu).Covers pos ↔ wu.Covers pos := by
  unfold mapHole
  split <;> rfl

theorem mapHole_wellFormed (h : WellFormed wu) : WellFormed (mapHole wu) := by
  unfold mapHole
  split
  · exact ⟨h.len, h.stop⟩
  · exact h

theorem exists_map_covers :
    (∃ wu ∈ units.map mapHole, wu.Covers pos) ↔ ∃ wu ∈ units, wu.Covers pos := by
  simp [mapHole_covers]

theorem replayedByte_uncovered (h : ¬ ∃ wu ∈ units, wu.Covers pos) :
    replayedByte units pos = 0 := by
  rw [← exists_map_covers] at h
  rw [replayedByte, foldl_override_none _ fun x hx hc => h ⟨x, hx, hc⟩]
  rfl

theorem writtenMap_eq_some (size : Nat) (units : List WriteUnit) :
    writtenMap size (units.map mapHole) pos = some v ↔
      (pos < size % 2 ^ 32 ∨ ∃ wu ∈ units, wu.Covers pos) ∧ v = replayedByte units pos := by
  by_cases hc : ∃ wu ∈ units, wu.Covers pos
  · obtain ⟨heq, hsome⟩ := foldl_override_covered (initMap size) (fun _ => none)
      (exists_map_covers.mpr hc)
    rw [heq] at hsome
    obtain ⟨b, hb⟩ := Option.isSome_iff_exists.mp hsome
    simp [writtenMap, replayedByte, heq, hb, hc, eq_comm]
  · have hnone : ∀ x ∈ units.map mapHole, ¬ x.Covers pos :=
      fun x hx hx' => hc (exists_map_covers.mp ⟨x, hx, hx'⟩)
    rw [writtenMap, foldl_override_none _ hnone, replayedByte_uncovered hc, or_iff_left hc]
    simp [initMap, override, initChunk, Covers, stop, eq_comm]

/-- `verify_holes` accepts exactly when every position it looks at is inside the
file and holds what the log leaves there. -/
theorem verifyHoles_accepts (hunits : ∀ wu ∈ units, UnitOk wu)
    (hclear : ClearRun (initMap f.size) (units.map mapHole)) :
    verifyHoles rb f (printLog units) = .code 0 ↔
      ∀ pos, Checked f units pos → pos < f.size ∧ f.byte pos = replayedByte units pos := by
  have hwf : ∀ c ∈ units.map mapHole, WellFormed c := by
    intro c hc
    obtain ⟨wu, hwu, rfl⟩ := List.mem_map.mp hc
    exact mapHole_wellFormed (hunits wu hwu).wellFormed
  obtain ⟨t₀, hinit, hok₀, hlook₀⟩ := initTree_spec rb f.size
  obtain ⟨t, hrun, hok, hlook⟩ := insertChunks_spec rb hwf hok₀ (hlook₀ ▸ hclear)
  have hread := readLog_print (e := false) hunits hrun
  have hmap : lookup t.inorder = writtenMap f.size (units.map mapHole) := by
    rw [hlook, hlook₀, writtenMap]
  have hcheck := checkFile_eq_zero (f := f) hok.wellFormed
  have hiff : checkFile f t.inorder = 0 ↔
      ∀ pos, Checked f units pos → pos < f.size ∧ f.byte pos = replayedByte units pos := by
    rw [hcheck]
    constructor
    · intro hall pos hpos
      have hv := (writtenMap_eq_some f.size units).mpr ⟨hpos, rfl⟩
      rw [← hmap, hok.separated.lookup_eq_some] at hv
      obtain ⟨x, hx, hc, hval⟩ := hv
      exact hval ▸ hall x hx pos hc
    · intro hall x hx pos hc
      have hv := hok.separated.lookup_eq_some.mpr ⟨x, hx, hc, rfl⟩
      rw [hmap, writtenMap_eq_some] at hv
      exact hv.2 ▸ hall pos hv.1
  rw [← hiff]
  simp only [verifyHoles, hinit, hread]
  by_cases hz : checkFile f t.inorder = 0 <;> simp [hz]

theorem Matches.lt_size (h : Matches f units) (hc : Checked f units pos) : pos < f.size := by
  rcases hc with hlow | ⟨wu, hwu, hcov⟩
  · exact Nat.lt_of_lt_of_le hlow (Nat.mod_le _ _)
  · unfold Covers at hcov
    have := h.inside wu hwu (by unfold stop at hcov; omega)
    omega

theorem verifyHoles_of_matches (hunits : ∀ wu ∈ units, UnitOk wu)
    (hclear : ClearRun (initMap f.size) (units.map mapHole)) (h : Matches f units) :
    verifyHoles rb f (printLog units) = .code 0 :=
  (verifyHoles_accepts rb hunits hclear).mpr fun pos hc => ⟨h.lt_size hc, h.bytes pos (h.lt_size hc)⟩

end

/-- Every byte is zero that lies at `size mod 2^32` or behind and in no record. -/
def RestZero (f : ByteFile) (units : List WriteUnit) : Prop :=
  ∀ pos < f.size, ¬ Checked f units pos → f.byte pos = 0

def Differs (f : ByteFile) (units : List WriteUnit) : Prop :=
  ∃ pos, Checked f units pos ∧ (f.size ≤ pos ∨ f.byte pos ≠ replayedByte units pos)

/-- With no empty record where bytes are written, the verdict is right unless
all that differs lies where nothing is compared. -/
theorem verifyHoles_right_iff (rb : Rebalance WriteUnit) (f : ByteFile) (units : List WriteUnit)
    (hunits : ∀ wu ∈ units, UnitOk wu)
    (hclear : ClearRun (initMap f.size) (units.map mapHole)) :
    (verifyHoles rb f (printLog units) = .code 0 ↔ Matches f units) ↔
      RestZero f units ∨ Differs f units := by
  have haccept := verifyHoles_accepts rb hunits hclear
  have hrest (pos : Nat) (h : ¬ Checked f units pos) : replayedByte units pos = 0 :=
    replayedByte_uncovered fun hc => h (.inr hc)
  have hdiff : Differs f units ↔ ¬ verifyHoles rb f (printLog units) = .code 0 := by
    rw [haccept]
    unfold Differs
    grind
  constructor
  · intro h
    by_cases hzero : verifyHoles rb f (printLog units) = .code 0
    · refine .inl fun pos hpos hn => ?_
      rw [(h.mp hzero).bytes pos hpos, hrest pos hn]
    · exact .inr (hdiff.mpr hzero)
  · rintro (hzero | hd)
    · refine ⟨fun hcode => ⟨fun wu hwu hlen => ?_, fun pos hpos => ?_⟩,
        verifyHoles_of_matches rb hunits hclear⟩
      · -- the last byte of a record is compared, so it is in the file
        have := (haccept.mp hcode (wu.stop - 1)
          (.inr ⟨wu, hwu, by unfold Covers stop; omega⟩)).1
        unfold stop at *
        omega
      · by_cases hc : Checked f units pos
        · exact (haccept.mp hcode pos hc).2
        · rw [hzero pos hpos hc, hrest pos hc]
    · exact iff_of_false (hdiff.mp hd) fun hm => hdiff.mp hd (verifyHoles_of_matches rb hunits hclear hm)

def smallFile : ByteFile where
  size := 10
  byte i := if i = 2 ∨ i = 3 ∨ i = 4 then 65 else 0
  zero_beyond i h := if_neg (by omega)

theorem verifyHoles_right_small :
    (verifyHoles kernelRb smallFile (printLog [⟨65, 2, 3⟩]) = .code 0 ↔
      Matches smallFile [⟨65, 2, 3⟩]) := by
  refine (verifyHoles_right_iff kernelRb smallFile [⟨65, 2, 3⟩] ?_ ⟨.inl (by decide), trivial⟩).mpr
    (.inl fun pos hpos hn => absurd (.inl ?_) hn)
  · simp only [List.mem_singleton, forall_eq]
    exact ⟨by decide, by decide, by decide⟩
  · exact hpos

/-- 4 GiB of zeros but for one byte. -/
def wrappedFile : ByteFile where
  size := 2 ^ 32
  byte i := if i = 5 then 7 else 0
  zero_beyond i h := if_neg (by omega)

/-- The first chunk of a file of 2^32 bytes is empty: with an empty log nothing
is compared, and the byte that differs from zero goes unseen. -/
theorem verifyHoles_wrapped :
    ¬ (verifyHoles kernelRb wrappedFile (printLog []) = .code 0 ↔ Matches wrappedFile []) := by
  intro h
  have hcode : verifyHoles kernelRb wrappedFile (printLog []) = .code 0 := by
    refine (verifyHoles_accepts kernelRb (f := wrappedFile) (List.forall_mem_nil _) trivial).mpr ?_
    rintro pos (hlow | ⟨wu, hwu, -⟩)
    · simp [wrappedFile] at hlow
    · cases hwu
  have := (h.mp hcode).bytes 5 (by decide)
  simp [wrappedFile, replayedByte] at this

end Ocfs2Test.Holes
