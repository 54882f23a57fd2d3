import Ocfs2Test.Chunks.Journal

/-!
# Logs kept by a listener

With a remote log `log_write` sends each record with the NUL of the C string
behind it, and the listener stores what it gets. The loop of `verify_file` does
not take a NUL for white space: it goes to the front of the next number, and the
one behind the last record is a word of its own.
-/

namespace Ocfs2Test.Chunks

open Lib Lib.Stdio

def LOG_REC_SIZE : Nat := 1024

/-- What `log_write` appends to the log: with `remote` the bytes up to
`strlen(log_rec) + 1`. -/
def writeRecord (remote : Bool) (wu : WriteUnit) : List Char :=
  if remote then
    let logRec := (printRecord wu).take (LOG_REC_SIZE - 1)
    logRec.takeWhile (· != '\x00') ++ ['\x00']
  else printRecord wu

namespace Libocfs2test

def logWrite (wu : WriteUnit) (remote : Bool) : List Char := writeRecord remote wu

end Libocfs2test

namespace DirectioUtils

def DSCV_TEST : UInt32 := 8

def logWrite (testFlags : UInt32) (wu : WriteUnit) : List Char :=
  writeRecord (testFlags &&& DSCV_TEST != 0) wu

end DirectioUtils

inductive LogEnd
  | eof
  | short
  | overflow
  deriving DecidableEq

/-- The records that loop reads, whatever it makes of them, and its end. -/
def scanLog (s : Stream) : List WriteUnit × LogEnd :=
  if s.eof then ([], .eof)
  else
    match _h : scanRecord s with
    | .short => ([], .short)
    | .overflow => ([], .overflow)
    | .unit wu rest => (wu :: (scanLog rest).1, (scanLog rest).2)
termination_by s.text.length
decreasing_by all_goals exact scanRecord_length _h

theorem scanLog_unit (h : scanRecord ⟨text, false⟩ = .unit wu rest) :
    scanLog ⟨text, false⟩ = (wu :: (scanLog rest).1, (scanLog rest).2) := by
  rw [scanLog, if_neg (by simp)]
  split
  · next h' => rw [h] at h'; cases h'
  · next h' => rw [h] at h'; cases h'
  · next h' =>
    rw [h] at h'
    cases h'
    rfl

theorem scanLog_short (h : scanRecord ⟨text, false⟩ = .short) :
    scanLog ⟨text, false⟩ = ([], .short) := by
  rw [scanLog, if_neg (by simp)]
  split
  · rfl
  · next h' => rw [h] at h'; cases h'
  · next h' => rw [h] at h'; cases h'

/-- The loop of `verify_file` gets as far as this. -/
theorem logUnits_eq_some : logUnits s = some wus ↔ scanLog s = (wus, .eof) := by
  fun_induction scanLog s generalizing wus with
  | case1 s heof => simp [logUnits_eof heof, eq_comm]
  | case2 s heof hscan => simp [logUnits_none (by simpa using heof) (by simp [hscan])]
  | case3 s heof hscan => simp [logUnits_none (by simpa using heof) (by simp [hscan])]
  | case4 s heof wu rest hscan ih =>
    rw [logUnits_unit (by simpa using heof) hscan]
    simp only [Option.map_eq_some_iff, ih, Prod.ext_iff]
    constructor
    · rintro ⟨us, ⟨hus, hend⟩, rfl⟩
      exact ⟨by rw [hus], hend⟩
    · rintro ⟨rfl, hend⟩
      exact ⟨_, ⟨rfl, hend⟩, rfl⟩

-- ---------------------------------------------------------------------------
-- Local logs
-- ---------------------------------------------------------------------------

def reread (wu : WriteUnit) : WriteUnit :=
  ofWords (printNat wu.chunkNo.toNat) (printNat wu.timestamp.toNat)
    (printInt ((wu.checksum.toNat : Int).bmod (2 ^ 32))) [Char.ofUInt8 wu.char]

/-- A character `rand_char` can return, as in every unit the programs make. -/
def Lettered (wu : WriteUnit) : Prop := ∃ r, wu.char = randChar r

section
variable {wu : WriteUnit} {wus : List WriteUnit}

theorem Lettered.words (h : Lettered wu) :
    ∀ p ∈ recordWords wu, Word ARG_SIZE p.1 ∧ isSpace p.2 = true := by
  obtain ⟨r, hr⟩ := h
  exact recordWords_ok (hr ▸ randChar_not_space r)

theorem Lettered.char_ne (h : Lettered wu) : Char.ofUInt8 wu.char ≠ '\x00' := by
  obtain ⟨r, hr⟩ := h
  have hall : ∀ n < 26, Char.ofUInt8 (65 + UInt8.ofNat n) ≠ '\x00' := by decide
  rw [hr]
  exact hall _ (getRandUl_lt (n := 26) r (by decide))

theorem scanLog_local (h : ∀ wu ∈ wus, Lettered wu) (hne : wus ≠ []) :
    scanLog ⟨printLog wus, false⟩ = (wus.map reread, .eof) := by
  induction wus with
  | nil => exact absurd rfl hne
  | cons wu wus ih =>
    rw [List.forall_mem_cons] at h
    have hwords : ∀ l ∈ recordWords wu :: wus.map recordWords,
        ∀ p ∈ l, Word ARG_SIZE p.1 ∧ isSpace p.2 = true := by
      rw [List.forall_mem_cons]
      refine ⟨h.1.words, fun l hl => ?_⟩
      obtain ⟨u, hu, rfl⟩ := List.mem_map.mp hl
      exact (h.2 u hu).words
    have hscan : scanRecord ⟨printLog (wu :: wus), false⟩ =
        .unit (reread wu) ⟨printLog wus, wus.isEmpty⟩ := by
      rw [printLog_lines, printLog_lines, List.map_cons, scanRecord,
        show 4 = (recordWords wu).length from rfl,
        scanWords_line (recordWords wu) (wus.map recordWords) (List.cons_ne_nil _ _)
          (by simp [recordWords]) hwords]
      simp [recordWords, reread]
    rw [scanLog_unit hscan]
    cases wus with
    | nil =>
      have heof : scanLog ⟨printLog [], true⟩ = ([], .eof) := by rw [scanLog, if_pos rfl]
      rw [List.isEmpty_nil, heof]
      rfl
    | cons u us =>
      rw [List.isEmpty_cons, ih h.2 (List.cons_ne_nil _ _)]
      rfl

-- ---------------------------------------------------------------------------
-- Remote logs
-- ---------------------------------------------------------------------------

theorem noNul_printNat (hc : c ∈ printNat n) : c ≠ '\x00' := by
  rintro rfl
  exact absurd (isDigit_of_mem_printNat hc) (by decide)

theorem noNul_printInt {x : Int} (hc : c ∈ printInt x) : c ≠ '\x00' := by
  cases x with
  | ofNat n => exact noNul_printNat hc
  | negSucc n =>
    rcases List.mem_cons.mp hc with rfl | hc
    · decide
    · exact noNul_printNat hc

theorem noNul_printRecord (h : Lettered wu) : ∀ c ∈ printRecord wu, c ≠ '\x00' := by
  intro c hc
  simp only [printRecord, recordWords, spaced, List.flatMap_cons, List.flatMap_nil, List.append_nil,
    List.mem_append, List.mem_singleton] at hc
  rcases hc with (hc | rfl) | (hc | rfl) | (hc | rfl) | (rfl | rfl)
  · exact noNul_printNat hc
  · decide
  · exact noNul_printNat hc
  · decide
  · exact noNul_printInt hc
  · decide
  · exact h.char_ne
  · decide

theorem writeRecord_remote (h : Lettered wu) :
    writeRecord true wu = printRecord wu ++ ['\x00'] := by
  have hlen : (printRecord wu).length ≤ LOG_REC_SIZE - 1 :=
    (length_spaced_le fun p hp => (h.words p hp).1).trans
      (show 4 * ARG_SIZE ≤ LOG_REC_SIZE - 1 by decide)
  simp only [writeRecord, if_true, List.take_of_length_le hlen]
  rw [List.takeWhile_eq_self_iff.mpr fun c hc => by simpa using noNul_printRecord h c hc]

/-- A record behind a NUL: the NUL is part of the first word, which `atol` then
takes for 0. -/
def nulWords (wu : WriteUnit) : List (List Char × Char) :=
  ('\x00' :: printNat wu.chunkNo.toNat, '\t') :: (recordWords wu).tail

theorem nulWords_ok (h : Lettered wu) : ∀ p ∈ nulWords wu, Word ARG_SIZE p.1 ∧ isSpace p.2 = true := by
  have hno := wu.chunkNo.toNat_lt
  have hword : Word (ARG_SIZE - 1) (printNat wu.chunkNo.toNat) :=
    word_printNat (k := 20) (by omega) (by decide) (by decide)
  rw [nulWords, List.forall_mem_cons]
  refine ⟨⟨⟨List.cons_ne_nil _ _, ?_, ?_⟩, rfl⟩,
    fun p hp => h.words p (List.mem_of_mem_tail hp)⟩
  · rw [List.forall_mem_cons]
    exact ⟨by decide, hword.noSpace⟩
  · exact Nat.succ_lt_of_lt_pred hword.fits

theorem spaced_nulWords (wu : WriteUnit) : spaced (nulWords wu) = '\x00' :: printRecord wu := by
  simp [spaced, nulWords, printRecord, recordWords]

theorem scanRecord_nul {a b c d : List Char × Char} (cs : List Char)
    (h : ∀ p ∈ [a, b, c, d], Word ARG_SIZE p.1 ∧ isSpace p.2 = true) :
    scanRecord ⟨spaced [a, b, c, d] ++ '\x00' :: cs, false⟩ =
      .unit (ofWords a.1 b.1 c.1 d.1) ⟨'\x00' :: cs, false⟩ := by
  have hscan := scanWords_spaced (e := false) ('\x00' :: cs) h
  rw [Stream.skip_spaced (fun p hp => (h p hp).1) (List.cons_ne_nil _ _),
    Stream.skip_stop (by decide)] at hscan
  rw [scanRecord, show 4 = [a, b, c, d].length from rfl, hscan]
  rfl

theorem ofWords_nul (arg1 arg2 arg3 arg4 : List Char) :
    ofWords ('\x00' :: arg1) arg2 arg3 arg4 = { ofWords arg1 arg2 arg3 arg4 with chunkNo := 0 } := by
  have hzero : atol ('\x00' :: arg1) = 0 := by
    simp [atol, strtol, readNumber, skipSpace, isSpace, splitSign]
  simp only [ofWords, hzero]
  rfl

def remoteLog (wus : List WriteUnit) : List Char := wus.flatMap (writeRecord true)

theorem remoteLog_cons (h : Lettered wu) :
    remoteLog (wu :: wus) = printRecord wu ++ '\x00' :: remoteLog wus := by
  simp [remoteLog, writeRecord_remote h]

/-- Behind a record the loop reads the others with chunk number 0, and then a
single word. -/
theorem scanLog_nul (h : ∀ wu ∈ wus, Lettered wu) :
    scanLog ⟨'\x00' :: remoteLog wus, false⟩ =
      (wus.map fun wu => { reread wu with chunkNo := 0 }, .short) := by
  induction wus with
  | nil =>
    refine scanLog_short ?_
    rfl
  | cons wu wus ih =>
    rw [List.forall_mem_cons] at h
    have hspaced := spaced_nulWords wu
    have hscan := scanRecord_nul (remoteLog wus) (nulWords_ok h.1)
    simp only [nulWords, recordWords, List.tail_cons] at hspaced hscan
    rw [ofWords_nul, hspaced, List.cons_append] at hscan
    rw [remoteLog_cons h.1, scanLog_unit hscan, ih h.2]
    rfl

theorem scanLog_remote (h : ∀ u ∈ wu :: wus, Lettered u) :
    scanLog ⟨remoteLog (wu :: wus), false⟩ =
      (reread wu :: wus.map fun u => { reread u with chunkNo := 0 }, .short) := by
  rw [List.forall_mem_cons] at h
  have hscan := scanRecord_nul (remoteLog wus) h.1.words
  rw [remoteLog_cons h.1, printRecord, recordWords, scanLog_unit hscan, scanLog_nul h.2, reread]

theorem scanLog_agrees_iff (h : ∀ wu ∈ wus, Lettered wu) :
    scanLog ⟨remoteLog wus, false⟩ = scanLog ⟨printLog wus, false⟩ ↔ wus = [] := by
  cases wus with
  | nil => exact iff_of_true rfl rfl
  | cons wu wus =>
    rw [scanLog_remote h, scanLog_local h (List.cons_ne_nil _ _)]
    exact iff_of_false (fun heq => by simpa using congrArg Prod.snd heq) (List.cons_ne_nil _ _)

end

/-- The two logs of one sequence, in either program, are read alike only if
nothing was written. -/
theorem remote_agrees_iff (wus : List WriteUnit) (h : ∀ wu ∈ wus, Lettered wu) :
    (scanLog ⟨wus.flatMap fun wu => Libocfs2test.logWrite wu true, false⟩ =
        scanLog ⟨wus.flatMap fun wu => Libocfs2test.logWrite wu false, false⟩ ↔ wus = []) ∧
    ∀ testFlags : UInt32, testFlags &&& DirectioUtils.DSCV_TEST ≠ 0 →
      (scanLog ⟨wus.flatMap (DirectioUtils.logWrite testFlags), false⟩ =
        scanLog ⟨wus.flatMap (DirectioUtils.logWrite 0), false⟩ ↔ wus = []) := by
  refine ⟨scanLog_agrees_iff h, fun testFlags hflags => ?_⟩
  have hremote : DirectioUtils.logWrite testFlags = writeRecord true := by
    funext wu
    rw [DirectioUtils.logWrite, bne_iff_ne.mpr hflags]
  rw [hremote]
  exact scanLog_agrees_iff h

def oneRecord : List WriteUnit := [⟨1, 1, 0, 65⟩]

theorem oneRecord_lettered : ∀ wu ∈ oneRecord, Lettered wu := by
  intro wu hwu
  rw [List.mem_singleton.mp hwu]
  exact ⟨0, by decide⟩

theorem remote_agrees_one :
    scanLog ⟨[].flatMap fun wu => Libocfs2test.logWrite wu true, false⟩ =
      scanLog ⟨[].flatMap fun wu => Libocfs2test.logWrite wu false, false⟩ ∧
    scanLog ⟨oneRecord.flatMap (DirectioUtils.logWrite 8), false⟩ ≠
      scanLog ⟨oneRecord.flatMap (DirectioUtils.logWrite 0), false⟩ :=
  ⟨(remote_agrees_iff [] (by simp)).1.mpr rfl,
    fun h => List.cons_ne_nil _ _ (((remote_agrees_iff oneRecord oneRecord_lettered).2 8 (by decide)).mp h)⟩

theorem oneRecord_differs :
    (∀ wu ∈ oneRecord, Lettered wu) ∧
    ¬ scanLog ⟨oneRecord.flatMap fun wu => Libocfs2test.logWrite wu true, false⟩ =
      scanLog ⟨oneRecord.flatMap fun wu => Libocfs2test.logWrite wu false, false⟩ :=
  ⟨oneRecord_lettered, fun h => List.cons_ne_nil _ _ ((scanLog_agrees_iff oneRecord_lettered).mp h)⟩

end Ocfs2Test.Chunks
