import Ocfs2Test.Holes.Agreement

/-!
# The exit status of fill_holes and punch_holes

The programs once more, with the results of the calls that write and punch.
`fh_do_write` hands on what `pwrite` and the asynchronous path return, but looks
neither at a count nor at the event of a request; `ph_do_write` returns 0
whatever happens. What a record does when all its calls complete is in
`Ocfs2Test.Holes.Writers`.
-/

namespace Ocfs2Test.Holes.Status

open Lib Lib.Segment Lib.Stdio

/-- What the calls of one write return: `pwrite`, or with `-a` those of the
asynchronous path. `none` is an error, a number the count of bytes; `event` is
what the completed request reports. -/
structure WriteCalls where
  pwrite : Option Nat
  memalign : Int
  ioSetup : Int
  ioSubmit : Int
  event : Option Nat
  ioGetevents : Int
  pread : Option Nat
  ioDestroy : Int

def transfer (f : ByteFile) (wu : WriteUnit) : Option Nat → ByteFile
  | none => f
  | some n => f.pwrite (List.replicate (min n wu.len) wu.val) wu.off

def o2testAioSetup (ret : Int) : Int := if ret ≠ 0 then -1 else ret

def o2testAioPwrite (ret : Int) : Int := if ret ≠ 1 then -1 else ret

def o2testAioQuery (minNr ret : Int) : Int := if ret < minNr then -1 else ret

def o2testAioDestroy (ret : Int) : Int := if ret ≠ 0 then -1 else ret

/-- The asynchronous path, from `o2test_aio_setup` on. A difference between what
is written and what `pread` gives back is printed and no more. -/
def aioWrite (f : ByteFile) (wu : WriteUnit) (r : WriteCalls) : Int × ByteFile :=
  if o2testAioSetup r.ioSetup < 0 then (o2testAioSetup r.ioSetup, f)
  else if o2testAioPwrite r.ioSubmit < 0 then (o2testAioPwrite r.ioSubmit, f)
  else
    let f := transfer f wu r.event
    if o2testAioQuery 1 r.ioGetevents < 0 then (o2testAioQuery 1 r.ioGetevents, f)
    else
      match r.pread with
      | none => (-1, f)
      | some _ => (o2testAioDestroy r.ioDestroy, f)

structure Run where
  file : ByteFile
  written : List WriteUnit := []
  punched : List WriteUnit := []
  exit : Option Stop := none

-- ---------------------------------------------------------------------------
-- fill_holes
-- ---------------------------------------------------------------------------

/-- A record that `memset` can not be called with. -/
def Faults (useMmap : Bool) (size : Nat) (wu : WriteUnit) : Prop :=
  if useMmap then size < wu.stop else MAX_WRITE_SIZE < wu.len

instance : Decidable (Faults useMmap size wu) := by
  unfold Faults
  infer_instance

def fhDoWrite (o : FillOpts) (aio : Bool) (f : ByteFile) (wu : WriteUnit) (r : WriteCalls) :
    Except Stop (Int × ByteFile) :=
  if Faults o.useMmap f.size wu then .error .crash
  else if o.useMmap then .ok (0, f.pwrite (List.replicate wu.len wu.val) wu.off)
  else if aio then
    if r.memalign ≠ 0 then .ok (r.memalign, f) else .ok (aioWrite f wu r)
  else
    match r.pwrite with
    | none => .ok (-1, f)
    | some n => .ok (0, transfer f wu (some n))

/-- The loop of `main` with `n` iterations to go. -/
def fillLoop (o : FillOpts) (aio : Bool) (c : FillCtx) (calls : Nat → WriteCalls) :
    Nat → Source → FillState → ByteFile → List WriteUnit → Run
  | 0, _, _, f, log => { file := f, written := log }
  | n + 1, src, st, f, log =>
    if src.eof then { file := f, written := log }
    else
      match fhPrepWriteUnit c st src with
      | .error e => { file := f, written := log, exit := some e }
      | .ok (wu, st, src) =>
        match fhDoWrite o aio f wu (calls log.length) with
        | .error e => { file := f, written := log ++ [wu], exit := some e }
        | .ok (ret, f) =>
          if ret ≠ 0 then { file := f, written := log ++ [wu], exit := some .failed }
          else fillLoop o aio c calls n src st f (log ++ [wu])

def fillHoles (o : FillOpts) (aio : Bool) (size : UInt64) (src : Source) (calls : Nat → WriteCalls) :
    Run :=
  if o.useMmap ∧ o.fileSize size > TWO_GIGA_BYTE then { file := ByteFile.empty, exit := some .usage }
  else
    match prepEmpty (o.fileSize size) with
    | .error e => { file := ByteFile.empty, exit := some e }
    | .ok f => fillLoop o aio (fillCtx o (o.fileSize size)) calls o.maxIter.toNat src {} f []

-- ---------------------------------------------------------------------------
-- punch_holes
-- ---------------------------------------------------------------------------

/-- `ph_do_write`: after `bail` it returns 0. -/
def phDoWrite (aio : Bool) (f : ByteFile) (wu : WriteUnit) (r : WriteCalls) :
    Except Stop (Int × ByteFile) :=
  if MAX_WRITE_SIZE < wu.len then .error .crash
  else if aio then .ok (0, (aioWrite f wu r).2)
  else .ok (0, transfer f wu r.pwrite)

/-- What `ph_prep_file` returns besides the file and the log: that it gives up,
or if its descriptor is one, and where it has come to in the source. -/
abbrev Prepared := Except Stop (Bool × Source)

/-- The loop of `ph_prep_file`. -/
def phPrepLoop (aio : Bool) (calls : Nat → WriteCalls) (size start : Nat) (src : Source)
    (f : ByteFile) (log : List WriteUnit) : ByteFile × List WriteUnit × Prepared :=
  if start < size then
    match _h : phPrepWriteUnit size src with
    | .error e => (f, log, .error e)
    | .ok (none, src') => (f, log, .ok (false, src'))
    | .ok (some wu, src') =>
      let wu := prepUnit size start src wu
      if src.drawn ∧ wu.len = 0 then phPrepLoop aio calls size start src' f log
      else
        match phDoWrite aio f wu (calls log.length) with
        | .error e => (f, log ++ [wu], .error e)
        | .ok (ret, f) =>
          if ret = -1 then (f, log ++ [wu], .error .failed)
          else if ret ≠ 0 then (f, log ++ [wu], .ok (false, src'))
          else
            phPrepLoop aio calls size ((start + (wu.off + wu.len)) % 2 ^ 64) src' f (log ++ [wu])
  else (f, log, .ok (true, src))
termination_by src.left
decreasing_by
  · exact phPrepWriteUnit_left _h
  · exact phPrepWriteUnit_left _h

/-- `ph_punch_hole`, given what `ioctl` returns. -/
def phPunchHole (f : ByteFile) (wu : WriteUnit) (ret : Int) : Int × ByteFile :=
  if ret = -1 then (-1, f) else (0, punchHole f wu)

/-- The loop of `main` with `n` iterations to go. On a bad descriptor `ioctl`
fails. -/
def punchLoop (size : Nat) (fdOk : Bool) (ioctls : Nat → Int) (written : List WriteUnit) :
    Nat → Source → ByteFile → List WriteUnit → Run
  | 0, _, f, log => { file := f, written := written, punched := log }
  | n + 1, src, f, log =>
    if src.eof then { file := f, written := written, punched := log }
    else
      match phPrepWriteUnit size src with
      | .error e => { file := f, written := written, punched := log, exit := some e }
      | .ok (none, _) => { file := f, written := written, punched := log, exit := some .failed }
      | .ok (some wu, src) =>
        let wu := { wu with val := MAGIC_HOLE_CHAR }
        let (ret, f) := phPunchHole f wu (if fdOk then ioctls log.length else -1)
        if ret ≠ 0 then { file := f, written := written, punched := log ++ [wu], exit := some .failed }
        else punchLoop size fdOk ioctls written n src f (log ++ [wu])

def punchHoles (maxIter : UInt32) (aio : Bool) (size : UInt64) (src : Source)
    (calls : Nat → WriteCalls) (ioctls : Nat → Int) : Run :=
  match prepEmpty size.toNat with
  | .error e => { file := ByteFile.empty, exit := some e }
  | .ok f =>
    match phPrepLoop aio calls size.toNat 0 src f [] with
    | (f, log, .error e) => { file := f, written := log, exit := some e }
    | (f, log, .ok (fdOk, src)) => punchLoop size.toNat fdOk ioctls log maxIter.toNat src f []

-- ---------------------------------------------------------------------------
-- What the status should say
-- ---------------------------------------------------------------------------

def writeUnit (f : ByteFile) (wu : WriteUnit) : ByteFile :=
  f.pwrite (List.replicate wu.len wu.val) wu.off

/-- The log replayed over zeros: its first records written, the others punched. -/
def Run.replay (size : Nat) (r : Run) : ByteFile :=
  r.punched.foldl punchHole (r.written.foldl writeUnit (ByteFile.empty.truncate size))

/-- No call of the write fails, and every byte is written. -/
def WriteCalls.Complete (aio : Bool) (r : WriteCalls) (wu : WriteUnit) : Prop :=
  if aio then
    r.ioSetup = 0 ∧ r.ioSubmit = 1 ∧ (∃ n, r.event = some n ∧ wu.len ≤ n) ∧ 1 ≤ r.ioGetevents ∧
      r.ioDestroy = 0
  else ∃ n, r.pwrite = some n ∧ wu.len ≤ n

/-- With exit status 0 the file is what the log says; a write that is not `done`
or a hole that is not punched gives another status. Records come with their
number. -/
structure Truthful (size : Nat) (done : WriteUnit × Nat → Prop) (holed : WriteUnit × Nat → Prop)
    (r : Run) : Prop where
  replay : r.exit = none → r.file = r.replay size
  written : (∃ x ∈ r.written.zipIdx, ¬ done x) → r.exit ≠ none
  punched : (∃ x ∈ r.punched.zipIdx, ¬ holed x) → r.exit ≠ none

/-- A failure that `fh_do_write` hands on. -/
def WriteCalls.Reported (aio : Bool) (r : WriteCalls) : Prop :=
  if aio then
    r.memalign ≠ 0 ∨ r.ioSetup ≠ 0 ∨ r.ioSubmit ≠ 1 ∨ r.ioGetevents < 1 ∨ r.pread = none ∨
      r.ioDestroy ≠ 0
  else r.pwrite = none

/-- A record is written as a whole, by memory or by calls that all complete. -/
def FillDone (o : FillOpts) (aio : Bool) (calls : Nat → WriteCalls) (x : WriteUnit × Nat) : Prop :=
  o.useMmap = true ∨ (calls x.2).Complete aio x.1

/-- The write of a record makes `main` return 1. -/
def FillReported (o : FillOpts) (aio : Bool) (calls : Nat → WriteCalls) (x : WriteUnit × Nat) : Prop :=
  o.useMmap = false ∧ (calls x.2).Reported aio

/-- The records that `n` iterations of `fill_holes` take from the source, and
what ends them early. -/
def fillRecords (o : FillOpts) (c : FillCtx) (size : Nat) :
    Nat → Source → FillState → List WriteUnit × Option Stop
  | 0, _, _ => ([], none)
  | n + 1, src, st =>
    if src.eof then ([], none)
    else
      match fhPrepWriteUnit c st src with
      | .error e => ([], some e)
      | .ok (wu, st, src) =>
        if Faults o.useMmap size wu then ([wu], some .crash)
        else
          let (units, stop) := fillRecords o c size n src st
          (wu :: units, stop)

/-- The records of the prep phase of `punch_holes`, and how it ends. -/
def prepRecords (size start : Nat) (src : Source) : List WriteUnit × Prepared :=
  if start < size then
    match _h : phPrepWriteUnit size src with
    | .error e => ([], .error e)
    | .ok (none, src') => ([], .ok (false, src'))
    | .ok (some wu, src') =>
      let wu := prepUnit size start src wu
      if src.drawn ∧ wu.len = 0 then prepRecords size start src'
      else if MAX_WRITE_SIZE < wu.len then ([wu], .error .crash)
      else
        let (units, stop) := prepRecords size ((start + (wu.off + wu.len)) % 2 ^ 64) src'
        (wu :: units, stop)
  else ([], .ok (true, src))
termination_by src.left
decreasing_by
  · exact phPrepWriteUnit_left _h
  · exact phPrepWriteUnit_left _h

section
variable {o : FillOpts} {aio : Bool} {c : FillCtx} {calls : Nat → WriteCalls} {ioctls : Nat → Int}
  {f : ByteFile} {wu : WriteUnit} {r : WriteCalls} {size start n : Nat} {src : Source}
  {units : List WriteUnit} {ended : Option Stop}

theorem transfer_complete (h : wu.len ≤ n) : transfer f wu (some n) = writeUnit f wu := by
  rw [transfer, Nat.min_eq_right h, writeUnit]

theorem aioWrite_fst : (aioWrite f wu r).1 ≠ 0 ↔
    r.ioSetup ≠ 0 ∨ r.ioSubmit ≠ 1 ∨ r.ioGetevents < 1 ∨ r.pread = none ∨ r.ioDestroy ≠ 0 := by
  simp only [aioWrite, o2testAioSetup, o2testAioPwrite, o2testAioQuery, o2testAioDestroy]
  grind

theorem aioWrite_snd (h : r.Complete true wu) : (aioWrite f wu r).2 = writeUnit f wu := by
  obtain ⟨hsetup, hsubmit, ⟨n, hevent, hlen⟩, hget, -⟩ := h
  have hquery : ¬ o2testAioQuery 1 r.ioGetevents < 0 := by
    rw [o2testAioQuery, if_neg (by omega)]
    omega
  rw [aioWrite, hsetup, hsubmit, if_neg (by decide), if_neg (by decide)]
  simp only [hevent, transfer_complete hlen, if_neg hquery]
  cases r.pread <;> rfl

/-- A write of `fill_holes` that does not fault: its status, and the file when
it completes. -/
theorem fhDoWrite_spec (aio : Bool) (r : WriteCalls) (hfault : ¬ Faults o.useMmap f.size wu) :
    ∃ ret f', fhDoWrite o aio f wu r = .ok (ret, f') ∧
      (ret ≠ 0 ↔ o.useMmap = false ∧ r.Reported aio) ∧
      (o.useMmap = true ∨ r.Complete aio wu → ret = 0 → f' = writeUnit f wu) ∧
      (o.useMmap = true → f'.size = f.size) := by
  rw [fhDoWrite, if_neg hfault]
  cases hmmap : o.useMmap with
  | true =>
    have hin : wu.stop ≤ f.size := by simpa [Faults, hmmap] using hfault
    refine ⟨0, _, rfl, by simp, fun _ _ => rfl, fun _ => ?_⟩
    exact ByteFile.size_pwrite_of_le (by rw [List.length_replicate]; exact hin)
  | false =>
    simp only [Bool.false_eq_true, if_false, false_or, true_and, false_imp_iff, and_true]
    cases aio with
    | true =>
      simp only [if_true]
      by_cases hmem : r.memalign = 0
      · refine ⟨(aioWrite f wu r).1, (aioWrite f wu r).2, if_neg (not_not.mpr hmem), ?_,
          fun hc _ => aioWrite_snd hc⟩
        rw [aioWrite_fst, WriteCalls.Reported, if_pos rfl]
        exact ⟨.inr, fun h => h.resolve_left (not_not.mpr hmem)⟩
      · exact ⟨_, _, if_pos hmem, iff_of_true hmem (.inl hmem), fun _ h => absurd h hmem⟩
    | false =>
      simp only [Bool.false_eq_true, if_false]
      cases hw : r.pwrite with
      | none => exact ⟨-1, f, rfl, iff_of_true (by decide) hw, by simp⟩
      | some n =>
        refine ⟨0, _, rfl, by simp [WriteCalls.Reported, hw], ?_⟩
        rintro ⟨n', hn, hlen⟩ -
        cases hw.symm.trans hn
        exact transfer_complete hlen

theorem phDoWrite_spec (aio : Bool) (f : ByteFile) (r : WriteCalls) (hlen : ¬ MAX_WRITE_SIZE < wu.len) :
    ∃ f', phDoWrite aio f wu r = .ok (0, f') ∧ (r.Complete aio wu → f' = writeUnit f wu) := by
  rw [phDoWrite, if_neg hlen]
  cases aio with
  | true => exact ⟨_, rfl, aioWrite_snd⟩
  | false =>
    refine ⟨_, rfl, ?_⟩
    rintro ⟨n, hn, hle⟩
    rw [hn, transfer_complete hle]

-- ---------------------------------------------------------------------------
-- The loops
-- ---------------------------------------------------------------------------

/-- What a loop of `fill_holes` comes to that takes the records `units` from its
source: either one of its writes is reported and the status is not 0, or it works
through all of them. -/
structure FillSpec (o : FillOpts) (aio : Bool) (calls : Nat → WriteCalls) (f : ByteFile)
    (log units : List WriteUnit) (ended : Option Stop) (run : Run) : Prop where
  reported : (∃ x ∈ units.zipIdx log.length, FillReported o aio calls x) → run.exit ≠ none
  silent : (∀ x ∈ units.zipIdx log.length, ¬ FillReported o aio calls x) →
    run.exit = ended ∧ run.written = log ++ units
  punched : run.punched = []
  file : run.exit = none → (∀ x ∈ units.zipIdx log.length, FillDone o aio calls x) →
    run.file = units.foldl writeUnit f

theorem exists_of_zipIdx_cons {P : WriteUnit × Nat → Prop} {k : Nat} (hnot : ¬ P (wu, k))
    (h : ∃ x ∈ (wu :: units).zipIdx k, P x) : ∃ x ∈ units.zipIdx (k + 1), P x := by
  obtain ⟨x, hx, hP⟩ := h
  rw [List.zipIdx_cons, List.mem_cons] at hx
  obtain rfl | hx := hx
  · exact absurd hP hnot
  · exact ⟨x, hx, hP⟩

theorem FillSpec.nil {log : List WriteUnit} {e : Option Stop} :
    FillSpec o aio calls f log [] e { file := f, written := log, exit := e } :=
  ⟨by simp, by simp, rfl, fun _ _ => rfl⟩

theorem FillSpec.cons {f' : ByteFile} {log : List WriteUnit} {run : Run}
    (hret : ¬ FillReported o aio calls (wu, log.length))
    (hfile : FillDone o aio calls (wu, log.length) → f' = writeUnit f wu)
    (h : FillSpec o aio calls f' (log ++ [wu]) units ended run) :
    FillSpec o aio calls f log (wu :: units) ended run := by
  obtain ⟨hrep, hsilent, hpunched, hfile'⟩ := h
  rw [List.length_append, List.length_singleton] at hrep hsilent hfile'
  refine ⟨?_, ?_, hpunched, ?_⟩
  · rintro hreported
    exact hrep (exists_of_zipIdx_cons hret hreported)
  · rw [List.zipIdx_cons, List.forall_mem_cons]
    rintro ⟨-, hs⟩
    obtain ⟨hexit, hlog⟩ := hsilent hs
    exact ⟨hexit, by rw [hlog, List.append_assoc, List.singleton_append]⟩
  · rw [List.zipIdx_cons, List.forall_mem_cons]
    rintro hexit ⟨hd, hdone⟩
    rw [List.foldl_cons, ← hfile hd]
    exact hfile' hexit hdone

theorem phPrepLoop_some {wu' : WriteUnit} {src' : Source} (log : List WriteUnit) (hlt : start < size)
    (hprep : phPrepWriteUnit size src = .ok (some wu, src'))
    (hwu : prepUnit size start src wu = wu') (hzero : ¬ (src.drawn = true ∧ wu'.len = 0)) :
    phPrepLoop aio calls size start src f log =
      match phDoWrite aio f wu' (calls log.length) with
      | .error e => (f, log ++ [wu'], .error e)
      | .ok (ret, f) =>
        if ret = -1 then (f, log ++ [wu'], .error .failed)
        else if ret ≠ 0 then (f, log ++ [wu'], .ok (false, src'))
        else
          phPrepLoop aio calls size ((start + (wu'.off + wu'.len)) % 2 ^ 64) src' f (log ++ [wu']) := by
  rw [phPrepLoop, if_pos hlt]
  split
  · next h => cases hprep.symm.trans h
  · next h => cases hprep.symm.trans h
  · next h =>
    cases hprep.symm.trans h
    simp only [hwu, if_neg hzero]

theorem phPrepLoop_spec {prepared : Prepared} (aio : Bool) (calls : Nat → WriteCalls) (f : ByteFile)
    (log : List WriteUnit)
    (hrun : prepRecords size start src = (units, prepared)) :
    ∃ f', phPrepLoop aio calls size start src f log = (f', log ++ units, prepared) ∧
      ∀ p, prepared = .ok p →
        (∀ x ∈ units.zipIdx log.length, (calls x.2).Complete aio x.1) → f' = units.foldl writeUnit f := by
  fun_induction prepRecords size start src generalizing f log units with
  | case1 start src hlt e hprep =>
    cases hrun
    refine ⟨f, ?_, nofun⟩
    rw [phPrepLoop, if_pos hlt]
    split <;> simp_all
  | case2 start src hlt src' hprep =>
    cases hrun
    refine ⟨f, ?_, fun _ _ _ => rfl⟩
    rw [phPrepLoop, if_pos hlt]
    split <;> simp_all
  | case3 start src hlt wu src' hprep wu' hzero =>
    rename_i ih
    rw [phPrepLoop, if_pos hlt]
    split
    · next h => cases hprep.symm.trans h
    · next h => cases hprep.symm.trans h
    · next h =>
      cases hprep.symm.trans h
      rw [if_pos hzero]
      exact ih f log hrun
  | case4 start src hlt wu src' hprep wu' hzero =>
    rename_i hlen
    cases hrun
    rw [phPrepLoop_some log hlt hprep rfl hzero, phDoWrite, if_pos hlen]
    exact ⟨_, rfl, nofun⟩
  | case5 start src hlt wu src' hprep wu' hzero hlen us stopped hus =>
    rename_i ih
    cases hrun
    obtain ⟨f₁, hdo, hfile⟩ := phDoWrite_spec aio f (calls log.length) hlen
    obtain ⟨f', hloop, hfile'⟩ := ih f₁ (log ++ [wu']) hus
    rw [List.length_append, List.length_singleton] at hfile'
    refine ⟨f', ?_, ?_⟩
    · rw [phPrepLoop_some log hlt hprep rfl hzero, hdo]
      simpa using hloop
    · intro p hp
      rw [List.zipIdx_cons, List.forall_mem_cons]
      rintro ⟨hc, hcs⟩
      rw [hfile' p hp hcs, hfile hc, List.foldl_cons]
  | case6 start src hge =>
    cases hrun
    rw [phPrepLoop, if_neg hge]
    exact ⟨f, by rw [List.append_nil], fun _ _ _ => rfl⟩

/-- What the loop of `punch_holes` comes to that takes the records `units` from
its source. -/
structure PunchSpec (ioctls : Nat → Int) (f : ByteFile) (written log units : List WriteUnit)
    (ended : Option Stop) (run : Run) : Prop where
  reported : (∃ x ∈ units.zipIdx log.length, ioctls x.2 = -1) → run.exit ≠ none
  silent : (∀ x ∈ units.zipIdx log.length, ioctls x.2 ≠ -1) →
    run.exit = ended ∧ run.punched = log ++ units
  written : run.written = written
  file : run.exit = none → run.file = units.foldl punchHole f

theorem PunchSpec.nil {written log : List WriteUnit} {e : Option Stop} :
    PunchSpec ioctls f written log [] e { file := f, written := written, punched := log, exit := e } :=
  ⟨by simp, by simp, rfl, fun _ => rfl⟩

theorem PunchSpec.cons {written log : List WriteUnit} {run : Run} (hret : ioctls log.length ≠ -1)
    (h : PunchSpec ioctls (punchHole f wu) written (log ++ [wu]) units ended run) :
    PunchSpec ioctls f written log (wu :: units) ended run := by
  obtain ⟨hrep, hsilent, hwritten, hfile⟩ := h
  rw [List.length_append, List.length_singleton] at hrep hsilent
  refine ⟨?_, ?_, hwritten, hfile⟩
  · rintro hreported
    exact hrep (exists_of_zipIdx_cons hret hreported)
  · rw [List.zipIdx_cons, List.forall_mem_cons]
    rintro ⟨-, hs⟩
    obtain ⟨hexit, hlog⟩ := hsilent hs
    exact ⟨hexit, by rw [hlog, List.append_assoc, List.singleton_append]⟩

end

-- ---------------------------------------------------------------------------
-- When every call completes
-- ---------------------------------------------------------------------------

/-- What `Ocfs2Test.Holes.Writers` says of a run. -/
def Run.result (r : Run) : Except Stop (ByteFile × List Char) :=
  match r.exit with
  | none => .ok (r.file, printLog (r.written ++ r.punched))
  | some e => .error e

/-- Calls that complete for every record that fits the buffer, and nothing to
report. -/
structure AllComplete (aio : Bool) (calls : Nat → WriteCalls) : Prop where
  complete : ∀ i wu, wu.len ≤ MAX_WRITE_SIZE → (calls i).Complete aio wu
  silent : ∀ i, ¬ (calls i).Reported aio

section
variable {o : FillOpts} {aio : Bool} {c : FillCtx} {calls : Nat → WriteCalls} {f : ByteFile}
  {wu : WriteUnit} {r : WriteCalls} {size start n : Nat} {src : Source}

theorem holesFhDoWrite_eq : Holes.fhDoWrite o f wu =
    if Faults o.useMmap f.size wu then .error .crash else .ok (writeUnit f wu) := by
  unfold Holes.fhDoWrite doWrite Faults writeUnit
  cases o.useMmap
  · rfl
  · simp only [if_true, ← Nat.not_le, ite_not]

theorem AllComplete.fhDoWrite (h : AllComplete aio calls) (i : Nat) :
    fhDoWrite o aio f wu (calls i) =
      if Faults o.useMmap f.size wu then .error .crash else .ok (0, writeUnit f wu) := by
  split
  · next hfault => rw [Status.fhDoWrite, if_pos hfault]
  · next hfault =>
    obtain ⟨ret, f', hdo, hret, hfile, -⟩ := fhDoWrite_spec aio (calls i) hfault
    have hzero : ret = 0 := by
      by_contra hne
      exact h.silent i (hret.mp hne).2
    have hdone : o.useMmap = true ∨ (calls i).Complete aio wu := by
      cases hm : o.useMmap with
      | true => exact .inl rfl
      | false => exact .inr (h.complete i wu (by simpa [Faults, hm] using hfault))
    rw [hdo, hzero, hfile hdone hzero]

theorem AllComplete.fillLoop (h : AllComplete aio calls) (st : FillState) (log : List WriteUnit) :
    (fillLoop o aio c calls n src st f log).result = Holes.fillLoop o c n src st f (printLog log) := by
  induction n generalizing src st f log with
  | zero => simp [Status.fillLoop, Holes.fillLoop, Run.result]
  | succ n ih =>
    unfold Status.fillLoop Holes.fillLoop
    split
    · simp [Run.result]
    · cases fhPrepWriteUnit c st src with
      | error e => rfl
      | ok p =>
        obtain ⟨wu, st', src'⟩ := p
        simp only [h.fhDoWrite, bind, Except.bind, holesFhDoWrite_eq]
        by_cases hfault : Faults o.useMmap f.size wu
        · simp only [if_pos hfault]
          rfl
        · simp only [if_neg hfault, ne_eq, not_true_eq_false, if_false]
          rw [ih, printLog_append]
          simp [printLog]

/-- `fill_holes` as it is when nothing fails. -/
theorem AllComplete.fillHoles (h : AllComplete aio calls) (o : FillOpts) (size : UInt64) (src : Source) :
    (fillHoles o aio size src calls).result = Holes.fillHoles o size src := by
  have hdef : Holes.fillHoles o size src = (do
      if o.useMmap ∧ o.fileSize size > TWO_GIGA_BYTE then throw .usage
      let f ← prepEmpty (o.fileSize size)
      Holes.fillLoop o (fillCtx o (o.fileSize size)) o.maxIter.toNat src {} f []) := rfl
  rw [hdef, Status.fillHoles]
  split
  · rfl
  · cases prepEmpty (o.fileSize size) with
    | error e => rfl
    | ok f => exact h.fillLoop {} []

theorem holesPhPrepLoop_eq (size start : Nat) (src : Source) (f : ByteFile) (log : List WriteUnit) :
    Holes.phPrepLoop size start src f (printLog log) =
      match prepRecords size start src with
      | (_, .error e) => .error e
      | (units, .ok (fdOk, src)) =>
        .ok (fdOk, src, units.foldl writeUnit f, printLog (log ++ units)) := by
  fun_induction prepRecords size start src generalizing f log with
  | case1 start src hlt e hprep =>
    rw [Holes.phPrepLoop, if_pos hlt]
    split <;> simp_all
  | case2 start src hlt src' hprep =>
    rw [Holes.phPrepLoop, if_pos hlt]
    split <;> simp_all
  | case3 start src hlt wu src' hprep wu' hzero =>
    rename_i ih
    rw [Holes.phPrepLoop, if_pos hlt]
    split
    · next h => cases hprep.symm.trans h
    · next h => cases hprep.symm.trans h
    · next h =>
      cases hprep.symm.trans h
      rw [if_pos hzero]
      exact ih f log
  | case4 start src hlt wu src' hprep wu' hzero =>
    rename_i hlen
    have hdo : doWrite f wu' = .error .crash := if_pos hlen
    rw [Holes.phPrepLoop, if_pos hlt]
    split
    · next h => cases hprep.symm.trans h
    · next h => cases hprep.symm.trans h
    · next h =>
      cases hprep.symm.trans h
      rw [if_neg hzero, hdo]
  | case5 start src hlt wu src' hprep wu' hzero hlen us prepared hus =>
    rename_i ih
    have hdo : doWrite f wu' = .ok (writeUnit f wu') := if_neg hlen
    have hlog : printLog log ++ printUnit wu' = printLog (log ++ [wu']) := by
      rw [printLog_append, printLog_cons]
      exact (List.append_cancel_left_eq ..).mpr (List.append_nil _).symm
    rw [phPrepLoop_step _ hlt hprep (rfl : _ = wu') hzero hdo, hlog, ih, hus]
    cases prepared with
    | error e => rfl
    | ok p => simp
  | case6 start src hge =>
    rw [Holes.phPrepLoop, if_neg hge]
    simp

theorem holesPunchLoop_eq (ioctls : Nat → Int) (h : ∀ i, ioctls i ≠ -1) (fdOk : Bool)
    (written log : List WriteUnit) :
    (punchLoop size fdOk ioctls written n src f log).result =
      Holes.punchLoop size fdOk n src f (printLog (written ++ log)) := by
  induction n generalizing src f log with
  | zero => rfl
  | succ n ih =>
    unfold Status.punchLoop Holes.punchLoop
    split
    · rfl
    · cases phPrepWriteUnit size src with
      | error e => rfl
      | ok p =>
        obtain ⟨wu, src'⟩ := p
        cases wu with
        | none => rfl
        | some wu =>
          cases fdOk with
          | false => rfl
          | true =>
            simp only [if_true, phPunchHole, if_neg (h _), ne_eq, not_true_eq_false, if_false]
            rw [ih, ← List.append_assoc, printLog_append]
            simp [printLog]

theorem prepRecords_len {p : Bool × Source} (h : prepRecords size start src = (units, .ok p)) :
    ∀ wu ∈ units, wu.len ≤ MAX_WRITE_SIZE := by
  fun_induction prepRecords size start src generalizing units with
  | case1 | case4 => cases h
  | case2 | case6 =>
    cases h
    simp
  | case3 =>
    rename_i ih
    exact ih h
  | case5 start src hlt wu src' hprep wu' hzero hlen us prepared hus =>
    rename_i ih
    cases h
    rw [List.forall_mem_cons]
    exact ⟨Nat.not_lt.mp hlen, ih hus⟩

theorem AllComplete.punchHoles (h : AllComplete aio calls) (ioctls : Nat → Int) (hi : ∀ i, ioctls i ≠ -1)
    (maxIter : UInt32) (size : UInt64) (src : Source) :
    (punchHoles maxIter aio size src calls ioctls).result = Holes.punchHoles maxIter size src := by
  unfold Status.punchHoles Holes.punchHoles
  cases prepEmpty size.toNat with
  | error e => rfl
  | ok f =>
    have hholes := holesPhPrepLoop_eq size.toNat 0 src f []
    rw [show printLog [] = [] from rfl] at hholes
    cases hrecords : prepRecords size.toNat 0 src with
    | mk units prepared =>
      obtain ⟨f', hprep, hfile⟩ := phPrepLoop_spec aio calls f [] hrecords
      rw [hrecords] at hholes
      simp only [bind, Except.bind, hprep, hholes, List.nil_append]
      cases prepared with
      | error e => rfl
      | ok p =>
        have hlen := prepRecords_len hrecords
        have hcomplete : ∀ x ∈ units.zipIdx, (calls x.2).Complete aio x.1 :=
          fun x hx => h.complete _ _ (hlen _ (List.fst_mem_of_mem_zipIdx hx))
        obtain ⟨fdOk, src'⟩ := p
        simp only [← hfile _ rfl hcomplete, holesPunchLoop_eq ioctls hi, List.append_nil]

end

def oneByte : WriteCalls where
  pwrite := some 1
  memalign := 0
  ioSetup := 0
  ioSubmit := 1
  event := some 1
  ioGetevents := 1
  pread := some 1
  ioDestroy := 0

end Ocfs2Test.Holes.Status
