import Ocfs2Test.Fsx.Shadow

/-!
# fsx: the oracle

Each operation of fsx tests every answer of the file against the one of a file that
obeys POSIX: it goes on with the shadow's state when they agree, and ends the run
with one of its statuses when they do not. It follows that a run ends well exactly
when every answer was right.
-/

namespace Ocfs2Test.Fsx

open Lib Lib.Stdio

/-- What `main` makes sure of, with the bounds under which the offsets fit an `unsigned` and
the sizes of the buffers are what they shall be. -/
structure Options.Valid (o : Options) : Prop where
  maxfilelen_pos : 0 < o.maxfilelen
  maxfilelen_lt : o.maxfilelen < 2 ^ 31
  maxoplen_pos : 0 < o.maxoplen
  /-- The size of `temp_buf` is an `int`. -/
  tempBuf_lt : o.maxoplen + o.readbdy < 2 ^ 31
  readbdy_pos : 0 < o.readbdy
  truncbdy_pos : 0 < o.truncbdy
  writebdy_pos : 0 < o.writebdy
  /-- Else a truncate of the other style leaves `good_buf`. -/
  truncate_fits : o.style % 2 = 1 → o.lite = false → o.maxoplen ≤ o.maxfilelen

/-- The statuses of `report_failure`, but for the two of the "Lite file size bug". -/
def failures : List Nat :=
  [99, 110, 120, 140, 141, 150, 151, 152, 160, 171, 172, 173, 180, 181, 190, 191, 202, 203, 204]

def Status.BlamesFile : Status → Prop
  | .report status _ => status ∈ failures
  | .exit status => status = 201
  | .sigbus => True
  | .crash => False

/-- The file agrees with its shadow, from when operations are done to it. -/
structure Sync (o : Options) (live : Prop) (s : State) (f : OpenFile) : Prop where
  fileSize_le : s.fileSize ≤ o.maxfilelen
  lite_eq : o.lite = true → s.fileSize = o.maxfilelen
  image_eq : o.lite = true → f.data.size = o.maxfilelen
  same : live → Same s.goodBuf s.fileSize f.data

/-- The answers are tested against those of a file that obeys POSIX. -/
abbrev Tested (p : Io α) (Q : α → OpenFile → Prop) (f : OpenFile) : Prop :=
  p.Checks posix Status.BlamesFile Q f

variable {o : Options} {s s' : State} {f f' : OpenFile} {live : Prop} {p : Io α}
  {Q : α → OpenFile → Prop}

-- ---------------------------------------------------------------------------
-- Calls
-- ---------------------------------------------------------------------------

theorem tested_orStop {c : Call} {test : Answer c → Bool} {failed : Status} {k : Unit → Io α}
    (hright : test (posix f c).1 = true) (honly : ∀ a, test a = true → a = (posix f c).1)
    (hfailed : failed.BlamesFile) (hrest : Tested (k ()) Q (posix f c).2) :
    Tested (orStop failed c test >>= k) Q f :=
  (Prog.Checks.require (Q := fun _ f' => f' = (posix f c).2) hright honly (fun _ => hfailed)
    rfl).bind fun _ _ h => h ▸ hrest

theorem tested_orReport {c : Call} {test : Answer c → Bool} {status : Nat} {k : Unit → Io α}
    (hstatus : status ∈ failures) (hright : test (posix f c).1 = true)
    (honly : ∀ a, test a = true → a = (posix f c).1)
    (hrest : Tested (k ()) Q (posix f c).2) : Tested (orReport s status c test >>= k) Q f :=
  tested_orStop hright honly hstatus hrest

theorem mmap_right (offset size : Nat) (f : OpenFile) (hsize : ¬ size = 0) :
    (posix f (.mmap (offset % pageSize + size) (offset - offset % pageSize))).1 = true := by
  refine decide_eq_true ⟨by omega, ?_⟩
  rw [Nat.sub_mod_eq_zero_of_mod_eq (Nat.mod_mod _ _).symm]

theorem doomed_checkBuffers {bytes : List UInt8}
    (h : extract s.goodBuf offset bytes.length ≠ bytes) (k : Unit → Io α) :
    (checkBuffers s offset bytes >>= k).Doomed Status.BlamesFile := by
  rw [checkBuffers, if_pos h]
  exact (by decide : 110 ∈ failures)

theorem checkBuffers_eq {bytes : List UInt8}
    (h : extract s.goodBuf offset bytes.length = bytes) :
    checkBuffers s offset bytes = pure () := by
  rw [checkBuffers, if_neg (not_not.mpr h)]

theorem doomed_size (size sizeBySeek : Int) (k : Unit → Io α)
    (h : s.fileSize ≠ size ∨ s.fileSize ≠ sizeBySeek) :
    ((if s.fileSize ≠ size ∨ s.fileSize ≠ sizeBySeek then reportFailure 120 s else pure ()) >>= k :
      Io α).Doomed Status.BlamesFile := by
  rw [if_pos h]
  exact (by decide : 120 ∈ failures)

theorem size_right (k : Unit → Io α) (h : n = s.fileSize) :
    ((if (s.fileSize : Int) ≠ n ∨ (s.fileSize : Int) ≠ n then reportFailure 120 s
      else pure ()) >>= k : Io α) = k () := by
  rw [if_neg (by simp [h])]
  rfl

theorem tested_checkSize {k : Unit → Io α} (h : f.data.size = s.fileSize)
    (hrest : ∀ pos, Tested (k ()) Q { f with pos := pos }) :
    Tested (checkSize s >>= k) Q f := by
  refine Prog.Checks.ask (c := Call.fstat) (Prog.Checks.ask (c := Call.seekEnd) ?_ ?_) ?_
  · have hk := hrest f.data.size
    rw [← size_right k h] at hk
    exact hk
  · rintro sizeBySeek hne
    refine doomed_size _ _ k (.inr fun heq => hne ?_)
    simp only [posix, h, heq]
  · rintro ⟨ok, size⟩ hne
    refine Prog.Doomed.ask (c := Call.seekEnd) fun sizeBySeek => doomed_size _ _ k (.inl fun heq => ?_)
    cases ok with
    | true => exact hne (by simp only [posix, h, heq, if_true])
    | false =>
      simp only [Bool.false_eq_true, if_false] at heq
      omega

-- ---------------------------------------------------------------------------
-- Reads
-- ---------------------------------------------------------------------------

/-- The program goes on with `s`, whose shadow the file agrees with. -/
def Reaches (o : Options) (s : State) (s' : State) (f : OpenFile) : Prop :=
  s' = s ∧ Sync o (o.simulatedopcount < s.testcalls) s f

theorem directSize_le (o : Options) (bdy size : Nat) : directSize o bdy size ≤ size := by
  rw [directSize]
  split <;> omega

theorem Sync.log4 (h : Sync o live s f) (operation arg0 arg1 arg2 : Int) :
    Sync o live (s.log4 operation arg0 arg1 arg2) f :=
  ⟨h.fileSize_le, h.lite_eq, h.image_eq, h.same⟩

theorem Sync.pos (h : Sync o live s f) (pos : Nat) : Sync o live s { f with pos := pos } :=
  ⟨h.fileSize_le, h.lite_eq, h.image_eq, h.same⟩

theorem tested_doread (h : Sync o (o.simulatedopcount < s.testcalls) s f)
    (hfit : offset + size ≤ s.fileSize) (hsize : size ≤ o.maxoplen) :
    Tested (doread o s offset size)
      (Reaches o (s.perform (readDeed o s.fileSize Op.read offset (directSize o o.readbdy size))))
      f := by
  have hdirect := directSize_le o o.readbdy size
  simp only [doread, readDeed]
  generalize directSize o o.readbdy size = n at hdirect ⊢
  have hin : n + (offset - offset % o.readbdy) ≤ s.fileSize := by omega
  generalize offset - offset % o.readbdy = off at hin ⊢
  have hdone : ∀ operation args, Reaches o (s.perform ⟨.keep, operation, args⟩)
      (s.log4 operation args.1 args.2.1 args.2.2) f :=
    fun operation args => ⟨rfl, h.log4 _ _ _ _⟩
  split
  · next hzero =>
    rw [if_pos (.inl hzero)]
    exact hdone _ (_, _, _)
  · next hpos =>
    rw [if_neg (show ¬ (n = 0 ∨ s.fileSize < n + off) by omega), if_neg (not_lt.mpr hin)]
    split
    · exact hdone _ (_, _, _)
    · next hlive =>
      rw [if_neg (show ¬ o.maxoplen < n by omega)]
      have hsame := h.same (not_le.mp hlive)
      have hbytes : f.data.pread n off = extract s.goodBuf off n := by
        rw [pread_eq_window _ (by rw [hsame.size_eq]; omega), hsame.window (by omega)]
      refine tested_orReport (by decide) rfl (fun _ h => h) ?_
      refine Prog.Checks.ask (c := Call.read n) ?_ ?_
      · have hlen : (f.data.pread n off).length = n := by rw [hbytes, length_extract]
        change Tested (if (f.data.pread n off).length ≠ n then _ else
          checkBuffers _ off (f.data.pread n off) >>= _) _ _
        rw [if_neg (not_not.mpr hlen), checkBuffers_eq (by rw [hlen]; exact hbytes.symm)]
        exact ⟨rfl, (h.log4 _ _ _ _).pos _⟩
      · rintro (_ | ⟨bytes, hle⟩) hne
        · exact (by decide : 141 ∈ failures)
        · change (if bytes.length ≠ n then _ else checkBuffers _ off bytes >>= _).Doomed _
          split
          · exact (by decide : 141 ∈ failures)
          · next hlen =>
            refine doomed_checkBuffers (fun heq => hne ?_) _
            refine congrArg some (Subtype.ext ?_)
            exact heq.symm.trans
              ((congrArg (extract s.goodBuf off) (not_not.mp hlen)).trans hbytes.symm)

theorem tested_domapread (h : Sync o (o.simulatedopcount < s.testcalls) s f)
    (hfit : offset + size ≤ s.fileSize) (hsize : size ≤ o.maxoplen) :
    Tested (domapread o s offset size)
      (Reaches o (s.perform (readDeed o s.fileSize Op.mapread offset size))) f := by
  simp only [domapread, readDeed]
  have hin : size + (offset - offset % o.readbdy) ≤ s.fileSize := by omega
  generalize offset - offset % o.readbdy = off at hin ⊢
  have hdone : ∀ operation args, Reaches o (s.perform ⟨.keep, operation, args⟩)
      (s.log4 operation args.1 args.2.1 args.2.2) f :=
    fun operation args => ⟨rfl, h.log4 _ _ _ _⟩
  split
  · next hzero =>
    rw [if_pos (.inl hzero)]
    exact hdone _ (_, _, _)
  · next hpos =>
    rw [if_neg (show ¬ (size = 0 ∨ s.fileSize < size + off) by omega), if_neg (not_lt.mpr hin)]
    split
    · exact hdone _ (_, _, _)
    · next hlive =>
      rw [if_neg (not_lt.mpr hsize)]
      have hsame := h.same (not_le.mp hlive)
      have hbytes : window f.data off size = extract s.goodBuf off size :=
        hsame.window (by omega)
      have hpages : off + size ≤ pagesEnd f.data := by
        have hend := size_le_pagesEnd f.data
        rw [hsame.size_eq] at hend
        omega
      have hload : (posix (posix f (.mmap (off % pageSize + size) (off - off % pageSize))).2
          (.load off size)).1 = some ⟨window f.data off size, length_window ..⟩ := if_pos hpages
      refine tested_orReport (by decide) (mmap_right off size f hpos) (fun a ha => ?_) ?_
      · exact ha.trans (mmap_right off size f hpos).symm
      refine Prog.Checks.ask (c := Call.load off size) ?_ ?_
      · rw [hload]
        refine tested_orReport (by decide) rfl (fun _ h => h) ?_
        rw [checkBuffers_eq (by rw [length_window]; exact hbytes.symm)]
        exact ⟨rfl, h.log4 _ _ _ _⟩
      · rintro (_ | ⟨bytes, hlen⟩) hne
        · trivial
        · refine Prog.Doomed.require (fun _ => (by decide : 191 ∈ failures)) ?_
          refine doomed_checkBuffers (fun heq => hne ?_) _
          refine Eq.trans (congrArg some (Subtype.ext ?_)) hload.symm
          exact heq.symm.trans ((congrArg (extract s.goodBuf off) hlen).trans hbytes.symm)

-- ---------------------------------------------------------------------------
-- Writes
-- ---------------------------------------------------------------------------

theorem overwrite_eq (hin : offset + size ≤ o.maxfilelen)
    (hlite : o.lite = true → s.fileSize = o.maxfilelen) (liteStatus : Nat) :
    overwrite o s liteStatus offset size = pure (s.overwritten offset size) := by
  simp only [overwrite]
  rw [if_neg (not_lt.mpr hin)]
  rcases Nat.lt_or_ge s.fileSize (offset + size) with hgrows | hkeeps
  · have hno : ¬ o.lite = true := fun hl => by
      have := hlite hl
      omega
    rw [if_pos hgrows, if_neg hno]
    simp only [State.overwritten, Nat.max_eq_right (Nat.le_of_lt hgrows)]
  · rw [if_neg (not_lt.mpr hkeeps), State.overwritten, if_neg (by omega),
      Nat.max_eq_left hkeeps]

/-- What an effect needs to stay inside `good_buf`. -/
def Effect.Fits (o : Options) : Effect → Prop
  | .keep => True
  | .write offset size => 0 < size ∧ offset + size ≤ o.maxfilelen
  | .resize size => size ≤ o.maxfilelen ∧ o.lite = false

theorem Sync.apply (h : Sync o live s f) (effect : Effect) (hfits : effect.Fits o)
    (himage : o.lite = true → f'.data.size = o.maxfilelen)
    (hsame : live → Same (s.apply effect).goodBuf (s.apply effect).fileSize f'.data) :
    Sync o live (s.apply effect) f' := by
  have hsize := h.fileSize_le
  cases effect with
  | keep => exact ⟨hsize, h.lite_eq, himage, hsame⟩
  | write offset size =>
    refine ⟨?_, fun hl => ?_, himage, hsame⟩
    · exact Nat.max_le.mpr ⟨hsize, hfits.2⟩
    · exact (Nat.max_eq_left (h.lite_eq hl ▸ hfits.2)).trans (h.lite_eq hl)
  | resize size =>
    refine ⟨hfits.1, fun hl => ?_, himage, hsame⟩
    rw [hfits.2] at hl
    cases hl

theorem Same.mapwrite {f g : ByteFile} (h : Same s.goodBuf s.fileSize f) (offset : Nat)
    (hsize : 0 < size)
    (hg : g = if s.fileSize < (s.overwritten offset size).fileSize then
      f.truncate (s.overwritten offset size).fileSize else f) :
    Same (s.overwritten offset size).goodBuf (s.overwritten offset size).fileSize
      ((g.pwrite (extract (s.overwritten offset size).goodBuf offset size) offset).truncate
        g.size) := by
  have hle : s.fileSize ≤ (s.overwritten offset size).fileSize := Nat.le_max_left ..
  have hgsize : g.size = (s.overwritten offset size).fileSize := by
    rw [hg]
    split
    · rfl
    · rw [h.size_eq]
      omega
  have hgbyte : ∀ i < (s.overwritten offset size).fileSize, g.byte i = f.byte i := by
    intro i hi
    rw [hg]
    split
    · rw [ByteFile.byte_truncate, if_pos hi]
    · rfl
  have hwrite := h.pwrite offset hsize
  refine ⟨hgsize, fun i hi => ?_⟩
  rw [ByteFile.byte_truncate, if_pos (hgsize.symm ▸ hi), ← hwrite.byte_eq i hi,
    ByteFile.byte_pwrite, ByteFile.byte_pwrite, hgbyte i hi]

theorem tested_written (hsim : ¬ s.testcalls ≤ o.simulatedopcount)
    (h : Sync o (o.simulatedopcount < s.testcalls) s f) (hsize : 0 < size)
    (hin : offset + size ≤ o.maxfilelen) :
    Tested (do
      orReport (s.overwritten offset size) 150 (.lseek offset) id
      orReport (s.overwritten offset size) 151
        (.write (extract (s.overwritten offset size).goodBuf offset size)) (· == some size)
      if o.doFsync then orReport (s.overwritten offset size) 152 .fsync id
      pure (s.overwritten offset size)) (Reaches o (s.overwritten offset size)) f := by
  have hsame := (h.same (not_le.mp hsim)).pwrite offset hsize
  have hend : ∀ pos, Reaches o (s.overwritten offset size) (s.overwritten offset size)
      { data := f.data.pwrite (extract (s.overwritten offset size).goodBuf offset size) offset
        pos := pos } := by
    refine fun pos => ⟨rfl, Sync.apply h (.write offset size) ⟨hsize, hin⟩ ?_ ?_⟩
    · exact fun hl => hsame.size_eq.trans
        ((Nat.max_eq_left (h.lite_eq hl ▸ hin)).trans (h.lite_eq hl))
    · exact fun _ => hsame
  have hcount (a : Option Nat) : (a == some size) = true →
      a = some (extract (s.overwritten offset size).goodBuf offset size).length := by
    rw [length_extract]
    exact eq_of_beq
  refine tested_orReport (by decide) rfl (fun _ h => h) ?_
  refine tested_orReport (by decide) ?_ hcount ?_
  · exact beq_iff_eq.mpr (congrArg some (length_extract ..))
  split
  · exact tested_orReport (by decide) rfl (fun _ h => h) (hend _)
  · exact hend _

theorem tested_dowrite (h : Sync o (o.simulatedopcount < s.testcalls) s f)
    (hfit : offset + size ≤ o.maxfilelen) :
    Tested (dowrite o s offset size)
      (Reaches o (s.perform
        (writeDeed o Op.write offset (directSize o o.writebdy size) s.fileSize))) f := by
  have hdirect := directSize_le o o.writebdy size
  simp only [dowrite, writeDeed]
  generalize directSize o o.writebdy size = n at hdirect ⊢
  have hin : offset - offset % o.writebdy + n ≤ o.maxfilelen := by omega
  generalize offset - offset % o.writebdy = off at hin ⊢
  split
  · exact ⟨rfl, h.log4 _ _ _ _⟩
  · next hpos =>
    have hlog := h.log4 Op.write off n s.fileSize
    rw [overwrite_eq hin hlog.lite_eq]
    change Tested (if s.testcalls ≤ o.simulatedopcount then _ else _) _ _
    split
    · next hsim =>
      refine ⟨rfl, Sync.apply hlog _ ⟨by omega, hin⟩ h.image_eq fun hlive => ?_⟩
      exact absurd hlive (not_lt.mpr hsim)
    · next hsim => exact tested_written hsim hlog (by omega) hin

theorem tested_mapwritten (hsim : ¬ s.testcalls ≤ o.simulatedopcount)
    (h : Sync o (o.simulatedopcount < s.testcalls) s f) (hsize : 0 < size)
    (hin : offset + size ≤ o.maxfilelen) :
    Tested (do
      if s.fileSize < (s.overwritten offset size).fileSize then
        orStop (.exit 201) (.ftruncate (s.overwritten offset size).fileSize) id
      orReport (s.overwritten offset size) 202
        (.mmap (offset % pageSize + size) (offset - offset % pageSize)) id
      orStop .sigbus (.store offset (extract (s.overwritten offset size).goodBuf offset size)) id
      orReport (s.overwritten offset size) 203 .msync id
      orReport (s.overwritten offset size) 204 .munmap id
      pure (s.overwritten offset size)) (Reaches o (s.overwritten offset size)) f := by
  have hsame := h.same (not_le.mp hsim)
  have hstore : ∀ g : OpenFile, (g.data = if s.fileSize < (s.overwritten offset size).fileSize then
      f.data.truncate (s.overwritten offset size).fileSize else f.data) →
      Tested (do
        orReport (s.overwritten offset size) 202
          (.mmap (offset % pageSize + size) (offset - offset % pageSize)) id
        orStop .sigbus (.store offset (extract (s.overwritten offset size).goodBuf offset size)) id
        orReport (s.overwritten offset size) 203 .msync id
        orReport (s.overwritten offset size) 204 .munmap id
        pure (s.overwritten offset size)) (Reaches o (s.overwritten offset size)) g := by
    intro g hg
    have hwrite := Same.mapwrite hsame offset hsize hg
    have hpages : offset + (extract (s.overwritten offset size).goodBuf offset size).length ≤
        pagesEnd g.data := by
      have hend := size_le_pagesEnd g.data
      have hgsize := hwrite.size_eq
      have hgrown : offset + size ≤ (s.overwritten offset size).fileSize := Nat.le_max_right ..
      rw [ByteFile.size_truncate] at hgsize
      rw [length_extract]
      omega
    have hright := mmap_right offset size g (by omega)
    refine tested_orReport (by decide) hright (fun a ha => ha.trans hright.symm) ?_
    refine tested_orStop (decide_eq_true hpages)
      (fun a ha => ha.trans (decide_eq_true hpages).symm) trivial ?_
    refine tested_orReport (by decide) rfl (fun _ h => h) ?_
    refine tested_orReport (by decide) rfl (fun _ h => h) ?_
    change Reaches o _ _ (posix g (.store offset _)).2
    simp only [posix, if_pos hpages]
    refine ⟨rfl, Sync.apply h (.write offset size) ⟨hsize, hin⟩ ?_ fun _ => hwrite⟩
    exact fun hl => hwrite.size_eq.trans
      ((Nat.max_eq_left (h.lite_eq hl ▸ hin)).trans (h.lite_eq hl))
  split
  · next hgrows =>
    exact tested_orStop rfl (fun _ h => h) rfl (hstore _ (if_pos hgrows).symm)
  · next hkeeps => exact hstore f (if_neg hkeeps).symm

theorem tested_domapwrite (h : Sync o (o.simulatedopcount < s.testcalls) s f)
    (hfit : offset + size ≤ o.maxfilelen) :
    Tested (domapwrite o s offset size)
      (Reaches o (s.perform (writeDeed o Op.mapwrite offset size 0))) f := by
  simp only [domapwrite, writeDeed]
  have hin : offset - offset % o.writebdy + size ≤ o.maxfilelen := by omega
  generalize offset - offset % o.writebdy = off at hin ⊢
  split
  · exact ⟨rfl, h.log4 _ _ _ _⟩
  · next hpos =>
    have hlog := h.log4 Op.mapwrite off size 0
    rw [overwrite_eq hin hlog.lite_eq]
    change Tested (if s.testcalls ≤ o.simulatedopcount then _ else _) _ _
    split
    · next hsim =>
      refine ⟨rfl, Sync.apply hlog _ ⟨by omega, hin⟩ h.image_eq fun hlive => ?_⟩
      exact absurd hlive (not_lt.mpr hsim)
    · next hsim =>
      exact tested_mapwritten hsim hlog (by omega) hin

theorem tested_dotruncate (h : Sync o (o.simulatedopcount < s.testcalls) s f)
    (hlite : o.lite = false) (hfit : size ≤ o.maxfilelen) :
    Tested (dotruncate o s size) (Reaches o (s.perform (truncateDeed o s.fileSize size))) f := by
  simp only [dotruncate, truncateDeed]
  have hin : size - size % o.truncbdy ≤ o.maxfilelen := by omega
  generalize size - size % o.truncbdy = n at hin ⊢
  have hlog := h.log4 Op.truncate n s.fileSize 0
  have hdoes : ∀ f' : OpenFile, (o.simulatedopcount < s.testcalls →
      Same ((s.log4 Op.truncate n s.fileSize 0).resized n).goodBuf n f'.data) →
      Sync o (o.simulatedopcount < s.testcalls)
        ((s.log4 Op.truncate n s.fileSize 0).resized n) f' := by
    refine fun f' hsame => Sync.apply hlog (.resize n) ⟨hin, hlite⟩ ?_ hsame
    intro hl
    rw [hlite] at hl
    cases hl
  rw [if_neg fun hover => Nat.not_lt.mpr hin hover.2]
  split
  · next hsim =>
    exact ⟨rfl, hdoes f fun hlive => absurd hlive (not_lt.mpr hsim)⟩
  · next hsim =>
    refine tested_orReport (by decide) rfl (fun _ h => h) ?_
    exact ⟨rfl, hdoes _ fun hlive => (hlog.same hlive).truncate⟩

-- ---------------------------------------------------------------------------
-- A whole call of test
-- ---------------------------------------------------------------------------

theorem image_same (buf : Nat → UInt8) (n : Nat) (f : ByteFile) :
    Same buf n ((f.pwrite (extract buf 0 n) 0).truncate n) := by
  refine ⟨rfl, fun i hi => ?_⟩
  rw [ByteFile.byte_truncate, if_pos hi, ByteFile.byte_pwrite_of_mem (Nat.zero_le i) (by simpa),
    extract_getD _ (by omega)]
  simp

theorem image_same_of_size (buf : Nat → UInt8) {f : ByteFile} (h : f.size = n) :
    Same buf n (f.pwrite (extract buf 0 n) 0) := by
  have himage := image_same buf n f
  refine ⟨?_, fun i hi => ?_⟩
  · rw [ByteFile.size_pwrite_of_le (by simp [h]), h]
  · rw [← himage.byte_eq i hi, ByteFile.byte_truncate, if_pos hi]

theorem tested_writefileimage (h : Sync o live s f) :
    Tested (writefileimage o s) (fun _ => Sync o True s) f := by
  have hcount (a : Option Nat) : (a == some s.fileSize) = true →
      a = some (extract s.goodBuf 0 s.fileSize).length := by
    rw [length_extract]
    exact eq_of_beq
  have hsync : ∀ f' : OpenFile, Same s.goodBuf s.fileSize f'.data → Sync o True s f' :=
    fun f' hsame => ⟨h.fileSize_le, h.lite_eq, fun hl => hsame.size_eq.trans (h.lite_eq hl),
      fun _ => hsame⟩
  refine tested_orReport (by decide) rfl (fun _ h => h) ?_
  refine tested_orReport (by decide) ?_ hcount ?_
  · exact beq_iff_eq.mpr (congrArg some (length_extract ..))
  split
  · next hl => exact hsync _ (image_same_of_size _ ((h.image_eq hl).trans (h.lite_eq hl).symm))
  · exact Prog.Checks.require rfl (fun _ h => h) (fun _ => (by decide : 173 ∈ failures))
      (hsync _ (image_same ..))

theorem tested_docloseopen (h : Sync o live s f) :
    Tested (docloseopen o s) (fun _ => Sync o live s) f := by
  rw [docloseopen]
  split
  · exact h
  · refine tested_orReport (by decide) rfl (fun _ h => h) ?_
    exact Prog.Checks.require rfl (fun _ h => h) (fun _ => (by decide : 181 ∈ failures)) (h.pos 0)

theorem add_clip_le (h : offset ≤ limit) (size : Nat) :
    offset + clip limit offset size ≤ limit := by
  rw [clip]
  split <;> omega

theorem clip_le (h : offset ≤ limit) (size : Nat) : clip limit offset size ≤ size := by
  rw [clip]
  split <;> omega

theorem Sync.shift (h : Sync o live s f) : Sync o live s.shift f :=
  ⟨h.fileSize_le, h.lite_eq, h.image_eq, h.same⟩

theorem tested_operateSized (ho : o.Valid) (h : Sync o (o.simulatedopcount < s.testcalls) s f)
    (hsize : size ≤ o.maxoplen) (htrunc : o.style % 2 = 1 ∨ ¬ (!o.lite && op == 3) = true) :
    Tested (operateSized o s op size)
      (Reaches o ((sizedDeed o s op size).2.perform (sizedDeed o s op size).1)) f := by
  have hpos := ho.maxfilelen_pos
  have hshift : Sync o (o.simulatedopcount < s.shift.testcalls) s.shift f := h.shift
  simp only [operateSized, sizedDeed, State.random]
  split
  · next hthree =>
    have hstyle := htrunc.resolve_right (not_not.mpr hthree)
    simp only [Bool.and_eq_true, Bool.not_eq_true'] at hthree
    exact tested_dotruncate h hthree.1 (hsize.trans (ho.truncate_fits hstyle hthree.1))
  · generalize (if o.lite then 3 else 4) = mapwrite
    rw [if_neg (show ¬ o.maxfilelen = 0 by omega)]
    rcases Decidable.em (op = 1 ∨ op = mapwrite) with hwrite | hread
    · simp only [if_pos hwrite]
      have hfit := add_clip_le (Nat.mod_lt (s.rands 0).val hpos).le size
      rcases Decidable.em (op ≠ 1) with hop | hop
      · simp only [if_pos hop]
        exact tested_domapwrite hshift hfit
      · simp only [if_neg hop]
        exact tested_dowrite hshift hfit
    · simp only [if_neg hread]
      have hmod : (if s.shift.fileSize ≠ 0 then (s.rands 0).val % s.shift.fileSize else 0) ≤
          s.shift.fileSize := by
        split
        · next hne => exact (Nat.mod_lt _ (Nat.pos_of_ne_zero hne)).le
        · exact Nat.zero_le _
      have hfit := add_clip_le hmod size
      have hshort := (clip_le hmod size).trans hsize
      rcases Decidable.em (op ≠ 0) with hop | hop
      · simp only [if_pos hop]
        exact tested_domapread hshift hfit hshort
      · simp only [if_neg hop]
        exact tested_doread hshift hfit hshort

/-- `operate` keeps to the plan of `nextDeed`. -/
theorem tested_operate (ho : o.Valid) (h : Sync o (o.simulatedopcount < s.testcalls) s f)
    (op : Nat) :
    Tested (operate o s op)
      (Reaches o ((nextDeed o s op).2.perform (nextDeed o s op).1)) f := by
  have hpos := ho.maxfilelen_pos
  have hshift : Sync o (o.simulatedopcount < s.shift.testcalls) s.shift f := h.shift
  simp only [operate, nextDeed, State.random]
  split
  · next hvanilla =>
    simp only [Bool.and_eq_true, Bool.not_eq_true'] at hvanilla
    rw [if_neg (show ¬ o.maxfilelen = 0 by omega)]
    exact tested_dotruncate hshift hvanilla.1.1 (Nat.mod_lt _ hpos).le
  · next hother =>
    have htrunc : o.style % 2 = 1 ∨ ¬ (!o.lite && op == 3) = true := by
      rcases Nat.mod_two_eq_zero_or_one o.style with heven | hodd
      · rw [heven, beq_self_eq_true, Bool.and_true] at hother
        exact .inr hother
      · exact .inl hodd
    split
    · exact tested_operateSized ho hshift
        (Nat.le_of_lt_succ (Nat.mod_lt _ (Nat.succ_pos _))) htrunc
    · exact tested_operateSized ho h le_rfl htrunc

/-- The file between two calls of `test`: once the simulated ones are over it holds
what is expected. -/
def Between (o : Options) (s : State) (f : OpenFile) : Prop :=
  Sync o (o.simulatedopcount = 0 ∨ o.simulatedopcount < s.testcalls) s f

theorem testcalls_perform (s : State) (deed : Deed) :
    (s.perform deed).testcalls = s.testcalls := by
  obtain ⟨effect, operation, args⟩ := deed
  cases effect <;> rfl

theorem testcalls_nextDeed (o : Options) (s : State) (op : Nat) :
    (nextDeed o s op).2.testcalls = s.testcalls := by
  obtain ⟨rands, h⟩ := nextDeed_state o s op
  rw [h]

theorem Sync.weaken {live' : Prop} (h : Sync o live s f) (himp : live' → live) :
    Sync o live' s f :=
  ⟨h.fileSize_le, h.lite_eq, h.image_eq, fun hl => h.same (himp hl)⟩

theorem tested_endOfTest (hcalls : s.testcalls = n + 1)
    (h : Sync o (o.simulatedopcount < s.testcalls) s f) :
    Tested (do
      if o.sizechecks ∧ o.simulatedopcount < s.testcalls then checkSize s
      if s.closeopen then docloseopen o s
      pure s) (fun s' f' => s' = s ∧ Between o s' f') f := by
  have hbetween : ∀ f', Sync o (o.simulatedopcount < s.testcalls) s f' → Between o s f' :=
    fun f' hf' => hf'.weaken fun hlive => by omega
  have hclose : ∀ f', Sync o (o.simulatedopcount < s.testcalls) s f' →
      Tested (do
        if s.closeopen then docloseopen o s
        pure s) (fun s' f' => s' = s ∧ Between o s' f') f' := by
    intro f' hf'
    split
    · exact (tested_docloseopen hf').bind fun _ f'' hf'' => ⟨rfl, hbetween f'' hf''⟩
    · exact ⟨rfl, hbetween f' hf'⟩
  rcases Decidable.em (o.sizechecks = true ∧ o.simulatedopcount < s.testcalls) with hcheck | hcheck
  · simp only [if_pos hcheck]
    exact tested_checkSize (h.same hcheck.2).size_eq fun pos => hclose _ (h.pos pos)
  · simp only [if_neg hcheck]
    exact hclose f h

theorem tested_test (ho : o.Valid) (h : Between o s f) :
    Tested (test o s) (fun s' f' => s' = s.step o ∧ Between o s' f') f := by
  have hbegin : ∀ f', Sync o (o.simulatedopcount < s.testcalls + 1) s f' →
      Tested (do
        let s ← operate o (s.shift.nextCall o (s.rands 0)) (pickOp o (s.rands 0))
        if o.sizechecks ∧ o.simulatedopcount < s.testcalls then checkSize s
        if s.closeopen then docloseopen o s
        pure s) (fun s' f' => s' = s.step o ∧ Between o s' f') f' := by
    intro f' hf'
    have hnext : Sync o (o.simulatedopcount < (s.shift.nextCall o (s.rands 0)).testcalls)
        (s.shift.nextCall o (s.rands 0)) f' :=
      ⟨hf'.fileSize_le, hf'.lite_eq, hf'.image_eq, hf'.same⟩
    refine (tested_operate ho hnext (pickOp o (s.rands 0))).bind ?_
    rintro s₁ f₁ ⟨rfl, hsync⟩
    exact tested_endOfTest ((testcalls_perform _ _).trans (testcalls_nextDeed _ _ _)) hsync
  simp only [test, State.random]
  split
  · exact (tested_writefileimage h.shift).bind fun _ f' hf' =>
      hbegin f' ((⟨hf'.fileSize_le, hf'.lite_eq, hf'.image_eq, hf'.same⟩ :
        Sync o True s f').weaken fun _ => trivial)
  · next hnot =>
    refine hbegin f (h.weaken fun hlive => ?_)
    simp only [State.shift] at hnot
    omega

-- ---------------------------------------------------------------------------
-- Runs
-- ---------------------------------------------------------------------------

def State.steps (o : Options) : Nat → State → State
  | 0, s => s
  | n + 1, s => (s.step o).steps o n

theorem steps_succ (o : Options) (n : Nat) (s : State) :
    s.steps o (n + 1) = (s.steps o n).step o := by
  induction n generalizing s with
  | zero => rfl
  | succ n ih => exact ih (s.step o)

theorem testcalls_steps (o : Options) (n : Nat) (s : State) :
    (s.steps o n).testcalls = s.testcalls + n := by
  induction n generalizing s with
  | zero => rfl
  | succ n ih =>
    rw [State.steps, ih]
    have hstep : (s.step o).testcalls = s.testcalls + 1 :=
      (testcalls_perform _ _).trans (testcalls_nextDeed _ _ _)
    omega

theorem tested_tests (ho : o.Valid) (h : Between o s f) (numops : Nat) :
    Tested (tests o numops s) (fun s' f' => s' = s.steps o numops ∧ Between o s' f') f := by
  have hloop : Tested (Prog.iterate (test o) numops s)
      (fun s' f' => s' = s.steps o (0 + numops) ∧ Between o s' f') f := by
    refine Prog.Checks.iterate (I := fun i s' f' => s' = s.steps o i ∧ Between o s' f') ?_
      ⟨rfl, h⟩
    rintro i s' f' ⟨rfl, hbetween⟩
    rw [steps_succ]
    exact tested_test ho hbetween
  rw [Nat.zero_add] at hloop
  refine hloop.bind ?_
  rintro s' f' hend
  exact tested_orReport (by decide) rfl (fun _ h => h) hend

/-- Whatever the device under test and the state it is in: the loop ends well exactly
when every answer was the one of a file that obeys POSIX. Otherwise it ends with one
of the statuses that put it down to the file, and never in an access outside of
the buffers. -/
theorem tests_ok_iff {σ : Type} (ho : o.Valid) (h : Between o s f) (numops : Nat)
    (device : Device Call Answer σ) (d : σ) :
    let run := (tests o numops s).play device d
    ((∃ s', run.outcome = .ok s') ↔ Prog.Conforms posix f run.events) ∧
      (∀ s', run.outcome = .ok s' → s' = s.steps o numops) ∧
      ∀ e, run.outcome = .error e → e.BlamesFile := by
  rcases (tested_tests ho h numops).outcome device d with
    ⟨hconf, s', hok, hend⟩ | ⟨hconf, e, herr, hblame⟩
  · refine ⟨iff_of_true ⟨s', hok⟩ hconf, fun s'' hs => ?_, fun e he => ?_⟩
    · rw [hok] at hs
      injection hs with hs
      exact hs ▸ hend.1
    · rw [hok] at he
      cases he
  · refine ⟨iff_of_false ?_ hconf, fun s' hs => ?_, fun e' he => ?_⟩
    · rintro ⟨s', hs⟩
      rw [herr] at hs
      cases hs
    · rw [herr] at hs
      cases hs
    · rw [herr] at he
      injection he with he
      exact he ▸ hblame

end Ocfs2Test.Fsx
