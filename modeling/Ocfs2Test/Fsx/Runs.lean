import Ocfs2Test.Fsx.Oracle

/-!
# fsx: whole runs

`main` on a file that obeys POSIX: it ends with its last line whatever the options
and the numbers of `random` are, and a run that `-b` starts in the middle ends with
the same file as the run from the first operation on.
-/

namespace Ocfs2Test.Fsx

open Lib Lib.Stdio

variable {o : Options} {s : State} {f : OpenFile} {rands : Nat → Rand}

/-- The options once `main` has the size of the file: with `-L` that is the upper
bound too. -/
def Options.sized (o : Options) (f : OpenFile) : Options :=
  if o.lite then { o with maxfilelen := f.data.size } else o

theorem default_valid : ({} : Options).Valid := by
  constructor <;> decide

/-- Numbers for which three calls write 3 bytes at offset 1, cut the file to 2 bytes and
read the second of them. The first 256 K are used up by `original_buf`. -/
def drawn (i : Nat) : Rand := [1, 3, 1, 3, 2, 0, 1, 1].getD (i - 256 * 1024) 0

/-- A file that says it has written and keeps nothing. -/
def lossy : Device Call Answer OpenFile
  | f, .write data => (some data.length, f)
  | f, c => posix f c

theorem start_between : Between {} (start {} drawn) ⟨.empty, 0⟩ :=
  ⟨Nat.zero_le _, fun h => absurd h Bool.false_ne_true, fun h => absurd h Bool.false_ne_true,
    fun _ => ⟨rfl, fun _ h => absurd h (Nat.not_lt_zero _)⟩⟩

theorem ok_iff_isOk {ε α : Type} {r : Except ε α} : (∃ a, r = .ok a) ↔ r.isOk = true := by
  cases r with
  | ok a => exact iff_of_true ⟨a, rfl⟩ rfl
  | error e => exact iff_of_false (fun ⟨_, h⟩ => by cases h) (fun h => by cases h)

/-- On the one file the run ends well, on the other it does not. -/
theorem tests_ok_iff_drawn :
    Prog.Conforms posix ⟨.empty, 0⟩
        ((tests {} 3 (start {} drawn)).play posix ⟨.empty, 0⟩).events ∧
      ((tests {} 3 (start {} drawn)).play posix ⟨.empty, 0⟩).device.data.size = 2 ∧
      ¬ Prog.Conforms posix ⟨.empty, 0⟩
        ((tests {} 3 (start {} drawn)).play lossy ⟨.empty, 0⟩).events := by
  have hgood := (tests_ok_iff default_valid start_between 3 posix ⟨.empty, 0⟩).1
  have hbad := (tests_ok_iff default_valid start_between 3 lossy ⟨.empty, 0⟩).1
  refine ⟨hgood.mp ?_, ?_, hbad.not.mp ?_⟩
  · exact ok_iff_isOk.mpr (by decide +kernel)
  · decide +kernel
  · exact ok_iff_isOk.not.mpr (by decide +kernel)

-- ---------------------------------------------------------------------------
-- The set-up
-- ---------------------------------------------------------------------------

theorem fileSize_start (o : Options) (rands : Nat → Rand) :
    (start o rands).fileSize = if o.lite then o.maxfilelen else 0 := rfl

theorem start_synced (hsize : f.data.size = (start o rands).fileSize)
    (hzero : ∀ i, f.data.byte i = 0) : Between o (start o rands) f := by
  rw [fileSize_start] at hsize
  refine ⟨?_, fun hl => ?_, fun hl => ?_, fun _ => ⟨hsize, fun i _ => hzero i⟩⟩
  · rw [fileSize_start]
    split
    · exact le_rfl
    · exact Nat.zero_le _
  · rw [fileSize_start, if_pos hl]
  · rw [hsize, if_pos hl]

def Ended (o : Options) (numops : Nat) (rands : Nat → Rand) (s : State) (f : OpenFile) : Prop :=
  s = (start o rands).steps o numops ∧ s.fileSize ≤ o.maxfilelen ∧
    (o.simulatedopcount = 0 ∨ o.simulatedopcount < numops → Same s.goodBuf s.fileSize f.data)

theorem tests_passes (ho : o.Valid) (h : Between o (start o rands) f) (numops : Nat) :
    (tests o numops (start o rands)).Passes posix (Ended o numops rands) f := by
  obtain ⟨s, hok, hs, hbetween⟩ := (tested_tests ho h numops).passes
  refine ⟨s, hok, hs, hbetween.fileSize_le, fun hlive => hbetween.same ?_⟩
  have hcalls : s.testcalls = 0 + numops := by rw [hs, testcalls_steps]; rfl
  rwa [hcalls, Nat.zero_add]

theorem allocate_eq (ho : o.Valid) : allocate o = pure () := by
  have hlen := ho.maxfilelen_lt
  have hbuf := ho.tempBuf_lt
  rw [allocate, if_neg (by omega)]

theorem main_passes_lite (hl : o.lite = true) (ho : (o.sized f).Valid) (numops : Nat)
    (rands : Nat → Rand) :
    (main o numops rands).Passes posix (Ended (o.sized f) numops rands) f := by
  have hsized : o.sized f = { o with maxfilelen := f.data.size } := if_pos hl
  rw [hsized] at ho ⊢
  have hzeros : Same (fun _ => 0) f.data.size
      (f.data.pwrite (List.replicate f.data.size 0) 0) := by
    refine ⟨ByteFile.size_pwrite_of_le (by simp), fun i hi => ?_⟩
    rw [ByteFile.byte_pwrite_of_mem (Nat.zero_le i) (by simpa using hi),
      List.getD_replicate _ (by omega)]
  have hbetween (pos : Nat) : Between { o with maxfilelen := f.data.size }
      (start { o with maxfilelen := f.data.size } rands)
      ⟨f.data.pwrite (List.replicate f.data.size 0) 0, pos⟩ := by
    refine start_synced ?_ fun i => ?_
    · rw [fileSize_start, if_pos hl]
      exact hzeros.size_eq
    · rcases Nat.lt_or_ge i f.data.size with hi | hi
      · exact hzeros.byte_eq i hi
      · exact ByteFile.zero_beyond _ i (hzeros.size_eq.le.trans hi)
  have hopen : (posix f (.openFile (!o.lite))).2 = ⟨f.data, 0⟩ := by simp [posix, hl]
  refine Prog.Passes.require rfl ?_
  rw [hopen, if_pos hl]
  refine Prog.Passes.ask (c := Call.seekEnd) ?_
  change (if (f.data.size : Int) = -1 then _ else _ : Io State).Passes _ _ _
  rw [if_neg (by omega)]
  refine Prog.Passes.require rfl ?_
  change (allocate { o with maxfilelen := f.data.size } >>= _ : Io State).Passes _ _ _
  rw [allocate_eq ho]
  refine Prog.Passes.require ?_ ?_
  · exact beq_iff_eq.mpr (congrArg some List.length_replicate)
  · exact tests_passes ho (hbetween _) numops

theorem main_passes (ho : (o.sized f).Valid) (numops : Nat) (rands : Nat → Rand) :
    (main o numops rands).Passes posix (Ended (o.sized f) numops rands) f := by
  cases hl : o.lite with
  | true => exact main_passes_lite hl ho numops rands
  | false =>
    have hsized : o.sized f = o := if_neg (by simp [hl])
    rw [hsized] at ho ⊢
    have hbetween : Between o (start o rands)
        ⟨((ByteFile.empty.truncate 0).truncate 100000).truncate 0, 0⟩ := by
      refine start_synced ?_ fun i => ?_
      · rw [fileSize_start, if_neg (by simp [hl])]
        rfl
      · exact ByteFile.zero_beyond _ i (Nat.zero_le i)
    have hopen : (posix f (.openFile (!o.lite))).2 = ⟨.empty, 0⟩ := by simp [posix, hl]
    refine Prog.Passes.require rfl ?_
    rw [hopen, if_neg (by simp [hl]), allocate_eq ho]
    exact tests_passes ho hbetween numops

def Options.full (o : Options) : Options := { o with simulatedopcount := 0 }

theorem full_sized (o : Options) (f : OpenFile) : o.full.sized f = (o.sized f).full := by
  rw [Options.sized, Options.sized]
  cases hl : o.lite with
  | true => simp [Options.full, hl]
  | false => simp [Options.full, hl]

theorem Options.Valid.full (h : o.Valid) : o.full.Valid :=
  ⟨h.maxfilelen_pos, h.maxfilelen_lt, h.maxoplen_pos, h.tempBuf_lt, h.readbdy_pos,
    h.truncbdy_pos, h.writebdy_pos, h.truncate_fits⟩

theorem steps_full (o : Options) (n : Nat) (s : State) : s.steps o.full n = s.steps o n := by
  induction n generalizing s with
  | zero => rfl
  | succ n ih => exact ih (s.step o)

theorem Same.unique {buf : Nat → UInt8} {f g : ByteFile} (hf : Same buf n f) (hg : Same buf n g) :
    f = g := by
  ext i
  · rw [hf.size_eq, hg.size_eq]
  · rcases Nat.lt_or_ge i n with hi | hi
    · rw [hf.byte_eq i hi, hg.byte_eq i hi]
    · rw [f.zero_beyond i (hf.size_eq ▸ hi), g.zero_beyond i (hg.size_eq ▸ hi)]

/-- A run that simulates its first operations and one that does them all end with the
same `good_buf`, log and numbers, and with the same file. -/
theorem main_simulated (ho : (o.sized f).Valid) (hn : o.simulatedopcount < numops)
    (rands : Nat → Rand) :
    ∃ s, ((main o numops rands).play posix f).outcome = .ok s ∧
      ((main o.full numops rands).play posix f).outcome = .ok s ∧
      ((main o numops rands).play posix f).device.data =
        ((main o.full numops rands).play posix f).device.data := by
  have hlive : (o.sized f).simulatedopcount < numops := by
    rw [Options.sized]
    split <;> exact hn
  have hfull : (o.full.sized f).Valid := full_sized o f ▸ ho.full
  obtain ⟨s, hok, hs, -, hsame⟩ := main_passes ho numops rands
  obtain ⟨s', hok', hs', -, hsame'⟩ := main_passes hfull numops rands
  rw [full_sized, steps_full] at hs'
  obtain rfl : s' = s := hs'.trans hs.symm
  have hzero : (o.full.sized f).simulatedopcount = 0 := by rw [full_sized]; rfl
  exact ⟨s', hok, hok', (hsame (.inr hlive)).unique (hsame' (.inl hzero))⟩

/-- The write is simulated; the truncate and the read are done. -/
theorem main_simulated_drawn :
    ((main { simulatedopcount := 1 } 3 drawn).play posix ⟨.empty, 0⟩).device.data.size = 2 ∧
      ∃ s, ((main { simulatedopcount := 1 } 3 drawn).play posix ⟨.empty, 0⟩).outcome = .ok s ∧
        ((main (Options.full { simulatedopcount := 1 }) 3 drawn).play posix
          ⟨.empty, 0⟩).outcome = .ok s ∧
        ((main { simulatedopcount := 1 } 3 drawn).play posix ⟨.empty, 0⟩).device.data =
          ((main (Options.full { simulatedopcount := 1 }) 3 drawn).play posix
            ⟨.empty, 0⟩).device.data :=
  ⟨by decide +kernel, main_simulated (o := { simulatedopcount := 1 }) (f := ⟨.empty, 0⟩)
    (by constructor <;> decide) (by decide) drawn⟩

end Ocfs2Test.Fsx
