import Ocfs2Test.Dirs.Table
import Ocfs2Test.Lib.Transition

/-!
# The grow test of multi_index_dir

Every rank but the first fills one shared table, each with as many files as the option
says. `parse_opts` compares that number with the size of the table, so with two ranks the
two dots are one slot or two too many, and with more ranks their files are.
-/

namespace Ocfs2Test.Dirs.GrowTest

open Lib Lib.Stdio

-- ---------------------------------------------------------------------------
-- parse_opts
-- ---------------------------------------------------------------------------

def MAX_DIRENTS : Nat := 20000

def GROW_TEST : BitVec 32 := 0x01
def RENM_TEST : BitVec 32 := 0x02
def READ_TEST : BitVec 32 := 0x04
def STRS_TEST : BitVec 32 := 0x08
def ULNK_TEST : BitVec 32 := 0x10
def FLUP_TEST : BitVec 32 := 0x20

/-- What `getopt` hands out for `"I:i:w:W:N:sSgGrRmMuUfFn:"`, in either case. -/
inductive Opt
  | i (optarg : List Char)
  | n (optarg : List Char)
  | w (optarg : List Char)
  | s
  | g
  | r
  | m
  | u
  | f
  | other

structure Options where
  iteration : Int := 1
  operatedEntries : UInt32 := 20
  workPlace : List Char := []
  testFlags : BitVec 32 := 0
  deriving DecidableEq

def Options.apply (o : Options) : Opt → Options
  | .i optarg => { o with iteration := (atol optarg).bmod (2 ^ 32) }
  | .n optarg => { o with operatedEntries := UInt32.ofInt (atol optarg) }
  | .w optarg => { o with workPlace := optarg }
  | .s => { o with testFlags := STRS_TEST }
  | .g => { o with testFlags := o.testFlags ||| GROW_TEST }
  | .r => { o with testFlags := o.testFlags ||| READ_TEST }
  | .m => { o with testFlags := o.testFlags ||| RENM_TEST }
  | .u => { o with testFlags := o.testFlags ||| ULNK_TEST }
  | .f => { o with testFlags := o.testFlags ||| FLUP_TEST }
  | .other => o

/-- `parse_opts`; without a work place it returns `EINVAL`. -/
def parseOpts (opts : List Opt) : Option Options :=
  let o := opts.foldl Options.apply {}
  if o.workPlace = [] then none
  else if MAX_DIRENTS < o.operatedEntries.toNat then some { o with testFlags := STRS_TEST }
  else some o

def Options.Grows (o : Options) : Prop := o.testFlags &&& GROW_TEST ≠ 0

instance (o : Options) : Decidable o.Grows := inferInstanceAs (Decidable (_ ≠ _))

-- ---------------------------------------------------------------------------
-- grow_test
-- ---------------------------------------------------------------------------

/-- The shared table: `*num_dirents`, and what has been stored in it, slot by slot. -/
structure Shared where
  numDirents : Nat
  stored : List (Nat × Dirent)

def createAndPrepDir : Shared where
  numDirents := 2
  stored := [(0, dot), (1, dotDot)]

def createFile (filename : List Char) (t : Shared) : Shared where
  numDirents := t.numDirents + 1
  stored := t.stored ++ [(t.numDirents, ⟨.reg, filename.length, 0, filename⟩)]

/-- `"%s-%s-%d-%d"`. -/
def fileName (hostname : List Char) (rank i : Nat) : List Char :=
  "filename".toList ++ '-' :: hostname ++ '-' :: printNat rank ++ '-' :: printNat i

/-- The table, and how far each rank is in the loop of `create_files`. -/
structure State (size : Nat) where
  table : Shared
  i : Fin size → Nat

/-- `num` of `create_files`, an `int`; rank 0 creates nothing. -/
def num (o : Options) (rank : Nat) : Int :=
  if rank = 0 then 0 else (o.operatedEntries.toNat : Int).bmod (2 ^ 32)

/-- The ranks between the second and the third barrier, one call of `create_file` after
the other. -/
def growTest (o : Options) (size : Nat) (hostname : Nat → List Char) :
    ProcSystem (Fin size) (State size) where
  Init s := s = ⟨createAndPrepDir, fun _ => 0⟩
  next s rank :=
    if (s.i rank : Int) < num o rank then
      some ⟨createFile (fileName (hostname rank) rank (s.i rank)) s.table,
        Function.update s.i rank (s.i rank + 1)⟩
    else none

/-- No slot outside the table is stored to, in whatever order the ranks go. -/
def Bounded (o : Options) (size : Nat) (hostname : Nat → List Char) : Prop :=
  ∀ s, (growTest o size hostname).system.Reachable s → ∀ e ∈ s.table.stored, e.1 < MAX_DIRENTS

-- ---------------------------------------------------------------------------
-- The check of the options
-- ---------------------------------------------------------------------------

section
variable {opts : List Opt} {o : Options} {size : Nat} {hostname : Nat → List Char}

/-- With the grow test selected one rank's files are no more than the table has slots. -/
theorem operatedEntries_le (h : parseOpts opts = some o) (hgrow : o.Grows) :
    o.operatedEntries.toNat ≤ MAX_DIRENTS := by
  rw [parseOpts] at h
  split at h
  · cases h
  · split at h
    · cases h
      exact absurd (show STRS_TEST &&& GROW_TEST = 0 by decide) hgrow
    · next hle =>
      cases h
      exact Nat.not_lt.mp hle

def share (o : Options) (rank : Nat) : Nat := if rank = 0 then 0 else o.operatedEntries.toNat

theorem num_eq (hle : o.operatedEntries.toNat ≤ MAX_DIRENTS) (rank : Nat) :
    num o rank = share o rank := by
  have hmax : MAX_DIRENTS = 20000 := rfl
  rw [num, share, Int.bmod_def]
  split <;> omega

theorem sum_share (o : Options) (size : Nat) :
    ∑ rank : Fin size, share o rank = (size - 1) * o.operatedEntries.toNat := by
  cases size with
  | zero => rw [Finset.univ_eq_empty, Finset.sum_empty, Nat.zero_sub, Nat.zero_mul]
  | succ k =>
    rw [Fin.sum_univ_succ]
    simp [share]

-- ---------------------------------------------------------------------------
-- Runs
-- ---------------------------------------------------------------------------

/-- The table holds the dots and the files created so far. -/
structure Inv (o : Options) (s : State size) : Prop where
  numDirents : s.table.numDirents = 2 + ∑ rank, s.i rank
  stored : ∀ e ∈ s.table.stored, e.1 < s.table.numDirents
  i_le : ∀ rank, s.i rank ≤ share o rank

variable {s s' : State size}

theorem next_eq_some (hle : o.operatedEntries.toNat ≤ MAX_DIRENTS) {rank : Fin size} :
    (growTest o size hostname).next s rank = some s' ↔ s.i rank < share o rank ∧
      s' = ⟨createFile (fileName (hostname rank) rank (s.i rank)) s.table,
        Function.update s.i rank (s.i rank + 1)⟩ := by
  rw [growTest]
  simp only [num_eq hle, Nat.cast_lt, Option.ite_none_right_eq_some, Option.some.injEq,
    eq_comm (a := s')]

theorem sum_succ (i : Fin size → Nat) (rank : Fin size) :
    ∑ q, Function.update i rank (i rank + 1) q = ∑ q, i q + 1 := by
  have := sum_update i id rank (i rank + 1)
  simp only [id] at this
  omega

theorem inv_step (hle : o.operatedEntries.toNat ≤ MAX_DIRENTS) (h : Inv o s)
    (hstep : (growTest o size hostname).system.Step s s') : Inv o s' := by
  obtain ⟨rank, hnext⟩ := hstep
  obtain ⟨hlt, rfl⟩ := (next_eq_some hle).mp hnext
  obtain ⟨hnum, hstored, hi⟩ := h
  refine ⟨?_, ?_, ?_⟩
  · rw [sum_succ]
    exact congrArg (· + 1) hnum
  · intro e he
    obtain he | he := List.mem_append.mp he
    · exact Nat.lt_succ_of_lt (hstored e he)
    · rw [List.mem_singleton.mp he]
      exact Nat.lt_succ_self _
  · intro q
    dsimp only
    by_cases hq : q = rank
    · subst hq
      rw [Function.update_self]
      exact hlt
    · rw [Function.update_of_ne hq]
      exact hi q

theorem reachable_inv (hle : o.operatedEntries.toNat ≤ MAX_DIRENTS)
    (h : (growTest o size hostname).system.Reachable s) : Inv o s := by
  refine h.invariant ?_ fun _ _ _ hinv hstep => inv_step hle hinv hstep
  rintro s rfl
  refine ⟨by simp [createAndPrepDir], ?_, fun _ => Nat.zero_le _⟩
  intro e he
  simp only [createAndPrepDir, List.mem_cons, List.not_mem_nil, or_false] at he ⊢
  obtain rfl | rfl := he
  · exact Nat.zero_lt_two
  · exact Nat.one_lt_two

theorem exists_step (hle : o.operatedEntries.toNat ≤ MAX_DIRENTS) (h : Inv o s)
    (hlt : ∑ rank, s.i rank < (size - 1) * o.operatedEntries.toNat) :
    ∃ s', (growTest o size hostname).system.Step s s' ∧
      ∑ rank, s'.i rank = ∑ rank, s.i rank + 1 ∧
      ∃ e ∈ s'.table.stored, e.1 = 2 + ∑ rank, s.i rank := by
  rw [← sum_share] at hlt
  obtain ⟨rank, -, hrank⟩ := Finset.exists_lt_of_sum_lt hlt
  refine ⟨_, ⟨rank, (next_eq_some hle).mpr ⟨hrank, rfl⟩⟩, sum_succ s.i rank, _,
    List.mem_append_right _ (List.mem_singleton.mpr rfl), h.numDirents⟩

theorem exists_reachable (hostname : Nat → List Char)
    (hle : o.operatedEntries.toNat ≤ MAX_DIRENTS) {k : Nat}
    (hk : k ≤ (size - 1) * o.operatedEntries.toNat) :
    ∃ s, (growTest o size hostname).system.Reachable s ∧ ∑ rank, s.i rank = k := by
  induction k with
  | zero => exact ⟨⟨createAndPrepDir, fun _ => 0⟩, .init rfl, Finset.sum_const_zero⟩
  | succ k ih =>
    obtain ⟨s, hs, hsum⟩ := ih (Nat.le_of_succ_le hk)
    obtain ⟨s', hstep, hsum', -⟩ := exists_step hle (reachable_inv hle hs) (by omega)
    exact ⟨s', hs.step hstep, by rw [hsum', hsum]⟩

theorem bounded_iff (hle : o.operatedEntries.toNat ≤ MAX_DIRENTS) (size : Nat)
    (hostname : Nat → List Char) :
    Bounded o size hostname ↔ 2 + (size - 1) * o.operatedEntries.toNat ≤ MAX_DIRENTS := by
  constructor
  · intro h
    by_contra hgt
    have hmax : MAX_DIRENTS = 20000 := rfl
    obtain ⟨s, hs, hsum⟩ :=
      exists_reachable hostname hle (show 19998 ≤ (size - 1) * _ by omega)
    obtain ⟨s', hstep, -, e, he, heq⟩ := exists_step hle (reachable_inv hle hs) (by omega)
    have := h s' (hs.step hstep) e he
    omega
  · intro h s hs e he
    have hinv := reachable_inv hle hs
    have hsum := Finset.sum_le_sum fun rank (_ : rank ∈ Finset.univ) => hinv.i_le rank
    rw [sum_share] at hsum
    have := hinv.stored e he
    have := hinv.numDirents
    omega

/-- The check bounds the files of one rank; all files and the two dots have to fit. -/
theorem growTest_bounded_iff (h : parseOpts opts = some o) (hgrow : o.Grows) (size : Nat)
    (hostname : Nat → List Char) :
    Bounded o size hostname ↔ 2 + (size - 1) * o.operatedEntries.toNat ≤ MAX_DIRENTS :=
  bounded_iff (operatedEntries_le h hgrow) size hostname

theorem growTest_bounded_twenty :
    Bounded { workPlace := ['/'], testFlags := GROW_TEST } 3 (fun _ => []) ↔
      2 + (3 - 1) * 20 ≤ MAX_DIRENTS :=
  growTest_bounded_iff (show parseOpts [.w ['/'], .g] = some _ from rfl) (by decide) 3 fun _ => []

end

/-- `multi_index_dir -w / -g -n 20000` on two ranks. -/
theorem growTest_two_ranks : ∃ o, parseOpts [.w ['/'], .g, .n "20000".toList] = some o ∧ o.Grows ∧
    ¬ Bounded o 2 fun _ => [] := by
  refine ⟨{ operatedEntries := 20000, workPlace := ['/'], testFlags := GROW_TEST }, ?_,
    by decide, ?_⟩
  · decide
  · rw [bounded_iff (by decide)]
    decide

end Ocfs2Test.Dirs.GrowTest
