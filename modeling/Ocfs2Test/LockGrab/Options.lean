import Ocfs2Test.LockGrab.Safety
import Ocfs2Test.Lib.CString

/-!
# What lock_grab accepts

Of the lock count and the two water marks each may be given or left out. What is left
out is adjusted to what is given, where an integer can be found for it. Two values are
refused all the same: a low mark of 0, and a low mark that is the default of the high one.
-/

namespace Ocfs2Test.LockGrab

open Lib Lib.Stdio Lib.CString

-- ---------------------------------------------------------------------------
-- getopt
-- ---------------------------------------------------------------------------

def withArg (c : Char) (arg : List Char) : Opt :=
  if c = 'c' then .count (String.ofList arg)
  else if c = 'L' then .minHeld (String.ofList arg)
  else if c = 'H' then .maxHeld (String.ofList arg)
  else .long (String.ofList arg)

def letters : List Char → List Opt × Option Char
  | [] => ([], none)
  | c :: cs =>
    if c = 'h' then (.help :: (letters cs).1, (letters cs).2)
    else if c ∈ ['c', 'L', 'H', '-'] then
      if cs = [] then ([], some c) else ([withArg c cs], none)
    else (.invalid c :: (letters cs).1, (letters cs).2)

/-- The options, and whether there are words that are none. -/
def getopt : Option Char → List (List Char) → List Opt × Bool
  | none, [] => ([], false)
  | some c, [] => ([.missing c], false)
  | some c, w :: ws => (withArg c w :: (getopt none ws).1, (getopt none ws).2)
  | none, w :: ws =>
    if w = ['-', '-'] then ([], !ws.isEmpty)
    else
      match w with
      | '-' :: c :: cs =>
        let l := letters (c :: cs)
        (l.1 ++ (getopt l.2 ws).1, (getopt l.2 ws).2)
      | _ => ((getopt none ws).1, true)

/-- `parse_args` on the words behind the name of the program. -/
def parseArgv (argv : List (List Char)) : Except ArgError Args :=
  parseArgs (getopt none argv).1 (getopt none argv).2

-- ---------------------------------------------------------------------------
-- Arguments
-- ---------------------------------------------------------------------------

inductive Flag
  | count
  | minHeld
  | maxHeld
  deriving DecidableEq

def Flag.letter : Flag → Char
  | .count => 'c'
  | .minHeld => 'L'
  | .maxHeld => 'H'

def Flag.opt (arg : List Char) : Flag → Opt
  | .count => .count (String.ofList arg)
  | .minHeld => .minHeld (String.ofList arg)
  | .maxHeld => .maxHeld (String.ofList arg)

structure Arg where
  flag : Flag
  text : List Char
  value : Int
  joined : Bool
  decimal : Decimal text value
  small : value.natAbs < 2 ^ 30

def Arg.words (a : Arg) : List (List Char) :=
  if a.joined then ['-' :: a.flag.letter :: a.text] else [['-', a.flag.letter], a.text]

structure ArgList where
  args : List Arg
  nodup : (args.map Arg.flag).Nodup

def ArgList.argv (l : ArgList) : List (List Char) := l.args.flatMap Arg.words

def Args.get (a : Args) : Flag → Int
  | .count => a.numLocks
  | .minHeld => a.minHeld
  | .maxHeld => a.maxHeld

/-- The given values can be completed to a lock count and two water marks. -/
def ArgList.Completable (l : ArgList) : Prop :=
  ∃ w : Flag → Int, (∀ a ∈ l.args, w a.flag = a.value) ∧
    0 ≤ w .minHeld ∧ w .minHeld < w .maxHeld ∧ w .maxHeld ≤ w .count

/-- Accepted is what can be completed, and the context keeps what is given. -/
structure ArgList.Meets (l : ArgList) : Prop where
  accepts : (∃ a, parseArgv l.argv = .ok a) ↔ l.Completable
  keeps : ∀ a, parseArgv l.argv = .ok a → 0 ≤ a.minHeld ∧ a.minHeld < a.maxHeld ∧
    a.maxHeld ≤ a.numLocks ∧ ∀ arg ∈ l.args, a.get arg.flag = arg.value

def ArgList.given (l : ArgList) (f : Flag) : Option Int :=
  (l.args.find? fun a => a.flag = f).map Arg.value

/-- A low mark of 0 beside values that leave room for it, or a low mark of 20 with no high
mark and room above it. -/
def ArgList.Slips (l : ArgList) : Prop :=
  (l.given .minHeld = some 0 ∧ (∀ m, l.given .maxHeld = some m → 1 ≤ m) ∧
      ∀ n, l.given .count = some n → 1 ≤ n ∧ ∀ m, l.given .maxHeld = some m → m ≤ n) ∨
    l.given .minHeld = some 20 ∧ l.given .maxHeld = none ∧ ∀ n, l.given .count = some n → 20 < n

-- ---------------------------------------------------------------------------
-- Reading them
-- ---------------------------------------------------------------------------

section
variable {l : ArgList} {args : List Arg} {a b : Args} {arg : Arg} {f : Flag}

theorem getopt_words (args : List Arg) :
    getopt none (args.flatMap Arg.words) = (args.map fun a => a.flag.opt a.text, false) := by
  induction args with
  | nil => rfl
  | cons arg args ih =>
    have hne := arg.decimal.ne_nil
    rw [List.flatMap_cons, Arg.words]
    cases arg.joined with
    | true => cases hflag : arg.flag <;>
        simp [getopt, letters, withArg, Flag.letter, Flag.opt, hflag, hne, ih]
    | false => cases hflag : arg.flag <;>
        simp [getopt, letters, withArg, Flag.letter, Flag.opt, hflag, ih]

/-- What is known of the values given so far. -/
def Args.of (v : Flag → Option Int) : Args where
  numLocks := (v .count).getD 100
  minHeld := (v .minHeld).getD 0
  maxHeld := (v .maxHeld).getD 20
  countSet := (v .count).isSome
  minSet := (v .minHeld).isSome
  maxSet := (v .maxHeld).isSome

theorem applyOpt_of (v : Flag → Option Int) (hzero : arg.value ≠ 0) :
    (Args.of v).applyOpt (arg.flag.opt arg.text) =
      .ok (Args.of (Function.update v arg.flag (some arg.value))) := by
  have hatoi : atoi arg.text = arg.value := arg.decimal.atoi (by have := arg.small; omega)
  cases hflag : arg.flag <;>
    simp [Args.applyOpt, Flag.opt, hatoi, hzero, Args.of, Function.update]

theorem applyOpt_zero (a : Args) (hzero : arg.value = 0) :
    ∃ e, a.applyOpt (arg.flag.opt arg.text) = .error e := by
  have hatoi : atoi arg.text = 0 := hzero ▸ arg.decimal.atoi (by have := arg.small; omega)
  cases hflag : arg.flag <;> simp [Args.applyOpt, Flag.opt, hatoi]

def values (args : List Arg) (v : Flag → Option Int) : Flag → Option Int :=
  args.foldl (fun v arg => Function.update v arg.flag (some arg.value)) v

theorem foldlM_opts (args : List Arg) (v : Flag → Option Int) (h : ∀ arg ∈ args, arg.value ≠ 0) :
    (args.map fun arg => arg.flag.opt arg.text).foldlM Args.applyOpt (Args.of v) =
      .ok (Args.of (values args v)) := by
  induction args generalizing v with
  | nil => rfl
  | cons arg args ih =>
    rw [List.forall_mem_cons] at h
    rw [List.map_cons, List.foldlM_cons, applyOpt_of v h.1]
    exact ih _ h.2

theorem foldlM_opts_zero (v : Flag → Option Int) (h : ∃ arg ∈ args, arg.value = 0) :
    ∃ e, (args.map fun arg => arg.flag.opt arg.text).foldlM Args.applyOpt (Args.of v) =
      .error e := by
  induction args generalizing v with
  | nil =>
    obtain ⟨arg, hmem, -⟩ := h
    cases hmem
  | cons arg args ih =>
    rw [List.map_cons, List.foldlM_cons]
    by_cases hzero : arg.value = 0
    · obtain ⟨e, he⟩ := applyOpt_zero (Args.of v) hzero
      exact ⟨e, by rw [he]; rfl⟩
    · rw [applyOpt_of v hzero]
      obtain ⟨x, hmem, hx⟩ := h
      obtain rfl | hmem := List.mem_cons.mp hmem
      · exact absurd hx hzero
      · exact ih _ ⟨x, hmem, hx⟩

theorem values_eq (hnodup : (args.map Arg.flag).Nodup) (v : Flag → Option Int) (f : Flag) :
    values args v f = ((args.find? fun a => a.flag = f).map Arg.value).or (v f) := by
  induction args generalizing v with
  | nil => rfl
  | cons arg args ih =>
    rw [List.map_cons, List.nodup_cons] at hnodup
    rw [values, List.foldl_cons, ← values, ih hnodup.2, List.find?_cons]
    by_cases hflag : arg.flag = f
    · subst hflag
      have hnone : args.find? (fun a => a.flag = arg.flag) = none := by
        rw [List.find?_eq_none]
        intro a hmem heq
        exact hnodup.1 (List.mem_map.mpr ⟨a, hmem, of_decide_eq_true heq⟩)
      simp [hnone]
    · simp [hflag, Function.update_of_ne (Ne.symm hflag)]

theorem ArgList.values_eq_given (l : ArgList) : values l.args (fun _ => none) = l.given := by
  funext f
  rw [values_eq l.nodup, Option.or_none]
  rfl

theorem ArgList.given_eq_some {n : Int} :
    l.given f = some n ↔ ∃ arg ∈ l.args, arg.flag = f ∧ arg.value = n := by
  rw [given, Option.map_eq_some_iff]
  constructor
  · rintro ⟨arg, hfind, hvalue⟩
    exact ⟨arg, List.mem_of_find?_eq_some hfind,
      by simpa using List.find?_some hfind, hvalue⟩
  · rintro ⟨arg, hmem, rfl, hvalue⟩
    cases hfind : l.args.find? (fun a => a.flag = arg.flag) with
    | none => exact absurd (decide_eq_true rfl) (List.find?_eq_none.mp hfind arg hmem)
    | some a =>
      have hflag : a.flag = arg.flag := by simpa using List.find?_some hfind
      have heq : a = arg :=
        List.inj_on_of_nodup_map l.nodup (List.mem_of_find?_eq_some hfind) hmem hflag
      exact ⟨a, rfl, heq ▸ hvalue⟩

-- ---------------------------------------------------------------------------
-- The checks
-- ---------------------------------------------------------------------------

/-- What the checks of `parse_args` let through. -/
@[mk_iff]
structure Args.Passes (a : Args) : Prop where
  numLocks : 1 ≤ a.numLocks
  minHeld : 0 ≤ a.minHeld
  maxHeld : 1 ≤ a.maxHeld
  bigger : a.cleanup.minHeld < a.cleanup.maxHeld
  fewer : a.cleanup.minHeld < a.cleanup.numLocks
  fits : a.cleanup.maxHeld ≤ a.cleanup.numLocks

theorem parseArgs_eq_ok {opts : List Opt} (hfold : opts.foldlM Args.applyOpt {} = .ok b) :
    parseArgs opts false = .ok a ↔ b.Passes ∧ a = b.cleanup := by
  simp only [parseArgs, hfold, bind, Except.bind, throw, throwThe, MonadExceptOf.throw, pure,
    Except.pure, ge_iff_le, gt_iff_lt]
  constructor
  · intro h
    repeat' split at h
    all_goals cases h
    refine ⟨?_, rfl⟩
    constructor <;> omega
  · rintro ⟨h, rfl⟩
    obtain ⟨h₁, h₂, h₃, h₄, h₅, h₆⟩ := h
    rw [if_neg (by decide), if_neg (by omega), if_neg (by omega), if_neg (by omega),
      if_neg (by omega), if_neg (by omega), if_neg (by omega)]

@[mk_iff]
structure Room (v : Flag → Option Int) : Prop where
  low : ∀ k, v .minHeld = some k → 0 ≤ k
  high : ∀ m, v .maxHeld = some m → 1 ≤ m
  count : ∀ n, v .count = some n → 1 ≤ n
  lowHigh : ∀ k m, v .minHeld = some k → v .maxHeld = some m → k < m
  lowCount : ∀ k n, v .minHeld = some k → v .count = some n → k < n
  highCount : ∀ m n, v .maxHeld = some m → v .count = some n → m ≤ n

theorem ArgList.completable_iff (l : ArgList) : l.Completable ↔ Room l.given := by
  have hgiven (w : Flag → Int) : (∀ a ∈ l.args, w a.flag = a.value) ↔
      ∀ f n, l.given f = some n → w f = n := by
    simp only [ArgList.given_eq_some]
    constructor
    · rintro h f n ⟨arg, hmem, rfl, rfl⟩
      exact h arg hmem
    · intro h arg hmem
      exact h arg.flag arg.value ⟨arg, hmem, rfl, rfl⟩
  simp only [Completable, hgiven]
  constructor
  · rintro ⟨w, hw, hlow, hhigh, hcount⟩
    constructor
    · intro k hk
      rw [← hw _ k hk]
      exact hlow
    · intro m hm
      rw [← hw _ m hm]
      omega
    · intro n hn
      rw [← hw _ n hn]
      omega
    · intro k m hk hm
      rw [← hw _ k hk, ← hw _ m hm]
      exact hhigh
    · intro k n hk hn
      rw [← hw _ k hk, ← hw _ n hn]
      omega
    · intro m n hm hn
      rw [← hw _ m hm, ← hw _ n hn]
      exact hcount
  · intro h
    let low := (l.given .minHeld).getD 0
    let high := (l.given .maxHeld).getD (low + 1)
    refine ⟨fun
      | .count => (l.given .count).getD high
      | .minHeld => low
      | .maxHeld => high, ?_, ?_, ?_, ?_⟩
    · intro f n hf
      cases f <;> simp [low, high, hf]
    · cases hk : l.given .minHeld with
      | none => simp [low, hk]
      | some k => simpa [low, hk] using h.low k hk
    · cases hm : l.given .maxHeld with
      | none => simp [high, hm]
      | some m =>
        cases hk : l.given .minHeld with
        | none => simpa [low, high, hk, hm] using Int.lt_of_lt_of_le Int.zero_lt_one (h.high m hm)
        | some k => simpa [low, high, hk, hm] using h.lowHigh k m hk hm
    · cases hn : l.given .count with
      | none => simp
      | some n =>
        cases hm : l.given .maxHeld with
        | some m => simpa [high, hm] using h.highCount m n hm hn
        | none =>
          cases hk : l.given .minHeld with
          | none => simpa [low, high, hk, hm] using h.count n hn
          | some k => simpa [low, high, hk, hm] using h.lowCount k n hk hn

theorem bmod_succ {k : Int} (hlow : 0 ≤ k) (hsmall : k < 2 ^ 30) :
    (k + 1).bmod (2 ^ 32) = k + 1 := by
  rw [Int.bmod_def]
  omega

/-- The eight combinations of options. With a high mark there is nothing to adjust but the
count; without one a low mark of 20 meets the default, which is left alone. -/
theorem passes_of {v : Flag → Option Int} (hsmall : ∀ k, v .minHeld = some k → k < 2 ^ 30) :
    (Args.of v).Passes ↔ Room v ∧
      ¬ (v .minHeld = some 20 ∧ v .maxHeld = none ∧ ∀ n, v .count = some n → 20 < n) := by
  rw [Args.passes_iff, room_iff]
  cases hmax : v .maxHeld with
  | some m =>
    cases hcount : v .count <;> cases hmin : v .minHeld <;>
      simp only [Args.of, Args.cleanup, hcount, hmin, hmax] <;> grind
  | none =>
    cases hmin : v .minHeld with
    | none => cases hcount : v .count <;>
        simp only [Args.of, Args.cleanup, hcount, hmin, hmax] <;> grind
    | some k =>
      have hsucc : 0 ≤ k → (k + 1).bmod (2 ^ 32) = k + 1 := fun h => bmod_succ h (hsmall k hmin)
      cases hcount : v .count <;>
        simp only [Args.of, Args.cleanup, hcount, hmin, hmax] <;> grind

theorem cleanup_get {v : Flag → Option Int} {n : Int} (h : v f = some n) :
    (Args.of v).cleanup.get f = n := by
  cases f with
  | count => simp only [Args.get, Args.cleanup, Args.of, h]; grind
  | minHeld => rw [Args.get, cleanup_minHeld]; simp [Args.of, h]
  | maxHeld => simp only [Args.get, Args.cleanup, Args.of, h]; grind

-- ---------------------------------------------------------------------------
-- What is accepted
-- ---------------------------------------------------------------------------

theorem ArgList.given_small (l : ArgList) {n : Int} (h : l.given f = some n) : n < 2 ^ 30 := by
  obtain ⟨arg, -, -, rfl⟩ := l.given_eq_some.mp h
  have := arg.small
  omega

theorem parseArgv_argv (l : ArgList) :
    parseArgv l.argv = parseArgs (l.args.map fun arg => arg.flag.opt arg.text) false := by
  rw [parseArgv, ArgList.argv, getopt_words]

theorem parseArgv_zero (hzero : ∃ arg ∈ l.args, arg.value = 0) : parseArgv l.argv ≠ .ok a := by
  obtain ⟨e, he⟩ := foldlM_opts_zero (fun _ => none) hzero
  rw [parseArgv_argv, parseArgs]
  intro h
  have hfold : (l.args.map fun arg => arg.flag.opt arg.text).foldlM Args.applyOpt {} = .error e :=
    he
  rw [hfold] at h
  cases h

theorem parseArgv_eq_ok (hzero : ∀ arg ∈ l.args, arg.value ≠ 0) :
    parseArgv l.argv = .ok a ↔ (Args.of l.given).Passes ∧ a = (Args.of l.given).cleanup := by
  rw [parseArgv_argv]
  refine parseArgs_eq_ok ?_
  rw [← l.values_eq_given]
  exact foldlM_opts l.args (fun _ => none) hzero

theorem ArgList.Slips.room (h : l.Slips) : Room l.given := by
  obtain ⟨hlow, hhigh, hcount⟩ | ⟨hlow, hhigh, hcount⟩ := h
  · constructor <;> grind
  · constructor <;> grind

theorem ArgList.keeps (h : parseArgv l.argv = .ok a) : 0 ≤ a.minHeld ∧ a.minHeld < a.maxHeld ∧
    a.maxHeld ≤ a.numLocks ∧ ∀ arg ∈ l.args, a.get arg.flag = arg.value := by
  have hok : a.Ok := parseArgs_ok (parseArgv_argv l ▸ h)
  refine ⟨hok.minHeld, hok.maxHeld, hok.numLocks, ?_⟩
  intro arg hmem
  have hzero : ∀ arg ∈ l.args, arg.value ≠ 0 := by
    intro x hx hvalue
    exact parseArgv_zero ⟨x, hx, hvalue⟩ h
  obtain ⟨-, rfl⟩ := (parseArgv_eq_ok hzero).mp h
  exact cleanup_get (l.given_eq_some.mpr ⟨arg, hmem, rfl, rfl⟩)

theorem parseArgs_meets_iff (l : ArgList) : l.Meets ↔ ¬ l.Slips := by
  have haccepts : l.Meets ↔ ((∃ a, parseArgv l.argv = .ok a) ↔ l.Completable) :=
    ⟨ArgList.Meets.accepts, fun h => ⟨h, fun _ => ArgList.keeps⟩⟩
  rw [haccepts, l.completable_iff]
  by_cases hzero : ∃ arg ∈ l.args, arg.value = 0
  · have hnone : ¬ ∃ a, parseArgv l.argv = .ok a := fun ⟨a, h⟩ => parseArgv_zero hzero h
    have hslips : Room l.given → l.Slips := by
      intro h
      obtain ⟨arg, hmem, hvalue⟩ := hzero
      have hgiven : l.given arg.flag = some 0 := l.given_eq_some.mpr ⟨arg, hmem, rfl, hvalue⟩
      cases hflag : arg.flag with
      | count => exact absurd (h.count 0 (hflag ▸ hgiven)) (by decide)
      | maxHeld => exact absurd (h.high 0 (hflag ▸ hgiven)) (by decide)
      | minHeld =>
        refine .inl ⟨hflag ▸ hgiven, h.high, ?_⟩
        intro n hn
        exact ⟨h.count n hn, fun m hm => h.highCount m n hm hn⟩
    constructor
    · intro h hs
      exact hnone (h.mpr hs.room)
    · intro h
      exact ⟨fun hs => absurd hs hnone, fun hroom => absurd (hslips hroom) h⟩
  · have hne : ∀ arg ∈ l.args, arg.value ≠ 0 := fun arg hmem h => hzero ⟨arg, hmem, h⟩
    have haccept : (∃ a, parseArgv l.argv = .ok a) ↔ Room l.given ∧ ¬ l.Slips := by
      simp only [parseArgv_eq_ok hne, exists_and_left, exists_eq, and_true]
      rw [passes_of fun k => l.given_small]
      have hmin : l.given .minHeld ≠ some 0 := by
        intro h
        obtain ⟨arg, hmem, -, hvalue⟩ := l.given_eq_some.mp h
        exact hne arg hmem hvalue
      simp only [ArgList.Slips, hmin, false_and, false_or]
    rw [haccept]
    constructor
    · intro h hs
      exact (h.mpr hs.room).2 hs
    · intro h
      exact and_iff_left h

end

/-- `lock_grab -L 20`. -/
theorem parseArgs_minHeld_default : ¬ ∀ l : ArgList, l.Meets := by
  intro h
  let arg : Arg := ⟨.minHeld, ['2', '0'], 20, false, .plain (by decide) (by simp), by decide⟩
  have hmeets : ArgList.Meets ⟨[arg], by decide⟩ := h _
  have hcompletable : ArgList.Completable ⟨[arg], by decide⟩ := by
    refine ⟨fun | .count => 100 | .minHeld => 20 | .maxHeld => 21, ?_, by decide, by decide,
      by decide⟩
    intro a hmem
    rw [List.mem_singleton.mp hmem]
  obtain ⟨a, ha⟩ := hmeets.accepts.mpr hcompletable
  have herr : parseArgv [['-', 'L'], ['2', '0']] =
      .error (.einval "Max held must be bigger than min held") := by
    rfl
  rw [show ArgList.argv ⟨[arg], by decide⟩ = [['-', 'L'], ['2', '0']] from rfl, herr] at ha
  cases ha

end Ocfs2Test.LockGrab
