import Ocfs2Test.Lib.Stdio

/-!
# The options of verify_file

Five options, each with a variable of its own, except that `-f` also sets what `-o` is
for. The log name is right in every order in which `-o` comes behind `-f`.
-/

namespace Ocfs2Test.Chunks.VerifyFile

open Lib.Stdio

/-- What `getopt` hands out for `"f:o:l:hvk:"`; `unknown` is a question mark. -/
inductive Opt
  | f (optarg : List Char)
  | o (optarg : List Char)
  | l (optarg : List Char)
  | k (optarg : List Char)
  | v
  | h
  | unknown
  deriving DecidableEq

def Opt.letter : Opt → Char
  | f _ => 'f'
  | o _ => 'o'
  | l _ => 'l'
  | k _ => 'k'
  | v => 'v'
  | h => 'h'
  | unknown => '?'

def withArg (c : Char) (optarg : List Char) : Opt :=
  if c = 'f' then .f optarg
  else if c = 'o' then .o optarg
  else if c = 'l' then .l optarg
  else .k optarg

/-- The letters of one word, and the option whose argument is the next word. -/
def letters : List Char → List Opt × Option Char
  | [] => ([], none)
  | c :: cs =>
    if c = 'h' then (.h :: (letters cs).1, (letters cs).2)
    else if c = 'v' then (.v :: (letters cs).1, (letters cs).2)
    else if c ∈ ['f', 'o', 'l', 'k'] then
      if cs = [] then ([], some c) else ([withArg c cs], none)
    else (.unknown :: (letters cs).1, (letters cs).2)

/-- Words that are no options are left for the end, where nobody looks at them. -/
def getopt : Option Char → List (List Char) → List Opt
  | none, [] => []
  | some _, [] => [.unknown]
  | some c, w :: ws => withArg c w :: getopt none ws
  | none, w :: ws =>
    if w = ['-', '-'] then []
    else
      match w with
      | '-' :: c :: cs => (letters (c :: cs)).1 ++ getopt (letters (c :: cs)).2 ws
      | _ => getopt none ws

-- ---------------------------------------------------------------------------
-- parse_opts and setup
-- ---------------------------------------------------------------------------

structure Globals where
  filename : Option (List Char) := none
  logname : Option (List Char) := none
  filesize : UInt64 := 0
  chunksize : UInt64 := 0
  verbose : Nat := 0

/-- The cases of the switch that go on with the loop. -/
def Globals.apply (g : Globals) : Opt → Globals
  | .l optarg => { g with filesize := UInt64.ofInt (atol optarg) }
  | .k optarg => { g with chunksize := UInt64.ofInt (atol optarg) }
  -- no break: the case of `-o` follows
  | .f optarg => { g with filename := some optarg, logname := some optarg }
  | .o optarg => { g with logname := some optarg }
  | .v => { g with verbose := 1 }
  | .h | .unknown => g

inductive Parsed
  | returned (ret : Int) (g : Globals)
  | exited

def parseOpts : List Opt → Globals → Parsed
  | [], g => .returned 0 g
  | .h :: _, _ => .exited
  | .unknown :: _, g => .returned (-1) g
  | opt :: opts, g => parseOpts opts (g.apply opt)

def setup (openLogfile : List Char → Int) (argv : List (List Char)) : Option (Int × Globals) :=
  match parseOpts (getopt none argv) {} with
  | .returned 0 g =>
    match g.filename, g.logname with
    | some _, some logname =>
      if g.filesize = 0 ∨ g.chunksize = 0 then none else some (openLogfile logname, g)
    | _, _ => none
  | _ => none

-- ---------------------------------------------------------------------------
-- Argument lists
-- ---------------------------------------------------------------------------

/-- Each of the five options at most once, and no other. -/
structure ArgList where
  argv : List (List Char)
  nodup : ((getopt none argv).map Opt.letter).Nodup
  known : ∀ opt ∈ getopt none argv, opt ≠ .h ∧ opt ≠ .unknown

def ArgList.opts (l : ArgList) : List Opt := getopt none l.argv

/-- Every variable has the value that its own option gives, or else its default. -/
structure Gives (opts : List Opt) (g : Globals) : Prop where
  filename : ∀ optarg, g.filename = some optarg ↔ .f optarg ∈ opts
  logname : ∀ optarg, g.logname = some optarg ↔ .o optarg ∈ opts
  filesize : ∀ optarg, .l optarg ∈ opts → g.filesize = UInt64.ofInt (atol optarg)
  noFilesize : (∀ optarg, .l optarg ∉ opts) → g.filesize = 0
  chunksize : ∀ optarg, .k optarg ∈ opts → g.chunksize = UInt64.ofInt (atol optarg)
  noChunksize : (∀ optarg, .k optarg ∉ opts) → g.chunksize = 0
  verbose : .v ∈ opts → g.verbose = 1
  quiet : .v ∉ opts → g.verbose = 0

/-- One of the mandatory options is not given. -/
def Lacks (opts : List Opt) : Prop :=
  (∀ optarg, .f optarg ∉ opts) ∨ (∀ optarg, .o optarg ∉ opts) ∨ (∀ optarg, .l optarg ∉ opts) ∨
    ∀ optarg, .k optarg ∉ opts

/-- The options of `l`, in the order of `l'`, are kept, and `setup` turns them down when
one is missing. -/
structure Keeps (l l' : ArgList) : Prop where
  parses : ∃ g, parseOpts l'.opts {} = .returned 0 g ∧ Gives l.opts g
  rejects : Lacks l.opts → ∀ openLogfile, setup openLogfile l'.argv = none

/-- Behind `-f` comes an `-o`, or before it one with the same name. -/
def LogStands (opts : List Opt) : Prop :=
  ∀ xs optarg ys, opts = xs ++ .f optarg :: ys → (∃ log, .o log ∈ ys) ∨ .o optarg ∈ xs

-- ---------------------------------------------------------------------------
-- One variable at a time
-- ---------------------------------------------------------------------------

section
variable {opts xs ys : List Opt} {opt : Opt} {g : Globals}

theorem parseOpts_eq (h : ∀ opt ∈ opts, opt ≠ .h ∧ opt ≠ .unknown) (g : Globals) :
    parseOpts opts g = .returned 0 (opts.foldl Globals.apply g) := by
  induction opts generalizing g with
  | nil => rfl
  | cons opt opts ih =>
    rw [List.forall_mem_cons] at h
    cases opt with
    | h => exact absurd rfl h.1.1
    | unknown => exact absurd rfl h.1.2
    | _ => exact ih h.2 _

variable {α : Type} {get : Globals → α} {writes : Opt → Option α}

theorem foldl_unwritten (happly : ∀ g opt, get (g.apply opt) = (writes opt).getD (get g))
    (hnone : ∀ opt ∈ opts, writes opt = none) : get (opts.foldl Globals.apply g) = get g := by
  induction opts generalizing g with
  | nil => rfl
  | cons opt opts ih =>
    rw [List.forall_mem_cons] at hnone
    rw [List.foldl_cons, ih hnone.2, happly, hnone.1, Option.getD_none]

theorem foldl_written (happly : ∀ g opt, get (g.apply opt) = (writes opt).getD (get g))
    (hopt : writes opt = some a) (hnone : ∀ opt ∈ ys, writes opt = none) :
    get ((xs ++ opt :: ys).foldl Globals.apply g) = a := by
  rw [List.foldl_append, List.foldl_cons, foldl_unwritten happly hnone, happly, hopt,
    Option.getD_some]

theorem letter_ne_of_nodup (hnodup : ((xs ++ opt :: ys).map Opt.letter).Nodup) :
    ∀ opt' ∈ ys, opt'.letter ≠ opt.letter := by
  rw [List.map_append, List.map_cons] at hnodup
  have htail := (List.nodup_cons.mp (List.nodup_append.mp hnodup).2.1).1
  intro opt' hmem heq
  exact htail (heq ▸ List.mem_map_of_mem hmem)

theorem foldl_given (happly : ∀ g opt, get (g.apply opt) = (writes opt).getD (get g))
    (hnodup : (opts.map Opt.letter).Nodup) (hmem : opt ∈ opts) (hopt : writes opt = some a)
    (hletter : ∀ opt' ∈ opts, opt'.letter ≠ opt.letter → writes opt' = none) :
    get (opts.foldl Globals.apply g) = a := by
  obtain ⟨xs, ys, rfl⟩ := List.append_of_mem hmem
  refine foldl_written happly hopt fun opt' h => ?_
  exact hletter opt' (List.mem_append_right xs (List.mem_cons_of_mem _ h))
    (letter_ne_of_nodup hnodup opt' h)

theorem eq_of_letter (hnodup : (opts.map Opt.letter).Nodup) (hopt : opt ∈ opts)
    (hopt' : opt' ∈ opts) (h : opt.letter = opt'.letter) : opt = opt' :=
  List.inj_on_of_nodup_map hnodup hopt hopt' h

def writesFilename : Opt → Option (Option (List Char))
  | .f optarg => some (some optarg)
  | _ => none

def writesLogname : Opt → Option (Option (List Char))
  | .f optarg | .o optarg => some (some optarg)
  | _ => none

def writesFilesize : Opt → Option UInt64
  | .l optarg => some (UInt64.ofInt (atol optarg))
  | _ => none

def writesChunksize : Opt → Option UInt64
  | .k optarg => some (UInt64.ofInt (atol optarg))
  | _ => none

def writesVerbose : Opt → Option Nat
  | .v => some 1
  | _ => none

theorem apply_filename (g : Globals) (opt : Opt) :
    (g.apply opt).filename = (writesFilename opt).getD g.filename := by
  cases opt <;> rfl

theorem apply_logname (g : Globals) (opt : Opt) :
    (g.apply opt).logname = (writesLogname opt).getD g.logname := by
  cases opt <;> rfl

theorem apply_filesize (g : Globals) (opt : Opt) :
    (g.apply opt).filesize = (writesFilesize opt).getD g.filesize := by
  cases opt <;> rfl

theorem apply_chunksize (g : Globals) (opt : Opt) :
    (g.apply opt).chunksize = (writesChunksize opt).getD g.chunksize := by
  cases opt <;> rfl

theorem apply_verbose (g : Globals) (opt : Opt) :
    (g.apply opt).verbose = (writesVerbose opt).getD g.verbose := by
  cases opt <;> rfl

end

-- ---------------------------------------------------------------------------
-- All variables
-- ---------------------------------------------------------------------------

section
variable {opts opts' : List Opt} {g : Globals}

theorem eq_some_iff_given {x : Option (List Char)} {P : List Char → Prop}
    (hgiven : ∀ optarg, P optarg → x = some optarg) (hnone : (∀ optarg, ¬ P optarg) → x = none)
    (optarg : List Char) : x = some optarg ↔ P optarg := by
  refine ⟨fun h => ?_, hgiven optarg⟩
  by_contra hnot
  have hnothing (given : List Char) : ¬ P given := by
    intro hP
    rw [hgiven given hP, Option.some.injEq] at h
    exact hnot (h ▸ hP)
  rw [hnone hnothing] at h
  cases h

theorem filename_iff (hnodup : (opts.map Opt.letter).Nodup) (optarg : List Char) :
    (opts.foldl Globals.apply {}).filename = some optarg ↔ .f optarg ∈ opts := by
  refine eq_some_iff_given (P := fun optarg => .f optarg ∈ opts) (fun given hmem => ?_)
    (fun hnone => ?_) optarg
  · refine foldl_given apply_filename hnodup hmem rfl fun opt _ hletter => ?_
    cases opt <;> first | rfl | exact absurd rfl hletter
  · refine foldl_unwritten apply_filename fun opt hmem => ?_
    cases opt <;> first | rfl | exact absurd hmem (hnone _)

theorem logname_iff_of_log {log : List Char} (hnodup : (opts.map Opt.letter).Nodup)
    (hmem : .o log ∈ opts) (hname : (opts.foldl Globals.apply {}).logname = some log)
    (optarg : List Char) :
    (opts.foldl Globals.apply {}).logname = some optarg ↔ .o optarg ∈ opts := by
  refine eq_some_iff_given (P := fun optarg => .o optarg ∈ opts) (fun given hgiven => ?_)
    (fun hnone => absurd hmem (hnone log)) optarg
  rw [hname, Opt.o.inj (eq_of_letter hnodup hmem hgiven rfl)]

theorem logname_iff_of_no_file (hnodup : (opts.map Opt.letter).Nodup)
    (hf : ∀ optarg, .f optarg ∉ opts) (optarg : List Char) :
    (opts.foldl Globals.apply {}).logname = some optarg ↔ .o optarg ∈ opts := by
  refine eq_some_iff_given (P := fun optarg => .o optarg ∈ opts) (fun log hlog => ?_)
    (fun hnone => ?_) optarg
  · refine foldl_given apply_logname hnodup hlog rfl fun opt hmem hletter => ?_
    cases opt with
    | f given => exact absurd hmem (hf given)
    | o given => exact absurd rfl hletter
    | _ => rfl
  · refine foldl_unwritten apply_logname fun opt hmem => ?_
    cases opt with
    | f given => exact absurd hmem (hf given)
    | o given => exact absurd hmem (hnone given)
    | _ => rfl

theorem logname_split {xs ys : List Opt} {file : List Char}
    (hnodup : ((xs ++ .f file :: ys).map Opt.letter).Nodup) :
    (∀ optarg, ((xs ++ .f file :: ys).foldl Globals.apply {}).logname = some optarg ↔
        .o optarg ∈ xs ++ .f file :: ys) ↔
      (∃ log, .o log ∈ ys) ∨ .o file ∈ xs := by
  have hnofile (opt : Opt) (hmem : opt ∈ ys) : ∀ given, opt ≠ .f given := by
    rintro given rfl
    exact letter_ne_of_nodup hnodup _ hmem rfl
  by_cases ho : ∃ log, .o log ∈ ys
  · obtain ⟨log, hlog⟩ := ho
    have hmem : .o log ∈ xs ++ .f file :: ys :=
      List.mem_append_right xs (List.mem_cons_of_mem _ hlog)
    refine iff_of_true (logname_iff_of_log hnodup hmem ?_) (.inl ⟨log, hlog⟩)
    obtain ⟨ys₁, ys₂, rfl⟩ := List.append_of_mem hlog
    have hsplit : xs ++ .f file :: (ys₁ ++ .o log :: ys₂) =
        (xs ++ .f file :: ys₁) ++ .o log :: ys₂ := by simp
    rw [hsplit] at hnodup ⊢
    refine foldl_written apply_logname rfl ?_
    intro opt hmem
    have hletter := letter_ne_of_nodup hnodup opt hmem
    cases opt with
    | f given =>
      exact absurd rfl (hnofile _ (List.mem_append_right ys₁ (List.mem_cons_of_mem _ hmem)) given)
    | o given => exact absurd rfl hletter
    | _ => rfl
  · have hname : ((xs ++ .f file :: ys).foldl Globals.apply {}).logname = some file := by
      refine foldl_written apply_logname rfl ?_
      intro opt hmem
      cases opt with
      | f given => exact absurd rfl (hnofile _ hmem given)
      | o given => exact absurd ⟨given, hmem⟩ ho
      | _ => rfl
    have hbefore (log : List Char) : .o log ∈ xs ++ .f file :: ys ↔ .o log ∈ xs := by
      have hnot : .o log ∉ ys := fun hmem => ho ⟨log, hmem⟩
      simp [hnot]
    constructor
    · intro h
      exact .inr ((hbefore file).mp ((h file).mp hname))
    · rintro (hlog | hfile)
      · exact absurd hlog ho
      · exact logname_iff_of_log hnodup ((hbefore file).mpr hfile) hname

theorem logname_iff (hnodup : (opts.map Opt.letter).Nodup) :
    (∀ optarg, (opts.foldl Globals.apply {}).logname = some optarg ↔ .o optarg ∈ opts) ↔
      LogStands opts := by
  constructor
  · rintro h xs file ys rfl
    exact (logname_split hnodup).mp h
  · intro h
    by_cases hf : ∃ file, .f file ∈ opts
    · obtain ⟨file, hfile⟩ := hf
      obtain ⟨xs, ys, rfl⟩ := List.append_of_mem hfile
      exact (logname_split hnodup).mpr (h xs file ys rfl)
    · exact logname_iff_of_no_file hnodup fun file hmem => hf ⟨file, hmem⟩

theorem gives_iff (hnodup : (opts.map Opt.letter).Nodup) :
    Gives opts (opts.foldl Globals.apply {}) ↔ LogStands opts := by
  constructor
  · intro h
    exact (logname_iff hnodup).mp h.logname
  · intro h
    refine ⟨filename_iff hnodup, (logname_iff hnodup).mpr h, ?_, ?_, ?_, ?_, ?_, ?_⟩
    · intro optarg hmem
      refine foldl_given apply_filesize hnodup hmem rfl fun opt _ hletter => ?_
      cases opt <;> first | rfl | exact absurd rfl hletter
    · intro hnone
      refine foldl_unwritten apply_filesize fun opt hmem => ?_
      cases opt <;> first | rfl | exact absurd hmem (hnone _)
    · intro optarg hmem
      refine foldl_given apply_chunksize hnodup hmem rfl fun opt _ hletter => ?_
      cases opt <;> first | rfl | exact absurd rfl hletter
    · intro hnone
      refine foldl_unwritten apply_chunksize fun opt hmem => ?_
      cases opt <;> first | rfl | exact absurd hmem (hnone _)
    · intro hmem
      refine foldl_given apply_verbose hnodup hmem rfl fun opt _ hletter => ?_
      cases opt <;> first | rfl | exact absurd rfl hletter
    · intro hnone
      refine foldl_unwritten apply_verbose fun opt hmem => ?_
      cases opt <;> first | rfl | exact absurd hmem hnone

theorem Gives.perm (hperm : opts'.Perm opts) (h : Gives opts' g) : Gives opts g where
  filename optarg := (h.filename optarg).trans hperm.mem_iff
  logname optarg := (h.logname optarg).trans hperm.mem_iff
  filesize optarg hmem := h.filesize optarg (hperm.mem_iff.mpr hmem)
  noFilesize hnone := h.noFilesize fun optarg hmem => hnone optarg (hperm.mem_iff.mp hmem)
  chunksize optarg hmem := h.chunksize optarg (hperm.mem_iff.mpr hmem)
  noChunksize hnone := h.noChunksize fun optarg hmem => hnone optarg (hperm.mem_iff.mp hmem)
  verbose hmem := h.verbose (hperm.mem_iff.mpr hmem)
  quiet hnone := h.quiet fun hmem => hnone (hperm.mem_iff.mp hmem)

theorem setup_of_lacks {argv : List (List Char)} (openLogfile : List Char → Int)
    (hparse : parseOpts (getopt none argv) {} = .returned 0 g) (h : Gives opts g)
    (hlacks : Lacks opts) : setup openLogfile argv = none := by
  have hnone (x : Option (List Char)) (hx : ∀ optarg, x ≠ some optarg) : x = none :=
    Option.eq_none_iff_forall_ne_some.mpr hx
  rw [setup, hparse]
  rcases hlacks with hf | ho | hl | hk
  · have hfilename := hnone g.filename fun optarg hx => hf optarg ((h.filename optarg).mp hx)
    simp only [hfilename]
  · have hlogname := hnone g.logname fun optarg hx => ho optarg ((h.logname optarg).mp hx)
    simp only [hlogname]
    cases g.filename <;> rfl
  · have hfilesize := h.noFilesize hl
    simp only [hfilesize, true_or, if_true]
    split <;> rfl
  · have hchunksize := h.noChunksize hk
    simp only [hchunksize, or_true, if_true]
    split <;> rfl

end

/-- **Exactly the orders that keep the options.** -/
theorem keeps_iff_logStands (l l' : ArgList) (hperm : l'.opts.Perm l.opts) :
    Keeps l l' ↔ LogStands l'.opts := by
  have hnodup : (l'.opts.map Opt.letter).Nodup := l'.nodup
  have hparse : parseOpts l'.opts {} = .returned 0 (l'.opts.foldl Globals.apply {}) :=
    parseOpts_eq l'.known {}
  rw [← gives_iff hnodup]
  constructor
  · rintro ⟨⟨g, hg, hgives⟩, -⟩
    have heq : l'.opts.foldl Globals.apply {} = g := (Parsed.returned.inj (hparse.symm.trans hg)).2
    exact heq ▸ hgives.perm hperm.symm
  · intro h
    have hgives := Gives.perm hperm h
    exact ⟨⟨_, hparse, hgives⟩, fun hlacks _ => setup_of_lacks _ hparse hgives hlacks⟩

-- ---------------------------------------------------------------------------
-- Three lists
-- ---------------------------------------------------------------------------

def fileFirst : ArgList where
  argv := [['-', 'f'], ['f'], ['-', 'o'], ['g'], ['-', 'l'], ['1'], ['-', 'k'], ['1']]
  nodup := by decide
  known := by decide

def logFirst : ArgList where
  argv := [['-', 'o'], ['g'], ['-', 'f'], ['f'], ['-', 'l'], ['1'], ['-', 'k'], ['1']]
  nodup := by decide
  known := by decide

def noLog : ArgList where
  argv := [['-', 'f'], ['f'], ['-', 'l'], ['1'], ['-', 'k'], ['1']]
  nodup := by decide
  known := by decide

theorem keeps_iff_logStands_fileFirst : fileFirst.opts.Perm logFirst.opts ∧
    (Keeps logFirst fileFirst ↔ LogStands fileFirst.opts) :=
  ⟨by decide, keeps_iff_logStands logFirst fileFirst (by decide)⟩

/-- The log is taken for the file, and a list without a log is accepted. -/
theorem not_keeps_logFirst_noLog : logFirst.opts.Perm fileFirst.opts ∧
    ¬ Keeps fileFirst logFirst ∧ Lacks noLog.opts ∧
    ∀ openLogfile, setup openLogfile noLog.argv ≠ none := by
  refine ⟨by decide, ?_, .inr (.inl ?_), ?_⟩
  · intro h
    obtain ⟨g, hparse, hgives⟩ := h.parses
    have hlogname : g.logname = some ['f'] := by
      rw [← (Parsed.returned.inj hparse).2]
      rfl
    exact absurd ((hgives.logname ['f']).mp hlogname) (by decide)
  · intro optarg
    simp [ArgList.opts, noLog, getopt, letters, withArg]
  · intro openLogfile h
    have hone : UInt64.ofInt (atol ['1']) = 1 := by decide +kernel
    simp [setup, noLog, getopt, letters, withArg, parseOpts, Globals.apply, hone] at h

end Ocfs2Test.Chunks.VerifyFile
