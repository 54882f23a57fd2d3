import Ocfs2Test.Fsx.Runs

/-!
# fsx: the options

`getnum` and the `switch` over the options in `main`. The option `-s` sets a variable
of `main` that hides the global of its name, and `-m` falls through to what `-n`
does.
-/

namespace Ocfs2Test.Fsx

open Lib Lib.Stdio

-- ---------------------------------------------------------------------------
-- Numbers
-- ---------------------------------------------------------------------------

/-- What is stored in an `int`. -/
def toInt (n : Int) : Int := n.bmod (2 ^ 32)

def suffix : List Char → Option Int
  | c :: _ =>
    if c = 'b' ∨ c = 'B' then some 512
    else if c = 'k' ∨ c = 'K' then some 1024
    else if c = 'm' ∨ c = 'M' then some (1024 * 1024)
    else if c = 'w' ∨ c = 'W' then some 4
    else none
  | [] => none

inductive Opt
  | b (optarg : List Char)
  | c (optarg : List Char)
  | d
  | f
  | l (optarg : List Char)
  | m (optarg : List Char)
  | n
  | o (optarg : List Char)
  | p (optarg : List Char)
  | q
  | r (optarg : List Char)
  | s (optarg : List Char)
  | t (optarg : List Char)
  | w (optarg : List Char)
  | A
  | D (optarg : List Char)
  | L
  | N (optarg : List Char)
  | O
  | P (optarg : List Char)
  | R
  | S (optarg : List Char)
  | W
  | Z
  | unknown
  deriving DecidableEq, Repr

/-- The globals, the variable `style` of `main`, and the directory of `-P`. -/
structure Globals where
  options : Options := {}
  debug : Bool := false
  quiet : Bool := false
  progressinterval : Nat := 0
  monitorstart : Int := -1
  monitorend : Int := -1
  debugstart : Nat := 0
  numops : Int := -1
  seed : Int := 1
  aio : Bool := false
  localStyle : Option Int := none
  dirpath : Option (List Char) := none
  deriving DecidableEq, Repr

structure Checked (g : Globals) : Prop where
  style_eq : g.options.style = 0
  maxfilelen_pos : 0 < g.options.maxfilelen
  /-- A negative number is a very large one. -/
  maxfilelen_cases : g.options.maxfilelen < 2 ^ 31 ∨ 2 ^ 64 - 2 ^ 31 ≤ g.options.maxfilelen
  maxoplen_pos : 0 < g.options.maxoplen
  readbdy_pos : 0 < g.options.readbdy
  truncbdy_pos : 0 < g.options.truncbdy
  writebdy_pos : 0 < g.options.writebdy

theorem Checked.truncate_fits {g : Globals} (h : Checked g) {bound : Nat}
    (hodd : g.options.style % 2 = 1) (_ : g.options.lite = false) : g.options.maxoplen ≤ bound := by
  rw [h.style_eq] at hodd
  cases hodd

variable {g g' : Globals} {opt : Opt}

end Ocfs2Test.Fsx
