import Ocfs2Test.Lib.Ring

/-!
# fsx: the operation log

`log4` and `logdump` of `fsx-linux.c`. The log is a ring of `LOGSIZE` entries,
and a dump lists what is in it from the oldest entry on. The number printed for
an entry is that of its operation only if the ring was not begun anew since.
-/

namespace Ocfs2Test.Fsx

def logsize : Nat := 1000

namespace Op

def read : Int := 1
def write : Int := 2
def truncate : Int := 3
def closeopen : Int := 4
def mapread : Int := 5
def mapwrite : Int := 6
def skipped : Int := 7

end Op

structure LogEntry where
  operation : Int
  args : Int × Int × Int
  deriving DecidableEq, Repr

/-- `oplog`, `logptr` and `logcount`. -/
abbrev Log := Lib.Ring logsize LogEntry

def Log.zero : Log := Lib.Ring.empty logsize ⟨0, 0, 0, 0⟩

/-- The operator `~` of C. -/
def complement (x : Int) : Int := -x - 1

/-- The entry that `log4` makes; its sign carries the close and open that follows. -/
def logEntry (closeopen : Bool) (operation arg0 arg1 arg2 : Int) : LogEntry :=
  ⟨if closeopen then complement operation else operation, arg0, arg1, arg2⟩

def log4 (log : Log) (closeopen : Bool) (operation arg0 arg1 arg2 : Int) : Log :=
  log.push (logEntry closeopen operation arg0 arg1 arg2)

-- ---------------------------------------------------------------------------
-- Dumping it
-- ---------------------------------------------------------------------------

inductive Growth
  | none
  | hole
  | extend
  deriving DecidableEq, Repr

/-- What a line says of its entry. `marked` is the row of stars after a range in
which the bad byte lies. -/
inductive Shown
  | mapread (first last bytes : Int) (marked : Bool)
  | mapwrite (first last bytes : Int) (marked : Bool)
  | read (first last bytes : Int) (marked : Bool)
  | write (first last bytes : Int) (growth : Growth) (marked : Bool)
  | truncate (down : Bool) (old new : Int) (marked : Bool)
  | skipped
  | bogus (operation : Int)
  deriving DecidableEq, Repr

structure Line where
  opnum : Nat
  opnum256 : Nat
  shown : Shown
  closeopen : Bool
  deriving DecidableEq, Repr

/-- The `switch` of `logdump`, after the sign is taken off. -/
def shown (badoff : Int) (operation : Int) : Int × Int × Int → Shown
  | (a0, a1, a2) =>
    let inRange : Bool := decide (a0 ≤ badoff ∧ badoff < a0 + a1)
    if operation = Op.mapread then .mapread a0 (a0 + a1 - 1) a1 inRange
    else if operation = Op.mapwrite then .mapwrite a0 (a0 + a1 - 1) a1 inRange
    else if operation = Op.read then .read a0 (a0 + a1 - 1) a1 inRange
    else if operation = Op.write then
      .write a0 (a0 + a1 - 1) a1
        (if a2 < a0 then .hole else if a2 < a0 + a1 then .extend else .none)
        (decide ((a0 ≤ badoff ∨ a2 ≤ badoff) ∧ badoff < a0 + a1))
    else if operation = Op.truncate then
      let down := decide (a0 < a1)
      .truncate down a1 a0
        (if down then decide (a0 ≤ badoff ∧ badoff < a1) else decide (a1 ≤ badoff ∧ badoff < a0))
    else if operation = Op.skipped then .skipped
    else .bogus operation

def line (badoff : Int) (logcount i : Nat) (entry : LogEntry) : Line :=
  let opnum := i + 1 + logcount / logsize * logsize
  let closeopen := decide (entry.operation < 0)
  { opnum := opnum
    opnum256 := opnum % 256
    shown := shown badoff (if closeopen then complement entry.operation else entry.operation) entry.args
    closeopen := closeopen }

structure LogCall where
  closeopen : Bool
  operation : Int
  args : Int × Int × Int
  deriving DecidableEq, Repr

def LogCall.entry (c : LogCall) : LogEntry :=
  logEntry c.closeopen c.operation c.args.1 c.args.2.1 c.args.2.2

end Ocfs2Test.Fsx
