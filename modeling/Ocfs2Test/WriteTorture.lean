import Ocfs2Test.Lib.Stdio
import Ocfs2Test.Lib.Transition

/-!
# write_torture

Six children write to one file and truncate it, each with a file position of its own.
`truncate_caller` means to draw again while a length is above `MAX_TRUNCATE_SIZE`, but its
test asks for a length that is negative as well, so a length is only as small as the size
that was read makes it.
-/

namespace Ocfs2Test.WriteTorture

open Lib Lib.Stdio

inductive Child
  | append
  | inPlace
  | past
  | down
  | up
  | straddling
  deriving DecidableEq

/-- A call of `ftruncate`, by `truncate_up` or by `truncate_down`, with the size that
`get_i_size` gave. -/
structure Truncate where
  up : Bool
  size : Nat
  len : Int
  deriving DecidableEq

inductive Pc
  | loop
  | body
  | write (len : Nat)
  | ftruncate (t : Truncate)
  | exited

structure State where
  size : Nat
  pos : Child → Nat
  pc : Child → Pc
  issued : List Truncate

def State.goto (s : State) (c : Child) (pc : Pc) : State :=
  { s with pc := Function.update s.pc c pc }

/-- What the system decides: whether a signal has come, whether `fstat` succeeds and what
`rand` returns, and what a call returns, `none` being -1. -/
inductive Act
  | test (die : Bool)
  | run (fstat : Bool) (r : Rand)
  | ret (result : Option Nat)

-- ---------------------------------------------------------------------------
-- The children
-- ---------------------------------------------------------------------------

/-- `get_rand`, in `unsigned long`; `none` is a remainder by zero. -/
def getRand (min max : Nat) (r : Rand) : Option Nat :=
  if min = 0 ∧ max = 0 then some 0
  else if max = 0 then none
  else some ((min + (r.val % max + 2 ^ 64 - min)) % 2 ^ 64)

def MAX_TRUNCATE_SIZE (blklen : UInt32) : UInt32 := 2147483647 - 100 * blklen

/-- `lseek`; an offset that `off_t` does not hold leaves the position. -/
def State.lseek (s : State) (c : Child) (off : Nat) : State :=
  if off < 2 ^ 63 then { s with pos := Function.update s.pos c off } else s

/-- The end of a writer's round: the offset it has drawn, and a block to write there. -/
def State.seek (s : State) (c : Child) (blklen : UInt32) : Option Nat → State
  | none => s.goto c .exited
  | some off => (s.lseek c off).goto c (.write blklen.toNat)

/-- A round of `truncate_caller` up to `ftruncate`. -/
def truncateCaller (blklen : UInt32) (up : Bool) (size : Nat) (r : Rand) : Pc :=
  match getRand 0 (size / 3) r with
  | none => .exited
  | some x =>
    let len := (x : Int).bmod (2 ^ 64)
    let len := if up then (len + size).bmod (2 ^ 64) else len
    if len > (MAX_TRUNCATE_SIZE blklen).toNat ∧ len < 0 then .body
    else if size ≠ 0 ∧ len ≠ 0 then .ftruncate ⟨up, size, len⟩
    else .loop

section
variable (blklen : UInt32)

def body (s : State) (c : Child) (r : Rand) : State :=
  match c with
  | .append =>
    match getRand 1 blklen.toNat r with
    | none => s.goto c .exited
    | some len => s.goto c (.write len)
  | .inPlace =>
    s.seek c blklen
      (if blklen.toNat < s.size then getRand 0 (s.size - blklen.toNat) r else some 0)
  | .past => s.seek c blklen ((getRand 0 (3 * blklen).toNat r).map (s.size + ·))
  | .down => s.goto c (truncateCaller blklen false s.size r)
  | .up => s.goto c (truncateCaller blklen true s.size r)
  | .straddling =>
    s.seek c blklen
      (if blklen.toNat ≤ s.size then (getRand 0 blklen.toNat r).map (s.size - ·)
      else some s.size)

def Child.getsSize : Child → Bool
  | .append | .past => false
  | .inPlace | .down | .up | .straddling => true

/-- Where `write` begins: the first child has opened the file to append. -/
def State.offset (s : State) : Child → Nat
  | .append => s.size
  | c => s.pos c

/-- The file and the position after `n` bytes of a `write`. -/
def State.written (s : State) (c : Child) (n : Nat) : State where
  size := if n = 0 then s.size else max s.size (s.offset c + n)
  pos := Function.update s.pos c (s.offset c + n)
  pc := Function.update s.pc c .loop
  issued := s.issued

/-- A step of `c`, where the system decides `act`. -/
def next (s : State) (c : Child) (act : Act) : Option State :=
  match s.pc c, act with
  | .loop, .test die => some (s.goto c (if die then .exited else .body))
  | .body, .run fstat r =>
    if c.getsSize ∧ fstat = false then some (s.goto c .exited) else some (body blklen s c r)
  | .write _, .ret none => some (s.goto c .exited)
  | .write len, .ret (some n) =>
    if n ≤ len ∧ s.offset c + n < 2 ^ 63 then some (s.written c n) else none
  | .ftruncate t, .ret none => some ({ s with issued := s.issued ++ [t] }.goto c .exited)
  | .ftruncate t, .ret (some _) =>
    if 0 ≤ t.len then
      some ({ s with size := t.len.toNat, issued := s.issued ++ [t] }.goto c .loop)
    else none
  | _, _ => none

def start : State where
  size := 0
  pos _ := 0
  pc _ := .loop
  issued := []

/-- The children in any order, where every step meets `C`. -/
def children (C : State → Child → Act → Prop) : System State where
  Init s := s = start
  Step s s' := ∃ c act, C s c act ∧ next blklen s c act = some s'

end

-- ---------------------------------------------------------------------------
-- One round of truncate_caller
-- ---------------------------------------------------------------------------

/-- A length in `1..MAX_TRUNCATE_SIZE`, no less than the size for `truncate_up` and no more
than a third of it for `truncate_down`. -/
structure Truncate.Good (blklen : UInt32) (t : Truncate) : Prop where
  one_le : 1 ≤ t.len
  le_max : t.len ≤ (MAX_TRUNCATE_SIZE blklen).toNat
  up : t.up = true → t.size ≤ t.len
  down : t.up = false → 3 * t.len ≤ t.size

/-- The largest length that can be drawn for this size is at most the maximum. -/
def Fits (blklen : UInt32) (up : Bool) (size : Nat) : Prop :=
  if up then size + (size / 3 - 1) ≤ (MAX_TRUNCATE_SIZE blklen).toNat
  else min (size / 3) (2 ^ 31) - 1 ≤ (MAX_TRUNCATE_SIZE blklen).toNat

instance : Decidable (Fits blklen up size) := by
  unfold Fits
  infer_instance

def drawn (size : Nat) (r : Rand) : Nat := if size / 3 = 0 then 0 else r.val % (size / 3)

def length (up : Bool) (size : Nat) (r : Rand) : Int :=
  if up then ((drawn size r + size : Nat) : Int).bmod (2 ^ 64) else drawn size r

section
variable {blklen : UInt32} {up : Bool} {size : Nat} {r : Rand} {t : Truncate}

theorem toNat_MAX_TRUNCATE_SIZE (h : 100 * blklen.toNat < 2 ^ 31) :
    (MAX_TRUNCATE_SIZE blklen).toNat = 2147483647 - 100 * blklen.toNat := by
  have hmul : (100 * blklen).toNat = 100 * blklen.toNat := by
    rw [UInt32.toNat_mul]
    exact Nat.mod_eq_of_lt (h.trans (by decide))
  rw [MAX_TRUNCATE_SIZE, UInt32.toNat_sub_of_le, hmul]
  · rfl
  · rw [UInt32.le_iff_toNat_le, hmul]
    exact Nat.le_of_lt_succ h

theorem getRand_zero (max : Nat) (r : Rand) :
    getRand 0 max r = some (if max = 0 then 0 else r.val % max) := by
  rw [getRand]
  by_cases hmax : max = 0
  · simp [hmax]
  · have hlt : r.val % max < 2 ^ 64 := (Nat.mod_le _ _).trans_lt (r.isLt.trans (by decide))
    simp only [hmax, and_false, if_false, Nat.zero_add, Nat.sub_zero, Option.some.injEq]
    rw [Nat.add_mod_right, Nat.mod_eq_of_lt hlt]

theorem drawn_le (size : Nat) (r : Rand) : drawn size r ≤ min (size / 3) (2 ^ 31) - 1 := by
  have hr := r.isLt
  rw [drawn]
  split
  · exact Nat.zero_le _
  · next hpos =>
    have hlt := Nat.mod_lt r.val (Nat.pos_of_ne_zero hpos)
    have hle := Nat.mod_le r.val (size / 3)
    omega

theorem bmod_of_lt {n : Nat} (h : n < 2 ^ 63) : (n : Int).bmod (2 ^ 64) = n := by
  rw [Int.bmod_def]
  omega

theorem length_up (h : drawn size r + size < 2 ^ 63) :
    length true size r = (drawn size r + size : Nat) := by
  rw [length, if_pos rfl]
  exact bmod_of_lt h

theorem length_down (size : Nat) (r : Rand) : length false size r = drawn size r := by
  rw [length, if_neg Bool.false_ne_true]

theorem length_lt (up : Bool) (size : Nat) (r : Rand) : length up size r < 2 ^ 63 := by
  cases up with
  | true =>
    have hlt : ((drawn size r + size : Nat) : Int).bmod (2 ^ 64) < (2 ^ 64 + 1) / 2 :=
      Int.bmod_lt (by decide)
    rw [length, if_pos rfl]
    exact hlt
  | false =>
    have hdrawn := drawn_le size r
    rw [length_down]
    omega

theorem truncateCaller_eq (blklen : UInt32) (up : Bool) (size : Nat) (r : Rand) :
    truncateCaller blklen up size r =
      if length up size r > (MAX_TRUNCATE_SIZE blklen).toNat ∧ length up size r < 0 then .body
      else if size ≠ 0 ∧ length up size r ≠ 0 then .ftruncate ⟨up, size, length up size r⟩
      else .loop := by
  have hdrawn : drawn size r < 2 ^ 63 := (drawn_le size r).trans_lt (by omega)
  rw [truncateCaller, getRand_zero]
  dsimp only
  rw [← drawn, bmod_of_lt hdrawn, length, Int.natCast_add]

theorem truncateCaller_once (blklen : UInt32) (up : Bool) (size : Nat) (r : Rand) :
    truncateCaller blklen up size r =
      if size ≠ 0 ∧ length up size r ≠ 0 then .ftruncate ⟨up, size, length up size r⟩
      else .loop := by
  rw [truncateCaller_eq, if_neg]
  rintro ⟨hmax, hneg⟩
  omega

theorem truncateCaller_ftruncate (h : truncateCaller blklen up size r = .ftruncate t) :
    size ≠ 0 ∧ length up size r ≠ 0 ∧ t = ⟨up, size, length up size r⟩ := by
  rw [truncateCaller_once] at h
  by_cases hne : size ≠ 0 ∧ length up size r ≠ 0
  · rw [if_pos hne] at h
    cases h
    exact ⟨hne.1, hne.2, rfl⟩
  · rw [if_neg hne] at h
    cases h

theorem good_of_fits (hblklen : 100 * blklen.toNat < 2 ^ 31) (hfits : Fits blklen up size)
    (h : truncateCaller blklen up size r = .ftruncate t) : t.Good blklen := by
  obtain ⟨hpos, hne, rfl⟩ := truncateCaller_ftruncate h
  have hdrawn := drawn_le size r
  have hmax := toNat_MAX_TRUNCATE_SIZE hblklen
  cases up with
  | true =>
    have hfits : size + (size / 3 - 1) ≤ (MAX_TRUNCATE_SIZE blklen).toNat := hfits
    have hlen : length true size r = (drawn size r + size : Nat) := length_up (by omega)
    rw [hlen] at hne ⊢
    exact ⟨by dsimp only; omega, by dsimp only; omega, fun _ => by dsimp only; omega, nofun⟩
  | false =>
    have hfits : min (size / 3) (2 ^ 31) - 1 ≤ (MAX_TRUNCATE_SIZE blklen).toNat := hfits
    rw [length_down] at hne ⊢
    exact ⟨by dsimp only; omega, by dsimp only; omega, nofun, fun _ => by dsimp only; omega⟩

theorem exists_drawn_eq (size : Nat) : ∃ r, drawn size r = min (size / 3) (2 ^ 31) - 1 := by
  refine ⟨⟨min (size / 3) (2 ^ 31) - 1, by omega⟩, ?_⟩
  rw [drawn]
  split
  · next hzero => rw [hzero, Nat.zero_min]
  · next hpos => exact Nat.mod_eq_of_lt (by dsimp only; omega)

theorem drawn_zero (size : Nat) : drawn size 0 = 0 := by
  simp [drawn]

/-- A size that does not fit is too large by itself, or with the largest draw. -/
theorem exists_drawn (hfits : ¬ Fits blklen up size) (hsize : size < 2 ^ 63) :
    ∃ r, (up = true → drawn size r + size < 2 ^ 63) ∧
      (MAX_TRUNCATE_SIZE blklen).toNat < drawn size r + if up then size else 0 := by
  have hmax := (MAX_TRUNCATE_SIZE blklen).toNat_lt
  obtain ⟨r, hr⟩ := exists_drawn_eq size
  cases up with
  | true =>
    have hfits : ¬ size + (size / 3 - 1) ≤ (MAX_TRUNCATE_SIZE blklen).toNat := hfits
    simp only [if_true, true_imp_iff]
    by_cases hlarge : 2 ^ 62 ≤ size
    · refine ⟨0, ?_⟩
      rw [drawn_zero]
      omega
    · exact ⟨r, by omega, by omega⟩
  | false =>
    have hfits : ¬ min (size / 3) (2 ^ 31) - 1 ≤ (MAX_TRUNCATE_SIZE blklen).toNat := hfits
    refine ⟨r, nofun, ?_⟩
    rw [hr, if_neg Bool.false_ne_true]
    exact Nat.not_le.mp hfits

/-- For a size that does not fit one of the random numbers gives a length above the maximum. -/
theorem exists_not_good (hsize : size < 2 ^ 63) (hfits : ¬ Fits blklen up size) :
    ∃ r t, truncateCaller blklen up size r = .ftruncate t ∧ ¬ t.Good blklen := by
  obtain ⟨r, hsum, hlarge⟩ := exists_drawn hfits hsize
  have hlen : length up size r = (drawn size r + if up then size else 0 : Nat) := by
    cases up with
    | true => exact length_up (hsum rfl)
    | false => exact length_down size r
  have hpos : size ≠ 0 := by
    rintro rfl
    exact absurd hlarge (by cases up <;> simp [drawn])
  refine ⟨r, ⟨up, size, length up size r⟩, ?_, fun hgood => ?_⟩
  · rw [truncateCaller_once, if_pos ⟨hpos, by omega⟩]
  · have hle : length up size r ≤ (MAX_TRUNCATE_SIZE blklen).toNat := hgood.le_max
    omega

theorem draws_good_iff (hblklen : 100 * blklen.toNat < 2 ^ 31) (hsize : size < 2 ^ 63) :
    (∀ r t, truncateCaller blklen up size r = .ftruncate t → t.Good blklen) ↔
      Fits blklen up size := by
  constructor
  · rintro hgood
    by_contra hfits
    obtain ⟨r, t, h, hbad⟩ := exists_not_good hsize hfits
    exact hbad (hgood r t h)
  · rintro hfits r t h
    exact good_of_fits hblklen hfits h

end

-- ---------------------------------------------------------------------------
-- Runs
-- ---------------------------------------------------------------------------

/-- `truncate_up` and `truncate_down`. -/
def Child.truncates : Child → Option Bool
  | .down => some false
  | .up => some true
  | .append | .inPlace | .past | .straddling => none

/-- A truncating child only reads a size that fits. -/
def Meets (blklen : UInt32) (s : State) (c : Child) : Act → Prop
  | .run _ _ => ∀ up, c.truncates = some up → Fits blklen up s.size
  | .test _ | .ret _ => True

instance : Decidable (Meets blklen s c act) := by
  cases act with
  | run => exact inferInstanceAs (Decidable (∀ up, c.truncates = some up → Fits blklen up s.size))
  | test | ret => exact isTrue trivial

def steps (blklen : UInt32) (C : State → Child → Act → Prop) [∀ s c act, Decidable (C s c act)] :
    List (Child × Act) → State → Option State
  | [], s => some s
  | (c, act) :: es, s =>
    if C s c act then (next blklen s c act).bind (steps blklen C es) else none

section
variable {blklen : UInt32} {s s' : State} {c : Child} {act : Act} {t : Truncate}

@[simp] theorem State.goto_pc_self (s : State) (c : Child) (pc : Pc) : (s.goto c pc).pc c = pc :=
  Function.update_self _ _ _

/-- A writer's round moves the child and its position, and it does not come to `ftruncate`. -/
theorem State.seek_cases :
    (s.seek c blklen off).issued = s.issued ∧ (s.seek c blklen off).size = s.size ∧
      ∃ pc, (s.seek c blklen off).pc = Function.update s.pc c pc ∧ ∀ t, pc ≠ .ftruncate t := by
  cases off with
  | none => exact ⟨rfl, rfl, .exited, rfl, nofun⟩
  | some off =>
    rw [State.seek, State.lseek]
    split
    · exact ⟨rfl, rfl, .write blklen.toNat, rfl, nofun⟩
    · exact ⟨rfl, rfl, .write blklen.toNat, rfl, nofun⟩

/-- The body changes neither the file nor what has been issued, and only a truncating child
comes before `ftruncate`. -/
theorem body_cases (blklen : UInt32) (s : State) (c : Child) (r : Rand) :
    (body blklen s c r).issued = s.issued ∧ (body blklen s c r).size = s.size ∧
      ∃ pc, (body blklen s c r).pc = Function.update s.pc c pc ∧
        ∀ t, pc = .ftruncate t →
          ∃ up, c.truncates = some up ∧ truncateCaller blklen up s.size r = .ftruncate t := by
  cases c with
  | append =>
    rw [body]
    cases getRand 1 blklen.toNat r with
    | none => exact ⟨rfl, rfl, .exited, rfl, nofun⟩
    | some len => exact ⟨rfl, rfl, .write len, rfl, nofun⟩
  | down => exact ⟨rfl, rfl, _, rfl, fun t h => ⟨false, rfl, h⟩⟩
  | up => exact ⟨rfl, rfl, _, rfl, fun t h => ⟨true, rfl, h⟩⟩
  | inPlace | past | straddling =>
    obtain ⟨hissued, hsize, pc, hpc, hne⟩ := State.seek_cases
    exact ⟨hissued, hsize, pc, hpc, fun t h => absurd h (hne t)⟩

/-- Everything a step does to the size, to what has been issued and to the calls of
`ftruncate` that come next. -/
theorem next_cases (h : next blklen s c act = some s') :
    ∃ pc, s'.pc = Function.update s.pc c pc ∧
      ((s'.issued = s.issued ∧ (s'.size = s.size ∨ s'.size < 2 ^ 63) ∧
        ∀ t, pc = .ftruncate t → ∃ fstat r up, act = .run fstat r ∧ c.truncates = some up ∧
          truncateCaller blklen up s.size r = .ftruncate t) ∨
      ∃ t, s.pc c = .ftruncate t ∧ s'.issued = s.issued ++ [t] ∧
        (s'.size = s.size ∨ s'.size = t.len.toNat) ∧ ∀ t, pc ≠ .ftruncate t) := by
  unfold next at h
  split at h
  · next die _ =>
    cases h
    refine ⟨_, rfl, .inl ⟨rfl, .inl rfl, ?_⟩⟩
    cases die <;> nofun
  · next fstat r hpc =>
    split at h
    · cases h
      exact ⟨.exited, rfl, .inl ⟨rfl, .inl rfl, nofun⟩⟩
    · cases h
      obtain ⟨hissued, hsize, pc, hpc, htrunc⟩ := body_cases blklen s c r
      refine ⟨pc, hpc, .inl ⟨hissued, .inl hsize, ?_⟩⟩
      rintro t ht
      obtain ⟨up, hup, hcall⟩ := htrunc t ht
      exact ⟨fstat, r, up, rfl, hup, hcall⟩
  · cases h
    exact ⟨.exited, rfl, .inl ⟨rfl, .inl rfl, nofun⟩⟩
  · next n _ =>
    split at h
    · next hn =>
      cases h
      refine ⟨.loop, rfl, .inl ⟨rfl, ?_, nofun⟩⟩
      by_cases hzero : n = 0
      · exact .inl (if_pos hzero)
      · rcases Nat.le_total (s.offset c + n) s.size with hle | hle
        · exact .inl ((if_neg hzero).trans (Nat.max_eq_left hle))
        · exact .inr (((if_neg hzero).trans (Nat.max_eq_right hle)).trans_lt hn.2)
    · cases h
  · next t hpc =>
    cases h
    exact ⟨.exited, rfl, .inr ⟨t, hpc, rfl, .inl rfl, nofun⟩⟩
  · next t _ hpc =>
    split at h
    · cases h
      exact ⟨.loop, rfl, .inr ⟨t, hpc, rfl, .inr rfl, nofun⟩⟩
    · cases h
  · cases h

/-- A property of every call that a round of `truncate_caller` can come to is one of every
call that has been issued or comes next. -/
theorem issued_all {C : State → Child → Act → Prop} {P : Truncate → Prop}
    (hs : (children blklen C).Reachable s)
    (hP : ∀ s c fstat r up t, C s c (.run fstat r) → c.truncates = some up →
      truncateCaller blklen up s.size r = .ftruncate t → P t) :
    (∀ t ∈ s.issued, P t) ∧ ∀ c t, s.pc c = .ftruncate t → P t := by
  apply hs.invariant
  · rintro _ rfl
    exact ⟨nofun, nofun⟩
  · rintro s s' - ⟨hissued, hnext⟩ ⟨c, act, hC, h⟩
    obtain ⟨pc, hpc, ⟨heq, -, htrunc⟩ | ⟨t, ht, heq, -, hne⟩⟩ := next_cases h
    · rw [heq, hpc]
      refine ⟨hissued, fun c' t ht => ?_⟩
      obtain ⟨-, hnew⟩ | ⟨-, hold⟩ := update_cases (P := (· = Pc.ftruncate t)) ht
      · obtain ⟨fstat, r, up, rfl, hup, hcall⟩ := htrunc t hnew
        exact hP s c fstat r up t hC hup hcall
      · exact hnext c' t hold
    · rw [heq, hpc]
      constructor
      · rintro u hu
        obtain hold | hlast := List.mem_append.mp hu
        · exact hissued u hold
        · rw [List.mem_singleton.mp hlast]
          exact hnext c t ht
      · rintro c' u hu
        obtain ⟨-, hnew⟩ | ⟨-, hold⟩ := update_cases (P := (· = Pc.ftruncate u)) hu
        · exact absurd hnew (hne u)
        · exact hnext c' u hold

theorem size_lt {C : State → Child → Act → Prop} (hs : (children blklen C).Reachable s) :
    s.size < 2 ^ 63 := by
  apply hs.invariant
  · rintro _ rfl
    decide
  · rintro s s' hs hsize ⟨c, act, -, h⟩
    have hlen : ∀ c t, s.pc c = .ftruncate t → t.len < 2 ^ 63 := by
      refine (issued_all (P := (·.len < 2 ^ 63)) hs ?_).2
      rintro s c fstat r up t - - hcall
      obtain ⟨-, -, rfl⟩ := truncateCaller_ftruncate hcall
      exact length_lt up s.size r
    obtain ⟨-, -, ⟨-, hsame | hlt, -⟩ | ⟨t, ht, -, hsame | hcut, -⟩⟩ := next_cases h
    · exact hsame ▸ hsize
    · exact hlt
    · exact hsame ▸ hsize
    · have ht : t.len < 2 ^ 63 := hlen c t ht
      omega

theorem next_truncates (hup : c.truncates = some up) (hpc : s.pc c = .body) (r : Rand) :
    next blklen s c (.run true r) = some (s.goto c (truncateCaller blklen up s.size r)) := by
  unfold next
  rw [hpc]
  cases c with
  | down | up =>
    cases hup
    rfl
  | append | inPlace | past | straddling => cases hup

/-- In a run in which the truncating children only read sizes that fit, every `ftruncate` is
as it should be; and a size fits when every draw for it is. -/
theorem truncateCaller_good (blklen : UInt32) (hblklen : 100 * blklen.toNat < 2 ^ 31) :
    (∀ s, (children blklen (Meets blklen)).Reachable s → ∀ t ∈ s.issued, t.Good blklen) ∧
    ∀ s c up, (children blklen fun _ _ _ => True).Reachable s → c.truncates = some up →
      s.pc c = .body →
      ((∀ r s' t, next blklen s c (.run true r) = some s' → s'.pc c = .ftruncate t →
        t.Good blklen) ↔ Fits blklen up s.size) := by
  constructor
  · rintro s hs
    refine (issued_all hs ?_).1
    rintro s c fstat r up t hmeets hup hcall
    exact good_of_fits hblklen (hmeets up hup) hcall
  · rintro s c up hs hup hpc
    rw [← draws_good_iff hblklen (size_lt hs)]
    constructor
    · rintro hgood r t hcall
      refine hgood r _ t (next_truncates hup hpc r) ?_
      rw [State.goto_pc_self, hcall]
    · rintro hgood r s' t h ht
      cases (next_truncates hup hpc r).symm.trans h
      rw [State.goto_pc_self] at ht
      exact hgood r t ht

theorem reachable_steps {C : State → Child → Act → Prop} [∀ s c act, Decidable (C s c act)]
    {es : List (Child × Act)} (hs : (children blklen C).Reachable s)
    (h : steps blklen C es s = some s') : (children blklen C).Reachable s' := by
  induction es generalizing s with
  | nil =>
    cases h
    exact hs
  | cons e es ih =>
    obtain ⟨c, act⟩ := e
    rw [steps] at h
    split at h
    · next hC =>
      obtain ⟨s₁, hnext, hrest⟩ := Option.bind_eq_some_iff.mp h
      exact ih (hs.step ⟨c, act, hC, hnext⟩) hrest
    · cases h

theorem exists_steps (blklen : UInt32) (C : State → Child → Act → Prop)
    [∀ s c act, Decidable (C s c act)] (es : List (Child × Act)) (ts : List Truncate)
    (h : (steps blklen C es start).map (·.issued) = some ts) :
    ∃ s, (children blklen C).Reachable s ∧ s.issued = ts := by
  obtain ⟨s, hs, hts⟩ := Option.map_eq_some_iff.mp h
  exact ⟨s, reachable_steps (.init rfl) hs, hts⟩

end

/-- A block is written, and a child truncates the file. -/
def writeThenTruncate (blklen : Nat) (c : Child) (r : Rand) : List (Child × Act) :=
  [(.inPlace, .test false), (.inPlace, .run true 0), (.inPlace, .ret (some blklen)),
    (c, .test false), (c, .run true r), (c, .ret (some 0))]

theorem truncateCaller_good_default :
    ∃ s, (children 8102 (Meets 8102)).Reachable s ∧ s.issued = [⟨false, 8102, 5⟩] ∧
      ∀ t ∈ s.issued, t.Good 8102 := by
  obtain ⟨s, hs, hissued⟩ := exists_steps 8102 (Meets 8102)
    (writeThenTruncate 8102 .down 5) [⟨false, 8102, 5⟩] (by decide)
  exact ⟨s, hs, hissued, (truncateCaller_good 8102 (by decide)).1 s hs⟩

/-- The maximum is 47 bytes, and one block is longer. -/
theorem truncate_above_max :
    100 * (21474836 : UInt32).toNat < 2 ^ 31 ∧
      ∃ s t, (children 21474836 fun _ _ _ => True).Reachable s ∧ t ∈ s.issued ∧
        ¬ t.Good 21474836 := by
  refine ⟨by decide, ?_⟩
  obtain ⟨s, hs, hissued⟩ := exists_steps 21474836 (fun _ _ _ => True)
    (writeThenTruncate 21474836 .up 0) [⟨true, 21474836, 21474836⟩] (by decide)
  refine ⟨s, _, hs, hissued ▸ List.mem_singleton_self _, fun hgood => ?_⟩
  exact absurd hgood.le_max (by decide)

end Ocfs2Test.WriteTorture
