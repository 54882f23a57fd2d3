import Ocfs2Test.Lib.Xattr
import Ocfs2Test.Xattr.Names

/-!
# Structured values of xattr-test

With `-m` and `-f` a value says which attribute it belongs to and how long it is.
`setup` asks for room for the parts around the random string with `-m` only.
-/

namespace Ocfs2Test.Xattr

open Lib Stdio CString

/-- The options of xattr-test that its names and values depend on; `multi` is `-m`,
`files` is `-f`. -/
structure Options where
  nameSz : UInt32
  valueSz : UInt64
  ns : NamespaceClass := .user
  random : Bool := false
  multi : Bool := false
  files : Bool := false

/-- `setup` does not exit; the limits of `parse_opts` are compiled in with
`DO_LIMIT`. -/
def Options.accepted (o : Options) (doLimit : Bool) : Bool :=
  !(doLimit && (o.nameSz > 255 || o.nameSz < 11 || o.valueSz > 65536)) &&
    !(o.multi && o.valueSz < (o.nameSz + 50).toUInt64)

def Options.Made (o : Options) (name : Name) : Prop :=
  ∃ no r x, makeName o.nameSz o.ns o.random no r x = some name

/-- What the validator accepts: the magic and the name first, the magic last, and
before that in five places the length, as `atoi` reads it. -/
structure Accepted (name : Name) (get : List Char) : Prop where
  start : valuePrefixMagic ++ name <+: text get
  field : ∃ before size, text get = before ++ (size ++ valuePostfixMagic) ∧ size.length = 5 ∧
    atoi size = strlen get ∧
    ((∀ c ∈ size, c.isDigit = true) → Nat.ofDigitChars 10 size 0 = strlen get)

-- ---------------------------------------------------------------------------
-- What is accepted
-- ---------------------------------------------------------------------------

section
variable {s buf get : List Char} {name : Name}

end

-- ---------------------------------------------------------------------------
-- What is made and built
-- ---------------------------------------------------------------------------

abbrev Options.Makes (o : Options) : Prop := Xattr.Makes o.nameSz o.ns o.random

/-- The longest size that can be drawn: `random` has 31 bits. -/
def Options.longest (o : Options) : Nat :=
  if o.random then min o.nameSz.toNat (2 ^ 31 + 19) else o.nameSz.toNat

/-- A value has room for the parts around its random string, and its length for five
digits. -/
def Options.Fits (o : Options) : Prop :=
  o.Makes → o.longest + 43 < o.valueSz.toNat ∧ o.valueSz.toNat ≤ 100000

section
variable {o : Options} {name : Name}

theorem clean_nameText (no : Nat) (ns : NamespaceClass) (rsz : Nat) (x : Nat → Nat) :
    Clean (nameText no ns rsz x) :=
  .append (.take (.append (clean_ns ns) (clean_map_randomChar _ _)) _) ((clean_printPadded 6 _).take 6)

theorem drawnSize_le_longest (h : o.Makes) (r : Rand) :
    drawnSize o.nameSz o.random r ≤ o.longest := by
  have hle := (drawnSize_bounds h r).2
  have hmod := Nat.mod_le r.val (o.nameSz.toNat - 19)
  have hr := r.isLt
  unfold drawnSize at hle ⊢
  unfold Options.longest
  split
  · next hrandom =>
    rw [if_pos hrandom] at hle
    omega
  · rfl

theorem Options.Made.spec (h : o.Made name) :
    o.Makes ∧ Clean name ∧ 5 ≤ name.length ∧ name.length ≤ o.longest := by
  obtain ⟨no, r, x, hname⟩ := h
  have hmakes := makes_of_some hname
  rw [makeName_eq hmakes, Option.some.injEq] at hname
  subst hname
  have hbounds := drawnSize_bounds hmakes r
  have hle := drawnSize_le_longest hmakes r
  refine ⟨hmakes, clean_nameText _ _ _ _, ?_, ?_⟩
  all_goals rw [length_nameText hbounds.1]; omega

end

/-- With `-m` and the limits compiled in, there is room enough. -/
theorem Options.fits_of_multi {o : Options} (h : o.accepted true = true) (hmulti : o.multi = true) :
    o.Fits := by
  simp only [Options.accepted, hmulti, Bool.true_and, Bool.and_eq_true, Bool.not_eq_true',
    Bool.or_eq_false_iff, decide_eq_false_iff_not, gt_iff_lt, UInt32.not_lt, UInt64.not_lt] at h
  obtain ⟨⟨⟨hle, -⟩, hvalue⟩, hroom⟩ := h
  rw [UInt32.le_iff_toNat_le] at hle
  rw [UInt64.le_iff_toNat_le] at hvalue hroom
  have hsum : (o.nameSz + 50).toUInt64.toNat = o.nameSz.toNat + 50 := by
    rw [UInt32.toNat_toUInt64, UInt32.toNat_add, Nat.mod_eq_of_lt]
    · rfl
    · exact (Nat.add_le_add_right hle 50).trans_lt (by decide)
  have hlongest : o.longest ≤ o.nameSz.toNat := by
    unfold Options.longest
    split
    · exact Nat.min_le_left _ _
    · exact Nat.le_refl _
  intro _
  rw [hsum] at hroom
  refine ⟨by omega, hvalue.trans (by decide)⟩

end Ocfs2Test.Xattr
