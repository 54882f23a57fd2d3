import Ocfs2Test.Xattr.Value

/-!
# Names of xattr-test

`xattr_name_generator` in a buffer of `xattr_name_sz + 1` bytes. The size of a name
is drawn from 20 up to `xattr_name_sz` with `-r`, and is `xattr_name_sz` without.
The number of the attribute is pasted over the last six places, wherever the
namespace ends.
-/

namespace Ocfs2Test.Xattr

open Lib Stdio CString

def XATTR_NAME_LEAST_SZ : UInt32 := 20

/-- The name in the buffer, unless a division by zero or a write past the end of
the buffer comes first. -/
def nameGenerator (nameSz : UInt32) (no : Nat) (ns : NamespaceClass) (lo hi : UInt32) (r : Rand)
    (x : Nat → Nat) : Option Name :=
  let size := (nameSz + 1).toNat
  let range := hi - lo + 1
  let rsz := UInt32.ofNat (r.val % range.toNat) + lo
  if size ≤ ns.text.length ∨ range = 0 then none
  else if rsz.toNat < 6 ∨ size ≤ rsz.toNat then none
  else some (xattrNameGenerator no ns rsz.toNat rsz.toNat r x)

/-- What `one_round_run` calls with `do_random_test`, or without. -/
def makeName (nameSz : UInt32) (ns : NamespaceClass) (random : Bool) (no : Nat) (r : Rand)
    (x : Nat → Nat) : Option Name :=
  nameGenerator nameSz no ns (if random then XATTR_NAME_LEAST_SZ else nameSz) nameSz r x

/-- The names of the attributes `0` to `nums - 1`, whatever is drawn for them. -/
structure NamesOk (nameSz : UInt32) (ns : NamespaceClass) (random : Bool) (nums : Nat) : Prop where
  made : ∀ no < nums, ∀ r x, ∃ name, makeName nameSz ns random no r x = some name ∧
    ns.text <+: name ∧ name.length ≤ nameSz.toNat
  distinct : ∀ i < nums, ∀ j < nums, i ≠ j → ∀ r r' x x' a b,
    makeName nameSz ns random i r x = some a → makeName nameSz ns random j r' x' = some b → a ≠ b

/-- Names of the size that is drawn have room for the namespace and the digits. -/
def Roomy (nameSz : UInt32) (ns : NamespaceClass) (random : Bool) : Prop :=
  if random then 20 ≤ nameSz.toNat else ns.text.length + 6 ≤ nameSz.toNat

instance (nameSz : UInt32) (ns : NamespaceClass) (random : Bool) : Decidable (Roomy nameSz ns random) :=
  inferInstanceAs (Decidable (if random then 20 ≤ nameSz.toNat else ns.text.length + 6 ≤ nameSz.toNat))

-- ---------------------------------------------------------------------------
-- The size of a name
-- ---------------------------------------------------------------------------

def drawnSize (nameSz : UInt32) (random : Bool) (r : Rand) : Nat :=
  if random then r.val % (nameSz.toNat - 19) + 20 else nameSz.toNat

/-- Sizes for which names are made at all. -/
structure Makes (nameSz : UInt32) (ns : NamespaceClass) (random : Bool) : Prop where
  buffer : nameSz.toNat + 1 < 2 ^ 32
  ns_le : ns.text.length ≤ nameSz.toNat
  size : if random then 20 ≤ nameSz.toNat else 6 ≤ nameSz.toNat

section
variable {nameSz : UInt32} {ns : NamespaceClass} {random : Bool} {no : Nat} {r : Rand}
  {x : Nat → Nat}

theorem length_ns (ns : NamespaceClass) : 5 ≤ ns.text.length ∧ ns.text.length ≤ 9 := by
  cases ns <;> decide

/-- What the generator leaves, with six digits at the end. -/
def nameText (no : Nat) (ns : NamespaceClass) (rsz : Nat) (x : Nat → Nat) : Name :=
  (ns.text ++ (List.range' ns.text.length (rsz - 6 - ns.text.length)).map
    fun i => randomChar i (x i)).take (rsz - 6) ++ (printPadded 6 no).take 6

theorem xattrNameGenerator_eq (no : Nat) (ns : NamespaceClass) (rsz : Nat) (r : Rand) (x : Nat → Nat) :
    xattrNameGenerator no ns rsz rsz r x = nameText no ns rsz x := by
  simp only [xattrNameGenerator, nameText, Nat.sub_self, Nat.zero_add, Nat.mod_one]

theorem length_nameText (hrsz : 6 ≤ rsz) : (nameText no ns rsz x).length = rsz := by
  have := le_length_printPadded 6 (no : Int)
  simp only [nameText, List.length_append, List.length_take, List.length_map, List.length_range']
  omega

theorem toNat_succ (h : nameSz.toNat + 1 < 2 ^ 32) : (nameSz + 1).toNat = nameSz.toNat + 1 := by
  rw [UInt32.toNat_add, UInt32.toNat_one, Nat.mod_eq_of_lt h]

theorem toNat_range (nameSz : UInt32) :
    (nameSz - XATTR_NAME_LEAST_SZ + 1).toNat = (nameSz.toNat + (2 ^ 32 - 19)) % 2 ^ 32 := by
  have hlt := nameSz.toNat_lt
  have hleast : XATTR_NAME_LEAST_SZ.toNat = 20 := rfl
  rw [UInt32.toNat_add, UInt32.toNat_sub, UInt32.toNat_one, hleast]
  omega

theorem toNat_least_add (hn : n < 2 ^ 31) :
    (UInt32.ofNat n + XATTR_NAME_LEAST_SZ).toNat = n + 20 := by
  have hleast : XATTR_NAME_LEAST_SZ.toNat = 20 := rfl
  rw [UInt32.toNat_add, UInt32.toNat_ofNat', hleast]
  omega

theorem makeName_eq (h : Makes nameSz ns random) :
    makeName nameSz ns random no r x = some (nameText no ns (drawnSize nameSz random r) x) := by
  obtain ⟨hbuffer, hns, hsize⟩ := h
  have hcap := toNat_succ hbuffer
  cases random with
  | false =>
    have hrange : nameSz - nameSz + 1 = 1 := by simp
    have hrsz : UInt32.ofNat (r.val % (1 : UInt32).toNat) + nameSz = nameSz := by
      simp [Nat.mod_one]
    simp only [Bool.false_eq_true, if_false] at hsize
    simp only [makeName, nameGenerator, Bool.false_eq_true, if_false, hcap, hrange, hrsz]
    rw [if_neg (by simp; omega), if_neg (by omega), xattrNameGenerator_eq]
    rfl
  | true =>
    simp only [if_true] at hsize
    have hrange : (nameSz - XATTR_NAME_LEAST_SZ + 1).toNat = nameSz.toNat - 19 := by
      rw [toNat_range]
      omega
    have hne : nameSz - XATTR_NAME_LEAST_SZ + 1 ≠ 0 := fun h => by
      rw [h] at hrange
      simp at hrange
      omega
    have hmod := Nat.mod_lt r.val (show 0 < nameSz.toNat - 19 by omega)
    have hrsz := toNat_least_add (n := r.val % (nameSz.toNat - 19))
      (Nat.lt_of_le_of_lt (Nat.mod_le _ _) r.isLt)
    simp only [makeName, nameGenerator, if_true, hcap, hrange, hrsz, hne, or_false]
    rw [if_neg (by omega), if_neg (by omega), xattrNameGenerator_eq]
    rfl

/-- A name is only made where sizes are large enough; with `-r` the range is empty
or wraps around before that. -/
theorem makes_of_some {name : Name} (h : makeName nameSz ns random no r x = some name) :
    Makes nameSz ns random := by
  have hlt := nameSz.toNat_lt
  have hns := length_ns ns
  have hcap : (nameSz + 1).toNat = (nameSz.toNat + 1) % 2 ^ 32 := by
    rw [UInt32.toNat_add, UInt32.toNat_one]
  simp only [makeName, nameGenerator, Option.ite_none_left_eq_some, not_or] at h
  obtain ⟨⟨hout, hrange⟩, ⟨hsix, hin⟩, -⟩ := h
  refine ⟨by omega, by omega, ?_⟩
  cases random with
  | false =>
    simp only [Bool.false_eq_true, if_false] at hsix hin ⊢
    have hrsz : UInt32.ofNat (r.val % (nameSz - nameSz + 1).toNat) + nameSz = nameSz := by
      simp [Nat.mod_one]
    rwa [hrsz, Nat.not_lt] at hsix
  | true =>
    simp only [if_true] at hin hrange ⊢
    by_contra hsmall
    have hzero : nameSz.toNat ≠ 19 := by
      intro h19
      refine hrange (UInt32.toNat_inj.mp ?_)
      rw [toNat_range, h19]
      rfl
    have hmod : r.val % (nameSz - XATTR_NAME_LEAST_SZ + 1).toNat = r.val := by
      rw [toNat_range]
      have := r.isLt
      exact Nat.mod_eq_of_lt (by omega)
    rw [hmod, toNat_least_add r.isLt] at hin
    omega

theorem drawnSize_bounds (h : Makes nameSz ns random) (r : Rand) :
    6 ≤ drawnSize nameSz random r ∧ drawnSize nameSz random r ≤ nameSz.toNat := by
  obtain ⟨-, -, hsize⟩ := h
  cases random with
  | false => exact ⟨hsize, Nat.le_refl _⟩
  | true =>
    have hsize : 20 ≤ nameSz.toNat := hsize
    have := Nat.mod_lt r.val (show 0 < nameSz.toNat - 19 by omega)
    simp only [drawnSize, if_true]
    omega

-- ---------------------------------------------------------------------------
-- The namespace and the digits
-- ---------------------------------------------------------------------------

theorem printPadded_six (hno : no < 10 ^ 6) : (printPadded 6 (no : Int)).take 6 = printPadded 6 no :=
  List.take_of_length_le (length_printPadded (by decide) hno).le

theorem isPrefix_nameText (h : ns.text.length + 6 ≤ rsz) : ns.text <+: nameText no ns rsz x := by
  rw [nameText, List.take_append, List.take_of_length_le (by omega), List.append_assoc]
  exact List.prefix_append _ _

theorem digit_notMem_ns (hc : c.isDigit = true) : c ∉ ns.text := by
  intro hmem
  have hall : ∀ c ∈ ns.text, c.isDigit = false := by
    cases ns <;> simp [NamespaceClass.text, Char.isDigit]
  rw [hall c hmem] at hc
  cases hc

theorem not_isPrefix_nameText (hrsz : 6 ≤ rsz) (h : rsz < ns.text.length + 6) :
    ¬ ns.text <+: nameText no ns rsz x := by
  rintro ⟨rest, hrest⟩
  have hbody : rsz - 6 - ns.text.length = 0 := by omega
  have hdigits := le_length_printPadded 6 (no : Int)
  obtain ⟨d, ds, hcons⟩ := List.exists_cons_of_ne_nil
    (List.ne_nil_of_length_pos (show 0 < (printPadded 6 (no : Int)).length by omega))
  have hd : d.isDigit = true :=
    isDigit_of_mem_printPadded (w := 6) (n := no) (hcons ▸ List.mem_cons_self)
  simp only [nameText, hbody, List.range'_zero, List.map_nil, List.append_nil, hcons,
    List.take_succ_cons] at hrest
  have hsplit : ns.text.drop (rsz - 6) ++ rest = d :: ds.take 5 := by
    have happend : ns.text.take (rsz - 6) ++ (ns.text.drop (rsz - 6) ++ rest) =
        ns.text.take (rsz - 6) ++ (d :: ds.take 5) := by
      rw [← List.append_assoc, List.take_append_drop, hrest]
    exact List.append_cancel_left happend
  obtain ⟨c, cs, hdrop⟩ := List.exists_cons_of_ne_nil
    (List.ne_nil_of_length_pos (show 0 < (ns.text.drop (rsz - 6)).length by
      rw [List.length_drop]
      omega))
  rw [hdrop, List.cons_append, List.cons.injEq] at hsplit
  have hmem : d ∈ ns.text.drop (rsz - 6) := by
    rw [hdrop, ← hsplit.1]
    exact List.mem_cons_self
  exact digit_notMem_ns hd (List.mem_of_mem_drop hmem)

theorem nameText_ne (hi : i < 10 ^ 6) (hj : j < 10 ^ 6) (hne : i ≠ j) :
    nameText i ns rsz x ≠ nameText j ns rsz' x' := by
  intro h
  rw [nameText, nameText, printPadded_six hi, printPadded_six hj] at h
  have hlen : (printPadded 6 (i : Int)).length = (printPadded 6 (j : Int)).length := by
    rw [length_printPadded (by decide) hi, length_printPadded (by decide) hj]
  exact hne (printPadded_injective (List.append_inj_right' h hlen))

theorem printPadded_million :
    (printPadded 6 (1000000 : Nat)).take 6 = (printPadded 6 (100000 : Nat)).take 6 := by
  have hsix : (printNat 100000).length = 6 := by decide +kernel
  have hseven : printNat 1000000 = printNat 100000 ++ ['0'] :=
    Nat.toDigits_of_base_le (by decide) (by decide)
  rw [printPadded_natCast, printPadded_natCast, hseven, List.length_append, hsix,
    show 6 - (6 + ['0'].length) = 0 from rfl, List.replicate_zero, List.nil_append,
    List.take_left' hsix, List.nil_append, List.take_of_length_le hsix.le]

theorem nameText_million : nameText 1000000 ns rsz x = nameText 100000 ns rsz x := by
  rw [nameText, nameText, printPadded_million]

theorem Roomy.makes (h : Roomy nameSz ns random) (hbuffer : nameSz.toNat + 1 < 2 ^ 32) :
    Makes nameSz ns random := by
  have hns := length_ns ns
  cases random with
  | false =>
    have h : ns.text.length + 6 ≤ nameSz.toNat := h
    exact ⟨hbuffer, by omega, show 6 ≤ nameSz.toNat by omega⟩
  | true =>
    have h : 20 ≤ nameSz.toNat := h
    exact ⟨hbuffer, by omega, h⟩

theorem Roomy.drawnSize (h : Roomy nameSz ns random) (r : Rand) :
    ns.text.length + 6 ≤ drawnSize nameSz random r := by
  have hns := length_ns ns
  cases random with
  | false => exact h
  | true =>
    simp only [Xattr.drawnSize, if_true]
    omega

theorem namesOk_of_roomy (h : Roomy nameSz ns random) (hbuffer : nameSz.toNat + 1 < 2 ^ 32)
    (hnums : nums ≤ 10 ^ 6) : NamesOk nameSz ns random nums where
  made no _ r x := by
    have hbounds := drawnSize_bounds (h.makes hbuffer) r
    refine ⟨_, makeName_eq (h.makes hbuffer), isPrefix_nameText (h.drawnSize r), ?_⟩
    rw [length_nameText hbounds.1]
    exact hbounds.2
  distinct i hi j hj hne r r' x x' a b ha hb := by
    rw [makeName_eq (h.makes hbuffer), Option.some.injEq] at ha hb
    rw [← ha, ← hb]
    exact nameText_ne (by omega) (by omega) hne

theorem NamesOk.roomy (h : NamesOk nameSz ns random nums) (hnums : 0 < nums) :
    Roomy nameSz ns random := by
  obtain ⟨name, hname, hns, -⟩ := h.made 0 hnums 0 fun _ => 0
  have hmakes := makes_of_some hname
  cases random with
  | true => exact hmakes.size
  | false =>
    rw [makeName_eq hmakes, Option.some.injEq] at hname
    subst hname
    by_contra hsmall
    exact not_isPrefix_nameText hmakes.size (Nat.not_le.mp hsmall) hns

theorem NamesOk.le_million (h : NamesOk nameSz ns random nums) : nums ≤ 10 ^ 6 := by
  by_contra hmany
  have hmakes : Makes nameSz ns random := by
    obtain ⟨name, hname, -⟩ := h.made 0 (by omega) 0 fun _ => 0
    exact makes_of_some hname
  refine h.distinct 1000000 (by omega) 100000 (by omega) (by decide) 0 0 (fun _ => 0) (fun _ => 0)
    _ _ (makeName_eq hmakes) (makeName_eq hmakes) nameText_million

end

/-- Names are as they should be unless there are more than a million, `-r` meets a
size below 20, or a name without `-r` has no room for its namespace and six digits. -/
theorem namesOk_iff (nameSz : UInt32) (ns : NamespaceClass) (random : Bool) (nums : Nat)
    (hlo : 11 ≤ nameSz.toNat) (hhi : nameSz.toNat ≤ 255) :
    NamesOk nameSz ns random nums ↔ nums = 0 ∨ Roomy nameSz ns random ∧ nums ≤ 10 ^ 6 := by
  constructor
  · intro h
    rcases Nat.eq_zero_or_pos nums with hzero | hpos
    · exact .inl hzero
    · exact .inr ⟨h.roomy hpos, h.le_million⟩
  · rintro (rfl | ⟨hroomy, hnums⟩)
    · exact ⟨fun _ h => absurd h (Nat.not_lt_zero _), fun _ h => absurd h (Nat.not_lt_zero _)⟩
    · exact namesOk_of_roomy hroomy (by omega) hnums

theorem namesOk_default : NamesOk 50 .user false 10 ↔ (10 = 0 ∨ Roomy 50 .user false ∧ 10 ≤ 10 ^ 6) :=
  namesOk_iff 50 .user false 10 (by decide) (by decide)

/-- `-r -l 19` divides by zero, `-n security -l 11` loses the end of the namespace,
and `-l 11 -x 1000001` makes one name for two attributes. -/
theorem namesOk_fails :
    ¬ NamesOk 19 .user true 1 ∧ ¬ NamesOk 11 .security false 1 ∧ ¬ NamesOk 11 .user false 1000001 := by
  refine ⟨fun h => ?_, fun h => ?_, fun h => ?_⟩
  · exact absurd (h.roomy Nat.one_pos) (by decide)
  · exact absurd (h.roomy Nat.one_pos) (by decide)
  · exact absurd h.le_million (by decide)

end Ocfs2Test.Xattr
