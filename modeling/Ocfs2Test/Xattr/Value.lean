import Ocfs2Test.Lib.CString

/-!
# Names and values of the xattr tests

`xattr-test-utils.c`: the generators of names and values, the constructor and the
validator of structured values, and the parser of listings. Buffers are lists of
characters; a string in a buffer ends at its first NUL. A draw is a function of
the index it is drawn for.
-/

namespace Ocfs2Test.Xattr

open Lib Stdio CString

abbrev Name := List Char

inductive NamespaceClass
  | user
  | system
  | trusted
  | security
  deriving DecidableEq

def NamespaceClass.text : NamespaceClass → Name
  | .user => ['u', 's', 'e', 'r', '.']
  | .system => ['s', 'y', 's', 't', 'e', 'm', '.']
  | .trusted => ['t', 'r', 'u', 's', 't', 'e', 'd', '.']
  | .security => ['s', 'e', 'c', 'u', 'r', 'i', 't', 'y', '.']

/-- `random_ch` at index `i`; `x` is the sum it is the remainder of. -/
def randomChar (i x : Nat) : Char :=
  match i % 3 with
  | 0 => Char.ofNat (x % 9 + 48)
  | 1 => Char.ofNat (x % 26 + 65)
  | _ => Char.ofNat (x % 26 + 97)

/-- From the namespace on, then the six digits of `no`; a name shorter than its
namespace and the digits loses the end of the namespace. -/
def xattrNameGenerator (no : Nat) (ns : NamespaceClass) (lo hi : Nat) (r : Rand) (x : Nat → Nat) :
    Name :=
  let rsz := r.val % (hi - lo + 1) + lo
  let body := (List.range' ns.text.length (rsz - 6 - ns.text.length)).map fun i => randomChar i (x i)
  (ns.text ++ body).take (rsz - 6) ++ (printPadded 6 no).take 6

def xattrValueGenerator (lo hi : Nat) (r : Rand) (x : Nat → Nat) : List Char :=
  let rsz := r.val % (hi - lo + 1) + lo
  (List.range (rsz - 1)).map fun i => randomChar i (x i)

-- ---------------------------------------------------------------------------
-- Structured values
-- ---------------------------------------------------------------------------

def valuePrefixMagic : List Char :=
  ['a', 'b', 'c', 'd', 'e', 'f', 'g', 'h', 'i', 'j', 'k', 'l', 'm', 'n', 'o', 'p', 'q', 'r', 's']

def valuePostfixMagic : List Char :=
  ['s', 'r', 'q', 'p', 'o', 'n', 'm', 'l', 'k', 'j', 'i', 'h', 'g', 'f', 'e', 'd', 'c', 'b', 'a']

/-- `value_sz`: as much of `"%05d"` as five characters hold. -/
def valueSzText (len : Nat) : List Char := (printPadded 5 ((len : Int).bmod (2 ^ 32))).take 5

/-- The five parts of a value. -/
def valueText (name value : List Char) : List Char :=
  let len := valuePrefixMagic.length + name.length + value.length + 5 + valuePostfixMagic.length
  valuePrefixMagic ++ (name ++ (value ++ (valueSzText len ++ valuePostfixMagic)))

/-- `setxattr` is always given the whole of `xattr_value`. -/
abbrev Value (valueSz : Nat) := List.Vector Char valueSz

/-- `a - b` as an `unsigned long`. -/
def subUnsignedLong (a b : Nat) : Nat := if b ≤ a then a - b else a + 2 ^ 64 - b

/-- The buffer `xattr_value`, unless a division by zero or a write past the end of
a buffer comes first. -/
def xattrValueConstructor (valueSz : Nat) (name : Name) (r : Rand) (x : Nat → Nat) :
    Option (Value valueSz) :=
  let hi := subUnsignedLong valueSz
    (valuePrefixMagic.length + valuePostfixMagic.length + name.length + 5)
  let value := xattrValueGenerator 1 hi r x
  if hi = 0 ∨ valueSz ≤ value.length then none
  else if h : (valueText name value).length < valueSz then
    some ⟨valueText name value ++ List.replicate (valueSz - (valueText name value).length) nul, by
      rw [List.length_append, List.length_replicate]
      omega⟩
  else none

/-- What the messages of the validator name. -/
inductive Conflict
  | magicPrefix
  | name
  | valueSize
  | magicPostfix
  deriving DecidableEq

/-- `get` is `xattr_value_get`. -/
def xattrValueValidator (name : Name) (get : List Char) : Except Conflict Unit :=
  if text (get.take valuePrefixMagic.length) ≠ valuePrefixMagic then .error .magicPrefix
  else if text ((get.drop valuePrefixMagic.length).take name.length) ≠ name then .error .name
  else
    let offset := strlen get - valuePostfixMagic.length - 5
    if atoi (text ((get.drop offset).take 5)) ≠ strlen get then .error .valueSize
    else if text ((get.drop (offset + 5)).take valuePostfixMagic.length) ≠ valuePostfixMagic then
      .error .magicPostfix
    else .ok ()

-- ---------------------------------------------------------------------------
-- Listings
-- ---------------------------------------------------------------------------

/-- The first `n` strings of the buffer. -/
def listParser : Nat → List Char → List Name
  | 0, _ => []
  | n + 1, list => text list :: listParser n ((list.dropWhile (· ≠ nul)).drop 1)

def isNamelistMember (nu : Nat) (name : Name) (nameList : Nat → Name) : Bool :=
  (List.range nu).any fun i => name = nameList i

def listing (names : List Name) : List Char := names.flatMap fun n => n ++ [nul]

-- ---------------------------------------------------------------------------
-- What the generators leave
-- ---------------------------------------------------------------------------

theorem ofNat_ne_nul (hlo : 0 < n) (hhi : n < 128) : Char.ofNat n ≠ nul := by
  intro h
  have hn : (Char.ofNat n).toNat = n := by
    rw [Char.toNat_ofNat, if_pos (.inl (by omega))]
  rw [h] at hn
  have : nul.toNat = 0 := rfl
  omega

theorem randomChar_ne_nul (i x : Nat) : randomChar i x ≠ nul := by
  have h9 := Nat.mod_lt x (show 0 < 9 by decide)
  have h26 := Nat.mod_lt x (show 0 < 26 by decide)
  unfold randomChar
  split <;> exact ofNat_ne_nul (by omega) (by omega)

theorem clean_map_randomChar (is : List Nat) (x : Nat → Nat) :
    Clean (is.map fun i => randomChar i (x i)) := by
  intro h
  obtain ⟨i, -, hi⟩ := List.mem_map.mp h
  exact randomChar_ne_nul i (x i) hi

theorem clean_ns (ns : NamespaceClass) : Clean ns.text := by
  cases ns <;> decide

/-- A name of the table: its number is in its last six characters. -/
structure IsName (no nameSz : Nat) (name : Name) : Prop where
  clean : Clean name
  ne_nil : name ≠ []
  length_le : name.length ≤ nameSz
  digits : ∃ start, name = start ++ printPadded 6 (no : Int)

theorem IsName.number_eq (h : IsName i nameSz name) (h' : IsName j nameSz name) (hi : i < 10 ^ 6)
    (hj : j < 10 ^ 6) : i = j := by
  obtain ⟨start, rfl⟩ := h.digits
  obtain ⟨start', heq⟩ := h'.digits
  have hlen : (printPadded 6 (i : Int)).length = (printPadded 6 (j : Int)).length := by
    rw [length_printPadded (by decide) hi, length_printPadded (by decide) hj]
  exact printPadded_injective (List.append_inj_right' heq hlen)

theorem xattrNameGenerator_isName (ns : NamespaceClass) (r : Rand) (x : Nat → Nat) (hno : no < 10 ^ 6)
    (hlo : 20 ≤ lo) (hhi : lo ≤ hi) : IsName no hi (xattrNameGenerator no ns lo hi r x) := by
  have hrsz : r.val % (hi - lo + 1) + lo ≤ hi := by
    have := Nat.mod_lt r.val (show 0 < hi - lo + 1 by omega)
    omega
  have hdigits : (printPadded 6 (no : Int)).take 6 = printPadded 6 (no : Int) := by
    rw [List.take_of_length_le (length_printPadded (by decide) hno).le]
  have hlen := length_printPadded (w := 6) (by decide) hno
  simp only [xattrNameGenerator, hdigits]
  refine ⟨.append (Clean.take (.append (clean_ns ns) (clean_map_randomChar _ _)) _)
    (clean_of_isDigit fun _ => isDigit_of_mem_printPadded), fun hnil => ?_, ?_, ⟨_, rfl⟩⟩
  · have := congrArg List.length hnil
    rw [List.length_append, hlen, List.length_nil] at this
    omega
  · rw [List.length_append, hlen, List.length_take]
    omega

theorem length_xattrValueGenerator (hi : Nat) (hhi : 0 < hi) (r : Rand) (x : Nat → Nat) :
    (xattrValueGenerator 1 hi r x).length < hi := by
  have hmod : r.val % (hi - 1 + 1) < hi - 1 + 1 := Nat.mod_lt _ (by omega)
  simp only [xattrValueGenerator, List.length_map, List.length_range]
  omega

theorem bmod_of_lt (h : len < 2 ^ 31) : ((len : Nat) : Int).bmod (2 ^ 32) = len :=
  Int.bmod_eq_of_le (by omega) (by omega)

theorem length_valueSzText (len : Nat) : (valueSzText len).length = 5 := by
  rw [valueSzText, List.length_take]
  exact Nat.min_eq_left (le_length_printPadded 5 _)

theorem clean_valueSzText (len : Nat) : Clean (valueSzText len) :=
  (clean_printPadded 5 _).take 5

theorem isDigit_of_mem_valueSzText (h : len < 2 ^ 31) (hc : c ∈ valueSzText len) :
    c.isDigit = true := by
  rw [valueSzText, bmod_of_lt h] at hc
  exact isDigit_of_mem_printPadded (List.mem_of_mem_take hc)

theorem atoi_valueSzText (h : len < 2 ^ 31) : atoi (valueSzText len) = len ↔ len < 100000 := by
  have hlen := length_valueSzText len
  have hdigits : ∀ c ∈ valueSzText len, c.isDigit = true := fun c => isDigit_of_mem_valueSzText h
  have hlt : Nat.ofDigitChars 10 (valueSzText len) 0 < 100000 := by
    simpa [hlen] using ofDigitChars_lt hdigits
  have hne : valueSzText len ≠ [] := fun hnil => by simp [hnil] at hlen
  rw [atoi_digits hne hdigits (by omega)]
  constructor
  · intro heq
    omega
  · intro hsmall
    have htake : valueSzText len = printPadded 5 (len : Int) := by
      rw [valueSzText, bmod_of_lt h,
        List.take_of_length_le (length_printPadded (by decide) (by simpa using hsmall)).le]
    rw [htake, ofDigitChars_printPadded]

theorem clean_prefixMagic : Clean valuePrefixMagic := by decide

theorem clean_postfixMagic : Clean valuePostfixMagic := by decide

section
variable {name value : List Char}

theorem length_valueText (name value : List Char) :
    (valueText name value).length = 43 + name.length + value.length := by
  have hpre : valuePrefixMagic.length = 19 := rfl
  have hpost : valuePostfixMagic.length = 19 := rfl
  simp only [valueText, List.length_append, hpre, hpost, length_valueSzText]
  omega

theorem clean_valueText (hname : Clean name) (hvalue : Clean value) : Clean (valueText name value) :=
  clean_prefixMagic.append (hname.append (hvalue.append
    ((clean_valueSzText _).append clean_postfixMagic)))

theorem validator_parts {get size rest : List Char} (hname : Clean name) (hsize : Clean size)
    (hfive : size.length = 5)
    (hget : get = valuePrefixMagic ++ (name ++ (value ++ (size ++ (valuePostfixMagic ++ rest)))))
    (hlen : strlen get = 43 + name.length + value.length) :
    xattrValueValidator name get = if atoi size = strlen get then .ok () else .error .valueSize := by
  have hhead : get.take valuePrefixMagic.length = valuePrefixMagic := by rw [hget, List.take_left]
  have hmiddle : (get.drop valuePrefixMagic.length).take name.length = name := by
    rw [hget, List.drop_left, List.take_left]
  have hoffset : strlen get - valuePostfixMagic.length - 5 =
      (valuePrefixMagic ++ (name ++ value)).length := by
    have hpre : valuePrefixMagic.length = 19 := rfl
    have hpost : valuePostfixMagic.length = 19 := rfl
    simp only [List.length_append]
    omega
  have hdrop : get.drop (strlen get - valuePostfixMagic.length - 5) =
      size ++ (valuePostfixMagic ++ rest) := by
    have hassoc : get = (valuePrefixMagic ++ (name ++ value)) ++ (size ++ (valuePostfixMagic ++ rest)) := by
      simp only [hget, List.append_assoc]
    rw [hoffset]
    conv_lhs => rw [hassoc]
    exact List.drop_left
  have htail : (get.drop (strlen get - valuePostfixMagic.length - 5 + 5)).take
      valuePostfixMagic.length = valuePostfixMagic := by
    rw [← List.drop_drop, hdrop, List.drop_left' hfive, List.take_left]
  rw [xattrValueValidator, hhead, text_clean clean_prefixMagic, if_neg (not_not.mpr rfl), hmiddle,
    text_clean hname, if_neg (not_not.mpr rfl)]
  simp only [htail, text_clean clean_postfixMagic, hdrop, List.take_left' hfive, text_clean hsize,
    ne_eq, not_true_eq_false, if_false, ite_not]

theorem validator_valueText (h : 43 + name.length + value.length < 2 ^ 31) (hname : Clean name)
    (hvalue : Clean value) (k : Nat) :
    xattrValueValidator name (valueText name value ++ List.replicate k nul) =
      if 43 + name.length + value.length < 100000 then .ok () else .error .valueSize := by
  have hstrlen : strlen (valueText name value ++ List.replicate k nul) =
      43 + name.length + value.length := by
    rw [strlen, text_padded (clean_valueText hname hvalue), length_valueText]
  have hsum : valuePrefixMagic.length + name.length + value.length + 5 + valuePostfixMagic.length =
      43 + name.length + value.length := by
    have hpre : valuePrefixMagic.length = 19 := rfl
    have hpost : valuePostfixMagic.length = 19 := rfl
    omega
  have hget : valueText name value ++ List.replicate k nul = valuePrefixMagic ++ (name ++ (value ++
      (valueSzText (43 + name.length + value.length) ++
        (valuePostfixMagic ++ List.replicate k nul)))) := by
    simp only [valueText, hsum, List.append_assoc]
  rw [validator_parts hname (clean_valueSzText _) (length_valueSzText _) hget hstrlen, hstrlen]
  simp only [atoi_valueSzText h]

end

section
variable {valueSz : Nat} {name : Name} {v : Value valueSz}

/-- The buffer holds a structured value of that name. -/
def Constructed (name : Name) (v : Value valueSz) : Prop :=
  ∃ value, Clean value ∧ 43 + name.length + value.length < valueSz ∧
    v.toList = valueText name value ++ List.replicate (valueSz - (valueText name value).length) nul

theorem xattrValueConstructor_eq (hroom : name.length + 43 < valueSz) (r : Rand) (x : Nat → Nat) :
    ∃ v, xattrValueConstructor valueSz name r x = some v ∧
      v.toList = valueText name (xattrValueGenerator 1 (valueSz - (name.length + 43)) r x) ++
        List.replicate (valueSz - (valueText name
          (xattrValueGenerator 1 (valueSz - (name.length + 43)) r x)).length) nul := by
  have hhi : subUnsignedLong valueSz
      (valuePrefixMagic.length + valuePostfixMagic.length + name.length + 5) =
        valueSz - (name.length + 43) := by
    have hpre : valuePrefixMagic.length = 19 := rfl
    have hpost : valuePostfixMagic.length = 19 := rfl
    rw [subUnsignedLong, if_pos (by omega)]
    omega
  have hvalue := length_xattrValueGenerator (valueSz - (name.length + 43)) (by omega) r x
  have hlen := length_valueText name (xattrValueGenerator 1 (valueSz - (name.length + 43)) r x)
  simp only [xattrValueConstructor, hhi]
  rw [if_neg (by omega), dif_pos (by omega)]
  exact ⟨_, rfl, rfl⟩

theorem xattrValueConstructor_constructed (hroom : name.length + 43 < valueSz) (r : Rand)
    (x : Nat → Nat) :
    ∃ v, xattrValueConstructor valueSz name r x = some v ∧ Constructed name v := by
  obtain ⟨v, hv, htext⟩ := xattrValueConstructor_eq hroom r x
  have hvalue := length_xattrValueGenerator (valueSz - (name.length + 43)) (by omega) r x
  exact ⟨v, hv, xattrValueGenerator 1 _ r x, clean_map_randomChar _ _, by omega, htext⟩

theorem Constructed.validator (h : Constructed name v) (hname : Clean name) (hsz : valueSz ≤ 100000) :
    xattrValueValidator name v.toList = .ok () := by
  obtain ⟨value, hvalue, hlen, htext⟩ := h
  rw [htext, validator_valueText (by omega) hname hvalue, if_pos (by omega)]

theorem Constructed.text_ne_nil (h : Constructed name v) : text v.toList ≠ [] := by
  obtain ⟨value, -, -, htext⟩ := h
  rw [htext]
  simp [valueText, valuePrefixMagic, text, show 'a' ≠ nul by decide]

end

-- ---------------------------------------------------------------------------
-- Reading a listing back
-- ---------------------------------------------------------------------------

theorem listing_cons (n : Name) (ns : List Name) : listing (n :: ns) = n ++ nul :: listing ns := by
  simp [listing]

theorem listParser_listing (rest : List Char) (h : ∀ n ∈ names, Clean n) :
    listParser names.length (listing names ++ rest) = names := by
  induction names with
  | nil => rfl
  | cons n names ih =>
    rw [List.forall_mem_cons] at h
    rw [List.length_cons, listParser, listing_cons, List.append_assoc, List.cons_append,
      text_append h.1, dropWhile_append h.1, List.drop_one, List.tail_cons, ih h.2]

theorem length_listing_le (h : ∀ n ∈ names, n.length ≤ nameSz) :
    (listing names).length ≤ (nameSz + 1) * names.length := by
  induction names with
  | nil => simp [listing]
  | cons n names ih =>
    rw [List.forall_mem_cons] at h
    have := ih h.2
    rw [listing_cons, List.length_append, List.length_cons, List.length_cons, Nat.mul_succ]
    omega

theorem isNamelistMember_iff : isNamelistMember nu name names = true ↔ ∃ i < nu, name = names i := by
  simp [isNamelistMember]

end Ocfs2Test.Xattr
