import Ocfs2Test.Xattr.Names

/-!
# The listing check of xattr-test

`list_parser` copies as many strings out of the list buffer as there are names in the
table, each into a slot of `xattr_name_sz + 1` bytes, and never looks at the length
that `listxattr` returned. The check after it asks whether each of them is in the
table.
-/

namespace Ocfs2Test.Xattr

open Lib Stdio CString

/-- What lies outside its buffer: a byte that is read, or one that is written. -/
inductive OutOfBounds
  | list
  | slot
  deriving DecidableEq

/-- `list_parser` from where it is in the list, for the slots that are left. -/
def parseInto (nameSz : Nat) : Nat → List Char → Except OutOfBounds (List Name)
  | 0, _ => .ok []
  | n + 1, list =>
    if nameSz < strlen list then .error .slot
    else if nul ∉ list then .error .list
    else (parseInto nameSz n ((list.dropWhile (· ≠ nul)).drop 1)).map (text list :: ·)

structure NameTable (nameSz nums : Nat) where
  names : List Name
  length_eq : names.length = nums
  nodup : names.Nodup
  clean : ∀ name ∈ names, Clean name
  ne_nil : ∀ name ∈ names, name ≠ []
  length_le : ∀ name ∈ names, name.length ≤ nameSz

/-- The names that are listed, in the order of the listing. -/
structure Listed (listSz : Nat) where
  names : List Name
  nodup : names.Nodup
  clean : ∀ name ∈ names, Clean name
  ne_nil : ∀ name ∈ names, name ≠ []
  fits : (listing names).length ≤ listSz

def Listed.buffer (l : Listed listSz) : List Char :=
  listing l.names ++ List.replicate (listSz - (listing l.names).length) nul

section
variable {nameSz nums : Nat}

def listTest (t : NameTable nameSz nums) (list : List Char) : Except OutOfBounds Bool :=
  (parseInto nameSz nums list).map fun get =>
    get.all fun name => isNamelistMember nums name fun j => t.names.getD j []

/-- Nothing outside the buffers is touched, and what is listed is what is in the table
exactly when the check passes. -/
def ListTestOk (t : NameTable nameSz nums) (l : Listed ((nameSz + 1) * nums)) : Prop :=
  ∃ passed, listTest t l.buffer = .ok passed ∧
    (passed = true ↔ ∀ name, name ∈ l.names ↔ name ∈ t.names)

-- ---------------------------------------------------------------------------
-- What is parsed
-- ---------------------------------------------------------------------------

theorem parseInto_append {name : List Char} (h : Clean name) (nameSz n : Nat) (buf : List Char) :
    parseInto nameSz (n + 1) (name ++ nul :: buf) =
      if nameSz < name.length then .error .slot
      else (parseInto nameSz n buf).map (name :: ·) := by
  rw [parseInto, strlen, text_append h, dropWhile_append h, List.drop_one, List.tail_cons,
    if_neg (show ¬ nul ∉ name ++ nul :: buf by simp)]

theorem parseInto_zeros (n k : Nat) : parseInto nameSz n (List.replicate k nul) =
    if n ≤ k then .ok (List.replicate n []) else .error .list := by
  induction n generalizing k with
  | zero => simp [parseInto]
  | succ n ih =>
    cases k with
    | zero => simp [parseInto, strlen, text]
    | succ k =>
      have hstep := parseInto_append (show Clean [] by simp [Clean]) nameSz n (List.replicate k nul)
      rw [List.replicate_succ, ← List.nil_append (nul :: _), hstep, List.length_nil,
        if_neg (Nat.not_lt_zero _), ih]
      simp only [Nat.add_le_add_iff_right]
      split
      · rfl
      · rfl

theorem parseInto_listing {names : List Name} (h : ∀ name ∈ names, Clean name) (n k : Nat)
    (got : List Name) : parseInto nameSz n (listing names ++ List.replicate k nul) = .ok got ↔
      (∀ name ∈ names.take n, name.length ≤ nameSz) ∧ n ≤ names.length + k ∧
        got = names.take n ++ List.replicate (n - names.length) [] := by
  induction names generalizing n got with
  | nil =>
    rw [listing, List.flatMap_nil, List.nil_append, parseInto_zeros]
    split
    · next hle => simp [hle, eq_comm]
    · next hgt => simp [hgt]
  | cons name names ih =>
    rw [List.forall_mem_cons] at h
    cases n with
    | zero => simp [parseInto, eq_comm]
    | succ n =>
      rw [listing_cons, List.append_assoc, List.cons_append, parseInto_append h.1]
      split
      · next hlong =>
        have : ¬ name.length ≤ nameSz := not_le.mpr hlong
        simp [this]
      · next hshort =>
        rw [not_lt] at hshort
        rw [List.take_succ_cons, List.forall_mem_cons, List.length_cons, Nat.add_sub_add_right]
        constructor
        · intro hmap
          cases hrest : parseInto nameSz n (listing names ++ List.replicate k nul) with
          | error e =>
            rw [hrest] at hmap
            cases hmap
          | ok rest =>
            rw [hrest] at hmap
            cases hmap
            obtain ⟨hle, hroom, rfl⟩ := (ih h.2 n rest).mp hrest
            exact ⟨⟨hshort, hle⟩, by omega, rfl⟩
        · rintro ⟨⟨-, hle⟩, hroom, rfl⟩
          rw [(ih h.2 n _).mpr ⟨hle, by omega, rfl⟩]
          rfl

-- ---------------------------------------------------------------------------
-- What is checked
-- ---------------------------------------------------------------------------

variable (t : NameTable nameSz nums)

theorem NameTable.isNamelistMember_iff (name : Name) :
    (isNamelistMember nums name fun j => t.names.getD j []) = true ↔ name ∈ t.names := by
  rw [Xattr.isNamelistMember_iff]
  constructor
  · rintro ⟨j, hj, rfl⟩
    rw [← t.length_eq] at hj
    rw [List.getD_eq_getElem _ _ hj]
    exact List.getElem_mem hj
  · intro hmem
    obtain ⟨j, hj, hget⟩ := List.getElem_of_mem hmem
    refine ⟨j, t.length_eq ▸ hj, ?_⟩
    rw [List.getD_eq_getElem _ _ hj, hget]

theorem NameTable.nil_notMem : [] ∉ t.names := fun h => t.ne_nil _ h rfl

variable {t} {l : Listed ((nameSz + 1) * nums)}

theorem subset_iff_same (hlen : l.names.length = nums) :
    (∀ name ∈ l.names, name ∈ t.names) ↔ ∀ name, name ∈ l.names ↔ name ∈ t.names := by
  constructor
  · intro hsub name
    have hperm := (l.nodup.subperm hsub).perm_of_length_le (t.length_eq.trans hlen.symm).le
    exact hperm.mem_iff
  · exact fun h name => (h name).mp

theorem length_eq_of_same (h : ∀ name, name ∈ l.names ↔ name ∈ t.names) :
    l.names.length = nums := by
  rw [((List.perm_ext_iff_of_nodup l.nodup t.nodup).mpr h).length_eq, t.length_eq]

/-- Names that fit their slots leave a byte of the list for every one that is missing. -/
theorem Listed.room (h : ∀ name ∈ l.names.take nums, name.length ≤ nameSz) :
    nums ≤ l.names.length + ((nameSz + 1) * nums - (listing l.names).length) := by
  rcases Nat.le_total nums l.names.length with hle | hle
  · exact hle.trans (Nat.le_add_right _ _)
  · rw [List.take_of_length_le hle] at h
    obtain ⟨d, hd⟩ := Nat.exists_eq_add_of_le hle
    have hlisting := length_listing_le h
    have hmissing : d ≤ (nameSz + 1) * d := Nat.le_mul_of_pos_left d (Nat.succ_pos _)
    have hsz : (nameSz + 1) * nums = (nameSz + 1) * l.names.length + (nameSz + 1) * d := by
      conv_lhs => rw [hd, Nat.mul_add]
    omega

theorem listTest_eq (h : ∀ name ∈ l.names.take nums, name.length ≤ nameSz) :
    ∃ passed, listTest t l.buffer = .ok passed ∧
      (passed = true ↔ nums ≤ l.names.length ∧ ∀ name ∈ l.names.take nums, name ∈ t.names) := by
  have hparse := (parseInto_listing l.clean nums ((nameSz + 1) * nums - (listing l.names).length) _).mpr
    ⟨h, l.room h, rfl⟩
  refine ⟨_, by rw [listTest, Listed.buffer, hparse]; rfl, ?_⟩
  simp only [List.all_append, Bool.and_eq_true, List.all_eq_true, t.isNamelistMember_iff,
    List.mem_replicate]
  constructor
  · rintro ⟨htaken, hempty⟩
    refine ⟨?_, htaken⟩
    by_contra hshort
    exact t.nil_notMem (hempty [] ⟨by omega, rfl⟩)
  · rintro ⟨hle, htaken⟩
    refine ⟨htaken, ?_⟩
    rintro name ⟨hpos, -⟩
    omega

end

/-- The check is right when the names it parses fit their slots, unless they are all in
the table and more are listed behind them. -/
theorem listTestOk_iff (t : NameTable nameSz nums) (l : Listed ((nameSz + 1) * nums)) :
    ListTestOk t l ↔ (∀ name ∈ l.names.take nums, name.length ≤ nameSz) ∧
      ¬ (nums < l.names.length ∧ ∀ name ∈ l.names.take nums, name ∈ t.names) := by
  constructor
  · rintro ⟨passed, hpassed, hiff⟩
    have hfit : ∀ name ∈ l.names.take nums, name.length ≤ nameSz := by
      cases hparse : parseInto nameSz nums l.buffer with
      | error e =>
        rw [listTest, hparse] at hpassed
        cases hpassed
      | ok get => exact ((parseInto_listing l.clean _ _ _).mp hparse).1
    refine ⟨hfit, ?_⟩
    rintro ⟨hmore, htaken⟩
    obtain ⟨passed', hpassed', hiff'⟩ := listTest_eq (t := t) hfit
    obtain rfl : passed = passed' := Except.ok.inj (hpassed.symm.trans hpassed')
    have hsame := length_eq_of_same (hiff.mp (hiff'.mpr ⟨hmore.le, htaken⟩))
    omega
  · rintro ⟨hfit, hmore⟩
    obtain ⟨passed, hpassed, hiff⟩ := listTest_eq (t := t) hfit
    refine ⟨passed, hpassed, hiff.trans ⟨?_, fun hsame => ?_⟩⟩
    · rintro ⟨hle, htaken⟩
      have hlen : l.names.length = nums :=
        le_antisymm (not_lt.mp fun hlt => hmore ⟨hlt, htaken⟩) hle
      rw [List.take_of_length_le hlen.le] at htaken
      exact (subset_iff_same hlen).mp htaken
    · have hlen := length_eq_of_same hsame
      rw [List.take_of_length_le hlen.le]
      exact ⟨hlen.ge, (subset_iff_same hlen).mpr hsame⟩

def userName : Name := nameText 0 .user 20 fun _ => 0

def selinuxName : Name := NamespaceClass.security.text ++ ['s', 'e', 'l', 'i', 'n', 'u', 'x']

def oneName : NameTable 50 1 where
  names := [userName]
  length_eq := rfl
  nodup := List.nodup_singleton _
  clean := by decide
  ne_nil := by decide
  length_le := by decide

def twoListed : Listed ((50 + 1) * 1) where
  names := [userName, selinuxName]
  nodup := by decide
  clean := by decide
  ne_nil := by decide
  fits := by decide

/-- The name that is listed second is not looked at. -/
theorem listTest_twoListed : listTest oneName twoListed.buffer = .ok true ∧
    selinuxName ∈ twoListed.names ∧ selinuxName ∉ oneName.names ∧ ¬ ListTestOk oneName twoListed := by
  have htest : listTest oneName twoListed.buffer = .ok true := by decide
  refine ⟨htest, by decide, by decide, ?_⟩
  rintro ⟨passed, hpassed, hiff⟩
  obtain rfl : true = passed := Except.ok.inj (htest.symm.trans hpassed)
  have hmem := (hiff.mp rfl selinuxName).mp (by decide)
  exact absurd hmem (by decide)

end Ocfs2Test.Xattr
