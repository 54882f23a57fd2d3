import Mathlib

/-!
# File trees

The objects of a file system by the paths they have, and what the calls do that
create, list and remove them. What has a path within another one has a directory
there, so an object that is removed when nothing is listed in it is gone with all
that is below it.
-/

namespace Lib

inductive FileKind
  | dir
  | reg
  | other
  deriving DecidableEq, Repr

namespace FilePath

def join (p n : List Char) : List Char := p ++ '/' :: n

/-- What a directory may have an entry for, besides the dots. -/
structure IsEntry (n : List Char) : Prop where
  ne_nil : n ≠ []
  ne_dot : n ≠ ['.']
  ne_dotDot : n ≠ ['.', '.']
  noSlash : '/' ∉ n

instance : DecidablePred IsEntry := fun n =>
  decidable_of_iff (n ≠ [] ∧ n ≠ ['.'] ∧ n ≠ ['.', '.'] ∧ '/' ∉ n)
    ⟨fun ⟨h₁, h₂, h₃, h₄⟩ => ⟨h₁, h₂, h₃, h₄⟩, fun ⟨h₁, h₂, h₃, h₄⟩ => ⟨h₁, h₂, h₃, h₄⟩⟩

/-- The path itself, or a path within it. -/
def Below (p q : List Char) : Prop := q = p ∨ p ++ ['/'] <+: q

instance (p q : List Char) : Decidable (Below p q) := inferInstanceAs (Decidable (_ ∨ _))

/-- The entry of `p` that is `q`. -/
def entryOf (p q : List Char) : Option (List Char) :=
  if p ++ ['/'] <+: q ∧ '/' ∉ q.drop (p.length + 1) then some (q.drop (p.length + 1)) else none

/-- What is before the last slash, and what is behind it. -/
def split (p : List Char) : Option (List Char × List Char) :=
  let n := p.rtakeWhile (· ≠ '/')
  if n.length < p.length then some (p.take (p.length - n.length - 1), n) else none

section
variable {p q n m r : List Char}

theorem join_eq (p n : List Char) : join p n = (p ++ ['/']) ++ n := by
  rw [join, List.append_assoc, List.singleton_append]

theorem join_inj_right : join p n = join p m ↔ n = m := by
  rw [join_eq, join_eq, List.append_cancel_left_eq]

theorem length_join (p n : List Char) : (join p n).length = p.length + 1 + n.length := by
  rw [join, List.length_append, List.length_cons]
  omega

theorem below_iff : Below p q ↔ q = p ∨ ∃ r, q = join p r := by
  simp only [Below, join_eq, List.IsPrefix, eq_comm]

theorem Below.refl (p : List Char) : Below p p := .inl rfl

theorem below_join (p n : List Char) : Below p (join p n) := .inr ⟨n, (join_eq p n).symm⟩

theorem Below.of_join (h : Below (join p n) q) : ∃ r, q = join p r := by
  rcases below_iff.mp h with rfl | ⟨r, rfl⟩
  · exact ⟨n, rfl⟩
  · exact ⟨join n r, by simp [join]⟩

theorem Below.trans (h : Below p q) (h' : Below q r) : Below p r := by
  rcases below_iff.mp h with rfl | ⟨s, rfl⟩
  · exact h'
  · obtain ⟨r', rfl⟩ | rfl : (∃ r', r = join p r') ∨ r = join p s := by
      rcases below_iff.mp h' with rfl | ⟨r', rfl⟩
      · exact .inr rfl
      · exact .inl h'.of_join
    · exact below_join p r'
    · exact below_join p s

theorem not_below_self_of_join (p n : List Char) : ¬ Below (join p n) p := by
  intro h
  obtain ⟨r, hr⟩ := h.of_join
  have := congrArg List.length hr
  rw [length_join] at this
  omega

/-- Of what is within `p`, the part up to the next slash says which entry it is below. -/
theorem below_join_iff (hn : '/' ∉ n) :
    Below (join p n) (join p r) ↔ r.takeWhile (· ≠ '/') = n := by
  have hall : ∀ c ∈ n, decide (c ≠ '/') = true := by
    intro c hc
    rw [decide_eq_true_eq]
    rintro rfl
    exact hn hc
  constructor
  · intro h
    rcases below_iff.mp h with heq | ⟨s, heq⟩
    · rw [join_inj_right.mp heq, List.takeWhile_eq_self_iff.mpr hall]
    · have hr : r = n ++ '/' :: s := by
        rw [← join_inj_right (p := p), heq]
        simp [join]
      rw [hr, List.takeWhile_append_of_pos hall]
      simp
  · intro h
    rw [← List.takeWhile_append_dropWhile (p := (· ≠ '/')) (l := r), h]
    cases hdrop : r.dropWhile (· ≠ '/') with
    | nil =>
      rw [List.append_nil]
      exact .refl _
    | cons c s =>
      have hc : c = '/' := by
        have := List.head?_dropWhile_not (· ≠ '/') r
        rw [hdrop] at this
        simpa using this
      subst hc
      have : join p (n ++ '/' :: s) = join (join p n) s := by simp [join]
      rw [this]
      exact below_join _ s

theorem entryOf_eq_some : entryOf p q = some n ↔ '/' ∉ n ∧ q = join p n := by
  have hdrop (n : List Char) : (join p n).drop (p.length + 1) = n := by
    rw [join_eq, List.drop_left']
    simp
  unfold entryOf
  constructor
  · intro h
    rw [Option.ite_none_right_eq_some, Option.some.injEq] at h
    obtain ⟨⟨⟨m, hm⟩, hslash⟩, rfl⟩ := h
    rw [← join_eq] at hm
    subst hm
    rw [hdrop] at hslash ⊢
    exact ⟨hslash, rfl⟩
  · rintro ⟨hslash, rfl⟩
    rw [hdrop, if_pos ⟨⟨n, (join_eq p n).symm⟩, hslash⟩]

theorem split_join (hn : '/' ∉ n) : split (join p n) = some (p, n) := by
  have hlast : (join p n).rtakeWhile (· ≠ '/') = n := by
    have hall : ∀ c ∈ n.reverse, decide (c ≠ '/') = true := by
      intro c hc
      rw [decide_eq_true_eq]
      rintro rfl
      exact hn (List.mem_reverse.mp hc)
    rw [List.rtakeWhile, join, List.reverse_append, List.reverse_cons, List.append_assoc,
      List.takeWhile_append_of_pos hall]
    simp
  rw [split, hlast]
  simp only [length_join]
  rw [if_pos (by omega), show p.length + 1 + n.length - n.length - 1 = p.length by omega, join,
    List.take_left]

end

end FilePath

open FilePath

/-- What is a path's entry is the entry of a directory. -/
structure FileTree where
  objects : AList fun _ : List Char => FileKind
  parent : ∀ p n, '/' ∉ n → join p n ∈ objects → objects.lookup p = some .dir
  isEntry : ∀ p n, '/' ∉ n → join p n ∈ objects → IsEntry n

namespace FileTree

def lookup (t : FileTree) (p : List Char) : Option FileKind := t.objects.lookup p

/-- The entries of a directory without the dots. -/
def children (t : FileTree) (p : List Char) : List (List Char × FileKind) :=
  t.objects.entries.filterMap fun e => (entryOf p e.1).map fun n => (n, e.2)

section
variable {t t' : FileTree} {p q n r : List Char} {k : FileKind}

theorem mem_objects : p ∈ t.objects ↔ t.lookup p ≠ none := by
  rw [Ne, lookup, AList.lookup_eq_none, not_not]

theorem mem_children : (n, k) ∈ t.children p ↔ '/' ∉ n ∧ t.lookup (join p n) = some k := by
  rw [children, List.mem_filterMap]
  constructor
  · rintro ⟨⟨q, k'⟩, hmem, h⟩
    rw [Option.map_eq_some_iff] at h
    obtain ⟨m, hm, heq⟩ := h
    cases heq
    obtain ⟨hslash, rfl⟩ := entryOf_eq_some.mp hm
    exact ⟨hslash, AList.mem_lookup_iff.mpr hmem⟩
  · rintro ⟨hslash, hlookup⟩
    refine ⟨⟨join p n, k⟩, AList.mem_lookup_iff.mp hlookup, ?_⟩
    rw [entryOf_eq_some.mpr ⟨hslash, rfl⟩]
    rfl

theorem nodup_children (t : FileTree) (p : List Char) : ((t.children p).map Prod.fst).Nodup := by
  have hkeys : t.objects.entries.Pairwise fun e e' => e.1 ≠ e'.1 :=
    List.pairwise_map.mp t.objects.nodupKeys
  rw [List.Nodup, List.pairwise_map, children, List.pairwise_filterMap]
  refine hkeys.imp ?_
  rintro ⟨q, k⟩ ⟨q', k'⟩ hne ⟨n, l⟩ h ⟨n', l'⟩ h'
  obtain ⟨m, hm, heq⟩ := Option.map_eq_some_iff.mp h
  obtain ⟨m', hm', heq'⟩ := Option.map_eq_some_iff.mp h'
  cases heq
  cases heq'
  obtain ⟨-, rfl⟩ := entryOf_eq_some.mp hm
  obtain ⟨-, rfl⟩ := entryOf_eq_some.mp hm'
  rintro rfl
  exact hne rfl

theorem IsEntry.of_mem_children (h : (n, k) ∈ t.children p) : IsEntry n := by
  obtain ⟨hslash, hlookup⟩ := mem_children.mp h
  exact t.isEntry p n hslash (mem_objects.mpr (by rw [hlookup]; simp))

theorem lookup_of_mem_children (h : (n, k) ∈ t.children p) : t.lookup p = some .dir := by
  obtain ⟨hslash, hlookup⟩ := mem_children.mp h
  exact t.parent p n hslash (mem_objects.mpr (by rw [hlookup]; simp))

theorem children_of_not_dir (h : t.lookup p ≠ some .dir) : t.children p = [] := by
  rw [List.eq_nil_iff_forall_not_mem]
  rintro ⟨n, k⟩ hmem
  exact h (lookup_of_mem_children hmem)

theorem join_append_slash (p n s : List Char) : join p (n ++ '/' :: s) = join (join p n) s := by
  simp [join]

def names (t : FileTree) (p : List Char) : Finset (List Char) :=
  ((t.children p).map Prod.fst).toFinset

theorem mem_names : n ∈ t.names p ↔ '/' ∉ n ∧ t.lookup (join p n) ≠ none := by
  rw [names, List.mem_toFinset, List.mem_map]
  constructor
  · rintro ⟨⟨m, k⟩, hmem, rfl⟩
    obtain ⟨hslash, hlookup⟩ := mem_children.mp hmem
    exact ⟨hslash, by simp [hlookup]⟩
  · rintro ⟨hslash, hne⟩
    obtain ⟨k, hk⟩ := Option.ne_none_iff_exists'.mp hne
    exact ⟨(n, k), mem_children.mpr ⟨hslash, hk⟩, rfl⟩

theorem card_names (t : FileTree) (p : List Char) :
    (t.names p).card = (t.children p).length := by
  rw [names, List.toFinset_card_of_nodup (nodup_children t p), List.length_map]

/-- What is within another path is within a directory. The induction is on the part
behind the first entry. -/
theorem lookup_of_join (h : t.lookup (join p r) ≠ none) : t.lookup p = some .dir := by
  induction hlen : r.length using Nat.strong_induction_on generalizing p r with
  | _ len ih =>
    by_cases hslash : '/' ∈ r
    · obtain ⟨n, s, rfl, hn⟩ := List.eq_append_cons_of_mem hslash
      rw [join_append_slash] at h
      have hdir := ih s.length (by rw [← hlen, List.length_append, List.length_cons]; omega) h rfl
      exact t.parent p n hn (mem_objects.mpr (by rw [hdir]; simp))
    · exact t.parent p r hslash (mem_objects.mpr h)

theorem lookup_eq_none_of_below (h : t.lookup p = none) (hq : Below p q) : t.lookup q = none := by
  obtain rfl | ⟨r, rfl⟩ := below_iff.mp hq
  · exact h
  · by_contra hr
    rw [lookup_of_join hr] at h
    cases h

/-- And it is below an entry of that directory. -/
theorem exists_child (h : t.lookup (join p r) ≠ none) :
    ∃ n k, (n, k) ∈ t.children p ∧ Below (join p n) (join p r) := by
  by_cases hslash : '/' ∈ r
  · obtain ⟨n, s, rfl, hn⟩ := List.eq_append_cons_of_mem hslash
    rw [join_append_slash] at h ⊢
    exact ⟨n, .dir, mem_children.mpr ⟨hn, lookup_of_join h⟩, below_join _ s⟩
  · obtain ⟨k, hk⟩ := Option.ne_none_iff_exists'.mp h
    exact ⟨r, k, mem_children.mpr ⟨hslash, hk⟩, .refl _⟩

theorem lookup_of_children_nil (h : t.children p = []) (hq : Below p q) (hne : q ≠ p) :
    t.lookup q = none := by
  obtain rfl | ⟨r, rfl⟩ := below_iff.mp hq
  · exact absurd rfl hne
  · by_contra hr
    obtain ⟨n, k, hmem, -⟩ := exists_child hr
    rw [h] at hmem
    cases hmem

end

-- ---------------------------------------------------------------------------
-- Removing
-- ---------------------------------------------------------------------------

/-- Without an object that has no entries. -/
def erase (t : FileTree) (p : List Char) (h : t.children p = []) : FileTree where
  objects := t.objects.erase p
  parent q n hn hmem := by
    have hmem' := (AList.mem_erase.mp hmem).2
    have hdir := t.parent q n hn hmem'
    rw [AList.lookup_erase_ne, hdir]
    rintro rfl
    obtain ⟨k, hk⟩ := Option.ne_none_iff_exists'.mp (mem_objects.mp hmem')
    have := mem_children.mpr ⟨hn, hk⟩
    rw [h] at this
    cases this
  isEntry q n hn hmem := t.isEntry q n hn (AList.mem_erase.mp hmem).2

def unlink (p : List Char) (t : FileTree) : Option FileTree :=
  if h : t.lookup p ≠ some .dir ∧ t.lookup p ≠ none then
    some (t.erase p (children_of_not_dir h.1))
  else none

def rmdir (p : List Char) (t : FileTree) : Option FileTree :=
  if h : t.lookup p = some .dir ∧ t.children p = [] then some (t.erase p h.2) else none

/-- Without all that is below a path. -/
def Removed (p : List Char) (t t' : FileTree) : Prop :=
  ∀ q, t'.lookup q = if Below p q then none else t.lookup q

section
variable {t t' : FileTree} {p q n r : List Char} {k : FileKind}

theorem removed_erase (h : t.children p = []) : Removed p t (t.erase p h) := by
  intro q
  show (t.objects.erase p).lookup q = _
  by_cases hqp : q = p
  · subst hqp
    rw [AList.lookup_erase, if_pos (.refl q)]
  · rw [AList.lookup_erase_ne hqp]
    split
    · next hbelow => exact lookup_of_children_nil h hbelow hqp
    · rfl

theorem exists_unlink (h : t.lookup p = some .reg) :
    ∃ t', t.unlink p = some t' ∧ Removed p t t' := by
  refine ⟨_, dif_pos ⟨?_, ?_⟩, removed_erase _⟩
  · rw [h]
    decide
  · rw [h]
    decide

theorem exists_rmdir (h : t.lookup p = some .dir) (hchildren : t.children p = []) :
    ∃ t', t.rmdir p = some t' ∧ Removed p t t' :=
  ⟨_, dif_pos ⟨h, hchildren⟩, removed_erase _⟩

end

-- ---------------------------------------------------------------------------
-- Creating
-- ---------------------------------------------------------------------------

/-- Something can be created there: in a directory, or without one in the current. -/
def Placeable (t : FileTree) (p : List Char) : Prop :=
  match split p with
  | some (q, n) => t.lookup q = some .dir ∧ IsEntry n
  | none => IsEntry p

instance (t : FileTree) (p : List Char) : Decidable (t.Placeable p) := by
  unfold Placeable
  split
  · infer_instance
  · infer_instance

def insert (t : FileTree) (p : List Char) (k : FileKind) (hnew : t.lookup p = none)
    (h : t.Placeable p) : FileTree where
  objects := t.objects.insert p k
  parent q n hn hmem := by
    have hdir : t.lookup q = some .dir := by
      rcases (AList.mem_insert _).mp hmem with hq | hmem
      · subst hq
        rw [Placeable, split_join hn] at h
        exact h.1
      · exact t.parent q n hn hmem
    rw [AList.lookup_insert_ne]
    · exact hdir
    · rintro rfl
      rw [hnew] at hdir
      cases hdir
  isEntry q n hn hmem := by
    rcases (AList.mem_insert _).mp hmem with hq | hmem
    · subst hq
      rw [Placeable, split_join hn] at h
      exact h.2
    · exact t.isEntry q n hn hmem

def mkdir (p : List Char) (t : FileTree) : Option FileTree :=
  if h : t.lookup p = none ∧ t.Placeable p then some (t.insert p .dir h.1 h.2) else none

/-- `open` with `O_CREAT` and `O_RDWR`. -/
def creat (p : List Char) (t : FileTree) : Option FileTree :=
  if h : t.lookup p = none ∧ t.Placeable p then some (t.insert p .reg h.1 h.2)
  else if t.lookup p = none ∨ t.lookup p = some .dir then none
  else some t

section
variable {t t' : FileTree} {p q : List Char} {k : FileKind}

theorem lookup_insert (hnew : t.lookup p = none) (h : t.Placeable p) (q : List Char) :
    (t.insert p k hnew h).lookup q = if q = p then some k else t.lookup q := by
  show (t.objects.insert p k).lookup q = _
  split
  · next heq =>
    subst heq
    exact AList.lookup_insert _
  · next hne => exact AList.lookup_insert_ne hne

theorem placeable_join {n : List Char} (h : t.lookup p = some .dir) (hn : IsEntry n) :
    t.Placeable (join p n) := by
  rw [Placeable, split_join hn.noSlash]
  exact ⟨h, hn⟩

theorem exists_mkdir (hnew : t.lookup p = none) (h : t.Placeable p) : ∃ t', t.mkdir p = some t' ∧
    ∀ q, t'.lookup q = if q = p then some .dir else t.lookup q :=
  ⟨_, dif_pos ⟨hnew, h⟩, lookup_insert hnew h⟩

/-- A regular file that is there is opened. -/
theorem exists_creat (hnew : t.lookup p = none ∨ t.lookup p = some .reg) (h : t.Placeable p) :
    ∃ t', t.creat p = some t' ∧ ∀ q, t'.lookup q = if q = p then some .reg else t.lookup q := by
  obtain hnew | hreg := hnew
  · exact ⟨_, dif_pos ⟨hnew, h⟩, lookup_insert hnew h⟩
  · refine ⟨t, ?_, ?_⟩
    · rw [creat, dif_neg (by simp [hreg]), if_neg (by simp [hreg])]
    · intro q
      split
      · next heq => rw [heq, hreg]
      · rfl

theorem lookup_mkdir (h : t.mkdir p = some t') : t.lookup p = none ∧
    ∀ q, t'.lookup q = if q = p then some .dir else t.lookup q := by
  unfold mkdir at h
  split at h
  · next hnew =>
    cases h
    exact ⟨hnew.1, lookup_insert hnew.1 hnew.2⟩
  · cases h

theorem lookup_creat (h : t.creat p = some t') : t' = t ∨ t.lookup p = none ∧
    ∀ q, t'.lookup q = if q = p then some .reg else t.lookup q := by
  unfold creat at h
  split at h
  · next hnew =>
    cases h
    exact .inr ⟨hnew.1, lookup_insert hnew.1 hnew.2⟩
  · split at h
    · cases h
    · cases h
      exact .inl rfl

end

end FileTree

end Lib
