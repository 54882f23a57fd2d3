import Ocfs2Test.Lib.CharBuffer

/-!
# The item list of mpi-run-parts

The entries of a directory that are to be run, in their order. A name is
compared with tails that may be longer than it is, from a place before it on;
what stands there is no part of a tail, so that nothing is skipped for it. The
path of an entry is copied into an array of the size of a name.
-/

namespace Ocfs2Test.MpiRunParts

open Lib CString CharBuffer

def PATH_MAX : Nat := 4096

def NAME_MAX : Nat := 255

def ENOMEM : Int := 12

inductive DType
  | unknown
  | fifo
  | chr
  | dir
  | blk
  | reg
  | lnk
  | sock
  | wht
  deriving DecidableEq

def DType.byte : DType → Char
  | unknown => Char.ofNat 0
  | fifo => Char.ofNat 1
  | chr => Char.ofNat 2
  | dir => Char.ofNat 4
  | blk => Char.ofNat 6
  | reg => Char.ofNat 8
  | lnk => Char.ofNat 10
  | sock => Char.ofNat 12
  | wht => Char.ofNat 14

/-- `struct dirent`: the name stands behind `d_type`, and that behind other fields. -/
structure Dirent where
  before : Nat → Char
  dType : DType
  dName : List Char
  clean : Clean dName

/-- The memory around `d_name`, which is at place 0. -/
def Dirent.mem (d : Dirent) : Int → Char
  | .ofNat i => d.dName.getD i nul
  | .negSucc 0 => d.dType.byte
  | .negSucc (i + 1) => d.before i

-- ---------------------------------------------------------------------------
-- The filter
-- ---------------------------------------------------------------------------

def skippableTails : List (List Char) :=
  [['~'], ['.', 'r', 'p', 'm', 's', 'a', 'v', 'e'], ['.', 'r', 'p', 'm', 'o', 'r', 'i', 'g'],
    ['.', 'r', 'p', 'm', 'n', 'e', 'w'], ['.', 's', 'w', 'p'], [',', 'v']]

section
variable (d : Dirent)

/-- The loop over the tails, with the places that are read. -/
def matchTails : List (List Char) → Bool × List Int
  | [] => (false, [])
  | tail :: tails =>
    let r := strcmpAt d.mem tail (d.dName.length - tail.length)
    if r.1 then (true, r.2)
    else
      let rest := matchTails tails
      (rest.1, r.2 ++ rest.2)

/-- With what `strlen` reads. -/
def shouldNotExec : Bool × List Int :=
  let r := matchTails d skippableTails
  (r.1, (List.range (d.dName.length + 1)).map Int.ofNat ++ r.2)

def runFilter : Bool :=
  if d.dName = ['.'] ∨ d.dName = ['.', '.'] then false
  else !(shouldNotExec d).1

/-- Only the characters of the name and its NUL are read. -/
def ReadsInside (reads : List Int) : Prop := ∀ i ∈ reads, 0 ≤ i ∧ i ≤ d.dName.length

end

-- ---------------------------------------------------------------------------
-- The list
-- ---------------------------------------------------------------------------

/-- What the program gets from outside: `scandir` keeps what the filter keeps and sorts
it, no path is runnable that the system takes for too long, and `calloc` may fail. -/
structure System where
  alphasort : Dirent → Dirent → Prop
  scandir : List Dirent → List Dirent
  filters : ∀ listing, (scandir listing).Perm (listing.filter fun d => runFilter d)
  sorts : ∀ listing, (scandir listing).Pairwise alphasort
  isRunnable : List Char → Bool
  short_of_runnable : ∀ path, isRunnable path = true → path.length < PATH_MAX
  calloc : Nat → Bool

/-- How `build_item_list` ends: with a result and the names of the items, or a write
outside of an item. -/
inductive Outcome
  | returned (ret : Int) (items : List (List Char))
  | fault

section
variable (sys : System) (dirpath : { s : List Char // Clean s })

def entryPath (d : Dirent) : List Char := dirpath.val ++ '/' :: d.dName

/-- `snprintf(path, PATH_MAX + 1, "%s/%s", dirpath, dirent->d_name)`. -/
def path (d : Dirent) : List Char := (entryPath dirpath d).take PATH_MAX

/-- The loop, which comes to the entries from the last one on. -/
def addItems : List Dirent → Nat → List (List Char) → Outcome
  | [], _, first => .returned 0 first
  | d :: ds, k, first =>
    if !sys.isRunnable (path dirpath d) then addItems ds k first
    else if !sys.calloc k then .returned ENOMEM first
    else
      match strcpy (List.replicate (NAME_MAX + 1) nul) (path dirpath d) with
      | none => .fault
      | some riName => addItems ds (k + 1) (text riName :: first)

/-- `build_item_list` of the entries of a directory, or with the error of `scandir`. -/
def buildItemList (listing : Except Int (List Dirent)) : Outcome :=
  match listing with
  | .error errno => .returned errno []
  | .ok listing =>
    match sys.scandir listing with
    | [] => .returned 0 []
    | namelist => addItems sys dirpath namelist.reverse 0 []

def Wanted (d : Dirent) : Prop :=
  d.dName ≠ ['.'] ∧ d.dName ≠ ['.', '.'] ∧ (∀ tail ∈ skippableTails, ¬ tail <:+ d.dName) ∧
    sys.isRunnable (entryPath dirpath d) = true

instance : DecidablePred (Wanted sys dirpath) := fun d =>
  inferInstanceAs (Decidable (_ ∧ _ ∧ (∀ tail ∈ skippableTails, ¬ tail <:+ d.dName) ∧ _))

/-- Exactly the paths of the entries to be run, each once and in their order. -/
def Builds (listing : List Dirent) : Prop :=
  ∃ entries : List Dirent, entries.Perm (listing.filter fun d => Wanted sys dirpath d) ∧
    entries.Pairwise sys.alphasort ∧
    buildItemList sys dirpath (.ok listing) = .returned 0 (entries.map (entryPath dirpath))

end

-- ---------------------------------------------------------------------------
-- The tails
-- ---------------------------------------------------------------------------

theorem clean_of_mem_skippableTails : ∀ tail ∈ skippableTails, Clean tail := by decide

theorem byte_notMem_tail (k : DType) : ∀ tail ∈ skippableTails, k.byte ∉ tail := by
  cases k <;> decide

section
variable (d : Dirent)

/-- A tail that starts before the name does not match, whatever stands there. -/
theorem strcmpAt_iff_suffix (htail : tail ∈ skippableTails) :
    (strcmpAt d.mem tail (d.dName.length - tail.length)).1 = true ↔ tail <:+ d.dName := by
  by_cases hle : tail.length ≤ d.dName.length
  · have hclean : Clean (d.dName.drop (d.dName.length - tail.length)) :=
      fun hmem => d.clean (List.mem_of_mem_drop hmem)
    rw [strcmpAt_iff d.mem (clean_of_mem_skippableTails tail htail) hclean]
    · exact List.suffix_iff_eq_drop.symm
    · intro i
      have hplace : (d.dName.length : Int) - tail.length + i =
          Int.ofNat (d.dName.length - tail.length + i) := by
        rw [Int.ofNat_eq_natCast]
        omega
      rw [hplace, Dirent.mem, List.getD_eq_getElem?_getD, List.getD_eq_getElem?_getD,
        List.getElem?_drop]
  · constructor
    · intro h
      have hat := getElem_of_strcmpAt d.mem h (tail.length - d.dName.length - 1) (by omega)
      have hplace : (d.dName.length : Int) - tail.length +
          ((tail.length - d.dName.length - 1 : Nat) : Int) = Int.negSucc 0 := by
        omega
      rw [hplace, Dirent.mem] at hat
      have hmem : d.dType.byte ∈ tail := hat ▸ List.getElem_mem _
      exact absurd hmem (byte_notMem_tail d.dType tail htail)
    · intro h
      exact absurd h.length_le hle

theorem matchTails_iff (tails : List (List Char)) (htails : ∀ tail ∈ tails, tail ∈ skippableTails) :
    (matchTails d tails).1 = true ↔ ∃ tail ∈ tails, tail <:+ d.dName := by
  induction tails with
  | nil => simp [matchTails]
  | cons tail tails ih =>
    rw [List.forall_mem_cons] at htails
    have htail := strcmpAt_iff_suffix d htails.1
    rw [List.exists_mem_cons_iff, ← ih htails.2, ← htail, matchTails]
    split
    · next h => simp [h]
    · next h => simp [h]

theorem shouldNotExec_iff :
    (shouldNotExec d).1 = true ↔ ∃ tail ∈ skippableTails, tail <:+ d.dName :=
  matchTails_iff d skippableTails fun _ => id

theorem runFilter_iff : runFilter d = true ↔
    d.dName ≠ ['.'] ∧ d.dName ≠ ['.', '.'] ∧ ∀ tail ∈ skippableTails, ¬ tail <:+ d.dName := by
  have hskip : (shouldNotExec d).1 = false ↔ ∀ tail ∈ skippableTails, ¬ tail <:+ d.dName := by
    rw [← Bool.not_eq_true, shouldNotExec_iff]
    push Not
    rfl
  rw [runFilter, ← hskip]
  split
  · next h => rcases h with h | h <;> simp [h]
  · next h =>
    rw [not_or] at h
    simp [h]

-- ---------------------------------------------------------------------------
-- The places that are read
-- ---------------------------------------------------------------------------

theorem readsInside_append (a b : List Int) :
    ReadsInside d (a ++ b) ↔ ReadsInside d a ∧ ReadsInside d b := by
  simp only [ReadsInside, List.forall_mem_append]

theorem readsInside_strcmpAt (tail : List Char) :
    ReadsInside d (strcmpAt d.mem tail (d.dName.length - tail.length)).2 ↔
      tail.length ≤ d.dName.length := by
  constructor
  · intro h
    have := h _ (mem_strcmpAt d.mem tail _)
    omega
  · intro h i hi
    have := strcmpAt_bounds d.mem hi
    omega

theorem readsInside_matchTails_cons (tail : List Char) (tails : List (List Char)) :
    ReadsInside d (matchTails d (tail :: tails)).2 ↔ tail.length ≤ d.dName.length ∧
      ((strcmpAt d.mem tail (d.dName.length - tail.length)).1 = true ∨
        ReadsInside d (matchTails d tails).2) := by
  rw [matchTails]
  split
  · next h => simp [h, readsInside_strcmpAt]
  · next h => simp [h, readsInside_append, readsInside_strcmpAt]

theorem readsInside_shouldNotExec : ReadsInside d (shouldNotExec d).2 ↔
    8 ≤ d.dName.length ∨ ['~'] <:+ d.dName := by
  have hstrlen : ReadsInside d ((List.range (d.dName.length + 1)).map Int.ofNat) := by
    intro i hi
    obtain ⟨j, hj, rfl⟩ := List.mem_map.mp hi
    rw [List.mem_range] at hj
    rw [Int.ofNat_eq_natCast]
    omega
  have hnil : ReadsInside d (matchTails d []).2 := fun i hi => absurd hi List.not_mem_nil
  have htilde := strcmpAt_iff_suffix d (show ['~'] ∈ skippableTails from List.mem_cons_self)
  rw [shouldNotExec, readsInside_append, skippableTails, readsInside_matchTails_cons, htilde]
  simp only [hstrlen, hnil, true_and, readsInside_matchTails_cons, List.length_cons,
    List.length_nil, or_true, and_true]
  constructor
  · rintro ⟨-, h | h⟩
    · exact .inr h
    · exact .inl h.1
  · rintro (h | h)
    · refine ⟨by omega, .inr ⟨h, .inr ⟨h, .inr ⟨by omega, .inr ⟨by omega, .inr (by omega)⟩⟩⟩⟩⟩
    · exact ⟨h.length_le, .inl h⟩

end

-- ---------------------------------------------------------------------------
-- The list that is built
-- ---------------------------------------------------------------------------

section
variable (sys : System) (dirpath : { s : List Char // Clean s })

theorem clean_entryPath (d : Dirent) : Clean (entryPath dirpath d) := by
  have hslash : Clean ('/' :: d.dName) := by
    intro hmem
    rcases List.mem_cons.mp hmem with h | h
    · exact absurd h (by decide)
    · exact d.clean h
  exact dirpath.2.append hslash

theorem isRunnable_path (d : Dirent) :
    sys.isRunnable (path dirpath d) = sys.isRunnable (entryPath dirpath d) := by
  by_cases hlen : (entryPath dirpath d).length < PATH_MAX
  · rw [path, List.take_of_length_le (Nat.le_of_lt hlen)]
  · have hcut : (path dirpath d).length = PATH_MAX := by
      rw [path, List.length_take]
      omega
    have hnot (p : List Char) (hp : ¬ p.length < PATH_MAX) : sys.isRunnable p = false :=
      Bool.eq_false_iff.mpr fun h => hp (sys.short_of_runnable p h)
    rw [hnot _ hlen, hnot _ (by omega)]

theorem path_of_runnable {d : Dirent} (h : sys.isRunnable (entryPath dirpath d) = true) :
    path dirpath d = entryPath dirpath d :=
  List.take_of_length_le (Nat.le_of_lt (sys.short_of_runnable _ h))

theorem strcpy_item (d : Dirent) (h : (entryPath dirpath d).length ≤ NAME_MAX) :
    ∃ riName, strcpy (List.replicate (NAME_MAX + 1) nul) (entryPath dirpath d) = some riName ∧
      text riName = entryPath dirpath d := by
  have htext := text_clean (clean_entryPath dirpath d)
  have hfits : (text (entryPath dirpath d)).length <
      (List.replicate (NAME_MAX + 1) nul).length := by
    rw [htext, List.length_replicate]
    exact Nat.lt_succ_of_le h
  have hcopy := strcpy_eq_some_iff.mpr ⟨hfits, rfl⟩
  exact ⟨_, hcopy, (text_strcpy hcopy).trans htext⟩

theorem strcpy_item_none (d : Dirent) (h : ¬ (entryPath dirpath d).length ≤ NAME_MAX) :
    strcpy (List.replicate (NAME_MAX + 1) nul) (entryPath dirpath d) = none := by
  apply Option.eq_none_iff_forall_ne_some.mpr
  intro buf hcopy
  have hfits := (strcpy_eq_some_iff.mp hcopy).1
  rw [text_clean (clean_entryPath dirpath d), List.length_replicate] at hfits
  exact h (Nat.le_of_lt_succ hfits)

def runnables (ds : List Dirent) : List Dirent :=
  ds.filter fun d => sys.isRunnable (entryPath dirpath d)

theorem addItems_skip {d : Dirent} (h : sys.isRunnable (entryPath dirpath d) = false)
    (ds : List Dirent) (k : Nat) (first : List (List Char)) :
    addItems sys dirpath (d :: ds) k first = addItems sys dirpath ds k first := by
  rw [addItems, isRunnable_path, h]
  rfl

theorem addItems_add {d : Dirent} (h : sys.isRunnable (entryPath dirpath d) = true)
    (ds : List Dirent) (k : Nat) (first items : List (List Char)) :
    addItems sys dirpath (d :: ds) k first = .returned 0 items ↔
      sys.calloc k = true ∧ (entryPath dirpath d).length ≤ NAME_MAX ∧
        addItems sys dirpath ds (k + 1) (entryPath dirpath d :: first) = .returned 0 items := by
  rw [addItems, isRunnable_path, h, path_of_runnable sys dirpath h]
  cases hcalloc : sys.calloc k with
  | false => simp [ENOMEM]
  | true =>
    by_cases hle : (entryPath dirpath d).length ≤ NAME_MAX
    · obtain ⟨riName, hcopy, htext⟩ := strcpy_item dirpath d hle
      simp [hle, hcopy, htext]
    · simp [hle, strcpy_item_none dirpath d hle]

/-- The loop ends well when each item is allocated and each path fits into one; the
items are then in the other order. -/
theorem addItems_iff (ds : List Dirent) (k : Nat) (first items : List (List Char)) :
    addItems sys dirpath ds k first = .returned 0 items ↔
      (∀ j < (runnables sys dirpath ds).length, sys.calloc (k + j) = true) ∧
        (∀ d ∈ runnables sys dirpath ds, (entryPath dirpath d).length ≤ NAME_MAX) ∧
        items = ((runnables sys dirpath ds).map (entryPath dirpath)).reverse ++ first := by
  induction ds generalizing k first with
  | nil =>
    constructor
    · intro h
      injection h with _ h
      exact ⟨fun j hj => absurd hj (Nat.not_lt_zero j), fun d hd => absurd hd List.not_mem_nil,
        h.symm⟩
    · rintro ⟨-, -, rfl⟩
      rfl
  | cons d ds ih =>
    cases hrun : sys.isRunnable (entryPath dirpath d) with
    | false =>
      have hruns : runnables sys dirpath (d :: ds) = runnables sys dirpath ds := by
        simp [runnables, hrun]
      rw [addItems_skip sys dirpath hrun, ih, hruns]
    | true =>
      have hruns : runnables sys dirpath (d :: ds) = d :: runnables sys dirpath ds := by
        simp [runnables, hrun]
      rw [addItems_add sys dirpath hrun, ih, hruns, List.length_cons, List.forall_mem_cons,
        List.map_cons, List.reverse_cons, List.append_assoc, List.singleton_append]
      constructor
      · rintro ⟨hk, hd, hcalloc, hds, hitems⟩
        refine ⟨?_, ⟨hd, hds⟩, hitems⟩
        intro j hj
        cases j with
        | zero => exact hk
        | succ j =>
          rw [Nat.add_comm j, ← Nat.add_assoc]
          exact hcalloc j (Nat.lt_of_succ_lt_succ hj)
      · rintro ⟨hcalloc, ⟨hd, hds⟩, hitems⟩
        refine ⟨hcalloc 0 (Nat.succ_pos _), hd, ?_, hds, hitems⟩
        intro j hj
        rw [Nat.add_assoc, Nat.add_comm 1]
        exact hcalloc (j + 1) (Nat.succ_lt_succ hj)

section
variable (listing : List Dirent)

theorem runnables_perm : (runnables sys dirpath (sys.scandir listing)).Perm
    (listing.filter fun d => Wanted sys dirpath d) := by
  have hkept : listing.filter (fun d => Wanted sys dirpath d) =
      runnables sys dirpath (listing.filter fun d => runFilter d) := by
    rw [runnables, List.filter_filter]
    apply List.filter_congr
    intro d _
    rw [Bool.eq_iff_iff, decide_eq_true_eq, Bool.and_eq_true, runFilter_iff, Wanted]
    tauto
  rw [hkept]
  exact (sys.filters listing).filter _

theorem buildItemList_iff (items : List (List Char)) :
    buildItemList sys dirpath (.ok listing) = .returned 0 items ↔
      (∀ j < (listing.filter fun d => Wanted sys dirpath d).length, sys.calloc j = true) ∧
        (∀ d ∈ listing, Wanted sys dirpath d → (entryPath dirpath d).length ≤ NAME_MAX) ∧
        items = (runnables sys dirpath (sys.scandir listing)).map (entryPath dirpath) := by
  have hloop : buildItemList sys dirpath (.ok listing) =
      addItems sys dirpath (sys.scandir listing).reverse 0 [] := by
    rw [buildItemList]
    split
    · next h =>
      rw [h]
      rfl
    · rfl
  have hreverse : runnables sys dirpath (sys.scandir listing).reverse =
      (runnables sys dirpath (sys.scandir listing)).reverse := List.filter_reverse
  have hperm := runnables_perm sys dirpath listing
  have hmem (d : Dirent) : d ∈ (runnables sys dirpath (sys.scandir listing)).reverse ↔
      d ∈ listing ∧ Wanted sys dirpath d := by
    rw [List.mem_reverse, hperm.mem_iff, List.mem_filter, decide_eq_true_eq]
  rw [hloop, addItems_iff, hreverse, List.length_reverse, hperm.length_eq, List.map_reverse,
    List.reverse_reverse, List.append_nil]
  simp only [Nat.zero_add, hmem, and_imp]

theorem builds_iff : Builds sys dirpath listing ↔
    (∀ j < (listing.filter fun d => Wanted sys dirpath d).length, sys.calloc j = true) ∧
      ∀ d ∈ listing, Wanted sys dirpath d → (entryPath dirpath d).length ≤ NAME_MAX := by
  constructor
  · rintro ⟨entries, -, -, h⟩
    obtain ⟨hcalloc, hshort, -⟩ := (buildItemList_iff sys dirpath listing _).mp h
    exact ⟨hcalloc, hshort⟩
  · rintro ⟨hcalloc, hshort⟩
    exact ⟨_, runnables_perm sys dirpath listing, (sys.sorts listing).filter _,
      (buildItemList_iff sys dirpath listing _).mpr ⟨hcalloc, hshort, rfl⟩⟩

/-- Every name that `should_not_exec` is given is read inside. -/
def NamesReadInside : Prop :=
  ∀ d ∈ listing, d.dName ≠ ['.'] → d.dName ≠ ['.', '.'] → ReadsInside d (shouldNotExec d).2

/-- **The list is right, and the names are read inside**: when no allocation fails and the
paths fit into an item; and when all names are as long as the longest tail or end in
the first one. -/
theorem buildItemList_correct_iff :
    (Builds sys dirpath listing ↔
      (∀ j < (listing.filter fun d => Wanted sys dirpath d).length, sys.calloc j = true) ∧
        ∀ d ∈ listing, Wanted sys dirpath d → (entryPath dirpath d).length ≤ NAME_MAX) ∧
      (NamesReadInside listing ↔ ∀ d ∈ listing, d.dName ≠ ['.'] → d.dName ≠ ['.', '.'] →
        8 ≤ d.dName.length ∨ ['~'] <:+ d.dName) := by
  refine ⟨builds_iff sys dirpath listing, ?_⟩
  simp only [NamesReadInside, readsInside_shouldNotExec]

end

end

-- ---------------------------------------------------------------------------
-- A directory for which both fail
-- ---------------------------------------------------------------------------

/-- The order of the C locale, on a system where all files are runnable. -/
def cLocale : System where
  alphasort a b := a.dName ≤ b.dName
  scandir listing := (listing.filter fun d => runFilter d).mergeSort fun a b => a.dName ≤ b.dName
  filters _ := List.mergeSort_perm _ _
  sorts listing := by
    have htrans (a b c : Dirent) : decide (a.dName ≤ b.dName) = true →
        decide (b.dName ≤ c.dName) = true → decide (a.dName ≤ c.dName) = true := by
      simpa using le_trans
    have htotal (a b : Dirent) :
        (decide (a.dName ≤ b.dName) || decide (b.dName ≤ a.dName)) = true := by
      simpa using le_total a.dName b.dName
    simpa using List.pairwise_mergeSort htrans htotal (listing.filter fun d => runFilter d)
  isRunnable path := path.length < PATH_MAX
  short_of_runnable path h := of_decide_eq_true h
  calloc _ := true

/-- A directory under a path of 254 characters, with a file `a` in it. -/
theorem not_builds_not_inside :
    let dirpath : { s : List Char // Clean s } := ⟨List.replicate 254 'd', by decide +kernel⟩
    let listing : List Dirent := [⟨fun _ => nul, .reg, ['a'], by decide⟩]
    ¬ Builds cLocale dirpath listing ∧ ¬ NamesReadInside listing := by
  intro dirpath listing
  constructor
  · intro h
    have hwanted : Wanted cLocale dirpath (listing.get ⟨0, Nat.one_pos⟩) := by decide +kernel
    have hshort := ((builds_iff cLocale dirpath listing).mp h).2 _ (List.get_mem _ _) hwanted
    exact absurd hshort (by decide +kernel)
  · intro h
    have hread := h _ List.mem_cons_self (by decide) (by decide)
    rw [readsInside_shouldNotExec] at hread
    exact absurd hread (by decide)

end Ocfs2Test.MpiRunParts
