import Ocfs2Test.Dirs.Contention
import Ocfs2Test.Lib.Retries

/-!
# Retries of the random operations

The four random operations of `index_dir.c` and `multi_index_dir.c` share their conditions
and what they do to the table. They differ in what `times` counts: every round in
`multi_index_dir`, only the rounds that are not skipped in `index_dir`, where it never gets
past `iters` and so never reaches the threshold.
-/

namespace Ocfs2Test.Dirs.Retries

open Lib Lib.Stdio Lib.Retries Contention

-- ---------------------------------------------------------------------------
-- The operations
-- ---------------------------------------------------------------------------

inductive Program
  | indexDir
  | multiIndexDir
  deriving DecidableEq, Repr

/-- Where `times++` stands: before the first `continue`, or at the end of the round. -/
def Program.countSkips : Program → Bool
  | .indexDir => false
  | .multiIndexDir => true

/-- One round of `random_unlink`; `unlink_dirent` of `index_dir.c` clears `seen` too. -/
def unlinkStep (p : Program) (r : Rand) (ds : List Dirent) : Option (List Dirent) :=
  let i := drawIndex ds r
  match ds[i]? with
  | none => none
  | some d =>
    if d.isDotEntry then none
    else if d.nameLen = 0 then none
    else
      match p with
      | .indexDir => some (ds.set i { d with nameLen := 0, seen := 0 })
      | .multiIndexDir => some (ds.set i { d with nameLen := 0 })

def fillStep (r : Rand) (ds : List Dirent) : Option (List Dirent) :=
  let i := drawIndex ds r
  match ds[i]? with
  | none => none
  | some d =>
    if d.isDotEntry then none
    else if 0 < d.nameLen then none
    else some (ds.set i { d with type := .reg, nameLen := d.name.length, seen := 0 })

def renameStep (a : Rename) (ds : List Dirent) : Option (List Dirent) :=
  if a.suits ds then some (a.update ds) else none

section
variable (p : Program) (fails : Nat → Bool) (iters : Nat)

/-- A failure of `unlink` is printed only. -/
def randomUnlink (rs : List Rand) (ds : List Dirent) : Outcome (List Dirent) :=
  loop (unlinkStep p) p.countSkips (fun _ => false) (iters * 2) rs iters 0 0 ds

/-- When the `k`-th `open` fails the process ends. -/
def randomFillEmptyEntries (rs : List Rand) (ds : List Dirent) : Outcome (List Dirent) :=
  loop fillStep p.countSkips fails (iters * 2) rs iters 0 0 ds

/-- When the `k`-th `rename` fails the process ends; `multi_index_dir`, which tries again,
is taken without failures. -/
def Program.renameFails (k : Nat) : Bool :=
  match p with
  | .indexDir => fails k
  | .multiIndexDir => false

def randomRenameSameReclen (rs : List Rand) (ds : List Dirent) : Outcome (List Dirent) :=
  loop (fun r ds => renameStep (.sameReclen (drawIndex ds r)) ds) p.countSkips
    (p.renameFails fails) (iters * 2) rs iters 0 0 ds

def randomDeletingRename (rs : List (Rand × Rand)) (ds : List Dirent) : Outcome (List Dirent) :=
  loop (fun r ds => renameStep (.deleting (drawIndex ds r.1) (drawIndex ds r.2)) ds) p.countSkips
    (p.renameFails fails) (iters * 2) rs iters 0 0 ds

end

inductive Op
  | randomUnlink
  | randomFillEmptyEntries
  | randomRenameSameReclen
  | randomDeletingRename
  deriving DecidableEq, Repr

def draws (rand : Nat → Rand) (n : Nat) : List Rand := (List.range n).map rand

def drawPairs (rand : Nat → Rand) (n : Nat) : List (Rand × Rand) :=
  (List.range n).map fun k => (rand (2 * k), rand (2 * k + 1))

/-- The loop ends within `2 * iters` rounds. -/
def Op.Ends (p : Program) (fails : Nat → Bool) (iters : Nat) (rand : Nat → Rand)
    (ds : List Dirent) : Op → Prop
  | .randomUnlink => Retries.randomUnlink p iters (draws rand (iters * 2)) ds ≠ .pending
  | .randomFillEmptyEntries =>
    Retries.randomFillEmptyEntries p fails iters (draws rand (iters * 2)) ds ≠ .pending
  | .randomRenameSameReclen =>
    Retries.randomRenameSameReclen p fails iters (draws rand (iters * 2)) ds ≠ .pending
  | .randomDeletingRename =>
    Retries.randomDeletingRename p fails iters (drawPairs rand (iters * 2)) ds ≠ .pending

structure ShadowTable where
  dirents : List Dirent
  named : ∀ d ∈ dirents, d.name ≠ []

-- ---------------------------------------------------------------------------
-- What the draws reach
-- ---------------------------------------------------------------------------

def isLive (d : Dirent) : Bool := !(d.isDotEntry || d.nameLen == 0)

def isEmpty (d : Dirent) : Bool := !(d.isDotEntry || decide (0 < d.nameLen))

def slots (kind : Dirent → Bool) (ds : List Dirent) : Finset Nat :=
  (Finset.range ds.length).filter fun i => (ds[i]?).any kind

def slot (n : Nat) (r : Rand) : Nat := getRand 0 (n - 1) r

def merge (n : Nat) (r : Rand × Rand) (left : Finset Nat) : Option (Finset Nat) :=
  if slot n r.1 ≠ slot n r.2 ∧ slot n r.1 ∈ left ∧ slot n r.2 ∈ left then
    some (left.erase (slot n r.1))
  else none

/-- How much the draws of `n` rounds find to do: different files to unlink, different empty
slots to fill, files to rename, and pairs of files that are left. -/
def Op.reached (n : Nat) (rand : Nat → Rand) (ds : List Dirent) : Op → Nat
  | .randomUnlink => (((draws rand n).map (slot ds.length)).toFinset ∩ slots isLive ds).card
  | .randomFillEmptyEntries =>
    (((draws rand n).map (slot ds.length)).toFinset ∩ slots isEmpty ds).card
  | .randomRenameSameReclen => (draws rand n).countP fun r => slot ds.length r ∈ slots isLive ds
  | .randomDeletingRename => count (merge ds.length) (drawPairs rand n) (slots isLive ds)

-- ---------------------------------------------------------------------------
-- Slots
-- ---------------------------------------------------------------------------

section
variable {kind : Dirent → Bool} {ds : List Dirent} {d d' : Dirent} {i j : Nat}

theorem mem_slots : i ∈ slots kind ds ↔ ∃ d, ds[i]? = some d ∧ kind d = true := by
  rw [slots, Finset.mem_filter, Finset.mem_range, Option.any_eq_true]
  constructor
  · rintro ⟨-, d, hd, hkind⟩
    exact ⟨d, hd, hkind⟩
  · rintro ⟨d, hd, hkind⟩
    exact ⟨(List.getElem?_eq_some_iff.mp hd).1, d, hd, hkind⟩

theorem mem_slots_of_getElem? (hd : ds[i]? = some d) : i ∈ slots kind ds ↔ kind d = true := by
  rw [mem_slots]
  constructor
  · rintro ⟨e, he, hkind⟩
    cases hd.symm.trans he
    exact hkind
  · intro hkind
    exact ⟨d, hd, hkind⟩

theorem slots_set_of_not (hd : ds[i]? = some d) (h : kind d' = false) :
    slots kind (ds.set i d') = (slots kind ds).erase i := by
  have hlt := (List.getElem?_eq_some_iff.mp hd).1
  ext k
  rw [Finset.mem_erase]
  by_cases hk : k = i
  · subst hk
    rw [mem_slots_of_getElem? (List.getElem?_set_self hlt), h]
    simp
  · rw [mem_slots, mem_slots, List.getElem?_set_ne (Ne.symm hk)]
    exact (and_iff_right hk).symm

theorem slots_set_of (hd : ds[i]? = some d) (h : kind d' = kind d) :
    slots kind (ds.set i d') = slots kind ds := by
  have hlt := (List.getElem?_eq_some_iff.mp hd).1
  ext k
  by_cases hk : k = i
  · subst hk
    rw [mem_slots_of_getElem? (List.getElem?_set_self hlt), mem_slots_of_getElem? hd, h]
  · rw [mem_slots, mem_slots, List.getElem?_set_ne (Ne.symm hk)]

-- ---------------------------------------------------------------------------
-- Rounds
-- ---------------------------------------------------------------------------

/-- The table has `left` as its slots of a kind, and all its names. -/
structure Left (kind : Dirent → Bool) (n : Nat) (ds : List Dirent) (left : Finset Nat) : Prop where
  length : ds.length = n
  slots : slots kind ds = left
  named : ∀ d ∈ ds, d.name ≠ []

variable {n : Nat} {left : Finset Nat}

theorem Left.drawIndex_eq (h : Left kind n ds left) (r : Rand) : drawIndex ds r = slot n r := by
  rw [drawIndex, slot, h.length]

theorem Left.not_mem_of_none (h : Left kind n ds left) (hd : ds[i]? = none) : i ∉ left := by
  rw [← h.slots, mem_slots]
  rintro ⟨d, hsome, -⟩
  rw [hd] at hsome
  cases hsome

theorem Left.mem_iff (h : Left kind n ds left) (hd : ds[i]? = some d) :
    i ∈ left ↔ kind d = true := by
  rw [← h.slots, mem_slots_of_getElem? hd]

theorem Left.named_set (h : Left kind n ds left) (hname : d'.name ≠ []) :
    ∀ e ∈ ds.set i d', e.name ≠ [] := by
  intro e he
  obtain he | rfl := List.mem_or_eq_of_mem_set he
  · exact h.named e he
  · exact hname

theorem Left.erase (h : Left kind n ds left) (hd : ds[i]? = some d) (hkind : kind d' = false)
    (hname : d'.name ≠ []) : Left kind n (ds.set i d') (left.erase i) where
  length := by rw [List.length_set, h.length]
  slots := by rw [slots_set_of_not hd hkind, h.slots]
  named := h.named_set hname

theorem Left.keep (h : Left kind n ds left) (hd : ds[i]? = some d) (hkind : kind d' = kind d)
    (hname : d'.name ≠ []) : Left kind n (ds.set i d') left where
  length := by rw [List.length_set, h.length]
  slots := by rw [slots_set_of hd hkind, h.slots]
  named := h.named_set hname

theorem Left.name_ne_nil (h : Left kind n ds left) (hd : ds[i]? = some d) : d.name ≠ [] :=
  h.named d (List.mem_of_getElem? hd)

theorem unlinkStep_left (p : Program) (r : Rand) (h : Left isLive n ds left) :
    Option.Rel (Left isLive n) (unlinkStep p r ds) (take (slot n) r left) := by
  rw [unlinkStep, take, h.drawIndex_eq]
  cases hd : ds[slot n r]? with
  | none =>
    rw [if_neg (h.not_mem_of_none hd)]
    exact .none
  | some d =>
    have hmem := h.mem_iff hd
    have hname := h.name_ne_nil hd
    dsimp only
    by_cases hlive : isLive d = true
    · rw [if_pos (hmem.mpr hlive)]
      rw [isLive, Bool.not_eq_true', Bool.or_eq_false_iff, beq_eq_false_iff_ne] at hlive
      rw [if_neg (by simp [hlive.1]), if_neg hlive.2]
      cases p with
      | indexDir => exact .some (h.erase hd (by simp [isLive]) hname)
      | multiIndexDir => exact .some (h.erase hd (by simp [isLive]) hname)
    · rw [if_neg fun hc => hlive (hmem.mp hc)]
      rw [isLive, Bool.not_eq_true', Bool.not_eq_false, Bool.or_eq_true, beq_iff_eq] at hlive
      obtain hdot | hlen := hlive
      · rw [if_pos hdot]
        exact .none
      · rw [if_pos hlen, ite_self]
        exact .none

theorem fillStep_left (r : Rand) (h : Left isEmpty n ds left) :
    Option.Rel (Left isEmpty n) (fillStep r ds) (take (slot n) r left) := by
  rw [fillStep, take, h.drawIndex_eq]
  cases hd : ds[slot n r]? with
  | none =>
    rw [if_neg (h.not_mem_of_none hd)]
    exact .none
  | some d =>
    have hmem := h.mem_iff hd
    have hname := h.name_ne_nil hd
    dsimp only
    by_cases hempty : isEmpty d = true
    · rw [if_pos (hmem.mpr hempty)]
      rw [isEmpty, Bool.not_eq_true', Bool.or_eq_false_iff, decide_eq_false_iff_not] at hempty
      rw [if_neg (by simp [hempty.1]), if_neg hempty.2]
      exact .some (h.erase hd (by simp [isEmpty, List.length_pos_iff, hname]) hname)
    · rw [if_neg fun hc => hempty (hmem.mp hc)]
      rw [isEmpty, Bool.not_eq_true', Bool.not_eq_false, Bool.or_eq_true, decide_eq_true_eq]
        at hempty
      obtain hdot | hlen := hempty
      · rw [if_pos hdot]
        exact .none
      · rw [if_pos hlen, ite_self]
        exact .none

theorem isLive_renamed (hlive : isLive d = true) :
    isLive { d with name := 'R' :: d.name.tail } = true := by
  rw [isLive, Bool.not_eq_true', Bool.or_eq_false_iff] at hlive
  simp [isLive, Dirent.isDotEntry, beq_eq_false_iff_ne.mp hlive.2]

theorem renameStep_left (r : Rand) (h : Left isLive n ds left) :
    Option.Rel (Left isLive n) (renameStep (.sameReclen (drawIndex ds r)) ds)
      (use (slot n) r left) := by
  rw [renameStep, use, h.drawIndex_eq]
  cases hd : ds[slot n r]? with
  | none =>
    rw [if_neg (h.not_mem_of_none hd), if_neg (by simp [Rename.suits, hd])]
    exact .none
  | some d =>
    have hmem := h.mem_iff hd
    have hsuits : Rename.suits ds (.sameReclen (slot n r)) = isLive d := by
      simp only [Rename.suits, hd, isLive]
    rw [hsuits]
    by_cases hlive : isLive d = true
    · rw [if_pos (hmem.mpr hlive), if_pos hlive, update_sameReclen hd]
      exact .some (h.keep hd (by rw [isLive_renamed hlive, hlive]) (List.cons_ne_nil _ _))
    · rw [if_neg fun hc => hlive (hmem.mp hc), if_neg hlive]
      exact .none

theorem suits_deleting_iff {d₁ d₂ : Dirent} (hd₁ : ds[i]? = some d₁) (hd₂ : ds[j]? = some d₂) :
    Rename.suits ds (.deleting i j) = true ↔ i ≠ j ∧ isLive d₁ = true ∧ isLive d₂ = true := by
  simp only [Rename.suits, hd₁, hd₂, isLive, Bool.not_eq_true', Bool.or_eq_false_iff,
    beq_eq_false_iff_ne]
  constructor
  · rintro ⟨⟨hij, hdot₁, hdot₂⟩, hlen₁, hlen₂⟩
    exact ⟨hij, ⟨hdot₁, hlen₁⟩, hdot₂, hlen₂⟩
  · rintro ⟨hij, ⟨hdot₁, hlen₁⟩, hdot₂, hlen₂⟩
    exact ⟨⟨hij, hdot₁, hdot₂⟩, hlen₁, hlen₂⟩

theorem deletingStep_left (r : Rand × Rand) (h : Left isLive n ds left) :
    Option.Rel (Left isLive n) (renameStep (.deleting (drawIndex ds r.1) (drawIndex ds r.2)) ds)
      (merge n r left) := by
  rw [renameStep, merge, h.drawIndex_eq, h.drawIndex_eq]
  generalize slot n r.1 = i
  generalize slot n r.2 = j
  cases hd₁ : ds[i]? with
  | none =>
    rw [if_neg (by simp [Rename.suits, hd₁]), if_neg fun hc => h.not_mem_of_none hd₁ hc.2.1]
    exact .none
  | some d₁ =>
    cases hd₂ : ds[j]? with
    | none =>
      rw [if_neg (by simp [Rename.suits, hd₁, hd₂]), if_neg fun hc => h.not_mem_of_none hd₂ hc.2.2]
      exact .none
    | some d₂ =>
      by_cases hsuits : Rename.suits ds (.deleting i j) = true
      · obtain ⟨hij, hlive₁, hlive₂⟩ := (suits_deleting_iff hd₁ hd₂).mp hsuits
        rw [if_pos hsuits, if_pos ⟨hij, (h.mem_iff hd₁).mpr hlive₁, (h.mem_iff hd₂).mpr hlive₂⟩,
          update_deleting hd₁ hd₂]
        have hname := h.name_ne_nil hd₂
        have hkeep : Left isLive n (ds.set j { d₂ with type := d₁.type }) left :=
          h.keep hd₂ rfl hname
        have hd₁' : (ds.set j { d₂ with type := d₁.type })[i]? = some d₁ := by
          rw [List.getElem?_set_ne hij.symm, hd₁]
        have hname₁ := h.name_ne_nil hd₁
        exact .some (hkeep.erase hd₁' (by simp [isLive]) hname₁)
      · rw [if_neg hsuits, if_neg]
        · exact .none
        · rintro ⟨hij, hmem₁, hmem₂⟩
          exact hsuits ((suits_deleting_iff hd₁ hd₂).mpr
            ⟨hij, (h.mem_iff hd₁).mp hmem₁, (h.mem_iff hd₂).mp hmem₂⟩)

-- ---------------------------------------------------------------------------
-- The loops
-- ---------------------------------------------------------------------------

theorem length_draws (rand : Nat → Rand) (n : Nat) : (draws rand n).length = n := by
  rw [draws, List.length_map, List.length_range]

theorem length_drawPairs (rand : Nat → Rand) (n : Nat) : (drawPairs rand n).length = n := by
  rw [drawPairs, List.length_map, List.length_range]

/-- `multi_index_dir` counts every round. -/
theorem Op.ends_multiIndexDir (fails : Nat → Bool) (iters : Nat) (rand : Nat → Rand)
    (ds : List Dirent) (op : Op) : op.Ends .multiIndexDir fails iters rand ds := by
  cases op with
  | randomUnlink => exact loop_ends _ _ _ _ _ (by rw [length_draws]; omega)
  | randomFillEmptyEntries => exact loop_ends _ _ _ _ _ (by rw [length_draws]; omega)
  | randomRenameSameReclen => exact loop_ends _ _ _ _ _ (by rw [length_draws]; omega)
  | randomDeletingRename => exact loop_ends _ _ _ _ _ (by rw [length_drawPairs]; omega)

theorem not_pending_iff {σ ρ : Type} {step : ρ → σ → Option σ} {iters c : Nat} {rs : List ρ} {s : σ}
    (stops : Nat → Bool) (hcount : count step rs s = c) :
    loop step false stops (iters * 2) rs iters 0 0 s ≠ .pending ↔
      iters ≤ c ∨ ∃ k < c, stops k = true := by
  rw [Ne, loop_pending_iff rs iters 0 0 s (by omega), hcount, not_and_or, not_lt]
  simp only [Nat.zero_add, not_forall, exists_prop, Bool.not_eq_false]

/-- All operations of `multi_index_dir` end within `2 * iters` rounds. Those of `index_dir`
do when the draws find enough to do, or a call fails and ends the process. -/
theorem random_operations_end_iff (t : ShadowTable) (p : Program) (op : Op) (iters : Nat)
    (rand : Nat → Rand) (fails : Nat → Bool) :
    op.Ends p fails iters rand t.dirents ↔
      p = .multiIndexDir ∨ iters ≤ op.reached (iters * 2) rand t.dirents ∨
        op ≠ .randomUnlink ∧ ∃ k < op.reached (iters * 2) rand t.dirents, fails k = true := by
  cases p with
  | multiIndexDir =>
    exact ⟨fun _ => .inl rfl, fun _ => op.ends_multiIndexDir fails iters rand t.dirents⟩
  | indexDir =>
    have hleft (kind : Dirent → Bool) :
        Left kind t.dirents.length t.dirents (slots kind t.dirents) := ⟨rfl, rfl, t.named⟩
    simp only [reduceCtorEq, false_or]
    cases op with
    | randomUnlink =>
      have hcount := count_eq_of_sim (fun r _ _ h => unlinkStep_left .indexDir r h)
        (draws rand (iters * 2)) (hleft isLive)
      rw [count_take] at hcount
      refine (not_pending_iff (fun _ => false) hcount).trans ?_
      simp only [Bool.false_eq_true, and_false, exists_false, or_false, ne_eq, not_true_eq_false,
        false_and]
      rfl
    | randomFillEmptyEntries =>
      have hcount := count_eq_of_sim (fun r _ _ h => fillStep_left r h)
        (draws rand (iters * 2)) (hleft isEmpty)
      rw [count_take] at hcount
      refine (not_pending_iff _ hcount).trans ?_
      simp only [ne_eq, reduceCtorEq, not_false_eq_true, true_and]
      rfl
    | randomRenameSameReclen =>
      have hcount := count_eq_of_sim (fun r _ _ h => renameStep_left r h)
        (draws rand (iters * 2)) (hleft isLive)
      rw [count_use] at hcount
      refine (not_pending_iff _ hcount).trans ?_
      simp only [ne_eq, reduceCtorEq, not_false_eq_true, true_and]
      rfl
    | randomDeletingRename =>
      have hcount := count_eq_of_sim (fun r _ _ h => deletingStep_left r h)
        (drawPairs rand (iters * 2)) (hleft isLive)
      refine (not_pending_iff _ hcount).trans ?_
      simp only [ne_eq, reduceCtorEq, not_false_eq_true, true_and]
      rfl

end

/-- Of the dots alone nothing can be unlinked, so no round of `index_dir` counts. -/
theorem randomUnlink_only_dots :
    ¬ Op.Ends .indexDir (fun _ => false) 1 (fun _ => 0) [dot, dotDot] .randomUnlink := by
  intro h
  exact h rfl

end Ocfs2Test.Dirs.Retries
