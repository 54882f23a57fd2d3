import Ocfs2Test.Dirs.Shadow

/-!
# Renames under contention

`random_rename_same_reclen` and `random_deleting_rename` of `multi-inline-dirs` and
`multi_index_dir`, where a rename may fail because another node was faster. A
failed rename draws other entries and tries again; if these do not suit, the inner
loop is left, and what follows it changes them as if they had been renamed.
-/

namespace Ocfs2Test.Dirs.Contention

open Lib Lib.Stdio

-- ---------------------------------------------------------------------------
-- One round
-- ---------------------------------------------------------------------------

/-- The entries of a rename: one that gets a new name, or one that gets the name of
another. -/
inductive Rename
  | sameReclen (i : Nat)
  | deleting (i j : Nat)
  deriving DecidableEq, Repr

/-- The conditions before each rename. -/
def Rename.suits (ds : List Dirent) : Rename → Bool
  | .sameReclen i =>
    match ds[i]? with
    | none => false
    | some d => !(d.isDotEntry || d.nameLen == 0)
  | .deleting i j =>
    match ds[i]?, ds[j]? with
    | some d₁, some d₂ =>
      !(i == j || (d₁.isDotEntry || d₂.isDotEntry) || (d₁.nameLen == 0 || d₂.nameLen == 0))
    | _, _ => false

/-- What stands behind the inner loop. -/
def Rename.update (ds : List Dirent) : Rename → List Dirent
  | .sameReclen i =>
    match ds[i]? with
    | none => ds
    | some d => ds.set i { d with name := 'R' :: d.name.tail }
  | .deleting i j =>
    match ds[i]?, ds[j]? with
    | some d₁, some d₂ => (ds.set j { d₂ with type := d₁.type }).set i { d₁ with nameLen := 0 }
    | _, _ => ds

structure Call where
  path : List Char
  path1 : List Char
  ok : Bool
  deriving DecidableEq, Repr

def Rename.call (ds : List Dirent) (ok : Bool) : Rename → Call
  | .sameReclen i =>
    let name := (ds[i]?.map Dirent.name).getD []
    ⟨name, 'R' :: name.tail, ok⟩
  | .deleting i j => ⟨(ds[i]?.map Dirent.name).getD [], (ds[j]?.map Dirent.name).getD [], ok⟩

/-- How the inner loop ends: with a rename, or by `break`. -/
inductive Ended
  | renamed (a : Rename)
  | broke (a : Rename)
  deriving DecidableEq, Repr

def Ended.rename : Ended → Rename
  | .renamed a => a
  | .broke a => a

structure Round where
  before : List Dirent
  calls : List Call
  ended : Ended
  after : List Dirent
  deriving DecidableEq, Repr

section
variable {ρ : Type} (draw : ρ → List Dirent → Rename)

/-- `while (rename(path, path1))`, given the results of the calls and the random
numbers: the calls, the end, and what is left of both. -/
def retry (ds : List Dirent) : List Bool → Rename → List ρ →
    Option (List Call × Ended × List Bool × List ρ)
  | [], _, _ => none
  | true :: results, a, rs => some ([a.call ds true], .renamed a, results, rs)
  | false :: _, _, [] => none
  | false :: results, a, r :: rs =>
    if (draw r ds).suits ds then
      match retry ds results (draw r ds) rs with
      | none => none
      | some (calls, rest) => some (a.call ds false :: calls, rest)
    else some ([a.call ds false], .broke (draw r ds), results, rs)

structure Counter where
  iters : Nat
  times : Nat
  deriving DecidableEq, Repr

structure Policy where
  goes : Counter → Bool
  drawn : Counter → Counter
  updated : Counter → Counter

def rounds (p : Policy) : Nat → Counter → List Bool → List ρ → List Dirent → List Round
  | 0, _, _, _, _ => []
  | _ + 1, _, _, [], _ => []
  | n + 1, c, results, r :: rs, ds =>
    if p.goes c then
      if (draw r ds).suits ds then
        match retry draw ds results (draw r ds) rs with
        | none => []
        | some (calls, ended, results, rs) =>
          ⟨ds, calls, ended, ended.rename.update ds⟩ ::
            rounds p n (p.updated (p.drawn c)) results rs (ended.rename.update ds)
      else rounds p n (p.drawn c) results rs ds
    else []

end

-- ---------------------------------------------------------------------------
-- The functions
-- ---------------------------------------------------------------------------

inductive Program
  | multiInlineDirs
  | multiIndexDir
  deriving DecidableEq, Repr

def drawIndex (ds : List Dirent) (r : Rand) : Nat := getRand 0 (ds.length - 1) r

/-- `while ((iters > 0) && (times < threshold))`, which counts every draw in `times`
and every round in `iters`. -/
def thresholdPolicy (threshold : Nat) : Policy where
  goes c := decide (0 < c.iters ∧ c.times < threshold)
  drawn c := { c with times := c.times + 1 }
  updated c := { c with iters := c.iters - 1 }

/-- `while (iters > 0)` in one program, with a threshold in the other. -/
def renamePolicy (iters : Nat) : Program → Policy
  | .multiInlineDirs => ⟨fun c => decide (0 < c.iters), id, fun c => { c with iters := c.iters - 1 }⟩
  | .multiIndexDir => thresholdPolicy (iters * 2)

/-- `while (iters--)` in one program, with a threshold in the other. -/
def deletingPolicy (iters : Nat) : Program → Policy
  | .multiInlineDirs => ⟨fun c => decide (0 < c.iters), fun c => { c with iters := c.iters - 1 }, id⟩
  | .multiIndexDir => thresholdPolicy (iters * 2)

def randomRenameSameReclen (p : Program) (iters n : Nat) (results : List Bool) (rs : List Rand)
    (ds : List Dirent) : List Round :=
  rounds (fun r ds => .sameReclen (drawIndex ds r)) (renamePolicy iters p) n ⟨iters, 0⟩ results rs ds

def randomDeletingRename (p : Program) (iters n : Nat) (results : List Bool) (rs : List (Rand × Rand))
    (ds : List Dirent) : List Round :=
  rounds (fun r ds => .deleting (drawIndex ds r.1) (drawIndex ds r.2)) (deletingPolicy iters p) n
    ⟨iters, 0⟩ results rs ds

-- ---------------------------------------------------------------------------
-- What a round may change
-- ---------------------------------------------------------------------------

/-- What becomes of slot `k` is what a rename that succeeded in this round says. -/
structure Round.Explains (round : Round) (k : Nat) (d d' : Dirent) : Prop where
  /-- A new name is that of a rename of the entry's file. -/
  name : d'.name ≠ d.name →
    ⟨d.name, 'R' :: d.name.tail, true⟩ ∈ round.calls ∧ d'.name = 'R' :: d.name.tail
  /-- The file of an entry that is marked dead was renamed onto another. -/
  dead : d'.nameLen ≠ d.nameLen →
    ∃ j d₂, j ≠ k ∧ round.before[j]? = some d₂ ∧ ⟨d.name, Dirent.name d₂, true⟩ ∈ round.calls
  /-- A new type is that of a file renamed onto the entry's. -/
  type : d'.type ≠ d.type →
    ∃ i d₁, i ≠ k ∧ round.before[i]? = some d₁ ∧ ⟨Dirent.name d₁, d.name, true⟩ ∈ round.calls ∧
      d'.type = d₁.type
  dot : d.isDotEntry = true → d' = d

/-- The table changes only by what a successful rename did. -/
def Round.Justified (round : Round) : Prop :=
  ∀ k d d', round.before[k]? = some d → round.after[k]? = some d' → round.Explains k d d'

/-- The update changes nothing: an entry whose name begins with 'R' already, or
entries that are as they would be. -/
def Rename.Harmless (ds : List Dirent) : Rename → Prop
  | .sameReclen i => ∀ d, ds[i]? = some d → d.name.head? = some 'R'
  | .deleting i j => ∀ d₁ d₂, ds[i]? = some d₁ → ds[j]? = some d₂ → d₁.nameLen = 0 ∧ d₂.type = d₁.type

/-- A rename succeeded in the end, or the entries at the `break` take no harm. -/
def Round.Sound (round : Round) : Prop :=
  match round.ended with
  | .renamed _ => True
  | .broke a => a.Harmless round.before

structure Round.Ok (round : Round) : Prop where
  after : round.after = round.ended.rename.update round.before
  renamed : ∀ a, round.ended = .renamed a →
    a.suits round.before = true ∧ a.call round.before true ∈ round.calls
  broke : ∀ a, round.ended = .broke a → ∀ c ∈ round.calls, c.ok = false

section
variable {ds : List Dirent} {a : Rename}

theorem retry_ok {ρ : Type} {draw : ρ → List Dirent → Rename} {results results' : List Bool}
    {rs rs' : List ρ} {calls : List Call} {ended : Ended} (ha : a.suits ds = true)
    (h : retry draw ds results a rs = some (calls, ended, results', rs')) :
    Round.Ok ⟨ds, calls, ended, ended.rename.update ds⟩ := by
  induction results, a, rs using retry.induct draw ds generalizing calls with
  | case1 => cases h
  | case2 results a rs =>
    cases h
    refine ⟨rfl, ?_, ?_⟩
    · rintro b hb
      cases hb
      exact ⟨ha, List.mem_singleton.mpr rfl⟩
    · rintro b hb
      cases hb
  | case3 => cases h
  | case4 results a r rs hsuits hretry ih =>
    rw [retry, if_pos hsuits, hretry] at h
    cases h
  | case5 results a r rs hsuits calls₀ rest hretry ih =>
    rw [retry, if_pos hsuits, hretry] at h
    cases h
    have hok := ih hsuits hretry
    refine ⟨rfl, fun c hc => ?_, fun c hc call hcall => ?_⟩
    · obtain ⟨hc, hmem⟩ := hok.renamed c hc
      exact ⟨hc, List.mem_cons_of_mem _ hmem⟩
    · rcases List.mem_cons.mp hcall with rfl | hcall
      · cases a <;> rfl
      · exact hok.broke c hc call hcall
  | case6 results a r rs hsuits =>
    rw [retry, if_neg hsuits] at h
    cases h
    refine ⟨rfl, ?_, ?_⟩
    · rintro c hc
      cases hc
    · rintro c - call hcall
      rw [List.mem_singleton.mp hcall]
      cases a <;> rfl

theorem rounds_ok {ρ : Type} {draw : ρ → List Dirent → Rename} {p : Policy} {n : Nat} {c : Counter}
    {results : List Bool} {rs : List ρ} : ∀ round ∈ rounds draw p n c results rs ds, round.Ok := by
  induction n, c, results, rs, ds using rounds.induct draw p with
  | case1 | case2 => simp [rounds]
  | case3 n c results r rs ds hgoes hsuits hretry => simp [rounds, hgoes, hsuits, hretry]
  | case4 n c results r rs ds hgoes hsuits calls ended results' rs' hretry ih =>
    simp only [rounds, hgoes, hsuits, if_true, hretry, List.forall_mem_cons]
    exact ⟨retry_ok hsuits hretry, ih⟩
  | case5 n c results r rs ds hgoes hsuits ih =>
    simpa only [rounds, hgoes, if_true, if_neg hsuits] using ih
  | case6 n c results r rs ds hgoes => simp [rounds, hgoes]

-- ---------------------------------------------------------------------------
-- One slot
-- ---------------------------------------------------------------------------

theorem explains_refl (round : Round) (k : Nat) (d : Dirent) : round.Explains k d d where
  name h := absurd rfl h
  dead h := absurd rfl h
  type h := absurd rfl h
  dot _ := rfl

theorem suits_sameReclen {i : Nat} (h : Rename.suits ds (.sameReclen i) = true) :
    ∃ d, ds[i]? = some d ∧ d.isDotEntry = false := by
  rw [Rename.suits] at h
  cases hd : ds[i]? with
  | none => simp [hd] at h
  | some d =>
    simp only [hd, Bool.not_eq_true', Bool.or_eq_false_iff] at h
    exact ⟨d, rfl, h.1⟩

theorem suits_deleting {i j : Nat} (h : Rename.suits ds (.deleting i j) = true) :
    ∃ d₁ d₂, ds[i]? = some d₁ ∧ ds[j]? = some d₂ ∧ i ≠ j ∧ d₁.isDotEntry = false ∧
      d₂.isDotEntry = false := by
  rw [Rename.suits] at h
  cases hd₁ : ds[i]? with
  | none => simp [hd₁] at h
  | some d₁ =>
    cases hd₂ : ds[j]? with
    | none => simp [hd₁, hd₂] at h
    | some d₂ =>
      simp only [hd₁, hd₂, Bool.not_eq_true', Bool.or_eq_false_iff, beq_eq_false_iff_ne] at h
      exact ⟨d₁, d₂, rfl, rfl, h.1.1, h.1.2.1, h.1.2.2⟩

section
variable {i j k : Nat} {d d' d₁ d₂ : Dirent}

theorem update_sameReclen (hd : ds[i]? = some d) :
    Rename.update ds (.sameReclen i) = ds.set i { d with name := 'R' :: d.name.tail } := by
  simp only [Rename.update, hd]

theorem update_deleting (hd₁ : ds[i]? = some d₁) (hd₂ : ds[j]? = some d₂) :
    Rename.update ds (.deleting i j) =
      (ds.set j { d₂ with type := d₁.type }).set i { d₁ with nameLen := 0 } := by
  simp only [Rename.update, hd₁, hd₂]

theorem getElem?_set_cases (hk : ds[k]? = some d) (hk' : (ds.set i d₁)[k]? = some d') :
    i = k ∧ d' = d₁ ∨ i ≠ k ∧ d' = d := by
  rcases eq_or_ne i k with rfl | hne
  · rw [List.getElem?_set_self (List.getElem?_eq_some_iff.mp hk).1] at hk'
    exact .inl ⟨rfl, (Option.some.inj hk').symm⟩
  · rw [List.getElem?_set_ne hne, hk] at hk'
    exact .inr ⟨hne, (Option.some.inj hk').symm⟩

end

theorem justified_renamed {calls : List Call} (ha : a.suits ds = true)
    (hcall : a.call ds true ∈ calls) : Round.Justified ⟨ds, calls, .renamed a, a.update ds⟩ := by
  intro k d d' hk hk'
  dsimp only at hk hk'
  cases a with
  | sameReclen i =>
    obtain ⟨d₀, hd₀, hdot⟩ := suits_sameReclen ha
    rw [update_sameReclen hd₀] at hk'
    rcases getElem?_set_cases hk hk' with ⟨rfl, rfl⟩ | ⟨-, rfl⟩
    · cases hk.symm.trans hd₀
      simp only [Rename.call, hk, Option.map_some, Option.getD_some] at hcall
      refine ⟨fun _ => ⟨hcall, rfl⟩, fun h => absurd rfl h, fun h => absurd rfl h, fun h => ?_⟩
      exact absurd h (Bool.eq_false_iff.mp hdot)
    · exact explains_refl _ _ _
  | deleting i j =>
    obtain ⟨d₁, d₂, hd₁, hd₂, hij, hdot₁, hdot₂⟩ := suits_deleting ha
    rw [update_deleting hd₁ hd₂] at hk'
    simp only [Rename.call, hd₁, hd₂, Option.map_some, Option.getD_some] at hcall
    rcases eq_or_ne i k with rfl | hik
    · cases hk.symm.trans hd₁
      have hlen : i < (ds.set j { d₂ with type := d.type }).length := by
        rw [List.length_set]
        exact (List.getElem?_eq_some_iff.mp hk).1
      rw [List.getElem?_set_self hlen] at hk'
      cases hk'
      refine ⟨fun h => absurd rfl h, fun _ => ⟨j, d₂, hij.symm, hd₂, hcall⟩,
        fun h => absurd rfl h, fun h => ?_⟩
      exact absurd h (Bool.eq_false_iff.mp hdot₁)
    · rw [List.getElem?_set_ne hik] at hk'
      rcases getElem?_set_cases hk hk' with ⟨rfl, rfl⟩ | ⟨-, rfl⟩
      · cases hk.symm.trans hd₂
        refine ⟨fun h => absurd rfl h, fun h => absurd rfl h,
          fun _ => ⟨i, d₁, hik, hd₁, hcall, rfl⟩, fun h => ?_⟩
        exact absurd h (Bool.eq_false_iff.mp hdot₂)
      · exact explains_refl _ _ _

theorem set_self {k : Nat} {d : Dirent} (hk : ds[k]? = some d) : ds.set k d = ds := by
  obtain ⟨hlt, rfl⟩ := List.getElem?_eq_some_iff.mp hk
  exact List.set_getElem_self hlt

theorem update_of_harmless (h : a.Harmless ds) : a.update ds = ds := by
  cases a with
  | sameReclen i =>
    cases hd : ds[i]? with
    | none => simp only [Rename.update, hd]
    | some d =>
      have hname : 'R' :: d.name.tail = d.name := by
        obtain ⟨rest, hrest⟩ := List.head?_eq_some_iff.mp (h d hd)
        rw [hrest, List.tail_cons]
      rw [update_sameReclen hd, hname]
      exact set_self hd
  | deleting i j =>
    cases hd₁ : ds[i]? with
    | none => simp only [Rename.update, hd₁]
    | some d₁ =>
      cases hd₂ : ds[j]? with
      | none => simp only [Rename.update, hd₁, hd₂]
      | some d₂ =>
        obtain ⟨hlen, htype⟩ := h d₁ d₂ hd₁ hd₂
        have h₁ : { d₁ with nameLen := 0 } = d₁ := by rw [← hlen]
        rw [update_deleting hd₁ hd₂, h₁, ← htype]
        have h₂ : ds.set j d₂ = ds := set_self hd₂
        rw [h₂, set_self hd₁]

theorem justified_broke_iff {calls : List Call} (hcalls : ∀ c ∈ calls, c.ok = false) :
    Round.Justified ⟨ds, calls, .broke a, a.update ds⟩ ↔ a.Harmless ds := by
  have hnone : ∀ path path1, ⟨path, path1, true⟩ ∉ calls := by
    intro path path1 hmem
    cases hcalls _ hmem
  constructor
  · intro h
    have hsame : ∀ (k : Nat) (d d' : Dirent), ds[k]? = some d → (a.update ds)[k]? = some d' →
        d'.name = d.name ∧ d'.nameLen = d.nameLen ∧ d'.type = d.type := by
      intro k d d' hk hk'
      have hexp := h k d d' hk hk'
      refine ⟨?_, ?_, ?_⟩
      · by_contra hne
        exact hnone _ _ (hexp.name hne).1
      · by_contra hne
        obtain ⟨j, d₂, -, -, hmem⟩ := hexp.dead hne
        exact hnone _ _ hmem
      · by_contra hne
        obtain ⟨i, d₁, -, -, hmem, -⟩ := hexp.type hne
        exact hnone _ _ hmem
    cases a with
    | sameReclen i =>
      intro d hd
      have hlt := (List.getElem?_eq_some_iff.mp hd).1
      have hname := (hsame i d _ hd (by rw [update_sameReclen hd, List.getElem?_set_self hlt])).1
      rw [← hname]
      rfl
    | deleting i j =>
      intro d₁ d₂ hd₁ hd₂
      have hlt := (List.getElem?_eq_some_iff.mp hd₁).1
      have hlt₂ := (List.getElem?_eq_some_iff.mp hd₂).1
      have hlen := (hsame i d₁ _ hd₁ (by
        rw [update_deleting hd₁ hd₂, List.getElem?_set_self (by rwa [List.length_set])])).2.1
      refine ⟨hlen.symm, ?_⟩
      rcases eq_or_ne i j with rfl | hij
      · cases hd₁.symm.trans hd₂
        rfl
      · have htype := (hsame j d₂ _ hd₂ (by
          rw [update_deleting hd₁ hd₂, List.getElem?_set_ne hij, List.getElem?_set_self hlt₂])).2.2
        exact htype.symm
  · intro h k d d' hk hk'
    dsimp only at hk hk'
    rw [update_of_harmless h, hk] at hk'
    cases hk'
    exact explains_refl _ _ _

theorem Round.Ok.justified_iff {round : Round} (h : round.Ok) : round.Justified ↔ round.Sound := by
  obtain ⟨before, calls, ended, after⟩ := round
  obtain ⟨hafter, hrenamed, hbroke⟩ := h
  dsimp only at hafter hrenamed hbroke
  subst hafter
  cases ended with
  | renamed a =>
    obtain ⟨hsuits, hcall⟩ := hrenamed a rfl
    exact iff_of_true (justified_renamed hsuits hcall) trivial
  | broke a => exact justified_broke_iff (hbroke a rfl)

end

/-- In every run of the four functions, each round changes the table only by what a
successful rename did exactly if each one that ends by `break` has drawn entries
that take no harm. -/
theorem renames_justified_iff (p : Program) (iters n : Nat) (results : List Bool) (ds : List Dirent) :
    (∀ rs, (∀ round ∈ randomRenameSameReclen p iters n results rs ds, round.Justified) ↔
      ∀ round ∈ randomRenameSameReclen p iters n results rs ds, round.Sound) ∧
    ∀ rs, (∀ round ∈ randomDeletingRename p iters n results rs ds, round.Justified) ↔
      ∀ round ∈ randomDeletingRename p iters n results rs ds, round.Sound :=
  ⟨fun _ => forall₂_congr fun round hround => (rounds_ok round hround).justified_iff,
    fun _ => forall₂_congr fun round hround => (rounds_ok round hround).justified_iff⟩

def twoFiles : List Dirent := [dot, dotDot, ⟨.reg, 1, 0, ['a']⟩, ⟨.reg, 1, 0, ['b']⟩]

/-- The rename of "a" fails, and the next draw is the slot of ".". -/
def dotRenamed : Round where
  before := twoFiles
  calls := [⟨['a'], ['R'], false⟩]
  ended := .broke (.sameReclen 0)
  after := [⟨.dir, 1, 0, ['R']⟩, dotDot, ⟨.reg, 1, 0, ['a']⟩, ⟨.reg, 1, 0, ['b']⟩]

def fileLost : Round where
  before := twoFiles
  calls := [⟨['a'], ['b'], false⟩]
  ended := .broke (.deleting 3 0)
  after := [⟨.reg, 1, 0, ['.']⟩, dotDot, ⟨.reg, 1, 0, ['a']⟩, ⟨.reg, 0, 0, ['b']⟩]

theorem dot_renamed :
    randomRenameSameReclen .multiInlineDirs 1 1 [false] [2, 0] twoFiles = [dotRenamed] ∧
    randomRenameSameReclen .multiIndexDir 1 1 [false] [2, 0] twoFiles = [dotRenamed] ∧
    ¬ dotRenamed.Justified ∧
    randomDeletingRename .multiInlineDirs 1 1 [false] [(2, 3), (3, 0)] twoFiles = [fileLost] ∧
    randomDeletingRename .multiIndexDir 1 1 [false] [(2, 3), (3, 0)] twoFiles = [fileLost] ∧
    ¬ fileLost.Justified := by
  refine ⟨by decide, by decide, fun h => ?_, by decide, by decide, fun h => ?_⟩
  · exact absurd ((h 0 dot ⟨.dir, 1, 0, ['R']⟩ rfl rfl).dot (by decide)) (by decide)
  · exact absurd ((h 0 dot ⟨.reg, 1, 0, ['.']⟩ rfl rfl).dot (by decide)) (by decide)

end Ocfs2Test.Dirs.Contention
