import Ocfs2Test.Lib.Transition
import Ocfs2Test.Lib.Stdio

/-!
# negative_inodes_limit_test

Rank 0 creates files while the others remove some of them and send it the index of
each. Rank 0 marks an index when it posts the receive, which is before the message
is there: the first index it marks is what its stack held, and each later one is
that of the message before.
-/

namespace Ocfs2Test.Quota

open Lib Lib.Stdio

def getRand (min max : Nat) (r : Rand) : Nat :=
  if min = 0 ∧ max = 0 then 0 else min + r.val % (max - min + 1)

namespace NegativeInodes

/-- `others` is the number of ranks beside rank 0; they have enough files to remove. -/
structure Config where
  others : Nat
  isoftlimit : Nat
  rmNums : Nat
  enough : others * rmNums ≤ isoftlimit * 2

inductive RootPc (c : Config)
  | create (i : Nat)
  | irecv (j : Fin c.others) (i : Nat)
  | wait (j : Fin c.others) (i : Nat)
  | getquota
  | barrier
  | cleanup (fileIndex : Nat)
  | access
  | done
  | aborted

/-- Where another rank is, with its `rm_counts`. -/
inductive Pc
  | remove (rmCounts : Nat)
  | send (rmCounts i : Nat)
  | barrier
  | done

/-- `inodes_removed` by the indices that have been set in it. `removals` and
`reports` are what has been unlinked by the other ranks, and reported. -/
structure State (c : Config) where
  root : RootPc c
  rmCounts : Nat
  fileIndex : Int
  inodesRemoved : List Int
  ranks : Fin c.others → Pc
  sent : Fin c.others → List Nat
  files : Finset Nat
  removals : List (Fin c.others × Nat)
  reports : List Nat

section
variable {c : Config}

/-- The head of the loop over the ranks, and of the one in it. -/
def recvFrom (c : Config) (j : Nat) : RootPc c :=
  if h : j < c.others then
    if 0 < c.rmNums then .irecv ⟨j, h⟩ 0 else .getquota
  else .getquota

def RootPc.atBarrier : RootPc c → Prop
  | .barrier | .cleanup _ | .access | .done => True
  | _ => False

instance (pc : RootPc c) : Decidable pc.atBarrier := by
  cases pc <;> unfold RootPc.atBarrier <;> infer_instance

def Pc.atBarrier : Pc → Prop
  | .barrier | .done => True
  | _ => False

instance (pc : Pc) : Decidable pc.atBarrier := by
  cases pc <;> unfold Pc.atBarrier <;> infer_instance

def rootNext (s : State c) : Option (State c) :=
  match s.root with
  | .create i =>
    if i < c.isoftlimit * 2 then
      some { s with root := .create (i + 1), files := insert i s.files }
    else some { s with root := recvFrom c 0, rmCounts := 0 }
  | .irecv j i =>
    some { s with
      root := .wait j i
      rmCounts := s.rmCounts + 1
      inodesRemoved := s.fileIndex :: s.inodesRemoved }
  | .wait j i =>
    match s.sent j with
    | [] => none
    | m :: rest =>
      some { s with
        root := if i + 1 < c.rmNums then .irecv j (i + 1) else recvFrom c (j + 1)
        fileIndex := m
        sent := Function.update s.sent j rest }
  | .getquota =>
    if (s.files.card : Int) ≠ c.isoftlimit * 2 - s.rmCounts then some { s with root := .aborted }
    else some { s with root := .barrier }
  | .barrier => if ∀ j, (s.ranks j).atBarrier then some { s with root := .cleanup 0 } else none
  | .cleanup i =>
    if i < c.isoftlimit * 2 then
      if (i : Int) ∈ s.inodesRemoved then some { s with root := .cleanup (i + 1) }
      else some { s with root := .cleanup (i + 1), files := s.files.erase i }
    else some { s with root := .access }
  | .access => some { s with root := .done, files := s.files.erase 0 }
  | .done | .aborted => none

def rankNext (s : State c) (j : Fin c.others) (r : Rand) : Option (State c) :=
  match s.ranks j with
  | .remove n =>
    if n < c.rmNums then
      let i := getRand 0 (c.isoftlimit * 2 - 1) r
      if i ∈ s.files then
        some { s with
          ranks := Function.update s.ranks j (.send n i)
          files := s.files.erase i
          removals := (j, i) :: s.removals }
      else some s
    else some { s with ranks := Function.update s.ranks j .barrier }
  | .send n i =>
    some { s with
      ranks := Function.update s.ranks j (.remove (n + 1))
      sent := Function.update s.sent j (s.sent j ++ [i])
      reports := i :: s.reports }
  | .barrier =>
    if s.root.atBarrier ∧ ∀ j, (s.ranks j).atBarrier then
      some { s with ranks := Function.update s.ranks j .done }
    else none
  | .done => none

end

/-- `garbage` is in `file_index` before anything is received into it. -/
def initial (c : Config) (garbage : Int) : State c where
  root := .create 0
  rmCounts := 0
  fileIndex := garbage
  inodesRemoved := []
  ranks _ := .remove 0
  sent _ := []
  files := ∅
  removals := []
  reports := []

def negativeInodesTest (c : Config) (garbage : Int) : System (State c) where
  Init s := s = initial c garbage
  Step s s' := rootNext s = some s' ∨ ∃ j r, rankNext s j r = some s'

-- ---------------------------------------------------------------------------
-- What is wanted, and what there is
-- ---------------------------------------------------------------------------

section
variable {c : Config}

/-- At most one rank removes a file, and the quota is right when rank 0 asks for it. -/
structure Counted (s : State c) : Prop where
  once : (s.removals.map Prod.snd).Nodup
  quota : s.root = .getquota → (s.files.card : Int) = c.isoftlimit * 2 - s.rmCounts

structure Correct (s : State c) : Prop extends Counted s where
  marked : ∀ x ∈ s.inodesRemoved, ∃ i ∈ s.reports, x = i
  cleaned : s.root = .done → s.files = ∅

/-- Only what `file_index` held before is marked without a report, and no other
file is left. -/
structure Partly (garbage : Int) (s : State c) : Prop extends Counted s where
  marked : ∀ x ∈ s.inodesRemoved, x = garbage ∨ ∃ i ∈ s.reports, x = i
  cleaned : s.root = .done → ∀ i ∈ s.files, (i : Int) = garbage

-- ---------------------------------------------------------------------------
-- Messages by where the ranks are
-- ---------------------------------------------------------------------------

/-- The removals of a rank that is at `pc`, and its reports. -/
def Pc.removed (c : Config) : Pc → Nat
  | .remove n => n
  | .send n _ => n + 1
  | .barrier | .done => c.rmNums

def Pc.reported (c : Config) : Pc → Nat
  | .remove n | .send n _ => n
  | .barrier | .done => c.rmNums

def Pc.Within (c : Config) : Pc → Prop
  | .remove n => n ≤ c.rmNums
  | .send n _ => n < c.rmNums
  | .barrier | .done => True

def RootPc.got (q : Fin c.others) : RootPc c → Nat
  | .create _ => 0
  | .irecv j i | .wait j i => if q < j then c.rmNums else if q = j then i else 0
  | _ => c.rmNums

def RootPc.counted : RootPc c → Nat
  | .create _ => 0
  | .irecv j i => j.val * c.rmNums + i
  | .wait j i => j.val * c.rmNums + i + 1
  | _ => c.others * c.rmNums

def RootPc.Within : RootPc c → Prop
  | .create i => i ≤ c.isoftlimit * 2
  | .irecv _ i | .wait _ i => i < c.rmNums
  | _ => True

theorem recvFrom_within (j : Nat) : (recvFrom c j).Within := by
  unfold recvFrom
  split
  · split
    · assumption
    · trivial
  · trivial

theorem recvFrom_counted (j : Nat) (h : j ≤ c.others) : (recvFrom c j).counted = j * c.rmNums := by
  unfold recvFrom
  split
  · split
    · rfl
    · obtain hrm : c.rmNums = 0 := by omega
      simp [RootPc.counted, hrm]
  · obtain rfl : j = c.others := by omega
    rfl

theorem recvFrom_got (j : Nat) (q : Fin c.others) :
    (recvFrom c j).got q = if q.val < j then c.rmNums else 0 := by
  unfold recvFrom
  split
  case isTrue hj =>
    split
    · simp [RootPc.got, Fin.lt_def]
    · obtain hrm : c.rmNums = 0 := by omega
      simp [RootPc.got, hrm]
  case isFalse hj =>
    have hq : q.val < j := by omega
    simp [RootPc.got, hq]

theorem Pc.reported_le {pc : Pc} (h : pc.Within c) : pc.reported c ≤ c.rmNums := by
  cases pc with
  | remove n => exact h
  | send n i => exact Nat.le_of_lt h
  | barrier | done => exact le_refl _

theorem Pc.removed_of_reported {pc : Pc} (h : pc.Within c) (hall : pc.reported c = c.rmNums) :
    pc.removed c = c.rmNums := by
  cases pc with
  | remove n => exact hall
  | send n i => exact absurd hall (Nat.ne_of_lt h)
  | barrier | done => rfl

structure Flow (s : State c) : Prop where
  root : s.root.Within
  ranks : ∀ j, (s.ranks j).Within c
  received : ∀ j, s.root.got j + (s.sent j).length = (s.ranks j).reported c
  counted : s.rmCounts = s.root.counted
  marks : s.inodesRemoved.length = s.root.counted

theorem Flow.init (garbage : Int) : Flow (initial c garbage) where
  root := Nat.zero_le _
  ranks _ := Nat.zero_le _
  received _ := rfl
  counted := rfl
  marks := rfl

theorem Flow.rootNext {s s' : State c} (h : Flow s) (hs : rootNext s = some s') : Flow s' := by
  obtain ⟨hroot, hranks, hreceived, hcounted, hmarks⟩ := h
  unfold NegativeInodes.rootNext at hs
  cases hpc : s.root with
  | create i =>
    simp only [hpc] at hs hroot hreceived hcounted hmarks
    split at hs
    case isTrue hi =>
      cases hs
      exact ⟨hi, hranks, hreceived, hcounted, hmarks⟩
    case isFalse =>
      cases hs
      have hzero : (recvFrom c 0).counted = 0 := by
        rw [recvFrom_counted 0 (Nat.zero_le _), Nat.zero_mul]
      refine ⟨recvFrom_within 0, hranks, fun j => ?_, hzero.symm, hmarks.trans hzero.symm⟩
      rw [recvFrom_got, if_neg (Nat.not_lt_zero _)]
      exact hreceived j
  | irecv j i =>
    simp only [hpc] at hs hroot hreceived hcounted hmarks
    cases hs
    refine ⟨hroot, hranks, hreceived, congrArg (· + 1) hcounted, ?_⟩
    exact congrArg (· + 1) hmarks
  | wait j i =>
    simp only [hpc] at hs hroot hreceived hcounted hmarks
    split at hs
    · contradiction
    case h_2 m rest hsent =>
      cases hs
      have hgot (pc : RootPc c) (hpc' : ∀ q, pc.got q = if q = j then i + 1 else
          (RootPc.wait j i).got q) (q : Fin c.others) :
          pc.got q + (Function.update s.sent j rest q).length = (s.ranks q).reported c := by
        rw [hpc', ← hreceived q]
        by_cases hq : q = j
        · subst hq
          simp only [if_true, Function.update_self, hsent, List.length_cons, RootPc.got,
            lt_irrefl, if_false]
          omega
        · rw [if_neg hq, Function.update_of_ne hq]
      split
      case isTrue hi =>
        refine ⟨hi, hranks, hgot _ fun q => ?_, hcounted, hmarks⟩
        by_cases hq : q = j
        · subst hq
          simp [RootPc.got]
        · simp [RootPc.got, hq]
      case isFalse hi =>
        have hlast : i + 1 = c.rmNums := Nat.le_antisymm hroot (Nat.le_of_not_lt hi)
        have hnext : (recvFrom c (j.val + 1)).counted = (RootPc.wait j i).counted := by
          rw [recvFrom_counted _ j.isLt, Nat.succ_mul]
          simp only [RootPc.counted]
          omega
        refine ⟨recvFrom_within _, hranks, hgot _ fun q => ?_, hcounted.trans hnext.symm,
          hmarks.trans hnext.symm⟩
        rw [recvFrom_got]
        by_cases hq : q = j
        · subst hq
          simp [hlast]
        · have hval : q.val ≠ j.val := fun h => hq (Fin.ext h)
          have hiff : q.val < j.val + 1 ↔ q < j := by
            rw [Fin.lt_def]
            omega
          simp [RootPc.got, hq, hiff]
  | getquota =>
    simp only [hpc] at hs hroot hreceived hcounted hmarks
    split at hs <;> cases hs <;> exact ⟨trivial, hranks, hreceived, hcounted, hmarks⟩
  | barrier =>
    simp only [hpc] at hs hroot hreceived hcounted hmarks
    split at hs <;> cases hs
    exact ⟨trivial, hranks, hreceived, hcounted, hmarks⟩
  | cleanup i =>
    simp only [hpc] at hs hroot hreceived hcounted hmarks
    split at hs
    · split at hs <;> cases hs <;> exact ⟨trivial, hranks, hreceived, hcounted, hmarks⟩
    · cases hs
      exact ⟨trivial, hranks, hreceived, hcounted, hmarks⟩
  | access =>
    simp only [hpc] at hs hroot hreceived hcounted hmarks
    cases hs
    exact ⟨trivial, hranks, hreceived, hcounted, hmarks⟩
  | done | aborted => simp only [hpc, reduceCtorEq] at hs

theorem rankNext_cases {s s' : State c} {j : Fin c.others} {r : Rand}
    (hj : (s.ranks j).Within c) (hs : rankNext s j r = some s') :
    s' = s ∨
    (∃ n i, s.ranks j = .remove n ∧ n < c.rmNums ∧ i ∈ s.files ∧
      s' = { s with
        ranks := Function.update s.ranks j (.send n i)
        files := s.files.erase i
        removals := (j, i) :: s.removals }) ∨
    (∃ n i, s.ranks j = .send n i ∧
      s' = { s with
        ranks := Function.update s.ranks j (.remove (n + 1))
        sent := Function.update s.sent j (s.sent j ++ [i])
        reports := i :: s.reports }) ∨
    ∃ pc, pc.Within c ∧ pc.reported c = (s.ranks j).reported c ∧
      pc.removed c = (s.ranks j).removed c ∧ (∀ n i, pc ≠ .send n i) ∧
      s' = { s with ranks := Function.update s.ranks j pc } := by
  unfold rankNext at hs
  cases hpc : s.ranks j with
  | remove n =>
    simp only [hpc] at hs hj
    split at hs
    case isTrue hn =>
      split at hs
      case isTrue hi =>
        cases hs
        exact .inr (.inl ⟨n, _, rfl, hn, hi, rfl⟩)
      case isFalse =>
        cases hs
        exact .inl rfl
    case isFalse hn =>
      cases hs
      obtain rfl : n = c.rmNums := Nat.le_antisymm hj (Nat.le_of_not_lt hn)
      exact .inr (.inr (.inr ⟨.barrier, trivial, rfl, rfl, nofun, rfl⟩))
  | send n i =>
    simp only [hpc] at hs
    cases hs
    exact .inr (.inr (.inl ⟨n, i, rfl, rfl⟩))
  | barrier =>
    simp only [hpc] at hs
    split at hs <;> cases hs
    exact .inr (.inr (.inr ⟨.done, trivial, rfl, rfl, nofun, rfl⟩))
  | done => simp only [hpc, reduceCtorEq] at hs

theorem Flow.rankNext {s s' : State c} {j : Fin c.others} {r : Rand} (h : Flow s)
    (hs : rankNext s j r = some s') : Flow s' := by
  obtain ⟨hroot, hranks, hreceived, hcounted, hmarks⟩ := h
  have hwithin (pc : Pc) (hpc : pc.Within c) (q : Fin c.others) :
      (Function.update s.ranks j pc q).Within c := by
    by_cases hq : q = j
    · rwa [hq, Function.update_self]
    · rw [Function.update_of_ne hq]
      exact hranks q
  have hsame (pc : Pc) (hpc : pc.reported c = (s.ranks j).reported c) (q : Fin c.others) :
      s.root.got q + (s.sent q).length = (Function.update s.ranks j pc q).reported c := by
    by_cases hq : q = j
    · rw [hq, Function.update_self, hpc]
      exact hreceived j
    · rw [Function.update_of_ne hq]
      exact hreceived q
  rcases rankNext_cases (hranks j) hs with rfl | ⟨n, i, hpc, hn, -, rfl⟩ | ⟨n, i, hpc, rfl⟩ |
    ⟨pc, hpc, hreported, -, -, rfl⟩
  · exact ⟨hroot, hranks, hreceived, hcounted, hmarks⟩
  · exact ⟨hroot, hwithin _ hn, hsame _ (by rw [hpc]; rfl), hcounted, hmarks⟩
  · have hj := hranks j
    rw [hpc] at hj
    refine ⟨hroot, hwithin _ hj, fun q => ?_, hcounted, hmarks⟩
    have hq := hreceived q
    by_cases hqj : q = j
    · subst hqj
      rw [hpc] at hq
      simp only [Pc.reported] at hq
      simp only [Function.update_self, List.length_append, List.length_singleton, Pc.reported]
      omega
    · simp only [Function.update_of_ne hqj]
      exact hq
  · exact ⟨hroot, hwithin _ hpc, hsame _ hreported, hcounted, hmarks⟩

-- ---------------------------------------------------------------------------
-- The files
-- ---------------------------------------------------------------------------

/-- The files that rank 0 has created and not unlinked. -/
def RootPc.Keeps (marked : List Int) (x : Nat) : RootPc c → Prop
  | .create i => x < i
  | .cleanup i => x < c.isoftlimit * 2 ∧ (i ≤ x ∨ (x : Int) ∈ marked)
  | .access => x < c.isoftlimit * 2 ∧ (x : Int) ∈ marked
  | .done => x < c.isoftlimit * 2 ∧ (x : Int) ∈ marked ∧ x ≠ 0
  | _ => x < c.isoftlimit * 2

theorem recvFrom_keeps (j : Nat) (marked : List Int) (x : Nat) :
    (recvFrom c j).Keeps marked x ↔ x < c.isoftlimit * 2 := by
  unfold recvFrom
  split
  · split <;> rfl
  · rfl

theorem recvFrom_ne_create (j i : Nat) : recvFrom c j ≠ .create i := by
  unfold recvFrom
  split
  · split <;> nofun
  · nofun

section
variable {marked : List Int} {i x : Nat}

theorem cleanup_keeps_marked (hmark : (i : Int) ∈ marked) :
    (RootPc.cleanup i : RootPc c).Keeps marked x ↔
      (RootPc.cleanup (i + 1) : RootPc c).Keeps marked x := by
  refine and_congr_right fun _ => ?_
  constructor
  · rintro (hle | hx)
    · rcases Nat.eq_or_lt_of_le hle with rfl | hlt
      · exact .inr hmark
      · exact .inl hlt
    · exact .inr hx
  · exact Or.imp_left Nat.le_of_succ_le

theorem cleanup_keeps_unlinked (hmark : (i : Int) ∉ marked) :
    x ≠ i ∧ (RootPc.cleanup i : RootPc c).Keeps marked x ↔
      (RootPc.cleanup (i + 1) : RootPc c).Keeps marked x := by
  constructor
  · rintro ⟨hne, hx, hle | hmarked⟩
    · exact ⟨hx, .inl (Nat.lt_of_le_of_ne hle hne.symm)⟩
    · exact ⟨hx, .inr hmarked⟩
  · rintro ⟨hx, hle | hmarked⟩
    · exact ⟨Nat.ne_of_gt hle, hx, .inl (Nat.le_of_succ_le hle)⟩
    · refine ⟨?_, hx, .inr hmarked⟩
      rintro rfl
      exact hmark hmarked

theorem cleanup_keeps_end (hi : ¬ i < c.isoftlimit * 2) :
    (RootPc.cleanup i : RootPc c).Keeps marked x ↔ (RootPc.access : RootPc c).Keeps marked x := by
  constructor
  · rintro ⟨hx, hle | hmarked⟩
    · exact absurd (lt_of_le_of_lt hle hx) hi
    · exact ⟨hx, hmarked⟩
  · rintro ⟨hx, hmarked⟩
    exact ⟨hx, .inr hmarked⟩

end

structure Kept (s : State c) : Prop where
  files : ∀ x, x ∈ s.files ↔ s.root.Keeps s.inodesRemoved x ∧ x ∉ s.removals.map Prod.snd
  bound : ∀ x ∈ s.removals.map Prod.snd, x < c.isoftlimit * 2 ∧
    ∀ i, s.root = .create i → x < i
  once : (s.removals.map Prod.snd).Nodup
  removals : s.removals.length = ∑ j, (s.ranks j).removed c

theorem Kept.init (garbage : Int) : Kept (initial c garbage) where
  files x := by simp [initial, RootPc.Keeps]
  bound x hx := by cases hx
  once := List.nodup_nil
  removals := by simp [initial, Pc.removed]

theorem Kept.rootNext {s s' : State c} (hflow : Flow s) (h : Kept s) (hs : rootNext s = some s') :
    Kept s' := by
  obtain ⟨hfiles, hbound, honce, hremovals⟩ := h
  have hroot := hflow.root
  have hwithin (x : Nat) (hx : x ∈ s.removals.map Prod.snd) (pc : RootPc c)
      (hpc : ∀ i, pc ≠ .create i) :
      x < c.isoftlimit * 2 ∧ ∀ i, pc = .create i → x < i :=
    ⟨(hbound x hx).1, fun i hi => absurd hi (hpc i)⟩
  unfold NegativeInodes.rootNext at hs
  cases hpc : s.root with
  | create i =>
    simp only [hpc] at hs hroot hfiles hbound
    split at hs
    case isTrue hi =>
      cases hs
      refine ⟨fun x => ?_, fun x hx => ⟨(hbound x hx).1, ?_⟩, honce, hremovals⟩
      · have hi' : i ∉ s.removals.map Prod.snd := fun hmem =>
          lt_irrefl i ((hbound i hmem).2 i rfl)
        simp only [Finset.mem_insert, hfiles, RootPc.Keeps]
        constructor
        · rintro (rfl | ⟨hx, hrem⟩)
          · exact ⟨Nat.lt_succ_self x, hi'⟩
          · exact ⟨Nat.lt_succ_of_lt hx, hrem⟩
        · rintro ⟨hx, hrem⟩
          exact (Nat.lt_succ_iff_lt_or_eq.mp hx).symm.imp_right fun hx => ⟨hx, hrem⟩
      · rintro _ ⟨⟩
        exact Nat.lt_succ_of_lt ((hbound x hx).2 i rfl)
    case isFalse hi =>
      cases hs
      obtain rfl : i = c.isoftlimit * 2 := Nat.le_antisymm hroot (Nat.le_of_not_lt hi)
      refine ⟨fun x => ?_, fun x hx => hwithin x hx _ (recvFrom_ne_create 0), honce, hremovals⟩
      rw [recvFrom_keeps]
      exact hfiles x
  | irecv j i =>
    simp only [hpc] at hs hfiles
    cases hs
    exact ⟨hfiles, fun x hx => hwithin x hx _ nofun, honce, hremovals⟩
  | wait j i =>
    simp only [hpc] at hs hfiles
    split at hs
    · contradiction
    · cases hs
      split
      · exact ⟨hfiles, fun x hx => hwithin x hx _ nofun, honce, hremovals⟩
      · refine ⟨fun x => ?_, fun x hx => hwithin x hx _ (recvFrom_ne_create _), honce, hremovals⟩
        rw [recvFrom_keeps]
        exact hfiles x
  | getquota =>
    simp only [hpc] at hs hfiles
    split at hs <;> cases hs <;>
      exact ⟨hfiles, fun x hx => hwithin x hx _ nofun, honce, hremovals⟩
  | barrier =>
    simp only [hpc] at hs hfiles
    split at hs <;> cases hs
    refine ⟨fun x => ?_, fun x hx => hwithin x hx _ nofun, honce, hremovals⟩
    simp only [hfiles, RootPc.Keeps, Nat.zero_le, true_or, and_true]
  | cleanup i =>
    simp only [hpc] at hs hfiles
    split at hs
    case isTrue hi =>
      split at hs
      case isTrue hmark =>
        cases hs
        refine ⟨fun x => ?_, fun x hx => hwithin x hx _ nofun, honce, hremovals⟩
        rw [hfiles, cleanup_keeps_marked hmark]
      case isFalse hmark =>
        cases hs
        refine ⟨fun x => ?_, fun x hx => hwithin x hx _ nofun, honce, hremovals⟩
        rw [Finset.mem_erase, hfiles, ← and_assoc, cleanup_keeps_unlinked hmark]
    case isFalse hi =>
      cases hs
      refine ⟨fun x => ?_, fun x hx => hwithin x hx _ nofun, honce, hremovals⟩
      rw [hfiles, cleanup_keeps_end hi]
  | access =>
    simp only [hpc] at hs hfiles
    cases hs
    refine ⟨fun x => ?_, fun x hx => hwithin x hx _ nofun, honce, hremovals⟩
    simp only [Finset.mem_erase, hfiles, RootPc.Keeps]
    tauto
  | done | aborted => simp only [hpc, reduceCtorEq] at hs

theorem Kept.rankNext {s s' : State c} {j : Fin c.others} {r : Rand} (hflow : Flow s)
    (h : Kept s) (hs : rankNext s j r = some s') : Kept s' := by
  obtain ⟨hfiles, hbound, honce, hremovals⟩ := h
  rcases rankNext_cases (hflow.ranks j) hs with rfl | ⟨n, i, hpc, -, hi, rfl⟩ |
    ⟨n, i, hpc, rfl⟩ | ⟨pc, -, -, hremoved, -, rfl⟩
  · exact ⟨hfiles, hbound, honce, hremovals⟩
  · obtain ⟨hkeeps, hnew⟩ := (hfiles i).mp hi
    have hlt : i < c.isoftlimit * 2 ∧ ∀ k, s.root = .create k → i < k := by
      have hroot := hflow.root
      cases hroot' : s.root with
      | create k =>
        simp only [hroot'] at hkeeps hroot
        refine ⟨lt_of_lt_of_le hkeeps hroot, ?_⟩
        rintro _ ⟨⟩
        exact hkeeps
      | cleanup _ | access | done =>
        simp only [hroot'] at hkeeps
        exact ⟨hkeeps.1, nofun⟩
      | irecv _ _ | wait _ _ | getquota | barrier | aborted =>
        simp only [hroot'] at hkeeps
        exact ⟨hkeeps, nofun⟩
    refine ⟨fun x => ?_, fun x hx => ?_, ?_, ?_⟩
    · simp only [Finset.mem_erase, hfiles, List.map_cons, List.mem_cons, not_or]
      tauto
    · simp only [List.map_cons, List.mem_cons] at hx
      rcases hx with rfl | hx
      · exact hlt
      · exact hbound x hx
    · exact List.nodup_cons.mpr ⟨hnew, honce⟩
    · have hsum := sum_update s.ranks (Pc.removed c) j (.send n i)
      rw [hpc] at hsum
      rw [List.length_cons, hremovals]
      exact (Nat.add_right_cancel (hsum.trans (Nat.add_right_comm _ n 1))).symm
  · refine ⟨hfiles, hbound, honce, ?_⟩
    have hsum := sum_update s.ranks (Pc.removed c) j (.remove (n + 1))
    rw [hpc] at hsum
    exact hremovals.trans (Nat.add_right_cancel hsum).symm
  · refine ⟨hfiles, hbound, honce, ?_⟩
    have hsum := sum_update s.ranks (Pc.removed c) j pc
    rw [hremoved] at hsum
    exact hremovals.trans (Nat.add_right_cancel hsum).symm

theorem Kept.quota {s : State c} (hflow : Flow s) (h : Kept s) (hpc : s.root = .getquota) :
    (s.files.card : Int) = c.isoftlimit * 2 - s.rmCounts := by
  have hremoved (j : Fin c.others) : (s.ranks j).removed c = c.rmNums := by
    apply Pc.removed_of_reported (hflow.ranks j)
    apply Nat.le_antisymm (Pc.reported_le (hflow.ranks j))
    rw [← hflow.received j, hpc]
    exact Nat.le_add_right ..
  have hlen : s.removals.length = c.others * c.rmNums := by
    rw [h.removals, Finset.sum_congr rfl fun j _ => hremoved j]
    simp
  have hsdiff : s.files = Finset.range (c.isoftlimit * 2) \ (s.removals.map Prod.snd).toFinset := by
    ext x
    rw [h.files, hpc, Finset.mem_sdiff, Finset.mem_range, List.mem_toFinset]
    rfl
  have hsub : (s.removals.map Prod.snd).toFinset ⊆ Finset.range (c.isoftlimit * 2) := by
    intro x hx
    exact Finset.mem_range.mpr (h.bound x (List.mem_toFinset.mp hx)).1
  have hcounted : s.rmCounts = c.others * c.rmNums := by
    rw [hflow.counted, hpc]
    rfl
  rw [hsdiff, Finset.card_sdiff_of_subset hsub, Finset.card_range,
    List.toFinset_card_of_nodup h.once, List.length_map, hlen, hcounted]
  have henough := c.enough
  omega

theorem Kept.toCounted {s : State c} (hflow : Flow s) (h : Kept s) : Counted s where
  once := h.once
  quota hpc := h.quota hflow hpc

-- ---------------------------------------------------------------------------
-- The reports
-- ---------------------------------------------------------------------------

structure Reported (garbage : Int) (s : State c) : Prop where
  sent : ∀ j, ∀ i ∈ s.sent j, i ∈ s.reports
  fileIndex : s.fileIndex = garbage ∨ ∃ i ∈ s.reports, s.fileIndex = i
  marked : ∀ x ∈ s.inodesRemoved, x = garbage ∨ ∃ i ∈ s.reports, x = i
  sending : ∀ j n i, s.ranks j = .send n i → i ∈ s.removals.map Prod.snd
  removed : ∀ i ∈ s.reports, i ∈ s.removals.map Prod.snd

theorem Reported.init (garbage : Int) : Reported garbage (initial c garbage) where
  sent j i hi := by cases hi
  fileIndex := .inl rfl
  marked x hx := by cases hx
  sending := nofun
  removed i hi := by cases hi

theorem Reported.rootNext {garbage : Int} {s s' : State c} (h : Reported garbage s)
    (hs : rootNext s = some s') : Reported garbage s' := by
  obtain ⟨hsent, hindex, hmarked, hsending, hremoved⟩ := h
  unfold NegativeInodes.rootNext at hs
  cases hpc : s.root with
  | irecv j i =>
    simp only [hpc] at hs
    cases hs
    refine ⟨hsent, hindex, fun x hx => ?_, hsending, hremoved⟩
    rcases List.mem_cons.mp hx with rfl | hx
    · exact hindex
    · exact hmarked x hx
  | wait j i =>
    simp only [hpc] at hs
    split at hs
    · contradiction
    case h_2 m rest hm =>
      cases hs
      refine ⟨fun q x hx => ?_, .inr ⟨m, ?_, rfl⟩, hmarked, hsending, hremoved⟩
      · rcases update_cases (P := fun l => x ∈ l) hx with ⟨rfl, hrest⟩ | ⟨-, hx⟩
        · refine hsent q x ?_
          rw [hm]
          exact List.mem_cons_of_mem _ hrest
        · exact hsent q x hx
      · refine hsent j m ?_
        rw [hm]
        exact List.mem_cons_self
  | create i | getquota | barrier =>
    simp only [hpc] at hs
    split at hs <;> cases hs <;> exact ⟨hsent, hindex, hmarked, hsending, hremoved⟩
  | cleanup i =>
    simp only [hpc] at hs
    split at hs
    · split at hs <;> cases hs <;> exact ⟨hsent, hindex, hmarked, hsending, hremoved⟩
    · cases hs
      exact ⟨hsent, hindex, hmarked, hsending, hremoved⟩
  | access =>
    simp only [hpc] at hs
    cases hs
    exact ⟨hsent, hindex, hmarked, hsending, hremoved⟩
  | done | aborted => simp only [hpc, reduceCtorEq] at hs

theorem Reported.rankNext {garbage : Int} {s s' : State c} {j : Fin c.others} {r : Rand}
    (hflow : Flow s) (h : Reported garbage s) (hs : rankNext s j r = some s') :
    Reported garbage s' := by
  obtain ⟨hsent, hindex, hmarked, hsending, hremoved⟩ := h
  rcases rankNext_cases (hflow.ranks j) hs with rfl | ⟨n, i, hpc, -, hi, rfl⟩ |
    ⟨n, i, hpc, rfl⟩ | ⟨pc, -, -, -, hpc, rfl⟩
  · exact ⟨hsent, hindex, hmarked, hsending, hremoved⟩
  · refine ⟨hsent, hindex, hmarked, fun q m x hq => ?_, fun x hx => ?_⟩
    · rcases update_cases (P := fun pc : Pc => pc = .send m x) hq with ⟨rfl, heq⟩ | ⟨-, hq⟩
      · cases heq
        exact List.mem_cons_self
      · exact List.mem_cons_of_mem _ (hsending q m x hq)
    · exact List.mem_cons_of_mem _ (hremoved x hx)
  · have hmono {x : Int} (hx : ∃ k ∈ s.reports, x = k) : ∃ k ∈ i :: s.reports, x = k := by
      obtain ⟨k, hk, rfl⟩ := hx
      exact ⟨k, List.mem_cons_of_mem _ hk, rfl⟩
    refine ⟨fun q x hx => ?_, hindex.imp_right hmono, fun x hx => (hmarked x hx).imp_right hmono,
      fun q m x hq => ?_, fun x hx => ?_⟩
    · rcases update_cases (P := fun l => x ∈ l) hx with ⟨rfl, happ⟩ | ⟨-, hx⟩
      · rcases List.mem_append.mp happ with hx | hx
        · exact List.mem_cons_of_mem _ (hsent q x hx)
        · rw [List.mem_singleton.mp hx]
          exact List.mem_cons_self
      · exact List.mem_cons_of_mem _ (hsent q x hx)
    · rcases update_cases (P := fun pc : Pc => pc = .send m x) hq with ⟨rfl, heq⟩ | ⟨-, hq⟩
      · cases heq
      · exact hsending q m x hq
    · rcases List.mem_cons.mp hx with rfl | hx
      · exact hsending j n x hpc
      · exact hremoved x hx
  · refine ⟨hsent, hindex, hmarked, fun q m x hq => ?_, hremoved⟩
    rcases update_cases (P := fun pc : Pc => pc = .send m x) hq with ⟨rfl, heq⟩ | ⟨-, hq⟩
    · exact absurd heq (hpc m x)
    · exact hsending q m x hq

-- ---------------------------------------------------------------------------
-- Every run
-- ---------------------------------------------------------------------------

theorem reachable_invariant {garbage : Int} {s : State c}
    (h : (negativeInodesTest c garbage).Reachable s) : Flow s ∧ Kept s ∧ Reported garbage s := by
  apply h.invariant (P := fun s => Flow s ∧ Kept s ∧ Reported garbage s)
  · rintro _ rfl
    exact ⟨.init garbage, .init garbage, .init garbage⟩
  · rintro s s' - ⟨hflow, hkept, hreported⟩ (hs | ⟨j, r, hs⟩)
    · exact ⟨hflow.rootNext hs, hkept.rootNext hflow hs, hreported.rootNext hs⟩
    · exact ⟨hflow.rankNext hs, hkept.rankNext hflow hs, hreported.rankNext hflow hs⟩

/-- In every run only the index that was never received is marked without a report. -/
theorem reachable_partly {garbage : Int} {s : State c}
    (h : (negativeInodesTest c garbage).Reachable s) : Partly garbage s := by
  obtain ⟨hflow, hkept, hreported⟩ := reachable_invariant h
  refine ⟨hkept.toCounted hflow, hreported.marked, fun hdone i hi => ?_⟩
  obtain ⟨hkeeps, hremoved⟩ := (hkept.files i).mp hi
  rw [hdone] at hkeeps
  rcases hreported.marked i hkeeps.2.1 with hgarbage | ⟨k, hk, heq⟩
  · exact hgarbage
  · rw [Int.ofNat.inj heq] at hremoved
    exact absurd (hreported.removed k hk) hremoved

theorem reachable_correct (hc : c.others * c.rmNums = 0) {garbage : Int} {s : State c}
    (h : (negativeInodesTest c garbage).Reachable s) : Correct s := by
  obtain ⟨hflow, hkept, -⟩ := reachable_invariant h
  have hnil : s.inodesRemoved = [] := by
    have hcounted : s.root.counted = 0 := by
      have hroot := hflow.root
      cases hpc : s.root with
      | irecv j i | wait j i =>
        rw [hpc] at hroot
        have hpos : 0 < c.others * c.rmNums :=
          Nat.mul_pos (Nat.zero_lt_of_lt j.isLt) (Nat.zero_lt_of_lt hroot)
        omega
      | create _ => rfl
      | getquota | barrier | cleanup _ | access | done | aborted => exact hc
    exact List.length_eq_zero_iff.mp (hflow.marks.trans hcounted)
  refine ⟨hkept.toCounted hflow, fun x hx => ?_, fun hdone => ?_⟩
  · rw [hnil] at hx
    cases hx
  · apply Finset.eq_empty_of_forall_notMem
    intro i hi
    have hkeeps := ((hkept.files i).mp hi).1
    rw [hdone, hnil] at hkeeps
    cases hkeeps.2.1

/-- Rank 0 creates its files and posts the first receive before any rank removes one. -/
theorem first_mark_reachable (h : 0 < c.others * c.rmNums) (garbage : Int) :
    ∃ s, (negativeInodesTest c garbage).Reachable s ∧ ¬ Correct s := by
  have hcreate (i : Nat) (hi : i ≤ c.isoftlimit * 2) :
      ∃ s, (negativeInodesTest c garbage).Reachable s ∧ s.root = .create i ∧
        s.fileIndex = garbage ∧ s.reports = [] := by
    induction i with
    | zero => exact ⟨_, .init rfl, rfl, rfl, rfl⟩
    | succ i ih =>
      obtain ⟨s, hs, hpc, hindex, hreports⟩ := ih (Nat.le_of_succ_le hi)
      refine ⟨{ s with root := .create (i + 1), files := insert i s.files },
        hs.step (.inl ?_), rfl, hindex, hreports⟩
      simp only [rootNext, hpc, if_pos (Nat.lt_of_succ_le hi)]
  obtain ⟨s, hs, hpc, hindex, hreports⟩ := hcreate _ le_rfl
  have hrm : 0 < c.rmNums := Nat.pos_of_mul_pos_left h
  have hothers : 0 < c.others := Nat.pos_of_mul_pos_right h
  have hfirst : (negativeInodesTest c garbage).Reachable
      { s with root := .irecv ⟨0, hothers⟩ 0, rmCounts := 0 } := by
    refine hs.step (.inl ?_)
    simp [rootNext, hpc, recvFrom, hothers, hrm]
  have hmark : (negativeInodesTest c garbage).Reachable
      { s with
        root := .wait ⟨0, hothers⟩ 0
        rmCounts := 1
        inodesRemoved := s.fileIndex :: s.inodesRemoved } :=
    hfirst.step (.inl rfl)
  refine ⟨_, hmark, fun hcorrect => ?_⟩
  obtain ⟨i, hi, -⟩ := hcorrect.marked s.fileIndex List.mem_cons_self
  rw [hreports] at hi
  cases hi

end

theorem negativeInodes_correct_iff (c : Config) :
    ((∀ garbage s, (negativeInodesTest c garbage).Reachable s → Correct s) ↔
      c.others * c.rmNums = 0) ∧
    ∀ garbage s, (negativeInodesTest c garbage).Reachable s → Partly garbage s := by
  refine ⟨⟨fun h => ?_, fun hc garbage s hs => reachable_correct hc hs⟩,
    fun garbage s hs => reachable_partly hs⟩
  by_contra hne
  obtain ⟨s, hs, hnot⟩ := first_mark_reachable (Nat.pos_of_ne_zero hne) 0
  exact hnot (h 0 s hs)

theorem negativeInodes_one_removal :
    ∃ s, (negativeInodesTest ⟨1, 1, 1, by decide⟩ 5).Reachable s ∧ ¬ Correct s :=
  first_mark_reachable (by decide) 5

end NegativeInodes

end Ocfs2Test.Quota
