import Ocfs2Test.Lib.PhaseRules

/-!
# open_delete

Rank 0 creates a file and keeps it open while all other ranks unlink it by its name.
It must then be gone for rank 0 too, though an open descriptor is left.
-/

namespace Ocfs2Test.OpenDelete

open Lib

structure Config where
  numProcs : Nat
  maxPasses : Nat
  two_le_numProcs : 2 ≤ numProcs
  numProcs_le : numProcs ≤ 60

def Config.root (c : Config) : Fin c.numProcs :=
  ⟨0, Nat.lt_of_lt_of_le Nat.zero_lt_two c.two_le_numProcs⟩

inductive Op
  /-- `open` with O_CREAT and O_TRUNC -/
  | create
  | unlink
  /-- `close`, and `open` with O_RDONLY, which has to fail -/
  | reopen

/-- Whether the name is there, and for each pass, the last one first, the ranks that have
unlinked it. -/
structure Store (c : Config) where
  named : Bool
  unlinkedBy : List (List (Fin c.numProcs))

/-- An `unlink` that fails is only reported. -/
def exec {c : Config} (p : Fin c.numProcs) : Op → Store c → Outcome (Store c)
  | .create, t => .next ⟨true, [] :: t.unlinkedBy⟩
  | .unlink, t =>
    if t.named then .next ⟨false, t.unlinkedBy.modifyHead (· ++ [p])⟩ else .next t
  | .reopen, t => if t.named then .failed else .next t

/-- `open_delete_test` over and over. Its two barriers end the phases; what rank 0 does
behind the second runs on into the next pass. -/
def script (c : Config) (k : Nat) (p : Fin c.numProcs) : List Op :=
  if p = c.root then
    if k % 2 = 0 then
      (if 0 < k then [.reopen] else []) ++ if k < 2 * c.maxPasses then [.create] else []
    else []
  else if k % 2 = 1 then [.unlink] else []

def program (c : Config) : Phased (Fin c.numProcs) Op (Store c) where
  last := 2 * c.maxPasses
  script := script c
  exec := exec

/-- The name may or may not be there before. -/
def openDelete (c : Config) : System (Phased.State (Fin c.numProcs) Op (Store c)) :=
  (program c).system fun t => t.unlinkedBy = []

-- ---------------------------------------------------------------------------
-- Who unlinks
-- ---------------------------------------------------------------------------

variable {c : Config} {t : Store c} {k n : Nat} {passes : List (List (Fin c.numProcs))}

/-- In each of `n` passes just one rank has unlinked the name, and not rank 0. -/
def Once (c : Config) (n : Nat) (passes : List (List (Fin c.numProcs))) : Prop :=
  passes.length = n ∧ ∀ unlinkers ∈ passes, ∃ p, p ≠ c.root ∧ unlinkers = [p]

theorem Once.add {p : Fin c.numProcs} (h : Once c n passes) (hp : p ≠ c.root) :
    Once c (n + 1) ([p] :: passes) := by
  refine ⟨congrArg Nat.succ h.1, fun unlinkers hmem => ?_⟩
  rcases List.mem_cons.mp hmem with rfl | hmem
  · exact ⟨p, hp, rfl⟩
  · exact h.2 unlinkers hmem

def Named (c : Config) (n : Nat) (t : Store c) : Prop :=
  t.named = true ∧ ∃ passes, t.unlinkedBy = [] :: passes ∧ Once c n passes

def Holds (c : Config) (k : Nat) (t : Store c) : Prop :=
  if k % 2 = 1 ∧ k < 2 * c.maxPasses then Named c (k / 2) t
  else Once c (min c.maxPasses (k / 2)) t.unlinkedBy ∧
    (0 < c.maxPasses → 0 < k → t.named = false)

/-- How far the ranks have come that unlink: as long as the name is there, none has. -/
def Racing (c : Config) (n : Nat) (todo : Fin c.numProcs → List Op) (t : Store c) : Prop :=
  todo c.root = [] ∧ (Named c n t ∧ (∀ q, q ≠ c.root → todo q = [.unlink]) ∨
    t.named = false ∧ Once c (n + 1) t.unlinkedBy ∧
      ∀ q, q ≠ c.root → todo q = [.unlink] ∨ todo q = [])

theorem Racing.step {p : Fin c.numProcs} {op : Op} {ops : List Op}
    {todo : Fin c.numProcs → List Op} (h : Racing c n todo t) (htodo : todo p = op :: ops) :
    ∃ t', exec p op t = .next t' ∧ Racing c n (Function.update todo p ops) t' := by
  obtain ⟨hroot, hrace⟩ := h
  have hp : p ≠ c.root := by
    rintro rfl
    rw [hroot] at htodo
    cases htodo
  have hall : ∀ q, q ≠ c.root → todo q = [.unlink] ∨ todo q = [] := by
    rcases hrace with ⟨-, hall⟩ | ⟨-, -, hall⟩
    · exact fun q hq => .inl (hall q hq)
    · exact hall
  have hop : op = .unlink ∧ ops = [] := by
    rcases hall p hp with hq | hq
    · cases hq.symm.trans htodo
      exact ⟨rfl, rfl⟩
    · cases hq.symm.trans htodo
  obtain ⟨rfl, rfl⟩ := hop
  have hrest : Function.update todo p [] c.root = [] := by
    rw [Function.update_of_ne hp.symm]
    exact hroot
  have hothers : ∀ q, q ≠ c.root →
      Function.update todo p [] q = [.unlink] ∨ Function.update todo p [] q = [] := by
    intro q hq
    rcases Decidable.em (q = p) with rfl | hne
    · exact .inr (Function.update_self ..)
    · rw [Function.update_of_ne hne]
      exact hall q hq
  rcases hrace with ⟨⟨hnamed, passes, hpasses, hn⟩, -⟩ | ⟨hgone, hn, -⟩
  · refine ⟨⟨false, [p] :: passes⟩, ?_, hrest, .inr ⟨rfl, hn.add hp, hothers⟩⟩
    rw [exec, if_pos hnamed, hpasses]
    rfl
  · have hkeep : exec p .unlink t = .next t := by rw [exec, hgone, if_neg Bool.false_ne_true]
    exact ⟨t, hkeep, hrest, .inr ⟨hgone, hn, hothers⟩⟩

theorem unlink_triple (c : Config) (n : Nat) :
    (program c).Triple (Named c n) (fun p => if p = c.root then [] else [.unlink])
      (fun t => t.named = false ∧ Once c (n + 1) t.unlinkedBy) := by
  refine ⟨Racing c n, ?_, ?_, ?_, ?_⟩
  · exact fun t ht => ⟨if_pos rfl, .inl ⟨ht, fun q hq => if_neg hq⟩⟩
  · exact fun todo t p op ops h htodo => .inl (h.step htodo)
  · rintro todo t h ⟨p, hp⟩
    obtain ⟨op, ops, htodo⟩ := List.exists_cons_of_ne_nil hp
    obtain ⟨t', hexec, -⟩ := h.step htodo
    exact ⟨p, op, ops, t', htodo, hexec⟩
  · rintro t ⟨-, ⟨-, hall⟩ | ⟨hgone, hn, -⟩⟩
    · -- with two ranks at least, the phase is not over before one of them has unlinked
      have hother : (⟨1, Nat.lt_of_lt_of_le Nat.one_lt_two c.two_le_numProcs⟩ : Fin c.numProcs) ≠
          c.root := fun h => absurd (congrArg Fin.val h) Nat.one_ne_zero
      cases hall _ hother
    · exact ⟨hgone, hn⟩

theorem alone_reopen (hgone : 0 < k → t.named = false) (ops : List Op) :
    (program c).alone c.root ((if 0 < k then [.reopen] else []) ++ ops) t =
      (program c).alone c.root ops t := by
  split
  · next hpos =>
    refine Phased.alone_cons ?_
    change exec c.root .reopen t = .next t
    rw [exec, hgone hpos, if_neg Bool.false_ne_true]
  · rfl

theorem triple (c : Config) (hk : k ≤ 2 * c.maxPasses) :
    (program c).Triple (Holds c k) ((program c).script k) (Holds c (k + 1)) := by
  rcases Nat.mod_two_eq_zero_or_one k with heven | hodd
  · have hscript : (program c).script k = fun p => if p = c.root then
        (if 0 < k then [.reopen] else []) ++ (if k < 2 * c.maxPasses then [.create] else [])
        else [] := by
      funext p
      simp only [program, script, heven, Nat.zero_ne_one, if_true, if_false]
    rw [hscript]
    refine .solo fun t ht => ?_
    rw [Holds, if_neg (by omega), show min c.maxPasses (k / 2) = k / 2 by omega] at ht
    rw [alone_reopen fun hpos => ht.2 (by omega) hpos]
    split
    · refine ⟨⟨true, [] :: t.unlinkedBy⟩, rfl, ?_⟩
      rw [Holds, if_pos (by omega), show (k + 1) / 2 = k / 2 by omega]
      exact ⟨rfl, t.unlinkedBy, rfl, ht.1⟩
    · refine ⟨t, rfl, ?_⟩
      rw [Holds, if_neg (by omega), show min c.maxPasses ((k + 1) / 2) = k / 2 by omega]
      exact ⟨ht.1, fun hpos _ => ht.2 hpos (by omega)⟩
  · have hscript : (program c).script k = fun p => if p = c.root then [] else [.unlink] := by
      funext p
      simp only [program, script, hodd, Nat.one_ne_zero, if_false, if_true]
    rw [hscript]
    refine (unlink_triple c (k / 2)).mono (fun t ht => ?_) fun t ht => ?_
    · rwa [Holds, if_pos (by omega)] at ht
    · rw [Holds, if_neg (by omega), show min c.maxPasses ((k + 1) / 2) = k / 2 + 1 by omega]
      exact ⟨ht.2, fun _ _ => ht.1⟩

theorem holds_start : ∀ t : Store c, t.unlinkedBy = [] → Holds c 0 t := by
  intro t ht
  rw [Holds, if_neg (by omega), ht]
  exact ⟨⟨by simp, fun _ h => absurd h List.not_mem_nil⟩, fun _ h => absurd h (Nat.lt_irrefl 0)⟩

/-- However the ranks race, no run aborts or hangs, and when it has ended just one rank
has unlinked the name in each pass, never rank 0, and the name is gone. -/
theorem openDelete_correct (c : Config) {s : Phased.State (Fin c.numProcs) Op (Store c)}
    (h : (openDelete c).Reachable s) :
    s.failed = false ∧ ¬ (openDelete c).Deadlocked (program c).Finished s ∧
      ((program c).Finished s →
        Once c c.maxPasses s.store.unlinkedBy ∧ (0 < c.maxPasses → s.store.named = false)) := by
  have hne : Nonempty (Fin c.numProcs) := ⟨c.root⟩
  have htriples : ∀ k ≤ (program c).last,
      (program c).Triple (Holds c k) ((program c).script k) (Holds c (k + 1)) :=
    fun k hk => triple c hk
  obtain ⟨hrunning, hlive⟩ := Phased.correct holds_start htriples h
  refine ⟨hrunning, hlive, fun hfinished => ?_⟩
  have hend := Phased.finished_store holds_start htriples h hfinished
  rw [show (program c).last = 2 * c.maxPasses from rfl, Holds, if_neg (by omega),
    show min c.maxPasses ((2 * c.maxPasses + 1) / 2) = c.maxPasses by omega] at hend
  exact ⟨hend.1, fun hpos => hend.2 hpos (Nat.succ_pos _)⟩

/-- Two ranks and one pass, where the name is left from before. -/
def pair : Config := ⟨2, 1, le_rfl, Nat.le_of_lt (Nat.lt_of_sub_eq_succ rfl)⟩

/-- Rank 1 is the one that unlinks. -/
theorem openDelete_correct_pair : ∃ s, (program pair).Finished s ∧
    Once pair pair.maxPasses s.store.unlinkedBy ∧ (0 < pair.maxPasses → s.store.named = false) := by
  have hcreate : (program pair).alone pair.root ((program pair).script 0 pair.root)
      ⟨true, []⟩ = some ⟨true, [[]]⟩ := rfl
  have hunlink : (program pair).alone (Fin.last 1) ((program pair).script 1 (Fin.last 1))
      ⟨true, [[]]⟩ = some ⟨false, [[Fin.last 1]]⟩ := rfl
  have hreopen : (program pair).alone pair.root [.reopen] ⟨false, [[Fin.last 1]]⟩ =
      some ⟨false, [[Fin.last 1]]⟩ := rfl
  have hstart : (openDelete pair).Reachable ((program pair).atPhase 0 ⟨true, []⟩) :=
    .init ⟨⟨true, []⟩, rfl, rfl⟩
  have hcreated := hstart.steps (Phased.steps_phase (by decide) (fun q hq => if_neg hq) hcreate)
  have hunlinked := hcreated.steps (Phased.steps_phase (by decide) (fun q hq => if_pos (by
    fin_cases q
    · rfl
    · exact absurd rfl hq)) hunlink)
  have hreopened := hunlinked.steps (Phased.steps_alone rfl rfl hreopen)
  refine ⟨_, ?finished, (openDelete_correct pair hreopened).2.2 ?finished⟩
  case finished =>
    intro q
    fin_cases q <;> exact ⟨rfl, rfl⟩

end Ocfs2Test.OpenDelete
