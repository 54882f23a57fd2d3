import Ocfs2Test.Lib.Phases
import Ocfs2Test.Quota.NegativeInodes

/-!
# concurrent_rw_test

All ranks but the first write to one file from offset 0 on, each its own length,
and send rank 0 what they have written. Rank 0 takes the messages in the order of
the ranks, and after each compares it with the space that the quota counts.
-/

namespace Ocfs2Test.Quota

open Lib Lib.Stdio

namespace ConcurrentRw

structure Config where
  size : Nat
  clustersize : Nat
  size_pos : 0 < size
  clustersize_pos : 0 < clustersize

def Config.root (c : Config) : Fin c.size := ⟨0, c.size_pos⟩

inductive Op (c : Config)
  | create
  /-- `open` and `pwrite` of so many clusters at offset 0 -/
  | pwrite (clusters : Nat)
  | send
  | recv (source : Fin c.size)
  | getquota
  | unlink

/-- The clusters of the file, if it is there, `writen_size` of every rank, and the
messages on their way to rank 0. -/
structure Store (c : Config) where
  file : Option Nat
  writenSize : Fin c.size → Nat
  sent : Fin c.size → List Nat

section
variable {c : Config}

def exec (p : Fin c.size) : Op c → Store c → Outcome (Store c)
  | .create, t => .next { t with file := some 0 }
  | .pwrite clusters, t =>
    match t.file with
    | none => .failed
    | some n => .next { t with
        file := some (max n clusters)
        writenSize := Function.update t.writenSize p (c.clustersize * clusters) }
  | .send, t => .next { t with sent := Function.update t.sent p (t.sent p ++ [t.writenSize p]) }
  | .recv j, t =>
    match t.sent j with
    | [] => .blocked
    | m :: rest => .next { t with
        writenSize := Function.update t.writenSize p m
        sent := Function.update t.sent j rest }
  | .getquota, t =>
    match t.file with
    | none => .failed
    | some n => if c.clustersize * n ≠ t.writenSize p then .failed else .next t
  | .unlink, t => if t.file = none then .failed else .next { t with file := none }

variable (c) in
/-- `draws` is what `rand` gives each rank. -/
def script (draws : Fin c.size → Rand) : Nat → Fin c.size → List (Op c)
  | 0, p => if p = c.root then [.create] else []
  | 1, p =>
    if p = c.root then
      (List.finRange c.size).tail.flatMap fun j => [.recv j, .getquota]
    else [.pwrite (getRand 0 p.val (draws p)), .send]
  | _, p => if p = c.root then [.unlink] else []

end

def program (c : Config) (draws : Fin c.size → Rand) : Phased (Fin c.size) (Op c) (Store c) where
  last := 2
  script := script c draws
  exec := exec

/-- No message is on its way before the test. -/
def concurrentRwTest (c : Config) (draws : Fin c.size → Rand) :
    System (Phased.State (Fin c.size) (Op c) (Store c)) :=
  (program c draws).system fun t => ∀ p, t.sent p = []

/-- Rank 0 has aborted over the space that the quota counts. -/
def FalseAlarm {c : Config} (s : Phased.State (Fin c.size) (Op c) (Store c)) : Prop :=
  s.failed = true ∧ ∃ ops, s.todo c.root = .getquota :: ops

-- ---------------------------------------------------------------------------
-- Two ranks
-- ---------------------------------------------------------------------------

section
variable {c : Config} {draws : Fin c.size → Rand} {todo : Fin c.size → List (Op c)} {t : Store c}
  {r : Fin c.size} {k : Nat}

/-- How far the only writer `r` and rank 0 have come, when `n` clusters are drawn. -/
inductive Stage (r : Fin c.size) (n : Nat) (todo : Fin c.size → List (Op c)) (t : Store c) : Prop
  | start (hr : todo r = [.pwrite n, .send]) (hroot : todo c.root = [.recv r, .getquota])
      (hfile : t.file = some 0) (hsent : t.sent r = [])
  | written (hr : todo r = [.send]) (hroot : todo c.root = [.recv r, .getquota])
      (hfile : t.file = some n) (hsent : t.sent r = []) (hsize : t.writenSize r = c.clustersize * n)
  | sent (hr : todo r = []) (hroot : todo c.root = [.recv r, .getquota])
      (hfile : t.file = some n) (hsent : t.sent r = [c.clustersize * n])
  | received (hr : todo r = []) (hroot : todo c.root = [.getquota])
      (hfile : t.file = some n) (hsize : t.writenSize c.root = c.clustersize * n)

def Holds (c : Config) : Nat → (Fin c.size → List (Op c)) → Store c → Prop
  | 0, todo, t => (∀ p, t.sent p = []) ∧ (∀ p, p ≠ c.root → todo p = []) ∧
      (todo c.root = [.create] ∨ todo c.root = [] ∧ t.file = some 0)
  | 1, todo, t => ((∀ p, todo p = []) ∧ ∃ n, t.file = some n) ∨
      ∃ r n, r ≠ c.root ∧ (∀ p, p = c.root ∨ p = r) ∧ Stage r n todo t
  | _, todo, t => (∀ p, p ≠ c.root → todo p = []) ∧
      (todo c.root = [.unlink] ∧ (∃ n, t.file = some n) ∨ todo c.root = [])

theorem Stage.step {n : Nat} {p : Fin c.size} {op : Op c} {ops : List (Op c)}
    (hne : r ≠ c.root) (hall : ∀ p, p = c.root ∨ p = r) (h : Stage r n todo t)
    (htodo : todo p = op :: ops) :
    (∃ t', exec p op t = .next t' ∧ Holds c 1 (Function.update todo p ops) t') ∨
      exec p op t = .blocked := by
  have hroot (ops : List (Op c)) : Function.update todo r ops c.root = todo c.root :=
    Function.update_of_ne hne.symm ..
  have hr (ops : List (Op c)) : Function.update todo c.root ops r = todo r :=
    Function.update_of_ne hne ..
  rcases hall p with rfl | rfl
  · cases h with
    | start _ hops _ hsent | written _ hops _ hsent _ =>
      cases hops.symm.trans htodo
      right
      simp only [exec, hsent]
    | sent hnil hops hfile hsent =>
      cases hops.symm.trans htodo
      left
      simp only [exec, hsent, Outcome.next.injEq, exists_eq_left']
      refine .inr ⟨r, n, hne, hall, .received ?_ (Function.update_self ..) hfile ?_⟩
      · rw [hr, hnil]
      · simp only [Function.update_self]
    | received hnil hops hfile hsize =>
      cases hops.symm.trans htodo
      left
      simp only [exec, hfile, hsize, ne_eq, not_true_eq_false, if_false, Outcome.next.injEq,
        exists_eq_left']
      refine .inl ⟨fun q => ?_, n, hfile⟩
      rcases hall q with rfl | rfl
      · exact Function.update_self ..
      · rw [hr, hnil]
  · cases h with
    | start hops hfst hfile hsent =>
      cases hops.symm.trans htodo
      left
      simp only [exec, hfile, Nat.zero_max, Outcome.next.injEq, exists_eq_left']
      refine .inr ⟨p, n, hne, hall, .written (Function.update_self ..) ?_ rfl hsent ?_⟩
      · rw [hroot, hfst]
      · simp only [Function.update_self]
    | written hops hfst hfile hsent hsize =>
      cases hops.symm.trans htodo
      left
      simp only [exec, hsent, hsize, Outcome.next.injEq, exists_eq_left', List.nil_append]
      refine .inr ⟨p, n, hne, hall, .sent (Function.update_self ..) ?_ hfile ?_⟩
      · rw [hroot, hfst]
      · simp only [Function.update_self]
    | sent hnil _ _ _ | received hnil _ _ _ => cases hnil.symm.trans htodo

theorem script_root (draws : Fin c.size → Rand) :
    script c draws 0 c.root = [.create] ∧ script c draws 2 c.root = [.unlink] := by
  simp [script]

theorem script_other (draws : Fin c.size → Rand) (p : Fin c.size) (hp : p ≠ c.root) :
    script c draws 0 p = [] ∧ script c draws 2 p = [] ∧
      script c draws 1 p = [.pwrite (getRand 0 p.val (draws p)), .send] := by
  simp [script, hp]

theorem script_reads_one (h : c.size = 1) (draws : Fin c.size → Rand) (p : Fin c.size) :
    script c draws 1 p = [] := by
  obtain ⟨size, clustersize, hpos, hcs⟩ := c
  cases h
  obtain rfl := Subsingleton.elim p (Config.root ⟨1, clustersize, hpos, hcs⟩)
  simp [script, List.finRange_succ]

theorem two_ranks (h : c.size = 2) (draws : Fin c.size → Rand) :
    ∃ r, r ≠ c.root ∧ (∀ p, p = c.root ∨ p = r) ∧
      script c draws 1 c.root = [.recv r, .getquota] := by
  obtain ⟨size, clustersize, hpos, hcs⟩ := c
  cases h
  refine ⟨(1 : Fin 2), (by decide : (1 : Fin 2) ≠ 0), fun p => ?_,
    by simp [script, List.finRange_succ, Config.root]⟩
  have hp : p.val < 2 := p.isLt
  have hcases : p.val = 0 ∨ p.val = 1 := by omega
  exact hcases.imp Fin.ext Fin.ext

theorem plan_two (h : c.size ≤ 2) (draws : Fin c.size → Rand) :
    (program c draws).Plan (fun t => ∀ p, t.sent p = []) (Holds c) where
  init t ht := ⟨ht, fun p hp => (script_other draws p hp).1, .inl (script_root draws).1⟩
  step k todo t p op ops hk hJ htodo := by
    have hstay (ops : List (Op c)) (hidle : ∀ p, p ≠ c.root → todo p = []) :
        ∀ p, p ≠ c.root → Function.update todo c.root ops p = [] := by
      intro q hq
      rw [Function.update_of_ne hq]
      exact hidle q hq
    match k, hJ with
    | 0, ⟨hsent, hidle, hroot⟩ =>
      obtain rfl : p = c.root := by_contra fun hp => by
        cases (hidle p hp).symm.trans htodo
      rcases hroot with hroot | ⟨hroot, -⟩
      · cases hroot.symm.trans htodo
        left
        exact ⟨_, rfl, hsent, hstay _ hidle, .inr ⟨Function.update_self .., rfl⟩⟩
      · cases hroot.symm.trans htodo
    | 1, .inl ⟨hnil, _⟩ => cases (hnil p).symm.trans htodo
    | 1, .inr ⟨r, n, hne, hall, hstage⟩ => exact hstage.step hne hall htodo
    | k + 2, ⟨hidle, hroot⟩ =>
      obtain rfl : p = c.root := by_contra fun hp => by
        cases (hidle p hp).symm.trans htodo
      rcases hroot with ⟨hroot, n, hfile⟩ | hroot
      · cases hroot.symm.trans htodo
        left
        refine ⟨{ t with file := none }, ?_, hstay _ hidle, .inr (Function.update_self ..)⟩
        simp [program, exec, hfile]
      · cases hroot.symm.trans htodo
  next k t hk hJ := by
    match k, hk, hJ with
    | 0, _, ⟨hsent, _, hroot⟩ =>
      have hfile : t.file = some 0 := (hroot.resolve_left nofun).2
      have hcases : c.size = 1 ∨ c.size = 2 := by
        have hpos := c.size_pos
        omega
      rcases hcases with hone | htwo
      · exact .inl ⟨script_reads_one hone draws, 0, hfile⟩
      · obtain ⟨r, hne, hall, hroot⟩ := two_ranks htwo draws
        exact .inr ⟨r, _, hne, hall, .start (script_other draws r hne).2.2 hroot hfile (hsent r)⟩
    | 1, _, hJ =>
      have hfile : ∃ n, t.file = some n := by
        rcases hJ with ⟨-, hfile⟩ | ⟨r, n, -, -, hstage⟩
        · exact hfile
        · cases hstage <;> contradiction
      exact ⟨fun p hp => (script_other draws p hp).2.1, .inl ⟨(script_root draws).2, hfile⟩⟩

end

-- ---------------------------------------------------------------------------
-- More ranks
-- ---------------------------------------------------------------------------

/-- Rank 1 draws 0 and the others 1. -/
def oneAfterZero (n : Nat) (p : Fin n) : Rand := if p.val = 1 then 0 else 1

section
variable {c : Config} {draws : Fin c.size → Rand} {s : Phased.State (Fin c.size) (Op c) (Store c)}

theorem script_reads (h : 1 < c.size) (draws : Fin c.size → Rand) :
    ∃ ops, script c draws 1 c.root = .recv ⟨1, h⟩ :: .getquota :: ops := by
  obtain ⟨size, clustersize, hpos, hcs⟩ := c
  obtain ⟨n, rfl⟩ : ∃ n, size = n + 2 := ⟨size - 2, by simp only at h; omega⟩
  simp [script, List.finRange_succ, Config.root]

/-- Rank 2 writes a cluster before rank 0 takes the message of rank 1, which has
written none. -/
theorem alarm_reachable (h : 2 < c.size) :
    ∃ s, (concurrentRwTest c (oneAfterZero c.size)).Reachable s ∧ FalseAlarm s := by
  generalize hdraws : oneAfterZero c.size = draws
  obtain ⟨ops, hreads⟩ := script_reads (by omega) draws
  have hone : script c draws 1 ⟨1, by omega⟩ = [.pwrite 0, .send] := by
    simp [script, Config.root, oneAfterZero, getRand, ← hdraws]
  have htwo : script c draws 1 ⟨2, h⟩ = [.pwrite 1, .send] := by
    simp [script, Config.root, oneAfterZero, getRand, ← hdraws]
  have hr₁ : (⟨1, by omega⟩ : Fin c.size) ≠ c.root := by simp [Config.root]
  have hr₂ : (⟨2, h⟩ : Fin c.size) ≠ c.root := by simp [Config.root]
  have hr₁₂ : (⟨2, h⟩ : Fin c.size) ≠ ⟨1, by omega⟩ := by simp
  generalize hi : (⟨1, by omega⟩ : Fin c.size) = i at *
  generalize hj : (⟨2, h⟩ : Fin c.size) = j at *
  have hstart : (concurrentRwTest c draws).Reachable
      ((program c draws).atPhase 1 ⟨some 0, fun _ => 0, fun _ => []⟩) := by
    have hinit : (concurrentRwTest c draws).Init
        ((program c draws).start ⟨none, fun _ => 0, fun _ => []⟩) := ⟨_, fun _ => rfl, rfl⟩
    refine (System.Reachable.init hinit).steps ?_
    apply Phased.steps_phase (p := c.root) (by decide : 0 < 2)
    · exact fun q hq => (script_other draws q hq).1
    · rw [show (program c draws).script 0 c.root = [.create] from (script_root draws).1]
      rfl
  -- rank 1 writes nothing and sends that
  have hone' : (program c draws).alone i [.pwrite 0, .send] ⟨some 0, fun _ => 0, fun _ => []⟩ =
      some ⟨some 0, Function.update (fun _ => 0) i 0, Function.update (fun _ => []) i [0]⟩ := by
    simp [Phased.alone, program, exec]
  obtain ⟨s₁, hs₁, hrun₁, htodo₁, hstore₁⟩ := Phased.reachable_alone hstart rfl
    (hone.trans (List.append_nil _).symm) hone'
  -- rank 2 writes a cluster
  have htwo' : (program c draws).alone j [.pwrite 1] s₁.store =
      some ⟨some 1, Function.update (Function.update (fun _ => 0) i 0) j c.clustersize,
        Function.update (fun _ => []) i [0]⟩ := by
    simp [Phased.alone, program, exec, hstore₁]
  have htodo : s₁.todo j = [Op.pwrite 1] ++ [Op.send] := by
    rw [htodo₁, Function.update_of_ne hr₁₂]
    exact htwo
  obtain ⟨s₂, hs₂, hrun₂, htodo₂, hstore₂⟩ := Phased.reachable_alone hs₁ hrun₁ htodo htwo'
  -- rank 0 receives the first message, and finds the second write
  have hroot : (program c draws).alone c.root [.recv i] s₂.store =
      some ⟨some 1, Function.update (Function.update (Function.update (fun _ => 0) i 0) j
        c.clustersize) c.root 0, Function.update (Function.update (fun _ => []) i [0]) i []⟩ := by
    simp [Phased.alone, program, exec, hstore₂]
  have htodo : s₂.todo c.root = [Op.recv i] ++ Op.getquota :: ops := by
    rw [htodo₂, Function.update_of_ne hr₂.symm, htodo₁, Function.update_of_ne hr₁.symm]
    exact hreads
  obtain ⟨s₃, hs₃, hrun₃, htodo₃, hstore₃⟩ := Phased.reachable_alone hs₂ hrun₂ htodo hroot
  have hquota : s₃.todo c.root = .getquota :: ops := by
    rw [htodo₃]
    exact Function.update_self ..
  refine ⟨_, hs₃.step (.fail hrun₃ hquota ?_), rfl, ops, hquota⟩
  have hpos := c.clustersize_pos
  simp [program, exec, hstore₃, Nat.ne_of_gt hpos]

end

/-- Rank 0 raises no false alarm as long as there is one writer at most. -/
theorem concurrentRw_alarm_iff (c : Config) :
    (∀ draws s, (concurrentRwTest c draws).Reachable s → ¬ FalseAlarm s) ↔ c.size ≤ 2 := by
  constructor
  · intro h
    by_contra hsize
    obtain ⟨s, hs, halarm⟩ := alarm_reachable (Nat.not_le.mp hsize)
    exact h _ s hs halarm
  · intro hsize draws s hs halarm
    obtain ⟨k, hf⟩ := (plan_two hsize draws).reachable hs
    cases hf.running.symm.trans halarm.1

theorem concurrentRw_three_ranks :
    ∃ s, (concurrentRwTest ⟨3, 4096, by decide, by decide⟩ (oneAfterZero 3)).Reachable s ∧
      FalseAlarm s :=
  alarm_reachable (by decide)

end ConcurrentRw

end Ocfs2Test.Quota
