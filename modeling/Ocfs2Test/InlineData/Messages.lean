import Ocfs2Test.InlineData.MultiTest

/-!
# Patterns on their way

The two kinds of phases with messages in them: rank 0 sends its pattern to the others,
and the others send theirs to rank 0. In both every message is taken before the barrier.
-/

namespace Ocfs2Test.InlineData

open Lib Lib.Stdio

section
variable {c : Config} {t : Store c} {p q : Fin c.size}

-- ---------------------------------------------------------------------------
-- The store
-- ---------------------------------------------------------------------------

@[simp] theorem setPattern_pattern (t : Store c) (p : Fin c.size) (x : Pattern) :
    (t.setPattern p x).pattern = Function.update t.pattern p x := rfl

@[simp] theorem setPattern_files (t : Store c) (p : Fin c.size) (x : Pattern) :
    (t.setPattern p x).files = t.files := rfl

@[simp] theorem setPattern_sent (t : Store c) (p : Fin c.size) (x : Pattern) :
    (t.setPattern p x).sent = t.sent := rfl

@[simp] theorem setFile_pattern (t : Store c) (file : FileName c.size) (f : Option ByteFile) :
    (t.setFile file f).pattern = t.pattern := rfl

@[simp] theorem setFile_files (t : Store c) (file : FileName c.size) (f : Option ByteFile) :
    (t.setFile file f).files = Function.update t.files file f := rfl

@[simp] theorem setFile_sent (t : Store c) (file : FileName c.size) (f : Option ByteFile) :
    (t.setFile file f).sent = t.sent := rfl

@[simp] theorem setSent_pattern (t : Store c) (p q : Fin c.size) (messages : List Pattern) :
    (t.setSent p q messages).pattern = t.pattern := rfl

@[simp] theorem setSent_files (t : Store c) (p q : Fin c.size) (messages : List Pattern) :
    (t.setSent p q messages).files = t.files := rfl

@[simp] theorem setSent_self (t : Store c) (p q : Fin c.size) (messages : List Pattern) :
    (t.setSent p q messages).sent p q = messages := by
  simp [Store.setSent]

theorem setSent_of_ne {p' q' : Fin c.size} (h : p' ≠ p ∨ q' ≠ q) (messages : List Pattern) :
    (t.setSent p q messages).sent p' q' = t.sent p' q' := by
  by_cases hp : p' = p
  · subst hp
    have hq : q' ≠ q := h.resolve_left fun hc => hc rfl
    simp [Store.setSent, hq]
  · simp [Store.setSent, hp]

theorem setPattern_eq_self {x : Pattern} (h : t.pattern p = x) : t.setPattern p x = t := by
  subst h
  simp [Store.setPattern]

theorem mem_others : q ∈ c.others ↔ q ≠ c.root := by
  obtain ⟨size, blocksize, maxInlineSize, buffered, htwo, hfour, hmax, hblock⟩ := c
  obtain ⟨n, rfl⟩ : ∃ n, size = n + 1 := ⟨size - 1, by omega⟩
  simp [Config.others, Config.root, List.finRange_succ, Fin.exists_succ_eq]

theorem nodup_others : c.others.Nodup := (List.nodup_finRange c.size).tail

theorem exists_other (c : Config) : ∃ q : Fin c.size, q ≠ c.root := by
  refine ⟨⟨1, c.two_le_size⟩, fun h => ?_⟩
  have hval := congrArg Fin.val h
  simp [Config.root] at hval

theorem others_ne_nil : c.others ≠ [] := by
  obtain ⟨q, hq⟩ := exists_other c
  exact List.ne_nil_of_mem (mem_others.mpr hq)

/-- The file has `n` bytes, and they are those of the pattern. -/
def Matches (x : Pattern) (n : Nat) (f : ByteFile) : Prop := f.size = n ∧ ∀ i < n, f.byte i = x i

def MatchesAt (t : Store c) (file : FileName c.size) (x : Pattern) (n : Nat) : Prop :=
  ∃ f, t.files file = some f ∧ Matches x n f

structure SyncedAt (x : Pattern) (n : Nat) (t : Store c) : Prop where
  quiet : Quiet t
  pattern : ∀ p, t.pattern p = x
  file : MatchesAt t .shared x n

/-- All ranks have one pattern, and the file is the first `n` bytes of it. -/
def Synced (n : Nat) (t : Store c) : Prop := ∃ x, SyncedAt x n t

-- ---------------------------------------------------------------------------
-- From rank 0
-- ---------------------------------------------------------------------------

structure Prepared (x : Pattern) (n : Nat) (t : Store c) : Prop where
  quiet : Quiet t
  pattern : t.pattern c.root = x
  file : MatchesAt t .shared x n

/-- How far `q` is with the message of rank 0, which has still to send to `dests`. -/
inductive Recipient (x : Pattern) (dests : List (Fin c.size)) (todo : Fin c.size → List (Op c))
    (t : Store c) (q : Fin c.size) : Prop
  | unsent (hmem : q ∈ dests) (htodo : todo q = [.recv c.root]) (hsent : t.sent c.root q = [])
  | sent (hmem : q ∉ dests) (htodo : todo q = [.recv c.root]) (hsent : t.sent c.root q = [x])
  | received (hmem : q ∉ dests) (htodo : todo q = []) (hsent : t.sent c.root q = [])
      (hpattern : t.pattern q = x)

structure Sending (x : Pattern) (n : Nat) (dests : List (Fin c.size))
    (todo : Fin c.size → List (Op c)) (t : Store c) : Prop where
  quiet : ∀ p q, p ≠ c.root ∨ q = c.root → t.sent p q = []
  pattern : t.pattern c.root = x
  file : MatchesAt t .shared x n
  nodup : dests.Nodup
  ne_root : ∀ q ∈ dests, q ≠ c.root
  root : todo c.root = sendPattern dests ∨
    ∃ q, q ≠ c.root ∧ q ∉ dests ∧ todo c.root = .wait q :: sendPattern dests
  others : ∀ q, q ≠ c.root → Recipient x dests todo t q

variable {x : Pattern} {n : Nat} {dests : List (Fin c.size)} {todo : Fin c.size → List (Op c)}
  {op : Op c} {ops : List (Op c)}

theorem Recipient.congr {todo' : Fin c.size → List (Op c)} {t' : Store c}
    (h : Recipient x dests todo t q) (htodo : todo' q = todo q)
    (hsent : t'.sent c.root q = t.sent c.root q) (hpattern : t'.pattern q = t.pattern q) :
    Recipient x dests todo' t' q := by
  cases h with
  | unsent hmem h hs => exact .unsent hmem (htodo.trans h) (hsent.trans hs)
  | sent hmem h hs => exact .sent hmem (htodo.trans h) (hsent.trans hs)
  | received hmem h hs hp => exact .received hmem (htodo.trans h) (hsent.trans hs) (hpattern.trans hp)

theorem Sending.send (h : Sending x n (q :: dests) todo t)
    (hroot : todo c.root = sendPattern (q :: dests)) :
    exec c.root (.send q) t = .next (t.setSent c.root q [x]) ∧
      Sending x n dests (Function.update todo c.root (.wait q :: sendPattern dests))
        (t.setSent c.root q [x]) := by
  have hq : q ≠ c.root := h.ne_root q List.mem_cons_self
  obtain ⟨hnotin, hnodup⟩ := List.nodup_cons.mp h.nodup
  have hrecv : todo q = [.recv c.root] ∧ t.sent c.root q = [] := by
    cases h.others q hq with
    | unsent _ htodo hsent => exact ⟨htodo, hsent⟩
    | sent hmem _ _ | received hmem _ _ _ => exact absurd List.mem_cons_self hmem
  refine ⟨?_, ?_, h.pattern, h.file, hnodup, fun r hr => h.ne_root r (List.mem_cons_of_mem q hr),
    .inr ⟨q, hq, hnotin, Function.update_self ..⟩, fun r hr => ?_⟩
  · simp only [exec, hrecv.2, h.pattern, List.nil_append]
  · intro p r hpr
    rw [setSent_of_ne (hpr.imp_right fun hr => by rw [hr]; exact hq.symm)]
    exact h.quiet p r hpr
  · by_cases hrq : r = q
    · subst hrq
      refine .sent hnotin ?_ (setSent_self ..)
      rw [Function.update_of_ne hr]
      exact hrecv.1
    · have hstay : Recipient x (q :: dests) (Function.update todo c.root
          (.wait q :: sendPattern dests)) (t.setSent c.root q [x]) r :=
        (h.others r hr).congr (Function.update_of_ne hr ..) (setSent_of_ne (.inr hrq) _) rfl
      cases hstay with
      | unsent hmem htodo hsent =>
        exact .unsent ((List.mem_cons.mp hmem).resolve_left hrq) htodo hsent
      | sent hmem htodo hsent => exact .sent (fun h => hmem (List.mem_cons_of_mem q h)) htodo hsent
      | received hmem htodo hsent hpattern =>
        exact .received (fun h => hmem (List.mem_cons_of_mem q h)) htodo hsent hpattern

theorem Sending.recv (h : Sending x n dests todo t) (hq : q ≠ c.root) (hmem : q ∉ dests)
    (hsent : t.sent c.root q = [x]) :
    exec q (.recv c.root) t = .next ((t.setPattern q x).setSent c.root q []) ∧
      Sending x n dests (Function.update todo q []) ((t.setPattern q x).setSent c.root q []) := by
  refine ⟨?_, ?_, ?_, h.file, h.nodup, h.ne_root, ?_, fun r hr => ?_⟩
  · simp only [exec, hsent]
  · intro p r hpr
    rw [setSent_of_ne (hpr.imp_right fun hr => by rw [hr]; exact hq.symm)]
    exact h.quiet p r hpr
  · rw [setSent_pattern, setPattern_pattern, Function.update_of_ne hq.symm]
    exact h.pattern
  · rw [Function.update_of_ne hq.symm]
    exact h.root
  · by_cases hrq : r = q
    · subst hrq
      refine .received hmem (Function.update_self ..) (setSent_self ..) ?_
      rw [setSent_pattern, setPattern_pattern, Function.update_self]
    · refine (h.others r hr).congr (Function.update_of_ne hrq ..) (setSent_of_ne (.inr hrq) _) ?_
      rw [setSent_pattern, setPattern_pattern, Function.update_of_ne hrq]

theorem sendPattern_cons (q : Fin c.size) (dests : List (Fin c.size)) :
    (sendPattern (q :: dests) : List (Op c)) = .send q :: .wait q :: sendPattern dests := rfl

theorem Sending.step (h : Sending x n dests todo t) (htodo : todo p = op :: ops) :
    (∃ t', exec p op t = .next t' ∧ ∃ dests, Sending x n dests (Function.update todo p ops) t') ∨
      exec p op t = .blocked := by
  by_cases hp : p = c.root
  · subst hp
    rcases h.root with hroot | ⟨q, hq, hnotin, hroot⟩
    · cases dests with
      | nil => cases hroot.symm.trans htodo
      | cons q dests =>
        rw [sendPattern_cons] at hroot
        cases hroot.symm.trans htodo
        obtain ⟨hexec, hnext⟩ := h.send hroot
        exact .inl ⟨_, hexec, dests, hnext⟩
    · cases hroot.symm.trans htodo
      by_cases hdone : c.buffered ∨ t.sent c.root q = []
      · refine .inl ⟨t, if_pos hdone, dests, h.quiet, h.pattern, h.file, h.nodup, h.ne_root,
          .inl (Function.update_self ..), fun r hr => ?_⟩
        exact (h.others r hr).congr (Function.update_of_ne hr ..) rfl rfl
      · exact .inr (if_neg hdone)
  · cases h.others p hp with
    | unsent hmem hrecv hsent =>
      cases hrecv.symm.trans htodo
      right
      simp only [exec, hsent]
    | sent hmem hrecv hsent =>
      cases hrecv.symm.trans htodo
      obtain ⟨hexec, hnext⟩ := h.recv hp hmem hsent
      exact .inl ⟨_, hexec, dests, hnext⟩
    | received hmem hnil hsent hpattern => cases hnil.symm.trans htodo

theorem Sending.live (h : Sending x n dests todo t) (hsome : ∃ p, todo p ≠ []) :
    ∃ p op ops t', todo p = op :: ops ∧ exec p op t = .next t' := by
  have hrecv (q : Fin c.size) (hq : q ≠ c.root) (hsent : t.sent c.root q ≠ []) :
      ∃ p op ops t', todo p = op :: ops ∧ exec p op t = .next t' := by
    cases h.others q hq with
    | unsent _ _ hnil | received _ _ hnil _ => exact absurd hnil hsent
    | sent hmem htodo hsent =>
      exact ⟨q, _, _, _, htodo, (h.recv hq hmem hsent).1⟩
  rcases h.root with hroot | ⟨q, hq, hnotin, hroot⟩
  · cases dests with
    | nil =>
      obtain ⟨p, hp⟩ := hsome
      have hne : p ≠ c.root := by
        rintro rfl
        exact hp hroot
      cases h.others p hne with
      | unsent hmem _ _ => cases hmem
      | sent _ _ hsent => exact hrecv p hne (by rw [hsent]; exact List.cons_ne_nil x [])
      | received _ hnil _ _ => exact absurd hnil hp
    | cons q dests => exact ⟨c.root, _, _, _, hroot, (h.send hroot).1⟩
  · by_cases hsent : t.sent c.root q = []
    · exact ⟨c.root, _, _, t, hroot, if_pos (.inr hsent)⟩
    · exact hrecv q hq hsent

variable {o : Choices c} {scripts : List (Fin c.size → List (Op c))}

theorem sending_triple (x : Pattern) (n : Nat) :
    (Phased.ofList scripts exec).Triple (Prepared x n) (fromRoot []) (SyncedAt (c := c) x n) := by
  refine ⟨fun todo t => ∃ dests, Sending x n dests todo t, ?_, ?_, ?_, ?_⟩
  · intro t ht
    refine ⟨c.others, fun p q _ => ht.quiet p q, ht.pattern, ht.file, nodup_others,
      fun q => mem_others.mp, .inl ?_, fun q hq => .unsent (mem_others.mpr hq) ?_ (ht.quiet _ _)⟩
    · simp [fromRoot, sendPatternToRanks]
    · simp [fromRoot, recvPatternFromRanks, hq]
  · rintro todo t p op ops ⟨dests, h⟩ htodo
    exact h.step htodo
  · rintro todo t ⟨dests, h⟩ hsome
    exact h.live hsome
  · rintro t ⟨dests, h⟩
    have hreceived (q : Fin c.size) (hq : q ≠ c.root) : t.sent c.root q = [] ∧ t.pattern q = x := by
      cases h.others q hq with
      | unsent _ htodo _ | sent _ htodo _ => cases htodo
      | received _ _ hsent hpattern => exact ⟨hsent, hpattern⟩
    refine ⟨fun p q => ?_, fun q => ?_, h.file⟩
    · by_cases hpq : p ≠ c.root ∨ q = c.root
      · exact h.quiet p q hpq
      · push Not at hpq
        rw [hpq.1]
        exact (hreceived q hpq.2).1
    · by_cases hq : q = c.root
      · rw [hq]
        exact h.pattern
      · exact (hreceived q hq).2

theorem fromRoot_triple {lead : List (Op c)}
    (hquiet : ∀ t t', ∀ op ∈ lead, exec c.root op t = .next t' → t'.sent = t.sent)
    (hrun : ∀ t, ∃ t', (Phased.ofList scripts exec).alone c.root lead t = some t' ∧
      t'.sent = t.sent ∧ MatchesAt t' .shared (t'.pattern c.root) n) :
    (Phased.ofList scripts exec).Triple Quiet (fromRoot lead) (Synced n) := by
  have hscript : fromRoot lead = Function.update (fromRoot []) c.root
      (lead ++ fromRoot [] c.root) := by
    funext p
    by_cases hp : p = c.root
    · subst hp
      simp [fromRoot]
    · simp [fromRoot, hp]
  rw [hscript]
  refine (Phased.Triple.exists fun x => sending_triple x n).lead (K := Quiet) (fun t ht => ht)
    (fun t t' op hop ht hexec => ?_) (fun t ht q hq op ops hscript => ?_) fun t ht => ?_
  · intro p q
    rw [hquiet t t' op hop hexec]
    exact ht p q
  · simp only [fromRoot, recvPatternFromRanks, hq, if_false, List.cons.injEq] at hscript
    obtain ⟨rfl, -⟩ := hscript
    show exec q (.recv c.root) t = .blocked
    simp only [exec, ht c.root q]
  · obtain ⟨t', halone, hsent, hfile⟩ := hrun t
    refine ⟨t', halone, t'.pattern c.root, fun p q => ?_, rfl, hfile⟩
    rw [hsent]
    exact ht p q

-- ---------------------------------------------------------------------------
-- To rank 0
-- ---------------------------------------------------------------------------

/-- What `op` does for `p`, whether or not another rank has done its part. -/
def Works (op : Op c) (p : Fin c.size) (x y : Pattern) (Old New : Option ByteFile → Prop) : Prop :=
  ∀ t : Store c, t.pattern p = x → Old (t.files .shared) ∨ New (t.files .shared) →
    ∃ f, New f ∧ exec p op t = .next ((t.setPattern p y).setFile .shared f)

/-- How far `q` is, whose pattern becomes `y`. Rank 0 has still to receive from `sources`. -/
inductive Sender (op : Op c) (x y : Pattern) (sources : List (Fin c.size))
    (todo : Fin c.size → List (Op c)) (t : Store c) (q : Fin c.size) : Prop
  | ready (hmem : q ∈ sources) (htodo : todo q = [op, .send c.root, .wait c.root])
      (hsent : t.sent q c.root = []) (hpattern : t.pattern q = x)
  | worked (hmem : q ∈ sources) (htodo : todo q = [.send c.root, .wait c.root])
      (hsent : t.sent q c.root = []) (hpattern : t.pattern q = y)
  | sent (hmem : q ∈ sources) (htodo : todo q = [.wait c.root] ∨ todo q = [])
      (hsent : t.sent q c.root = [y]) (hpattern : t.pattern q = y)
  | received (hmem : q ∉ sources) (htodo : todo q = [.wait c.root] ∨ todo q = [])
      (hsent : t.sent q c.root = []) (hpattern : t.pattern q = y)

variable {work : Fin c.size → Op c} {y : Fin c.size → Pattern} {Old New : Option ByteFile → Prop}
  {sources : List (Fin c.size)}

structure Gathering (work : Fin c.size → Op c) (x : Pattern) (y : Fin c.size → Pattern)
    (Old New : Option ByteFile → Prop) (sources : List (Fin c.size))
    (todo : Fin c.size → List (Op c)) (t : Store c) : Prop where
  quiet : ∀ p q, p = c.root ∨ q ≠ c.root → t.sent p q = []
  nodup : sources.Nodup
  root : todo c.root = sources.map .recv
  ne_root : ∀ q ∈ sources, q ≠ c.root
  pattern : sources = c.others ∨ ∃ q, q ≠ c.root ∧ t.pattern c.root = y q
  others : ∀ q, q ≠ c.root → Sender (work q) x (y q) sources todo t q
  file : (Old (t.files .shared) ∧
    ∀ q, q ≠ c.root → todo q = [work q, .send c.root, .wait c.root]) ∨ New (t.files .shared)

theorem Sender.congr {y : Pattern} {todo' : Fin c.size → List (Op c)} {t' : Store c}
    {sources' : List (Fin c.size)} (h : Sender op x y sources todo t q)
    (hmem : q ∈ sources' ↔ q ∈ sources) (htodo : todo' q = todo q)
    (hsent : t'.sent q c.root = t.sent q c.root) (hpattern : t'.pattern q = t.pattern q) :
    Sender op x y sources' todo' t' q := by
  cases h with
  | ready h₁ h₂ h₃ h₄ =>
    exact .ready (hmem.mpr h₁) (htodo.trans h₂) (hsent.trans h₃) (hpattern.trans h₄)
  | worked h₁ h₂ h₃ h₄ =>
    exact .worked (hmem.mpr h₁) (htodo.trans h₂) (hsent.trans h₃) (hpattern.trans h₄)
  | sent h₁ h₂ h₃ h₄ =>
    rw [← htodo] at h₂
    exact .sent (hmem.mpr h₁) h₂ (hsent.trans h₃) (hpattern.trans h₄)
  | received h₁ h₂ h₃ h₄ =>
    rw [← htodo] at h₂
    exact .received (fun h => h₁ (hmem.mp h)) h₂ (hsent.trans h₃) (hpattern.trans h₄)

/-- Where `q` has nothing to work on any more, somebody has changed the file. -/
theorem Gathering.new (h : Gathering work x y Old New sources todo t) (hq : q ≠ c.root)
    (htodo : todo q ≠ [work q, .send c.root, .wait c.root]) : New (t.files .shared) :=
  h.file.resolve_left fun hold => htodo (hold.2 q hq)

theorem Gathering.doWork (h : Gathering work x y Old New sources todo t) (hq : q ≠ c.root)
    (hwork : Works (work q) q x (y q) Old New) (hmem : q ∈ sources)
    (hsent : t.sent q c.root = []) (hpattern : t.pattern q = x) :
    ∃ t', exec q (work q) t = .next t' ∧ Gathering work x y Old New sources
      (Function.update todo q [.send c.root, .wait c.root]) t' := by
  obtain ⟨f, hnew, hexec⟩ := hwork t hpattern (h.file.imp_left And.left)
  refine ⟨_, hexec, h.quiet, h.nodup, ?_, h.ne_root, ?_, fun r hr => ?_, .inr ?_⟩
  · rw [Function.update_of_ne hq.symm]
    exact h.root
  · rw [setFile_pattern, setPattern_pattern, Function.update_of_ne hq.symm]
    exact h.pattern
  · by_cases hrq : r = q
    · subst hrq
      refine .worked hmem (Function.update_self ..) hsent ?_
      rw [setFile_pattern, setPattern_pattern, Function.update_self]
    · refine (h.others r hr).congr Iff.rfl (Function.update_of_ne hrq ..) rfl ?_
      rw [setFile_pattern, setPattern_pattern, Function.update_of_ne hrq]
  · rw [setFile_files, Function.update_self]
    exact hnew

theorem Gathering.send (h : Gathering work x y Old New sources todo t) (hq : q ≠ c.root)
    (hmem : q ∈ sources) (htodo : todo q = [.send c.root, .wait c.root])
    (hsent : t.sent q c.root = []) (hpattern : t.pattern q = y q) :
    exec q (.send c.root) t = .next (t.setSent q c.root [y q]) ∧
      Gathering work x y Old New sources (Function.update todo q [.wait c.root])
        (t.setSent q c.root [y q]) := by
  refine ⟨?_, ?_, h.nodup, ?_, h.ne_root, h.pattern, fun r hr => ?_, .inr ?_⟩
  · simp only [exec, hsent, hpattern, List.nil_append]
  · intro p r hpr
    rw [setSent_of_ne (hpr.imp_left fun hp => by rw [hp]; exact hq.symm)]
    exact h.quiet p r hpr
  · rw [Function.update_of_ne hq.symm]
    exact h.root
  · by_cases hrq : r = q
    · subst hrq
      exact .sent hmem (.inl (Function.update_self ..)) (setSent_self ..) hpattern
    · exact (h.others r hr).congr Iff.rfl (Function.update_of_ne hrq ..)
        (setSent_of_ne (.inl hrq) _) rfl
  · refine h.new hq ?_
    rw [htodo]
    simp

theorem Gathering.wait (h : Gathering work x y Old New sources todo t) (hq : q ≠ c.root)
    (htodo : todo q = [.wait c.root]) :
    Gathering work x y Old New sources (Function.update todo q []) t := by
  refine ⟨h.quiet, h.nodup, ?_, h.ne_root, h.pattern, fun r hr => ?_, .inr ?_⟩
  · rw [Function.update_of_ne hq.symm]
    exact h.root
  · by_cases hrq : r = q
    · subst hrq
      cases h.others r hr with
      | ready _ hc _ _ | worked _ hc _ _ => simp [htodo] at hc
      | sent hmem _ hsent hpattern =>
        exact .sent hmem (.inr (Function.update_self ..)) hsent hpattern
      | received hmem _ hsent hpattern =>
        exact .received hmem (.inr (Function.update_self ..)) hsent hpattern
    · exact (h.others r hr).congr Iff.rfl (Function.update_of_ne hrq ..) rfl rfl
  · refine h.new hq ?_
    rw [htodo]
    simp

theorem Gathering.recv (h : Gathering work x y Old New (q :: sources) todo t)
    (hsent : t.sent q c.root ≠ []) :
    exec c.root (.recv q) t = .next ((t.setPattern c.root (y q)).setSent q c.root []) ∧
      Gathering work x y Old New sources (Function.update todo c.root (sources.map .recv))
        ((t.setPattern c.root (y q)).setSent q c.root []) := by
  have hq : q ≠ c.root := h.ne_root q List.mem_cons_self
  obtain ⟨hnotin, hnodup⟩ := List.nodup_cons.mp h.nodup
  have hmessage : (todo q = [.wait c.root] ∨ todo q = []) ∧ t.sent q c.root = [y q] ∧
      t.pattern q = y q := by
    cases h.others q hq with
    | ready _ _ hnil _ | worked _ _ hnil _ | received _ _ hnil _ => exact absurd hnil hsent
    | sent _ htodo hsent hpattern => exact ⟨htodo, hsent, hpattern⟩
  refine ⟨?_, ?_, hnodup, Function.update_self .., fun r hr => h.ne_root r (List.mem_cons_of_mem q hr),
    .inr ⟨q, hq, ?_⟩, fun r hr => ?_, ?_⟩
  · simp only [exec, hmessage.2.1]
  · intro p r hpr
    rw [setSent_of_ne (hpr.imp_left fun hp => by rw [hp]; exact hq.symm)]
    exact h.quiet p r hpr
  · rw [setSent_pattern, setPattern_pattern, Function.update_self]
  · by_cases hrq : r = q
    · subst hrq
      refine .received hnotin ?_ (setSent_self ..) ?_
      · rw [Function.update_of_ne hr]
        exact hmessage.1
      · rw [setSent_pattern, setPattern_pattern, Function.update_of_ne hr]
        exact hmessage.2.2
    · refine (h.others r hr).congr ?_ (Function.update_of_ne hr ..) (setSent_of_ne (.inl hrq) _) ?_
      · rw [List.mem_cons, or_iff_right hrq]
      · rw [setSent_pattern, setPattern_pattern, Function.update_of_ne hr]
  · refine .inr (h.new hq ?_)
    rcases hmessage.1 with htodo | htodo <;> rw [htodo] <;> simp

theorem Gathering.step (h : Gathering work x y Old New sources todo t)
    (hwork : ∀ q, q ≠ c.root → Works (work q) q x (y q) Old New) (htodo : todo p = op :: ops) :
    (∃ t', exec p op t = .next t' ∧
      ∃ sources, Gathering work x y Old New sources (Function.update todo p ops) t') ∨
        exec p op t = .blocked := by
  by_cases hp : p = c.root
  · subst hp
    cases sources with
    | nil => cases h.root.symm.trans htodo
    | cons q sources =>
      cases h.root.symm.trans htodo
      by_cases hsent : t.sent q c.root = []
      · right
        simp only [exec, hsent]
      · obtain ⟨hexec, hnext⟩ := h.recv hsent
        exact .inl ⟨_, hexec, sources, hnext⟩
  · have hwait (hops : todo p = [.wait c.root] ∨ todo p = []) :
        (∃ t', exec p op t = .next t' ∧
          ∃ sources, Gathering work x y Old New sources (Function.update todo p ops) t') ∨
            exec p op t = .blocked := by
      rcases hops with hops | hops
      · cases hops.symm.trans htodo
        by_cases hdone : c.buffered ∨ t.sent p c.root = []
        · exact .inl ⟨t, if_pos hdone, sources, h.wait hp hops⟩
        · exact .inr (if_neg hdone)
      · cases hops.symm.trans htodo
    cases h.others p hp with
    | ready hmem hops hsent hpattern =>
      cases hops.symm.trans htodo
      obtain ⟨t', hexec, hnext⟩ := h.doWork hp (hwork p hp) hmem hsent hpattern
      exact .inl ⟨t', hexec, sources, hnext⟩
    | worked hmem hops hsent hpattern =>
      cases hops.symm.trans htodo
      obtain ⟨hexec, hnext⟩ := h.send hp hmem hops hsent hpattern
      exact .inl ⟨_, hexec, sources, hnext⟩
    | sent _ hops _ _ | received _ hops _ _ => exact hwait hops

theorem Gathering.live (h : Gathering work x y Old New sources todo t)
    (hwork : ∀ q, q ≠ c.root → Works (work q) q x (y q) Old New) (hsome : ∃ p, todo p ≠ []) :
    ∃ p op ops t', todo p = op :: ops ∧ exec p op t = .next t' := by
  cases sources with
  | nil =>
    obtain ⟨p, hp⟩ := hsome
    have hne : p ≠ c.root := by
      rintro rfl
      exact hp h.root
    cases h.others p hne with
    | ready hmem _ _ _ | worked hmem _ _ _ | sent hmem _ _ _ => cases hmem
    | received _ htodo hsent _ =>
      exact ⟨p, _, _, t, htodo.resolve_right hp, if_pos (.inr hsent)⟩
  | cons q sources =>
    have hq : q ≠ c.root := h.ne_root q List.mem_cons_self
    have hroot (hsent : t.sent q c.root ≠ []) :
        ∃ p op ops t', todo p = op :: ops ∧ exec p op t = .next t' :=
      ⟨c.root, _, _, _, h.root, (h.recv hsent).1⟩
    cases h.others q hq with
    | ready hmem htodo hsent hpattern =>
      obtain ⟨t', hexec, -⟩ := h.doWork hq (hwork q hq) hmem hsent hpattern
      exact ⟨q, _, _, t', htodo, hexec⟩
    | worked hmem htodo hsent hpattern =>
      exact ⟨q, _, _, _, htodo, (h.send hq hmem htodo hsent hpattern).1⟩
    | sent _ _ hsent _ =>
      refine hroot ?_
      rw [hsent]
      exact List.cons_ne_nil (y q) []
    | received hmem _ _ _ => exact absurd List.mem_cons_self hmem

theorem toRoot_triple (hwork : ∀ q, q ≠ c.root → Works (work q) q x (y q) Old New) :
    (Phased.ofList scripts exec).Triple
      (fun t => Quiet t ∧ (∀ p, t.pattern p = x) ∧ Old (t.files .shared))
      (toRoot fun q => [work q])
      fun t => Quiet t ∧ New (t.files .shared) ∧ (∀ q, q ≠ c.root → t.pattern q = y q) ∧
        ∃ q, q ≠ c.root ∧ t.pattern c.root = y q := by
  refine ⟨fun todo t => ∃ sources, Gathering work x y Old New sources todo t, ?_, ?_, ?_, ?_⟩
  · rintro t ⟨hquiet, hpattern, hold⟩
    have hscript (q : Fin c.size) (hq : q ≠ c.root) :
        toRoot (fun q => [work q]) q = [work q, .send c.root, .wait c.root] := by
      simp [toRoot, sendPatternToRanks, sendPattern, hq]
    refine ⟨c.others, fun p q _ => hquiet p q, nodup_others, ?_, fun q => mem_others.mp, .inl rfl,
      fun q hq => .ready (mem_others.mpr hq) (hscript q hq) (hquiet q _) (hpattern q),
      .inl ⟨hold, hscript⟩⟩
    simp [toRoot, recvPatternFromRanks]
  · rintro todo t p op ops ⟨sources, h⟩ htodo
    exact h.step hwork htodo
  · rintro todo t ⟨sources, h⟩ hsome
    exact h.live hwork hsome
  · rintro t ⟨sources, h⟩
    have hnil : sources = [] := List.map_eq_nil_iff.mp h.root.symm
    subst hnil
    have hreceived (q : Fin c.size) (hq : q ≠ c.root) :
        t.sent q c.root = [] ∧ t.pattern q = y q := by
      cases h.others q hq with
      | ready hmem _ _ _ | worked hmem _ _ _ | sent hmem _ _ _ => cases hmem
      | received _ _ hsent hpattern => exact ⟨hsent, hpattern⟩
    refine ⟨fun p q => ?_, ?_, fun q hq => (hreceived q hq).2,
      h.pattern.resolve_left fun hc => others_ne_nil hc.symm⟩
    · by_cases hpq : p = c.root ∨ q ≠ c.root
      · exact h.quiet p q hpq
      · push Not at hpq
        rw [hpq.2]
        exact (hreceived p hpq.1).1
    · obtain ⟨q, hq⟩ := exists_other c
      refine h.new hq ?_
      simp

end

end Ocfs2Test.InlineData
