import Ocfs2Test.Xattr.MultiTest

/-!
# xattr-multi-test comes through

Where a rank is says how many barriers it has been through, how many names it
has, and, for rank 0, how many attributes it has added. The barriers keep the
ranks close enough together that every name is known, and every attribute there,
when it is used.
-/

namespace Ocfs2Test.Xattr.MultiTest

open Lib Stdio CString

-- ---------------------------------------------------------------------------
-- Where a rank is
-- ---------------------------------------------------------------------------

section
variable (c : Config)

def Config.removeStart : Nat := 3 * c.xattrNums + if c.doList then 1 else 0

def Config.lastStart : Nat := if c.keepEa then c.removeStart else c.removeStart + 1

/-- The barriers a rank has left. -/
def Rank.left (r : Rank) : Nat :=
  match r.pc with
  | .name | .send _ | .call .names | .wait .names => 3 * r.j
  | .add | .readAdded | .call .added | .wait .added => 3 * r.j + 1
  | .race | .call .raced | .wait .raced => 3 * r.j + 2
  | .list | .call .listed | .wait .listed => 3 * c.xattrNums
  | .remove | .call .removed | .wait .removed => c.removeStart
  | .verify => c.removeStart + 1
  | .call .last | .wait .last => c.lastStart
  | .done => c.lastStart + 1
  | .failed | .fault => 0

def Rank.entered (r : Rank) : Nat :=
  match r.pc with
  | .wait _ => r.left c + 1
  | _ => r.left c

/-- How much of its table a rank has filled. -/
def Rank.named (r : Rank) : Nat :=
  match r.pc with
  | .name => r.j
  | .send _ | .add | .readAdded | .race | .call .names | .wait .names | .call .added | .wait .added |
    .call .raced | .wait .raced => r.j + 1
  | _ => c.xattrNums

/-- How many names rank 0 has sent to `q`. -/
def Rank.sentTo (r : Rank) (q : Nat) : Nat :=
  match r.pc with
  | .send i => if q < i then r.j + 1 else r.j
  | _ => r.named c

/-- How many attributes rank 0 has added. -/
def Rank.added (r : Rank) : Nat :=
  match r.pc with
  | .name | .send _ | .call .names | .wait .names | .add => r.j
  | .readAdded | .race | .call .added | .wait .added | .call .raced | .wait .raced => r.j + 1
  | _ => c.xattrNums

/-- How far a rank is in the removal loop. -/
def Rank.cleared (r : Rank) : Nat :=
  match r.pc with
  | .remove => r.j
  | .call .removed | .wait .removed | .verify => c.xattrNums
  | .call .last | .wait .last | .done => if c.keepEa then 0 else c.xattrNums
  | _ => 0

def RankOk (p : Fin c.size) (r : Rank) : Prop :=
  match r.pc with
  | .send i => p = c.root ∧ 0 < i ∧ r.j < c.xattrNums
  | .add | .readAdded => p = c.root ∧ r.j < c.xattrNums
  | .name | .race | .call .names | .wait .names | .call .added | .wait .added | .call .raced |
    .wait .raced => r.j < c.xattrNums
  | .list | .call .listed | .wait .listed => c.doList = true
  | .remove => c.keepEa = false ∧ r.j ≤ c.xattrNums
  | .call .removed | .wait .removed => c.keepEa = false
  | .verify => c.keepEa = false ∧ p = c.root
  | .call .last | .wait .last | .done => True
  | .failed | .fault => False

end

section
variable {c : Config} {p : Fin c.size} {r r' : Rank}

theorem RankOk.added_le (h : RankOk c p r) : r.added c ≤ c.xattrNums := by
  obtain ⟨pc, j, nameList⟩ := r
  cases pc with
  | call b | wait b => cases b <;> simp only [RankOk, Rank.added] at * <;> omega
  | _ => simp only [RankOk, Rank.added] at * <;> omega

theorem RankOk.lt_added (h : RankOk c p r) (hk : k < c.xattrNums) (hin : 3 * k + 2 ≤ r.entered c) :
    k < r.added c := by
  obtain ⟨pc, j, nameList⟩ := r
  cases pc with
  | call b | wait b =>
    cases b <;> simp only [RankOk, Rank.added, Rank.entered, Rank.left] at * <;> omega
  | _ => simp only [RankOk, Rank.added, Rank.entered, Rank.left] at * <;> omega

theorem Rank.cleared_eq_zero (h : r.left c < c.removeStart) : r.cleared c = 0 := by
  obtain ⟨pc, j, nameList⟩ := r
  cases pc with
  | call b | wait b =>
    cases b <;> simp only [Rank.cleared, Rank.left, Config.lastStart] at * <;>
      (try split at h) <;> omega
  | _ => simp only [Rank.cleared, Rank.left, Config.lastStart] at * <;> (try split at h) <;> omega

theorem RankOk.cleared_eq (h : RankOk c p r) (hkeep : c.keepEa = false)
    (hin : c.removeStart < r.entered c) : r.cleared c = c.xattrNums := by
  have hstart : 3 * c.xattrNums ≤ c.removeStart := Nat.le_add_right _ _
  obtain ⟨pc, j, nameList⟩ := r
  cases pc with
  | call b | wait b =>
    cases b <;>
      simp only [RankOk, Rank.cleared, Rank.entered, Rank.left, Config.removeStart, hkeep] at * <;>
      simp_all <;> omega
  | _ =>
    simp only [RankOk, Rank.cleared, Rank.entered, Rank.left, Config.removeStart, hkeep] at * <;>
      simp_all <;> omega

end

-- ---------------------------------------------------------------------------
-- The invariant
-- ---------------------------------------------------------------------------

section
variable {c : Config}

def State.name (s : State c) (j : Nat) : Name := (s.ranks c.root).nameList j

def State.added (s : State c) : Nat := (s.ranks c.root).added c

def State.Removed (s : State c) (j : Nat) : Prop := j < (s.ranks (c.owner j)).cleared c

instance (s : State c) (j : Nat) : Decidable (s.Removed j) :=
  inferInstanceAs (Decidable (j < _))

structure Clock (s : State c) : Prop where
  rank : ∀ p, RankOk c p (s.ranks p)
  entered : ∀ p, s.barrier.entered p = (s.ranks p).entered c
  left : ∀ p, s.barrier.left p = (s.ranks p).left c
  synced : s.barrier.Synced

/-- A rank has the names rank 0 sent it, but for those still under way. -/
structure Names (s : State c) : Prop where
  isName : ∀ j < (s.ranks c.root).named c, IsName j c.xattrNameSz (s.name j)
  table : ∀ p ≠ c.root, (List.range ((s.ranks p).named c)).map (s.ranks p).nameList ++ s.chan p =
    (List.range ((s.ranks c.root).sentTo c p)).map s.name

/-- The file has what was added and not removed, each of it was removed by its
owner, and by nobody else. -/
structure Attrs (s : State c) : Prop where
  present : ∀ j < s.added, ¬ s.Removed j → ∃ v, s.xattrs.get (s.name j) = some v ∧
    Constructed (s.name j) v
  only : ∀ n ∈ s.xattrs, ∃ j < s.added, ¬ s.Removed j ∧ n = s.name j
  logged : ∀ x ∈ s.removals, ∃ j < s.added, x = (c.owner j, s.name j)
  once : ∀ j < s.added, s.removals.count (c.owner j, s.name j) = if s.Removed j then 1 else 0

structure Inv (s : State c) : Prop where
  clock : Clock s
  names : Names s
  attrs : Attrs s

end

/-- The options of the test, with an attribute at least, and with names and values that
can be stored. -/
structure Config.Admitted (c : Config) : Prop where
  nums_pos : 0 < c.xattrNums
  nums_le : c.xattrNums ≤ 10 ^ 6
  nameSz : 20 ≤ c.xattrNameSz
  nameSz_le : c.xattrNameSz ≤ Xattrs.NAME_MAX
  valueSz : c.xattrNameSz + 50 ≤ c.xattrValueSz
  valueSz_le : c.xattrValueSz ≤ Xattrs.SIZE_MAX

section
variable {c : Config} {s s' : State c} {p q : Fin c.size} {r : Rank} {j : Nat}

theorem Clock.left_le (h : Clock s) (p q : Fin c.size) : (s.ranks p).left c ≤ (s.ranks q).entered c := by
  rw [← h.left, ← h.entered]
  exact h.synced p q

theorem Clock.not_removed (h : Clock s) (hp : (s.ranks p).entered c < c.removeStart) (j : Nat) :
    ¬ s.Removed j := by
  have hzero := Rank.cleared_eq_zero (Nat.lt_of_le_of_lt (h.left_le (c.owner j) p) hp)
  rw [State.Removed, hzero]
  exact Nat.not_lt_zero j

theorem Clock.lt_added (h : Clock s) (hj : j < c.xattrNums) (hp : 3 * j + 2 ≤ (s.ranks p).left c) :
    j < s.added :=
  (h.rank c.root).lt_added hj (Nat.le_trans hp (h.left_le p c.root))

theorem Clock.added_eq (h : Clock s) (hp : 3 * c.xattrNums ≤ (s.ranks p).left c) :
    s.added = c.xattrNums := by
  refine Nat.le_antisymm (h.rank c.root).added_le ?_
  by_contra hlt
  exact Nat.lt_irrefl _ (h.lt_added (p := p) (Nat.lt_of_not_le hlt) (by omega))

theorem Names.name_eq (h : Names s) (p : Fin c.size) (hj : j < (s.ranks p).named c) :
    (s.ranks p).nameList j = s.name j := by
  by_cases hp : p = c.root
  · rw [hp, State.name]
  · have hget := congrArg (fun l => l[j]?) (h.table p hp)
    have hlen : j < ((List.range ((s.ranks p).named c)).map (s.ranks p).nameList).length := by
      simpa using hj
    simp only [List.getElem?_append_left hlen, List.getElem?_map, List.getElem?_range hj,
      Option.map_some] at hget
    rw [eq_comm, Option.map_eq_some_iff] at hget
    obtain ⟨i, hi, heq⟩ := hget
    rw [List.getElem?_eq_some_iff] at hi
    obtain ⟨_, rfl⟩ := hi
    simpa using heq.symm

theorem RankOk.added_le_named (r : Rank) : r.added c ≤ r.named c := by
  obtain ⟨pc, j, nameList⟩ := r
  cases pc with
  | call b | wait b => cases b <;> simp only [Rank.added, Rank.named] <;> omega
  | _ =>
    simp only [Rank.added, Rank.named]
    omega

theorem Inv.name_inj (h : Inv s) (hc : c.xattrNums ≤ 10 ^ 6) (hi : i < (s.ranks c.root).named c)
    (hj : j < (s.ranks c.root).named c) (hi' : i < c.xattrNums) (hj' : j < c.xattrNums)
    (heq : s.name i = s.name j) : i = j := by
  have hname := h.names.isName i hi
  rw [heq] at hname
  exact hname.number_eq (h.names.isName j hj) (by omega) (by omega)

end

-- ---------------------------------------------------------------------------
-- Moving on
-- ---------------------------------------------------------------------------

section
variable {c : Config} {s s' : State c} {p q : Fin c.size} {r r' : Rank} {j : Nat}

/-- The rank has moved on, and nothing it has done is more than before. -/
structure Same (c : Config) (p : Fin c.size) (r r' : Rank) : Prop where
  nameList : r'.nameList = r.nameList
  named : r'.named c = r.named c
  sentTo : p = c.root → ∀ q, r'.sentTo c q = r.sentTo c q
  added : p = c.root → r'.added c = r.added c
  cleared : ∀ j, j % c.size = p.val → (j < r'.cleared c ↔ j < r.cleared c)

theorem Same.refl (c : Config) (p : Fin c.size) (r : Rank) : Same c p r r :=
  ⟨rfl, rfl, fun _ _ => rfl, fun _ => rfl, fun _ _ => Iff.rfl⟩

theorem Same.update (h : Same c p (s.ranks p) r') (q : Fin c.size) :
    Same c q (s.ranks q) (Function.update s.ranks p r' q) := by
  by_cases hq : q = p
  · subst hq
    rwa [Function.update_self]
  · rw [Function.update_of_ne hq]
    exact .refl c q _

section
variable (hsame : ∀ q, Same c q (s.ranks q) (s'.ranks q))
include hsame

theorem name_of_same : s'.name = s.name := (hsame c.root).nameList

theorem added_of_same : s'.added = s.added := (hsame c.root).added rfl

theorem removed_of_same (j : Nat) : s'.Removed j ↔ s.Removed j := (hsame (c.owner j)).cleared j rfl

theorem Names.of_same (h : Names s) (hchan : s'.chan = s.chan) : Names s' where
  isName := by
    rw [(hsame c.root).named, name_of_same hsame]
    exact h.isName
  table p hp := by
    rw [(hsame p).named, (hsame p).nameList, (hsame c.root).sentTo rfl, name_of_same hsame, hchan]
    exact h.table p hp

theorem Attrs.of_same (h : Attrs s) (hx : s'.xattrs = s.xattrs) (hr : s'.removals = s.removals) :
    Attrs s' := by
  obtain ⟨hpresent, honly, hlogged, honce⟩ := h
  constructor
  · simpa only [name_of_same hsame, added_of_same hsame, removed_of_same hsame, hx] using hpresent
  · simpa only [name_of_same hsame, added_of_same hsame, removed_of_same hsame, hx] using honly
  · simpa only [name_of_same hsame, added_of_same hsame, hr] using hlogged
  · simpa only [name_of_same hsame, added_of_same hsame, removed_of_same hsame, hr] using honce

end

/-- A step of `p` keeps the clock if it keeps that of `p`. -/
theorem Clock.update (h : Clock s) (hranks : s'.ranks = Function.update s.ranks p r')
    (hok : RankOk c p r') (hin : s'.barrier.entered p = r'.entered c)
    (hout : s'.barrier.left p = r'.left c) (hsync : s'.barrier.Synced)
    (hother : ∀ q ≠ p, s'.barrier.entered q = s.barrier.entered q ∧ s'.barrier.left q = s.barrier.left q) :
    Clock s' := by
  have hself : s'.ranks p = r' := by rw [hranks, Function.update_self]
  have hrest (q : Fin c.size) (hq : q ≠ p) : s'.ranks q = s.ranks q := by
    rw [hranks, Function.update_of_ne hq]
  refine ⟨fun q => ?_, fun q => ?_, fun q => ?_, hsync⟩
  · by_cases hq : q = p
    · subst hq
      rwa [hself]
    · rw [hrest q hq]
      exact h.rank q
  · by_cases hq : q = p
    · subst hq
      rwa [hself]
    · rw [hrest q hq, (hother q hq).1, h.entered]
  · by_cases hq : q = p
    · subst hq
      rwa [hself]
    · rw [hrest q hq, (hother q hq).2, h.left]

theorem Clock.move (h : Clock s) (hranks : s'.ranks = Function.update s.ranks p r')
    (hb : s'.barrier = s.barrier) (hok : RankOk c p r') (hin : r'.entered c = (s.ranks p).entered c)
    (hout : r'.left c = (s.ranks p).left c) : Clock s' := by
  refine h.update hranks hok ?_ ?_ ?_ ?_
  · rw [hb, hin, h.entered]
  · rw [hb, hout, h.left]
  · rw [hb]
    exact h.synced
  · intro q _
    rw [hb]
    exact ⟨rfl, rfl⟩

theorem Clock.enter (h : Clock s) (hranks : s'.ranks = Function.update s.ranks p r')
    (hb : s'.barrier = s.barrier.enter p) (hok : RankOk c p r')
    (hin : r'.entered c = (s.ranks p).entered c + 1) (hout : r'.left c = (s.ranks p).left c) :
    Clock s' := by
  refine h.update hranks hok ?_ ?_ ?_ ?_
  · rw [hb, hin, ← h.entered]
    exact Function.update_self ..
  · rw [hb, hout]
    exact h.left p
  · rw [hb]
    exact h.synced.enter
  · intro q hq
    rw [hb]
    exact ⟨Function.update_of_ne hq .., rfl⟩

theorem Clock.leave (h : Clock s) (hranks : s'.ranks = Function.update s.ranks p r')
    (hb : s'.barrier = s.barrier.leave p) (hopen : s.barrier.Open p) (hok : RankOk c p r')
    (hwait : (s.ranks p).left c < (s.ranks p).entered c) (hin : r'.entered c = (s.ranks p).entered c)
    (hout : r'.left c = (s.ranks p).left c + 1) : Clock s' := by
  refine h.update hranks hok ?_ ?_ ?_ ?_
  · rw [hb, hin]
    exact h.entered p
  · rw [hb, hout, ← h.left]
    exact Function.update_self ..
  · rw [hb]
    refine h.synced.leave ?_ hopen
    rwa [h.left, h.entered]
  · intro q hq
    rw [hb]
    exact ⟨rfl, Function.update_of_ne hq ..⟩

theorem Inv.goto (h : Inv s) (hok : RankOk c p { s.ranks p with pc := pc })
    (hin : Rank.entered c { s.ranks p with pc := pc } = (s.ranks p).entered c)
    (hout : Rank.left c { s.ranks p with pc := pc } = (s.ranks p).left c)
    (hsame : Same c p (s.ranks p) { s.ranks p with pc := pc }) : Inv (s.goto p pc) :=
  ⟨h.clock.move rfl rfl hok hin hout, h.names.of_same hsame.update rfl,
    h.attrs.of_same hsame.update rfl rfl⟩

theorem Inv.call (h : Inv s) (hpc : (s.ranks p).pc = .call b) :
    Inv { s.goto p (.wait b) with barrier := s.barrier.enter p } := by
  have hok := h.clock.rank p
  have hsame : Same c p (s.ranks p) { s.ranks p with pc := .wait b } := by
    constructor <;> cases b <;> simp [Rank.named, Rank.sentTo, Rank.added, Rank.cleared, hpc]
  refine ⟨h.clock.enter rfl rfl ?_ ?_ ?_, h.names.of_same hsame.update rfl,
    h.attrs.of_same hsame.update rfl rfl⟩
  · simp only [RankOk, hpc] at hok ⊢
    cases b <;> exact hok
  · cases b <;> simp [Rank.entered, Rank.left, hpc]
  · cases b <;> simp [Rank.left, hpc]

/-- What a rank finds behind a barrier. -/
structure Through (c : Config) (p : Fin c.size) (r r' : Rank) : Prop where
  ok : RankOk c p r'
  entered : r'.entered c = r.entered c
  left : r'.left c = r.left c + 1
  same : Same c p r r'

theorem afterSync_raced (hpc : r.pc = .wait .raced) (hj : r.j < c.xattrNums) :
    Through c p r (loopHead c { r with j := r.j + 1 }) := by
  obtain ⟨pc, j, nameList⟩ := r
  cases hpc
  simp only [loopHead, bail]
  split
  · next hlt =>
    refine ⟨hlt, ?_, ?_, ?_⟩
    · simp only [Rank.entered, Rank.left]
      omega
    · simp only [Rank.left]
      omega
    · constructor <;> simp [Rank.named, Rank.sentTo, Rank.added, Rank.cleared]
  · next hge =>
    have hnums : j + 1 = c.xattrNums := by
      simp only at hge hj
      omega
    split
    · next hlist =>
      refine ⟨hlist, ?_, ?_, ?_⟩
      · simp only [Rank.entered, Rank.left]
        omega
      · simp only [Rank.left]
        omega
      · constructor <;> simp [Rank.named, Rank.sentTo, Rank.added, Rank.cleared, hnums]
    · next hlist =>
      have hstart : c.removeStart = 3 * j + 3 := by
        rw [Config.removeStart, if_neg hlist]
        omega
      split
      · next hkeep =>
        refine ⟨trivial, ?_, ?_, ?_⟩
        · simp [Rank.entered, Rank.left, Config.lastStart, hkeep, hstart]
        · simp [Rank.left, Config.lastStart, hkeep, hstart]
        · constructor <;> simp [Rank.named, Rank.sentTo, Rank.added, Rank.cleared, hnums, hkeep]
      · next hkeep =>
        refine ⟨⟨by simpa using hkeep, Nat.zero_le _⟩, ?_, ?_, ?_⟩
        · simp [Rank.entered, Rank.left, hstart]
        · simp [Rank.left, hstart]
        · constructor <;> simp [Rank.named, Rank.sentTo, Rank.added, Rank.cleared, hnums]

theorem afterSync_listed (hpc : r.pc = .wait .listed) (hlist : c.doList = true) :
    Through c p r (bail c r) := by
  obtain ⟨pc, j, nameList⟩ := r
  cases hpc
  have hstart : c.removeStart = 3 * c.xattrNums + 1 := by simp [Config.removeStart, hlist]
  simp only [bail]
  split
  · next hkeep =>
    refine ⟨trivial, ?_, ?_, ?_⟩
    · simp [Rank.entered, Rank.left, Config.lastStart, hkeep, hstart]
    · simp [Rank.left, Config.lastStart, hkeep, hstart]
    · constructor <;> simp [Rank.named, Rank.sentTo, Rank.added, Rank.cleared, hkeep]
  · next hkeep =>
    refine ⟨⟨by simpa using hkeep, Nat.zero_le _⟩, ?_, ?_, ?_⟩
    · simp [Rank.entered, Rank.left, hstart]
    · simp [Rank.left, hstart]
    · constructor <;> simp [Rank.named, Rank.sentTo, Rank.added, Rank.cleared]

theorem afterSync_through (hok : RankOk c p r) (hpc : r.pc = .wait b) :
    Through c p r (afterSync c p r b) := by
  cases b with
  | raced => exact afterSync_raced hpc (by simpa [RankOk, hpc] using hok)
  | listed => exact afterSync_listed hpc (by simpa [RankOk, hpc] using hok)
  | names =>
    obtain ⟨pc, j, nameList⟩ := r
    cases hpc
    by_cases hp : p = c.root
    · simp only [afterSync, if_pos hp]
      refine ⟨⟨hp, hok⟩, rfl, rfl, ?_⟩
      constructor <;> simp [Rank.named, Rank.sentTo, Rank.added, Rank.cleared]
    · simp only [afterSync, if_neg hp]
      refine ⟨hok, rfl, rfl, ?_⟩
      constructor <;> simp [Rank.named, Rank.cleared, hp]
  | added =>
    obtain ⟨pc, j, nameList⟩ := r
    cases hpc
    refine ⟨hok, rfl, rfl, ?_⟩
    constructor <;> simp [afterSync, Rank.named, Rank.sentTo, Rank.added, Rank.cleared]
  | removed =>
    obtain ⟨pc, j, nameList⟩ := r
    cases hpc
    have hkeep : c.keepEa = false := hok
    by_cases hp : p = c.root
    · simp only [afterSync, if_pos hp]
      refine ⟨⟨hkeep, hp⟩, rfl, rfl, ?_⟩
      constructor <;> simp [Rank.named, Rank.sentTo, Rank.added, Rank.cleared]
    · simp only [afterSync, if_neg hp]
      refine ⟨trivial, ?_, ?_, ?_⟩
      · simp [Rank.entered, Rank.left, Config.lastStart, hkeep]
      · simp [Rank.left, Config.lastStart, hkeep]
      · constructor <;> simp [Rank.named, Rank.sentTo, Rank.added, Rank.cleared, hkeep]
  | last =>
    obtain ⟨pc, j, nameList⟩ := r
    cases hpc
    refine ⟨trivial, rfl, rfl, ?_⟩
    constructor <;> simp [afterSync, Rank.named, Rank.sentTo, Rank.added, Rank.cleared]

theorem Inv.wait (h : Inv s) (hpc : (s.ranks p).pc = .wait b) (hopen : s.barrier.Open p) :
    Inv { s.setRank p (afterSync c p (s.ranks p) b) with barrier := s.barrier.leave p } := by
  obtain ⟨hok, hin, hout, hsame⟩ := afterSync_through (h.clock.rank p) hpc
  have hwait : (s.ranks p).left c < (s.ranks p).entered c := by simp [Rank.entered, hpc]
  exact ⟨h.clock.leave rfl rfl hopen hok hwait hin hout, h.names.of_same hsame.update rfl,
    h.attrs.of_same hsame.update rfl rfl⟩

end

-- ---------------------------------------------------------------------------
-- Names
-- ---------------------------------------------------------------------------

section
variable {c : Config} {s s' : State c} {p q : Fin c.size} {j : Nat}

theorem map_update_of_le {f : Nat → Name} (h : n ≤ j) :
    (List.range n).map (Function.update f j a) = (List.range n).map f := by
  refine List.map_congr_left fun i hi => Function.update_of_ne ?_ ..
  have := List.mem_range.mp hi
  omega

theorem map_update_self {f : Nat → Name} :
    (List.range (j + 1)).map (Function.update f j a) = (List.range j).map f ++ [a] := by
  rw [List.range_succ, List.map_append, map_update_of_le (Nat.le_refl j)]
  simp

theorem Attrs.of_names (h : Attrs s) (hx : s'.xattrs = s.xattrs) (hr : s'.removals = s.removals)
    (hadded : s'.added = s.added) (hremoved : ∀ j, s'.Removed j ↔ s.Removed j)
    (hname : ∀ j < s.added, s'.name j = s.name j) : Attrs s' := by
  obtain ⟨hpresent, honly, hlogged, honce⟩ := h
  constructor
  · intro j hj
    rw [hadded] at hj
    rw [hremoved, hname j hj, hx]
    exact hpresent j hj
  · intro n hn
    rw [hx] at hn
    obtain ⟨j, hj, hnot, rfl⟩ := honly n hn
    exact ⟨j, hadded ▸ hj, (hremoved j).not.mpr hnot, (hname j hj).symm⟩
  · intro x hx'
    rw [hr] at hx'
    obtain ⟨j, hj, rfl⟩ := hlogged x hx'
    exact ⟨j, hadded ▸ hj, by rw [hname j hj]⟩
  · intro j hj
    rw [hadded] at hj
    simp only [hremoved, hname j hj, hr]
    exact honce j hj

theorem generate_eq (hc : c.Admitted) (hj : (s.ranks p).j < c.xattrNums) (k : Choice) :
    ∃ name, IsName (s.ranks p).j c.xattrNameSz name ∧
      generate k s p = s.setRank p { s.ranks p with
        pc := .send 1
        nameList := Function.update (s.ranks p).nameList (s.ranks p).j name } := by
  have := hc.nums_le
  refine ⟨_, ?_, rfl⟩
  apply xattrNameGenerator_isName
  · omega
  · split
    · decide
    · exact hc.nameSz
  · split
    · exact hc.nameSz
    · exact Nat.le_refl _

theorem Inv.generate (h : Inv s) (hc : c.Admitted) (hpc : (s.ranks c.root).pc = .name) (k : Choice) :
    Inv (generate k s c.root) := by
  have hok := h.clock.rank c.root
  simp only [RankOk, hpc] at hok
  obtain ⟨hclock, hnames, hattrs⟩ := h
  obtain ⟨name, hname, hs'⟩ := generate_eq hc hok k
  generalize MultiTest.generate k s c.root = s' at hs'
  have hself : s'.ranks c.root = { s.ranks c.root with
      pc := .send 1
      nameList := Function.update (s.ranks c.root).nameList (s.ranks c.root).j name } := by
    simp only [hs', State.setRank, Function.update_self]
  have hrest (q : Fin c.size) (hq : q ≠ c.root) : s'.ranks q = s.ranks q := by
    simp only [hs', State.setRank, Function.update_of_ne hq]
  have hold (i : Nat) (hi : i < (s.ranks c.root).j) : s'.name i = s.name i := by
    simp only [State.name, hself, Function.update_of_ne (Nat.ne_of_lt hi)]
  have hranks : s'.ranks = Function.update s.ranks c.root (s'.ranks c.root) := by
    rw [hself, hs']
    rfl
  have hadded : s.added = (s.ranks c.root).j := by simp [State.added, Rank.added, hpc]
  refine ⟨hclock.move hranks (by rw [hs']; rfl) ?_ ?_ ?_, ⟨?_, ?_⟩,
    hattrs.of_names (by rw [hs']; rfl) (by rw [hs']; rfl) ?_ ?_ ?_⟩
  · rw [hself]
    exact ⟨rfl, by decide, hok⟩
  · simp [hself, Rank.entered, Rank.left, hpc]
  · simp [hself, Rank.left, hpc]
  · intro i hi
    simp only [hself, Rank.named] at hi
    rcases Nat.lt_succ_iff_lt_or_eq.mp hi with hlt | rfl
    · rw [hold i hlt]
      exact hnames.isName i (by simpa [Rank.named, hpc] using hlt)
    · simpa [State.name, hself] using hname
  · intro q hq
    have hq' : ¬ q.val < 1 := fun hlt => hq (Fin.ext (Nat.lt_one_iff.mp hlt))
    have htable := hnames.table q hq
    simp only [hrest q hq, hself, Rank.sentTo, if_neg hq']
    simp only [Rank.sentTo, Rank.named, hpc] at htable
    have hchan : s'.chan = s.chan := by rw [hs']; rfl
    rw [hchan]
    refine htable.trans (List.map_congr_left fun i hi => (hold i ?_).symm)
    exact List.mem_range.mp hi
  · simp [State.added, hself, Rank.added, hpc]
  · intro i
    by_cases hi : c.owner i = c.root
    · simp [State.Removed, hi, hself, Rank.cleared, hpc]
    · rw [State.Removed, hrest _ hi, State.Removed]
  · rw [hadded]
    exact hold

theorem Inv.names_step (h : Inv s) (hranks : s'.ranks = Function.update s.ranks p r')
    (hb : s'.barrier = s.barrier) (hx : s'.xattrs = s.xattrs) (hr : s'.removals = s.removals)
    (hok : RankOk c p r') (hin : r'.entered c = (s.ranks p).entered c)
    (hout : r'.left c = (s.ranks p).left c) (hnames : Names s')
    (hlist : p = c.root → r'.nameList = (s.ranks p).nameList ∧ r'.added c = (s.ranks p).added c)
    (hcleared : r'.cleared c = (s.ranks p).cleared c) : Inv s' := by
  refine ⟨h.clock.move hranks hb hok hin hout, hnames, h.attrs.of_names hx hr ?_ ?_ ?_⟩
  · rw [State.added, hranks]
    by_cases hp : c.root = p
    · subst hp
      rw [Function.update_self]
      exact (hlist rfl).2
    · rw [Function.update_of_ne hp]
      rfl
  · intro i
    rw [State.Removed, hranks]
    by_cases hi : c.owner i = p
    · rw [hi, Function.update_self, hcleared, ← hi]
      rfl
    · rw [Function.update_of_ne hi]
      rfl
  · intro i _
    rw [State.name, hranks]
    by_cases hp : c.root = p
    · subst hp
      rw [Function.update_self, (hlist rfl).1]
      rfl
    · rw [Function.update_of_ne hp]
      rfl

/-- The table of a rank is as good as before when rank 0 has sent it no more. -/
theorem Names.goto_root (h : Names s) (hnamed : Rank.named c { s.ranks c.root with pc := pc } =
      (s.ranks c.root).named c) (hranks : s'.ranks = (s.goto c.root pc).ranks)
    (htable : ∀ q ≠ c.root, (List.range ((s.ranks q).named c)).map (s.ranks q).nameList ++ s'.chan q =
      (List.range (Rank.sentTo c { s.ranks c.root with pc := pc } q)).map s.name) : Names s' := by
  have hself : s'.ranks c.root = { s.ranks c.root with pc := pc } := by
    rw [hranks, State.ranks_goto]
  have hname : s'.name = s.name := by
    funext n
    simp only [State.name, hself]
  constructor
  · rw [hself, hnamed, hname]
    exact h.isName
  · intro q hq
    rw [hself, hname, hranks, State.ranks_goto_of_ne _ _ hq]
    exact htable q hq

theorem Inv.send (h : Inv s) (hpc : (s.ranks p).pc = .send i) : Inv (send s p i) := by
  have hok := h.clock.rank p
  simp only [RankOk, hpc] at hok
  obtain ⟨rfl, hi, hj⟩ := hok
  rw [MultiTest.send]
  split
  · next hlt =>
    refine h.names_step rfl rfl rfl rfl ⟨rfl, Nat.succ_pos i, hj⟩ ?_ ?_
      (h.names.goto_root ?_ rfl fun q hq => ?_) (fun _ => ⟨rfl, ?_⟩) ?_
    · simp [Rank.entered, Rank.left, hpc]
    · simp [Rank.left, hpc]
    · simp [Rank.named, hpc]
    · have htable := h.names.table q hq
      simp only [Rank.sentTo, hpc] at htable ⊢
      by_cases hqi : q = ⟨i, hlt⟩
      · subst hqi
        rw [if_neg (Nat.lt_irrefl i)] at htable
        rw [Function.update_self, ← List.append_assoc, htable, if_pos (Nat.lt_succ_self i),
          List.range_succ, List.map_append]
        rfl
      · have hne : q.val ≠ i := fun heq => hqi (Fin.ext heq)
        have hiff : q.val < i + 1 ↔ q.val < i := by omega
        simp only [hiff]
        rw [Function.update_of_ne hqi]
        exact htable
    · simp [Rank.added, hpc]
    · simp [Rank.cleared, hpc]
  · next hge =>
    refine h.names_step rfl rfl rfl rfl hj ?_ ?_ (h.names.goto_root ?_ rfl fun q hq => ?_)
      (fun _ => ⟨rfl, ?_⟩) ?_
    · simp [Rank.entered, Rank.left, hpc]
    · simp [Rank.left, hpc]
    · simp [Rank.named, hpc]
    · have htable := h.names.table q hq
      have hqlt : q.val < i := by
        have := q.isLt
        omega
      simp only [Rank.sentTo, hpc, if_pos hqlt] at htable
      exact htable
    · simp [Rank.added, hpc]
    · simp [Rank.cleared, hpc]

theorem Inv.recv (h : Inv s) (hpc : (s.ranks p).pc = .name) (hp : p ≠ c.root)
    (hs : recv s p = some s') : Inv s' := by
  have hok := h.clock.rank p
  simp only [RankOk, hpc] at hok
  simp only [MultiTest.recv] at hs
  split at hs
  · cases hs
  · next name rest hchan =>
    have hs := Option.some.inj hs
    have hroot : s'.ranks c.root = s.ranks c.root := by
      rw [← hs]
      exact Function.update_of_ne hp.symm ..
    have hname : s'.name = s.name := by
      funext n
      rw [State.name, hroot]
      rfl
    have hnames : Names s' := by
      constructor
      · rw [hroot, hname]
        exact h.names.isName
      · intro q hq
        have htable := h.names.table q hq
        rw [hroot, hname]
        subst hs
        by_cases hqp : q = p
        · subst hqp
          simp only [Rank.named, hpc, hchan] at htable
          simp only [State.setRank, Function.update_self, Rank.named, map_update_self,
            List.append_assoc]
          exact htable
        · simp only [State.setRank, Function.update_of_ne hqp]
          exact htable
    subst hs
    refine h.names_step rfl rfl rfl rfl hok ?_ ?_ hnames (fun hroot => absurd hroot hp) ?_
    · simp [Rank.entered, Rank.left, hpc]
    · simp [Rank.left, hpc]
    · simp [Rank.cleared, hpc]

end

-- ---------------------------------------------------------------------------
-- Attributes
-- ---------------------------------------------------------------------------

section
variable {c : Config} {s s' : State c} {p q : Fin c.size} {i j : Nat} {v : Value c.xattrValueSz}

theorem Inv.added_inj (h : Inv s) (hc : c.Admitted) (hi : i < s.added) (hj : j < s.added)
    (heq : s.name i = s.name j) : i = j := by
  have hle := (h.clock.rank c.root).added_le
  have hnamed := RankOk.added_le_named (c := c) (s.ranks c.root)
  simp only [State.added] at hi hj
  exact h.name_inj hc.nums_le (by omega) (by omega) (by omega) (by omega) heq

theorem Inv.isName (h : Inv s) (hj : j < s.added) : IsName j c.xattrNameSz (s.name j) :=
  h.names.isName j (Nat.lt_of_lt_of_le hj (RankOk.added_le_named _))

theorem constructs {name : Name} (hname : IsName j c.xattrNameSz name) (hc : c.Admitted) (k : Choice) :
    ∃ v, xattrValueConstructor c.xattrValueSz name k.rsz k.x = some v ∧ Constructed name v := by
  have := hname.length_le
  have := hc.valueSz
  exact xattrValueConstructor_constructed (by omega) k.rsz k.x

theorem mem_insert_iff {x : Xattrs Name (Value c.xattrValueSz)} {m n : Name} :
    m ∈ x.insert n v ↔ m = n ∨ m ∈ x := AList.mem_insert x

theorem Attrs.replace (h : Inv s) (hc : c.Admitted) (hj : j < s.added) (hnot : ¬ s.Removed j)
    (hv : Constructed (s.name j) v) : Attrs { s with xattrs := s.xattrs.insert (s.name j) v } := by
  obtain ⟨hpresent, honly, hlogged, honce⟩ := h.attrs
  refine ⟨fun i hi hkept => ?_, fun n hn => ?_, hlogged, honce⟩
  · rw [Xattrs.get_insert]
    split
    · next heq =>
      have hij : i = j := h.added_inj hc hi hj heq
      subst hij
      exact ⟨v, rfl, hv⟩
    · exact hpresent i hi hkept
  · rcases mem_insert_iff.mp hn with rfl | hn
    · exact ⟨j, hj, hnot, rfl⟩
    · exact honly n hn

theorem Attrs.add (h : Inv s) (hc : c.Admitted) (hpc : (s.ranks c.root).pc = .add)
    (hv : Constructed (s.name (s.ranks c.root).j) v) :
    Attrs { s.goto c.root .readAdded with xattrs := s.xattrs.insert (s.name (s.ranks c.root).j) v } := by
  have hok := h.clock.rank c.root
  simp only [RankOk, hpc] at hok
  have hin : (s.ranks c.root).entered c < c.removeStart := by
    simp only [Rank.entered, Rank.left, hpc, Config.removeStart]
    omega
  have hkept := h.clock.not_removed hin
  have hadded : s.added = (s.ranks c.root).j := by simp [State.added, Rank.added, hpc]
  have hnew {i : Nat} (hi : i < s.added) : s.name i ≠ s.name (s.ranks c.root).j := by
    intro heq
    have hnamed : (s.ranks c.root).named c = (s.ranks c.root).j + 1 := by simp [Rank.named, hpc]
    have := h.name_inj hc.nums_le (by omega) (by omega) (by omega) hok.2 heq
    omega
  generalize hs' : ({ s.goto c.root .readAdded with
    xattrs := s.xattrs.insert (s.name (s.ranks c.root).j) v } : State c) = s'
  have hself : s'.ranks c.root = { s.ranks c.root with pc := .readAdded } := by
    rw [← hs']
    exact s.ranks_goto c.root _
  have hrest (q : Fin c.size) (hq : q ≠ c.root) : s'.ranks q = s.ranks q := by
    rw [← hs']
    exact s.ranks_goto_of_ne _ hq
  have hname : s'.name = s.name := by
    funext n
    simp only [State.name, hself]
  have hadded' : s'.added = (s.ranks c.root).j + 1 := by simp [State.added, hself, Rank.added]
  have hkept' (i : Nat) : ¬ s'.Removed i := by
    by_cases hi : c.owner i = c.root
    · simp [State.Removed, hi, hself, Rank.cleared]
    · rw [State.Removed, hrest _ hi]
      exact hkept i
  have hxattrs : s'.xattrs = s.xattrs.insert (s.name (s.ranks c.root).j) v := by rw [← hs']
  have hremovals : s'.removals = s.removals := by rw [← hs']; rfl
  obtain ⟨hpresent, honly, hlogged, honce⟩ := h.attrs
  constructor
  · intro i hi _
    rw [hname, hxattrs, Xattrs.get_insert]
    split
    · next heq =>
      rw [heq]
      exact ⟨v, rfl, hv⟩
    · next hne =>
      refine hpresent i ?_ (hkept i)
      have : i ≠ (s.ranks c.root).j := fun heq => hne (heq ▸ rfl)
      omega
  · intro n hn
    rw [hxattrs] at hn
    rw [hname]
    rcases mem_insert_iff.mp hn with rfl | hn
    · exact ⟨_, by omega, hkept' _, rfl⟩
    · obtain ⟨i, hi, -, rfl⟩ := honly n hn
      exact ⟨i, by omega, hkept' i, rfl⟩
  · intro x hx
    rw [hremovals] at hx
    obtain ⟨i, hi, rfl⟩ := hlogged x hx
    exact ⟨i, by omega, by rw [hname]⟩
  · intro i hi
    rw [hremovals, hname, if_neg (hkept' i)]
    rcases Nat.lt_succ_iff_lt_or_eq.mp (hadded' ▸ hi) with hlt | heq
    · rw [honce i (by omega), if_neg (hkept i)]
    · subst heq
      refine List.count_eq_zero_of_not_mem fun hmem => ?_
      obtain ⟨i, hi, hpair⟩ := hlogged _ hmem
      exact hnew hi (congrArg Prod.snd hpair).symm

theorem readEa_eq (hc : c.Admitted) (hname : Clean (s.ranks p).name)
    (hget : s.xattrs.get (s.ranks p).name = some v) (hv : Constructed (s.ranks p).name v) (raced : Bool)
    (pc : Pc) : readEa s p raced pc = s.goto p pc := by
  -- the length of the value has five digits
  have hvalid := hv.validator hname (hc.valueSz_le.trans (by decide))
  simp only [readEa, hget]
  rw [if_neg fun hempty => hv.text_ne_nil hempty.2.1, hvalid]

theorem addOrUpdateEa_eq (hc : c.Admitted) {k : Choice} {set : Name → Value c.xattrValueSz →
      Xattrs Name (Value c.xattrValueSz) → Option (Xattrs Name (Value c.xattrValueSz))}
    (hname : (s.ranks p).name = name) (hisName : IsName j c.xattrNameSz name)
    (hcons : xattrValueConstructor c.xattrValueSz name k.rsz k.x = some v)
    (hset : set name v s.xattrs = some x) (pc : Pc) :
    addOrUpdateEa k s p set pc = { s.goto p pc with xattrs := x } := by
  rw [addOrUpdateEa, hname, hcons,
    Xattrs.setxattr_of_le (hisName.length_le.trans hc.nameSz_le) hc.valueSz_le]
  simp only [hset]

theorem Inv.name_eq (h : Inv s) (hj : (s.ranks p).j < (s.ranks p).named c) :
    (s.ranks p).name = s.name (s.ranks p).j := h.names.name_eq p hj

theorem Inv.add (h : Inv s) (hc : c.Admitted) (hpc : (s.ranks p).pc = .add) (k : Choice) :
    Inv (addOrUpdateEa k s p Xattrs.create .readAdded) := by
  have hok := h.clock.rank p
  simp only [RankOk, hpc] at hok
  obtain ⟨rfl, hj⟩ := hok
  have hnamed : (s.ranks c.root).named c = (s.ranks c.root).j + 1 := by simp [Rank.named, hpc]
  have hadded : s.added = (s.ranks c.root).j := by simp [State.added, Rank.added, hpc]
  have hname : (s.ranks c.root).name = s.name (s.ranks c.root).j := rfl
  have hisName := h.names.isName (s.ranks c.root).j (by omega)
  obtain ⟨v, hcons, hv⟩ := constructs hisName hc k
  have hnew : s.name (s.ranks c.root).j ∉ s.xattrs := by
    intro hmem
    obtain ⟨i, hi, -, heq⟩ := h.attrs.only _ hmem
    have := h.name_inj hc.nums_le (by omega) (by omega) hj (by omega) heq
    omega
  rw [addOrUpdateEa_eq hc hname hisName hcons (Xattrs.create_of_notMem hnew)]
  refine ⟨h.clock.move rfl rfl ⟨rfl, hj⟩ ?_ ?_, h.names.goto_root ?_ rfl fun q hq => ?_,
    Attrs.add h hc hpc hv⟩
  · simp [Rank.entered, Rank.left, hpc]
  · simp [Rank.left, hpc]
  · simp [Rank.named, hpc]
  · have htable := h.names.table q hq
    simp only [Rank.sentTo, Rank.named, hpc] at htable
    exact htable

theorem Inv.current (h : Inv s) (hj : (s.ranks p).j < c.xattrNums)
    (hnamed : (s.ranks p).named c = (s.ranks p).j + 1) (hadded : (s.ranks p).j < s.added)
    (hin : (s.ranks p).entered c ≤ 3 * (s.ranks p).j + 2) :
    (s.ranks p).name = s.name (s.ranks p).j ∧ ¬ s.Removed (s.ranks p).j ∧
      ∃ v, s.xattrs.get (s.ranks p).name = some v ∧ Constructed (s.ranks p).name v := by
  have hkept : ¬ s.Removed (s.ranks p).j := by
    refine h.clock.not_removed (p := p) ?_ _
    rw [Config.removeStart]
    omega
  have hname := h.name_eq (p := p) (by omega)
  refine ⟨hname, hkept, ?_⟩
  rw [hname]
  exact h.attrs.present _ hadded hkept

theorem Inv.readAdded (h : Inv s) (hc : c.Admitted) (hpc : (s.ranks p).pc = .readAdded) :
    Inv (readEa s p false (.call .added)) := by
  have hok := h.clock.rank p
  simp only [RankOk, hpc] at hok
  obtain ⟨rfl, hj⟩ := hok
  have hadded : (s.ranks c.root).j < s.added := by simp [State.added, Rank.added, hpc]
  obtain ⟨hname, -, v, hget, hv⟩ := h.current hj (by simp [Rank.named, hpc]) hadded
    (by simp [Rank.entered, Rank.left, hpc])
  have hclean : Clean (s.ranks c.root).name := by
    rw [hname]
    exact (h.isName hadded).clean
  rw [readEa_eq hc hclean hget hv]
  refine h.goto hj ?_ ?_ ?_
  · simp [Rank.entered, Rank.left, hpc]
  · simp [Rank.left, hpc]
  · constructor <;> simp [Rank.named, Rank.sentTo, Rank.added, Rank.cleared, hpc]

theorem Inv.race (h : Inv s) (hc : c.Admitted) (hpc : (s.ranks p).pc = .race) (k : Choice) :
    Inv (if p = c.root then readEa s p true (.call .raced)
      else addOrUpdateEa k s p Xattrs.replace (.call .raced)) := by
  have hj := h.clock.rank p
  simp only [RankOk, hpc] at hj
  have hadded : (s.ranks p).j < s.added :=
    h.clock.lt_added (p := p) hj (by simp [Rank.left, hpc])
  obtain ⟨hname, hkept, v, hget, hv⟩ := h.current hj (by simp [Rank.named, hpc]) hadded
    (by simp [Rank.entered, Rank.left, hpc])
  have hisName := h.isName hadded
  have hin : Rank.entered c { s.ranks p with pc := .call .raced } = (s.ranks p).entered c := by
    simp [Rank.entered, Rank.left, hpc]
  have hout : Rank.left c { s.ranks p with pc := .call .raced } = (s.ranks p).left c := by
    simp [Rank.left, hpc]
  have hsame : Same c p (s.ranks p) { s.ranks p with pc := .call .raced } := by
    constructor <;> simp [Rank.named, Rank.sentTo, Rank.added, Rank.cleared, hpc]
  split
  · rw [readEa_eq hc (hname ▸ hisName.clean) hget hv]
    exact h.goto hj hin hout hsame
  · obtain ⟨v', hcons, hv'⟩ := constructs hisName hc k
    have hmem : s.name (s.ranks p).j ∈ s.xattrs := Xattrs.mem_iff_get.mpr ⟨v, hname ▸ hget⟩
    rw [addOrUpdateEa_eq hc hname hisName hcons (Xattrs.replace_of_mem hmem)]
    have hattrs := Attrs.replace h hc hadded hkept hv'
    have hranks : ∀ q, Same c q (s.ranks q) ((s.goto p (.call .raced)).ranks q) := hsame.update
    exact ⟨h.clock.move rfl rfl hj hin hout, h.names.of_same hranks rfl,
      Attrs.of_same (s := { s with xattrs := s.xattrs.insert (s.name (s.ranks p).j) v' }) hranks
        hattrs rfl rfl⟩

theorem Inv.keys_perm (h : Inv s) (hc : c.Admitted) (hadded : s.added = c.xattrNums)
    (hkept : ∀ j, ¬ s.Removed j) : s.xattrs.keys.Perm ((List.range c.xattrNums).map s.name) := by
  have hnodup : ((List.range c.xattrNums).map s.name).Nodup := by
    refine List.Nodup.map_on (fun i hi j hj heq => ?_) List.nodup_range
    rw [List.mem_range, ← hadded] at hi hj
    exact h.added_inj hc hi hj heq
  rw [List.perm_ext_iff_of_nodup s.xattrs.keys_nodup hnodup]
  intro n
  rw [List.mem_map]
  constructor
  · intro hn
    obtain ⟨j, hj, -, rfl⟩ := h.attrs.only n hn
    exact ⟨j, List.mem_range.mpr (hadded ▸ hj), rfl⟩
  · rintro ⟨j, hj, rfl⟩
    obtain ⟨v, hv, -⟩ := h.attrs.present j (hadded ▸ List.mem_range.mp hj) (hkept j)
    exact Xattrs.mem_iff_get.mpr ⟨v, hv⟩

theorem listSz_pos (hc : c.Admitted) : 0 < c.listSz := Nat.mul_pos (Nat.succ_pos _) hc.nums_pos

theorem listTest_eq (hc : c.Admitted) (k : Choice)
    (hkeys : s.xattrs.keys.Perm ((List.range c.xattrNums).map s.name))
    (hnames : ∀ j < c.xattrNums, (s.ranks p).nameList j = s.name j)
    (hisName : ∀ j < c.xattrNums, IsName j c.xattrNameSz (s.name j)) :
    listTest k s p = s.goto p (.call .listed) := by
  have hperm := (k.order_perm s.xattrs.keys).trans hkeys
  have hlen : (k.order s.xattrs.keys).length = c.xattrNums := by
    simpa using hperm.length_eq
  have hmem {n : Name} (hn : n ∈ k.order s.xattrs.keys) : ∃ j < c.xattrNums, s.name j = n := by
    obtain ⟨j, hj, rfl⟩ := List.mem_map.mp (hperm.mem_iff.mp hn)
    exact ⟨j, List.mem_range.mp hj, rfl⟩
  have hclean : ∀ n ∈ k.order s.xattrs.keys, Clean n := by
    intro n hn
    obtain ⟨j, hj, rfl⟩ := hmem hn
    exact (hisName j hj).clean
  have hfits : (listing (k.order s.xattrs.keys)).length ≤ c.listSz := by
    rw [Config.listSz, ← hlen]
    refine length_listing_le fun n hn => ?_
    obtain ⟨j, hj, rfl⟩ := hmem hn
    exact (hisName j hj).length_le
  have hparse := listParser_listing (List.replicate
    (c.listSz - (listing (k.order s.xattrs.keys)).length) nul) hclean
  rw [hlen] at hparse
  have hpos := listSz_pos hc
  simp only [listTest, listxattr]
  rw [if_neg (by omega), if_neg (by omega)]
  simp only
  rw [hparse, if_pos]
  intro n hn
  obtain ⟨j, hj, rfl⟩ := hmem hn
  exact isNamelistMember_iff.mpr ⟨j, hj, (hnames j hj).symm⟩

theorem Inv.list (h : Inv s) (hc : c.Admitted) (hpc : (s.ranks p).pc = .list) (k : Choice) :
    Inv (listTest k s p) := by
  have hlist := h.clock.rank p
  simp only [RankOk, hpc] at hlist
  have hadded := h.clock.added_eq (p := p) (by simp [Rank.left, hpc])
  have hkept := h.clock.not_removed (p := p) (by
    simp [Rank.entered, Rank.left, hpc, Config.removeStart, hlist])
  have hnamed : (s.ranks p).named c = c.xattrNums := by simp [Rank.named, hpc]
  rw [listTest_eq hc k (h.keys_perm hc hadded hkept)
    (fun j hj => h.names.name_eq p (hnamed.symm ▸ hj)) (fun j hj => h.isName (hadded.symm ▸ hj))]
  refine h.goto hlist ?_ ?_ ?_
  · simp [Rank.entered, Rank.left, hpc]
  · simp [Rank.left, hpc]
  · constructor <;> simp [Rank.named, Rank.sentTo, Rank.added, Rank.cleared, hpc]

theorem Attrs.remove (h : Inv s) (hc : c.Admitted) (hj : j < s.added) (hp : c.owner j = p)
    (hkept : ¬ s.Removed j) (hname : s'.name = s.name) (hadded : s'.added = s.added)
    (hremoved : ∀ i, s'.Removed i ↔ s.Removed i ∨ i = j)
    (hx : s'.xattrs = s.xattrs.erase (s.name j)) (hr : s'.removals = (p, s.name j) :: s.removals) :
    Attrs s' := by
  obtain ⟨hpresent, honly, hlogged, honce⟩ := h.attrs
  constructor
  · intro i hi hnot
    rw [hadded] at hi
    rw [hremoved, not_or] at hnot
    rw [hname, hx, Xattrs.get_erase, if_neg fun heq => hnot.2 (h.added_inj hc hi hj heq)]
    exact hpresent i hi hnot.1
  · intro n hn
    rw [hx, AList.mem_erase] at hn
    obtain ⟨i, hi, hnot, rfl⟩ := honly n hn.2
    refine ⟨i, hadded ▸ hi, ?_, by rw [hname]⟩
    rw [hremoved, not_or]
    exact ⟨hnot, fun heq => hn.1 (heq ▸ rfl)⟩
  · intro x hmem
    rw [hr] at hmem
    rcases List.mem_cons.mp hmem with rfl | hmem
    · exact ⟨j, hadded ▸ hj, by rw [hname, hp]⟩
    · obtain ⟨i, hi, rfl⟩ := hlogged x hmem
      exact ⟨i, hadded ▸ hi, by rw [hname]⟩
  · intro i hi
    rw [hadded] at hi
    have hcount := honce i hi
    rw [hname, hr]
    by_cases hij : i = j
    · subst hij
      rw [hp] at hcount ⊢
      rw [List.count_cons_self, hcount, if_neg hkept, if_pos ((hremoved i).mpr (.inr rfl))]
    · have hne : (p, s.name j) ≠ (c.owner i, s.name i) := fun heq =>
        hij (h.added_inj hc hi hj (congrArg Prod.snd heq).symm)
      rw [List.count_cons_of_ne hne, hcount]
      simp only [hremoved, hij, or_false]

/-- All but the removal is where it was. -/
structure SameNames (c : Config) (r r' : Rank) : Prop where
  nameList : r'.nameList = r.nameList
  named : r'.named c = r.named c
  sentTo : ∀ q, r'.sentTo c q = r.sentTo c q
  added : r'.added c = r.added c

theorem Inv.remove (h : Inv s) (hc : c.Admitted) (hpc : (s.ranks p).pc = .remove) :
    Inv (removeEa s p) := by
  have hok := h.clock.rank p
  simp only [RankOk, hpc] at hok
  obtain ⟨hkeep, hle⟩ := hok
  have hadded : s.added = c.xattrNums := by
    refine h.clock.added_eq (p := p) ?_
    simp only [Rank.left, hpc]
    exact Nat.le_add_right _ _
  have hstep (r' : Rank) (hr' : r' = { s.ranks p with j := (s.ranks p).j + 1 })
      (hj : (s.ranks p).j < c.xattrNums) : RankOk c p r' ∧ r'.entered c = (s.ranks p).entered c ∧
        r'.left c = (s.ranks p).left c := by
    subst hr'
    simp only [RankOk, Rank.entered, Rank.left, hpc]
    exact ⟨⟨hkeep, hj⟩, trivial, trivial⟩
  simp only [removeEa]
  split
  · next hj =>
    obtain ⟨hok', hin, hout⟩ := hstep _ rfl hj
    split
    · next hp =>
      have howner : c.owner (s.ranks p).j = p := Fin.ext hp
      have hkept : ¬ s.Removed (s.ranks p).j := by
        rw [State.Removed, howner]
        simp [Rank.cleared, hpc]
      have hname := h.name_eq (p := p) (by simpa [Rank.named, hpc] using hj)
      obtain ⟨v, hv, -⟩ := h.attrs.present _ (hadded.symm ▸ hj) hkept
      have hmem : s.name (s.ranks p).j ∈ s.xattrs := Xattrs.mem_iff_get.mpr ⟨v, hv⟩
      rw [hname, Xattrs.remove_of_mem hmem]
      have hview (q : Fin c.size) : SameNames c (s.ranks q)
          (Function.update s.ranks p { s.ranks p with j := (s.ranks p).j + 1 } q) := by
        by_cases hq : q = p
        · subst hq
          rw [Function.update_self]
          constructor <;> simp [Rank.named, Rank.added, Rank.sentTo, hpc]
        · rw [Function.update_of_ne hq]
          exact ⟨rfl, rfl, fun _ => rfl, rfl⟩
      refine ⟨h.clock.move rfl rfl hok' hin hout, ⟨?_, ?_⟩,
        Attrs.remove h hc (hadded.symm ▸ hj) howner hkept (hview c.root).nameList (hview c.root).added
          (fun i => ?_) rfl rfl⟩
      · have hisName := h.names.isName
        rw [← (hview c.root).named] at hisName
        simp only [State.name, State.setRank, (hview c.root).nameList]
        exact hisName
      · intro q hq
        have htable := h.names.table q hq
        rw [← (hview c.root).sentTo, ← (hview q).named, ← (hview q).nameList] at htable
        have hroot : State.name { s.setRank p { s.ranks p with j := (s.ranks p).j + 1 } with
            xattrs := s.xattrs.erase (s.name (s.ranks p).j)
            removals := (p, s.name (s.ranks p).j) :: s.removals } = s.name := (hview c.root).nameList
        rw [hroot]
        exact htable
      · simp only [State.Removed, State.setRank]
        by_cases hi : c.owner i = p
        · rw [hi, Function.update_self]
          simp only [Rank.cleared, hpc]
          omega
        · have hne : i ≠ (s.ranks p).j := fun heq => hi (heq ▸ howner)
          rw [Function.update_of_ne hi]
          simp [hne]
    · next hp =>
      have hsame : Same c p (s.ranks p) { s.ranks p with j := (s.ranks p).j + 1 } := by
        constructor <;> simp only [Rank.named, Rank.sentTo, Rank.added, Rank.cleared, hpc, implies_true]
        intro i hi
        have hne : i ≠ (s.ranks p).j := fun heq => hp (heq ▸ hi)
        omega
      exact ⟨h.clock.move rfl rfl hok' hin hout, h.names.of_same hsame.update rfl,
        h.attrs.of_same hsame.update rfl rfl⟩
  · next hj =>
    have hend : (s.ranks p).j = c.xattrNums := by omega
    refine h.goto hkeep ?_ ?_ ?_
    · simp [Rank.entered, Rank.left, hpc]
    · simp [Rank.left, hpc]
    · constructor <;> simp [Rank.named, Rank.sentTo, Rank.added, Rank.cleared, hpc, hend]

theorem Inv.removed (h : Inv s) (hkeep : c.keepEa = false) (hin : c.removeStart < (s.ranks p).left c)
    (hj : j < c.xattrNums) : s.Removed j := by
  have hall := (h.clock.rank (c.owner j)).cleared_eq hkeep
    (Nat.lt_of_lt_of_le hin (h.clock.left_le p (c.owner j)))
  rw [State.Removed, hall]
  exact hj

theorem Inv.keys_nil (h : Inv s) (hkeep : c.keepEa = false)
    (hin : c.removeStart < (s.ranks p).left c) : s.xattrs.keys = [] := by
  refine List.eq_nil_iff_forall_not_mem.mpr fun n hn => ?_
  obtain ⟨j, hj, hnot, -⟩ := h.attrs.only n hn
  exact hnot (h.removed hkeep hin (Nat.lt_of_lt_of_le hj (h.clock.rank c.root).added_le))

theorem Inv.verify (h : Inv s) (hc : c.Admitted) (hpc : (s.ranks p).pc = .verify) (k : Choice) :
    Inv (verifyEmpty k s p) := by
  have hok := h.clock.rank p
  simp only [RankOk, hpc] at hok
  have hkeys := h.keys_nil (p := p) hok.1 (by simp [Rank.left, hpc])
  have horder : k.order s.xattrs.keys = [] := by
    have := k.order_perm s.xattrs.keys
    rw [hkeys] at this ⊢
    exact this.eq_nil
  have hpos := listSz_pos hc
  obtain ⟨n, hn⟩ := Nat.exists_eq_succ_of_ne_zero hpos.ne'
  have hlist : listxattr k s = some (nul :: List.replicate n nul) := by
    simp [listxattr, horder, listing, hn, List.replicate_succ]
  rw [verifyEmpty, hlist]
  simp only [List.headD_cons, ne_eq, not_true_eq_false, if_false]
  refine h.goto trivial ?_ ?_ ?_
  · simp [Rank.entered, Rank.left, hpc, Config.lastStart, hok.1]
  · simp [Rank.left, hpc, Config.lastStart, hok.1]
  · constructor <;> simp [Rank.named, Rank.sentTo, Rank.added, Rank.cleared, hpc, hok.1]

theorem Inv.initial (hc : c.Admitted) (tables : Fin c.size → Nat → Name) : Inv (initial c tables) := by
  have hrank (p : Fin c.size) : (MultiTest.initial c tables).ranks p = ⟨.name, 0, tables p⟩ :=
    if_pos hc.nums_pos
  have hadded : (MultiTest.initial c tables).added = 0 := by rw [State.added, hrank]; rfl
  refine ⟨⟨fun p => ?_, fun p => ?_, fun p => ?_, Barrier.synced_start⟩, ⟨?_, fun p _ => ?_⟩,
    ⟨fun j hj => ?_, fun n hn => ?_, fun x hx => ?_, fun j hj => ?_⟩⟩
  · rw [hrank]
    exact hc.nums_pos
  · rw [hrank]
    rfl
  · rw [hrank]
    rfl
  · rw [hrank]
    exact fun j hj => absurd hj (Nat.not_lt_zero j)
  · rw [hrank, hrank]
    rfl
  · exact absurd (hadded ▸ hj) (Nat.not_lt_zero j)
  · cases hn
  · cases hx
  · exact absurd (hadded ▸ hj) (Nat.not_lt_zero j)

theorem Inv.step (h : Inv s) (hc : c.Admitted) {k : Choice} (hs : next k s p = some s') : Inv s' := by
  rw [next] at hs
  split at hs
  · next hpc =>
    split at hs
    · next hp =>
      subst hp
      exact Option.some.inj hs ▸ h.generate hc hpc k
    · next hp => exact h.recv hpc hp hs
  · next hpc => exact Option.some.inj hs ▸ h.send hpc
  · next hpc => exact Option.some.inj hs ▸ h.add hc hpc k
  · next hpc => exact Option.some.inj hs ▸ h.readAdded hc hpc
  · next hpc => exact Option.some.inj hs ▸ h.race hc hpc k
  · next hpc => exact Option.some.inj hs ▸ h.list hc hpc k
  · next hpc => exact Option.some.inj hs ▸ h.remove hc hpc
  · next hpc => exact Option.some.inj hs ▸ h.verify hc hpc k
  · next hpc => exact Option.some.inj hs ▸ h.call hpc
  · next hpc =>
    split at hs
    · next hopen => exact Option.some.inj hs ▸ h.wait hpc hopen
    · cases hs
  · cases hs
  · cases hs
  · cases hs

theorem Inv.reachable (hc : c.Admitted) (h : (multiTest c).Reachable s) : Inv s := by
  refine h.invariant ?_ ?_
  · rintro _ ⟨tables, rfl⟩
    exact .initial hc tables
  · rintro s s' - ih ⟨k, p, hs⟩
    exact ih.step hc hs

/-- Nobody gives up, the ranks have the same names, each attribute is removed by one
rank and once, and nothing is left when rank 0 looks. -/
structure Correct (s : State c) : Prop where
  noTeardown : ∀ p, (s.ranks p).pc ≠ .failed ∧ (s.ranks p).pc ≠ .fault
  sameNames : ∀ p, ∀ j < (s.ranks p).named c, (s.ranks p).nameList j = s.name j
  finalListing : ∀ p, (s.ranks p).pc = .verify → s.xattrs.keys = []
  removedOnce : c.keepEa = false → Finished s → ∀ j < c.xattrNums,
    ∃ p, s.removals.filter (fun x => x.2 = s.name j) = [(p, s.name j)]

theorem Inv.correct (h : Inv s) (hc : c.Admitted) : Correct s where
  noTeardown p := by
    have hok := h.clock.rank p
    constructor
    · intro hpc
      simp only [RankOk, hpc] at hok
    · intro hpc
      simp only [RankOk, hpc] at hok
  sameNames p j hj := h.names.name_eq p hj
  finalListing p hpc := by
    have hok := h.clock.rank p
    simp only [RankOk, hpc] at hok
    exact h.keys_nil (p := p) hok.1 (by simp [Rank.left, hpc])
  removedOnce hkeep hdone j hj := by
    have hadded : s.added = c.xattrNums := by simp [State.added, Rank.added, hdone c.root]
    have hremoved : s.Removed j := by
      refine h.removed (p := c.root) hkeep ?_ hj
      simp [Rank.left, hdone c.root, Config.lastStart, hkeep]
    have hcount := h.attrs.once j (hadded.symm ▸ hj)
    rw [if_pos hremoved] at hcount
    refine ⟨c.owner j, ?_⟩
    have hfilter : s.removals.filter (fun x => x.2 = s.name j) =
        s.removals.filter (fun x => x = (c.owner j, s.name j)) := by
      refine List.filter_congr fun x hx => ?_
      obtain ⟨i, hi, rfl⟩ := h.attrs.logged x hx
      rw [decide_eq_decide]
      constructor
      · intro heq
        rw [h.added_inj hc hi (hadded.symm ▸ hj) heq]
      · exact fun heq => congrArg Prod.snd heq
    rw [hfilter, List.filter_eq, hcount]
    rfl

theorem multiTest_correct (c : Config) (hc : c.Admitted) (s : State c)
    (hs : (multiTest c).Reachable s) : Correct s := (Inv.reachable hc hs).correct hc

end

-- ---------------------------------------------------------------------------
-- Runs
-- ---------------------------------------------------------------------------

def run {c : Config} : List (Fin c.size × Choice) → State c → Option (State c)
  | [], s => some s
  | (p, k) :: steps, s => (next k s p).bind (run steps)

theorem reachable_run {c : Config} {s s' : State c} {steps : List (Fin c.size × Choice)}
    (h : (multiTest c).Reachable s) (hrun : run steps s = some s') :
    (multiTest c).Reachable s' := by
  induction steps generalizing s with
  | nil =>
    cases hrun
    exact h
  | cons step steps ih =>
    obtain ⟨t, ht, hrest⟩ := Option.bind_eq_some_iff.mp hrun
    exact ih (h.step ⟨step.2, step.1, ht⟩) hrest

theorem reachable_initial (c : Config) : (multiTest c).Reachable (initial c fun _ _ => []) :=
  .init ⟨_, rfl⟩

def twoRanks : Config where
  size := 2
  xattrNums := 1
  xattrNameSz := 20
  xattrValueSz := 70
  size_pos := Nat.two_pos

/-- Rank 0 sends the name and adds the attribute; rank 1 replaces it by another value. -/
def replacing : List (Fin twoRanks.size × Choice) :=
  let a : Fin twoRanks.size := ⟨0, by decide⟩
  let b : Fin twoRanks.size := ⟨1, by decide⟩
  [(a, {}), (a, {}), (a, {}), (b, {}), (a, {}), (b, {}), (a, {}), (b, {}), (a, {}), (a, {}),
    (b, {}), (a, {}), (a, {}), (b, {}), (b, { rsz := 5 })]

/-- Rank 0 reads that value, both list, rank 0 removes the attribute and finds none. -/
def finishing : List (Fin twoRanks.size × Choice) :=
  let a : Fin twoRanks.size := ⟨0, by decide⟩
  let b : Fin twoRanks.size := ⟨1, by decide⟩
  [(a, {}), (a, {}), (b, {}), (a, {}), (b, {}), (a, {}), (b, {}), (a, {}), (b, {}), (a, {}),
    (b, {}), (a, {}), (a, {}), (b, {}), (b, {}), (a, {}), (b, {}), (a, {}), (b, {}), (a, {}),
    (a, {}), (b, {}), (a, {}), (b, {})]

theorem multiTest_correct_twoRanks : ∃ s s', (multiTest twoRanks).Reachable s ∧
    (s.ranks ⟨0, by decide⟩).pc = .race ∧ (s.ranks ⟨1, by decide⟩).pc = .call .raced ∧
    run finishing s = some s' ∧ Finished s' ∧ Correct s ∧ Correct s' := by
  have hrun : ((run replacing (initial twoRanks fun _ _ => [])).bind fun s =>
      (run finishing s).map fun s' => ((s.ranks ⟨0, by decide⟩).pc, (s.ranks ⟨1, by decide⟩).pc,
        decide (Finished s'))) = some (.race, .call .raced, true) := by decide +kernel
  obtain ⟨s, hs, hrest⟩ := Option.bind_eq_some_iff.mp hrun
  obtain ⟨s', hs', hfacts⟩ := Option.map_eq_some_iff.mp hrest
  simp only [Prod.mk.injEq, decide_eq_true_eq] at hfacts
  obtain ⟨hroot, hother, hdone⟩ := hfacts
  have hadmitted : twoRanks.Admitted := by constructor <;> decide
  have hreach := reachable_run (reachable_initial twoRanks) hs
  have hreach' := reachable_run hreach hs'
  exact ⟨s, s', hreach, hroot, hother, hs', hdone, multiTest_correct twoRanks hadmitted s hreach,
    multiTest_correct twoRanks hadmitted s' hreach'⟩

-- ---------------------------------------------------------------------------
-- What is not admitted
-- ---------------------------------------------------------------------------

def oneAttribute : Config := { twoRanks with size := 1, size_pos := Nat.one_pos }

def longValue : Config := { oneAttribute with xattrValueSz := 65537 }

def longName : Config := { oneAttribute with xattrNameSz := 256, xattrValueSz := 306 }

def noAttributes : Config := { oneAttribute with xattrNums := 0 }

def alone (c : Config) (n : Nat) : Option Pc :=
  (run (List.replicate n (c.root, { junk := 'x' })) (initial c fun _ _ => [])).map
    fun s => (s.ranks c.root).pc

theorem failed_of_alone {c : Config} (h : alone c n = some .failed) :
    ∃ s, (multiTest c).Reachable s ∧ (s.ranks c.root).pc = .failed := by
  obtain ⟨s, hs, hpc⟩ := Option.map_eq_some_iff.mp h
  exact ⟨s, reachable_run (reachable_initial c) hs, hpc⟩

/-- Neither with a value or a name that cannot be stored nor with no attribute at all does
the test always come through. -/
theorem admitted_needed :
    (20 ≤ longValue.xattrNameSz ∧ longValue.xattrNameSz + 50 ≤ longValue.xattrValueSz ∧
      longValue.xattrNums ≤ 10 ^ 6 ∧
      ∃ s, (multiTest longValue).Reachable s ∧ (s.ranks longValue.root).pc = .failed) ∧
    (20 ≤ longName.xattrNameSz ∧ longName.xattrNameSz + 50 ≤ longName.xattrValueSz ∧
      longName.xattrNums ≤ 10 ^ 6 ∧
      ∃ s, (multiTest longName).Reachable s ∧ (s.ranks longName.root).pc = .failed) ∧
    (20 ≤ noAttributes.xattrNameSz ∧ noAttributes.xattrNameSz + 50 ≤ noAttributes.xattrValueSz ∧
      noAttributes.xattrNums ≤ 10 ^ 6 ∧
      ∃ s, (multiTest noAttributes).Reachable s ∧ (s.ranks noAttributes.root).pc = .failed) := by
  refine ⟨⟨by decide, by decide, by decide, ?_⟩, ⟨by decide, by decide, by decide, ?_⟩,
    ⟨by decide, by decide, by decide, ?_⟩⟩
  · have hrun : alone longValue 5 = some .failed := by decide +kernel
    exact failed_of_alone hrun
  · have hrun : alone longName 5 = some .failed := by decide +kernel
    exact failed_of_alone hrun
  · have hrun : alone noAttributes 7 = some .failed := by decide +kernel
    exact failed_of_alone hrun

end Ocfs2Test.Xattr.MultiTest
