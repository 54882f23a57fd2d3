import Ocfs2Test.Chunks.Journal
import Ocfs2Test.Lib.Transition
import Ocfs2Test.Lib.Xattr
import Ocfs2Test.Xattr.Value

/-!
# xattr_random_reflink_test

Attributes are added to the original file, and then each round adds one, updates one
or removes one, before the file is reflinked. The table has a slot for each number;
the slot of an attribute that was removed is NULL, and those of attributes that were
never added hold whatever was there before. A round that updates or removes draws
slots until one is not NULL.
-/

namespace Ocfs2Test.Reflink.RandomEa

open Lib Lib.Stdio Chunks Xattr

def XATTR_NAME_MAX_SZ : Nat := 255

/-- Where the test is: in its first loop, in its second loop, or ended by `should_exit`. -/
inductive Phase
  | prepare (i : Nat)
  | rounds (j : Nat)
  | exited
  deriving DecidableEq

def Phase.prepareFrom (eaNums i : Nat) : Phase := if i < eaNums then .prepare i else .rounds 0

structure State (α : Type) where
  phase : Phase
  table : Nat → Option Name
  eaCount : Nat
  attrs : Xattrs Name α

def State.made (s : State α) : Nat :=
  match s.phase with
  | .prepare i => i
  | _ => s.eaCount

/-- A call that is issued; for a slot that was drawn, all draws of the round. -/
inductive Call
  | create (name : Name)
  | replace (draws : List Rand) (index : Nat) (name : Name)
  | remove (draws : List Rand) (index : Nat) (name : Name)

/-- The loop that draws until a slot is not NULL. -/
inductive Drawn (table : Nat → Option Name) (eaCount : Nat) : List Rand → Nat → Name → Prop
  | accept (h : table (getRandUl 0 eaCount r) = some name) :
    Drawn table eaCount [r] (getRandUl 0 eaCount r) name
  | reject (h : table (getRandUl 0 eaCount r) = none) (rest : Drawn table eaCount rs i name) :
    Drawn table eaCount (r :: rs) i name

def makeName (no : Nat) (r : Rand) (x : Nat → Nat) : Name :=
  xattrNameGenerator no .user XATTR_NAME_MAX_SZ XATTR_NAME_MAX_SZ r x

def State.after (s : State α) (attrs : Option (Xattrs Name α)) (phase : Phase) : State α :=
  match attrs with
  | some attrs => { s with attrs := attrs, phase := phase }
  | none => { s with phase := .exited }

/-- The value of an attribute is any. A NULL slot is no place for a name. -/
inductive Step (eaNums refNums : Nat) (s : State α) : Call → State α → Prop
  | prepare (hphase : s.phase = .prepare i) (hslot : s.table i ≠ none) (r : Rand) (x : Nat → Nat)
    (v : α) :
    Step eaNums refNums s (.create (makeName i r x))
      ({ s with table := Function.update s.table i (some (makeName i r x)) }.after
        (s.attrs.create (makeName i r x) v) (.prepareFrom eaNums (i + 1)))
  | add (hphase : s.phase = .rounds j) (hj : j < refNums) (hkind : j % 3 = 0)
    (hslot : s.table s.eaCount ≠ none) (r : Rand) (x : Nat → Nat) (v : α) :
    Step eaNums refNums s (.create (makeName s.eaCount r x))
      ({ s with
          table := Function.update s.table s.eaCount (some (makeName s.eaCount r x))
          eaCount := s.eaCount + 1 }.after
        (s.attrs.create (makeName s.eaCount r x) v) (.rounds (j + 1)))
  | update (hphase : s.phase = .rounds j) (hj : j < refNums) (hkind : j % 3 = 1)
    (hdrawn : Drawn s.table s.eaCount rs i name) (v : α) :
    Step eaNums refNums s (.replace rs i name)
      (s.after (s.attrs.replace name v) (.rounds (j + 1)))
  | remove (hphase : s.phase = .rounds j) (hj : j < refNums) (hkind : j % 3 = 2)
    (hdrawn : Drawn s.table s.eaCount rs i name) :
    Step eaNums refNums s (.remove rs i name)
      ({ s with table := Function.update s.table i none }.after (s.attrs.remove name)
        (.rounds (j + 1)))

/-- No attribute yet, and no slot that is NULL. -/
structure Init (eaNums : Nat) (s : State α) : Prop where
  phase : s.phase = .prepareFrom eaNums 0
  table : ∀ i, s.table i ≠ none
  eaCount : s.eaCount = eaNums
  attrs : s.attrs = ∅

/-- The runs all of whose calls meet a condition. -/
def system (eaNums refNums : Nat) (P : State α → Call → Prop) : System (State α) where
  Init := Init eaNums
  Step s s' := ∃ call, P s call ∧ Step eaNums refNums s call s'

/-- What is added is new, and what is updated or removed is there and has a slot below
the number of attributes added so far. -/
def Call.Ok (s : State α) : Call → Prop
  | .create name => name ∉ s.attrs
  | .replace _ i name | .remove _ i name => i < s.made ∧ name ∈ s.attrs

/-- Six digits number a new attribute, and no draw is the slot behind the last one. -/
def Call.Meets (s : State α) : Call → Prop
  | .create _ => s.made < 10 ^ 6
  | .replace rs _ _ | .remove rs _ _ => ∀ r ∈ rs, r.val % (s.eaCount + 1) ≠ s.eaCount

-- ---------------------------------------------------------------------------
-- Draws and names
-- ---------------------------------------------------------------------------

theorem getRandUl_lt_of_ne {n : Nat} {r : Rand} (h : r.val % (n + 1) ≠ n) :
    getRandUl 0 n r < n := by
  have hlt : r.val % (n + 1) < n + 1 := Nat.mod_lt r.val (Nat.succ_pos n)
  unfold getRandUl
  split
  · next hzero =>
    obtain ⟨-, rfl⟩ := hzero
    omega
  · rw [Nat.zero_add, Nat.sub_zero]
    omega

theorem Drawn.table_eq {table : Nat → Option Name} (h : Drawn table n rs i name) :
    table i = some name := by
  induction h with
  | accept h => exact h
  | reject _ _ ih => exact ih

theorem Drawn.lt {table : Nat → Option Name} (h : Drawn table n rs i name)
    (hrs : ∀ r ∈ rs, r.val % (n + 1) ≠ n) : i < n := by
  induction h with
  | accept h => exact getRandUl_lt_of_ne (hrs _ List.mem_cons_self)
  | reject _ _ ih => exact ih fun r hr => hrs r (List.mem_cons_of_mem _ hr)

theorem makeName_isName (h : no < 10 ^ 6) (r : Rand) (x : Nat → Nat) :
    IsName no XATTR_NAME_MAX_SZ (makeName no r x) :=
  xattrNameGenerator_isName .user r x h (by decide) (Nat.le_refl _)

-- ---------------------------------------------------------------------------
-- The table and the file
-- ---------------------------------------------------------------------------

/-- Up to a number of slots, the table lists the attributes of the file. -/
structure Lists (n : Nat) (table : Nat → Option Name) (attrs : Xattrs Name α) : Prop where
  isName : ∀ i < n, ∀ name, table i = some name → IsName i XATTR_NAME_MAX_SZ name
  mem_iff : ∀ name, name ∈ attrs ↔ ∃ i < n, table i = some name
  filled : ∀ i, n ≤ i → table i ≠ none
  le : n ≤ 10 ^ 6

section
variable {α : Type} {n i : Nat} {table : Nat → Option Name} {attrs : Xattrs Name α} {name : Name}

theorem Lists.start (h : ∀ i, table i ≠ none) : Lists 0 table (∅ : Xattrs Name α) where
  isName _ hi := absurd hi (Nat.not_lt_zero _)
  mem_iff name := by simp
  filled i _ := h i
  le := Nat.zero_le _

theorem Lists.notMem_of_isName (h : Lists n table attrs) (hn : n < 10 ^ 6)
    (hname : IsName n XATTR_NAME_MAX_SZ name) : name ∉ attrs := by
  intro hmem
  obtain ⟨i, hi, hslot⟩ := (h.mem_iff name).mp hmem
  have := (h.isName i hi name hslot).number_eq hname (hi.trans hn) hn
  omega

theorem Lists.create (h : Lists n table attrs) (hn : n < 10 ^ 6)
    (hname : IsName n XATTR_NAME_MAX_SZ name) (v : α) :
    Lists (n + 1) (Function.update table n (some name)) (attrs.insert name v) where
  isName i hi name' hslot := by
    rcases Nat.lt_succ_iff_lt_or_eq.mp hi with hi | rfl
    · rw [Function.update_of_ne hi.ne] at hslot
      exact h.isName i hi name' hslot
    · rw [Function.update_self] at hslot
      cases hslot
      exact hname
  mem_iff name' := by
    rw [AList.mem_insert, h.mem_iff]
    constructor
    · rintro (rfl | ⟨i, hi, hslot⟩)
      · exact ⟨n, Nat.lt_succ_self n, Function.update_self ..⟩
      · exact ⟨i, Nat.lt_succ_of_lt hi, by rwa [Function.update_of_ne hi.ne]⟩
    · rintro ⟨i, hi, hslot⟩
      rcases Nat.lt_succ_iff_lt_or_eq.mp hi with hi | rfl
      · rw [Function.update_of_ne hi.ne] at hslot
        exact .inr ⟨i, hi, hslot⟩
      · rw [Function.update_self] at hslot
        cases hslot
        exact .inl rfl
  filled i hi := by
    rw [Function.update_of_ne (by omega)]
    exact h.filled i (by omega)
  le := hn

theorem Lists.mem (h : Lists n table attrs) (hi : i < n) (hslot : table i = some name) :
    name ∈ attrs := (h.mem_iff name).mpr ⟨i, hi, hslot⟩

theorem Lists.replace (h : Lists n table attrs) (hmem : name ∈ attrs) (v : α) :
    Lists n table (attrs.insert name v) where
  isName := h.isName
  mem_iff name' := by
    rw [AList.mem_insert, ← h.mem_iff]
    constructor
    · rintro (rfl | hmem')
      · exact hmem
      · exact hmem'
    · exact .inr
  filled := h.filled
  le := h.le

theorem Lists.remove (h : Lists n table attrs) (hi : i < n) (hslot : table i = some name) :
    Lists n (Function.update table i none) (attrs.erase name) where
  isName k hk name' hslot' := by
    rcases eq_or_ne k i with rfl | hne
    · rw [Function.update_self] at hslot'
      cases hslot'
    · rw [Function.update_of_ne hne] at hslot'
      exact h.isName k hk name' hslot'
  mem_iff name' := by
    rw [AList.mem_erase, h.mem_iff]
    constructor
    · rintro ⟨hne, k, hk, hslot'⟩
      refine ⟨k, hk, ?_⟩
      rw [Function.update_of_ne, hslot']
      rintro rfl
      exact hne (Option.some.inj (hslot'.symm.trans hslot))
    · rintro ⟨k, hk, hslot'⟩
      rcases eq_or_ne k i with rfl | hne
      · rw [Function.update_self] at hslot'
        cases hslot'
      · rw [Function.update_of_ne hne] at hslot'
        refine ⟨?_, k, hk, hslot'⟩
        -- the digits of the two names are of two numbers
        rintro rfl
        exact hne ((h.isName k hk _ hslot').number_eq (h.isName i hi _ hslot) (hk.trans_le h.le)
          (hi.trans_le h.le))
  filled k hk := by
    rw [Function.update_of_ne (by omega)]
    exact h.filled k hk
  le := h.le

end

-- ---------------------------------------------------------------------------
-- Runs
-- ---------------------------------------------------------------------------

structure Inv (eaNums : Nat) (s : State α) : Prop where
  lists : Lists s.made s.table s.attrs
  running : s.phase ≠ .exited
  prepare : ∀ i, s.phase = .prepare i → i < eaNums ∧ s.eaCount = eaNums
  /-- A round that draws finds a slot that is not NULL. -/
  live : ∀ j, s.phase = .rounds j → j % 3 ≠ 0 → ∃ i < s.eaCount, s.table i ≠ none

section
variable {α : Type} {eaNums refNums i j : Nat} {s s' : State α} {call : Call}

theorem made_of_rounds (h : s.phase = .rounds j) : s.made = s.eaCount := by
  rw [State.made, h]

theorem made_prepareFrom (h : s.phase = .prepareFrom eaNums i) (hi : i ≤ eaNums)
    (hcount : s.eaCount = eaNums) : s.made = i := by
  rw [State.made, h]
  unfold Phase.prepareFrom
  split
  · next hphase =>
    split at hphase
    · exact (Phase.prepare.inj hphase).symm
    · cases hphase
  · next hphase =>
    split at hphase
    · next hlt => exact absurd rfl (hphase i)
    · next hge => exact hcount.trans (Nat.le_antisymm (Nat.not_lt.mp hge) hi)

theorem prepareFrom_cases (eaNums i : Nat) :
    (i < eaNums ∧ Phase.prepareFrom eaNums i = .prepare i) ∨
      Phase.prepareFrom eaNums i = .rounds 0 := by
  unfold Phase.prepareFrom
  split
  · next hlt => exact .inl ⟨hlt, rfl⟩
  · exact .inr rfl

theorem Inv.of_prepareFrom (hphase : s.phase = .prepareFrom eaNums i) (hi : i ≤ eaNums)
    (hcount : s.eaCount = eaNums) (h : Lists i s.table s.attrs) : Inv eaNums s where
  lists := by rwa [made_prepareFrom hphase hi hcount]
  running := by
    rw [hphase]
    rcases prepareFrom_cases eaNums i with ⟨-, h⟩ | h <;> simp [h]
  prepare k hk := by
    rcases prepareFrom_cases eaNums i with ⟨hlt, h⟩ | h
    · rw [hphase, h] at hk
      cases hk
      exact ⟨hlt, hcount⟩
    · rw [hphase, h] at hk
      cases hk
  live k hk hne := by
    rcases prepareFrom_cases eaNums i with ⟨-, h⟩ | h
    · rw [hphase, h] at hk
      cases hk
    · rw [hphase, h] at hk
      cases hk
      exact absurd rfl hne

theorem Inv.of_rounds (hphase : s.phase = .rounds j) (h : Lists s.eaCount s.table s.attrs)
    (hlive : j % 3 ≠ 0 → ∃ i < s.eaCount, s.table i ≠ none) : Inv eaNums s where
  lists := by rwa [made_of_rounds hphase]
  running := by simp [hphase]
  prepare i hi := by
    rw [hphase] at hi
    cases hi
  live k hk hne := by
    rw [hphase] at hk
    cases hk
    exact hlive hne

theorem Inv.init (h : Init eaNums s) : Inv eaNums s :=
  .of_prepareFrom h.phase (Nat.zero_le _) h.eaCount (h.attrs ▸ .start h.table)

/-- One call: it is as it should be, it succeeds, and the table still lists the
attributes behind it. -/
theorem Inv.step (h : Inv eaNums s) (hs : Step eaNums refNums s call s') (hmeets : call.Meets s) :
    call.Ok s ∧ Inv eaNums s' := by
  have hlists := h.lists
  cases hs with
  | @prepare i hphase hslot r x v =>
    obtain ⟨hi, hcount⟩ := h.prepare i hphase
    have hmade : s.made = i := by rw [State.made, hphase]
    rw [hmade] at hlists
    have hsix : i < 10 ^ 6 := hmade ▸ hmeets
    have hname := makeName_isName hsix r x
    have hnew := hlists.notMem_of_isName hsix hname
    refine ⟨hnew, ?_⟩
    rw [Xattrs.create_of_notMem hnew]
    exact .of_prepareFrom rfl hi hcount (hlists.create hsix hname v)
  | @add j hphase hj hkind hslot r x v =>
    rw [made_of_rounds hphase] at hlists
    have hsix : s.eaCount < 10 ^ 6 := made_of_rounds hphase ▸ hmeets
    have hname := makeName_isName hsix r x
    have hnew := hlists.notMem_of_isName hsix hname
    refine ⟨hnew, ?_⟩
    rw [Xattrs.create_of_notMem hnew]
    refine .of_rounds rfl (hlists.create hsix hname v) fun _ => ⟨s.eaCount, Nat.lt_succ_self _, ?_⟩
    show Function.update s.table s.eaCount _ s.eaCount ≠ none
    simp
  | @update j i rs name hphase hj hkind hdrawn v =>
    rw [made_of_rounds hphase] at hlists
    have hi := hdrawn.lt hmeets
    have hmem := hlists.mem hi hdrawn.table_eq
    refine ⟨⟨made_of_rounds hphase ▸ hi, hmem⟩, ?_⟩
    rw [Xattrs.replace_of_mem hmem]
    exact .of_rounds rfl (hlists.replace hmem v) fun _ => h.live j hphase (by omega)
  | @remove j i rs name hphase hj hkind hdrawn =>
    rw [made_of_rounds hphase] at hlists
    have hi := hdrawn.lt hmeets
    have hmem := hlists.mem hi hdrawn.table_eq
    refine ⟨⟨made_of_rounds hphase ▸ hi, hmem⟩, ?_⟩
    rw [Xattrs.remove_of_mem hmem]
    exact .of_rounds rfl (hlists.remove hi hdrawn.table_eq) fun hne => absurd hkind (by omega)

theorem inv_of_reachable (h : (system eaNums refNums Call.Meets).Reachable s) : Inv eaNums s :=
  h.invariant (fun _ => Inv.init) fun _ _ _ hinv ⟨_, hmeets, hs⟩ => (hinv.step hs hmeets).2

/-- A run that meets the condition can go on meeting it up to its last round: some draw
is a slot that is not NULL. -/
theorem exists_step (hs : (system eaNums refNums Call.Meets).Reachable s) (v : α)
    (hmore : ∀ j, s.phase = .rounds j → j < refNums) (hsix : s.made < 10 ^ 6) :
    ∃ call s', Step eaNums refNums s call s' ∧ call.Meets s := by
  have hinv := inv_of_reachable hs
  have hdraw {j : Nat} (hphase : s.phase = .rounds j) (hne : j % 3 ≠ 0) :
      ∃ r i name, Drawn s.table s.eaCount [r] i name ∧
        ∀ r' ∈ [r], r'.val % (s.eaCount + 1) ≠ s.eaCount := by
    obtain ⟨k, hk, hslot⟩ := hinv.live j hphase hne
    obtain ⟨name, hname⟩ := Option.ne_none_iff_exists'.mp hslot
    have hcount : s.eaCount < 10 ^ 6 := made_of_rounds hphase ▸ hsix
    have hmod : k % (s.eaCount + 1) = k := Nat.mod_eq_of_lt (by omega)
    have hrand : getRandUl 0 s.eaCount ⟨k, by omega⟩ = k := by
      rw [getRandUl, if_neg (by omega), Nat.zero_add, Nat.sub_zero, hmod]
    refine ⟨⟨k, by omega⟩, _, name, .accept (hrand.symm ▸ hname), fun r' hr' => ?_⟩
    rw [List.mem_singleton.mp hr', hmod]
    exact hk.ne
  cases hphase : s.phase with
  | prepare i =>
    have hmade : s.made = i := by rw [State.made, hphase]
    have hslot : s.table i ≠ none := hinv.lists.filled i hmade.le
    exact ⟨_, _, .prepare hphase hslot 0 (fun _ => 0) v, hsix⟩
  | rounds j =>
    have hj := hmore j hphase
    have hkind : j % 3 = 0 ∨ j % 3 = 1 ∨ j % 3 = 2 := by omega
    rcases hkind with hkind | hkind | hkind
    · have hslot : s.table s.eaCount ≠ none :=
        hinv.lists.filled _ (made_of_rounds hphase).le
      exact ⟨_, _, .add hphase hj hkind hslot 0 (fun _ => 0) v, hsix⟩
    · obtain ⟨r, i, name, hdrawn, hmeets⟩ := hdraw hphase (by omega)
      exact ⟨_, _, .update hphase hj hkind hdrawn v, hmeets⟩
    · obtain ⟨r, i, name, hdrawn, hmeets⟩ := hdraw hphase (by omega)
      exact ⟨_, _, .remove hphase hj hkind hdrawn, hmeets⟩
  | exited => exact absurd hphase hinv.running

end

/-- In a run that never draws the slot behind the last attribute, with attributes of six
digits at most, every call is as it should be. -/
theorem call_ok {α : Type} {eaNums refNums : Nat} {s s' : State α} {call : Call}
    (hs : (system eaNums refNums Call.Meets).Reachable s) (h : Step eaNums refNums s call s')
    (hmeets : call.Meets s) : call.Ok s :=
  ((inv_of_reachable hs).step h hmeets).1

def start : State Unit := ⟨.prepareFrom 1 0, fun _ => some [], 1, ∅⟩

def plainName (no : Nat) : Name := makeName no 0 fun _ => 0

def oneAdded : State Unit :=
  ⟨.rounds 0, Function.update start.table 0 (some (plainName 0)), 1, AList.insert (plainName 0) () ∅⟩

def twoAdded : State Unit :=
  ⟨.rounds 1, Function.update oneAdded.table 1 (some (plainName 1)), 2,
    AList.insert (plainName 1) () oneAdded.attrs⟩

theorem init_start : Init 1 start := ⟨rfl, fun _ => by simp [start], rfl, rfl⟩

theorem plainName_isName {no : Nat} (h : no < 10 ^ 6) :
    IsName no XATTR_NAME_MAX_SZ (plainName no) := makeName_isName h 0 _

theorem lists_oneAdded : Lists 1 oneAdded.table oneAdded.attrs :=
  (Lists.start fun _ => by simp [start]).create (by decide) (plainName_isName (by decide)) ()

theorem lists_twoAdded : Lists 2 twoAdded.table twoAdded.attrs :=
  lists_oneAdded.create (by decide) (plainName_isName (by decide)) ()

theorem step_oneAdded (refNums : Nat) : Step 1 refNums start (.create (plainName 0)) oneAdded := by
  have hnew : makeName 0 0 (fun _ => 0) ∉ start.attrs := by simp [start]
  have h : Step 1 refNums start (.create (plainName 0)) _ :=
    .prepare rfl (by simp [start]) 0 (fun _ => 0) ()
  rwa [Xattrs.create_of_notMem hnew] at h

theorem step_twoAdded {refNums : Nat} (hpos : 0 < refNums) :
    Step 1 refNums oneAdded (.create (plainName 1)) twoAdded := by
  have hnew : makeName oneAdded.eaCount 0 (fun _ => 0) ∉ oneAdded.attrs :=
    lists_oneAdded.notMem_of_isName (by decide) (plainName_isName (by decide))
  have h : Step 1 refNums oneAdded (.create (plainName 1)) _ :=
    .add rfl hpos rfl (lists_oneAdded.filled 1 (Nat.le_refl 1)) 0 (fun _ => 0) ()
  rwa [Xattrs.create_of_notMem hnew] at h

/-- Two attributes have been added and the first has been given a new value. -/
def oneReplaced : State Unit :=
  { twoAdded with phase := .rounds 2, attrs := AList.insert (plainName 0) () twoAdded.attrs }

theorem call_ok_removal : Call.Ok oneReplaced (.remove [1] 1 (plainName 1)) := by
  have hmem : plainName 0 ∈ twoAdded.attrs := lists_twoAdded.mem Nat.zero_lt_two rfl
  have hreplace : Step 1 3 twoAdded (.replace [0] 0 (plainName 0)) oneReplaced := by
    have h : Step 1 3 twoAdded (.replace [0] 0 (plainName 0)) _ :=
      .update rfl (by decide) rfl (.accept rfl) ()
    rwa [Xattrs.replace_of_mem hmem] at h
  have hone : (system 1 3 Call.Meets).Reachable oneAdded := by
    have hmeets : Call.Meets start (.create (plainName 0)) := show (0 : Nat) < 10 ^ 6 by decide
    exact (System.Reachable.init init_start).step ⟨_, hmeets, step_oneAdded 3⟩
  have htwo : (system 1 3 Call.Meets).Reachable twoAdded := by
    have hmeets : Call.Meets oneAdded (.create (plainName 1)) := show (1 : Nat) < 10 ^ 6 by decide
    exact hone.step ⟨_, hmeets, step_twoAdded (by decide)⟩
  have hs : (system 1 3 Call.Meets).Reachable oneReplaced := by
    have hmeets : Call.Meets twoAdded (.replace [0] 0 (plainName 0)) := by
      simp [Call.Meets, twoAdded]
    exact htwo.step ⟨_, hmeets, hreplace⟩
  have hmeets : Call.Meets oneReplaced (.remove [1] 1 (plainName 1)) := by
    simp [Call.Meets, oneReplaced, twoAdded]
  exact call_ok hs (.remove rfl (by decide) rfl (.accept rfl)) hmeets

/-- The first attribute is added, then the second, and the third slot is drawn. -/
theorem third_slot_drawn : ∃ s s' : State Unit, (system 1 2 fun _ _ => True).Reachable s ∧
    Step 1 2 s (.replace [2] 2 []) s' ∧ s.made = 2 ∧ [] ∉ s.attrs ∧
      ¬ Call.Ok s (.replace [2] 2 []) := by
  have hdrawn : Drawn twoAdded.table 2 [2] 2 [] := .accept rfl
  have hstart : (system 1 2 fun (_ : State Unit) _ => True).Reachable start := .init init_start
  refine ⟨twoAdded, _, ?_, .update rfl (by decide) rfl hdrawn (), rfl, fun hmem => ?_, fun h => ?_⟩
  · exact (hstart.step ⟨_, trivial, step_oneAdded 2⟩).step
      ⟨_, trivial, step_twoAdded (by decide)⟩
  · obtain ⟨i, hi, hslot⟩ := (lists_twoAdded.mem_iff []).mp hmem
    exact (lists_twoAdded.isName i hi [] hslot).ne_nil rfl
  · exact absurd h.1 (by decide)

end Ocfs2Test.Reflink.RandomEa
