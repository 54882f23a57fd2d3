import Ocfs2Test.Lib.ByteFile
import Ocfs2Test.Lib.Transition

/-!
# extend_and_write

Parent and child append blocks of one letter each to the same file, and `verify`
reads the file back block by block. A write that does not fail appends what its
status says, all at once; `read` of a regular file stops only at its end.
-/

namespace Ocfs2Test.ExtendAndWrite

open Lib

/-- `off_t` and `loops` of both programs. The bound keeps `2 * off_t * loops` an
`int`. -/
structure Options where
  size : Nat
  loops : Nat
  size_pos : 0 < size
  loops_pos : 0 < loops
  fits : 2 * size * loops < 2 ^ 31

inductive Writer
  | parent
  | child
  deriving DecidableEq

def Writer.letter : Writer → UInt8
  | .parent => 65
  | .child => 66

-- ---------------------------------------------------------------------------
-- The two writers
-- ---------------------------------------------------------------------------

inductive Pc
  /-- At the test of the loop, with the `status` of the last `write`. -/
  | loop (i : Nat) (status : Int)
  | exited (status : Int)

structure State where
  file : ByteFile
  pc : Writer → Pc

def State.goto (s : State) (p : Writer) (pc : Pc) : State :=
  { s with pc := Function.update s.pc p pc }

def State.exited (s : State) (p : Writer) : Bool :=
  match s.pc p with
  | .loop _ _ => false
  | .exited _ => true

section
variable (o : Options)

/-- The file after a `write` that returned `status`. -/
def writeBuffer (f : ByteFile) (p : Writer) (status : Int) : ByteFile :=
  f.append ((List.replicate o.size p.letter).take status.toNat)

/-- A step of `p` in which `write`, if it is called, returns `ret`. -/
def next (s : State) (p : Writer) (ret : Int) : Option State :=
  match s.pc p with
  | .exited _ => none
  | .loop i status =>
    if i < o.loops then
      let s := { s with file := writeBuffer o s.file p ret }
      if ret < 0 then some (s.goto p (.exited ret))
      else if ret ≠ o.size then some (s.goto p (.exited 0))
      else some (s.goto p (.loop (i + 1) ret))
    else
      match p with
      -- `waitpid`
      | .parent => if s.exited .child then some (s.goto .parent (.exited status)) else none
      | .child => some (s.goto .child (.exited status))

def initial : State := ⟨ByteFile.empty, fun _ => .loop 0 0⟩

def writers : ProcSystem Writer State where
  Init s := s = initial
  next s p := next o s p o.size

end

def Finished (s : State) : Prop := ∀ p, s.exited p = true

-- ---------------------------------------------------------------------------
-- verify
-- ---------------------------------------------------------------------------

def checkbuff : List UInt8 → UInt8 → Nat
  | [], _ => 0
  | b :: buffer, c => if b ≠ c then 1 else checkbuff buffer c

/-- The rounds of the loop that are left; `none` once one of them has set `failed`. -/
def verifyLoop (size : Nat) (f : ByteFile) :
    Nat → (pos numas numbs : Nat) → Option (Nat × Nat)
  | 0, _, numas, numbs => some (numas, numbs)
  | n + 1, pos, numas, numbs =>
    let buffer := f.pread size pos
    let pos := pos + buffer.length
    if buffer.length ≠ size then none
    else if buffer.getD 0 0 ≠ 65 ∧ buffer.getD 0 0 ≠ 66 then none
    else if checkbuff buffer (buffer.getD 0 0) ≠ 0 then none
    else if buffer.getD 0 0 = 65 then verifyLoop size f n pos (numas + 1) numbs
    else verifyLoop size f n pos numas (numbs + 1)

def verify (o : Options) (f : ByteFile) : Nat :=
  match verifyLoop o.size f (2 * o.loops) 0 0 0 with
  | none => 1
  | some (numas, numbs) =>
    if numas ≠ numbs ∨ numas < o.loops ∨ numbs < o.loops then 1 else 0

-- ---------------------------------------------------------------------------
-- Blocks
-- ---------------------------------------------------------------------------

def Block (f : ByteFile) (size : Nat) (c : UInt8) (i : Nat) : Prop :=
  ∀ j < size, f.byte (i * size + j) = c

instance : DecidablePred (Block f size c) := fun i =>
  inferInstanceAs (Decidable (∀ j < size, f.byte (i * size + j) = c))

def blocks (f : ByteFile) (size : Nat) (c : UInt8) (i n : Nat) : Nat :=
  (List.range' i n).countP fun k => Block f size c k

section
variable {f : ByteFile} {size i n : Nat} {c : UInt8}

theorem Block.head (h : Block f size c i) (hsize : 0 < size) : f.byte (i * size) = c :=
  h 0 hsize

theorem Block.unique (h : Block f size c i) (h' : Block f size c' i) (hsize : 0 < size) : c = c' :=
  (h.head hsize).symm.trans (h'.head hsize)

theorem blocks_succ : blocks f size c i (n + 1) =
    blocks f size c (i + 1) n + if Block f size c i then 1 else 0 := by
  simp [blocks, List.range'_succ, List.countP_cons]

theorem blocks_last : blocks f size c 0 (n + 1) =
    blocks f size c 0 n + if Block f size c n then 1 else 0 := by
  simp [blocks, ← List.range_eq_range', List.range_succ, List.countP_append, List.countP_cons]

theorem blocks_congr {f' : ByteFile} (h : ∀ i < n, Block f' size c i ↔ Block f size c i) :
    blocks f' size c 0 n = blocks f size c 0 n := by
  refine List.countP_congr fun i hi => ?_
  rw [← List.range_eq_range', List.mem_range] at hi
  simpa using h i hi

theorem blocks_add (hsize : 0 < size) (hne : c ≠ c')
    (h : ∀ k, i ≤ k → k < i + n → Block f size c k ∨ Block f size c' k) :
    blocks f size c i n + blocks f size c' i n = n := by
  induction n generalizing i with
  | zero => rfl
  | succ n ih =>
    have hrest := ih (i := i + 1) fun k hlo hhi => h k (by omega) (by omega)
    rw [blocks_succ, blocks_succ]
    rcases h i (Nat.le_refl i) (by omega) with hi | hi
    · have hi' : ¬ Block f size c' i := fun h' => hne (hi.unique h' hsize)
      rw [if_pos hi, if_neg hi']
      omega
    · have hi' : ¬ Block f size c i := fun h' => hne (h'.unique hi hsize)
      rw [if_pos hi, if_neg hi']
      omega

end

-- ---------------------------------------------------------------------------
-- What verify accepts
-- ---------------------------------------------------------------------------

theorem checkbuff_eq_zero : checkbuff buffer c = 0 ↔ ∀ b ∈ buffer, b = c := by
  induction buffer with
  | nil => simp [checkbuff]
  | cons b buffer ih =>
    rw [checkbuff, List.forall_mem_cons, ← ih]
    split
    · next h => simp [h]
    · next h => simp [not_not.mp h]

section
variable {f : ByteFile} {size i n : Nat} {c : UInt8}

theorem checkbuff_pread (h : (i + 1) * size ≤ f.size) :
    checkbuff (f.pread size (i * size)) c = 0 ↔ Block f size c i := by
  have hlen : min size (f.size - i * size) = size := by
    rw [Nat.succ_mul] at h
    omega
  simp [checkbuff_eq_zero, ByteFile.pread, hlen, Block]

theorem getD_pread (hsize : 0 < size) (h : (i + 1) * size ≤ f.size) :
    (f.pread size (i * size)).getD 0 0 = f.byte (i * size) := by
  have hlen : 0 < (f.pread size (i * size)).length := by
    rw [Nat.succ_mul] at h
    rw [ByteFile.length_pread]
    omega
  rw [List.getD_eq_getElem _ _ hlen, ByteFile.pread_getElem, Nat.add_zero]

theorem verifyLoop_succ (hsize : 0 < size) (f : ByteFile) (n i numas numbs : Nat) :
    verifyLoop size f (n + 1) (i * size) numas numbs =
      if f.size < (i + 1) * size then none
      else if Block f size 65 i then verifyLoop size f n ((i + 1) * size) (numas + 1) numbs
      else if Block f size 66 i then verifyLoop size f n ((i + 1) * size) numas (numbs + 1)
      else none := by
  have hmul := Nat.succ_mul i size
  rw [verifyLoop]
  split
  · next hlen =>
    rw [ByteFile.length_pread] at hlen
    rw [if_pos (by rw [Nat.add_one, hmul]; omega)]
  · next hlen =>
    rw [not_not] at hlen
    have hend : (i + 1) * size ≤ f.size := by
      rw [ByteFile.length_pread] at hlen
      rw [Nat.add_one, hmul]
      omega
    rw [if_neg (Nat.not_lt.mpr hend), getD_pread hsize hend, hlen, ← hmul, ← Nat.add_one]
    simp only [ne_eq, checkbuff_pread hend]
    have hhead {c : UInt8} (h : Block f size c i) : f.byte (i * size) = c := h.head hsize
    by_cases ha : Block f size 65 i
    · simp [ha, hhead ha]
    · by_cases hb : Block f size 66 i
      · simp [hb, hhead hb, ha]
      · rw [if_neg ha, if_neg hb]
        split
        · rfl
        · next hab =>
          rw [if_pos]
          intro hblock
          rcases not_and_or.mp hab with h | h
          · exact ha (not_not.mp h ▸ hblock)
          · exact hb (not_not.mp h ▸ hblock)

/-- The rounds that are left pass exactly if their blocks are there and of one
letter each, and then count them. -/
theorem verifyLoop_eq_some (hsize : 0 < size) (hi : i * size ≤ f.size) (n numas numbs as bs : Nat) :
    verifyLoop size f n (i * size) numas numbs = some (as, bs) ↔
      (i + n) * size ≤ f.size ∧
      (∀ k, i ≤ k → k < i + n → Block f size 65 k ∨ Block f size 66 k) ∧
      as = numas + blocks f size 65 i n ∧ bs = numbs + blocks f size 66 i n := by
  induction n generalizing i numas numbs with
  | zero =>
    simp only [verifyLoop, Option.some.injEq, Prod.mk.injEq, blocks, List.range'_zero,
      List.countP_nil, Nat.add_zero]
    constructor
    · rintro ⟨rfl, rfl⟩
      exact ⟨hi, fun k hlo hhi => by omega, rfl, rfl⟩
    · rintro ⟨-, -, rfl, rfl⟩
      exact ⟨rfl, rfl⟩
  | succ n ih =>
    have ih {numas numbs : Nat} (h : ¬ f.size < (i + 1) * size) :=
      ih (Nat.le_of_not_lt h) numas numbs
    have hstep : i + (n + 1) = i + 1 + n := by omega
    have hsplit : (∀ k, i ≤ k → k < i + (n + 1) → Block f size 65 k ∨ Block f size 66 k) ↔
        (Block f size 65 i ∨ Block f size 66 i) ∧
          ∀ k, i + 1 ≤ k → k < i + 1 + n → Block f size 65 k ∨ Block f size 66 k := by
      constructor
      · exact fun h => ⟨h i (Nat.le_refl i) (by omega), fun k hlo hhi => h k (by omega) (by omega)⟩
      · rintro ⟨hfirst, h⟩ k hlo hhi
        rcases Nat.eq_or_lt_of_le hlo with rfl | hlt
        · exact hfirst
        · exact h k hlt (by omega)
    rw [verifyLoop_succ hsize, blocks_succ, blocks_succ, hsplit, hstep]
    split
    · next hshort =>
      have hmono : (i + 1) * size ≤ (i + 1 + n) * size := Nat.mul_le_mul_right _ (by omega)
      simp only [reduceCtorEq, false_iff]
      rintro ⟨hend, -⟩
      omega
    · next hend =>
      by_cases ha : Block f size 65 i
      · have hb : ¬ Block f size 66 i := fun hb => absurd (ha.unique hb hsize) (by decide)
        rw [if_pos ha, ih hend, if_pos ha, if_neg hb]
        simp only [ha, true_or, true_and]
        grind
      · by_cases hb : Block f size 66 i
        · rw [if_neg ha, if_pos hb, ih hend, if_neg ha, if_pos hb]
          simp only [hb, or_true, true_and]
          grind
        · simp [ha, hb]

end

/-- What the verifier is for: `loops` blocks of each letter, in any order. -/
structure Intact (o : Options) (f : ByteFile) : Prop where
  size : 2 * o.loops * o.size ≤ f.size
  letters : ∀ i < 2 * o.loops, Block f o.size 65 i ∨ Block f o.size 66 i
  numas : blocks f o.size 65 0 (2 * o.loops) = o.loops
  numbs : blocks f o.size 66 0 (2 * o.loops) = o.loops

theorem verify_eq_zero_iff (o : Options) (f : ByteFile) : verify o f = 0 ↔ Intact o f := by
  have hloop := verifyLoop_eq_some (f := f) (i := 0) o.size_pos (by simp) (2 * o.loops) 0 0
  simp only [Nat.zero_mul, Nat.zero_add, Nat.zero_le, true_imp_iff] at hloop
  rw [verify]
  constructor
  · intro h
    split at h
    · simp at h
    · next as bs hsome =>
      obtain ⟨hsize, hletters, rfl, rfl⟩ := (hloop _ _).mp hsome
      have hadd : blocks f o.size 65 0 (2 * o.loops) + blocks f o.size 66 0 (2 * o.loops) = _ :=
        blocks_add o.size_pos (by decide) fun k _ hk => hletters k (by omega)
      split at h
      · simp at h
      · exact ⟨hsize, hletters, by omega, by omega⟩
  · rintro ⟨hsize, hletters, has, hbs⟩
    rw [(hloop o.loops o.loops).mpr ⟨hsize, hletters, has.symm, hbs.symm⟩]
    simp

-- ---------------------------------------------------------------------------
-- What the writers leave
-- ---------------------------------------------------------------------------

section
variable {o : Options} {s s' : State} {p : Writer}

def State.writes (o : Options) (s : State) (p : Writer) : Nat :=
  match s.pc p with
  | .loop i _ => i
  | .exited _ => o.loops

theorem writes_loop (h : s.pc p = .loop i status) : s.writes o p = i := by
  rw [State.writes, h]

theorem writes_exited (h : s.exited p = true) : s.writes o p = o.loops := by
  rw [State.exited] at h
  rw [State.writes]
  split at h
  · cases h
  · rfl

theorem writes_goto_ne (h : q ≠ p) : (s.goto p pc).writes o q = s.writes o q := by
  simp [State.writes, State.goto, Function.update_of_ne h]

theorem next_cases (h : next o s p o.size = some s') :
    ∃ i status, s.pc p = .loop i status ∧
      ((i < o.loops ∧ s' = State.goto { s with file := s.file.append (List.replicate o.size p.letter) }
          p (.loop (i + 1) o.size)) ∨
        (o.loops ≤ i ∧ (p = .parent → s.exited .child = true) ∧ s' = s.goto p (.exited status))) := by
  have hbuf : (List.replicate o.size p.letter).take (o.size : Int).toNat =
      List.replicate o.size p.letter := by simp
  rw [next] at h
  split at h
  · cases h
  · next i status hpc =>
    refine ⟨i, status, hpc, ?_⟩
    split at h
    · next hi =>
      simp only [writeBuffer, hbuf, Int.natCast_nonneg, Int.not_lt.mpr, if_false, ne_eq,
        not_true_eq_false, Option.some.injEq] at h
      exact .inl ⟨hi, h.symm⟩
    · next hi =>
      refine .inr ⟨Nat.le_of_not_lt hi, ?_⟩
      cases p with
      | parent =>
        dsimp only at h
        split at h
        · next hchild => exact ⟨fun _ => hchild, (Option.some.inj h).symm⟩
        · cases h
      | child =>
        dsimp only at h
        exact ⟨nofun, (Option.some.inj h).symm⟩

/-- The file is the writes so far, block after block. -/
structure Appended (o : Options) (s : State) : Prop where
  writes_le : ∀ p, s.writes o p ≤ o.loops
  size : s.file.size = (s.writes o .parent + s.writes o .child) * o.size
  letters : ∀ i < s.writes o .parent + s.writes o .child,
    ∃ p : Writer, Block s.file o.size p.letter i
  count : ∀ p : Writer, blocks s.file o.size p.letter 0
    (s.writes o .parent + s.writes o .child) = s.writes o p

theorem Writer.letter_inj {p q : Writer} : p.letter = q.letter ↔ p = q := by
  cases p <;> cases q <;> decide

theorem block_append {f : ByteFile} (hsize : 0 < size) (hf : f.size = n * size) (hi : i ≤ n) :
    Block (f.append (List.replicate size d)) size c i ↔
      if i = n then c = d else Block f size c i := by
  simp only [Block, ByteFile.byte_append_replicate, hf]
  split
  · next heq =>
    subst heq
    constructor
    · intro h
      simpa [hsize] using (h 0 hsize).symm
    · rintro rfl j hj
      rw [if_pos ⟨by omega, by omega⟩]
  · next hne =>
    have hend : (i + 1) * size ≤ n * size := Nat.mul_le_mul_right _ (by omega)
    rw [Nat.succ_mul] at hend
    refine forall₂_congr fun j hj => ?_
    rw [if_neg (by omega)]

theorem blocks_append {f : ByteFile} (hsize : 0 < size) (hf : f.size = n * size) :
    blocks (f.append (List.replicate size d)) size c 0 (n + 1) =
      blocks f size c 0 n + if c = d then 1 else 0 := by
  have hold : blocks (f.append (List.replicate size d)) size c 0 n = blocks f size c 0 n := by
    refine blocks_congr fun i hi => ?_
    rw [block_append hsize hf (Nat.le_of_lt hi), if_neg (Nat.ne_of_lt hi)]
  rw [blocks_last, hold]
  simp [block_append hsize hf]

theorem Appended.initial : Appended o initial where
  writes_le _ := Nat.zero_le _
  size := by simp [State.writes, ExtendAndWrite.initial, ByteFile.empty]
  letters _ h := by simp [State.writes, ExtendAndWrite.initial] at h
  count _ := rfl

theorem Appended.write (h : Appended o s) (hpc : s.pc p = .loop i status) (hi : i < o.loops) :
    Appended o (State.goto { s with file := s.file.append (List.replicate o.size p.letter) }
      p (.loop (i + 1) o.size)) := by
  have hself : s.writes o p = i := writes_loop hpc
  have hwrites (q : Writer) : State.writes o (State.goto
      { s with file := s.file.append (List.replicate o.size p.letter) } p (.loop (i + 1) o.size)) q =
        s.writes o q + if q = p then 1 else 0 := by
    by_cases hq : q = p
    · subst hq
      simp [State.writes, State.goto, hpc]
    · rw [writes_goto_ne hq, if_neg hq]
      rfl
  have htotal : s.writes o .parent + (if Writer.parent = p then 1 else 0) +
      (s.writes o .child + if Writer.child = p then 1 else 0) =
        s.writes o .parent + s.writes o .child + 1 := by
    cases p <;> simp <;> omega
  constructor
  · intro q
    have := h.writes_le q
    rw [hwrites]
    split
    · next hq =>
      subst hq
      omega
    · omega
  · rw [hwrites, hwrites, htotal, Nat.succ_mul, ← h.size]
    exact ByteFile.size_append_replicate _ _ _
  · rw [hwrites, hwrites, htotal]
    intro k hk
    simp only [State.goto, block_append o.size_pos h.size (Nat.le_of_lt_succ hk)]
    split
    · exact ⟨p, rfl⟩
    · next hne => exact h.letters k (by omega)
  · intro q
    rw [hwrites, hwrites, hwrites, htotal, ← h.count q]
    simp only [State.goto, blocks_append o.size_pos h.size, Writer.letter_inj]

theorem Appended.exit (h : Appended o s) (hpc : s.pc p = .loop i status) (hi : o.loops ≤ i) :
    Appended o (s.goto p (.exited status)) := by
  have hwrites (q : Writer) : (s.goto p (.exited status)).writes o q = s.writes o q := by
    by_cases hq : q = p
    · subst hq
      have hle := h.writes_le q
      rw [writes_loop hpc] at hle ⊢
      rw [writes_exited (by simp [State.exited, State.goto])]
      omega
    · exact writes_goto_ne hq
  constructor
  · intro q
    rw [hwrites]
    exact h.writes_le q
  · rw [hwrites, hwrites]
    exact h.size
  · rw [hwrites, hwrites]
    exact h.letters
  · intro q
    rw [hwrites, hwrites, hwrites]
    exact h.count q

theorem Appended.step (h : Appended o s) (hs : next o s p o.size = some s') : Appended o s' := by
  obtain ⟨i, status, hpc, ⟨hi, rfl⟩ | ⟨hi, -, rfl⟩⟩ := next_cases hs
  · exact h.write hpc hi
  · exact h.exit hpc hi

theorem Appended.reachable (h : (writers o).system.Reachable s) : Appended o s := by
  refine h.invariant ?_ ?_
  · rintro _ rfl
    exact .initial
  · rintro s s' - ih ⟨p, hs⟩
    exact ih.step hs

theorem Appended.intact (h : Appended o s) (hdone : Finished s) : Intact o s.file := by
  have hwrites (p : Writer) : s.writes o p = o.loops := writes_exited (hdone p)
  obtain ⟨-, hsize, hletters, hcount⟩ := h
  simp only [hwrites, ← Nat.two_mul] at hsize hletters hcount
  refine ⟨hsize.ge, fun i hi => ?_, hcount .parent, hcount .child⟩
  obtain ⟨p, hp⟩ := hletters i hi
  cases p with
  | parent => exact .inl hp
  | child => exact .inr hp

theorem not_deadlocked (o : Options) (s : State) : ¬ (writers o).system.Deadlocked Finished s := by
  rw [ProcSystem.deadlocked_iff]
  rintro ⟨hnot, hstuck⟩
  have hstep {p : Writer} {i : Nat} {status : Int} (hpc : s.pc p = .loop i status)
      (hwait : p = .parent → s.exited .child = true) : False := by
    have hnone := hstuck p
    simp only [writers, next, hpc] at hnone
    cases p with
    | parent =>
      simp only [hwait rfl, if_true] at hnone
      repeat' split at hnone
      all_goals cases hnone
    | child =>
      simp only at hnone
      repeat' split at hnone
      all_goals cases hnone
  have hexited (p : Writer) (hwait : p = .parent → s.exited .child = true) : s.exited p = true := by
    cases hpc : s.pc p with
    | loop i status => exact (hstep hpc hwait).elim
    | exited status => simp [State.exited, hpc]
  have hchild := hexited .child nofun
  apply hnot
  rintro (_ | _)
  · exact hexited .parent fun _ => hchild
  · exact hchild

/-- Whatever the order of the writes, the file they leave is accepted; and what is
accepted starts with `loops` blocks of each letter. -/
theorem verify_accepts (o : Options) :
    (∀ s, (writers o).system.Reachable s → Finished s → verify o s.file = 0) ∧
      ∀ f, verify o f = 0 ↔ Intact o f := by
  refine ⟨fun s hs hdone => ?_, verify_eq_zero_iff o⟩
  rw [verify_eq_zero_iff]
  exact (Appended.reachable hs).intact hdone

end

-- ---------------------------------------------------------------------------
-- A run
-- ---------------------------------------------------------------------------

def oneByte : Options := ⟨1, 1, Nat.one_pos, Nat.one_pos, by decide⟩

theorem reachable_next (h : (writers o).system.Reachable s) (p : Writer)
    (hs : next o s p o.size = some s') : (writers o).system.Reachable s' :=
  h.step ⟨p, hs⟩

theorem verify_accepts_childFirst :
    ∃ s, (writers oneByte).system.Reachable s ∧ Finished s ∧ s.file.pread 2 0 = [66, 65] ∧
      verify oneByte s.file = 0 := by
  have h := System.Reachable.init (S := (writers oneByte).system) rfl
  have h := reachable_next h .child rfl
  have h := reachable_next h .parent rfl
  have h := reachable_next h .child rfl
  have h := reachable_next h .parent rfl
  refine ⟨_, h, ?_, rfl, (verify_accepts oneByte).1 _ h ?_⟩ <;> rintro (_ | _) <;> rfl

end Ocfs2Test.ExtendAndWrite
