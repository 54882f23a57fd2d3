import Ocfs2Test.DirectIO.Multi

/-!
# Where multi_directio_test ends

With two ranks or more nobody comes past the second barrier: the ranks other
than the root verify the file that was just prepared, find it right, and abort
because `fd` is what `should_exit` is given.
-/

namespace Ocfs2Test.DirectIO.Multi

open Lib Lib.Stdio Chunks

-- ---------------------------------------------------------------------------
-- The root alone
-- ---------------------------------------------------------------------------

def Pc.Other : Pc → Prop
  | .verifyFirst | .verify | .aborted => True
  | _ => False

section
variable {c : Config} {s s' : State c} {p q : Fin c.size}

@[simp] theorem setProc_self (x : Proc) : (s.setProc p x).procs p = x := Function.update_self ..

theorem setProc_of_ne (x : Proc) (h : q ≠ p) : (s.setProc p x).procs q = s.procs q :=
  Function.update_of_ne h _ _

theorem procs_step_of_ne (hstep : Step c p s s') (h : q ≠ p) : s'.procs q = s.procs q := by
  cases hstep <;> simp only [setProc_of_ne _ h]

theorem shouldExit_of_nonneg {ret : Int} (h : 0 ≤ ret) (pc : Pc) : shouldExit ret pc = pc :=
  if_neg (by omega)

theorem root_step (hroot : isRoot p = true) (h : ¬ (s.procs p).pc.Other) (hstep : Step c p s s') :
    ¬ (s'.procs p).pc.Other := by
  cases hstep with
  | @leave b hpc hopen =>
    simp only [hroot, setProc_self]
    cases b <;> simp [afterSync, Pc.Other]
  | verifyFirst hpc hret | verify hpc hret =>
    rw [hpc] at h
    exact absurd trivial h
  | openFile hpc fd =>
    rw [setProc_self, shouldExit_of_nonneg (Int.natCast_nonneg fd)]
    simp [Pc.Other]
  | roundEnd hpc =>
    rw [setProc_self]
    dsimp only
    split <;> simp [Pc.Other]
  | start hpc hlt => simp [hroot, startRound, Pc.Other]
  | prepared hpc hge => simp [shouldExit, Pc.Other]
  | write hpc => simp [shouldExit, CHUNK_SIZE, Pc.Other]
  | _ => simp [Pc.Other]

theorem root_reachable (hreach : (multiDirectio c).Reachable s) (hroot : isRoot p = true) :
    ¬ (s.procs p).pc.Other := by
  refine hreach.invariant (P := fun s => ¬ (s.procs p).pc.Other) ?_ fun s s' _ hinv hstep => ?_
  · rintro s ⟨clock, file, rfl⟩
    simp [init, Pc.Other]
  · obtain ⟨q, hstep⟩ := hstep
    by_cases hq : p = q
    · subst hq
      exact root_step hroot hinv hstep
    · rw [procs_step_of_ne hstep hq]
      exact hinv

end

-- ---------------------------------------------------------------------------
-- Two ranks or more
-- ---------------------------------------------------------------------------

/-- The loop of `prep_orig_file_in_chunks` comes to an end. -/
def Config.Bounded (c : Config) : Prop := c.fileSize.toNat + CHUNK_SIZE ≤ 2 ^ 64

structure Prepared (c : Config) (n : Nat) (f : ByteFile) : Prop where
  full : n * CHUNK_SIZE ≤ f.size
  chunks : ∀ i < n, Plausible c.endian CHUNK_SIZE i (chunkAt f CHUNK_SIZE i)

structure Preparing (c : Config) (offset chunkNo : UInt64) (f : ByteFile) : Prop where
  multiple : offset.toNat % CHUNK_SIZE = 0
  upTo : c.Bounded → offset.toNat = chunkNo.toNat * CHUNK_SIZE ∧ Prepared c chunkNo.toNat f

/-- The calls of `MPI_Barrier` that a rank has begun and those it has returned
from, up to the second one. -/
def Pc.calls : Pc → Nat × Nat
  | .wait .prepared => (1, 0)
  | .verifyFirst | .openFile | .call .opened | .aborted => (1, 1)
  | .wait .opened => (2, 1)
  | _ => (0, 0)

def RootOk (c : Config) (roundNo : Nat) (f : ByteFile) : Pc → Prop
  | .round => roundNo = 0
  | .done => True
  | .prep offset chunkNo => Preparing c offset chunkNo f
  | .call .prepared | .wait .prepared | .openFile | .call .opened | .wait .opened =>
    c.Bounded ∧ Prepared c c.numChunks f
  | _ => False

def OtherOk (c : Config) (roundNo : Nat) : Pc → Prop
  | .round => roundNo = 0
  | .done => True
  | .call .prepared | .wait .prepared | .verifyFirst | .aborted => 0 < c.numIterations.toNat
  | _ => False

def Counted (s : State c) (p : Fin c.size) : Prop :=
  s.barrier.entered p = (s.procs p).pc.calls.1 ∧ s.barrier.left p = (s.procs p).pc.calls.2

structure Inv (c : Config) (s : State c) : Prop where
  synced : s.barrier.Synced
  counted : ∀ p, Counted s p
  written : s.written = []
  root : ∀ p, isRoot p = true → RootOk c (s.procs p).roundNo s.file (s.procs p).pc
  other : ∀ p, isRoot p = false → OtherOk c (s.procs p).roundNo (s.procs p).pc
  locals : ∀ p, isRoot p = false → (s.procs p).fd = -1 ∧ (s.procs p).wus = initTable

section
variable {c : Config} {s s' : State c} {p q : Fin c.size} {f : ByteFile}

theorem root_unique (hp : isRoot p = true) (hq : isRoot q = true) : q = p := by
  simp only [isRoot, beq_iff_eq] at hp hq
  exact Fin.ext (hq.trans hp.symm)

theorem calls_le_one (h : OtherOk c roundNo pc) : pc.calls.1 ≤ 1 := by
  unfold OtherOk at h
  split at h <;> first | decide | exact h.elim

theorem RootOk.prepared (h : RootOk c roundNo f pc) (hpos : 0 < pc.calls.1) :
    c.Bounded ∧ Prepared c c.numChunks f := by
  unfold Pc.calls at hpos
  split at hpos <;> first | exact h | exact h.elim | exact absurd hpos (Nat.lt_irrefl 0)

theorem Preparing.write (h : Preparing c offset chunkNo f) (hlt : offset < c.fileSize) (r : Rand)
    (t : Micros) : Preparing c (offset + UInt64.ofNat CHUNK_SIZE) (chunkNo + 1)
      (c.writeChunk f (c.prepUnit chunkNo r t)) := by
  refine ⟨?_, fun hb => ?_⟩
  · have hmul := h.multiple
    rw [UInt64.toNat_add]
    simp only [CHUNK_SIZE, UInt64.toNat_ofNat'] at *
    omega
  · obtain ⟨hoff, hprep⟩ := h.upTo hb
    have hlt' : offset.toNat < c.fileSize.toNat := hlt
    simp only [Config.Bounded, CHUNK_SIZE] at hb hoff
    have hno : (c.prepUnit chunkNo r t).chunkNo = chunkNo := rfl
    have hoff' : CHUNK_SIZE * (c.prepUnit chunkNo r t).chunkNo.toNat < 2 ^ 64 := by
      simp only [CHUNK_SIZE, hno]
      omega
    have hnext : (chunkNo + 1).toNat = chunkNo.toNat + 1 := by
      rw [UInt64.toNat_add]
      simp only [UInt64.toNat_one]
      omega
    refine ⟨?_, ?_, fun i hi => ?_⟩
    · rw [UInt64.toNat_add, hnext]
      simp only [CHUNK_SIZE, UInt64.toNat_ofNat']
      omega
    · rw [Config.writeChunk, size_doWriteChunk (by decide) hoff', hnext, hno]
      exact Nat.le_max_right _ _
    · rw [Config.writeChunk, chunkAt_doWriteChunk (by decide) hoff', hno]
      split
      · next heq =>
        refine plausible_pattern (by decide) ?_
        rw [hno, heq, UInt64.ofNat_toNat]
      · next hne => exact hprep.chunks i (by omega)

theorem Preparing.finish (h : Preparing c offset chunkNo f) (hge : c.fileSize ≤ offset) :
    c.Bounded ∧ Prepared c c.numChunks f := by
  have hge' : c.fileSize.toNat ≤ offset.toNat := hge
  have hb : c.Bounded := by
    have := h.multiple
    have := offset.toNat_lt
    simp only [Config.Bounded, CHUNK_SIZE] at *
    omega
  obtain ⟨hoff, hprep⟩ := h.upTo hb
  have hle : c.numChunks ≤ chunkNo.toNat := by
    simp only [Config.numChunks, CHUNK_SIZE] at *
    omega
  exact ⟨hb, Nat.le_trans (Nat.mul_le_mul_right _ hle) hprep.full,
    fun i hi => hprep.chunks i (by omega)⟩

theorem root_ok_step (hinv : Inv c s) (hroot : isRoot p = true) (hq : isRoot q = false)
    (hstep : Step c p s s') :
    RootOk c (s'.procs p).roundNo s'.file (s'.procs p).pc ∧ Counted s' p := by
  have h := hinv.root p hroot
  have hcount := hinv.counted p
  unfold Counted at hcount ⊢
  cases hstep with
  | start hpc hlt =>
    rw [hpc] at hcount
    simp only [hroot, setProc_self, startRound, if_true]
    exact ⟨⟨rfl, fun _ => ⟨rfl, by simp, by simp⟩⟩, hcount⟩
  | finish hpc hge =>
    rw [hpc] at hcount
    rw [setProc_self]
    exact ⟨trivial, hcount⟩
  | prepChunk hpc hlt r t ht =>
    rw [hpc] at h hcount
    rw [setProc_self]
    exact ⟨h.write hlt r t, by simpa only [Pc.calls, State.setProc] using hcount⟩
  | prepared hpc hge =>
    rw [hpc] at h hcount
    rw [setProc_self, shouldExit_of_nonneg (Int.le_refl 0)]
    exact ⟨h.finish hge, hcount⟩
  | @enter b hpc =>
    rw [hpc] at h hcount
    simp only [setProc_self, Barrier.enter, Function.update_self]
    cases b with
    | prepared | opened => exact ⟨h, by rw [hcount.1]; rfl, hcount.2⟩
    | _ => exact h.elim
  | @leave b hpc hopen =>
    rw [hpc] at h hcount
    simp only [setProc_self, Barrier.leave, Function.update_self, hroot]
    cases b with
    | prepared => exact ⟨h, hcount.1, by rw [hcount.2]; rfl⟩
    | opened =>
      -- some other rank has not begun this call
      have hone := calls_le_one (hinv.other q hq)
      have hle := hopen q
      rw [hcount.1, (hinv.counted q).1] at hle
      exact absurd (Nat.le_trans hle hone) (by decide)
    | _ => exact h.elim
  | openFile hpc fd =>
    rw [hpc] at h hcount
    rw [setProc_self, shouldExit_of_nonneg (Int.natCast_nonneg fd)]
    exact ⟨h, hcount⟩
  | verifyFirst hpc | loop hpc | loopEnd hpc | draw hpc | write hpc | send hpc | sent hpc | recv hpc
  | verify hpc | roundEnd hpc =>
    rw [hpc] at h
    exact h.elim

/-- A step of any other rank, which ends where `should_exit` tests `fd`. -/
theorem other_ok_step (hinv : Inv c s) (hother : isRoot p = false) (hstep : Step c p s s') :
    OtherOk c (s'.procs p).roundNo (s'.procs p).pc ∧ Counted s' p := by
  have h := hinv.other p hother
  have hcount := hinv.counted p
  unfold Counted at hcount ⊢
  cases hstep with
  | start hpc hlt =>
    rw [hpc] at hcount
    simp only [hother, setProc_self, startRound]
    exact ⟨Nat.zero_lt_of_lt hlt, hcount⟩
  | finish hpc hge =>
    rw [hpc] at hcount
    rw [setProc_self]
    exact ⟨trivial, hcount⟩
  | @enter b hpc =>
    rw [hpc] at h hcount
    simp only [setProc_self, Barrier.enter, Function.update_self]
    cases b with
    | prepared => exact ⟨h, by rw [hcount.1]; rfl, hcount.2⟩
    | _ => exact h.elim
  | @leave b hpc hopen =>
    rw [hpc] at h hcount
    simp only [setProc_self, Barrier.leave, Function.update_self, hother]
    cases b with
    | prepared => exact ⟨h, hcount.1, by rw [hcount.2]; rfl⟩
    | _ => exact h.elim
  | verifyFirst hpc hret =>
    rw [hpc] at h hcount
    simp only [setProc_self, (hinv.locals p hother).1]
    exact ⟨h, hcount⟩
  | prepChunk hpc | prepared hpc | openFile hpc | loop hpc | loopEnd hpc | draw hpc | write hpc
  | send hpc | sent hpc | recv hpc | verify hpc | roundEnd hpc =>
    rw [hpc] at h
    exact h.elim

theorem barrier_step_of_ne (hstep : Step c p s s') (h : q ≠ p) :
    s'.barrier.entered q = s.barrier.entered q ∧ s'.barrier.left q = s.barrier.left q := by
  cases hstep <;>
    simp [State.setProc, Barrier.enter, Barrier.leave, Function.update_of_ne h]

theorem synced_step (hinv : Inv c s) (hstep : Step c p s s') : s'.barrier.Synced := by
  cases hstep with
  | enter hpc => exact hinv.synced.enter
  | @leave b hpc hopen =>
    refine hinv.synced.leave ?_ hopen
    have hcount := hinv.counted p
    have hroot := hinv.root p
    have hother := hinv.other p
    rw [Counted, hpc] at hcount
    rw [hcount.1, hcount.2]
    rw [hpc] at hroot hother
    cases b with
    | prepared | opened => decide
    | _ =>
      cases hr : isRoot p with
      | true => exact (hroot hr).elim
      | false => exact (hother hr).elim
  | _ => exact hinv.synced

theorem file_step (hinv : Inv c s) (hother : isRoot p = false) (hstep : Step c p s s') :
    s'.file = s.file ∧ s'.written = s.written := by
  have h := hinv.other p hother
  cases hstep with
  | start hpc hlt => simp [hother, State.setProc]
  | prepChunk hpc | write hpc =>
    rw [hpc] at h
    exact h.elim
  | _ => exact ⟨rfl, rfl⟩

theorem locals_step (hinv : Inv c s) (hother : isRoot p = false) (hstep : Step c p s s') :
    (s'.procs p).fd = -1 ∧ (s'.procs p).wus = initTable := by
  have h := hinv.other p hother
  have hlocals := hinv.locals p hother
  cases hstep with
  | start hpc hlt =>
    rw [setProc_self]
    exact ⟨rfl, hlocals.2⟩
  | @leave b hpc hopen =>
    rw [setProc_self, hother]
    cases b <;> exact hlocals
  | openFile hpc | write hpc | recv hpc =>
    rw [hpc] at h
    exact h.elim
  | _ =>
    rw [setProc_self]
    exact hlocals

theorem written_step (hinv : Inv c s) (hroot : isRoot p = true) (hstep : Step c p s s') :
    s'.written = [] := by
  have h := hinv.root p hroot
  cases hstep with
  | start hpc hlt => simp [hroot]
  | write hpc =>
    rw [hpc] at h
    exact h.elim
  | _ => exact hinv.written

theorem inv_step (h1 : 1 < c.size) (hinv : Inv c s) (hstep : Step c p s s') : Inv c s' := by
  have hkeep {q : Fin c.size} (hq : q ≠ p) : Counted s' q := by
    have hcount := hinv.counted q
    obtain ⟨hent, hleft⟩ := barrier_step_of_ne hstep hq
    rw [Counted] at hcount ⊢
    rwa [procs_step_of_ne hstep hq, hent, hleft]
  have hsynced := synced_step hinv hstep
  cases hp : isRoot p with
  | true =>
    obtain ⟨hok, hcount⟩ := root_ok_step (q := ⟨1, h1⟩) hinv hp rfl hstep
    have hne {q : Fin c.size} (hq : isRoot q = false) : q ≠ p := by
      rintro rfl
      rw [hp] at hq
      cases hq
    refine ⟨hsynced, fun q => ?_, written_step hinv hp hstep, fun q hq => ?_, fun q hq => ?_,
      fun q hq => ?_⟩
    · by_cases hqp : q = p
      · exact hqp ▸ hcount
      · exact hkeep hqp
    · rw [root_unique hp hq]
      exact hok
    · rw [procs_step_of_ne hstep (hne hq)]
      exact hinv.other q hq
    · rw [procs_step_of_ne hstep (hne hq)]
      exact hinv.locals q hq
  | false =>
    obtain ⟨hok, hcount⟩ := other_ok_step hinv hp hstep
    obtain ⟨hfile, hwritten⟩ := file_step hinv hp hstep
    refine ⟨hsynced, fun q => ?_, hwritten.trans hinv.written, fun q hq => ?_, fun q hq => ?_,
      fun q hq => ?_⟩
    · by_cases hqp : q = p
      · exact hqp ▸ hcount
      · exact hkeep hqp
    · have hqp : q ≠ p := by
        rintro rfl
        rw [hp] at hq
        cases hq
      rw [procs_step_of_ne hstep hqp, hfile]
      exact hinv.root q hq
    · by_cases hqp : q = p
      · exact hqp ▸ hok
      · rw [procs_step_of_ne hstep hqp]
        exact hinv.other q hq
    · by_cases hqp : q = p
      · exact hqp ▸ locals_step hinv hp hstep
      · rw [procs_step_of_ne hstep hqp]
        exact hinv.locals q hq

theorem inv_reachable (h1 : 1 < c.size) (h : (multiDirectio c).Reachable s) : Inv c s := by
  refine h.invariant ?_ fun s s' _ hinv hstep => ?_
  · rintro s ⟨clock, file, rfl⟩
    exact ⟨Barrier.synced_start, fun _ => ⟨rfl, rfl⟩, rfl, fun _ _ => rfl, fun _ _ => rfl,
      fun _ _ => ⟨rfl, rfl⟩⟩
  · obtain ⟨p, hstep⟩ := hstep
    exact inv_step h1 hinv hstep

-- ---------------------------------------------------------------------------
-- The verification that is done
-- ---------------------------------------------------------------------------

theorem verifyFile_prepared (h : Prepared c c.numChunks f) :
    c.verifyFile initTable f = .returns 0 := by
  refine (verifyFrom_eq_zero (by decide) (DirectioUtils.readsFile f).failed).mpr fun k _ hk _ => ?_
  have hk : k < c.numChunks := by
    rw [Nat.zero_add] at hk
    exact hk
  have hfull : (k + 1) * CHUNK_SIZE ≤ f.size := Nat.le_trans (Nat.mul_le_mul_right _ hk) h.full
  exact ⟨_, _, DirectioUtils.doReadChunk_full hfull, h.chunks k hk⟩

theorem Inv.prepared (hinv : Inv c s) (h1 : 1 < c.size) (hleft : 0 < s.barrier.left p) :
    c.Bounded ∧ Prepared c c.numChunks s.file := by
  let r : Fin c.size := ⟨0, by omega⟩
  have hroot := hinv.root r rfl
  have hentered := hinv.synced p r
  rw [(hinv.counted r).1] at hentered
  exact hroot.prepared (Nat.lt_of_lt_of_le hleft hentered)

theorem agrees_of_inv (h1 : 1 < c.size) (hinv : Inv c s) : Agrees c s := by
  intro p hp hverifies
  have hother := hinv.other p hp
  have hcount := hinv.counted p
  rw [(hinv.locals p hp).2, hinv.written]
  rcases hverifies with hpc | hpc
  · rw [Counted, hpc] at hcount
    refine ⟨fun i _ => .inr ⟨by simp, rfl⟩, verifyFile_prepared (hinv.prepared h1 (p := p) ?_).2⟩
    rw [hcount.2]
    decide
  · rw [hpc] at hother
    exact hother.elim

theorem agrees_reachable (h : (multiDirectio c).Reachable s) : Agrees c s := by
  by_cases h1 : 1 < c.size
  · exact agrees_of_inv h1 (inv_reachable h1 h)
  · intro p hp
    have hroot : isRoot p = true := by
      have := p.isLt
      simp only [isRoot, beq_iff_eq]
      omega
    rw [hroot] at hp
    cases hp

-- ---------------------------------------------------------------------------
-- The abort
-- ---------------------------------------------------------------------------

theorem aborted_needs (hreach : (multiDirectio c).Reachable s) (hpc : (s.procs p).pc = .aborted) :
    1 < c.size ∧ 0 < c.numIterations.toNat ∧ c.Bounded := by
  cases hp : isRoot p with
  | true =>
    have hroot := root_reachable hreach hp
    rw [hpc] at hroot
    exact absurd trivial hroot
  | false =>
    have h1 : 1 < c.size := by
      have := p.isLt
      simp only [isRoot, beq_eq_false_iff_ne] at hp
      omega
    have hinv := inv_reachable h1 hreach
    have hother := hinv.other p hp
    have hcount := hinv.counted p
    rw [hpc] at hother
    rw [Counted, hpc] at hcount
    refine ⟨h1, hother, (hinv.prepared h1 (p := p) ?_).1⟩
    rw [hcount.2]
    decide

theorem prep_run (hb : c.Bounded) (hreach : (multiDirectio c).Reachable s)
    (hpc : (s.procs p).pc = .prep offset chunkNo) (hn : c.fileSize.toNat ≤ offset.toNat + n) :
    ∃ s', (multiDirectio c).Reachable s' ∧ (s'.procs p).pc = .call .prepared ∧
      ∀ q, q ≠ p → s'.procs q = s.procs q := by
  induction n generalizing s offset chunkNo with
  | zero =>
    refine ⟨_, hreach.step ⟨p, .prepared hpc hn⟩, ?_, fun q hq => setProc_of_ne _ hq⟩
    rw [setProc_self]
    rfl
  | succ n ih =>
    by_cases hge : c.fileSize ≤ offset
    · refine ⟨_, hreach.step ⟨p, .prepared hpc hge⟩, ?_, fun q hq => setProc_of_ne _ hq⟩
      rw [setProc_self]
      rfl
    · have hlt := UInt64.not_le.mp hge
      have hlt' : offset.toNat < c.fileSize.toNat := hlt
      have hstep := Step.prepChunk hpc hlt 0 s.clock (Nat.le_refl _)
      have hnext : c.fileSize.toNat ≤ (offset + UInt64.ofNat CHUNK_SIZE).toNat + n := by
        rw [UInt64.toNat_add]
        simp only [Config.Bounded, CHUNK_SIZE, UInt64.toNat_ofNat'] at *
        omega
      obtain ⟨s', hreach', hpc', hsame⟩ :=
        ih (hreach.step ⟨p, hstep⟩) (by rw [setProc_self]) hnext
      exact ⟨s', hreach', hpc', fun q hq => (hsame q hq).trans (procs_step_of_ne hstep hq)⟩

theorem arrive (h1 : 1 < c.size) (hi : 0 < c.numIterations.toNat)
    (hreach : (multiDirectio c).Reachable s) (hp : isRoot p = false)
    (hpc : (s.procs p).pc = .round) :
    ∃ s', (multiDirectio c).Reachable s' ∧ (s'.procs p).pc = .wait .prepared ∧
      ∀ q, q ≠ p → s'.procs q = s.procs q := by
  have hround := (inv_reachable h1 hreach).other p hp
  rw [hpc] at hround
  have hstart := Step.start hpc (by rw [show (s.procs p).roundNo = 0 from hround]; exact hi)
  have hcall : ((s.setProc p (startRound (isRoot p) (s.procs p))).procs p).pc = .call .prepared := by
    rw [setProc_self, hp]
    rfl
  have henter := Step.enter (c := c) (p := p)
    (s := { s.setProc p (startRound (isRoot p) (s.procs p)) with
      written := if isRoot p then [] else s.written }) hcall
  refine ⟨_, (hreach.step ⟨p, hstart⟩).step ⟨p, henter⟩, ?_, fun q hq => ?_⟩
  · rw [setProc_self]
  · rw [procs_step_of_ne henter hq, procs_step_of_ne hstart hq]

theorem gather (h1 : 1 < c.size) (hi : 0 < c.numIterations.toNat) (hk : k ≤ c.size) :
    ∃ s, (multiDirectio c).Reachable s ∧ ∀ p,
      (s.procs p).pc = if isRoot p = false ∧ p.val < k then .wait .prepared else .round := by
  induction k with
  | zero =>
    exact ⟨_, System.Reachable.init ⟨0, ByteFile.empty, rfl⟩, fun p => by simp [init]⟩
  | succ k ih =>
    obtain ⟨s, hreach, hpcs⟩ := ih (by omega)
    let p : Fin c.size := ⟨k, hk⟩
    have hval {q : Fin c.size} (hq : q ≠ p) : q.val < k + 1 ↔ q.val < k := by
      have : q.val ≠ k := fun heq => hq (Fin.ext heq)
      omega
    cases hp : isRoot p with
    | true =>
      refine ⟨s, hreach, fun q => ?_⟩
      rw [hpcs q]
      by_cases hq : q = p
      · simp [hq, hp]
      · simp only [hval hq]
    | false =>
      have hpc := hpcs p
      rw [if_neg (by simp [p])] at hpc
      obtain ⟨s', hreach', hpc', hsame⟩ := arrive h1 hi hreach hp hpc
      refine ⟨s', hreach', fun q => ?_⟩
      by_cases hq : q = p
      · subst hq
        rw [hpc', if_pos ⟨hp, Nat.lt_succ_self k⟩]
      · rw [hsame q hq, hpcs q]
        simp only [hval hq]

theorem all_wait (h1 : 1 < c.size) (hi : 0 < c.numIterations.toNat) (hb : c.Bounded) :
    ∃ s, (multiDirectio c).Reachable s ∧ ∀ p, (s.procs p).pc = .wait .prepared := by
  obtain ⟨s, hreach, hpcs⟩ := gather h1 hi (Nat.le_refl c.size)
  let r : Fin c.size := ⟨0, by omega⟩
  have hround : (s.procs r).pc = .round := (hpcs r).trans (if_neg (by simp [r, isRoot]))
  have hzero := (inv_reachable h1 hreach).root r rfl
  rw [hround] at hzero
  have hstart := Step.start hround (by rw [show (s.procs r).roundNo = 0 from hzero]; exact hi)
  obtain ⟨s', hreach', hpc', hsame⟩ := prep_run hb (hreach.step ⟨r, hstart⟩)
    (by rw [setProc_self]; rfl) (Nat.le_add_left c.fileSize.toNat _)
  have henter := Step.enter hpc'
  refine ⟨_, hreach'.step ⟨r, henter⟩, fun q => ?_⟩
  by_cases hq : q = r
  · rw [hq, setProc_self]
  · have hother : isRoot q = false := by
      simp only [isRoot, beq_eq_false_iff_ne]
      exact fun heq => hq (Fin.ext heq)
    rw [procs_step_of_ne henter hq, hsame q hq, procs_step_of_ne hstart hq, hpcs q,
      if_pos ⟨hother, q.isLt⟩]

theorem abort_reachable (h1 : 1 < c.size) (hi : 0 < c.numIterations.toNat) (hb : c.Bounded) :
    ∃ s, (multiDirectio c).Reachable s ∧ ¬ NoAbort s := by
  obtain ⟨s, hreach, hpcs⟩ := all_wait h1 hi hb
  have hinv := inv_reachable h1 hreach
  let p : Fin c.size := ⟨1, h1⟩
  have hopen : s.barrier.Open p := by
    intro q
    rw [(hinv.counted p).1, (hinv.counted q).1, hpcs p, hpcs q]
  have hreach' := hreach.step ⟨p, .leave (hpcs p) hopen⟩
  have hinv' := inv_reachable h1 hreach'
  have hpc' : ((s.setProc p (afterSync (isRoot p) (s.procs p) .prepared)).procs p).pc =
      .verifyFirst := by
    rw [setProc_self]
    rfl
  have hret := (agrees_of_inv h1 hinv' p rfl (.inl hpc')).2
  have hfd := (hinv'.locals p rfl).1
  refine ⟨_, hreach'.step ⟨p, .verifyFirst hpc' hret⟩, fun hno => hno p ?_⟩
  rw [setProc_self, hfd]
  rfl

end

/-- The ranks verify what they should and none aborts exactly when there is only
the root, nothing to run, or a file too large for the preparation to end. -/
theorem multiDirectio_correct_iff (c : Config) :
    (∀ s, (multiDirectio c).Reachable s → Agrees c s ∧ NoAbort s) ↔
      c.size ≤ 1 ∨ c.numIterations = 0 ∨ 2 ^ 64 < c.fileSize.toNat + CHUNK_SIZE := by
  have hiters : c.numIterations = 0 ↔ c.numIterations.toNat = 0 := by
    rw [← UInt64.toNat_inj]
    rfl
  constructor
  · intro h
    refine Classical.byContradiction fun hcond => ?_
    simp only [not_or, hiters] at hcond
    obtain ⟨h1, hi, hb⟩ := hcond
    obtain ⟨s, hreach, habort⟩ := abort_reachable (Nat.lt_of_not_le h1) (Nat.pos_of_ne_zero hi)
      (Nat.le_of_not_lt hb)
    exact habort (h s hreach).2
  · intro hcond s hreach
    refine ⟨agrees_reachable hreach, fun p hpc => ?_⟩
    obtain ⟨h1, hi, hb⟩ := aborted_needs hreach hpc
    rw [hiters, Config.Bounded] at *
    omega

def twoRanks : Config := ⟨.little, 2, 1, 8192, by decide⟩

theorem twoRanks_abort :
    ¬ ∀ s, (multiDirectio twoRanks).Reachable s → Agrees twoRanks s ∧ NoAbort s := by
  intro h
  obtain ⟨s, hreach, habort⟩ := abort_reachable (c := twoRanks) (by decide) (by decide)
    (by simp only [Config.Bounded, twoRanks, CHUNK_SIZE]; decide)
  exact habort (h s hreach).2

end Ocfs2Test.DirectIO.Multi
