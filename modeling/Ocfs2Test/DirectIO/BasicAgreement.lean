import Ocfs2Test.DirectIO.BasicTest

/-!
# Writers, log and file agree

The semaphore makes stamp, write and log of a chunk one step for everybody else.
So the log is in the order of its times, and the file follows it, but for the
chunk that a child has written and not logged yet.
-/

namespace Ocfs2Test.DirectIO

open Lib Lib.Stdio Chunks

-- ---------------------------------------------------------------------------
-- The invariant
-- ---------------------------------------------------------------------------

def Child.Inside : Child → Prop
  | .loop _ | .exited => False
  | _ => True

/-- The rounds whose chunk is in the file. -/
def Child.done (c : Config) : Child → Nat
  | .loop j | .locked j | .chosen j _ | .stamped j _ => j
  | .written j _ | .logged j => j + 1
  | .exited => c.numChunks

def Child.Ok (c : Config) (clock : Micros) : Child → Prop
  | .loop _ | .logged _ | .exited => True
  | .locked j => j < c.numChunks
  | .chosen j chunkNo => chunkNo.toNat < c.numChunks ∧ (c.mode = .append → chunkNo.toNat = j)
  | .stamped j wu => Fresh c.numChunks clock wu ∧ (c.mode = .append → wu.chunkNo.toNat = j)
  | .written _ wu => Fresh c.numChunks clock wu

abbrev Config.Tracks (c : Config) (units : List WriteUnit) (f : ByteFile) : Prop :=
  Chunks.Tracks c.endian CHUNK_SIZE c.numChunks (Plausible c.endian CHUNK_SIZE) units f

structure Journal (c : Config) (s : State c) (units : List WriteUnit) : Prop where
  log : s.log = printLog units
  order : InOrder c.numChunks s.clock.stamp units
  pending : ∀ i j wu, s.child i = .written j wu → c.Tracks (units ++ [wu]) s.file
  settled : (∀ i j wu, s.child i ≠ .written j wu) → c.Tracks units s.file

structure Early (c : Config) (s : State c) : Prop where
  sem : s.sem = 1
  child : ∀ i, s.child i = .loop 0
  log : s.log = []
  file : c.mode ≠ .basic → s.file = ByteFile.empty
  prep : ∀ offset chunkNo, s.main = .prep offset chunkNo → c.mode = .basic ∧
    offset.toNat = chunkNo.toNat * CHUNK_SIZE ∧ offset.toNat ≤ s.file.size
  opened : s.main = .opened → c.mode = .basic → c.fileSize.toNat ≤ s.file.size

structure Inv (c : Config) (s : State c) : Prop where
  guarded : Guarded s.sem fun i => (s.child i).Inside
  childOk : ∀ i, (s.child i).Ok c s.clock
  grown : c.mode = .append → ∀ i, (s.child i).done c * CHUNK_SIZE ≤ s.file.size
  covered : c.mode ≠ .append → s.main = .forked → c.fileSize.toNat ≤ s.file.size
  early : s.main ≠ .forked → Early c s
  logged : s.log ≠ [] → Nonempty (Fin c.numChildren)
  journal : ∃ units, Journal c s units

section
variable {c : Config} {s s' : State c} {i : Fin c.numChildren}

theorem numChunks_mul_le (c : Config) : c.numChunks * CHUNK_SIZE ≤ c.fileSize.toNat :=
  Nat.div_mul_le_self _ _

theorem offset_lt (h : n < c.numChunks) : CHUNK_SIZE * n < 2 ^ 64 := chunk_offset_lt h

theorem size_write (h : CHUNK_SIZE * wu.chunkNo.toNat < 2 ^ 64) (f : ByteFile) :
    (c.write f wu).size = max f.size ((wu.chunkNo.toNat + 1) * CHUNK_SIZE) :=
  size_doWriteChunk (by decide) h

theorem Child.Ok.outside {ch : Child} (h : ¬ ch.Inside) : ch.Ok c clock := by
  cases ch <;> simp [Child.Inside, Child.Ok] at *

theorem chooseChunk_toNat (r : Rand) (hj : j < c.numChunks) :
    (c.chooseChunk j r).toNat < c.numChunks ∧ (c.mode = .append → (c.chooseChunk j r).toNat = j) := by
  have hrand := getRandUl_lt (n := c.numChunks) r (by omega)
  unfold Config.chooseChunk
  split
  · rw [toNat_ofNat_chunk hj]
    exact ⟨hj, fun _ => rfl⟩
  · next hmode =>
    rw [toNat_ofNat_chunk hrand]
    exact ⟨hrand, fun h => absurd h hmode⟩

-- ---------------------------------------------------------------------------
-- Steps of a child
-- ---------------------------------------------------------------------------

theorem inside_update (h : (Function.update s.child i pc q).Inside) :
    (q = i ∧ pc.Inside) ∨ (q ≠ i ∧ (s.child q).Inside) := update_cases (P := Child.Inside) h

theorem inside_stay (hi : pc.Inside → (s.child i).Inside)
    (h : (Function.update s.child i pc q).Inside) : (s.child q).Inside :=
  update_stay (P := Child.Inside) hi h

theorem guarded_step (h : Guarded s.sem fun i => (s.child i).Inside) (hstep : ChildStep c i s s') :
    Guarded s'.sem fun i => (s'.child i).Inside := by
  cases hstep with
  | lock hpc hj hsem =>
    refine h.enter (p := i) fun q hq => ?_
    rcases inside_update hq with ⟨rfl, -⟩ | ⟨-, hq⟩
    · rfl
    · exact absurd hq (h.free hsem q)
  | exit hpc hj => exact h.stay fun q hq => inside_stay (by simp [Child.Inside]) hq
  | choose hpc r => exact h.stay fun q hq => inside_stay (by simp [hpc, Child.Inside]) hq
  | stamp hpc r t ht => exact h.stay fun q hq => inside_stay (by simp [hpc, Child.Inside]) hq
  | write hpc => exact h.stay fun q hq => inside_stay (by simp [hpc, Child.Inside]) hq
  | log hpc => exact h.stay fun q hq => inside_stay (by simp [hpc, Child.Inside]) hq
  | unlock hpc =>
    refine h.leave (p := i) (by simp [hpc, Child.Inside]) fun q hq => ?_
    rcases inside_update hq with ⟨-, hin⟩ | ⟨hne, hq⟩
    · exact hin.elim
    · exact ⟨hq, hne⟩

theorem childOk_step (hg : Guarded s.sem fun i => (s.child i).Inside)
    (h : ∀ i, (s.child i).Ok c s.clock) (hstep : ChildStep c i s s') (q : Fin c.numChildren) :
    (s'.child q).Ok c s'.clock := by
  have hi := h i
  by_cases hq : q = i
  · subst hq
    cases hstep with
    | lock hpc hj hsem => simpa [Child.Ok] using hj
    | exit hpc hj => simp [Child.Ok]
    | choose hpc r =>
      rw [hpc] at hi
      simp only [Function.update_self]
      exact chooseChunk_toNat r hi
    | stamp hpc r t ht =>
      rw [hpc] at hi
      have hlt := offset_lt hi.1
      simp only [CHUNK_SIZE] at hlt
      simp only [Function.update_self]
      exact ⟨⟨rfl, prepRandDestWriteUnit_recordOk (by omega), hi.1⟩, hi.2⟩
    | write hpc =>
      rw [hpc] at hi
      simp only [Function.update_self]
      exact hi.1
    | log hpc => simp [Child.Ok]
    | unlock hpc => simp [Child.Ok]
  · have hother := h q
    cases hstep with
    | stamp hpc r t ht =>
      -- the clock moves, but nobody else is in the critical section
      simp only [Function.update_of_ne hq]
      refine Child.Ok.outside fun hin => hq (hg.exclusive q i hin ?_)
      simp [hpc, Child.Inside]
    | _ => simpa [Function.update_of_ne hq] using hother

theorem size_step (h : ∀ i, (s.child i).Ok c s.clock) (hstep : ChildStep c i s s') :
    s.file.size ≤ s'.file.size := by
  cases hstep with
  | write hpc =>
    have hi := h i
    rw [hpc] at hi
    rw [size_write (offset_lt hi.1.inTable)]
    exact Nat.le_max_left _ _
  | _ => exact Nat.le_refl _

theorem grown_step (hmode : c.mode = .append) (hok : ∀ i, (s.child i).Ok c s.clock)
    (h : ∀ i, (s.child i).done c * CHUNK_SIZE ≤ s.file.size) (hstep : ChildStep c i s s')
    (q : Fin c.numChildren) : (s'.child q).done c * CHUNK_SIZE ≤ s'.file.size := by
  have hsize := size_step hok hstep
  have hi := h i
  by_cases hq : q = i
  · subst hq
    cases hstep with
    | exit hpc hj =>
      rw [hpc] at hi
      simp only [Function.update_self]
      exact Nat.le_trans (Nat.mul_le_mul_right _ hj) hi
    | write hpc =>
      have hfresh := hok q
      rw [hpc] at hfresh
      simp only [Function.update_self, size_write (offset_lt hfresh.1.inTable), hfresh.2 hmode]
      exact Nat.le_max_right _ _
    | lock hpc | choose hpc | stamp hpc | log hpc | unlock hpc =>
      rw [hpc] at hi
      simpa [Child.done] using hi
  · refine Nat.le_trans ?_ hsize
    have hother := h q
    cases hstep <;> simpa [Function.update_of_ne hq] using hother

theorem Journal.frame (h : Journal c s units) (hlog : s'.log = s.log) (hfile : s'.file = s.file)
    (hclock : s.clock ≤ s'.clock)
    (hsame : ∀ q j wu, s'.child q = .written j wu ↔ s.child q = .written j wu) :
    Journal c s' units := by
  refine ⟨hlog.trans h.log, h.order.later (Micros.stamp_le hclock), fun q j wu hq => ?_,
    fun hnone => ?_⟩
  · rw [hfile]
    exact h.pending q j wu ((hsame q j wu).mp hq)
  · rw [hfile]
    exact h.settled fun q j wu hq => hnone q j wu ((hsame q j wu).mpr hq)

theorem written_update (hold : ∀ j wu, s.child i ≠ .written j wu) (hnew : ∀ j wu, pc ≠ .written j wu)
    (q : Fin c.numChildren) (j : Nat) (wu : WriteUnit) :
    Function.update s.child i pc q = .written j wu ↔ s.child q = .written j wu := by
  by_cases hq : q = i
  · subst hq
    rw [Function.update_self]
    exact iff_of_false (hnew j wu) (hold j wu)
  · rw [Function.update_of_ne hq]

theorem only_written (hg : Guarded s.sem fun i => (s.child i).Inside) (hi : (s.child i).Inside)
    (hq : s.child q = .written j wu) : q = i :=
  hg.exclusive q i (by simp [hq, Child.Inside]) hi

theorem journal_step (hg : Guarded s.sem fun i => (s.child i).Inside)
    (hok : ∀ i, (s.child i).Ok c s.clock) (h : Journal c s units) (hstep : ChildStep c i s s') :
    ∃ units', Journal c s' units' := by
  cases hstep with
  | lock hpc | exit hpc | choose hpc | unlock hpc =>
    exact ⟨units, h.frame rfl rfl (Nat.le_refl _) (written_update (by simp [hpc]) (by simp))⟩
  | stamp hpc r t ht =>
    exact ⟨units, h.frame rfl rfl ht (written_update (by simp [hpc]) (by simp))⟩
  | @write j wu hpc =>
    have hi := hok i
    rw [hpc] at hi
    have hin : (s.child i).Inside := by simp [hpc, Child.Inside]
    have hnone : ∀ q j wu, s.child q ≠ .written j wu := by
      intro q j wu hq
      rw [only_written hg hin hq, hpc] at hq
      cases hq
    have htracks := (h.settled hnone).write (by decide) (offset_lt hi.1.inTable)
    refine ⟨units, h.log, h.order, fun q j' wu' hq => ?_, fun hno => ?_⟩
    · by_cases hqi : q = i
      · subst hqi
        simp only [Function.update_self] at hq
        cases hq
        exact htracks
      · simp only [Function.update_of_ne hqi] at hq
        exact absurd hq (hnone q j' wu')
    · exact absurd (Function.update_self i _ _) (hno i j wu)
  | @log j wu hpc =>
    have hi := hok i
    rw [hpc] at hi
    have hin : (s.child i).Inside := by simp [hpc, Child.Inside]
    refine ⟨units ++ [wu], ?_, h.order.append hi, ?_, fun _ => ?_⟩
    · simp only [h.log, printLog_append]
      simp [printLog]
    · intro q j' wu' hq
      by_cases hqi : q = i
      · subst hqi
        simp only [Function.update_self] at hq
        cases hq
      · simp only [Function.update_of_ne hqi] at hq
        exact absurd (only_written hg hin hq) hqi
    · exact h.pending i j wu hpc

theorem inv_child (h : Inv c s) (hmain : s.main = .forked) (hstep : ChildStep c i s s') :
    Inv c s' := by
  have hmain' : s'.main = .forked := by cases hstep <;> exact hmain
  obtain ⟨units, hj⟩ := h.journal
  refine ⟨guarded_step h.guarded hstep, childOk_step h.guarded h.childOk hstep,
    fun hmode => grown_step hmode h.childOk (h.grown hmode) hstep, fun hmode _ => ?_,
    fun hne => absurd hmain' hne, fun _ => ⟨i⟩, journal_step h.guarded h.childOk hj hstep⟩
  exact Nat.le_trans (h.covered hmode hmain) (size_step h.childOk hstep)

-- ---------------------------------------------------------------------------
-- Steps of the parent
-- ---------------------------------------------------------------------------

theorem Early.settled (h : Early c s) : ∀ i j wu, s.child i ≠ .written j wu := by
  simp [h.child]

theorem inv_of_early (h : Early c s) (hmain : s.main ≠ .forked)
    (hfile : c.Tracks [] s.file) : Inv c s := by
  refine ⟨?_, ?_, ?_, fun _ hm => absurd hm hmain, fun _ => h, ?_, [], ?_, InOrder.nil, ?_,
    fun _ => hfile⟩
  · rw [h.sem]
    exact Guarded.start (by simp [h.child, Child.Inside])
  · simp [h.child, Child.Ok]
  · simp [h.child, Child.done]
  · simp [h.log]
  · simp [h.log, printLog]
  · intro q j wu hq
    exact absurd hq (h.settled q j wu)

theorem inv_tracks_early (h : Inv c s) (hmain : s.main ≠ .forked) : c.Tracks [] s.file := by
  obtain ⟨units, hj⟩ := h.journal
  have hearly := h.early hmain
  have hunits : units = [] := printLog_eq_nil.mp (hj.log.symm.trans hearly.log)
  exact hunits ▸ hj.settled hearly.settled

theorem tracks_zeros {f : ByteFile} (h : ∀ pos, f.byte pos = 0) : c.Tracks [] f := by
  refine ⟨fun i wu hlast => ?_, fun i _ _ => plausible_zeros h⟩
  obtain ⟨before, after, heq, -, -⟩ := hlast
  simp at heq

/-- `prep_orig_file_in_chunks` comes to an end. -/
def Config.Bounded (c : Config) : Prop :=
  c.mode = .basic → c.fileSize.toNat + CHUNK_SIZE ≤ 2 ^ 64

theorem inv_prepChunk (hb : c.Bounded) (h : Inv c s) (hmain : s.main = .prep offset chunkNo)
    (hlt : offset < c.fileSize) (r : Rand) (t : Micros) :
    Inv c { s with
      main := .prep (offset + UInt64.ofNat CHUNK_SIZE) (chunkNo + 1)
      clock := t
      file := c.write s.file (c.prepUnit chunkNo r t) } := by
  have hearly := h.early (by simp [hmain])
  have htracks := inv_tracks_early h (by simp [hmain])
  obtain ⟨hmode, hoff, hsize⟩ := hearly.prep _ _ hmain
  have hbound := hb hmode
  have hlt' : offset.toNat < c.fileSize.toNat := hlt
  simp only [CHUNK_SIZE] at hoff hbound
  have hno : CHUNK_SIZE * (c.prepUnit chunkNo r t).chunkNo.toNat < 2 ^ 64 := by
    show 1024 * 8 * chunkNo.toNat < 2 ^ 64
    omega
  have hoff' : (offset + UInt64.ofNat CHUNK_SIZE).toNat = offset.toNat + 8192 := by
    rw [UInt64.toNat_add]
    simp only [CHUNK_SIZE, UInt64.toNat_ofNat']
    omega
  have hno' : (chunkNo + 1).toNat = chunkNo.toNat + 1 := by
    rw [UInt64.toNat_add]
    simp only [UInt64.toNat_one]
    omega
  refine inv_of_early ⟨hearly.sem, hearly.child, hearly.log, fun hm => absurd hmode hm, ?_, ?_⟩
    (by simp) ⟨?_, fun i hi _ => ?_⟩
  · intro offset' no' heq
    simp only [Main.prep.injEq] at heq
    rw [← heq.1, ← heq.2]
    refine ⟨hmode, ?_, ?_⟩
    · rw [hoff', hno']
      simp only [CHUNK_SIZE]
      omega
    · rw [hoff', size_write hno]
      refine Nat.le_trans ?_ (Nat.le_max_right _ _)
      show offset.toNat + 8192 ≤ (chunkNo.toNat + 1) * (1024 * 8)
      omega
  · simp
  · rintro i wu ⟨before, after, heq, -, -⟩
    simp at heq
  · simp only [Config.write, chunkAt_doWriteChunk (by decide : 40 ≤ CHUNK_SIZE) hno]
    split
    · next hi =>
      refine plausible_pattern (by decide) ?_
      rw [hi, UInt64.ofNat_toNat]
    · exact htracks.base i hi (by simp)

theorem inv_prepared (h : Inv c s) (hmain : s.main = .prep offset chunkNo)
    (hge : c.fileSize ≤ offset) : Inv c { s with main := .opened } := by
  have hearly := h.early (by simp [hmain])
  have htracks := inv_tracks_early h (by simp [hmain])
  obtain ⟨hmode, -, hsize⟩ := hearly.prep _ _ hmain
  refine inv_of_early ⟨hearly.sem, hearly.child, hearly.log, hearly.file, by simp, fun _ _ => ?_⟩
    (by simp) htracks
  exact Nat.le_trans hge hsize

theorem inv_fork (h : Inv c s) (hmain : s.main = .opened) :
    Inv c { s with main := .forked, file := c.openFile s.file } := by
  have hearly := h.early (by simp [hmain])
  have htracks := inv_tracks_early h (by simp [hmain])
  have hfile : c.Tracks [] (c.openFile s.file) ∧
      (c.mode ≠ .append → c.fileSize.toNat ≤ (c.openFile s.file).size) := by
    unfold Config.openFile
    split
    · next hmode =>
      rw [hearly.file (by simp [hmode])]
      refine ⟨tracks_zeros fun pos => ?_, fun _ => Nat.le_refl _⟩
      rw [ByteFile.byte_truncate]
      split <;> rfl
    · next hmode =>
      refine ⟨htracks, fun happend => hearly.opened hmain ?_⟩
      cases hm : c.mode with
      | basic => rfl
      | append => exact absurd hm happend
      | holeFilling => exact absurd hm hmode
  refine ⟨h.guarded, h.childOk, ?_, fun hmode _ => hfile.2 hmode, by simp, h.logged,
    [], ?_, InOrder.nil, ?_, fun _ => hfile.1⟩
  · simp [hearly.child, Child.done]
  · simp [hearly.log, printLog]
  · intro q j wu hq
    exact absurd hq (hearly.settled q j wu)

theorem inv_init (c : Config) (clock : Micros) : Inv c (init c clock) := by
  refine inv_of_early ⟨rfl, fun _ => rfl, rfl, fun _ => rfl, ?_, ?_⟩ ?_ (tracks_zeros fun _ => rfl)
  · simp only [init]
    split
    · next hmode =>
      rintro _ _ ⟨rfl, rfl⟩
      exact ⟨hmode, rfl, Nat.le_refl _⟩
    · simp
  · simp only [init]
    split
    · simp
    · next hmode => exact fun _ h => absurd h hmode
  · simp only [init]
    split <;> simp

theorem inv_reachable (hb : c.Bounded) (h : (basicTest c).Reachable s) : Inv c s := by
  refine h.invariant ?_ fun s s' _ hinv hstep => ?_
  · rintro s ⟨clock, rfl⟩
    exact inv_init c clock
  · cases hstep with
    | prepChunk hmain hlt r t ht => exact inv_prepChunk hb hinv hmain hlt r t
    | prepared hmain hge => exact inv_prepared hinv hmain hge
    | fork hmain => exact inv_fork hinv hmain
    | child i hmain hstep => exact inv_child hinv hmain hstep

/-- Where the loop of `prep_orig_file_in_chunks` wraps around before it reaches
the size of the file, it never ends. -/
theorem prep_reachable (hb : ¬ c.Bounded) (h : (basicTest c).Reachable s) :
    ∃ offset chunkNo, s.main = .prep offset chunkNo ∧ offset.toNat % CHUNK_SIZE = 0 := by
  have hmode : c.mode = .basic := Classical.byContradiction fun hm => hb fun h => absurd h hm
  have hbig : 2 ^ 64 < c.fileSize.toNat + CHUNK_SIZE := by
    refine Nat.lt_of_not_le fun hle => hb fun _ => hle
  have hlast (offset : UInt64) (hoff : offset.toNat % CHUNK_SIZE = 0) : offset < c.fileSize := by
    have := offset.toNat_lt
    rw [UInt64.lt_iff_toNat_lt]
    simp only [CHUNK_SIZE] at *
    omega
  refine h.invariant
    (P := fun s => ∃ offset chunkNo, s.main = .prep offset chunkNo ∧ offset.toNat % CHUNK_SIZE = 0)
    ?_ fun s s' _ hinv hstep => ?_
  · rintro s ⟨clock, rfl⟩
    exact ⟨0, 0, by simp [init, hmode], rfl⟩
  · obtain ⟨offset, chunkNo, hmain, hoff⟩ := hinv
    cases hstep with
    | prepChunk hmain' hlt r t ht =>
      rw [hmain] at hmain'
      cases hmain'
      refine ⟨_, _, rfl, ?_⟩
      rw [UInt64.toNat_add]
      simp only [CHUNK_SIZE, UInt64.toNat_ofNat'] at *
      omega
    | prepared hmain' hge =>
      rw [hmain] at hmain'
      cases hmain'
      exact absurd (hlast offset hoff) (UInt64.not_lt.mpr hge)
    | fork hmain' =>
      rw [hmain] at hmain'
      cases hmain'
    | child i hmain' hstep =>
      rw [hmain] at hmain'
      cases hmain'

theorem exists_round (h : (basicTest c).Reachable s) (hmain : s.main = .forked) (hsem : 0 < s.sem)
    (hpc : s.child i = .loop j) (hj : j < c.numChunks) (r : Rand) :
    ∃ s' wu, (basicTest c).Reachable s' ∧ s'.main = .forked ∧ s'.sem = s.sem ∧
      s'.child = Function.update s.child i (.loop (j + 1)) ∧ s'.log = s.log ++ printRecord wu ∧
      wu.chunkNo = c.chooseChunk j r := by
  have hself (pc : Child) : Function.update s.child i pc i = pc := Function.update_self ..
  have h₁ := h.step (.child i hmain (.lock hpc hj hsem))
  have h₂ := h₁.step (.child i hmain (.choose (hself _) r))
  simp only [Function.update_idem] at h₂
  have h₃ := h₂.step (.child i hmain (.stamp (hself _) 0 s.clock (Nat.le_refl _)))
  simp only [Function.update_idem] at h₃
  have h₄ := h₃.step (.child i hmain (.write (hself _)))
  simp only [Function.update_idem] at h₄
  have h₅ := h₄.step (.child i hmain (.log (hself _)))
  simp only [Function.update_idem] at h₅
  have h₆ := h₅.step (.child i hmain (.unlock (hself _)))
  simp only [Function.update_idem] at h₆
  exact ⟨_, _, h₆, hmain, Nat.sub_add_cancel hsem, rfl, rfl, rfl⟩

theorem Inv.full (h : Inv c s) (hdone : Finished s) (hlog : s.log ≠ []) :
    c.numChunks * CHUNK_SIZE ≤ s.file.size := by
  by_cases hmode : c.mode = .append
  · obtain ⟨i⟩ := h.logged hlog
    have := h.grown hmode i
    rwa [hdone.2 i] at this
  · exact Nat.le_trans (numChunks_mul_le c) (h.covered hmode hdone.1)

end

/-- Whatever the children do, the log and the file they leave are accepted. -/
theorem basicTest_verified (c : Config) (s : State c) (hreach : (basicTest c).Reachable s)
    (hdone : Finished s) (hlog : s.log ≠ []) :
    DirectioUtils.verifyFile c.endian (.log s.log) s.file c.fileSize = .returns 0 := by
  by_cases hb : c.Bounded
  · have hinv := inv_reachable hb hreach
    obtain ⟨units, hj⟩ := hinv.journal
    have hsettled : ∀ i j wu, s.child i ≠ .written j wu := by simp [hdone.2]
    have hne : units ≠ [] := fun h => hlog (hj.log.trans (printLog_eq_nil.mpr h))
    rw [DirectioUtils.verifyFile, hj.log]
    refine verifyBody_of_tracks (by decide) (DirectioUtils.readsFile s.file) (fun i hi => ?_) hj.order
      hne (hj.settled hsettled)
    refine DirectioUtils.doReadChunk_full (Nat.le_trans ?_ (hinv.full hdone hlog))
    exact Nat.mul_le_mul_right _ hi
  · obtain ⟨offset, chunkNo, hmain, -⟩ := prep_reachable hb hreach
    rw [hdone.1] at hmain
    cases hmain

def twoChildren : Config := ⟨.little, .holeFilling, 2, 8192⟩

theorem basicTest_verified_twoChildren :
    ∃ (s : State twoChildren) (wu wu' : WriteUnit),
      (basicTest twoChildren).Reachable s ∧ Finished s ∧
        s.log = printRecord wu ++ printRecord wu' ∧ wu.chunkNo = wu'.chunkNo ∧
          DirectioUtils.verifyFile twoChildren.endian (.log s.log) s.file twoChildren.fileSize =
            .returns 0 := by
  have hnum : twoChildren.numChunks = 1 := by decide
  have hpos : 0 < twoChildren.numChunks := hnum ▸ Nat.one_pos
  have h₁ := (System.Reachable.init (S := basicTest twoChildren) ⟨0, rfl⟩).step (.fork rfl)
  obtain ⟨s₂, wu, h₂, hmain₂, hsem₂, hchild₂, hlog₂, hchunk⟩ :=
    exists_round (i := (0 : Fin 2)) h₁ rfl Nat.one_pos rfl hpos 0
  have hone : s₂.child (1 : Fin 2) = .loop 0 := by rw [hchild₂]; rfl
  have hsem : 0 < s₂.sem := by rw [hsem₂]; exact Nat.one_pos
  obtain ⟨s₃, wu', h₃, hmain₃, -, hchild₃, hlog₃, hchunk'⟩ :=
    exists_round (i := (1 : Fin 2)) h₂ hmain₂ hsem hone hpos 0
  have hzero : s₃.child (0 : Fin 2) = .loop 1 := by rw [hchild₃, hchild₂]; rfl
  have h₄ := h₃.step (.child (0 : Fin 2) hmain₃ (.exit hzero hnum.le))
  have hone' : Function.update s₃.child (0 : Fin 2) .exited (1 : Fin 2) = .loop 1 := by
    rw [hchild₃]
    rfl
  have h₅ := h₄.step (.child (1 : Fin 2) hmain₃ (.exit hone' hnum.le))
  have hlog : s₃.log = printRecord wu ++ printRecord wu' := by
    rw [hlog₃, hlog₂]
    exact congrArg (· ++ printRecord wu') (List.nil_append _)
  refine ⟨_, wu, wu', h₅, ?hdone, hlog, hchunk.trans hchunk'.symm,
    basicTest_verified twoChildren _ h₅ ?hdone ?hlog⟩
  case hdone =>
    exact ⟨hmain₃, Fin.forall_fin_two.mpr ⟨rfl, rfl⟩⟩
  case hlog =>
    show s₃.log ≠ []
    rw [hlog]
    exact List.append_ne_nil_of_left_ne_nil (printRecord_ne_nil _) _

end Ocfs2Test.DirectIO
