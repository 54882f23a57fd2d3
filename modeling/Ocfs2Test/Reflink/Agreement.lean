import Ocfs2Test.Reflink.Destructive

/-!
# The destructive test can be verified

While nobody is between a write or a reflink and its record, the original file
follows all writes of the log, and every reflink in the log follows the writes
before it.
-/

namespace Ocfs2Test.Reflink

open Lib Lib.Stdio Chunks

-- ---------------------------------------------------------------------------
-- The invariant
-- ---------------------------------------------------------------------------

/-- What the verifier expects of a chunk without a write. -/
def Prepared (e : Endian) (i : Nat) (chunk : List UInt8) : Prop :=
  chunk = pattern e CHUNK_SIZE (initTable i)

/-- The file is there in full and follows the writes `units`. -/
def Config.Holds (c : Config) (fs : Files) (units : List WriteUnit) (path : Path) : Prop :=
  ∃ f, fs path = some f ∧ c.chunkNo * CHUNK_SIZE ≤ f.size ∧
    Tracks c.endian CHUNK_SIZE c.chunkNo (Prepared c.endian) units f

/-- A reflink made behind the writes `units`. -/
structure Config.Saved (c : Config) (fs : Files) (units : List WriteUnit) (dest : Path) : Prop where
  apart : dest ≠ c.orig
  some_write : units ≠ []
  holds : c.Holds fs units dest

def Child.Ok (c : Config) (sem : Option Nat) (clock : Micros) : Child → Prop
  | .exited => True
  -- a child does not come to the end of its loop but through the crash
  | .loop j false => j < c.chunkNo ∨ c.chunkNo = 0
  | .bail false => sem = none ∨ c.chunkNo = 0
  | .loop _ true | .bail true => 0 < c.chunkNo
  | .stamped j dwu | .written j dwu => j < c.chunkNo ∧ Fresh c.chunkNo clock dwu
  | .locked j | .logged j | .draw j | .link j | .linkLocked j | .linked j | .linkLogged j
  | .ready j | .crashLock j | .crashing j => j < c.chunkNo

/-- The child has logged the write of this round and may reflink. -/
def Child.Begun : Child → Prop
  | .logged _ | .draw _ | .link _ | .linkLocked _ => True
  | _ => False

structure Journal (c : Config) (s : State c) (es : List Entry) : Prop where
  log : s.log = printEntries c.orig es
  entries : ∀ en ∈ es, en.Ok
  order : InOrder c.chunkNo s.clock.stamp (writesOf es)
  first : es ≠ [] → writesOf es ≠ []
  begun : ∀ i, (s.child i).Begun → writesOf es ≠ []
  pending : ∀ i j dwu, s.child i = .written j dwu → c.Holds s.fs (writesOf es ++ [dwu]) c.orig
  settled : (∀ i j dwu, s.child i ≠ .written j dwu) → c.Holds s.fs (writesOf es) c.orig
  linked : ∀ i j, s.child i = .linked j → c.Saved s.fs (writesOf es) (c.dest i j)
  saved : ∀ d ∈ destLogs 0 es, c.Saved s.fs ((writesOf es).take d.index) d.filename

structure Inv (c : Config) (s : State c) : Prop where
  guarded : Removable s.sem fun i => (s.child i).held = true
  childOk : ∀ i, (s.child i).Ok c s.sem s.clock
  journal : ∃ es, Journal c s es

section
variable {c : Config} {s s' : State c} {i : Fin c.childNums}

theorem Child.Ok.ofSem {ch : Child} (h : ch.Ok c sem clock) (hsem : sem = none → sem' = none) :
    ch.Ok c sem' clock := by
  cases ch with
  | loop j held => cases held <;> exact h
  | bail held =>
    cases held with
    | true => exact h
    | false => exact h.imp_left hsem
  | _ => exact h

theorem Child.Ok.ofClock {ch : Child} (h : ch.Ok c sem clock) (hheld : ch.held = false) :
    ch.Ok c sem clock' := by
  cases ch with
  | stamped | written => cases hheld
  | loop j held | bail held => cases held <;> exact h
  | _ => exact h

theorem Child.Ok.chunks {ch : Child} (h : ch.Ok c sem clock) (hheld : ch.held = true) :
    0 < c.chunkNo := by
  cases ch with
  | loop j held =>
    cases held with
    | true => exact h
    | false => cases hheld
  | bail held =>
    cases held with
    | true => exact h
    | false => cases hheld
  | stamped | written => exact Nat.zero_lt_of_lt h.1
  | locked | logged | linkLocked | linked | linkLogged | crashing => exact Nat.zero_lt_of_lt h
  | _ => cases hheld

-- ---------------------------------------------------------------------------
-- The semaphore
-- ---------------------------------------------------------------------------

theorem held_update (h : (Function.update s.child i pc q).held = true) :
    (q = i ∧ pc.held = true) ∨ (q ≠ i ∧ (s.child q).held = true) :=
  update_cases (P := fun ch : Child => ch.held = true) h

theorem held_stay (hi : pc.held = true → (s.child i).held = true)
    (h : (Function.update s.child i pc q).held = true) : (s.child q).held = true :=
  update_stay (P := fun ch : Child => ch.held = true) hi h

theorem afterP_cases (h : c.afterP ch = some pc) :
    (∃ j held, ch = .loop j held ∧ j < c.chunkNo ∧ pc = .locked j) ∨
      (∃ j, ch = .link j ∧ pc = .linkLocked j) ∨ ∃ j, ch = .crashLock j ∧ pc = .crashing j := by
  unfold Config.afterP at h
  split at h
  · next j held =>
    split at h
    · next hj =>
      cases h
      exact .inl ⟨j, held, rfl, hj, rfl⟩
    · cases h
  · next j =>
    cases h
    exact .inr (.inl ⟨j, rfl, rfl⟩)
  · next j =>
    cases h
    exact .inr (.inr ⟨j, rfl, rfl⟩)
  · cases h

theorem afterV_cases (h : afterV ch = some pc) :
    (∃ j, ch = .logged j ∧ pc = .draw j) ∨ ∃ j, ch = .linkLogged j ∧ pc = .ready j := by
  unfold afterV at h
  split at h
  · next j =>
    cases h
    exact .inl ⟨j, rfl, rfl⟩
  · next j =>
    cases h
    exact .inr ⟨j, rfl, rfl⟩
  · cases h

theorem held_afterV (h : afterV ch = some pc) : ch.held = true ∧ pc.held = false := by
  obtain ⟨j, rfl, rfl⟩ | ⟨j, rfl, rfl⟩ := afterV_cases h <;> exact ⟨rfl, rfl⟩

theorem guarded_step (hok : ∀ i, (s.child i).Ok c s.sem s.clock)
    (h : Removable s.sem fun i => (s.child i).held = true) (hstep : ChildStep c i s s') :
    Removable s'.sem fun i => (s'.child i).held = true := by
  cases hstep with
  | @p pc n hpc hsem =>
    rw [hsem] at h
    refine Guarded.enter (p := i) h fun q hq => ?_
    rcases held_update hq with ⟨rfl, -⟩ | ⟨-, hq⟩
    · rfl
    · exact absurd hq (Guarded.free h (Nat.succ_pos n) q)
  | v hpc hsem =>
    rw [hsem] at h
    obtain ⟨hheld, hnot⟩ := held_afterV hpc
    refine Guarded.leave (p := i) h hheld fun q hq => ?_
    rcases held_update hq with ⟨-, hin⟩ | ⟨hne, hq⟩
    · rw [hnot] at hin
      cases hin
    · exact ⟨hq, hne⟩
  | pFails hpc hsem | vFails hpc hsem =>
    exact h.stay fun q hq => held_stay (i := i) (by simp [Child.held]) hq
  | draw hpc r =>
    refine h.stay fun q hq => held_stay (fun h => ?_) hq
    split at h <;> cases h
  | ready hpc r =>
    refine h.stay fun q hq => held_stay (fun h => ?_) hq
    split at h <;> cases h
  | stamp hpc | write hpc | log hpc | link hpc | linkFails hpc | logLink hpc | crashed hpc | done hpc =>
    exact h.stay fun q hq => held_stay (by simp [hpc, Child.held]) hq
  | @exit held hpc =>
    have hother (q : Fin c.childNums) (hq : (Function.update s.child i .exited q).held = true) :
        (s.child q).held = true ∧ q ≠ i := by
      rcases held_update hq with ⟨-, hin⟩ | ⟨hne, hq⟩
      · cases hin
      · exact ⟨hq, hne⟩
    have hi := hok i
    rw [hpc] at hi
    dsimp only
    split
    · cases hsem : s.sem with
      | none =>
        rw [hsem] at h
        exact fun q hq => h q (hother q hq).1
      | some n =>
        rw [hsem] at h
        cases held with
        | true => exact Guarded.leave (p := i) h (by rw [hpc]; rfl) hother
        | false => exact Guarded.stay h fun q hq => (hother q hq).1
    · -- the semaphore goes; whoever leaves was alone inside, or nobody ever was
      intro q hq
      obtain ⟨hq, hne⟩ := hother q hq
      cases held with
      | true => exact hne (h.exclusive hq (by rw [hpc]; rfl))
      | false =>
        rcases hi with hsem | hzero
        · rw [hsem] at h
          exact h q hq
        · have := (hok q).chunks hq
          omega

theorem sem_none_step (hstep : ChildStep c i s s') (h : s.sem = none) : s'.sem = none := by
  cases hstep with
  | p hpc hsem | v hpc hsem =>
    rw [h] at hsem
    cases hsem
  | exit hpc =>
    dsimp only
    split
    · rw [h]
      rfl
    · rfl
  | _ => exact h

theorem afterP_ok (h : ch.Ok c sem clock) (hpc : c.afterP ch = some pc) : pc.Ok c sem' clock' := by
  obtain ⟨j, held, rfl, hj, rfl⟩ | ⟨j, rfl, rfl⟩ | ⟨j, rfl, rfl⟩ := afterP_cases hpc
  · exact hj
  · exact h
  · exact h

theorem afterV_ok (h : ch.Ok c sem clock) (hpc : afterV ch = some pc) : pc.Ok c sem' clock' := by
  obtain ⟨j, rfl, rfl⟩ | ⟨j, rfl, rfl⟩ := afterV_cases hpc <;> exact h

theorem bail_ok {ch : Child} (h : ch.Ok c sem clock) (hsem : sem' = none ∨ ch.held = true) :
    (Child.bail ch.held).Ok c sem' clock' := by
  cases hheld : ch.held with
  | true => exact h.chunks hheld
  | false =>
    rw [hheld] at hsem
    exact .inl (hsem.resolve_right Bool.false_ne_true)

theorem not_crashes (hj : j < c.chunkNo) (h : ¬ c.crashes j r) : j + 1 < c.chunkNo := by
  unfold Config.crashes at h
  split at h
  · omega
  · simp only [beq_iff_eq] at h
    omega

theorem prepUnit_fresh (hc : 0 < c.chunkNo) (rNo rChar : Rand) (t : Micros) :
    Fresh c.chunkNo t (c.prepUnit rNo rChar t) := by
  have hno : getRandUl 0 (c.chunkNo - 1) rNo < c.chunkNo := getRandUl_lt rNo hc
  have hnat := toNat_ofNat_chunk hno
  have hlt := chunk_offset_lt hno
  simp only [CHUNK_SIZE] at hlt
  refine ⟨rfl, prepRandDestWriteUnit_recordOk ?_, ?_⟩
  · rw [hnat]
    omega
  · simpa [Config.prepUnit, hnat] using hno

theorem childOk_step (hg : Removable s.sem fun i => (s.child i).held = true)
    (h : ∀ i, (s.child i).Ok c s.sem s.clock) (hstep : ChildStep c i s s') (q : Fin c.childNums) :
    (s'.child q).Ok c s'.sem s'.clock := by
  have hi := h i
  by_cases hq : q = i
  · subst hq
    cases hstep with
    | p hpc hsem =>
      simp only [Function.update_self]
      exact afterP_ok hi hpc
    | v hpc hsem =>
      simp only [Function.update_self]
      exact afterV_ok hi hpc
    | pFails hpc hsem | vFails hpc hsem =>
      simp only [Function.update_self]
      exact bail_ok hi (.inl hsem)
    | stamp hpc rNo rChar t ht =>
      rw [hpc] at hi
      simp only [Function.update_self]
      exact ⟨hi, prepUnit_fresh (Nat.zero_lt_of_lt hi) rNo rChar t⟩
    | log hpc =>
      rw [hpc] at hi
      simp only [Function.update_self]
      exact hi.1
    | draw hpc r =>
      rw [hpc] at hi
      simp only [Function.update_self]
      split <;> exact hi
    | ready hpc r =>
      rw [hpc] at hi
      simp only [Function.update_self]
      split
      · exact hi
      · next hno => exact .inl (not_crashes hi hno)
    | linkFails hpc | crashed hpc =>
      rw [hpc] at hi
      simp only [Function.update_self]
      exact Nat.zero_lt_of_lt hi
    | @done j held hpc hj =>
      rw [hpc] at hi
      simp only [Function.update_self]
      cases held with
      | true => exact hi
      | false => exact .inr (hi.resolve_left (Nat.not_lt.mpr hj))
    | exit hpc => simp [Child.Ok]
    | write hpc | link hpc | logLink hpc =>
      rw [hpc] at hi
      simp only [Function.update_self]
      exact hi
  · have hother := h q
    have hsem := sem_none_step hstep
    cases hstep with
    | stamp hpc rNo rChar t ht =>
      -- the clock moves, but nobody else is inside
      simp only [Function.update_of_ne hq]
      refine hother.ofClock (Bool.eq_false_iff.mpr fun hin => hq (hg.exclusive hin ?_))
      rw [hpc]
      rfl
    | _ =>
      simp only [Function.update_of_ne hq]
      exact hother.ofSem hsem

-- ---------------------------------------------------------------------------
-- The log and the files
-- ---------------------------------------------------------------------------

theorem Config.Holds.frame (h : c.Holds fs units path) (hfs : fs' path = fs path) :
    c.Holds fs' units path := by
  obtain ⟨f, hf, hfull, htracks⟩ := h
  exact ⟨f, hfs.trans hf, hfull, htracks⟩

theorem Config.Saved.frame (h : c.Saved fs units path) (hfs : fs' path = fs path) :
    c.Saved fs' units path :=
  ⟨h.apart, h.some_write, h.holds.frame hfs⟩

/-- No record is too long for `log_rec`. -/
theorem logRec_eq (h : en.Ok) : c.logRec en = en.print c.orig := by
  have hlen := length_spaced_le fun p hp => (h.words c.origOk.toWord p hp).1
  rw [Entry.length_words] at hlen
  refine List.take_of_length_le (Nat.le_trans hlen ?_)
  decide

theorem reflink_cases (h : reflink fs oldpath newpath = some fs') :
    ∃ f, fs oldpath = some f ∧ fs newpath = none ∧ fs' = Function.update fs newpath (some f) := by
  unfold reflink at h
  split at h
  · next f hold hnew =>
    cases h
    exact ⟨f, hold, hnew, rfl⟩
  · cases h

theorem reflink_frame (h : reflink fs oldpath newpath = some fs') (hq : fs path = some f) :
    fs' path = some f := by
  obtain ⟨-, -, hnew, rfl⟩ := reflink_cases h
  rw [Function.update_of_ne, hq]
  rintro rfl
  rw [hnew] at hq
  cases hq

/-- A step of a child that neither makes nor logs a change. -/
structure Quiet (old new : Child) : Prop where
  old_written : ∀ j dwu, old ≠ .written j dwu
  new_written : ∀ j dwu, new ≠ .written j dwu
  linked : ∀ j, new ≠ .linked j
  begun : new.Begun → old.Begun

theorem Journal.quiet (h : Journal c s es) (hq : Quiet (s.child i) pc) (hlog : s'.log = s.log)
    (hfs : s'.fs = s.fs) (hclock : s.clock ≤ s'.clock)
    (hchild : s'.child = Function.update s.child i pc) : Journal c s' es := by
  have hwritten (q : Fin c.childNums) (j : Nat) (dwu : WriteUnit) :
      s'.child q = .written j dwu ↔ s.child q = .written j dwu := by
    rw [hchild]
    by_cases hqi : q = i
    · subst hqi
      rw [Function.update_self]
      exact iff_of_false (hq.new_written j dwu) (hq.old_written j dwu)
    · rw [Function.update_of_ne hqi]
  refine ⟨hlog.trans h.log, h.entries, h.order.later (Micros.stamp_le hclock), h.first,
    fun q hbegun => ?_, fun q j dwu hw => ?_, fun hnone => ?_, fun q j hl => ?_, ?_⟩
  · rw [hchild] at hbegun
    exact h.begun q (update_stay (P := Child.Begun) hq.begun hbegun)
  · rw [hfs]
    exact h.pending q j dwu ((hwritten q j dwu).mp hw)
  · rw [hfs]
    exact h.settled fun q j dwu hw => hnone q j dwu ((hwritten q j dwu).mpr hw)
  · rw [hfs]
    rw [hchild] at hl
    exact h.linked q j (update_stay (P := fun ch : Child => ch = .linked j)
      (fun heq => absurd heq (hq.linked j)) hl)
  · rw [hfs]
    exact h.saved

theorem quiet_afterP (h : c.afterP ch = some pc) : Quiet ch pc := by
  obtain ⟨j, held, rfl, -, rfl⟩ | ⟨j, rfl, rfl⟩ | ⟨j, rfl, rfl⟩ := afterP_cases h <;>
    exact ⟨by simp, by simp, by simp, by simp [Child.Begun]⟩

theorem quiet_afterV (h : afterV ch = some pc) : Quiet ch pc := by
  obtain ⟨j, rfl, rfl⟩ | ⟨j, rfl, rfl⟩ := afterV_cases h <;>
    exact ⟨by simp, by simp, by simp, by simp [Child.Begun]⟩

theorem quiet_bail (h : ∀ j dwu, ch ≠ .written j dwu) : Quiet ch (.bail held) :=
  ⟨h, by simp, by simp, by simp [Child.Begun]⟩

theorem only_inside (hg : Removable s.sem fun i => (s.child i).held = true)
    (hi : (s.child i).held = true) (hq : s.child q = ch) (hch : ch.held = true) : q = i :=
  hg.exclusive (p := q) (by rw [hq]; exact hch) hi

theorem none_written (hg : Removable s.sem fun i => (s.child i).held = true)
    (hi : (s.child i).held = true) (hne : ∀ j dwu, s.child i ≠ .written j dwu)
    (q : Fin c.childNums) (j : Nat) (dwu : WriteUnit) : s.child q ≠ .written j dwu := by
  intro hq
  have hqi := only_inside hg hi hq rfl
  exact hne j dwu (hqi ▸ hq)

theorem Config.Holds.write (h : c.Holds fs units c.orig) (hf : fs c.orig = some f)
    (hin : dwu.chunkNo.toNat < c.chunkNo) :
    c.Holds (Function.update fs c.orig (some (doWriteChunk c.endian CHUNK_SIZE f dwu)))
      (units ++ [dwu]) c.orig := by
  obtain ⟨f', hf', hfull, htracks⟩ := h
  rw [hf] at hf'
  cases hf'
  have hoff := chunk_offset_lt hin
  refine ⟨_, Function.update_self .., ?_, htracks.write (by decide) hoff⟩
  rw [size_doWriteChunk (by decide) hoff]
  exact Nat.le_trans hfull (Nat.le_max_left _ _)

theorem journal_write (hg : Removable s.sem fun i => (s.child i).held = true)
    (hok : (s.child i).Ok c s.sem s.clock) (h : Journal c s es) (hpc : s.child i = .stamped j dwu)
    (hfile : s.fs c.orig = some f) :
    Journal c { s with
      fs := Function.update s.fs c.orig (some (doWriteChunk c.endian CHUNK_SIZE f dwu))
      child := Function.update s.child i (.written j dwu) } es := by
  rw [hpc] at hok
  have hin : (s.child i).held = true := by
    rw [hpc]
    rfl
  have hnone := none_written hg hin (by simp [hpc])
  refine ⟨h.log, h.entries, h.order, h.first, fun q hbegun => ?_, fun q j' dwu' hw => ?_,
    fun hno => ?_, fun q j' hl => ?_, fun d hd => ?_⟩
  · exact h.begun q (update_stay (P := Child.Begun) (by simp [Child.Begun]) hbegun)
  · obtain ⟨rfl, heq⟩ | ⟨-, hq⟩ := update_cases (P := fun ch : Child => ch = .written j' dwu') hw
    · cases heq
      exact (h.settled hnone).write hfile hok.2.inTable
    · exact absurd hq (hnone q j' dwu')
  · exact absurd (Function.update_self i _ _) (hno i j dwu)
  · obtain ⟨-, heq⟩ | ⟨hne, hq⟩ := update_cases (P := fun ch : Child => ch = .linked j') hl
    · cases heq
    · exact absurd (only_inside hg hin hq rfl) hne
  · have hsaved := h.saved d hd
    exact hsaved.frame (Function.update_of_ne hsaved.apart _ _)

theorem journal_log (hg : Removable s.sem fun i => (s.child i).held = true)
    (hok : (s.child i).Ok c s.sem s.clock) (h : Journal c s es) (hpc : s.child i = .written j dwu) :
    Journal c { s with
      log := s.log ++ c.logRec (.write dwu)
      child := Function.update s.child i (.logged j) } (es ++ [.write dwu]) := by
  rw [hpc] at hok
  have hin : (s.child i).held = true := by
    rw [hpc]
    rfl
  have hen : (Entry.write dwu).Ok := hok.2.recordOk
  have hwrites : writesOf (es ++ [Entry.write dwu]) = writesOf es ++ [dwu] := writesOf_append
  refine ⟨?_, ?_, ?_, ?_, ?_, fun q j' dwu' hw => ?_, fun _ => ?_, fun q j' hl => ?_,
    fun d hd => ?_⟩
  · simp only [h.log, logRec_eq hen, printEntries_append]
  · rw [List.forall_mem_append]
    exact ⟨h.entries, by simpa using hen⟩
  · rw [hwrites]
    exact h.order.append hok.2
  · simp [hwrites]
  · simp [hwrites]
  · obtain ⟨-, heq⟩ | ⟨hne, hq⟩ := update_cases (P := fun ch : Child => ch = .written j' dwu') hw
    · cases heq
    · exact absurd (only_inside hg hin hq rfl) hne
  · rw [hwrites]
    exact h.pending i j dwu hpc
  · obtain ⟨-, heq⟩ | ⟨hne, hq⟩ := update_cases (P := fun ch : Child => ch = .linked j') hl
    · cases heq
    · exact absurd (only_inside hg hin hq rfl) hne
  · rw [destLogs_append, destLogs, destLogs, List.append_nil] at hd
    have hle := index_le_of_mem hd
    rw [hwrites, List.take_append_of_le_length (by omega)]
    exact h.saved d hd

theorem journal_link (hg : Removable s.sem fun i => (s.child i).held = true)
    (h : Journal c s es) (hpc : s.child i = .linkLocked j)
    (hlink : reflink s.fs c.orig (c.dest i j) = some fs) :
    Journal c { s with fs := fs, child := Function.update s.child i (.linked j) } es := by
  have hin : (s.child i).held = true := by
    rw [hpc]
    rfl
  have hnone := none_written hg hin (by simp [hpc])
  obtain ⟨f, hf, hnew, rfl⟩ := reflink_cases hlink
  have hkeep {path : Path} {g : ByteFile} (hg : s.fs path = some g) :
      Function.update s.fs (c.dest i j) (some f) path = s.fs path :=
    (reflink_frame hlink hg).trans hg.symm
  have hsettled := h.settled hnone
  refine ⟨h.log, h.entries, h.order, h.first, fun q hbegun => ?_, fun q j' dwu' hw => ?_,
    fun _ => hsettled.frame (hkeep hf), fun q j' hl => ?_, fun d hd => ?_⟩
  · exact h.begun q (update_stay (P := Child.Begun) (by simp [Child.Begun]) hbegun)
  · obtain ⟨-, heq⟩ | ⟨-, hq⟩ := update_cases (P := fun ch : Child => ch = .written j' dwu') hw
    · cases heq
    · exact absurd hq (hnone q j' dwu')
  · obtain ⟨rfl, heq⟩ | ⟨hne, hq⟩ := update_cases (P := fun ch : Child => ch = .linked j') hl
    · cases heq
      -- the copy has what the original has
      refine ⟨fun heq => ?_, h.begun q (by rw [hpc]; trivial), ?_⟩
      · rw [heq, hf] at hnew
        cases hnew
      · obtain ⟨g, hg, hfull, htracks⟩ := hsettled
        rw [hf] at hg
        cases hg
        exact ⟨f, Function.update_self .., hfull, htracks⟩
    · exact absurd (only_inside hg hin hq rfl) hne
  · have hsaved := h.saved d hd
    obtain ⟨g, hg, -, -⟩ := hsaved.holds
    exact hsaved.frame (hkeep hg)

theorem journal_logLink (hg : Removable s.sem fun i => (s.child i).held = true)
    (hok : (s.child i).Ok c s.sem s.clock) (h : Journal c s es) (hpc : s.child i = .linked j) :
    Journal c { s with
      log := s.log ++ c.logRec (.reflink (c.dest i j))
      child := Function.update s.child i (.linkLogged j) } (es ++ [.reflink (c.dest i j)]) := by
  rw [hpc] at hok
  have hin : (s.child i).held = true := by
    rw [hpc]
    rfl
  have hnone := none_written hg hin (by simp [hpc])
  have hen : (Entry.reflink (c.dest i j)).Ok := c.destOk i j hok
  have hsaved := h.linked i j hpc
  have hwrites : writesOf (es ++ [Entry.reflink (c.dest i j)]) = writesOf es :=
    writesOf_append.trans (List.append_nil _)
  refine ⟨?_, ?_, ?_, ?_, ?_, fun q j' dwu' hw => ?_, fun _ => ?_, fun q j' hl => ?_,
    fun d hd => ?_⟩
  · simp only [h.log, logRec_eq hen, printEntries_append]
  · rw [List.forall_mem_append]
    exact ⟨h.entries, by simpa using hen⟩
  · rw [hwrites]
    exact h.order
  · rw [hwrites]
    exact fun _ => hsaved.some_write
  · rw [hwrites]
    exact fun _ _ => hsaved.some_write
  · obtain ⟨-, heq⟩ | ⟨-, hq⟩ := update_cases (P := fun ch : Child => ch = .written j' dwu') hw
    · cases heq
    · exact absurd hq (hnone q j' dwu')
  · rw [hwrites]
    exact h.settled hnone
  · obtain ⟨-, heq⟩ | ⟨hne, hq⟩ := update_cases (P := fun ch : Child => ch = .linked j') hl
    · cases heq
    · exact absurd (only_inside hg hin hq rfl) hne
  · rw [destLogs_append, destLogs, destLogs, Nat.zero_add] at hd
    rw [hwrites]
    rcases List.mem_append.mp hd with hd | hd
    · exact h.saved d hd
    · rw [List.mem_singleton.mp hd, List.take_length]
      exact hsaved

theorem journal_step (hg : Removable s.sem fun i => (s.child i).held = true)
    (hok : ∀ i, (s.child i).Ok c s.sem s.clock) (h : Journal c s es) (hstep : ChildStep c i s s') :
    ∃ es', Journal c s' es' := by
  cases hstep with
  | write hpc hfile => exact ⟨_, journal_write hg (hok i) h hpc hfile⟩
  | log hpc => exact ⟨_, journal_log hg (hok i) h hpc⟩
  | link hpc hlink => exact ⟨_, journal_link hg h hpc hlink⟩
  | logLink hpc => exact ⟨_, journal_logLink hg (hok i) h hpc⟩
  | p hpc hsem => exact ⟨es, h.quiet (quiet_afterP hpc) rfl rfl (Nat.le_refl _) rfl⟩
  | v hpc hsem => exact ⟨es, h.quiet (quiet_afterV hpc) rfl rfl (Nat.le_refl _) rfl⟩
  | pFails hpc hsem =>
    exact ⟨es, h.quiet (quiet_bail (quiet_afterP hpc).old_written) rfl rfl (Nat.le_refl _) rfl⟩
  | vFails hpc hsem =>
    exact ⟨es, h.quiet (quiet_bail (quiet_afterV hpc).old_written) rfl rfl (Nat.le_refl _) rfl⟩
  | stamp hpc rNo rChar t ht =>
    exact ⟨es, h.quiet ⟨by simp [hpc], by simp, by simp, by simp [Child.Begun]⟩ rfl rfl ht rfl⟩
  | draw hpc r =>
    refine ⟨es, h.quiet ⟨by simp [hpc], ?_, ?_, ?_⟩ rfl rfl (Nat.le_refl _) rfl⟩
    · split <;> simp
    · split <;> simp
    · simp [hpc, Child.Begun]
  | ready hpc r =>
    refine ⟨es, h.quiet ⟨by simp [hpc], ?_, ?_, ?_⟩ rfl rfl (Nat.le_refl _) rfl⟩
    · split <;> simp
    · split <;> simp
    · split <;> simp [Child.Begun]
  | linkFails hpc | done hpc =>
    exact ⟨es, h.quiet (quiet_bail (by simp [hpc])) rfl rfl (Nat.le_refl _) rfl⟩
  | crashed hpc | exit hpc =>
    exact ⟨es, h.quiet ⟨by simp [hpc], by simp, by simp, by simp [Child.Begun]⟩ rfl rfl
      (Nat.le_refl _) rfl⟩

-- ---------------------------------------------------------------------------
-- Before the forks
-- ---------------------------------------------------------------------------

theorem doReflinks_frame (h : doReflinks src pre manner rand iter k fs = some fs')
    (hp : fs path = some f) : fs' path = some f := by
  induction iter generalizing k fs with
  | zero =>
    cases h
    exact hp
  | succ iter ih =>
    simp only [doReflinks] at h
    split at h
    · cases h
    · next hlink => exact ih h (reflink_frame hlink hp)

theorem prepOrigFileInChunks_spec (c : Config) (f : ByteFile) (hn : n ≤ c.chunkNo) :
    n * CHUNK_SIZE ≤ (prepOrigFileInChunks c.endian f n).size ∧
      ∀ i < n, Prepared c.endian i
        (chunkAt (prepOrigFileInChunks c.endian f n) CHUNK_SIZE i) := by
  induction n with
  | zero => simp
  | succ n ih =>
    obtain ⟨-, hchunks⟩ := ih (by omega)
    have hlt : n < c.fileSize.toNat / CHUNK_SIZE := hn
    have hno : (initTable n).chunkNo.toNat = n := toNat_ofNat_chunk hlt
    have hoff : CHUNK_SIZE * (initTable n).chunkNo.toNat < 2 ^ 64 := by
      rw [hno]
      exact chunk_offset_lt hlt
    rw [prepOrigFileInChunks, size_doWriteChunk (by decide) hoff, hno]
    refine ⟨Nat.le_max_right _ _, fun i hi => ?_⟩
    rw [chunkAt_doWriteChunk (by decide) hoff, hno]
    split
    · next heq => rw [heq, Prepared]
    · next hne => exact hchunks i (by omega)

theorem inv_init (hsetup : setup c rand fs₀ = some fs) (clock : Micros) : Inv c (init c clock fs) := by
  obtain ⟨hsize, hchunks⟩ := prepOrigFileInChunks_spec c ((fs₀ c.orig).getD ByteFile.empty)
    (Nat.le_refl c.chunkNo)
  have horig := doReflinks_frame hsetup (Function.update_self c.orig _ fs₀)
  refine ⟨Guarded.start (by simp [init, Child.held]), fun i => ?_, [], rfl, by simp, InOrder.nil,
    by simp, by simp [init, Child.Begun], by simp [init], fun _ => ⟨_, horig, hsize, ?_⟩,
    by simp [init], by simp [destLogs]⟩
  · exact (Nat.eq_zero_or_pos c.chunkNo).symm
  · refine ⟨fun i wu hlast => ?_, fun i hi _ => hchunks i hi⟩
    obtain ⟨before, after, heq, -, -⟩ := hlast
    simp at heq

theorem inv_reachable (h : (destructiveTest c).Reachable s) : Inv c s := by
  refine h.invariant ?_ fun s s' _ hinv hstep => ?_
  · rintro s ⟨clock, rand, fs₀, fs, hsetup, rfl⟩
    exact inv_init hsetup clock
  · obtain ⟨i, hstep⟩ := hstep
    obtain ⟨es, hj⟩ := hinv.journal
    exact ⟨guarded_step hinv.childOk hinv.guarded hstep, childOk_step hinv.guarded hinv.childOk hstep,
      journal_step hinv.guarded hinv.childOk hj hstep⟩

-- ---------------------------------------------------------------------------
-- Agreement
-- ---------------------------------------------------------------------------

/-- A file that follows writes in the order of their times is what the verifier
makes of these writes. -/
theorem matches_of_holds (horder : InOrder c.chunkNo now units) (h : c.Holds fs units path) :
    ∃ f, fs path = some f ∧ Matches c.endian c.chunkNo f (units.foldl record initTable) := by
  obtain ⟨f, hf, hfull, htracks⟩ := h
  refine ⟨f, hf, fun i hi => ?_⟩
  rw [Nat.mul_comm, pread_chunk (Nat.le_trans (Nat.mul_le_mul_right _ hi) hfull)]
  by_cases hrec : ∃ u ∈ units, u.chunkNo.toNat = i
  · obtain ⟨wu, hlast⟩ := exists_lastOf hrec
    rw [horder.table_last hlast, htracks.written i wu hlast]
  · have hnone : ∀ u ∈ units, u.chunkNo.toNat ≠ i := fun u hu heq => hrec ⟨u, hu, heq⟩
    rw [foldl_record_other hnone]
    exact htracks.base i hi hnone

theorem Stopped.none_written (hg : Removable s.sem fun i => (s.child i).held = true)
    (h : Stopped s) (q : Fin c.childNums) (j : Nat) (dwu : WriteUnit) :
    s.child q ≠ .written j dwu := by
  obtain ⟨i, j', hi⟩ | hall := h
  · exact Reflink.none_written hg (by rw [hi]; rfl) (by simp [hi]) q j dwu
  · simp [hall q]

end

/-- Wherever the test stops, the log passes for the original file and for every
reflink in it. -/
theorem destructiveTest_verified (c : Config) (s : State c)
    (hreach : (destructiveTest c).Reachable s) (hstop : Stopped s) (hlog : s.log ≠ []) :
    Accepted (verifyDestFiles c.endian s.fs s.log c.chunkNo c.orig) := by
  have hinv := inv_reachable hreach
  obtain ⟨es, hj⟩ := hinv.journal
  have hne : es ≠ [] := fun h => hlog (hj.log.trans (printEntries_eq_nil.mpr h))
  have hwrites := hj.first hne
  have horig := c.origOk.toWord
  rw [hj.log, verifyDestFiles_accepted horig hj.entries hne]
  have hfile (d : DestLogs) (hd : 0 < d.index)
      (hholds : c.Holds s.fs ((writesOf es).take d.index) d.filename) :
      Accepted (verifyDestFile c.endian s.fs (printEntries c.orig es) c.chunkNo d) :=
    (verifyDestFile_accepted horig hj.entries hne hj.order.inTable hd).mpr
      (matches_of_holds (hj.order.take _) hholds)
  rw [List.forall_mem_cons]
  refine ⟨hfile _ (List.length_pos_iff.mpr hwrites) ?_, fun d hd => ?_⟩
  · rw [List.take_length]
    exact hj.settled (hstop.none_written hinv.guarded)
  · have hsaved := hj.saved d hd
    refine hfile d (Nat.pos_of_ne_zero fun hzero => hsaved.some_write ?_) hsaved.holds
    rw [hzero, List.take_zero]

theorem destPath_two : ∀ i : Fin 2, PathOk (destPath ['o'] (7 + (i.val : Int)) 0) :=
  Fin.forall_fin_two.mpr
    ⟨⟨word_of_all (by decide) (by decide) (by decide), by decide⟩,
      ⟨word_of_all (by decide) (by decide) (by decide), by decide⟩⟩

def twoChildren : Config where
  endian := .little
  fileSize := 8192
  refCounts := 0
  childNums := 2
  semId := 1
  orig := ['o']
  pid i := 7 + (i.val : Int)
  origOk := ⟨word_of_all (by decide) (by decide) (by decide), by decide⟩
  destOk i j hj := by
    obtain rfl : j = 0 := Nat.lt_one_iff.mp hj
    exact destPath_two i

/-- Each child writes the chunk, the first reflinks what the second has written, and
while the second waits for the semaphore the first triggers the crash. -/
theorem destructiveTest_verified_twoChildren :
    ∃ s : State twoChildren, (destructiveTest twoChildren).Reachable s ∧ Stopped s ∧ s.log ≠ [] ∧
      s.child (1 : Fin 2) = .link 0 ∧
      Accepted
        (verifyDestFiles twoChildren.endian s.fs s.log twoChildren.chunkNo twoChildren.orig) := by
  let a : Fin twoChildren.childNums := (0 : Fin 2)
  let b : Fin twoChildren.childNums := (1 : Fin 2)
  have h₀ := System.Reachable.init (S := destructiveTest twoChildren)
    ⟨0, fun _ => 0, fun _ => none, _, rfl, rfl⟩
  have h₁ := h₀.step ⟨a, .p rfl rfl⟩
  have h₂ := h₁.step ⟨a, .stamp rfl 0 0 0 (Nat.le_refl _)⟩
  have h₃ := h₂.step ⟨a, .write rfl rfl⟩
  have h₄ := h₃.step ⟨a, .log rfl⟩
  have h₅ := h₄.step ⟨a, .v rfl rfl⟩
  have g₁ := h₅.step ⟨b, .p rfl rfl⟩
  have g₂ := g₁.step ⟨b, .stamp rfl 0 1 0 (Nat.le_refl _)⟩
  have g₃ := g₂.step ⟨b, .write rfl rfl⟩
  have g₄ := g₃.step ⟨b, .log rfl⟩
  have g₅ := g₄.step ⟨b, .v rfl rfl⟩
  have h₆ := g₅.step ⟨a, .draw rfl 1⟩
  have h₇ := h₆.step ⟨a, .p rfl rfl⟩
  have h₈ := h₇.step ⟨a, .link (j := 0) rfl rfl⟩
  have h₉ := h₈.step ⟨a, .logLink rfl⟩
  have g₆ := h₉.step ⟨b, .draw rfl 1⟩
  have h₁₀ := g₆.step ⟨a, .v rfl rfl⟩
  have h₁₁ := h₁₀.step ⟨a, .ready rfl 0⟩
  have h₁₂ := h₁₁.step ⟨a, .p rfl rfl⟩
  refine ⟨_, h₁₂, ?hstop, ?hlog, rfl, destructiveTest_verified twoChildren _ h₁₂ ?hstop ?hlog⟩
  case hstop => exact .inl ⟨a, 0, rfl⟩
  case hlog =>
    have hok : (Entry.reflink (twoChildren.dest a 0)).Ok := twoChildren.destOk a 0 (by decide)
    refine List.append_ne_nil_of_right_ne_nil _ ?_
    rw [logRec_eq hok]
    exact spaced_ne_nil (List.cons_ne_nil _ _)

end Ocfs2Test.Reflink
