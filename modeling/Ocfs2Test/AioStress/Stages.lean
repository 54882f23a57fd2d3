import Ocfs2Test.AioStress.Accounts

/-!
# aio-stress: a thread by itself

With one context for each file every operation can run at once. Then each round of the
active list sends a request at least, each stage comes to its end and so does the thread,
whatever the kernel takes of a list and in whatever order the events come. By then each
operation has sent the records of all of its stages.
-/

namespace Ocfs2Test.AioStress.Ious

open Lib

variable {c : Config} {t t' : ThreadInfo} {m : Kernel} {o io : Nat} {ios builtOpers : List Nat}

-- ---------------------------------------------------------------------------
-- Submitting
-- ---------------------------------------------------------------------------

/-- The requests `ios` have gone to the kernel. -/
structure Sent (ios : List Nat) (t t' : ThreadInfo) : Prop where
  activeOpers : t'.activeOpers = t.activeOpers
  finishedOpers : t'.finishedOpers = t.finishedOpers
  iocb : ∀ io, (t'.ios io).iocb = (t.ios io).iocb
  range : ∀ o, (t'.opers o).toIoRange = (t.opers o).toIoRange
  rw : ∀ o, (t'.opers o).rw = (t.opers o).rw
  startedIos : ∀ o, (t'.opers o).startedIos =
    (t.opers o).startedIos + (recordsOf o (t.iocbs ios)).length

theorem startIous_sent (t : ThreadInfo) (ios : List Nat) : Sent ios t (startIous t ios) where
  activeOpers := by rw [startIous, foldl_startIou]
  finishedOpers := by rw [startIous, foldl_startIou]
  iocb io := by rw [startIous_ios]
  range o := by rw [startIous_opers]; rfl
  rw o := by rw [startIous_opers]; rfl
  startedIos o := by rw [startIous_opers]; rfl

theorem Kept.sent_none (h : Kept t t') : Sent [] t t' where
  activeOpers := h.activeOpers
  finishedOpers := h.finishedOpers
  iocb := h.iocb
  range o := (h.stage o).range
  rw o := (h.stage o).rw
  startedIos o := by
    rw [(h.stage o).startedIos]
    exact (add_zero _).symm

theorem Sent.trans {t'' : ThreadInfo} {ios' : List Nat} (h : Sent ios t t')
    (h' : Sent ios' t' t'') : Sent (ios ++ ios') t t'' where
  activeOpers := h'.activeOpers.trans h.activeOpers
  finishedOpers := h'.finishedOpers.trans h.finishedOpers
  iocb io := (h'.iocb io).trans (h.iocb io)
  range o := (h'.range o).trans (h.range o)
  rw o := (h'.rw o).trans (h.rw o)
  startedIos o := by
    have hsame : t'.iocbs ios' = t.iocbs ios' := List.map_congr_left fun io _ => h.iocb io
    rw [h'.startedIos, h.startedIos, hsame, iocbs_append, recordsOf_append, List.length_append]
    push_cast
    ring

/-- The kernel takes the first `k` requests, and none only where it has others. -/
theorem Inv.submit {ret : Int} {m' : Kernel} (h : Inv c t ios m.inFlight m.log) (hne : ios ≠ [])
    (hmax : ios.length ≤ c.maxIoSubmit)
    (hs : Gives c m (.ioSubmit (ios.map fun io => (io, (t.ios io).iocb))) ret m') :
    ∃ k ≤ ios.length, ret.toNat = k ∧
      (ret = k ∧ 0 < k ∨ ret = -EAGAIN ∧ k = 0 ∧ 0 < m.inFlight.card) ∧
      m'.inFlight = m.inFlight + (ios.take k : List Nat) ∧
      m'.log = m.log ++ t.iocbs (ios.take k) := by
  have hfst : (ios.map fun io => (io, (t.ios io).iocb)).map Prod.fst = ios := by
    rw [List.map_map]
    exact List.map_id ios
  have hnodup : ((ios : Multiset Nat) + m.inFlight).Nodup :=
    Multiset.nodup_of_le (by rw [add_assoc]; exact Multiset.le_add_left _ _) h.nodup
  have hplaced : ∀ iocb ∈ ios.map fun io => (io, (t.ios io).iocb), 0 ≤ iocb.2.offset := by
    intro iocb hiocb
    obtain ⟨io, hio, rfl⟩ := List.mem_map.mp hiocb
    exact h.built_nonneg hio
  have hgives := hs (by simpa using hne) (by simpa using hmax) hplaced (by rwa [hfst])
  obtain ⟨rfl, hbusy, rfl⟩ | ⟨hpos, hle, rfl⟩ := hgives
  · refine ⟨0, Nat.zero_le _, rfl, .inr ⟨rfl, rfl, Multiset.card_pos.mpr hbusy⟩, ?_, ?_⟩
    · simp
    · simp [ThreadInfo.iocbs]
  · rw [List.length_map] at hle
    refine ⟨ret.toNat, by omega, rfl, .inl ⟨by omega, by omega⟩, ?_, ?_⟩
    · rw [Kernel.take, List.map_take, hfst]
    · rw [Kernel.take, ← List.map_take, List.map_map, List.map_map]
      rfl

theorem runBuilt_under {fuel : Nat} (h : Inv c t ios m.inFlight m.log) (hne : ios ≠ [])
    (hmax : ios.length ≤ c.maxIoSubmit) (hfuel : 2 * ios.length + m.inFlight.card < fuel) :
    (runBuilt c fuel t ios).Under (Gives c)
      (fun r m' => r.1 = true ∧ Inv c r.2 [] m'.inFlight m'.log ∧ Sent ios t r.2) m := by
  induction fuel generalizing t ios m with
  | zero => exact absurd hfuel (Nat.not_lt_zero _)
  | succ fuel ih =>
    refine Prog.Under.ask fun (ret : Int) m₁ hs => ?_
    obtain ⟨k, hk, hret, htaken, hflight, hlog⟩ := h.submit hne hmax hs
    have hagain : EAGAIN = 11 := rfl
    have hpos := List.length_pos_iff.mpr hne
    have hsplit := h
    rw [← List.take_append_drop k ios] at hsplit
    have hstart := hsplit.start
    rw [← hflight, ← hlog] at hstart
    have hcard : m₁.inFlight.card = m.inFlight.card + k := by
      rw [hflight, Multiset.card_add, Multiset.coe_card, List.length_take, Nat.min_eq_left hk]
    dsimp only
    by_cases hall : ret = ios.length
    · obtain rfl : k = ios.length := by omega
      rw [List.take_length, List.drop_length] at hstart
      rw [if_neg (not_not.mpr hall)]
      exact ⟨rfl, hstart, startIous_sent t ios⟩
    · have hlt : k < ios.length := by omega
      have hgo : 0 < ret ∨ ret = -EAGAIN := by omega
      rw [if_pos hall, if_pos hgo, hret]
      refine (readSomeEvents_under hstart).bind fun r m₂ hm₂ => ?_
      obtain ⟨hinv, hkept, -, hcount, hsome⟩ := hm₂
      have hnr : 0 < r.1 := hsome (by omega)
      have hlength : (ios.drop k).length = ios.length - k := List.length_drop
      have hleft : ios.drop k ≠ [] := List.ne_nil_of_length_pos (by omega)
      rw [if_pos hnr]
      refine (ih hinv hleft (by omega) (by omega)).mono fun r' m₃ hm₃ => ?_
      obtain ⟨hok, hinv', hsent⟩ := hm₃
      have hwhole := ((startIous_sent t (ios.take k)).trans hkept.sent_none).trans hsent
      rw [List.append_nil, List.take_append_drop] at hwhole
      exact ⟨hok, hinv', hwhole⟩

-- ---------------------------------------------------------------------------
-- Building
-- ---------------------------------------------------------------------------

theorem recordsOf_nil (t : ThreadInfo) (o : Nat) : recordsOf o (t.iocbs []) = [] := rfl

/-- No context but the first ever waits for the file to grow. -/
theorem firstRunnable_cons {out : Multiset Nat} {log : List Iocb} (hfits : c.Fits)
    (h : Inv c t ios out log) (opers : List Nat) :
    firstRunnable t (o :: opers) = pure (some o) := by
  have hstart := h.start_eq hfits o
  simp only [firstRunnable, operRunnable, hstart, or_true, if_true]
  rfl

structure Building (c : Config) (t : ThreadInfo) (builtOpers ios : List Nat) : Prop where
  opers : (builtOpers : Multiset Nat) + t.activeOpers + t.finishedOpers =
    Multiset.range c.numOpers
  active : ∀ o ∈ t.activeOpers, (t.opers o).startedIos < (t.opers o).totalIos
  finished : ∀ o ∈ t.finishedOpers, (t.opers o).startedIos = (t.opers o).totalIos
  built : ∀ o ∈ builtOpers, recordsOf o (t.iocbs ios) ≠ []
  fresh : ∀ o ∈ t.activeOpers, recordsOf o (t.iocbs ios) = []
  length_le : ios.length ≤ builtOpers.length * c.ioIter

theorem Building.not_mem {opers : List Nat} (h : Building c t builtOpers ios)
    (hactive : t.activeOpers = o :: opers) : o ∉ builtOpers ∧ o ∉ opers := by
  have hnodup : ((builtOpers : Multiset Nat) + t.activeOpers + t.finishedOpers).Nodup := by
    rw [h.opers]
    exact Multiset.nodup_range _
  rw [hactive, ← Multiset.cons_coe, Multiset.add_cons, Multiset.cons_add,
    Multiset.nodup_cons] at hnodup
  have hnot := hnodup.1
  simp only [Multiset.mem_add, Multiset.mem_coe, not_or] at hnot
  exact hnot.1

theorem Building.lt (h : Building c t builtOpers ios) (ho : o ∈ t.activeOpers) :
    o < c.numOpers := by
  rw [← Multiset.mem_range, ← h.opers]
  simp [ho]

theorem Building.length_add (h : Building c t builtOpers ios) :
    builtOpers.length + t.activeOpers.length ≤ c.numOpers := by
  have hcard := congrArg Multiset.card h.opers
  simp only [Multiset.card_add, Multiset.coe_card, Multiset.card_range] at hcard
  omega

theorem Building.next {opers ios' : List Nat} {n : Nat} (h : Building c t builtOpers ios)
    (hactive : t.activeOpers = o :: opers) (hpos : 0 < n) (hle : n ≤ c.ioIter)
    (hnew : Built o n t t' ios ios') :
    Building c { t' with activeOpers := t'.activeOpers.erase o } (builtOpers ++ [o]) ios' := by
  obtain ⟨hbuilt, hopers⟩ := h.not_mem hactive
  have herase : t'.activeOpers.erase o = opers := by
    rw [hnew.activeOpers, hactive, List.erase_cons_head]
  have hmem {o' : Nat} (ho' : o' ∈ opers) : o' ∈ t.activeOpers := by
    rw [hactive]
    exact List.mem_cons_of_mem o ho'
  have hnum (o' : Nat) : (t'.opers o').totalIos = (t.opers o').totalIos :=
    congrArg IoRange.totalIos (hnew.range o')
  simp only [herase]
  refine ⟨?_, fun o' ho' => ?_, fun o' ho' => ?_, fun o' ho' => ?_, fun o' ho' => ?_, ?_⟩
  · have hall := h.opers
    rw [hactive, ← Multiset.cons_coe, ← Multiset.singleton_add] at hall
    rw [hnew.finishedOpers, ← Multiset.coe_add, Multiset.coe_singleton, ← hall]
    abel
  · rw [hnew.startedIos, hnum]
    exact h.active o' (hmem ho')
  · rw [hnew.startedIos, hnum]
    rw [hnew.finishedOpers] at ho'
    exact h.finished o' ho'
  · rcases List.mem_append.mp ho' with ho' | ho'
    · have hne : o' ≠ o := fun heq => hbuilt (heq ▸ ho')
      intro hnone
      exact h.built o' ho' ((hnew.recordsOf_of_ne hne).symm.trans hnone)
    · rw [List.mem_singleton.mp ho']
      intro hnone
      have hlength := hnew.recordsOf_self
      have hzero : (recordsOf o (t'.iocbs ios')).length = 0 := congrArg List.length hnone
      omega
  · have hne : o' ≠ o := fun heq => hopers (heq ▸ ho')
    exact (hnew.recordsOf_of_ne hne).trans (h.fresh o' (hmem ho'))
  · have hlength := h.length_le
    rw [hnew.length, List.length_append, List.length_singleton, Nat.add_mul, Nat.one_mul]
    omega

theorem buildActive_under {fuel : Nat} (hfits : c.Fits)
    (h : Inv c t ios m.inFlight m.log) (hb : Building c t builtOpers ios)
    (hmax : ios.length + c.ioIter ≤ c.maxIoSubmit) (hfuel : t.activeOpers.length < fuel) :
    (buildActive c fuel t builtOpers ios).Under (Gives c)
      (fun r m' => Inv c r.1 r.2.2 m'.inFlight m'.log ∧ Building c r.1 r.2.1 r.2.2 ∧
        r.2.2.length ≤ c.maxIoSubmit ∧
        (∀ o, (r.1.opers o).startedIos = (t.opers o).startedIos ∧
          (r.1.opers o).rw = (t.opers o).rw) ∧
        (builtOpers ++ t.activeOpers ≠ [] → r.2.1 ≠ [])) m := by
  induction fuel generalizing t builtOpers ios m with
  | zero => exact absurd hfuel (Nat.not_lt_zero _)
  | succ fuel ih =>
    rcases hactive : t.activeOpers with _ | ⟨o, opers⟩
    · rw [buildActive, hactive]
      refine ⟨h, hb, Nat.le_of_add_right_le hmax, fun _ => ⟨rfl, rfl⟩, fun hne => ?_⟩
      rwa [List.append_nil] at hne
    · have ho : o ∈ t.activeOpers := hactive ▸ List.mem_cons_self
      have hcount := hb.length_add
      have hroom : ios.length + c.ioIter ≤ c.numIos := by
        rw [hactive, List.length_cons] at hcount
        have hopers : (builtOpers.length + 1) * c.ioIter ≤ c.numOpers * c.depth :=
          Nat.mul_le_mul (by omega) c.ioIter_le_depth
        have hlength := hb.length_le
        rw [Nat.add_mul, Nat.one_mul] at hopers
        rw [Config.numIos]
        omega
      rw [buildActive, hactive, firstRunnable_cons hfits h]
      refine (buildOper_under hfits h (hb.lt ho) hroom hmax (hb.fresh o ho) (hb.active o ho)).bind
        fun r m₁ hm₁ => ?_
      obtain ⟨ret, t₁, ios₁⟩ := r
      obtain ⟨n, hn, hpos, hle, hinv, hbuilt, -⟩ := hm₁
      dsimp only at hn hinv hbuilt ⊢
      have hlength := hbuilt.length
      have hsame : ∀ o', (t₁.opers o').startedIos = (t.opers o').startedIos ∧
          (t₁.opers o').rw = (t.opers o').rw := fun o' => ⟨hbuilt.startedIos o', hbuilt.rw o'⟩
      have hnext := hb.next hactive hpos hle hbuilt
      have hinv' : Inv c { t₁ with activeOpers := t₁.activeOpers.erase o } ios₁
          m₁.inFlight m₁.log := hinv.withLists _ _
      have hfits : ios₁.length ≤ c.maxIoSubmit := by omega
      rw [if_pos (by omega)]
      split
      · exact ⟨hinv', hnext, hfits, hsame, fun _ => List.append_ne_nil_of_right_ne_nil _ (by simp)⟩
      · next hmore =>
        have hshorter : (t₁.activeOpers.erase o).length < fuel := by
          rw [hbuilt.activeOpers, hactive, List.erase_cons_head]
          rw [hactive, List.length_cons] at hfuel
          omega
        refine (ih hinv' hnext (Nat.not_lt.mp hmore) hshorter).mono fun r' m₂ hm₂ => ?_
        obtain ⟨hinv₂, hb₂, hmax₂, hsame₂, hsome⟩ := hm₂
        exact ⟨hinv₂, hb₂, hmax₂,
          fun o' => ⟨(hsame₂ o').1.trans (hsame o').1, (hsame₂ o').2.trans (hsame o').2⟩,
          fun _ => hsome (by simp)⟩

-- ---------------------------------------------------------------------------
-- Rounds
-- ---------------------------------------------------------------------------

/-- The thread in the first loop of a stage. -/
structure Sending (c : Config) (t : ThreadInfo) (m : Kernel) : Prop where
  inv : Inv c t [] m.inFlight m.log
  opers : (t.activeOpers : Multiset Nat) + t.finishedOpers = Multiset.range c.numOpers
  active : ∀ o ∈ t.activeOpers, (t.opers o).startedIos < (t.opers o).totalIos
  finished : ∀ o ∈ t.finishedOpers, (t.opers o).startedIos = (t.opers o).totalIos

def ThreadInfo.left (c : Config) (t : ThreadInfo) : Nat :=
  ∑ o ∈ Finset.range c.numOpers, ((t.opers o).totalIos - (t.opers o).startedIos).toNat

theorem Inv.started_le {out : Multiset Nat} {log : List Iocb} (h : Inv c t [] out log)
    (ho : o < c.numOpers) : (t.opers o).startedIos ≤ (t.opers o).totalIos := by
  obtain ⟨done, current, hhistory⟩ := h.history o ho
  have hstarted := hhistory.started
  rw [recordsOf_nil, List.length_nil, Int.natCast_zero, add_zero] at hstarted
  exact hstarted ▸ hhistory.within

theorem Sending.remaining (h : Sending c t m) : t.remaining = t.left c := by
  have hdone : (t.finishedOpers.map fun o =>
      ((t.opers o).totalIos - (t.opers o).startedIos).toNat).sum = 0 := by
    refine List.sum_eq_zero fun n hn => ?_
    obtain ⟨o, ho, rfl⟩ := List.mem_map.mp hn
    rw [h.finished o ho, sub_self, Int.toNat_zero]
  rw [ThreadInfo.left, Finset.sum_eq_multiset_sum, Finset.range_val, ← h.opers, Multiset.map_add,
    Multiset.sum_add, Multiset.map_coe, Multiset.map_coe, Multiset.sum_coe, Multiset.sum_coe, hdone,
    Nat.add_zero]
  rfl

theorem foldl_requeue (t : ThreadInfo) (opers : List Nat) :
    opers.foldl requeue t =
      { t with
        activeOpers := t.activeOpers ++
          opers.filter fun o => ¬ (t.opers o).startedIos = (t.opers o).totalIos
        finishedOpers := t.finishedOpers ++
          opers.filter fun o => (t.opers o).startedIos = (t.opers o).totalIos } := by
  induction opers generalizing t with
  | nil => simp
  | cons o opers ih =>
    rw [List.foldl_cons, ih, requeue]
    split
    · next hdone => simp [hdone]
    · next hmore => simp [hmore]

/-- The operations go back to a list when all of what was built has gone to the kernel. -/
theorem Building.requeue {t₁ t₂ : ThreadInfo} (hb : Building c t₁ builtOpers ios)
    (hsent : Sent ios t₁ t₂) (hinv : Inv c t₂ [] m.inFlight m.log) :
    Sending c (builtOpers.foldl Ious.requeue t₂) m := by
  have hall := hb.opers
  have hnum (o : Nat) : (t₂.opers o).totalIos = (t₁.opers o).totalIos :=
    congrArg IoRange.totalIos (hsent.range o)
  rw [foldl_requeue]
  refine ⟨hinv.withLists _ _, ?_, fun o ho => ?_, fun o ho => ?_⟩
  · simp only
    have hparts := Multiset.filter_add_not
      (fun o => (t₂.opers o).startedIos = (t₂.opers o).totalIos) (builtOpers : Multiset Nat)
    rw [Multiset.filter_coe, Multiset.filter_coe] at hparts
    rw [hsent.activeOpers, hsent.finishedOpers, ← hall, ← hparts, ← Multiset.coe_add,
      ← Multiset.coe_add]
    abel
  · rcases List.mem_append.mp ho with ho | ho
    · rw [hsent.activeOpers] at ho
      show (t₂.opers o).startedIos < (t₂.opers o).totalIos
      rw [hsent.startedIos, hb.fresh o ho, hnum, List.length_nil, Int.natCast_zero, add_zero]
      exact hb.active o ho
    · obtain ⟨hmem, hmore⟩ := List.mem_filter.mp ho
      have hlt : o < c.numOpers := by
        rw [← Multiset.mem_range, ← hall]
        simp [hmem]
      exact lt_of_le_of_ne (hinv.started_le hlt) (of_decide_eq_true hmore)
  · rcases List.mem_append.mp ho with ho | ho
    · rw [hsent.finishedOpers] at ho
      have hlt : o < c.numOpers := by
        rw [← Multiset.mem_range, ← hall]
        simp [ho]
      have hle := hinv.started_le hlt
      have hstarted := hsent.startedIos o
      have hfull := hb.finished o ho
      have htotal := hnum o
      show (t₂.opers o).startedIos = (t₂.opers o).totalIos
      omega
    · exact of_decide_eq_true (List.mem_filter.mp ho).2

theorem runActiveList_under (hfits : c.Fits) (h : Sending c t m)
    (hne : t.activeOpers ≠ []) :
    (runActiveList c t).Under (Gives c)
      (fun t' m' => Sending c t' m' ∧ t'.left c < t.left c ∧
        ∀ o, (t'.opers o).rw = (t.opers o).rw) m := by
  have hb : Building c t [] [] := by
    refine ⟨?_, h.active, h.finished, fun o ho => absurd ho List.not_mem_nil, fun _ _ => rfl,
      Nat.zero_le _⟩
    rw [← h.opers, Multiset.coe_nil, zero_add]
  refine (buildActive_under hfits h.inv hb (by simpa using c.ioIter_le_maxIoSubmit)
    (Nat.lt_succ_self _)).bind fun r m₁ hm₁ => ?_
  obtain ⟨t₁, builtOpers, ios⟩ := r
  obtain ⟨hinv, hbuilt, hmax, hsame, hsome⟩ := hm₁
  obtain ⟨o, ho⟩ := List.exists_mem_of_ne_nil _ (hsome hne)
  have hios : ios ≠ [] := by
    rintro rfl
    exact hbuilt.built o ho rfl
  have hglobal := hinv.global
  dsimp only at hinv hbuilt hmax hglobal ⊢
  rw [if_neg hios]
  refine (runBuilt_under hinv hios hmax (by omega)).bind fun r m₂ hm₂ => ?_
  obtain ⟨hok, hinv₂, hsent⟩ := hm₂
  have hsending := hbuilt.requeue hsent hinv₂
  have hopers : (builtOpers.foldl requeue r.2).opers = r.2.opers := by rw [foldl_requeue]
  rw [if_pos hok]
  refine ⟨hsending, ?_, fun o => ?_⟩
  · have hstarted (o : Nat) : (r.2.opers o).startedIos =
        (t.opers o).startedIos + (recordsOf o (t₁.iocbs ios)).length := by
      rw [hsent.startedIos, (hsame o).1]
    have htotal (o : Nat) : (r.2.opers o).totalIos = (t.opers o).totalIos := by
      have hrange := (hinv₂.range o).trans (h.inv.range o).symm
      exact congrArg IoRange.totalIos hrange
    have hlt : o < c.numOpers := by
      rw [← Multiset.mem_range, ← hbuilt.opers]
      simp [ho]
    rw [ThreadInfo.left, ThreadInfo.left, hopers]
    refine Finset.sum_lt_sum (fun o' _ => ?_) ⟨o, Finset.mem_range.mpr hlt, ?_⟩
    · have := hstarted o'
      have := htotal o'
      omega
    · have := hstarted o
      have := htotal o
      have := hinv₂.started_le hlt
      have := List.length_pos_iff.mpr (hbuilt.built o ho)
      omega
  · rw [hopers, hsent.rw, (hsame o).2]

theorem sendAll_under {fuel : Nat} (hfits : c.Fits) (h : Sending c t m)
    (hfuel : t.left c < fuel) :
    (sendAll c fuel t).Under (Gives c)
      (fun t' m' => Sending c t' m' ∧ t'.activeOpers = [] ∧
        ∀ o, (t'.opers o).rw = (t.opers o).rw) m := by
  induction fuel generalizing t m with
  | zero => exact absurd hfuel (Nat.not_lt_zero _)
  | succ fuel ih =>
    rw [sendAll]
    split
    · next hnone => exact ⟨h, hnone, fun _ => rfl⟩
    · next hsome =>
      refine (runActiveList_under hfits h hsome).bind fun t₁ m₁ hm₁ => ?_
      obtain ⟨hsending, hless, hrw⟩ := hm₁
      refine (ih hsending (by omega)).mono fun t₂ m₂ hm₂ => ?_
      obtain ⟨hsending₂, hnone, hrw₂⟩ := hm₂
      exact ⟨hsending₂, hnone, fun o => (hrw₂ o).trans (hrw o)⟩

-- ---------------------------------------------------------------------------
-- Waiting
-- ---------------------------------------------------------------------------

theorem Inv.none_of_pending {out : Multiset Nat} {log : List Iocb} (h : Inv c t ios out log)
    (hzero : (t.opers o).numPending = 0) : ∀ io ∈ out, (t.ios io).iocb.oper ≠ o := by
  have hcount := h.pending o
  rw [hzero] at hcount
  exact Multiset.countP_eq_zero.mp (by exact_mod_cast hcount.symm)

theorem ioOperWait_under {fuel : Nat} (h : Inv c t [] m.inFlight m.log)
    (hfuel : m.inFlight.card < fuel) :
    (ioOperWait o fuel t).Under (Gives c)
      (fun t' m' => Inv c t' [] m'.inFlight m'.log ∧ Kept t t' ∧ m'.inFlight ≤ m.inFlight ∧
        ∀ io ∈ m'.inFlight, (t'.ios io).iocb.oper ≠ o) m := by
  induction fuel generalizing t m with
  | zero => exact absurd hfuel (Nat.not_lt_zero _)
  | succ fuel ih =>
    rw [ioOperWait]
    by_cases hzero : (t.opers o).numPending = 0
    · rw [if_pos hzero]
      exact ⟨h, .refl t, le_rfl, h.none_of_pending hzero⟩
    · rw [if_neg hzero]
      have hbusy : (1 : Int) ≤ m.inFlight.card := by
        have hpending := h.pending o
        have hle := Multiset.countP_le_card (fun io => (t.ios io).iocb.oper = o) m.inFlight
        omega
      refine Prog.Under.ask fun events m₁ hs => ?_
      obtain ⟨given, rfl, hleast, -, hsplit, hlog⟩ := hs hbusy le_rfl zero_le_one
      rcases given with _ | ⟨event, given⟩
      · exact absurd hleast (by decide)
      · have hcard := congrArg Multiset.card hsplit
        rw [Multiset.card_add, Multiset.coe_card, List.map_cons, List.length_cons] at hcard
        have hless : m₁.inFlight ≤ m.inFlight := hsplit ▸ Multiset.le_add_left _ _
        rw [hsplit, ← hlog] at h
        refine (finishIos_under h).bind fun t₁ m₂ hm₂ => ?_
        obtain ⟨rfl, hinv, hkept⟩ := hm₂
        refine (ih hinv (by omega)).mono fun t₂ m₃ hm₃ => ?_
        obtain ⟨hinv₃, hkept₃, hle, hnone⟩ := hm₃
        exact ⟨hinv₃, hkept.trans hkept₃, hle.trans hless, hnone⟩

theorem waitAll_under {opers : List Nat} (h : Inv c t [] m.inFlight m.log) :
    (waitAll opers t).Under (Gives c)
      (fun t' m' => Inv c t' [] m'.inFlight m'.log ∧ Kept t t' ∧ m'.inFlight ≤ m.inFlight ∧
        ∀ o ∈ opers, ∀ io ∈ m'.inFlight, (t'.ios io).iocb.oper ≠ o) m := by
  induction opers generalizing t m with
  | nil => exact ⟨h, .refl t, le_rfl, fun o ho => absurd ho List.not_mem_nil⟩
  | cons o opers ih =>
    have hglobal := h.global
    rw [waitAll]
    refine (ioOperWait_under h (by omega)).bind fun t₁ m₁ hm₁ => ?_
    obtain ⟨hinv, hkept, hle, hnone⟩ := hm₁
    refine (ih hinv).mono fun t₂ m₂ hm₂ => ?_
    obtain ⟨hinv₂, hkept₂, hle₂, hnone₂⟩ := hm₂
    refine ⟨hinv₂, hkept.trans hkept₂, hle₂.trans hle, fun o' ho' io hio => ?_⟩
    rcases List.mem_cons.mp ho' with rfl | ho'
    · rw [hkept₂.iocb]
      exact hnone io (Multiset.mem_of_le hle₂ hio)
    · exact hnone₂ o' ho' io hio

-- ---------------------------------------------------------------------------
-- Restarts
-- ---------------------------------------------------------------------------

theorem restartOper_eq_some {oper oper' : IoOper} (h : restartOper c oper = some oper') :
    ∃ rw, nextStage c.stages oper.rw = some rw ∧
      oper' = { oper with startedIos := 0, lastOffset := oper.start, rw := rw } := by
  rw [restartOper] at h
  split at h
  · cases h
  · obtain ⟨rw, hrw, heq⟩ := Option.map_eq_some_iff.mp h
    exact ⟨rw, hrw, heq.symm⟩

theorem later_lt {stages : Rw → Bool} {rw rw' : Rw} (h : nextStage stages rw = some rw') :
    rw'.later.length < rw.later.length := by
  have hmem : rw' ∈ rw.later := List.mem_of_find?_eq_some h
  cases rw <;> cases rw' <;> first | decide | exact absurd hmem (by decide)

/-- A stage with all its records is behind an operation that is restarted. -/
theorem History.restart {oper : IoOper} {sent current : List Iocb} {done : List (Rw × List Iocb)}
    {rw : Rw} (h : History c oper sent [] done current)
    (hfull : oper.startedIos = oper.totalIos) (hnext : nextStage c.stages oper.rw = some rw) :
    History c { oper with startedIos := 0, lastOffset := oper.start, rw := rw } sent []
      (done ++ [(oper.rw, current)]) [] where
  split := by
    rw [h.split, List.map_append, List.flatten_append, List.append_nil]
    simp
  full := by
    intro stage hstage
    rcases List.mem_append.mp hstage with hstage | hstage
    · exact h.full stage hstage
    · rw [List.mem_singleton.mp hstage]
      have hstarted := h.started
      rw [List.length_nil, Int.natCast_zero, add_zero] at hstarted
      exact ⟨hstarted.symm.trans hfull, h.records⟩
  records i r hi := by
    rw [List.getElem?_nil] at hi
    cases hi
  inOrder := by
    obtain ⟨hfirst, hchain⟩ := h.inOrder
    have hhead : (done.map Prod.fst ++ [oper.rw] ++ [rw]).head? = some c.firstStage := by
      rw [List.head?_append, hfirst]
      rfl
    rw [List.append_assoc] at hhead
    rw [List.map_append, List.map_singleton, List.append_assoc]
    exact ⟨hhead, List.isChain_append_cons_cons.mpr ⟨hchain, hnext, List.isChain_singleton _⟩⟩
  started := rfl
  within := by
    have hwithin := h.within
    simp only [List.length_nil, Int.natCast_zero]
    omega
  offset _ := by simp

/-- What is left of all stages behind the ones that the operations are in. -/
def ThreadInfo.later (c : Config) (t : ThreadInfo) : Nat :=
  ∑ o ∈ Finset.range c.numOpers, (t.opers o).rw.later.length

/-- A thread whose active operations have all come to the end of their stage. -/
structure Waited (c : Config) (t : ThreadInfo) (m : Kernel) : Prop extends Sending c t m where
  none_active : t.activeOpers = []
  inFlight : m.inFlight = 0

theorem Waited.mem_finished (h : Waited c t m) (ho : o < c.numOpers) : o ∈ t.finishedOpers := by
  have hopers := h.opers
  rw [h.none_active, Multiset.coe_nil, zero_add] at hopers
  rw [← Multiset.mem_coe, hopers]
  exact Multiset.mem_range.mpr ho

theorem restartOpers_opers_of_none (ho : o ∈ t.finishedOpers)
    (hrestart : restartOper c (t.opers o) = none) : (restartOpers c t).opers o = t.opers o := by
  rw [restartOpers]
  simp only [if_pos ho, hrestart, Option.getD_none]

theorem restartOpers_opers_of_some {oper : IoOper} (ho : o ∈ t.finishedOpers)
    (hrestart : restartOper c (t.opers o) = some oper) : (restartOpers c t).opers o = oper := by
  rw [restartOpers]
  simp only [if_pos ho, hrestart, Option.getD_some]

theorem restartOpers_opers_of_notMem (ho : o ∉ t.finishedOpers) :
    (restartOpers c t).opers o = t.opers o := by
  rw [restartOpers]
  simp only [if_neg ho]

/-- An operation is what it was, or at the start of its next stage. -/
theorem restartOpers_cases (c : Config) (t : ThreadInfo) (o : Nat) :
    (restartOpers c t).opers o = t.opers o ∨
      o ∈ t.finishedOpers ∧ ∃ rw, nextStage c.stages (t.opers o).rw = some rw ∧
        (restartOpers c t).opers o =
          { t.opers o with startedIos := 0, lastOffset := (t.opers o).start, rw := rw } := by
  by_cases ho : o ∈ t.finishedOpers
  · cases hrestart : restartOper c (t.opers o) with
    | none => exact .inl (restartOpers_opers_of_none ho hrestart)
    | some oper =>
      obtain ⟨rw, hnext, rfl⟩ := restartOper_eq_some hrestart
      exact .inr ⟨ho, rw, hnext, restartOpers_opers_of_some ho hrestart⟩
  · exact .inl (restartOpers_opers_of_notMem ho)

theorem Waited.restart_inv (h : Waited c t m) : Inv c (restartOpers c t) [] m.inFlight m.log := by
  have hinv := h.inv
  refine ⟨hinv.all, hinv.idle, hinv.owner, hinv.global, fun o => ?_, fun o => ?_, fun o ho => ?_⟩
  · have hpending := hinv.pending o
    rcases restartOpers_cases c t o with heq | ⟨-, rw, -, heq⟩ <;> rw [heq] <;> exact hpending
  · have hrange := hinv.range o
    rcases restartOpers_cases c t o with heq | ⟨-, rw, -, heq⟩ <;> rw [heq] <;> exact hrange
  · obtain ⟨done, current, hhistory⟩ := hinv.history o ho
    rcases restartOpers_cases c t o with heq | ⟨hmem, rw, hnext, heq⟩
    · rw [heq]
      exact ⟨done, current, hhistory⟩
    · rw [heq]
      exact ⟨_, _, hhistory.restart (h.finished o hmem) hnext⟩

theorem Waited.restart (hpos : ∀ o, 0 < (t.opers o).totalIos) (h : Waited c t m) :
    Sending c (restartOpers c t) m := by
  have hopers := h.opers
  refine ⟨h.restart_inv, ?_, fun o ho => ?_, fun o ho => ?_⟩
  · have hparts := Multiset.filter_add_not
      (fun o => (restartOper c (t.opers o)).isSome = true) (t.finishedOpers : Multiset Nat)
    rw [Multiset.filter_coe, Multiset.filter_coe] at hparts
    rw [h.none_active, Multiset.coe_nil, zero_add, ← hparts] at hopers
    have hback : (fun o => (restartOper c (t.opers o)).isNone) =
        fun o => decide ¬ (restartOper c (t.opers o)).isSome = true := by
      funext o
      cases restartOper c (t.opers o) <;> rfl
    rw [← hopers, restartOpers, h.none_active, List.nil_append, hback]
    simp only [Bool.decide_eq_true]
  · rw [restartOpers, h.none_active, List.nil_append] at ho
    obtain ⟨hmem, hsome⟩ := List.mem_filter.mp ho
    obtain ⟨oper, hrestart⟩ := Option.isSome_iff_exists.mp hsome
    obtain ⟨rw, -, rfl⟩ := restartOper_eq_some hrestart
    rw [restartOpers_opers_of_some hmem hrestart]
    exact hpos o
  · obtain ⟨hmem, hnone⟩ := List.mem_filter.mp ho
    rw [restartOpers_opers_of_none hmem (Option.isNone_iff_eq_none.mp hnone)]
    exact h.finished o hmem

/-- Those that stay behind have nothing more to do. -/
theorem restartOper_finished (ho : o ∈ (restartOpers c t).finishedOpers) :
    restartOper c ((restartOpers c t).opers o) = none := by
  obtain ⟨hmem, hnone⟩ := List.mem_filter.mp ho
  have hnone' := Option.isNone_iff_eq_none.mp hnone
  rwa [restartOpers_opers_of_none hmem hnone']

theorem Waited.later_lt (h : Waited c t m) (hne : (restartOpers c t).activeOpers ≠ []) :
    (restartOpers c t).later c < t.later c := by
  obtain ⟨o, ho⟩ := List.exists_mem_of_ne_nil _ hne
  rw [restartOpers, h.none_active, List.nil_append] at ho
  obtain ⟨hmem, hsome⟩ := List.mem_filter.mp ho
  obtain ⟨oper, hrestart⟩ := Option.isSome_iff_exists.mp hsome
  obtain ⟨rw, hnext, rfl⟩ := restartOper_eq_some hrestart
  have hlt : o < c.numOpers := by
    rw [← Multiset.mem_range, ← h.opers]
    simp [hmem]
  refine Finset.sum_lt_sum (fun o' _ => ?_) ⟨o, Finset.mem_range.mpr hlt, ?_⟩
  · rcases restartOpers_cases c t o' with heq | ⟨-, rw', hnext', heq⟩
    · rw [heq]
    · rw [heq]
      exact (Ious.later_lt hnext').le
  · rw [restartOpers_opers_of_some hmem hrestart]
    exact Ious.later_lt hnext

-- ---------------------------------------------------------------------------
-- The worker
-- ---------------------------------------------------------------------------

theorem createOper_totalIos_pos (hfits : c.Fits) : 0 < (createOper c 0).totalIos := by
  have htotal : (createOper c 0).totalIos = (c.fileSize / c.recLen : Nat) := by
    rw [Int.ofNat_tdiv]
    simp [createOper]
  rw [htotal]
  exact_mod_cast Nat.div_pos hfits.recLen_le hfits.recLen_pos

/-- A stage comes to its end, with nothing in flight, before operations are restarted. -/
theorem runStage_under (hfits : c.Fits) (h : Sending c t m) :
    (runStage c t).Under (Gives c)
      (fun t' m' => ∃ t₁, Waited c t₁ m' ∧ t' = restartOpers c t₁ ∧ t₁.later c = t.later c) m := by
  refine (sendAll_under hfits h (by rw [h.remaining]; exact Nat.lt_succ_self _)).bind
    fun t₁ m₁ hm₁ => ?_
  obtain ⟨hsending, hnone, hrw⟩ := hm₁
  refine (waitAll_under hsending.inv).bind fun t₂ m₂ hm₂ => ?_
  obtain ⟨hinv, hkept, -, hidle⟩ := hm₂
  have hrange (o : Nat) : (t₂.opers o).totalIos = (t₁.opers o).totalIos :=
    congrArg IoRange.totalIos (hkept.stage o).range
  have hopers : (t₂.activeOpers : Multiset Nat) + t₂.finishedOpers = Multiset.range c.numOpers := by
    rw [hkept.activeOpers, hkept.finishedOpers]
    exact hsending.opers
  have hempty : t₂.activeOpers = [] := hkept.activeOpers.trans hnone
  refine ⟨t₂, ⟨⟨hinv, hopers, fun o ho => ?_, fun o ho => ?_⟩, hempty, ?_⟩, rfl, ?_⟩
  · rw [hempty] at ho
    exact absurd ho List.not_mem_nil
  · rw [hkept.finishedOpers] at ho
    rw [(hkept.stage o).startedIos, hrange]
    exact hsending.finished o ho
  · refine Multiset.eq_zero_of_forall_notMem fun io hio => ?_
    have hlt := hinv.owner io (.inr hio)
    rw [← Multiset.mem_range, ← hopers, hempty, Multiset.coe_nil, zero_add, Multiset.mem_coe,
      hkept.finishedOpers] at hlt
    exact hidle _ hlt io hio rfl
  · refine Finset.sum_congr rfl fun o _ => ?_
    rw [(hkept.stage o).rw, hrw]

/-- A thread at its end: no operation can be restarted. -/
structure Ended (c : Config) (t : ThreadInfo) (m : Kernel) : Prop extends Waited c t m where
  restart : ∀ o < c.numOpers, restartOper c (t.opers o) = none

theorem worker_under {fuel : Nat} (hfits : c.Fits) (h : Sending c t m) (hfuel : t.later c < fuel) :
    (worker c fuel t).Under (Gives c) (Ended c) m := by
  induction fuel generalizing t m with
  | zero => exact absurd hfuel (Nat.not_lt_zero _)
  | succ fuel ih =>
    rw [worker]
    refine (runStage_under hfits h).bind fun t₁ m₁ hm₁ => ?_
    obtain ⟨t₁, hwaited, rfl, hlater⟩ := hm₁
    have hpos (o : Nat) : 0 < (t₁.opers o).totalIos := by
      rw [congrArg IoRange.totalIos (hwaited.inv.range_eq hfits o)]
      exact createOper_totalIos_pos hfits
    have hsending := hwaited.restart hpos
    split
    · next hnone =>
      have hend : Waited c (restartOpers c t₁) m₁ := ⟨hsending, hnone, hwaited.inFlight⟩
      exact ⟨hend, fun o ho => restartOper_finished (hend.mem_finished ho)⟩
    · next hsome =>
      have hless := hwaited.later_lt hsome
      exact ih hsending (by omega)

theorem sending_start (hfits : c.Fits) : Sending c c.thread ⟨0, []⟩ := by
  have hpos := createOper_totalIos_pos hfits
  have hinv : Inv c c.thread [] 0 [] := by
    refine ⟨?_, fun io _ => rfl, fun io hio => ?_, rfl, fun o => rfl, fun o => rfl, fun o ho => ?_⟩
    · show (((List.range c.numIos).reverse : List Nat) : Multiset Nat) + _ + 0 = _
      rw [Multiset.coe_reverse, add_zero]
      exact add_zero _
    · rcases hio with hio | hio
      · exact absurd hio List.not_mem_nil
      · exact absurd hio (Multiset.notMem_zero io)
    · refine ⟨[], [], rfl, fun stage hstage => absurd hstage List.not_mem_nil, fun i r hi => ?_,
        ⟨rfl, List.isChain_singleton _⟩, rfl, ?_, fun _ => ?_⟩
      · rw [List.getElem?_nil] at hi
        cases hi
      · show (0 : Int) ≤ (createOper c (o % c.numContexts)).totalIos
        rw [hfits.numContexts, Nat.mod_one]
        exact hpos.le
      · show (createOper c (o % c.numContexts)).lastOffset = _
        simp [createOper, Config.thread]
  refine ⟨hinv, add_zero _, fun o _ => ?_, fun o ho => absurd ho List.not_mem_nil⟩
  show 0 < (createOper c (o % c.numContexts)).totalIos
  rw [hfits.numContexts, Nat.mod_one]
  exact hpos

theorem later_start (c : Config) : c.thread.later c < 3 * c.numOpers + 1 := by
  have hle : c.thread.later c ≤ ∑ _o ∈ Finset.range c.numOpers, 3 := by
    refine Finset.sum_le_sum fun o _ => ?_
    show c.firstStage.later.length ≤ 3
    cases c.firstStage <;> decide
  rw [Finset.sum_const, Finset.card_range, smul_eq_mul, Nat.mul_comm] at hle
  exact Nat.lt_succ_of_le hle

/-- What a run of a thread is for. All its units are free again, and each operation has sent
the records of its stages in their order, of all that were asked for unless it met an error. -/
structure Complete (c : Config) (t : ThreadInfo) (m : Kernel) : Prop where
  activeOpers : t.activeOpers = []
  inFlight : m.inFlight = 0
  numGlobalPending : t.numGlobalPending = 0
  freeIous : t.freeIous.Perm (List.range c.numIos)
  stages : ∀ o < c.numOpers, ∃ stages : List (Rw × List Iocb),
    recordsOf o m.log = (stages.map Prod.snd).flatten ∧ Full (createOper c 0).toIoRange stages ∧
      InOrder c (stages.map Prod.fst) ∧ ((t.opers o).lastErr = 0 →
        (stages.map Prod.fst).getLast?.bind (nextStage c.stages) = none)

theorem Ended.complete (hfits : c.Fits) (h : Ended c t m) : Complete c t m := by
  have hinv := h.inv
  refine ⟨h.none_active, h.inFlight, ?_, ?_, fun o ho => ?_⟩
  · rw [hinv.global, h.inFlight]
    rfl
  · have hall := hinv.all
    rw [h.inFlight, Multiset.coe_nil, add_zero, add_zero] at hall
    exact Multiset.coe_eq_coe.mp hall
  · obtain ⟨done, current, hhistory⟩ := hinv.history o ho
    have hsplit := hhistory.split
    have hstarted := hhistory.started
    have hrange := hinv.range_eq hfits o
    have hfinished := h.finished o (h.mem_finished ho)
    rw [recordsOf_nil, List.append_nil] at hsplit
    rw [recordsOf_nil, List.length_nil, Int.natCast_zero, add_zero] at hstarted
    refine ⟨done ++ [((t.opers o).rw, current)], ?_, fun stage hstage => ?_, ?_, fun herr => ?_⟩
    · rw [hsplit]
      simp
    · rw [← hrange]
      rcases List.mem_append.mp hstage with hstage | hstage
      · exact hhistory.full stage hstage
      · rw [List.mem_singleton.mp hstage]
        exact ⟨hstarted.symm.trans hfinished, hhistory.records⟩
    · rw [List.map_append]
      exact hhistory.inOrder
    · have hnone := h.restart o ho
      rw [restartOper, if_neg (not_not.mpr herr), Option.map_eq_none_iff] at hnone
      rw [List.map_append, List.map_singleton, List.getLast?_concat]
      exact hnone

/-- With one context for each file and a record that fits into it the thread ends, and all
has been sent. -/
theorem worker_sends (c : Config) (hfits : c.Fits) :
    (worker c (3 * c.numOpers + 1) c.thread).Under (Gives c) (Complete c) ⟨0, []⟩ :=
  (worker_under hfits (sending_start hfits) (later_start c)).mono fun _ _ h => h.complete hfits

-- ---------------------------------------------------------------------------
-- A kernel
-- ---------------------------------------------------------------------------

def twoFiles : Config where
  numFiles := 2
  numContexts := 1
  contextOffset := 0
  fileSize := 3
  recLen := 1
  depth := 1
  ioIter := 1
  maxIoSubmit := 2
  pageSizeMask := 0
  stages _ := true
  firstStage := .write
  ioIter_pos := Nat.one_pos
  ioIter_le_depth := le_rfl
  ioIter_le_maxIoSubmit := one_le_two

structure Queue where
  inFlight : List Nat
  log : List Iocb

/-- A kernel that takes one request at a time and gives back what it has in its order. -/
def oneAtATime : Device Call Answer Queue := fun q call =>
  match call with
  | .ioSubmit iocbs =>
    (((iocbs.take 1).length : Int),
      ⟨q.inFlight ++ (iocbs.take 1).map Prod.fst, q.log ++ (iocbs.take 1).map Prod.snd⟩)
  | .ioGetevents _ nr =>
    (some ((q.inFlight.take nr.toNat).map fun io => (io, 1)),
      { q with inFlight := q.inFlight.drop nr.toNat })
  | .fstat _ => (⟨0, true, 3⟩, q)
  | .rand => (0, q)

def Queue.kernel (q : Queue) : Kernel := ⟨q.inFlight, q.log⟩

theorem oneAtATime_gives (c : Config) (q : Queue) (call : Call) :
    Gives c q.kernel call (oneAtATime q call).1 (oneAtATime q call).2.kernel := by
  cases call with
  | ioSubmit iocbs =>
    intro hne _ _ _
    obtain ⟨iocb, rest, rfl⟩ := List.exists_cons_of_ne_nil hne
    refine .inr ⟨Int.one_pos, ?_, ?_⟩
    · simp [oneAtATime]
    · simp [oneAtATime, Queue.kernel, Kernel.take, ← Multiset.coe_add]
  | ioGetevents minNr nr =>
    intro hleast hle hnr
    refine ⟨_, rfl, ?_, ?_, ?_, rfl⟩
    · have hcard : minNr ≤ q.inFlight.length := hleast
      simp only [List.length_map, List.length_take]
      omega
    · simp only [List.length_map, List.length_take]
      omega
    · have hfst : ((q.inFlight.take nr.toNat).map fun io => (io, (1 : Int))).map Prod.fst =
          q.inFlight.take nr.toNat := by
        rw [List.map_map]
        exact List.map_id _
      rw [hfst]
      show (q.inFlight : Multiset Nat) =
        (q.inFlight.take nr.toNat : Multiset Nat) + (q.inFlight.drop nr.toNat : Multiset Nat)
      rw [Multiset.coe_add, List.take_append_drop]
  | fstat o => exact ⟨le_rfl, rfl⟩
  | rand => exact ⟨Nat.zero_le _, rfl⟩

theorem twoFiles_fits : twoFiles.Fits := ⟨rfl, by decide, by decide, .inl (by decide)⟩

theorem worker_sends_twoFiles :
    (worker twoFiles 7 twoFiles.thread).Passes oneAtATime
      (fun t q => Complete twoFiles t q.kernel) ⟨[], []⟩ := by
  have hspec (q : Queue) (m : Kernel) (call : Call) (hm : m = q.kernel) :
      ∃ m', Gives twoFiles m call (oneAtATime q call).1 m' ∧ m' = (oneAtATime q call).2.kernel :=
    ⟨_, hm ▸ oneAtATime_gives twoFiles q call, rfl⟩
  have hends : (worker twoFiles 7 twoFiles.thread).Passes oneAtATime
      (fun t q => ∃ m, m = q.kernel ∧ Complete twoFiles t m) ⟨[], []⟩ :=
    (worker_sends twoFiles twoFiles_fits).passes rfl hspec
  obtain ⟨t, hend, m, rfl, hcomplete⟩ := hends
  exact ⟨t, hend, hcomplete⟩

end Ocfs2Test.AioStress.Ious
