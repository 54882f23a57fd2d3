import Ocfs2Test.AioStress.Ious

/-!
# aio-stress: what a thread sends

The units of a thread are always either free, built or with the kernel, and each counter
says how many there are of a kind. What was sent and built for an operation is the record
of its stages: those before it in full, and the first records of the stage it is in.
-/

namespace Ocfs2Test.AioStress.Ious

open Lib

-- ---------------------------------------------------------------------------
-- The kernel
-- ---------------------------------------------------------------------------

structure Kernel where
  inFlight : Multiset Nat
  log : List Iocb

def Kernel.take (m : Kernel) (iocbs : List (Nat × Iocb)) : Kernel :=
  ⟨m.inFlight + (iocbs.map Prod.fst : List Nat), m.log ++ iocbs.map Prod.snd⟩

/-- What the system calls promise. A call that should not have been made promises nothing:
a unit must not be submitted again before its event, no request begins in front of a file,
and who waits for more events than there are requests waits for ever. With no requests in
flight there is room for one. -/
def Gives (c : Config) (m : Kernel) : (call : Call) → Answer call → Kernel → Prop
  | .ioSubmit iocbs, ret, m' =>
    let ret : Int := ret
    iocbs ≠ [] → iocbs.length ≤ c.maxIoSubmit → (∀ iocb ∈ iocbs, 0 ≤ iocb.2.offset) →
      ((iocbs.map Prod.fst : List Nat) + m.inFlight : Multiset Nat).Nodup →
      ret = -EAGAIN ∧ m.inFlight ≠ 0 ∧ m' = m ∨
        0 < ret ∧ ret ≤ iocbs.length ∧ m' = m.take (iocbs.take ret.toNat)
  | .ioGetevents minNr nr, events, m' =>
    minNr ≤ m.inFlight.card → minNr ≤ nr → 0 ≤ nr →
      ∃ given : List (Nat × Int), events = some given ∧
      minNr ≤ given.length ∧ given.length ≤ nr ∧
      m.inFlight = (given.map Prod.fst : List Nat) + m'.inFlight ∧ m'.log = m.log
  | .fstat _, s, m' => 0 ≤ s.ret ∧ m' = m
  | .rand, r, m' => r ≤ RAND_MAX ∧ m' = m

-- ---------------------------------------------------------------------------
-- Accounts
-- ---------------------------------------------------------------------------

variable {c : Config} {t t' : ThreadInfo} {m : Kernel} {o io : Nat} {rest built : List Nat}
  {out : Multiset Nat} {log : List Iocb} {oper oper' : IoOper}

/-- The records of a stage from its first one on. -/
def Records (range : IoRange) (rw : Rw) (records : List Iocb) : Prop :=
  ∀ (i : Nat) r, records[i]? = some r → r.writes = rw.writes ∧ r.count = range.reclen ∧
    0 ≤ r.offset ∧ (rw.isRandom = false → r.offset = range.start + i * range.reclen)

def Full (range : IoRange) (stages : List (Rw × List Iocb)) : Prop :=
  ∀ stage ∈ stages, (stage.2.length : Int) = range.totalIos ∧ Records range stage.1 stage.2

def InOrder (c : Config) (stages : List Rw) : Prop :=
  stages.head? = some c.firstStage ∧
    stages.IsChain fun rw rw' => nextStage c.stages rw = some rw'

def recordsOf (o : Nat) (iocbs : List Iocb) : List Iocb := iocbs.filter (·.oper = o)

def ThreadInfo.iocbs (t : ThreadInfo) (ios : List Nat) : List Iocb :=
  ios.map fun io => (t.ios io).iocb

structure History (c : Config) (oper : IoOper) (sent built : List Iocb)
    (done : List (Rw × List Iocb)) (current : List Iocb) : Prop where
  split : sent ++ built = (done.map Prod.snd).flatten ++ current
  full : Full oper.toIoRange done
  records : Records oper.toIoRange oper.rw current
  inOrder : InOrder c (done.map Prod.fst ++ [oper.rw])
  started : oper.startedIos + built.length = current.length
  within : (current.length : Int) ≤ oper.totalIos
  offset : oper.rw.isRandom = false → oper.lastOffset = oper.start + current.length * oper.reclen

/-- `built` are the units of requests that are not submitted yet, and `out` those of
requests with no event handled yet. -/
structure Inv (c : Config) (t : ThreadInfo) (built : List Nat) (out : Multiset Nat)
    (log : List Iocb) : Prop where
  all : (t.freeIous : Multiset Nat) + built + out = Multiset.range c.numIos
  idle : ∀ io ∈ t.freeIous, (t.ios io).busy = false
  owner : ∀ io, io ∈ built ∨ io ∈ out → (t.ios io).iocb.oper < c.numOpers
  global : t.numGlobalPending = out.card
  pending : ∀ o, (t.opers o).numPending = out.countP fun io => (t.ios io).iocb.oper = o
  range : ∀ o, (t.opers o).toIoRange = (createOper c (o % c.numContexts)).toIoRange
  history : ∀ o < c.numOpers, ∃ done current,
    History c (t.opers o) (recordsOf o log) (recordsOf o (t.iocbs built)) done current

/-- The same but for the counts of pending requests and errors. -/
structure SameStage (oper oper' : IoOper) : Prop where
  range : oper'.toIoRange = oper.toIoRange
  rw : oper'.rw = oper.rw
  startedIos : oper'.startedIos = oper.startedIos
  lastOffset : oper'.lastOffset = oper.lastOffset

/-- What the handling of events leaves as it was. -/
structure Kept (t t' : ThreadInfo) : Prop where
  activeOpers : t'.activeOpers = t.activeOpers
  finishedOpers : t'.finishedOpers = t.finishedOpers
  iocb : ∀ io, (t'.ios io).iocb = (t.ios io).iocb
  stage : ∀ o, SameStage (t.opers o) (t'.opers o)

theorem SameStage.refl (oper : IoOper) : SameStage oper oper := ⟨rfl, rfl, rfl, rfl⟩

theorem SameStage.trans {oper'' : IoOper} (h : SameStage oper oper') (h' : SameStage oper' oper'') :
    SameStage oper oper'' :=
  ⟨h'.range.trans h.range, h'.rw.trans h.rw, h'.startedIos.trans h.startedIos,
    h'.lastOffset.trans h.lastOffset⟩

theorem Kept.refl (t : ThreadInfo) : Kept t t := ⟨rfl, rfl, fun _ => rfl, fun _ => .refl _⟩

theorem Kept.trans {t'' : ThreadInfo} (h : Kept t t') (h' : Kept t' t'') : Kept t t'' :=
  ⟨h'.activeOpers.trans h.activeOpers, h'.finishedOpers.trans h.finishedOpers,
    fun io => (h'.iocb io).trans (h.iocb io), fun o => (h.stage o).trans (h'.stage o)⟩

theorem Kept.iocbs (h : Kept t t') (ios : List Nat) : t'.iocbs ios = t.iocbs ios :=
  List.map_congr_left fun io _ => h.iocb io

theorem History.congr {sent records current : List Iocb} {done : List (Rw × List Iocb)}
    (h : History c oper sent records done current) (hsame : SameStage oper oper') :
    History c oper' sent records done current where
  split := h.split
  full := by rw [hsame.range]; exact h.full
  records := by rw [hsame.range, hsame.rw]; exact h.records
  inOrder := by rw [hsame.rw]; exact h.inOrder
  started := by rw [hsame.startedIos]; exact h.started
  within := by rw [hsame.range]; exact h.within
  offset := by rw [hsame.rw, hsame.lastOffset, hsame.range]; exact h.offset

theorem Inv.nodup (h : Inv c t built out log) :
    ((t.freeIous : Multiset Nat) + built + out).Nodup := by
  rw [h.all]
  exact Multiset.nodup_range _

theorem Inv.card (h : Inv c t built out log) :
    t.freeIous.length + built.length + out.card = c.numIos := by
  have hcard := congrArg Multiset.card h.all
  simpa using hcard

theorem Inv.withLists (h : Inv c t built out log) (active finished : List Nat) :
    Inv c { t with activeOpers := active, finishedOpers := finished } built out log :=
  ⟨h.all, h.idle, h.owner, h.global, h.pending, h.range, h.history⟩

-- ---------------------------------------------------------------------------
-- Events
-- ---------------------------------------------------------------------------

@[simp]
theorem setOper_opers_self (t : ThreadInfo) (o : Nat) (oper : IoOper) :
    (t.setOper o oper).opers o = oper := Function.update_self ..

theorem setOper_opers_of_ne {o' : Nat} (h : o' ≠ o) (t : ThreadInfo) (oper : IoOper) :
    (t.setOper o oper).opers o' = t.opers o' := Function.update_of_ne h ..

@[simp]
theorem setUnit_ios_self (t : ThreadInfo) (io : Nat) (unit : IoUnit) :
    (t.setUnit io unit).ios io = unit := Function.update_self ..

theorem setUnit_ios_of_ne {io' : Nat} (h : io' ≠ io) (t : ThreadInfo) (unit : IoUnit) :
    (t.setUnit io unit).ios io' = t.ios io' := Function.update_of_ne h ..

theorem Inv.setError (h : Inv c t built out log) (o : Nat) (res : Int) :
    let t' := t.setOper o { t.opers o with lastErr := res, numErr := (t.opers o).numErr + 1 }
    Inv c t' built out log ∧ Kept t t' := by
  intro t'
  have hother : ∀ o', SameStage (t.opers o') (t'.opers o') ∧
      (t'.opers o').numPending = (t.opers o').numPending := by
    intro o'
    rcases Decidable.em (o' = o) with rfl | hne
    · rw [setOper_opers_self]
      exact ⟨⟨rfl, rfl, rfl, rfl⟩, rfl⟩
    · rw [setOper_opers_of_ne hne]
      exact ⟨.refl _, rfl⟩
  refine ⟨⟨h.all, h.idle, h.owner, h.global, fun o' => ?_, fun o' => ?_, fun o' ho' => ?_⟩,
    ⟨rfl, rfl, fun _ => rfl, fun o' => (hother o').1⟩⟩
  · rw [(hother o').2]
    exact h.pending o'
  · rw [(hother o').1.range, h.range o']
  · obtain ⟨done, current, hhistory⟩ := h.history o' ho'
    exact ⟨done, current, hhistory.congr (hother o').1⟩

theorem freeIou_opers_self (t : ThreadInfo) (io : Nat) :
    (freeIou t io).opers (t.ios io).iocb.oper =
      { t.opers (t.ios io).iocb.oper with
        numPending := (t.opers (t.ios io).iocb.oper).numPending - 1 } :=
  setOper_opers_self ..

theorem freeIou_opers_of_ne (h : o ≠ (t.ios io).iocb.oper) :
    (freeIou t io).opers o = t.opers o := setOper_opers_of_ne h ..

theorem freeIou_ios_self (t : ThreadInfo) (io : Nat) :
    (freeIou t io).ios io = { t.ios io with busy := false } := setUnit_ios_self ..

theorem freeIou_ios_of_ne {io' : Nat} (h : io' ≠ io) (t : ThreadInfo) :
    (freeIou t io).ios io' = t.ios io' := setUnit_ios_of_ne h ..

theorem kept_freeIou (t : ThreadInfo) (io : Nat) : Kept t (freeIou t io) := by
  refine ⟨rfl, rfl, fun io' => ?_, fun o => ?_⟩
  · rcases Decidable.em (io' = io) with rfl | hne
    · rw [freeIou_ios_self]
    · rw [freeIou_ios_of_ne hne]
  · rcases Decidable.em (o = (t.ios io).iocb.oper) with rfl | hne
    · rw [freeIou_opers_self]
      exact ⟨rfl, rfl, rfl, rfl⟩
    · rw [freeIou_opers_of_ne hne]
      exact .refl _

theorem Inv.freeIou (h : Inv c t built (io ::ₘ out) log) :
    Inv c (freeIou t io) built out log := by
  have hkept := kept_freeIou t io
  refine ⟨?_, fun io' hio' => ?_, fun io' hio' => ?_, ?_, fun o => ?_, fun o => ?_, fun o ho => ?_⟩
  · rw [← h.all]
    change ((io :: t.freeIous : List Nat) : Multiset Nat) + built + out = _
    rw [← Multiset.cons_coe, Multiset.cons_add, Multiset.cons_add, Multiset.add_cons]
  · rcases Decidable.em (io' = io) with rfl | hne
    · rw [freeIou_ios_self]
    · rw [freeIou_ios_of_ne hne]
      exact h.idle io' ((List.mem_cons.mp hio').resolve_left hne)
  · rw [hkept.iocb]
    exact h.owner io' (hio'.imp_right Multiset.mem_cons_of_mem)
  · have hglobal := h.global
    rw [Multiset.card_cons] at hglobal
    change t.numGlobalPending - 1 = _
    omega
  · simp only [hkept.iocb]
    have hpending := h.pending o
    rcases Decidable.em (o = (t.ios io).iocb.oper) with rfl | hne
    · rw [Multiset.countP_cons, if_pos rfl] at hpending
      rw [freeIou_opers_self]
      push_cast at hpending
      exact sub_eq_of_eq_add hpending
    · rw [Multiset.countP_cons, if_neg (Ne.symm hne), Nat.add_zero] at hpending
      rw [freeIou_opers_of_ne hne, hpending]
  · rw [(hkept.stage o).range, h.range o]
  · rw [hkept.iocbs]
    obtain ⟨done, current, hhistory⟩ := h.history o ho
    exact ⟨done, current, hhistory.congr (hkept.stage o)⟩

theorem finishIo_under (h : Inv c t built (io ::ₘ out) log) (res : Int) :
    (finishIo t io res).Under (Gives c)
      (fun t' m' => m' = m ∧ Inv c t' built out log ∧ Kept t t') m := by
  have hfree := h.freeIou
  have hkept := kept_freeIou t io
  rw [finishIo, checkFinishedIo]
  split
  · refine Prog.Under.ask fun s m' hs => ?_
    obtain ⟨-, rfl⟩ := hs
    dsimp only
    split
    · obtain ⟨hinv, hset⟩ := hfree.setError ((Ious.freeIou t io).ios io).iocb.oper res
      exact ⟨rfl, hinv, hkept.trans hset⟩
    · exact ⟨rfl, hfree, hkept⟩
  · exact ⟨rfl, hfree, hkept⟩

theorem finishIos_under {events : List (Nat × Int)}
    (h : Inv c t built ((events.map Prod.fst : List Nat) + out) log) :
    (finishIos events t).Under (Gives c)
      (fun t' m' => m' = m ∧ Inv c t' built out log ∧ Kept t t') m := by
  induction events generalizing t with
  | nil => exact ⟨rfl, by simpa using h, .refl t⟩
  | cons event events ih =>
    rw [List.map_cons, ← Multiset.cons_coe, Multiset.cons_add] at h
    refine (finishIo_under h event.2).bind fun t₁ m₁ hm₁ => ?_
    obtain ⟨rfl, hinv, hkept⟩ := hm₁
    refine (ih hinv).mono fun t₂ m₂ hm₂ => ?_
    obtain ⟨rfl, hinv', hkept'⟩ := hm₂
    exact ⟨rfl, hinv', hkept.trans hkept'⟩

/-- Either way what comes back is more than none, unless there is nothing to wait for. -/
theorem readSomeEvents_under (h : Inv c t built m.inFlight m.log) :
    (readSomeEvents c t).Under (Gives c)
      (fun r m' => Inv c r.2 built m'.inFlight m'.log ∧ Kept t r.2 ∧ m'.log = m.log ∧
        (m'.inFlight.card : Int) + r.1 = m.inFlight.card ∧
        (0 < m.inFlight.card → 0 < r.1)) m := by
  have hglobal := h.global
  have hcard := h.card
  have hpos := c.ioIter_pos
  have hmin : minEvents c t ≤ m.inFlight.card := by
    rw [minEvents]
    split <;> omega
  have hroom : minEvents c t ≤ c.numIos := by omega
  have hsome : 0 < m.inFlight.card → 0 < minEvents c t := by
    rw [minEvents]
    split <;> omega
  refine Prog.Under.ask fun events m' hs => ?_
  obtain ⟨given, rfl, hleast, -, hsplit, hlog⟩ := hs hmin hroom (Int.natCast_nonneg _)
  have hcount := congrArg Multiset.card hsplit
  rw [Multiset.card_add, Multiset.coe_card, List.length_map] at hcount
  rw [hsplit] at h
  rw [← hlog] at h ⊢
  refine (finishIos_under h).bind fun t' m'' hm => ?_
  obtain ⟨rfl, hinv, hkept⟩ := hm
  refine ⟨hinv, hkept, rfl, ?_, fun hany => ?_⟩
  · push_cast [hcount]
    exact add_comm ..
  · exact lt_of_lt_of_le (hsome hany) hleast

-- ---------------------------------------------------------------------------
-- Offsets
-- ---------------------------------------------------------------------------

/-- One context for each file, and a record that fits into it and is so short that no random
one begins in front of it. -/
structure Config.Fits (c : Config) : Prop where
  numContexts : c.numContexts = 1
  recLen_pos : 0 < c.recLen
  recLen_le : c.recLen ≤ c.fileSize
  placed : c.recLen ≤ MB ∨ 2 * c.recLen ≤ c.fileSize

theorem Inv.range_eq (hfits : c.Fits) (h : Inv c t built out log) (o : Nat) :
    (t.opers o).toIoRange = (createOper c 0).toIoRange := by
  rw [h.range o, hfits.numContexts, Nat.mod_one]

theorem Inv.start_eq (hfits : c.Fits) (h : Inv c t built out log) (o : Nat) :
    (t.opers o).start = 0 :=
  (congrArg IoRange.start (h.range_eq hfits o)).trans (Int.zero_mul _)

theorem Inv.reclen_eq (hfits : c.Fits) (h : Inv c t built out log) (o : Nat) :
    (t.opers o).reclen = c.recLen := congrArg IoRange.reclen (h.range_eq hfits o)

theorem Inv.stop_eq (hfits : c.Fits) (h : Inv c t built out log) (o : Nat) :
    (t.opers o).stop = c.fileSize := by
  have hstop : (createOper c 0).stop = c.fileSize := by simp [createOper]
  exact (congrArg IoRange.stop (h.range_eq hfits o)).trans hstop

/-- A random offset is at least 1 MiB, and a record less where it would end behind the file. -/
theorem randomByteOffset_nonneg {mask r₁ r₂ : Nat} (hstart : 0 ≤ oper.start)
    (hplaced : oper.reclen ≤ MB ∨ 2 * oper.reclen ≤ oper.stop) :
    0 ≤ randomByteOffset mask oper r₁ r₂ := by
  unfold randomByteOffset
  extract_lets offset range range' randByte randByte'
  have hrange : 0 ≤ range' := by
    simp only [range']
    split <;> omega
  have hnum : 0 ≤ range' * r₁ / (RAND_MAX + 1) :=
    Int.ediv_nonneg (mul_nonneg hrange (Int.natCast_nonneg _)) (by decide)
  have hleast : (MB : Int) ≤ randByte' := by
    have hmegabyte : (MB : Int) = 1048576 := rfl
    simp only [randByte', randByte]
    rw [hmegabyte]
    omega
  split <;> omega

theorem Inv.random_nonneg (hfits : c.Fits) (h : Inv c t built out log) {mask r₁ r₂ : Nat} :
    0 ≤ randomByteOffset mask (t.opers o) r₁ r₂ := by
  refine randomByteOffset_nonneg (h.start_eq hfits o).ge ?_
  rw [h.reclen_eq hfits, h.stop_eq hfits]
  exact_mod_cast hfits.placed

theorem Inv.lastOffset_nonneg (hfits : c.Fits) (h : Inv c t built out log) (ho : o < c.numOpers)
    (hseq : (t.opers o).rw.isRandom = false) : 0 ≤ (t.opers o).lastOffset := by
  obtain ⟨done, current, hhistory⟩ := h.history o ho
  rw [hhistory.offset hseq, h.start_eq hfits, h.reclen_eq hfits]
  positivity

theorem Records.nonneg {range : IoRange} {rw : Rw} {records : List Iocb} {r : Iocb}
    (h : Records range rw records) (hr : r ∈ records) : 0 ≤ r.offset := by
  obtain ⟨i, hi⟩ := List.mem_iff_getElem?.mp hr
  exact (h i r hi).2.2.1

theorem Inv.built_nonneg (h : Inv c t built out log) (hio : io ∈ built) :
    0 ≤ (t.ios io).iocb.offset := by
  obtain ⟨done, current, hhistory⟩ := h.history _ (h.owner io (.inl hio))
  have hmem : (t.ios io).iocb ∈ recordsOf (t.ios io).iocb.oper (t.iocbs built) :=
    List.mem_filter.mpr ⟨List.mem_map_of_mem hio, decide_eq_true rfl⟩
  have hall := List.mem_append_right (recordsOf (t.ios io).iocb.oper log) hmem
  rw [hhistory.split, List.mem_append, List.mem_flatten] at hall
  rcases hall with ⟨records, hrecords, hr⟩ | hr
  · obtain ⟨stage, hstage, rfl⟩ := List.mem_map.mp hrecords
    exact (hhistory.full stage hstage).2.nonneg hr
  · exact hhistory.records.nonneg hr

-- ---------------------------------------------------------------------------
-- Building
-- ---------------------------------------------------------------------------

theorem recordsOf_append (o : Nat) (iocbs iocbs' : List Iocb) :
    recordsOf o (iocbs ++ iocbs') = recordsOf o iocbs ++ recordsOf o iocbs' :=
  List.filter_append ..

theorem recordsOf_single {r : Iocb} (h : r.oper = o) : recordsOf o [r] = [r] := by
  simp [recordsOf, h]

theorem recordsOf_single_of_ne {r : Iocb} (h : o ≠ r.oper) : recordsOf o [r] = [] := by
  simp [recordsOf, Ne.symm h]

theorem iocbs_append (t : ThreadInfo) (ios ios' : List Nat) :
    t.iocbs (ios ++ ios') = t.iocbs ios ++ t.iocbs ios' := List.map_append ..

theorem Records.snoc {range : IoRange} {rw : Rw} {records : List Iocb} {r : Iocb}
    (h : Records range rw records) (hwrites : r.writes = rw.writes)
    (hcount : r.count = range.reclen) (hplaced : 0 ≤ r.offset)
    (hoffset : rw.isRandom = false → r.offset = range.start + records.length * range.reclen) :
    Records range rw (records ++ [r]) := by
  intro i r' hi
  rcases Nat.lt_or_ge i records.length with hlt | hge
  · rw [List.getElem?_append_left hlt] at hi
    exact h i r' hi
  · rw [List.getElem?_append_right hge] at hi
    obtain ⟨hlt, rfl⟩ := List.getElem?_eq_some_iff.mp hi
    obtain rfl : i = records.length := by
      rw [List.length_singleton] at hlt
      omega
    simp only [Nat.sub_self, List.getElem_cons_zero]
    exact ⟨hwrites, hcount, hplaced, hoffset⟩

theorem History.snoc {sent records current : List Iocb} {done : List (Rw × List Iocb)} {r : Iocb}
    {last : Int} (h : History c oper sent records done current)
    (hleft : oper.startedIos + records.length < oper.totalIos)
    (hwrites : r.writes = oper.rw.writes) (hcount : r.count = oper.reclen)
    (hplaced : 0 ≤ r.offset) (hoffset : oper.rw.isRandom = false →
      r.offset = oper.lastOffset ∧ last = oper.lastOffset + oper.reclen) :
    History c { oper with lastOffset := last } sent (records ++ [r]) done (current ++ [r]) where
  split := by rw [← List.append_assoc, h.split, List.append_assoc]
  full := h.full
  records := h.records.snoc hwrites hcount hplaced fun hseq =>
    (hoffset hseq).1.trans (h.offset hseq)
  inOrder := h.inOrder
  started := by
    have hstarted := h.started
    simp only [List.length_append, List.length_singleton]
    push_cast
    omega
  within := by
    have hstarted := h.started
    simp only [List.length_append, List.length_singleton]
    push_cast
    omega
  offset := by
    intro hseq
    rw [(hoffset hseq).2, h.offset hseq, List.length_append, List.length_singleton]
    push_cast
    ring

section Build

variable {offset last : Int}

def IoOper.record (oper : IoOper) (o : Nat) (offset : Int) : Iocb :=
  ⟨o, oper.rw.writes, offset, oper.reclen⟩

theorem build_ios_of_ne {io' : Nat} (h : io' ≠ io) :
    (prepIocb (grabIou t io o rest) o io offset last).ios io' = t.ios io' :=
  (setUnit_ios_of_ne h ..).trans (setUnit_ios_of_ne h ..)

theorem build_iocb_self :
    ((prepIocb (grabIou t io o rest) o io offset last).ios io).iocb =
      (t.opers o).record o offset :=
  congrArg IoUnit.iocb (setUnit_ios_self ..)

theorem build_opers_self :
    (prepIocb (grabIou t io o rest) o io offset last).opers o =
      { t.opers o with lastOffset := last } := setOper_opers_self ..

theorem build_opers_of_ne {o' : Nat} (h : o' ≠ o) :
    (prepIocb (grabIou t io o rest) o io offset last).opers o' = t.opers o' :=
  setOper_opers_of_ne h ..

theorem Inv.not_mem (h : Inv c t built out log) (hfree : t.freeIous = io :: rest) :
    io ∉ rest ∧ io ∉ built ∧ io ∉ out := by
  have hnodup := h.nodup
  rw [hfree, ← Multiset.cons_coe, Multiset.cons_add, Multiset.cons_add,
    Multiset.nodup_cons] at hnodup
  simpa [not_or, and_assoc] using hnodup.1

theorem Inv.build_iocbs (h : Inv c t built out log) (hfree : t.freeIous = io :: rest) :
    (prepIocb (grabIou t io o rest) o io offset last).iocbs (built ++ [io]) =
      t.iocbs built ++ [(t.opers o).record o offset] := by
  have hsame : (prepIocb (grabIou t io o rest) o io offset last).iocbs built = t.iocbs built := by
    refine List.map_congr_left fun io' hio' => ?_
    have hne : io' ≠ io := fun heq => (h.not_mem hfree).2.1 (heq ▸ hio')
    rw [build_ios_of_ne hne]
  have hnew : (prepIocb (grabIou t io o rest) o io offset last).iocbs [io] =
      [(t.opers o).record o offset] := congrArg (fun r => [r]) build_iocb_self
  rw [iocbs_append, hsame, hnew]

theorem Inv.build (h : Inv c t built out log) (hfree : t.freeIous = io :: rest)
    (ho : o < c.numOpers)
    (hleft : (t.opers o).startedIos + (recordsOf o (t.iocbs built)).length <
      (t.opers o).totalIos)
    (hplaced : 0 ≤ offset) (hoffset : (t.opers o).rw.isRandom = false →
      offset = (t.opers o).lastOffset ∧ last = (t.opers o).lastOffset + (t.opers o).reclen) :
    Inv c (prepIocb (grabIou t io o rest) o io offset last) (built ++ [io]) out log := by
  obtain ⟨hrest, hbuilt, hout⟩ := h.not_mem hfree
  refine ⟨?_, fun io' hio' => ?_, fun io' hio' => ?_, h.global, fun o' => ?_, fun o' => ?_,
    fun o' ho' => ?_⟩
  · rw [← h.all, hfree]
    change (rest : Multiset Nat) + ((built ++ [io] : List Nat) : Multiset Nat) + out = _
    rw [← Multiset.coe_add, Multiset.coe_singleton, ← Multiset.cons_coe, ← Multiset.singleton_add]
    abel
  · have hne : io' ≠ io := fun heq => hrest (heq ▸ hio')
    rw [build_ios_of_ne hne]
    refine h.idle io' ?_
    rw [hfree]
    exact List.mem_cons_of_mem io hio'
  · rcases Decidable.em (io' = io) with rfl | hne
    · rw [build_iocb_self]
      exact ho
    · rw [build_ios_of_ne hne]
      simp only [List.mem_append, List.mem_singleton, hne, or_false] at hio'
      exact h.owner io' hio'
  · have hcount : (out.countP fun x =>
        ((prepIocb (grabIou t io o rest) o io offset last).ios x).iocb.oper = o') =
          out.countP fun x => (t.ios x).iocb.oper = o' := by
      refine Multiset.countP_congr rfl fun x hx => ?_
      have hne : x ≠ io := fun heq => hout (heq ▸ hx)
      rw [build_ios_of_ne hne]
    rw [hcount, ← h.pending o']
    rcases Decidable.em (o' = o) with rfl | hne
    · rw [build_opers_self]
    · rw [build_opers_of_ne hne]
  · rcases Decidable.em (o' = o) with rfl | hne
    · rw [build_opers_self]
      exact h.range o'
    · rw [build_opers_of_ne hne]
      exact h.range o'
  · obtain ⟨done, current, hhistory⟩ := h.history o' ho'
    rw [h.build_iocbs hfree, recordsOf_append]
    rcases Decidable.em (o' = o) with rfl | hne
    · have hrecord : recordsOf o' [(t.opers o').record o' offset] =
          [(t.opers o').record o' offset] := recordsOf_single rfl
      rw [build_opers_self, hrecord]
      exact ⟨done, _, hhistory.snoc hleft rfl rfl hplaced hoffset⟩
    · rw [build_opers_of_ne hne, recordsOf_single_of_ne hne, List.append_nil]
      exact ⟨done, current, hhistory⟩

end Build

theorem findIou_cons {fuel : Nat} (h : Inv c t built out log) (hfree : t.freeIous = io :: rest) :
    findIou c o (fuel + 1) t = pure (some io, grabIou t io o rest) := by
  have hidle : (t.ios io).busy = false := h.idle io (hfree ▸ List.mem_cons_self)
  simp only [findIou, hfree, hidle, Bool.false_eq_true, if_false]

/-- As long as not all units are built for requests there is one to be had. -/
theorem findIou_under (h : Inv c t built m.inFlight m.log) (hroom : built.length < c.numIos) :
    (findIou c o 2 t).Under (Gives c)
      (fun r m' => ∃ t₁ io rest, r = (some io, grabIou t₁ io o rest) ∧ t₁.freeIous = io :: rest ∧
        Inv c t₁ built m'.inFlight m'.log ∧ Kept t t₁ ∧ m'.log = m.log) m := by
  have hcard := h.card
  rcases hfree : t.freeIous with _ | ⟨io, rest⟩
  · rw [hfree, List.length_nil] at hcard
    rw [findIou, hfree]
    refine (readSomeEvents_under h).bind fun r m' hm => ?_
    obtain ⟨hinv, hkept, hlog, hcount, hsome⟩ := hm
    have hnr : 0 < r.1 := hsome (by omega)
    have hcard' := hinv.card
    obtain ⟨io, rest, hfree'⟩ : ∃ io rest, r.2.freeIous = io :: rest := by
      refine List.exists_cons_of_ne_nil fun hnil => ?_
      rw [hnil, List.length_nil] at hcard'
      omega
    simp only [if_pos hnr]
    rw [findIou_cons hinv hfree']
    exact ⟨r.2, io, rest, rfl, hfree', hinv, hkept, hlog⟩
  · rw [findIou_cons h hfree]
    exact ⟨t, io, rest, rfl, hfree, h, .refl t, rfl⟩

/-- Requests for `o` have come to those that were built. -/
structure Built (o n : Nat) (t t' : ThreadInfo) (built built' : List Nat) : Prop where
  activeOpers : t'.activeOpers = t.activeOpers
  finishedOpers : t'.finishedOpers = t.finishedOpers
  range : ∀ o', (t'.opers o').toIoRange = (t.opers o').toIoRange
  rw : ∀ o', (t'.opers o').rw = (t.opers o').rw
  startedIos : ∀ o', (t'.opers o').startedIos = (t.opers o').startedIos
  iocbs : ∃ new, t'.iocbs built' = t.iocbs built ++ new ∧ new.length = n ∧ ∀ r ∈ new, r.oper = o

theorem Kept.builds_none (h : Kept t t') (o : Nat) (ios : List Nat) : Built o 0 t t' ios ios :=
  ⟨h.activeOpers, h.finishedOpers, fun o' => (h.stage o').range, fun o' => (h.stage o').rw,
    fun o' => (h.stage o').startedIos,
    ⟨[], by rw [h.iocbs, List.append_nil], rfl, fun r hr => absurd hr List.not_mem_nil⟩⟩

theorem Built.trans {t'' : ThreadInfo} {built' built'' : List Nat} {k n : Nat}
    (h : Built o k t t' built built') (h' : Built o n t' t'' built' built'') :
    Built o (k + n) t t'' built built'' := by
  obtain ⟨new, hnew, hk, hoper⟩ := h.iocbs
  obtain ⟨new', hnew', hn, hoper'⟩ := h'.iocbs
  refine ⟨h'.activeOpers.trans h.activeOpers, h'.finishedOpers.trans h.finishedOpers,
    fun o' => (h'.range o').trans (h.range o'), fun o' => (h'.rw o').trans (h.rw o'),
    fun o' => (h'.startedIos o').trans (h.startedIos o'), ⟨new ++ new', ?_, ?_, ?_⟩⟩
  · rw [hnew', hnew, List.append_assoc]
  · rw [List.length_append, hk, hn]
  · intro r hr
    exact (List.mem_append.mp hr).elim (hoper r) (hoper' r)

theorem Built.length {built' : List Nat} {n : Nat} (h : Built o n t t' built built') :
    built'.length = built.length + n := by
  obtain ⟨new, hnew, hn, -⟩ := h.iocbs
  have hlength := congrArg List.length hnew
  simpa [ThreadInfo.iocbs, hn] using hlength

theorem Built.recordsOf_self {built' : List Nat} {n : Nat} (h : Built o n t t' built built') :
    (recordsOf o (t'.iocbs built')).length = (recordsOf o (t.iocbs built)).length + n := by
  obtain ⟨new, hnew, hn, hoper⟩ := h.iocbs
  have hall : recordsOf o new = new := List.filter_eq_self.mpr fun r hr => by simp [hoper r hr]
  rw [hnew, recordsOf_append, hall, List.length_append, hn]

theorem Built.recordsOf_of_ne {o' n : Nat} {built' : List Nat} (h : Built o n t t' built built')
    (hne : o' ≠ o) : recordsOf o' (t'.iocbs built') = recordsOf o' (t.iocbs built) := by
  obtain ⟨new, hnew, -, hoper⟩ := h.iocbs
  have hnone : recordsOf o' new = [] :=
    List.filter_eq_nil_iff.mpr fun r hr => by simp [hoper r hr, Ne.symm hne]
  rw [hnew, recordsOf_append, hnone, List.append_nil]

theorem Inv.builds_one {offset last : Int} (h : Inv c t built out log)
    (hfree : t.freeIous = io :: rest) :
    Built o 1 t (prepIocb (grabIou t io o rest) o io offset last) built (built ++ [io]) := by
  have hopers : ∀ o', ∃ lastOffset,
      (prepIocb (grabIou t io o rest) o io offset last).opers o' =
        { t.opers o' with lastOffset := lastOffset } := by
    intro o'
    rcases Decidable.em (o' = o) with rfl | hne
    · exact ⟨last, build_opers_self⟩
    · exact ⟨(t.opers o').lastOffset, build_opers_of_ne hne⟩
  refine ⟨rfl, rfl, fun o' => ?_, fun o' => ?_, fun o' => ?_, ⟨_, h.build_iocbs hfree, rfl, ?_⟩⟩
  · obtain ⟨lastOffset, heq⟩ := hopers o'
    rw [heq]
  · obtain ⟨lastOffset, heq⟩ := hopers o'
    rw [heq]
  · obtain ⟨lastOffset, heq⟩ := hopers o'
    rw [heq]
  · intro r hr
    rw [List.mem_singleton.mp hr]
    rfl

theorem buildIocb_under (hfits : c.Fits) (h : Inv c t built m.inFlight m.log)
    (ho : o < c.numOpers) (hroom : built.length < c.numIos)
    (hleft : (t.opers o).startedIos + (recordsOf o (t.iocbs built)).length <
      (t.opers o).totalIos) :
    (buildIocb c t o).Under (Gives c)
      (fun r m' => ∃ io, r.1 = some io ∧ Inv c r.2 (built ++ [io]) m'.inFlight m'.log ∧
        Built o 1 t r.2 built (built ++ [io]) ∧ m'.log = m.log) m := by
  refine (findIou_under h hroom).bind fun r m₁ hm₁ => ?_
  obtain ⟨t₁, io, rest, rfl, hfree, hinv, hkept, hlog⟩ := hm₁
  have hleft₁ : (t₁.opers o).startedIos + (recordsOf o (t₁.iocbs built)).length <
      (t₁.opers o).totalIos := by
    rw [hkept.iocbs, (hkept.stage o).startedIos, (hkept.stage o).range]
    exact hleft
  have hbuilt : ∀ offset last, Built o 1 t (prepIocb (grabIou t₁ io o rest) o io offset last)
      built (built ++ [io]) :=
    fun offset last => (hkept.builds_none o built).trans (hinv.builds_one hfree)
  dsimp only
  split
  · next hrandom =>
    refine Prog.Under.ask fun r₁ m₂ hs => ?_
    obtain ⟨-, rfl⟩ := hs
    refine Prog.Under.ask fun r₂ m₃ hs => ?_
    obtain ⟨-, rfl⟩ := hs
    refine ⟨io, rfl, hinv.build hfree ho hleft₁ (hinv.random_nonneg hfits) fun hseq => ?_,
      hbuilt _ _, hlog⟩
    exact absurd (hrandom.symm.trans hseq) Bool.noConfusion
  · next hsequential =>
    have hseq : (t₁.opers o).rw.isRandom = false := Bool.eq_false_of_not_eq_true hsequential
    have hplaced := hinv.lastOffset_nonneg hfits ho hseq
    exact ⟨io, rfl, hinv.build hfree ho hleft₁ hplaced fun _ => ⟨rfl, rfl⟩,
      hbuilt _ _, hlog⟩

theorem buildIocbs_under {n : Nat} (hfits : c.Fits) (h : Inv c t built m.inFlight m.log)
    (ho : o < c.numOpers) (hroom : built.length + n ≤ c.numIos)
    (hmax : built.length + n ≤ c.maxIoSubmit)
    (hleft : (t.opers o).startedIos + (recordsOf o (t.iocbs built)).length + n ≤
      (t.opers o).totalIos) :
    (buildIocbs c o n t built).Under (Gives c)
      (fun r m' => r.1 = true ∧ Inv c r.2.1 r.2.2 m'.inFlight m'.log ∧
        Built o n t r.2.1 built r.2.2 ∧ m'.log = m.log) m := by
  induction n generalizing t built m with
  | zero => exact ⟨rfl, h, (Kept.refl t).builds_none o built, rfl⟩
  | succ n ih =>
    refine (buildIocb_under hfits h ho (by omega) (by push_cast at hleft; omega)).bind
      fun r m₁ hm₁ => ?_
    obtain ⟨⟩ := r
    obtain ⟨io, rfl, hinv, hone, hlog⟩ := hm₁
    have hlength := hone.length
    have hrecords := hone.recordsOf_self
    dsimp only
    rw [if_pos (by omega)]
    refine (ih hinv (by omega) (by omega) ?_).mono fun r m₂ hm₂ => ?_
    · rw [hone.startedIos, hone.range, hrecords]
      push_cast at hleft ⊢
      omega
    · obtain ⟨hok, hinv', hmore, hlog'⟩ := hm₂
      rw [Nat.add_comm n 1]
      exact ⟨hok, hinv', hone.trans hmore, hlog'.trans hlog⟩

/-- An operation gets as many requests as were asked for, or those that its stage has left. -/
theorem numToBuild_spec {n : Int} (hn : 0 < n) (hleft : oper.startedIos < oper.totalIos) :
    0 < oper.numToBuild n ∧ oper.numToBuild n ≤ n ∧
      oper.startedIos + oper.numToBuild n ≤ oper.totalIos := by
  rw [IoOper.numToBuild, if_neg (ne_of_gt hn)]
  split <;> omega

theorem buildOper_under (hfits : c.Fits) (h : Inv c t built m.inFlight m.log)
    (ho : o < c.numOpers) (hroom : built.length + c.ioIter ≤ c.numIos)
    (hmax : built.length + c.ioIter ≤ c.maxIoSubmit)
    (hnone : recordsOf o (t.iocbs built) = [])
    (hleft : (t.opers o).startedIos < (t.opers o).totalIos) :
    (buildOper c t o c.ioIter built).Under (Gives c)
      (fun r m' => ∃ n : Nat, r.1 = (n : Int) ∧ 0 < n ∧ n ≤ c.ioIter ∧
        Inv c r.2.1 r.2.2 m'.inFlight m'.log ∧ Built o n t r.2.1 built r.2.2 ∧
        m'.log = m.log) m := by
  have hpos : (0 : Int) < c.ioIter := Int.natCast_pos.mpr c.ioIter_pos
  obtain ⟨hsome, hmost, hmore⟩ := numToBuild_spec hpos hleft
  obtain ⟨n, hn⟩ := Int.eq_ofNat_of_zero_le (Int.le_of_lt hsome)
  rw [hn] at hsome hmost hmore
  rw [buildOper, hn]
  refine (buildIocbs_under hfits h ho (n := n) (by omega) (by omega) ?_).bind fun r m₁ hm₁ => ?_
  · rw [hnone, List.length_nil]
    omega
  · obtain ⟨hok, hinv, hbuilt, hlog⟩ := hm₁
    dsimp only
    rw [if_pos hok]
    exact ⟨n, rfl, by omega, by omega, hinv, hbuilt, hlog⟩

-- ---------------------------------------------------------------------------
-- Submitting
-- ---------------------------------------------------------------------------

def IoOper.starts (oper : IoOper) (n : Int) : IoOper :=
  { oper with numPending := oper.numPending + n, startedIos := oper.startedIos + n }

theorem starts_starts (oper : IoOper) (k n : Int) :
    (oper.starts k).starts n = oper.starts (k + n) := by
  simp only [IoOper.starts, add_assoc]

theorem startIou_eq (t : ThreadInfo) (io : Nat) :
    startIou t io =
      { t with opers := fun o => (t.opers o).starts (recordsOf o (t.iocbs [io])).length } := by
  have hopers : (startIou t io).opers =
      fun o => (t.opers o).starts (recordsOf o (t.iocbs [io])).length := by
    funext o
    rcases Decidable.em (o = (t.ios io).iocb.oper) with rfl | hne
    · have hone : recordsOf (t.ios io).iocb.oper (t.iocbs [io]) = [(t.ios io).iocb] :=
        recordsOf_single rfl
      rw [hone]
      exact setOper_opers_self ..
    · have hnone : recordsOf o (t.iocbs [io]) = [] := recordsOf_single_of_ne hne
      rw [hnone, IoOper.starts]
      simp only [List.length_nil, Int.natCast_zero, add_zero]
      exact setOper_opers_of_ne hne ..
  rw [← hopers]
  rfl

theorem foldl_startIou (t : ThreadInfo) (ios : List Nat) :
    ios.foldl startIou t =
      { t with opers := fun o => (t.opers o).starts (recordsOf o (t.iocbs ios)).length } := by
  induction ios generalizing t with
  | nil => simp [ThreadInfo.iocbs, recordsOf, IoOper.starts]
  | cons io ios ih =>
    rw [List.foldl_cons, ih, startIou_eq]
    have hcons : ∀ o, recordsOf o (t.iocbs (io :: ios)) =
        recordsOf o (t.iocbs [io]) ++ recordsOf o (t.iocbs ios) := fun o => by
      rw [← recordsOf_append, ← iocbs_append, List.singleton_append]
    simp only [starts_starts, hcons, List.length_append, Int.natCast_add]
    rfl

theorem startIous_opers (t : ThreadInfo) (ios : List Nat) (o : Nat) :
    (startIous t ios).opers o = (t.opers o).starts (recordsOf o (t.iocbs ios)).length := by
  rw [startIous, foldl_startIou]

theorem startIous_ios (t : ThreadInfo) (ios : List Nat) : (startIous t ios).ios = t.ios := by
  rw [startIous, foldl_startIou]

theorem startIous_freeIous (t : ThreadInfo) (ios : List Nat) :
    (startIous t ios).freeIous = t.freeIous := by
  rw [startIous, foldl_startIou]

theorem startIous_numGlobalPending (t : ThreadInfo) (ios : List Nat) :
    (startIous t ios).numGlobalPending = t.numGlobalPending + ios.length := by
  rw [startIous, foldl_startIou]

theorem recordsOf_length (t : ThreadInfo) (o : Nat) (ios : List Nat) :
    (recordsOf o (t.iocbs ios)).length = ios.countP fun io => (t.ios io).iocb.oper = o := by
  rw [recordsOf, ThreadInfo.iocbs, ← List.countP_eq_length_filter, List.countP_map]
  rfl

theorem History.start {sent now later current : List Iocb} {done : List (Rw × List Iocb)}
    (h : History c oper sent (now ++ later) done current) :
    History c (oper.starts now.length) (sent ++ now) later done current where
  split := by rw [List.append_assoc, h.split]
  full := h.full
  records := h.records
  inOrder := h.inOrder
  started := by
    have hstarted := h.started
    rw [List.length_append] at hstarted
    simp only [IoOper.starts]
    push_cast at hstarted
    omega
  within := h.within
  offset := h.offset

theorem Inv.start {ios later : List Nat} (h : Inv c t (ios ++ later) out log) :
    Inv c (startIous t ios) later (out + (ios : Multiset Nat)) (log ++ t.iocbs ios) := by
  refine ⟨?_, ?_, ?_, ?_, fun o => ?_, fun o => ?_, fun o ho => ?_⟩
  · rw [← h.all, startIous_freeIous, ← Multiset.coe_add]
    abel
  · rw [startIous_freeIous, startIous_ios]
    exact h.idle
  · intro io hio
    rw [startIous_ios]
    refine h.owner io ?_
    simp only [Multiset.mem_add, Multiset.mem_coe] at hio
    rw [List.mem_append]
    tauto
  · rw [startIous_numGlobalPending, h.global, Multiset.card_add, Multiset.coe_card]
    push_cast
    rfl
  · rw [startIous_opers, startIous_ios, Multiset.countP_add, Multiset.coe_countP,
      ← recordsOf_length, IoOper.starts, h.pending o]
    push_cast
    rfl
  · rw [startIous_opers]
    exact h.range o
  · obtain ⟨done, current, hhistory⟩ := h.history o ho
    rw [iocbs_append, recordsOf_append] at hhistory
    refine ⟨done, current, ?_⟩
    have hlater : (startIous t ios).iocbs later = t.iocbs later := by
      rw [ThreadInfo.iocbs, startIous_ios]
      rfl
    rw [startIous_opers, hlater, recordsOf_append]
    exact hhistory.start

end Ocfs2Test.AioStress.Ious
