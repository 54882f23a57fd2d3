import Ocfs2Test.Chunks.Journal

/-!
# frager and verify_file

`append_write_file` writes every chunk of a new file once, in the order of
`write_order_map`, and logs each write. The file is opened with `O_APPEND`, so a
chunk goes to the end of the file wherever `do_write_chunk` wants it.
-/

namespace Ocfs2Test.Chunks.Frager

open Lib Lib.Stdio

structure Options where
  fileSize : UInt64
  chunkSize : UInt32
  isRandom : Bool

def Options.numChunks (o : Options) : Nat :=
  ((o.fileSize + o.chunkSize.toUInt64 - 1) / o.chunkSize.toUInt64).toNat

/-- The loop that fills `write_order_map` in random mode, from value `i` on.
A draw that hits a taken slot is repeated; with no draws left it has not ended. -/
def fillOrder (n : Nat) : List Rand → Nat → (Nat → Nat) → Option (Nat → Nat)
  | [], i, map => if n ≤ i then some map else none
  | r :: draws, i, map =>
    if n ≤ i then some map
    else
      let index := getRandUl 1 (n - 1) r
      if map index = 0 then fillOrder n draws (i + 1) (Function.update map index i)
      else fillOrder n draws i map

def writeOrderMap (o : Options) (draws : List Rand) : Option (Nat → Nat) :=
  if o.isRandom then fillOrder o.numChunks draws 1 (fun _ => 0) else some id

structure Env where
  draws : List Rand
  chars : Nat → Rand
  times : Nat → Micros

section
variable (e : Endian) (o : Options) (env : Env)

def unitOf (map : Nat → Nat) (i : Nat) : WriteUnit :=
  prepRandDestWriteUnit e o.chunkSize.toNat (UInt64.ofNat (map i)) (env.chars i) (env.times i)

def units (map : Nat → Nat) : List WriteUnit := (List.range o.numChunks).map (unitOf e o env map)

/-- `do_write_chunk` on a descriptor opened with `FILE_FLAGS`. -/
def appendChunk (cs : Nat) (f : ByteFile) (wu : WriteUnit) : ByteFile :=
  f.pwrite (pattern e cs wu) f.size

/-- The file and the log, once the order is drawn. -/
def appendWriteFile : Option (ByteFile × List Char) :=
  (writeOrderMap o env.draws).map fun map =>
    let wus := units e o env map
    (wus.foldl (appendChunk e o.chunkSize.toNat) ByteFile.empty, printLog wus)

end

-- ---------------------------------------------------------------------------
-- The order
-- ---------------------------------------------------------------------------

/-- Every draw from value `i` on hits the lowest free slot, or a taken one. -/
def LowestFirst (n : Nat) : List Rand → Nat → Prop
  | [], i => n ≤ i
  | r :: draws, i => n ≤ i ∨
    getRandUl 1 (n - 1) r < i ∧ LowestFirst n draws i ∨
    getRandUl 1 (n - 1) r = i ∧ LowestFirst n draws (i + 1)

/-- Slot 0 and the values below `i` are placed, nothing else. -/
structure Filling (n i : Nat) (map : Nat → Nat) : Prop where
  zero : map 0 = 0
  lt : ∀ j, map j < i
  placed : ∀ v, 0 < v → v < i → ∃ j, 0 < j ∧ j < n ∧ map j = v

section
variable {n i : Nat} {map map' : Nat → Nat} {draws : List Rand}

theorem index_bounds (r : Rand) (h : 1 < n) :
    0 < getRandUl 1 (n - 1) r ∧ getRandUl 1 (n - 1) r < n := by
  have hmod := Nat.mod_lt r.val (show 0 < n - 1 - 1 + 1 by omega)
  rw [getRandUl, if_neg (by omega)]
  omega

theorem Filling.place (h : Filling n i map) (hi : 0 < i) (hlt : i < n) (hk : 0 < k) (hkn : k < n)
    (hfree : map k = 0) : Filling n (i + 1) (Function.update map k i) where
  zero := by rw [Function.update_of_ne (by omega), h.zero]
  lt j := by
    by_cases hj : j = k
    · rw [hj, Function.update_self]
      omega
    · rw [Function.update_of_ne hj]
      exact (h.lt j).trans (Nat.lt_succ_self i)
  placed v hv hvi := by
    rcases Nat.lt_succ_iff_lt_or_eq.mp hvi with hvi | rfl
    · obtain ⟨j, hj, hjn, rfl⟩ := h.placed v hv hvi
      refine ⟨j, hj, hjn, Function.update_of_ne ?_ _ _⟩
      rintro rfl
      omega
    · exact ⟨k, hk, hkn, Function.update_self _ _ _⟩

theorem fillOrder_keep (hk : map k ≠ 0) (h : fillOrder n draws i map = some map') :
    map' k = map k := by
  induction draws generalizing i map with
  | nil =>
    rw [fillOrder] at h
    split at h <;> cases h
    rfl
  | cons r draws ih =>
    rw [fillOrder] at h
    split at h
    · cases h
      rfl
    · simp only at h
      split at h
      · next hfree =>
        have hne : k ≠ getRandUl 1 (n - 1) r := by
          rintro rfl
          exact hk hfree
        rw [ih (by rwa [Function.update_of_ne hne]) h, Function.update_of_ne hne]
      · exact ih hk h

theorem fillOrder_filling (hm : Filling n i map) (hi : 0 < i) (hin : i ≤ n)
    (h : fillOrder n draws i map = some map') : Filling n n map' := by
  induction draws generalizing i map with
  | nil =>
    rw [fillOrder] at h
    split at h
    · cases h
      obtain rfl : i = n := by omega
      exact hm
    · cases h
  | cons r draws ih =>
    rw [fillOrder] at h
    split at h
    · cases h
      obtain rfl : i = n := by omega
      exact hm
    · next hlt =>
      obtain ⟨hpos, hindex⟩ := index_bounds r (show 1 < n by omega)
      simp only at h
      split at h
      · next hfree => exact ih (hm.place hi (by omega) hpos hindex hfree) (by omega) (by omega) h
      · exact ih hm hi hin h

/-- The order is the one of the chunks exactly if the draws keep to the lowest
free slot. -/
theorem fillOrder_id_iff (hi : 0 < i) (hin : i ≤ n)
    (hm : ∀ j, map j = if j < i then j else 0) (h : fillOrder n draws i map = some map') :
    (∀ j < n, map' j = j) ↔ LowestFirst n draws i := by
  induction draws generalizing i map with
  | nil =>
    rw [fillOrder] at h
    split at h
    · next hle =>
      cases h
      exact iff_of_true (fun j hj => by rw [hm, if_pos (by omega)]) hle
    · cases h
  | cons r draws ih =>
    rw [fillOrder] at h
    rw [LowestFirst]
    split at h
    · next hle =>
      cases h
      exact iff_of_true (fun j hj => by rw [hm, if_pos (by omega)]) (.inl hle)
    · next hlt =>
      obtain ⟨hpos, hindex⟩ := index_bounds r (show 1 < n by omega)
      simp only at h
      generalize getRandUl 1 (n - 1) r = index at *
      rcases Nat.lt_trichotomy index i with hless | rfl | hmore
      · -- taken already
        rw [if_neg (by rw [hm, if_pos hless]; omega)] at h
        rw [ih hi hin hm h]
        simp [hlt, hless, hless.ne]
      · rw [if_pos (by rw [hm, if_neg (Nat.lt_irrefl _)])] at h
        rw [ih (Nat.succ_pos _) (by omega) (fun j => ?_) h]
        · simp [hlt]
        · by_cases hj : j = index
          · simp [hj]
          · rw [Function.update_of_ne hj, hm]
            grind
      · -- this value stands in a slot that is not its own
        rw [if_pos (by rw [hm, if_neg (by omega)])] at h
        have hkeep := fillOrder_keep (k := index) (by rw [Function.update_self]; omega) h
        rw [Function.update_self] at hkeep
        refine iff_of_false (fun hall => ?_) (by omega)
        have := hall index hindex
        omega

end

structure Order (n : Nat) (map : Nat → Nat) : Prop where
  lt : ∀ j < n, map j < n
  onto : ∀ v < n, ∃ j < n, map j = v

section
variable {o : Options} {draws : List Rand} {map : Nat → Nat}

theorem filling_start (n : Nat) : Filling n 1 (fun _ => 0) :=
  ⟨rfl, fun _ => Nat.one_pos, fun _ _ _ => by omega⟩

theorem writeOrderMap_order (h : writeOrderMap o draws = some map) : Order o.numChunks map := by
  rw [writeOrderMap] at h
  split at h
  · rcases Nat.eq_zero_or_pos o.numChunks with hzero | hpos
    · simp [hzero] at h ⊢
      exact ⟨by simp, by simp⟩
    · have hfill := fillOrder_filling (filling_start _) Nat.one_pos hpos h
      refine ⟨fun j _ => hfill.lt j, fun v hv => ?_⟩
      rcases Nat.eq_zero_or_pos v with rfl | hv0
      · exact ⟨0, hpos, hfill.zero⟩
      · obtain ⟨j, -, hj, rfl⟩ := hfill.placed v hv0 hv
        exact ⟨j, hj, rfl⟩
  · cases h
    exact ⟨fun _ hj => hj, fun v hv => ⟨v, hv, rfl⟩⟩

theorem writeOrderMap_id_iff (hpos : 0 < o.numChunks) (h : writeOrderMap o draws = some map) :
    (∀ j < o.numChunks, map j = j) ↔ (o.isRandom = true → LowestFirst o.numChunks draws 1) := by
  rw [writeOrderMap] at h
  split at h
  · next hrandom =>
    rw [fillOrder_id_iff Nat.one_pos hpos (fun j => by grind) h]
    simp [hrandom]
  · next hseq =>
    cases h
    simp [hseq]

-- ---------------------------------------------------------------------------
-- The number of chunks
-- ---------------------------------------------------------------------------

theorem numChunks_eq (hcs : 41 ≤ o.chunkSize.toNat) :
    o.numChunks = (o.fileSize.toNat + o.chunkSize.toNat - 1) % 2 ^ 64 / o.chunkSize.toNat := by
  have hfs := o.fileSize.toNat_lt
  have hlt := o.chunkSize.toNat_lt
  rw [Options.numChunks, UInt64.toNat_div, UInt64.toNat_sub, UInt64.toNat_add,
    UInt32.toNat_toUInt64]
  congr 1
  have h1 : (1 : UInt64).toNat = 1 := rfl
  rw [h1]
  omega

theorem numChunks_lt (hcs : 41 ≤ o.chunkSize.toNat) : o.numChunks < 2 ^ 63 := by
  rw [numChunks_eq hcs, Nat.div_lt_iff_lt_mul (by omega)]
  have := Nat.mod_lt (o.fileSize.toNat + o.chunkSize.toNat - 1) (show 0 < 2 ^ 64 by decide)
  omega

theorem numChunks_of_dvd (hcs : 41 ≤ o.chunkSize.toNat) (hdvd : o.chunkSize.toNat ∣ o.fileSize.toNat)
    (hwrap : o.fileSize.toNat + o.chunkSize.toNat ≤ 2 ^ 64) :
    o.numChunks = o.fileSize.toNat / o.chunkSize.toNat := by
  obtain ⟨k, hk⟩ := hdvd
  rw [numChunks_eq hcs, Nat.mod_eq_of_lt (by omega), hk, Nat.mul_div_cancel_left _ (by omega),
    Nat.add_sub_assoc (by omega), Nat.mul_add_div (by omega),
    Nat.div_eq_of_lt (show o.chunkSize.toNat - 1 < o.chunkSize.toNat by omega), Nat.add_zero]

theorem numChunks_le_iff (hfs : 1 ≤ o.fileSize.toNat) (hcs : 41 ≤ o.chunkSize.toNat) :
    (0 < o.numChunks ∧ o.numChunks ≤ o.fileSize.toNat / o.chunkSize.toNat) ↔
      o.chunkSize.toNat ∣ o.fileSize.toNat ∧ o.fileSize.toNat + o.chunkSize.toNat ≤ 2 ^ 64 := by
  have hlt := o.fileSize.toNat_lt
  have hcslt := o.chunkSize.toNat_lt
  constructor
  · rw [numChunks_eq hcs]
    generalize o.fileSize.toNat = fs at *
    generalize o.chunkSize.toNat = cs at *
    rintro ⟨hpos, hle⟩
    have hwrap : fs + cs ≤ 2 ^ 64 := by
      by_contra hwrap
      -- the sum wraps around and nothing is written
      rw [Nat.mod_eq_sub_mod (by omega), Nat.mod_eq_of_lt (by omega), Nat.div_eq_of_lt (by omega)] at hpos
      exact Nat.lt_irrefl _ hpos
    refine ⟨?_, hwrap⟩
    rw [Nat.mod_eq_of_lt (by omega)] at hle
    by_contra hdvd
    rw [Nat.dvd_iff_mod_eq_zero] at hdvd
    have hdiv := Nat.div_add_mod fs cs
    have hr := Nat.mod_lt fs (show 0 < cs by omega)
    rw [show fs + cs - 1 = cs * (fs / cs + 1) + (fs % cs - 1) by rw [Nat.mul_add]; omega,
      Nat.mul_add_div (by omega), Nat.div_eq_of_lt (show fs % cs - 1 < cs by omega)] at hle
    omega
  · rintro ⟨hdvd, hwrap⟩
    rw [numChunks_of_dvd hcs hdvd hwrap]
    exact ⟨Nat.div_pos (Nat.le_of_dvd hfs hdvd) (by omega), Nat.le_refl _⟩

-- ---------------------------------------------------------------------------
-- The file and the log
-- ---------------------------------------------------------------------------

variable {e : Endian} {env : Env} {cs : Nat}

theorem appendAll_spec (hcs : 40 ≤ cs) (wus : List WriteUnit) :
    (wus.foldl (appendChunk e cs) ByteFile.empty).size = wus.length * cs ∧
    ∀ i wu, wus[i]? = some wu →
      chunkAt (wus.foldl (appendChunk e cs) ByteFile.empty) cs i = pattern e cs wu := by
  induction wus using List.reverseRecOn with
  | nil => simp [ByteFile.empty]
  | append_singleton wus wu ih =>
    obtain ⟨hsize, hchunks⟩ := ih
    have hlen := length_pattern hcs wu (e := e)
    rw [List.foldl_append, List.foldl_cons, List.foldl_nil, appendChunk, hsize]
    constructor
    · have hne : pattern e cs wu ≠ [] := by
        intro hnil
        rw [hnil] at hlen
        simp at hlen
        omega
      simp only [ByteFile.pwrite, if_neg hne, hlen, hsize, List.length_append, List.length_singleton,
        Nat.succ_mul]
      exact Nat.max_eq_right (Nat.le_add_right _ _)
    · intro i u hu
      rw [chunkAt_pwrite hlen]
      split
      · next hi => simp_all
      · next hi =>
        rw [List.getElem?_append] at hu
        split at hu
        · exact hchunks i u hu
        · have : i - wus.length ≠ 0 := by omega
          simp [this] at hu

theorem units_getElem? (e : Endian) (env : Env) (map : Nat → Nat) (i : Nat) (hi : i < o.numChunks) :
    (units e o env map)[i]? = some (unitOf e o env map i) := by
  simp [units, hi]

theorem length_units : (units e o env map).length = o.numChunks := by simp [units]

theorem mem_units : wu ∈ units e o env map ↔ ∃ i < o.numChunks, unitOf e o env map i = wu := by
  simp [units]

theorem unitOf_chunkNo (e : Endian) (env : Env) (hcs : 41 ≤ o.chunkSize.toNat)
    (hmap : Order o.numChunks map) (hi : i < o.numChunks) : (unitOf e o env map i).chunkNo.toNat = map i := by
  have hlt := hmap.lt i hi
  have hbound := numChunks_lt hcs
  exact UInt64.toNat_ofNat_of_lt (by simp only [UInt64.size]; omega)

theorem units_recordOk (e : Endian) (env : Env) (hcs : 41 ≤ o.chunkSize.toNat)
    (hmap : Order o.numChunks map) :
    ∀ wu ∈ units e o env map, RecordOk wu := by
  intro wu hwu
  obtain ⟨i, hi, rfl⟩ := mem_units.mp hwu
  refine prepRandDestWriteUnit_recordOk ?_
  have hno : (UInt64.ofNat (map i)).toNat = map i := unitOf_chunkNo e env hcs hmap hi
  rw [hno]
  exact (hmap.lt i hi).trans (numChunks_lt hcs)

theorem units_sorted (hclock : Monotone env.times) :
    (units e o env map).Pairwise (·.timestamp ≤ ·.timestamp) := by
  rw [units, List.pairwise_map]
  exact List.pairwise_lt_range.imp fun hlt => Micros.stamp_le (hclock (Nat.le_of_lt hlt))

theorem logUnits_nil : logUnits ⟨[], false⟩ = none := by
  refine logUnits_none rfl fun wu rest h => ?_
  simpa using scanRecord_length h

theorem logUnits_units (hcs : 41 ≤ o.chunkSize.toNat) (hmap : Order o.numChunks map) :
    logUnits ⟨printLog (units e o env map), false⟩ =
      if 0 < o.numChunks then some (units e o env map) else none := by
  have hread := logUnits_print (units_recordOk e env hcs hmap)
  split
  · next hpos =>
    have hne : (units e o env map).isEmpty = false := by
      rw [List.isEmpty_eq_false_iff, ← List.length_pos_iff, length_units]
      exact hpos
    rwa [hne] at hread
  · next hzero =>
    have hnil : units e o env map = [] := by
      rw [← List.length_eq_zero_iff, length_units]
      omega
    rw [hnil]
    exact logUnits_nil

/-- Written in order, chunk `k` is in the table as it is in the file. -/
theorem table_of_id (hcs : 41 ≤ o.chunkSize.toNat) (hclock : Monotone env.times)
    (hmap : Order o.numChunks map) (hid : ∀ j < o.numChunks, map j = j) (hk : k < o.numChunks) :
    (units e o env map).foldl record initTable k = unitOf e o env map k := by
  refine foldl_record_newest rfl (LastOf.newest ?_ (units_sorted hclock))
  have hget := units_getElem? e env map k hk
  obtain ⟨hlt, hget⟩ := List.getElem?_eq_some_iff.mp hget
  refine ⟨(units e o env map).take k, (units e o env map).drop (k + 1), ?_, ?_, ?_⟩
  · rw [← hget, List.getElem_cons_drop, List.take_append_drop]
  · rw [unitOf_chunkNo e env hcs hmap hk, hid k hk]
  · intro u hu
    obtain ⟨j, hj⟩ := List.mem_iff_getElem?.mp hu
    rw [List.getElem?_drop] at hj
    obtain ⟨hlt', -⟩ := List.getElem?_eq_some_iff.mp hj
    rw [length_units] at hlt'
    rw [units_getElem? _ _ _ _ hlt'] at hj
    rw [← Option.some.inj hj, unitOf_chunkNo e env hcs hmap hlt', hid _ hlt']
    omega

theorem table_of_order (hcs : 41 ≤ o.chunkSize.toNat) (hpos : ∀ i, 0 < (env.times i).val)
    (hmap : Order o.numChunks map) (hk : k < o.numChunks) :
    ((units e o env map).foldl record initTable k).chunkNo.toNat = k ∧
      ((units e o env map).foldl record initTable k).timestamp ≠ 0 := by
  obtain ⟨j, hj, rfl⟩ := hmap.onto k hk
  obtain ⟨wu, hnew⟩ := exists_newest
    ⟨unitOf e o env map j, mem_units.mpr ⟨j, hj, rfl⟩, unitOf_chunkNo e env hcs hmap hj⟩
  rw [foldl_record_newest rfl hnew]
  obtain ⟨hmem, hno⟩ := hnew.mem
  obtain ⟨i, hi, rfl⟩ := mem_units.mp hmem
  refine ⟨hno, fun hzero => ?_⟩
  have := congrArg UInt64.toNat hzero
  simp only [unitOf, prepRandDestWriteUnit_timestamp, Micros.toNat_stamp] at this
  have := hpos i
  simp_all

def written (e : Endian) (o : Options) (env : Env) (map : Nat → Nat) : ByteFile :=
  (units e o env map).foldl (appendChunk e o.chunkSize.toNat) ByteFile.empty

theorem size_written (hcs : 41 ≤ o.chunkSize.toNat) :
    (written e o env map).size = o.numChunks * o.chunkSize.toNat := by
  rw [written, (appendAll_spec (by omega) _).1, length_units]

theorem chunkAt_written (hcs : 41 ≤ o.chunkSize.toNat) (hk : k < o.numChunks) :
    chunkAt (written e o env map) o.chunkSize.toNat k =
      pattern e o.chunkSize.toNat (unitOf e o env map k) :=
  (appendAll_spec (by omega) _).2 k _ (units_getElem? e env map k hk)

theorem read_written (junk : Nat → Nat → UInt8) (hcs : 41 ≤ o.chunkSize.toNat)
    (hint : o.chunkSize.toNat < 2 ^ 31) (hk : k < o.numChunks) :
    Libocfs2test.doReadChunk junk (written e o env map) o.chunkSize.toNat k =
      .buf (pattern e o.chunkSize.toNat (unitOf e o env map k)) o.chunkSize.toNat := by
  rw [Libocfs2test.doReadChunk_full (by omega) hint, chunkAt_written hcs hk]
  rw [size_written hcs]
  exact Nat.mul_le_mul_right _ hk

theorem passes_written_iff (junk : Nat → Nat → UInt8) (hcs : 41 ≤ o.chunkSize.toNat)
    (hint : o.chunkSize.toNat < 2 ^ 31) (hclock : Monotone env.times)
    (hpos : ∀ i, 0 < (env.times i).val) (hmap : Order o.numChunks map) :
    (∀ k < o.numChunks, Passes e o.chunkSize.toNat
      (Libocfs2test.doReadChunk junk (written e o env map) o.chunkSize.toNat)
      ((units e o env map).foldl record initTable) k) ↔ ∀ k < o.numChunks, map k = k := by
  constructor
  · intro h k hk
    obtain ⟨buf, count, hread, hdec⟩ := h k hk
    rw [read_written junk hcs hint hk] at hread
    obtain ⟨hbuf, -⟩ := Read.buf.inj hread
    subst hbuf
    obtain ⟨hno, hts⟩ := table_of_order (e := e) hcs hpos hmap hk
    simp only [Decodes, if_neg hts, dumpPattern_pattern hcs] at hdec
    rw [← unitOf_chunkNo e env hcs hmap hk, hdec.2.1, hno]
  · intro hid k hk
    refine ⟨_, _, read_written junk hcs hint hk, ?_⟩
    rw [table_of_id hcs hclock hmap hid hk]
    simp only [Decodes, dumpPattern_pattern hcs]
    split
    · next hts => exact .inl hts
    · simp

theorem accepts_written_iff (junk : Nat → Nat → UInt8)
    (hcs : 41 ≤ o.chunkSize.toNat) (hclock : Monotone env.times)
    (hpos : ∀ i, 0 < (env.times i).val) (hmap : Order o.numChunks map) (hne : 0 < o.numChunks) :
    Accepts e o.chunkSize.toNat
        (Libocfs2test.doReadChunk junk (written e o env map) o.chunkSize.toNat)
        (o.fileSize.toNat / o.chunkSize.toNat) (units e o env map) ↔
      o.numChunks ≤ o.fileSize.toNat / o.chunkSize.toNat ∧ o.chunkSize.toNat < 2 ^ 31 ∧
        ∀ k < o.numChunks, map k = k := by
  have hsize : (written e o env map).size = _ := size_written hcs
  have hnot (k : Nat) (hk : k < o.numChunks) (j : Nat) (hj : j ≤ k) :
      Libocfs2test.doReadChunk junk (written e o env map) o.chunkSize.toNat j ≠ .past := by
    have hlt : j * o.chunkSize.toNat < o.numChunks * o.chunkSize.toNat :=
      Nat.mul_lt_mul_of_pos_right (by omega) (by omega)
    intro hpast
    have := (Libocfs2test.readsFile junk _ _ o.chunkSize.toNat_lt).past j hpast
    omega
  constructor
  · rintro ⟨hin, hpass⟩
    have hle : o.numChunks ≤ o.fileSize.toNat / o.chunkSize.toNat := by
      -- the last chunk has a record
      obtain ⟨j, hj, hlast⟩ := hmap.onto (o.numChunks - 1) (by omega)
      have := hin _ (mem_units.mpr ⟨j, hj, rfl⟩)
      rw [unitOf_chunkNo e env hcs hmap hj] at this
      omega
    have hint : o.chunkSize.toNat < 2 ^ 31 := by
      obtain ⟨buf, count, hread, -⟩ := hpass 0 (by omega) (hnot 0 hne)
      by_contra hbig
      have hfirst : o.chunkSize.toNat ≤ (written e o env map).size := by
        rw [hsize]
        exact Nat.le_mul_of_pos_left _ hne
      simp only [Libocfs2test.doReadChunk] at hread
      rw [if_neg (by omega), if_pos (by omega)] at hread
      cases hread
    exact ⟨hle, hint, (passes_written_iff junk hcs hint hclock hpos hmap).mp fun k hk =>
      hpass k (by omega) (hnot k hk)⟩
  · rintro ⟨hle, hint, hid⟩
    refine ⟨fun wu hwu => ?_, fun k _ hthere => ?_⟩
    · obtain ⟨i, hi, rfl⟩ := mem_units.mp hwu
      rw [unitOf_chunkNo e env hcs hmap hi]
      exact (hmap.lt i hi).trans_le hle
    · refine (passes_written_iff junk hcs hint hclock hpos hmap).mpr hid k (Nat.lt_of_not_le fun hge => ?_)
      refine hthere k (Nat.le_refl k) (if_pos ?_)
      rw [hsize]
      exact Nat.mul_le_mul_right _ hge

/-- `verify_file` on what is written in some order. -/
theorem verifyFile_written_iff (junk : Nat → Nat → UInt8) (hcs : 41 ≤ o.chunkSize.toNat)
    (hclock : Monotone env.times) (hpos : ∀ i, 0 < (env.times i).val) (hmap : Order o.numChunks map) :
    Libocfs2test.verifyFile e junk (.log (printLog (units e o env map))) (written e o env map)
        o.fileSize o.chunkSize = .returns 0 ↔
      (0 < o.numChunks ∧ o.numChunks ≤ o.fileSize.toNat / o.chunkSize.toNat) ∧
        o.chunkSize.toNat < 2 ^ 31 ∧ ∀ k < o.numChunks, map k = k := by
  have hunits : logUnits ⟨printLog (units e o env map), false⟩ = _ := logUnits_units hcs hmap
  have hverify : Libocfs2test.verifyFile e junk (.log (printLog (units e o env map)))
      (written e o env map) o.fileSize o.chunkSize = .returns 0 ↔ _ :=
    verifyBody_eq_zero hcs (Libocfs2test.readsFile junk _ _ o.chunkSize.toNat_lt)
  constructor
  · intro hok
    obtain ⟨wus, hwus, haccepts⟩ := hverify.mp hok
    rw [hunits] at hwus
    split at hwus
    · next hne =>
      cases hwus
      obtain ⟨hle, hrest⟩ := (accepts_written_iff junk hcs hclock hpos hmap hne).mp haccepts
      exact ⟨⟨hne, hle⟩, hrest⟩
    · cases hwus
  · rintro ⟨⟨hne, hle⟩, hrest⟩
    rw [if_pos hne] at hunits
    exact hverify.mpr ⟨_, hunits, (accepts_written_iff junk hcs hclock hpos hmap hne).mpr ⟨hle, hrest⟩⟩

theorem inside_written (hcs : 41 ≤ o.chunkSize.toNat) (hmap : Order o.numChunks map)
    (hwus : logUnits ⟨printLog (units e o env map), false⟩ = some wus) (hwu : wu ∈ wus) :
    (wu.chunkNo.toNat + 1) * o.chunkSize.toNat ≤ (written e o env map).size := by
  rw [logUnits_units hcs hmap] at hwus
  split at hwus
  · cases hwus
    obtain ⟨i, hi, rfl⟩ := mem_units.mp hwu
    rw [unitOf_chunkNo e env hcs hmap hi, size_written hcs]
    exact Nat.mul_le_mul_right _ (hmap.lt i hi)
  · cases hwus

/-- `verify_file` accepts what `append_write_file` leaves exactly if the chunks
fill the file, fit in an `int`, and were written in order. -/
theorem appendWriteFile_verified_iff (e : Endian) (junk : Nat → Nat → UInt8) (o : Options) (env : Env)
    (hfs : 1 ≤ o.fileSize.toNat) (hcs : 41 ≤ o.chunkSize.toNat) (hclock : Monotone env.times)
    (hpos : ∀ i, 0 < (env.times i).val) (f : ByteFile) (log : List Char)
    (h : appendWriteFile e o env = some (f, log)) :
    (Libocfs2test.verifyFile e junk (.log log) f o.fileSize o.chunkSize = .returns 0 ∧
      ∀ wus, logUnits ⟨log, false⟩ = some wus →
        ∀ wu ∈ wus, (wu.chunkNo.toNat + 1) * o.chunkSize.toNat ≤ f.size) ↔
    o.chunkSize.toNat ∣ o.fileSize.toNat ∧ o.fileSize.toNat + o.chunkSize.toNat ≤ 2 ^ 64 ∧
      o.chunkSize.toNat < 2 ^ 31 ∧
      (o.isRandom = true → LowestFirst (o.fileSize.toNat / o.chunkSize.toNat) env.draws 1) := by
  simp only [appendWriteFile, Option.map_eq_some_iff, Prod.mk.injEq] at h
  obtain ⟨map, hdrawn, rfl, rfl⟩ := h
  have hmap := writeOrderMap_order hdrawn
  have hverify := verifyFile_written_iff junk (e := e) hcs hclock hpos hmap
  have hregular := numChunks_le_iff hfs hcs
  constructor
  · rintro ⟨hok, -⟩
    obtain ⟨hcount, hint, hid⟩ := hverify.mp hok
    obtain ⟨hdvd, hwrap⟩ := hregular.mp hcount
    rw [← numChunks_of_dvd hcs hdvd hwrap]
    exact ⟨hdvd, hwrap, hint, (writeOrderMap_id_iff hcount.1 hdrawn).mp hid⟩
  · rintro ⟨hdvd, hwrap, hint, hlow⟩
    rw [← numChunks_of_dvd hcs hdvd hwrap] at hlow
    have hcount := hregular.mpr ⟨hdvd, hwrap⟩
    have hid := (writeOrderMap_id_iff hcount.1 hdrawn).mpr hlow
    exact ⟨hverify.mpr ⟨hcount, hint, hid⟩, fun wus hwus wu hwu => inside_written hcs hmap hwus hwu⟩

end

-- ---------------------------------------------------------------------------
-- Two chunks
-- ---------------------------------------------------------------------------

def stoppedEnv (draws : List Rand) : Env := ⟨draws, fun _ => 0, fun _ => 1⟩

theorem appendWriteFile_verified_two : ∃ f log,
    appendWriteFile .little ⟨82, 41, false⟩ (stoppedEnv []) = some (f, log) ∧
    Libocfs2test.verifyFile .little (fun _ _ => 0) (.log log) f 82 41 = .returns 0 := by
  refine ⟨_, _, rfl, ?_⟩
  refine ((appendWriteFile_verified_iff .little (fun _ _ => 0) ⟨82, 41, false⟩ (stoppedEnv [])
    (by decide) (by decide) monotone_const (fun _ => Nat.one_pos) _ _ rfl).mpr ?_).1
  exact ⟨by decide, by decide, by decide, nofun⟩

/-- A file of 100 bytes in chunks of 41, the default mode: the log has chunk 2,
and the table two entries. -/
theorem unaligned_rejected : ¬ ∀ f log,
    appendWriteFile .little ⟨100, 41, false⟩ (stoppedEnv []) = some (f, log) →
    Libocfs2test.verifyFile .little (fun _ _ => 0) (.log log) f 100 41 = .returns 0 ∧
      ∀ wus, logUnits ⟨log, false⟩ = some wus → ∀ wu ∈ wus, (wu.chunkNo.toNat + 1) * 41 ≤ f.size := by
  intro h
  have hmap : Order (Options.numChunks ⟨100, 41, false⟩) id := @writeOrderMap_order _ [] _ rfl
  obtain ⟨hok, -⟩ := h _ _ rfl
  obtain ⟨⟨-, hle⟩, -⟩ := (verifyFile_written_iff (fun _ _ => 0) (by decide) monotone_const
    (fun _ => Nat.one_pos) hmap).mp hok
  exact absurd hle (by decide)

end Ocfs2Test.Chunks.Frager
