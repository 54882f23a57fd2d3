import Ocfs2Test.Chunks.Verify

/-!
# Files that follow a log

Writers that stamp, write and log one chunk at a time leave a file whose chunks
are those of the last records, and a log in the order of its times. This is what
the verifiers check, and one more write keeps it.
-/

namespace Ocfs2Test.Chunks

open Lib Lib.Stdio

-- ---------------------------------------------------------------------------
-- Stamping
-- ---------------------------------------------------------------------------

/-- What `get_time_microseconds` reads: time since 1970, which fits in 63 bits
for a quarter of a million years. -/
abbrev Micros := Fin (2 ^ 63)

instance Micros.neZero : NeZero (2 ^ 63) := ⟨by decide⟩

def Micros.stamp (t : Micros) : UInt64 := UInt64.ofNat t.val

def getRandUl (lo hi : Nat) (r : Rand) : Nat :=
  if lo = 0 ∧ hi = 0 then 0 else lo + r.val % (hi - lo + 1)

def randChar (r : Rand) : UInt8 := 65 + UInt8.ofNat (getRandUl 0 25 r)

def prepRandDestWriteUnit (e : Endian) (cs : Nat) (chunkNo : UInt64) (r : Rand) (t : Micros) :
    WriteUnit :=
  (fillChunkPattern e cs ⟨chunkNo, t.stamp, 0, randChar r⟩).2

theorem getRandUl_lt (r : Rand) (h : 0 < n) : getRandUl 0 (n - 1) r < n := by
  unfold getRandUl
  split
  · exact h
  · have := Nat.mod_lt r.val (show 0 < n - 1 - 0 + 1 by omega)
    omega

theorem randChar_not_space (r : Rand) : isSpace (Char.ofUInt8 (randChar r)) = false := by
  have hall : ∀ n < 26, isSpace (Char.ofUInt8 (65 + UInt8.ofNat n)) = false := by decide
  exact hall _ (getRandUl_lt (n := 26) r (by decide))

@[simp] theorem Micros.toNat_stamp (t : Micros) : t.stamp.toNat = t.val := by
  have := t.isLt
  exact UInt64.toNat_ofNat_of_lt (by simp only [UInt64.size]; omega)

theorem Micros.stamp_le {t t' : Micros} (h : t ≤ t') : t.stamp ≤ t'.stamp := by
  rw [UInt64.le_iff_toNat_le, Micros.toNat_stamp, Micros.toNat_stamp]
  exact h

section
variable {e : Endian} {cs : Nat} {chunkNo : UInt64} {r : Rand} {t : Micros}

@[simp] theorem prepRandDestWriteUnit_chunkNo :
    (prepRandDestWriteUnit e cs chunkNo r t).chunkNo = chunkNo := rfl

@[simp] theorem prepRandDestWriteUnit_timestamp :
    (prepRandDestWriteUnit e cs chunkNo r t).timestamp = t.stamp := rfl

theorem prepRandDestWriteUnit_recordOk (h : chunkNo.toNat < 2 ^ 63) :
    RecordOk (prepRandDestWriteUnit e cs chunkNo r t) :=
  ⟨h, by simp, randChar_not_space r⟩

theorem chunk_offset_lt {fileSize : UInt64} (h : n < fileSize.toNat / CHUNK_SIZE) :
    CHUNK_SIZE * n < 2 ^ 64 := by
  have h₁ := Nat.div_mul_le_self fileSize.toNat CHUNK_SIZE
  have h₂ := fileSize.toNat_lt
  simp only [CHUNK_SIZE] at *
  omega

theorem toNat_ofNat_chunk {fileSize : UInt64} (h : n < fileSize.toNat / CHUNK_SIZE) :
    (UInt64.ofNat n).toNat = n := by
  have := chunk_offset_lt h
  simp only [CHUNK_SIZE] at this
  exact UInt64.toNat_ofNat_of_lt (by simp only [UInt64.size]; omega)

end

-- ---------------------------------------------------------------------------
-- Order and content
-- ---------------------------------------------------------------------------

def LastOf (units : List WriteUnit) (i : Nat) (wu : WriteUnit) : Prop :=
  ∃ before after, units = before ++ wu :: after ∧ wu.chunkNo.toNat = i ∧
    ∀ u ∈ after, u.chunkNo.toNat ≠ i

/-- Records in the order they were made, up to a time `now`. -/
structure InOrder (numChunks : Nat) (now : UInt64) (units : List WriteUnit) : Prop where
  sorted : units.Pairwise (·.timestamp ≤ ·.timestamp)
  upTo : ∀ u ∈ units, u.timestamp ≤ now
  recordOk : ∀ u ∈ units, RecordOk u
  inTable : ∀ u ∈ units, u.chunkNo.toNat < numChunks

structure Fresh (numChunks : Nat) (clock : Micros) (wu : WriteUnit) : Prop where
  timestamp : wu.timestamp = clock.stamp
  recordOk : RecordOk wu
  inTable : wu.chunkNo.toNat < numChunks

/-- The chunks hold the last records, and `Base` where there is none. -/
structure Tracks (e : Endian) (cs numChunks : Nat) (Base : Nat → List UInt8 → Prop)
    (units : List WriteUnit) (f : ByteFile) : Prop where
  written : ∀ i wu, LastOf units i wu → chunkAt f cs i = pattern e cs wu
  base : ∀ i < numChunks, (∀ u ∈ units, u.chunkNo.toNat ≠ i) → Base i (chunkAt f cs i)

section
variable {units : List WriteUnit} {wu u : WriteUnit} {i numChunks : Nat} {now : UInt64}

theorem InOrder.nil : InOrder numChunks now [] := ⟨.nil, by simp, by simp, by simp⟩

theorem InOrder.later (h : InOrder numChunks now units) (hle : now ≤ now') :
    InOrder numChunks now' units :=
  ⟨h.sorted, fun u hu => UInt64.le_trans (h.upTo u hu) hle, h.recordOk, h.inTable⟩

theorem InOrder.append {clock : Micros} (h : InOrder numChunks clock.stamp units)
    (hu : Fresh numChunks clock u) : InOrder numChunks clock.stamp (units ++ [u]) := by
  have hts := hu.timestamp
  refine ⟨?_, ?_, ?_, ?_⟩
  · rw [List.pairwise_append]
    refine ⟨h.sorted, List.pairwise_singleton _ _, fun v hv w hw => ?_⟩
    rw [List.mem_singleton.mp hw, hts]
    exact h.upTo v hv
  · intro v hv
    rcases List.mem_append.mp hv with hv | hv
    · exact h.upTo v hv
    · rw [List.mem_singleton.mp hv, hts]
      exact UInt64.le_refl _
  · intro v hv
    rcases List.mem_append.mp hv with hv | hv
    · exact h.recordOk v hv
    · exact List.mem_singleton.mp hv ▸ hu.recordOk
  · intro v hv
    rcases List.mem_append.mp hv with hv | hv
    · exact h.inTable v hv
    · exact List.mem_singleton.mp hv ▸ hu.inTable

theorem InOrder.left (h : InOrder numChunks now (units ++ rest)) : InOrder numChunks now units :=
  ⟨(List.pairwise_append.mp h.sorted).1, fun u hu => h.upTo u (by simp [hu]),
    fun u hu => h.recordOk u (by simp [hu]), fun u hu => h.inTable u (by simp [hu])⟩

theorem InOrder.take (h : InOrder numChunks now units) (k : Nat) :
    InOrder numChunks now (units.take k) :=
  InOrder.left (by rwa [List.take_append_drop k units])

theorem LastOf.newest (h : LastOf units i wu) (hsorted : units.Pairwise (·.timestamp ≤ ·.timestamp)) :
    Newest units i wu := by
  obtain ⟨before, after, rfl, hi, hafter⟩ := h
  refine ⟨before, after, rfl, hi, fun u hu _ => ?_, fun u hu hui => absurd hui (hafter u hu)⟩
  exact (List.pairwise_append.mp hsorted).2.2 u hu wu (by simp)

theorem exists_lastOf (h : ∃ u ∈ units, u.chunkNo.toNat = i) : ∃ wu, LastOf units i wu := by
  induction units with
  | nil => simp at h
  | cons u us ih =>
    by_cases hus : ∃ v ∈ us, v.chunkNo.toNat = i
    · obtain ⟨wu, before, after, rfl, hi, hafter⟩ := ih hus
      exact ⟨wu, u :: before, after, rfl, hi, hafter⟩
    · obtain ⟨v, hv, hvi⟩ := h
      rcases List.mem_cons.mp hv with rfl | hv
      · exact ⟨v, [], us, rfl, hvi, fun w hw hwi => hus ⟨w, hw, hwi⟩⟩
      · exact absurd ⟨v, hv, hvi⟩ hus

theorem LastOf.append_cases (h : LastOf (units ++ [u]) i wu) :
    (u.chunkNo.toNat = i ∧ wu = u) ∨ (u.chunkNo.toNat ≠ i ∧ LastOf units i wu) := by
  obtain ⟨before, after, heq, hi, hafter⟩ := h
  rcases List.eq_nil_or_concat after with rfl | ⟨after', v, rfl⟩
  · obtain ⟨-, hlast⟩ := List.append_inj' heq rfl
    cases hlast
    exact .inl ⟨hi, rfl⟩
  · rw [List.concat_eq_append, ← List.cons_append, ← List.append_assoc] at heq
    obtain ⟨hunits, hlast⟩ := List.append_inj' heq rfl
    cases hlast
    rw [List.concat_eq_append] at hafter
    exact .inr ⟨hafter u (by simp), before, after', hunits, hi, fun w hw => hafter w (by simp [hw])⟩

end

section
variable {e : Endian} {cs numChunks : Nat} {Base : Nat → List UInt8 → Prop}
  {units : List WriteUnit} {f : ByteFile} {wu : WriteUnit}

theorem Tracks.write (h : Tracks e cs numChunks Base units f) (hcs : 40 ≤ cs)
    (hoff : cs * wu.chunkNo.toNat < 2 ^ 64) :
    Tracks e cs numChunks Base (units ++ [wu]) (doWriteChunk e cs f wu) := by
  refine ⟨fun i u hlast => ?_, fun i hi hnone => ?_⟩
  · rw [chunkAt_doWriteChunk hcs hoff]
    rcases hlast.append_cases with ⟨hw, rfl⟩ | ⟨hw, hlast⟩
    · rw [if_pos hw.symm]
    · rw [if_neg (Ne.symm hw), h.written i u hlast]
  · rw [chunkAt_doWriteChunk hcs hoff, if_neg (Ne.symm (hnone wu (by simp)))]
    exact h.base i hi fun u hu => hnone u (by simp [hu])

theorem InOrder.table_last (h : InOrder numChunks now units) (hlast : LastOf units i wu) :
    units.foldl record initTable i = wu :=
  foldl_record_newest rfl (hlast.newest h.sorted)

/-- What `verify_file` asks of a chunk without a record. -/
def Plausible (e : Endian) (cs i : Nat) (chunk : List UInt8) : Prop :=
  (dumpPattern e cs chunk).timestamp = 0 ∨
    (dumpPattern e cs chunk).chunkNo = UInt64.ofNat i ∧
      (dumpPattern e cs chunk).checksum = bodySum e cs (dumpPattern e cs chunk).char

theorem plausible_pattern (hcs : 41 ≤ cs) (h : wu.chunkNo = UInt64.ofNat i) :
    Plausible e cs i (pattern e cs wu) := by
  rw [Plausible, dumpPattern_pattern hcs]
  exact .inr ⟨h, rfl⟩

theorem plausible_zeros (h : ∀ pos, f.byte pos = 0) : Plausible e cs i (chunkAt f cs i) := by
  have hload : e.load (slice (chunkAt f cs i) (cs - 20 + 4) 8) = 0 := by
    refine e.load_zeros fun b hb => ?_
    have hmem : b ∈ chunkAt f cs i := List.mem_of_mem_drop (List.mem_of_mem_take hb)
    obtain ⟨k, -, rfl⟩ := List.mem_map.mp hmem
    exact h _
  left
  simp only [dumpPattern, hload]
  rfl

/-- A file that follows its log, every chunk of it there in full, is accepted. -/
theorem verifyBody_of_tracks {read : Nat → Read} (hcs : 41 ≤ cs) (hread : ReadsFile f cs read)
    (hfull : ∀ i < numChunks, read i = .buf (chunkAt f cs i) cs)
    (horder : InOrder numChunks now units) (hne : units ≠ [])
    (h : Tracks e cs numChunks (Plausible e cs) units f) :
    verifyBody e cs read (.log (printLog units)) numChunks = .returns 0 := by
  have hempty : units.isEmpty = false := by simpa using hne
  have hunits := logUnits_print horder.recordOk
  rw [hempty] at hunits
  refine (verifyBody_eq_zero hcs hread).mpr ⟨units, hunits, horder.inTable, fun k hk _ => ?_⟩
  refine ⟨_, _, hfull k hk, ?_⟩
  unfold Decodes
  by_cases hrec : ∃ u ∈ units, u.chunkNo.toNat = k
  · obtain ⟨wu, hlast⟩ := exists_lastOf hrec
    rw [horder.table_last hlast, h.written k wu hlast, dumpPattern_pattern hcs]
    split
    · next hts => exact .inl hts
    · exact ⟨Nat.le_refl _, rfl, rfl, rfl⟩
  · have hnone : ∀ u ∈ units, u.chunkNo.toNat ≠ k := fun u hu hk => hrec ⟨u, hu, hk⟩
    rw [foldl_record_other hnone]
    exact h.base k hk hnone

end

end Ocfs2Test.Chunks
