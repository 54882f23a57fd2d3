import Ocfs2Test.MultiMmap.Model

/-!
# Every reader finds the block of its pass

There is one barrier for each block. A rank that reads block `b` in pass `t` is
past the barrier of that block and not yet in the next one, so the counts of the
barrier leave the writer of `b` nowhere to be but between its write of pass `t`
and its write of pass `t + 1`. The blocks have to lie side by side for this to
say anything about the file: `Fits`.
-/

namespace Ocfs2Test.MultiMmap

open Lib

-- ---------------------------------------------------------------------------
-- The characters
-- ---------------------------------------------------------------------------

def Config.startcharAt (cfg : Config) : Nat → UInt8
  | 0 => 97
  | pass + 1 => cfg.nextStartchar (cfg.startcharAt pass)

def Config.expectedChar (cfg : Config) (pass block : Nat) : UInt8 :=
  cfg.startcharAt pass + UInt8.ofNat block

section
variable {cfg : Config} {pass block b c i j : Nat}

theorem startcharAt_bounds (cfg : Config) (pass : Nat) :
    97 ≤ (cfg.startcharAt pass).toNat ∧ (cfg.startcharAt pass).toNat + cfg.numProcs ≤ 123 := by
  have := cfg.procs_le
  induction pass with
  | zero =>
    have h97 : (cfg.startcharAt 0).toNat = 97 := rfl
    omega
  | succ pass ih =>
    rw [Config.startcharAt, Config.nextStartchar]
    split
    · have h97 : (97 : UInt8).toNat = 97 := rfl
      omega
    · have hadd : (cfg.startcharAt pass + 1).toNat = (cfg.startcharAt pass).toNat + 1 := by
        rw [UInt8.toNat_add, show (1 : UInt8).toNat = 1 from rfl, Nat.mod_eq_of_lt (by omega)]
      omega

theorem toNat_expectedChar (h : block < cfg.numProcs) :
    (cfg.expectedChar pass block).toNat = (cfg.startcharAt pass).toNat + block := by
  have hb := startcharAt_bounds cfg pass
  rw [Config.expectedChar, UInt8.toNat_add, UInt8.toNat_ofNat',
    Nat.mod_eq_of_lt (a := block) (by omega), Nat.mod_eq_of_lt (by omega)]

theorem startcharAt_succ_ne (cfg : Config) (pass : Nat) :
    (cfg.startcharAt (pass + 1)).toNat ≠ (cfg.startcharAt pass).toNat := by
  have hb := startcharAt_bounds cfg pass
  have := cfg.procs_le
  rw [Config.startcharAt, Config.nextStartchar]
  split
  · have h97 : (97 : UInt8).toNat = 97 := rfl
    omega
  · rw [UInt8.toNat_add, show (1 : UInt8).toNat = 1 from rfl, Nat.mod_eq_of_lt (by omega)]
    omega

theorem expectedChar_letter (h : block < cfg.numProcs) :
    97 ≤ (cfg.expectedChar pass block).toNat ∧ (cfg.expectedChar pass block).toNat ≤ 122 := by
  have hb := startcharAt_bounds cfg pass
  rw [toNat_expectedChar h]
  omega

theorem expectedChar_succ_ne (h : block < cfg.numProcs) :
    cfg.expectedChar (pass + 1) block ≠ cfg.expectedChar pass block := by
  intro he
  have := congrArg UInt8.toNat he
  rw [toNat_expectedChar h, toNat_expectedChar h] at this
  exact startcharAt_succ_ne cfg pass (by omega)

-- ---------------------------------------------------------------------------
-- The layout
-- ---------------------------------------------------------------------------

structure Config.Fits (cfg : Config) : Prop where
  /-- The whole file is addressed by an `unsigned int`. -/
  addressed : cfg.numProcs * cfg.blocksize.toNat < 2 ^ 32
  /-- A block is read and written in one call, or there is no call. -/
  whole : cfg.blocksize.toNat ≤ MAX_RW_COUNT ∨
    cfg.zeroWithHole = true ∧ cfg.readers = .mmap ∧ cfg.writers = .mmap

theorem Config.Fits.length (h : cfg.Fits) : cfg.length = cfg.numProcs * cfg.blocksize.toNat := by
  have := cfg.procs_le
  rw [Config.length, UInt32.toNat_mul, UInt32.toNat_ofNat',
    Nat.mod_eq_of_lt (a := cfg.numProcs) (by omega), Nat.mul_comm, Nat.mod_eq_of_lt h.addressed]

theorem Config.block_le (cfg : Config) (hb : b < cfg.numProcs) :
    (b + 1) * cfg.blocksize.toNat ≤ cfg.numProcs * cfg.blocksize.toNat :=
  Nat.mul_le_mul_right _ hb

theorem Config.Fits.offset (h : cfg.Fits) (hb : b < cfg.numProcs) :
    cfg.offset b = b * cfg.blocksize.toNat := by
  have := cfg.procs_le
  have hle := cfg.block_le hb
  have hlt := h.addressed
  rw [Nat.succ_mul] at hle
  rw [Config.offset, UInt32.toNat_mul, UInt32.toNat_ofNat', Nat.mod_eq_of_lt (a := b) (by omega),
    Nat.mod_eq_of_lt (by omega)]

theorem Config.Fits.disjoint (h : cfg.Fits) (hb : b < cfg.numProcs) (hc : c < cfg.numProcs)
    (hi : i < cfg.blocksize.toNat) (hj : j < cfg.blocksize.toNat)
    (he : cfg.offset b + i = cfg.offset c + j) : b = c := by
  rw [h.offset hb, h.offset hc, Nat.mul_comm b, Nat.mul_comm c] at he
  have := congrArg (· / cfg.blocksize.toNat) he
  simpa [Nat.mul_add_div (show 0 < cfg.blocksize.toNat by omega), Nat.div_eq_of_lt hi,
    Nat.div_eq_of_lt hj] using this

theorem transfer_le (cfg : Config) (viaMmap : Bool) :
    cfg.transfer viaMmap ≤ cfg.blocksize.toNat := by
  cases viaMmap
  · exact Nat.min_le_left _ _
  · exact Nat.le_refl _

def Rank.Whole (cfg : Config) (r : Rank) : Prop :=
  cfg.transfer r.mmapReads = cfg.blocksize.toNat ∧ cfg.transfer r.mmapWrites = cfg.blocksize.toNat

theorem Config.Fits.transfer_of_allows (h : cfg.Fits) {how : How}
    (hhow : how = cfg.readers ∨ how = cfg.writers) {viaMmap : Bool} (hallows : how.Allows viaMmap) :
    cfg.transfer viaMmap = cfg.blocksize.toNat := by
  rcases h.whole with hle | ⟨_, hreaders, hwriters⟩
  · cases viaMmap
    · exact Nat.min_eq_left hle
    · rfl
  · have hmmap : how = .mmap := by
      rcases hhow with rfl | rfl
      · exact hreaders
      · exact hwriters
    subst hmmap
    cases hallows
    rfl

theorem size_zeroFile_written (cfg : Config) (h : cfg.zeroWithHole = false) (f : ByteFile) :
    cfg.numProcs * cfg.blocksize.toNat ≤ (cfg.zeroFile f).size := by
  have hbs := cfg.blocksize_gt
  have hne : List.replicate cfg.blocksize.toNat (0 : UInt8) ≠ [] := by
    simp
    omega
  obtain ⟨k, hk⟩ : ∃ k, cfg.numProcs = k + 1 := ⟨cfg.numProcs - 1, by have := cfg.le_procs; omega⟩
  rw [Config.zeroFile, if_neg (by simp [h]), Config.numBlocks, hk, List.range_succ,
    List.foldl_append, Nat.succ_mul]
  simp only [List.foldl_cons, List.foldl_nil, ByteFile.pwrite, if_neg hne, List.length_replicate]
  exact Nat.le_max_right _ _

theorem size_zeroFile (h : cfg.Fits) (f : ByteFile) :
    cfg.numProcs * cfg.blocksize.toNat ≤ (cfg.zeroFile f).size := by
  cases hhole : cfg.zeroWithHole with
  | true =>
    rw [Config.zeroFile, if_pos hhole, ByteFile.size_truncate, h.length]
  | false => exact size_zeroFile_written cfg hhole f

-- ---------------------------------------------------------------------------
-- The invariant
-- ---------------------------------------------------------------------------

/-- Barriers a rank has begun, the one of `prep_file` included. -/
def Rank.entered (cfg : Config) (r : Rank) : Nat :=
  match r.pc with
  | .prep | .prepBarrier => 0
  | .inPrepBarrier | .openAfter => 1
  | .inBarrier | .read => r.pass * cfg.numProcs + r.block + 2
  | _ => r.pass * cfg.numProcs + r.block + 1

def Rank.left (cfg : Config) (r : Rank) : Nat :=
  match r.pc with
  | .prep | .prepBarrier | .inPrepBarrier => 0
  | .openAfter => 1
  | .read => r.pass * cfg.numProcs + r.block + 2
  | _ => r.pass * cfg.numProcs + r.block + 1

def LocalsOk (cfg : Config) (p : Fin cfg.numProcs) (r : Rank) : Prop :=
  match r.pc with
  | .prep | .prepBarrier | .inPrepBarrier | .openAfter => r.pass = 0 ∧ r.block = 0
  | .write k => r.block = p ∧ k ≤ cfg.blocksize.toNat
  | .read => r.block ≠ p ∧ r.tmpblock.length ≤ cfg.blocksize.toNat ∧
      ∀ x ∈ r.tmpblock, x = cfg.expectedChar r.pass r.block
  | .aborted | .fault => False
  | _ => True

structure RankOk (cfg : Config) (b : Barrier (Fin cfg.numProcs)) (p : Fin cfg.numProcs)
    (r : Rank) : Prop where
  entered : b.entered p = r.entered cfg
  left : b.left p = r.left cfg
  startchar : r.startchar = cfg.startcharAt r.pass
  block_lt : r.block < cfg.numProcs
  locals : LocalsOk cfg p r

/-- At that point byte `i` of the block of this pass is written. -/
def Pc.past (i : Nat) : Pc → Prop
  | .write k => i < k
  | .barrier | .inBarrier => True
  | _ => False

instance : Decidable (Pc.past i pc) := by
  cases pc <;> unfold Pc.past <;> infer_instance

/-- How often the writer of block `b` has written byte `i` of it. -/
def Rank.writes (r : Rank) (b i : Nat) : Nat :=
  r.pass + if b < r.block ∨ r.block = b ∧ r.pc.past i then 1 else 0

/-- What was written last stands in the file. -/
def Holds (cfg : Config) (f : ByteFile) (b : Nat) (r : Rank) : Prop :=
  ∀ i < cfg.blocksize.toNat, ∀ pass, r.writes b i = pass + 1 →
    f.byte (cfg.offset b + i) = cfg.expectedChar pass b

structure Inv (cfg : Config) (s : State cfg.numProcs) : Prop where
  synced : s.barrier.Synced
  rank : ∀ p, RankOk cfg s.barrier p (s.ranks p)
  holds : ∀ p : Fin cfg.numProcs, Holds cfg s.file p (s.ranks p)
  sized : ∀ p, p.val = 0 → (s.ranks p).pc ≠ .prep →
    cfg.numProcs * cfg.blocksize.toNat ≤ s.file.size

variable {s s' : State cfg.numProcs} {p q : Fin cfg.numProcs} {r : Rank}

theorem initial_inv (cfg : Config) (f : ByteFile) : Inv cfg (initial f) where
  synced := Barrier.synced_start
  rank p := ⟨rfl, rfl, rfl, p.pos, rfl, rfl⟩
  holds p i _ pass h := by simp [initial, Rank.writes, Pc.past] at h
  sized p _ h := absurd rfl h

theorem Inv.update (h : Inv cfg s) {f : ByteFile} {b : Barrier (Fin cfg.numProcs)}
    (hsync : b.Synced)
    (hbar : ∀ q ≠ p, b.entered q = s.barrier.entered q ∧ b.left q = s.barrier.left q)
    (hrank : RankOk cfg b p r) (hholds : Holds cfg f p r)
    (hothers : ∀ q : Fin cfg.numProcs, q ≠ p → Holds cfg f q (s.ranks q))
    (hsize : (∃ q : Fin cfg.numProcs, q.val = 0 ∧ (Function.update s.ranks p r q).pc ≠ .prep) →
      cfg.numProcs * cfg.blocksize.toNat ≤ f.size) :
    Inv cfg ⟨f, b, Function.update s.ranks p r⟩ where
  synced := hsync
  rank q := by
    by_cases hq : q = p
    · subst hq
      simpa using hrank
    · have hr := h.rank q
      obtain ⟨he, hl⟩ := hbar q hq
      simp only [Function.update_of_ne hq]
      exact { hr with entered := he.trans hr.entered, left := hl.trans hr.left }
  holds q := by
    by_cases hq : q = p
    · subst hq
      simpa using hholds
    · simpa [hq] using hothers q hq
  sized q hq hpc := hsize ⟨q, hq, hpc⟩

theorem Inv.move (h : Inv cfg s) {f : ByteFile} {b : Barrier (Fin cfg.numProcs)}
    (hsync : b.Synced)
    (hbar : ∀ q ≠ p, b.entered q = s.barrier.entered q ∧ b.left q = s.barrier.left q)
    (hrank : RankOk cfg b p r) (hholds : Holds cfg f p r)
    (hframe : ∀ q : Fin cfg.numProcs, q ≠ p → ∀ i < cfg.blocksize.toNat,
      f.byte (cfg.offset q + i) = s.file.byte (cfg.offset q + i))
    (hsize : s.file.size ≤ f.size) (hpc : (s.ranks p).pc ≠ .prep ∨ p.val ≠ 0) :
    Inv cfg ⟨f, b, Function.update s.ranks p r⟩ := by
  refine h.update hsync hbar hrank hholds ?_ ?_
  · intro q hq i hi pass hw
    rw [hframe q hq i hi]
    exact h.holds q i hi pass hw
  · rintro ⟨q, hq, hqpc⟩
    refine (h.sized q hq ?_).trans hsize
    by_cases hqp : q = p
    · subst hqp
      exact hpc.resolve_right fun hne => hne hq
    · simpa [hqp] using hqpc

/-- Where `r` becomes `r'` nothing is written, and of the barriers `enters` are begun and
`leaves` are ended. -/
structure Quiet (cfg : Config) (p : Fin cfg.numProcs) (enters leaves : Nat) (r r' : Rank) :
    Prop where
  entered : r'.entered cfg = r.entered cfg + enters
  left : r'.left cfg = r.left cfg + leaves
  startchar : r'.startchar = cfg.startcharAt r'.pass
  block_lt : r'.block < cfg.numProcs
  locals : LocalsOk cfg p r'
  writes : ∀ i < cfg.blocksize.toNat, r'.writes p i = r.writes p i

theorem Quiet.rankOk {enters leaves : Nat} {b b' : Barrier (Fin cfg.numProcs)} {r' : Rank}
    (h : Quiet cfg p enters leaves r r') (hr : RankOk cfg b p r)
    (he : b'.entered p = b.entered p + enters) (hl : b'.left p = b.left p + leaves) :
    RankOk cfg b' p r' where
  entered := by rw [he, hr.entered, h.entered]
  left := by rw [hl, hr.left, h.left]
  startchar := h.startchar
  block_lt := h.block_lt
  locals := h.locals

theorem Quiet.holds {enters leaves : Nat} {f : ByteFile} {r' : Rank}
    (h : Quiet cfg p enters leaves r r') (hholds : Holds cfg f p r) : Holds cfg f p r' := by
  intro i hi pass hw
  exact hholds i hi pass ((h.writes i hi).symm.trans hw)

theorem Inv.setRank (h : Inv cfg s) (hquiet : Quiet cfg p 0 0 (s.ranks p) r)
    (hpc : (s.ranks p).pc ≠ .prep ∨ p.val ≠ 0) : Inv cfg (s.setRank p r) :=
  h.move h.synced (fun _ _ => ⟨rfl, rfl⟩) (hquiet.rankOk (h.rank p) rfl rfl)
    (hquiet.holds (h.holds p)) (fun _ _ _ _ => rfl) (Nat.le_refl _) hpc

theorem Inv.enter (h : Inv cfg s) (hquiet : Quiet cfg p 1 0 (s.ranks p) r)
    (hpc : (s.ranks p).pc ≠ .prep) : Inv cfg ((s.enter p).setRank p r) :=
  h.move h.synced.enter (fun _ hq => ⟨Function.update_of_ne hq _ _, rfl⟩)
    (hquiet.rankOk (h.rank p) (Function.update_self ..) rfl) (hquiet.holds (h.holds p))
    (fun _ _ _ _ => rfl) (Nat.le_refl _) (.inl hpc)

theorem Inv.leave (h : Inv cfg s) (hquiet : Quiet cfg p 0 1 (s.ranks p) r)
    (hpc : (s.ranks p).pc ≠ .prep) (hopen : s.barrier.Open p)
    (hin : (s.ranks p).left cfg < (s.ranks p).entered cfg) : Inv cfg ((s.leave p).setRank p r) := by
  have hr := h.rank p
  refine h.move (h.synced.leave ?_ hopen) (fun _ hq => ⟨rfl, Function.update_of_ne hq _ _⟩)
    (hquiet.rankOk hr rfl (Function.update_self ..)) (hquiet.holds (h.holds p))
    (fun _ _ _ _ => rfl) (Nat.le_refl _) (.inl hpc)
  rw [hr.left, hr.entered]
  exact hin

/-- Whoever is past the barrier of `prep_file` finds the file in place. -/
theorem Inv.size_le (h : Inv cfg s) (hl : 0 < (s.ranks p).left cfg) :
    cfg.numProcs * cfg.blocksize.toNat ≤ s.file.size := by
  have hpos : 0 < cfg.numProcs := p.pos
  refine h.sized ⟨0, hpos⟩ rfl fun hprep => ?_
  have hle := h.synced p ⟨0, hpos⟩
  rw [(h.rank p).left, (h.rank _).entered] at hle
  simp only [Rank.entered, hprep] at hle
  omega

theorem Inv.accessible (h : Inv cfg s) (viaMmap : Bool) (hfit : cfg.Fits)
    (hl : 0 < (s.ranks p).left cfg) (hb : b < cfg.numProcs) (hm : k + m ≤ cfg.blocksize.toNat) :
    Accessible cfg s.file viaMmap (cfg.offset b + k) m ∧ cfg.offset b + k + m ≤ s.file.size := by
  have hsize := h.size_le hl
  have hle := cfg.block_le hb
  rw [Nat.succ_mul] at hle
  rw [Accessible, hfit.length, hfit.offset hb]
  omega

theorem next_turn {n a x t b : Nat} (hx : x < n) (hb : b < n) (h : a * n + x = t * n + b + 1) :
    a = t ∧ x = b + 1 ∨ a = t + 1 ∧ x = 0 ∧ b + 1 = n := by
  rcases Nat.lt_or_ge (b + 1) n with hlt | hge
  · left
    rw [Nat.add_assoc, Nat.mul_comm a, Nat.mul_comm t] at h
    have hq := congrArg (· / n) h
    have hr := congrArg (· % n) h
    simp only [Nat.mul_add_div (show 0 < n by omega), Nat.div_eq_of_lt hx, Nat.div_eq_of_lt hlt,
      Nat.mul_add_mod, Nat.mod_eq_of_lt hx, Nat.mod_eq_of_lt hlt] at hq hr
    omega
  · right
    obtain rfl : n = b + 1 := by omega
    have h' : a * (b + 1) + x = (t + 1) * (b + 1) + 0 := by rw [Nat.succ_mul]; omega
    rw [Nat.mul_comm a, Nat.mul_comm (t + 1)] at h'
    have hq := congrArg (· / (b + 1)) h'
    have hr := congrArg (· % (b + 1)) h'
    simp only [Nat.mul_add_div (show 0 < b + 1 by omega), Nat.div_eq_of_lt hx, Nat.zero_div,
      Nat.mul_add_mod, Nat.mod_eq_of_lt hx, Nat.zero_mod] at hq hr
    omega

theorem same_turn {n a x t b : Nat} (hx : x < n) (hb : b < n) (h : a * n + x = t * n + b) :
    a = t ∧ x = b := by
  rw [Nat.mul_comm a, Nat.mul_comm t] at h
  have hq := congrArg (· / n) h
  have hr := congrArg (· % n) h
  simp only [Nat.mul_add_div (show 0 < n by omega), Nat.div_eq_of_lt hx, Nat.div_eq_of_lt hb,
    Nat.mul_add_mod, Nat.mod_eq_of_lt hx, Nat.mod_eq_of_lt hb] at hq hr
  omega

/-- While a rank reads, the writer of its block has written it in this pass and
not yet in the next. With two ranks it has just one barrier to spare. -/
theorem Inv.writes_of_read (h : Inv cfg s) (hpc : (s.ranks p).pc = .read)
    (w : Fin cfg.numProcs) (hw : w.val = (s.ranks p).block) (i : Nat) :
    (s.ranks w).writes w i = (s.ranks p).pass + 1 := by
  have h2 := cfg.le_procs
  have hp := h.rank p
  have hr := h.rank w
  have hb := hp.block_lt
  have hx := hr.block_lt
  have hlo := h.synced p w
  have hhi := h.synced w p
  rw [hp.left, hr.entered] at hlo
  rw [hr.left, hp.entered] at hhi
  have hl := hr.locals
  generalize s.ranks w = r at *
  obtain ⟨pc, pass, block, startchar, mr, mw, tmp⟩ := r
  simp only [Rank.left, Rank.entered, hpc] at hlo hhi
  -- one position on, the block is behind the writer or a whole pass ahead of it
  have next (hturn : pass * cfg.numProcs + block =
      (s.ranks p).pass * cfg.numProcs + (s.ranks p).block + 1) :
      block ≠ (s.ranks p).block ∧
      pass + (if (s.ranks p).block < block then 1 else 0) = (s.ranks p).pass + 1 := by
    rcases next_turn hx hb hturn with ⟨rfl, rfl⟩ | ⟨rfl, rfl, hn⟩
    · simp
    · rw [if_neg (Nat.not_lt_zero _)]
      omega
  simp only [Rank.writes, hw]
  cases pc with
  | prep | prepBarrier | inPrepBarrier | openAfter => simp at hlo
  | aborted | fault => exact hl.elim
  | block | done =>
    simp only at hlo hhi
    simpa [Pc.past] using (next (by omega)).2
  | write k =>
    simp only [LocalsOk, hw] at hlo hhi hl
    exact absurd hl.1 (next (by omega)).1
  | barrier =>
    simp only at hlo hhi
    obtain ⟨hne, hwrites⟩ := next (by omega)
    simpa [hne] using hwrites
  | inBarrier =>
    simp only at hlo hhi
    by_cases hturn : pass * cfg.numProcs + block =
        (s.ranks p).pass * cfg.numProcs + (s.ranks p).block
    · obtain ⟨rfl, rfl⟩ := same_turn hx hb hturn
      simp [Pc.past]
    · obtain ⟨hne, hwrites⟩ := next (by omega)
      simpa [hne] using hwrites
  | read =>
    simp only [LocalsOk, hw] at hlo hhi hl
    have hturn : pass * cfg.numProcs + block =
        (s.ranks p).pass * cfg.numProcs + (s.ranks p).block := by omega
    exact absurd (same_turn hx hb hturn).2 hl.1

/-- What `nextBlock` leaves of a rank whose block is dealt with. -/
structure Moved (cfg : Config) (r r' : Rank) : Prop where
  pc : r'.pc = .block ∨ r'.pc = .done
  turn : r'.pass * cfg.numProcs + r'.block = r.pass * cfg.numProcs + r.block + 1
  startchar : r'.startchar = cfg.startcharAt r'.pass
  block_lt : r'.block < cfg.numProcs
  writes : ∀ b < cfg.numProcs, ∀ i, r'.writes b i = r.pass + if b ≤ r.block then 1 else 0

theorem nextBlock_moved (hc : r.startchar = cfg.startcharAt r.pass) (hb : r.block < cfg.numProcs) :
    Moved cfg r (nextBlock cfg r) := by
  rw [nextBlock]
  split
  · next hlt =>
    refine ⟨.inl rfl, rfl, hc, hlt, fun b _ i => ?_⟩
    simp [Rank.writes, Pc.past]
  · next hge =>
    have hlast : r.block + 1 = cfg.numProcs := Nat.le_antisymm hb (Nat.le_of_not_lt hge)
    have hchar : cfg.nextStartchar r.startchar = cfg.startcharAt (r.pass + 1) := by
      rw [hc, Config.startcharAt]
    have hturn : (r.pass + 1) * cfg.numProcs + 0 = r.pass * cfg.numProcs + r.block + 1 := by
      rw [Nat.succ_mul]
      omega
    have hwrites (b : Nat) (h : b < cfg.numProcs) :
        r.pass + 1 = r.pass + if b ≤ r.block then 1 else 0 := by
      rw [if_pos (by omega)]
    have hpos : 0 < cfg.numProcs := by omega
    rw [beginPass]
    split
    · exact ⟨.inl rfl, hturn, hchar, hpos, fun b h i => by
        simpa [Rank.writes, Pc.past] using hwrites b h⟩
    · exact ⟨.inr rfl, hturn, hchar, hpos, fun b h i => by
        simpa [Rank.writes, Pc.past] using hwrites b h⟩

theorem Moved.quiet {enters leaves : Nat} {r' : Rank} (h : Moved cfg r r')
    (he : r.entered cfg + enters = r.pass * cfg.numProcs + r.block + 2)
    (hl : r.left cfg + leaves = r.pass * cfg.numProcs + r.block + 2)
    (hwrites : ∀ i, r.writes p i = r.pass + if p.val ≤ r.block then 1 else 0) :
    Quiet cfg p enters leaves r r' := by
  have hturn := h.turn
  refine ⟨?_, ?_, h.startchar, h.block_lt, ?_, ?_⟩
  · rcases h.pc with hpc | hpc <;> rw [Rank.entered, hpc] <;> simp only <;> omega
  · rcases h.pc with hpc | hpc <;> rw [Rank.left, hpc] <;> simp only <;> omega
  · rcases h.pc with hpc | hpc <;> simp [LocalsOk, hpc]
  · intro i _
    rw [h.writes p p.isLt, hwrites]

theorem pattern_eq_replicate (hc : r.startchar = cfg.startcharAt r.pass) :
    r.pattern cfg = List.replicate cfg.blocksize.toNat (cfg.expectedChar r.pass r.block) := by
  rw [Rank.pattern, Config.fillWithExpectedPattern, Config.expectedChar, hc]

theorem writer_block (hr : RankOk cfg s.barrier p (s.ranks p))
    (h : (s.ranks p).block % cfg.numProcs = p.val) : (s.ranks p).block = p.val := by
  rwa [Nat.mod_eq_of_lt hr.block_lt] at h

theorem reader_block (hr : RankOk cfg s.barrier p (s.ranks p))
    (h : (s.ranks p).block % cfg.numProcs ≠ p.val) : (s.ranks p).block ≠ p.val := by
  rwa [Nat.mod_eq_of_lt hr.block_lt] at h

theorem Inv.writePiece (h : Inv cfg s) (hfit : cfg.Fits) (hpc : (s.ranks p).pc = .write k)
    (hm : k + m ≤ cfg.blocksize.toNat) :
    Inv cfg ((s.setFile (s.file.pwrite ((((s.ranks p).pattern cfg).drop k).take m)
      (cfg.offset (s.ranks p).block + k))).goto p (.write (k + m))) := by
  have hr := h.rank p
  have hl := hr.locals
  simp only [LocalsOk, hpc] at hl
  obtain ⟨hblock, hk⟩ := hl
  have hpiece : (((s.ranks p).pattern cfg).drop k).take m =
      List.replicate m (cfg.expectedChar (s.ranks p).pass p) := by
    rw [pattern_eq_replicate hr.startchar, hblock, List.drop_replicate, List.take_replicate,
      Nat.min_eq_left (by omega)]
  rw [hpiece]
  refine h.move (f := s.file.pwrite _ _) h.synced (fun _ _ => ⟨rfl, rfl⟩)
    ⟨?_, ?_, hr.startchar, hr.block_lt, hblock, hm⟩ ?_ ?_ ?_ (.inl (by simp [hpc]))
  · simpa [Rank.entered, hpc] using hr.entered
  · simpa [Rank.left, hpc] using hr.left
  · intro i hi pass hw
    simp only [State.setFile_ranks, Rank.writes, hblock, Pc.past, Nat.lt_irrefl, true_and,
      false_or] at hw
    rw [ByteFile.byte_pwrite, List.length_replicate, hblock]
    by_cases hin : k ≤ i ∧ i < k + m
    · rw [if_pos (by omega), List.getD_replicate _ (by omega)]
      rw [if_pos (by omega)] at hw
      rw [Nat.succ.inj hw]
    · rw [if_neg (by omega)]
      refine h.holds p i hi pass ?_
      rw [← hw, Rank.writes, hpc, hblock]
      simp only [Pc.past]
      congr 2
      simp
      omega
  · intro q hq i hi
    rw [ByteFile.byte_pwrite, if_neg]
    rintro ⟨hlo, hhi⟩
    rw [List.length_replicate] at hhi
    refine hq (Fin.ext (hfit.disjoint q.isLt hr.block_lt hi
      (j := cfg.offset q + i - cfg.offset (s.ranks p).block) (by omega) (by omega) |>.trans hblock))
  · exact ByteFile.size_le_pwrite _ _ _

theorem Inv.writes_of_prep (h : Inv cfg s) (hpc : (s.ranks p).pc = .prep) (q : Fin cfg.numProcs)
    (i : Nat) : (s.ranks q).writes q i = 0 := by
  have hq := h.rank q
  have hle := h.synced q p
  rw [hq.left, (h.rank p).entered] at hle
  have hl := hq.locals
  generalize s.ranks q = r at *
  obtain ⟨pc, pass, block, startchar, mr, mw, tmp⟩ := r
  simp only [Rank.left, Rank.entered, hpc] at hle
  cases pc <;> simp_all [LocalsOk, Rank.writes, Pc.past]

theorem Inv.prepRoot (h : Inv cfg s) (hfit : cfg.Fits) (hpc : (s.ranks p).pc = .prep) :
    Inv cfg ((s.setFile (cfg.prepFile s.file)).goto p .prepBarrier) := by
  have hr := h.rank p
  have hl := hr.locals
  simp only [LocalsOk, hpc] at hl
  have hholds (q : Fin cfg.numProcs) : Holds cfg (cfg.prepFile s.file) q (s.ranks q) := by
    intro i _ pass hw
    simp [h.writes_of_prep hpc q i] at hw
  refine h.update (f := cfg.prepFile s.file) h.synced (fun _ _ => ⟨rfl, rfl⟩)
    ⟨?_, ?_, hr.startchar, hr.block_lt, hl⟩ ?_ (fun q _ => hholds q)
    (fun _ => size_zeroFile hfit _)
  · simpa [Rank.entered, hpc] using hr.entered
  · simpa [Rank.left, hpc] using hr.left
  · intro i hi pass hw
    refine hholds p i hi pass (Eq.trans ?_ hw)
    simp [Rank.writes, Pc.past, hpc]

theorem Rank.Whole.beginPass (h : r.Whole cfg) : (beginPass cfg r).Whole cfg := by
  rw [MultiMmap.beginPass]
  split <;> exact h

theorem Rank.Whole.nextBlock (h : r.Whole cfg) : (nextBlock cfg r).Whole cfg := by
  rw [MultiMmap.nextBlock]
  split
  · exact h
  · exact Rank.Whole.beginPass h

theorem whole_update (h : ∀ q, (s.ranks q).Whole cfg) (hr : r.Whole cfg) (q : Fin cfg.numProcs) :
    (Function.update s.ranks p r q).Whole cfg := by
  by_cases hq : q = p
  · subst hq
    simpa using hr
  · simpa [hq] using h q

theorem step_whole (hfit : cfg.Fits) (h : ∀ q, (s.ranks q).Whole cfg) (hstep : Step cfg s s') :
    ∀ q, (s'.ranks q).Whole cfg := by
  cases hstep with
  | @doWriter p v _ _ hallows =>
    exact whole_update h ⟨(h p).1, hfit.transfer_of_allows (.inr rfl) hallows⟩
  | @doReader p v _ _ hallows =>
    exact whole_update h ⟨hfit.transfer_of_allows (.inl rfl) hallows, (h p).2⟩
  | @populate p _ _ _ => exact whole_update h (h p).beginPass
  | @leaveWriter p _ _ _ => exact whole_update h (h p).nextBlock
  | @verified p _ _ => exact whole_update h (h p).nextBlock
  | _ => exact whole_update h (h _)

theorem step_inv (hfit : cfg.Fits) (hwhole : ∀ q, (s.ranks q).Whole cfg) (h : Inv cfg s)
    (hstep : Step cfg s s') : Inv cfg s' := by
  have hlen : cfg.length ≠ 0 := by
    have := cfg.blocksize_gt
    have := cfg.le_procs
    rw [hfit.length]
    exact Nat.mul_ne_zero (by omega) (by omega)
  -- a rank that accesses its block is past `prep_file`
  have hacc (p : Fin cfg.numProcs) (hl : 0 < (s.ranks p).left cfg) (k m : Nat)
      (hm : k + m ≤ cfg.blocksize.toNat) (viaMmap : Bool) :=
    h.accessible viaMmap hfit hl (h.rank p).block_lt hm
  cases hstep with
  | @prepRoot p hpc _ _ _ => exact h.prepRoot hfit hpc
  | @zeroAbort p _ _ _ hhole hlt =>
    rcases hfit.whole with hle | ⟨h', _⟩
    · exact absurd hlt (Nat.not_lt.mpr hle)
    · rw [hhole] at h'
      cases h'
  | @prepRest p hpc h0 =>
    have hr := h.rank p
    have hl := hr.locals
    simp only [LocalsOk, hpc] at hl
    refine h.setRank ⟨?_, ?_, hr.startchar, hr.block_lt, hl, ?_⟩ (.inr h0)
    · simp [Rank.entered, hpc]
    · simp [Rank.left, hpc]
    · simp [Rank.writes, Pc.past, hpc]
  | @enterPrep p hpc =>
    have hr := h.rank p
    have hl := hr.locals
    simp only [LocalsOk, hpc] at hl
    refine h.enter ⟨?_, ?_, hr.startchar, hr.block_lt, hl, ?_⟩ (by simp [hpc])
    · simp [Rank.entered, hpc]
    · simp [Rank.left, hpc]
    · simp [Rank.writes, Pc.past, hpc]
  | @leavePrep p hpc hopen =>
    have hr := h.rank p
    have hl := hr.locals
    simp only [LocalsOk, hpc] at hl
    refine h.leave ⟨?_, ?_, hr.startchar, hr.block_lt, hl, ?_⟩ (by simp [hpc]) hopen ?_
    · simp [Rank.entered, hpc]
    · simp [Rank.left, hpc]
    · simp [Rank.writes, Pc.past, hpc]
    · simp [Rank.left, Rank.entered, hpc]
  | @mapAbort p _ h0 => exact absurd h0 hlen
  | @populateFault p _ _ hlt => exact absurd hlt (by rw [hfit.length]; exact Nat.lt_irrefl _)
  | @populate p hpc _ _ =>
    have hr := h.rank p
    have hl := hr.locals
    simp only [LocalsOk, hpc] at hl
    refine h.setRank ?_ (.inl (by simp [hpc]))
    rw [beginPass]
    split
    · refine ⟨?_, ?_, hr.startchar, p.pos, trivial, ?_⟩
      · simp [Rank.entered, hpc, hl]
      · simp [Rank.left, hpc, hl]
      · simp [Rank.writes, Pc.past, hpc, hl]
    · refine ⟨?_, ?_, hr.startchar, p.pos, trivial, ?_⟩
      · simp [Rank.entered, hpc, hl]
      · simp [Rank.left, hpc, hl]
      · simp [Rank.writes, Pc.past, hpc, hl]
  | @doWriter p v hpc hturn _ =>
    have hr := h.rank p
    refine h.setRank ⟨?_, ?_, hr.startchar, hr.block_lt, ⟨writer_block hr hturn, Nat.zero_le _⟩, ?_⟩
      (.inl (by simp [hpc]))
    · simp [Rank.entered, hpc]
    · simp [Rank.left, hpc]
    · simp [Rank.writes, Pc.past, hpc]
  | @doReader p v hpc hturn _ =>
    have hr := h.rank p
    refine h.setRank ⟨?_, ?_, hr.startchar, hr.block_lt, trivial, ?_⟩ (.inl (by simp [hpc]))
    · simp [Rank.entered, hpc]
    · simp [Rank.left, hpc]
    · simp [Rank.writes, Pc.past, hpc, reader_block hr hturn]
  | @writePiece p k m hpc _ hm _ => exact h.writePiece hfit hpc (hm.trans (transfer_le cfg _))
  | @writeFault p k hpc hk hbad =>
    exact absurd (hacc p (by simp [Rank.left, hpc]) k 1 (hk.trans_le (transfer_le cfg _)) _).1 hbad
  | @shortWrite p k _ hk hlt =>
    rw [hk, (hwhole p).2] at hlt
    exact absurd hlt (Nat.lt_irrefl _)
  | @written p hpc =>
    have hr := h.rank p
    refine h.setRank ⟨?_, ?_, hr.startchar, hr.block_lt, trivial, fun i hi => ?_⟩
      (.inl (by simp [hpc]))
    · simp [Rank.entered, hpc]
    · simp [Rank.left, hpc]
    · simp [Rank.writes, Pc.past, hpc, hi]
  | @enter p hpc =>
    have hr := h.rank p
    refine h.enter ⟨?_, ?_, hr.startchar, hr.block_lt, trivial, ?_⟩ (by simp [hpc])
    · simp [Rank.entered, hpc]
    · simp [Rank.left, hpc]
    · simp [Rank.writes, Pc.past, hpc]
  | @leaveWriter p hpc hopen hturn =>
    have hr := h.rank p
    refine h.leave ((nextBlock_moved hr.startchar hr.block_lt).quiet ?_ ?_ fun i => ?_)
      (by simp [hpc]) hopen ?_
    · simp [Rank.entered, hpc]
    · simp [Rank.left, hpc]
    · rw [Rank.writes, hpc, writer_block hr hturn]
      simp [Pc.past]
    · simp [Rank.left, Rank.entered, hpc]
  | @leaveReader p hpc hopen hturn =>
    have hr := h.rank p
    have hne := reader_block hr hturn
    refine h.leave ⟨?_, ?_, hr.startchar, hr.block_lt, ⟨hne, Nat.zero_le _, by simp⟩, ?_⟩
      (by simp [hpc]) hopen ?_
    · simp [Rank.entered, hpc]
    · simp [Rank.left, hpc]
    · simp [Rank.writes, Pc.past, hpc, hne]
    · simp [Rank.left, Rank.entered, hpc]
  | @readPiece p m hpc _ hm _ hsize =>
    have hr := h.rank p
    have hl := hr.locals
    simp only [LocalsOk, hpc] at hl
    obtain ⟨hne, _, hall⟩ := hl
    refine h.setRank ⟨?_, ?_, hr.startchar, hr.block_lt, ?_, ?_⟩ (.inl (by simp [hpc]))
    · simp [Rank.entered, hpc]
    · simp [Rank.left, hpc]
    · simp only [LocalsOk, hpc, List.length_append, ByteFile.length_pread]
      have hm := hm.trans (transfer_le cfg _)
      refine ⟨hne, by omega, fun x hx => ?_⟩
      rcases List.mem_append.mp hx with hx | hx
      · exact hall x hx
      · obtain ⟨i, hi, rfl⟩ := List.mem_map.mp hx
        have hi' : i < m := (List.mem_range.mp hi).trans_le (Nat.min_le_left _ _)
        rw [Nat.add_assoc]
        exact h.holds ⟨_, hr.block_lt⟩ _ (by omega) _
          (h.writes_of_read hpc ⟨_, hr.block_lt⟩ rfl _)
    · simp [Rank.writes, Pc.past, hpc]
  | @readFault p hpc hlt hbad =>
    exact absurd (hacc p (by simp [Rank.left, hpc]) _ 1 (hlt.trans_le (transfer_le cfg _)) _).1 hbad
  | @shortRead p hpc hregular hlt hshort =>
    have hsize := (hacc p (by simp [Rank.left, hpc]) _ 1 hlt false).2
    have htransfer := (hwhole p).1
    rw [hregular] at htransfer
    omega
  | @verified p hpc _ =>
    have hr := h.rank p
    have hl := hr.locals
    simp only [LocalsOk, hpc] at hl
    refine h.setRank ((nextBlock_moved hr.startchar hr.block_lt).quiet ?_ ?_ fun i => ?_)
      (.inl (by simp [hpc]))
    · simp [Rank.entered, hpc]
    · simp [Rank.left, hpc]
    · have hlt : p.val ≤ (s.ranks p).block ↔ p.val < (s.ranks p).block :=
        ⟨fun hle => Nat.lt_of_le_of_ne hle (Ne.symm hl.1), Nat.le_of_lt⟩
      rw [Rank.writes, hpc]
      simp [Pc.past, hlt]
  | @verifyFailed p hpc hfull hne =>
    have hr := h.rank p
    have hl := hr.locals
    simp only [LocalsOk, hpc] at hl
    refine absurd ?_ hne
    rw [pattern_eq_replicate hr.startchar]
    exact List.eq_replicate_iff.mpr ⟨hfull, hl.2.2⟩

theorem reachable_inv (hfit : cfg.Fits) (h : (multiMmap cfg).Reachable s) :
    Inv cfg s ∧ ∀ q, (s.ranks q).Whole cfg := by
  refine h.invariant (P := fun s => Inv cfg s ∧ ∀ q, (s.ranks q).Whole cfg) ?_
    fun _ _ _ hi hstep => ⟨step_inv hfit hi.2 hi.1 hstep, step_whole hfit hi.2 hstep⟩
  rintro _ ⟨f, rfl⟩
  exact ⟨initial_inv cfg f, fun _ => ⟨rfl, rfl⟩⟩

-- ---------------------------------------------------------------------------
-- Correct runs
-- ---------------------------------------------------------------------------

structure Correct (cfg : Config) (s : State cfg.numProcs) : Prop where
  /-- No rank has run out of the mapping, or has found a block it did not expect. -/
  alive : ∀ p, (s.ranks p).pc ≠ .fault ∧ (s.ranks p).pc ≠ .aborted
  /-- Whatever a reader has read so far is of its block in its pass. -/
  reads : ∀ p, (s.ranks p).pc = .read →
    (s.ranks p).tmpblock <+: (s.ranks p).pattern cfg ∧
    ∀ x ∈ (s.ranks p).tmpblock, x = cfg.expectedChar (s.ranks p).pass (s.ranks p).block
  letters : ∀ p, ∀ x ∈ (s.ranks p).pattern cfg, 97 ≤ x.toNat ∧ x.toNat ≤ 122
  /-- A writer replaces the block of the pass before by another character. -/
  replaces : ∀ p, (s.ranks p).pc = .write 0 → 0 < (s.ranks p).pass → ∀ i < cfg.blocksize.toNat,
    s.file.byte (cfg.offset (s.ranks p).block + i) =
      cfg.expectedChar ((s.ranks p).pass - 1) (s.ranks p).block ∧
    ∀ x ∈ (s.ranks p).pattern cfg, s.file.byte (cfg.offset (s.ranks p).block + i) ≠ x

theorem Inv.correct (h : Inv cfg s) : Correct cfg s where
  alive p := by
    have hl := (h.rank p).locals
    constructor <;> intro hpc <;> simp [LocalsOk, hpc] at hl
  reads p hpc := by
    have hr := h.rank p
    have hl := hr.locals
    simp only [LocalsOk, hpc] at hl
    obtain ⟨_, hlen, hall⟩ := hl
    refine ⟨?_, hall⟩
    rw [pattern_eq_replicate hr.startchar, List.eq_replicate_of_mem hall]
    exact ⟨List.replicate (cfg.blocksize.toNat - (s.ranks p).tmpblock.length) _, by
      rw [List.replicate_append_replicate, Nat.add_sub_cancel' hlen]⟩
  letters p x hx := by
    have hr := h.rank p
    rw [pattern_eq_replicate hr.startchar] at hx
    rw [List.eq_of_mem_replicate hx]
    exact expectedChar_letter hr.block_lt
  replaces p hpc hpass i hi := by
    have hr := h.rank p
    have hl := hr.locals
    simp only [LocalsOk, hpc] at hl
    obtain ⟨pass, hp⟩ : ∃ pass, (s.ranks p).pass = pass + 1 :=
      ⟨_, (Nat.succ_pred_eq_of_pos hpass).symm⟩
    have hbyte := h.holds p i hi pass (by simp [Rank.writes, hpc, hl, hp, Pc.past])
    rw [hl.1, hp, Nat.add_sub_cancel]
    refine ⟨hbyte, fun x hx => ?_⟩
    rw [pattern_eq_replicate hr.startchar] at hx
    rw [hbyte, List.eq_of_mem_replicate hx, hp, hl.1]
    exact (expectedChar_succ_ne p.isLt).symm

theorem reachable_initial (cfg : Config) (f : ByteFile) : (multiMmap cfg).Reachable (initial f) :=
  .init ⟨f, rfl⟩

theorem reachable_step (h : (multiMmap cfg).Reachable s) (hstep : Step cfg s s') :
    (multiMmap cfg).Reachable s' :=
  h.step hstep

theorem multiMmap_correct (cfg : Config) (hfit : cfg.Fits) :
    ∀ s, (multiMmap cfg).Reachable s → Correct cfg s :=
  fun _ h => (reachable_inv hfit h).1.correct

end

/-- Two ranks, the default blocksize, `-i 2`. -/
def twoRanks : Config where
  numProcs := 2
  blocksize := 508
  maxPasses := 2
  procs_le := by decide
  le_procs := Nat.one_lt_two
  blocksize_gt := by decide
  flags_ok := by decide

theorem twoRanks_reads : ∃ s, (multiMmap twoRanks).Reachable s ∧
    s.ranks ⟨1, by decide⟩ = { pc := .read } ∧ 1016 ≤ s.file.size := by
  let a : Fin twoRanks.numProcs := ⟨0, by decide⟩
  let b : Fin twoRanks.numProcs := ⟨1, by decide⟩
  have hsize := size_zeroFile_written twoRanks rfl ByteFile.empty
  have h := reachable_initial twoRanks ByteFile.empty
  have h := reachable_step h (.prepRoot (p := a) rfl rfl (by decide) (.inr (by decide)))
  have h := reachable_step h (.prepRest (p := b) rfl (by decide))
  have h := reachable_step h (.enterPrep (p := a) rfl)
  have h := reachable_step h (.enterPrep (p := b) rfl)
  have h := reachable_step h (.leavePrep (p := a) rfl (by decide))
  have h := reachable_step h (.leavePrep (p := b) rfl (by decide))
  have h := reachable_step h (.populate (p := a) rfl (by decide) nofun)
  have h := reachable_step h (.populate (p := b) rfl (by decide) nofun)
  have h := reachable_step h (@Step.doWriter _ _ a true rfl rfl rfl)
  have h := reachable_step h (@Step.doReader _ _ b true rfl (by decide) rfl)
  have h := reachable_step h
    (.writePiece (p := a) (m := 508) rfl (by decide) (by decide) fun _ =>
      ⟨by decide, Nat.le_trans (by decide) hsize⟩)
  have h := reachable_step h (.written (p := a) rfl)
  have h := reachable_step h (.enter (p := a) rfl)
  have h := reachable_step h (.enter (p := b) rfl)
  have h := reachable_step h (.leaveReader (p := b) rfl (by decide) (by decide))
  exact ⟨_, h, rfl, (show 1016 ≤ 2 * 508 by decide).trans
    (hsize.trans (ByteFile.size_le_pwrite _ _ _))⟩

/-- Rank 1 reads the first block rank 0 wrote. -/
theorem multiMmap_correct_twoRanks : ∃ s, (multiMmap twoRanks).Reachable s ∧
    (s.ranks ⟨1, by decide⟩).pc = .read ∧ (s.ranks ⟨1, by decide⟩).tmpblock.length = 508 ∧
    Correct twoRanks s := by
  let b : Fin twoRanks.numProcs := ⟨1, by decide⟩
  obtain ⟨s, h, hb, hsize⟩ : ∃ s, (multiMmap twoRanks).Reachable s ∧
    s.ranks b = { pc := .read } ∧ 1016 ≤ s.file.size := twoRanks_reads
  have hoff : twoRanks.offset 0 = 0 := by decide
  have hpos : twoRanks.offset (s.ranks b).block + (s.ranks b).tmpblock.length = 0 := by
    rw [hb]
    exact hoff
  have h := reachable_step h (.readPiece (p := b) (m := 508) (by rw [hb]) (by decide)
    (by rw [hb]; decide) (fun _ => by rw [hpos]; exact ⟨by decide, by omega⟩)
    (by rw [hpos]; omega))
  refine ⟨_, h, by simp [State.setRank, hb, b], ?_,
    multiMmap_correct twoRanks ⟨show 2 * 508 < 2 ^ 32 by decide, .inl (by decide)⟩ _ h⟩
  simp only [State.setRank, Function.update_self, hb, List.nil_append, ByteFile.length_pread,
    List.length_nil, hoff, b]
  omega

-- ---------------------------------------------------------------------------
-- A file that does not fit
-- ---------------------------------------------------------------------------

/-- Three ranks, `-b 1610612736 -w regular`: 4.5 GiB in all, of which 512 MiB
are mapped. -/
def threeRanks : Config where
  numProcs := 3
  blocksize := 1610612736
  maxPasses := 1
  writers := .regular
  procs_le := by decide
  le_procs := by decide
  blocksize_gt := by decide
  flags_ok := by decide

theorem threeRanks_reads : ∃ s, (multiMmap threeRanks).Reachable s ∧
    s.ranks ⟨1, by decide⟩ = { pc := .read } ∧ 536870912 ≤ s.file.size := by
  let a : Fin threeRanks.numProcs := ⟨0, by decide⟩
  let b : Fin threeRanks.numProcs := ⟨1, by decide⟩
  let c : Fin threeRanks.numProcs := ⟨2, by decide⟩
  have h := reachable_initial threeRanks ByteFile.empty
  have h := reachable_step h (.prepRoot (p := a) rfl rfl (by decide) (.inr (by decide)))
  have h := reachable_step h (.prepRest (p := b) rfl (by decide))
  have h := reachable_step h (.prepRest (p := c) rfl (by decide))
  have h := reachable_step h (.enterPrep (p := a) rfl)
  have h := reachable_step h (.enterPrep (p := b) rfl)
  have h := reachable_step h (.enterPrep (p := c) rfl)
  have h := reachable_step h (.leavePrep (p := a) rfl (by decide))
  have h := reachable_step h (.leavePrep (p := b) rfl (by decide))
  have h := reachable_step h (.leavePrep (p := c) rfl (by decide))
  have h := reachable_step h (.populate (p := a) rfl (by decide) nofun)
  have h := reachable_step h (.populate (p := b) rfl (by decide) nofun)
  have h := reachable_step h (.populate (p := c) rfl (by decide) nofun)
  have h := reachable_step h (@Step.doWriter _ _ a false rfl rfl rfl)
  have h := reachable_step h (@Step.doReader _ _ b true rfl (by decide) rfl)
  have h := reachable_step h (@Step.doReader _ _ c true rfl (by decide) rfl)
  have h := reachable_step h
    (.writePiece (p := a) (m := 1610612736) rfl (by decide) (by decide) nofun)
  have h := reachable_step h (.written (p := a) rfl)
  have h := reachable_step h (.enter (p := a) rfl)
  have h := reachable_step h (.enter (p := b) rfl)
  have h := reachable_step h (.enter (p := c) rfl)
  have h := reachable_step h (.leaveReader (p := b) rfl (by decide) (by decide))
  have hsize := size_zeroFile_written threeRanks rfl ByteFile.empty
  exact ⟨_, h, rfl, (show 536870912 ≤ 3 * 1610612736 by decide).trans
    (hsize.trans (ByteFile.size_le_pwrite _ _ _))⟩

/-- It reads to the end of the mapping and on. -/
theorem threeRanks_fault :
    ¬ ∀ s, (multiMmap threeRanks).Reachable s → Correct threeRanks s := by
  let b : Fin threeRanks.numProcs := ⟨1, by decide⟩
  obtain ⟨s, h, hb, hsize⟩ : ∃ s, (multiMmap threeRanks).Reachable s ∧
    s.ranks b = { pc := .read } ∧ 536870912 ≤ s.file.size := threeRanks_reads
  intro hall
  have hpc : (s.ranks b).pc = .read := by rw [hb]
  have hpiece := reachable_step h (.readPiece (p := b) (m := 536870912) hpc (by decide)
    (by rw [hb]; decide) (fun _ => by rw [hb]; exact ⟨by decide, hsize⟩) (by rw [hb]; exact hsize))
  have hoff : threeRanks.offset 0 = 0 := by decide
  have hlen : ([] ++ s.file.pread 536870912
      (threeRanks.offset 0 + ([] : List UInt8).length)).length = 536870912 := by
    rw [List.nil_append, ByteFile.length_pread, hoff, List.length_nil]
    omega
  have hfault := reachable_step hpiece (.readFault (p := b)
    (by simp [State.setRank, hpc])
    (by simp only [State.setRank, Function.update_self, hb]; rw [hlen]; decide)
    (by
      simp only [State.setRank, Function.update_self, hb, Accessible]
      rw [hlen, hoff]
      intro hacc
      exact absurd (hacc trivial).1 (by decide)))
  exact ((hall _ hfault).alive b).1 (by simp [State.goto, State.setRank])

end Ocfs2Test.MultiMmap
