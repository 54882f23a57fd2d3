import Mathlib

/-!
# custom_extend_allocation of test_truncate

A file is extended cluster by cluster, each run of clusters from its end. Within a run the
next cluster is the one before; between two runs it is not the one behind, since that was
not free when the first run ended, or is part of it.
-/

namespace Ocfs2Test.TestTruncate

-- ---------------------------------------------------------------------------
-- custom_extend_allocation
-- ---------------------------------------------------------------------------

/-- What `ocfs2_new_clusters` returns: the first cluster of a run, and how many it has. -/
structure Run where
  start : Nat
  nClusters : Nat

def Run.clusters (r : Run) : List Nat := List.range' r.start r.nClusters

/-- A call of `ocfs2_inode_insert_extent` for one cluster. -/
structure Insert where
  offset : Nat
  blkno : Nat
  deriving DecidableEq, Repr

/-- What the library does: the block of a cluster, the result of each call of
`ocfs2_new_clusters`, and of the insert at each offset. -/
structure Library where
  clustersToBlocks : Nat → Nat
  newClusters : Nat → Except Nat Run
  insertExtent : Nat → Except Nat Unit

/-- The extents that have been inserted, and `offset`. -/
structure State where
  inserts : List Insert := []
  offset : Nat := 0

section
variable (lib : Library)

/-- `for (i = n_clusters; i; --i)`, and the error that ends it. -/
def insertClusters (blkno : Nat) : Nat → State → State × Except Nat Unit
  | 0, s => (s, .ok ())
  | i + 1, s =>
    let tmpblk := blkno + lib.clustersToBlocks i
    match lib.insertExtent s.offset with
    | .error ret => (⟨s.inserts, s.offset + 1⟩, .error ret)
    | .ok () => insertClusters blkno i ⟨s.inserts ++ [⟨s.offset, tmpblk⟩], s.offset + 1⟩

/-- `while (new_clusters)`, from call `k` of `ocfs2_new_clusters` on. The fuel is for the
number of calls. -/
def extendLoop : Nat → Nat → Nat → State → Option (State × Except Nat Unit)
  | _, _, 0, s => some (s, .ok ())
  | 0, _, _ + 1, _ => none
  | fuel + 1, k, newClusters, s =>
    match lib.newClusters k with
    | .error ret => some (s, .error ret)
    | .ok run =>
      match insertClusters lib (lib.clustersToBlocks run.start) run.nClusters s with
      | (s, .error ret) => some (s, .error ret)
      | (s, .ok ()) => extendLoop fuel (k + 1) (newClusters - run.nClusters) s

/-- `custom_extend_allocation`; each call allocates a cluster, so there are at most
`newClusters` of them. -/
def customExtendAllocation (newClusters : Nat) : Option (State × Except Nat Unit) :=
  extendLoop lib newClusters 0 newClusters {}

end

-- ---------------------------------------------------------------------------
-- The library
-- ---------------------------------------------------------------------------

/-- All clusters have as many blocks. -/
structure Library.Uniform (lib : Library) : Prop where
  add : ∀ m n, lib.clustersToBlocks (m + n) = lib.clustersToBlocks m + lib.clustersToBlocks n
  pos : 0 < lib.clustersToBlocks 1

/-- A call of `ocfs2_new_clusters`: a run of free clusters, as long as requested or up to a
cluster that is not free. -/
structure Allocates (free : Set Nat) (requested : Nat) (r : Run) (free' : Set Nat) : Prop where
  pos : 0 < r.nClusters
  le : r.nClusters ≤ requested
  before : ∀ c ∈ r.clusters, c ∈ free
  after : ∀ c ∈ r.clusters, c ∉ free'
  others : ∀ c ∈ free', c ∈ free
  maximal : r.nClusters = requested ∨ r.start + r.nClusters ∉ free

/-- What is still requested at call `k`. -/
def requested (newClusters : Nat) (runs : Nat → Run) : Nat → Nat
  | 0 => newClusters
  | k + 1 => requested newClusters runs k - (runs k).nClusters

/-- All calls succeed, and allocate from what is free at the time. -/
structure Library.Serves (lib : Library) (newClusters : Nat) (runs : Nat → Run)
    (free : Nat → Set Nat) : Prop where
  grants : ∀ k, lib.newClusters k = .ok (runs k)
  inserts : ∀ offset, lib.insertExtent offset = .ok ()
  allocates : ∀ k, requested newClusters runs k ≠ 0 →
    Allocates (free k) (requested newClusters runs k) (runs k) (free (k + 1))

structure Maps (lib : Library) (newClusters : Nat) (runs : Nat → Run) (inserts : List Insert) :
    Prop where
  offsets : inserts.map Insert.offset = List.range newClusters
  blocks : ∀ b, b ∈ inserts.map Insert.blkno ↔
    ∃ k, requested newClusters runs k ≠ 0 ∧ ∃ c ∈ (runs k).clusters, b = lib.clustersToBlocks c
  nodup : (inserts.map Insert.blkno).Nodup
  apart : ∀ i e e', inserts[i]? = some e → inserts[i + 1]? = some e' →
    e'.blkno ≠ e.blkno + lib.clustersToBlocks 1

-- ---------------------------------------------------------------------------
-- The clusters in the order of the inserts
-- ---------------------------------------------------------------------------

/-- Each run from its end. -/
def order (runs : Nat → Run) : Nat → Nat → Nat → List Nat
  | _, _, 0 => []
  | 0, _, _ + 1 => []
  | fuel + 1, k, newClusters + 1 =>
    (runs k).clusters.reverse ++ order runs fuel (k + 1) (newClusters + 1 - (runs k).nClusters)

section
variable {lib : Library} {newClusters : Nat} {runs : Nat → Run} {free : Nat → Set Nat}
  {k : Nat}

theorem requested_eq_zero {j k : Nat} (hle : k ≤ j) (h : requested newClusters runs k = 0) :
    requested newClusters runs j = 0 := by
  induction j, hle using Nat.le_induction with
  | base => exact h
  | succ j _ ih => rw [requested, ih, Nat.zero_sub]

/-- A cluster and the one behind it do not come one after the other in a run. -/
theorem Run.isChain_reverse (r : Run) : r.clusters.reverse.IsChain fun c d => d ≠ c + 1 := by
  have hpair : r.clusters.reverse.Pairwise fun c d => d < c :=
    List.pairwise_reverse.mpr List.pairwise_lt_range'
  refine (hpair.imp ?_).isChain
  intro c d hlt
  omega

theorem Run.getLast?_reverse {r : Run} (hpos : 0 < r.nClusters) :
    r.clusters.reverse.getLast? = some r.start := by
  rw [List.getLast?_reverse, clusters]
  cases hn : r.nClusters with
  | zero => omega
  | succ n => rw [List.range'_succ, List.head?_cons]

theorem Run.mem_clusters {r : Run} {c : Nat} :
    c ∈ r.clusters ↔ r.start ≤ c ∧ c < r.start + r.nClusters :=
  List.mem_range'_1

/-- The cluster behind the one inserted last is never free again: it is in the run, or it
was not free when a run of one cluster ended before it. -/
theorem Allocates.succ_not_free {free free' : Set Nat} {n : Nat} {r : Run}
    (h : Allocates free n r free') (hmore : r.nClusters ≠ n) : r.start + 1 ∉ free' := by
  intro hfree
  by_cases hone : r.nClusters = 1
  · have hend := h.maximal.resolve_left hmore
    rw [hone] at hend
    exact hend (h.others _ hfree)
  · have hpos := h.pos
    exact h.after _ (Run.mem_clusters.mpr (by omega)) hfree

/-- What is known of the clusters that are inserted from call `k` on. -/
structure Ordered (newClusters : Nat) (runs : Nat → Run) (free : Nat → Set Nat) (k : Nat)
    (l : List Nat) : Prop where
  length : l.length = requested newClusters runs k
  free : ∀ c ∈ l, c ∈ free k
  mem : ∀ c, c ∈ l ↔ ∃ j, k ≤ j ∧ requested newClusters runs j ≠ 0 ∧ c ∈ (runs j).clusters
  nodup : l.Nodup
  chain : l.IsChain fun c d => d ≠ c + 1

theorem order_of_done (hzero : requested newClusters runs k = 0) (fuel : Nat) :
    order runs fuel k (requested newClusters runs k) = [] := by
  rw [hzero]
  cases fuel <;> rfl

theorem order_succ (fuel : Nat) (hmore : requested newClusters runs k ≠ 0) :
    order runs (fuel + 1) k (requested newClusters runs k) =
      (runs k).clusters.reverse ++
        order runs fuel (k + 1) (requested newClusters runs (k + 1)) := by
  rw [requested]
  obtain ⟨n, hn⟩ := Nat.exists_eq_succ_of_ne_zero hmore
  rw [hn]
  rfl

/-- The induction is on the fuel, with the runs from call `k` on. -/
theorem ordered_order (halloc : ∀ k, requested newClusters runs k ≠ 0 →
      Allocates (free k) (requested newClusters runs k) (runs k) (free (k + 1)))
    (fuel k : Nat) (hfuel : requested newClusters runs k ≤ fuel) :
    Ordered newClusters runs free k (order runs fuel k (requested newClusters runs k)) := by
  induction fuel generalizing k with
  | zero =>
    have hzero := Nat.le_zero.mp hfuel
    rw [order_of_done hzero]
    refine ⟨hzero.symm, nofun, fun c => ⟨nofun, ?_⟩, .nil, .nil⟩
    rintro ⟨j, hle, hne, -⟩
    exact absurd (requested_eq_zero hle hzero) hne
  | succ fuel ih =>
    by_cases hmore : requested newClusters runs k = 0
    · rw [order_of_done hmore]
      refine ⟨hmore.symm, nofun, fun c => ⟨nofun, ?_⟩, .nil, .nil⟩
      rintro ⟨j, hle, hne, -⟩
      exact absurd (requested_eq_zero hle hmore) hne
    · have hrun := halloc k hmore
      have hpos := hrun.pos
      have hle := hrun.le
      have hnext : requested newClusters runs (k + 1) =
          requested newClusters runs k - (runs k).nClusters := rfl
      have hrest := ih (k + 1) (by omega)
      rw [order_succ fuel hmore]
      generalize order runs fuel (k + 1) (requested newClusters runs (k + 1)) = l at hrest
      refine ⟨?_, ?_, ?_, ?_, ?_⟩
      · rw [List.length_append, List.length_reverse, Run.clusters, List.length_range',
          hrest.length]
        omega
      · intro c hc
        obtain hc | hc := List.mem_append.mp hc
        · exact hrun.before c (List.mem_reverse.mp hc)
        · exact hrun.others c (hrest.free c hc)
      · intro c
        rw [List.mem_append, List.mem_reverse, hrest.mem]
        constructor
        · rintro (hc | ⟨j, hj, hne, hc⟩)
          · exact ⟨k, le_rfl, hmore, hc⟩
          · exact ⟨j, Nat.le_of_succ_le hj, hne, hc⟩
        · rintro ⟨j, hj, hne, hc⟩
          obtain rfl | hlt := Nat.eq_or_lt_of_le hj
          · exact .inl hc
          · exact .inr ⟨j, hlt, hne, hc⟩
      · rw [List.nodup_append]
        refine ⟨List.nodup_reverse.mpr List.nodup_range', hrest.nodup, ?_⟩
        rintro c hc d hd rfl
        exact hrun.after c (List.mem_reverse.mp hc) (hrest.free c hd)
      · rw [List.isChain_append]
        refine ⟨(runs k).isChain_reverse, hrest.chain, ?_⟩
        intro c hc d hd
        rw [Run.getLast?_reverse hpos, Option.mem_def, Option.some.injEq] at hc
        subst hc
        rintro rfl
        have hd := List.mem_of_mem_head? hd
        refine hrun.succ_not_free ?_ (hrest.free _ hd)
        have hlen := List.length_pos_of_mem hd
        rw [hrest.length] at hlen
        omega

-- ---------------------------------------------------------------------------
-- The inserts
-- ---------------------------------------------------------------------------

theorem Library.Uniform.blocks_eq (h : lib.Uniform) (n : Nat) :
    lib.clustersToBlocks n = n * lib.clustersToBlocks 1 := by
  induction n with
  | zero =>
    have hadd := h.add 0 0
    rw [Nat.add_zero] at hadd
    omega
  | succ n ih => rw [h.add, ih, Nat.succ_mul]

theorem Library.Uniform.injective (h : lib.Uniform) : Function.Injective lib.clustersToBlocks := by
  intro m n hmn
  rw [h.blocks_eq m, h.blocks_eq n] at hmn
  exact Nat.eq_of_mul_eq_mul_right h.pos hmn

def extents (lib : Library) (offset : Nat) (l : List Nat) : List Insert :=
  (l.zipIdx offset).map fun p => ⟨p.2, lib.clustersToBlocks p.1⟩

theorem extents_append (offset : Nat) (l l' : List Nat) :
    extents lib offset (l ++ l') = extents lib offset l ++ extents lib (offset + l.length) l' := by
  rw [extents, List.zipIdx_append, List.map_append]
  rfl

theorem insertClusters_eq (huniform : lib.Uniform)
    (hinserts : ∀ offset, lib.insertExtent offset = .ok ()) (start i : Nat) (s : State) :
    insertClusters lib (lib.clustersToBlocks start) i s =
      (⟨s.inserts ++ extents lib s.offset (List.range' start i).reverse, s.offset + i⟩,
        .ok ()) := by
  induction i generalizing s with
  | zero => simp [insertClusters, extents]
  | succ i ih =>
    rw [insertClusters, hinserts, ← huniform.add]
    dsimp only
    rw [ih, List.range'_concat, List.reverse_append, Nat.one_mul, List.reverse_singleton,
      extents_append]
    simp [extents, Nat.add_comm, Nat.add_left_comm]

/-- With fuel for what is requested the loop ends, having inserted all runs in order. -/
theorem extendLoop_eq (huniform : lib.Uniform) (hserves : lib.Serves newClusters runs free)
    (fuel k : Nat) (s : State) (hfuel : requested newClusters runs k ≤ fuel) :
    extendLoop lib fuel k (requested newClusters runs k) s =
      some (⟨s.inserts ++ extents lib s.offset
          (order runs fuel k (requested newClusters runs k)),
        s.offset + (order runs fuel k (requested newClusters runs k)).length⟩, .ok ()) := by
  have hdone (fuel k : Nat) (s : State) (hzero : requested newClusters runs k = 0) :
      extendLoop lib fuel k (requested newClusters runs k) s =
        some (⟨s.inserts ++ extents lib s.offset
            (order runs fuel k (requested newClusters runs k)),
          s.offset + (order runs fuel k (requested newClusters runs k)).length⟩, .ok ()) := by
    rw [order_of_done hzero, hzero]
    cases fuel <;> simp [extendLoop, extents]
  induction fuel generalizing k s with
  | zero => exact hdone 0 k s (Nat.le_zero.mp hfuel)
  | succ fuel ih =>
    by_cases hmore : requested newClusters runs k = 0
    · exact hdone (fuel + 1) k s hmore
    · have hpos := (hserves.allocates k hmore).pos
      have hnext : requested newClusters runs (k + 1) =
          requested newClusters runs k - (runs k).nClusters := rfl
      have hloop : extendLoop lib (fuel + 1) k (requested newClusters runs k) s =
          extendLoop lib fuel (k + 1) (requested newClusters runs (k + 1))
            ⟨s.inserts ++ extents lib s.offset (runs k).clusters.reverse,
              s.offset + (runs k).nClusters⟩ := by
        rw [hnext]
        obtain ⟨n, hn⟩ := Nat.exists_eq_succ_of_ne_zero hmore
        rw [hn, extendLoop, hserves.grants]
        dsimp only
        rw [insertClusters_eq huniform hserves.inserts]
        · rfl
        · exact Nat.succ_ne_zero n
      have hlen : (runs k).clusters.reverse.length = (runs k).nClusters := by
        rw [List.length_reverse, Run.clusters, List.length_range']
      rw [hloop, ih (k + 1) _ (by omega), order_succ fuel hmore, extents_append,
        List.length_append, hlen, List.append_assoc, Nat.add_assoc]

theorem map_offset_extents (offset : Nat) (l : List Nat) :
    (extents lib offset l).map Insert.offset = List.range' offset l.length := by
  rw [extents, List.map_map, ← List.zipIdx_map_snd]
  rfl

theorem map_blkno_extents (offset : Nat) (l : List Nat) :
    (extents lib offset l).map Insert.blkno = l.map lib.clustersToBlocks := by
  rw [extents, List.map_map]
  calc (l.zipIdx offset).map (fun p => lib.clustersToBlocks p.1)
      = ((l.zipIdx offset).map Prod.fst).map lib.clustersToBlocks := by
        rw [List.map_map]
        rfl
    _ = l.map lib.clustersToBlocks := by rw [List.zipIdx_map_fst]

theorem Ordered.maps {l : List Nat} (h : Ordered newClusters runs free 0 l)
    (huniform : lib.Uniform) : Maps lib newClusters runs (extents lib 0 l) where
  offsets := by
    rw [map_offset_extents, h.length, List.range_eq_range']
    rfl
  blocks b := by
    rw [map_blkno_extents, List.mem_map]
    constructor
    · rintro ⟨c, hc, rfl⟩
      obtain ⟨j, -, hne, hmem⟩ := (h.mem c).mp hc
      exact ⟨j, hne, c, hmem, rfl⟩
    · rintro ⟨j, hne, c, hmem, rfl⟩
      exact ⟨c, (h.mem c).mpr ⟨j, Nat.zero_le j, hne, hmem⟩, rfl⟩
  nodup := by
    rw [map_blkno_extents]
    exact h.nodup.map huniform.injective
  apart i e e' he he' := by
    have hblock (j : Nat) (x : Insert) (hx : (extents lib 0 l)[j]? = some x) :
        ∃ hj : j < l.length, x.blkno = lib.clustersToBlocks (l.get ⟨j, hj⟩) := by
      have hmap : ((extents lib 0 l).map Insert.blkno)[j]? = some x.blkno := by
        rw [List.getElem?_map, hx]
        rfl
      rw [map_blkno_extents, List.getElem?_map, Option.map_eq_some_iff] at hmap
      obtain ⟨c, hc, heq⟩ := hmap
      obtain ⟨hj, hget⟩ := List.getElem?_eq_some_iff.mp hc
      exact ⟨hj, by rw [← heq, ← hget]; rfl⟩
    obtain ⟨hi, hb⟩ := hblock i e he
    obtain ⟨hi', hb'⟩ := hblock (i + 1) e' he'
    rw [hb, hb', ← huniform.add]
    intro heq
    exact h.chain.getElem i hi' (huniform.injective heq)

/-- All runs are inserted, each cluster once, and no two that follow each other on the disk
follow each other in the file. -/
theorem customExtendAllocation_maps (lib : Library) (newClusters : Nat) (runs : Nat → Run)
    (free : Nat → Set Nat) (huniform : lib.Uniform) (hserves : lib.Serves newClusters runs free) :
    ∃ s, customExtendAllocation lib newClusters = some (s, .ok ()) ∧
      Maps lib newClusters runs s.inserts := by
  have hloop := extendLoop_eq huniform hserves newClusters 0 {} le_rfl
  have hordered := ordered_order hserves.allocates newClusters 0 le_rfl
  refine ⟨_, hloop, ?_⟩
  exact hordered.maps huniform

end

def twoRuns : Nat → Run
  | 0 => ⟨4, 2⟩
  | _ => ⟨9, 1⟩

def twoRunsFree : Nat → Set Nat
  | 0 => {4, 5, 9}
  | 1 => {9}
  | _ => ∅

def twoRunsLibrary : Library where
  clustersToBlocks n := n * 8
  newClusters k := .ok (twoRuns k)
  insertExtent _ := .ok ()

theorem customExtendAllocation_two_runs :
    ∃ s, customExtendAllocation twoRunsLibrary 3 = some (s, .ok ()) ∧
      Maps twoRunsLibrary 3 twoRuns s.inserts := by
  refine customExtendAllocation_maps twoRunsLibrary 3 twoRuns twoRunsFree
    ⟨fun m n => Nat.add_mul m n 8, by decide⟩ ⟨fun _ => rfl, fun _ => rfl, ?_⟩
  intro k hk
  match k with
  | 0 => constructor <;> simp [twoRuns, twoRunsFree, Run.clusters, requested] <;> omega
  | 1 => constructor <;> simp [twoRuns, twoRunsFree, Run.clusters, requested]
  | k + 2 => exact absurd (requested_eq_zero (show 2 ≤ k + 2 by omega) rfl) hk

end Ocfs2Test.TestTruncate
