import Ocfs2Test.Chunks.Frager

/-!
# Every chunk once

A slot of `write_order_map` that holds zero is free, except for slot 0. When the
loop that fills the map ends, the map is an order of all the chunks.
-/

namespace Ocfs2Test.Chunks.Frager

open Lib Lib.Stdio

section
variable {n i : Nat} {map map' : Nat → Nat} {draws : List Rand}

theorem fillOrder_outside (hi : 0 < i) (h : fillOrder n draws i map = some map') (hk : n ≤ k) :
    map' k = map k := by
  induction draws generalizing i map with
  | nil =>
    rw [fillOrder] at h
    split at h <;> cases h
    rfl
  | cons r draws ih =>
    rw [fillOrder] at h
    split at h
    · cases h
      rfl
    · next hlt =>
      obtain ⟨-, hindex⟩ := index_bounds r (show 1 < n by omega)
      simp only at h
      split at h
      · have hne : k ≠ getRandUl 1 (n - 1) r := by
          rintro rfl
          exact absurd hindex (Nat.not_lt.mpr hk)
        rw [ih (Nat.succ_pos i) h, Function.update_of_ne hne]
      · exact ih hi h

theorem Order.perm (h : Order n map) : ((List.range n).map map).Perm (List.range n) := by
  have hsub : (List.range n).Subperm ((List.range n).map map) := by
    refine List.subperm_of_subset List.nodup_range fun v hv => ?_
    obtain ⟨j, hj, rfl⟩ := h.onto v (List.mem_range.mp hv)
    exact List.mem_map.mpr ⟨j, List.mem_range.mpr hj, rfl⟩
  exact (hsub.perm_of_length_le (by simp)).symm

end

section
variable {o : Options} {draws : List Rand} {map : Nat → Nat}

theorem writeOrderMap_zero (hn : 1 ≤ o.numChunks) (h : writeOrderMap o draws = some map) :
    map 0 = 0 := by
  rw [writeOrderMap] at h
  split at h
  · exact (fillOrder_filling (filling_start _) Nat.one_pos hn h).zero
  · cases h
    rfl

theorem chunkNo_unitOf (e : Endian) (env : Env) (hmap : Order o.numChunks map) (hi : i < o.numChunks) :
    (unitOf e o env map i).chunkNo.toNat = map i :=
  UInt64.toNat_ofNat_of_lt ((hmap.lt i hi).trans (UInt64.toNat_lt _))

theorem map_chunkNo_units (e : Endian) (env : Env) (hmap : Order o.numChunks map) :
    ((units e o env map).map fun wu => wu.chunkNo.toNat) = (List.range o.numChunks).map map := by
  rw [units, List.map_map]
  exact List.map_congr_left fun i hi => chunkNo_unitOf e env hmap (List.mem_range.mp hi)

end

/-- In random mode the map is a permutation that starts with chunk 0, and the
units written are those of all the chunks, each once. -/
theorem writeOrderMap_perm (e : Endian) (o : Options) (env : Env) (map : Nat → Nat)
    (hn : 1 ≤ o.numChunks) (hrandom : o.isRandom = true)
    (hmap : writeOrderMap o env.draws = some map) :
    map 0 = 0 ∧ (∀ k, o.numChunks ≤ k → map k = 0) ∧
      ((List.range o.numChunks).map map).Perm (List.range o.numChunks) ∧
      ((units e o env map).map fun wu => wu.chunkNo.toNat).Perm (List.range o.numChunks) := by
  have horder := writeOrderMap_order hmap
  have hzero := writeOrderMap_zero hn hmap
  rw [writeOrderMap, if_pos hrandom] at hmap
  refine ⟨hzero, fun k hk => fillOrder_outside Nat.one_pos hmap hk, horder.perm, ?_⟩
  rw [map_chunkNo_units e env horder]
  exact horder.perm

/-- Three chunks; the second draw hits a slot that is taken. -/
theorem writeOrderMap_perm_three :
    ∃ map, writeOrderMap ⟨100, 41, true⟩ [1, 3, 0] = some map ∧ map 0 = 0 ∧
      ((List.range 3).map map).Perm (List.range 3) := by
  obtain ⟨map, hmap⟩ : ∃ map, writeOrderMap ⟨100, 41, true⟩ [1, 3, 0] = some map := ⟨_, rfl⟩
  have h := writeOrderMap_perm .little ⟨100, 41, true⟩ ⟨[1, 3, 0], fun _ => 0, fun _ => 1⟩ map
    (by decide) rfl hmap
  exact ⟨map, hmap, h.1, h.2.2.1⟩

end Ocfs2Test.Chunks.Frager
