import Mathlib

/-!
# Slot arrays

An array of pointers of fixed size, used as a list: the pointers in use come
first and every slot after them is NULL. An access outside the array gives
`none`.
-/

namespace Lib.Slots

def load (a : List (Option α)) (i : Int) : Option (Option α) :=
  if 0 ≤ i then a[i.toNat]? else none

def store (a : List (Option α)) (i : Int) (v : Option α) : Option (List (Option α)) :=
  if 0 ≤ i ∧ i < a.length then some (a.set i.toNat v) else none

/-- Moves `n` slots from `src` to `dst`. -/
def memmove (a : List (Option α)) (dst src n : Int) : Option (List (Option α)) :=
  if 0 ≤ dst ∧ 0 ≤ src ∧ 0 ≤ n ∧ dst + n ≤ a.length ∧ src + n ≤ a.length then
    some (a.take dst.toNat ++ (a.drop src.toNat).take n.toNat ++ a.drop (dst + n).toNat)
  else none

/-- `a` has `n` slots and holds exactly `xs`. -/
structure Holds (n : Nat) (xs : List α) (a : List (Option α)) : Prop where
  le : xs.length ≤ n
  eq : a = xs.map some ++ List.replicate (n - xs.length) none

variable {a : List (Option α)} {xs : List α}

theorem store_of_lt {i : Int} (hlo : 0 ≤ i) (hhi : i < a.length) :
    store a i v = some (a.set i.toNat v) := if_pos ⟨hlo, hhi⟩

theorem Holds.empty (n : Nat) : Holds n ([] : List α) (List.replicate n none) :=
  ⟨by simp, by simp⟩

theorem Holds.full (xs : List α) : Holds xs.length xs (xs.map some) := ⟨by simp, by simp⟩

theorem Holds.length (h : Holds n xs a) : a.length = n := by
  have := h.le
  simp [h.eq]
  omega

theorem Holds.load (h : Holds n xs a) (hi : i < xs.length) :
    Slots.load a (i : Int) = some (some xs[i]) := by
  rw [Slots.load, if_pos (by omega), Int.toNat_natCast, h.eq, List.getElem?_append_left (by simpa)]
  simp [hi]

theorem Holds.push (h : Holds n xs a) (hlt : xs.length < n) (x : α) :
    ∃ a', Slots.store a (xs.length : Int) (some x) = some a' ∧ Holds n (xs ++ [x]) a' := by
  have hlen := h.length
  refine ⟨_, store_of_lt (by omega) (by omega), by simp; omega, ?_⟩
  have hrep : List.replicate (n - xs.length) (none : Option α) =
      none :: List.replicate (n - (xs.length + 1)) none := by
    rw [← List.replicate_succ]
    congr
    omega
  simp [h.eq, hrep]

/-- The slots after `i` move down by one and the last one in use is cleared. -/
def closeGap (a : List (Option α)) (i count : Int) : Option (List (Option α)) := do
  let a ← if i < count - 1 then memmove a i (i + 1) (count - i - 1) else some a
  store a (count - 1) none

theorem memmove_down (h : Holds n xs a) (hi : i + 1 < xs.length) :
    memmove a i (i + 1) (xs.length - i - 1) =
      some ((xs.eraseIdx i).map some ++
        (xs.map some).drop (xs.length - 1) ++ List.replicate (n - xs.length) none) := by
  have hlen := h.length
  have hle := h.le
  have hn : ((xs.length : Int) - i - 1).toNat = xs.length - (i + 1) := by omega
  have hdst : ((i : Int) + (xs.length - i - 1)).toNat = xs.length - 1 := by omega
  have hsrc : ((i : Int) + 1).toNat = i + 1 := by omega
  rw [memmove, if_pos ⟨by omega, by omega, by omega, by omega, by omega⟩, hn, hdst, hsrc,
    Int.toNat_natCast, h.eq, List.eraseIdx_eq_take_drop_succ]
  rw [List.take_append_of_le_length (by simp; omega), List.drop_append_of_le_length (by simp; omega),
    List.drop_append_of_le_length (by simp), List.take_append_of_le_length (by simp)]
  simp [List.take_of_length_le]

theorem Holds.closeGap (h : Holds n xs a) (hi : i < xs.length) :
    ∃ a', Slots.closeGap a i xs.length = some a' ∧ Holds n (xs.eraseIdx i) a' := by
  have hlen := h.length
  have hle := h.le
  have hel : (xs.eraseIdx i).length = xs.length - 1 := List.length_eraseIdx_of_lt hi
  have hlast : (xs.map some).drop (xs.length - 1) = [some (xs[xs.length - 1])] := by
    rw [List.drop_eq_getElem_cons (by simp; omega)]
    simp
    omega
  have hto : ((xs.length : Int) - 1).toNat = xs.length - 1 := by omega
  have hrep : List.replicate (n - (xs.length - 1)) (none : Option α) =
      none :: List.replicate (n - xs.length) none := by
    rw [← List.replicate_succ]
    congr
    omega
  -- either way slot `xs.length - 1` is the one after the remaining pointers
  have hset : ((xs.eraseIdx i).map some ++ (xs.map some).drop (xs.length - 1) ++
      List.replicate (n - xs.length) none).set (xs.length - 1) none =
      (xs.eraseIdx i).map some ++ List.replicate (n - (xs.eraseIdx i).length) none := by
    rw [hlast, hel, hrep]
    simp [hel]
  by_cases hend : i + 1 < xs.length
  · refine ⟨_, ?_, by omega, rfl⟩
    rw [Slots.closeGap, if_pos (by omega), memmove_down h hend]
    simp only [Option.bind_eq_bind, Option.bind_some]
    rw [store_of_lt (by omega) (by simp [hel]; omega), hto, hset]
  · have hi' : i = xs.length - 1 := by omega
    have ha : a = (xs.eraseIdx i).map some ++ (xs.map some).drop (xs.length - 1) ++
        List.replicate (n - xs.length) none := by
      rw [h.eq, hi', List.eraseIdx_eq_take_drop_succ, List.drop_of_length_le (by omega)]
      simp
    refine ⟨_, ?_, by omega, rfl⟩
    rw [Slots.closeGap, if_neg (by omega)]
    simp only [Option.bind_eq_bind, Option.bind_some]
    rw [store_of_lt (by omega) (by omega), hto, ← hset, ← ha]

end Lib.Slots
