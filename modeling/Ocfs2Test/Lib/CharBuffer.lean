import Ocfs2Test.Lib.Bytes
import Ocfs2Test.Lib.CString

/-!
# Characters in buffers

Characters are written one by one, and a write at an index outside the buffer
has no result. A run of writes has one exactly when its last index is inside;
the buffer is then patched. Strings in memory are compared from any place on,
with a record of the places that are read.
-/

namespace Lib.CharBuffer

open CString

/-- `buf[i] = c`. -/
def store (buf : List Char) (i : Nat) (c : Char) : Option (List Char) :=
  if i < buf.length then some (buf.set i c) else none

/-- `buf[i++] = c` for one character after the other. -/
def storeFrom : List Char → Nat → List Char → Option (List Char)
  | buf, _, [] => some buf
  | buf, i, c :: cs => (store buf i c).bind fun buf => storeFrom buf (i + 1) cs

/-- `memset(buf, 0, n)`. -/
def clear (buf : List Char) (n : Nat) : Option (List Char) :=
  storeFrom buf 0 (List.replicate n nul)

def strcpy (buf s : List Char) : Option (List Char) := storeFrom buf 0 (text s ++ [nul])

variable {buf buf' cs s : List Char} {i n : Nat}

theorem patch_set (h : i < buf.length) (c : Char) (cs : List Char) :
    patch (buf.set i c) (i + 1) cs = patch buf i (c :: cs) := by
  have htake : (buf.set i c).take (i + 1) = buf.take i ++ [c] := by
    rw [List.take_add_one, List.take_set_of_le (Nat.le_refl i), List.getElem?_set_self h]
    rfl
  have hlen : i + 1 + cs.length = i + (c :: cs).length := by
    rw [List.length_cons]
    omega
  rw [patch, patch, htake, hlen, List.drop_set_of_lt (by rw [List.length_cons]; omega)]
  simp

theorem storeFrom_eq_some_iff :
    storeFrom buf i cs = some buf' ↔
      (cs = [] ∨ i + cs.length ≤ buf.length) ∧ buf' = patch buf i cs := by
  induction cs generalizing buf i with
  | nil =>
    rw [storeFrom, Option.some.injEq]
    constructor
    · rintro rfl
      exact ⟨.inl rfl, by simp [patch]⟩
    · rintro ⟨-, rfl⟩
      simp [patch]
  | cons c cs ih =>
    rw [storeFrom, store]
    by_cases hi : i < buf.length
    · rw [if_pos hi, Option.bind_some, ih, patch_set hi, List.length_set, List.length_cons]
      apply and_congr_left
      intro _
      constructor
      · rintro (rfl | hle)
        · exact .inr hi
        · exact .inr (by omega)
      · rintro (hnil | hle)
        · cases hnil
        · exact .inr (by omega)
    · rw [if_neg hi, Option.bind_none]
      constructor
      · intro h
        cases h
      · rintro ⟨hnil | hle, -⟩
        · cases hnil
        · rw [List.length_cons] at hle
          omega

theorem clear_all (h : buf.length = n) : clear buf n = some (List.replicate n nul) := by
  refine storeFrom_eq_some_iff.mpr ⟨.inr ?_, (patch_all ?_).symm⟩
  · rw [Nat.zero_add, List.length_replicate, h]
  · rw [List.length_replicate, h]

/-- Into a cleared buffer. -/
theorem storeFrom_cleared_iff : storeFrom (List.replicate n nul) 0 cs = some buf' ↔
    cs.length ≤ n ∧ buf' = cs ++ List.replicate (n - cs.length) nul := by
  have hpatch : patch (List.replicate n nul) 0 cs = cs ++ List.replicate (n - cs.length) nul := by
    simp [patch]
  rw [storeFrom_eq_some_iff, hpatch, Nat.zero_add, List.length_replicate]
  apply and_congr_left
  intro _
  constructor
  · rintro (rfl | hle)
    · exact Nat.zero_le n
    · exact hle
  · exact .inr

theorem store_nul_iff (h : cs.length ≤ n) :
    store (cs ++ List.replicate (n - cs.length) nul) cs.length nul = some buf' ↔
      cs.length < n ∧ buf' = cs ++ List.replicate (n - cs.length) nul := by
  have hset (m : Nat) : (cs ++ List.replicate m nul).set cs.length nul =
      cs ++ List.replicate m nul := by
    rw [List.set_append_right _ _ (Nat.le_refl _), Nat.sub_self, List.set_replicate_self]
  rw [store, hset, List.length_append, List.length_replicate, Nat.add_sub_cancel' h]
  by_cases hlt : cs.length < n
  · simp [hlt, eq_comm]
  · simp [hlt]

/-- The string and its NUL have to fit. -/
theorem strcpy_eq_some_iff : strcpy buf s = some buf' ↔
    (text s).length < buf.length ∧ buf' = patch buf 0 (text s ++ [nul]) := by
  rw [strcpy, storeFrom_eq_some_iff, Nat.zero_add, List.length_append]
  apply and_congr_left
  intro _
  constructor
  · rintro (hnil | hle)
    · simp at hnil
    · exact hle
  · exact .inr

theorem text_strcpy (h : strcpy buf s = some buf') : text buf' = text s := by
  have hclean : Clean (text s) := by
    intro hmem
    simpa using List.mem_takeWhile_imp hmem
  obtain ⟨-, rfl⟩ := strcpy_eq_some_iff.mp h
  rw [patch, List.take_zero, List.nil_append, List.append_assoc]
  exact text_append hclean

-- ---------------------------------------------------------------------------
-- Comparing
-- ---------------------------------------------------------------------------

section
variable (mem : Int → Char)

/-- Whether `strcmp(s, p)` returns zero, and the places it reads from `p` on. -/
def strcmpAt : List Char → Int → Bool × List Int
  | [], p => (mem p == nul, [p])
  | c :: cs, p =>
    if mem p = c then
      let r := strcmpAt cs (p + 1)
      (r.1, p :: r.2)
    else (false, [p])

theorem mem_strcmpAt (s : List Char) (p : Int) : p ∈ (strcmpAt mem s p).2 := by
  cases s with
  | nil => exact List.mem_cons_self
  | cons c cs =>
    rw [strcmpAt]
    split <;> exact List.mem_cons_self

theorem strcmpAt_bounds {s : List Char} {p q : Int} (h : q ∈ (strcmpAt mem s p).2) :
    p ≤ q ∧ q ≤ p + s.length := by
  induction s generalizing p with
  | nil =>
    rw [strcmpAt, List.mem_singleton] at h
    subst h
    simp
  | cons c cs ih =>
    rw [List.length_cons]
    rw [strcmpAt] at h
    split at h
    · rcases List.mem_cons.mp h with rfl | h
      · omega
      · have := ih h
        omega
    · rw [List.mem_singleton] at h
      omega

theorem getElem_of_strcmpAt {s : List Char} {p : Int} (h : (strcmpAt mem s p).1 = true) (i : Nat)
    (hi : i < s.length) : mem (p + i) = s[i] := by
  induction s generalizing p i with
  | nil => cases hi
  | cons c cs ih =>
    rw [strcmpAt] at h
    split at h
    · next heq =>
      cases i with
      | zero =>
        rw [← heq]
        simp
      | succ i =>
        have hnext := ih h i (Nat.lt_of_succ_lt_succ hi)
        rw [List.getElem_cons_succ, ← hnext]
        congr 1
        omega
    · cases h

theorem strcmpAt_iff {s t : List Char} {p : Int} (hs : Clean s) (ht : Clean t)
    (hmem : ∀ i : Nat, mem (p + i) = t.getD i nul) : (strcmpAt mem s p).1 = true ↔ s = t := by
  induction s generalizing p t with
  | nil =>
    have hp : mem p = t.getD 0 nul := by simpa using hmem 0
    rw [strcmpAt, hp]
    cases t with
    | nil => simp
    | cons d ds =>
      have hne : d ≠ nul := fun h => ht (h ▸ List.mem_cons_self)
      simp [hne]
  | cons c cs ih =>
    have hp : mem p = t.getD 0 nul := by simpa using hmem 0
    have hc : c ≠ nul := fun h => hs (h ▸ List.mem_cons_self)
    have hcs : Clean cs := fun h => hs (List.mem_cons_of_mem _ h)
    rw [strcmpAt, hp]
    cases t with
    | nil => simp [hc.symm]
    | cons d ds =>
      have hnext : ∀ i : Nat, mem (p + 1 + i) = ds.getD i nul := by
        intro i
        rw [← List.getD_cons_succ (x := d), ← hmem (i + 1)]
        congr 1
        omega
      have := ih hcs (fun h => ht (List.mem_cons_of_mem _ h)) hnext
      by_cases hd : d = c
      · simp [hd, this]
      · simp [hd, Ne.symm hd]

end

end Lib.CharBuffer
