import Ocfs2Test.Lib.Stdio

/-!
# C strings

Strings in buffers: what `strlen`, `strcpy` and `strcmp` see of a buffer is what
comes before its first NUL. Numbers printed with leading zeros are read back and
have their width.
-/

namespace Lib.CString

open Stdio

def nul : Char := Char.ofNat 0

def text (buf : List Char) : List Char := buf.takeWhile (· ≠ nul)

def strlen (buf : List Char) : Nat := (text buf).length

/-- No NUL in it. -/
def Clean (s : List Char) : Prop := nul ∉ s

instance : DecidablePred Clean := fun s => inferInstanceAs (Decidable (nul ∉ s))

section
variable {s t buf : List Char}

theorem Clean.append (hs : Clean s) (ht : Clean t) : Clean (s ++ t) := by
  rw [Clean, List.mem_append, not_or]
  exact ⟨hs, ht⟩

theorem Clean.take (h : Clean s) (n : Nat) : Clean (s.take n) :=
  fun hmem => h (List.mem_of_mem_take hmem)

theorem Clean.all (h : Clean s) : ∀ c ∈ s, decide (c ≠ nul) = true := by
  intro c hc
  rw [decide_eq_true_eq]
  rintro rfl
  exact h hc

theorem text_clean (h : Clean s) : text s = s := List.takeWhile_eq_self_iff.mpr h.all

theorem text_append (h : Clean s) : text (s ++ nul :: buf) = s := by
  rw [text, List.takeWhile_append_of_pos h.all]
  simp

theorem text_padded (h : Clean s) (n : Nat) : text (s ++ List.replicate n nul) = s := by
  cases n with
  | zero => rw [List.replicate_zero, List.append_nil, text_clean h]
  | succ n => rw [List.replicate_succ, text_append h]

theorem dropWhile_append (h : Clean s) :
    (s ++ nul :: buf).dropWhile (· ≠ nul) = nul :: buf := by
  rw [List.dropWhile_append_of_pos h.all]
  simp

theorem clean_of_isDigit (h : ∀ c ∈ s, c.isDigit = true) : Clean s := by
  intro hmem
  exact absurd (h _ hmem) (by decide)

end

-- ---------------------------------------------------------------------------
-- Leading zeros
-- ---------------------------------------------------------------------------

/-- `%0wd` and its long forms. -/
def printPadded (w : Nat) : Int → List Char
  | .ofNat n => List.replicate (w - (printNat n).length) '0' ++ printNat n
  | .negSucc n =>
    '-' :: (List.replicate (w - 1 - (printNat (n + 1)).length) '0' ++ printNat (n + 1))

section
variable {w m n : Nat}

theorem printPadded_natCast (w n : Nat) :
    printPadded w (n : Int) = List.replicate (w - (printNat n).length) '0' ++ printNat n := rfl

theorem isDigit_of_mem_printPadded (h : c ∈ printPadded w (n : Int)) : c.isDigit = true := by
  rcases List.mem_append.mp h with h | h
  · rw [List.eq_of_mem_replicate h]
    decide
  · exact isDigit_of_mem_printNat h

/-- The width is the least length. -/
theorem le_length_printPadded (w : Nat) (z : Int) : w ≤ (printPadded w z).length := by
  cases z with
  | ofNat n =>
    simp only [printPadded, List.length_append, List.length_replicate]
    omega
  | negSucc n =>
    simp only [printPadded, List.length_cons, List.length_append, List.length_replicate]
    omega

theorem clean_printPadded (w : Nat) (z : Int) : Clean (printPadded w z) := by
  have hdigits (k n : Nat) : Clean (List.replicate k '0' ++ printNat n) := by
    refine .append ?_ (clean_of_isDigit fun _ => isDigit_of_mem_printNat)
    exact clean_of_isDigit fun c hc => List.eq_of_mem_replicate hc ▸ rfl
  cases z with
  | ofNat n => exact hdigits _ n
  | negSucc n =>
    intro hmem
    rcases List.mem_cons.mp hmem with h | h
    · exact absurd h (by decide)
    · exact hdigits _ (n + 1) h

theorem length_printNat_le (hw : 0 < w) : (printNat n).length ≤ w ↔ n < 10 ^ w :=
  Nat.length_toDigits_le_iff (by decide) hw

theorem length_printPadded (hw : 0 < w) (hn : n < 10 ^ w) :
    (printPadded w (n : Int)).length = w := by
  have := (length_printNat_le hw).mpr hn
  rw [printPadded_natCast, List.length_append, List.length_replicate]
  omega

theorem ofDigitChars_printPadded : Nat.ofDigitChars 10 (printPadded w (n : Int)) 0 = n := by
  rw [printPadded_natCast, Nat.ofDigitChars_append, Nat.ofDigitChars_replicate_zero,
    Nat.mul_zero]
  exact Nat.ofDigitChars_ten_toDigits

theorem printPadded_injective (h : printPadded w (m : Int) = printPadded w (n : Int)) : m = n := by
  rw [← ofDigitChars_printPadded (w := w) (n := m), h, ofDigitChars_printPadded]

theorem atoi_digits {ds : List Char} (hne : ds ≠ []) (h : ∀ c ∈ ds, c.isDigit = true)
    (hlt : Nat.ofDigitChars 10 ds 0 < 2 ^ 31) : atoi ds = Nat.ofDigitChars 10 ds 0 := by
  obtain ⟨d, ds', rfl⟩ := List.exists_cons_of_ne_nil hne
  have hd := h d List.mem_cons_self
  have hskip : skipSpace (d :: ds') = d :: ds' := skipSpace_of_head (isSpace_of_isDigit hd)
  have hsign : splitSign (d :: ds') = (false, d :: ds') := by
    unfold splitSign
    split
    · next heq =>
      rw [(List.cons.inj heq).1] at hd
      exact absurd hd (by decide)
    · next heq =>
      rw [(List.cons.inj heq).1] at hd
      exact absurd hd (by decide)
    · rfl
  have htake : (d :: ds').takeWhile Char.isDigit = d :: ds' := List.takeWhile_eq_self_iff.mpr h
  have hread : readNumber (d :: ds') =
      some (false, Nat.ofDigitChars 10 (d :: ds') 0, (d :: ds').dropWhile Char.isDigit) := by
    simp only [readNumber, hsign, htake]
    rfl
  have hstrtol : strtol (d :: ds') = Nat.ofDigitChars 10 (d :: ds') 0 := by
    simp only [strtol, hskip, hread]
    omega
  rw [atoi, hstrtol]
  exact Int.bmod_eq_of_le (by omega) (by omega)

/-- Digits with an optional sign, and their value. -/
inductive Decimal : List Char → Int → Prop
  | plain (hne : ds ≠ []) (h : ∀ c ∈ ds, c.isDigit = true) : Decimal ds (Nat.ofDigitChars 10 ds 0)
  | plus (hne : ds ≠ []) (h : ∀ c ∈ ds, c.isDigit = true) :
    Decimal ('+' :: ds) (Nat.ofDigitChars 10 ds 0)
  | minus (hne : ds ≠ []) (h : ∀ c ∈ ds, c.isDigit = true) :
    Decimal ('-' :: ds) (-Nat.ofDigitChars 10 ds 0)

theorem Decimal.ne_nil {cs : List Char} {z : Int} (h : Decimal cs z) : cs ≠ [] := by
  cases h with
  | plain hne _ => exact hne
  | plus | minus => exact List.cons_ne_nil _ _

theorem readNumber_sign {ds : List Char} (hne : ds ≠ []) (h : ∀ c ∈ ds, c.isDigit = true)
    {c : Char} {neg : Bool} (hsign : splitSign (c :: ds) = (neg, ds)) :
    readNumber (c :: ds) = some (neg, Nat.ofDigitChars 10 ds 0, []) := by
  have htake : ds.takeWhile Char.isDigit = ds := List.takeWhile_eq_self_iff.mpr h
  have hdrop : ds.dropWhile Char.isDigit = [] := List.dropWhile_eq_nil_iff.mpr h
  simp only [readNumber, hsign, htake, hdrop, List.isEmpty_iff, if_neg hne]

theorem Decimal.atoi {cs : List Char} {z : Int} (h : Decimal cs z) (hz : z.natAbs < 2 ^ 31) :
    atoi cs = z := by
  cases h with
  | plain hne hall => exact atoi_digits hne hall hz
  | @plus ds hne hall =>
    have hskip : skipSpace ('+' :: ds) = '+' :: ds := skipSpace_of_head (by decide)
    have hread := readNumber_sign hne hall (show splitSign ('+' :: ds) = (false, ds) from rfl)
    have hstrtol : strtol ('+' :: ds) = Nat.ofDigitChars 10 ds 0 := by
      simp only [strtol, hskip, hread]
      omega
    rw [Stdio.atoi, hstrtol]
    exact Int.bmod_eq_of_le (by omega) (by omega)
  | @minus ds hne hall =>
    have hskip : skipSpace ('-' :: ds) = '-' :: ds := skipSpace_of_head (by decide)
    have hread := readNumber_sign hne hall (show splitSign ('-' :: ds) = (true, ds) from rfl)
    have hstrtol : strtol ('-' :: ds) = -Nat.ofDigitChars 10 ds 0 := by
      simp only [strtol, hskip, hread]
      omega
    rw [Stdio.atoi, hstrtol]
    exact Int.bmod_eq_of_le (by omega) (by omega)

theorem ofDigitChars_lt {ds : List Char} (h : ∀ c ∈ ds, c.isDigit = true) :
    Nat.ofDigitChars 10 ds 0 < 10 ^ ds.length := by
  induction ds with
  | nil => simp
  | cons d ds ih =>
    have hd : d.toNat ≤ 57 := by
      have := h d List.mem_cons_self
      simp only [Char.isDigit, Bool.and_eq_true, decide_eq_true_eq] at this
      exact this.2
    have hrest := ih fun c hc => h c (List.mem_cons_of_mem _ hc)
    have hhead : (d.toNat - '0'.toNat) * 10 ^ ds.length ≤ 9 * 10 ^ ds.length := by
      refine Nat.mul_le_mul_right _ ?_
      simp only [show '0'.toNat = 48 from rfl]
      omega
    rw [Nat.ofDigitChars_cons, Nat.ofDigitChars_eq_ofDigitChars_zero, Nat.mul_zero, Nat.zero_add,
      List.length_cons, Nat.pow_succ, Nat.mul_comm (10 ^ ds.length)]
    omega

theorem length_splitSign (cs : List Char) : (splitSign cs).2.length ≤ cs.length := by
  unfold splitSign
  split
  · exact Nat.le_succ _
  · exact Nat.le_succ _
  · exact Nat.le_refl _

theorem readNumber_lt {cs rest : List Char} {neg : Bool}
    (h : readNumber cs = some (neg, n, rest)) : n < 10 ^ cs.length := by
  simp only [readNumber, Option.ite_none_left_eq_some, Option.some.injEq, Prod.mk.injEq] at h
  obtain ⟨-, -, rfl, -⟩ := h
  refine (ofDigitChars_lt fun c hc => List.mem_takeWhile_imp hc).trans_le ?_
  refine Nat.pow_le_pow_right (by decide) ((List.takeWhile_prefix _).length_le.trans ?_)
  exact length_splitSign cs

theorem atoi_lt {s : List Char} (h : s.length ≤ 9) : atoi s < 10 ^ s.length := by
  have hskip : (skipSpace s).length ≤ s.length := (List.dropWhile_suffix _).length_le
  have hmax : 10 ^ s.length ≤ 10 ^ 9 := Nat.pow_le_pow_right (by decide) h
  have hpos : 0 < 10 ^ s.length := Nat.pow_pos (by decide)
  have hstrtol : -(10 ^ s.length : Nat) < strtol s ∧ strtol s < (10 ^ s.length : Nat) := by
    unfold strtol
    split
    · exact ⟨by omega, by omega⟩
    · next n rest hread =>
      have hlt := (readNumber_lt hread).trans_le (Nat.pow_le_pow_right (by decide) hskip)
      exact ⟨by omega, by omega⟩
    · next n rest hread =>
      have hlt := (readNumber_lt hread).trans_le (Nat.pow_le_pow_right (by decide) hskip)
      exact ⟨by omega, by omega⟩
  rw [atoi, Int.bmod_eq_of_le (by omega) (by omega)]
  exact_mod_cast hstrtol.2

end

end Lib.CString
