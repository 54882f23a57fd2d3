import Mathlib

/-!
# Text input and output

The part of C's stdio and stdlib that reads and writes decimal numbers, on
texts as lists of characters: the `strtol` family, the directives of `fscanf`
on a stream with its end-of-file indicator, and `%d`. What is printed is read
back, whatever follows it.
-/

namespace Lib.Stdio

-- ---------------------------------------------------------------------------
-- Characters
-- ---------------------------------------------------------------------------

/-- `isspace` in the C locale. -/
def isSpace (c : Char) : Bool := c.toNat == 32 || (9 ≤ c.toNat && c.toNat ≤ 13)

theorem isSpace_of_isDigit (h : c.isDigit = true) : isSpace c = false := by
  simp only [Char.isDigit, Bool.and_eq_true, decide_eq_true_eq, ge_iff_le] at h
  have h48 : 48 ≤ c.toNat := h.1
  simp [isSpace]
  omega

def skipSpace (cs : List Char) : List Char := cs.dropWhile isSpace

theorem skipSpace_of_head (h : isSpace c = false) : skipSpace (c :: cs) = c :: cs := by
  simp [skipSpace, h]

-- ---------------------------------------------------------------------------
-- Numbers
-- ---------------------------------------------------------------------------

/-- Whether there is a minus, and what follows an optional sign. -/
def splitSign : List Char → Bool × List Char
  | '-' :: cs => (true, cs)
  | '+' :: cs => (false, cs)
  | cs => (false, cs)

/-- An optional sign and one digit or more: whether the sign is a minus, the
value, and what follows. -/
def readNumber (cs : List Char) : Option (Bool × Nat × List Char) :=
  let (neg, cs) := splitSign cs
  let digits := cs.takeWhile Char.isDigit
  if digits.isEmpty then none
  else some (neg, Nat.ofDigitChars 10 digits 0, cs.dropWhile Char.isDigit)

/-- `strtol`, and `strtoll`: both are 64 bits wide. -/
def strtol (cs : List Char) : Int :=
  match readNumber (skipSpace cs) with
  | none => 0
  | some (true, n, _) => max (-2 ^ 63) (-n)
  | some (false, n, _) => min (2 ^ 63 - 1) n

/-- What `strtoul` makes of a sign and a value. -/
def toUnsignedLong (neg : Bool) (n : Nat) : Nat :=
  if 2 ^ 64 ≤ n then 2 ^ 64 - 1 else if neg then (2 ^ 64 - n) % 2 ^ 64 else n

/-- `atol`, and `atoll`. -/
def atol (cs : List Char) : Int := strtol cs

def atoi (cs : List Char) : Int := (strtol cs).bmod (2 ^ 32)

/-- `%u`, `%lu`, `%llu`. -/
def printNat (n : Nat) : List Char := Nat.toDigits 10 n

/-- `%d` and its long forms. -/
def printInt : Int → List Char
  | .ofNat n => printNat n
  | .negSucc n => '-' :: printNat (n + 1)

theorem isDigit_of_mem_printNat (h : c ∈ printNat n) : c.isDigit = true :=
  Nat.isDigit_of_mem_toDigits (by decide) (by decide) h

theorem printNat_cons (n : Nat) : ∃ d ds, printNat n = d :: ds ∧ d.isDigit = true := by
  obtain ⟨d, ds, h⟩ := List.exists_cons_of_ne_nil (Nat.toDigits_ne_nil : printNat n ≠ [])
  exact ⟨d, ds, h, isDigit_of_mem_printNat (h ▸ List.mem_cons_self)⟩

/-- The digits of `n` end where something else begins. -/
def NoDigit (cs : List Char) : Prop := ∀ c, cs.head? = some c → c.isDigit = false

theorem noDigit_nil : NoDigit [] := by simp [NoDigit]

theorem noDigit_cons (h : c.isDigit = false) : NoDigit (c :: cs) := by
  rintro d hd
  simp only [List.head?_cons, Option.some.injEq] at hd
  exact hd ▸ h

theorem takeWhile_isDigit_printNat (h : NoDigit cs) :
    (printNat n ++ cs).takeWhile Char.isDigit = printNat n := by
  rw [List.takeWhile_append_of_pos fun _ => isDigit_of_mem_printNat]
  cases cs with
  | nil => simp
  | cons c cs => simp [h c rfl]

theorem dropWhile_isDigit_printNat (h : NoDigit cs) :
    (printNat n ++ cs).dropWhile Char.isDigit = cs := by
  rw [List.dropWhile_append_of_pos fun _ => isDigit_of_mem_printNat]
  cases cs with
  | nil => simp
  | cons c cs => simp [h c rfl]

theorem readNumber_printNat (h : NoDigit cs) :
    readNumber (printNat n ++ cs) = some (false, n, cs) := by
  have htake := takeWhile_isDigit_printNat (n := n) h
  have hdrop := dropWhile_isDigit_printNat (n := n) h
  obtain ⟨d, ds, hds, hd⟩ := printNat_cons n
  have hval : Nat.ofDigitChars 10 (d :: ds) 0 = n := by
    rw [← hds]
    exact Nat.ofDigitChars_ten_toDigits
  have hsign : d ≠ '-' ∧ d ≠ '+' := by
    constructor <;> rintro rfl <;> simp [Char.isDigit] at hd
  rw [hds] at htake hdrop ⊢
  rw [List.cons_append] at htake hdrop ⊢
  have hsplit : splitSign (d :: (ds ++ cs)) = (false, d :: (ds ++ cs)) := by
    unfold splitSign
    split
    · next heq => simp [hsign.1] at heq
    · next heq => simp [hsign.2] at heq
    · rfl
  simp [readNumber, hsplit, htake, hdrop, hval]

theorem readNumber_minus (h : NoDigit cs) :
    readNumber ('-' :: (printNat n ++ cs)) = some (true, n, cs) := by
  have htake := takeWhile_isDigit_printNat (n := n) h
  have hdrop := dropWhile_isDigit_printNat (n := n) h
  have hne : printNat n ≠ [] := Nat.toDigits_ne_nil
  have hval : Nat.ofDigitChars 10 (printNat n) 0 = n := Nat.ofDigitChars_ten_toDigits
  simp [readNumber, splitSign, htake, hdrop, hval, hne]

theorem skipSpace_printNat (n : Nat) (cs : List Char) :
    skipSpace (printNat n ++ cs) = printNat n ++ cs := by
  obtain ⟨d, ds, hds, hd⟩ := printNat_cons n
  rw [hds]
  exact skipSpace_of_head (isSpace_of_isDigit hd)

theorem strtol_printNat (hn : n < 2 ^ 63) : strtol (printNat n) = n := by
  have hread := readNumber_printNat (n := n) noDigit_nil
  have hskip := skipSpace_printNat n []
  rw [List.append_nil] at hread hskip
  simp only [strtol, hskip, hread]
  omega

theorem strtol_printInt {x : Int} (hlo : -2 ^ 63 ≤ x) (hhi : x < 2 ^ 63) :
    strtol (printInt x) = x := by
  cases x with
  | ofNat n => exact strtol_printNat (by simp at hhi; omega)
  | negSucc n =>
    have hread := readNumber_minus (n := n + 1) noDigit_nil
    rw [List.append_nil] at hread
    have hskip : skipSpace ('-' :: printNat (n + 1)) = '-' :: printNat (n + 1) :=
      skipSpace_of_head (by decide)
    simp only [strtol, printInt, hskip, hread]
    omega

theorem atoi_printInt {x : Int} (hlo : -2 ^ 31 ≤ x) (hhi : x < 2 ^ 31) :
    atoi (printInt x) = x := by
  rw [atoi, strtol_printInt (by omega) (by omega)]
  exact Int.bmod_eq_of_le (by omega) (by omega)

theorem printNat_injective (h : printNat m = printNat n) : m = n := by
  have hm : Nat.ofDigitChars 10 (printNat m) 0 = m := Nat.ofDigitChars_ten_toDigits
  rw [h] at hm
  exact hm.symm.trans Nat.ofDigitChars_ten_toDigits

/-- What `rand()` returns, from 0 to `RAND_MAX`. -/
abbrev Rand := Fin (2 ^ 31)

instance Rand.neZero : NeZero (2 ^ 31) := ⟨by decide⟩

-- ---------------------------------------------------------------------------
-- Streams
-- ---------------------------------------------------------------------------

/-- What is left to read, and `feof`. -/
structure Stream where
  text : List Char
  eof : Bool := false

/-- `%c`; the end of the text is an input failure. -/
def Stream.char : Stream → Option (Char × Stream)
  | ⟨[], _⟩ => none
  | ⟨c :: cs, eof⟩ => some (c, ⟨cs, eof⟩)

/-- White space in the format. Reading on to find its end may meet the end of
the text. -/
def Stream.skip (s : Stream) : Stream :=
  ⟨skipSpace s.text, s.eof || (skipSpace s.text).isEmpty⟩

/-- `%u` and its long forms, before the value is stored: sign and magnitude. -/
def Stream.number (s : Stream) : Option ((Bool × Nat) × Stream) :=
  match readNumber (skipSpace s.text) with
  | none => none
  | some (neg, n, cs) => some ((neg, n), ⟨cs, s.eof || cs.isEmpty⟩)

/-- Where the stream stands when there was no number to read. -/
def Stream.noNumber (s : Stream) : Stream :=
  let cs := (splitSign (skipSpace s.text)).2
  ⟨cs, s.eof || cs.isEmpty⟩

/-- `%s`. -/
def Stream.word (s : Stream) : Option (List Char × Stream) :=
  match skipSpace s.text with
  | [] => none
  | cs =>
    let rest := cs.dropWhile fun c => !isSpace c
    some (cs.takeWhile fun c => !isSpace c, ⟨rest, s.eof || rest.isEmpty⟩)

theorem skipSpace_length (cs : List Char) : (skipSpace cs).length ≤ cs.length :=
  (List.dropWhile_sublist _).length_le

theorem readNumber_length (h : readNumber cs = some (neg, n, rest)) :
    rest.length ≤ cs.length := by
  have hsign : (splitSign cs).2.length ≤ cs.length := by
    unfold splitSign
    split <;> simp
  simp only [readNumber] at h
  split at h
  · cases h
  · simp only [Option.some.injEq, Prod.mk.injEq] at h
    rw [← h.2.2]
    exact Nat.le_trans (List.dropWhile_sublist _).length_le hsign

theorem Stream.char_length {s s' : Stream} (h : s.char = some (c, s')) :
    s'.text.length < s.text.length := by
  unfold Stream.char at h
  split at h
  · cases h
  · cases h
    simp

theorem Stream.number_length {s s' : Stream} (h : s.number = some (x, s')) :
    s'.text.length ≤ s.text.length := by
  unfold Stream.number at h
  split at h
  · cases h
  · next hread =>
    cases h
    exact Nat.le_trans (readNumber_length hread) (skipSpace_length _)

theorem Stream.skip_length (s : Stream) : s.skip.text.length ≤ s.text.length :=
  skipSpace_length s.text

theorem noDigit_space (h : isSpace c = true) : NoDigit (c :: cs) := by
  refine noDigit_cons ?_
  cases hd : c.isDigit with
  | false => rfl
  | true => rw [isSpace_of_isDigit hd] at h; cases h

theorem skipSpace_cons_space (h : isSpace c = true) : skipSpace (c :: cs) = skipSpace cs := by
  simp [skipSpace, h]

/-- A printed number is read back up to the space behind it. -/
theorem Stream.number_printNat (h : isSpace c = true) :
    Stream.number ⟨printNat n ++ c :: cs, e⟩ = some ((false, n), ⟨c :: cs, e⟩) := by
  simp [Stream.number, skipSpace_printNat, readNumber_printNat (noDigit_space h)]

theorem Stream.skip_space (h : isSpace c = true) :
    Stream.skip ⟨c :: cs, e⟩ = Stream.skip ⟨cs, e⟩ := by
  simp [Stream.skip, skipSpace_cons_space h]

theorem Stream.skip_stop (h : isSpace c = false) :
    Stream.skip ⟨c :: cs, e⟩ = ⟨c :: cs, e⟩ := by
  simp [Stream.skip, skipSpace_of_head h]

theorem Stream.skip_printNat : Stream.skip ⟨printNat n ++ cs, e⟩ = ⟨printNat n ++ cs, e⟩ := by
  obtain ⟨d, ds, hds, hd⟩ := printNat_cons n
  rw [hds, List.cons_append]
  exact Stream.skip_stop (isSpace_of_isDigit hd)

-- ---------------------------------------------------------------------------
-- Words
-- ---------------------------------------------------------------------------

/-- What `fscanf` makes of `%s` and white space, repeated, into buffers of `cap`
bytes: it returns less than asked for, it writes past a buffer, or the words. -/
inductive Scan
  | short
  | overflow
  | words (ws : List (List Char)) (rest : Stream)

def scanWords (cap : Nat) : Nat → Stream → Scan
  | 0, s => .words [] s
  | n + 1, s =>
    match s.word with
    | none => .short
    | some (w, s) =>
      if cap ≤ w.length then .overflow
      else
        match scanWords cap n s.skip with
        | .words ws rest => .words (w :: ws) rest
        | other => other

theorem skipSpace_head (h : skipSpace cs = c :: cs') : isSpace c = false := by
  have := List.head?_dropWhile_not isSpace cs
  rw [show cs.dropWhile isSpace = c :: cs' from h] at this
  simpa using this

theorem Stream.word_length {s s' : Stream} (h : s.word = some (w, s')) :
    s'.text.length < s.text.length := by
  unfold Stream.word at h
  have hskip := skipSpace_length s.text
  split at h
  · cases h
  · next cs hne =>
    cases h
    -- the first character left is no space, so it belongs to the word
    obtain ⟨c, cs', hcs⟩ := List.exists_cons_of_ne_nil hne
    have hc := skipSpace_head hcs
    have hdrop := (List.dropWhile_sublist (fun c => !isSpace c) (l := cs')).length_le
    rw [hcs] at hskip
    simp only [hcs, List.dropWhile_cons, hc, Bool.not_false, if_true]
    simp only [List.length_cons] at hskip
    omega

/-- Every word takes a character at least. -/
theorem scanWords_length (h : scanWords cap n s = .words ws rest) :
    rest.text.length + n ≤ s.text.length := by
  induction n generalizing s ws with
  | zero =>
    cases h
    exact Nat.le_refl _
  | succ n ih =>
    rw [scanWords] at h
    split at h
    · cases h
    · next w s' hw =>
      split at h
      · cases h
      · split at h
        · next hrest =>
          cases h
          have := ih hrest
          have := Stream.skip_length s'
          have := Stream.word_length hw
          omega
        · next hne => exact absurd h (hne _ _)

/-- A word that fits the buffer. -/
structure Word (cap : Nat) (w : List Char) : Prop where
  ne_nil : w ≠ []
  noSpace : ∀ c ∈ w, isSpace c = false
  fits : w.length < cap

/-- A word that can be looked through. -/
theorem word_of_all (hne : w ≠ []) (hall : w.all (fun c => !isSpace c) = true)
    (hlen : w.length < cap) : Word cap w :=
  ⟨hne, fun c hc => by simpa using List.all_eq_true.mp hall c hc, hlen⟩

theorem Stream.word_append (hw : Word cap w) (hc : isSpace c = true) :
    Stream.word ⟨w ++ c :: cs, e⟩ = some (w, ⟨c :: cs, e⟩) := by
  have htake : (w ++ c :: cs).takeWhile (fun c => !isSpace c) = w := by
    rw [List.takeWhile_append_of_pos fun a ha => by simp [hw.noSpace a ha]]
    simp [hc]
  have hdrop : (w ++ c :: cs).dropWhile (fun c => !isSpace c) = c :: cs := by
    rw [List.dropWhile_append_of_pos fun a ha => by simp [hw.noSpace a ha]]
    simp [hc]
  obtain ⟨a, w', rfl⟩ := List.exists_cons_of_ne_nil hw.ne_nil
  have hskip : skipSpace (a :: w' ++ c :: cs) = a :: w' ++ c :: cs :=
    skipSpace_of_head (hw.noSpace a (by simp))
  rw [List.cons_append] at hskip htake hdrop
  simp [Stream.word, hskip, htake, hdrop]

/-- Words, each with a white-space character behind it. -/
def spaced (ws : List (List Char × Char)) : List Char := ws.flatMap fun p => p.1 ++ [p.2]

theorem spaced_ne_nil (h : ws ≠ []) : spaced ws ≠ [] := by
  obtain ⟨p, ws', rfl⟩ := List.exists_cons_of_ne_nil h
  simp [spaced]

theorem length_spaced_le (h : ∀ p ∈ ws, Word cap p.1) : (spaced ws).length ≤ ws.length * cap := by
  induction ws with
  | nil => simp [spaced]
  | cons p ws ih =>
    rw [List.forall_mem_cons] at h
    have htext : spaced (p :: ws) = p.1 ++ p.2 :: spaced ws := by simp [spaced]
    have hrest := ih h.2
    have hp := h.1.fits
    simp only [htext, List.length_append, List.length_cons, Nat.add_mul]
    omega

theorem Stream.skip_spaced (hws : ∀ p ∈ ws, Word cap p.1) (hne : ws ≠ []) :
    Stream.skip ⟨spaced ws ++ cs, e⟩ = ⟨spaced ws ++ cs, e⟩ := by
  obtain ⟨p, ws', rfl⟩ := List.exists_cons_of_ne_nil hne
  have hp := hws p (by simp)
  obtain ⟨a, w, ha⟩ := List.exists_cons_of_ne_nil hp.ne_nil
  have : spaced (p :: ws') ++ cs = a :: (w ++ p.2 :: (spaced ws' ++ cs)) := by
    simp [spaced, ha]
  rw [this]
  exact Stream.skip_stop (hp.noSpace a (by simp [ha]))

/-- Words are read back, up to where the next text begins. -/
theorem scanWords_spaced (cs : List Char) (hws : ∀ p ∈ ws, Word cap p.1 ∧ isSpace p.2 = true) :
    scanWords cap ws.length (Stream.skip ⟨spaced ws ++ cs, e⟩) =
      .words (ws.map Prod.fst) (Stream.skip ⟨cs, e⟩) := by
  induction ws with
  | nil => rfl
  | cons p ws ih =>
    rw [List.forall_mem_cons] at hws
    have hp := hws.1.1
    have htext : spaced (p :: ws) ++ cs = p.1 ++ p.2 :: (spaced ws ++ cs) := by simp [spaced]
    have hwords : ∀ q ∈ p :: ws, Word cap q.1 := by
      rw [List.forall_mem_cons]
      exact ⟨hp, fun q hq => (hws.2 q hq).1⟩
    rw [Stream.skip_spaced hwords (by simp), htext, List.length_cons, scanWords,
      Stream.word_append hp hws.1.2]
    simp only [Nat.not_le.mpr hp.fits, if_false, Stream.skip_space hws.1.2, ih hws.2, List.map_cons]

/-- Lines of such words: one is read, and the end of the text is seen with the
last. -/
theorem scanWords_line (line : List (List Char × Char)) (lines : List (List (List Char × Char)))
    (hline : line ≠ []) (hne : ∀ l ∈ lines, l ≠ [])
    (hws : ∀ l ∈ line :: lines, ∀ p ∈ l, Word cap p.1 ∧ isSpace p.2 = true) :
    scanWords cap line.length ⟨(line :: lines).flatMap spaced, e⟩ =
      .words (line.map Prod.fst) ⟨lines.flatMap spaced, e || lines.isEmpty⟩ := by
  rw [List.forall_mem_cons] at hws
  have hrest : Stream.skip ⟨lines.flatMap spaced, e⟩ =
      ⟨lines.flatMap spaced, e || lines.isEmpty⟩ := by
    cases lines with
    | nil => simp [Stream.skip, skipSpace]
    | cons l ls =>
      rw [List.flatMap_cons, Stream.skip_spaced (fun p hp => (hws.2 l (by simp) p hp).1)
        (hne l (by simp))]
      simp
  have hscan := scanWords_spaced (e := e) (lines.flatMap spaced) hws.1
  rw [Stream.skip_spaced (fun p hp => (hws.1 p hp).1) hline, hrest] at hscan
  rw [List.flatMap_cons, hscan]

theorem word_printNat (hn : n < 10 ^ k) (hk : 0 < k) (hcap : k < cap) : Word cap (printNat n) where
  ne_nil := Nat.toDigits_ne_nil
  noSpace c hc := isSpace_of_isDigit (isDigit_of_mem_printNat hc)
  fits := Nat.lt_of_le_of_lt ((Nat.length_toDigits_le_iff (by decide) hk).mpr hn) hcap

theorem word_printInt {x : Int} (hx : x.natAbs < 10 ^ k) (hk : 0 < k) (hcap : k + 1 < cap) :
    Word cap (printInt x) := by
  cases x with
  | ofNat n => exact word_printNat hx hk (by omega)
  | negSucc n =>
    have hword := word_printNat (n := n + 1) hx hk (Nat.lt_succ_self k)
    refine ⟨by simp [printInt], ?_, ?_⟩
    · simp only [printInt, List.mem_cons]
      rintro c (rfl | hc)
      · decide
      · exact hword.noSpace c hc
    · have := hword.fits
      simp only [printInt, List.length_cons]
      omega

end Lib.Stdio
