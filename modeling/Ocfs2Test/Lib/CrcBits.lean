import Ocfs2Test.Lib.Crc

/-!
# CRC-32 bit by bit

A reflected polynomial is divided out of the register, one bit of the input at
a time. A step is linear, so eight of them are those of the low byte of the
register and a shift of the rest: a table of the 256 bytes takes them at once,
with the register in the byte order of either host.
-/

namespace Lib.Crc

section
variable (poly : BitVec 32)

/-- One bit out at the low end. -/
def bitStep (crc : BitVec 32) : BitVec 32 :=
  if crc.getLsbD 0 then (crc >>> 1) ^^^ poly else crc >>> 1

def bitByte (crc : BitVec 32) (x : UInt8) : BitVec 32 :=
  (bitStep poly)^[8] (crc ^^^ x.toBitVec.setWidth 32)

theorem bitStep_xor (x y : BitVec 32) :
    bitStep poly (x ^^^ y) = bitStep poly x ^^^ bitStep poly y := by
  have hpoly : ∀ a b : BitVec 32, a ^^^ poly ^^^ (b ^^^ poly) = a ^^^ b := by
    intro a b
    rw [BitVec.xor_assoc, BitVec.xor_comm b, ← BitVec.xor_assoc poly, BitVec.xor_self,
      BitVec.zero_xor]
  simp only [bitStep, BitVec.getLsbD_xor, BitVec.ushiftRight_xor_distrib]
  cases x.getLsbD 0 <;> cases y.getLsbD 0
  · simp
  · simp [BitVec.xor_assoc]
  · simp [BitVec.xor_assoc, BitVec.xor_comm poly]
  · simp [hpoly]

theorem bitStep_iterate_xor (n : Nat) (x y : BitVec 32) :
    (bitStep poly)^[n] (x ^^^ y) = (bitStep poly)^[n] x ^^^ (bitStep poly)^[n] y := by
  induction n generalizing x y with
  | zero => rfl
  | succ n ih => simp only [Function.iterate_succ_apply, bitStep_xor, ih]

/-- Nothing of the polynomial gets into a register while its low bits are clear. -/
theorem bitStep_iterate_high (n : Nat) (x : BitVec 32) (h : ∀ i < n, x.getLsbD i = false) :
    (bitStep poly)^[n] x = x >>> n := by
  induction n with
  | zero => simp
  | succ n ih =>
    have hlow : (x >>> n).getLsbD 0 = false := by simpa using h n (Nat.lt_succ_self n)
    rw [Function.iterate_succ_apply', ih fun i hi => h i (Nat.lt_succ_of_lt hi), bitStep, hlow]
    simp [BitVec.shiftRight_add]

theorem low_or_high (x : BitVec 32) :
    x = (x.setWidth 8).setWidth 32 ^^^ (x >>> 8) <<< 8 := by
  apply BitVec.eq_of_getLsbD_eq
  intro i hi
  by_cases h8 : i < 8
  · simp [h8, hi]
  · have hback : 8 + (i - 8) = i := by omega
    simp [h8, hi, hback]

/-- Eight steps on a register. -/
theorem bitStep_eight (x : BitVec 32) :
    (bitStep poly)^[8] x = (bitStep poly)^[8] ((x.setWidth 8).setWidth 32) ^^^ x >>> 8 := by
  have hclear : ∀ i < 8, ((x >>> 8) <<< 8).getLsbD i = false := by
    intro i hi
    simp [hi]
  have hshift : ((x >>> 8) <<< 8) >>> 8 = x >>> 8 := by
    apply BitVec.eq_of_getLsbD_eq
    intro i hi
    by_cases htop : 8 + i < 32
    · simp [htop]
    · simp [htop, BitVec.getLsbD_of_ge x (8 + i) (by omega)]
  conv => lhs; rw [low_or_high x]
  rw [bitStep_iterate_xor, bitStep_iterate_high poly 8 _ hclear, hshift]

/-- A table has the eight steps of every byte. -/
def TableOf (tab : BitVec 8 → BitVec 32) : Prop :=
  ∀ i, tab i = (bitStep poly)^[8] (i.setWidth 32)

theorem doCrc_eq_bitByte (h : TableOf poly tab) (crc : BitVec 32) (x : UInt8) :
    doCrc tab .little crc x = bitByte poly crc x := by
  have hhigh : x.toBitVec.setWidth 32 >>> 8 = 0#32 := by
    apply BitVec.eq_of_getLsbD_eq
    intro i hi
    simp
  have hlow : (crc ^^^ x.toBitVec.setWidth 32).setWidth 8 = crc.setWidth 8 ^^^ x.toBitVec := by
    ext i hi
    simp
  rw [bitByte, bitStep_eight, BitVec.ushiftRight_xor_distrib, hhigh, hlow, BitVec.xor_zero, doCrc,
    h]
  rfl

end

-- ---------------------------------------------------------------------------
-- The register in the byte order of the host
-- ---------------------------------------------------------------------------

/-- The register of a host whose memory holds the bytes of `x` from the low one on. -/
def reorder (e : Endian) (x : BitVec 32) : BitVec 32 :=
  BitVec.ofNat 32 (e.load (Endian.little.store 4 x.toNat))

theorem exists_word (e : Endian) (x : BitVec 32) : ∃ a b c d, x = word e a b c d := by
  obtain ⟨a, b, c, d, h⟩ := List.length_eq_four.mp (e.length_store 4 x.toNat)
  refine ⟨a, b, c, d, ?_⟩
  apply BitVec.eq_of_toNat_eq
  have hload := e.load_store 4 x.toNat
  rw [h] at hload
  have hx : x.toNat < 256 ^ 4 := x.isLt
  rw [word, hload, BitVec.toNat_ofNat, Nat.mod_eq_of_lt hx, Nat.mod_eq_of_lt x.isLt]

theorem reorder_word (e : Endian) (a b c d : UInt8) :
    reorder e (word .little a b c d) = word e a b c d := by
  have hpow : 256 ^ [a, b, c, d].length = 2 ^ 32 := by norm_num
  have hlt := Endian.little.load_lt [a, b, c, d]
  rw [hpow] at hlt
  have hstore : Endian.little.store 4 (Endian.little.load [a, b, c, d]) = [a, b, c, d] :=
    Endian.little.store_load [a, b, c, d]
  rw [reorder, word, BitVec.toNat_ofNat, Nat.mod_eq_of_lt hlt, hstore, word]

theorem low_reorder (e : Endian) (x : BitVec 32) : low e (reorder e x) = low .little x := by
  obtain ⟨a, b, c, d, rfl⟩ := exists_word .little x
  rw [reorder_word, low_word, low_word]

theorem shift_reorder (e : Endian) (x : BitVec 32) :
    shift e (reorder e x) = reorder e (shift .little x) := by
  obtain ⟨a, b, c, d, rfl⟩ := exists_word .little x
  rw [reorder_word, shift_word, shift_word, reorder_word]

/-- A register is what its four bytes are as they come to the low end. -/
theorem eq_of_low (e : Endian) (x y : BitVec 32)
    (h : ∀ k, low e ((shift e)^[k] x) = low e ((shift e)^[k] y)) : x = y := by
  obtain ⟨a, b, c, d, rfl⟩ := exists_word e x
  obtain ⟨a', b', c', d', rfl⟩ := exists_word e y
  have h0 := h 0
  have h1 := h 1
  have h2 := h 2
  have h3 := h 3
  simp only [Function.iterate_succ_apply, Function.iterate_zero_apply, shift_word, low_word] at *
  rw [UInt8.toBitVec_inj.mp h0, UInt8.toBitVec_inj.mp h1, UInt8.toBitVec_inj.mp h2,
    UInt8.toBitVec_inj.mp h3]

theorem low_shifts_reorder (e : Endian) (k : Nat) (x : BitVec 32) :
    low e ((shift e)^[k] (reorder e x)) = low .little ((shift .little)^[k] x) := by
  induction k generalizing x with
  | zero => exact low_reorder e x
  | succ k ih => rw [Function.iterate_succ_apply, shift_reorder, ih, Function.iterate_succ_apply]

theorem low_shifts_xor (e : Endian) (k : Nat) (x y : BitVec 32) :
    low e ((shift e)^[k] (x ^^^ y)) = low e ((shift e)^[k] x) ^^^ low e ((shift e)^[k] y) := by
  induction k generalizing x y with
  | zero => exact low_xor e x y
  | succ k ih => simp only [Function.iterate_succ_apply, shift_xor, ih]

theorem reorder_xor (e : Endian) (x y : BitVec 32) :
    reorder e (x ^^^ y) = reorder e x ^^^ reorder e y := by
  apply eq_of_low e
  intro k
  rw [low_shifts_reorder, low_shifts_xor, low_shifts_xor, low_shifts_reorder, low_shifts_reorder]

theorem reorder_reorder (e : Endian) (x : BitVec 32) : reorder e (reorder e x) = x := by
  obtain ⟨a, b, c, d, rfl⟩ := exists_word .little x
  cases e with
  | little => rw [reorder_word, reorder_word]
  | big =>
    have hflip : word .big a b c d = word .little d c b a := rfl
    rw [reorder_word, hflip, reorder_word]
    rfl

section
variable (poly : BitVec 32) (e : Endian)

/-- A step on the register of the host, with a table in its byte order. -/
theorem doCrc_reorder (h : TableOf poly tab) (crc : BitVec 32) (x : UInt8) :
    doCrc (fun i => reorder e (tab i)) e (reorder e crc) x = reorder e (bitByte poly crc x) := by
  rw [← doCrc_eq_bitByte poly h, doCrc, low_reorder, shift_reorder, ← reorder_xor, doCrc]

/-- The three loops are the division bit by bit, in either byte order. -/
theorem run_reorder (h : TableOf poly tab) (addr : Nat) (crc : BitVec 32) (bs : List UInt8) :
    run (fun i => reorder e (tab i)) e addr (reorder e crc) bs =
      reorder e (bs.foldl (bitByte poly) crc) := by
  rw [run_eq_foldl]
  induction bs generalizing crc with
  | nil => rfl
  | cons b bs ih => rw [List.foldl_cons, doCrc_reorder poly e h, ih, List.foldl_cons]

end

end Lib.Crc
