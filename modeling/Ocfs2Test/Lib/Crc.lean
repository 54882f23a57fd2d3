import Ocfs2Test.Lib.Bytes

/-!
# Table-driven CRC-32

The register is kept in the byte order of the host. Four bytes taken as one
word, followed by four steps without input, do what the four bytes do one
after the other: a byte of the word reaches the table only when it has been
shifted to the end of the register. The table is arbitrary.
-/

namespace Lib.Crc

/-- The end of the register that selects from the table. -/
def low : Endian → BitVec 32 → BitVec 8
  | .little, crc => crc.setWidth 8
  | .big, crc => (crc >>> 24).setWidth 8

/-- Shifts that end out. -/
def shift : Endian → BitVec 32 → BitVec 32
  | .little, crc => crc >>> 8
  | .big, crc => crc <<< 8

/-- Four bytes in memory, loaded as one word. -/
def word (e : Endian) (a b c d : UInt8) : BitVec 32 := BitVec.ofNat 32 (e.load [a, b, c, d])

theorem low_xor (e : Endian) (x y : BitVec 32) : low e (x ^^^ y) = low e x ^^^ low e y := by
  cases e <;> simp only [low] <;> ext i hi <;> simp

theorem shift_xor (e : Endian) (x y : BitVec 32) : shift e (x ^^^ y) = shift e x ^^^ shift e y := by
  cases e with
  | little => exact BitVec.ushiftRight_xor_distrib x y 8
  | big => exact BitVec.shiftLeft_xor_distrib x y 8

section
variable (e : Endian) (a b c d : UInt8)

theorem low_word : low e (word e a b c d) = a.toBitVec := by
  have ha := a.toNat_lt
  have hb := b.toNat_lt
  have hc := c.toNat_lt
  have hd := d.toNat_lt
  apply BitVec.eq_of_toNat_eq
  cases e with
  | little => simp [low, word, Endian.load, ofLeBytes]
  | big =>
    simp [low, word, Endian.load, ofLeBytes, Nat.shiftRight_eq_div_pow]
    omega

theorem shift_word : shift e (word e a b c d) = word e b c d 0 := by
  have ha := a.toNat_lt
  have hb := b.toNat_lt
  have hc := c.toNat_lt
  have hd := d.toNat_lt
  apply BitVec.eq_of_toNat_eq
  cases e <;> simp [shift, word, Endian.load, ofLeBytes, Nat.shiftRight_eq_div_pow,
    Nat.shiftLeft_eq] <;> omega

theorem word_zero : word e 0 0 0 0 = 0#32 := by
  cases e <;> rfl

end

section
variable (tab : BitVec 8 → BitVec 32)

/-- `DO_CRC(x)`. -/
def doCrc (e : Endian) (crc : BitVec 32) (x : UInt8) : BitVec 32 :=
  tab (low e crc ^^^ x.toBitVec) ^^^ shift e crc

/-- A step without input on a register that a word was mixed into: the first
byte of the word takes part in it, the others move up. -/
theorem doCrc_word (e : Endian) (crc : BitVec 32) (a b c d : UInt8) :
    doCrc tab e (crc ^^^ word e a b c d) 0 = doCrc tab e crc a ^^^ word e b c d 0 := by
  simp only [doCrc, low_xor, shift_xor, low_word, shift_word]
  simp [BitVec.xor_assoc]

/-- Up to three bytes, until the address is a multiple of four. -/
def alignLoop (e : Endian) (addr : Nat) (crc : BitVec 32) : List UInt8 → BitVec 32 × List UInt8
  | [] => (crc, [])
  | b :: bs =>
    if addr % 4 = 0 then (crc, b :: bs) else alignLoop e (addr + 1) (doCrc tab e crc b) bs

def wordLoop (e : Endian) (crc : BitVec 32) : List UInt8 → BitVec 32 × List UInt8
  | a :: b :: c :: d :: bs =>
    let crc := crc ^^^ word e a b c d
    let crc := doCrc tab e (doCrc tab e (doCrc tab e (doCrc tab e crc 0) 0) 0) 0
    wordLoop e crc bs
  | bs => (crc, bs)

/-- The three loops one after the other, from an address on. -/
def run (e : Endian) (addr : Nat) (crc : BitVec 32) (bs : List UInt8) : BitVec 32 :=
  let (crc, bs) := alignLoop tab e addr crc bs
  let (crc, bs) := wordLoop tab e crc bs
  bs.foldl (doCrc tab e) crc

theorem foldl_alignLoop (e : Endian) (addr : Nat) (crc : BitVec 32) (bs : List UInt8) :
    (alignLoop tab e addr crc bs).2.foldl (doCrc tab e) (alignLoop tab e addr crc bs).1 =
      bs.foldl (doCrc tab e) crc := by
  induction bs generalizing addr crc with
  | nil => rfl
  | cons b bs ih =>
    rw [alignLoop]
    split
    · rfl
    · exact ih _ _

theorem foldl_wordLoop (e : Endian) (crc : BitVec 32) (bs : List UInt8) :
    (wordLoop tab e crc bs).2.foldl (doCrc tab e) (wordLoop tab e crc bs).1 =
      bs.foldl (doCrc tab e) crc := by
  fun_induction wordLoop tab e crc bs with
  | case1 crc a b c d bs crc₁ crc₂ ih =>
    rw [ih]
    simp only [List.foldl_cons, crc₂, crc₁, doCrc_word, word_zero, BitVec.xor_zero]
  | case2 crc bs => rfl

/-- Neither words nor the address matter. -/
theorem run_eq_foldl (e : Endian) (addr : Nat) (crc : BitVec 32) (bs : List UInt8) :
    run tab e addr crc bs = bs.foldl (doCrc tab e) crc := by
  have hrun : run tab e addr crc bs =
      (wordLoop tab e (alignLoop tab e addr crc bs).1 (alignLoop tab e addr crc bs).2).2.foldl
        (doCrc tab e)
        (wordLoop tab e (alignLoop tab e addr crc bs).1 (alignLoop tab e addr crc bs).2).1 := rfl
  rw [hrun, foldl_wordLoop, foldl_alignLoop]

end

end Lib.Crc
