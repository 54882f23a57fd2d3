import Mathlib

/-!
# Numbers and buffers as bytes

How a host stores a number of fixed width, and copies into the middle of a
buffer. What is stored is loaded back, and a copy between two parts of a buffer
leaves both as they were.
-/

namespace Lib

/-- The bytes of a number, the low one first. -/
def leBytes : Nat → Nat → List UInt8
  | 0, _ => []
  | n + 1, x => UInt8.ofNat x :: leBytes n (x / 256)

def ofLeBytes : List UInt8 → Nat
  | [] => 0
  | b :: bs => b.toNat + 256 * ofLeBytes bs

@[simp] theorem length_leBytes (n x : Nat) : (leBytes n x).length = n := by
  induction n generalizing x with
  | zero => rfl
  | succ n ih => simp [leBytes, ih]

theorem ofLeBytes_leBytes (n x : Nat) : ofLeBytes (leBytes n x) = x % 256 ^ n := by
  induction n generalizing x with
  | zero => simp [leBytes, ofLeBytes, Nat.mod_one]
  | succ n ih =>
    rw [leBytes, ofLeBytes, ih, Nat.pow_succ', Nat.mod_mul]
    simp

theorem leBytes_ofLeBytes (bs : List UInt8) : leBytes bs.length (ofLeBytes bs) = bs := by
  induction bs with
  | nil => rfl
  | cons b bs ih =>
    have hb : b.toNat < 256 := b.toNat_lt
    have hdiv : (b.toNat + 256 * ofLeBytes bs) / 256 = ofLeBytes bs := by omega
    have hlow : UInt8.ofNat (b.toNat + 256 * ofLeBytes bs) = b := by
      apply UInt8.toNat_inj.mp
      rw [UInt8.toNat_ofNat']
      omega
    rw [List.length_cons, leBytes, ofLeBytes, hlow, hdiv, ih]

theorem ofLeBytes_lt (bs : List UInt8) : ofLeBytes bs < 256 ^ bs.length := by
  induction bs with
  | nil => simp [ofLeBytes]
  | cons b bs ih =>
    have hb : b.toNat < 256 := b.toNat_lt
    rw [ofLeBytes, List.length_cons, Nat.pow_succ']
    omega

-- ---------------------------------------------------------------------------
-- Byte order
-- ---------------------------------------------------------------------------

inductive Endian
  | little
  | big
  deriving DecidableEq, Repr

namespace Endian

/-- `n` bytes of memory that hold `x`. -/
def store : Endian → Nat → Nat → List UInt8
  | .little, n, x => leBytes n x
  | .big, n, x => (leBytes n x).reverse

def load : Endian → List UInt8 → Nat
  | .little, bs => ofLeBytes bs
  | .big, bs => ofLeBytes bs.reverse

variable (e : Endian)

@[simp] theorem length_store (n x : Nat) : (e.store n x).length = n := by
  cases e <;> simp [store]

theorem load_store (n x : Nat) : e.load (e.store n x) = x % 256 ^ n := by
  cases e <;> simp [store, load, ofLeBytes_leBytes]

theorem load_zeros (h : ∀ b ∈ bs, b = 0) : e.load bs = 0 := by
  have hle : ∀ bs : List UInt8, (∀ b ∈ bs, b = 0) → ofLeBytes bs = 0 := by
    intro bs h
    induction bs with
    | nil => rfl
    | cons b bs ih =>
      rw [List.forall_mem_cons] at h
      rw [ofLeBytes, h.1, ih h.2]
      rfl
  cases e with
  | little => exact hle bs h
  | big => exact hle bs.reverse (by simpa using h)

theorem store_load (bs : List UInt8) : e.store bs.length (e.load bs) = bs := by
  cases e with
  | little => exact leBytes_ofLeBytes bs
  | big =>
    have h := leBytes_ofLeBytes bs.reverse
    rw [List.length_reverse] at h
    rw [store, load, h, List.reverse_reverse]

theorem load_lt (bs : List UInt8) : e.load bs < 256 ^ bs.length := by
  cases e with
  | little => exact ofLeBytes_lt bs
  | big => simpa [load] using ofLeBytes_lt bs.reverse

end Endian

-- ---------------------------------------------------------------------------
-- Buffers
-- ---------------------------------------------------------------------------

/-- `memmove(buf + off, data, data.length)`. -/
def patch (buf : List α) (off : Nat) (data : List α) : List α :=
  buf.take off ++ data ++ buf.drop (off + data.length)

/-- `n` elements from `buf + off` on. -/
def slice (buf : List α) (off n : Nat) : List α := (buf.drop off).take n

variable {a b data : List α}

theorem length_patch (h : off + data.length ≤ a.length) : (patch a off data).length = a.length := by
  rw [patch, List.length_append, List.length_append, List.length_take, List.length_drop]
  omega

theorem patch_skip (h : a.length ≤ off) :
    patch (a ++ b) off data = a ++ patch b (off - a.length) data := by
  obtain ⟨k, rfl⟩ := Nat.exists_eq_add_of_le h
  rw [patch, patch, Nat.add_assoc, List.take_length_add_append, List.drop_length_add_append,
    Nat.add_sub_cancel_left, List.append_assoc, List.append_assoc, List.append_assoc]

theorem patch_head (h : a.length = data.length) : patch (a ++ b) 0 data = data ++ b := by
  simp [patch, ← h]

theorem patch_all (h : a.length = data.length) : patch a 0 data = data := by
  simp [patch, ← h]

theorem slice_skip (h : a.length ≤ off) : slice (a ++ b) off n = slice b (off - a.length) n := by
  obtain ⟨k, rfl⟩ := Nat.exists_eq_add_of_le h
  rw [slice, slice, List.drop_length_add_append, Nat.add_sub_cancel_left]

theorem slice_append (h : off + n ≤ a.length) : slice (a ++ b) off n = slice a off n := by
  rw [slice, slice, List.drop_append_of_le_length (by omega), List.take_append_of_le_length]
  rw [List.length_drop]
  omega

theorem slice_head (h : a.length = n) : slice (a ++ b) 0 n = a := by
  simp [slice, ← h]

theorem slice_all (h : a.length = n) : slice a 0 n = a := by
  simp [slice, ← h]

end Lib
