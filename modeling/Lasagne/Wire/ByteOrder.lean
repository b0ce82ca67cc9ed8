import Mathlib

/-!
# Lasagne.Wire.ByteOrder — numbers as bytes, in either order

The bytes of a number that fits them, the low one first or the high one, and the number of the bytes.  One order is the other
one reversed.
-/

namespace Lasagne.Wire

inductive ByteOrder
  | little
  | big
  deriving DecidableEq, Repr

/-- `n` bytes of `v`, the low one first. -/
def lowFirst : ℕ → ℕ → List UInt8
  | 0, _ => []
  | n + 1, v => UInt8.ofNat v :: lowFirst n (v / 256)

/-- The number of the bytes, of which the low one is first. -/
def ofLowFirst : List UInt8 → ℕ
  | [] => 0
  | b :: bs => b.toNat + 256 * ofLowFirst bs

variable {n v : ℕ}

@[simp]
theorem length_lowFirst (n v : ℕ) : (lowFirst n v).length = n := by
  induction n generalizing v with
  | zero => rfl
  | succ n ih => rw [lowFirst, List.length_cons, ih]

theorem ofLowFirst_lowFirst (h : v < 256 ^ n) : ofLowFirst (lowFirst n v) = v := by
  induction n generalizing v with
  | zero =>
    rw [pow_zero] at h
    exact (Nat.lt_one_iff.mp h).symm
  | succ n ih =>
    rw [pow_succ] at h
    have hbyte : (UInt8.ofNat v).toNat = v % 256 := UInt8.toNat_ofNat'
    rw [lowFirst, ofLowFirst, ih (Nat.div_lt_of_lt_mul (by omega)), hbyte]
    exact Nat.mod_add_div v 256

namespace ByteOrder

/-- The bytes of a number. -/
def bytes : ByteOrder → (n : ℕ) → BitVec (8 * n) → List UInt8
  | little, n, v => lowFirst n v.toNat
  | big, n, v => (lowFirst n v.toNat).reverse

/-- The number of bytes. -/
def value : ByteOrder → (n : ℕ) → List UInt8 → BitVec (8 * n)
  | little, n, bs => BitVec.ofNat (8 * n) (ofLowFirst bs)
  | big, n, bs => BitVec.ofNat (8 * n) (ofLowFirst bs.reverse)

@[simp]
theorem length_bytes (o : ByteOrder) (n : ℕ) (v : BitVec (8 * n)) : (o.bytes n v).length = n := by
  cases o with
  | little => exact length_lowFirst n v.toNat
  | big => rw [bytes, List.length_reverse, length_lowFirst]

@[simp]
theorem value_bytes (o : ByteOrder) (n : ℕ) (v : BitVec (8 * n)) : o.value n (o.bytes n v) = v := by
  have hv : v.toNat < 256 ^ n := by
    have hlt := v.isLt
    rw [pow_mul] at hlt
    exact hlt
  cases o with
  | little => rw [value, bytes, ofLowFirst_lowFirst hv, BitVec.ofNat_toNat, BitVec.setWidth_eq]
  | big => rw [value, bytes, List.reverse_reverse, ofLowFirst_lowFirst hv, BitVec.ofNat_toNat, BitVec.setWidth_eq]

/-- The bytes in two orders that differ are each other's reverse. -/
theorem bytes_reverse {o o' : ByteOrder} (h : o ≠ o') (n : ℕ) (v : BitVec (8 * n)) :
    (o.bytes n v).reverse = o'.bytes n v := by
  cases o with
  | little =>
    cases o' with
    | little => exact absurd rfl h
    | big => rfl
  | big =>
    cases o' with
    | little => exact List.reverse_reverse _
    | big => exact absurd rfl h

end ByteOrder

end Lasagne.Wire
