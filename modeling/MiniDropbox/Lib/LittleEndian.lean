/-
Fixed-width little-endian numbers in a byte sequence.

`encode width n` writes the low `width` bytes of `n`, least significant first;
`decode` reads any byte sequence back. Encoding loses exactly what does not fit:
`decode_encode` is a reduction modulo `256 ^ width`.
-/

import Mathlib.Algebra.Group.Nat.Defs
import Mathlib.Data.List.Basic

namespace LittleEndian

/-- The `width` low bytes of `n`, least significant first. -/
def encode : Nat → Nat → List UInt8
  | 0, _ => []
  | width + 1, n => UInt8.ofNat n :: encode width (n / 256)

/-- The number a byte sequence denotes, least significant byte first. -/
def decode : List UInt8 → Nat
  | [] => 0
  | b :: bs => b.toNat + 256 * decode bs

@[simp] theorem length_encode (width n : Nat) : (encode width n).length = width := by
  induction width generalizing n with
  | zero => rfl
  | succ width ih => simp [encode, ih]

theorem decode_encode (width n : Nat) : decode (encode width n) = n % 256 ^ width := by
  induction width generalizing n with
  | zero => simp [encode, decode, Nat.mod_one]
  | succ width ih =>
      have low : (UInt8.ofNat n).toNat = n % 256 := by simp
      rw [encode, decode, ih, low, Nat.pow_succ', Nat.mod_mul]

/-- A number that fits its field is read back. -/
theorem decode_encode_of_lt {width n : Nat} (fits : n < 256 ^ width) :
    decode (encode width n) = n := by
  rw [decode_encode, Nat.mod_eq_of_lt fits]

/-- What a field denotes is written as the field. -/
theorem encode_decode (bytes : List UInt8) : encode bytes.length (decode bytes) = bytes := by
  induction bytes with
  | nil => rfl
  | cons b bytes ih =>
      have digit := b.toNat_lt
      have low : UInt8.ofNat (b.toNat + 256 * decode bytes) = b := by
        apply UInt8.toNat_inj.mp
        rw [UInt8.toNat_ofNat']
        omega
      have high : (b.toNat + 256 * decode bytes) / 256 = decode bytes := by omega
      rw [decode, List.length_cons, encode, low, high, ih]

theorem decode_lt (bytes : List UInt8) : decode bytes < 256 ^ bytes.length := by
  induction bytes with
  | nil => exact Nat.one_pos
  | cons b bytes ih =>
      have digit := b.toNat_lt
      rw [decode, List.length_cons, Nat.pow_succ]
      omega

/-- With a nonzero last byte a number is as large as the field is long. -/
theorem le_decode_concat (bytes : List UInt8) {last : UInt8} (nonzero : last ≠ 0) :
    256 ^ bytes.length ≤ decode (bytes ++ [last]) := by
  induction bytes with
  | nil =>
      have positive : last.toNat ≠ 0 := fun zero => nonzero (UInt8.toNat_inj.mp zero)
      rw [List.nil_append, decode, decode, List.length_nil, Nat.pow_zero]
      omega
  | cons b bytes ih =>
      rw [List.cons_append, decode, List.length_cons, Nat.pow_succ]
      omega

/-- The first byte of a nonempty field is the number modulo 256. -/
theorem getD_encode_zero (width n : Nat) :
    ((encode (width + 1) n).getD 0 0).toNat = n % 256 := by
  simp [encode]

end LittleEndian
