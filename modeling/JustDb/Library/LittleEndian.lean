import Mathlib.Algebra.Order.Group.Nat
import Mathlib.Data.List.Basic
import Mathlib.Tactic.Ring

/-!
# Little-endian words

Fixed-width encodings of natural numbers as byte lists, least significant byte
first.  Encoding truncates to the width, so decoding returns the value modulo
`256 ^ width`.
-/

namespace LittleEndian

/-- The `width` low-order bytes of a number. -/
def encode : (width value : Nat) → List UInt8
  | 0, _ => []
  | width + 1, value => value.toUInt8 :: encode width (value / 256)

/-- The number that a byte list spells. -/
def decode : List UInt8 → Nat
  | [] => 0
  | byte :: bytes => byte.toNat + 256 * decode bytes

@[simp] theorem encode_length (width value : Nat) :
    (encode width value).length = width := by
  induction width generalizing value with
  | zero => rfl
  | succ width ih => simp [encode, ih]

/-- Decoding recovers the value that the width can hold. -/
theorem decode_encode (width value : Nat) :
    decode (encode width value) = value % 256 ^ width := by
  induction width generalizing value with
  | zero => simp [encode, decode, Nat.mod_one]
  | succ width ih =>
      have low : value.toUInt8.toNat = value % 256 := rfl
      rw [encode, decode, ih, low, Nat.pow_succ, Nat.mul_comm (256 ^ width) 256,
        Nat.mod_mul]

/-- Each byte holds one digit to the base 256. -/
theorem decode_lt (bytes : List UInt8) : decode bytes < 256 ^ bytes.length := by
  induction bytes with
  | nil => exact Nat.one_pos
  | cons byte bytes ih =>
      have digit := byte.toNat_lt
      rw [decode, List.length_cons, Nat.pow_succ]
      omega

/-- A byte list is the encoding of what it spells. -/
theorem encode_decode (bytes : List UInt8) : encode bytes.length (decode bytes) = bytes := by
  induction bytes with
  | nil => rfl
  | cons byte bytes ih =>
      have digit := byte.toNat_lt
      have low : (byte.toNat + 256 * decode bytes).toUInt8 = byte := by
        apply UInt8.toNat.inj
        change (byte.toNat + 256 * decode bytes) % 256 = byte.toNat
        omega
      have high : (byte.toNat + 256 * decode bytes) / 256 = decode bytes := by omega
      rw [decode, List.length_cons, encode, low, high, ih]

end LittleEndian
