import Mathlib.Data.Nat.Bitwise
import Mathlib.Tactic.Linarith

/-!
# Bit fields of natural numbers

A contiguous mask cuts a field out of a number: masking is dividing, taking the remainder,
and multiplying back. Setting the low bits of a number is the other half of rounding it up.
-/

namespace Bits

/-- Masking with `a` ones shifted up by `b` keeps the field of `a` bits at `b`. -/
theorem and_field (x a b : ℕ) :
  x &&& ((2 ^ a - 1) * 2 ^ b) = x / 2 ^ b % 2 ^ a * 2 ^ b
  := by
  apply Nat.eq_of_testBit_eq
  intro i
  rw [Nat.testBit_and, Nat.testBit_mul_two_pow, Nat.testBit_mul_two_pow,
    Nat.testBit_two_pow_sub_one, Nat.testBit_mod_two_pow, Nat.testBit_div_two_pow]
  by_cases hi : b ≤ i
  · have : i - b + b = i := by omega
    simp [hi, this, Bool.and_comm]
  · simp [hi]

/-- Masking with the low `a` bits is the remainder. -/
theorem and_low (x a : ℕ) :
  x &&& (2 ^ a - 1) = x % 2 ^ a
  := Nat.and_two_pow_sub_one_eq_mod x a

/-- A number and one below the unit of its low field share no bit: joining adds. -/
theorem or_low {y b : ℕ} (x : ℕ) (hy : y < 2 ^ b) :
  x * 2 ^ b ||| y = x * 2 ^ b + y
  := by
  rw [Nat.mul_comm, ← Nat.two_pow_add_eq_or_of_lt hy]

/-- Setting the low `b` bits goes to the last number of the block of `2 ^ b`. -/
theorem or_ones (x b : ℕ) :
  x ||| (2 ^ b - 1) = x / 2 ^ b * 2 ^ b + (2 ^ b - 1)
  := by
  have hb : 2 ^ b - 1 < 2 ^ b := Nat.sub_lt (Nat.two_pow_pos b) one_pos
  apply Nat.eq_of_testBit_eq
  intro i
  rw [← or_low _ hb, Nat.testBit_or, Nat.testBit_or, Nat.testBit_mul_two_pow,
    Nat.testBit_two_pow_sub_one, Nat.testBit_div_two_pow]
  by_cases hi : b ≤ i
  · have : i - b + b = i := by omega
    simp [hi, this]
  · simp [not_le.mp hi]

end Bits
