import Gubernatrix.Lib.Bits
import Mathlib.Data.BitVec
import Mathlib.Tactic.NormNum

/-!
# Machine words

The fixed-width integers of the kernel and the macros of `types.h`: `uint64_t` is `U64`,
whose operations wrap modulo `2 ^ 64` as the processor's do, and an `int32_t` is an integer,
reduced to its range by `toInt32` where the source narrows a wider value.
-/

/-- `uint64_t`, `size_t`, `uintptr_t` and, read as a signed number, `intptr_t`. -/
abbrev U64 := BitVec 64

/-- The value an `int32_t` takes when `x` is stored in it. -/
def toInt32 (x : ℕ) : ℤ := Int.bmod x (2 ^ 32)

theorem toInt32_of_lt {x : ℕ} (h : x < 2 ^ 31) :
  toInt32 x = x
  := by
  apply Int.bmod_eq_of_le
  · omega
  · norm_num
    omega

/-- What is stored in an `int32_t` is kept modulo `2 ^ 32`. -/
theorem toInt32_emod (x : ℕ) :
  toInt32 x % 2 ^ 32 = (x : ℤ) % 2 ^ 32
  := Int.bmod_emod

/-- An `int32_t` keeps the numbers below `2 ^ 31` only. -/
theorem toInt32_eq_self_iff {x : ℕ} :
  toInt32 x = x ↔ x < 2 ^ 31
  := by
  constructor
  · intro h
    have hlt : toInt32 x < _ := Int.bmod_lt (by norm_num)
    rw [h] at hlt
    norm_num at hlt ⊢
    omega
  · apply toInt32_of_lt

/-- A `uint32_t` and a small number are equal as `int32_t`s only if they are equal. -/
theorem toInt32_eq_natCast_iff {x k : ℕ} (hx : x < 2 ^ 32) (hk : k < 2 ^ 31) :
  toInt32 x = k ↔ x = k
  := by
  constructor
  · intro h
    have hmod := toInt32_emod x
    rw [h] at hmod
    norm_num at hmod hx hk
    omega
  · rintro rfl
    apply toInt32_of_lt hk

/-- `KiB(x)`. -/
def kib (x : U64) : U64 := x * 1024

/-- `MiB(x)`. -/
def mib (x : U64) : U64 := kib 1 * 1024 * x

/-- `GiB(x)`. -/
def gib (x : U64) : U64 := mib 1 * 1024 * x

/-- `ALIGN(x, pot)`: the least multiple of the power of two `pot` that is not below `x`,
modulo `2 ^ 64`. -/
def align (x pot : U64) : U64 := ((x - 1) ||| (pot - 1)) + 1

/-- Aligning to a power of two gives the end of the block that has `x - 1`. -/
theorem toNat_align {x pot : U64} (k : ℕ) (hpot : (pot - 1).toNat = 2 ^ k - 1) :
  (align x pot).toNat = ((x - 1).toNat / 2 ^ k + 1) * 2 ^ k % 2 ^ 64
  := by
  have hone : (1 : U64).toNat = 1 := rfl
  have hpos := Nat.two_pow_pos k
  rw [align, BitVec.toNat_add, BitVec.toNat_or, hpot, Bits.or_ones, hone, Nat.add_assoc,
    Nat.sub_add_cancel hpos, Nat.succ_mul]

/-- Below the last page of the address space, aligning to a page is rounding up. -/
theorem toNat_align_page {x : U64} (h : x.toNat ≤ 2 ^ 64 - 4096) :
  (align x (kib 4)).toNat = (x.toNat + 4095) / 4096 * 4096
  := by
  have hx := x.isLt
  have hone : (1 : U64).toNat = 1 := rfl
  rw [toNat_align 12 rfl, BitVec.toNat_sub, hone]
  omega

/-- Aligning to a page gives a page boundary. -/
theorem align_page_mod (x : U64) :
  (align x (kib 4)).toNat % 4096 = 0
  := by
  rw [toNat_align 12 rfl]
  omega
