import Mathlib.Data.BitVec
import Mathlib.Data.Int.GCD
import Mathlib.Data.Int.ModEq
import Mathlib.Tactic.Ring

/-!
# Loops with a stride

A loop whose counter is a word, begins at 0 and grows by a stride, modulo the size of the word, as
long as it is below a bound. The counter takes the multiples of the greatest common divisor of the
stride and the size of the word, so that the loop ends just when the bound is not above the largest
of them.
-/

namespace Strides

/-! ### The multiples of a number modulo another -/

section Multiples

variable {e m : ℕ}

/-- What is left of a multiple is a multiple of the greatest common divisor, below the modulus. -/
theorem mul_mod_add_gcd_le (hm : 0 < m) (k : ℕ) :
  k * e % m + Nat.gcd e m ≤ m
  := by
  have hlt := Nat.mod_lt (k * e) hm
  have hdvd : Nat.gcd e m ∣ k * e % m := by
    rw [Nat.dvd_mod_iff (Nat.gcd_dvd_right e m)]
    apply Dvd.dvd.mul_left (Nat.gcd_dvd_left e m)
  have hdiff : Nat.gcd e m ∣ m - k * e % m := Nat.dvd_sub (Nat.gcd_dvd_right e m) hdvd
  have hle := Nat.le_of_dvd (Nat.sub_pos_of_lt hlt) hdiff
  omega

/-- The largest of these multiples is taken. -/
theorem exists_mul_mod_add_gcd (hm : 0 < m) :
  ∃ k, k * e % m + Nat.gcd e m = m
  := by
  -- the coefficient of `e` in Bézout's identity, negated and brought below `m`
  have hnonneg : 0 ≤ -Nat.gcdA e m % (m : ℤ) := Int.emod_nonneg _ (by omega)
  use (-Nat.gcdA e m % (m : ℤ)).toNat
  have hmod : -Nat.gcdA e m % (m : ℤ) * e ≡ m - Nat.gcd e m [ZMOD m] := by
    apply (Int.mod_modEq _ _).mul_right _ |>.trans
    apply Int.modEq_iff_dvd.mpr
    use 1 - Nat.gcdB e m
    rw [Nat.gcd_eq_gcd_ab]
    ring
  have hle : Nat.gcd e m ≤ m := Nat.gcd_le_right e hm
  have hpos : 0 < Nat.gcd e m := Nat.gcd_pos_of_pos_right e hm
  have hcast : (((-Nat.gcdA e m % (m : ℤ)).toNat * e % m : ℕ) : ℤ) = m - Nat.gcd e m := by
    rw [Int.natCast_mod, Int.natCast_mul, Int.toNat_of_nonneg hnonneg, hmod]
    apply Int.emod_eq_of_lt
    · omega
    · omega
  omega

theorem exists_le_mul_mod_iff (hm : 0 < m) (bound : ℕ) :
  (∃ k, bound ≤ k * e % m) ↔ bound + Nat.gcd e m ≤ m
  := by
  constructor
  · rintro ⟨k, hk⟩
    have hle := mul_mod_add_gcd_le (e := e) hm k
    omega
  · intro h
    obtain ⟨k, hk⟩ := exists_mul_mod_add_gcd (e := e) hm
    use k
    omega

end Multiples

/-! ### The loop -/

section Loop

variable {w : ℕ} {σ : Type*}

/-- The loop from the counter `j` on, for at most `n` tests of its condition. -/
def loop (body : σ → BitVec w → σ) (bound stride : BitVec w) : ℕ → BitVec w → σ → Option σ
  | 0, _, _ => none
  | n + 1, j, s => if j < bound then loop body bound stride n (j + stride) (body s j) else some s

variable {body : σ → BitVec w → σ} {bound stride : BitVec w} {n : ℕ} {j : BitVec w} {s : σ}

/-- A loop that has ended does not go on. -/
theorem loop_mono {r : σ} (h : loop body bound stride n j s = some r) (k : ℕ) :
  loop body bound stride (n + k) j s = some r
  := by
  induction n generalizing j s with
  | zero => cases h
  | succ n ih =>
      rw [Nat.succ_add, loop]
      rw [loop] at h
      split
      · next hlt =>
        rw [if_pos hlt] at h
        apply ih h
      · next hge =>
        rw [if_neg hge] at h
        exact h

/-- The loop ends just when its counter is not below the bound at some time. -/
theorem exists_loop_iff :
  (∃ n r, loop body bound stride n j s = some r) ↔ ∃ k : ℕ, ¬ j + BitVec.ofNat w k * stride < bound
  := by
  have hzero (j : BitVec w) : j + BitVec.ofNat w 0 * stride = j := by
    rw [BitVec.zero_mul, BitVec.add_zero]
  have hsucc (k : ℕ) (j : BitVec w) : j + BitVec.ofNat w (k + 1) * stride
      = j + stride + BitVec.ofNat w k * stride := by
    rw [Nat.add_comm, BitVec.ofNat_add, BitVec.add_mul, BitVec.one_mul, BitVec.add_assoc]
  constructor
  · rintro ⟨n, r, h⟩
    induction n generalizing j s with
    | zero => cases h
    | succ n ih =>
        rw [loop] at h
        split at h
        · obtain ⟨k, hk⟩ := ih h
          use k + 1
          rwa [hsucc]
        · next hge =>
          use 0
          rwa [hzero]
  · rintro ⟨k, hk⟩
    induction k generalizing j s with
    | zero =>
        use 1, s
        rw [loop, if_neg]
        rwa [hzero] at hk
    | succ k ih =>
        by_cases hlt : j < bound
        · rw [hsucc] at hk
          obtain ⟨n, r, h⟩ := ih hk (s := body s j)
          use n + 1, r
          rw [loop, if_pos hlt]
          exact h
        · use 1, s
          rw [loop, if_neg hlt]

/-- A loop from 0 on ends just when the bound is not above the largest value of its counter. -/
theorem exists_loop_iff_gcd :
  (∃ n r, loop body bound stride n 0 s = some r)
    ↔ bound.toNat + Nat.gcd stride.toNat (2 ^ w) ≤ 2 ^ w
  := by
  rw [exists_loop_iff, ← exists_le_mul_mod_iff (Nat.two_pow_pos w)]
  apply exists_congr
  intro k
  have hzero : (0 : BitVec w) = 0#w := rfl
  rw [hzero, BitVec.zero_add, BitVec.lt_def, not_lt, BitVec.toNat_mul, BitVec.toNat_ofNat,
    Nat.mod_mul_mod]

end Loop

end Strides
