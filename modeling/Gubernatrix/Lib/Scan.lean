import Mathlib.Algebra.Order.Group.Unbundled.Int
import Mathlib.Order.Basic

/-!
# Scanning loops

The loops `do j--; while (p j);` and `do i++; while (p i);` over the integers, with a bound
on the number of turns. A scan that has a position in reach where `p` fails stops, at the
first such position.
-/

namespace Scan

/-- `do j--; while (p j);`, for at most `fuel` turns. -/
def down (p : ℤ → Bool) : ℕ → ℤ → Option ℤ
  | 0, _ => none
  | fuel + 1, j => if p (j - 1) then down p fuel (j - 1) else some (j - 1)

/-- `do i++; while (p i);`, for at most `fuel` turns. -/
def up (p : ℤ → Bool) : ℕ → ℤ → Option ℤ
  | 0, _ => none
  | fuel + 1, i => if p (i + 1) then up p fuel (i + 1) else some (i + 1)

variable {p : ℤ → Bool}

/-- A scan down moves down. -/
theorem lt_of_down :
  ∀ {fuel : ℕ} {j k : ℤ}, down p fuel j = some k → k < j
  | 0, _, _, h => by cases h
  | fuel + 1, j, k, h => by
      rw [down] at h
      split at h
      · have := lt_of_down h
        omega
      · cases h
        omega

/-- A scan up moves up. -/
theorem lt_of_up :
  ∀ {fuel : ℕ} {i k : ℤ}, up p fuel i = some k → i < k
  | 0, _, _, h => by cases h
  | fuel + 1, i, k, h => by
      rw [up] at h
      split at h
      · have := lt_of_up h
        omega
      · cases h
        omega

/-- A scan down stops at the last position below `j` where `p` fails. -/
theorem down_spec {m : ℤ} (hm : p m = false) :
  ∀ (fuel : ℕ) (j : ℤ), m < j → j - m ≤ fuel →
    ∃ k, down p fuel j = some k ∧ m ≤ k ∧ k < j ∧ p k = false ∧ ∀ l, k < l → l < j → p l = true
  | 0, j, hmj, hfuel => by omega
  | fuel + 1, j, hmj, hfuel => by
      rw [down]
      by_cases hp : p (j - 1) = true
      · rw [if_pos hp]
        have hne : m ≠ j - 1 := by
          rintro rfl
          rw [hm] at hp
          cases hp
        obtain ⟨k, hk, hmk, hkj, hpk, hbetween⟩ := down_spec hm fuel (j - 1)
          (by omega) (by omega)
        refine ⟨k, hk, hmk, by omega, hpk, ?_⟩
        intro l hkl hlj
        by_cases hl : l = j - 1
        · rw [hl, hp]
        · apply hbetween l hkl
          omega
      · rw [if_neg hp]
        refine ⟨j - 1, rfl, by omega, by omega, by simpa using hp, ?_⟩
        intro l hl hl'
        omega

/-- A scan up stops at the first position above `i` where `p` fails. -/
theorem up_spec {m : ℤ} (hm : p m = false) :
  ∀ (fuel : ℕ) (i : ℤ), i < m → m - i ≤ fuel →
    ∃ k, up p fuel i = some k ∧ i < k ∧ k ≤ m ∧ p k = false ∧ ∀ l, i < l → l < k → p l = true
  | 0, i, him, hfuel => by omega
  | fuel + 1, i, him, hfuel => by
      rw [up]
      by_cases hp : p (i + 1) = true
      · rw [if_pos hp]
        have hne : m ≠ i + 1 := by
          rintro rfl
          rw [hm] at hp
          cases hp
        obtain ⟨k, hk, hik, hkm, hpk, hbetween⟩ := up_spec hm fuel (i + 1)
          (by omega) (by omega)
        refine ⟨k, hk, by omega, hkm, hpk, ?_⟩
        intro l hil hlk
        by_cases hl : l = i + 1
        · rw [hl, hp]
        · apply hbetween l _ hlk
          omega
      · rw [if_neg hp]
        refine ⟨i + 1, rfl, by omega, by omega, by simpa using hp, ?_⟩
        intro l hl hl'
        omega

end Scan
