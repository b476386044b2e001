import Mathlib.Data.BitVec
import Mathlib.Tactic.Common

/-!
# Words with fields

Reading and writing a field of bits in a word: a field that was written reads as what was written,
and the fields that do not overlap with it read as before. Words can also be joined, and then the
number of the whole is put together from theirs.
-/

namespace Bitfield

variable {n len len' : ℕ}

/-- The field of `len` bits from `start` on. -/
def get (start len : ℕ) (w : BitVec n) : BitVec len := w.extractLsb' start len

/-- The word with a field from `start` on replaced. -/
def set (start : ℕ) (v : BitVec len) (w : BitVec n) : BitVec n :=
  w &&& ~~~((BitVec.allOnes len).setWidth n <<< start) ||| v.setWidth n <<< start

theorem getLsbD_set (start : ℕ) (v : BitVec len) (w : BitVec n) {i : ℕ} (hi : i < n) :
  (set start v w).getLsbD i
    = if start ≤ i ∧ i < start + len then v.getLsbD (i - start) else w.getLsbD i
  := by
  have hsub : i - start < n := by omega
  rw [set, BitVec.getLsbD_or, BitVec.getLsbD_and, BitVec.getLsbD_not, BitVec.getLsbD_shiftLeft,
    BitVec.getLsbD_shiftLeft, BitVec.getLsbD_setWidth, BitVec.getLsbD_setWidth,
    BitVec.getLsbD_allOnes]
  split
  next h =>
      have hlen : i - start < len := by omega
      simp [hi, hsub, hlen, not_lt.mpr h.1]
  next h =>
      rcases Nat.lt_or_ge i start with hlt | hge
      · simp [hi, hlt]
      · have hlen : len ≤ i - start := by omega
        simp [hi, not_lt.mpr hlen, BitVec.getLsbD_of_ge v _ hlen]

theorem get_set {start : ℕ} (h : start + len ≤ n) (v : BitVec len) (w : BitVec n) :
  get start len (set start v w) = v
  := by
  apply BitVec.eq_of_getLsbD_eq
  intro i hi
  rw [get, BitVec.getLsbD_extractLsb', getLsbD_set start v w (by omega),
    if_pos ⟨Nat.le_add_right _ _, by omega⟩, Nat.add_sub_cancel_left]
  simp [hi]

theorem get_set_of_disjoint {start start' : ℕ} (hn : start' + len' ≤ n)
    (h : start' + len' ≤ start ∨ start + len ≤ start') (v : BitVec len) (w : BitVec n) :
  get start' len' (set start v w) = get start' len' w
  := by
  apply BitVec.eq_of_getLsbD_eq
  intro i hi
  rw [get, get, BitVec.getLsbD_extractLsb', BitVec.getLsbD_extractLsb',
    getLsbD_set start v w (by omega), if_neg (by omega)]

/-- The number of joined words. -/
theorem toNat_append {m : ℕ} (x : BitVec m) (y : BitVec n) :
  (x ++ y).toNat = x.toNat * 2 ^ n + y.toNat
  := by
  rw [BitVec.toNat_append, ← Nat.shiftLeft_add_eq_or_of_lt y.isLt, Nat.shiftLeft_eq]

theorem toNat_append_shiftRight {m : ℕ} (x : BitVec m) (y : BitVec n) :
  (x ++ y).toNat >>> n = x.toNat
  := by
  rw [toNat_append, Nat.shiftRight_eq_div_pow, Nat.add_comm, Nat.add_mul_div_right _ _
    (Nat.two_pow_pos n), Nat.div_eq_of_lt y.isLt, Nat.zero_add]

theorem toNat_append_and {m : ℕ} (x : BitVec m) (y : BitVec n) :
  (x ++ y).toNat &&& (2 ^ n - 1) = y.toNat
  := by
  rw [toNat_append, Nat.and_two_pow_sub_one_eq_mod, Nat.mul_add_mod_self_right,
    Nat.mod_eq_of_lt y.isLt]

/-- A word cut into two parts is put together again by shifting the upper part and adding. -/
theorem ofNat_split (w : ℕ) {x : BitVec n} {start : ℕ} (h : n = start + len) :
  BitVec.ofNat w ((x.extractLsb' 0 start).toNat + ((x.extractLsb' start len).toNat <<< start))
    = x.setWidth w
  := by
  subst h
  apply BitVec.eq_of_toNat_eq
  have hlt : x.toNat / 2 ^ start < 2 ^ len := by
    apply Nat.div_lt_of_lt_mul
    rw [← pow_add]
    apply x.isLt
  rw [BitVec.toNat_ofNat, BitVec.toNat_setWidth, BitVec.extractLsb'_toNat,
    BitVec.extractLsb'_toNat, Nat.shiftRight_zero, Nat.shiftRight_eq_div_pow, Nat.shiftLeft_eq,
    Nat.mod_eq_of_lt hlt, Nat.mul_comm, Nat.mod_add_div]

end Bitfield
