import Gubernatrix.Lib.CString
import Gubernatrix.Strings.Memory

/-!
# What is read

`memcpy` and `strnlen` of `string.c`, with what they read. `memcpy` reads bytes that it has written
itself when the destination begins within the source, and `strnlen` reads a byte before it looks
whether it is still one of those that it may read.
-/

namespace Strings

open CStrings

/-! ### `memcpy` -/

/-- `memcpy`. That the pointers are declared `restrict` makes no difference to its loop. -/
def memcpy (m : Mem) (dest src n : U64) : Mem := upLoop n.toNat m dest src

/-- A place before which the bytes repeat has the same remainder as the place that is read for
it. -/
theorem umod_of_sub_lt {i d : U64} (h : i - d < i) :
  (i - d) % d = i % d
  := by
  have hle : d.toNat ≤ i.toNat := by bv_omega
  apply BitVec.eq_of_toNat_eq
  rw [BitVec.toNat_umod, BitVec.toNat_umod, BitVec.toNat_sub_of_le (BitVec.le_def.mpr hle),
    Nat.mod_eq_sub_mod hle]

theorem umod_of_le_sub {i d : U64} (h : i ≤ i - d) :
  i % d = i
  := by
  apply BitVec.eq_of_toNat_eq
  rw [BitVec.toNat_umod]
  by_cases hd : d = 0
  · rw [hd]
    exact Nat.mod_zero _
  · exact Nat.mod_eq_of_lt (by bv_omega)

/-- What a turn of the loop reads: a byte that was not written yet, or one that has been copied
from there. -/
theorem read_repeated {m m' : Mem} {dest src i : U64}
    (h : Written m m' dest i fun j => m (src + j % (dest - src))) :
  m' (src + i) = m (src + i % (dest - src))
  := by
  have hplace : src + i - dest = i - (dest - src) := by bv_omega
  rw [written_iff] at h
  rw [h, hplace]
  by_cases hlt : i - (dest - src) < i
  · rw [if_pos hlt, umod_of_sub_lt hlt]
  · rw [if_neg hlt, umod_of_le_sub (BitVec.not_lt.mp hlt)]

/-- A byte is written after the ones before it. -/
theorem Written.snoc {m m' : Mem} {s : U64} {f : U64 → BitVec 8} {i : ℕ} (hi : i + 1 < 2 ^ 64)
    (h : Written m m' s (BitVec.ofNat 64 i) f) :
  Written m (Function.update m' (s + BitVec.ofNat 64 i) (f (BitVec.ofNat 64 i))) s
    (BitVec.ofNat 64 (i + 1)) f
  := by
  rw [written_iff] at h ⊢
  intro x
  by_cases hx : x = s + BitVec.ofNat 64 i
  · have hlast : x - s = BitVec.ofNat 64 i := by bv_omega
    have hlt : x - s < BitVec.ofNat 64 (i + 1) := by bv_omega
    rw [if_pos hlt, hlast, hx, Function.update_self]
  · have hplace : x - s < BitVec.ofNat 64 (i + 1) ↔ x - s < BitVec.ofNat 64 i := by bv_omega
    rw [Function.update_of_ne hx, h]
    simp only [hplace]

/-- The loop, from the byte `i` on. -/
theorem upLoop_repeats (m : Mem) (dest src : U64) (k : ℕ) :
  ∀ {i : ℕ} {m' : Mem}, i + k < 2 ^ 64 →
    Written m m' dest (BitVec.ofNat 64 i) (fun j => m (src + j % (dest - src))) →
    Written m (upLoop k m' (dest + BitVec.ofNat 64 i) (src + BitVec.ofNat 64 i)) dest
      (BitVec.ofNat 64 (i + k)) fun j => m (src + j % (dest - src))
  := by
  induction k with
  | zero => exact fun _ h => h
  | succ k ih =>
      intro i m' hi h
      have hnext := h.snoc (by omega)
      rw [upLoop, read_repeated h, place_succ, place_succ, Nat.add_comm k, ← Nat.add_assoc]
      exact ih (by omega) hnext

/-- `memcpy`, wherever the two ranges are: the destination gets the bytes of the source, over and
over again those before the destination if it begins within the source. -/
theorem memcpy_repeats (m : Mem) (dest src n : U64) :
  Written m (memcpy m dest src n) dest n fun i => m (src + i % (dest - src))
  := by
  have hn : BitVec.ofNat 64 (0 + n.toNat) = n := by
    rw [Nat.zero_add, BitVec.ofNat_toNat, BitVec.setWidth_eq]
  have hzero : ∀ a : U64, a + BitVec.ofNat 64 0 = a := BitVec.add_zero
  have hloop := upLoop_repeats m dest src n.toNat (i := 0) (by omega) (written_zero m dest _)
  rwa [hn, hzero, hzero] at hloop

/-! ### `strnlen` -/

/-- The loop of `strnlen`, which reads a byte in each turn. -/
def strnlenLoop (maxLen : U64) : (string : List Byte) → (n : U64) → Option U64
  | [], _ => none
  | x :: string, n => if x ≠ 0 ∧ n < maxLen then strnlenLoop maxLen string (n + 1) else some n

/-- `strnlen`, of the bytes that there are from the pointer on: `none` if it reads a byte after
them. -/
def strnlen (string : Option (List Byte)) (maxLen : U64) : Option U64 :=
  match string with
  | none => some 0
  | some string => strnlenLoop maxLen string 0

/-- The length of the string if it ends, or that of the bytes. -/
def extent (string : List Byte) : ℕ := (string.takeWhile (· ≠ 0)).length

theorem extent_zero (string : List Byte) :
  extent (0 :: string) = 0
  := by
  rw [extent, List.takeWhile_cons_of_neg (by decide)]
  rfl

theorem extent_cons {x : Byte} (hx : x ≠ 0) (string : List Byte) :
  extent (x :: string) = extent string + 1
  := by
  rw [extent, List.takeWhile_cons_of_pos (by simpa using hx)]
  rfl

theorem strnlenLoop_eq (maxLen : U64) (string : List Byte) {n : U64} (hn : n ≤ maxLen) :
  strnlenLoop maxLen string n
    = if extent string < string.length ∨ maxLen.toNat < n.toNat + string.length then
        some (n + BitVec.ofNat 64 (min (extent string) (maxLen.toNat - n.toNat)))
      else none
  := by
  have hzero : n + BitVec.ofNat 64 0 = n := BitVec.add_zero n
  induction string generalizing n with
  | nil =>
      rw [strnlenLoop, if_neg]
      rw [extent, List.takeWhile_nil, List.length_nil]
      bv_omega
  | cons x string ih =>
      rw [strnlenLoop, List.length_cons]
      by_cases hx : x = 0
      · rw [if_neg fun h => h.1 hx, hx, extent_zero, if_pos (.inl (Nat.succ_pos _)),
          Nat.zero_min, hzero]
      · rw [extent_cons hx]
        by_cases hlt : n < maxLen
        · have hsucc : (n + 1).toNat = n.toNat + 1 := by bv_omega
          have hmin : min (extent string + 1) (maxLen.toNat - n.toNat)
              = 1 + min (extent string) (maxLen.toNat - (n.toNat + 1)) := by bv_omega
          have hcond : (extent string < string.length ∨
              maxLen.toNat < n.toNat + 1 + string.length) ↔
              (extent string + 1 < string.length + 1 ∨
                maxLen.toNat < n.toNat + (string.length + 1)) := by omega
          rw [if_pos ⟨hx, hlt⟩, ih (by bv_omega) (BitVec.add_zero _), hsucc, hmin,
            BitVec.ofNat_add, ← BitVec.add_assoc]
          simp only [hcond]
          rfl
        · have hnat : maxLen.toNat = n.toNat := by bv_omega
          rw [if_neg fun h => hlt h.2, hnat, if_pos (by omega), Nat.sub_self, Nat.min_zero, hzero]

/-- The string ends within the bytes when one of them is zero. -/
theorem extent_lt_iff (string : List Byte) :
  extent string < string.length ↔ 0 ∈ string
  := by
  induction string with
  | nil => simp [extent]
  | cons x string ih =>
      rw [List.length_cons, List.mem_cons]
      by_cases hx : x = 0
      · rw [hx, extent_zero]
        simp
      · rw [extent_cons hx, Nat.add_lt_add_iff_right, ih]
        exact ⟨.inr, fun h => h.resolve_left (Ne.symm hx)⟩

/-- `strnlen` gives the length of the string, but no more than the limit. It reads beyond the bytes
that there are just when none of them is zero and there are no more of them than the limit. -/
theorem strnlen_eq (string : List Byte) (maxLen : U64) :
  strnlen (some string) maxLen
    = if 0 ∈ string ∨ maxLen.toNat < string.length then
        some (BitVec.ofNat 64 (min (extent string) maxLen.toNat))
      else none
  := by
  have hstart : (0 : U64) ≤ maxLen := BitVec.le_def.mpr (Nat.zero_le _)
  have hzero : (0 : U64).toNat = 0 := rfl
  have hadd : ∀ x : U64, 0 + x = x := BitVec.zero_add
  rw [strnlen, strnlenLoop_eq maxLen string hstart]
  simp only [extent_lt_iff, hzero, Nat.zero_add, Nat.sub_zero, hadd]

end Strings
