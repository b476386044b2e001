import Mathlib.Data.Nat.Basic
import Mathlib.Logic.Function.Basic
import Mathlib.Order.Basic

/-!
# Arrays with a count

An array that is filled from its start is a function `f : ℕ → α` with the number `n` of the elements
that are in use. `Appended n f l n' f'` says that the elements of the list `l` were added after
those in use, one after the other.
-/

namespace Counted

variable {α : Type}

/-- The array `f'` with `n'` elements is `f` with `n` elements, and those of `l` after them. -/
structure Appended (n : ℕ) (f : ℕ → α) (l : List α) (n' : ℕ) (f' : ℕ → α) : Prop where
  count : n' = n + l.length
  get : ∀ k, f' k = if k < n then f k else l[k - n]?.getD (f k)

variable {n n' : ℕ} {f f' : ℕ → α} {a : α} {l : List α}

theorem Appended.nil (n : ℕ) (f : ℕ → α) :
  Appended n f [] n f
  := by
  constructor
  · rfl
  · intro k
    split
    · rfl
    · rfl

/-- The first element is stored at the count, and the others are added after it. -/
theorem Appended.cons (h : Appended (n + 1) (Function.update f n a) l n' f') :
  Appended n f (a :: l) n' f'
  := by
  constructor
  · rw [h.count, List.length_cons, Nat.add_assoc, Nat.add_comm 1]
  · intro k
    rw [h.get]
    obtain hlt | heq | hgt := lt_trichotomy k n
    · have hsucc : k < n + 1 := Nat.lt_succ_of_lt hlt
      rw [if_pos hsucc, if_pos hlt, Function.update_of_ne hlt.ne]
    · have hsucc : k < n + 1 := heq ▸ Nat.lt_succ_self n
      rw [if_pos hsucc, if_neg heq.not_lt, heq, Function.update_self, Nat.sub_self]
      rfl
    · have hsucc : ¬ k < n + 1 := not_lt.mpr hgt
      have hsub : k - n = (k - (n + 1)) + 1 := by omega
      rw [if_neg hsucc, if_neg hgt.not_gt, Function.update_of_ne hgt.ne', hsub,
        List.getElem?_cons_succ]

/-- An array that was empty holds the list. -/
theorem Appended.getElem (h : Appended 0 f l n' f') {k : ℕ} (hk : k < l.length) :
  f' k = l[k]
  := by
  rw [h.get, if_neg (Nat.not_lt_zero k), Nat.sub_zero, List.getElem?_eq_getElem hk,
    Option.getD_some]

end Counted
