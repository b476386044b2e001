import Mathlib.Data.List.ReduceOption
import Mathlib.Data.Multiset.Filter

/-!
# Slots

A fixed number of slots, each of which is free or holds an element. An element is put in the first
slot that is free; to remove it, each slot with it is made free. What the slots hold is a multiset.
-/

/-- Put an element in the first free slot, or `none` when there is none. -/
def place {α : Type} (a : α) : List (Option α) → Option (List (Option α))
  | [] => none
  | none :: cells => some (some a :: cells)
  | some b :: cells => (place a cells).map (some b :: ·)

/-- A number of slots. -/
structure Slots (α : Type) (n : ℕ) where
  cells : List (Option α)
  length : cells.length = n

namespace Slots

variable {α : Type} {n : ℕ} {a : α} {cells cells' : List (Option α)}

theorem length_place (h : place a cells = some cells') :
  cells'.length = cells.length
  := by
  induction cells generalizing cells' with
  | nil => cases h
  | cons c cells ih =>
      cases c with
      | none =>
          cases h
          rfl
      | some b =>
          obtain ⟨rest, hrest, rfl⟩ := Option.map_eq_some_iff.mp h
          rw [List.length_cons, List.length_cons, ih hrest]

/-- The elements in the slots, in the order of the slots. -/
def filled (s : Slots α n) : List α := s.cells.reduceOption

/-- What the slots hold. -/
def contents (s : Slots α n) : Multiset α := s.filled

/-- Free slots. -/
def empty (α : Type) (n : ℕ) : Slots α n where
  cells := List.replicate n none
  length := List.length_replicate

/-- Put an element in the first free slot, or `none` when there is none. -/
def insert (s : Slots α n) (a : α) : Option (Slots α n) :=
  match h : place a s.cells with
  | some cells => some ⟨cells, (length_place h).trans s.length⟩
  | none => none

/-- Make each slot with an element free. -/
def erase [DecidableEq α] (s : Slots α n) (a : α) : Slots α n where
  cells := s.cells.map fun c => if c = some a then none else c
  length := (List.length_map _).trans s.length

/-! ### What the slots hold -/

theorem contents_empty :
  (empty α n).contents = 0
  := by
  rw [contents, filled, empty, List.reduceOption_replicate_none]
  rfl

theorem reduceOption_place (h : place a cells = some cells') :
  (cells'.reduceOption : Multiset α) = a ::ₘ (cells.reduceOption : Multiset α)
  := by
  induction cells generalizing cells' with
  | nil => cases h
  | cons c cells ih =>
      cases c with
      | none =>
          cases h
          rw [List.reduceOption_cons_of_some, List.reduceOption_cons_of_none, Multiset.cons_coe]
      | some b =>
          obtain ⟨rest, hrest, rfl⟩ := Option.map_eq_some_iff.mp h
          rw [List.reduceOption_cons_of_some, List.reduceOption_cons_of_some, ← Multiset.cons_coe,
            ← Multiset.cons_coe, ih hrest, Multiset.cons_swap]

theorem place_eq_none_iff :
  place a cells = none ↔ cells.reduceOption.length = cells.length
  := by
  induction cells with
  | nil => apply iff_of_true rfl rfl
  | cons c cells ih =>
      cases c with
      | none =>
          have hle := List.reduceOption_length_le cells
          rw [List.reduceOption_cons_of_none, List.length_cons]
          apply iff_of_false (Option.some_ne_none _)
          omega
      | some b =>
          rw [place, Option.map_eq_none_iff, List.reduceOption_cons_of_some, List.length_cons,
            List.length_cons, Nat.add_right_cancel_iff]
          apply ih

/-- An element that is put in is held once more. -/
theorem contents_insert {s s' : Slots α n} (h : s.insert a = some s') :
  s'.contents = a ::ₘ s.contents
  := by
  rw [insert] at h
  split at h
  next cells hcells =>
    cases h
    apply reduceOption_place hcells
  next => cases h

/-- There is no free slot just when as many elements are held as there are slots. -/
theorem insert_eq_none_iff {s : Slots α n} :
  s.insert a = none ↔ s.contents.card = n
  := by
  have hnone : s.insert a = none ↔ place a s.cells = none := by
    rw [insert]
    split
    next cells hcells => simp [hcells]
    next hcells => simp [hcells]
  rw [hnone, place_eq_none_iff, s.length, contents, filled, Multiset.coe_card]

/-- An element that is removed is not held any more. -/
theorem contents_erase [DecidableEq α] (s : Slots α n) (a : α) :
  (s.erase a).contents = s.contents.filter (· ≠ a)
  := by
  rw [contents, contents, filled, filled, erase, Multiset.filter_coe]
  dsimp only
  congr 1
  induction s.cells with
  | nil => rfl
  | cons c cells ih =>
      rw [List.map_cons]
      cases c with
      | none =>
          rw [if_neg (by simp), List.reduceOption_cons_of_none, List.reduceOption_cons_of_none, ih]
      | some b =>
          rw [List.reduceOption_cons_of_some, List.filter_cons]
          by_cases hb : b = a
          · rw [if_pos (congrArg some hb), List.reduceOption_cons_of_none, ih,
              if_neg (by simp [hb])]
          · rw [if_neg (by simpa using hb), List.reduceOption_cons_of_some, ih,
              if_pos (by simp [hb])]

/-! ### Single slots -/

theorem place_eq_set {i : ℕ} (hbefore : ∀ j < i, cells[j]? ≠ some none)
    (hfree : cells[i]? = some none) :
  place a cells = some (cells.set i (some a))
  := by
  induction cells generalizing i with
  | nil => cases hfree
  | cons c cells ih =>
      cases i with
      | zero =>
          obtain rfl : c = none := by simpa using hfree
          rfl
      | succ i =>
          cases c with
          | none => exact absurd rfl (hbefore 0 (Nat.succ_pos i))
          | some b =>
              rw [place, ih (fun j hj => hbefore (j + 1) (Nat.succ_lt_succ hj)) hfree]
              rfl

theorem place_eq_none (h : ∀ j < cells.length, cells[j]? ≠ some none) :
  place a cells = none
  := by
  induction cells with
  | nil => rfl
  | cons c cells ih =>
      cases c with
      | none => exact absurd rfl (h 0 (Nat.succ_pos _))
      | some b =>
          rw [place, ih fun j hj => h (j + 1) (Nat.succ_lt_succ hj)]
          rfl

/-- Write one slot. -/
def set (s : Slots α n) (i : ℕ) (c : Option α) : Slots α n where
  cells := s.cells.set i c
  length := List.length_set.trans s.length

/-- The element is put in the first free slot. -/
theorem insert_eq_set {s : Slots α n} {i : ℕ} (hbefore : ∀ j < i, s.cells[j]? ≠ some none)
    (hfree : s.cells[i]? = some none) :
  s.insert a = some (s.set i (some a))
  := by
  have hplace := place_eq_set (a := a) hbefore hfree
  rw [insert]
  split
  next cells hcells =>
    rw [hplace] at hcells
    cases hcells
    rfl
  next hnone =>
    rw [hplace] at hnone
    cases hnone

theorem insert_eq_none {s : Slots α n} (h : ∀ j < n, s.cells[j]? ≠ some none) :
  s.insert a = none
  := by
  have hplace : place a s.cells = none := by
    apply place_eq_none
    rw [s.length]
    exact h
  rw [insert]
  split
  next cells hcells =>
    rw [hplace] at hcells
    cases hcells
  next => rfl

theorem ext_cells {s s' : Slots α n} (h : ∀ j < n, s.cells[j]? = s'.cells[j]?) :
  s = s'
  := by
  obtain ⟨cells, hlength⟩ := s
  obtain ⟨cells', hlength'⟩ := s'
  congr
  apply List.ext_getElem?
  intro j
  by_cases hj : j < n
  · exact h j hj
  · rw [List.getElem?_eq_none (by omega), List.getElem?_eq_none (by omega)]

end Slots
