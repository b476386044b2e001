import Mathlib.Data.List.Basic
import Mathlib.Logic.Function.Basic

/-!
# Sieving into an array

A loop writes every item to the next free cell of an array, and goes on to the next cell only if
it accepts the item; the next item overwrites what is not accepted. The cells then hold the
accepted items in order. The loop also writes to the cell after them, unless the last item is
accepted.
-/

namespace Sieve

variable {α β : Type}

/-- The cells, the next free one, and the cells that were written to. -/
structure State (β : Type) where
  cells : ℕ → β
  idx : ℕ
  touched : List ℕ

/-- Before the first item. -/
def start (cells : ℕ → β) : State β where
  cells := cells
  idx := 0
  touched := []

/-- The state after an item, of which `fill` makes the content of a cell. -/
def step (accept : α → Bool) (fill : α → β → β) (s : State β) (x : α) : State β where
  cells := Function.update s.cells s.idx (fill x (s.cells s.idx))
  idx := if accept x then s.idx + 1 else s.idx
  touched := s.idx :: s.touched

/-- The state after a list of items. -/
def run (accept : α → Bool) (fill : α → β → β) (s : State β) (xs : List α) : State β :=
  xs.foldl (step accept fill) s

variable {accept : α → Bool} {fill : α → β → β} {content : α → β} {s : State β} {xs : List α}

theorem run_cons (x : α) :
  run accept fill s (x :: xs) = run accept fill (step accept fill s x) xs
  := rfl

theorem step_idx (x : α) :
  (step accept fill s x).idx = if accept x then s.idx + 1 else s.idx
  := rfl

/-- The cells before the next free one stay as they are. -/
theorem run_cells_of_lt {i : ℕ} (hi : i < s.idx) :
  (run accept fill s xs).cells i = s.cells i
  := by
  induction xs generalizing s with
  | nil => rfl
  | cons x xs ih =>
      rw [run_cons, ih]
      · exact Function.update_of_ne (Nat.ne_of_lt hi) _ _
      · rw [step_idx]
        split <;> omega

/-- The cells hold the accepted items in order. -/
theorem run_cells (hfill : ∀ x old, accept x = true → fill x old = content x) {i : ℕ} {x : α}
    (hx : (xs.filter accept)[i]? = some x) :
  (run accept fill s xs).cells (s.idx + i) = content x
  := by
  induction xs generalizing s i with
  | nil => cases hx
  | cons y xs ih =>
      rw [run_cons]
      cases hy : accept y with
      | false =>
          rw [List.filter_cons_of_neg (by simp [hy])] at hx
          have hidx : (step accept fill s y).idx = s.idx := by rw [step, hy]; rfl
          rw [← hidx]
          exact ih hx
      | true =>
          rw [List.filter_cons_of_pos hy] at hx
          have hidx : (step accept fill s y).idx = s.idx + 1 := by rw [step, hy]; rfl
          cases i with
          | zero =>
              obtain rfl : y = x := Option.some.inj hx
              rw [run_cells_of_lt (by omega)]
              exact (Function.update_self _ _ _).trans (hfill y _ hy)
          | succ i =>
              have hrest := ih (s := step accept fill s y) hx
              rw [hidx] at hrest
              rw [← hrest]
              congr 1
              omega

/-- The cells written to are those counted before each of the items. -/
theorem mem_run_touched {i : ℕ} :
  i ∈ (run accept fill s xs).touched ↔ i ∈ s.touched
    ∨ ∃ done x rest, xs = done ++ x :: rest ∧ i = s.idx + done.countP accept
  := by
  induction xs generalizing s with
  | nil => simp [run]
  | cons y xs ih =>
      rw [run_cons, ih, step_idx]
      constructor
      · rintro (hstep | ⟨done, x, rest, rfl, rfl⟩)
        · rcases List.mem_cons.mp hstep with rfl | hbefore
          · exact .inr ⟨[], y, xs, rfl, rfl⟩
          · exact .inl hbefore
        · refine .inr ⟨y :: done, x, rest, rfl, ?_⟩
          rw [List.countP_cons]
          split <;> omega
      · rintro (hbefore | ⟨done, x, rest, hsplit, rfl⟩)
        · exact .inl (List.mem_cons_of_mem _ hbefore)
        · cases done with
          | nil => exact .inl (List.mem_cons_self ..)
          | cons z done =>
              obtain ⟨rfl, rfl⟩ := List.cons.inj hsplit
              refine .inr ⟨done, x, rest, rfl, ?_⟩
              rw [List.countP_cons]
              split <;> omega

/-- No cell after those of the accepted items is written to just when the last item is
accepted. -/
theorem touched_lt_iff {cells : ℕ → β} :
  (∀ i ∈ (run accept fill (start cells) xs).touched, i < xs.countP accept)
    ↔ ∀ x ∈ xs.getLast?, accept x = true
  := by
  constructor
  · intro h x hx
    obtain ⟨done, rfl⟩ := List.getLast?_eq_some_iff.mp hx
    have hlt := h (done.countP accept)
      (mem_run_touched.mpr (.inr ⟨done, x, [], rfl, (Nat.zero_add _).symm⟩))
    rw [List.countP_append, List.countP_singleton] at hlt
    by_contra hnot
    rw [if_neg hnot] at hlt
    omega
  · intro h i hi
    rcases mem_run_touched.mp hi with hstart | ⟨done, x, rest, rfl, rfl⟩
    · cases hstart
    · obtain ⟨y, hy⟩ : ∃ y, (x :: rest).getLast? = some y :=
        ⟨_, List.getLast?_eq_some_getLast (List.cons_ne_nil x rest)⟩
      have hlast : (done ++ x :: rest).getLast? = some y := by
        rw [List.getLast?_append, hy]
        rfl
      have hpos : 0 < (x :: rest).countP accept :=
        List.countP_pos_iff.mpr ⟨y, List.mem_of_getLast? hy, h y hlast⟩
      rw [List.countP_append, show (start cells).idx = 0 from rfl]
      omega

end Sieve
