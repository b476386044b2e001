import Mathlib.Logic.Basic
import Mathlib.Tactic.ByContra

/-!
# Runs of a step function

A run takes actions one after the other from a state. `Each` says that every action meets a
condition in the state it is taken in, `Always` that a property holds in every state of the run.
`Always.of_each` is the rule for an invariant, and `always_iff_each` tells exactly when a
property is never lost.
-/

namespace Trace

variable {σ α : Type} (step : σ → α → σ)

/-- Every action of the run meets the condition in the state in which it is taken. -/
def Each (C : σ → α → Prop) : σ → List α → Prop
  | _, [] => True
  | s, a :: as => C s a ∧ Each C (step s a) as

/-- The property holds in every state of the run. -/
def Always (P : σ → Prop) : σ → List α → Prop
  | s, [] => P s
  | s, a :: as => P s ∧ Always P (step s a) as

/-- The state after the run. -/
def final : σ → List α → σ
  | s, [] => s
  | s, a :: as => final (step s a) as

instance Each.decidable (C : σ → α → Prop) [∀ s a, Decidable (C s a)] :
    ∀ (s : σ) (as : List α), Decidable (Each step C s as)
  | _, [] => .isTrue trivial
  | s, a :: as =>
      have := Each.decidable C (step s a) as
      inferInstanceAs (Decidable (C s a ∧ Each step C (step s a) as))

variable {step} {P Inv : σ → Prop} {C V : σ → α → Prop} {s : σ} {as : List α}

theorem final_append (as bs : List α) :
  final step s (as ++ bs) = final step (final step s as) bs
  := by
  induction as generalizing s with
  | nil => rfl
  | cons a as ih => apply ih

theorem Always.head (h : Always step P s as) :
  P s
  := by
  cases as with
  | nil => exact h
  | cons a as => exact h.1

/-- An invariant that every allowed action keeps holds in every state. -/
theorem Always.of_each (hinv : ∀ {s}, Inv s → P s)
    (hstep : ∀ {s a}, Inv s → C s a → Inv (step s a)) (hs : Inv s) (h : Each step C s as) :
  Always step P s as
  := by
  induction as generalizing s with
  | nil => exact hinv hs
  | cons a as ih => exact ⟨hinv hs, ih (hstep hs h.1) h.2⟩

/-- An invariant that every action keeps holds in every state. -/
theorem Always.of_invariant (hinv : ∀ {s}, Inv s → P s) (hstep : ∀ {s} a, Inv s → Inv (step s a))
    (hs : Inv s) (as : List α) :
  Always step P s as
  := by
  induction as generalizing s with
  | nil => apply hinv hs
  | cons a as ih => exact ⟨hinv hs, ih (hstep a hs)⟩

/-- Among the runs of valid actions, a property holds in every state just when every action
meets the condition under which the invariant is kept, if it is lost as soon as one does not. -/
theorem always_iff_each (hinv : ∀ {s}, Inv s → P s)
    (hstep : ∀ {s a}, Inv s → V s a → C s a → Inv (step s a))
    (hlost : ∀ {s a}, Inv s → V s a → ¬ C s a → ¬ P (step s a)) (hs : Inv s)
    (hvalid : Each step V s as) :
  Always step P s as ↔ Each step C s as
  := by
  induction as generalizing s with
  | nil => exact ⟨fun _ => trivial, fun _ => hinv hs⟩
  | cons a as ih =>
      obtain ⟨ha, hrest⟩ := hvalid
      constructor
      · rintro ⟨-, hafter⟩
        have hC : C s a := by
          by_contra hC
          exact hlost hs ha hC hafter.head
        exact ⟨hC, (ih (hstep hs ha hC) hrest).mp hafter⟩
      · rintro ⟨hC, hafter⟩
        exact ⟨hinv hs, (ih (hstep hs ha hC) hrest).mpr hafter⟩

/-- Conditions that say the same of every action say the same of every run. -/
theorem each_congr {D : σ → α → Prop} (h : ∀ s a, C s a ↔ D s a) (s : σ) (as : List α) :
  Each step C s as ↔ Each step D s as
  := by
  induction as generalizing s with
  | nil => rfl
  | cons a as ih => rw [Each, Each, h, ih]

end Trace
