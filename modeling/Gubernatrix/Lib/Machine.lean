import Mathlib.Data.List.Basic

/-!
# Machines that reply

A machine replies to each input and goes to its next state. `Simulates R step step'` says that two
machines give the same replies in states that `R` relates, and that `R` is kept; then they give
the same replies to every sequence of inputs.
-/

namespace Machine

variable {σ τ ι ο : Type} (step : σ → ι → ο × σ) (step' : τ → ι → ο × τ)

/-- The replies to the inputs, one after the other, and the state after them. -/
def run : σ → List ι → List ο × σ
  | s, [] => ([], s)
  | s, a :: as =>
      let next := step s a
      let rest := run next.2 as
      (next.1 :: rest.1, rest.2)

/-- States related by `R` give the same reply, and `R` relates the states after it. -/
def Simulates (R : σ → τ → Prop) : Prop :=
  ∀ s t, R s t → ∀ a, (step s a).1 = (step' t a).1 ∧ R (step s a).2 (step' t a).2

variable {step step'} {R : σ → τ → Prop}

theorem Simulates.run (h : Simulates step step' R) {s : σ} {t : τ} (hR : R s t) (as : List ι) :
  (run step s as).1 = (run step' t as).1 ∧ R (run step s as).2 (run step' t as).2
  := by
  induction as generalizing s t with
  | nil => use rfl, hR
  | cons a as ih =>
      obtain ⟨hreply, hnext⟩ := h s t hR a
      obtain ⟨hreplies, hlast⟩ := ih hnext
      rw [Machine.run, Machine.run]
      use by rw [hreply, hreplies], hlast

end Machine
