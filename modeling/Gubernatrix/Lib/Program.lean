import Mathlib.Logic.Function.Basic
import Mathlib.Order.Defs.Unbundled

/-!
# Programs that may stop

`Program σ α` is the type of programs over a state `σ` which either return a value of `α`
or stop: with the message of a panic, or with a fault, an access outside the objects of the
model. A stopped program still has a state, the one it stopped in.

The rules of this module read a program apart at its binds: `bind_eq_ok` for the runs that
return, and `Along` for what holds between the states before and after any run.
-/

namespace Program

/-- How a program stops short of returning. -/
inductive Trap where
  | panic (msg : String)
  | fault
deriving DecidableEq

end Program

/-- The programs over the state `σ` with values in `α`. -/
abbrev Program (σ α : Type) := EStateM Program.Trap σ α

namespace Program

variable {σ α β : Type}

/-- The state a run ends in, whether it returned or stopped. -/
def finalState : EStateM.Result Trap σ α → σ
  | .ok _ s => s
  | .error _ s => s

@[simp]
theorem finalState_ok (a : α) (s : σ) :
  finalState (.ok a s : EStateM.Result Trap σ α) = s
  := rfl

@[simp]
theorem finalState_error (e : Trap) (s : σ) :
  finalState (.error e s : EStateM.Result Trap σ α) = s
  := rfl

/-! ### Reading a program apart -/

@[simp]
theorem pure_apply (a : α) (s : σ) :
  (pure a : Program σ α) s = .ok a s
  := rfl

@[simp]
theorem throw_apply (e : Trap) (s : σ) :
  (throw e : Program σ α) s = .error e s
  := rfl

@[simp]
theorem get_apply (s : σ) :
  (get : Program σ σ) s = .ok s s
  := rfl

@[simp]
theorem set_apply (s s' : σ) :
  (set s' : Program σ PUnit) s = .ok ⟨⟩ s'
  := rfl

@[simp]
theorem modify_apply (f : σ → σ) (s : σ) :
  (modify f : Program σ PUnit) s = .ok ⟨⟩ (f s)
  := rfl

theorem bind_apply (x : Program σ α) (f : α → Program σ β) (s : σ) :
  (x >>= f) s = match x s with
    | .ok a s' => f a s'
    | .error e s' => .error e s'
  := by
  change EStateM.bind x f s = _
  rw [EStateM.bind]
  cases x s with
  | ok a s' => rfl
  | error e s' => rfl

theorem bind_of_ok {x : Program σ α} {s s' : σ} {a : α} (h : x s = .ok a s')
    (f : α → Program σ β) :
  (x >>= f) s = f a s'
  := by
  rw [bind_apply, h]

theorem bind_of_error {x : Program σ α} {s s' : σ} {e : Trap} (h : x s = .error e s')
    (f : α → Program σ β) :
  (x >>= f) s = .error e s'
  := by
  rw [bind_apply, h]

/-- A sequence returns when its first part does and its second part returns from there. -/
theorem bind_eq_ok {x : Program σ α} {f : α → Program σ β} {s s'' : σ} {b : β} :
  (x >>= f) s = .ok b s'' ↔ ∃ a s', x s = .ok a s' ∧ f a s' = .ok b s''
  := by
  rw [bind_apply]
  cases x s with
  | ok a s' => simp [and_assoc]
  | error e s' => simp

/-! ### Runs on given states -/

/-- The run returned, with a value and a state in `P`. -/
def Returns (P : α → σ → Prop) : EStateM.Result Trap σ α → Prop
  | .ok a s => P a s
  | .error _ _ => False

instance Returns.decidable {P : α → σ → Prop} [∀ a s, Decidable (P a s)] :
    ∀ r : EStateM.Result Trap σ α, Decidable (Returns P r)
  | .ok a s => inferInstanceAs (Decidable (P a s))
  | .error _ _ => .isFalse id

theorem exists_of_returns (P : α → σ → Prop) (r : EStateM.Result Trap σ α) (h : Returns P r) :
  ∃ a s, r = .ok a s ∧ P a s
  := by
  cases r with
  | ok a s => exact ⟨a, s, rfl, h⟩
  | error e s => exact h.elim

/-- The run stopped, with a trap and a state in `P`. -/
def Stops (P : Trap → σ → Prop) : EStateM.Result Trap σ α → Prop
  | .ok _ _ => False
  | .error e s => P e s

instance Stops.decidable {P : Trap → σ → Prop} [∀ e s, Decidable (P e s)] :
    ∀ r : EStateM.Result Trap σ α, Decidable (Stops P r)
  | .ok _ _ => .isFalse id
  | .error e s => inferInstanceAs (Decidable (P e s))

theorem exists_of_stops (P : Trap → σ → Prop) (r : EStateM.Result Trap σ α) (h : Stops P r) :
  ∃ e s, r = .error e s ∧ P e s
  := by
  cases r with
  | ok a s => exact h.elim
  | error e s => exact ⟨e, s, rfl, h⟩

/-! ### What holds along every run -/

/-- `Along R x`: whatever run of `x` is taken, from a state `s` to the state it ends in, the
two are related by `R`. -/
def Along (R : σ → σ → Prop) (x : Program σ α) : Prop :=
  ∀ s, R s (finalState (x s))

section Along

variable {R : σ → σ → Prop}

theorem Along.mono {R' : σ → σ → Prop} {x : Program σ α} (h : Along R x)
    (hR : ∀ s s', R s s' → R' s s') :
  Along R' x
  := fun s => hR _ _ (h s)

theorem Along.pure [Std.Refl R] (a : α) :
  Along R (pure a : Program σ α)
  := fun s => Std.Refl.refl s

theorem Along.throw [Std.Refl R] (e : Trap) :
  Along R (throw e : Program σ α)
  := fun s => Std.Refl.refl s

theorem Along.get [Std.Refl R] :
  Along R (get : Program σ σ)
  := fun s => Std.Refl.refl s

theorem Along.modify {f : σ → σ} (h : ∀ s, R s (f s)) :
  Along R (modify f : Program σ PUnit)
  := h

theorem Along.bind [IsTrans σ R] {x : Program σ α} {f : α → Program σ β}
    (hx : Along R x) (hf : ∀ a, Along R (f a)) :
  Along R (x >>= f)
  := by
  intro s
  have hs := hx s
  rw [bind_apply]
  cases h : x s with
  | ok a s' =>
      rw [h] at hs
      apply IsTrans.trans _ _ _ hs (hf a s')
  | error e s' =>
      rw [h] at hs
      apply hs

theorem Along.ite {p : Prop} [Decidable p] {x y : Program σ α}
    (hx : Along R x) (hy : Along R y) :
  Along R (if p then x else y)
  := by
  split
  · apply hx
  · apply hy

end Along

end Program
