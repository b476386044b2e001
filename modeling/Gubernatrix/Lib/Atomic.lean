import Gubernatrix.Lib.Machine
import Mathlib.Data.List.Basic
import Mathlib.Logic.Function.Basic

/-!
# Objects that several threads call at once

`Atomic.Object` is a sequential machine that threads share: a thread calls it, at some moment
between the call and the return the machine makes its step, and the call returns what the
machine replied. A concurrent implementation takes many small steps instead, which the threads
interleave. It implements the machine when whatever calls and returns one sees of it are also
calls and returns of the atomic object, and `Refines.path` is the way to show this: every small
step is matched by steps of the atomic object.

`Path.exists_history` tells what such a path means: the machine makes its steps in one order, and
every thread gets the replies to its own calls, in the order of its calls.
-/

namespace Atomic

variable {θ σ ι ο : Type}

/-- What one sees of an object: a thread calls it, and a call returns. -/
inductive Event (θ ι ο : Type)
  | call (t : θ) (i : ι)
  | ret (t : θ) (o : ο)
  deriving DecidableEq

/-- Where the call of a thread is. -/
inductive Status (ι ο : Type)
  | idle
  | called (i : ι)
  | answered (o : ο)

/-- A sequential machine with the calls that are under way. -/
structure Object (θ σ ι ο : Type) where
  state : σ
  status : θ → Status ι ο

/-- The object when nobody calls it. -/
def Object.quiet (s : σ) : Object θ σ ι ο where
  state := s
  status _ := .idle

section Step

variable [DecidableEq θ]

/-- A step of the object: a call arrives, it takes effect, or it returns. -/
inductive Step (op : σ → ι → ο × σ) :
    Object θ σ ι ο → Option (Event θ ι ο) → Object θ σ ι ο → Prop
  | call {a : Object θ σ ι ο} {t : θ} {i : ι} (h : a.status t = .idle) :
      Step op a (some (.call t i)) { a with status := Function.update a.status t (.called i) }
  | effect {a : Object θ σ ι ο} {t : θ} {i : ι} (h : a.status t = .called i) :
      Step op a none ⟨(op a.state i).2, Function.update a.status t (.answered (op a.state i).1)⟩
  | ret {a : Object θ σ ι ο} {t : θ} {o : ο} (h : a.status t = .answered o) :
      Step op a (some (.ret t o)) { a with status := Function.update a.status t .idle }

end Step

/-- Steps one after the other, with what one sees of them. -/
inductive Path {γ ε : Type} (step : γ → Option ε → γ → Prop) : γ → List ε → γ → Prop
  | nil (s : γ) : Path step s [] s
  | cons {s s' s'' : γ} {e : Option ε} {es : List ε} (h : step s e s')
      (hrest : Path step s' es s'') :
      Path step s (e.toList ++ es) s''

namespace Path

variable {γ ε : Type} {step : γ → Option ε → γ → Prop} {s s' s'' : γ} {es fs : List ε}

theorem append (h : Path step s es s') (h' : Path step s' fs s'') :
  Path step s (es ++ fs) s''
  := by
  induction h with
  | nil s => exact h'
  | cons hstep _ ih =>
      rw [List.append_assoc]
      exact .cons hstep (ih h')

theorem one {e : Option ε} (h : step s e s') :
  Path step s e.toList s'
  := by
  rw [← List.append_nil e.toList]
  exact .cons h (.nil s')

end Path

/-! ### Implementations -/

section Refines

variable [DecidableEq θ] {γ α : Type} (next : γ → α → Option (Event θ ι ο) × γ)

/-- What one sees of an implementation that takes the given steps. -/
def events : γ → List α → List (Event θ ι ο)
  | _, [] => []
  | c, a :: as => (next c a).1.toList ++ events (next c a).2 as

/-- The implementation after the given steps. -/
def final : γ → List α → γ
  | c, [] => c
  | c, a :: as => final (next c a).2 as

/-- Every step of the implementation is matched by steps of the atomic object that one sees the
same of. -/
def Refines (op : σ → ι → ο × σ) (R : γ → Object θ σ ι ο → Prop) : Prop :=
  ∀ c a, R c a → ∀ x, ∃ a', Path (Step op) a (next c x).1.toList a' ∧ R (next c x).2 a'

variable {next} {op : σ → ι → ο × σ} {R : γ → Object θ σ ι ο → Prop}

/-- What one sees of a refining implementation is a path of the atomic object. -/
theorem Refines.path (h : Refines next op R) {c : γ} {a : Object θ σ ι ο} (hR : R c a)
    (xs : List α) :
  ∃ a', Path (Step op) a (events next c xs) a' ∧ R (final next c xs) a'
  := by
  induction xs generalizing c a with
  | nil => exact ⟨a, .nil a, hR⟩
  | cons x xs ih =>
      obtain ⟨a', hpath, hR'⟩ := h c a hR x
      obtain ⟨a'', hpaths, hR''⟩ := ih hR'
      exact ⟨a'', hpath.append hpaths, hR''⟩

end Refines

/-! ### The order of the effects -/

section History

variable [DecidableEq θ]

/-- A call that took effect: who made it, what was asked and what was replied. -/
structure Effect (θ ι ο : Type) where
  thread : θ
  input : ι
  output : ο

/-- The calls that a thread is seen to make. -/
def callsOf (t : θ) (es : List (Event θ ι ο)) : List ι :=
  es.filterMap fun
    | .call t' i => if t' = t then some i else none
    | .ret _ _ => none

/-- The replies that a thread is seen to get. -/
def repliesOf (t : θ) (es : List (Event θ ι ο)) : List ο :=
  es.filterMap fun
    | .call _ _ => none
    | .ret t' o => if t' = t then some o else none

/-- The effects of the calls of a thread. -/
def effectsOf (t : θ) (h : List (Effect θ ι ο)) : List (Effect θ ι ο) :=
  h.filter (·.thread = t)

/-- The call that has not taken effect so far. -/
def Status.waiting : Status ι ο → List ι
  | .called i => [i]
  | _ => []

/-- The reply that has not been returned so far. -/
def Status.pending : Status ι ο → List ο
  | .answered o => [o]
  | _ => []

/-- `h` are the effects between `a` and `a'`: the machine makes its steps in that order, and
every thread has its calls answered in the order in which it makes them. -/
structure History (op : σ → ι → ο × σ) (a a' : Object θ σ ι ο) (es : List (Event θ ι ο))
    (h : List (Effect θ ι ο)) : Prop where
  run : Machine.run op a.state (h.map (·.input)) = (h.map (·.output), a'.state)
  calls : ∀ t, (a.status t).waiting ++ callsOf t es
    = (effectsOf t h).map (·.input) ++ (a'.status t).waiting
  replies : ∀ t, repliesOf t es ++ (a'.status t).pending
    = (a.status t).pending ++ (effectsOf t h).map (·.output)

variable {op : σ → ι → ο × σ} {a a' : Object θ σ ι ο} {es : List (Event θ ι ο)}

/-- A path of the atomic object is a history of effects. -/
theorem Path.exists_history (hpath : Path (Step op) a es a') :
  ∃ h, History op a a' es h
  := by
  induction hpath with
  | nil a =>
      refine ⟨[], rfl, fun t => ?_, fun t => ?_⟩
      · simp [callsOf, effectsOf]
      · simp [repliesOf, effectsOf]
  | @cons a b a' e es hstep _ ih =>
      obtain ⟨h, hrun, hcalls, hreplies⟩ := ih
      cases hstep with
      | @call t i hidle =>
          refine ⟨h, hrun, fun t' => ?_, fun t' => ?_⟩
          · have := hcalls t'
            by_cases ht : t = t' <;>
              grind [callsOf, Status.waiting, Function.update_apply, Option.toList]
          · have := hreplies t'
            by_cases ht : t = t' <;>
              grind [repliesOf, Status.pending, Function.update_apply, Option.toList]
      | @effect t i hcalled =>
          refine ⟨⟨t, i, (op a.state i).1⟩ :: h, ?_, fun t' => ?_, fun t' => ?_⟩
          · simp [Machine.run, hrun]
          · have := hcalls t'
            by_cases ht : t = t' <;>
              grind [effectsOf, Status.waiting, Function.update_apply, Option.toList]
          · have := hreplies t'
            by_cases ht : t = t' <;>
              grind [effectsOf, Status.pending, Function.update_apply, Option.toList]
      | @ret t o hanswered =>
          refine ⟨h, hrun, fun t' => ?_, fun t' => ?_⟩
          · have := hcalls t'
            by_cases ht : t = t' <;>
              grind [callsOf, Status.waiting, Function.update_apply, Option.toList]
          · have := hreplies t'
            by_cases ht : t = t' <;>
              grind [repliesOf, Status.pending, Function.update_apply, Option.toList]

end History

end Atomic
