import Gubernatrix.Lib.Slots
import Mathlib.Data.BitVec

/-!
# Dispatch of interrupts

The handlers of a vector are kept in a row of `interrupt_funcs`, and `idt_mainhandler` calls them in
the order of the slots. What a row holds is what has been registered for the vector since it was
last unregistered from it.
-/

namespace Dispatch

/-- An interrupt vector. -/
abbrev Vector := BitVec 8

/-- `IDT_HANDLER_CNT`. -/
def idtHandlerCnt : ℕ := 16

variable {H : Type}

/-- `interrupt_funcs`: a slot that is free holds NULL. -/
abbrev Funcs (H : Type) := Vector → Slots H idtHandlerCnt

/-- `interrupt_registerhandler`, or what it panics with. -/
def interruptRegisterhandler (funcs : Funcs H) (irq : Vector) (handler : H) :
    Except String (Funcs H) :=
  match (funcs irq).insert handler with
  | some slots => .ok (Function.update funcs irq slots)
  | none => .error "Interrupt oversubscribed!"

/-- `interrupt_unregisterhandler`. -/
def interruptUnregisterhandler [DecidableEq H] (funcs : Funcs H) (irq : Vector) (handler : H) :
    Funcs H :=
  Function.update funcs irq ((funcs irq).erase handler)

/-- What `idt_mainhandler` does: the handlers it calls, with their arguments, and then what it
panics with, or the vector whose interrupt it ends. -/
structure Handling (H : Type) where
  calls : List (H × Vector)
  panic : Option String
  eoi : Option Vector

/-- `idt_mainhandler`. -/
def idtMainhandler (funcs : Funcs H) (intNo : BitVec 64) : Handling H :=
  let intNo : Vector := intNo.setWidth 8
  let calls := (funcs intNo).filled.map fun handler => (handler, intNo)
  if calls.isEmpty then { calls := calls, panic := some "Failure!", eoi := none }
  else { calls := calls, panic := none, eoi := if 32 ≤ intNo then some intNo else none }

/-- The handlers that are called are what the row of the vector holds. -/
theorem calls_eq (funcs : Funcs H) (intNo : BitVec 64) :
  (idtMainhandler funcs intNo).calls
    = (funcs (intNo.setWidth 8)).filled.map fun handler => (handler, intNo.setWidth 8)
  := by
  rw [idtMainhandler]
  split
  · rfl
  · rfl

/-! ### Sequences of calls -/

/-- A call that changes the handlers. -/
inductive Op (H : Type) where
  | register (irq : Vector) (handler : H)
  | unregister (irq : Vector) (handler : H)
deriving DecidableEq

variable [DecidableEq H]

/-- A call. -/
def step (funcs : Funcs H) : Op H → Except String (Funcs H)
  | .register irq handler => interruptRegisterhandler funcs irq handler
  | .unregister irq handler => .ok (interruptUnregisterhandler funcs irq handler)

/-- The calls one after the other, from when no handler is registered. -/
def run (ops : List (Op H)) : Except String (Funcs H) :=
  ops.foldlM step fun _ => .empty H idtHandlerCnt

/-- How often the handler has been registered for the vector since it was last unregistered from
it. -/
def registrations (v : Vector) (handler : H) (ops : List (Op H)) : ℕ :=
  (ops.reverse.takeWhile (· ≠ .unregister v handler)).count (.register v handler)

/-- The registrations for the vector that are live after a call. -/
def liveStep (v : Vector) (live : Multiset H) : Op H → Multiset H
  | .register irq handler => if irq = v then handler ::ₘ live else live
  | .unregister irq handler => if irq = v then live.filter (· ≠ handler) else live

/-- The registrations for the vector that are live. -/
def live (v : Vector) (ops : List (Op H)) : Multiset H := ops.foldl (liveStep v) 0

/-- Each handler is called as often as it is registered for the vector, with the vector, and no
other handler is called. A registration panics just when 16 are live. -/
structure Dispatches (ops : List (Op H)) (funcs : Funcs H) : Prop where
  calls : ∀ intNo handler, (idtMainhandler funcs intNo).calls.count (handler, intNo.setWidth 8)
    = registrations (intNo.setWidth 8) handler ops
  vector : ∀ intNo, ∀ call ∈ (idtMainhandler funcs intNo).calls, call.2 = intNo.setWidth 8
  panics : ∀ irq handler, interruptRegisterhandler funcs irq handler
      = .error "Interrupt oversubscribed!" ↔ (live irq ops).card = idtHandlerCnt

section Runs

variable {ops : List (Op H)} {funcs funcs' : Funcs H}

theorem live_concat (v : Vector) (ops : List (Op H)) (op : Op H) :
  live v (ops ++ [op]) = liveStep v (live v ops) op
  := by
  rw [live, List.foldl_append]
  rfl

theorem registrations_concat (v : Vector) (handler : H) (ops : List (Op H)) (op : Op H) :
  registrations v handler (ops ++ [op])
    = if op = .unregister v handler then 0
      else if op = .register v handler then registrations v handler ops + 1
      else registrations v handler ops
  := by
  rw [registrations, List.reverse_concat, List.takeWhile_cons]
  by_cases hun : op = .unregister v handler
  · rw [if_pos hun, if_neg (by simpa using hun), List.count_nil]
  · rw [if_neg hun, if_pos (by simpa using hun), List.count_cons]
    by_cases hreg : op = .register v handler
    · rw [if_pos hreg, if_pos (by simpa using hreg)]
      rfl
    · rw [if_neg hreg, if_neg (by simpa using hreg)]
      rfl

/-- A handler is live as often as it has been registered since it was last unregistered. -/
theorem count_live (v : Vector) (handler : H) (ops : List (Op H)) :
  (live v ops).count handler = registrations v handler ops
  := by
  induction ops using List.reverseRecOn with
  | nil => rfl
  | append_singleton ops op ih =>
      rw [live_concat, registrations_concat, ← ih]
      cases op with
      | register irq other =>
          rw [if_neg (by simp), liveStep]
          by_cases hirq : irq = v
          · rw [if_pos hirq, Multiset.count_cons]
            by_cases hother : other = handler
            · rw [if_pos hother.symm, if_pos (by rw [hirq, hother])]
            · rw [if_neg (Ne.symm hother), if_neg (by simp [hother]), Nat.add_zero]
          · rw [if_neg hirq, if_neg (by simp [hirq])]
      | unregister irq other =>
          rw [liveStep]
          by_cases hirq : irq = v
          · rw [if_pos hirq, Multiset.count_filter]
            by_cases hother : other = handler
            · rw [if_neg (not_not.mpr hother.symm), if_pos (by rw [hirq, hother])]
            · rw [if_pos (Ne.symm hother), if_neg (by simp [hother]), if_neg (by simp)]
          · rw [if_neg hirq, if_neg (by simp [hirq]), if_neg (by simp)]

/-- A call changes what the rows hold as it changes what is live. -/
theorem step_contents {op : Op H} (h : step funcs op = .ok funcs') (v : Vector) :
  (funcs' v).contents = liveStep v (funcs v).contents op
  := by
  cases op with
  | register irq handler =>
      rw [step, interruptRegisterhandler] at h
      split at h
      next slots hslots =>
        cases h
        rw [liveStep]
        by_cases hirq : irq = v
        · rw [if_pos hirq, ← hirq, Function.update_self, Slots.contents_insert hslots]
        · rw [if_neg hirq, Function.update_of_ne (Ne.symm hirq)]
      next => cases h
  | unregister irq handler =>
      cases h
      rw [interruptUnregisterhandler, liveStep]
      by_cases hirq : irq = v
      · rw [if_pos hirq, hirq, Function.update_self, Slots.contents_erase]
      · rw [if_neg hirq, Function.update_of_ne (Ne.symm hirq)]

/-- The rows hold what is live. -/
theorem run_contents (h : run ops = .ok funcs) (v : Vector) :
  (funcs v).contents = live v ops
  := by
  induction ops using List.reverseRecOn generalizing funcs with
  | nil =>
      cases h
      apply Slots.contents_empty
  | append_singleton ops op ih =>
      rw [run, List.foldlM_append] at h
      cases hops : run ops with
      | error msg =>
          rw [run] at hops
          rw [hops] at h
          cases h
      | ok before =>
          rw [live_concat, ← ih hops]
          rw [run] at hops
          rw [hops] at h
          apply step_contents
          rw [← h]
          exact (bind_pure (step before op)).symm

end Runs

/-- In every sequence of registrations and unregistrations, `idt_mainhandler` calls the handlers
that are registered, and a row has room for 16 of them. -/
theorem dispatches_run {ops : List (Op H)} {funcs : Funcs H} (h : run ops = .ok funcs) :
  Dispatches ops funcs
  := by
  constructor
  · intro intNo handler
    have hinjective :
        Function.Injective fun handler : H => (handler, (intNo.setWidth 8 : Vector)) :=
      fun _ _ heq => (Prod.mk.inj heq).1
    rw [calls_eq, List.count_map_of_injective _ _ hinjective, ← count_live, ← run_contents h,
      Slots.contents, Multiset.coe_count]
  · intro intNo call hcall
    rw [calls_eq] at hcall
    obtain ⟨handler, -, rfl⟩ := List.mem_map.mp hcall
    rfl
  · intro irq handler
    rw [← run_contents h, ← Slots.insert_eq_none_iff (a := handler),
      interruptRegisterhandler]
    split
    next slots hslots => simp [hslots]
    next hslots => simp [hslots]

/-- Two handlers for the keyboard, one of them twice, and one unregistered again. -/
def keyboard : List (Op ℕ) :=
  [.register 0x21 1, .register 0x21 2, .register 0x21 1, .unregister 0x21 2]

theorem dispatches_keyboard :
  ∃ funcs, run keyboard = .ok funcs ∧ Dispatches keyboard funcs
  := ⟨_, rfl, dispatches_run rfl⟩

end Dispatch
