import Gubernatrix.Lib.Trace
import Mathlib.Logic.Function.Basic
import Mathlib.Data.List.Basic

/-!
# Reentry of the interrupt lock

The functions that take `interrupt_alloc_lock`, on any number of cores. A core is a stack of
activations: a function that is called, or `idt_mainhandler` when an interrupt is taken, runs on
top of what it interrupts. They turn interrupts off before they take the lock, but
`idt_mainhandler` keeps the lock while it runs the registered handlers.
-/

namespace Reentry

open Trace

/-- The functions that may be called. -/
inductive Api where
  | interruptRegisterhandler
  | interruptUnregisterhandler
  | interruptAllocate
deriving DecidableEq

/-- The functions that take the lock. `idt_mainhandler` comes with the interrupt flag in the
`rflags` of its frame. -/
inductive Func where
  | api (f : Api)
  | idtMainhandler (rflags : Bool)

/-- How far a function has come: before `cli`, at `local_spinlock_lock`, between it and
`local_spinlock_unlock`, before `sti`, after it. -/
inductive Pc where
  | entered
  | locking
  | holding
  | unlocked
  | done
deriving DecidableEq

/-- What runs on a core: a function that takes the lock, with its variable `state`, or a
registered handler. -/
inductive Activation where
  | running (f : Func) (pc : Pc) (state : Bool)
  | handler

/-- The activations on a core, the one that runs first, on top of the code of the kernel; and the
interrupt flag. -/
structure Core where
  stack : List Activation
  intr : Bool

/-- What a core does next. -/
inductive Move where
  /-- A function is called. -/
  | call (f : Api)
  /-- A hardware interrupt is taken. -/
  | interrupt
  /-- An exception is taken. -/
  | exception
  /-- `state = cli()`. -/
  | cli
  /-- `local_spinlock_lock` tries to take the lock. -/
  | lock
  /-- `idt_mainhandler` runs a registered handler. -/
  | handle
  /-- `local_spinlock_unlock`. -/
  | unlock
  /-- `sti(state)`. -/
  | sti
  /-- The function returns. -/
  | ret
  /-- Other code sets the interrupt flag. -/
  | flag (intr : Bool)

/-- The core after it has entered `idt_mainhandler`, through an interrupt gate. -/
def Core.enter (k : Core) : Core where
  stack := .running (.idtMainhandler k.intr) .entered false :: k.stack
  intr := false

/-- The core after a function is called. -/
def Core.call (k : Core) (f : Api) : Core :=
  { k with stack := .running (.api f) .entered false :: k.stack }

/-- What a move makes of a core and of the lock, if the core can do it. -/
def Core.move (k : Core) (lock : Bool) : Move → Option (Core × Bool)
  | .call f =>
      match k.stack with
      | [] | .handler :: _ => some (k.call f, lock)
      -- `interrupt_allocate` tries the vectors that the caller names first
      | .running (.api .interruptAllocate) .entered _ :: _ =>
          if f = .interruptAllocate then some (k.call f, lock) else none
      | _ => none
  | .interrupt => if k.intr then some (k.enter, lock) else none
  | .exception => some (k.enter, lock)
  | .cli =>
      match k.stack with
      | .running f .entered _ :: stack =>
          some ({ stack := .running f .locking k.intr :: stack, intr := false }, lock)
      | _ => none
  | .lock =>
      match k.stack with
      | .running f .locking state :: stack =>
          if lock then some (k, lock)
          else some ({ k with stack := .running f .holding state :: stack }, true)
      | _ => none
  | .handle =>
      match k.stack with
      | .running (.idtMainhandler _) .holding _ :: _ =>
          some ({ k with stack := .handler :: k.stack }, lock)
      | _ => none
  | .unlock =>
      match k.stack with
      | .running f .holding state :: stack =>
          some ({ k with stack := .running f .unlocked state :: stack }, false)
      | _ => none
  | .sti =>
      match k.stack with
      | .running f .unlocked state :: stack =>
          some ({ stack := .running f .done state :: stack, intr := k.intr || state }, lock)
      | _ => none
  | .ret =>
      match k.stack with
      | .handler :: stack => some ({ k with stack := stack }, lock)
      | .running (.api _) .done _ :: stack => some ({ k with stack := stack }, lock)
      -- the vectors that the caller names were granted
      | .running (.api .interruptAllocate) .entered _ :: stack =>
          some ({ k with stack := stack }, lock)
      | .running (.idtMainhandler rflags) .done _ :: stack =>
          some ({ stack := stack, intr := rflags }, lock)
      | _ => none
  | .flag intr =>
      match k.stack with
      | [] | .handler :: _ => some ({ k with intr := intr }, lock)
      | _ => none

/-! ### Runs -/

section Runs

variable {ι : Type} [DecidableEq ι]

/-- The cores, and `interrupt_alloc_lock`. -/
structure World (ι : Type) where
  cores : ι → Core
  lock : Bool

/-- A core makes a move. -/
structure Act (ι : Type) where
  core : ι
  move : Move

/-- The state after a move. -/
def step (w : World ι) (a : Act ι) : World ι :=
  match (w.cores a.core).move w.lock a.move with
  | some (k, lock) => { cores := Function.update w.cores a.core k, lock := lock }
  | none => w

/-- The state in which nothing runs but the code of the kernel. -/
def init : World ι where
  cores _ := { stack := [], intr := false }
  lock := false

/-- The core can make the move. -/
def Valid (w : World ι) (a : Act ι) : Prop :=
  ((w.cores a.core).move w.lock a.move).isSome

instance (w : World ι) (a : Act ι) : Decidable (Valid w a) :=
  inferInstanceAs (Decidable (_ = true))

/-- The activation is at `local_spinlock_lock`. -/
def Activation.Locking : Activation → Prop
  | running _ pc _ => pc = .locking
  | handler => False

/-- The activation has the lock. -/
def Activation.Holding : Activation → Prop
  | running _ pc _ => pc = .holding
  | handler => False

/-- No activation on the stack has the lock. -/
def Unheld (stack : List Activation) : Prop := ∀ a ∈ stack, ¬ a.Holding

/-- No core is at `local_spinlock_lock` while an activation below has the lock. -/
def NoDeadlock (w : World ι) : Prop :=
  ∀ i a below, (w.cores i).stack = a :: below → a.Locking → Unheld below

/-- A registered handler runs on the core. -/
def Core.Handles (k : Core) : Prop := k.stack.head? = some .handler

/-- The move is none by which the lock can be entered again: a registered handler neither calls
one of the functions nor turns interrupts on, and no exception is taken while the core has the
lock. -/
def Core.Calm (k : Core) : Move → Prop
  | .call _ => ¬ k.Handles
  | .exception => Unheld k.stack
  | .flag intr => intr = true → ¬ k.Handles
  | _ => True

/-- The condition in a state of all cores. -/
def Calm (w : World ι) (a : Act ι) : Prop := (w.cores a.core).Calm a.move

end Runs

/-! ### The invariant -/

/-- A function that is between `cli` and `sti`. -/
def Pc.Critical : Pc → Prop
  | .locking | .holding | .unlocked => True
  | .entered | .done => False

/-- With the interrupt flag as it is, or will be when the activations above have returned: a
function that is between `cli` and `sti` has interrupts off, a function was called and not
interrupted while nobody below has the lock, and a handler runs on top of `idt_mainhandler`,
which has it. -/
def Safe : Bool → List Activation → Prop
  | _, [] => True
  | intr, .running (.api _) pc _ :: stack =>
      (pc.Critical → intr = false) ∧ Unheld stack ∧ ∀ intr, Safe intr stack
  | intr, .running (.idtMainhandler rflags) _ state :: stack =>
      intr = false ∧ state = false ∧ Unheld stack ∧ Safe rflags stack
  | intr, .handler :: stack =>
      intr = false ∧ Safe false stack
        ∧ ∃ rflags state below, stack = .running (.idtMainhandler rflags) .holding state :: below

section Safe

variable {intr lock lock' : Bool} {stack : List Activation} {k k' : Core}

theorem unheld_nil :
  Unheld []
  := fun _ h => absurd h List.not_mem_nil

theorem unheld_cons {a : Activation} :
  Unheld (a :: stack) ↔ ¬ a.Holding ∧ Unheld stack
  := List.forall_mem_cons

/-- With interrupts on, the core does not have the lock. -/
theorem Safe.unheld (h : Safe true stack) :
  Unheld stack
  := by
  rcases stack with _ | ⟨⟨f | rflags, pc, state⟩ | _, stack⟩
  · exact unheld_nil
  · obtain ⟨hcritical, hbelow, -⟩ := h
    refine unheld_cons.mpr ⟨?_, hbelow⟩
    rintro rfl
    exact absurd (hcritical trivial) (by decide)
  · exact absurd h.1 (by decide)
  · exact absurd h.1 (by decide)

theorem Safe.enter (h : Safe k.intr k.stack) (hunheld : Unheld k.stack) :
  Safe k.enter.intr k.enter.stack
  := ⟨rfl, rfl, hunheld, h⟩

/-- Where a function was called from, every interrupt flag will do. -/
theorem Safe.call {f : Api} (h : ∀ intr, Safe intr stack) (hunheld : Unheld stack) :
  Safe intr (.running (.api f) .entered false :: stack)
  := ⟨fun hcritical => hcritical.elim, hunheld, h⟩

theorem Safe.cli {f : Func} {state : Bool} (h : Safe intr (.running f .entered state :: stack)) :
  Safe false (.running f .locking intr :: stack)
  := by
  cases f with
  | api f => exact ⟨fun _ => rfl, h.2⟩
  | idtMainhandler rflags =>
      obtain ⟨hintr, -, hbelow⟩ := h
      exact ⟨rfl, hintr, hbelow⟩

/-- Between `cli` and `sti`. -/
theorem Safe.goto {f : Func} {pc pc' : Pc} {state : Bool} (hpc : pc.Critical)
    (h : Safe intr (.running f pc state :: stack)) :
  Safe intr (.running f pc' state :: stack)
  := by
  cases f with
  | api f => exact ⟨fun _ => h.1 hpc, h.2⟩
  | idtMainhandler rflags => exact h

theorem Safe.handle {rflags state : Bool}
    (h : Safe intr (.running (.idtMainhandler rflags) .holding state :: stack)) :
  Safe intr (.handler :: .running (.idtMainhandler rflags) .holding state :: stack)
  := by
  obtain rfl : intr = false := h.1
  exact ⟨rfl, h, rflags, state, stack, rfl⟩

theorem Safe.sti {f : Func} {state : Bool} (h : Safe intr (.running f .unlocked state :: stack)) :
  Safe (intr || state) (.running f .done state :: stack)
  := by
  cases f with
  | api f => exact ⟨fun hcritical => hcritical.elim, h.2⟩
  | idtMainhandler rflags =>
      obtain ⟨rfl, rfl, hbelow⟩ := h
      exact ⟨rfl, rfl, hbelow⟩

theorem Safe.move {m : Move} (h : Safe k.intr k.stack) (hmove : k.move lock m = some (k', lock'))
    (hcalm : k.Calm m) :
  Safe k'.intr k'.stack
  := by
  obtain ⟨stack, intr⟩ := k
  simp only at h
  cases m with
  | call f =>
      simp only [Core.move] at hmove
      split at hmove
      case h_1 =>
        obtain ⟨rfl, -⟩ := hmove
        exact Safe.call (fun _ => trivial) unheld_nil
      case h_2 => exact absurd rfl hcalm
      case h_3 =>
        split at hmove
        · obtain ⟨rfl, -⟩ := hmove
          obtain ⟨-, hunheld, hbelow⟩ := h
          exact Safe.call (fun _ => ⟨fun hcritical => hcritical.elim, hunheld, hbelow⟩)
            (unheld_cons.mpr ⟨by simp [Activation.Holding], hunheld⟩)
        · cases hmove
      case h_4 => cases hmove
  | interrupt =>
      simp only [Core.move] at hmove
      split at hmove
      case isTrue hintr =>
        obtain ⟨rfl, -⟩ := hmove
        subst hintr
        exact Safe.enter h h.unheld
      case isFalse => cases hmove
  | exception =>
      obtain ⟨rfl, -⟩ := hmove
      exact Safe.enter h hcalm
  | cli =>
      simp only [Core.move] at hmove
      split at hmove
      · obtain ⟨rfl, -⟩ := hmove
        exact h.cli
      · cases hmove
  | lock =>
      simp only [Core.move] at hmove
      split at hmove
      · split at hmove
        · obtain ⟨rfl, -⟩ := hmove
          exact h
        · obtain ⟨rfl, -⟩ := hmove
          exact h.goto (show Pc.Critical .locking from trivial)
      · cases hmove
  | handle =>
      simp only [Core.move] at hmove
      split at hmove
      · obtain ⟨rfl, -⟩ := hmove
        exact h.handle
      · cases hmove
  | unlock =>
      simp only [Core.move] at hmove
      split at hmove
      · obtain ⟨rfl, -⟩ := hmove
        exact h.goto (show Pc.Critical .holding from trivial)
      · cases hmove
  | sti =>
      simp only [Core.move] at hmove
      split at hmove
      · obtain ⟨rfl, -⟩ := hmove
        exact h.sti
      · cases hmove
  | ret =>
      simp only [Core.move] at hmove
      split at hmove
      case h_1 =>
        obtain ⟨rfl, -⟩ := hmove
        obtain ⟨rfl, hbelow, -⟩ := h
        exact hbelow
      case h_2 =>
        obtain ⟨rfl, -⟩ := hmove
        exact h.2.2 intr
      case h_3 =>
        obtain ⟨rfl, -⟩ := hmove
        exact h.2.2 intr
      case h_4 =>
        obtain ⟨rfl, -⟩ := hmove
        exact h.2.2.2
      case h_5 => cases hmove
  | flag b =>
      simp only [Core.move] at hmove
      split at hmove
      case h_1 =>
        obtain ⟨rfl, -⟩ := hmove
        exact trivial
      case h_2 =>
        obtain ⟨rfl, -⟩ := hmove
        cases b with
        | true => exact absurd rfl (hcalm rfl)
        | false => exact ⟨rfl, h.2⟩
      case h_3 => cases hmove

end Safe

/-! ### No deadlock -/

section Cores

variable {ι : Type} [DecidableEq ι] {w : World ι} {a : Act ι}

/-- Every core is safe. -/
def Inv (w : World ι) : Prop := ∀ i, Safe (w.cores i).intr (w.cores i).stack

omit [DecidableEq ι] in
theorem inv_init :
  Inv (init : World ι)
  := fun _ => trivial

omit [DecidableEq ι] in
theorem Inv.noDeadlock (h : Inv w) :
  NoDeadlock w
  := by
  intro i a below hstack hlocking
  have hsafe := h i
  rw [hstack] at hsafe
  rcases a with ⟨f | rflags, pc, state⟩ | _
  · exact hsafe.2.1
  · exact hsafe.2.2.1
  · exact hlocking.elim

theorem step_eq {k : Core} {lock : Bool}
    (hmove : (w.cores a.core).move w.lock a.move = some (k, lock)) :
  step w a = { cores := Function.update w.cores a.core k, lock := lock }
  := by
  rw [step, hmove]

theorem Inv.step (h : Inv w) (hcalm : Calm w a) :
  Inv (step w a)
  := by
  cases hmove : (w.cores a.core).move w.lock a.move with
  | none =>
      rw [Reentry.step, hmove]
      exact h
  | some r =>
      rw [step_eq hmove]
      intro i
      by_cases hi : i = a.core
      · subst hi
        simp only [Function.update_self]
        exact (h a.core).move hmove hcalm
      · simp only [Function.update_of_ne hi]
        exact h i

/-- In a run in which no handler calls one of the functions or turns interrupts on, and no core
takes an exception while it has the lock, no core waits for a lock that it has itself. -/
theorem noDeadlock_of_calm {acts : List (Act ι)} (hcalm : Each step Calm init acts) :
  Always step NoDeadlock init acts
  := .of_each Inv.noDeadlock Inv.step inv_init hcalm

/-- A handler runs on one core, and another core waits for the lock. -/
theorem noDeadlock_two_cores :
  Always step NoDeadlock (init : World Bool)
    [⟨true, .flag true⟩, ⟨true, .interrupt⟩, ⟨true, .cli⟩, ⟨true, .lock⟩, ⟨true, .handle⟩,
      ⟨false, .call .interruptAllocate⟩, ⟨false, .cli⟩, ⟨false, .lock⟩]
  := by
  have hempty : ¬ (none : Option Activation) = some .handler := nofun
  exact noDeadlock_of_calm
    ⟨fun _ => hempty, trivial, trivial, trivial, trivial, hempty, trivial, trivial, trivial⟩

/-- A registered handler calls `interrupt_registerhandler`. -/
theorem not_noDeadlock_handler :
  ¬ ∀ acts : List (Act Unit), Each step Valid init acts → Always step NoDeadlock init acts
  := by
  intro h
  have hrun := h [⟨(), .flag true⟩, ⟨(), .interrupt⟩, ⟨(), .cli⟩, ⟨(), .lock⟩, ⟨(), .handle⟩,
    ⟨(), .call .interruptRegisterhandler⟩, ⟨(), .cli⟩]
    ⟨rfl, rfl, rfl, rfl, rfl, rfl, rfl, trivial⟩
  obtain ⟨-, -, -, -, -, -, -, hdeadlock⟩ := hrun
  exact hdeadlock () _ _ rfl rfl (.running (.idtMainhandler true) .holding false)
    (List.mem_cons_of_mem _ (List.mem_cons_self ..)) rfl

/-- On top of an activation that has the lock, `cli` leads to it. -/
theorem not_noDeadlock_cli {i : ι} {f : Func} {state : Bool} {below : List Activation}
    (hstack : (w.cores i).stack = .running f .entered state :: below) (hheld : ¬ Unheld below) :
  Valid w ⟨i, .cli⟩ ∧ ¬ NoDeadlock (step w ⟨i, .cli⟩)
  := by
  have hmove : (w.cores i).move w.lock .cli
      = some ({ stack := .running f .locking (w.cores i).intr :: below, intr := false }, w.lock) := by
    simp only [Core.move, hstack]
  refine ⟨by rw [Valid, hmove]; rfl, ?_⟩
  rw [step_eq hmove]
  intro h
  have hlocking : Activation.Locking (.running f .locking (w.cores i).intr) := rfl
  exact hheld (h i _ below (by simp only [Function.update_self]) hlocking)

/-- A function that is entered on a core that has the lock waits for it. -/
theorem deadlock_of_entered {k : Core} {lock : Bool} {f : Func} {state : Bool}
    {below : List Activation} (hmove : (w.cores a.core).move w.lock a.move = some (k, lock))
    (hstack : k.stack = .running f .entered state :: below) (hheld : ¬ Unheld below) :
  Each step Valid w [a, ⟨a.core, .cli⟩] ∧ ¬ Always step NoDeadlock w [a, ⟨a.core, .cli⟩]
  := by
  have hentered : ((step w a).cores a.core).stack = .running f .entered state :: below := by
    rw [step_eq hmove]
    simp only [Function.update_self]
    exact hstack
  obtain ⟨hvalid, hdeadlock⟩ := not_noDeadlock_cli hentered hheld
  exact ⟨⟨by rw [Valid, hmove]; rfl, hvalid, trivial⟩, fun h => hdeadlock h.2.2⟩

/-- A handler runs while the core has the lock. -/
theorem Safe.not_unheld {intr : Bool} {stack : List Activation}
    (h : Safe intr (.handler :: stack)) :
  ¬ Unheld (.handler :: stack)
  := by
  obtain ⟨-, -, rflags, state, below, rfl⟩ := h
  exact fun hunheld => hunheld (.running (.idtMainhandler rflags) .holding state) (by simp) rfl

/-- After any other move the core can go on to wait for itself. -/
theorem deadlock_of_not_calm (h : Inv w) (hvalid : Valid w a) (hcalm : ¬ Calm w a) :
  ∃ moves : List Move, Each step Valid w (a :: moves.map (Act.mk a.core))
    ∧ ¬ Always step NoDeadlock w (a :: moves.map (Act.mk a.core))
  := by
  obtain ⟨i, m⟩ := a
  have hsafe := h i
  cases m with
  | call f =>
      obtain ⟨stack, hstack⟩ := List.head?_eq_some_iff.mp (not_not.mp hcalm)
      rw [hstack] at hsafe
      have hmove : (w.cores i).move w.lock (.call f)
          = some ((w.cores i).call f, w.lock) := by
        simp only [Core.move, hstack]
      exact ⟨[.cli], deadlock_of_entered (a := ⟨i, .call f⟩) hmove rfl
        (hstack ▸ hsafe.not_unheld)⟩
  | exception => exact ⟨[.cli], deadlock_of_entered (a := ⟨i, .exception⟩) rfl rfl hcalm⟩
  | flag b =>
      obtain ⟨rfl, hhandles⟩ : b = true ∧ (w.cores i).Handles := by
        simpa [Calm, Core.Calm] using hcalm
      obtain ⟨stack, hstack⟩ := List.head?_eq_some_iff.mp hhandles
      rw [hstack] at hsafe
      have hmove : (w.cores i).move w.lock (.flag true)
          = some ({ (w.cores i) with intr := true }, w.lock) := by
        simp only [Core.move, hstack]
      -- the handler has turned interrupts on, and a hardware interrupt follows
      have hcore : (step w ⟨i, .flag true⟩).cores i = { (w.cores i) with intr := true } := by
        rw [step_eq hmove]
        simp only [Function.update_self]
      obtain ⟨hvalid', hdeadlock⟩ := deadlock_of_entered (a := ⟨i, .interrupt⟩)
        (w := step w ⟨i, .flag true⟩) (by rw [hcore]; rfl) rfl (hstack ▸ hsafe.not_unheld)
      exact ⟨[.interrupt, .cli], ⟨hvalid, hvalid'⟩, fun hall => hdeadlock hall.2⟩
  | interrupt | cli | lock | handle | unlock | sti | ret => exact absurd trivial hcalm

end Cores

end Reentry
