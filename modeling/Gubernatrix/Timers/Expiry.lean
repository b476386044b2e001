import Gubernatrix.Lib.Machine
import Gubernatrix.Lib.Trace
import Gubernatrix.Timers.Hpet
import Mathlib.Data.List.Perm.Basic
import Mathlib.Data.List.Range

/-!
# Interrupts of the HPET

The timers of the HPET share an interrupt vector. `hpet_timer_handler` does not ask which timer
has expired, and calls the handlers of all that are enabled.
-/

namespace Hpet

open Machine Trace
open Timers (Handler)

variable {H : Type}

/-! ### Events -/

/-- What may happen: a handler is installed, a timer is enabled or disabled, or expires. -/
inductive Event (H : Type) where
  | setHandler (i : ℕ) (handler : Option (Handler H))
  | setEnable (i : ℕ) (enable : Bool)
  | expiry (i : ℕ)
deriving DecidableEq

/-- The device raises an interrupt when the timer expires. -/
def Driver.Raises (d : Driver H) (i : ℕ) : Prop :=
  i ≤ d.hpet.timerCount.toNat ∧ (d.hpet.timers i).configuration.interruptEnable = true

instance (d : Driver H) (i : ℕ) : Decidable (d.Raises i) :=
  inferInstanceAs (Decidable (_ ∧ _))

/-- The calls of handlers at an event, with their timers, and the state after it. -/
def step (d : Driver H) : Event H → List (ℕ × Handler H) × Driver H
  | .setHandler i handler => ([], hpetTimerSethandler d i handler)
  | .setEnable i enable => ([], hpetTimerSetenable d i enable)
  | .expiry i => if d.Raises i then hpetTimerHandler d else ([], d)

/-- The call that is due at an event: when a timer expires while it is enabled, its handler. -/
def due (d : Driver H) : Event H → List (ℕ × Handler H)
  | .expiry i =>
      if i ≤ d.hpet.timerCount.toNat ∧ (d.timers i).enabled then
        (d.timers i).curHandler.toList.map (i, ·)
      else []
  | _ => []

/-- The calls of handlers in a run. -/
def calls (d : Driver H) (es : List (Event H)) : List (ℕ × Handler H) := (run step d es).1.flatten

/-- The calls that are due in a run. -/
def dues (d : Driver H) (es : List (Event H)) : List (ℕ × Handler H) :=
  (run (fun d e => (due d e, (step d e).2)) d es).1.flatten

/-- Every handler of a timer is called as often as the timer expires while it is enabled with the
handler. -/
def Attributes [DecidableEq H] (d : Driver H) (es : List (Event H)) : Prop :=
  ∀ i h, (calls d es).count (i, h) = (dues d es).count (i, h)

/-- When a timer expires that is enabled, no other enabled timer has a handler. -/
def Alone (d : Driver H) : Event H → Prop
  | .expiry i => i ≤ d.hpet.timerCount.toNat → (d.timers i).enabled = true →
      ∀ j ≤ d.hpet.timerCount.toNat, j ≠ i → (d.timers j).enabled = true →
        (d.timers j).curHandler = none
  | _ => True

/-- The driver and the device agree on which timers are enabled. -/
def Synced (d : Driver H) : Prop :=
  ∀ i ≤ d.hpet.timerCount.toNat,
    (d.timers i).enabled = (d.hpet.timers i).configuration.interruptEnable

/-! ### Lists -/

section Lists

variable {α β : Type} {f : α → List β} {a : α} {l : List α}

theorem sublist_flatMap_of_mem (f : α → List β) (ha : a ∈ l) :
  (f a).Sublist (l.flatMap f)
  := by
  obtain ⟨pre, post, rfl⟩ := List.append_of_mem ha
  rw [List.flatMap_append, List.flatMap_cons]
  apply List.Sublist.trans _ (List.sublist_append_right _ _)
  apply List.sublist_append_left

/-- A list to which only one element contributes. -/
theorem flatMap_eq_of_only (hnodup : l.Nodup) (ha : a ∈ l) (h : ∀ b ∈ l, b ≠ a → f b = []) :
  l.flatMap f = f a
  := by
  obtain ⟨pre, post, rfl⟩ := List.append_of_mem ha
  obtain ⟨hnotin, -⟩ := List.nodup_cons.mp (List.nodup_middle.mp hnodup)
  have hpre : pre.flatMap f = [] := by
    rw [List.flatMap_eq_nil_iff]
    intro b hb
    apply h b (by simp [hb])
    rintro rfl
    exact hnotin (List.mem_append_left _ hb)
  have hpost : post.flatMap f = [] := by
    rw [List.flatMap_eq_nil_iff]
    intro b hb
    apply h b (by simp [hb])
    rintro rfl
    exact hnotin (List.mem_append_right _ hb)
  rw [List.flatMap_append, List.flatMap_cons, hpre, hpost, List.nil_append, List.append_nil]

/-- A part of a list with as many of everything is the whole list. -/
theorem eq_iff_count_eq [BEq α] [LawfulBEq α] {l' : List α} (h : l'.Sublist l) :
  (∀ a, l.count a = l'.count a) ↔ l = l'
  := by
  constructor
  · intro hcount
    have hperm : l'.Perm l := List.perm_iff_count.mpr fun a => (hcount a).symm
    exact (h.eq_of_length hperm.length_eq).symm
  · rintro rfl a
    rfl

/-- Parts of lists make up the joined lists only if they are the lists. -/
theorem append_eq_append_iff_of_sublist {l₁ l₂ l₁' l₂' : List α} (h₁ : l₁'.Sublist l₁)
    (h₂ : l₂'.Sublist l₂) :
  l₁ ++ l₂ = l₁' ++ l₂' ↔ l₁ = l₁' ∧ l₂ = l₂'
  := by
  constructor
  · intro h
    have hlength := congrArg List.length h
    rw [List.length_append, List.length_append] at hlength
    have hle₁ := h₁.length_le
    have hle₂ := h₂.length_le
    exact ⟨(h₁.eq_of_length (by omega)).symm, (h₂.eq_of_length (by omega)).symm⟩
  · rintro ⟨rfl, rfl⟩
    rfl

end Lists

/-! ### A single interrupt -/

section Interrupt

variable {d : Driver H}

/-- The call that `hpet_timer_handler` makes for a timer. -/
def callFor (d : Driver H) (i : ℕ) : List (ℕ × Handler H) :=
  if (d.timers i).enabled then (d.timers i).curHandler.toList.map (i, ·) else []

theorem callFor_congr {d' : Driver H} (h : d'.timers = d.timers) :
  callFor d' = callFor d
  := by
  funext i
  rw [callFor, callFor, h]

theorem handlerTurn_eq (cs : List (ℕ × Handler H)) (d : Driver H) (i : ℕ) :
  (handlerTurn (cs, d) i).1 = cs ++ callFor d i
    ∧ (handlerTurn (cs, d) i).2.timers = d.timers
    ∧ ∃ status, (handlerTurn (cs, d) i).2.hpet = { d.hpet with interruptStatus := status }
  := by
  cases h : (d.timers i).enabled with
  | true =>
      simp only [handlerTurn, callFor, Driver.access, h, if_true, true_and]
      exact ⟨_, rfl⟩
  | false =>
      simp only [handlerTurn, callFor, Driver.access, h, Bool.false_eq_true, if_false,
        List.append_nil, true_and]
      exact ⟨_, rfl⟩

/-- The loop of `hpet_timer_handler` calls the handlers of the enabled timers, and leaves everything
as it is but the status of the interrupt. -/
theorem foldl_handlerTurn (is : List ℕ) (cs : List (ℕ × Handler H)) (d : Driver H) :
  (is.foldl handlerTurn (cs, d)).1 = cs ++ is.flatMap (callFor d)
    ∧ (is.foldl handlerTurn (cs, d)).2.timers = d.timers
    ∧ ∃ status, (is.foldl handlerTurn (cs, d)).2.hpet = { d.hpet with interruptStatus := status }
  := by
  induction is generalizing cs d with
  | nil => exact ⟨(List.append_nil cs).symm, rfl, _, rfl⟩
  | cons i is ih =>
      obtain ⟨hcalls, htimers, status, hhpet⟩ := handlerTurn_eq cs d i
      obtain ⟨hcalls', htimers', status', hhpet'⟩ :=
        ih (handlerTurn (cs, d) i).1 (handlerTurn (cs, d) i).2
      rw [List.foldl_cons]
      refine ⟨?_, htimers'.trans htimers, status', ?_⟩
      · rw [hcalls', hcalls, callFor_congr htimers, List.flatMap_cons, List.append_assoc]
      · rw [hhpet', hhpet]

theorem calls_handler (d : Driver H) :
  (hpetTimerHandler d).1 = (List.range (d.hpet.timerCount.toNat + 1)).flatMap (callFor d)
  := (foldl_handlerTurn _ [] (d.access 0)).1

/-- The driver and the device go on agreeing. -/
theorem Synced.step (h : Synced d) (e : Event H) :
  Synced (step d e).2
  := by
  cases e with
  | setHandler i handler =>
      intro j hj
      have hsync := h j hj
      simp only [Hpet.step, hpetTimerSethandler, Driver.access, Function.update_apply]
      split
      next hji =>
        subst hji
        exact hsync
      next => exact hsync
  | setEnable i enable =>
      intro j hj
      have hsync := h j hj
      simp only [Hpet.step, hpetTimerSetenable, Driver.access, Main.configure, Main.setTimer,
        Function.update_apply]
      split
      next => rfl
      next => exact hsync
  | expiry i =>
      rw [Hpet.step]
      split
      next =>
        obtain ⟨-, htimers, status, hhpet⟩ :=
          foldl_handlerTurn (List.range (d.hpet.timerCount.toNat + 1)) [] (d.access 0)
        intro j hj
        rw [hpetTimerHandler] at hj ⊢
        rw [hhpet] at hj ⊢
        rw [htimers]
        exact h j hj
      next => exact h

/-- The call that is due is one of those made. -/
theorem due_sublist (h : Synced d) (e : Event H) :
  (due d e).Sublist (step d e).1
  := by
  cases e with
  | setHandler i handler => exact List.Sublist.refl _
  | setEnable i enable => exact List.Sublist.refl _
  | expiry i =>
      rw [due]
      split
      next hdue =>
        have hraises : d.Raises i := ⟨hdue.1, (h i hdue.1).symm.trans hdue.2⟩
        rw [step, if_pos hraises, calls_handler]
        have hfor : callFor d i = (d.timers i).curHandler.toList.map (i, ·) := if_pos hdue.2
        rw [← hfor]
        apply sublist_flatMap_of_mem
        rw [List.mem_range]
        omega
      next => apply List.nil_sublist

/-- The calls are those due exactly when the timer that expires is alone. -/
theorem calls_eq_due_iff (h : Synced d) (e : Event H) :
  (step d e).1 = due d e ↔ Alone d e
  := by
  cases e with
  | setHandler i handler => exact iff_of_true rfl trivial
  | setEnable i enable => exact iff_of_true rfl trivial
  | expiry i =>
      by_cases hi : i ≤ d.hpet.timerCount.toNat ∧ (d.timers i).enabled = true
      · have hraises : d.Raises i := ⟨hi.1, (h i hi.1).symm.trans hi.2⟩
        have hfor : callFor d i = (d.timers i).curHandler.toList.map (i, ·) := if_pos hi.2
        have hmem : ∀ j ≤ d.hpet.timerCount.toNat,
            j ∈ List.range (d.hpet.timerCount.toNat + 1) := by
          intro j hj
          rw [List.mem_range]
          omega
        rw [step, if_pos hraises, calls_handler, due, if_pos hi, ← hfor]
        constructor
        · intro heq hle henabled j hj hne hother
          cases hhandler : (d.timers j).curHandler with
          | none => rfl
          | some handler =>
              have hcall : (j, handler) ∈ callFor d i := by
                rw [← heq]
                apply List.mem_flatMap_of_mem (hmem j hj)
                rw [callFor, if_pos hother, hhandler]
                exact List.mem_singleton_self _
              rw [hfor, List.mem_map] at hcall
              obtain ⟨handler', -, heq'⟩ := hcall
              exact absurd (congrArg Prod.fst heq').symm hne
        · intro halone
          apply flatMap_eq_of_only List.nodup_range (hmem i hi.1)
          intro j hj hne
          rw [callFor]
          split
          next hother =>
            rw [halone hi.1 hi.2 j (Nat.lt_succ_iff.mp (List.mem_range.mp hj)) hne hother]
            rfl
          next => rfl
      · have hraises : ¬ d.Raises i := by
          rintro ⟨hle, henabled⟩
          exact hi ⟨hle, (h i hle).trans henabled⟩
        rw [step, if_neg hraises, due, if_neg hi]
        apply iff_of_true rfl
        intro hle henabled
        exact absurd ⟨hle, henabled⟩ hi

end Interrupt

/-! ### Runs -/

section Runs

variable {d : Driver H}

/-- In every run, the calls that are due are made, and no others exactly when every timer that
expires is alone. -/
theorem calls_eq_dues_iff (h : Synced d) (es : List (Event H)) :
  (dues d es).Sublist (calls d es)
    ∧ (calls d es = dues d es ↔ Each (fun d e => (step d e).2) Alone d es)
  := by
  induction es generalizing d with
  | nil => exact ⟨List.Sublist.refl _, iff_of_true rfl trivial⟩
  | cons e es ih =>
      obtain ⟨hsub, hiff⟩ := ih (h.step e)
      have hdue := due_sublist h e
      have hcalls : calls d (e :: es) = (step d e).1 ++ calls (step d e).2 es := by
        rw [calls, run, List.flatten_cons]
        rfl
      have hdues : dues d (e :: es) = due d e ++ dues (step d e).2 es := by
        rw [dues, run, List.flatten_cons]
        rfl
      rw [hcalls, hdues, Each, append_eq_append_iff_of_sublist hdue hsub, calls_eq_due_iff h, hiff]
      exact ⟨hdue.append hsub, Iff.rfl⟩

/-- Every handler is called for the expiries of its own timer exactly when, whenever an enabled
timer expires, no other enabled timer has a handler. -/
theorem attributes_iff [DecidableEq H] (h : Synced d) (es : List (Event H)) :
  Attributes d es ↔ Each (fun d e => (step d e).2) Alone d es
  := by
  obtain ⟨hsub, hiff⟩ := calls_eq_dues_iff h es
  rw [← hiff, ← eq_iff_count_eq hsub]
  constructor
  · rintro hcount ⟨i, h⟩
    apply hcount
  · intro hcount i h
    apply hcount

end Runs

theorem attributes_oneEnabled :
  Attributes (Driver.idle 1) [.setHandler 0 (some (.client ())), .setEnable 0 true, .expiry 0]
  := by
  have hsync : Synced (Driver.idle 1 : Driver Unit) := fun _ _ => rfl
  rw [attributes_iff hsync]
  refine ⟨trivial, trivial, ?_, trivial⟩
  intro hle henabled j hj hne hother
  have hlast : j ≤ 1 := hj
  obtain rfl : j = 1 := by omega
  contradiction

/-- The handler of a second timer is called when the first one expires. -/
theorem not_attributes_twoEnabled :
  ¬ Attributes (Driver.idle 1)
    [.setHandler 0 (some (.client 0)), .setEnable 0 true, .setHandler 1 (some (.client 1)),
      .setEnable 1 true, .expiry 0]
  := by
  intro h
  have hcount := h 1 (.client 1)
  revert hcount
  decide

end Hpet
