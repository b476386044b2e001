import Gubernatrix.Interrupts.LocalTimer
import Gubernatrix.Lib.Trace
import Gubernatrix.Timers.Wait

/-!
# Waiting with `halt`

The loop of `timer_wait` on a core whose timer of the local APIC was taken. It tests
`timer_wait_pending` and executes `hlt`, and an interrupt in between wakes nobody, so that the core
may sleep on after the tick that it waits for. In periodic mode the next interrupt of any kind ends
the wait. In one-shot mode, which the wait does not change (the call of `set_mode` is commented
out), there is no second tick.
-/

namespace Timers

open Apic (apicHandler operate)
open Platform (ApicTimerState)
open Trace

variable {F H : Type}

/-! ### The loop -/

/-- Where the core is: before the test of the loop, before `hlt`, halted, past the loop but with the
timer still enabled, or past that. -/
inductive WaitPc where
  | test
  | halt
  | asleep
  | leave
  | ended
deriving DecidableEq

/-- The core that waits, with the variables of `timer_main.c` and its timer. -/
structure Waiting (F H : Type) where
  pc : WaitPc
  timers : State F H
  apic : ApicTimerState H

/-- What happens: the core takes a step, its timer interrupts, or something else does. -/
inductive WaitEvent where
  | step
  | tick
  | other
deriving DecidableEq

/-- The core after an interrupt. -/
def WaitPc.wake : WaitPc → WaitPc
  | .asleep => .test
  | pc => pc

/-- The core has left the loop. -/
def WaitPc.left : WaitPc → Bool
  | .leave | .ended => true
  | _ => false

/-- A step of the core. -/
def Waiting.advance (w : Waiting F H) : Waiting F H :=
  match w.pc with
  | .test => { w with pc := if w.timers.timerWaitPending ≠ 0 then .halt else .leave }
  | .halt => { w with pc := .asleep }
  | .leave => { w with pc := .ended, apic := operate w.apic (.setEnable false) }
  | _ => w

/-- An interrupt of the timer, where `timer_wait_handler` makes no operations. -/
def Waiting.tick (w : Waiting F H) : Waiting F H :=
  let called := apicHandler (fun _ => []) w.apic
  { pc := w.pc.wake
    timers :=
      match called.1 with
      | some .timerWaitHandler => timerWaitHandler w.timers
      | _ => w.timers
    apic := called.2 }

/-- What the core is after an event. -/
def Waiting.next (w : Waiting F H) : WaitEvent → Waiting F H
  | .step => w.advance
  | .tick => w.tick
  | .other => { w with pc := w.pc.wake }

/-- The core when it gets to the loop, with the calls made for its timer. -/
def Waiting.start (s : State F H) (t : ApicTimerState H) : Waiting F H where
  pc := .test
  timers := s
  apic := operate (operate t (.setHandler (some .timerWaitHandler))) (.setEnable true)

/-! ### The timer -/

section Timer

variable {w : Waiting F H} {t : ApicTimerState H}

/-- The timer calls `timer_wait_handler`. -/
structure Armed (t : ApicTimerState H) : Prop where
  enabled : t.enabled = true
  handler : t.handler = some .timerWaitHandler

theorem armed_start (s : State F H) (t : ApicTimerState H) :
  Armed (Waiting.start s t).apic
  := ⟨rfl, rfl⟩

theorem tick_of_disabled (h : w.apic.enabled = false) :
  w.tick = { w with pc := w.pc.wake }
  := by
  have hcall : apicHandler (fun _ => []) w.apic = (none, w.apic) := by
    rw [apicHandler, h]
    rfl
  rw [Waiting.tick, hcall]

/-- In one-shot mode the call disables the timer. -/
theorem tick_of_armed (h : Armed w.apic) :
  w.tick = ⟨w.pc.wake, timerWaitHandler w.timers,
    if w.apic.oneshot = true then { w.apic with enabled := false } else w.apic⟩
  := by
  have hcall : apicHandler (fun _ => []) w.apic = (some .timerWaitHandler,
      if w.apic.oneshot = true then { w.apic with enabled := false } else w.apic) := by
    rw [apicHandler, if_pos h.enabled, h.handler]
    rfl
  rw [Waiting.tick, hcall]

/-- The handler never sets `timer_wait_pending`. -/
theorem pending_handler {s : State F H} (h : s.timerWaitPending = 0) :
  (timerWaitHandler s).timerWaitPending = 0
  := by
  rw [timerWaitHandler]
  split
  · rfl
  · exact h

theorem Counts.pending_ne {goal n : ℕ} {s : State F H} (h : Counts goal n s) (hn : n < goal) :
  s.timerWaitPending ≠ 0
  := by
  rw [h.pending, if_neg (by omega)]
  decide

end Timer

/-! ### Periodic mode -/

section Periodic

variable {w : Waiting F H} {goal n : ℕ}

@[simp]
theorem left_wake (pc : WaitPc) :
  pc.wake.left = pc.left
  := by
  cases pc <;> rfl

theorem wake_eq_ended (pc : WaitPc) :
  pc.wake = .ended ↔ pc = .ended
  := by
  cases pc <;> decide

/-- A wait for `goal` ticks, when `n` have come. -/
structure Waits (goal n : ℕ) (w : Waiting F H) : Prop where
  counts : n < goal → Counts goal n w.timers ∧ w.pc.left = false
  cleared : goal ≤ n → w.timers.timerWaitPending = 0
  armed : w.pc ≠ .ended → Armed w.apic ∧ w.apic.oneshot = false
  disabled : w.pc = .ended → w.apic.enabled = false

/-- A step of the core. -/
theorem Waits.advance (h : Waits goal n w) :
  Waits goal n w.advance
  := by
  rw [Waiting.advance]
  cases hpc : w.pc with
  | test =>
      have hne : w.pc ≠ .ended := by
        rw [hpc]
        decide
      dsimp only
      split
      next hpending =>
        exact ⟨fun hn => ⟨(h.counts hn).1, rfl⟩, h.cleared, fun _ => h.armed hne, nofun⟩
      next hpending =>
        rw [not_not] at hpending
        refine ⟨fun hn => ?_, fun _ => hpending, fun _ => h.armed hne, nofun⟩
        exact absurd hpending ((h.counts hn).1.pending_ne hn)
  | halt =>
      have hne : w.pc ≠ .ended := by
        rw [hpc]
        decide
      exact ⟨fun hn => ⟨(h.counts hn).1, rfl⟩, h.cleared, fun _ => h.armed hne, nofun⟩
  | asleep => exact h
  | leave =>
      refine ⟨fun hn => ?_, h.cleared, fun hne => absurd rfl hne, fun _ => rfl⟩
      have hleft := (h.counts hn).2
      rw [hpc] at hleft
      cases hleft
  | ended => exact h

/-- An interrupt that is not of the timer. -/
theorem Waits.wake (h : Waits goal n w) :
  Waits goal n { w with pc := w.pc.wake }
  := by
  refine ⟨fun hn => ⟨(h.counts hn).1, ?_⟩, h.cleared, fun hne => h.armed ?_, fun hended => ?_⟩
  · exact (left_wake _).trans (h.counts hn).2
  · exact (wake_eq_ended _).not.mp hne
  · exact h.disabled ((wake_eq_ended _).mp hended)

/-- A tick. -/
theorem Waits.tick (hgoal : goal < 2 ^ 31) (h : Waits goal n w) :
  Waits goal (n + 1) w.tick
  := by
  by_cases hended : w.pc = .ended
  · have hn : goal ≤ n := by
      by_contra hlt
      have hleft := (h.counts (by omega)).2
      rw [hended] at hleft
      cases hleft
    rw [tick_of_disabled (h.disabled hended)]
    have hwake := h.wake
    exact ⟨fun hlt => absurd hlt (by omega), fun _ => h.cleared hn, hwake.armed, hwake.disabled⟩
  · obtain ⟨harmed, honeshot⟩ := h.armed hended
    have hne : w.pc.wake ≠ .ended := (wake_eq_ended _).not.mpr hended
    rw [tick_of_armed harmed, honeshot, if_neg Bool.false_ne_true]
    refine ⟨fun hlt => ?_, fun hle => ?_, fun _ => ⟨harmed, honeshot⟩, fun heq => absurd heq hne⟩
    · obtain ⟨hcounts, hleft⟩ := h.counts (by omega)
      exact ⟨hcounts.tick (by omega), (left_wake _).trans hleft⟩
    · rcases Nat.lt_or_ge n goal with hlt | hge
      · have hcounts := (h.counts hlt).1.tick (by omega)
        rw [hcounts.pending, if_pos hle]
      · exact pending_handler (h.cleared hge)

/-- The ticks of a run are counted. -/
theorem Waits.final (hgoal : goal < 2 ^ 31) (h : Waits goal n w) (es : List WaitEvent) :
  Waits goal (n + es.count .tick) (final Waiting.next w es)
  := by
  induction es generalizing n w with
  | nil => exact h
  | cons e es ih =>
      rw [Trace.final, List.count_cons]
      cases e with
      | step => exact ih h.advance
      | tick =>
          have hnext := ih (h.tick hgoal)
          rwa [Nat.add_right_comm, Nat.add_assoc n] at hnext
      | other => exact ih h.wake

theorem pending_next (h : w.timers.timerWaitPending = 0) (e : WaitEvent) :
  (w.next e).timers.timerWaitPending = 0
  := by
  cases e with
  | step =>
      rw [Waiting.next, Waiting.advance]
      split <;> exact h
  | tick =>
      rw [Waiting.next, Waiting.tick]
      dsimp only
      split
      · exact pending_handler h
      · exact h
  | other => exact h

theorem pending_final (h : w.timers.timerWaitPending = 0) (es : List WaitEvent) :
  (final Waiting.next w es).timers.timerWaitPending = 0
  := by
  induction es generalizing w with
  | nil => exact h
  | cons e es ih => exact ih (pending_next h e)

end Periodic

/-! ### After the ticks -/

section Places

variable {w : Waiting F H} {start stop : WaitPc → Bool}

/-- The core after a step when `timer_wait_pending` is clear. -/
def WaitPc.onward : WaitPc → WaitPc
  | .test => .leave
  | .halt | .asleep => .asleep
  | .leave | .ended => .ended

theorem pc_of_step (hpending : w.timers.timerWaitPending = 0) :
  (w.next .step).pc = w.pc.onward
  := by
  rw [Waiting.next, Waiting.advance]
  cases hpc : w.pc with
  | test => exact if_neg (not_not.mpr hpending)
  | halt => rfl
  | asleep => exact hpc
  | leave => rfl
  | ended => exact hpc

theorem pc_of_interrupt {e : WaitEvent} (he : e ≠ .step) :
  (w.next e).pc = w.pc.wake
  := by
  cases e with
  | step => exact absurd rfl he
  | tick => rfl
  | other => rfl

/-- A step leads from some places to places among them, and an interrupt keeps the core there. -/
structure Leads (start stop : WaitPc → Bool) : Prop where
  step : ∀ pc, start pc = true → stop pc.onward = true
  sub : ∀ pc, stop pc = true → start pc = true
  wake_start : ∀ pc, start pc = true → start pc.wake = true
  wake_stop : ∀ pc, stop pc = true → stop pc.wake = true

/-- With a step, a run ends where the step leads. -/
theorem Leads.final (h : Leads start stop) (hpending : w.timers.timerWaitPending = 0)
    (hw : start w.pc = true) {es : List WaitEvent} (hes : stop w.pc = true ∨ .step ∈ es) :
  stop (final Waiting.next w es).pc = true
  := by
  induction es generalizing w with
  | nil => exact hes.resolve_right List.not_mem_nil
  | cons e es ih =>
      by_cases he : e = .step
      · subst he
        have hnext : stop (w.next .step).pc = true := by
          rw [pc_of_step hpending]
          exact h.step _ hw
        exact ih (pending_next hpending .step) (h.sub _ hnext) (.inl hnext)
      · have hpc : (w.next e).pc = w.pc.wake := pc_of_interrupt he
        refine ih (pending_next hpending e) (hpc ▸ h.wake_start _ hw) ?_
        rcases hes with hstop | hstep
        · exact .inl (hpc ▸ h.wake_stop _ hstop)
        · exact .inr ((List.mem_cons.mp hstep).resolve_left (Ne.symm he))

/-- No step leads to `hlt`. -/
theorem leads_halt :
  Leads (fun _ => true) (fun pc => decide (pc ≠ .halt))
  := by
  constructor <;> intro pc <;> cases pc <;> decide

/-- The test leads out of the loop. -/
theorem leads_left :
  Leads (fun pc => decide (pc = .test) || pc.left) WaitPc.left
  := by
  constructor <;> intro pc <;> cases pc <;> decide

theorem leads_ended :
  Leads WaitPc.left (fun pc => decide (pc = .ended))
  := by
  constructor <;> intro pc <;> cases pc <;> decide

/-- When `timer_wait_pending` is clear, a step, an interrupt of any kind and a step lead out of the
loop. -/
theorem left_of_interrupt (hpending : w.timers.timerWaitPending = 0) {as bs : List WaitEvent}
    {i : WaitEvent} (has : .step ∈ as) (hi : i ≠ .step) (hbs : .step ∈ bs) :
  (final Waiting.next w (as ++ i :: bs)).pc.left = true
  := by
  rw [final_append, final]
  have hpending' := pending_final hpending as
  have hne := leads_halt.final hpending rfl (.inr has)
  refine leads_left.final (pending_next hpending' i) ?_ (.inr hbs)
  rw [pc_of_interrupt hi]
  revert hne
  cases (final Waiting.next w as).pc <;> decide

theorem ended_of_left (hpending : w.timers.timerWaitPending = 0) (hleft : w.pc.left = true)
    {es : List WaitEvent} (hes : .step ∈ es) :
  (final Waiting.next w es).pc = .ended
  := of_decide_eq_true (leads_ended.final hpending hleft (.inr hes))

/-- When the timer is disabled nothing changes any more. -/
theorem final_of_ended (hended : w.pc = .ended) (hdisabled : w.apic.enabled = false)
    (es : List WaitEvent) :
  final Waiting.next w es = w
  := by
  induction es with
  | nil => rfl
  | cons e es ih =>
      have hwake : { w with pc := w.pc.wake } = w := by
        rw [(wake_eq_ended _).mpr hended, ← hended]
      have hnext : w.next e = w := by
        cases e with
        | step => rw [Waiting.next, Waiting.advance, hended]
        | tick => exact (tick_of_disabled hdisabled).trans hwake
        | other => exact hwake
      rw [Trace.final, hnext, ih]

end Places

/-! ### One-shot mode -/

section Oneshot

variable {w : Waiting F H} {goal : ℕ}

/-- A wait for more than one tick in one-shot mode: it gets a tick, or has got it. -/
structure Stuck (goal : ℕ) (w : Waiting F H) : Prop where
  inLoop : w.pc.left = false
  oneshot : w.apic.oneshot = true
  armed : w.apic.enabled = true → Armed w.apic ∧ Counts goal 0 w.timers
  fired : w.apic.enabled = false → Counts goal 1 w.timers

theorem Stuck.next (hgoal : 1 < goal) (h : Stuck goal w) (e : WaitEvent) :
  Stuck goal (w.next e)
  := by
  have hwake : w.pc.wake.left = false := (left_wake _).trans h.inLoop
  cases e with
  | step =>
      have hpending : w.timers.timerWaitPending ≠ 0 := by
        cases henabled : w.apic.enabled with
        | true => exact (h.armed henabled).2.pending_ne (by omega)
        | false => exact (h.fired henabled).pending_ne hgoal
      have hleft := h.inLoop
      rw [Waiting.next, Waiting.advance, if_pos hpending]
      cases hpc : w.pc with
      | test => exact ⟨rfl, h.oneshot, h.armed, h.fired⟩
      | halt => exact ⟨rfl, h.oneshot, h.armed, h.fired⟩
      | asleep => exact h
      | leave =>
          rw [hpc] at hleft
          cases hleft
      | ended => exact h
  | tick =>
      rw [Waiting.next]
      cases henabled : w.apic.enabled with
      | true =>
          obtain ⟨harmed, hcounts⟩ := h.armed henabled
          rw [tick_of_armed harmed, if_pos h.oneshot]
          exact ⟨hwake, h.oneshot, nofun, fun _ => hcounts.tick (by decide)⟩
      | false =>
          rw [tick_of_disabled henabled]
          exact ⟨hwake, h.oneshot, h.armed, h.fired⟩
  | other => exact ⟨hwake, h.oneshot, h.armed, h.fired⟩

theorem Stuck.final (hgoal : 1 < goal) (h : Stuck goal w) (es : List WaitEvent) :
  Stuck goal (final Waiting.next w es)
  := by
  induction es generalizing w with
  | nil => exact h
  | cons e es ih => exact ih (h.next hgoal e)

end Oneshot

/-! ### The wait -/

section Wait

variable {s : State F H} {ns : U64} {idx : ℕ} {d : Def F} {goal : ℕ}

theorem goal_lt (htarget : waitTarget ns d.handlers.rate = some (goal : ℤ)) :
  goal < 2 ^ 31
  := by
  have hlt : ∀ x : ℕ, toInt32 x < 2 ^ 31 := fun x => Int.bmod_lt (by decide)
  rw [waitTarget, Option.ite_none_left_eq_some, Option.ite_none_left_eq_some] at htarget
  have hvalue := htarget.2.2
  dsimp only at hvalue
  have := hlt (ns / (1000000000 / d.handlers.rate)).toNat
  split at hvalue
  · have heq := Option.some.inj hvalue
    omega
  · have heq := Option.some.inj hvalue
    omega

/-- The core gets to the loop with no ticks counted. -/
structure Begins (goal : ℕ) (s : State F H) : Prop where
  counts : Counts goal 0 s
  pos : 0 < goal
  lt : goal < 2 ^ 31

/-- In periodic mode. -/
theorem Begins.waits (h : Begins goal s) {t : ApicTimerState H} (hmode : t.oneshot = false) :
  Waits goal 0 (.start s t)
  := by
  refine ⟨fun _ => ⟨h.counts, rfl⟩, fun hle => ?_, fun _ => ⟨armed_start s t, hmode⟩, nofun⟩
  exact absurd h.pos (by omega)

/-- In one-shot mode. -/
theorem Begins.stuck (h : Begins goal s) {t : ApicTimerState H} (hmode : t.oneshot = true) :
  Stuck goal (.start s t)
  := ⟨rfl, hmode, fun _ => ⟨armed_start s t, h.counts⟩, nofun⟩

theorem begins_start (hidx : waitLoop 0 s.defs = some idx) (hd : s.defs[idx]? = some d)
    (htarget : waitTarget ns d.handlers.rate = some (goal : ℤ)) (hpos : 0 < goal) :
  ∃ s', timerWaitStart ns s = .ok idx s' ∧ Begins goal s'
  := by
  obtain ⟨calls, hstart⟩ := timerWaitStart_ok hidx hd htarget
  refine ⟨_, hstart, ⟨⟨rfl, rfl, ?_⟩, hpos, goal_lt htarget⟩⟩
  exact (if_neg (by omega)).symm

/-- A wait for `goal` ticks of the timer of the local APIC, with interrupts at any point. In
periodic mode the loop is not left before the ticks have come; when they have, it is left as soon
as the core takes a step, an interrupt of any kind comes and the core takes another step; then the
wait ends with another step, and no tick is counted after it. In one-shot mode a wait for more than
one tick never leaves the loop. -/
theorem timer_wait_ends (hidx : waitLoop 0 s.defs = some idx) (hd : s.defs[idx]? = some d)
    (htarget : waitTarget ns d.handlers.rate = some (goal : ℤ)) (hpos : 0 < goal)
    (t : ApicTimerState H) :
  ∃ s', timerWaitStart ns s = .ok idx s' ∧ ∀ es,
    let w := final Waiting.next (.start s' t) es
    (t.oneshot = false →
      (w.pc.left = true → goal ≤ es.count .tick)
      ∧ (goal ≤ es.count .tick → ∀ as i bs, .step ∈ as → i ≠ .step → .step ∈ bs →
        (final Waiting.next w (as ++ i :: bs)).pc.left = true)
      ∧ (w.pc.left = true → ∀ as, .step ∈ as → (final Waiting.next w as).pc = .ended)
      ∧ (w.pc = .ended → ∀ as, final Waiting.next w as = w))
    ∧ (t.oneshot = true → 1 < goal → w.pc.left = false)
  := by
  obtain ⟨s', hstart, hbegins⟩ := begins_start hidx hd htarget hpos
  refine ⟨s', hstart, fun es => ⟨fun hmode => ?_, fun hmode hmore => ?_⟩⟩
  · have hend := (hbegins.waits hmode).final hbegins.lt es
    rw [Nat.zero_add] at hend
    have hticks (hleft : (final Waiting.next (.start s' t) es).pc.left = true) :
        goal ≤ es.count .tick := by
      by_contra hlt
      rw [(hend.counts (Nat.not_le.mp hlt)).2] at hleft
      cases hleft
    refine ⟨hticks, fun hle as i bs has hi hbs => ?_, fun hleft as has => ?_, fun hended as => ?_⟩
    · exact left_of_interrupt (hend.cleared hle) has hi hbs
    · exact ended_of_left (hend.cleared (hticks hleft)) hleft has
    · exact final_of_ended hended (hend.disabled hended) as
  · exact ((hbegins.stuck hmode).final hmore es).inLoop

/-- The wait of `smp_init`, with `apic_local` as its only timer. -/
theorem timer_wait_ends_10ms :
  ∃ s', timerWaitStart 10000000 onlyApicLocal = .ok 0 s' ∧ ∀ es,
    let w := final Waiting.next (.start s' (⟨false, false, false, none⟩ : ApicTimerState Unit)) es
    (w.pc.left = true → 200 ≤ es.count .tick)
    ∧ (200 ≤ es.count .tick → (final Waiting.next w [.step, .tick, .step]).pc.left = true)
  := by
  have htarget : waitTarget 10000000 apicLocal.handlers.rate = some ((200 : ℕ) : ℤ) := by decide
  obtain ⟨s', hstart, hruns⟩ := timer_wait_ends (s := onlyApicLocal) rfl rfl htarget (by decide)
    ⟨false, false, false, none⟩
  refine ⟨s', hstart, fun es => ?_⟩
  obtain ⟨hticks, hends, -⟩ := (hruns es).1 rfl
  exact ⟨hticks, fun hle => hends hle [.step] .tick [.step] (by decide) (by decide) (by decide)⟩

end Wait

end Timers
