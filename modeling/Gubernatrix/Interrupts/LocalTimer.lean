import Gubernatrix.Interrupts.Dispatch
import Gubernatrix.Interrupts.Eoi
import Gubernatrix.Interrupts.Search
import Gubernatrix.Timers.Platform

/-!
# The timer of the local APIC

`local_apic_timer_init` on the registers of the local APIC, and `apic_handler`. The function neither
clears bit 18 of the timer's entry in the local vector table nor sets the divide configuration, so
that the mode and the rate depend on what they were left as.
-/

namespace Apic

open LocalApic
open Dispatch (Funcs interruptRegisterhandler)
open Interrupts (interruptAllocate flagsExclusive)
open Cpuid (Processor cpuidInit)
open Platform (ApicTimerState Operation apicTimerSetmode)
open Timers (Handler)

/-- `APIC_TIMER`. -/
def apicTimer : U32 := 0x320

/-- `APIC_ICoR`. -/
def apicICoR : U32 := 0x380

/-- `intrpt_num`, `interrupt_blocked` and `interrupt_funcs`. -/
structure Vectors (H : Type) where
  intrptNum : ℤ
  blocked : ℤ → Bool
  funcs : Funcs H

variable {H : Type}

/-- The vector that the timer interrupts with. -/
def Vectors.vector (vs : Vectors H) : Vec := (BitVec.ofInt 8 vs.intrptNum).toFin

/-- The part of `local_apic_timer_init` for the first core: `none` if a handler cannot be
registered. -/
def timerVector (ap : Bool) (handler : H) (vs : Vectors H) : Option (Vectors H) :=
  if ap then some vs
  else
    let r := interruptAllocate vs.blocked ⟨1, flagsExclusive, 50⟩
    match interruptRegisterhandler vs.funcs (BitVec.ofInt 8 r.base) handler with
    | .ok funcs => some { intrptNum := r.base, blocked := r.blocked, funcs := funcs }
    | .error _ => none

/-- `local_apic_timer_init`, where `apicFreq` is what `get_cpuid` says. -/
def localApicTimerInit (apic : TlsApic) (apicFreq : U64) (tscMode : Bool) (handler : H) (ap : Bool)
    (vs : Vectors H) (l : Lapic) : Option (Vectors H × Lapic) := do
  let vs ← timerVector ap handler vs
  let v ← apicRead apic.x2apicMode l apicTimer
  let v := v &&& (~~~0x007100ff#32).signExtend 64
  let v := v ||| (BitVec.ofInt 32 vs.intrptNum &&& 0xff).signExtend 64
  if tscMode then
    let l ← apicWrite apic.x2apicMode l apicTimer (v ||| 2#64 <<< 17)
    some (vs, l)
  else
    let v := v ||| 1#64 <<< 17
    let l ← apicWrite apic.x2apicMode l apicICoR (apicFreq / 20000)
    let l ← apicWrite apic.x2apicMode l apicTimer v
    some (vs, l)

/-! ### The registers of the timer -/

section Entry

variable (lvt : U32) (n : ℤ)

/-- The timer's entry in the local vector table, as it is written for periodic mode. -/
def periodicEntry : U64 :=
  lvt.setWidth 64 &&& (~~~0x007100ff#32).signExtend 64
    ||| (BitVec.ofInt 32 n &&& 0xff).signExtend 64 ||| 1#64 <<< 17

/-- The low byte of the vector, which is not negative. -/
theorem low_byte :
  (BitVec.ofInt 32 n &&& 0xff).signExtend 64 = (BitVec.ofInt 8 n).setWidth 64
  := by
  have hmsb : (BitVec.ofInt 32 n &&& 0xff).msb = false := by
    rw [BitVec.msb_and]
    exact Bool.and_false _
  have hmask : (BitVec.ofInt 32 n &&& 0xff).toNat = (BitVec.ofInt 32 n).toNat % 2 ^ 8 := by
    rw [BitVec.toNat_and]
    exact Nat.and_two_pow_sub_one_eq_mod _ 8
  apply BitVec.eq_of_toNat_eq
  rw [BitVec.signExtend_eq_setWidth_of_msb_false hmsb, BitVec.toNat_setWidth,
    BitVec.toNat_setWidth, hmask, BitVec.toNat_ofInt, BitVec.toNat_ofInt]
  omega

/-- The bits of the entry: what is kept, those of the vector, and the one for the mode. -/
theorem getLsbD_periodicEntry {i : ℕ} (hi : i < 64) :
  (periodicEntry lvt n).getLsbD i
    = (lvt.getLsbD i && ((~~~0x007100ff#32).signExtend 64 : U64).getLsbD i
      || (BitVec.ofInt 8 n).getLsbD i || decide (i = 17))
  := by
  rw [periodicEntry, low_byte, ← BitVec.twoPow_eq]
  simp only [BitVec.getLsbD_or, BitVec.getLsbD_and, BitVec.getLsbD_setWidth,
    BitVec.getLsbD_twoPow, hi]
  simp [eq_comm]

theorem periodicEntry_high :
  periodicEntry lvt n >>> 32 = 0
  := by
  apply BitVec.eq_of_getLsbD_eq
  intro i hi
  rw [BitVec.getLsbD_ushiftRight, show (0 : U64).getLsbD i = false from BitVec.getLsbD_zero]
  by_cases h64 : 32 + i < 64
  · rw [getLsbD_periodicEntry _ _ h64, BitVec.getLsbD_of_ge lvt _ (by omega),
      BitVec.getLsbD_of_ge (BitVec.ofInt 8 n) _ (by omega), decide_eq_false (by omega)]
    rfl
  · exact BitVec.getLsbD_of_ge _ _ (by omega)

/-- Bit 18 keeps the value that it had, and bit 17 is set. -/
theorem periodicEntry_mode :
  ((periodicEntry lvt n).setWidth 32).extractLsb' 17 2 = 1 ↔ lvt.getLsbD 18 = false
  := by
  have h17 : (periodicEntry lvt n).getLsbD 17 = true := by
    rw [getLsbD_periodicEntry _ _ (by decide)]
    exact Bool.or_true _
  have h18 : (periodicEntry lvt n).getLsbD 18 = lvt.getLsbD 18 := by
    rw [getLsbD_periodicEntry _ _ (by decide)]
    simp
  have hbits : ∀ x : BitVec 2, x.getLsbD 0 = true → (x = 1 ↔ x.getLsbD 1 = false) := by decide
  rw [hbits, ← h18]
  · simp
  · rw [BitVec.getLsbD_extractLsb', BitVec.getLsbD_setWidth, h17]
    rfl

theorem periodicEntry_masked :
  ((periodicEntry lvt n).setWidth 32).getLsbD 16 = false
  := by
  rw [BitVec.getLsbD_setWidth, getLsbD_periodicEntry _ _ (by decide),
    BitVec.getLsbD_of_ge (BitVec.ofInt 8 n) _ (by decide)]
  simp

theorem periodicEntry_vector :
  ((periodicEntry lvt n).setWidth 32).extractLsb' 0 8 = BitVec.ofInt 8 n
  := by
  apply BitVec.eq_of_getLsbD_eq
  intro i hi
  rw [BitVec.getLsbD_extractLsb', BitVec.getLsbD_setWidth, getLsbD_periodicEntry _ _ (by omega)]
  have hkept : ((~~~0x007100ff#32).signExtend 64 : U64).getLsbD (0 + i) = false := by
    interval_cases i <;> decide
  rw [hkept, Nat.zero_add, decide_eq_true hi, decide_eq_true (by omega : i < 32),
    decide_eq_false (by omega : i ≠ 17)]
  simp

end Entry

/-! ### The timer runs -/

section Running

variable {apic : TlsApic} {l : Lapic} {vs vs' : Vectors H} {handler : H} {ap : Bool}

/-- `local_apic_timer_init` writes the initial count, and then the entry. -/
theorem localApicTimerInit_eq (hready : Ready apic l) {apicFreq : U64}
    (hfreq : apicFreq.toNat / 20000 < 2 ^ 32) (hvs : timerVector ap handler vs = some vs') :
  localApicTimerInit apic apicFreq false handler ap vs l
    = some (vs', { l with timer := {
      l.timer.start ((apicFreq / 20000).setWidth 32) with
      lvt := (periodicEntry l.timer.lvt vs'.intrptNum).setWidth 32 } })
  := by
  have hread := apicRead_eq hready.enabled (n := 0x32) (by decide)
  have hcount : (apicFreq / 20000) >>> 32 = 0 := by
    apply BitVec.eq_of_toNat_eq
    rw [BitVec.toNat_ushiftRight, BitVec.toNat_udiv, Nat.shiftRight_eq_div_pow]
    exact Nat.div_eq_of_lt hfreq
  have hwrite := apicWrite_eq hready.enabled (n := 0x38) (by decide) (fun _ => rfl)
    (apicFreq / 20000) hcount
  have hentry := apicWrite_eq
    (l := { l with timer := l.timer.start ((apicFreq / 20000).setWidth 32) }) hready.enabled
    (n := 0x32) (by decide) (fun _ => rfl) _ (periodicEntry_high l.timer.lvt vs'.intrptNum)
  have hread' : apicRead l.x2apic l apicTimer = some (l.timer.lvt.setWidth 64) := hread
  have hwrite' : apicWrite l.x2apic l apicICoR (apicFreq / 20000)
      = some { l with timer := l.timer.start ((apicFreq / 20000).setWidth 32) } := hwrite
  rw [localApicTimerInit, hvs, hready.mode]
  simp only [Option.bind_eq_bind, Option.bind_some, hread', hwrite']
  exact congrArg (Option.bind · _) hentry

/-- In periodic mode the timer runs, if the initial count is not zero. -/
theorem clocks_of_start {t : Timer} (hmode : t.lvt.getLsbD 18 = false) (val : U32) (num : ℤ)
    (n : ℕ) :
  (({ t.start val with lvt := (periodicEntry t.lvt num).setWidth 32 } : Timer).clocks n).1
    = List.replicate (n / (t.divisor * val.toNat)) (BitVec.ofInt 8 num).toFin
  := by
  have hstart : t.start val = { t with initial := val, current := val, phase := 0 } := by
    rw [Timer.start, if_neg]
    intro htwo
    have hbit : t.mode.getLsbD 1 = t.lvt.getLsbD 18 := by
      rw [Timer.mode, BitVec.getLsbD_extractLsb']
      rfl
    rw [htwo, hmode] at hbit
    cases hbit
  rw [hstart]
  by_cases hval : val = 0
  · rw [Timer.clocks_of_stopped hval, hval, show (0 : U32).toNat = 0 from rfl, Nat.mul_zero,
      Nat.div_zero]
    rfl
  · have hrunning : Timer.Running {
        t with
        lvt := (periodicEntry t.lvt num).setWidth 32, initial := val, current := val
        phase := 0 } :=
      ⟨(periodicEntry_mode _ _).mpr hmode, periodicEntry_masked _ _, hval, hval,
        Nat.two_pow_pos _, le_rfl⟩
    have hclocks := Timer.clocks_of_running n hrunning
    rw [Timer.left, Timer.period, Nat.sub_zero, Nat.sub_self, Nat.add_zero, Timer.vector,
      periodicEntry_vector] at hclocks
    exact hclocks

/-- There are 20000 periods in a second only for counts that are not divided. -/
theorem div_eq_rate_iff {f d : ℕ} (hd : 0 < d) :
  f / (d * (f / 20000)) = 20000 ↔ d = 1 ∧ f % 20000 < f / 20000
  := by
  have hsplit := Nat.div_add_mod f 20000
  have hrest := Nat.mod_lt f (by decide : 20000 > 0)
  obtain ⟨q, hq⟩ : ∃ q, q = f / 20000 := ⟨_, rfl⟩
  rw [← hq] at hsplit ⊢
  rcases Nat.eq_zero_or_pos q with hzero | hpos
  · rw [hzero, Nat.mul_zero, Nat.div_zero]
    omega
  · rw [Nat.div_eq_iff (Nat.mul_pos hd hpos)]
    by_cases hone : d = 1
    · rw [hone, Nat.one_mul]
      omega
    · have hle : 2 * q ≤ d * q := Nat.mul_le_mul_right q (by omega)
      omega

/-- After `local_apic_timer_init` the timer of the local APIC is in periodic mode just when it was
not left in TSC-deadline mode. It then interrupts, with the vector that is registered, after each so
many clocks of the bus; and that is at the rate of the registered timer just when its clock was left
undivided, and the frequency is not too far above a multiple of the rate. -/
theorem timer_interrupts (p : Processor) (hready : Ready apic l)
    (hvs : timerVector ap handler vs = some vs') :
  let f := (cpuidInit p).apicFreq.toNat
  ∃ l', localApicTimerInit apic (cpuidInit p).apicFreq false handler ap vs l = some (vs', l')
    ∧ Ready apic l' ∧ l'.irr = l.irr ∧ l'.isr = l.isr
    ∧ (l'.timer.mode = 1 ↔ l.timer.lvt.getLsbD 18 = false)
    ∧ (l.timer.lvt.getLsbD 18 = false →
      (∀ n, (l'.timer.clocks n).1 = List.replicate (n / (l.timer.divisor * (f / 20000))) vs'.vector)
      ∧ ((l'.timer.clocks f).1.length = Platform.apicLocal.rate.toNat
        ↔ l.timer.divisor = 1 ∧ f % 20000 < f / 20000))
  := by
  intro f
  have hf : f < 2 ^ 32 := by
    change (Cpuid.apicFreq p).toNat < _
    rw [Cpuid.toNat_apicFreq]
    exact Nat.mod_lt _ (by decide)
  have hcount : (((cpuidInit p).apicFreq / 20000).setWidth 32).toNat = f / 20000 := by
    rw [BitVec.toNat_setWidth, BitVec.toNat_udiv]
    exact Nat.mod_eq_of_lt (Nat.lt_of_le_of_lt (Nat.div_le_self _ _) hf)
  refine ⟨_, localApicTimerInit_eq hready (Nat.lt_of_le_of_lt (Nat.div_le_self _ _) hf) hvs,
    ⟨hready.enabled, hready.mode, hready.tpr, hready.svr⟩, rfl, rfl,
    periodicEntry_mode _ _, fun hmode => ?_⟩
  have hclocks := clocks_of_start hmode (((cpuidInit p).apicFreq / 20000).setWidth 32) vs'.intrptNum
  rw [hcount] at hclocks
  refine ⟨hclocks, ?_⟩
  have hlength := congrArg List.length (hclocks f)
  rw [List.length_replicate] at hlength
  rw [← div_eq_rate_iff (d := l.timer.divisor) (Nat.two_pow_pos _)]
  exact Iff.of_eq (congrArg (· = 20000) hlength)

end Running

/-- The timer of the first core, masked and in one-shot mode as after a reset, of a processor with a
bus of 100 MHz. -/
theorem timer_interrupts_reset :
  let p := Cpuid.crystal24MHz
  let f := (cpuidInit p).apicFreq.toNat
  let vs : Vectors ℕ := {
    intrptNum := 0, blocked := fun v => v = 50, funcs := fun _ => .empty ℕ Dispatch.idtHandlerCnt }
  let l : Lapic := {
    base := 0xfee00800, id := 0, tpr := 0, dfr := 0xffffffff, svr := 0x1ff, irr := 0, isr := 0
    timer := { lvt := 0x10000, initial := 0, current := 0, divide := 0, phase := 0 } }
  let apic : TlsApic := { id := 0, x2apicMode := false }
  ∃ vs' l', localApicTimerInit apic (cpuidInit p).apicFreq false 7 false vs l = some (vs', l')
    ∧ vs'.vector = 32 ∧ (∀ n, (l'.timer.clocks n).1 = List.replicate (n / (2 * 5000)) 32)
    ∧ (l'.timer.clocks f).1.length ≠ Platform.apicLocal.rate.toNat
  := by
  intro p f vs l apic
  obtain ⟨vs', hvs⟩ : ∃ vs', timerVector false 7 vs = some vs' := ⟨_, rfl⟩
  have hready : Ready apic l := ⟨by decide, by decide, rfl, by decide⟩
  obtain ⟨l', hinit, -, -, -, -, hclocks⟩ := timer_interrupts p hready hvs
  have hvector : vs'.vector = 32 := by
    cases hvs
    rfl
  obtain ⟨hall, hrate⟩ := hclocks (by decide)
  have hdivisor : l.timer.divisor = 2 := by decide
  have hf : (cpuidInit p).apicFreq.toNat / 20000 = 5000 := by decide
  rw [hdivisor, hf, hvector] at hall
  rw [hdivisor] at hrate
  exact ⟨vs', l', hinit, hvector, hall, fun heq => absurd (hrate.mp heq).1 (by decide)⟩

/-! ### `apic_handler` -/

section Handling

/-- An operation on the timer of a core: `apic_timer_setmode`, `apic_timer_setenable` or
`apic_timer_sethandler`. -/
def operate (t : ApicTimerState H) : Operation H → ApicTimerState H
  | .setMode features => apicTimerSetmode features t
  | .setEnable enable => { t with enabled := enable }
  | .setHandler handler => { t with handler := handler }
  | .read => t
  | .write _ => t

/-- `apic_handler`, where `acts` are the operations that the handlers make: the handler that is
called, and the state after it. -/
def apicHandler (acts : Handler H → List (Operation H)) (t : ApicTimerState H) :
    Option (Handler H) × ApicTimerState H :=
  if t.enabled then
    let called := t.handler.elim t fun handler => (acts handler).foldl operate t
    (t.handler, if called.oneshot then { called with enabled := false } else called)
  else (none, t)

/-- What happens to the timer of a core: an interrupt, or an operation that no handler makes. -/
inductive TimerEvent (H : Type) where
  | interrupt
  | operation (op : Operation H)

/-- The handler that an event calls, and the state after it. -/
def timerStep (acts : Handler H → List (Operation H)) (t : ApicTimerState H) :
    TimerEvent H → Option (Handler H) × ApicTimerState H
  | .interrupt => apicHandler acts t
  | .operation op => (none, operate t op)

/-- The number of calls after which the timer is in one-shot mode. -/
def oneshotCalls (acts : Handler H → List (Operation H)) :
    ApicTimerState H → List (TimerEvent H) → ℕ
  | _, [] => 0
  | t, e :: es =>
      let (handler, t') := timerStep acts t e
      (if handler.isSome ∧ t'.oneshot then 1 else 0) + oneshotCalls acts t' es

/-- The event enables the timer. -/
def TimerEvent.enabling : TimerEvent H → ℕ
  | .operation (.setEnable true) => 1
  | _ => 0

/-- The timer is enabled. -/
def armed (t : ApicTimerState H) : ℕ := if t.enabled then 1 else 0

variable (acts : Handler H → List (Operation H))

theorem armed_le (t : ApicTimerState H) :
  armed t ≤ 1
  := by
  rw [armed]
  split
  · exact le_rfl
  · exact Nat.zero_le _

/-- A call in one-shot mode disarms the timer, whatever operations the handler makes. -/
theorem apicHandler_armed (t : ApicTimerState H) :
  (if (apicHandler acts t).1.isSome ∧ (apicHandler acts t).2.oneshot then 1 else 0)
    + armed (apicHandler acts t).2 ≤ armed t
  := by
  cases henabled : t.enabled with
  | false =>
      have heq : apicHandler acts t = (none, t) := by
        rw [apicHandler, henabled]
        rfl
      rw [heq, if_neg fun h => Bool.false_ne_true h.1, Nat.zero_add]
  | true =>
      have harmed : armed t = 1 := if_pos henabled
      rw [harmed]
      obtain ⟨called, hcalled⟩ : ∃ called,
        called = t.handler.elim t fun handler => (acts handler).foldl operate t := ⟨_, rfl⟩
      by_cases honeshot : called.oneshot = true
      · have heq : apicHandler acts t = (t.handler, { called with enabled := false }) := by
          rw [apicHandler, if_pos henabled, ← hcalled]
          exact congrArg (Prod.mk _) (if_pos honeshot)
        have hdisarmed : armed { called with enabled := false } = 0 := rfl
        rw [heq, hdisarmed]
        split
        · exact le_rfl
        · exact Nat.zero_le _
      · have heq : apicHandler acts t = (t.handler, called) := by
          rw [apicHandler, if_pos henabled, ← hcalled]
          exact congrArg (Prod.mk _) (if_neg honeshot)
        rw [heq, if_neg fun h => honeshot h.2, Nat.zero_add]
        exact armed_le called

/-- Operations arm the timer only when they enable it. -/
theorem operate_armed (t : ApicTimerState H) (op : Operation H) :
  armed (operate t op) ≤ TimerEvent.enabling (.operation op) + armed t
  := by
  cases op with
  | read => exact Nat.le_add_left _ _
  | write val => exact Nat.le_add_left _ _
  | setMode features =>
      have hkeep : (apicTimerSetmode features t).enabled = t.enabled := by
        rw [apicTimerSetmode]
        split
        · rfl
        · split <;> rfl
      rw [armed, operate, hkeep]
      exact Nat.le_add_left _ _
  | setEnable enable =>
      cases enable with
      | true => exact Nat.le_add_right _ _
      | false => exact Nat.zero_le _
  | setHandler handler => exact Nat.le_add_left _ _

/-- However interrupts and operations follow each other, and whatever operations the handlers make
themselves: there are no more calls in one-shot mode than the timer was enabled by others. What a
handler that is called in one-shot mode enables is lost. -/
theorem oneshotCalls_le (t : ApicTimerState H) (es : List (TimerEvent H)) :
  oneshotCalls acts t es ≤ (es.map TimerEvent.enabling).sum + if t.enabled then 1 else 0
  := by
  induction es generalizing t with
  | nil => exact Nat.zero_le _
  | cons e es ih =>
      rw [oneshotCalls, List.map_cons, List.sum_cons]
      cases e with
      | interrupt =>
          have hstep := apicHandler_armed acts t
          have hrest := ih (apicHandler acts t).2
          change (if (apicHandler acts t).1.isSome ∧ (apicHandler acts t).2.oneshot then 1 else 0)
            + oneshotCalls acts (apicHandler acts t).2 es ≤ 0 + _ + armed t
          change _ ≤ _ + armed (apicHandler acts t).2 at hrest
          omega
      | operation op =>
          have hstep := operate_armed t op
          have hrest := ih (operate t op)
          change _ ≤ _ + armed (operate t op) at hrest
          change (if (none : Option (Handler H)).isSome ∧ (operate t op).oneshot then 1 else 0)
            + oneshotCalls acts (operate t op) es ≤ _ + _ + armed t
          rw [if_neg fun h => Bool.false_ne_true h.1]
          omega

end Handling

end Apic
