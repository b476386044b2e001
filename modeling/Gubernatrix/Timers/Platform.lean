import Gubernatrix.Cpuid
import Gubernatrix.Timers.Rtc
import Gubernatrix.Tls

/-!
# The timers of the platform

`timer_init` asks how many timers there can be, allocates the table for them, and sets up the
timers: the time-stamp counter if it can be used, the HPET otherwise, and in both cases the timer of
the local APIC and the real-time clock. The other cores set up the timers of their local APICs by
`timer_mp_init`. Afterwards interrupts come from the HPET, and the timers of the table are operated.
-/

namespace Platform

open Hpet (Fn)
open Timers (Features Handler Handlers)

/-- `tls_apic_timer_state_t`. -/
structure ApicTimerState (H : Type) where
  tscMode : Bool
  enabled : Bool
  oneshot : Bool
  handler : Option (Handler H)

/-- `sizeof(tls_apic_timer_state_t)`. -/
def sizeofApicTimerState : U64 := 16

/-- What the timers are set up on: the processor, as `get_cpuid` tells, the index of its boot core,
the year that the kernel was built in, and the registers of the real-time clock, with the values of
`STATUS_A` that are read before the time. -/
structure Machine where
  cpuinfo : Cpuid.Cpuinfo
  cpuidx : BitVec 32
  currentYear : ℕ
  statusA : List Rtc.U8
  cmos : ℕ → Rtc.U8

/-- The state of a run. A run stops when a function does not return. -/
structure World (H : Type) where
  driver : Hpet.Driver H
  registry : Timers.State Fn H
  timerDefCnt : ℕ
  hpetVector : Option (BitVec 32)
  blocked : ℤ → Bool
  tls : Tls.State
  apicState : U64
  apicInitDone : Bool
  apicTimers : ℕ → ApicTimerState H
  rtc : Option Rtc.State
  stopped : Bool

variable {H : Type}

/-- `timer_register`. -/
def World.register (w : World H) (features : Features) (handlers : Handlers Fn) : World H :=
  { w with registry := Program.finalState (Timers.timerRegister features handlers w.registry) }

/-! ### The timers of the processor -/

/-- `use_tsc`. -/
def useTsc (cpuinfo : Cpuid.Cpuinfo) : Bool :=
  cpuinfo.tscValid && cpuinfo.tscDeadline && cpuinfo.tscInvar && cpuinfo.tscFreq != 0
    && cpuinfo.apicFreq != 0

/-- The timer of the local APIC, as it is registered. -/
def apicLocal : Handlers Fn where
  name := "apic_local"
  rate := 20000
  state := 0
  read := none
  write := none
  setMode := some .apicTimerSetmode
  setEnable := some .apicTimerSetenable
  setHandler := some .apicTimerSethandler

/-- The features of the timer of the local APIC. -/
def apicLocalFeatures : Features :=
  Timers.featuresPersistent ||| Timers.featuresOneshot ||| Timers.featuresPeriodic
    ||| Timers.featuresLocal

/-- The part of `apic_timer_init` for the first core: the slot for the state is allocated, and the
timer registered. -/
def apicAllocate (w : World H) : World H :=
  if w.apicState = 0 then
    match Tls.tlsAlloc sizeofApicTimerState w.tls with
    | .ok off tls => { w with tls := tls, apicState := off }.register apicLocalFeatures apicLocal
    | .error _ tls => { w with tls := tls, stopped := true }
  else w

/-- `apic_timer_init` on a core; of `local_apic_timer_init`, the vector that the boot core
allocates. -/
def apicTimerInit (core : ℕ) (w : World H) : World H :=
  let w := apicAllocate w
  if w.stopped then w
  else
    let blocked :=
      if w.apicInitDone then w.blocked
      else (Interrupts.interruptAllocate w.blocked ⟨1, Interrupts.flagsExclusive, 50⟩).blocked
    { w with
      apicTimers := Function.update w.apicTimers core ⟨false, false, false, none⟩
      blocked := blocked
      apicInitDone := true }

/-- The time-stamp counter, as it is registered. -/
def tscCounter (cpuinfo : Cpuid.Cpuinfo) : Handlers Fn where
  name := "tsc"
  rate := cpuinfo.tscFreq
  state := 0
  read := some .tscRead
  write := none
  setMode := none
  setEnable := none
  setHandler := none

/-- The features of the time-stamp counter. -/
def tscFeatures : Features :=
  Timers.featuresPersistent ||| Timers.featuresCounter ||| Timers.featuresRead

/-- `tsc_init`, on the boot core. -/
def tscInit (m : Machine) (w : World H) : World H :=
  apicTimerInit 0 (w.register tscFeatures (tscCounter m.cpuinfo))

/-- `tsc_mp_init`. -/
def tscMpInit (core : ℕ) (w : World H) : World H := apicTimerInit core w

/-! ### `timer_init` and `timer_mp_init` -/

/-- `timer_platform_gettimercount`. -/
def timerPlatformGettimercount (cpuinfo : Cpuid.Cpuinfo) (hpet : Hpet.Main) : ℕ :=
  Hpet.hpetGetcount hpet + (if useTsc cpuinfo then 2 else 0) + 2

/-- `hpet_init`, with so many steps allowed for each search for a line. -/
def hpetInit (fuel : ℕ) (m : Machine) (w : World H) : World H :=
  let (s, outcome) := Hpet.hpetInit fuel m.cpuidx w.blocked w.driver w.registry
  { w with
    driver := s.driver
    registry := s.registry
    hpetVector := s.vector
    stopped := outcome != .returned }

/-- `rtc_init`. -/
def rtcInit (m : Machine) (w : World H) : World H :=
  match Rtc.rtcInit m.currentYear m.statusA m.cmos w.blocked w.registry with
  | some (rtc, registry) => { w with rtc := some rtc, registry := registry.getD w.registry }
  | none => { w with stopped := true }

/-- What `timer_platform_init` does next, unless it has stopped. -/
def World.andThen (w : World H) (f : World H → World H) : World H := if w.stopped then w else f w

/-- `timer_platform_init`. `hpet_init` never fails, so that `pit_init` is not called. -/
def timerPlatformInit (fuel : ℕ) (m : Machine) (w : World H) : World H :=
  (if useTsc m.cpuinfo then tscInit m w
    else (hpetInit fuel m w).andThen (apicTimerInit 0)).andThen (rtcInit m)

/-- `timer_init`. -/
def timerInit (fuel : ℕ) (m : Machine) (w : World H) : World H :=
  timerPlatformInit fuel m
    { w with timerDefCnt := timerPlatformGettimercount m.cpuinfo w.driver.hpet }

/-- `timer_mp_init`. -/
def timerMpInit (m : Machine) (core : ℕ) (w : World H) : World H :=
  if useTsc m.cpuinfo then tscMpInit core w else apicTimerInit core w

/-- The thread-local storage when `timer_init` is called: the slots of `vmem_init`, `gdt_init`,
`idt_init` and `apic_init` have been allocated. -/
def bootTls (pos : U64) : Tls.State :=
  let boot : Program Tls.State Unit := do
    Tls.tlsInit 0
    let _ ← Tls.tlsAlloc 16
    let _ ← Tls.tlsAlloc 16
    let _ ← Tls.tlsAlloc 32
    let _ ← Tls.tlsAlloc 16
  Program.finalState (boot { tlsAllocOff := 0, bootstrapAllocPos := pos, gsBase := fun _ => none })

/-- The state when `timer_init` is called, with any HPET; what `malloc` finds in the memory of
`timers` is left to chance. -/
def World.boot (hpet : Hpet.Main) (timers : ℕ → Hpet.TimerState H) (blocked : ℤ → Bool)
    (pos : U64) : World H where
  driver := { hpet := hpet, timers := timers, timersSize := none, accessed := [] }
  registry := .initial []
  timerDefCnt := 0
  hpetVector := none
  blocked := blocked
  tls := bootTls pos
  apicState := 0
  apicInitDone := false
  apicTimers _ := ⟨false, false, false, none⟩
  rtc := none
  stopped := false

/-! ### Runs -/

/-- A function of a timer that is called, with its arguments. -/
inductive Operation (H : Type) where
  | read
  | write (val : U64)
  | setMode (features : Features)
  | setEnable (enable : Bool)
  | setHandler (handler : Option (Handler H))

/-- The function of the driver of a timer that an operation calls. -/
def Operation.fn (handlers : Handlers Fn) : Operation H → Option Fn
  | .read => handlers.read
  | .write _ => handlers.write
  | .setMode _ => handlers.setMode
  | .setEnable _ => handlers.setEnable
  | .setHandler _ => handlers.setHandler

/-- `apic_timer_setmode`. -/
def apicTimerSetmode (features : Features) (t : ApicTimerState H) : ApicTimerState H :=
  if features &&& Timers.featuresOneshot ≠ 0 then { t with oneshot := true }
  else if features &&& Timers.featuresPeriodic ≠ 0 then { t with oneshot := false }
  else t

/-- A call of a function of a driver on a core, for a timer with the given `state`. -/
def call (core i : ℕ) (fn : Fn) (op : Operation H) (w : World H) : World H :=
  let apic (f : ApicTimerState H → ApicTimerState H) : World H :=
    { w with apicTimers := Function.update w.apicTimers core (f (w.apicTimers core)) }
  match fn, op with
  | .hpetMainWrite, .write val =>
      { w with driver := { w.driver with hpet := { w.driver.hpet with counterValue := val } } }
  | .hpetTimerRead, .read => { w with driver := (Hpet.hpetTimerRead w.driver i).2 }
  | .hpetTimerWrite, .write val => { w with driver := Hpet.hpetTimerWrite w.driver i val }
  | .hpetTimerSetmode, .setMode features =>
      { w with driver := Hpet.hpetTimerSetmode w.driver i features }
  | .hpetTimerSetenable, .setEnable enable =>
      { w with driver := Hpet.hpetTimerSetenable w.driver i enable }
  | .hpetTimerSethandler, .setHandler handler =>
      { w with driver := Hpet.hpetTimerSethandler w.driver i handler }
  | .apicTimerSetmode, .setMode features => apic (apicTimerSetmode features)
  | .apicTimerSetenable, .setEnable enable => apic fun t => { t with enabled := enable }
  | .apicTimerSethandler, .setHandler handler => apic fun t => { t with handler := handler }
  | _, _ => w

/-- An operation on a timer of the table; a call through `NULL` stops the run. -/
def operate (core idx : ℕ) (op : Operation H) (w : World H) : World H :=
  match w.registry.defs[idx]? with
  | none => w
  | some t =>
      match op.fn t.handlers with
      | some fn => call core t.handlers.state.toNat fn op w
      | none => { w with stopped := true }

/-- What happens after `timer_init`: `smp_bootstrap` on another core, an interrupt of the HPET, or
an operation on a timer. -/
inductive Event (H : Type) where
  | mpInit (core : ℕ)
  | hpetInterrupt
  | operation (core idx : ℕ) (op : Operation H)

/-- The state after an event. -/
def step (m : Machine) (w : World H) (e : Event H) : World H :=
  if w.stopped then w
  else
    match e with
    | .mpInit core =>
        timerMpInit m core { w with tls := Program.finalState (Tls.tlsInit core w.tls) }
    | .hpetInterrupt =>
        if w.hpetVector.isSome then { w with driver := (Hpet.hpetTimerHandler w.driver).2 } else w
    | .operation core idx op => operate core idx op w

end Platform
