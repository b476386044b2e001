import Gubernatrix.Interrupts.Allocate
import Gubernatrix.Timers.Registry
import Mathlib.Logic.Function.Basic

/-!
# The HPET

The driver of the HPET: the registers of the device, the array `timers` with the state of its
timers, and the functions over them. All timers share one interrupt vector, whose handler calls the
handlers of the timers. `hpet_init` registers the main counter and the timers, and looks for an
IOAPIC line for each timer that cannot send its interrupts as messages.
-/

namespace Hpet

open Timers (Features Handlers Handler)

/-- `uint32_t`. -/
abbrev U32 := BitVec 32

/-! ### The device -/

/-- `HPET_TimerConfigRegister`. -/
structure TimerConfig where
  interruptEnable : Bool
  timerType : Bool
  periodicCapable : Bool
  valueSet : Bool
  interruptRoute : BitVec 5
  fsbInterruptEnable : Bool
  fsbInterruptDelivery : Bool
  routingCapability : U32
deriving DecidableEq

/-- `HPET_Timer`, with the two halves of its `HPET_FSBRoute`. -/
structure Timer where
  configuration : TimerConfig
  comparatorValue : U64
  fsbValue : U32
  fsbAddress : U32

/-- `HPET_Main`. -/
structure Main where
  timerCount : BitVec 5
  is64Bit : Bool
  clockPeriod : U32
  globalEnable : Bool
  interruptStatus : U64
  counterValue : U64
  timers : ℕ → Timer

/-- The registers with those of a timer changed. -/
def Main.setTimer (hpet : Main) (i : ℕ) (f : Timer → Timer) : Main :=
  { hpet with timers := Function.update hpet.timers i (f (hpet.timers i)) }

/-- The registers with the configuration of a timer changed. -/
def Main.configure (hpet : Main) (i : ℕ) (f : TimerConfig → TimerConfig) : Main :=
  hpet.setTimer i fun t => { t with configuration := f t.configuration }

/-! ### The driver -/

/-- The functions that the drivers of the timers register. -/
inductive Fn where
  | tscRead
  | hpetMainRead
  | hpetMainWrite
  | hpetTimerRead
  | hpetTimerWrite
  | hpetTimerSetmode
  | hpetTimerSetenable
  | hpetTimerSethandler
  | apicTimerSetmode
  | apicTimerSetenable
  | apicTimerSethandler
  | rtcReadtime
deriving DecidableEq

/-- `HPET_TimerState`, without the pointer to the device. -/
structure TimerState (H : Type) where
  enabled : Bool
  curHandler : Option (Handler H)

/-- `sizeof(HPET_TimerState)`. -/
def sizeofTimerState : ℕ := 24

/-- The device and the array `timers`: what it holds, the bytes that were asked for, once there
is one, and the elements that were accessed. -/
structure Driver (H : Type) where
  hpet : Main
  timers : ℕ → TimerState H
  timersSize : Option ℕ
  accessed : List ℕ

variable {H : Type}

/-- An access to an element of `timers`. -/
def Driver.access (d : Driver H) (i : ℕ) : Driver H := { d with accessed := d.accessed ++ [i] }

/-- `hpet_timer_read`. -/
def hpetTimerRead (d : Driver H) (i : ℕ) : U64 × Driver H :=
  let d := d.access i
  ((d.hpet.timers i).comparatorValue, d)

/-- `hpet_timer_write`. -/
def hpetTimerWrite (d : Driver H) (i : ℕ) (val : U64) : Driver H :=
  let d := d.access i
  let hpet := d.hpet
  let hpet :=
    if (hpet.timers i).configuration.timerType then
      hpet.configure i fun c => { c with valueSet := true }
    else hpet
  let hpet := hpet.setTimer i fun t => { t with comparatorValue := hpet.counterValue + val }
  let hpet :=
    if (hpet.timers i).configuration.timerType then
      hpet.setTimer i fun t => { t with comparatorValue := val }
    else hpet
  { d with hpet := hpet }

/-- `hpet_timer_setmode`. -/
def hpetTimerSetmode (d : Driver H) (i : ℕ) (features : Features) : Driver H :=
  let d := d.access i
  if features &&& Timers.featuresOneshot ≠ 0 then
    { d with hpet := d.hpet.configure i fun c => { c with timerType := false } }
  else if features &&& Timers.featuresPeriodic ≠ 0 then
    { d with hpet := d.hpet.configure i fun c => { c with timerType := true } }
  else d

/-- `hpet_timer_setenable`. -/
def hpetTimerSetenable (d : Driver H) (i : ℕ) (enable : Bool) : Driver H :=
  let d := d.access i
  { d with
    timers := Function.update d.timers i { d.timers i with enabled := enable }
    hpet := d.hpet.configure i fun c => { c with interruptEnable := enable } }

/-- `hpet_timer_sethandler`. -/
def hpetTimerSethandler (d : Driver H) (i : ℕ) (handler : Option (Handler H)) : Driver H :=
  let d := d.access i
  { d with timers := Function.update d.timers i { d.timers i with curHandler := handler } }

/-- `hpet_timer_sendeoi`. -/
def hpetTimerSendeoi (d : Driver H) (i : ℕ) : Driver H :=
  let d := d.access i
  { d with hpet := { d.hpet with interruptStatus := (1#32 <<< i).signExtend 64 } }

/-- The body of the loop of `hpet_timer_handler`, with the calls so far: the timer of a call, and
the handler. -/
def handlerTurn (s : List (ℕ × Handler H) × Driver H) (i : ℕ) :
    List (ℕ × Handler H) × Driver H :=
  let (calls, d) := s
  let d := d.access i
  if (d.timers i).enabled then
    (calls ++ (d.timers i).curHandler.toList.map (i, ·),
      { d with hpet := { d.hpet with interruptStatus := (1#32 <<< i).setWidth 64 } })
  else (calls, d)

/-- `hpet_timer_handler`, with the calls that it makes. -/
def hpetTimerHandler (d : Driver H) : List (ℕ × Handler H) × Driver H :=
  (List.range (d.hpet.timerCount.toNat + 1)).foldl handlerTurn ([], d.access 0)

/-- A timer that has not been set up. -/
def Timer.idle : Timer where
  configuration :=
    { interruptEnable := false
      timerType := false
      periodicCapable := true
      valueSet := false
      interruptRoute := 0
      fsbInterruptEnable := false
      fsbInterruptDelivery := false
      routingCapability := 0xf00000 }
  comparatorValue := 0
  fsbValue := 0
  fsbAddress := 0

/-- An HPET with a clock of 100 MHz that has not been set up; `timerCount` is one less than the
number of its timers. -/
def Main.idle (timerCount : BitVec 5) : Main where
  timerCount := timerCount
  is64Bit := true
  clockPeriod := 10000000
  globalEnable := false
  interruptStatus := 0
  counterValue := 0
  timers _ := .idle

/-- The driver of such an HPET. -/
def Driver.idle (timerCount : BitVec 5) : Driver H where
  hpet := .idle timerCount
  timers _ := ⟨false, none⟩
  timersSize := none
  accessed := []

/-- `hpet_getcount`. -/
def hpetGetcount (hpet : Main) : ℕ := hpet.timerCount.toNat + 2

/-! ### `hpet_init` -/

/-- A call for a line of the IOAPICs. -/
inductive LineCall where
  | mapinterrupt (line : ℕ) (irq : U32) (activeLow levelTrig : Bool)
  | setmask (line : ℕ) (mask : Bool)
deriving DecidableEq

/-- What `hpet_init` works on: the driver, the table of timers, the vector that
`hpet_timer_handler` was registered for, and the calls for lines of the IOAPICs. -/
structure State (H : Type) where
  driver : Driver H
  registry : Timers.State Fn H
  vector : Option U32
  lines : List LineCall

/-- How a run ends: it returns, it divides by zero, or it is still in a loop when the steps allowed
for the loop are used up. -/
inductive Outcome where
  | returned
  | divides
  | spins
deriving DecidableEq

/-- `timer_register`. -/
def State.register (s : State H) (features : Features) (handlers : Handlers Fn) : State H :=
  { s with registry := Program.finalState (Timers.timerRegister features handlers s.registry) }

/-- `intrpt_num`, after `interrupt_allocate` was asked for a vector. -/
def intrptNum (blocked : ℤ → Bool) : U32 :=
  let r : Interrupts.Request := ⟨1, 0, 240⟩
  match Interrupts.allocateFixed blocked r with
  | some _ => BitVec.ofInt 32 r.base
  | none =>
      match Interrupts.allocateSearch blocked r with
      | some (base, _) => BitVec.ofInt 32 base
      | none => BitVec.ofInt 32 r.base

/-- `msi_register_addr`. -/
def msiRegisterAddr (cpuIdx : U32) : U32 :=
  0xfee00000 ||| (cpuIdx &&& 0xff) <<< 12 ||| 1 <<< 3 ||| 0 <<< 2

/-- `msi_register_data`. -/
def msiRegisterData (vec : U32) : U64 := (vec &&& 0xff).signExtend 64

/-- The loop that looks for the lowest line, with `sup_lines` and `line`, for so many steps. -/
def lineLoop : (fuel : ℕ) → (supLines : U32) → (line : ℕ) → Option ℕ
  | 0, _, _ => none
  | fuel + 1, supLines, line =>
      if supLines &&& 1 = 0 then lineLoop fuel (supLines.sshiftRight 1) (line + 1) else some line

/-- The rate of the counter: its period is in femtoseconds. -/
def Main.rate (hpet : Main) : U64 := 1000000000000000 / hpet.clockPeriod.setWidth 64

/-- `common_features`. -/
def Main.commonFeatures (hpet : Main) : Features :=
  let commonFeatures := Timers.featuresPersistent ||| Timers.featuresRead
  if hpet.is64Bit then commonFeatures ||| Timers.features64bit else commonFeatures

/-- The main counter, as it is registered; the address of the device is left out. -/
def mainCounter (rate : U64) : Handlers Fn where
  name := "hpet_main"
  rate := rate
  state := 0
  read := some .hpetMainRead
  write := some .hpetMainWrite
  setMode := none
  setEnable := none
  setHandler := none

/-- A timer, as it is registered. -/
def subCounter (i : ℕ) (rate : U64) : Handlers Fn where
  name := "hpet_sub".push (Char.ofNat (i + '0'.toNat))
  rate := rate
  state := BitVec.ofNat 64 i
  read := some .hpetTimerRead
  write := some .hpetTimerWrite
  setMode := some .hpetTimerSetmode
  setEnable := some .hpetTimerSetenable
  setHandler := some .hpetTimerSethandler

/-- A timer is set up to send its interrupts as messages. -/
def configureFsb (cpuidx intrptNum : U32) (i : ℕ) (s : State H) : State H :=
  { s with
    driver :=
      { s.driver with
        hpet := s.driver.hpet.setTimer i fun t =>
          { t with
            configuration := { t.configuration with fsbInterruptEnable := true }
            fsbAddress := msiRegisterAddr cpuidx
            fsbValue := (msiRegisterData intrptNum).setWidth 32 } } }

/-- A timer is routed to a line. -/
def configureLine (intrptNum : U32) (line i : ℕ) (s : State H) : State H :=
  { s with
    driver :=
      { s.driver with
        hpet := s.driver.hpet.configure i fun c =>
          { c with interruptRoute := BitVec.ofNat 5 line } }
    lines := s.lines ++ [.mapinterrupt line intrptNum false false, .setmask line false] }

/-- The end of a turn of the loop over the timers: the timer is registered and disabled. -/
def finishTimer (subFeatures : Features) (i : ℕ) (s : State H) : State H :=
  let periodic := (s.driver.hpet.timers i).configuration.periodicCapable
  let subFeatures := if periodic then subFeatures ||| Timers.featuresPeriodic else subFeatures
  let s := s.register subFeatures (subCounter i s.driver.hpet.rate)
  { s with driver := hpetTimerSetenable (hpetTimerWrite s.driver i 0) i false }

/-- A turn of the loop over the timers. -/
def initTimer (fuel : ℕ) (cpuidx intrptNum : U32) (commonFeatures : Features) (i : ℕ)
    (s : State H) : State H × Outcome :=
  let subFeatures := commonFeatures ||| (Timers.featuresWrite ||| Timers.featuresOneshot)
  let s := { s with driver := s.driver.access i }
  let configuration := (s.driver.hpet.timers i).configuration
  if configuration.fsbInterruptDelivery then
    (finishTimer (subFeatures ||| Timers.featuresPcieMsgIntr) i
      (configureFsb cpuidx intrptNum i s), .returned)
  else
    match lineLoop fuel configuration.routingCapability 0 with
    | none => (s, .spins)
    | some line =>
        (finishTimer (subFeatures ||| Timers.featuresFixedIntr) i
          (configureLine intrptNum line i s), .returned)

/-- The loop over the timers, with `n` timers left from timer `i` on. -/
def initTimers (fuel : ℕ) (cpuidx intrptNum : U32) (commonFeatures : Features) :
    (n i : ℕ) → State H → State H × Outcome
  | 0, _, s => (s, .returned)
  | n + 1, i, s =>
      match initTimer fuel cpuidx intrptNum commonFeatures i s with
      | (s, .returned) => initTimers fuel cpuidx intrptNum commonFeatures n (i + 1) s
      | (s, outcome) => (s, outcome)

/-- What `hpet_init` does before the loop over the timers, if it does not divide by zero. -/
def prepare (blocked : ℤ → Bool) (driver : Driver H) (registry : Timers.State Fn H) : State H :=
  let hpet := { driver.hpet with globalEnable := false, counterValue := 0 }
  let features := hpet.commonFeatures ||| (Timers.featuresCounter ||| Timers.featuresWrite)
  let s : State H := { driver := driver, registry := registry, vector := none, lines := [] }
  { s.register features (mainCounter hpet.rate) with
    driver :=
      { driver with
        hpet := hpet
        timersSize := some (sizeofTimerState * hpet.timerCount.toNat + 1) }
    vector := some (intrptNum blocked) }

/-- The state when `hpet_init` divides by zero, for the rate of the main counter. -/
def divided (driver : Driver H) (registry : Timers.State Fn H) : State H where
  driver := { driver with hpet := { driver.hpet with globalEnable := false, counterValue := 0 } }
  registry := registry
  vector := none
  lines := []

/-- `base_addr->Configuration.GlobalEnable = 0`, at the end of `hpet_init`. -/
def State.enableCounter (s : State H) : State H :=
  { s with driver := { s.driver with hpet := { s.driver.hpet with globalEnable := false } } }

/-- `hpet_init`, with so many steps allowed for each search for a line. -/
def hpetInit (fuel : ℕ) (cpuidx : U32) (blocked : ℤ → Bool) (driver : Driver H)
    (registry : Timers.State Fn H) : State H × Outcome :=
  if driver.hpet.clockPeriod = 0 then (divided driver registry, .divides)
  else
    match initTimers fuel cpuidx (intrptNum blocked) driver.hpet.commonFeatures
        (driver.hpet.timerCount.toNat + 1) 0 (prepare blocked driver registry) with
    | (s, .returned) => (s.enableCounter, .returned)
    | (s, outcome) => (s, outcome)

end Hpet
