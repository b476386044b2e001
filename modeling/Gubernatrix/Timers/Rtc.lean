import Gubernatrix.Interrupts.Search
import Gubernatrix.Lib.Calendar
import Gubernatrix.Lib.Trace
import Gubernatrix.Timers.Hpet
import Mathlib.Data.List.Basic

/-!
# The real-time clock

`rtc_gettime` reads the time from the registers of the clock. From then on `rtc_interrupt` keeps it,
at 1024 interrupts per second: it adds up their periods, and counts the seconds.
-/

namespace Rtc

open Timers (Features Handlers)

/-- `uint8_t`. -/
abbrev U8 := BitVec 8

/-! ### The registers -/

/-- The offsets of the registers. -/
inductive Reg where
  | seconds
  | minutes
  | hours
  | weekday
  | dayofmonth
  | month
  | year
  | century
  | statusB
deriving DecidableEq

/-- `SECONDS` to `CENTURY`, and `STATUS_B`. -/
def Reg.off : Reg → ℕ
  | .seconds => 0x00
  | .minutes => 0x02
  | .hours => 0x04
  | .weekday => 0x06
  | .dayofmonth => 0x07
  | .month => 0x08
  | .year => 0x09
  | .century => 0x32
  | .statusB => 0x0b

/-- The variables that `rtc_gettime` sets. -/
structure Time where
  century : U8
  year : U8
  month : U8
  dayofmonth : U8
  weekday : U8
  hours : U8
  minutes : U8
  seconds : U8
deriving DecidableEq

/-- `BIN_FROM_BCD`; its value is stored in a `uint8_t`. -/
def binFromBcd (bcd : U8) : U8 := (bcd / 16) * 10 + (bcd &&& 0xf)

/-- `CONV_RTC`, unless the registers are binary. -/
def conv (isBinary : Bool) (x : U8) : U8 := if isBinary then x else binFromBcd x

/-- What `rtc_gettime` does to the hours. -/
def decodeHours (is24hr isBinary : Bool) (hours : U8) : U8 :=
  let pm := !is24hr && hours &&& 0x80 != 0
  let hours := if is24hr then hours else hours &&& ~~~0x80
  let hours := conv isBinary hours
  if !is24hr && pm then hours + 12 else hours

/-- The part of `rtc_gettime` after the registers have been read into `rtc_data`. -/
def decode (rtcData : ℕ → U8) : Time :=
  let is24hr := rtcData Reg.statusB.off &&& 2 != 0
  let isBinary := rtcData Reg.statusB.off &&& 4 != 0
  { century := conv isBinary (rtcData Reg.century.off)
    year := conv isBinary (rtcData Reg.year.off)
    month := conv isBinary (rtcData Reg.month.off)
    dayofmonth := conv isBinary (rtcData Reg.dayofmonth.off)
    weekday := conv isBinary (rtcData Reg.weekday.off)
    hours := decodeHours is24hr isBinary (rtcData Reg.hours.off)
    minutes := conv isBinary (rtcData Reg.minutes.off)
    seconds := conv isBinary (rtcData Reg.seconds.off) }

/-- A loop that reads `STATUS_A` until the update-in-progress bit is as given, with the values that
it reads: those that are left, or `none` while it is still waiting. -/
def awaitUpdate (inProgress : Bool) : List U8 → Option (List U8)
  | [] => none
  | statusA :: rest =>
      if (statusA &&& 0x80 == 0x80) = inProgress then some rest
      else awaitUpdate inProgress rest

/-- `rtc_gettime`, with the values of `STATUS_A` that it reads before the registers. -/
def rtcGettime (statusA : List U8) (regs : ℕ → U8) : Option Time := do
  let statusA ← awaitUpdate true statusA
  let _ ← awaitUpdate false statusA
  pure (decode regs)

/-! ### The interrupt -/

/-- The variables of `rtc.c`. -/
structure State where
  time : Time
  ms10000000x : U64
  msSinceboot : U64

/-- The state at the time given, before the first interrupt. -/
def State.start (time : Time) : State where
  time := time
  ms10000000x := 0
  msSinceboot := 0

/-- `if (lo >= base) { lo -= base; hi++; }`. -/
def carry (base : U8) (lo hi : U8) : U8 × U8 := if base ≤ lo then (lo - base, hi + 1) else (lo, hi)

/-- The part of `rtc_interrupt` that carries from the seconds on. -/
def Time.carried (t : Time) : Time :=
  let (seconds, minutes) := carry 60 t.seconds t.minutes
  let (minutes, hours) := carry 60 minutes t.hours
  let weekday := if 24 ≤ hours then BitVec.ofNat 8 ((t.weekday.toNat + 1) % 7) else t.weekday
  let (hours, dayofmonth) := carry 24 hours t.dayofmonth
  let (dayofmonth, month) := carry 31 dayofmonth t.month
  let (month, year) := carry 12 month t.year
  let (year, century) := carry 100 year t.century
  ⟨century, year, month, dayofmonth, weekday, hours, minutes, seconds⟩

/-- The interrupt is a periodic one. -/
def Periodic (intMask : U8) : Prop := intMask &&& 0x40 ≠ 0

instance (intMask : U8) : Decidable (Periodic intMask) := inferInstanceAs (Decidable (_ ≠ _))

/-- The part of `rtc_interrupt` that adds up the periods. -/
def State.count (intMask : U8) (s : State) : State :=
  let s := if Periodic intMask then { s with ms10000000x := s.ms10000000x + 9765625 } else s
  if s.ms10000000x ≥ 10000000000 then
    { time := { s.time with seconds := s.time.seconds + 1 }
      ms10000000x := s.ms10000000x - 10000000000
      msSinceboot := s.msSinceboot + 1 }
  else s

/-- `rtc_interrupt`, with the value of register `0x0C`. -/
def rtcInterrupt (s : State) (intMask : U8) : State :=
  let s := s.count intMask
  { s with time := s.time.carried }

/-- `rtc_readtime`. -/
def rtcReadtime (s : State) : U64 := s.msSinceboot

/-! ### `rtc_init` -/

/-- The timer, as it is registered. -/
def mainCounter : Handlers Hpet.Fn where
  name := "rtc"
  rate := 1000
  state := 0
  read := some .rtcReadtime
  write := none
  setMode := none
  setEnable := none
  setHandler := none

/-- The features of the timer. -/
def mainFeatures : Features :=
  Timers.featuresPersistent ||| Timers.featuresCounter ||| Timers.featuresRead

/-- The part of `rtc_init` after the time is read: with the vector for the interrupt, the timer is
registered. The value is `none` if the vector is not to be had. -/
def rtcRegister {H : Type} (blocked : ℤ → Bool) (registry : Timers.State Hpet.Fn H) :
    Option (Timers.State Hpet.Fn H) :=
  let reply := Interrupts.interruptAllocate blocked ⟨1, Interrupts.flagsFixed, 8 + 32⟩
  if reply.ret = 0 then
    some (Program.finalState (Timers.timerRegister mainFeatures mainCounter registry))
  else none

/-- `rtc_init`, in the year `currentYear`: the state, and the table of timers, unless no vector is
to be had for the interrupt. -/
def rtcInit {H : Type} (currentYear : ℕ) (statusA : List U8) (regs : ℕ → U8)
    (blocked : ℤ → Bool) (registry : Timers.State Hpet.Fn H) :
    Option (State × Option (Timers.State Hpet.Fn H)) := do
  let time ← rtcGettime statusA regs
  pure (.start { time with century := BitVec.ofNat 8 (currentYear / 100) },
    rtcRegister blocked registry)

/-- The variables show a moment. -/
structure Time.Shows (time : Time) (t : Calendar.Moment) : Prop where
  century : time.century.toNat = t.date.year / 100
  year : time.year.toNat = t.date.year % 100
  month : time.month.toNat = t.date.month
  dayofmonth : time.dayofmonth.toNat = t.date.day
  weekday : time.weekday.toNat = t.weekday
  hours : time.hours.toNat = t.hour
  minutes : time.minutes.toNat = t.minute
  seconds : time.seconds.toNat = t.secondOfMinute

/-! ### Counting -/

/-- The state after interrupts with these values of register `0x0C`. -/
def after (s : State) (masks : List U8) : State := Trace.final rtcInterrupt s masks

/-- The periodic interrupts. -/
def periods (masks : List U8) : ℕ := masks.countP fun intMask => decide (Periodic intMask)

/-- The timer is registered at 1000 Hz; what it reads are the milliseconds of so many periods; and
the accumulator stays below its threshold. -/
structure Measures (H : Type) (time : Time) (masks : List U8) : Prop where
  rate : ∀ blocked (registry : Timers.State Hpet.Fn H), ∀ registry' ∈ rtcRegister blocked registry,
    registry'.defs.getLast?.map (·.handlers.rate) = some 1000
  reading : (rtcReadtime (after (.start time) masks)).toNat = periods masks * 1000 / 1024
  below : Trace.Always rtcInterrupt (fun s => s.ms10000000x < 10000000000) (.start time) masks

section Counting

variable {s : State} {a : ℕ} {time : Time}

theorem threshold_toNat :
  (10000000000 : U64).toNat = 10000000000
  := rfl

/-- The accumulator holds so many periods of an interrupt, less than a second. -/
structure Holds (s : State) (a : ℕ) : Prop where
  periods : s.ms10000000x.toNat = a * 9765625
  lt : a < 1024

theorem holds_start (time : Time) :
  Holds (.start time) 0
  := ⟨rfl, by decide⟩

theorem Holds.below (h : Holds s a) :
  s.ms10000000x < 10000000000
  := by
  have hperiods := h.periods
  have hlt := h.lt
  rw [BitVec.lt_def, threshold_toNat]
  omega

/-- The periods that an interrupt adds. -/
def period (intMask : U8) : ℕ := if Periodic intMask then 1 else 0

/-- An interrupt adds its period, and counts a second when there are 1024. -/
theorem Holds.count (h : Holds s a) (intMask : U8) :
  Holds (s.count intMask) ((a + period intMask) % 1024)
    ∧ (s.count intMask).msSinceboot
      = s.msSinceboot + BitVec.ofNat 64 ((a + period intMask) / 1024)
    ∧ (s.count intMask).time
      = { s.time with
          seconds := s.time.seconds + BitVec.ofNat 8 ((a + period intMask) / 1024) }
  := by
  have hperiods := h.periods
  have hlt := h.lt
  -- The first step adds the period.
  have hadded : (if Periodic intMask then { s with ms10000000x := s.ms10000000x + 9765625 }
      else s) = { s with ms10000000x := BitVec.ofNat 64 ((a + period intMask) * 9765625) } := by
    rw [period]
    split_ifs
    · have hsum : s.ms10000000x + 9765625 = BitVec.ofNat 64 ((a + 1) * 9765625) := by
        rw [Nat.succ_mul, BitVec.ofNat_add, ← hperiods, BitVec.ofNat_toNat, BitVec.setWidth_eq]
        rfl
      rw [hsum]
    · rw [Nat.add_zero, ← hperiods, BitVec.ofNat_toNat, BitVec.setWidth_eq]
  have hle : period intMask ≤ 1 := by
    rw [period]
    split_ifs
    all_goals decide
  have htoNat : (BitVec.ofNat 64 ((a + period intMask) * 9765625)).toNat
      = (a + period intMask) * 9765625 := by
    rw [BitVec.toNat_ofNat]
    apply Nat.mod_eq_of_lt
    omega
  rw [State.count, hadded]
  simp only [ge_iff_le, BitVec.le_def, threshold_toNat, htoNat]
  split_ifs with hfull
  · have hsecond : a + period intMask = 1024 := by omega
    rw [hsecond]
    refine ⟨⟨rfl, by decide⟩, rfl, rfl⟩
  · have hpart : a + period intMask < 1024 := by omega
    rw [Nat.mod_eq_of_lt hpart, Nat.div_eq_of_lt hpart]
    have hsame : s.time.seconds + BitVec.ofNat 8 0 = s.time.seconds := BitVec.add_zero _
    rw [hsame]
    exact ⟨⟨htoNat, hpart⟩, (BitVec.add_zero _).symm, rfl⟩

@[simp]
theorem ms10000000x_rtcInterrupt (s : State) (intMask : U8) :
  (rtcInterrupt s intMask).ms10000000x = (s.count intMask).ms10000000x
  := by
  rw [rtcInterrupt]

@[simp]
theorem msSinceboot_rtcInterrupt (s : State) (intMask : U8) :
  (rtcInterrupt s intMask).msSinceboot = (s.count intMask).msSinceboot
  := by
  rw [rtcInterrupt]

theorem Holds.interrupt (h : Holds s a) (intMask : U8) :
  Holds (rtcInterrupt s intMask) ((a + period intMask) % 1024)
    ∧ (rtcInterrupt s intMask).msSinceboot
      = s.msSinceboot + BitVec.ofNat 64 ((a + period intMask) / 1024)
  := by
  obtain ⟨⟨hperiods, hlt⟩, hms, -⟩ := h.count intMask
  constructor
  · constructor
    · rw [ms10000000x_rtcInterrupt, hperiods]
    · exact hlt
  · rw [msSinceboot_rtcInterrupt, hms]

/-- The periods of a run. -/
theorem periods_cons (intMask : U8) (masks : List U8) :
  periods (intMask :: masks) = period intMask + periods masks
  := by
  rw [periods, List.countP_cons, Nat.add_comm, period, periods]
  simp only [decide_eq_true_eq]

/-- A run of periodic interrupts only. -/
theorem periods_replicate (n : ℕ) :
  periods (List.replicate n 0x40) = n
  := by
  rw [periods, List.countP_replicate]
  rfl

theorem after_cons (s : State) (intMask : U8) (masks : List U8) :
  after s (intMask :: masks) = after (rtcInterrupt s intMask) masks
  := by
  rw [after, after, Trace.final]

/-- The interrupts of a run add up their periods, and count the seconds. -/
theorem holds_after (h : Holds s a) (masks : List U8) :
  Holds (after s masks) ((a + periods masks) % 1024)
    ∧ (after s masks).msSinceboot
      = s.msSinceboot + BitVec.ofNat 64 ((a + periods masks) / 1024)
  := by
  induction masks generalizing s a with
  | nil =>
      have hlt := h.lt
      rw [show a + periods [] = a from rfl, Nat.mod_eq_of_lt hlt, Nat.div_eq_of_lt hlt]
      exact ⟨h, (BitVec.add_zero _).symm⟩
  | cons intMask masks ih =>
      obtain ⟨hholds, hms⟩ := h.interrupt intMask
      obtain ⟨hlast, hmsLast⟩ := ih hholds
      rw [periods_cons, after_cons]
      have hmod : ((a + period intMask) % 1024 + periods masks) % 1024
          = (a + (period intMask + periods masks)) % 1024 := by omega
      have hdiv : (a + period intMask) / 1024
            + ((a + period intMask) % 1024 + periods masks) / 1024
          = (a + (period intMask + periods masks)) / 1024 := by omega
      constructor
      · rw [← hmod]
        exact hlast
      · rw [hmsLast, hms, BitVec.add_assoc, ← BitVec.ofNat_add, hdiv]

/-- Only the seconds are counted. -/
theorem toNat_readtime (time : Time) (masks : List U8) :
  (rtcReadtime (after (.start time) masks)).toNat = periods masks / 1024 % 2 ^ 64
  := by
  obtain ⟨-, hms⟩ := holds_after (holds_start time) masks
  have hzero : (State.start time).msSinceboot = 0#64 := rfl
  rw [rtcReadtime, hms, hzero, Nat.zero_add, BitVec.zero_add, BitVec.toNat_ofNat]

/-- The accumulator never holds a second. -/
theorem Holds.always_below (h : Holds s a) (masks : List U8) :
  Trace.Always rtcInterrupt (fun s => s.ms10000000x < 10000000000) s masks
  := by
  induction masks generalizing s a with
  | nil => exact h.below
  | cons intMask masks ih => exact ⟨h.below, ih (h.interrupt intMask).1⟩

/-- The timer is registered at the end of the table. -/
theorem defs_rtcRegister {H : Type} {blocked : ℤ → Bool}
    {registry registry' : Timers.State Hpet.Fn H}
    (h : rtcRegister blocked registry = some registry') :
  registry'.defs = registry.defs ++ [⟨false, mainFeatures, mainCounter⟩]
  := by
  simp only [rtcRegister] at h
  split_ifs at h
  obtain rfl := Option.some.inj h
  rfl

theorem defs_of_rtcInit {H : Type} {currentYear : ℕ} {statusA : List U8} {regs : ℕ → U8}
    {blocked : ℤ → Bool} {registry registry' : Timers.State Hpet.Fn H} {rtc : State}
    (h : rtcInit currentYear statusA regs blocked registry = some (rtc, some registry')) :
  registry'.defs = registry.defs ++ [⟨false, mainFeatures, mainCounter⟩]
  := by
  obtain ⟨time, -, htime⟩ := Option.bind_eq_some_iff.mp h
  exact defs_rtcRegister (congrArg Prod.snd (Option.some.inj htime))

theorem rate_rtcRegister {H : Type} {blocked : ℤ → Bool}
    {registry registry' : Timers.State Hpet.Fn H}
    (h : registry' ∈ rtcRegister blocked registry) :
  registry'.defs.getLast?.map (·.handlers.rate) = some 1000
  := by
  rw [defs_rtcRegister h, List.getLast?_concat]
  rfl

end Counting

/-- The timer of the clock measures milliseconds up to its first period only. -/
theorem measures_iff (H : Type) (time : Time) (masks : List U8) :
  Measures H time masks ↔ periods masks ≤ 1
  := by
  constructor
  · intro h
    have hreading := h.reading
    rw [toNat_readtime] at hreading
    have hle : periods masks / 1024 % 2 ^ 64 ≤ periods masks / 1024 := Nat.mod_le _ _
    rw [hreading] at hle
    omega
  · intro h
    refine ⟨fun _ _ _ => rate_rtcRegister, ?_, (holds_start time).always_below masks⟩
    have hnone : periods masks / 1024 = 0 := by omega
    rw [toNat_readtime, hnone, Nat.zero_mod]
    omega

/-- After a second, one millisecond is read. -/
theorem not_measures_oneSecond :
  rtcReadtime (after (.start ⟨20, 19, 1, 1, 3, 0, 0, 0⟩) (List.replicate 1024 0x40)) = 1
    ∧ ¬ Measures Unit ⟨20, 19, 1, 1, 3, 0, 0, 0⟩ (List.replicate 1024 0x40)
  := by
  have hperiods := periods_replicate 1024
  have hread := toNat_readtime ⟨20, 19, 1, 1, 3, 0, 0, 0⟩ (List.replicate 1024 0x40)
  rw [hperiods, show 1024 / 1024 % 2 ^ 64 = 1 by norm_num] at hread
  constructor
  · apply BitVec.eq_of_toNat_eq
    rw [hread]
    rfl
  · intro h
    have hreading := h.reading
    rw [hread, hperiods] at hreading
    omega

end Rtc
