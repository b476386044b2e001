import Gubernatrix.Timers.Rtc

/-!
# Reading the real-time clock

The registers of the clock hold the time in one of four formats. With 24 hours, `rtc_gettime` reads
the time that they hold. With 12 hours it takes noon and midnight, which are hour 12 of their half
of the day, for the end of that half.
-/

namespace Rtc

open Calendar (Moment)

/-! ### Formats -/

/-- The registers are binary. -/
def isBinary (regs : ℕ → U8) : Bool := regs Reg.statusB.off &&& 4 != 0

/-- The hours count from 0 to 23. -/
def is24hr (regs : ℕ → U8) : Bool := regs Reg.statusB.off &&& 2 != 0

/-- A number as a register holds it. -/
def encode (isBinary : Bool) (x : ℕ) : U8 :=
  BitVec.ofNat 8 (if isBinary then x else x / 10 * 16 + x % 10)

/-- The numbers below which a register can hold all. -/
def limit (isBinary : Bool) : ℕ := if isBinary then 256 else 100

/-- The hour of a half of the day, from 1 to 12. -/
def hour12 (hour : ℕ) : ℕ := if hour % 12 = 0 then 12 else hour % 12

/-- An hour as a register holds it: with 12 hours, the highest bit says that it is after noon. -/
def encodeHour (is24hr isBinary : Bool) (hour : ℕ) : U8 :=
  if is24hr then encode isBinary hour
  else encode isBinary (hour12 hour) ||| if 12 ≤ hour then 0x80 else 0

/-- The registers hold a moment, in the format that `STATUS_B` selects. -/
structure Encodes (regs : ℕ → U8) (t : Moment) : Prop where
  century_lt : t.date.year / 100 < limit (isBinary regs)
  century : regs Reg.century.off = encode (isBinary regs) (t.date.year / 100)
  year : regs Reg.year.off = encode (isBinary regs) (t.date.year % 100)
  month : regs Reg.month.off = encode (isBinary regs) t.date.month
  dayofmonth : regs Reg.dayofmonth.off = encode (isBinary regs) t.date.day
  weekday : regs Reg.weekday.off = encode (isBinary regs) t.weekday
  hours : regs Reg.hours.off = encodeHour (is24hr regs) (isBinary regs) t.hour
  minutes : regs Reg.minutes.off = encode (isBinary regs) t.minute
  seconds : regs Reg.seconds.off = encode (isBinary regs) t.secondOfMinute

/-- While `STATUS_A` is read, an update of the registers is seen in progress, and later none. -/
def Updates (statusA : List U8) : Prop :=
  ∃ before busy between idle later, statusA = before ++ busy :: (between ++ idle :: later)
    ∧ busy &&& 0x80 = 0x80 ∧ idle &&& 0x80 ≠ 0x80

/-- `rtc_gettime` returns, with the variables showing the moment. -/
def Reads (statusA : List U8) (regs : ℕ → U8) (t : Moment) : Prop :=
  ∃ time, rtcGettime statusA regs = some time ∧ time.Shows t

/-! ### Registers -/

section Registers

/-- What a register holds is found again. -/
theorem toNat_conv_encode {binary : Bool} {x : ℕ} (hx : x < limit binary) :
  (conv binary (encode binary x)).toNat = x
  := by
  cases binary with
  | true => exact Nat.mod_eq_of_lt hx
  | false =>
      have hlt : x < 100 := hx
      have hmask : (0xf : U8).toNat = 2 ^ 4 - 1 := rfl
      have hten : (10 : U8).toNat = 10 := rfl
      have hsixteen : (16 : U8).toNat = 16 := rfl
      simp only [conv, encode, binFromBcd, Bool.false_eq_true, if_false, BitVec.toNat_add,
        BitVec.toNat_mul, BitVec.toNat_udiv, BitVec.toNat_and, BitVec.toNat_ofNat, hmask, hten,
        hsixteen, Nat.and_two_pow_sub_one_eq_mod]
      have hbyte : (x / 10 * 16 + x % 10) % 2 ^ 8 = x / 10 * 16 + x % 10 := by omega
      have htens : (x / 10 * 16 + x % 10) / 16 = x / 10 := by omega
      have hones : (x / 10 * 16 + x % 10) % 2 ^ 4 = x % 10 := by omega
      rw [hbyte, htens, hones]
      omega

/-- The hour that is read with 12 hours: noon and midnight come out too late. -/
theorem toNat_decodeHours {hour24 binary : Bool} {hour : ℕ} (hlt : hour < 24) :
  (decodeHours hour24 binary (encodeHour hour24 binary hour)).toNat
    = if hour24 = false ∧ hour % 12 = 0 then hour + 12 else hour
  := by
  have hall : ∀ hour24 binary : Bool, ∀ hour < 24,
      (decodeHours hour24 binary (encodeHour hour24 binary hour)).toNat
        = if hour24 = false ∧ hour % 12 = 0 then hour + 12 else hour := by
    decide
  exact hall hour24 binary hour hlt

theorem hour_lt (t : Moment) :
  t.hour < 24
  := by
  have hsecond : t.second < 86400 := t.second_lt
  rw [Moment.hour]
  omega

section Encoded

variable {regs : ℕ → U8} {t : Moment}

/-- A number of two digits is read from its register. -/
theorem toNat_conv_reg {reg : Reg} {x : ℕ} (hreg : regs reg.off = encode (isBinary regs) x)
    (hx : x < 100) :
  (conv (isBinary regs) (regs reg.off)).toNat = x
  := by
  have hlimit : 100 ≤ limit (isBinary regs) := by
    rw [limit]
    split_ifs
    all_goals decide
  rw [hreg]
  exact toNat_conv_encode (Nat.lt_of_lt_of_le hx hlimit)

/-- The hours that are read from the registers. -/
theorem Encodes.toNat_hours (h : Encodes regs t) :
  (decode regs).hours.toNat
    = if is24hr regs = false ∧ t.hour % 12 = 0 then t.hour + 12 else t.hour
  := by
  rw [← toNat_decodeHours (hour_lt t), ← h.hours]
  rfl

/-- The time is read right, but for the hours. -/
theorem shows_decode_iff (h : Encodes regs t) :
  (decode regs).Shows t ↔ is24hr regs = true ∨ t.hour % 12 ≠ 0
  := by
  have hmonth := t.date.month_le
  have hday := t.date.day_le
  have hlength := Calendar.monthLength_le t.date.year t.date.month
  have hweekday := t.weekday_le
  constructor
  · intro hshows
    have heq := hshows.hours
    rw [h.toNat_hours] at heq
    split_ifs at heq with hwrong
    · omega
    · rw [not_and_or, Bool.not_eq_false] at hwrong
      exact hwrong
  · intro hright
    constructor
    · apply Eq.trans _ (toNat_conv_encode h.century_lt)
      rw [← h.century]
      rfl
    · exact toNat_conv_reg h.year (Nat.mod_lt _ (by decide))
    · exact toNat_conv_reg h.month (by omega)
    · exact toNat_conv_reg h.dayofmonth (by omega)
    · exact toNat_conv_reg h.weekday (by omega)
    · rw [h.toNat_hours, if_neg]
      rw [not_and_or, Bool.not_eq_false]
      exact hright
    · apply toNat_conv_reg h.minutes
      rw [Moment.minute]
      omega
    · apply toNat_conv_reg h.seconds
      rw [Moment.secondOfMinute]
      omega

end Encoded

end Registers

/-! ### Waiting for an update -/

section Waiting

/-- A loop that comes to the value it waits for ends, at that value or before it. -/
theorem awaitUpdate_eq_some {inProgress : Bool} {statusA : U8} (before later : List U8)
    (h : (statusA &&& 0x80 == 0x80) = inProgress) :
  ∃ rest, awaitUpdate inProgress (before ++ statusA :: later) = some (rest ++ later)
  := by
  induction before with
  | nil =>
      use []
      rw [List.nil_append, awaitUpdate, if_pos h, List.nil_append]
  | cons first before ih =>
      rw [List.cons_append, awaitUpdate]
      split_ifs
      · use before ++ [statusA]
        rw [List.append_assoc, List.singleton_append]
      · exact ih

theorem rtcGettime_eq_some {statusA : List U8} (h : Updates statusA) (regs : ℕ → U8) :
  rtcGettime statusA regs = some (decode regs)
  := by
  obtain ⟨before, busy, between, idle, later, rfl, hbusy, hidle⟩ := h
  obtain ⟨rest, hrest⟩ := awaitUpdate_eq_some before (between ++ idle :: later)
    (beq_iff_eq.mpr hbusy)
  obtain ⟨rest', hrest'⟩ := awaitUpdate_eq_some (rest ++ between) later
    (beq_eq_false_iff_ne.mpr hidle)
  rw [List.append_assoc] at hrest'
  rw [rtcGettime, hrest]
  simp only [Option.bind_eq_bind, Option.bind_some, hrest']
  rfl

end Waiting

/-- `rtc_gettime` reads the time right exactly with 24 hours, and with 12 hours at all hours but
those of noon and midnight. -/
theorem reads_iff {statusA : List U8} {regs : ℕ → U8} {t : Moment} (hregs : Encodes regs t)
    (hupdates : Updates statusA) :
  Reads statusA regs t ↔ is24hr regs = true ∨ t.hour % 12 ≠ 0
  := by
  rw [← shows_decode_iff hregs, Reads, rtcGettime_eq_some hupdates]
  simp only [Option.some.injEq, exists_eq_left']

theorem isDate_leapDay :
  Calendar.IsDate 2024 2 29
  := by decide

theorem isMoment_evening :
  Calendar.IsMoment 5 73800
  := by decide

theorem isMoment_noon :
  Calendar.IsMoment 5 43200
  := by decide

/-- Half past eight in the evening of the last day of February 2024, a Thursday. -/
def evening : Moment := (Calendar.Date.ofNumbers isDate_leapDay).at isMoment_evening

/-- Noon of that day. -/
def noon : Moment := (Calendar.Date.ofNumbers isDate_leapDay).at isMoment_noon

/-- The registers with 12 hours, in BCD, on that day: the rest is zero. -/
def registers (hours minutes : U8) : ℕ → U8
  | 0x02 => minutes
  | 0x04 => hours
  | 0x06 => 0x05
  | 0x07 => 0x29
  | 0x08 => 0x02
  | 0x09 => 0x24
  | 0x32 => 0x20
  | _ => 0

theorem encodes_evening :
  Encodes (registers 0x88 0x30) evening
  := by
  constructor
  all_goals decide

theorem updates_once :
  Updates [0x80, 0x00]
  := by
  use [], 0x80, [], 0x00, [], rfl
  decide

theorem reads_evening :
  Reads [0x80, 0x00] (registers 0x88 0x30) evening
  := (reads_iff encodes_evening updates_once).mpr (.inr (by decide))

/-- Noon is taken for hour 24. -/
theorem not_reads_noon :
  Encodes (registers 0x92 0x00) noon
    ∧ (rtcGettime [0x80, 0x00] (registers 0x92 0x00)).map (·.hours) = some 24
    ∧ ¬ Reads [0x80, 0x00] (registers 0x92 0x00) noon
  := by
  have hencodes : Encodes (registers 0x92 0x00) noon := by
    constructor
    all_goals decide
  have hread := rtcGettime_eq_some updates_once (registers 0x92 0x00)
  refine ⟨hencodes, by rw [hread]; rfl, ?_⟩
  rintro ⟨time, htime, hshows⟩
  obtain rfl := Option.some.inj (hread.symm.trans htime)
  have hright := (shows_decode_iff hencodes).mp hshows
  revert hright
  decide

end Rtc
