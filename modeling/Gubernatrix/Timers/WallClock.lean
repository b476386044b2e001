import Gubernatrix.Timers.Rtc

/-!
# The wall clock

`rtc_interrupt` carries the seconds on to the minutes and so on up to the centuries, as if all
months had 31 days, numbered from 0 to 30, the months were numbered from 0 to 11, and the weekdays
from 0 to 6. The time it keeps is that of the calendar for as long as this makes no difference.
-/

namespace Rtc

open Calendar (Date Moment)

/-! ### What should hold -/

/-- The variables show the moment that the start is advanced to, at 1024 periodic interrupts per
second. -/
def Follows (time : Time) (t : Moment) (masks : List U8) : Prop :=
  (after (.start time) masks).time.Shows (t.advance (periods masks / 1024))

/-- The days that pass. -/
def days (t : Moment) (masks : List U8) : ℕ :=
  (t.second + periods masks / 1024) / Calendar.daySeconds

/-- There was no interrupt; or only months of 31 days ended, the day is not the 31st, the month is
not December, the weekday is not 7, or still the first one, and the century fits a `uint8_t`. -/
structure Agrees (t : Moment) (masks : List U8) : Prop where
  lengths : ∀ j < days t masks, (t.date.after j).IsLast →
    Calendar.monthLength (t.date.after j).year (t.date.after j).month = 31
  day : (t.advance (periods masks / 1024)).date.day ≠ 31
  month : (t.advance (periods masks / 1024)).date.month ≠ 12
  weekday : days t masks = 0 ∨ (t.advance (periods masks / 1024)).weekday ≠ 7
  century : (t.advance (periods masks / 1024)).date.year / 100 < 256

/-! ### Carrying -/

section Carrying

variable {time : Time}

/-- The second of the day. -/
def Time.second (time : Time) : ℕ :=
  time.hours.toNat * 3600 + time.minutes.toNat * 60 + time.seconds.toNat

/-- The index of the day, with months of 31 days. -/
def Time.index (time : Time) : ℕ :=
  ((time.century.toNat * 100 + time.year.toNat) * 12 + time.month.toNat) * 31
    + time.dayofmonth.toNat

/-- The indices that there are. -/
def indexCount : ℕ := 256 * 100 * 12 * 31

/-- The variables before the carries, with so many seconds as are allowed. -/
structure Time.Within (time : Time) (seconds : ℕ) : Prop where
  seconds_lt : time.seconds.toNat < seconds
  minutes_lt : time.minutes.toNat < 60
  hours_lt : time.hours.toNat < 24
  day_le : time.dayofmonth.toNat ≤ 31
  month_le : time.month.toNat ≤ 12
  year_lt : time.year.toNat < 100

/-- The variables after the carries. -/
structure Time.Settled (time : Time) : Prop extends Time.Within time 60 where
  day_lt : time.dayofmonth.toNat < 31
  month_lt : time.month.toNat < 12

/-- The quotient and the remainder of a carry. -/
theorem toNat_carry {base lo hi lo' hi' : U8} {b : ℕ} (h : carry base lo hi = (lo', hi'))
    (hbase : base.toNat = b) (hlo : lo.toNat < 2 * b) :
  lo'.toNat = lo.toNat % b ∧ hi'.toNat = (hi.toNat + lo.toNat / b) % 256
  := by
  have hhi := hi.isLt
  rw [carry] at h
  split_ifs at h with hle
  · obtain ⟨rfl, rfl⟩ := Prod.mk.inj h
    rw [BitVec.le_def, hbase] at hle
    have hdiv : lo.toNat / b = 1 := by
      apply Nat.div_eq_of_lt_le
      · omega
      · omega
    have hmod : lo.toNat % b = lo.toNat - b := by
      rw [Nat.mod_eq_sub_mod hle]
      apply Nat.mod_eq_of_lt
      omega
    rw [hdiv, hmod, ← hbase]
    rw [← hbase] at hle
    exact ⟨BitVec.toNat_sub_of_le hle, rfl⟩
  · obtain ⟨rfl, rfl⟩ := Prod.mk.inj h
    rw [BitVec.le_def, hbase, Nat.not_le] at hle
    rw [Nat.div_eq_of_lt hle, Nat.mod_eq_of_lt hle, Nat.add_zero, Nat.mod_eq_of_lt hhi]
    exact ⟨rfl, rfl⟩

/-- What the carries leave behind: the day that is full goes to the index, and to the weekday. -/
theorem Time.Within.carried (h : time.Within 61) :
  time.carried.Settled ∧ time.carried.second = time.second % 86400
    ∧ time.carried.index = (time.index + time.second / 86400) % indexCount
    ∧ time.carried.weekday.toNat
      = if time.second / 86400 = 0 then time.weekday.toNat else (time.weekday.toNat + 1) % 7
  := by
  obtain ⟨hseconds, hminutes, hhours, hday, hmonth, hyear⟩ := h
  have hcentury := time.century.isLt
  -- One carry after the other, each with the value that the one before it leaves.
  rcases hcarry₁ : carry 60 time.seconds time.minutes with ⟨seconds, minutes⟩
  obtain ⟨hs, hm⟩ := toNat_carry (b := 60) hcarry₁ rfl (by omega)
  rcases hcarry₂ : carry 60 minutes time.hours with ⟨minutes', hours⟩
  obtain ⟨hm', hh⟩ := toNat_carry (b := 60) hcarry₂ rfl (by omega)
  rcases hcarry₃ : carry 24 hours time.dayofmonth with ⟨hours', dayofmonth⟩
  obtain ⟨hh', hd⟩ := toNat_carry (b := 24) hcarry₃ rfl (by omega)
  rcases hcarry₄ : carry 31 dayofmonth time.month with ⟨dayofmonth', month⟩
  obtain ⟨hd', hmo⟩ := toNat_carry (b := 31) hcarry₄ rfl (by omega)
  rcases hcarry₅ : carry 12 month time.year with ⟨month', year⟩
  obtain ⟨hmo', hy⟩ := toNat_carry (b := 12) hcarry₅ rfl (by omega)
  rcases hcarry₆ : carry 100 year time.century with ⟨year', century⟩
  obtain ⟨hy', hc⟩ := toNat_carry (b := 100) hcarry₆ rfl (by omega)
  have hcarried : time.carried = ⟨century, year', month', dayofmonth',
      if 24 ≤ hours then BitVec.ofNat 8 ((time.weekday.toNat + 1) % 7) else time.weekday,
      hours', minutes', seconds⟩ := by
    simp only [Time.carried, hcarry₁, hcarry₂, hcarry₃, hcarry₄, hcarry₅, hcarry₆]
  rw [hcarried]
  refine ⟨⟨⟨?_, ?_, ?_, ?_, ?_, ?_⟩, ?_, ?_⟩, ?_, ?_, ?_⟩
  · simp only
    omega
  · simp only
    omega
  · simp only
    omega
  · simp only
    omega
  · simp only
    omega
  · simp only
    omega
  · simp only
    omega
  · simp only
    omega
  · simp only [Time.second]
    omega
  · simp only [Time.index, Time.second, indexCount]
    omega
  · have h24 : (24 : U8) ≤ hours ↔ 24 ≤ hours.toNat := BitVec.le_def
    have hiff : 24 ≤ hours.toNat ↔ ¬ time.second / 86400 = 0 := by
      rw [Time.second]
      omega
    simp only [h24, hiff, ite_not]
    split_ifs
    · rfl
    · rw [BitVec.toNat_ofNat]
      omega

theorem Time.Within.mono {k l : ℕ} (h : time.Within k) (hkl : k ≤ l) :
  time.Within l
  := { h with seconds_lt := Nat.lt_of_lt_of_le h.seconds_lt hkl }

end Carrying

/-! ### Runs -/

section Runs

variable {s s' : State} {a : ℕ}

/-- What so many seconds make of the variables, up to the indices that there are. -/
structure Advances (time time' : Time) (n : ℕ) : Prop where
  second : time'.second = (time.second + n) % 86400
  index : time'.index % indexCount = (time.index + (time.second + n) / 86400) % indexCount
  weekday : time'.weekday.toNat = if (time.second + n) / 86400 = 0 then time.weekday.toNat
    else (time.weekday.toNat + (time.second + n) / 86400) % 7

theorem Time.Within.second_lt {time : Time} (h : time.Within 60) :
  time.second < 86400
  := by
  obtain ⟨hseconds, hminutes, hhours, -, -, -⟩ := h
  rw [Time.second]
  omega

theorem Advances.refl {time : Time} (h : time.Within 60) :
  Advances time time 0
  := by
  have hlt := h.second_lt
  rw [← Nat.add_zero time.second] at hlt
  constructor
  · rw [Nat.mod_eq_of_lt hlt, Nat.add_zero]
  · rw [Nat.div_eq_of_lt hlt, Nat.add_zero]
  · rw [Nat.div_eq_of_lt hlt, if_pos rfl]

theorem Advances.trans {time time' time'' : Time} {n k : ℕ} (h : Advances time time' n)
    (h' : Advances time' time'' k) :
  Advances time time'' (n + k)
  := by
  obtain ⟨hsecond, hindex, hweekday⟩ := h
  obtain ⟨hsecond', hindex', hweekday'⟩ := h'
  rw [hsecond] at hsecond' hindex' hweekday'
  have hdays : (time.second + n) / 86400 + ((time.second + n) % 86400 + k) / 86400
      = (time.second + (n + k)) / 86400 := by omega
  constructor
  · rw [hsecond']
    omega
  · rw [hindex', ← hdays, ← Nat.add_assoc, Nat.add_mod, hindex, ← Nat.add_mod]
  · rw [hweekday', hweekday, ← hdays]
    split_ifs
    all_goals omega

/-- An interrupt with a time that is not more than the last of a day or a month. -/
theorem advances_rtcInterrupt (hholds : Holds s a) (h : s.time.Within 60) (intMask : U8) :
  (rtcInterrupt s intMask).time.Settled
    ∧ Advances s.time (rtcInterrupt s intMask).time ((a + period intMask) / 1024)
  := by
  obtain ⟨-, -, htime⟩ := hholds.count intMask
  have hlt := hholds.lt
  have hle : period intMask ≤ 1 := by
    rw [period]
    split_ifs
    all_goals decide
  have hbefore := h.second_lt
  obtain ⟨hseconds, hminutes, hhours, hday, hmonth, hyear⟩ := h
  have hcounted : (s.time.seconds + BitVec.ofNat 8 ((a + period intMask) / 1024)).toNat
      = s.time.seconds.toNat + (a + period intMask) / 1024 := by
    rw [BitVec.toNat_add, BitVec.toNat_ofNat]
    omega
  have hsecond : (s.count intMask).time.second
      = s.time.second + (a + period intMask) / 1024 := by
    rw [htime]
    simp only [Time.second, hcounted]
    omega
  have hwithin : (s.count intMask).time.Within 61 := by
    rw [htime]
    refine ⟨?_, hminutes, hhours, hday, hmonth, hyear⟩
    simp only [hcounted]
    omega
  obtain ⟨hsettled, hlast, hindex, hweekday⟩ := hwithin.carried
  have hinterrupt : (rtcInterrupt s intMask).time = (s.count intMask).time.carried := by
    rw [rtcInterrupt]
  have hsame : (s.count intMask).time.index = s.time.index := by
    rw [htime]
    rfl
  rw [hinterrupt]
  use hsettled
  constructor
  · rw [hlast, hsecond]
  · rw [hindex, Nat.mod_mod, hsecond, hsame]
  · have hkept : (s.count intMask).time.weekday = s.time.weekday := by
      rw [htime]
    rw [hweekday, hsecond, hkept]
    split_ifs
    · rfl
    · omega

/-- A run counts its seconds; after its first interrupt the variables are settled. -/
theorem advances_after (hholds : Holds s a) (h : s.time.Within 60) (masks : List U8) :
  (masks ≠ [] → (after s masks).time.Settled)
    ∧ Advances s.time (after s masks).time ((a + periods masks) / 1024)
  := by
  induction masks generalizing s a with
  | nil =>
      have hnone : (a + periods []) / 1024 = 0 := Nat.div_eq_of_lt hholds.lt
      rw [hnone]
      exact ⟨nofun, Advances.refl h⟩
  | cons intMask masks ih =>
      obtain ⟨hsettled, hfirst⟩ := advances_rtcInterrupt hholds h intMask
      obtain ⟨hlast, hrest⟩ := ih (hholds.interrupt intMask).1 hsettled.toWithin
      have hdiv : (a + period intMask) / 1024
            + ((a + period intMask) % 1024 + periods masks) / 1024
          = (a + (period intMask + periods masks)) / 1024 := by omega
      rw [after_cons, periods_cons, ← hdiv]
      constructor
      · intro _
        cases masks with
        | nil => exact hsettled
        | cons second masks => exact hlast (List.cons_ne_nil _ _)
      · exact hfirst.trans hrest

end Runs

/-! ### Moments -/

section Moments

variable {time : Time} {t : Moment} {masks : List U8}

theorem Time.Shows.within (h : time.Shows t) :
  time.Within 60
  := by
  have hsecond : t.second < 86400 := t.second_lt
  have hday := t.date.day_le
  have hlength := Calendar.monthLength_le t.date.year t.date.month
  refine ⟨?_, ?_, ?_, ?_, ?_, ?_⟩
  · rw [h.seconds, Moment.secondOfMinute]
    exact Nat.mod_lt _ (by decide)
  · rw [h.minutes, Moment.minute]
    exact Nat.mod_lt _ (by decide)
  · rw [h.hours, Moment.hour]
    omega
  · rw [h.dayofmonth]
    exact Nat.le_trans hday hlength
  · rw [h.month]
    exact t.date.month_le
  · rw [h.year]
    exact Nat.mod_lt _ (by decide)

theorem Time.Shows.second_eq (h : time.Shows t) :
  time.second = t.second
  := by
  rw [Time.second, h.hours, h.minutes, h.seconds, Moment.hour, Moment.minute,
    Moment.secondOfMinute]
  omega

theorem Time.Shows.index_eq (h : time.Shows t) :
  time.index = t.date.index 31
  := by
  rw [Time.index, h.century, h.year, h.month, h.dayofmonth, Date.index]
  omega

/-- Settled variables have one of the indices that there are. -/
theorem Time.Settled.index_lt (h : time.Settled) :
  time.index < indexCount
  := by
  have hcentury := time.century.isLt
  have hyear := h.year_lt
  have hmonth := h.month_lt
  have hday := h.day_lt
  rw [Time.index, indexCount]
  omega

/-- Settled variables show a moment when they have its second, its index and its weekday, if it can
be shown at all. -/
theorem Time.Settled.shows (h : time.Settled) (hsecond : time.second = t.second)
    (hindex : time.index = t.date.index 31) (hweekday : time.weekday.toNat = t.weekday)
    (hday : t.date.day ≠ 31) (hmonth : t.date.month ≠ 12) :
  time.Shows t
  := by
  obtain ⟨⟨hs, hm, hh, -, -, hy⟩, hd, hmo⟩ := h
  have hday_le := t.date.day_le
  have hlength := Calendar.monthLength_le t.date.year t.date.month
  have hmonth_le := t.date.month_le
  rw [Time.second] at hsecond
  rw [Time.index, Date.index] at hindex
  constructor
  · omega
  · omega
  · omega
  · omega
  · exact hweekday
  · rw [Moment.hour]
    omega
  · rw [Moment.minute]
    omega
  · rw [Moment.secondOfMinute]
    omega

/-- A date that settled variables can show has one of the indices that there are. -/
theorem index_lt_of_shown {d : Date} (hday : d.day ≠ 31) (hmonth : d.month ≠ 12)
    (hcentury : d.year / 100 < 256) :
  d.index 31 < indexCount
  := by
  have hday_le := d.day_le
  have hlength := Calendar.monthLength_le d.year d.month
  have hmonth_le := d.month_le
  rw [Date.index, indexCount]
  omega

/-- The variables after a run that has an interrupt, told by the calendar: the index is that of the
start, and as many days as have passed. -/
structure Reached (t : Moment) (masks : List U8) (time : Time) : Prop where
  settled : time.Settled
  second : time.second = (t.advance (periods masks / 1024)).second
  index : time.index = (t.date.index 31 + days t masks) % indexCount
  weekday : time.weekday.toNat = if days t masks = 0 then t.weekday
    else (t.weekday + days t masks) % 7

theorem reached_after (h : time.Shows t) (hne : masks ≠ []) :
  Reached t masks (after (.start time) masks).time
  := by
  obtain ⟨hsettled, hsecond, hindex, hweekday⟩ :=
    advances_after (holds_start time) h.within masks
  have hsettled := hsettled hne
  have hstart : (State.start time).time = time := rfl
  have hdays : (t.second + periods masks / 1024) / 86400 = days t masks := rfl
  rw [hstart, Nat.zero_add, h.second_eq] at hsecond hindex hweekday
  rw [hdays] at hindex hweekday
  rw [h.index_eq, Nat.mod_eq_of_lt hsettled.index_lt] at hindex
  rw [h.weekday] at hweekday
  exact ⟨hsettled, hsecond.trans (t.advance_second _).symm, hindex, hweekday⟩

theorem advance_date_days (t : Moment) (masks : List U8) :
  (t.advance (periods masks / 1024)).date = t.date.after (days t masks)
  := t.advance_date _

/-- The index of the calendar does not stay behind. -/
theorem index_add_days_le (t : Moment) (masks : List U8) :
  t.date.index 31 + days t masks ≤ (t.advance (periods masks / 1024)).date.index 31
  := by
  rw [advance_date_days]
  exact Date.index_add_le (Nat.le_refl 31)

/-- It keeps up when no month is shorter than 31 days. -/
theorem index_days_eq_iff (t : Moment) (masks : List U8) :
  (t.advance (periods masks / 1024)).date.index 31 = t.date.index 31 + days t masks
    ↔ ∀ j < days t masks, (t.date.after j).IsLast →
      Calendar.monthLength (t.date.after j).year (t.date.after j).month = 31
  := by
  rw [advance_date_days]
  exact Date.index_after_eq_iff (Nat.le_refl 31)

theorem Reached.agrees (h : Reached t masks time)
    (hshows : time.Shows (t.advance (periods masks / 1024))) :
  Agrees t masks
  := by
  have hindex := h.index
  have hlt := h.settled.index_lt
  rw [hshows.index_eq] at hindex hlt
  constructor
  · apply (index_days_eq_iff t masks).mp
    -- There is no room for the index to run ahead and around.
    rw [Nat.mod_eq_of_lt (Nat.lt_of_le_of_lt (index_add_days_le t masks) hlt)] at hindex
    exact hindex
  · rw [← hshows.dayofmonth]
    exact Nat.ne_of_lt h.settled.day_lt
  · rw [← hshows.month]
    exact Nat.ne_of_lt h.settled.month_lt
  · rw [← hshows.weekday, h.weekday]
    split_ifs with hsame
    · exact .inl hsame
    · right
      apply Nat.ne_of_lt
      exact Nat.mod_lt _ (by decide)
  · rw [← hshows.century]
    exact BitVec.isLt _

theorem Reached.shows (h : Reached t masks time) (hagrees : Agrees t masks) :
  time.Shows (t.advance (periods masks / 1024))
  := by
  apply h.settled.shows h.second
  · rw [h.index, ← (index_days_eq_iff t masks).mpr hagrees.lengths]
    exact Nat.mod_eq_of_lt (index_lt_of_shown hagrees.day hagrees.month hagrees.century)
  · have hone := t.one_le_weekday
    have hle := t.weekday_le
    have hseven := hagrees.weekday
    have hmoment : (t.advance (periods masks / 1024)).weekday
        = (t.weekday - 1 + days t masks) % 7 + 1 := t.advance_weekday _
    rw [hmoment] at hseven
    rw [h.weekday, hmoment]
    split_ifs
    · omega
    · omega
  · exact hagrees.day
  · exact hagrees.month

/-- The time after a run that has an interrupt. -/
theorem follows_iff_of_ne_nil (h : time.Shows t) (hne : masks ≠ []) :
  Follows time t masks ↔ Agrees t masks
  := ⟨(reached_after h hne).agrees, (reached_after h hne).shows⟩

theorem follows_nil (h : time.Shows t) :
  Follows time t []
  := h

end Moments

/-- The wall clock shows the time of the calendar exactly as long as the calendar is no other than
that of its carries. -/
theorem follows_iff {time : Time} {t : Moment} (h : time.Shows t) (masks : List U8) :
  Follows time t masks ↔ masks = [] ∨ Agrees t masks
  := by
  by_cases hnil : masks = []
  · rw [hnil]
    exact iff_of_true (follows_nil h) (.inl rfl)
  · rw [follows_iff_of_ne_nil h hnil]
    constructor
    · exact .inr
    · intro hagrees
      exact hagrees.resolve_left hnil

theorem isDate_tuesday :
  Calendar.IsDate 2019 1 29
  := by decide

theorem isDate_wednesday :
  Calendar.IsDate 2019 1 30
  := by decide

theorem isMoment_tuesday :
  Calendar.IsMoment 3 86399
  := by decide

theorem isMoment_wednesday :
  Calendar.IsMoment 4 86399
  := by decide

/-- The last second of the 29th of January 2019, a Tuesday. -/
def tuesday : Moment := (Date.ofNumbers isDate_tuesday).at isMoment_tuesday

/-- The last second of the 30th, a Wednesday. -/
def wednesday : Moment := (Date.ofNumbers isDate_wednesday).at isMoment_wednesday

theorem shows_tuesday :
  Time.Shows ⟨20, 19, 1, 29, 3, 23, 59, 59⟩ tuesday
  := by
  constructor
  all_goals decide

theorem shows_wednesday :
  Time.Shows ⟨20, 19, 1, 30, 4, 23, 59, 59⟩ wednesday
  := by
  constructor
  all_goals decide

/-- After Tuesday comes Wednesday. -/
theorem follows_tuesday :
  Follows ⟨20, 19, 1, 29, 3, 23, 59, 59⟩ tuesday (List.replicate 1024 0x40)
  := by
  apply (follows_iff shows_tuesday _).mpr
  right
  have hperiods := periods_replicate 1024
  have hdays : days tuesday (List.replicate 1024 0x40) = 1 := by
    rw [days, hperiods]
    decide
  constructor
  · rw [hdays]
    intro j hj hlast
    obtain rfl : j = 0 := Nat.lt_one_iff.mp hj
    revert hlast
    decide
  · rw [hperiods]
    decide
  · rw [hperiods]
    decide
  · right
    rw [hperiods]
    decide
  · rw [hperiods]
    decide

/-- But the 31st is skipped. -/
theorem not_follows_wednesday :
  Time.Shows ⟨20, 19, 1, 30, 4, 23, 59, 59⟩ wednesday
    ∧ ¬ Follows ⟨20, 19, 1, 30, 4, 23, 59, 59⟩ wednesday (List.replicate 1024 0x40)
  := by
  use shows_wednesday
  have hne : List.replicate 1024 (0x40 : U8) ≠ [] := by
    apply List.ne_nil_of_length_pos
    rw [List.length_replicate]
    decide
  rw [follows_iff_of_ne_nil shows_wednesday hne]
  intro h
  have hday := h.day
  rw [periods_replicate 1024] at hday
  apply hday
  decide

end Rtc
