import Mathlib.Logic.Function.Iterate
import Mathlib.Tactic.SplitIfs

/-!
# The Gregorian calendar

Dates, and moments with a weekday and a time of day, that are valid by construction. A moment
advances second by second; `Moment.advance_date`, `Moment.advance_weekday` and
`Moment.advance_second` tell where it gets to.

A date also has an index in a calendar whose months all have the same length. Advancing day by day,
the index runs ahead of the days exactly when the last day of a shorter month is passed.
-/

namespace Calendar

/-! ### Dates -/

/-- The leap years. -/
def IsLeap (year : ℕ) : Prop := year % 4 = 0 ∧ (year % 100 ≠ 0 ∨ year % 400 = 0)

instance (year : ℕ) : Decidable (IsLeap year) := inferInstanceAs (Decidable (_ ∧ _))

/-- The number of days of a month. -/
def monthLength (year month : ℕ) : ℕ :=
  if month = 2 then if IsLeap year then 29 else 28
  else if month = 4 ∨ month = 6 ∨ month = 9 ∨ month = 11 then 30
  else 31

theorem monthLength_le (year month : ℕ) :
  monthLength year month ≤ 31
  := by
  rw [monthLength]
  split_ifs
  all_goals omega

theorem one_lt_monthLength (year month : ℕ) :
  1 < monthLength year month
  := by
  rw [monthLength]
  split_ifs
  all_goals omega

/-- A date. -/
@[ext]
structure Date where
  year : ℕ
  month : ℕ
  day : ℕ
  one_le_month : 1 ≤ month
  month_le : month ≤ 12
  one_le_day : 1 ≤ day
  day_le : day ≤ monthLength year month
deriving DecidableEq

/-- The numbers of a date. -/
def IsDate (year month day : ℕ) : Prop :=
  (1 ≤ month ∧ month ≤ 12) ∧ 1 ≤ day ∧ day ≤ monthLength year month

instance (year month day : ℕ) : Decidable (IsDate year month day) :=
  inferInstanceAs (Decidable (_ ∧ _))

/-- The date with these numbers. -/
def Date.ofNumbers {year month day : ℕ} (h : IsDate year month day) : Date where
  year := year
  month := month
  day := day
  one_le_month := h.1.1
  month_le := h.1.2
  one_le_day := h.2.1
  day_le := h.2.2

/-- The last day of a month. -/
def Date.IsLast (d : Date) : Prop := d.day = monthLength d.year d.month

instance (d : Date) : Decidable d.IsLast := inferInstanceAs (Decidable (_ = _))

/-- The next day. -/
def Date.next (d : Date) : Date :=
  if hday : d.day < monthLength d.year d.month then
    { d with day := d.day + 1, one_le_day := Nat.succ_pos _, day_le := hday }
  else if hmonth : d.month < 12 then
    { year := d.year
      month := d.month + 1
      day := 1
      one_le_month := Nat.succ_pos _
      month_le := hmonth
      one_le_day := Nat.le_refl 1
      day_le := Nat.le_of_lt (one_lt_monthLength _ _) }
  else
    { year := d.year + 1
      month := 1
      day := 1
      one_le_month := Nat.le_refl 1
      month_le := by decide
      one_le_day := Nat.le_refl 1
      day_le := Nat.le_of_lt (one_lt_monthLength _ _) }

/-- The date so many days later. -/
def Date.after (n : ℕ) (d : Date) : Date := Date.next^[n] d

theorem Date.after_succ (n : ℕ) (d : Date) :
  d.after (n + 1) = (d.after n).next
  := Function.iterate_succ_apply' Date.next n d

/-! ### Months of one length -/

/-- The index of a date, when all months have `k` days. -/
def Date.index (k : ℕ) (d : Date) : ℕ := (d.year * 12 + d.month) * k + d.day

section Index

variable {k n : ℕ} {d : Date}

/-- The index runs ahead at the end of a month that is shorter. -/
theorem Date.index_next (hk : 31 ≤ k) :
  d.next.index k = d.index k + 1 + if d.IsLast then k - monthLength d.year d.month else 0
  := by
  have hle := monthLength_le d.year d.month
  have hday := d.day_le
  have hmonth := d.month_le
  rw [Date.next]
  split_ifs with hinside hlast hlast hlast hlast
  · exact absurd hlast (Nat.ne_of_lt hinside)
  · simp only [Date.index]
    omega
  · simp only [Date.index, Date.IsLast] at hlast ⊢
    rw [← Nat.add_assoc (d.year * 12) d.month 1, Nat.succ_mul]
    omega
  · exact absurd (Nat.le_antisymm hday (Nat.not_lt.mp hinside)) hlast
  · simp only [Date.index, Date.IsLast] at hlast ⊢
    rw [show (d.year + 1) * 12 + 1 = d.year * 12 + d.month + 1 by omega, Nat.succ_mul]
    omega
  · exact absurd (Nat.le_antisymm hday (Nat.not_lt.mp hinside)) hlast

theorem Date.index_add_le (hk : 31 ≤ k) :
  d.index k + n ≤ (d.after n).index k
  := by
  induction n with
  | zero => exact Nat.le_refl _
  | succ n ih =>
      rw [Date.after_succ, Date.index_next hk]
      omega

/-- The index keeps up with the days if only months of `k` days end. -/
theorem Date.index_after_eq_iff (hk : 31 ≤ k) :
  (d.after n).index k = d.index k + n
    ↔ ∀ j < n, (d.after j).IsLast → monthLength (d.after j).year (d.after j).month = k
  := by
  induction n with
  | zero =>
      constructor
      · nofun
      · intro _
        rfl
  | succ n ih =>
      have hle : d.index k + n ≤ (d.after n).index k := Date.index_add_le hk
      have hlength := monthLength_le (d.after n).year (d.after n).month
      rw [Nat.forall_lt_succ_right, ← ih, Date.after_succ, Date.index_next hk]
      split_ifs with hlast
      · constructor
        · intro h
          exact ⟨by omega, fun _ => by omega⟩
        · rintro ⟨heq, hfull⟩
          have hfull := hfull hlast
          omega
      · constructor
        · intro h
          exact ⟨by omega, fun h => absurd h hlast⟩
        · rintro ⟨heq, -⟩
          omega

end Index

/-! ### Moments -/

/-- The seconds of a day. -/
def daySeconds : ℕ := 86400

/-- A second of a day, with the number of its weekday. -/
@[ext]
structure Moment where
  date : Date
  weekday : ℕ
  second : ℕ
  one_le_weekday : 1 ≤ weekday
  weekday_le : weekday ≤ 7
  second_lt : second < daySeconds
deriving DecidableEq

/-- The numbers of a weekday and a second of a day. -/
def IsMoment (weekday second : ℕ) : Prop := (1 ≤ weekday ∧ weekday ≤ 7) ∧ second < daySeconds

instance (weekday second : ℕ) : Decidable (IsMoment weekday second) :=
  inferInstanceAs (Decidable (_ ∧ _))

/-- The moment of a date with these numbers. -/
def Date.at (date : Date) {weekday second : ℕ} (h : IsMoment weekday second) : Moment where
  date := date
  weekday := weekday
  second := second
  one_le_weekday := h.1.1
  weekday_le := h.1.2
  second_lt := h.2

/-- The hour, from 0 to 23. -/
def Moment.hour (t : Moment) : ℕ := t.second / 3600

/-- The minute of the hour. -/
def Moment.minute (t : Moment) : ℕ := t.second / 60 % 60

/-- The second of the minute. -/
def Moment.secondOfMinute (t : Moment) : ℕ := t.second % 60

/-- The next second. -/
def Moment.tick (t : Moment) : Moment :=
  if h : t.second + 1 < daySeconds then { t with second := t.second + 1, second_lt := h }
  else
    { date := t.date.next
      weekday := t.weekday % 7 + 1
      second := 0
      one_le_weekday := Nat.succ_pos _
      weekday_le := Nat.mod_lt _ (by decide)
      second_lt := by decide }

/-- The moment so many seconds later. -/
def Moment.advance (n : ℕ) (t : Moment) : Moment := Moment.tick^[n] t

section Advance

variable (n : ℕ) (t : Moment)

theorem Moment.advance_succ :
  t.advance (n + 1) = (t.advance n).tick
  := Function.iterate_succ_apply' Moment.tick n t

/-- The days that pass, and the date, the weekday and the second of the day that come. -/
theorem Moment.advance_eq :
  (t.advance n).date = t.date.after ((t.second + n) / daySeconds)
    ∧ (t.advance n).weekday = (t.weekday - 1 + (t.second + n) / daySeconds) % 7 + 1
    ∧ (t.advance n).second = (t.second + n) % daySeconds
  := by
  induction n with
  | zero =>
      have hlt := t.second_lt
      have hone := t.one_le_weekday
      have hle := t.weekday_le
      rw [Nat.add_zero, Nat.div_eq_of_lt hlt, Nat.mod_eq_of_lt hlt]
      refine ⟨rfl, ?_, rfl⟩
      apply Eq.trans (b := t.weekday) rfl
      omega
  | succ n ih =>
      obtain ⟨hdate, hweekday, hsecond⟩ := ih
      rw [Moment.advance_succ, Moment.tick]
      split_ifs with hday
      · rw [hsecond] at hday
        have hdiv : (t.second + (n + 1)) / daySeconds = (t.second + n) / daySeconds := by
          simp only [daySeconds] at hday ⊢
          omega
        have hmod : (t.second + (n + 1)) % daySeconds = (t.second + n) % daySeconds + 1 := by
          simp only [daySeconds] at hday ⊢
          omega
        rw [hdiv, hmod]
        exact ⟨hdate, hweekday, congrArg (· + 1) hsecond⟩
      · rw [hsecond] at hday
        have hdiv : (t.second + (n + 1)) / daySeconds = (t.second + n) / daySeconds + 1 := by
          simp only [daySeconds] at hday ⊢
          omega
        have hmod : (t.second + (n + 1)) % daySeconds = 0 := by
          simp only [daySeconds] at hday ⊢
          omega
        rw [hdiv, hmod, Date.after_succ, ← hdate]
        refine ⟨rfl, ?_, rfl⟩
        simp only [hweekday]
        omega

theorem Moment.advance_date :
  (t.advance n).date = t.date.after ((t.second + n) / daySeconds)
  := (t.advance_eq n).1

theorem Moment.advance_weekday :
  (t.advance n).weekday = (t.weekday - 1 + (t.second + n) / daySeconds) % 7 + 1
  := (t.advance_eq n).2.1

theorem Moment.advance_second :
  (t.advance n).second = (t.second + n) % daySeconds
  := (t.advance_eq n).2.2

end Advance

end Calendar
