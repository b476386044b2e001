import Gubernatrix.Timers.Registry
import Mathlib.Logic.Function.Iterate
import Mathlib.Order.Lattice
import Mathlib.Tactic.Ring

/-!
# How long `timer_wait` waits

`timer_wait` turns the time into a number of ticks, by dividing it by the whole nanoseconds of a
tick, and `timer_wait_handler` counts the ticks. Both divisions round down: that of the tick makes
the wait longer, that of the time makes it shorter.
-/

namespace Timers

open Program

variable {F H : Type}

/-! ### What should hold -/

/-- The state after so many ticks of the timer. -/
def ticks (n : ℕ) (s : State F H) : State F H := timerWaitHandler^[n] s

/-- The tick with this number is the one at which `timer_wait` may go on. -/
structure EndsAt (s : State F H) (n : ℕ) : Prop where
  cleared : (ticks n s).timerWaitPending = 0
  first : ∀ m < n, (ticks m s).timerWaitPending ≠ 0

/-- The wait is begun without a division by zero, `timer_wait_target` holds the quotient of the
time and of the tick, and the ticks that are waited for take at least the time. -/
def WaitsLongEnough (s : State F H) (ns rate : U64) : Prop :=
  ∃ idx s', timerWaitStart ns s = .ok idx s'
    ∧ s'.timerWaitTarget = max 1 (ns.toNat / (10 ^ 9 / rate.toNat) : ℕ)
    ∧ ∃ n, EndsAt s' n ∧ ns.toNat * rate.toNat ≤ n * 10 ^ 9

/-- The rate is at most 1 GHz, the ticks fit an `int`, and the time is less than a tick, or what
remains of it after whole ticks is made up for by what the ticks are too long. -/
structure Divides (ns rate : ℕ) : Prop where
  rate_le : rate ≤ 10 ^ 9
  fits : ns / (10 ^ 9 / rate) < 2 ^ 31
  made_up : ns < 10 ^ 9 / rate
    ∨ ns % (10 ^ 9 / rate) * rate ≤ ns / (10 ^ 9 / rate) * (10 ^ 9 % rate)

instance (ns rate : ℕ) : Decidable (Divides ns rate) :=
  decidable_of_iff (rate ≤ 10 ^ 9 ∧ ns / (10 ^ 9 / rate) < 2 ^ 31
      ∧ (ns < 10 ^ 9 / rate
        ∨ ns % (10 ^ 9 / rate) * rate ≤ ns / (10 ^ 9 / rate) * (10 ^ 9 % rate)))
    ⟨fun h => ⟨h.1, h.2.1, h.2.2⟩, fun h => ⟨h.rate_le, h.fits, h.made_up⟩⟩

/-! ### Rounding -/

/-- Parts of `a`, each of `a / r`, are counted in `x`: they are at least as much of `a` as `x` is of
its `r` parts, if the remainders allow for it. -/
theorem mul_le_div_div_mul_iff {a r x : ℕ} (hpart : 0 < a / r) :
  x * r ≤ max 1 (x / (a / r)) * a
    ↔ x < a / r ∨ x % (a / r) * r ≤ x / (a / r) * (a % r)
  := by
  have ha := Nat.div_add_mod a r
  have hx := Nat.div_add_mod x (a / r)
  rcases Nat.lt_or_ge x (a / r) with hlt | hge
  · rw [Nat.div_eq_of_lt hlt, Nat.max_eq_left (Nat.zero_le 1), Nat.one_mul]
    have hle : x * r ≤ a := (Nat.mul_le_mul_right r hlt.le).trans (Nat.div_mul_le_self a r)
    exact iff_of_true hle (.inl hlt)
  · have hone : 1 ≤ x / (a / r) := (Nat.one_le_div_iff hpart).mpr hge
    rw [Nat.max_eq_right hone, or_iff_right (Nat.not_lt.mpr hge)]
    generalize x / (a / r) = q at *
    generalize x % (a / r) = t at *
    generalize a / r = part at *
    generalize a % r = rest at *
    have hleft : x * r = q * (r * part) + t * r := by
      rw [← hx]
      ring
    have hright : q * a = q * (r * part) + q * rest := by
      rw [← ha]
      ring
    rw [hleft, hright, Nat.add_le_add_iff_left]

/-! ### Ticks -/

section Ticks

variable {s : State F H}

theorem ticks_succ (n : ℕ) (s : State F H) :
  ticks (n + 1) s = timerWaitHandler (ticks n s)
  := Function.iterate_succ_apply' _ _ _

@[simp]
theorem timerWaitTarget_handler (s : State F H) :
  (timerWaitHandler s).timerWaitTarget = s.timerWaitTarget
  := by
  rw [timerWaitHandler]
  split
  · rfl
  · rfl

/-- The state counts the ticks of a wait for `goal` ticks, and `n` have come. -/
structure Counts (goal n : ℕ) (s : State F H) : Prop where
  count : s.timerWaitCount = n
  target : s.timerWaitTarget = goal
  pending : s.timerWaitPending = if goal ≤ n then 0 else 1

/-- A tick is counted. -/
theorem Counts.tick {goal n : ℕ} (hn : n + 1 < 2 ^ 31) (h : Counts goal n s) :
  Counts goal (n + 1) (timerWaitHandler s)
  := by
  have hcount : Int.bmod (s.timerWaitCount + 1) (2 ^ 32) = (n + 1 : ℕ) := by
    rw [h.count]
    apply toInt32_of_lt hn
  have hreached : (s.timerWaitTarget ≤ ((n + 1 : ℕ) : ℤ)) ↔ goal ≤ n + 1 := by
    rw [h.target]
    exact Int.ofNat_le
  rw [timerWaitHandler]
  simp only [hcount, ge_iff_le, hreached]
  split
  next hclear => exact ⟨rfl, h.target, (if_pos hclear.1).symm⟩
  next hkeep =>
    refine ⟨rfl, h.target, ?_⟩
    have hpending := h.pending
    rw [not_and_or, not_not] at hkeep
    split at hpending
    next hle => rw [hpending, if_pos (by omega)]
    next hlt =>
      rw [hpending, if_neg]
      rcases hkeep with hkeep | hkeep
      · exact hkeep
      · rw [hkeep] at hpending
        contradiction

/-- The ticks of a wait are counted. -/
theorem Counts.ticks {goal n : ℕ} (hn : n < 2 ^ 31) (h : Counts goal 0 s) :
  Counts goal n (ticks n s)
  := by
  induction n with
  | zero => exact h
  | succ n ih =>
      rw [ticks_succ]
      apply Counts.tick hn
      apply ih
      omega

/-- A wait ends at the tick that it waits for. -/
theorem Counts.endsAt {goal : ℕ} (hpos : 0 < goal) (hlt : goal < 2 ^ 31)
    (h : Counts goal 0 s) {n : ℕ} :
  EndsAt s n ↔ n = goal
  := by
  have hpending : ∀ m < 2 ^ 31, (Timers.ticks m s).timerWaitPending = 0 ↔ goal ≤ m := by
    intro m hm
    rw [(h.ticks hm).pending]
    split
    next hle => simp [hle]
    next hgt => simp [hgt]
  constructor
  · rintro ⟨hcleared, hfirst⟩
    have hle : n ≤ goal := by
      by_contra hgt
      exact hfirst goal (by omega) ((hpending goal hlt).mpr (le_refl goal))
    have hge : goal ≤ n := (hpending n (by omega)).mp hcleared
    omega
  · rintro rfl
    refine ⟨(hpending n hlt).mpr (le_refl n), ?_⟩
    intro m hm hzero
    have hle : n ≤ m := (hpending m (by omega)).mp hzero
    omega

end Ticks

/-! ### The wait -/

section Waiting

variable {s : State F H} {ns : U64} {idx : ℕ} {t : Def F}

theorem toNat_period (rate : U64) :
  (1000000000 / rate).toNat = 10 ^ 9 / rate.toNat
  := by
  rw [BitVec.toNat_udiv]
  rfl

/-- The divisions do not fault for a rate between 1 Hz and 1 GHz. -/
theorem waitTarget_isSome_iff {rate : U64} (hrate : 0 < rate.toNat) :
  (waitTarget ns rate).isSome ↔ rate.toNat ≤ 10 ^ 9
  := by
  have hne : rate ≠ 0 := by
    rintro rfl
    exact absurd hrate (by decide)
  have hzero : 1000000000 / rate = 0 ↔ ¬ rate.toNat ≤ 10 ^ 9 := by
    have hzero : (0 : U64).toNat = 0 := rfl
    rw [← BitVec.toNat_inj, toNat_period, hzero, Nat.div_eq_zero_iff]
    omega
  rw [waitTarget, if_neg hne]
  by_cases hle : rate.toNat ≤ 10 ^ 9
  · rw [if_neg (by rwa [hzero, not_not])]
    refine iff_of_true ?_ hle
    dsimp only
    split
    · rfl
    · rfl
  · rw [if_pos (hzero.mpr hle)]
    exact iff_of_false (by simp) hle

/-- The number of ticks is kept when it fits an `int`. -/
theorem waitTarget_eq_iff {rate : U64} {target : ℤ} (h : waitTarget ns rate = some target) :
  target = max 1 (ns.toNat / (10 ^ 9 / rate.toNat) : ℕ)
    ↔ ns.toNat / (10 ^ 9 / rate.toNat) < 2 ^ 31
  := by
  have hvalue : target = if toInt32 (ns.toNat / (10 ^ 9 / rate.toNat)) = 0 then 1
      else toInt32 (ns.toNat / (10 ^ 9 / rate.toNat)) := by
    rw [waitTarget, Option.ite_none_left_eq_some, Option.ite_none_left_eq_some, BitVec.toNat_udiv,
      toNat_period] at h
    have htarget := h.2.2
    dsimp only at htarget
    split at htarget
    next hzero => rw [if_pos hzero, Option.some.inj htarget]
    next hne => rw [if_neg hne, Option.some.inj htarget]
  rw [hvalue]
  generalize ns.toNat / (10 ^ 9 / rate.toNat) = q
  constructor
  · intro hq
    rcases Nat.eq_zero_or_pos q with rfl | hpos
    · decide
    · rw [← toInt32_eq_self_iff]
      split at hq
      next hzero =>
        obtain rfl : q = 1 := by omega
        rfl
      next => omega
  · intro hlt
    rw [toInt32_eq_self_iff.mpr hlt]
    split
    next => omega
    next => omega

/-- Where `timer_wait` gets to the loop that waits. -/
theorem timerWaitStart_ok {target : ℤ} (hidx : waitLoop 0 s.defs = some idx)
    (ht : s.defs[idx]? = some t) (htarget : waitTarget ns t.handlers.rate = some target) :
  ∃ calls, timerWaitStart ns s = .ok idx
    { defs := s.defs.modify idx fun t => { t with inUse := true }
      timerWaitPending := 1
      timerWaitCount := 0
      timerWaitTarget := target
      timerWaitD := some idx
      calls := calls }
  := by
  obtain ⟨t', ht', hwaitable⟩ := exists_of_waitLoop hidx
  obtain rfl : t' = t := Option.some.inj (ht'.symm.trans ht)
  obtain ⟨fh, hfh⟩ := Option.isSome_iff_exists.mp hwaitable.setHandler
  obtain ⟨fe, hfe⟩ := Option.isSome_iff_exists.mp hwaitable.setEnable
  simp only [timerWaitStart, bind_apply, get_apply, hidx, modify_apply, ht, htarget, setInUse,
    through, hfh, hfe, pure_apply]
  exact ⟨_, rfl⟩

/-- Where it does not, since a division faults. -/
theorem timerWaitStart_fault (hidx : waitLoop 0 s.defs = some idx) (ht : s.defs[idx]? = some t)
    (htarget : waitTarget ns t.handlers.rate = none) :
  ∃ s', timerWaitStart ns s = .error .fault s'
  := by
  simp only [timerWaitStart, bind_apply, get_apply, hidx, modify_apply, ht, htarget, throw_apply]
  exact ⟨_, rfl⟩

/-- The ticks are counted from the start of the wait. -/
theorem counts_start {s : State F H} {goal : ℕ} (hcount : s.timerWaitCount = 0)
    (hpending : s.timerWaitPending = 1) (htarget : s.timerWaitTarget = (max 1 goal : ℕ)) :
  Counts (max 1 goal) 0 s
  := by
  refine ⟨hcount, htarget, ?_⟩
  rw [hpending, if_neg]
  omega

/-- A wait that is long enough is one for a time and a rate that divide. -/
theorem WaitsLongEnough.divides (hidx : waitLoop 0 s.defs = some idx) (ht : s.defs[idx]? = some t)
    (hrate : 1 ≤ t.handlers.rate.toNat) (h : WaitsLongEnough s ns t.handlers.rate) :
  Divides ns.toNat t.handlers.rate.toNat
  := by
  obtain ⟨idx', s', hstart, htarget, n, hends, hlong⟩ := h
  cases hwait : waitTarget ns t.handlers.rate with
  | none =>
      obtain ⟨s'', hfault⟩ := timerWaitStart_fault hidx ht hwait
      rw [hfault] at hstart
      contradiction
  | some target =>
      obtain ⟨calls, hok⟩ := timerWaitStart_ok hidx ht hwait
      rw [hok] at hstart
      injection hstart with hidx' hs'
      subst hs'
      have hle : t.handlers.rate.toNat ≤ 10 ^ 9 := by
        rw [← waitTarget_isSome_iff hrate, hwait]
        rfl
      have hfits := (waitTarget_eq_iff hwait).mp htarget
      have hcounts := counts_start rfl rfl htarget
      rw [hcounts.endsAt (by omega) (by omega)] at hends
      rw [hends] at hlong
      exact ⟨hle, hfits, (mul_le_div_div_mul_iff (Nat.div_pos hle hrate)).mp hlong⟩

/-- For a time and a rate that divide, the wait is long enough. -/
theorem Divides.waitsLongEnough (hidx : waitLoop 0 s.defs = some idx)
    (ht : s.defs[idx]? = some t) (hrate : 1 ≤ t.handlers.rate.toNat)
    (h : Divides ns.toNat t.handlers.rate.toNat) :
  WaitsLongEnough s ns t.handlers.rate
  := by
  obtain ⟨hle, hfits, hmade⟩ := h
  have hsome : (waitTarget ns t.handlers.rate).isSome := (waitTarget_isSome_iff hrate).mpr hle
  obtain ⟨target, hwait⟩ := Option.isSome_iff_exists.mp hsome
  obtain ⟨calls, hok⟩ := timerWaitStart_ok hidx ht hwait
  have htarget := (waitTarget_eq_iff hwait).mpr hfits
  refine ⟨idx, _, hok, htarget, max 1 (ns.toNat / (10 ^ 9 / t.handlers.rate.toNat)), ?_, ?_⟩
  · exact ((counts_start rfl rfl htarget).endsAt (by omega) (by omega)).mpr rfl
  · exact (mul_le_div_div_mul_iff (Nat.div_pos hle hrate)).mpr hmade

/-- `timer_wait` never waits too short exactly when the rate is at most 1 GHz, the ticks fit an
`int`, and rounding the time down to ticks is made up for by rounding the tick down. -/
theorem waitsLongEnough_iff (hidx : waitLoop 0 s.defs = some idx) (ht : s.defs[idx]? = some t)
    (hrate : 1 ≤ t.handlers.rate.toNat) :
  WaitsLongEnough s ns t.handlers.rate ↔ Divides ns.toNat t.handlers.rate.toNat
  := ⟨fun h => h.divides hidx ht hrate, fun h => h.waitsLongEnough hidx ht hrate⟩

end Waiting

/-- A periodic timer with a tick of 0.05 ms. -/
def apicLocal : Def Unit where
  inUse := false
  features := featuresPersistent ||| featuresOneshot ||| featuresPeriodic ||| featuresLocal
  handlers :=
    { name := "apic_local"
      read := none
      write := none
      setMode := some ()
      setEnable := some ()
      setHandler := some ()
      rate := 20000
      state := 0 }

/-- That timer alone. -/
def onlyApicLocal : State Unit Unit := .initial [apicLocal]

/-- The wait of `smp_init` is long enough with it. -/
theorem waitsLongEnough_10ms :
  WaitsLongEnough onlyApicLocal 10000000 20000
  := (waitsLongEnough_iff (s := onlyApicLocal) (t := apicLocal) rfl rfl (by decide)).mpr (by decide)

/-- A wait for a tick and a half ends after a tick. -/
theorem not_waitsLongEnough_75us :
  ¬ WaitsLongEnough onlyApicLocal 75000 20000
  := by
  intro h
  have hdivides : Divides 75000 20000 :=
    h.divides (s := onlyApicLocal) (t := apicLocal) rfl rfl (by decide)
  revert hdivides
  decide

end Timers
