import Mathlib.Data.BitVec
import Mathlib.Data.Fin.Tuple.Basic

/-!
# The local APIC

The registers of a local APIC that take part in the delivery of interrupts, in its two modes, and
what it does: it accepts a vector, delivers the highest one when nothing of its priority class or
above is in service, and ends the highest one in service when the EOI register is written. `none`
stands for a general protection fault. Its timer counts down, one for each so many clocks of the
bus, and interrupts when the count comes to zero.
-/

namespace LocalApic

/-- A vector. -/
abbrev Vec := Fin 256

/-- A set of vectors, as the registers hold it. -/
abbrev VecSet := BitVec 256

namespace VecSet

/-- The vector is in the set. -/
def has (s : VecSet) (v : Vec) : Bool := s.getLsbD v

def insert (s : VecSet) (v : Vec) : VecSet := s ||| BitVec.twoPow 256 v

def erase (s : VecSet) (v : Vec) : VecSet := s &&& ~~~BitVec.twoPow 256 v

/-- The highest vector of the set. -/
def highest (s : VecSet) : Option Vec := Fin.findRev? s.has

/-- The register with the index `k`, of 32 vectors. -/
def register (s : VecSet) (k : ℕ) : BitVec 32 := s.extractLsb' (32 * k) 32

variable {s : VecSet} {v w : Vec}

theorem has_insert :
  (s.insert v).has w = (decide (w = v) || s.has w)
  := by
  rw [has, has, insert, BitVec.getLsbD_or, BitVec.getLsbD_twoPow, Bool.or_comm]
  simp [Fin.ext_iff, eq_comm]

theorem has_erase :
  (s.erase v).has w = (decide (w ≠ v) && s.has w)
  := by
  rw [has, has, erase, BitVec.getLsbD_and, BitVec.getLsbD_not, BitVec.getLsbD_twoPow,
    Bool.and_comm]
  simp [Fin.ext_iff, eq_comm]

theorem has_zero :
  (0 : VecSet).has v = false
  := BitVec.getLsbD_zero

theorem highest_eq_some :
  s.highest = some v ↔ s.has v = true ∧ ∀ w, v < w → s.has w = false
  := Fin.findRev?_eq_some_iff

theorem highest_eq_none :
  s.highest = none ↔ ∀ v, s.has v = false
  := Fin.findRev?_eq_none_iff

/-- A vector in its register. -/
theorem getLsbD_register {k i : ℕ} (hi : i < 32) (hv : (v : ℕ) = 32 * k + i) :
  (s.register k).getLsbD i = s.has v
  := by
  rw [register, BitVec.getLsbD_extractLsb', has, hv]
  simp [hi]

end VecSet

/-- The priority class of a vector. -/
def priority (v : Vec) : ℕ := v / 16

/-- The timer: its entry in the local vector table, the two counts, the divide configuration, and
the clocks since the current count was last changed. -/
structure Timer where
  lvt : BitVec 32
  initial : BitVec 32
  current : BitVec 32
  divide : BitVec 32
  phase : ℕ

/-- The local APIC. -/
structure Lapic where
  /-- `IA32_APIC_BASE`: bit 11 enables the local APIC, and bit 10 x2APIC mode. -/
  base : BitVec 64
  id : BitVec 32
  tpr : BitVec 32
  dfr : BitVec 32
  svr : BitVec 32
  irr : VecSet
  isr : VecSet
  timer : Timer

namespace Timer

/-- Bits 17 and 18 of the entry: 0 for one-shot, 1 for periodic, 2 for TSC-deadline mode. -/
def mode (t : Timer) : BitVec 2 := t.lvt.extractLsb' 17 2

def masked (t : Timer) : Bool := t.lvt.getLsbD 16

def vector (t : Timer) : Vec := (t.lvt.extractLsb' 0 8).toFin

/-- The clocks of the bus for each count, by bits 0, 1 and 3 of the divide configuration. -/
def divisor (t : Timer) : ℕ :=
  2 ^ (((t.divide.extractLsb' 3 1 ++ t.divide.extractLsb' 0 2).toNat + 1) % 8)

/-- The initial count is written: the timer starts to count down, but for TSC-deadline mode. -/
def start (t : Timer) (val : BitVec 32) : Timer :=
  if t.mode = 2 then t else { t with initial := val, current := val, phase := 0 }

/-- A clock of the bus: the vector of an interrupt, if the timer interrupts. -/
def clock (t : Timer) : Option Vec × Timer :=
  if t.mode.getLsbD 1 = true ∨ t.current = 0 then (none, t)
  else if t.phase + 1 < t.divisor then (none, { t with phase := t.phase + 1 })
  else if t.current ≠ 1 then (none, { t with phase := 0, current := t.current - 1 })
  else (if t.masked then none else some t.vector,
    { t with phase := 0, current := if t.mode = 1 then t.initial else 0 })

/-- So many clocks of the bus: the vectors of the interrupts. -/
def clocks : ℕ → Timer → List Vec × Timer
  | 0, t => ([], t)
  | n + 1, t => (t.clock.1.toList ++ (clocks n t.clock.2).1, (clocks n t.clock.2).2)

end Timer

namespace Lapic

def enabled (l : Lapic) : Bool := l.base.getLsbD 11

def x2apic (l : Lapic) : Bool := l.base.getLsbD 10

/-! ### Registers -/

/-- A register that is read, by its offset divided by 16. -/
def get (l : Lapic) (n : ℕ) : Option (BitVec 32) :=
  if n = 0x2 then some (if l.x2apic then l.id else l.id <<< 24)
  else if n = 0x8 then some l.tpr
  else if n = 0xb then if l.x2apic then none else some 0
  else if n = 0xe then if l.x2apic then none else some l.dfr
  else if n = 0xf then some l.svr
  else if 0x10 ≤ n ∧ n < 0x18 then some (l.isr.register (n - 0x10))
  else if 0x20 ≤ n ∧ n < 0x28 then some (l.irr.register (n - 0x20))
  else if n = 0x32 then some l.timer.lvt
  else if n = 0x38 then some l.timer.initial
  else if n = 0x39 then some l.timer.current
  else if n = 0x3e then some l.timer.divide
  else none

/-- The highest vector in service is no longer in service. -/
def eoi (l : Lapic) : Lapic := l.isr.highest.elim l fun v => { l with isr := l.isr.erase v }

/-- A register that is written. -/
def set (l : Lapic) (n : ℕ) (val : BitVec 32) : Option Lapic :=
  if n = 0x8 then some { l with tpr := val }
  else if n = 0xb then if l.x2apic ∧ val ≠ 0 then none else some l.eoi
  else if n = 0xe then if l.x2apic then none else some { l with dfr := val }
  else if n = 0xf then some { l with svr := val }
  else if n = 0x32 then some { l with timer := { l.timer with lvt := val } }
  else if n = 0x38 then some { l with timer := l.timer.start val }
  else if n = 0x3e then some { l with timer := { l.timer with divide := val } }
  else none

/-- The model-specific registers. -/
def rdmsr (l : Lapic) (addr : BitVec 32) : Option (BitVec 64) :=
  if addr = 0x1b then some l.base
  else if l.enabled && l.x2apic then (l.get (addr - 0x800).toNat).map (·.setWidth 64)
  else none

/-- A change of mode: x2APIC mode is entered from xAPIC mode, and left only with the local APIC. -/
def Legal (old new : BitVec 64) : Prop :=
  (new.getLsbD 10 = true → new.getLsbD 11 = true ∧ old.getLsbD 11 = true)
    ∧ (old.getLsbD 10 = true → new.getLsbD 10 = false → new.getLsbD 11 = false)

instance (old new : BitVec 64) : Decidable (Legal old new) := by
  unfold Legal
  infer_instance

def wrmsr (l : Lapic) (addr : BitVec 32) (val : BitVec 64) : Option Lapic :=
  if addr = 0x1b then if Legal l.base val then some { l with base := val } else none
  else if l.enabled && l.x2apic && val >>> 32 = 0 then
    l.set (addr - 0x800).toNat (val.setWidth 32)
  else none

/-- The memory-mapped registers, by the index of the double word. -/
def load (l : Lapic) (i : ℕ) : Option (BitVec 64) :=
  if l.enabled && !l.x2apic && i % 4 = 0 then (l.get (i / 4)).map (·.setWidth 64) else none

def store (l : Lapic) (i : ℕ) (val : BitVec 32) : Option Lapic :=
  if l.enabled && !l.x2apic && i % 4 = 0 then l.set (i / 4) val else none

/-! ### Interrupts -/

/-- An interrupt with the vector arrives. -/
def accept (l : Lapic) (v : Vec) : Lapic :=
  if l.enabled && l.svr.getLsbD 8 then { l with irr := l.irr.insert v } else l

/-- The priority class of the processor: the one of the task, or of what is in service. -/
def ppr (l : Lapic) : ℕ :=
  max (l.tpr >>> 4 &&& 0xf).toNat (l.isr.highest.elim 0 priority)

/-- The vector that is delivered next: the highest one that waits, if its priority class is above
the one of the processor. -/
def deliverable (l : Lapic) : Option Vec :=
  l.irr.highest.filter fun v => l.ppr < priority v

/-- The vector goes into service. -/
def deliver (l : Lapic) (v : Vec) : Lapic :=
  { l with irr := l.irr.erase v, isr := l.isr.insert v }

variable {l : Lapic} {v : Vec}

theorem priority_mono {v w : Vec} (h : v ≤ w) :
  priority v ≤ priority w
  := Nat.div_le_div_right h

/-- Nothing in service has a priority class above the one of the processor. -/
theorem priority_le_ppr (hv : l.isr.has v = true) :
  priority v ≤ l.ppr
  := by
  cases hisr : l.isr.highest with
  | none =>
      rw [VecSet.highest_eq_none.mp hisr v] at hv
      cases hv
  | some w =>
      have hle : v ≤ w := by
        by_contra hlt
        rw [(VecSet.highest_eq_some.mp hisr).2 v (not_le.mp hlt)] at hv
        cases hv
      rw [ppr, hisr]
      exact le_trans (priority_mono hle) (le_max_right _ _)

/-- What is delivered has a priority class above everything in service. -/
theorem deliverable_spec (h : l.deliverable = some v) :
  l.irr.has v = true ∧ ∀ w, l.isr.has w = true → priority w < priority v
  := by
  obtain ⟨hirr, hclass⟩ := Option.filter_eq_some_iff.mp h
  refine ⟨(VecSet.highest_eq_some.mp hirr).1, fun w hw => ?_⟩
  exact lt_of_le_of_lt (priority_le_ppr hw) (of_decide_eq_true hclass)

/-- Nothing is held back when nothing is in service. -/
theorem deliverable_isSome (htpr : l.tpr = 0) (hisr : ∀ w, l.isr.has w = false)
    (hv : l.irr.has v = true) (hlow : 16 ≤ v.val) :
  l.deliverable.isSome = true
  := by
  have hppr : l.ppr = 0 := by
    rw [ppr, VecSet.highest_eq_none.mpr hisr, htpr]
    rfl
  cases hirr : l.irr.highest with
  | none =>
      rw [VecSet.highest_eq_none.mp hirr v] at hv
      cases hv
  | some u =>
      have hle : v ≤ u := by
        by_contra hlt
        rw [(VecSet.highest_eq_some.mp hirr).2 v (not_le.mp hlt)] at hv
        cases hv
      have hclass : 0 < priority u := Nat.div_pos (le_trans hlow hle) (by decide)
      simp [deliverable, hirr, hppr, hclass]

/-- The vector of the highest priority class in service is ended. -/
theorem eoi_eq (hv : l.isr.has v = true)
    (hother : ∀ w, l.isr.has w = true → w = v ∨ priority w < priority v) :
  l.eoi = { l with isr := l.isr.erase v }
  := by
  have hhighest : l.isr.highest = some v := by
    refine VecSet.highest_eq_some.mpr ⟨hv, fun w hlt => ?_⟩
    rw [← Bool.not_eq_true]
    intro hw
    rcases hother w hw with rfl | hclass
    · exact absurd hlt (lt_irrefl _)
    · exact absurd (priority_mono hlt.le) (not_le.mpr hclass)
  rw [eoi, hhighest, Option.elim_some]

end Lapic

/-! ### The timer -/

namespace Timer

variable {t : Timer}

/-- The timer counts down, over and over again. -/
structure Running (t : Timer) : Prop where
  mode : t.mode = 1
  masked : t.masked = false
  initial : t.initial ≠ 0
  current : t.current ≠ 0
  phase : t.phase < t.divisor
  le : t.current.toNat ≤ t.initial.toNat

/-- The clocks from one interrupt to the next. -/
def period (t : Timer) : ℕ := t.divisor * t.initial.toNat

/-- The clocks until the next interrupt. -/
def left (t : Timer) : ℕ := t.divisor * t.current.toNat - t.phase

theorem toNat_pos {x : BitVec 32} (h : x ≠ 0) :
  0 < x.toNat
  := by bv_omega

theorem left_pos (h : Running t) :
  0 < t.left
  := by
  have hmul := Nat.le_mul_of_pos_right t.divisor (toNat_pos h.current)
  have hphase := h.phase
  rw [left]
  omega

theorem left_le_period (h : Running t) :
  t.left ≤ t.period
  := le_trans (Nat.sub_le _ _) (Nat.mul_le_mul_left _ h.le)

/-- A clock of the bus, while the timer counts down. -/
theorem clock_of_running (h : Running t) :
  Running t.clock.2 ∧ t.clock.2.period = t.period ∧ t.clock.2.vector = t.vector
    ∧ if t.left = 1 then t.clock.1 = some t.vector ∧ t.clock.2.left = t.period
      else t.clock.1 = none ∧ t.clock.2.left + 1 = t.left
  := by
  have hbit : ¬ (t.mode.getLsbD 1 = true ∨ t.current = 0) := by
    rw [h.mode, not_or]
    exact ⟨by decide, h.current⟩
  have hpos := toNat_pos h.current
  have hphase := h.phase
  rw [clock, if_neg hbit]
  by_cases hwait : t.phase + 1 < t.divisor
  · -- the count is not changed yet
    have hmul := Nat.le_mul_of_pos_right t.divisor hpos
    rw [if_pos hwait]
    refine ⟨⟨h.mode, h.masked, h.initial, h.current, hwait, h.le⟩, rfl, rfl, ?_⟩
    have hleft : left { t with phase := t.phase + 1 } + 1 = t.left := by
      rw [left, left]
      change t.divisor * t.current.toNat - (t.phase + 1) + 1 = _
      omega
    have hpos' := left_pos (t := { t with phase := t.phase + 1 })
      ⟨h.mode, h.masked, h.initial, h.current, hwait, h.le⟩
    rw [if_neg (by omega)]
    exact ⟨rfl, hleft⟩
  · have hlast : t.phase + 1 = t.divisor := by omega
    rw [if_neg hwait]
    by_cases hone : t.current = 1
    · -- the count comes to zero
      have hleft : t.left = 1 := by
        rw [left, hone, show (1 : BitVec 32).toNat = 1 from rfl]
        omega
      rw [if_neg (not_not.mpr hone), if_pos h.mode, h.masked, if_pos hleft]
      exact ⟨⟨h.mode, h.masked, h.initial, h.initial, Nat.zero_lt_of_lt hphase, le_rfl⟩, rfl, rfl,
        rfl, Nat.sub_zero _⟩
    · have hpred : (t.current - 1).toNat = t.current.toNat - 1 := by bv_omega
      have hne : t.current - 1 ≠ 0 := by bv_omega
      have hsplit : t.divisor * t.current.toNat
          = t.divisor * (t.current.toNat - 1) + t.divisor := by
        rw [← Nat.mul_succ, Nat.succ_eq_add_one, Nat.sub_add_cancel hpos]
      have hrunning : Running { t with phase := 0, current := t.current - 1 } := by
        refine ⟨h.mode, h.masked, h.initial, hne, Nat.zero_lt_of_lt hphase, ?_⟩
        have hle := h.le
        dsimp only
        omega
      have hpos' := left_pos hrunning
      have hleft : left { t with phase := 0, current := t.current - 1 } + 1 = t.left := by
        rw [left, left, hsplit]
        change t.divisor * (t.current - 1).toNat - 0 + 1 = _
        rw [hpred]
        omega
      rw [if_pos hone, if_neg (by omega)]
      exact ⟨hrunning, rfl, rfl, rfl, hleft⟩

/-- A timer that has counted down to zero does not interrupt. -/
theorem clocks_of_stopped (h : t.current = 0) (n : ℕ) :
  (t.clocks n).1 = []
  := by
  have hclock : t.clock = (none, t) := by rw [clock, if_pos (.inr h)]
  induction n with
  | zero => rfl
  | succ n ih =>
      rw [clocks, hclock]
      exact ih

/-- The timer interrupts once in each period. -/
theorem clocks_of_running (n : ℕ) {t : Timer} (h : Running t) :
  (t.clocks n).1 = List.replicate ((n + (t.period - t.left)) / t.period) t.vector
  := by
  induction n generalizing t with
  | zero =>
      have hpos := left_pos h
      have hle := left_le_period h
      rw [clocks, Nat.div_eq_of_lt (by omega)]
      rfl
  | succ n ih =>
      obtain ⟨hnext, hperiod, hvector, hclock⟩ := clock_of_running h
      have hpos := left_pos h
      have hle := left_le_period h
      have hrest := ih hnext
      rw [hperiod, hvector] at hrest
      rw [clocks, hrest]
      split at hclock
      next hone =>
        rw [hclock.1, hclock.2, Nat.sub_self, hone,
          show n + 1 + (t.period - 1) = n + 0 + t.period by omega,
          Nat.add_div_right _ (by omega)]
        rfl
      next hne =>
        rw [hclock.1, show n + 1 + (t.period - t.left) = n + (t.period - t.clock.2.left) by omega]
        rfl

end Timer

end LocalApic
