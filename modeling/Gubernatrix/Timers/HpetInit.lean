import Gubernatrix.Timers.Hpet
import Gubernatrix.Timers.Expiry

/-!
# What `hpet_init` leaves behind

The search of `hpet_init` for a line that a timer can use ends with the lowest one, if there is
one. After the loop over the timers, each of them is disabled and sends its interrupts where it
should. The counter is disabled again at the end, where it should be enabled.
-/

namespace Hpet

open Timers (Features)

variable {H : Type}

/-! ### What should hold -/

/-- A timer with the given configuration has been set up: it is disabled; it sends messages for the
vector, or it is routed to a line that it can use, which is mapped to the vector and unmasked. -/
structure Ready (c : TimerConfig) (vector : U32) (lines : List LineCall) (t : Timer) : Prop where
  disabled : t.configuration.interruptEnable = false
  message : c.fsbInterruptDelivery = true →
    t.configuration.fsbInterruptEnable = true ∧ t.fsbValue = vector &&& 0xff
  routed : c.fsbInterruptDelivery = false → c.routingCapability ≠ 0 →
    ∃ line, c.routingCapability.getLsbD line = true
      ∧ t.configuration.interruptRoute.toNat = line
      ∧ .mapinterrupt line vector false false ∈ lines ∧ .setmask line false ∈ lines

/-- All timers have been set up for the vector of `hpet_timer_handler`, and no line is masked. -/
structure Routed (hpet : Main) (s : State H) : Prop where
  ready : ∃ vector, s.vector = some vector ∧ ∀ i ≤ hpet.timerCount.toNat,
    Ready (hpet.timers i).configuration vector s.lines (s.driver.hpet.timers i)
  unmasked : ∀ line mask, .setmask line mask ∈ s.lines → mask = false

/-- `hpet_init` terminates with the counter enabled and all timers set up. -/
def Initializes (cpuidx : U32) (blocked : ℤ → Bool) (driver : Driver H)
    (registry : Timers.State Fn H) : Prop :=
  ∃ fuel s, hpetInit fuel cpuidx blocked driver registry = (s, .returned)
    ∧ s.driver.hpet.globalEnable = true ∧ Routed driver.hpet s

/-- The search for a line of the timer ends. -/
def HasLine (c : TimerConfig) : Prop := c.fsbInterruptDelivery = true ∨ c.routingCapability ≠ 0

/-! ### The search for a line -/

section Lines

variable {x : U32}

theorem and_one_eq_zero_iff :
  x &&& 1 = 0 ↔ x.getLsbD 0 = false
  := by
  rw [show x &&& 1 = (BitVec.ofBool (x.getLsbD 0)).setWidth 32 from
    BitVec.and_one_eq_setWidth_ofBool_getLsbD]
  cases x.getLsbD 0
  · decide
  · decide

/-- The shift moves the bits down, and keeps the sign. -/
theorem getLsbD_shifted {i : ℕ} (hi : i < 32) :
  (x.sshiftRight 1).getLsbD i = if i < 31 then x.getLsbD (i + 1) else x.getLsbD 31
  := by
  have hmsb : x.msb = x.getLsbD 31 := BitVec.msb_eq_getLsbD_last x
  rw [BitVec.getLsbD_sshiftRight, hmsb, Nat.add_comm 1 i]
  have hin : ¬ 32 ≤ i := by omega
  by_cases hlast : i < 31
  · have hnext : i + 1 < 32 := by omega
    simp [hin, hlast, hnext]
  · have hnext : ¬ i + 1 < 32 := by omega
    simp [hin, hlast, hnext]

/-- `k` is the lowest line. -/
structure Lowest (x : U32) (k : ℕ) : Prop where
  set : x.getLsbD k = true
  below : ∀ j < k, x.getLsbD j = false

theorem Lowest.lt {k : ℕ} (h : Lowest x k) :
  k < 32
  := by
  by_contra hge
  have hset := h.set
  rw [BitVec.getLsbD_of_ge x k (by omega)] at hset
  contradiction

theorem Lowest.ne_zero {k : ℕ} (h : Lowest x k) :
  x ≠ 0
  := by
  rintro rfl
  have hset := h.set
  simp at hset

/-- The lowest line is the one above that of the shifted lines. -/
theorem lowest_succ_iff {k : ℕ} (hzero : x.getLsbD 0 = false) :
  Lowest x (k + 1) ↔ Lowest (x.sshiftRight 1) k
  := by
  constructor
  · intro h
    have hlt := h.lt
    constructor
    · rw [getLsbD_shifted (by omega), if_pos (by omega)]
      exact h.set
    · intro j hj
      rw [getLsbD_shifted (by omega), if_pos (by omega)]
      exact h.below (j + 1) (by omega)
  · intro h
    have hlt := h.lt
    have hset := h.set
    rw [getLsbD_shifted hlt] at hset
    have hk : k < 31 := by
      -- The sign is at the two highest places.
      by_contra hge
      have hbelow := h.below 30 (by omega)
      rw [getLsbD_shifted (by decide), if_pos (by decide)] at hbelow
      rw [if_neg hge, hbelow] at hset
      contradiction
    rw [if_pos hk] at hset
    constructor
    · exact hset
    · intro j hj
      cases j with
      | zero => exact hzero
      | succ j =>
          have hbelow := h.below j (by omega)
          rwa [getLsbD_shifted (by omega), if_pos (by omega)] at hbelow

theorem exists_lowest (hx : x ≠ 0) :
  ∃ k, Lowest x k
  := by
  have hset : ∃ k, x.getLsbD k = true := by
    by_contra hnone
    push Not at hnone
    apply hx
    apply BitVec.eq_of_getLsbD_eq
    intro i hi
    rw [Bool.eq_false_iff.mpr (hnone i)]
    simp
  use Nat.find hset, Nat.find_spec hset
  intro j hj
  exact Bool.eq_false_iff.mpr (Nat.find_min hset hj)

/-- What the search finds is the lowest line. -/
theorem lowest_of_lineLoop {fuel line r : ℕ} (h : lineLoop fuel x line = some r) :
  ∃ k, r = line + k ∧ Lowest x k
  := by
  induction fuel generalizing x line with
  | zero => contradiction
  | succ fuel ih =>
      rw [lineLoop] at h
      split at h
      next hzero =>
        obtain ⟨k, rfl, hk⟩ := ih h
        use k + 1
        exact ⟨by omega, (lowest_succ_iff (and_one_eq_zero_iff.mp hzero)).mpr hk⟩
      next hone =>
        rw [and_one_eq_zero_iff, Bool.not_eq_false] at hone
        use 0
        exact ⟨(Option.some.inj h).symm, hone, fun j hj => absurd hj (Nat.not_lt_zero j)⟩

/-- The search gets to the lowest line. -/
theorem Lowest.lineLoop {k : ℕ} (hk : Lowest x k) {fuel : ℕ} (hfuel : k < fuel) (line : ℕ) :
  lineLoop fuel x line = some (line + k)
  := by
  induction k generalizing fuel x line with
  | zero =>
      cases fuel with
      | zero => contradiction
      | succ fuel =>
          rw [Hpet.lineLoop, if_neg]
          · rfl
          · rw [and_one_eq_zero_iff, hk.set]
            decide
  | succ k ih =>
      cases fuel with
      | zero => contradiction
      | succ fuel =>
          have hzero := hk.below 0 (Nat.succ_pos k)
          rw [Hpet.lineLoop, if_pos (and_one_eq_zero_iff.mpr hzero),
            ih ((lowest_succ_iff hzero).mp hk) (by omega), Nat.add_assoc, Nat.add_comm 1 k]

/-- The search ends, after 32 steps at most, exactly when there is a line. -/
theorem lineLoop_isSome_iff :
  (lineLoop 32 x 0).isSome ↔ x ≠ 0
  := by
  constructor
  · rintro h rfl
    obtain ⟨r, hr⟩ := Option.isSome_iff_exists.mp h
    obtain ⟨k, -, hk⟩ := lowest_of_lineLoop hr
    exact hk.ne_zero rfl
  · intro h
    obtain ⟨k, hk⟩ := exists_lowest h
    rw [hk.lineLoop hk.lt]
    rfl

end Lines

/-! ### The loop over the timers -/

section Turns

variable {s : State H} {fuel i : ℕ} {cpuidx vector : U32} {commonFeatures : Features}

theorem timers_setTimer (hpet : Main) (i : ℕ) (f : Timer → Timer) (j : ℕ) :
  (hpet.setTimer i f).timers j = if j = i then f (hpet.timers i) else hpet.timers j
  := Function.update_apply _ _ _ _

theorem setTimer_setTimer (hpet : Main) (i : ℕ) (f g : Timer → Timer) :
  (hpet.setTimer i f).setTimer i g = hpet.setTimer i fun t => g (f t)
  := by
  simp [Main.setTimer]

/-- `hpet_timer_write` changes the comparator of the timer, and whether it is set. -/
theorem hpetTimerWrite_hpet (d : Driver H) (i : ℕ) (val : U64) :
  ∃ cmp set, (hpetTimerWrite d i val).hpet = d.hpet.setTimer i fun t =>
    { t with comparatorValue := cmp, configuration := { t.configuration with valueSet := set } }
  := by
  cases htype : (d.hpet.timers i).configuration.timerType with
  | true =>
      use val, true
      simp [hpetTimerWrite, Driver.access, htype, Main.configure, setTimer_setTimer,
        timers_setTimer]
  | false =>
      use d.hpet.counterValue + val, (d.hpet.timers i).configuration.valueSet
      simp [hpetTimerWrite, Driver.access, htype, timers_setTimer]
      rfl

/-- What the end of a turn does to the device: the timer is disabled. -/
theorem finishTimer_hpet (features : Features) (i : ℕ) (s : State H) :
  ∃ cmp set, (finishTimer features i s).driver.hpet = s.driver.hpet.setTimer i fun t =>
    { t with
      comparatorValue := cmp
      configuration := { t.configuration with valueSet := set, interruptEnable := false } }
  := by
  obtain ⟨cmp, set, hwrite⟩ := hpetTimerWrite_hpet s.driver i 0
  use cmp, set
  simp only [finishTimer, State.register, hpetTimerSetenable, Driver.access, Main.configure]
  rw [hwrite, setTimer_setTimer]

/-- What the turns for the timers from `a` to below `b` leave behind, when they end. -/
structure Turns (vector : U32) (a b : ℕ) (s s' : State H) : Prop where
  ready : ∀ i, a ≤ i → i < b →
    Ready (s.driver.hpet.timers i).configuration vector s'.lines (s'.driver.hpet.timers i)
      ∧ (s'.driver.timers i).enabled = false
  others : ∀ i, i < a ∨ b ≤ i →
    s'.driver.hpet.timers i = s.driver.hpet.timers i ∧ s'.driver.timers i = s.driver.timers i
  count : s'.driver.hpet.timerCount = s.driver.hpet.timerCount
  vector : s'.vector = s.vector
  lines : s.lines ⊆ s'.lines
  unmasked : ∀ line mask, .setmask line mask ∈ s'.lines →
    .setmask line mask ∈ s.lines ∨ mask = false

theorem msiRegisterData_eq (vector : U32) :
  (msiRegisterData vector).setWidth 32 = vector &&& 0xff
  := by
  rw [msiRegisterData]
  apply BitVec.eq_of_getLsbD_eq
  intro j hj
  rw [BitVec.getLsbD_setWidth, BitVec.getLsbD_signExtend]
  have hwide : j < 64 := by omega
  simp [hj, hwide]

/-- A timer stays ready when there are more calls for lines. -/
theorem Ready.mono {c : TimerConfig} {lines lines' : List LineCall} {t : Timer}
    (h : Ready c vector lines t) (hlines : lines ⊆ lines') :
  Ready c vector lines' t
  := by
  refine ⟨h.disabled, h.message, ?_⟩
  intro hfsb hmask
  obtain ⟨line, hset, hroute, hmap, hunmask⟩ := h.routed hfsb hmask
  exact ⟨line, hset, hroute, hlines hmap, hlines hunmask⟩

theorem Turns.refl (vector : U32) (a : ℕ) (s : State H) :
  Turns vector a a s s
  where
    ready _ hle hlt := absurd hle (Nat.not_le.mpr hlt)
    others _ _ := ⟨rfl, rfl⟩
    count := rfl
    vector := rfl
    lines := List.Subset.refl _
    unmasked _ _ := .inl

/-- Turns for timers one after the other. -/
theorem Turns.trans {a b c : ℕ} {s s' s'' : State H} (hab : a ≤ b) (hbc : b ≤ c)
    (h : Turns vector a b s s') (h' : Turns vector b c s' s'') :
  Turns vector a c s s''
  := by
  constructor
  · intro i hi hic
    rcases Nat.lt_or_ge i b with hib | hbi
    · obtain ⟨hready, henabled⟩ := h.ready i hi hib
      obtain ⟨hdevice, hdriver⟩ := h'.others i (.inl hib)
      rw [hdevice, hdriver]
      exact ⟨hready.mono h'.lines, henabled⟩
    · rw [← (h.others i (.inr hbi)).1]
      exact h'.ready i hbi hic
  · intro i hi
    obtain ⟨hdevice, hdriver⟩ := h.others i (by omega)
    obtain ⟨hdevice', hdriver'⟩ := h'.others i (by omega)
    exact ⟨hdevice'.trans hdevice, hdriver'.trans hdriver⟩
  · exact h'.count.trans h.count
  · exact h'.vector.trans h.vector
  · exact List.Subset.trans h.lines h'.lines
  · intro line mask hmem
    rcases h'.unmasked line mask hmem with hold | hmask
    · exact h.unmasked line mask hold
    · exact .inr hmask

/-- A timer that sends its interrupts where it should is ready at the end of the turn. -/
theorem turns_finishTimer {s s' : State H} {vector : U32} {i : ℕ} {f : Timer → Timer}
    {new : List LineCall} (features : Features)
    (hhpet : s'.driver.hpet = s.driver.hpet.setTimer i f)
    (htimers : s'.driver.timers = s.driver.timers) (hvector : s'.vector = s.vector)
    (hlines : s'.lines = s.lines ++ new)
    (hnew : ∀ line mask, .setmask line mask ∈ new → mask = false)
    (hmessage : (s.driver.hpet.timers i).configuration.fsbInterruptDelivery = true →
      (f (s.driver.hpet.timers i)).configuration.fsbInterruptEnable = true
        ∧ (f (s.driver.hpet.timers i)).fsbValue = vector &&& 0xff)
    (hrouted : (s.driver.hpet.timers i).configuration.fsbInterruptDelivery = false →
      ∃ line, (s.driver.hpet.timers i).configuration.routingCapability.getLsbD line = true
        ∧ (f (s.driver.hpet.timers i)).configuration.interruptRoute.toNat = line
        ∧ .mapinterrupt line vector false false ∈ new ∧ .setmask line false ∈ new) :
  Turns vector i (i + 1) s (finishTimer features i s')
  := by
  obtain ⟨cmp, set, hfinish⟩ := finishTimer_hpet features i s'
  rw [hhpet] at hfinish
  have hself := timers_setTimer (s.driver.hpet.setTimer i f) i (fun t =>
    { t with
      comparatorValue := cmp
      configuration := { t.configuration with valueSet := set, interruptEnable := false } })
  have hdriver : (finishTimer features i s').driver.timers
      = Function.update s.driver.timers i { s.driver.timers i with enabled := false } := by
    rw [← htimers]
    rfl
  have hlines' : (finishTimer features i s').lines = s.lines ++ new := hlines
  constructor
  · intro j hj hji
    obtain rfl : j = i := by omega
    rw [hfinish, hself j, if_pos rfl, timers_setTimer, if_pos rfl, hdriver, Function.update_self]
    refine ⟨⟨rfl, hmessage, ?_⟩, rfl⟩
    intro hfsb hmask
    obtain ⟨line, hset, hroute, hmap, hunmask⟩ := hrouted hfsb
    rw [hlines']
    exact ⟨line, hset, hroute, List.mem_append_right _ hmap, List.mem_append_right _ hunmask⟩
  · intro j hj
    have hne : j ≠ i := by omega
    rw [hfinish, hself j, if_neg hne, timers_setTimer, if_neg hne, hdriver,
      Function.update_of_ne hne]
    exact ⟨rfl, rfl⟩
  · rw [hfinish]
    rfl
  · exact hvector
  · rw [hlines']
    exact List.subset_append_left _ _
  · intro line mask hmem
    rw [hlines', List.mem_append] at hmem
    rcases hmem with hold | hnewmem
    · exact .inl hold
    · exact .inr (hnew line mask hnewmem)

/-- A timer that can send messages is set up for them. -/
theorem initTimer_message
    (hfsb : (s.driver.hpet.timers i).configuration.fsbInterruptDelivery = true) :
  initTimer fuel cpuidx vector commonFeatures i s
    = (finishTimer (commonFeatures ||| (Timers.featuresWrite ||| Timers.featuresOneshot)
          ||| Timers.featuresPcieMsgIntr) i
        (configureFsb cpuidx vector i { s with driver := s.driver.access i }), .returned)
  := by
  simp only [initTimer, Driver.access, hfsb, if_true]

/-- Another timer is routed to the line that the search finds. -/
theorem initTimer_line {line : ℕ}
    (hfsb : (s.driver.hpet.timers i).configuration.fsbInterruptDelivery = false)
    (hline : lineLoop fuel (s.driver.hpet.timers i).configuration.routingCapability 0 = some line) :
  initTimer fuel cpuidx vector commonFeatures i s
    = (finishTimer (commonFeatures ||| (Timers.featuresWrite ||| Timers.featuresOneshot)
          ||| Timers.featuresFixedIntr) i
        (configureLine vector line i { s with driver := s.driver.access i }), .returned)
  := by
  simp only [initTimer, Driver.access, hfsb, hline, Bool.false_eq_true, if_false]

theorem initTimer_spins
    (hfsb : (s.driver.hpet.timers i).configuration.fsbInterruptDelivery = false)
    (hline : lineLoop fuel (s.driver.hpet.timers i).configuration.routingCapability 0 = none) :
  initTimer fuel cpuidx vector commonFeatures i s
    = ({ s with driver := s.driver.access i }, .spins)
  := by
  simp only [initTimer, Driver.access, hfsb, hline, Bool.false_eq_true, if_false]

theorem turns_message
    (hfsb : (s.driver.hpet.timers i).configuration.fsbInterruptDelivery = true) :
  Turns vector i (i + 1) s (initTimer fuel cpuidx vector commonFeatures i s).1
  := by
  have hhpet : (configureFsb cpuidx vector i { s with driver := s.driver.access i }).driver.hpet
      = s.driver.hpet.setTimer i fun t =>
        { t with
          configuration := { t.configuration with fsbInterruptEnable := true }
          fsbAddress := msiRegisterAddr cpuidx
          fsbValue := (msiRegisterData vector).setWidth 32 } := rfl
  rw [initTimer_message hfsb]
  apply turns_finishTimer _ hhpet rfl rfl (List.append_nil _).symm nofun
  · intro _
    exact ⟨rfl, msiRegisterData_eq vector⟩
  · intro h
    rw [hfsb] at h
    contradiction

theorem turns_line {line : ℕ}
    (hfsb : (s.driver.hpet.timers i).configuration.fsbInterruptDelivery = false)
    (hline : lineLoop fuel (s.driver.hpet.timers i).configuration.routingCapability 0 = some line) :
  Turns vector i (i + 1) s (initTimer fuel cpuidx vector commonFeatures i s).1
  := by
  obtain ⟨k, hk, hlowest⟩ := lowest_of_lineLoop hline
  obtain rfl : line = k := by omega
  have hhpet : (configureLine vector line i { s with driver := s.driver.access i }).driver.hpet
      = s.driver.hpet.setTimer i fun t =>
        { t with
          configuration :=
            { t.configuration with interruptRoute := BitVec.ofNat 5 line } } := rfl
  rw [initTimer_line hfsb hline]
  apply turns_finishTimer _ hhpet rfl rfl rfl
  · intro l mask hmem
    simp at hmem
    exact hmem.2
  · intro h
    rw [hfsb] at h
    contradiction
  · intro _
    refine ⟨line, hlowest.set, ?_, by simp, by simp⟩
    have hlt := hlowest.lt
    exact Nat.mod_eq_of_lt hlt

/-- A turn ends with the timer ready, if the timer has a line or can send messages, or is in the
search for ever. -/
theorem initTimer_cases (fuel : ℕ) (cpuidx vector : U32) (commonFeatures : Features) (i : ℕ)
    (s : State H) :
  (∃ s', initTimer fuel cpuidx vector commonFeatures i s = (s', .returned)
      ∧ Turns vector i (i + 1) s s' ∧ HasLine (s.driver.hpet.timers i).configuration)
    ∨ initTimer fuel cpuidx vector commonFeatures i s
      = ({ s with driver := s.driver.access i }, .spins)
  := by
  rcases Bool.eq_false_or_eq_true
    (s.driver.hpet.timers i).configuration.fsbInterruptDelivery with hfsb | hfsb
  · have hturns : Turns vector i (i + 1) s (initTimer fuel cpuidx vector commonFeatures i s).1 :=
      turns_message hfsb
    rw [initTimer_message hfsb] at hturns ⊢
    exact .inl ⟨_, rfl, hturns, .inl hfsb⟩
  · cases hline : lineLoop fuel (s.driver.hpet.timers i).configuration.routingCapability 0 with
    | none => exact .inr (initTimer_spins hfsb hline)
    | some line =>
        have hturns : Turns vector i (i + 1) s
            (initTimer fuel cpuidx vector commonFeatures i s).1 := turns_line hfsb hline
        obtain ⟨k, -, hlowest⟩ := lowest_of_lineLoop hline
        rw [initTimer_line hfsb hline] at hturns ⊢
        exact .inl ⟨_, rfl, hturns, .inr hlowest.ne_zero⟩

/-- With a line, or messages, 32 steps are enough. -/
theorem initTimer_returned (h : HasLine (s.driver.hpet.timers i).configuration) :
  ∃ s', initTimer 32 cpuidx vector commonFeatures i s = (s', .returned)
    ∧ Turns vector i (i + 1) s s'
  := by
  rcases initTimer_cases 32 cpuidx vector commonFeatures i s with ⟨s', hs', hturns, -⟩ | hspins
  · exact ⟨s', hs', hturns⟩
  · rcases Bool.eq_false_or_eq_true
      (s.driver.hpet.timers i).configuration.fsbInterruptDelivery with hfsb | hfsb
    · rw [initTimer_message hfsb] at hspins
      cases congrArg Prod.snd hspins
    · have hmask := h.resolve_left (by rw [hfsb]; decide)
      obtain ⟨line, hline⟩ := Option.isSome_iff_exists.mp (lineLoop_isSome_iff.mpr hmask)
      rw [initTimer_line hfsb hline] at hspins
      cases congrArg Prod.snd hspins

/-- When the loop ends, every timer has a line or can send messages, and is ready. -/
theorem turns_of_initTimers {n : ℕ} {s' : State H}
    (h : initTimers fuel cpuidx vector commonFeatures n i s = (s', .returned)) :
  Turns vector i (i + n) s s'
    ∧ ∀ j, i ≤ j → j < i + n → HasLine (s.driver.hpet.timers j).configuration
  := by
  induction n generalizing i s with
  | zero =>
      obtain rfl : s = s' := congrArg Prod.fst h
      exact ⟨Turns.refl vector i s, fun j hle hlt => absurd hle (Nat.not_le.mpr hlt)⟩
  | succ n ih =>
      rw [initTimers] at h
      rcases initTimer_cases fuel cpuidx vector commonFeatures i s with
        ⟨s₁, hs₁, hturns, hhas⟩ | hspins
      · rw [hs₁] at h
        obtain ⟨hrest, hlines⟩ := ih h
        constructor
        · apply hturns.trans (by omega) (by omega)
          rwa [show i + (n + 1) = i + 1 + n by omega]
        · intro j hij hjn
          rcases Nat.eq_or_lt_of_le hij with rfl | hlt
          · exact hhas
          · rw [← (hturns.others j (.inr hlt)).1]
            exact hlines j hlt (by omega)
      · rw [hspins] at h
        cases congrArg Prod.snd h

/-- The loop ends if every timer has a line or can send messages. -/
theorem exists_initTimers {n : ℕ}
    (h : ∀ j, i ≤ j → j < i + n → HasLine (s.driver.hpet.timers j).configuration) :
  ∃ s', initTimers 32 cpuidx vector commonFeatures n i s = (s', .returned)
  := by
  induction n generalizing i s with
  | zero => exact ⟨s, rfl⟩
  | succ n ih =>
      obtain ⟨s₁, hs₁, hturns⟩ : ∃ s₁, initTimer 32 cpuidx vector commonFeatures i s
          = (s₁, .returned) ∧ Turns vector i (i + 1) s s₁ :=
        initTimer_returned (h i (Nat.le_refl i) (by omega))
      rw [initTimers, hs₁]
      apply ih
      intro j hij hjn
      rw [(hturns.others j (.inr hij)).1]
      exact h j (by omega) (by omega)

end Turns

/-! ### `hpet_init` -/

section Init

variable {fuel : ℕ} {cpuidx : U32} {blocked : ℤ → Bool} {driver : Driver H}
  {registry : Timers.State Fn H} {s : State H}

/-- A run that returns went through the whole loop, and then disabled the counter. -/
theorem hpetInit_eq_returned_iff :
  hpetInit fuel cpuidx blocked driver registry = (s, .returned)
    ↔ driver.hpet.clockPeriod ≠ 0
      ∧ ∃ s', initTimers fuel cpuidx (intrptNum blocked) driver.hpet.commonFeatures
          (driver.hpet.timerCount.toNat + 1) 0 (prepare blocked driver registry) = (s', .returned)
        ∧ s = s'.enableCounter
  := by
  by_cases hperiod : driver.hpet.clockPeriod = 0
  · rw [hpetInit, if_pos hperiod]
    constructor
    · nofun
    · intro h
      exact absurd hperiod h.1
  · rw [hpetInit, if_neg hperiod]
    rcases hloop : initTimers fuel cpuidx (intrptNum blocked) driver.hpet.commonFeatures
      (driver.hpet.timerCount.toNat + 1) 0 (prepare blocked driver registry) with ⟨s', outcome⟩
    cases outcome with
    | returned =>
        constructor
        · intro h
          exact ⟨hperiod, s', rfl, (congrArg Prod.fst h).symm⟩
        · rintro ⟨-, s'', hs'', rfl⟩
          obtain rfl : s' = s'' := congrArg Prod.fst hs''
          rfl
    | divides =>
        constructor
        · nofun
        · rintro ⟨-, s'', hs'', -⟩
          cases congrArg Prod.snd hs''
    | spins =>
        constructor
        · nofun
        · rintro ⟨-, s'', hs'', -⟩
          cases congrArg Prod.snd hs''

/-- The counter is disabled at the end. -/
theorem globalEnable_hpetInit
    (h : hpetInit fuel cpuidx blocked driver registry = (s, .returned)) :
  s.driver.hpet.globalEnable = false
  := by
  obtain ⟨-, s', -, rfl⟩ := hpetInit_eq_returned_iff.mp h
  rfl

/-- What the loop leaves behind for all timers. -/
theorem turns_hpetInit (h : hpetInit fuel cpuidx blocked driver registry = (s, .returned)) :
  Turns (intrptNum blocked) 0 (driver.hpet.timerCount.toNat + 1) (prepare blocked driver registry) s
    ∧ ∀ i ≤ driver.hpet.timerCount.toNat, HasLine (driver.hpet.timers i).configuration
  := by
  obtain ⟨-, s', hloop, rfl⟩ := hpetInit_eq_returned_iff.mp h
  obtain ⟨hturns, hlines⟩ := turns_of_initTimers hloop
  rw [Nat.zero_add] at hturns hlines
  constructor
  · exact ⟨hturns.ready, hturns.others, hturns.count, hturns.vector, hturns.lines, hturns.unmasked⟩
  · intro i hi
    exact hlines i (Nat.zero_le i) (Nat.lt_succ_of_le hi)

theorem routed_hpetInit (h : hpetInit fuel cpuidx blocked driver registry = (s, .returned)) :
  Routed driver.hpet s
  := by
  obtain ⟨hturns, -⟩ := turns_hpetInit h
  constructor
  · use intrptNum blocked
    use hturns.vector
    intro i hi
    exact (hturns.ready i (Nat.zero_le i) (Nat.lt_succ_of_le hi)).1
  · intro line mask hmem
    rcases hturns.unmasked line mask hmem with hold | hmask
    · exact absurd hold List.not_mem_nil
    · exact hmask

/-- The driver and the device agree on which timers are enabled: none. -/
theorem synced_hpetInit (h : hpetInit fuel cpuidx blocked driver registry = (s, .returned)) :
  Synced s.driver
  := by
  obtain ⟨hturns, -⟩ := turns_hpetInit h
  intro i hi
  rw [hturns.count] at hi
  obtain ⟨hready, henabled⟩ := hturns.ready i (Nat.zero_le i) (Nat.lt_succ_of_le hi)
  rw [henabled, hready.disabled]

/-- `hpet_init` returns exactly if its counter has a rate and every timer has a line or can send
messages. -/
theorem hpetInit_returns_iff :
  (∃ fuel s, hpetInit fuel cpuidx blocked driver registry = (s, .returned))
    ↔ driver.hpet.clockPeriod ≠ 0
      ∧ ∀ i ≤ driver.hpet.timerCount.toNat, HasLine (driver.hpet.timers i).configuration
  := by
  constructor
  · rintro ⟨fuel, s, h⟩
    exact ⟨(hpetInit_eq_returned_iff.mp h).1, (turns_hpetInit h).2⟩
  · rintro ⟨hperiod, hlines⟩
    have hloop : ∃ s', initTimers 32 cpuidx (intrptNum blocked) driver.hpet.commonFeatures
        (driver.hpet.timerCount.toNat + 1) 0 (prepare blocked driver registry) = (s', .returned) :=
      exists_initTimers fun i _ hi => hlines i (by omega)
    obtain ⟨s', hs'⟩ := hloop
    exact ⟨32, _, hpetInit_eq_returned_iff.mpr ⟨hperiod, s', hs', rfl⟩⟩

end Init

/-- `hpet_init` never leaves the counter enabled. It returns exactly if the counter has a rate and
every timer has a line or can send messages; then all timers have been set up. -/
theorem not_initializes (cpuidx : U32) (blocked : ℤ → Bool) (driver : Driver H)
    (registry : Timers.State Fn H) :
  ¬ Initializes cpuidx blocked driver registry
    ∧ ((∃ fuel s, hpetInit fuel cpuidx blocked driver registry = (s, .returned))
      ↔ driver.hpet.clockPeriod ≠ 0
        ∧ ∀ i ≤ driver.hpet.timerCount.toNat, HasLine (driver.hpet.timers i).configuration)
    ∧ ∀ fuel s, hpetInit fuel cpuidx blocked driver registry = (s, .returned) →
      s.driver.hpet.globalEnable = false ∧ Routed driver.hpet s
  := by
  refine ⟨?_, hpetInit_returns_iff, ?_⟩
  · rintro ⟨fuel, s, h, henable, -⟩
    rw [globalEnable_hpetInit h] at henable
    contradiction
  · intro fuel s h
    exact ⟨globalEnable_hpetInit h, routed_hpetInit h⟩

/-- With three timers that can use lines 20 to 23, `hpet_init` returns with the counter disabled. -/
theorem not_initializes_threeTimers :
  (∃ fuel s, hpetInit fuel 0 (fun _ => false) (.idle 2 : Driver Unit) (.initial [])
      = (s, .returned))
    ∧ ¬ Initializes 0 (fun _ => false) (.idle 2 : Driver Unit) (.initial [])
  := by
  constructor
  · apply hpetInit_returns_iff.mpr
    constructor
    · decide
    · intro i _
      right
      have hlines : Timer.idle.configuration.routingCapability ≠ 0 := by decide
      exact hlines
  · rintro ⟨fuel, s, h, henable, -⟩
    rw [globalEnable_hpetInit h] at henable
    contradiction

end Hpet
