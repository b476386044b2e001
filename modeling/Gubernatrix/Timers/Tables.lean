import Gubernatrix.Timers.HpetInit
import Gubernatrix.Timers.Platform

/-!
# The tables of timers

There is a place in `timer_defs` for every timer that is registered. `timers` is allocated with one
element too few: `TimerCount` is one less than the number of timers of the HPET, and the size that
`hpet_init` computes adds one to the bytes, not to the elements.
-/

/-! ### What `hpet_init` accesses -/

namespace Hpet

open Timers (Features)

variable {H : Type}

section Accesses

variable {fuel i : ℕ} {cpuidx vector : U32} {commonFeatures : Features} {s : State H}

/-- What the turns for the timers from `a` to below `b` access and register, whether they end or
not. -/
structure Touches (a b : ℕ) (s s' : State H) : Prop where
  mono : s.driver.accessed ⊆ s'.driver.accessed
  accessed : ∀ j ∈ s'.driver.accessed, j ∈ s.driver.accessed ∨ a ≤ j ∧ j < b
  timersSize : s'.driver.timersSize = s.driver.timersSize
  defs : s'.registry.defs.length ≤ s.registry.defs.length + (b - a)

theorem accessed_finishTimer (features : Features) (i : ℕ) (s : State H) :
  (finishTimer features i s).driver.accessed = s.driver.accessed ++ [i] ++ [i]
  := rfl

theorem length_defs_finishTimer (features : Features) (i : ℕ) (s : State H) :
  (finishTimer features i s).registry.defs.length = s.registry.defs.length + 1
  := List.length_append

theorem Touches.refl (a : ℕ) (s : State H) :
  Touches a a s s
  where
    mono := List.Subset.refl _
    accessed _ := .inl
    timersSize := rfl
    defs := Nat.le_add_right _ _

theorem Touches.trans {a b c : ℕ} {s s' s'' : State H} (hab : a ≤ b) (hbc : b ≤ c)
    (h : Touches a b s s') (h' : Touches b c s' s'') :
  Touches a c s s''
  := by
  have hdefs := h.defs
  have hdefs' := h'.defs
  constructor
  · exact List.Subset.trans h.mono h'.mono
  · intro j hj
    rcases h'.accessed j hj with hmiddle | hj
    · rcases h.accessed j hmiddle with hfirst | hj
      · exact .inl hfirst
      · exact .inr ⟨hj.1, by omega⟩
    · exact .inr ⟨by omega, hj.2⟩
  · exact h'.timersSize.trans h.timersSize
  · omega

/-- The loop may be left after any of its turns. -/
theorem Touches.mono_right {a b c : ℕ} {s s' : State H} (h : Touches a b s s') (hbc : b ≤ c) :
  Touches a c s s'
  := by
  have hdefs := h.defs
  constructor
  · exact h.mono
  · intro j hj
    rcases h.accessed j hj with hold | hj
    · exact .inl hold
    · exact .inr ⟨hj.1, by omega⟩
  · exact h.timersSize
  · omega

/-- A turn accesses its timer, and registers it at the end. -/
theorem touches_finishTimer {s' : State H} (features : Features)
    (haccessed : s'.driver.accessed = s.driver.accessed ++ [i])
    (hsize : s'.driver.timersSize = s.driver.timersSize) (hregistry : s'.registry = s.registry) :
  Touches i (i + 1) s (finishTimer features i s')
  := by
  constructor
  · rw [accessed_finishTimer, haccessed, List.append_assoc, List.append_assoc]
    exact List.subset_append_left _ _
  · intro j hj
    rw [accessed_finishTimer, haccessed] at hj
    simp only [List.mem_append, List.mem_singleton] at hj
    rcases hj with ((hold | rfl) | rfl) | rfl
    · exact .inl hold
    all_goals exact .inr ⟨Nat.le_refl _, Nat.lt_succ_self _⟩
  · exact hsize
  · rw [length_defs_finishTimer, hregistry, Nat.add_sub_cancel_left]

/-- A turn accesses its timer, and then registers it, or is in the search for ever. -/
theorem initTimer_finishes (fuel : ℕ) (cpuidx vector : U32) (commonFeatures : Features) (i : ℕ)
    (s : State H) :
  (∃ features s', initTimer fuel cpuidx vector commonFeatures i s
        = (finishTimer features i s', .returned)
      ∧ s'.driver.accessed = s.driver.accessed ++ [i]
      ∧ s'.driver.timersSize = s.driver.timersSize ∧ s'.registry = s.registry)
    ∨ initTimer fuel cpuidx vector commonFeatures i s
      = ({ s with driver := s.driver.access i }, .spins)
  := by
  rcases Bool.eq_false_or_eq_true
    (s.driver.hpet.timers i).configuration.fsbInterruptDelivery with hfsb | hfsb
  · exact .inl ⟨_, _, initTimer_message hfsb, rfl, rfl, rfl⟩
  · cases hline : lineLoop fuel (s.driver.hpet.timers i).configuration.routingCapability 0 with
    | none => exact .inr (initTimer_spins hfsb hline)
    | some line => exact .inl ⟨_, _, initTimer_line hfsb hline, rfl, rfl, rfl⟩

theorem touches_initTimer (fuel : ℕ) (cpuidx vector : U32) (commonFeatures : Features) (i : ℕ)
    (s : State H) :
  Touches i (i + 1) s (initTimer fuel cpuidx vector commonFeatures i s).1
  := by
  rcases initTimer_finishes fuel cpuidx vector commonFeatures i s with
    ⟨features, s', hturn, haccessed, hsize, hregistry⟩ | hspins
  · rw [hturn]
    exact touches_finishTimer features haccessed hsize hregistry
  · rw [hspins]
    constructor
    · exact List.subset_append_left _ _
    · intro j hj
      rcases List.mem_append.mp hj with hold | hj
      · exact .inl hold
      · obtain rfl := List.mem_singleton.mp hj
        exact .inr ⟨Nat.le_refl _, Nat.lt_succ_self _⟩
    · rfl
    · exact Nat.le_add_right _ _

theorem mem_accessed_initTimer (fuel : ℕ) (cpuidx vector : U32) (commonFeatures : Features) (i : ℕ)
    (s : State H) :
  i ∈ (initTimer fuel cpuidx vector commonFeatures i s).1.driver.accessed
  := by
  rcases initTimer_finishes fuel cpuidx vector commonFeatures i s with
    ⟨features, s', hturn, -⟩ | hspins
  · rw [hturn, accessed_finishTimer]
    exact List.mem_append_right _ (List.mem_singleton_self i)
  · rw [hspins]
    exact List.mem_append_right _ (List.mem_singleton_self i)

/-- The loop after a turn that ended. -/
theorem initTimers_succ {n : ℕ} {s₁ : State H}
    (h : initTimer fuel cpuidx vector commonFeatures i s = (s₁, .returned)) :
  initTimers fuel cpuidx vector commonFeatures (n + 1) i s
    = initTimers fuel cpuidx vector commonFeatures n (i + 1) s₁
  := by
  rw [initTimers, h]

/-- The loop after a turn that did not end. -/
theorem initTimers_spins {n : ℕ} {s₁ : State H}
    (h : initTimer fuel cpuidx vector commonFeatures i s = (s₁, .spins)) :
  initTimers fuel cpuidx vector commonFeatures (n + 1) i s = (s₁, .spins)
  := by
  rw [initTimers, h]

theorem touches_initTimers (n : ℕ) (i : ℕ) (s : State H) :
  Touches i (i + n) s (initTimers fuel cpuidx vector commonFeatures n i s).1
  := by
  induction n generalizing i s with
  | zero => exact Touches.refl i s
  | succ n ih =>
      have hturn := touches_initTimer fuel cpuidx vector commonFeatures i s
      rcases initTimer_cases fuel cpuidx vector commonFeatures i s with ⟨s₁, hs₁, -, -⟩ | hspins
      · rw [hs₁] at hturn
        rw [initTimers_succ hs₁, show i + (n + 1) = i + 1 + n by omega]
        exact hturn.trans (Nat.le_succ i) (Nat.le_add_right _ _) (ih (i + 1) s₁)
      · rw [hspins] at hturn
        rw [initTimers_spins hspins]
        exact hturn.mono_right (by omega)

/-- The loop gets to a timer only if those before it have lines or can send messages. -/
theorem hasLine_of_accessed {n j : ℕ}
    (h : j ∈ (initTimers fuel cpuidx vector commonFeatures n i s).1.driver.accessed) :
  j ∈ s.driver.accessed
    ∨ ∀ l, i ≤ l → l < j → HasLine (s.driver.hpet.timers l).configuration
  := by
  induction n generalizing i s with
  | zero => exact .inl h
  | succ n ih =>
      have hturn := touches_initTimer fuel cpuidx vector commonFeatures i s
      have hfirst : j ∈ (initTimer fuel cpuidx vector commonFeatures i s).1.driver.accessed →
          j ∈ s.driver.accessed
            ∨ ∀ l, i ≤ l → l < j → HasLine (s.driver.hpet.timers l).configuration := by
        intro hj
        rcases hturn.accessed j hj with hold | hj
        · exact .inl hold
        · exact .inr fun l hil hlj => by omega
      rcases initTimer_cases fuel cpuidx vector commonFeatures i s with
        ⟨s₁, hs₁, hturns, hhas⟩ | hspins
      · rw [hs₁] at hfirst
        rw [initTimers_succ hs₁] at h
        rcases ih h with hj | hlines
        · exact hfirst hj
        · right
          intro l hil hlj
          rcases Nat.eq_or_lt_of_le hil with rfl | hlt
          · exact hhas
          · rw [← (hturns.others l (.inr hlt)).1]
            exact hlines l hlt hlj
      · rw [hspins] at hfirst
        rw [initTimers_spins hspins] at h
        exact hfirst h

/-- With 32 steps it does get there. -/
theorem mem_accessed_initTimers {n j : ℕ} (hij : i ≤ j) (hjn : j < i + n)
    (h : ∀ l, i ≤ l → l < j → HasLine (s.driver.hpet.timers l).configuration) :
  j ∈ (initTimers 32 cpuidx vector commonFeatures n i s).1.driver.accessed
  := by
  induction n generalizing i s with
  | zero => omega
  | succ n ih =>
      rcases Nat.eq_or_lt_of_le hij with rfl | hlt
      · have hmem := mem_accessed_initTimer 32 cpuidx vector commonFeatures i s
        rcases initTimer_cases 32 cpuidx vector commonFeatures i s with ⟨s₁, hs₁, -, -⟩ | hspins
        · rw [hs₁] at hmem
          rw [initTimers_succ hs₁]
          exact (touches_initTimers n (i + 1) s₁).mono hmem
        · rw [hspins] at hmem
          rw [initTimers_spins hspins]
          exact hmem
      · obtain ⟨s₁, hs₁, hturns⟩ : ∃ s₁, initTimer 32 cpuidx vector commonFeatures i s
            = (s₁, .returned) ∧ Turns vector i (i + 1) s s₁ :=
          initTimer_returned (h i (Nat.le_refl i) hlt)
        rw [initTimers_succ hs₁]
        apply ih hlt (by omega)
        intro l hil hlj
        rw [(hturns.others l (.inr hil)).1]
        exact h l (by omega) hlj

end Accesses

section Init

variable {fuel : ℕ} {cpuidx : U32} {blocked : ℤ → Bool} {driver : Driver H}
  {registry : Timers.State Fn H}

/-- What the loop accesses and registers is left as it is. -/
theorem accessed_hpetInit (hperiod : driver.hpet.clockPeriod ≠ 0) :
  (hpetInit fuel cpuidx blocked driver registry).1.driver.accessed
      = (initTimers fuel cpuidx (intrptNum blocked) driver.hpet.commonFeatures
        (driver.hpet.timerCount.toNat + 1) 0 (prepare blocked driver registry)).1.driver.accessed
    ∧ (hpetInit fuel cpuidx blocked driver registry).1.driver.timersSize
      = some (sizeofTimerState * driver.hpet.timerCount.toNat + 1)
    ∧ (hpetInit fuel cpuidx blocked driver registry).1.registry.defs.length
      ≤ registry.defs.length + (driver.hpet.timerCount.toNat + 2)
  := by
  have htouches : Touches 0 (0 + (driver.hpet.timerCount.toNat + 1))
      (prepare blocked driver registry) (initTimers fuel cpuidx (intrptNum blocked)
        driver.hpet.commonFeatures (driver.hpet.timerCount.toNat + 1) 0
        (prepare blocked driver registry)).1 := touches_initTimers _ 0 _
  have hsize := htouches.timersSize
  have hdefs := htouches.defs
  have hprepared : (prepare blocked driver registry).registry.defs.length
      = registry.defs.length + 1 := List.length_append
  rw [hpetInit, if_neg hperiod]
  generalize initTimers fuel cpuidx (intrptNum blocked) driver.hpet.commonFeatures
    (driver.hpet.timerCount.toNat + 1) 0 (prepare blocked driver registry) = loop at hsize hdefs ⊢
  obtain ⟨s, outcome⟩ := loop
  simp only at hsize hdefs
  have hbound : s.registry.defs.length
      ≤ registry.defs.length + (driver.hpet.timerCount.toNat + 2) := by omega
  cases outcome with
  | returned => exact ⟨rfl, hsize, hbound⟩
  | divides => exact ⟨rfl, hsize, hbound⟩
  | spins => exact ⟨rfl, hsize, hbound⟩

theorem length_defs_hpetInit (fuel : ℕ) (cpuidx : U32) (blocked : ℤ → Bool) (driver : Driver H)
    (registry : Timers.State Fn H) :
  (hpetInit fuel cpuidx blocked driver registry).1.registry.defs.length
    ≤ registry.defs.length + (driver.hpet.timerCount.toNat + 2)
  := by
  by_cases hperiod : driver.hpet.clockPeriod = 0
  · rw [hpetInit, if_pos hperiod]
    exact Nat.le_add_right _ _
  · exact (accessed_hpetInit hperiod).2.2

/-- An element that is accessed belongs to a timer before which all have lines or can send
messages. -/
theorem hasLine_of_accessed_hpetInit (hperiod : driver.hpet.clockPeriod ≠ 0)
    (hnone : driver.accessed = []) {j : ℕ}
    (h : j ∈ (hpetInit fuel cpuidx blocked driver registry).1.driver.accessed) :
  j ≤ driver.hpet.timerCount.toNat ∧ ∀ l < j, HasLine (driver.hpet.timers l).configuration
  := by
  rw [(accessed_hpetInit hperiod).1] at h
  have hprepared : (prepare blocked driver registry).driver.accessed = [] := hnone
  constructor
  · rcases (touches_initTimers _ 0 _).accessed j h with hold | hj
    · rw [hprepared] at hold
      exact absurd hold List.not_mem_nil
    · omega
  · rcases hasLine_of_accessed h with hold | hlines
    · rw [hprepared] at hold
      exact absurd hold List.not_mem_nil
    · intro l hl
      exact hlines l (Nat.zero_le l) hl

/-- The last element is accessed, if the other timers have lines or can send messages. -/
theorem mem_accessed_hpetInit (hperiod : driver.hpet.clockPeriod ≠ 0)
    (h : ∀ i < driver.hpet.timerCount.toNat, HasLine (driver.hpet.timers i).configuration) :
  driver.hpet.timerCount.toNat
    ∈ (hpetInit 32 cpuidx blocked driver registry).1.driver.accessed
  := by
  rw [(accessed_hpetInit hperiod).1]
  apply mem_accessed_initTimers (Nat.zero_le _) (by omega)
  intro l _ hl
  exact h l hl

end Init

end Hpet

/-! ### What should hold -/

namespace Platform

variable {H : Type}

/-- An element of `timers` lies in so many bytes. -/
def Inside (size i : ℕ) : Prop := (i + 1) * Hpet.sizeofTimerState ≤ size

/-- There is a place in `timer_defs` for every timer that is registered, and the elements of
`timers` that were accessed lie in the bytes that were asked for. -/
structure Fits (w : World H) : Prop where
  defs : ∀ idx < w.registry.defs.length, idx < w.timerDefCnt
  timers : ∀ i ∈ w.driver.accessed, ∃ size, w.driver.timersSize = some size ∧ Inside size i

/-- The tables are large enough for every run from `timer_init` on. -/
def LargeEnough (m : Machine) (w : World H) : Prop :=
  ∀ fuel es, Trace.Always (step m) Fits (timerInit fuel m w) es

/-- `hpet_init` does not get to the last timer: the time-stamp counter is used, the HPET has no
rate, or a timer before the last one can neither send messages nor use a line. -/
def Spared (m : Machine) (hpet : Hpet.Main) : Prop :=
  useTsc m.cpuinfo = true ∨ hpet.clockPeriod = 0
    ∨ ∃ i < hpet.timerCount.toNat, ¬ Hpet.HasLine (hpet.timers i).configuration

/-! ### The other timers -/

section Others

variable {w : World H}

/-- What the other timers leave as it is. -/
structure Kept (w w' : World H) : Prop where
  driver : w'.driver = w.driver
  timerDefCnt : w'.timerDefCnt = w.timerDefCnt
  hpetVector : w'.hpetVector = w.hpetVector

theorem tlsAllocOff_bootTls (pos : U64) :
  (bootTls pos).tlsAllocOff = 80
  := by
  have hinit : ∃ tls : Tls.State, Tls.tlsInit 0
      { tlsAllocOff := 0, bootstrapAllocPos := pos, gsBase := fun _ => none }
        = .ok () tls ∧ tls.tlsAllocOff = 0 := by
    cases hpos : bootstrapMalloc pos Tls.tlsSize with
    | none =>
        use ⟨0, pos, Function.update (fun _ => none) 0 none⟩
        simp [Tls.tlsInit, hpos]
    | some next =>
        use ⟨0, next, Function.update (fun _ => none) 0 (some pos)⟩
        simp [Tls.tlsInit, hpos]
  obtain ⟨⟨off, pos', gsBase⟩, htls, rfl⟩ := hinit
  rw [bootTls]
  simp only [bind, EStateM.bind, htls]
  rfl

/-- The first core to come gets a slot, and registers the timer. -/
theorem apicAllocate_boot (hstate : w.apicState = 0) (htls : w.tls.tlsAllocOff = 80) :
  ∃ tls, apicAllocate w
    = { w with tls := tls, apicState := 80 }.register apicLocalFeatures apicLocal
  := by
  have halloc : ∃ tls, Tls.tlsAlloc sizeofApicTimerState w.tls = .ok 80 tls := by
    generalize w.tls = tls at htls
    obtain ⟨off, pos, gsBase⟩ := tls
    obtain rfl : off = 80 := htls
    exact ⟨_, rfl⟩
  obtain ⟨tls, halloc⟩ := halloc
  use tls
  rw [apicAllocate, if_pos hstate, halloc]

/-- On the other cores the slot is used again. -/
theorem apicAllocate_done (hstate : w.apicState ≠ 0) :
  apicAllocate w = w
  := by
  rw [apicAllocate, if_neg hstate]

theorem apicTimerInit_boot (core : ℕ) (hstate : w.apicState = 0) (htls : w.tls.tlsAllocOff = 80)
    (hruns : w.stopped = false) :
  Kept w (apicTimerInit core w) ∧ (apicTimerInit core w).apicState ≠ 0
    ∧ (apicTimerInit core w).stopped = false
    ∧ (apicTimerInit core w).registry.defs
      = w.registry.defs ++ [⟨false, apicLocalFeatures, apicLocal⟩]
  := by
  obtain ⟨tls, halloc⟩ := apicAllocate_boot hstate htls
  rw [apicTimerInit, halloc]
  have hslot : (80 : U64) ≠ 0 := by decide
  simp only [World.register, hruns, Bool.false_eq_true, if_false]
  exact ⟨⟨rfl, rfl, rfl⟩, hslot, trivial, rfl⟩

theorem apicTimerInit_done (core : ℕ) (hstate : w.apicState ≠ 0) :
  Kept w (apicTimerInit core w) ∧ (apicTimerInit core w).apicState = w.apicState
    ∧ (apicTimerInit core w).registry = w.registry
  := by
  rw [apicTimerInit, apicAllocate_done hstate]
  simp only
  split_ifs
  all_goals exact ⟨⟨rfl, rfl, rfl⟩, rfl, rfl⟩

/-- `rtc_init` registers at most one timer. -/
theorem kept_rtcInit (m : Machine) (w : World H) :
  Kept w (rtcInit m w) ∧ (rtcInit m w).apicState = w.apicState
    ∧ ((rtcInit m w).registry.defs = w.registry.defs
      ∨ (rtcInit m w).registry.defs
        = w.registry.defs ++ [⟨false, Rtc.mainFeatures, Rtc.mainCounter⟩])
  := by
  rw [rtcInit]
  cases hrtc : Rtc.rtcInit m.currentYear m.statusA m.cmos w.blocked w.registry with
  | none => exact ⟨⟨rfl, rfl, rfl⟩, rfl, .inl rfl⟩
  | some result =>
      obtain ⟨rtc, registry⟩ := result
      cases registry with
      | none => exact ⟨⟨rfl, rfl, rfl⟩, rfl, .inl rfl⟩
      | some registry =>
          refine ⟨⟨rfl, rfl, rfl⟩, rfl, .inr ?_⟩
          exact Rtc.defs_of_rtcInit hrtc

/-- A function that stops does not let the next one start. -/
theorem andThen_stopped (h : w.stopped = true) (f : World H → World H) :
  w.andThen f = w
  := by
  rw [World.andThen, if_pos h]

theorem andThen_running (h : w.stopped = false) (f : World H → World H) :
  w.andThen f = f w
  := by
  rw [World.andThen, h, if_neg Bool.false_ne_true]

end Others

/-! ### Runs -/

section Runs

variable {m : Machine} {w : World H}

/-- There is a place for every timer, and the slot for the timers of the local APICs has been
allocated. -/
structure Bounded (w : World H) : Prop where
  defs : w.registry.defs.length ≤ w.timerDefCnt
  slot : w.stopped = true ∨ w.apicState ≠ 0

/-- The timers other than those of the HPET, as they are registered. -/
def otherDefs (m : Machine) : List (Timers.Def Hpet.Fn) :=
  [⟨false, tscFeatures, tscCounter m.cpuinfo⟩, ⟨false, apicLocalFeatures, apicLocal⟩,
    ⟨false, Rtc.mainFeatures, Rtc.mainCounter⟩]

/-- No timer of the HPET is registered, and none was accessed. -/
structure Untouched (m : Machine) (w : World H) : Prop extends Bounded w where
  accessed : w.driver.accessed = []
  hpetVector : w.hpetVector = none
  others : w.registry.defs ⊆ otherDefs m

/-- What events leave as it is, once the slot has been allocated. -/
structure Steady (w w' : World H) : Prop where
  registry : w'.registry = w.registry
  timerDefCnt : w'.timerDefCnt = w.timerDefCnt
  hpetVector : w'.hpetVector = w.hpetVector
  apicState : w'.apicState = w.apicState

theorem Steady.bounded {w' : World H} (h : Steady w w') (hw : Bounded w)
    (hslot : w'.stopped = true ∨ w.apicState ≠ 0) :
  Bounded w'
  := by
  constructor
  · rw [h.registry, h.timerDefCnt]
    exact hw.defs
  · rw [h.apicState]
    exact hslot

theorem steady_call (core i : ℕ) (fn : Hpet.Fn) (op : Operation H) (w : World H) :
  Steady w (call core i fn op w)
  := by
  cases fn
  all_goals
    cases op
    all_goals exact ⟨rfl, rfl, rfl, rfl⟩

theorem steady_operate (core idx : ℕ) (op : Operation H) (w : World H) :
  Steady w (operate core idx op w)
  := by
  rw [operate]
  cases w.registry.defs[idx]? with
  | none => exact ⟨rfl, rfl, rfl, rfl⟩
  | some t =>
      simp only
      cases op.fn t.handlers with
      | none => exact ⟨rfl, rfl, rfl, rfl⟩
      | some fn => apply steady_call

theorem timerMpInit_eq (m : Machine) (core : ℕ) (w : World H) :
  timerMpInit m core w = apicTimerInit core w
  := by
  rw [timerMpInit, tscMpInit, ite_self]

/-- The other cores register no timer. -/
theorem steady_mpInit (hstate : w.apicState ≠ 0) (m : Machine) (core : ℕ) (tls : Tls.State) :
  Steady w (timerMpInit m core { w with tls := tls })
    ∧ (timerMpInit m core { w with tls := tls }).driver = w.driver
  := by
  have hdone : ({ w with tls := tls } : World H).apicState ≠ 0 := hstate
  obtain ⟨⟨hdriver, hcnt, hvector⟩, hslot, hregistry⟩ := apicTimerInit_done core hdone
  rw [timerMpInit_eq]
  exact ⟨⟨hregistry, hcnt, hvector, hslot⟩, hdriver⟩

theorem step_stopped (h : w.stopped = true) (e : Event H) :
  step m w e = w
  := by
  rw [step.eq_def, if_pos h]

theorem steady_step (hw : Bounded w) (e : Event H) :
  Steady w (step m w e)
  := by
  cases hstopped : w.stopped with
  | true =>
      rw [step_stopped hstopped]
      exact ⟨rfl, rfl, rfl, rfl⟩
  | false =>
      have hstate : w.apicState ≠ 0 := hw.slot.resolve_left (by simp [hstopped])
      have hruns : ¬ w.stopped = true := by simp [hstopped]
      rw [step.eq_def, if_neg hruns]
      cases e with
      | mpInit core => exact (steady_mpInit hstate m core _).1
      | hpetInterrupt =>
          simp only
          split_ifs
          all_goals exact ⟨rfl, rfl, rfl, rfl⟩
      | operation core idx op => apply steady_operate

theorem bounded_step (hw : Bounded w) (e : Event H) :
  Bounded (step m w e)
  := by
  apply (steady_step hw e).bounded hw
  cases hstopped : w.stopped with
  | true =>
      rw [step_stopped hstopped]
      exact .inl hstopped
  | false => exact .inr (hw.slot.resolve_left (by simp [hstopped]))

end Runs

/-! ### `timer_init` -/

section Init

variable {m : Machine} {fuel : ℕ} {hpet : Hpet.Main} {timers : ℕ → Hpet.TimerState H}
  {blocked : ℤ → Bool} {pos : U64}

/-- The end of `timer_platform_init` registers two timers at most. -/
theorem kept_apicRtc {w : World H} (m : Machine) (hstate : w.apicState = 0)
    (htls : w.tls.tlsAllocOff = 80) (hruns : w.stopped = false) :
  Kept w ((apicTimerInit 0 w).andThen (rtcInit m))
    ∧ ((apicTimerInit 0 w).andThen (rtcInit m)).apicState ≠ 0
    ∧ ((apicTimerInit 0 w).andThen (rtcInit m)).registry.defs
      ⊆ w.registry.defs ++ [⟨false, apicLocalFeatures, apicLocal⟩,
        ⟨false, Rtc.mainFeatures, Rtc.mainCounter⟩]
    ∧ ((apicTimerInit 0 w).andThen (rtcInit m)).registry.defs.length
      ≤ w.registry.defs.length + 2
  := by
  obtain ⟨hkept, hslot, hruns', hdefs⟩ := apicTimerInit_boot 0 hstate htls hruns
  obtain ⟨hkept', hslot', hdefs'⟩ := kept_rtcInit m (apicTimerInit 0 w)
  rw [andThen_running hruns', hslot']
  rw [hdefs, List.append_assoc] at hdefs'
  constructor
  · constructor
    · exact hkept'.driver.trans hkept.driver
    · exact hkept'.timerDefCnt.trans hkept.timerDefCnt
    · exact hkept'.hpetVector.trans hkept.hpetVector
  · use hslot
    rcases hdefs' with hsame | hone
    · rw [hsame]
      constructor
      · apply List.append_subset.mpr
        use List.subset_append_left _ _
        apply List.subset_append_of_subset_right
        simp
      · simp
    · rw [hone]
      constructor
      · exact List.Subset.refl _
      · simp

/-- The state in which `timer_platform_init` is called. -/
def ready (m : Machine) (hpet : Hpet.Main) (timers : ℕ → Hpet.TimerState H) (blocked : ℤ → Bool)
    (pos : U64) : World H :=
  { World.boot hpet timers blocked pos with
    timerDefCnt := timerPlatformGettimercount m.cpuinfo hpet }

theorem timerInit_tsc_eq (htsc : useTsc m.cpuinfo = true) :
  timerInit fuel m (World.boot hpet timers blocked pos)
    = (apicTimerInit 0 ((ready m hpet timers blocked pos).register tscFeatures
      (tscCounter m.cpuinfo))).andThen (rtcInit m)
  := by
  rw [timerInit, timerPlatformInit, if_pos htsc, tscInit]
  rfl

theorem timerInit_hpet_eq (htsc : useTsc m.cpuinfo = false) :
  timerInit fuel m (World.boot hpet timers blocked pos)
    = ((hpetInit fuel m (ready m hpet timers blocked pos)).andThen (apicTimerInit 0)).andThen
      (rtcInit m)
  := by
  rw [timerInit, timerPlatformInit, if_neg (by simp [htsc])]
  rfl

/-- With the time-stamp counter three timers at most are registered, none of the HPET. -/
theorem untouched_timerInit (htsc : useTsc m.cpuinfo = true) :
  Untouched m (timerInit fuel m (World.boot hpet timers blocked pos))
  := by
  have hcnt : (ready m hpet timers blocked pos).timerDefCnt
      = hpet.timerCount.toNat + 2 + 2 + 2 := by
    simp only [ready, timerPlatformGettimercount, Hpet.hpetGetcount, htsc, if_true]
  obtain ⟨⟨hdriver, htimerDefCnt, hvector⟩, hslot, hsubset, hlength⟩ := kept_apicRtc
    (w := (ready m hpet timers blocked pos).register tscFeatures (tscCounter m.cpuinfo)) m rfl
    (tlsAllocOff_bootTls pos) rfl
  rw [timerInit_tsc_eq htsc]
  have hone : ((ready m hpet timers blocked pos).register tscFeatures
      (tscCounter m.cpuinfo)).registry.defs = [⟨false, tscFeatures, tscCounter m.cpuinfo⟩] := rfl
  rw [hone] at hsubset hlength
  refine ⟨⟨?_, .inr hslot⟩, ?_, hvector, hsubset⟩
  · rw [htimerDefCnt]
    apply hlength.trans
    apply Nat.le_trans _ (Nat.le_of_eq hcnt.symm)
    rw [List.length_singleton]
    omega
  · rw [hdriver]
    rfl

/-- What `hpet_init` makes of the state. -/
theorem hpetInit_eq (fuel : ℕ) (m : Machine) (w : World H) :
  (hpetInit fuel m w).driver
      = (Hpet.hpetInit fuel m.cpuidx w.blocked w.driver w.registry).1.driver
    ∧ (hpetInit fuel m w).registry
      = (Hpet.hpetInit fuel m.cpuidx w.blocked w.driver w.registry).1.registry
    ∧ ((hpetInit fuel m w).stopped = false
      ↔ (Hpet.hpetInit fuel m.cpuidx w.blocked w.driver w.registry).2 = .returned)
  := by
  rw [hpetInit]
  simp

/-- With the HPET, either `hpet_init` stops the run, or the other timers follow. -/
theorem timerInit_hpet (htsc : useTsc m.cpuinfo = false) :
  Bounded (timerInit fuel m (World.boot hpet timers blocked pos))
    ∧ (timerInit fuel m (World.boot hpet timers blocked pos)).driver
      = (Hpet.hpetInit fuel m.cpuidx blocked (World.boot hpet timers blocked pos).driver
        (.initial [])).1.driver
    ∧ ((Hpet.hpetInit fuel m.cpuidx blocked (World.boot hpet timers blocked pos).driver
        (.initial [])).2 ≠ .returned →
      (timerInit fuel m (World.boot hpet timers blocked pos)).stopped = true)
  := by
  have hcnt : (ready m hpet timers blocked pos).timerDefCnt = hpet.timerCount.toNat + 2 + 2 := by
    simp only [ready, timerPlatformGettimercount, Hpet.hpetGetcount, htsc, Bool.false_eq_true,
      if_false, Nat.add_zero]
  obtain ⟨hdriver, hregistry, hreturns⟩ := hpetInit_eq fuel m (ready m hpet timers blocked pos)
  have hlength : (hpetInit fuel m (ready m hpet timers blocked pos)).registry.defs.length
      ≤ hpet.timerCount.toNat + 2 := by
    rw [hregistry]
    apply (Hpet.length_defs_hpetInit _ _ _ _ _).trans
    apply Nat.le_of_eq
    exact Nat.zero_add _
  have hcnt' : (hpetInit fuel m (ready m hpet timers blocked pos)).timerDefCnt
      = hpet.timerCount.toNat + 2 + 2 := hcnt
  rw [timerInit_hpet_eq htsc]
  cases hstopped : (hpetInit fuel m (ready m hpet timers blocked pos)).stopped with
  | true =>
      rw [andThen_stopped hstopped, andThen_stopped hstopped]
      refine ⟨⟨?_, .inl hstopped⟩, hdriver, fun _ => hstopped⟩
      omega
  | false =>
      rw [andThen_running hstopped]
      obtain ⟨⟨hkept, htimerDefCnt, -⟩, hslot, -, hmore⟩ := kept_apicRtc
        (w := hpetInit fuel m (ready m hpet timers blocked pos)) m rfl (tlsAllocOff_bootTls pos)
        hstopped
      refine ⟨⟨?_, .inr hslot⟩, hkept.trans hdriver, ?_⟩
      · rw [htimerDefCnt, hcnt']
        omega
      · intro h
        exact absurd (hreturns.mp hstopped) h

end Init

/-! ### All runs -/

section All

variable {m : Machine} {w : World H} {hpet : Hpet.Main} {timers : ℕ → Hpet.TimerState H}
  {blocked : ℤ → Bool} {pos : U64}

theorem bounded_timerInit (fuel : ℕ) :
  Bounded (timerInit fuel m (World.boot hpet timers blocked pos))
  := by
  cases htsc : useTsc m.cpuinfo with
  | true => exact (untouched_timerInit htsc).toBounded
  | false => exact (timerInit_hpet htsc).1

theorem Bounded.fits (h : Bounded w)
    (htimers : ∀ i ∈ w.driver.accessed, ∃ size, w.driver.timersSize = some size ∧ Inside size i) :
  Fits w
  where
    defs _ hidx := Nat.lt_of_lt_of_le hidx h.defs
    timers := htimers

/-- The functions of the drivers that work on `timers`. -/
def timerFns : List Hpet.Fn :=
  [.hpetTimerRead, .hpetTimerWrite, .hpetTimerSetmode, .hpetTimerSetenable, .hpetTimerSethandler]

theorem accessed_call {fn : Hpet.Fn} (h : fn ∉ timerFns) (core i : ℕ) (op : Operation H)
    (w : World H) :
  (call core i fn op w).driver.accessed = w.driver.accessed
  := by
  cases fn
  all_goals first
    | exact absurd (by decide) h
    | cases op
      all_goals rfl

theorem not_mem_timerFns {t : Timers.Def Hpet.Fn} (ht : t ∈ otherDefs m) (op : Operation H)
    {fn : Hpet.Fn} (hfn : op.fn t.handlers = some fn) :
  fn ∉ timerFns
  := by
  simp only [otherDefs, List.mem_cons, List.not_mem_nil, or_false] at ht
  rcases ht with rfl | rfl | rfl
  all_goals
    cases op
    all_goals first
      | contradiction
      | obtain rfl := Option.some.inj hfn
        decide

theorem Untouched.step (h : Untouched m w) (e : Event H) :
  Untouched m (step m w e)
  := by
  have hsteady := steady_step (m := m) h.toBounded e
  refine ⟨bounded_step h.toBounded e, ?_, hsteady.hpetVector.trans h.hpetVector, ?_⟩
  · cases hstopped : w.stopped with
    | true =>
        rw [step_stopped hstopped]
        exact h.accessed
    | false =>
        have hruns : ¬ w.stopped = true := by simp [hstopped]
        have hstate : w.apicState ≠ 0 := h.slot.resolve_left hruns
        rw [Platform.step.eq_def, if_neg hruns]
        cases e with
        | mpInit core =>
            simp only
            rw [(steady_mpInit hstate m core _).2]
            exact h.accessed
        | hpetInterrupt =>
            simp only [h.hpetVector]
            exact h.accessed
        | operation core idx op =>
            simp only [operate]
            cases ht : w.registry.defs[idx]? with
            | none => exact h.accessed
            | some t =>
                simp only
                cases hfn : op.fn t.handlers with
                | none => exact h.accessed
                | some fn =>
                    have hmem := h.others (List.mem_of_getElem? ht)
                    exact (accessed_call (not_mem_timerFns hmem op hfn) _ _ _ _).trans h.accessed
  · rw [hsteady.registry]
    exact h.others

theorem Untouched.fits (h : Untouched m w) :
  Fits w
  := by
  apply h.toBounded.fits
  intro i hi
  rw [h.accessed] at hi
  exact absurd hi List.not_mem_nil

/-- When the run has stopped, nothing more happens. -/
theorem always_of_stopped (hstopped : w.stopped = true) (h : Fits w) (es : List (Event H)) :
  Trace.Always (step m) Fits w es
  := by
  induction es with
  | nil => exact h
  | cons e es ih =>
      use h
      rw [step_stopped hstopped]
      exact ih

/-- If `hpet_init` does not get to the last timer, it does not return; the elements that it accessed
are those of timers before the last. -/
theorem fits_hpetInit {driver : Hpet.Driver H} (fuel : ℕ) (cpuidx : Hpet.U32)
    (blocked : ℤ → Bool) (registry : Timers.State Hpet.Fn H) (hnone : driver.accessed = [])
    (hspared : driver.hpet.clockPeriod = 0
      ∨ ∃ i < driver.hpet.timerCount.toNat, ¬ Hpet.HasLine (driver.hpet.timers i).configuration) :
  (Hpet.hpetInit fuel cpuidx blocked driver registry).2 ≠ .returned
    ∧ ∀ i ∈ (Hpet.hpetInit fuel cpuidx blocked driver registry).1.driver.accessed,
      ∃ size, (Hpet.hpetInit fuel cpuidx blocked driver registry).1.driver.timersSize = some size
        ∧ Inside size i
  := by
  by_cases hperiod : driver.hpet.clockPeriod = 0
  · rw [Hpet.hpetInit, if_pos hperiod]
    constructor
    · intro h
      cases h
    · intro i hi
      have hi : i ∈ driver.accessed := hi
      rw [hnone] at hi
      exact absurd hi List.not_mem_nil
  · obtain ⟨k, hk, hline⟩ := hspared.resolve_left hperiod
    constructor
    · intro hreturned
      apply hline
      apply (Hpet.turns_hpetInit (Prod.ext rfl hreturned)).2 k
      exact Nat.le_of_lt hk
    · intro i hi
      obtain ⟨hle, hlines⟩ := Hpet.hasLine_of_accessed_hpetInit hperiod hnone hi
      have hik : i ≤ k := by
        by_contra hlt
        exact hline (hlines k (by omega))
      refine ⟨_, (Hpet.accessed_hpetInit hperiod).2.1, ?_⟩
      rw [Inside, Hpet.sizeofTimerState]
      omega

theorem largeEnough_of_spared (h : Spared m hpet) :
  LargeEnough m (World.boot hpet timers blocked pos)
  := by
  intro fuel es
  cases htsc : useTsc m.cpuinfo with
  | true =>
      apply Trace.Always.of_invariant Untouched.fits
      · intro w e h
        exact h.step e
      · exact untouched_timerInit htsc
  | false =>
      have hspared : hpet.clockPeriod = 0 ∨ _ := h.resolve_left (by simp [htsc])
      have hnone : (World.boot hpet timers blocked pos).driver.accessed = [] := rfl
      obtain ⟨hreturns, hfits⟩ := fits_hpetInit fuel m.cpuidx blocked (.initial []) hnone hspared
      apply always_of_stopped
      · exact (timerInit_hpet htsc).2.2 hreturns
      · apply (bounded_timerInit fuel).fits
        rw [(timerInit_hpet htsc).2.1]
        exact hfits

/-- If `hpet_init` gets to the last timer, it accesses an element that is not there. -/
theorem not_largeEnough (h : ¬ Spared m hpet) :
  ¬ LargeEnough m (World.boot hpet timers blocked pos)
  := by
  rw [Spared, not_or, not_or, Bool.not_eq_true] at h
  obtain ⟨htsc, hperiod, hlines⟩ := h
  push Not at hlines
  intro hall
  have hdriver : (timerInit 32 m (World.boot hpet timers blocked pos)).driver = _ :=
    (timerInit_hpet htsc).2.1
  have hmem : hpet.timerCount.toNat
      ∈ (timerInit 32 m (World.boot hpet timers blocked pos)).driver.accessed := by
    rw [hdriver]
    exact Hpet.mem_accessed_hpetInit hperiod hlines
  obtain ⟨size, hsize, hinside⟩ := (hall 32 []).timers _ hmem
  rw [hdriver] at hsize
  obtain rfl := Option.some.inj ((Hpet.accessed_hpetInit hperiod).2.1.symm.trans hsize)
  have hcount : hpet.timerCount.toNat
      = (World.boot hpet timers blocked pos).driver.hpet.timerCount.toNat := rfl
  rw [Inside, Hpet.sizeofTimerState, ← hcount] at hinside
  omega

end All

/-- `timer_defs` is always large enough; `timers` is exactly if `hpet_init` does not get to the last
timer. -/
theorem largeEnough_iff (m : Machine) (hpet : Hpet.Main) (timers : ℕ → Hpet.TimerState H)
    (blocked : ℤ → Bool) (pos : U64) :
  (LargeEnough m (World.boot hpet timers blocked pos) ↔ Spared m hpet)
    ∧ ∀ fuel es, Trace.Always (step m) (fun w => w.registry.defs.length ≤ w.timerDefCnt)
      (timerInit fuel m (World.boot hpet timers blocked pos)) es
  := by
  constructor
  · constructor
    · contrapose
      exact not_largeEnough
    · exact largeEnough_of_spared
  · intro fuel es
    apply Trace.Always.of_invariant Bounded.defs
    · intro w e h
      exact bounded_step h e
    · exact bounded_timerInit fuel

/-- A machine without a time-stamp counter. -/
def withoutTsc : Machine where
  cpuinfo :=
    { smep := false
      smap := false
      hugepage := false
      x2apic := false
      xsave := false
      tscValid := false
      tscDeadline := false
      tscInvar := false
      processorName := []
      tscFreq := 0
      apicFreq := 100000000
      xsaveBits := 0
      xsaveSz := 0 }
  cpuidx := 0
  currentYear := 2019
  statusA := [0x80, 0x00]
  cmos _ := 0

/-- With an HPET of three timers, the third element of `timers` is accessed, beyond 49 bytes. -/
theorem not_largeEnough_threeTimers :
  ¬ LargeEnough withoutTsc
    (World.boot (.idle 2) (fun _ => ⟨false, none⟩ : ℕ → Hpet.TimerState Unit) (fun _ => false) 0)
  := by
  apply not_largeEnough
  rintro (htsc | hperiod | ⟨i, -, hline⟩)
  · revert htsc
    decide
  · revert hperiod
    decide
  · apply hline
    right
    have hlines : Hpet.Timer.idle.configuration.routingCapability ≠ 0 := by decide
    exact hlines

end Platform
