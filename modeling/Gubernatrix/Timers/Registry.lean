import Gubernatrix.Lib.Program
import Gubernatrix.Types
import Mathlib.Data.List.Basic

/-!
# Timers

The table of the registered timers, and the functions over it: `timer_register`, `timer_wait`,
which takes a timer, waits for the interrupts of it and gives it back, and `timer_request`, which
takes a timer for good. A timer is operated through the functions that its driver registered; of
these, only the calls are recorded here.
-/

namespace Timers

open Program

/-! ### The table -/

/-- `timer_features_t`. -/
abbrev Features := BitVec 32

/-- `timer_features_oneshot`. -/
def featuresOneshot : Features := 1 <<< 0

/-- `timer_features_periodic`. -/
def featuresPeriodic : Features := 1 <<< 1

/-- `timer_features_read`. -/
def featuresRead : Features := 1 <<< 2

/-- `timer_features_persistent`. -/
def featuresPersistent : Features := 1 <<< 3

/-- `timer_features_64bit`. -/
def features64bit : Features := 1 <<< 5

/-- `timer_features_write`. -/
def featuresWrite : Features := 1 <<< 6

/-- `timer_features_local`. -/
def featuresLocal : Features := 1 <<< 7

/-- `timer_features_pcie_msg_intr`. -/
def featuresPcieMsgIntr : Features := 1 <<< 8

/-- `timer_features_fixed_intr`. -/
def featuresFixedIntr : Features := 1 <<< 9

/-- `timer_features_counter`. -/
def featuresCounter : Features := 1 <<< 10

/-- `timer_handlers_t`, with functions of `F`; a function that is `none` is `NULL`. -/
structure Handlers (F : Type) where
  name : String
  read : Option F
  write : Option F
  setMode : Option F
  setEnable : Option F
  setHandler : Option F
  rate : U64
  state : U64

/-- `timer_defs_t`. -/
structure Def (F : Type) where
  inUse : Bool
  features : Features
  handlers : Handlers F

/-- A function to be called at an interrupt: `timer_wait_handler`, or one of a client. -/
inductive Handler (H : Type) where
  | timerWaitHandler
  | client (h : H)
deriving DecidableEq

/-- A call of a function of a driver. -/
inductive Call (F H : Type) where
  | write (f : F) (val : U64)
  | setMode (f : F) (features : Features)
  | setEnable (f : F) (enable : Bool)
  | setHandler (f : F) (handler : Option (Handler H))
deriving DecidableEq

/-- The static variables of `timer_main.c`, with the entries of `timer_defs` up to `timer_idx`,
and the calls that were made for the timers. -/
structure State (F H : Type) where
  defs : List (Def F)
  timerWaitPending : ℤ
  timerWaitCount : ℤ
  timerWaitTarget : ℤ
  timerWaitD : Option ℕ
  calls : List (ℕ × Call F H)

variable {F H : Type}

/-- The state with these timers, before any wait. -/
def State.initial (defs : List (Def F)) : State F H where
  defs := defs
  timerWaitPending := 0
  timerWaitCount := 0
  timerWaitTarget := 0
  timerWaitD := none
  calls := []

/-- `timer_register`, with `timer_idx` as its value. -/
def timerRegister (features : Features) (handlers : Handlers F) : Program (State F H) ℕ := do
  let s ← get
  modify fun s => { s with defs := s.defs ++ [⟨false, features, handlers⟩] }
  pure s.defs.length

/-- A call through a pointer to a function of a timer. -/
def through (idx : ℕ) (f : Option F) (call : F → Call F H) : Program (State F H) Unit :=
  match f with
  | some f => modify fun s => { s with calls := s.calls ++ [(idx, call f)] }
  | none => throw .fault

/-- `timer_defs[idx].in_use = inUse`. -/
def setInUse (idx : ℕ) (inUse : Bool) : Program (State F H) Unit :=
  modify fun s => { s with defs := s.defs.modify idx fun t => { t with inUse := inUse } }

/-! ### `timer_wait` -/

/-- `timer_wait_handler`. -/
def timerWaitHandler (s : State F H) : State F H :=
  let s := { s with timerWaitCount := Int.bmod (s.timerWaitCount + 1) (2 ^ 32) }
  if s.timerWaitCount ≥ s.timerWaitTarget ∧ s.timerWaitPending ≠ 0 then
    { s with timerWaitPending := 0 }
  else s

/-- The loop of `timer_wait`, from index `idx` on. -/
def waitLoop : (idx : ℕ) → List (Def F) → Option ℕ
  | _, [] => none
  | idx, t :: ts =>
      if t.inUse = false ∧ t.features &&& featuresPeriodic ≠ 0 then
        if t.handlers.setMode.isSome ∧ t.handlers.setHandler.isSome
            ∧ t.handlers.setEnable.isSome then some idx
        else waitLoop (idx + 1) ts
      else waitLoop (idx + 1) ts

/-- The value of `timer_wait_target`; the divisions fault by a divisor of 0. -/
def waitTarget (ns rate : U64) : Option ℤ :=
  if rate = 0 then none
  else if 1000000000 / rate = 0 then none
  else
    let target := toInt32 (ns / (1000000000 / rate)).toNat
    if target = 0 then some 1 else some target

/-- `timer_wait` up to the loop that waits, with the index of the timer. -/
def timerWaitStart (ns : U64) : Program (State F H) ℕ := do
  let s ← get
  match waitLoop 0 s.defs with
  | none => throw (.panic "Failed to select timer.")
  | some idx =>
      modify fun s => { s with timerWaitCount := 0, timerWaitPending := 1 }
      modify fun s => { s with timerWaitD := some idx }
      match s.defs[idx]? with
      | none => throw .fault
      | some t =>
          match waitTarget ns t.handlers.rate with
          | none => throw .fault
          | some target =>
              modify fun s => { s with timerWaitTarget := target }
              setInUse idx true
              through idx t.handlers.setHandler (.setHandler · (some .timerWaitHandler))
              through idx t.handlers.setEnable (.setEnable · true)
              pure idx

/-- `timer_wait` after the loop that waits. -/
def timerWaitFinish (idx : ℕ) : Program (State F H) Unit := do
  let s ← get
  match s.defs[idx]? with
  | none => throw .fault
  | some t =>
      through idx t.handlers.setEnable (.setEnable · false)
      modify fun s => { s with timerWaitD := none }
      setInUse idx false

/-! ### `timer_request` -/

/-- The loop of `timer_request`, from index `idx` on. -/
def requestLoop (features : Features) : (idx : ℕ) → List (Def F) → Option ℕ
  | _, [] => none
  | idx, t :: ts =>
      if t.inUse = false ∧ t.features &&& features = features then
        if t.handlers.setMode.isSome ∧ t.handlers.setHandler.isSome
            ∧ t.handlers.setEnable.isSome then
          if features &&& featuresWrite ≠ 0 ∧ t.handlers.write.isSome then some idx
          else if features &&& featuresWrite = 0 then some idx
          else requestLoop features (idx + 1) ts
        else requestLoop features (idx + 1) ts
      else requestLoop features (idx + 1) ts

/-- `timer_request`. -/
def timerRequest (features : Features) (ns : U64) (handler : Option (Handler H)) :
    Program (State F H) ℤ := do
  let s ← get
  match requestLoop features 0 s.defs with
  | none => pure (-1)
  | some idx =>
      match s.defs[idx]? with
      | none => throw .fault
      | some t =>
          modify fun s => { s with timerWaitD := some idx }
          setInUse idx true
          through idx t.handlers.setMode (.setMode · features)
          if features &&& featuresWrite ≠ 0 then
            through idx t.handlers.write
              (.write · (ns * t.handlers.rate / (1000 * 1000 * 1000)))
          through idx t.handlers.setHandler (.setHandler · handler)
          through idx t.handlers.setEnable (.setEnable · true)
          pure 0

/-! ### What the loops look for -/

/-- `timer_wait` may take the timer. -/
structure Waitable (t : Def F) : Prop where
  free : t.inUse = false
  periodic : t.features &&& featuresPeriodic ≠ 0
  setMode : t.handlers.setMode.isSome
  setHandler : t.handlers.setHandler.isSome
  setEnable : t.handlers.setEnable.isSome

instance (t : Def F) : Decidable (Waitable t) :=
  decidable_of_iff ((t.inUse = false ∧ t.features &&& featuresPeriodic ≠ 0)
      ∧ t.handlers.setMode.isSome ∧ t.handlers.setHandler.isSome ∧ t.handlers.setEnable.isSome)
    ⟨fun h => ⟨h.1.1, h.1.2, h.2.1, h.2.2.1, h.2.2.2⟩,
      fun h => ⟨⟨h.free, h.periodic⟩, h.setMode, h.setHandler, h.setEnable⟩⟩

theorem waitLoop_eq (idx : ℕ) (defs : List (Def F)) :
  waitLoop idx defs = (defs.findIdx? (Waitable ·)).map (· + idx)
  := by
  induction defs generalizing idx with
  | nil => rfl
  | cons t ts ih =>
      rw [waitLoop, List.findIdx?_cons]
      by_cases h : Waitable t
      · rw [if_pos ⟨h.free, h.periodic⟩, if_pos ⟨h.setMode, h.setHandler, h.setEnable⟩]
        simp [h]
      · have hnext : waitLoop (idx + 1) ts
        = ((ts.findIdx? (Waitable ·)).map (· + 1)).map (· + idx) := by
          rw [ih, Option.map_map]
          congr 1
          funext i
          simp
          omega
        simp only [h, hnext, decide_false]
        split
        next hfree =>
          split
          next hset => exact absurd ⟨hfree.1, hfree.2, hset.1, hset.2.1, hset.2.2⟩ h
          next => rfl
        next => rfl

/-- `timer_request` may take the timer. -/
structure Suitable (features : Features) (t : Def F) : Prop where
  free : t.inUse = false
  has : t.features &&& features = features
  setMode : t.handlers.setMode.isSome
  setHandler : t.handlers.setHandler.isSome
  setEnable : t.handlers.setEnable.isSome
  write : features &&& featuresWrite ≠ 0 → t.handlers.write.isSome

instance (features : Features) (t : Def F) : Decidable (Suitable features t) :=
  decidable_of_iff ((t.inUse = false ∧ t.features &&& features = features)
      ∧ (t.handlers.setMode.isSome ∧ t.handlers.setHandler.isSome ∧ t.handlers.setEnable.isSome)
      ∧ (features &&& featuresWrite ≠ 0 → t.handlers.write.isSome))
    ⟨fun h => ⟨h.1.1, h.1.2, h.2.1.1, h.2.1.2.1, h.2.1.2.2, h.2.2⟩,
      fun h => ⟨⟨h.free, h.has⟩, ⟨h.setMode, h.setHandler, h.setEnable⟩, h.write⟩⟩

theorem requestLoop_eq (features : Features) (idx : ℕ) (defs : List (Def F)) :
  requestLoop features idx defs = (defs.findIdx? (Suitable features ·)).map (· + idx)
  := by
  induction defs generalizing idx with
  | nil => rfl
  | cons t ts ih =>
      rw [requestLoop, List.findIdx?_cons]
      by_cases h : Suitable features t
      · rw [if_pos ⟨h.free, h.has⟩, if_pos ⟨h.setMode, h.setHandler, h.setEnable⟩]
        by_cases hwrite : features &&& featuresWrite = 0
        · rw [if_neg (fun hw => hw.1 hwrite), if_pos hwrite]
          simp [h]
        · rw [if_pos ⟨hwrite, h.write hwrite⟩]
          simp [h]
      · have hnext : requestLoop features (idx + 1) ts
            = ((ts.findIdx? (Suitable features ·)).map (· + 1)).map (· + idx) := by
          rw [ih, Option.map_map]
          congr 1
          funext i
          simp
          omega
        simp only [h, hnext, decide_false]
        split
        next hfree =>
          split
          next hset =>
            split
            next hwrite =>
              exact absurd ⟨hfree.1, hfree.2, hset.1, hset.2.1, hset.2.2, fun _ => hwrite.2⟩ h
            next =>
              split
              next hnone =>
                exact absurd ⟨hfree.1, hfree.2, hset.1, hset.2.1, hset.2.2, (absurd hnone ·)⟩ h
              next => rfl
          next => rfl
        next => rfl

/-- The first element with a property, and what comes before it. -/
theorem findIdx?_eq_some_iff_split {α : Type} {p : α → Prop} [DecidablePred p] {l : List α}
    {i : ℕ} :
  l.findIdx? (p ·) = some i
    ↔ ∃ pre a post, l = pre ++ a :: post ∧ pre.length = i ∧ (∀ b ∈ pre, ¬ p b) ∧ p a
  := by
  rw [List.findIdx?_eq_some_iff_getElem]
  constructor
  · rintro ⟨hi, hp, hbefore⟩
    refine ⟨l.take i, l[i], l.drop (i + 1), ?_, ?_, ?_, ?_⟩
    · rw [List.getElem_cons_drop, List.take_append_drop]
    · rw [List.length_take, Nat.min_eq_left hi.le]
    · intro b hb
      obtain ⟨j, hj, rfl⟩ := List.mem_take_iff_getElem.mp hb
      simpa using hbefore j (by omega)
    · simpa using hp
  · rintro ⟨pre, a, post, rfl, rfl, hbefore, hp⟩
    refine ⟨by simp, by simpa using hp, ?_⟩
    intro j hj
    rw [List.getElem_append_left hj]
    simpa using hbefore _ (List.getElem_mem hj)

/-- The loop of `timer_wait` finds a timer that may be taken. -/
theorem exists_of_waitLoop {defs : List (Def F)} {idx : ℕ} (h : waitLoop 0 defs = some idx) :
  ∃ t, defs[idx]? = some t ∧ Waitable t
  := by
  rw [waitLoop_eq, Option.map_eq_some_iff] at h
  obtain ⟨k, hk, rfl⟩ := h
  obtain ⟨pre, t, post, hdefs, rfl, -, hwaitable⟩ := findIdx?_eq_some_iff_split.mp hk
  use t
  rw [hdefs, Nat.add_zero, List.getElem?_append_right (le_refl _), Nat.sub_self]
  exact ⟨rfl, hwaitable⟩

end Timers
