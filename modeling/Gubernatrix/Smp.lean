import Gubernatrix.Lib.Trace
import Gubernatrix.Types
import Mathlib.Data.List.Basic
import Mathlib.Data.List.Nodup
import Mathlib.Logic.Function.Basic

/-!
# Starting the processors

`smp_init` starts the other processors one after the other: it resets `core_ready`, allocates a
stack, leaves its end in `tramp_stack`, sends the processor an INIT and a STARTUP, and waits for
`core_ready`. A processor that is started takes `tramp_stack` for its stack, runs
`smp_bootstrap`, counts itself and sets `core_ready`. The steps of all processors may be
interleaved in any order.
-/

namespace Smp

open Trace

/-- `apic_id` of a LAPIC entry. -/
abbrev ApicId := BitVec 8

/-- A range of addresses. -/
structure Block where
  base : ℕ
  size : ℕ
deriving DecidableEq

/-- The blocks have no byte in common. -/
def Block.Apart (b b' : Block) : Prop :=
  b.base + b.size ≤ b'.base ∨ b'.base + b'.size ≤ b.base

instance (b b' : Block) : Decidable (b.Apart b') := inferInstanceAs (Decidable (_ ∨ _))

theorem Block.Apart.symm {b b' : Block} (h : b.Apart b') :
  b'.Apart b
  := Or.symm h

/-- The size of the stack that `alloc_ap_stack` allocates. -/
def apStackSize : U64 := 4096 * 4

/-- The stack that `alloc_ap_stack` allocates at an address. -/
def blockAt (stack : U64) : Block where
  base := stack.toNat
  size := apStackSize.toNat

/-- The stack of a processor that has taken `rsp` for its end. -/
def stackBelow (rsp : U64) : Block := blockAt (rsp - apStackSize)

/-- What does not change while the processors are started: the LAPIC entries, what
`interrupt_get_cpuidx` returns on the boot processor, and the stack of the boot processor. -/
structure Config where
  lapics : List ApicId
  cpuidx : ℤ
  bootStack : Block

/-- Where the boot processor is in `smp_init`, with the value of `apic_id`. -/
inductive BootPc where
  /-- At the condition of the loop. -/
  | next
  /-- At `core_ready = 0`. -/
  | reset (apicId : ApicId)
  /-- In `alloc_ap_stack`, at `malloc`. -/
  | alloc (apicId : ApicId)
  /-- In `alloc_ap_stack`, at the store to `tramp_stack`. -/
  | publish (apicId : ApicId) (stack : U64)
  /-- At the INIT. -/
  | sendInit (apicId : ApicId)
  /-- In `timer_wait`. -/
  | wait (apicId : ApicId)
  /-- At the STARTUP. -/
  | sendStartup (apicId : ApicId)
  /-- At `while(!core_ready)`. -/
  | spin (apicId : ApicId)
  /-- After `smp_init`. -/
  | returned
deriving DecidableEq

/-- The calls of `smp_bootstrap` in front of `smp_signalready`. -/
inductive SetupCall where
  | tlsInit
  | vmemMpInit
  | gdtInit
  | idtInit
  | apicInit
  | fpPlatformInit
  | timerMpInit
deriving DecidableEq

/-- The calls of `smp_bootstrap` in front of `smp_signalready`, in their order. -/
def setupCalls : List SetupCall :=
  [.tlsInit, .vmemMpInit, .gdtInit, .idtInit, .apicInit, .fpPlatformInit, .timerMpInit]

/-- Where another processor is, with the end of the stack it has taken. -/
inductive ApPc where
  /-- It has received neither INIT nor STARTUP. -/
  | idle
  /-- It waits for a STARTUP after an INIT. -/
  | waiting
  /-- It runs the trampoline, up to where `tramp_stack` is read. -/
  | started
  /-- In `smp_bootstrap`, with these calls in front of it. -/
  | setup (rsp : U64) (calls : List SetupCall)
  /-- In `smp_signalready`, at `core_ready = 1`. -/
  | counted (rsp : U64)
  /-- In the loop at the end of `smp_signalready`. -/
  | parked (rsp : U64)
deriving DecidableEq

/-- The end of the stack the processor has taken. -/
def ApPc.rsp : ApPc → Option U64
  | .idle | .waiting | .started => none
  | .setup rsp _ | .counted rsp | .parked rsp => some rsp

/-- The state of all processors and what they share: `i` of `smp_init`, `core_ready`,
`tramp_stack`, `core_count`, and the blocks in use, allocated stacks first. -/
structure State where
  boot : BootPc
  i : ℕ
  aps : ApicId → ApPc
  coreReady : Bool
  trampStack : U64
  coreCount : ℕ
  blocks : List Block

/-- The state in front of `smp_init`. -/
def State.initial (c : Config) : State where
  boot := .next
  i := 0
  aps := fun _ => .idle
  coreReady := false
  trampStack := 0xffffffff80000000
  coreCount := 1
  blocks := [c.bootStack]

/-- The state with a processor at another place. -/
def State.setAp (s : State) (id : ApicId) (p : ApPc) : State :=
  { s with aps := Function.update s.aps id p }

/-- A stack that `malloc` may return: it fits, and it is apart from the blocks in use. -/
def State.Fresh (s : State) (stack : U64) : Prop :=
  stack.toNat + apStackSize.toNat ≤ 2 ^ 64 ∧ ∀ b ∈ s.blocks, (blockAt stack).Apart b

instance (s : State) (stack : U64) : Decidable (s.Fresh stack) :=
  inferInstanceAs (Decidable (_ ∧ _))

/-- The entry is the one of the boot processor. -/
def Config.IsBoot (c : Config) (id : ApicId) : Prop := (id.toNat : ℤ) = c.cpuidx

instance (c : Config) (id : ApicId) : Decidable (c.IsBoot id) := inferInstanceAs (Decidable (_ = _))

/-- A step of the boot processor in `smp_init`; `stack` is what `malloc` returns. -/
def bootStep (c : Config) (stack : U64) (s : State) : State :=
  match s.boot with
  | .next =>
    match c.lapics[s.i]? with
    | some id =>
      if ¬ c.IsBoot id then { s with boot := .reset id } else { s with i := s.i + 1 }
    | none => { s with boot := .returned }
  | .reset id => { s with coreReady := false, boot := .alloc id }
  | .alloc id =>
    if s.Fresh stack then { s with blocks := blockAt stack :: s.blocks, boot := .publish id stack }
    else s
  | .publish id stack => { s with trampStack := stack + apStackSize, boot := .sendInit id }
  | .sendInit id => { s.setAp id .waiting with boot := .wait id }
  | .wait id => { s with boot := .sendStartup id }
  | .sendStartup id =>
    if s.aps id = .waiting then { s.setAp id .started with boot := .spin id }
    else { s with boot := .spin id }
  | .spin _ => if s.coreReady then { s with i := s.i + 1, boot := .next } else s
  | .returned => s

/-- A step of another processor. -/
def apStep (id : ApicId) (s : State) : State :=
  match s.aps id with
  | .idle | .waiting => s
  | .started => s.setAp id (.setup s.trampStack setupCalls)
  | .setup rsp (_ :: calls) => s.setAp id (.setup rsp calls)
  | .setup rsp [] => { s.setAp id (.counted rsp) with coreCount := s.coreCount + 1 }
  | .counted rsp => { s.setAp id (.parked rsp) with coreReady := true }
  | .parked _ => s

/-- Which processor takes a step. -/
inductive Action where
  | boot (stack : U64)
  | ap (id : ApicId)

/-- A step of one of the processors. -/
def step (c : Config) (s : State) : Action → State
  | .boot stack => bootStep c stack s
  | .ap id => apStep id s

/-! ### What is to hold -/

/-- The processor has read `tramp_stack` and not yet set `core_ready`. -/
def ApPc.Starting : ApPc → Prop
  | .setup _ _ | .counted _ => True
  | _ => False

/-- The stack of a processor, of the boot processor for `none`. -/
def State.stack (c : Config) (s : State) : Option ApicId → Option Block
  | none => some c.bootStack
  | some id => (s.aps id).rsp.map stackBelow

/-- The entries of the other processors. -/
def Config.others (c : Config) : List ApicId := c.lapics.filter fun id => ¬ c.IsBoot id

/-- The processors are started one at a time, on stacks of their own, and all counted when
`smp_init` returns. -/
structure Serialised (c : Config) (s : State) : Prop where
  one : ∀ id id', (s.aps id).Starting → (s.aps id').Starting → id = id'
  apart : ∀ p p', p ≠ p' → ∀ b ∈ s.stack c p, ∀ b' ∈ s.stack c p', b.Apart b'
  count : s.boot = .returned → s.coreCount = 1 + c.others.length

/-! ### The handshake -/

/-- The processor that is being started. -/
def BootPc.current : BootPc → Option ApicId
  | .next | .returned => none
  | .reset id | .alloc id | .publish id _ | .sendInit id | .wait id | .sendStartup id
  | .spin id => some id

/-- Where the processor that is being started can be, and the value of `core_ready`. -/
def BootPc.Expects : BootPc → ApPc → Bool → Prop
  | .next, _, _ | .returned, _, _ => True
  | .reset _, p, _ => p = .idle
  | .alloc _, p, ready | .publish _ _, p, ready | .sendInit _, p, ready =>
    p = .idle ∧ ready = false
  | .wait _, p, ready | .sendStartup _, p, ready => p = .waiting ∧ ready = false
  | .spin _, p, ready =>
    match p with
    | .idle | .waiting => False
    | .started | .setup _ _ | .counted _ => ready = false
    | .parked _ => ready = true

/-- The processor has increased `coreCount`. -/
def ApPc.tally : ApPc → ℕ
  | .counted _ | .parked _ => 1
  | _ => 0

/-- The other processors among the first `i` entries. -/
def Config.before (c : Config) (i : ℕ) : List ApicId :=
  (c.lapics.take i).filter fun id => ¬ c.IsBoot id

/-- The processors of the entries before the `i`-th have been started and counted, the one of
the `i`-th is being started, and the others are idle. -/
structure Handshake (c : Config) (s : State) : Prop where
  current : ∀ id, s.boot.current = some id →
    c.lapics[s.i]? = some id ∧ ¬ c.IsBoot id ∧ s.boot.Expects (s.aps id) s.coreReady
  before : ∀ id ∈ c.before s.i, ∃ rsp, s.aps id = .parked rsp
  after : ∀ id ∉ c.before s.i, s.boot.current ≠ some id → s.aps id = .idle
  count : s.coreCount = 1 + (c.before s.i).length
    + (s.boot.current.elim 0 fun id => (s.aps id).tally)
  returned : s.boot = .returned → c.lapics.length ≤ s.i

/-- The stack that has been allocated for the processor that is being started and that it has not
taken yet. -/
def State.unread (s : State) : Option Block :=
  match s.boot with
  | .publish _ stack => some (blockAt stack)
  | .sendInit _ | .wait _ | .sendStartup _ => some (stackBelow s.trampStack)
  | .spin id => if s.aps id = .started then some (stackBelow s.trampStack) else none
  | _ => none

/-- The stacks of the processors, and the one not yet taken, are allocated and apart from each
other. -/
structure Stacks (c : Config) (s : State) : Prop where
  used : ∀ p, ∀ b ∈ s.stack c p, b ∈ s.blocks
  apart : ∀ p p', p ≠ p' → ∀ b ∈ s.stack c p, ∀ b' ∈ s.stack c p', b.Apart b'
  unread : ∀ b ∈ s.unread, b ∈ s.blocks ∧ ∀ p, ∀ b' ∈ s.stack c p, b.Apart b'

/-- What every step keeps: the order of the handshake, and the stacks apart. -/
structure Coordinated (c : Config) (s : State) : Prop where
  handshake : Handshake c s
  separate : Stacks c s

section Handshake

variable {c : Config} {s : State}

theorem before_succ {i : ℕ} {id : ApicId} (hid : c.lapics[i]? = some id) :
  c.before (i + 1) = c.before i ++ if c.IsBoot id then [] else [id]
  := by
  rw [Config.before, List.take_add_one, hid, List.filter_append]
  congr 1
  rw [Option.toList_some, List.filter_singleton]
  by_cases hboot : c.IsBoot id <;> simp [hboot]

theorem not_mem_before (hdistinct : c.lapics.Nodup) {i : ℕ} {id : ApicId}
    (hid : c.lapics[i]? = some id) :
  id ∉ c.before i
  := by
  intro hmem
  have htake := (List.mem_filter.mp hmem).1
  obtain ⟨k, hk, hkid⟩ := List.mem_take_iff_getElem.mp htake
  obtain ⟨hi, rfl⟩ := List.getElem?_eq_some_iff.mp hid
  have hki := (List.Nodup.getElem_inj_iff hdistinct).mp hkid
  omega

/-- A step that leaves the processor that is being started where it may be, and counts it when
it gets there, keeps the handshake. -/
theorem Handshake.stay (hdistinct : c.lapics.Nodup) (h : Handshake c s) {s' : State}
    {id : ApicId} {p : ApPc} (hcurrent : s.boot.current = some id)
    (hcurrent' : s'.boot.current = some id) (hi : s'.i = s.i)
    (haps : s'.aps = Function.update s.aps id p) (hexpects : s'.boot.Expects p s'.coreReady)
    (hcount : s'.coreCount + (s.aps id).tally = s.coreCount + p.tally) :
  Handshake c s'
  := by
  obtain ⟨hid, hother, -⟩ := h.current id hcurrent
  have hbefore := not_mem_before hdistinct hid
  have hself : s'.aps id = p := by rw [haps, Function.update_self]
  have helse : ∀ id' ≠ id, s'.aps id' = s.aps id' := by
    intro id' hne
    rw [haps, Function.update_of_ne hne]
  constructor
  · intro id' hid'
    rw [hcurrent'] at hid'
    obtain rfl := Option.some.inj hid'
    rw [hi, hself]
    use hid, hother
  · intro id' hid'
    rw [hi] at hid'
    rw [helse id' fun heq => hbefore (heq ▸ hid')]
    apply h.before id' hid'
  · intro id' hid' hne
    rw [hi] at hid'
    rw [hcurrent', Ne, Option.some_inj] at hne
    rw [helse id' fun heq => hne heq.symm]
    apply h.after id' hid'
    rwa [hcurrent, Ne, Option.some_inj]
  · have hold := h.count
    rw [hcurrent, Option.elim_some] at hold
    rw [hcurrent', Option.elim_some, hself, hi]
    omega
  · intro hreturned
    rw [hreturned] at hcurrent'
    cases hcurrent'

/-- A step of the boot processor that leaves the other processors and `coreCount` alone, and is
about the same processor, keeps the handshake. -/
theorem Handshake.stay_boot (hdistinct : c.lapics.Nodup) (h : Handshake c s) {s' : State}
    {id : ApicId} (hcurrent : s.boot.current = some id)
    (hcurrent' : s'.boot.current = some id) (hi : s'.i = s.i) (haps : s'.aps = s.aps)
    (hexpects : s'.boot.Expects (s.aps id) s'.coreReady) (hcount : s'.coreCount = s.coreCount) :
  Handshake c s'
  := by
  apply h.stay hdistinct hcurrent hcurrent' hi _ hexpects (by rw [hcount])
  rw [haps, Function.update_eq_self]

/-- The loop goes on to the next entry when it is the one of the boot processor. -/
theorem Handshake.skip (h : Handshake c s) (hboot : s.boot = .next) {id : ApicId}
    (hid : c.lapics[s.i]? = some id) (hskip : c.IsBoot id) :
  Handshake c { s with i := s.i + 1 }
  := by
  have hbefore : c.before (s.i + 1) = c.before s.i := by
    rw [before_succ hid, if_pos hskip, List.append_nil]
  constructor
  · intro id' hid'
    dsimp only at hid'
    rw [hboot] at hid'
    cases hid'
  · rw [hbefore]
    apply h.before
  · rw [hbefore]
    apply h.after
  · dsimp only
    rw [hbefore]
    apply h.count
  · intro hreturned
    dsimp only at hreturned
    rw [hboot] at hreturned
    cases hreturned

/-- The loop ends after the last entry. -/
theorem Handshake.return (h : Handshake c s) (hboot : s.boot = .next)
    (hend : c.lapics[s.i]? = none) :
  Handshake c { s with boot := .returned }
  := by
  constructor
  · intro id hid
    cases hid
  · apply h.before
  · intro id hid hne
    apply h.after id hid
    rw [hboot]
    apply hne
  · have hcount := h.count
    rw [hboot] at hcount
    apply hcount
  · intro hreturned
    apply List.getElem?_eq_none_iff.mp hend

/-- The loop begins with an idle processor. -/
theorem Handshake.begin (hdistinct : c.lapics.Nodup) (h : Handshake c s) (hboot : s.boot = .next)
    {id : ApicId} (hid : c.lapics[s.i]? = some id) (hother : ¬ c.IsBoot id) :
  Handshake c { s with boot := .reset id }
  := by
  have hcurrent : ∀ id', s.boot.current ≠ some id' := by
    intro id' hid'
    rw [hboot] at hid'
    cases hid'
  have hidle : s.aps id = .idle := h.after id (not_mem_before hdistinct hid) (hcurrent id)
  constructor
  · intro id' hid'
    obtain rfl := Option.some.inj hid'
    use hid, hother, hidle
  · apply h.before
  · intro id' hid' hne
    apply h.after id' hid' (hcurrent id')
  · have hcount := h.count
    rw [hboot] at hcount
    dsimp only [BootPc.current, Option.elim_some]
    rw [hidle]
    apply hcount
  · intro hreturned
    cases hreturned

/-- The loop goes on when the processor that was being started has set `core_ready`. -/
theorem Handshake.advance (h : Handshake c s) {id : ApicId} (hboot : s.boot = .spin id)
    (hready : s.coreReady = true) :
  Handshake c { s with i := s.i + 1, boot := .next }
  := by
  have hcurrent : s.boot.current = some id := by rw [hboot]; rfl
  obtain ⟨hid, hother, hexpects⟩ := h.current id hcurrent
  have hparked : ∃ rsp, s.aps id = .parked rsp := by
    rw [hboot, hready] at hexpects
    cases hp : s.aps id with
    | parked rsp => use rsp
    | _ =>
      rw [hp] at hexpects
      cases hexpects
  have hbefore : c.before (s.i + 1) = c.before s.i ++ [id] := by
    rw [before_succ hid, if_neg hother]
  constructor
  · intro id' hid'
    cases hid'
  · intro id' hid'
    dsimp only at hid' ⊢
    rw [hbefore, List.mem_append, List.mem_singleton] at hid'
    obtain hid' | rfl := hid'
    · apply h.before id' hid'
    · apply hparked
  · intro id' hid' hne
    dsimp only at hid' ⊢
    rw [hbefore, List.mem_append, List.mem_singleton, not_or] at hid'
    apply h.after id' hid'.1
    rw [hcurrent, Ne, Option.some_inj]
    apply Ne.symm hid'.2
  · have hcount := h.count
    obtain ⟨rsp, hparked⟩ := hparked
    rw [hcurrent, Option.elim_some, hparked] at hcount
    dsimp only [BootPc.current, Option.elim_none]
    rw [hbefore, List.length_append, List.length_singleton]
    apply hcount
  · intro hreturned
    cases hreturned

theorem Handshake.bootStep (hdistinct : c.lapics.Nodup) (h : Handshake c s) (stack : U64) :
  Handshake c (bootStep c stack s)
  := by
  obtain ⟨boot, i, aps, coreReady, trampStack, coreCount, blocks⟩ := s
  cases boot with
  | next =>
    unfold Smp.bootStep
    dsimp only
    cases hid : c.lapics[i]? with
    | none => apply h.return rfl hid
    | some id =>
      dsimp only
      split
      next hother => apply h.begin hdistinct rfl hid hother
      next hskip => apply h.skip rfl hid (not_not.mp hskip)
  | reset id =>
    obtain ⟨-, -, hidle⟩ := h.current id rfl
    exact h.stay_boot hdistinct rfl rfl rfl rfl ⟨hidle, rfl⟩ rfl
  | alloc id =>
    obtain ⟨-, -, hexpects⟩ := h.current id rfl
    unfold Smp.bootStep
    dsimp only
    split
    next hfresh => exact h.stay_boot hdistinct rfl rfl rfl rfl hexpects rfl
    next hnot => apply h
  | publish id stack' =>
    obtain ⟨-, -, hexpects⟩ := h.current id rfl
    exact h.stay_boot hdistinct rfl rfl rfl rfl hexpects rfl
  | sendInit id =>
    obtain ⟨-, -, hidle, hready⟩ := h.current id rfl
    refine h.stay hdistinct rfl rfl rfl rfl ⟨rfl, hready⟩ ?_
    dsimp only at hidle ⊢
    rw [hidle]
    rfl
  | wait id =>
    obtain ⟨-, -, hexpects⟩ := h.current id rfl
    exact h.stay_boot hdistinct rfl rfl rfl rfl hexpects rfl
  | sendStartup id =>
    obtain ⟨-, -, hwaiting, hready⟩ := h.current id rfl
    unfold Smp.bootStep
    dsimp only at hwaiting ⊢
    rw [if_pos hwaiting]
    refine h.stay hdistinct rfl rfl rfl rfl hready ?_
    dsimp only
    rw [hwaiting]
    rfl
  | spin id =>
    unfold Smp.bootStep
    dsimp only
    split
    next hready => apply h.advance rfl hready
    next hnot => apply h
  | returned => apply h

/-- A processor other than the one that is being started takes no step that changes anything. -/
theorem Handshake.apStep_other (h : Handshake c s) {id : ApicId}
    (hcurrent : s.boot.current ≠ some id) :
  apStep id s = s
  := by
  unfold Smp.apStep
  by_cases hbefore : id ∈ c.before s.i
  · obtain ⟨rsp, hparked⟩ := h.before id hbefore
    rw [hparked]
  · rw [h.after id hbefore hcurrent]

/-- Where the processor that is being started takes a step that changes something, the boot
processor is waiting for it. -/
theorem Handshake.spin (h : Handshake c s) {id : ApicId} (hcurrent : s.boot.current = some id)
    (hidle : s.aps id ≠ .idle) (hwaiting : s.aps id ≠ .waiting) :
  s.boot = .spin id
  := by
  obtain ⟨-, -, hexpects⟩ := h.current id hcurrent
  cases hboot : s.boot with
  | next => rw [hboot] at hcurrent; cases hcurrent
  | returned => rw [hboot] at hcurrent; cases hcurrent
  | spin id' => rw [hboot] at hcurrent; cases hcurrent; rfl
  | reset id' => rw [hboot] at hexpects; apply absurd hexpects hidle
  | alloc id' => rw [hboot] at hexpects; apply absurd hexpects.1 hidle
  | publish id' stack => rw [hboot] at hexpects; apply absurd hexpects.1 hidle
  | sendInit id' => rw [hboot] at hexpects; apply absurd hexpects.1 hidle
  | wait id' => rw [hboot] at hexpects; apply absurd hexpects.1 hwaiting
  | sendStartup id' => rw [hboot] at hexpects; apply absurd hexpects.1 hwaiting

theorem Handshake.apStep (hdistinct : c.lapics.Nodup) (h : Handshake c s) (id : ApicId) :
  Handshake c (apStep id s)
  := by
  by_cases hcurrent : s.boot.current = some id
  · obtain ⟨-, -, hexpects⟩ := h.current id hcurrent
    have hspin := h.spin hcurrent
    unfold Smp.apStep
    cases hp : s.aps id with
    | idle => apply h
    | waiting => apply h
    | parked rsp => apply h
    | started =>
      have hboot := hspin (by rw [hp]; nofun) (by rw [hp]; nofun)
      rw [hboot, hp] at hexpects
      refine h.stay hdistinct hcurrent hcurrent rfl rfl ?_ ?_
      · rw [State.setAp, hboot]
        apply hexpects
      · rw [hp]
        rfl
    | setup rsp calls =>
      have hboot := hspin (by rw [hp]; nofun) (by rw [hp]; nofun)
      rw [hboot, hp] at hexpects
      cases calls with
      | nil =>
        refine h.stay hdistinct hcurrent hcurrent rfl rfl ?_ ?_
        · dsimp only [State.setAp]
          rw [hboot]
          apply hexpects
        · rw [hp]
          rfl
      | cons call calls =>
        refine h.stay hdistinct hcurrent hcurrent rfl rfl ?_ ?_
        · dsimp only [State.setAp]
          rw [hboot]
          apply hexpects
        · rw [hp]
          rfl
    | counted rsp =>
      have hboot := hspin (by rw [hp]; nofun) (by rw [hp]; nofun)
      refine h.stay hdistinct hcurrent hcurrent rfl rfl ?_ ?_
      · dsimp only [State.setAp]
        rw [hboot]
        rfl
      · rw [hp]
        rfl
  · rw [h.apStep_other hcurrent]
    apply h

end Handshake

/-! ### The stacks -/

section Stacks

variable {c : Config} {s : State}

/-- A step that leaves the stacks of the processors alone, and allocates none, keeps them. -/
theorem Stacks.stay (h : Stacks c s) {s' : State} (hstack : ∀ p, s'.stack c p = s.stack c p)
    (hblocks : s'.blocks = s.blocks) (hunread : ∀ b ∈ s'.unread, b ∈ s.unread) :
  Stacks c s'
  := by
  constructor
  · intro p b hb
    rw [hstack] at hb
    rw [hblocks]
    apply h.used p b hb
  · intro p p' hne b hb b' hb'
    rw [hstack] at hb hb'
    apply h.apart p p' hne b hb b' hb'
  · intro b hb
    obtain ⟨hused, hapart⟩ := h.unread b (hunread b hb)
    rw [hblocks]
    apply And.intro hused
    intro p b' hb'
    rw [hstack] at hb'
    apply hapart p b' hb'

/-- While the boot processor waits, the stack has not been taken as long as the trampoline has
not read `tramp_stack`. -/
theorem mem_unread_spin {id : ApicId} (hboot : s.boot = .spin id) {b : Block} :
  b ∈ s.unread ↔ s.aps id = .started ∧ b = stackBelow s.trampStack
  := by
  rw [State.unread, hboot, Option.mem_def, Option.ite_none_right_eq_some, Option.some_inj,
    eq_comm (a := b)]

/-- A processor that goes on with its stack has it still. -/
theorem stack_setAp {id : ApicId} {p : ApPc} (hrsp : p.rsp = (s.aps id).rsp)
    (q : Option ApicId) :
  (s.setAp id p).stack c q = s.stack c q
  := by
  cases q with
  | none => rfl
  | some id' =>
    dsimp only [State.stack, State.setAp]
    by_cases hid : id' = id
    · rw [hid, Function.update_self, hrsp]
    · rw [Function.update_of_ne hid]

/-- What `malloc` returns is apart from the stacks. -/
theorem Stacks.alloc (h : Stacks c s) {stack : U64} (hfresh : s.Fresh stack) (id : ApicId) :
  Stacks c { s with blocks := blockAt stack :: s.blocks, boot := .publish id stack }
  := by
  constructor
  · intro p b hb
    apply List.mem_cons_of_mem
    apply h.used p b hb
  · apply h.apart
  · intro b hb
    obtain rfl := Option.some.inj hb
    apply And.intro List.mem_cons_self
    intro p b' hb'
    apply hfresh.2
    apply h.used p b' hb'

/-- The stack that `tramp_stack` is the end of is the one that was allocated. -/
theorem stackBelow_add (stack : U64) :
  stackBelow (stack + apStackSize) = blockAt stack
  := by
  rw [stackBelow, BitVec.add_sub_cancel]

theorem Stacks.bootStep (h : Stacks c s) (hhand : Handshake c s) (stack : U64) :
  Stacks c (bootStep c stack s)
  := by
  obtain ⟨boot, i, aps, coreReady, trampStack, coreCount, blocks⟩ := s
  cases boot with
  | next =>
    unfold Smp.bootStep
    dsimp only
    split
    next id hid =>
      split
      next hother => exact h.stay (fun _ => rfl) rfl nofun
      next hskip => exact h.stay (fun _ => rfl) rfl nofun
    next hend => exact h.stay (fun _ => rfl) rfl nofun
  | reset id => exact h.stay (fun _ => rfl) rfl nofun
  | alloc id =>
    unfold Smp.bootStep
    dsimp only
    split
    next hfresh => apply h.alloc hfresh
    next hnot => apply h
  | publish id stack' =>
    refine h.stay (fun _ => rfl) rfl ?_
    intro b hb
    obtain rfl := Option.some.inj hb
    apply congrArg some (stackBelow_add stack').symm
  | sendInit id =>
    obtain ⟨-, -, hidle, -⟩ := hhand.current id rfl
    refine h.stay (stack_setAp ?_) rfl fun b hb => hb
    rw [hidle]
    rfl
  | wait id => exact h.stay (fun _ => rfl) rfl fun b hb => hb
  | sendStartup id =>
    obtain ⟨-, -, hwaiting, -⟩ := hhand.current id rfl
    unfold Smp.bootStep
    dsimp only at hwaiting ⊢
    rw [if_pos hwaiting]
    refine h.stay (stack_setAp ?_) rfl ?_
    · dsimp only
      rw [hwaiting]
      rfl
    · intro b hb
      rw [mem_unread_spin rfl] at hb
      apply congrArg some hb.2.symm
  | spin id =>
    unfold Smp.bootStep
    dsimp only
    split
    next hready => exact h.stay (fun _ => rfl) rfl nofun
    next hnot => apply h
  | returned => apply h

/-- A processor that takes the stack that was allocated for it has one apart from the others. -/
theorem Stacks.take (h : Stacks c s) {id : ApicId} (hboot : s.boot = .spin id)
    (hstarted : s.aps id = .started) (calls : List SetupCall) :
  Stacks c (s.setAp id (.setup s.trampStack calls))
  := by
  have hself : (s.setAp id (.setup s.trampStack calls)).stack c (some id)
      = some (stackBelow s.trampStack) := by
    dsimp only [State.stack, State.setAp]
    rw [Function.update_self]
    rfl
  have helse : ∀ p ≠ some id,
      (s.setAp id (.setup s.trampStack calls)).stack c p = s.stack c p := by
    intro p hp
    cases p with
    | none => rfl
    | some id' =>
      dsimp only [State.stack, State.setAp]
      rw [Function.update_of_ne fun heq => hp (congrArg some heq)]
  have hunread : stackBelow s.trampStack ∈ s.unread := by
    rw [mem_unread_spin hboot]
    apply And.intro hstarted rfl
  obtain ⟨hused, hapart⟩ := h.unread _ hunread
  constructor
  · intro p b hb
    by_cases hp : p = some id
    · rw [hp, hself] at hb
      obtain rfl := Option.some.inj hb
      apply hused
    · rw [helse p hp] at hb
      apply h.used p b hb
  · intro p p' hne b hb b' hb'
    by_cases hp : p = some id
    · rw [hp, hself] at hb
      obtain rfl := Option.some.inj hb
      rw [helse p' fun hp' => hne (hp.trans hp'.symm)] at hb'
      apply hapart p' b' hb'
    · rw [helse p hp] at hb
      by_cases hp' : p' = some id
      · rw [hp', hself] at hb'
        obtain rfl := Option.some.inj hb'
        apply (hapart p b hb).symm
      · rw [helse p' hp'] at hb'
        apply h.apart p p' hne b hb b' hb'
  · intro b hb
    have hboot' : (s.setAp id (.setup s.trampStack calls)).boot = .spin id := hboot
    rw [mem_unread_spin hboot'] at hb
    dsimp only [State.setAp] at hb
    rw [Function.update_self] at hb
    cases hb.1

/-- A processor that goes on with its stack keeps the stacks. -/
theorem Stacks.goOn (h : Stacks c s) {id : ApicId} {p : ApPc} (hrsp : p.rsp = (s.aps id).rsp)
    (hp : p ≠ .started) :
  Stacks c (s.setAp id p)
  := by
  apply h.stay (stack_setAp hrsp) rfl
  intro b hb
  by_cases hboot : ∃ id', s.boot = .spin id'
  · obtain ⟨id', hboot⟩ := hboot
    have hboot' : (s.setAp id p).boot = .spin id' := hboot
    rw [mem_unread_spin hboot'] at hb
    rw [mem_unread_spin hboot]
    dsimp only [State.setAp] at hb
    by_cases hid : id' = id
    · rw [hid, Function.update_self] at hb
      apply absurd hb.1 hp
    · rw [Function.update_of_ne hid] at hb
      apply hb
  · unfold State.unread at hb ⊢
    dsimp only [State.setAp] at hb
    cases hpc : s.boot with
    | spin id' => apply absurd ⟨id', hpc⟩ hboot
    | _ =>
      rw [hpc] at hb
      apply hb

theorem Stacks.apStep (h : Stacks c s) (hhand : Handshake c s) (id : ApicId) :
  Stacks c (apStep id s)
  := by
  by_cases hcurrent : s.boot.current = some id
  · unfold Smp.apStep
    cases hp : s.aps id with
    | idle => apply h
    | waiting => apply h
    | parked rsp => apply h
    | started =>
      apply h.take _ hp
      apply hhand.spin hcurrent
      · rw [hp]
        nofun
      · rw [hp]
        nofun
    | setup rsp calls =>
      cases calls with
      | nil =>
        have hon : Stacks c (s.setAp id (.counted rsp)) := by
          apply h.goOn
          · rw [hp]
            rfl
          · nofun
        exact hon.stay (fun _ => rfl) rfl fun b hb => hb
      | cons call calls =>
        apply h.goOn
        · rw [hp]
          rfl
        · nofun
    | counted rsp =>
      have hon : Stacks c (s.setAp id (.parked rsp)) := by
        apply h.goOn
        · rw [hp]
          rfl
        · nofun
      exact hon.stay (fun _ => rfl) rfl fun b hb => hb
  · rw [hhand.apStep_other hcurrent]
    apply h

end Stacks

/-! ### Runs -/

section Runs

variable {c : Config}

theorem handshake_initial (c : Config) :
  Handshake c (State.initial c)
  := by
  constructor
  · nofun
  · nofun
  · intro id hid hne
    rfl
  · rfl
  · nofun

theorem stacks_initial (c : Config) :
  Stacks c (State.initial c)
  := by
  have hboot : ∀ p, ∀ b ∈ (State.initial c).stack c p, p = none ∧ b = c.bootStack := by
    intro p b hb
    cases p with
    | none => use rfl, (Option.some.inj hb).symm
    | some id => cases hb
  constructor
  · intro p b hb
    rw [(hboot p b hb).2]
    apply List.mem_singleton_self
  · intro p p' hne b hb b' hb'
    apply absurd _ hne
    rw [(hboot p b hb).1, (hboot p' b' hb').1]
  · nofun

/-- A processor between reading `tramp_stack` and setting `core_ready` is the one the boot
processor waits for. -/
theorem Handshake.current_of_starting {s : State} (h : Handshake c s) {id : ApicId}
    (hstarting : (s.aps id).Starting) :
  s.boot.current = some id
  := by
  by_contra hcurrent
  by_cases hbefore : id ∈ c.before s.i
  · obtain ⟨rsp, hparked⟩ := h.before id hbefore
    rw [hparked] at hstarting
    apply hstarting
  · rw [h.after id hbefore hcurrent] at hstarting
    apply hstarting

theorem Coordinated.step {s : State} (h : Coordinated c s) (hdistinct : c.lapics.Nodup)
    (a : Action) :
  Coordinated c (step c s a)
  := by
  cases a with
  | boot stack =>
      constructor
      · apply h.handshake.bootStep hdistinct
      · apply h.separate.bootStep h.handshake
  | ap id =>
      constructor
      · apply h.handshake.apStep hdistinct
      · apply h.separate.apStep h.handshake

theorem Coordinated.serialised {s : State} (h : Coordinated c s) :
  Serialised c s
  := by
  constructor
  · intro id id' hid hid'
    apply Option.some.inj
    rw [← h.handshake.current_of_starting hid, ← h.handshake.current_of_starting hid']
  · apply h.separate.apart
  · intro hreturned
    have hcount := h.handshake.count
    have hend := h.handshake.returned hreturned
    have hbefore : c.before s.i = c.others := by
      rw [Config.before, List.take_of_length_le hend, Config.others]
    rw [hreturned, hbefore] at hcount
    apply hcount

/-- If the processors have different APIC ids, then whatever the order of the steps of all of
them: no two of the other processors are between reading `tramp_stack` and setting `core_ready`
at the same time, no two processors have stacks with a byte in common, and once `smp_init` has
returned, all processors are counted. -/
theorem always_serialised (c : Config) (hdistinct : c.lapics.Nodup) (as : List Action) :
  Always (step c) (Serialised c) (State.initial c) as
  := by
  apply Always.of_invariant Coordinated.serialised
  · intro s a h
    apply h.step hdistinct
  · exact ⟨handshake_initial c, stacks_initial c⟩

end Runs

/-- Three processors, the second of which is the boot processor. -/
def threeProcessors : Config where
  lapics := [0, 1, 2]
  cpuidx := 1
  bootStack := { base := 0x100000, size := 0x4000 }

theorem always_serialised_threeProcessors :
  Always (step threeProcessors) (Serialised threeProcessors) (State.initial threeProcessors)
    [.boot 0, .boot 0, .boot 0x200000, .boot 0, .boot 0, .boot 0, .boot 0, .ap 0]
  := by
  apply always_serialised
  decide

/-- The steps with which the boot processor starts a processor on a given stack and that processor
gets ready. -/
def startUp (id : ApicId) (stack : U64) : List Action :=
  List.replicate 7 (.boot stack) ++ List.replicate 10 (.ap id) ++ [.boot 0]

example :
    let s := Trace.final (step threeProcessors) (State.initial threeProcessors)
      (startUp 0 0x200000 ++ [.boot 0] ++ startUp 2 0x300000 ++ [.boot 0])
    s.boot = .returned ∧ s.coreCount = 3 := by
  decide

end Smp
