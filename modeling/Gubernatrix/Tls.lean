import Gubernatrix.Heap
import Gubernatrix.Lib.Program

/-!
# Thread-local storage

`tls_alloc` hands out offsets in a block that every core has one of. The offsets are in global
variables, so that an offset handed out on one core is used on all of them; so is the offset of
the next slot, which `tls_init` clears on every core. `tls_mem`, which is never read, is left
out.
-/

namespace Tls

open Program Trace

/-- `TLS_SIZE`. -/
def tlsSize : U64 := kib 16

/-- `tls_alloc_off`, the heap, and the offset in it of the block that each core has. -/
structure State where
  tlsAllocOff : U64
  bootstrapAllocPos : U64
  gsBase : ℕ → Option U64

/-- `tls_init` on a core. -/
def tlsInit (core : ℕ) : Program State Unit :=
  modify fun s =>
    match bootstrapMalloc s.bootstrapAllocPos tlsSize with
    | some pos =>
        { tlsAllocOff := 0
          bootstrapAllocPos := pos
          gsBase := Function.update s.gsBase core (some s.bootstrapAllocPos) }
    | none => { s with tlsAllocOff := 0, gsBase := Function.update s.gsBase core none }

/-- `tls_alloc`. -/
def tlsAlloc (sz : U64) : Program State U64 := do
  let sz := align sz 8
  let s ← get
  if s.tlsAllocOff + sz < tlsSize then do
    set { s with tlsAllocOff := s.tlsAllocOff + sz }
    pure s.tlsAllocOff
  else throw (.panic "TLS Allocation Failed!")

/-! ### Runs -/

/-- A slot: its offset, and the size asked for. -/
structure Slot where
  off : U64
  size : U64
deriving DecidableEq

/-- The state of a run, with the cores that have been set up and the slots that have been handed
out; a panic stops it. -/
structure World where
  tls : State
  cores : List ℕ
  slots : List Slot
  stopped : Bool

/-- A call on some core. -/
inductive Op where
  | init (core : ℕ)
  | alloc (sz : U64)

/-- The state after a call. -/
def step (w : World) (op : Op) : World :=
  if w.stopped then w
  else
    match op with
    | .init core => { w with tls := finalState (tlsInit core w.tls), cores := core :: w.cores }
    | .alloc sz =>
        match tlsAlloc sz w.tls with
        | .ok off tls => { w with tls := tls, slots := ⟨off, sz⟩ :: w.slots }
        | .error _ tls => { w with tls := tls, stopped := true }

/-- The state before the first call, with any heap. -/
def init (pos : U64) : World where
  tls := { tlsAllocOff := 0, bootstrapAllocPos := pos, gsBase := fun _ => none }
  cores := []
  slots := []
  stopped := false

/-- Every core is set up once, and no slot is empty. -/
def Valid (w : World) : Op → Prop
  | .init core => core ∉ w.cores
  | .alloc sz => 1 ≤ sz.toNat

/-- The slots have no byte in common. -/
def Slot.Disjoint (a b : Slot) : Prop :=
  a.off.toNat + a.size.toNat ≤ b.off.toNat ∨ b.off.toNat + b.size.toNat ≤ a.off.toNat

/-- The slots lie in the block, apart from each other. -/
structure Apart (w : World) : Prop where
  inside : ∀ a ∈ w.slots, a.off.toNat + a.size.toNat ≤ tlsSize.toNat
  disjoint : w.slots.Pairwise Slot.Disjoint

/-- The slots lie in the block, apart from each other, and none is at the offset that stands for
`NULL`. -/
structure Sound (w : World) : Prop extends Apart w where
  not_null : ∀ a ∈ w.slots, a.off ≠ 0

/-- The call does not return a slot: it is refused for its size, even in an empty block. -/
def Refused (w : World) : Op → Prop
  | .init _ => True
  | .alloc sz => w.stopped = true ∨ tlsSize ≤ align sz 8

/-- A slot is asked for that would be refused, or `tls_init` was not called since the last slot
was handed out and the size does not run over `2 ^ 64`. -/
def InOrder (w : World) : Op → Prop
  | .init _ => True
  | .alloc sz => w.stopped = true ∨ tlsSize ≤ w.tls.tlsAllocOff + align sz 8
      ∨ w.tls.tlsAllocOff.toNat + (sz.toNat + 7) / 8 * 8 < 2 ^ 64
        ∧ (w.slots = [] ∨ w.tls.tlsAllocOff ≠ 0)

/-! ### Calls -/

section Calls

variable {w : World} {sz : U64}

theorem toNat_align_8 (h : 1 ≤ sz.toNat) :
  (align sz 8).toNat = (sz.toNat + 7) / 8 * 8 % 2 ^ 64
  := by
  have hpot : (8 : U64) - 1 = 7#64 := rfl
  have hor : ((sz - 1) ||| 7#64).toNat = (sz - 1).toNat / 8 * 8 + 7 := by
    rw [BitVec.toNat_or]
    exact Bits.or_ones _ 3
  have hsub : (sz - 1).toNat = sz.toNat - 1 := by
    rw [BitVec.toNat_sub_of_le (by rw [BitVec.le_def]; exact h)]
    rfl
  rw [align, hpot, BitVec.toNat_add, hor, hsub, show (1 : U64).toNat = 1 from rfl]
  omega

theorem step_of_stopped (h : w.stopped = true) (op : Op) :
  step w op = w
  := if_pos h

theorem step_of_running (h : w.stopped = false) (op : Op) :
  step w op = match op with
    | .init core => { w with tls := finalState (tlsInit core w.tls), cores := core :: w.cores }
    | .alloc sz =>
        match tlsAlloc sz w.tls with
        | .ok off tls => { w with tls := tls, slots := ⟨off, sz⟩ :: w.slots }
        | .error _ tls => { w with tls := tls, stopped := true }
  := if_neg (by rw [h]; exact Bool.false_ne_true)

theorem step_init (h : w.stopped = false) (core : ℕ) :
  (step w (.init core)).slots = w.slots ∧ (step w (.init core)).stopped = false
    ∧ (step w (.init core)).tls.tlsAllocOff = 0
  := by
  have hoff : (finalState (tlsInit core w.tls)).tlsAllocOff = 0 := by
    rw [tlsInit, modify_apply, finalState_ok]
    split <;> rfl
  rw [step_of_running h]
  exact ⟨rfl, h, hoff⟩

/-- A request that is refused. -/
theorem step_refused (h : w.stopped = false) (hfull : tlsSize ≤ w.tls.tlsAllocOff + align sz 8) :
  step w (.alloc sz) = { w with stopped := true }
  := by
  have hrun : tlsAlloc sz w.tls = .error (.panic "TLS Allocation Failed!") w.tls := by
    rw [tlsAlloc, bind_of_ok (get_apply _), if_neg (BitVec.not_lt.mpr hfull)]
    rfl
  rw [step_of_running h]
  simp only [hrun]

/-- A request that is granted. -/
theorem step_granted (h : w.stopped = false) (hroom : w.tls.tlsAllocOff + align sz 8 < tlsSize) :
  step w (.alloc sz) = { w with
    tls := { w.tls with tlsAllocOff := w.tls.tlsAllocOff + align sz 8 }
    slots := ⟨w.tls.tlsAllocOff, sz⟩ :: w.slots }
  := by
  have hrun : tlsAlloc sz w.tls = .ok w.tls.tlsAllocOff
      { w.tls with tlsAllocOff := w.tls.tlsAllocOff + align sz 8 } := by
    rw [tlsAlloc, bind_of_ok (get_apply _), if_pos hroom]
    rfl
  rw [step_of_running h]
  simp only [hrun]

end Calls

/-! ### Slots apart -/

/-- The slots lie apart below the next offset, or `tls_init` was called after the first of them,
which lies at offset 0, was handed out. -/
structure Laid (w : World) : Prop where
  apart : Apart w
  below : (∀ a ∈ w.slots, a.off.toNat + a.size.toNat ≤ w.tls.tlsAllocOff.toNat)
    ∨ w.tls.tlsAllocOff = 0
  first : w.slots ≠ [] → ∃ a ∈ w.slots, a.off = 0 ∧ 1 ≤ a.size.toNat
  fresh : w.slots = [] → w.tls.tlsAllocOff = 0

section Laid

variable {w : World} {sz : U64} (h : Laid w)

include h

theorem Laid.init (core : ℕ) :
  Laid (step w (.init core))
  := by
  cases hstopped : w.stopped with
  | true =>
      rw [step_of_stopped hstopped]
      exact h
  | false =>
      obtain ⟨hslots, -, hoff⟩ := step_init hstopped core
      refine ⟨⟨?_, ?_⟩, .inr hoff, ?_, fun _ => hoff⟩
      · rw [hslots]
        exact h.apart.inside
      · rw [hslots]
        exact h.apart.disjoint
      · rw [hslots]
        exact h.first

theorem Laid.stop :
  Laid { w with stopped := true }
  := ⟨⟨h.apart.inside, h.apart.disjoint⟩, h.below, h.first, h.fresh⟩

/-- A slot that is handed out in order. -/
theorem Laid.grant (hsz : 1 ≤ sz.toNat)
    (hroom : w.tls.tlsAllocOff + align sz 8 < tlsSize)
    (hwrap : w.tls.tlsAllocOff.toNat + (sz.toNat + 7) / 8 * 8 < 2 ^ 64)
    (horder : w.slots = [] ∨ w.tls.tlsAllocOff ≠ 0) :
  Laid { w with
    tls := { w.tls with tlsAllocOff := w.tls.tlsAllocOff + align sz 8 }
    slots := ⟨w.tls.tlsAllocOff, sz⟩ :: w.slots }
  := by
  have hsum : (w.tls.tlsAllocOff + align sz 8).toNat
      = w.tls.tlsAllocOff.toNat + (sz.toNat + 7) / 8 * 8 := by
    rw [BitVec.toNat_add, toNat_align_8 hsz]
    omega
  rw [BitVec.lt_def, hsum] at hroom
  have hbelow : ∀ a ∈ w.slots, a.off.toNat + a.size.toNat ≤ w.tls.tlsAllocOff.toNat := by
    rcases horder with hnil | hne
    · rw [hnil]
      intro a ha
      cases ha
    · exact h.below.resolve_right hne
  refine ⟨⟨?_, ?_⟩, .inl ?_, fun _ => ?_, fun hnil => absurd hnil (List.cons_ne_nil _ _)⟩
  · intro a ha
    rcases List.mem_cons.mp ha with rfl | ha
    · dsimp only
      omega
    · exact h.apart.inside a ha
  · exact List.pairwise_cons.mpr ⟨fun a ha => .inr (hbelow a ha), h.apart.disjoint⟩
  · intro a ha
    rw [hsum]
    rcases List.mem_cons.mp ha with rfl | ha
    · dsimp only
      omega
    · have := hbelow a ha
      omega
  · by_cases hnil : w.slots = []
    · exact ⟨_, List.mem_cons_self .., h.fresh hnil, hsz⟩
    · obtain ⟨a, ha, hfirst⟩ := h.first hnil
      exact ⟨a, List.mem_cons_of_mem _ ha, hfirst⟩

/-- A slot that is handed out of order is the first one again, or runs over `2 ^ 64`. -/
theorem Laid.not_apart (hsz : 1 ≤ sz.toNat)
    (hwrap : ¬ (w.tls.tlsAllocOff.toNat + (sz.toNat + 7) / 8 * 8 < 2 ^ 64
      ∧ (w.slots = [] ∨ w.tls.tlsAllocOff ≠ 0)))
    (tls : State) :
  ¬ Apart { w with tls := tls, slots := ⟨w.tls.tlsAllocOff, sz⟩ :: w.slots }
  := by
  intro hapart
  have hin := hapart.inside _ (List.mem_cons_self ..)
  have hsize : tlsSize.toNat = 16384 := rfl
  dsimp only at hin
  have hlt : w.tls.tlsAllocOff.toNat + (sz.toNat + 7) / 8 * 8 < 2 ^ 64 := by omega
  have horder := not_or.mp fun h => hwrap ⟨hlt, h⟩
  obtain ⟨hne, hzero⟩ := horder
  rw [not_not] at hzero
  obtain ⟨a, ha, hoff, hpos⟩ := h.first hne
  have hdisjoint := (List.pairwise_cons.mp hapart.disjoint).1 a ha
  unfold Slot.Disjoint at hdisjoint
  dsimp only at hdisjoint
  rw [hzero, hoff, show (0 : U64).toNat = 0 from rfl] at hdisjoint
  omega

end Laid

/-- The slots lie in the block and apart from each other just when every slot is handed out in
order. -/
theorem slots_apart_iff {pos : U64} {ops : List Op} (hvalid : Each step Valid (init pos) ops) :
  Always step Apart (init pos) ops ↔ Each step InOrder (init pos) ops
  := by
  have hinit : Laid (init pos) :=
    ⟨⟨by simp [init], List.Pairwise.nil⟩, .inr rfl, fun h => absurd rfl h, fun _ => rfl⟩
  have hkept : ∀ {w op}, Laid w → Valid w op → InOrder w op → Laid (step w op) := by
    rintro w (core | sz) hlaid hvalid horder
    · exact hlaid.init core
    · cases hstopped : w.stopped with
      | true =>
          rw [step_of_stopped hstopped]
          exact hlaid
      | false =>
          by_cases hroom : w.tls.tlsAllocOff + align sz 8 < tlsSize
          · rcases horder with h | h | ⟨hwrap, horder⟩
            · rw [hstopped] at h
              cases h
            · exact absurd hroom (BitVec.not_lt.mpr h)
            · rw [step_granted hstopped hroom]
              exact hlaid.grant hvalid hroom hwrap horder
          · rw [step_refused hstopped (BitVec.not_lt.mp hroom)]
            exact hlaid.stop
  have hlost : ∀ {w op}, Laid w → Valid w op → ¬ InOrder w op → ¬ Apart (step w op) := by
    rintro w (core | sz) hlaid hvalid horder
    · exact absurd trivial horder
    · obtain ⟨hrunning, hfull, hwrap⟩ := not_or.mp horder |>.imp_right not_or.mp
      rw [step_granted (by simpa using hrunning) (BitVec.not_le.mp hfull)]
      exact hlaid.not_apart hvalid hwrap _
  exact always_iff_each (fun hlaid => hlaid.apart) hkept hlost hinit hvalid

/-! ### Slots that are not null -/

/-- No slot was handed out, and the next one is at offset 0. -/
structure Unused (w : World) : Prop where
  slots : w.slots = []
  off : w.tls.tlsAllocOff = 0

/-- The slots lie in the block, apart from each other and not at offset 0, just when no slot is
handed out at all: the first one is at offset 0. -/
theorem slots_sound_iff {pos : U64} {ops : List Op} (hvalid : Each step Valid (init pos) ops) :
  Always step Sound (init pos) ops ↔ Each step Refused (init pos) ops
  := by
  have hsound : ∀ {w}, Unused w → Sound w := by
    intro w hunused
    refine ⟨⟨?_, ?_⟩, ?_⟩
    · simp [hunused.slots]
    · simp [hunused.slots]
    · simp [hunused.slots]
  have hkept : ∀ {w op}, Unused w → Valid w op → Refused w op → Unused (step w op) := by
    intro w op hunused hvalid hrefused
    cases hstopped : w.stopped with
    | true =>
        rw [step_of_stopped hstopped]
        exact hunused
    | false =>
        cases op with
        | init core =>
            obtain ⟨hslots, -, hoff⟩ := step_init hstopped core
            exact ⟨hslots.trans hunused.slots, hoff⟩
        | alloc sz =>
            have hfull := hrefused.resolve_left (by rw [hstopped]; exact Bool.false_ne_true)
            rw [step_refused hstopped (by rwa [hunused.off, zero_add])]
            exact ⟨hunused.slots, hunused.off⟩
  have hlost : ∀ {w op}, Unused w → Valid w op → ¬ Refused w op → ¬ Sound (step w op) := by
    rintro w (core | sz) hunused hvalid hrefused
    · exact absurd trivial hrefused
    · obtain ⟨hrunning, hroom⟩ := not_or.mp hrefused
      rw [step_granted (by simpa using hrunning)
        (by rw [hunused.off, zero_add]; exact BitVec.not_le.mp hroom)]
      intro hsound
      exact hsound.not_null _ (List.mem_cons_self ..) hunused.off
  exact always_iff_each hsound hkept hlost ⟨rfl, rfl⟩ hvalid

/-- A request for more than the block. -/
theorem slots_sound_refused :
  Each step Valid (init 0) [.init 0, .alloc 16384]
    ∧ Always step Sound (init 0) [.init 0, .alloc 16384]
  := by
  have hvalid : Each step Valid (init 0) [.init 0, .alloc 16384] :=
    ⟨by simp [Valid, init], (by decide : 1 ≤ (16384 : U64).toNat), trivial⟩
  exact ⟨hvalid, (slots_sound_iff hvalid).mpr ⟨trivial, .inr (by decide), trivial⟩⟩

/-- The first slot of all is at offset 0, and so is the first one after another core has been
set up. -/
theorem slots_not_sound :
  ¬ ∀ pos ops, Each step Valid (init pos) ops → Always step Sound (init pos) ops
  := by
  intro h
  have hrun := h 0 [.init 0, .alloc 16]
    ⟨by simp [Valid, init], (by decide : 1 ≤ (16 : U64).toNat), trivial⟩
  exact hrun.2.2.not_null ⟨0, 16⟩ (by decide) rfl

end Tls
