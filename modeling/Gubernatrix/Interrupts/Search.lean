import Gubernatrix.Interrupts.Allocate
import Mathlib.Data.Int.LeastGreatest

/-!
# The search for vectors

A call of `interrupt_allocate` that no other call interrupts. Its search looks whether the run of
unblocked vectors is long enough before it looks at the next vector, so that a run which ends with
the last vector is never seen to be long enough.
-/

namespace Interrupts

/-- What a call returns, what `base` points to afterwards, and `interrupt_blocked`. -/
structure Reply where
  ret : ℤ
  base : ℤ
  blocked : ℤ → Bool

/-- `interrupt_allocate`. -/
def interruptAllocate (blocked : ℤ → Bool) (r : Request) : Reply :=
  if r.flags &&& flagsFixed ≠ 0 then
    match allocateFixed blocked r with
    | some blocked => ⟨0, r.base, blocked⟩
    | none => ⟨-1, r.base, blocked⟩
  else
    match if r.base ≠ 0 then allocateFixed blocked { r with flags := r.flags ||| flagsFixed }
      else none with
    | some blocked => ⟨0, r.base, blocked⟩
    | none =>
        match allocateSearch blocked r with
        | some (base, blocked) => ⟨0, base, blocked⟩
        | none => ⟨-1, r.base, blocked⟩

/-- The `cnt` vectors from `base` on are vectors of devices, and none of them is blocked. -/
structure FreeBlock (blocked : ℤ → Bool) (cnt base : ℤ) : Prop where
  ge : 32 ≤ base
  le : base + cnt ≤ 256
  free : ∀ v, base ≤ v → v < base + cnt → blocked v = false

/-- The hint of a call is of no use: there is none, or a vector that it names is blocked. -/
def Request.HintTaken (blocked : ℤ → Bool) (r : Request) : Prop :=
  r.base = 0 ∨ 0 ≤ r.base ∧ r.base + r.cnt ≤ 256
    ∧ ∃ v, r.base ≤ v ∧ v < r.base + r.cnt ∧ blocked v = true

/-- A call is granted a block of unblocked vectors if there is one, and has no effect otherwise. The
vectors of an exclusive grant are blocked, and no others. -/
structure Complete (blocked : ℤ → Bool) (r : Request) (reply : Reply) : Prop where
  granted : (∃ base, FreeBlock blocked r.cnt base) →
    reply.ret = 0 ∧ FreeBlock blocked r.cnt reply.base
  refused : (¬ ∃ base, FreeBlock blocked r.cnt base) → reply = ⟨-1, r.base, blocked⟩
  exclusive : reply.ret = 0 → r.Exclusive → ∀ v, reply.blocked v = true
    ↔ blocked v = true ∨ reply.base ≤ v ∧ v < reply.base + r.cnt

section Search

variable {blocked : ℤ → Bool} {r : Request}

theorem FirstFree.freeBlock {cnt base : ℤ} (h : FirstFree blocked cnt base) :
  FreeBlock blocked cnt base
  := by
  have hle := h.le
  use h.ge, by omega, h.free

/-- Among the blocks of unblocked vectors that end below vector 255 there is a first one. -/
theorem FreeBlock.exists_firstFree {cnt base : ℤ} (h : FreeBlock blocked cnt base)
    (hle : base + cnt ≤ 255) :
  ∃ first, FirstFree blocked cnt first
  := by
  obtain ⟨first, hfirst, hleast⟩ := Int.exists_least_of_bdd
    (P := fun b => FreeBlock blocked cnt b) ⟨32, fun b hb => hb.ge⟩ ⟨base, h⟩
  have hbase := hleast base h
  use first, hfirst.ge, by omega, hfirst.free
  intro b hb hlt
  by_contra hnone
  have hfree : FreeBlock blocked cnt b := by
    use hb, by omega
    intro v hv hv'
    by_contra hblocked
    apply hnone
    use v, hv, hv', by simpa using hblocked
  have := hleast b hfree
  omega

/-- The search finds nothing just when no block of unblocked vectors ends below vector 255. -/
theorem search_eq_none {cnt : ℤ} :
  searchLoop blocked cnt (idtEntryCount - 32) 32 0 = none
    ↔ ¬ ∃ base, FreeBlock blocked cnt base ∧ base + cnt ≤ 255
  := by
  constructor
  · rintro hnone ⟨base, hfree, hle⟩
    obtain ⟨first, hfirst⟩ := hfree.exists_firstFree hle
    rw [search_eq_some.mpr hfirst] at hnone
    cases hnone
  · intro h
    rw [Option.eq_none_iff_forall_ne_some]
    intro base hsome
    have hfirst := search_eq_some.mp hsome
    apply h ⟨base, hfirst.freeBlock, hfirst.le⟩

/-- The vectors that are named are tried in vain. -/
theorem Request.HintTaken.fixed_eq_none (h : r.HintTaken blocked) :
  (if r.base ≠ 0 then allocateFixed blocked { r with flags := r.flags ||| flagsFixed } else none)
    = none
  := by
  rcases h with hzero | ⟨-, -, v, hv, hv', hblocked⟩
  · rw [if_neg (not_not.mpr hzero)]
  · split
    · rw [allocateFixed, if_pos]
      by_contra hany
      rw [Bool.not_eq_true, anyBlocked_eq_false] at hany
      rw [hany v hv hv'] at hblocked
      cases hblocked
    · rfl

theorem interruptAllocate_eq (hfixed : r.flags &&& flagsFixed = 0) (hhint : r.HintTaken blocked) :
  interruptAllocate blocked r
    = match searchLoop blocked r.cnt (idtEntryCount - 32) 32 0 with
      | some base => ⟨0, base, if r.Exclusive then block blocked base r.cnt.toNat else blocked⟩
      | none => ⟨-1, r.base, blocked⟩
  := by
  rw [interruptAllocate, if_neg (not_not.mpr hfixed), hhint.fixed_eq_none, allocateSearch]
  cases searchLoop blocked r.cnt (idtEntryCount - 32) 32 0 with
  | some base => rfl
  | none => rfl

end Search

/-- A call whose hint is of no use is granted a block of unblocked vectors whenever there is one,
and refused cleanly otherwise, just when, if there is such a block, there is one that ends below
vector 255. -/
theorem complete_iff {blocked : ℤ → Bool} {r : Request} (hfixed : r.flags &&& flagsFixed = 0)
    (hhint : r.HintTaken blocked) :
  Complete blocked r (interruptAllocate blocked r)
    ↔ ((∃ base, FreeBlock blocked r.cnt base)
      → ∃ base, FreeBlock blocked r.cnt base ∧ base + r.cnt ≤ 255)
  := by
  rw [interruptAllocate_eq hfixed hhint]
  cases hsearch : searchLoop blocked r.cnt (idtEntryCount - 32) 32 0 with
  | some base =>
      have hfirst := search_eq_some.mp hsearch
      apply iff_of_true
      · constructor
        · intro _
          exact ⟨rfl, hfirst.freeBlock⟩
        · intro hnone
          apply absurd ⟨base, hfirst.freeBlock⟩ hnone
        · intro _ hexcl v
          dsimp only
          rw [if_pos hexcl, block_eq_true]
      · intro _
        exact ⟨base, hfirst.freeBlock, hfirst.le⟩
  | none =>
      rw [search_eq_none] at hsearch
      constructor
      · intro hcomplete hfree
        obtain ⟨hret, -⟩ := hcomplete.granted hfree
        cases hret
      · intro h
        have hnone : ¬ ∃ base, FreeBlock blocked r.cnt base := fun hfree => hsearch (h hfree)
        constructor
        · intro hfree
          apply absurd hfree hnone
        · intro _
          rfl
        · intro hret
          cases hret

/-- Every vector is blocked but the ones from `base` on. -/
def blockedBelow (base : ℤ) (v : ℤ) : Bool := v < base

/-- The three last vectors are unblocked, and two of them are asked for. -/
theorem complete_three :
  Complete (blockedBelow 253) ⟨2, 1, 0⟩ (interruptAllocate (blockedBelow 253) ⟨2, 1, 0⟩)
  := by
  apply (complete_iff (by decide) (.inl rfl)).mpr
  intro _
  use 253
  constructor
  · use by decide, by decide
    intro v hv _
    rw [blockedBelow, decide_eq_false_iff_not]
    omega
  · decide

/-- Of the vectors, only the last one is unblocked, and it is not found. -/
theorem not_complete_last :
  ¬ ∀ (blocked : ℤ → Bool) (r : Request), 1 ≤ r.cnt → r.flags &&& flagsFixed = 0 →
    r.HintTaken blocked → Complete blocked r (interruptAllocate blocked r)
  := by
  intro h
  let r : Request := ⟨1, 1, 0⟩
  have hhint : r.HintTaken (blockedBelow 255) := .inl rfl
  have hcomplete := h (blockedBelow 255) r (by decide) (by decide) hhint
  have hfree : FreeBlock (blockedBelow 255) 1 255 := by
    use by decide, by decide
    intro v hv _
    rw [blockedBelow, decide_eq_false_iff_not]
    omega
  obtain ⟨hret, -⟩ := hcomplete.granted ⟨255, hfree⟩
  have hsearch : searchLoop (blockedBelow 255) r.cnt (idtEntryCount - 32) 32 0 = none := by
    rw [search_eq_none]
    rintro ⟨base, hbase, hle⟩
    have hcnt : r.cnt = 1 := rfl
    have hunblocked := hbase.free base (le_refl _) (by omega)
    rw [blockedBelow, decide_eq_false_iff_not] at hunblocked
    omega
  rw [interruptAllocate_eq (by decide) hhint, hsearch] at hret
  cases hret

end Interrupts
