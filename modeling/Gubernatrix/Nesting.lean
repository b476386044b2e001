import Gubernatrix.Heap

/-!
# Nested use of the bootstrap heap

A caller that frees its blocks in the opposite order gets all of the area back: `bootstrap_free`
takes a block back when it is the last one below `bootstrap_alloc_pos`. It asks for a position above
the size of the block though, so that the block at the very start of the area stays.
-/

namespace Heap

open Trace

/-- The heap comes about by calls of the allocator. -/
def Reachable (h : State) : Prop := ∃ ops, Each step Valid init ops ∧ final step init ops = h

/-- From the heap on, the calls are properly nested: every block is allocated, with a size that fits
in the area, and freed when the blocks that were allocated after it are freed. -/
inductive Nested : State → List Op → Prop where
  | nil (h : State) : Nested h []
  | bracket {h : State} {s : U64} {inside after : List Op}
      (hsize : 1 ≤ s.toNat ∧ s.toNat ≤ bootstrapAllocAreaSize.toNat)
      (hmalloc : bootstrapMalloc h.pos s ≠ none)
      (hinside : Nested (step h (.malloc s)) inside)
      (hafter : Nested (step (final step (step h (.malloc s)) inside) (.free ⟨h.pos, s⟩)) after) :
      Nested h (.malloc s :: (inside ++ .free ⟨h.pos, s⟩ :: after))

section Reachable

variable {h : State}

theorem pos_lt_step (hpos : h.pos.toNat < bootstrapAllocAreaSize.toNat) (op : Op) :
  (step h op).pos.toNat < bootstrapAllocAreaSize.toNat
  := by
  cases op with
  | malloc s =>
      rw [step]
      split
      next pos hmalloc =>
        rw [bootstrapMalloc] at hmalloc
        split at hmalloc
        · dsimp only at hmalloc
          split at hmalloc
          next hlt =>
            obtain rfl := Option.some.inj hmalloc
            apply hlt
          next => cases hmalloc
        · cases hmalloc
      next => apply hpos
  | free b =>
      have hle : (bootstrapFree h.pos b.mem b.size).toNat ≤ h.pos.toNat := by
        rw [bootstrapFree]
        split
        · apply le_refl
        · dsimp only
          generalize (if b.size % 16 ≠ 0 then ((b.size >>> 4) + 1) <<< 4 else b.size) = r
          split
          next htop =>
            rw [BitVec.toNat_sub_of_le (BitVec.le_of_lt htop.1)]
            apply Nat.sub_le
          next => apply le_refl
      rw [step]
      dsimp only
      omega

/-- Whatever is asked for, the position stays in the area. -/
theorem Reachable.pos_lt (hreach : Reachable h) :
  h.pos.toNat < bootstrapAllocAreaSize.toNat
  := by
  obtain ⟨ops, -, rfl⟩ := hreach
  have hrun : ∀ {h : State}, h.pos.toNat < bootstrapAllocAreaSize.toNat →
      (final step h ops).pos.toNat < bootstrapAllocAreaSize.toNat := by
    induction ops with
    | nil =>
        intro h hpos
        apply hpos
    | cons op ops ih =>
        intro h hpos
        apply ih (pos_lt_step hpos op)
  apply hrun
  decide

end Reachable

section Nested

variable {h : State} {s : U64} {ops : List Op}

/-- A block that is allocated lies at the position, which moves behind it. -/
theorem step_malloc (hpos : h.pos.toNat < bootstrapAllocAreaSize.toNat)
    (hsize : 1 ≤ s.toNat ∧ s.toNat ≤ bootstrapAllocAreaSize.toNat)
    (hmalloc : bootstrapMalloc h.pos s ≠ none) :
  (step h (.malloc s)).pos.toNat = h.pos.toNat + rounded s
  := by
  have harea : bootstrapAllocAreaSize.toNat = 2 ^ 27 := rfl
  obtain ⟨pos, hpos'⟩ := Option.ne_none_iff_exists'.mp hmalloc
  have hwrap : h.pos.toNat + rounded s < 2 ^ 64 := by
    unfold rounded
    omega
  rw [step, hpos']
  apply (bootstrapMalloc_of_noWrap hwrap hpos').2.1

/-- A block that ends at the position is taken back, unless it is the first one of the area. -/
theorem step_free {h' : State} (hpos : h.pos.toNat < bootstrapAllocAreaSize.toNat)
    (hsize : 1 ≤ s.toNat ∧ s.toNat ≤ bootstrapAllocAreaSize.toNat)
    (hend : h'.pos.toNat = h.pos.toNat + rounded s) :
  (step h' (.free ⟨h.pos, s⟩)).pos = if h.pos = 0 then h'.pos else h.pos
  := by
  have harea : bootstrapAllocAreaSize.toNat = 2 ^ 27 := rfl
  have hround : rounded s < 2 ^ 64 := by
    unfold rounded
    omega
  have hzero : h.pos = 0 ↔ h.pos.toNat = 0 := by
    rw [← BitVec.toNat_inj]
    rfl
  rw [step, bootstrapFree_eq_ite hsize.1 hround]
  dsimp only
  by_cases hstart : h.pos = 0
  · rw [if_pos hstart, if_neg]
    rw [hzero] at hstart
    omega
  · rw [if_neg hstart, if_pos]
    rw [hzero] at hstart
    omega

/-- The position after a block was allocated, other blocks inside were given back, and it was
freed. -/
theorem pos_bracket {inside : List Op} (hpos : h.pos.toNat < bootstrapAllocAreaSize.toNat)
    (hsize : 1 ≤ s.toNat ∧ s.toNat ≤ bootstrapAllocAreaSize.toNat)
    (hmalloc : bootstrapMalloc h.pos s ≠ none)
    (hinside : (step h (.malloc s)).pos ≠ 0 →
      (final step (step h (.malloc s)) inside).pos = (step h (.malloc s)).pos) :
  (step (final step (step h (.malloc s)) inside) (.free ⟨h.pos, s⟩)).pos
    = if h.pos = 0 then (step h (.malloc s)).pos else h.pos
  := by
  have hmoved := step_malloc hpos hsize hmalloc
  have hne : (step h (.malloc s)).pos ≠ 0 := by
    intro hzero
    rw [hzero] at hmoved
    have hround := le_rounded s
    change 0 = _ at hmoved
    omega
  have hback := hinside hne
  rw [step_free hpos hsize (by rw [hback, hmoved]), hback]

/-- A nested run that does not begin at the start of the area gives everything back. -/
theorem Nested.pos_eq (hnested : Nested h ops) (hpos : h.pos.toNat < bootstrapAllocAreaSize.toNat)
    (hne : h.pos ≠ 0) :
  (final step h ops).pos = h.pos
  := by
  induction hnested with
  | nil h => rfl
  | @bracket h s inside after hsize hmalloc _ _ ihinside ihafter =>
      have hfreed := pos_bracket hpos hsize hmalloc (ihinside (pos_lt_step hpos _))
      rw [if_neg hne] at hfreed
      rw [final, final_append, final, ihafter (by rwa [hfreed]) (by rwa [hfreed]), hfreed]

/-- A nested run that begins at the start of the area leaves its first block there. -/
theorem Nested.pos_ne (hnested : Nested h ops) (hpos : h.pos.toNat < bootstrapAllocAreaSize.toNat)
    (hzero : h.pos = 0) (hne : ops ≠ []) :
  (final step h ops).pos ≠ 0
  := by
  cases hnested with
  | nil => apply absurd rfl hne
  | @bracket _ s inside after hsize hmalloc hinside hafter =>
      have hmoved := step_malloc hpos hsize hmalloc
      have hfreed := pos_bracket hpos hsize hmalloc (hinside.pos_eq (pos_lt_step hpos _))
      have hround := le_rounded s
      have hstays : (step h (.malloc s)).pos ≠ 0 := by
        intro heq
        rw [heq] at hmoved
        change 0 = _ at hmoved
        omega
      rw [if_pos hzero] at hfreed
      rw [final, final_append, final, hafter.pos_eq _ (by rwa [hfreed]), hfreed]
      · apply hstays
      · rw [hfreed]
        apply pos_lt_step hpos

end Nested

/-- Properly nested use of the heap takes `bootstrap_alloc_pos` back to where it was just when there
is nothing to give back, or the first block does not lie at the start of the area. -/
theorem nested_restores_iff {h : State} {ops : List Op} (hreach : Reachable h)
    (hnested : Nested h ops) :
  (final step h ops).pos = h.pos ↔ ops = [] ∨ h.pos ≠ 0
  := by
  constructor
  · intro heq
    by_contra hnot
    obtain ⟨hne, hzero⟩ := not_or.mp hnot
    rw [not_not] at hzero
    apply hnested.pos_ne hreach.pos_lt hzero hne
    rw [heq, hzero]
  · rintro (rfl | hne)
    · rfl
    · apply hnested.pos_eq hreach.pos_lt hne

/-- The heap with one block of 8 bytes in use. -/
def oneBlock : State := step init (.malloc 8)

theorem nested_restores_two :
  (final step oneBlock [.malloc 24, .malloc 1, .free ⟨48, 1⟩, .free ⟨16, 24⟩]).pos = oneBlock.pos
  := by
  have hreach : Reachable oneBlock := ⟨[.malloc 8], ⟨trivial, trivial⟩, rfl⟩
  have hinner : Nested (step oneBlock (.malloc 24)) [.malloc 1, .free ⟨48, 1⟩] := by
    apply Nested.bracket (s := 1) (by decide) (by decide) (.nil _) (.nil _)
  have hnested : Nested oneBlock [.malloc 24, .malloc 1, .free ⟨48, 1⟩, .free ⟨16, 24⟩] := by
    apply Nested.bracket (s := 24) (by decide) (by decide) hinner (.nil _)
  apply (nested_restores_iff hreach hnested).mpr
  right
  decide

/-- One byte that is allocated and freed in the empty heap leaves 16 bytes in use. -/
theorem not_nested_restores_first :
  ¬ ∀ (h : State) (ops : List Op), Reachable h → Nested h ops → (final step h ops).pos = h.pos
  := by
  intro h
  have hnested : Nested init [.malloc 1, .free ⟨0, 1⟩] := by
    apply Nested.bracket (s := 1) (by decide) (by decide) (.nil _) (.nil _)
  have heq := h init _ ⟨[], trivial, rfl⟩ hnested
  revert heq
  decide

end Heap
