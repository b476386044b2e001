import Gubernatrix.VirtMem.DirectMap

/-!
# Unmapping

`vmem_unmap` clears the size that it is called with before it uses it. It succeeds, and changes no
tree.
-/

namespace VirtMem

open Program Radix PhysMem

/-- After a call of `vmem_unmap`, nothing is mapped in the range, and all else as before. -/
structure Unmapped (s : Vmem) (r : TablePtr) (virt size : U64) (s' : Vmem) : Prop where
  none : ∀ o < size, s'.walk 4 r (virt + o) = none
  other : ∀ r' ∈ roots, ∀ a, (r' = r → ∀ o < size, a ≠ virt + o) →
    s'.walk 4 r' a = s.walk 4 r' a

theorem Synced.ktable {core : ℕ} {s : Vmem} (h : Synced s core) :
  s.ktable core ≠ none
  := by
  obtain ⟨lcl, v, hlcl, hreach, -⟩ := h
  rw [Vmem.ktable, hlcl, Option.bind_some, hreach]
  apply Option.some_ne_none

section Unmap

variable {core : ℕ} {vm : Option ℕ} {virt : U64} {s s' : Vmem} {r : TablePtr}

/-- Walks depend on the trees only. -/
theorem WfCore.walk_of_look (hwf : WfCore s) (hwf' : WfCore s') {r : TablePtr} (hr : r ∈ roots)
    (h : ∀ p, s'.look r p = s.look r p) (a : U64) :
  s'.walk 4 r a = s.walk 4 r a
  := by
  by_cases hin : InTable r (index a 0)
  · rw [hwf'.walk_root hr hin, hwf.walk_root hr hin, h]
  · rw [Vmem.walk, Vmem.walk, if_neg hin, if_neg hin]

/-- What `vmem_unmap` does on a core that was set up. -/
theorem vmemUnmap_run (fuel : ℕ) (size : U64) (hroot : rootOf vm virt = some r)
    (hcore : virt.slt 0 = true → s.ktable core ≠ none) :
  ∃ s', vmemUnmap fuel core vm virt size s = .ok .errNone s'
    ∧ (s' = s ∨ ∃ t, s.ktable core = some t ∧ s' = s.copy upperHalf t .kmem)
  := by
  have hunmap : vmemUnmapSt fuel 0 r virt 0 s = .ok .errNone s := by
    rw [vmemUnmapSt.eq_def]
    rfl
  rw [vmemUnmap, hroot]
  dsimp only
  rw [bind_of_ok hunmap]
  by_cases hkernel : virt.slt 0 = true
  · rw [if_pos hkernel]
    rcases copyKmem_cases s core with ⟨t, ht, hrun⟩ | ⟨hlcl, -⟩ | ⟨lcl, -, hlcl, hreach, -⟩
    · rw [bind_of_ok hrun]
      use s.copy upperHalf t .kmem, rfl
      right
      use t, ht
    · apply absurd _ (hcore hkernel)
      rw [Vmem.ktable, hlcl]
      rfl
    · apply absurd _ (hcore hkernel)
      rw [Vmem.ktable, hlcl, Option.bind_some, hreach]
      rfl
  · rw [if_neg hkernel]
    use s, rfl
    left
    rfl

/-- `vmem_unmap` leaves the walks as they are. -/
theorem Wf.walk_vmemUnmap (hwf : Wf s) (fuel : ℕ) (size : U64) (hroot : rootOf vm virt = some r)
    (hcore : virt.slt 0 = true → s.ktable core ≠ none) :
  ∃ s', vmemUnmap fuel core vm virt size s = .ok .errNone s'
    ∧ ∀ r' ∈ roots, ∀ a, s'.walk 4 r' a = s.walk 4 r' a
  := by
  obtain ⟨s', hrun, rfl | ⟨t, ht, rfl⟩⟩ := vmemUnmap_run fuel size hroot hcore
  · exact ⟨_, hrun, fun _ _ _ => rfl⟩
  · obtain ⟨hwf', -, hlook⟩ := hwf.copy_ktable ht upperHalf .kmem
    use s.copy upperHalf t .kmem, hrun
    intro r' hr' a
    apply hwf.walk_of_look hwf'.toWfCore hr'
    apply hlook r' hr'

end Unmap

/-- On a core that was set up, `vmem_unmap` unmaps a range that is mapped, and nothing else, just
when the range is empty. -/
theorem unmapped_iff {fuel core : ℕ} {vm : Option ℕ} {virt size : U64} {s : Vmem} {r : TablePtr}
    (hwf : Wf s) (hroot : rootOf vm virt = some r)
    (hcore : virt.slt 0 = true → s.ktable core ≠ none)
    (hmapped : ∀ o < size, s.walk 4 r (virt + o) ≠ none) :
  (∀ s', vmemUnmap fuel core vm virt size s = .ok .errNone s' → Unmapped s r virt size s')
    ↔ size = 0
  := by
  obtain ⟨s', hrun, hwalk⟩ := hwf.walk_vmemUnmap fuel size hroot hcore
  constructor
  · intro h
    by_contra hne
    have hpos : 0 < size := Nat.pos_of_ne_zero fun h => hne (BitVec.eq_of_toNat_eq h)
    apply hmapped 0 hpos
    rw [← hwalk r (rootOf_mem hroot)]
    apply (h s' hrun).none 0 hpos
  · rintro rfl s'' hrun'
    rw [hrun] at hrun'
    cases hrun'
    constructor
    · intro o ho
      apply absurd ho (BitVec.not_lt_zero)
    · intro r' hr' a _
      apply hwalk r' hr'

/-- Unmapping an empty range. -/
theorem unmapped_nothing :
  ∃ s, Wf s ∧ ∀ s', vmemUnmap 0 0 none kernTopBase 0 s = .ok .errNone s' →
    Unmapped s .kmem kernTopBase 0 s'
  := by
  obtain ⟨s, -, -, -, hwf, -, hsync⟩ := exists_built_bootVmem
  use s, hwf
  apply (unmapped_iff hwf rfl _ _).mpr rfl
  · intro _
    apply hsync.ktable
  · intro o ho
    apply absurd ho BitVec.not_lt_zero

/-- After `vmem_init`, unmapping the page at `KERN_TOP_BASE` leaves it mapped. -/
theorem not_unmapped_top :
  ¬ ∀ (fuel core : ℕ) (vm : Option ℕ) (virt size : U64) (s s' : Vmem) (r : TablePtr),
    Built s → FreshPages s.hist → rootOf vm virt = some r → 4096 ∣ virt.toNat →
    4096 ∣ size.toNat → (∀ o < size, s.walk 4 r (virt + o) ≠ none) →
    vmemUnmap fuel core vm virt size s = .ok .errNone s' → Unmapped s r virt size s'
  := by
  intro h
  obtain ⟨s, -, hbuilt, hfresh, hwf, hwindows, hsync⟩ := exists_built_bootVmem
  have hmapped : ∀ o < kib 4, s.walk 4 .kmem (kernTopBase + o) ≠ none := by
    intro o ho
    rw [hwindows.top o (BitVec.lt_trans ho (by decide))]
    apply Option.some_ne_none
  obtain ⟨s', hunmap, hwalk⟩ := hwf.walk_vmemUnmap 0 (kib 4)
    (show rootOf none kernTopBase = _ from rfl)
    fun _ => hsync.ktable
  have hunmapped := h 0 0 none kernTopBase (kib 4) s s' .kmem hbuilt hfresh
    rfl (by decide) (by decide) hmapped hunmap
  apply hmapped 0 (by decide)
  rw [← hwalk .kmem root_kmem]
  apply hunmapped.none 0 (by decide)

end VirtMem
