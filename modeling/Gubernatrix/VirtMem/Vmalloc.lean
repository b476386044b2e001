import Gubernatrix.Lib.Trace
import Gubernatrix.VirtMem.Paging
import Mathlib.Data.Set.Lattice
import Mathlib.Order.CompletePartialOrder
import Mathlib.Order.Interval.Set.Disjoint

/-!
# Virtual ranges of the kernel

`vmem_vmalloc` hands out ranges of virtual addresses from a cursor on, which `vmem_vfree` takes back
if the range is the last one before it. Nothing keeps the cursor from going past the end of the
window that the ranges should lie in.
-/

namespace VirtMem

open Trace

/-- A range of virtual addresses. -/
structure Range where
  virt : U64
  sz : U64
deriving DecidableEq

/-- `vmem_vmalloc`: what it returns, and `kernel_vmalloc` after it. -/
def vmemVmalloc (kernelVmalloc sz : U64) : U64 × U64 := (kernelVmalloc, kernelVmalloc + sz)

/-- `vmem_vfree`: `kernel_vmalloc` after it. -/
def vmemVfree (kernelVmalloc virt sz : U64) : U64 :=
  if virt + sz = kernelVmalloc then kernelVmalloc - sz else kernelVmalloc

/-- The first value of `kernel_vmalloc`. -/
def vmallocBase : U64 := kernPhysmapBaseUc + gib 512

/-- `kernel_vmalloc`, and the ranges that are live. -/
structure Vspace where
  kernelVmalloc : U64
  live : List Range

/-- The kernel at its start. -/
def Vspace.init : Vspace where
  kernelVmalloc := vmallocBase
  live := []

/-- A call. -/
inductive VCall where
  | vmalloc (sz : U64)
  | vfree (virt sz : U64)

/-- The kernel after a call. -/
def Vspace.step (s : Vspace) : VCall → Vspace
  | .vmalloc sz =>
      let (rVal, kernelVmalloc) := vmemVmalloc s.kernelVmalloc sz
      { kernelVmalloc := kernelVmalloc, live := ⟨rVal, sz⟩ :: s.live }
  | .vfree virt sz =>
      { kernelVmalloc := vmemVfree s.kernelVmalloc virt sz, live := s.live.erase ⟨virt, sz⟩ }

/-- A range is given back as it was handed out, while it is live. -/
def Vspace.Passes (s : Vspace) : VCall → Prop
  | .vmalloc _ => True
  | .vfree virt sz => ⟨virt, sz⟩ ∈ s.live

instance (s : Vspace) : ∀ call, Decidable (s.Passes call)
  | .vmalloc _ => .isTrue trivial
  | .vfree _ _ => inferInstanceAs (Decidable (_ ∈ _))

/-- The addresses of a range. -/
def Range.addresses (r : Range) : Set ℕ := Set.Ico r.virt.toNat (r.virt.toNat + r.sz.toNat)

/-- The addresses of the direct maps. -/
def directMaps : Set ℕ := Set.Ico kernPhysmapBase.toNat vmallocBase.toNat

/-- The addresses of the window of the kernel image. -/
def imageWindow : Set ℕ := Set.Ico kernTopBase.toNat (2 ^ 64)

/-- The live ranges are pairwise disjoint, lie in the window, and overlap neither the direct maps
nor the kernel image. -/
structure Vspace.Sound (s : Vspace) : Prop where
  disjoint : s.live.Pairwise fun r r' => Disjoint r.addresses r'.addresses
  inside : ∀ r ∈ s.live, vmallocBase.toNat ≤ r.virt.toNat
    ∧ r.virt.toNat + r.sz.toNat ≤ kernTopBase.toNat
  apart : ∀ r ∈ s.live, Disjoint r.addresses (directMaps ∪ imageWindow)

/-- A range that is asked for ends before the kernel image, if it begins at the cursor. -/
def Vspace.Fits (s : Vspace) : VCall → Prop
  | .vmalloc sz => s.kernelVmalloc.toNat + sz.toNat ≤ kernTopBase.toNat
  | .vfree _ _ => True

instance (s : Vspace) : ∀ call, Decidable (s.Fits call)
  | .vmalloc _ => inferInstanceAs (Decidable (_ ≤ _))
  | .vfree _ _ => .isTrue trivial

/-- What the calls keep: the cursor is in the window, and the ranges that are not empty end before
it. -/
structure Vspace.Stacked (s : Vspace) : Prop extends Vspace.Sound s where
  base_le : vmallocBase.toNat ≤ s.kernelVmalloc.toNat
  le_top : s.kernelVmalloc.toNat ≤ kernTopBase.toNat
  below : ∀ r ∈ s.live, r.sz.toNat ≠ 0 → r.virt.toNat + r.sz.toNat ≤ s.kernelVmalloc.toNat

/-! ### Ranges -/

/-- A range in the window overlaps nothing outside it. -/
theorem disjoint_mapped {r : Range} (hbase : vmallocBase.toNat ≤ r.virt.toNat)
    (htop : r.virt.toNat + r.sz.toNat ≤ kernTopBase.toNat) :
  Disjoint r.addresses (directMaps ∪ imageWindow)
  := by
  rw [Set.disjoint_union_right]
  constructor
  · exact Set.Ico_disjoint_Ico.mpr ((min_le_right _ _).trans (hbase.trans (le_max_left _ _)))
  · exact Set.Ico_disjoint_Ico.mpr ((min_le_left _ _).trans (htop.trans (le_max_right _ _)))

/-- An empty range overlaps nothing, and one that ends before the other begins does not either. -/
theorem disjoint_of_le {r r' : Range}
    (h : r'.sz.toNat ≠ 0 → r'.virt.toNat + r'.sz.toNat ≤ r.virt.toNat) :
  Disjoint r.addresses r'.addresses
  := by
  by_cases hzero : r'.sz.toNat = 0
  · have hempty : r'.addresses = ∅ := by
      rw [Range.addresses, hzero, Nat.add_zero, Set.Ico_self]
    rw [hempty]
    exact Set.disjoint_empty _
  · exact Set.Ico_disjoint_Ico.mpr ((min_le_right _ _).trans ((h hzero).trans (le_max_left _ _)))

/-- Of two disjoint ranges, the one that ends no later ends before the other begins, if it is not
empty. -/
theorem le_of_disjoint {r r' : Range} (h : Disjoint r.addresses r'.addresses)
    (hend : r'.virt.toNat + r'.sz.toNat ≤ r.virt.toNat + r.sz.toNat) (hne : r'.sz.toNat ≠ 0) :
  r'.virt.toNat + r'.sz.toNat ≤ r.virt.toNat
  := by
  by_contra hlt
  -- the last address of the one is also in the other
  have hlast : r'.virt.toNat + r'.sz.toNat - 1 ∈ r.addresses := by
    rw [Range.addresses, Set.mem_Ico]
    omega
  have hlast' : r'.virt.toNat + r'.sz.toNat - 1 ∈ r'.addresses := by
    rw [Range.addresses, Set.mem_Ico]
    omega
  exact Set.disjoint_left.mp h hlast hlast'

/-! ### Calls -/

section Calls

variable {s : Vspace}

theorem stacked_init :
  Vspace.init.Stacked
  := by
  constructor
  · constructor
    · exact List.Pairwise.nil
    · exact List.forall_mem_nil _
    · exact List.forall_mem_nil _
  · rfl
  · decide
  · exact List.forall_mem_nil _

theorem Vspace.Stacked.vmalloc (h : s.Stacked) {sz : U64} (hfits : s.Fits (.vmalloc sz)) :
  (s.step (.vmalloc sz)).Stacked
  := by
  have htop := kernTopBase.isLt
  have hfits' : s.kernelVmalloc.toNat + sz.toNat ≤ kernTopBase.toNat := hfits
  have hcursor : (s.kernelVmalloc + sz).toNat = s.kernelVmalloc.toNat + sz.toNat := by
    rw [BitVec.toNat_add]
    omega
  constructor
  · constructor
    · rw [Vspace.step, List.pairwise_cons]
      use fun r hr => disjoint_of_le (h.below r hr), h.disjoint
    · rw [Vspace.step, List.forall_mem_cons]
      use ⟨h.base_le, hfits'⟩, h.inside
    · rw [Vspace.step, List.forall_mem_cons]
      use disjoint_mapped h.base_le hfits', h.apart
  · change _ ≤ (s.kernelVmalloc + sz).toNat
    rw [hcursor]
    exact h.base_le.trans (Nat.le_add_right _ _)
  · change (s.kernelVmalloc + sz).toNat ≤ _
    rwa [hcursor]
  · change ∀ r ∈ Range.mk s.kernelVmalloc sz :: s.live, r.sz.toNat ≠ 0 →
      r.virt.toNat + r.sz.toNat ≤ (s.kernelVmalloc + sz).toNat
    rw [hcursor, List.forall_mem_cons]
    constructor
    · intro _
      exact le_refl _
    · intro r hr hne
      exact (h.below r hr hne).trans (Nat.le_add_right _ _)

theorem Vspace.Stacked.vfree (h : s.Stacked) {virt sz : U64} (hmem : ⟨virt, sz⟩ ∈ s.live) :
  (s.step (.vfree virt sz)).Stacked
  := by
  have hsub : ∀ r ∈ s.live.erase ⟨virt, sz⟩, r ∈ s.live := fun r hr => List.mem_of_mem_erase hr
  have hsound : (s.step (.vfree virt sz)).Sound :=
    ⟨h.disjoint.sublist List.erase_sublist, fun r hr => h.inside r (hsub r hr),
      fun r hr => h.apart r (hsub r hr)⟩
  by_cases hlast : virt + sz = s.kernelVmalloc
  · have hcursor : vmemVfree s.kernelVmalloc virt sz = virt := by
      rw [vmemVfree, if_pos hlast, ← hlast, BitVec.add_sub_cancel]
    obtain ⟨hbase, htop⟩ := h.inside _ hmem
    have hend : virt.toNat + sz.toNat = s.kernelVmalloc.toNat := by
      have hlt := kernTopBase.isLt
      rw [← hlast, BitVec.toNat_add]
      dsimp only at htop
      omega
    have hpairs : (Range.mk virt sz :: s.live.erase ⟨virt, sz⟩).Pairwise
        fun r r' => Disjoint r.addresses r'.addresses :=
      ((List.perm_cons_erase hmem).pairwise_iff fun h => Disjoint.symm h).mp h.disjoint
    refine ⟨hsound, ?_, ?_, ?_⟩
    · rw [Vspace.step, hcursor]
      exact hbase
    · rw [Vspace.step, hcursor]
      exact (Nat.le_add_right _ _).trans htop
    · rw [Vspace.step, hcursor]
      intro r hr hne
      have hle := h.below r (hsub r hr) hne
      rw [← hend] at hle
      exact le_of_disjoint (List.rel_of_pairwise_cons hpairs hr) hle hne
  · have hcursor : vmemVfree s.kernelVmalloc virt sz = s.kernelVmalloc := by
      rw [vmemVfree, if_neg hlast]
    refine ⟨hsound, ?_, ?_, ?_⟩
    · rw [Vspace.step, hcursor]
      exact h.base_le
    · rw [Vspace.step, hcursor]
      exact h.le_top
    · rw [Vspace.step, hcursor]
      intro r hr
      exact h.below r (hsub r hr)

/-- A range that does not fit is not in the window. -/
theorem not_sound_of_not_fits {call : VCall} (h : ¬ s.Fits call) :
  ¬ (s.step call).Sound
  := by
  intro hsound
  apply h
  cases call with
  | vmalloc sz => exact (hsound.inside _ List.mem_cons_self).2
  | vfree virt sz => trivial

end Calls

/-- In every sequence of calls that give back live ranges, the live ranges are disjoint and in the
window all along if and only if each range that is asked for ends before the kernel image. -/
theorem always_sound_iff {calls : List VCall}
    (hpasses : Each Vspace.step Vspace.Passes Vspace.init calls) :
  Always Vspace.step Vspace.Sound Vspace.init calls
    ↔ Each Vspace.step Vspace.Fits Vspace.init calls
  := by
  have hkept : ∀ {s : Vspace} {call : VCall}, s.Stacked → s.Passes call → s.Fits call →
      (s.step call).Stacked := by
    intro s call h hpass hfits
    cases call with
    | vmalloc sz => exact h.vmalloc hfits
    | vfree virt sz => exact h.vfree hpass
  exact always_iff_each (fun h => h.toSound) hkept (fun _ _ hnot => not_sound_of_not_fits hnot)
    stacked_init hpasses

/-- Two ranges, of which the first is given back first, and stays lost. -/
theorem always_sound_twoRanges :
  Always Vspace.step Vspace.Sound Vspace.init
    [.vmalloc (kib 4), .vmalloc (kib 8), .vfree vmallocBase (kib 4), .vmalloc (kib 4)]
  := (always_sound_iff (by decide)).mpr (by decide)

/-- A range of 128 TiB goes beyond the kernel image. -/
theorem not_always_sound_128TiB :
  Each Vspace.step Vspace.Passes Vspace.init [.vmalloc (gib 0x20000)]
    ∧ ¬ Always Vspace.step Vspace.Sound Vspace.init [.vmalloc (gib 0x20000)]
  := by
  refine ⟨⟨trivial, trivial⟩, ?_⟩
  rintro ⟨-, h⟩
  have htop := (h.inside _ List.mem_cons_self).2
  revert htop
  decide

end VirtMem
