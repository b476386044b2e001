import Gubernatrix.VirtMem.Disturb

/-!
# Requests that fail

A request that fails stays where it was stopped: the pages before the one that was in the way are
written, and nothing undoes them. No translation has changed just when those pages translate as
was translated before.
-/

namespace VirtMem

open Program Radix PhysMem PageMap

/-- The physical address for an address. -/
def Vmem.translate (s : Vmem) (r : TablePtr) (a : U64) : Option U64 :=
  (s.walk 4 r a).map Access.phys

/-- Every address has the physical address that it had. -/
def SameTranslations (s s' : Vmem) : Prop :=
  ∀ r ∈ roots, ∀ a, s'.translate r a = s.translate r a

/-- The pages to which a request comes give their addresses the physical addresses that they have,
and all addresses of the large pages in whose places tables come are in such pages. -/
structure Idle (s : Vmem) (r : TablePtr) (virt phys size : U64) (perms : BitVec 32) : Prop where
  pages : ∀ d, Reached (s.look r) (pagesOf s virt phys size).1 d → ∀ a, InTable r (index a 0) →
    d.path <+: pathTo a 4 → s.translate r a = some (leafAccess a d.level (d.entry perms)).phys
  lost : ∀ a, InTable r (index a 0) → s.Loses r virt phys size a →
    ∃ d, Reached (s.look r) (pagesOf s virt phys size).1 d ∧ d.path <+: pathTo a 4

section Failed

variable {perms : BitVec 32} {core : ℕ} {s s' : Vmem} {vm : Option ℕ} {r : TablePtr}
  {virt phys size : U64} {ret : VmemErrs}

theorem translate_of_not_inTable {a : U64} (h : ¬ InTable r (index a 0)) :
  s.translate r a = none
  := by
  rw [Vmem.translate, Vmem.walk, if_neg h]
  rfl

/-- Where a request loses a large page, the address was mapped. -/
theorem WfCore.translate_of_loses (hwf : WfCore s) (hr : r ∈ roots) {a : U64}
    (hin : InTable r (index a 0)) (h : s.Loses r virt phys size a) :
  s.translate r a ≠ none
  := by
  obtain ⟨d, k, -, ⟨e, he, -⟩, hpre⟩ := h
  obtain ⟨-, hbelow⟩ := hwf.leafy hr _ _ _ he
  rw [Vmem.translate, hwf.walk_root hr hin, hbelow _ hpre]
  apply Option.some_ne_none

section Outcome

variable (hwf : Wf s) (hr : r ∈ roots)
  (hrequested : Requested perms core s r virt phys size ret s')

include hwf hr hrequested

theorem Requested.translate_page {d : Page}
    (hd : Reached (s.look r) (pagesOf s virt phys size).1 d) {a : U64}
    (hin : InTable r (index a 0)) (hpre : d.path <+: pathTo a 4) :
  s'.translate r a = some (leafAccess a d.level (d.entry perms)).phys
  := by
  have hgains : s.Gains r virt phys size perms a (leafAccess a d.level (d.entry perms)) :=
    ⟨d, hd, hpre, rfl⟩
  rw [Vmem.translate, hrequested.walk_gains hwf hr hin hgains]
  rfl

theorem Requested.translate_kept {a : U64} (hin : InTable r (index a 0))
    (hout : ∀ d, Reached (s.look r) (pagesOf s virt phys size).1 d → ¬ d.path <+: pathTo a 4)
    (hloses : ¬ s.Loses r virt phys size a) :
  s'.translate r a = s.translate r a
  := by
  rw [Vmem.translate, Vmem.translate, hrequested.wf.walk_root hr hin, hwf.walk_root hr hin,
    (hrequested.outcome hwf hr).1.kept _ hout hloses]

/-- An idle request changes no translation. -/
theorem Requested.same_of_idle (hidle : Idle s r virt phys size perms) :
  SameTranslations s s'
  := by
  intro r' hr' a
  by_cases hin : InTable r' (index a 0)
  · by_cases hrr : r' = r
    · subst hrr
      by_cases hpage : ∃ d, Reached (s.look r') (pagesOf s virt phys size).1 d
          ∧ d.path <+: pathTo a 4
      · obtain ⟨d, hd, hpre⟩ := hpage
        rw [hrequested.translate_page hwf hr hd hin hpre, hidle.pages d hd a hin hpre]
      · apply hrequested.translate_kept hwf hr hin
        · intro d hd hpre
          apply hpage ⟨d, hd, hpre⟩
        · intro hloses
          apply hpage (hidle.lost a hin hloses)
    · rw [Vmem.translate, Vmem.translate, hrequested.wf.walk_root hr' hin,
        hrequested.other r' hr' hrr, hwf.walk_root hr' hin]
  · rw [translate_of_not_inTable hin, translate_of_not_inTable hin]

/-- A request that changes no translation is idle. -/
theorem Requested.idle_of_same (h : SameTranslations s s') :
  Idle s r virt phys size perms
  := by
  constructor
  · intro d hd a hin hpre
    rw [← h r hr, hrequested.translate_page hwf hr hd hin hpre]
  · intro a hin hloses
    have hsome := hwf.translate_of_loses hr hin hloses
    rw [← h r hr, Vmem.translate, ne_eq, Option.map_eq_none_iff] at hsome
    obtain ⟨acc, hacc⟩ := Option.ne_none_iff_exists'.mp hsome
    obtain ⟨d, hd, hpre, -⟩ := hrequested.gains_of_loses hwf hr hloses hacc
    exact ⟨d, hd, hpre⟩

end Outcome

end Failed

/-- A call of `vmem_map` that returns, whatever it returns, leaves all translations as they were
just when the pages to which it comes before the first that has something in its way give their
addresses the physical addresses that these have, as do they to the addresses of each large page
with address zero in whose place a table comes. -/
theorem same_translations_iff {perms : BitVec 32} {core : ℕ} {s s' : Vmem} {vm : Option ℕ}
    {virt phys size : U64} {ret : VmemErrs} (hbuilt : Built s) (hsize : 4096 ∣ size.toNat)
    (hrun : vmemMap core vm virt phys size perms s = .ok ret s') (hfresh : FreshPages s'.hist) :
  SameTranslations s s' ↔ ∀ r, rootOf vm virt = some r → Idle s r virt phys size perms
  := by
  have hwf : Wf s := hbuilt.wf (hfresh.of_suffix (steady_vmemMap hrun).hist)
  obtain ⟨r, hroot, hrequested⟩ := hwf.requested hsize hrun hfresh
  have hr := rootOf_mem hroot
  constructor
  · intro h r' hroot'
    obtain rfl : r' = r := Option.some.inj (hroot'.symm.trans hroot)
    apply hrequested.idle_of_same hwf hr h
  · intro h
    apply hrequested.same_of_idle hwf hr (h r hroot)

/-- The allocations for four tables in `vmem_init`. -/
def fourPages : List (Option U64) := [some 0x103000, some 0x102000, some 0x101000, some 0x100000]

theorem freshPages_of_fourPages {hist : List Effect} (h : allocs hist = fourPages) :
  FreshPages hist
  := by
  apply LowPages.toFreshPages
  apply LowPages.of_allocs h (by decide)
  simp [fourPages, IsPage]

/-- In this state, the call for the request finds a page in its way. -/
def FindsMapped (virt phys size : U64) (s : Vmem) : Prop :=
  Returns (fun ret s' => ret = .errAlreadymapped ∧ allocs s'.hist = fourPages)
    (vmemMap 0 none virt phys size 0 s)

instance (virt phys size : U64) (s : Vmem) : Decidable (FindsMapped virt phys size s) :=
  inferInstanceAs (Decidable (Returns _ _))

/-- With pages of 1 GiB, there is a table for the last 512 GiB after `vmem_init`: the pages at
`KERN_TOP_BASE` are its last ones, and the one before is empty. A request for the second of these
pages fails, and so does one for the page before and the first of them. -/
theorem init_then_fails :
  ∃ u s, vmemInit 0 true 0x1000 bootVmem = .ok u s
    ∧ (s.hugepage = true ∧ (s.node .kmem [511]).map (fun t => s.tables t 509) = some 0
      ∧ s.look .kmem [511, 511] = some (1, leafEntry (gib 1) topPerms 1))
    ∧ FindsMapped (kernTopBase + gib 1) 0 (gib 1) s
    ∧ FindsMapped (kernTopBase - gib 1) (gib 1) (gib 2) s
  := exists_of_returns _ _ (by decide +kernel)

theorem slots_kernTopBase :
  ∃ u s, vmemInit 0 true 0x1000 bootVmem = .ok u s ∧ s.hugepage = true
    ∧ (s.node .kmem [511]).map (fun t => s.tables t 509) = some 0
    ∧ s.look .kmem [511, 511] = some (1, leafEntry (gib 1) topPerms 1)
  := by
  obtain ⟨u, s, hrun, hslots, -⟩ := init_then_fails
  exact ⟨u, s, hrun, hslots⟩

/-- The call for the request, after `vmem_init`, finds a page in its way. -/
def FailsAfterInit (virt phys size : U64) : Prop :=
  ∃ ret s', initThenMap virt phys size bootVmem = .ok ret s'
    ∧ ret = .errAlreadymapped ∧ allocs s'.hist = fourPages

/-- A request for the second page at `KERN_TOP_BASE`. -/
theorem fails_second :
  FailsAfterInit (kernTopBase + gib 1) 0 (gib 1)
  := by
  obtain ⟨u, s, hrun, -, hfails, -⟩ := init_then_fails
  rw [FailsAfterInit, initThenMap, bind_of_ok hrun]
  exact exists_of_returns _ _ hfails

/-- A request for two pages, of which the second is the first page at `KERN_TOP_BASE`. -/
theorem fails_before :
  FailsAfterInit (kernTopBase - gib 1) (gib 1) (gib 2)
  := by
  obtain ⟨u, s, hrun, -, -, hfails⟩ := init_then_fails
  rw [FailsAfterInit, initThenMap, bind_of_ok hrun]
  exact exists_of_returns _ _ hfails

theorem pages_second :
  (mapPlan true 4 [] (kernTopBase + gib 1) 0 (gib 1)).1 = [⟨[511, 511], kernTopBase + gib 1, 0⟩]
  := rfl

theorem pages_before :
  (mapPlan true 4 [] (kernTopBase - gib 1) (gib 1) (gib 2)).1
    = [⟨[511, 509], kernTopBase - gib 1, gib 1⟩, ⟨[511, 510], kernTopBase, gib 2⟩]
  := rfl

theorem rootOf_of_slt {virt : U64} (vm : Option ℕ) (h : virt.slt 0 = true) :
  rootOf vm virt = some .kmem
  := if_pos h

theorem FailsAfterInit.run {s : Vmem} {virt phys size : U64}
    (h : FailsAfterInit virt phys size) (hrun : vmemInit 0 true 0x1000 bootVmem = .ok ⟨⟩ s) :
  ∃ s', vmemMap 0 none virt phys size 0 s = .ok .errAlreadymapped s' ∧ FreshPages s'.hist
  := by
  obtain ⟨ret, s', hmap, rfl, hallocs⟩ := h
  rw [initThenMap, bind_of_ok hrun] at hmap
  exact ⟨s', hmap, freshPages_of_fourPages hallocs⟩

theorem slots_after_init {s : Vmem} (hrun : vmemInit 0 true 0x1000 bootVmem = .ok ⟨⟩ s) :
  s.hugepage = true ∧ (s.node .kmem [511]).map (fun t => s.tables t 509) = some 0
    ∧ s.look .kmem [511, 511] = some (1, leafEntry (gib 1) topPerms 1)
  := by
  obtain ⟨u, s', hrun', hslots⟩ := slots_kernTopBase
  rw [hrun] at hrun'
  cases hrun'
  apply hslots

/-- A request for a page that is mapped. -/
theorem same_translations_second :
  ∃ s s', Built s
    ∧ vmemMap 0 none (kernTopBase + gib 1) 0 (gib 1) 0 s = .ok .errAlreadymapped s'
    ∧ SameTranslations s s'
  := by
  obtain ⟨s, hrun, hbuilt, -⟩ := exists_built_bootVmem
  obtain ⟨s', hmap, hfresh⟩ := fails_second.run hrun
  obtain ⟨hhuge, -, hlook⟩ := slots_after_init hrun
  refine ⟨s, s', hbuilt, hmap, (same_translations_iff hbuilt (by decide) hmap hfresh).mpr ?_⟩
  intro r hroot
  obtain rfl := Option.some.inj ((rootOf_of_slt none (by decide)).symm.trans hroot)
  have hnone : ∀ d, ¬ Reached (s.look .kmem)
      (pagesOf s (kernTopBase + gib 1) 0 (gib 1)).1 d := by
    intro d hd
    rw [pagesOf, hhuge, pages_second] at hd
    apply hd.1
    constructor
    · intro hfree
      rw [hfree _ (List.prefix_refl _)] at hlook
      cases hlook
    · rintro k ⟨e, he, hk, -⟩
      rw [hlook] at he
      cases he
      apply absurd hk (by decide)
  constructor
  · intro d hd
    apply absurd hd (hnone d)
  · rintro a - ⟨d, k, hd, -⟩
    apply absurd hd (hnone d)

/-- After `vmem_init`, a request for two pages that runs into `KERN_TOP_BASE` fails and leaves its
first page mapped. -/
theorem not_same_translations_before :
  ¬ ∀ (core : ℕ) (vm : Option ℕ) (virt phys size : U64) (perms : BitVec 32) (ret : VmemErrs)
    (s s' : Vmem), Built s → 4096 ∣ virt.toNat → 4096 ∣ phys.toNat → 4096 ∣ size.toNat →
    vmemMap core vm virt phys size perms s = .ok ret s' → FreshPages s'.hist → ret ≠ .errNone →
    SameTranslations s s'
  := by
  intro h
  obtain ⟨s, hrun, hbuilt, -, hwf, -⟩ := exists_built_bootVmem
  obtain ⟨s', hmap, hfresh⟩ := fails_before.run hrun
  obtain ⟨hhuge, hslot, -⟩ := slots_after_init hrun
  obtain ⟨t, ht, hempty⟩ := Option.map_eq_some_iff.mp hslot
  have hfree : Free (s.look .kmem) [511, 509] := free_of_empty ht hempty
  have hsame := h 0 none (kernTopBase - gib 1) (gib 1) (gib 2) 0 .errAlreadymapped s s' hbuilt
    (by decide) (by decide) (by decide) hmap hfresh (by decide)
  obtain ⟨r, hroot, hrequested⟩ := hwf.requested (by decide) hmap hfresh
  obtain rfl := Option.some.inj ((rootOf_of_slt none (by decide)).symm.trans hroot)
  have hreached : Reached (s.look .kmem) (pagesOf s (kernTopBase - gib 1) (gib 1) (gib 2)).1
      ⟨[511, 509], kernTopBase - gib 1, gib 1⟩ := by
    rw [pagesOf, hhuge, pages_before]
    use fun hblocked => hblocked.1 hfree
    left
    rfl
  have hin : InTable .kmem (index (kernTopBase - gib 1) 0) := by decide
  have hpre : [511, 509] <+: pathTo (kernTopBase - gib 1) 4 := by decide
  have hbefore := (hrequested.idle_of_same hwf root_kmem hsame).pages _ hreached _ hin hpre
  rw [Vmem.translate, hwf.walk_root root_kmem hin, hfree _ hpre] at hbefore
  cases hbefore

end VirtMem
