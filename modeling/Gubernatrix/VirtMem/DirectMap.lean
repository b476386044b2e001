import Gubernatrix.VirtMem.Built

/-!
# The direct map

`vmem_init` maps the physical memory at three places: 2 GiB of it at `KERN_TOP_BASE`, and 256 GiB
of it at `KERN_PHYSMAP_BASE` and, uncached, at `KERN_PHYSMAP_BASE_UC`. There `vmem_phystovirt`
and `vmem_virttophys` are inverse to each other.
-/

namespace VirtMem

open Program Radix PhysMem

/-! ### Requests of whole windows -/

/-- A request at an address in the kernel half of which all pages are on boundaries of their
sizes. -/
structure Window (virt size : U64) : Prop where
  virt_dvd : span 1 ∣ virt.toNat
  size_dvd : 4096 ∣ size.toNat
  pos : 0 < size.toNat
  low : 2 ^ 64 - 2 ^ 47 ≤ virt.toNat
  high : virt.toNat + size.toNat ≤ 2 ^ 64
  small : size.toNat ≤ 2 ^ 38

theorem window_top :
  Window kernTopBase (gib 2)
  := ⟨by decide, by decide, by decide, by decide, by decide, by decide⟩

theorem window_physmap :
  Window kernPhysmapBase (gib 256)
  := ⟨by decide, by decide, by decide, by decide, by decide, by decide⟩

theorem window_physmapUc :
  Window kernPhysmapBaseUc (gib 256)
  := ⟨by decide, by decide, by decide, by decide, by decide, by decide⟩

section Request

variable {virt size : U64} {core : ℕ} {s s' : Vmem} {perms : BitVec 32} {ret : VmemErrs}

theorem Window.negative (h : Window virt size) :
  virt.slt 0 = true
  := by
  have := h.low
  rw [slt_zero_iff]
  omega

theorem Window.proper (h : Window virt size) :
  Proper none .kmem virt 0 size
  where
  root := if_pos h.negative
  virt_page := (page_dvd_span 1).trans h.virt_dvd
  phys_page := dvd_zero _
  size_page := h.size_dvd
  pos := h.pos
  half := .inr ⟨h.low, h.high⟩

theorem Window.fits (h : Window virt size) (hugepage : Bool) :
  Fits hugepage virt.toNat size.toNat
  := by
  have hlarge : span 2 ∣ virt.toNat := (span_dvd_span (by decide) (by decide)).trans h.virt_dvd
  exact ⟨fun _ _ => h.virt_dvd, fun _ _ => hlarge, fun _ => hlarge, fun _ => h.virt_dvd⟩

/-- The pages of a request of physical addresses from 0 on have addresses. -/
theorem Window.addresses (h : Window virt size)
    (htiles : Tiles s.hugepage virt 0 size.toNat (pagesOf s virt 0 size).1) :
  ∀ d ∈ (pagesOf s virt 0 size).1, d.phys.toNat < 2 ^ 52
  := by
  intro d hd
  obtain ⟨lv, o, htile⟩ := htiles.tile hd
  have hbound := htile.bound
  have hsmall := h.small
  rw [htile.phys, zero_add, BitVec.toNat_ofNat]
  omega

/-- A window that was not mapped before is mapped afterwards, and other addresses are as
before. -/
theorem Wf.window (hwf : Wf s) (h : Window virt size)
    (hfree : ∀ o < size, s.walk 4 .kmem (virt + o) = none)
    (hrun : vmemMap core none virt 0 size perms s = .ok ret s') (hfresh : FreshPages s'.hist) :
  (∀ o < size, s'.walk 4 .kmem (virt + o) = some (wanted 0 perms o))
    ∧ ∀ a, OfRoot .kmem a → (∀ o < size, a ≠ virt + o) → s'.walk 4 .kmem a = s.walk 4 .kmem a
  := by
  obtain ⟨r, hroot, hrequested⟩ := hwf.requested h.size_dvd hrun hfresh
  obtain rfl := Option.some.inj (h.proper.root.symm.trans hroot)
  obtain ⟨htiles, -⟩ := h.proper.tiles (h.fits s.hugepage)
  obtain ⟨-, hmet⟩ := hwf.met h.proper hfree (h.fits s.hugepage) hrequested
  constructor
  · intro o ho
    apply h.proper.walk hrequested.wf.toWfCore hmet.pages htiles (h.addresses htiles) ho
  · intro a ha hout
    exact hrequested.walk_other hwf.toWfCore hmet h.proper htiles ha fun _ => hout

end Request

/-! ### The windows of `vmem_init` -/

/-- Different windows have no address in common. -/
theorem window_ne {virt virt' size size' o o' : U64} (ho : o < size) (ho' : o' < size')
    (h : virt.toNat + size.toNat ≤ virt'.toNat) (h' : virt'.toNat + size'.toNat ≤ 2 ^ 64) :
  virt + o ≠ virt' + o'
  := by
  intro heq
  have hnat := congrArg BitVec.toNat heq
  rw [BitVec.lt_def] at ho ho'
  rw [BitVec.toNat_add, BitVec.toNat_add] at hnat
  have := virt'.isLt
  omega

/-- The three windows, one after the other. -/
theorem window_order :
  kernPhysmapBase.toNat + (gib 256).toNat ≤ kernPhysmapBaseUc.toNat
    ∧ kernPhysmapBaseUc.toNat + (gib 256).toNat ≤ kernTopBase.toNat
  := by decide

section Init

variable {core : ℕ} {cpuHugepage : Bool} {curPtable : U64} {s s' : Vmem}

/-- What is mapped in the windows. -/
structure Windows (s : Vmem) : Prop where
  top : ∀ o < gib 2, s.walk 4 .kmem (kernTopBase + o) = some (wanted 0 topPerms o)
  physmap : ∀ o < gib 256, s.walk 4 .kmem (kernPhysmapBase + o) = some (wanted 0 physmapPerms o)
  physmapUc : ∀ o < gib 256,
    s.walk 4 .kmem (kernPhysmapBaseUc + o) = some (wanted 0 physmapUcPerms o)

theorem Window.ofRoot {virt size : U64} (h : Window virt size) {o : U64} (ho : o < size) :
  OfRoot .kmem (virt + o)
  := by
  have := h.proper.ofRoot (o := o.toNat) ho
  rwa [BitVec.ofNat_toNat, BitVec.setWidth_eq] at this

/-- The direct map of 256 GiB leaves the walks as they are. -/
theorem Wf.walk_withPhysMap (hwf : Wf s) {a : U64} (ha : OfRoot .kmem a) :
  s.withPhysMap.walk 4 .kmem a = s.walk 4 .kmem a
  := by
  obtain ⟨hwf', -, hlook⟩ := hwf.withPhysMap
  rw [hwf'.walk_root root_kmem ha.inTable, hwf.walk_root root_kmem ha.inTable, hlook _ root_kmem]

/-- Nothing is mapped before the first request. -/
theorem walk_start (pmem : Pmem) (a v x : U64) :
  (s.start cpuHugepage pmem core a v).walk 4 .kmem x = none
  := by
  have hzero : ∀ i, (s.start cpuHugepage pmem core a v).tables .kmem i = 0 := by
    intro i
    rw [Vmem.start, Vmem.tables_wipe, Function.update_self]
  rw [Vmem.walk]
  dsimp only
  rw [hzero, isLeaf_zero, if_neg Bool.false_ne_true, link_zero, Option.bind_none, ite_self]

/-- After `vmem_init` its windows are mapped. -/
theorem InitRun.windows (hboot : Boot s) {pmem : Pmem} {a v : U64} {s₂ s₃ : Vmem}
    (h : InitRun core cpuHugepage s pmem a v s₂ s₃ s') (hfresh : FreshPages s'.hist) :
  Windows s'
  := by
  obtain ⟨hwf₁, hwf₂', hwf₃, -, hfresh₂, hfresh₃⟩ := h.wf hboot hfresh
  obtain ⟨r₁, htop⟩ := h.top
  obtain ⟨r₂, hphysmap⟩ := h.physmap
  obtain ⟨r₃, huc⟩ := h.physmapUc
  obtain ⟨_, _, hrequested⟩ := hwf₁.requested window_top.size_dvd htop hfresh₂
  have hwf₂ : Wf s₂ := hrequested.wf
  obtain ⟨horder, horder'⟩ := window_order
  have hend := window_top.high
  -- the order of the requests is not that of the addresses
  obtain ⟨hmap₁, hother₁⟩ := hwf₁.window window_top (fun _ _ => walk_start ..) htop hfresh₂
  have hfree₂ : ∀ x, OfRoot .kmem x → (∀ o < gib 2, x ≠ kernTopBase + o) →
      s₂.withPhysMap.walk 4 .kmem x = none := by
    intro x hx hout
    rw [hwf₂.walk_withPhysMap hx, hother₁ x hx hout, walk_start]
  obtain ⟨hmap₂, hother₂⟩ := hwf₂'.window window_physmap
    (fun o ho => hfree₂ _ (window_physmap.ofRoot ho) fun o' ho' =>
      window_ne ho ho' (by omega) hend) hphysmap hfresh₃
  obtain ⟨hmap₃, hother₃⟩ := hwf₃.window window_physmapUc (by
    intro o ho
    have hx := window_physmapUc.ofRoot ho
    rw [hother₂ _ hx fun o' ho' => (window_ne ho' ho horder window_physmapUc.high).symm]
    exact hfree₂ _ hx fun o' ho' => window_ne ho ho' horder' hend) huc hfresh
  constructor
  · intro o ho
    have hx := window_top.ofRoot ho
    rw [hother₃ _ hx fun o' ho' => (window_ne ho' ho horder' hend).symm,
      hother₂ _ hx fun o' ho' => (window_ne ho' ho (by omega) hend).symm,
      hwf₂.walk_withPhysMap hx, hmap₁ o ho]
  · intro o ho
    have hx := window_physmap.ofRoot ho
    rw [hother₃ _ hx fun o' ho' => window_ne ho ho' horder window_physmapUc.high, hmap₂ o ho]
  · exact hmap₃

end Init

/-! ### `vmem_phystovirt` and `vmem_virttophys` -/

section Translate

variable {core : ℕ} {s s' : Vmem} {pg pg' : TablePtr} {virt phys sz : U64} {flags : BitVec 32}

/-- Only one entry of the top-level table is read. -/
theorem vmemVirttophysSt_congr {n : ℕ} (h : InTable pg (index virt (3 - n)))
    (h' : InTable pg' (index virt (3 - n)))
    (heq : s.tables pg (index virt (3 - n)) = s.tables pg' (index virt (3 - n))) :
  vmemVirttophysSt (n + 1) pg virt s = vmemVirttophysSt (n + 1) pg' virt s
  := by
  rw [vmemVirttophysSt, vmemVirttophysSt, bind_of_ok (get_apply s), bind_of_ok (get_apply s),
    bind_of_ok (readEntry_eq h), bind_of_ok (readEntry_eq h'), heq]

/-- The upper half of the `ktable` of a core is that of `kmem`. -/
def Synced (s : Vmem) (core : ℕ) : Prop :=
  ∃ lcl v, s.lcl core = some lcl ∧ reach s.physMapSz lcl.ktable = some v
    ∧ ∀ idx, upperHalf idx = true → s.tables (.page v) idx = s.tables .kmem idx

/-- With the upper half in its place, `vmem_virttophys` walks from `kmem`. -/
theorem Synced.vmemVirttophys (h : Synced s core) (hwf : WfCore s) (hvirt : OfRoot .kmem virt) :
  vmemVirttophys core virt s = .ok ((s.walk 4 .kmem virt).map Access.phys) s
  := by
  obtain ⟨lcl, v, hlcl, hreach, hsame⟩ := h
  have hin := hvirt.inTable
  have hupper : upperHalf (index virt 0) = true := by
    rw [upperHalf, Bool.and_eq_true, decide_eq_true_eq, decide_eq_true_eq]
    exact hin
  have hpage : InTable (.page v) (index virt 0) := hin.2
  have hroot : vmemVirttophysSt 4 (.page v) virt s = vmemVirttophysSt 4 .kmem virt s :=
    vmemVirttophysSt_congr hpage hin (hsame _ hupper)
  rw [VirtMem.vmemVirttophys, bind_of_ok (getLcl_eq hlcl), bind_of_ok (tableAt_of_reach hreach),
    hroot]
  exact hwf.vmemVirttophysSt_root root_kmem hin

/-- A request at a kernel address leaves the upper half in its place. -/
theorem Requested.synced {perms : BitVec 32} {r : TablePtr} {size : U64} {ret : VmemErrs}
    (h : Requested perms core s r virt phys size ret s') (hkernel : virt.slt 0 = true) :
  Synced s' core
  := by
  obtain ⟨t, ht, htable⟩ := h.ktable hkernel
  rw [← h.steady.ktable] at ht
  obtain ⟨lcl, hlcl, ht⟩ := Option.bind_eq_some_iff.mp ht
  obtain ⟨v, hv, rfl⟩ := Option.map_eq_some_iff.mp ht
  refine ⟨lcl, v, hlcl, hv, fun idx hidx => ?_⟩
  rw [htable]
  exact if_pos hidx

/-- Where `vmem_phystovirt` finds an address below 256 GiB. -/
theorem directAddr_cases (hbound : phys.toNat + sz.toNat < 2 ^ 38)
    (hflags : flags &&& vmemFlagsCachewriteback ≠ 0 ∨ flags &&& vmemFlagsUncached ≠ 0) :
  (phys < gib 2 ∧ directAddr (gib 256) phys sz flags = some (kernTopBase + phys))
    ∨ directAddr (gib 256) phys sz flags = some (kernPhysmapBase + phys)
    ∨ directAddr (gib 256) phys sz flags = some (kernPhysmapBaseUc + phys)
  := by
  have hgib : (gib 256).toNat = 2 ^ 38 := rfl
  have hgib' : (gib 2).toNat = 2 ^ 31 := rfl
  have hsum : (phys + sz).toNat = phys.toNat + sz.toNat := by
    rw [BitVec.toNat_add]
    omega
  have hin : phys.slt (gib 256) = true ∧ phys + sz < gib 256 := by
    rw [slt_iff (by omega) (by omega), BitVec.lt_def, hsum]
    omega
  rw [directAddr, add_comm kernTopBase, add_comm kernPhysmapBase, add_comm kernPhysmapBaseUc]
  split_ifs with hwb htop huc
  · left
    rw [slt_iff (by omega) (by omega)] at htop
    exact ⟨htop.1, rfl⟩
  · exact .inr (.inl rfl)
  · exact .inr (.inr rfl)
  · exact absurd hflags (not_or.mpr ⟨hwb, huc⟩)

/-- What is mapped in the windows goes there and back. -/
theorem Windows.there_and_back (h : Windows s) (hwf : WfCore s) (hsync : Synced s core)
    (hmap : s.physMapSz = gib 256) (hbound : phys.toNat + sz.toNat < 2 ^ 38)
    (hflags : flags &&& vmemFlagsCachewriteback ≠ 0 ∨ flags &&& vmemFlagsUncached ≠ 0) :
  ∃ virt, vmemPhystovirt phys sz flags s = .ok virt s
    ∧ vmemVirttophys core virt s = .ok (some phys) s
  := by
  have hlt : phys < gib 256 := by
    have hgib : (gib 256).toNat = 2 ^ 38 := rfl
    rw [BitVec.lt_def, hgib]
    omega
  have hback : ∀ {virt : U64} {perms : BitVec 32}, OfRoot .kmem virt →
      s.walk 4 .kmem virt = some (wanted 0 perms phys) →
      vmemVirttophys core virt s = .ok (some phys) s := by
    intro virt perms hvirt hwalk
    rw [hsync.vmemVirttophys hwf hvirt, hwalk, Option.map_some, wanted, zero_add]
  have hthere : ∀ {virt : U64}, directAddr (gib 256) phys sz flags = some virt →
      vmemPhystovirt phys sz flags s = .ok virt s := by
    intro virt hvirt
    rw [vmemPhystovirt, bind_of_ok (get_apply s), hmap, hvirt]
    rfl
  rcases directAddr_cases hbound hflags with ⟨htop, haddr⟩ | haddr | haddr
  · exact ⟨_, hthere haddr, hback (window_top.ofRoot htop) (h.top _ htop)⟩
  · exact ⟨_, hthere haddr, hback (window_physmap.ofRoot hlt) (h.physmap _ hlt)⟩
  · exact ⟨_, hthere haddr, hback (window_physmapUc.ofRoot hlt) (h.physmapUc _ hlt)⟩

end Translate

/-! ### Runs of `vmem_init` that return -/

/-- The pages that were handed out for tables are all different, and end below 2 GiB. -/
structure LowPages (hist : List Effect) : Prop extends FreshPages hist where
  low : ∀ {a}, some a ∈ allocs hist → a.toNat < 2 ^ 31 - 4096

/-- The history has grown. -/
def Longer (s s' : Vmem) : Prop := s.hist <:+ s'.hist

instance : Std.Refl Longer where
  refl s := List.suffix_refl s.hist

instance : IsTrans Vmem Longer where
  trans _ _ _ h h' := List.IsSuffix.trans h h'

section Returns

variable {core : ℕ} {cpuHugepage : Bool} {curPtable virt size : U64} {perms : BitVec 32}
  {s : Vmem} {hist hist' : List Effect}

theorem LowPages.of_suffix (h : hist <:+ hist') (hlow : LowPages hist') :
  LowPages hist
  where
  toFreshPages := hlow.toFreshPages.of_suffix h
  low ha := hlow.low ((allocs_suffix h).subset ha)

theorem LowPages.of_bind {α β : Type} {x : Program Vmem α} {f : α → Program Vmem β}
    (h : LowPages (finalState ((x >>= f) s)).hist) (hf : ∀ a, Along Longer (f a)) :
  LowPages (finalState (x s)).hist
  := by
  cases hx : x s with
  | ok a s' =>
      rw [bind_of_ok hx] at h
      exact h.of_suffix (hf a s')
  | error e s' =>
      rw [bind_of_error hx] at h
      exact h

/-- Pages that end below 2 GiB are reached. -/
theorem reach_of_low {z a : U64} (hz : z.toNat ≤ 2 ^ 38) (ha : a.toNat < 2 ^ 31 - 4096) :
  ∃ v, reach z a = some v
  := by
  refine ⟨a + kernTopBase, ?_⟩
  rw [reach_eq hz (by omega), if_pos (by omega)]

theorem LowPages.not_stranded (h : LowPages s.hist) (hz : s.physMapSz.toNat ≤ 2 ^ 38) :
  ¬ Stranded s
  := by
  rintro ⟨a, ha, hnone⟩
  obtain ⟨v, hv⟩ := reach_of_low hz (h.low ha.1)
  rw [hv] at hnone
  cases hnone

theorem along_longer_vmemMap :
  Along Longer (vmemMap core none virt 0 size perms)
  := (along_vmemMap core none virt 0 size perms).mono fun _ _ h => h.hist

/-- A request of a window returns. -/
theorem Wf.window_returns (hwf : Wf s) (h : Window virt size) (hlcl : s.lcl core ≠ none)
    (hlow : LowPages (finalState (vmemMap core none virt 0 size perms s)).hist) :
  ∃ ret s', vmemMap core none virt 0 size perms s = .ok ret s' ∧ s'.lcl core ≠ none
    ∧ (FreshPages s'.hist → Wf s')
  := by
  have hsteady := along_vmemMap core none virt 0 size perms s
  have hreplies := vmemMap_replies core perms 0 hwf h.proper.root h.size_dvd hlow.toFreshPages
  generalize hres : vmemMap core none virt 0 size perms s = res at hlow hreplies hsteady
  cases hreplies with
  | @returned ret s' hrequested =>
      refine ⟨ret, s', rfl, ?_, fun _ => hrequested.wf⟩
      rwa [hrequested.steady.lcl]
  | stranded hstranded =>
      refine absurd hstranded (hlow.not_stranded ?_)
      rw [hsteady.physMapSz]
      exact hwf.physMap
  | outside hout =>
      obtain ⟨htiles, -⟩ := h.proper.tiles (h.fits s.hugepage)
      exact absurd hout (h.proper.not_outside htiles)
  | unset _ hnone => exact absurd hnone hlcl

/-- The last part of `vmem_init`: the requests for the direct map. -/
def mapPhysmaps (core : ℕ) : Program Vmem Unit := do
  modify fun s => s.withPhysMap
  let _ ← vmemMap core none kernPhysmapBase 0 (gib 256) physmapPerms
  let _ ← vmemMap core none kernPhysmapBaseUc 0 (gib 256) physmapUcPerms
  pure ⟨⟩

/-- The part of `vmem_init` after the tables have been cleared. -/
def mapWindows (core : ℕ) (curPtable : U64) : Program Vmem Unit := do
  let _ ← tableAt curPtable
  let _ ← vmemMap core none kernTopBase 0 (gib 2) topPerms
  mapPhysmaps core

theorem vmemInit_eq :
  vmemInit core cpuHugepage curPtable
    = initKtable core cpuHugepage >>= fun _ => memsetTable .kmem >>= fun _ =>
      mapWindows core curPtable
  := rfl

theorem Steps.mapPhysmaps {R : Vmem → Vmem → Prop} [Std.Refl R] [IsTrans Vmem R] (hR : Steps R)
    (hmap : ∀ s, R s s.withPhysMap) (core : ℕ) :
  Along R (mapPhysmaps core)
  := by
  apply (Along.modify (R := R) hmap).bind
  intro
  apply (hR.vmemMap _ _ _ _ _ _).bind
  intro
  apply (hR.vmemMap _ _ _ _ _ _).bind
  intro
  apply Along.pure

theorem Steps.mapWindows {R : Vmem → Vmem → Prop} [Std.Refl R] [IsTrans Vmem R] (hR : Steps R)
    (hmap : ∀ s, R s s.withPhysMap) (core : ℕ) (curPtable : U64) :
  Along R (mapWindows core curPtable)
  := by
  apply (hR.tableAt _).bind
  intro
  apply (hR.vmemMap _ _ _ _ _ _).bind
  intro
  apply hR.mapPhysmaps hmap

theorem steps_longer :
  Steps Longer
  := steps_steady.mono fun _ _ h => h.hist

theorem along_mapPhysmaps :
  Along Longer (mapPhysmaps core)
  := steps_longer.mapPhysmaps (fun s => List.suffix_refl s.hist) core

theorem along_mapWindows :
  Along Longer (mapWindows core curPtable)
  := steps_longer.mapWindows (fun s => List.suffix_refl s.hist) core curPtable

theorem mapPhysmaps_returns (hwf : Wf s) (hlcl : s.lcl core ≠ none)
    (hlow : LowPages (finalState (mapPhysmaps core s)).hist) :
  ∃ s', mapPhysmaps core s = .ok ⟨⟩ s'
  := by
  rw [mapPhysmaps, bind_of_ok (modify_apply _ s)] at hlow ⊢
  obtain ⟨r₂, s₂, hphysmap, hlcl₂, hwf₂⟩ := hwf.withPhysMap.1.window_returns window_physmap hlcl
    (hlow.of_bind fun _ => along_longer_vmemMap.bind fun _ => Along.pure _)
  rw [bind_of_ok hphysmap] at hlow ⊢
  have hlow₂ := hlow.of_bind fun _ => Along.pure _
  have hfresh₂ : FreshPages s₂.hist := (hlow₂.of_suffix (along_longer_vmemMap s₂)).toFreshPages
  obtain ⟨r₃, s₃, huc, -⟩ := (hwf₂ hfresh₂).window_returns window_physmapUc hlcl₂ hlow₂
  rw [bind_of_ok huc]
  exact ⟨s₃, rfl⟩

theorem initKtable_returns (hz : s.physMapSz.toNat ≤ 2 ^ 38)
    (hlow : LowPages (finalState (initKtable core cpuHugepage s)).hist) :
  ∃ t s', initKtable core cpuHugepage s = .ok t s'
  := by
  rw [initKtable, bind_of_ok (modify_apply _ s)] at hlow ⊢
  rcases allocpage_cases { s with hugepage := s.hugepage || cpuHugepage } with
    ⟨a, pmem, halloc⟩ | ⟨e, pmem, halloc⟩
  · rw [bind_of_ok halloc] at hlow ⊢
    cases hreach : reach s.physMapSz a with
    | some v =>
        rw [bind_of_ok (tableAt_of_reach (by exact hreach))]
        exact ⟨_, _, rfl⟩
    | none =>
        rw [bind_of_error (tableAt_of_none (by exact hreach))] at hlow
        obtain ⟨v, hv⟩ := reach_of_low hz (hlow.low (a := a) (by simp [Vmem.grant]))
        rw [hreach] at hv
        cases hv
  · rw [bind_of_error halloc] at hlow
    obtain ⟨a, ha, -⟩ := hlow.isPage (r := none) (by simp [Vmem.grant])
    cases ha

theorem mapWindows_returns (hwf : Wf s) (hlcl : s.lcl core ≠ none)
    (hcur : ∃ v, reach s.physMapSz curPtable = some v)
    (hlow : LowPages (finalState (mapWindows core curPtable s)).hist) :
  ∃ s', mapWindows core curPtable s = .ok ⟨⟩ s'
  := by
  obtain ⟨v, hv⟩ := hcur
  rw [mapWindows, bind_of_ok (tableAt_of_reach hv)] at hlow ⊢
  have hlow₂ := hlow.of_bind fun _ => along_mapPhysmaps
  obtain ⟨r₂, s₂, htop, hlcl₂, hwf₂⟩ := hwf.window_returns window_top hlcl hlow₂
  rw [htop] at hlow₂
  rw [bind_of_ok htop] at hlow ⊢
  exact mapPhysmaps_returns (hwf₂ hlow₂.toFreshPages) hlcl₂ hlow

/-- `vmem_init` returns when the pages for tables are there, and the direct map reaches the page
table of the boot loader. -/
theorem vmemInit_returns (hboot : Boot s)
    (hlow : LowPages (finalState (vmemInit core cpuHugepage curPtable s)).hist)
    (hcur : ∃ v, reach 0 curPtable = some v) :
  ∃ s', vmemInit core cpuHugepage curPtable s = .ok ⟨⟩ s'
  := by
  rw [vmemInit_eq] at hlow ⊢
  have hz : s.physMapSz.toNat ≤ 2 ^ 38 := by
    rw [hboot.physMapSz]
    decide
  obtain ⟨t, s₁, hinit⟩ := initKtable_returns hz (hlow.of_bind fun _ =>
    (Along.mono (along_memsetTable _) fun _ _ h => h.hist).bind fun _ => along_mapWindows)
  obtain ⟨a, v, pmem, hreach, rfl, rfl⟩ := initKtable_ok hinit
  rw [bind_of_ok hinit, bind_of_ok memsetTable_eq] at hlow ⊢
  have hlow₁ : LowPages (s.start cpuHugepage pmem core a v).hist :=
    hlow.of_suffix (along_mapWindows (s.start cpuHugepage pmem core a v))
  apply mapWindows_returns (hboot.wf_start hlow₁.toFreshPages) _ _ hlow
  · simp [Vmem.start, Vmem.wipe, Vmem.withKtable]
  · change ∃ v, reach s.physMapSz curPtable = some v
    rwa [hboot.physMapSz]

end Returns

/-- What `vmem_init` leaves when it returns. -/
theorem Boot.after {core : ℕ} {cpuHugepage : Bool} {curPtable : U64} {s s' : Vmem}
    (hboot : Boot s) (hrun : vmemInit core cpuHugepage curPtable s = .ok ⟨⟩ s')
    (hfresh : FreshPages s'.hist) :
  Wf s' ∧ Windows s' ∧ Synced s' core ∧ s'.physMapSz = gib 256
  := by
  obtain ⟨pmem, a, v, s₂, s₃, hinit⟩ := vmemInit_ok hrun
  obtain ⟨-, hwf₂, hwf₃, hwf', -, hfresh₃⟩ := hinit.wf hboot hfresh
  obtain ⟨r₂, hphysmap⟩ := hinit.physmap
  obtain ⟨r₃, huc⟩ := hinit.physmapUc
  obtain ⟨_, _, hrequested⟩ := hwf₃.requested window_physmapUc.size_dvd huc hfresh
  refine ⟨hwf', hinit.windows hboot hfresh, hrequested.synced window_physmapUc.negative, ?_⟩
  rw [(steady_vmemMap huc).physMapSz, (steady_vmemMap hphysmap).physMapSz]
  rfl

/-- After `vmem_init` every address that `vmem_phystovirt` returns goes back to where it came from,
and `vmem_init` returns if the direct map reaches the page table of the boot loader. -/
theorem direct_map_agrees {core : ℕ} {cpuHugepage : Bool} {curPtable : U64} {s : Vmem}
    (hboot : Boot s) (hlow : LowPages (finalState (vmemInit core cpuHugepage curPtable s)).hist) :
  (reach 0 curPtable ≠ none → ∃ s', vmemInit core cpuHugepage curPtable s = .ok ⟨⟩ s')
    ∧ ∀ s', vmemInit core cpuHugepage curPtable s = .ok ⟨⟩ s' →
      ∀ phys sz flags, phys.toNat + sz.toNat < 2 ^ 38 →
        (flags &&& vmemFlagsCachewriteback ≠ 0 ∨ flags &&& vmemFlagsUncached ≠ 0) →
        ∃ virt, vmemPhystovirt phys sz flags s' = .ok virt s'
          ∧ vmemVirttophys core virt s' = .ok (some phys) s'
  := by
  refine ⟨fun hcur => vmemInit_returns hboot hlow (Option.ne_none_iff_exists'.mp hcur), ?_⟩
  intro s' hrun phys sz flags hbound hflags
  rw [hrun] at hlow
  obtain ⟨hwf, hwindows, hsync, hmap⟩ := hboot.after hrun hlow.toFreshPages
  apply hwindows.there_and_back hwf.toWfCore hsync hmap hbound hflags

/-- The state before `vmem_init`, with 16 free pages at 1 MiB. -/
def bootVmem : Vmem where
  pmem :=
    { btmLevel := (queueTryenqueue (Queue.init 4) (buildEntry 0x100000 16)).getD (Queue.init 4)
      freeMem := 0x10000
      hist := [] }
  tables := fun _ _ => 0
  hugepage := false
  physMapSz := 0
  lcl := fun _ => none
  vmCnt := 0
  bootstrapAllocPos := 0
  hist := []

theorem boot_bootVmem :
  Boot bootVmem
  := ⟨fun _ _ _ => rfl, rfl, rfl, fun _ => rfl, rfl⟩

/-- With pages of 1 GiB, `vmem_init` needs four tables. -/
theorem allocs_bootVmem :
  allocs (finalState (vmemInit 0 true 0x1000 bootVmem)).hist
    = [some 0x103000, some 0x102000, some 0x101000, some 0x100000]
  := by decide +kernel

theorem lowPages_bootVmem :
  LowPages (finalState (vmemInit 0 true 0x1000 bootVmem)).hist
  := by
  refine ⟨⟨?_, ?_⟩, ?_⟩
  · rw [allocs_bootVmem]
    decide
  · rw [allocs_bootVmem]
    simp [IsPage]
  · rw [allocs_bootVmem]
    simp

/-- A state that is built, in which the windows are mapped. -/
theorem exists_built_bootVmem :
  ∃ s', vmemInit 0 true 0x1000 bootVmem = .ok ⟨⟩ s' ∧ Built s' ∧ FreshPages s'.hist ∧ Wf s'
    ∧ Windows s' ∧ Synced s' 0
  := by
  have hcur : reach 0 0x1000 ≠ none := by decide
  have hlow := lowPages_bootVmem
  obtain ⟨s', hrun⟩ := vmemInit_returns boot_bootVmem hlow (Option.ne_none_iff_exists'.mp hcur)
  rw [hrun] at hlow
  obtain ⟨hwf, hwindows, hsync, -⟩ := boot_bootVmem.after hrun hlow.toFreshPages
  exact ⟨s', hrun, .init boot_bootVmem hrun, hlow.toFreshPages, hwf, hwindows, hsync⟩

theorem direct_map_agrees_bootVmem :
  ∃ s', vmemInit 0 true 0x1000 bootVmem = .ok ⟨⟩ s' ∧
    ∀ phys sz flags, phys.toNat + sz.toNat < 2 ^ 38 →
      (flags &&& vmemFlagsCachewriteback ≠ 0 ∨ flags &&& vmemFlagsUncached ≠ 0) →
      ∃ virt, vmemPhystovirt phys sz flags s' = .ok virt s'
        ∧ vmemVirttophys 0 virt s' = .ok (some phys) s'
  := by
  obtain ⟨hreturns, hagrees⟩ := direct_map_agrees boot_bootVmem lowPages_bootVmem
  obtain ⟨s', hrun⟩ := hreturns (by decide)
  exact ⟨s', hrun, hagrees s' hrun⟩

end VirtMem
