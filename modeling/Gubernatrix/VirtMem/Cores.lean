import Gubernatrix.VirtMem.Promise

/-!
# Many cores

Kernel mappings on many cores. Each core has a copy of the upper half of `kmem` in its `ktable`,
which `vmem_map` brings up to date on the core that it runs on only; `vmem_savestate` copies it back
on every core.
-/

namespace VirtMem

open Program Radix PhysMem

/-- A section of a call, on a core, that runs under one lock. -/
inductive Action where
  | mpInit (core : ℕ) (cpuHugepage : Bool)
  | create
  | map (core : ℕ) (virt phys size : U64) (perms : BitVec 32)
  | saveUser (core : ℕ)
  | saveKernel (core : ℕ)
  | loadUser (core id : ℕ)

/-- The section runs to its end, with what it promises. -/
inductive Acts (s : Vmem) : Action → List Promise → Vmem → Prop where
  | mpInit {core : ℕ} {cpuHugepage : Bool} {s' : Vmem} :
      vmemMpInit core cpuHugepage s = .ok ⟨⟩ s' → Acts s (.mpInit core cpuHugepage) [] s'
  | create {id : Option ℕ} {s' : Vmem} : vmemCreate s = .ok id s' → Acts s .create [] s'
  | map {core : ℕ} {virt phys size : U64} {perms : BitVec 32} {ret : VmemErrs} {s' : Vmem} :
      rootOf none virt = some .kmem → vmemMap core none virt phys size perms s = .ok ret s' →
      Acts s (.map core virt phys size perms) (promised .kmem virt phys size ret) s'
  | saveUser {core : ℕ} {s' : Vmem} : saveUser core s = .ok ⟨⟩ s' → Acts s (.saveUser core) [] s'
  | saveKernel {core : ℕ} {s' : Vmem} : saveKernel core s = .ok ⟨⟩ s' →
      Acts s (.saveKernel core) [] s'
  | loadUser {core id : ℕ} {s' : Vmem} : id < s.vmCnt → loadUser core id s = .ok ⟨⟩ s' →
      Acts s (.loadUser core id) [] s'

/-- A call of `vmem_map` is sound, and the upper half is saved on a core only where it is that of
`kmem`. -/
def UpToDate (s : Vmem) (ps : List Promise) : Action → Prop
  | .map _ virt phys size perms => Sound s ps none .kmem virt phys size perms
  | .saveKernel core => Synced s core
  | _ => True

/-- The copies of all cores are in order, and what was promised is kept. -/
structure Shared (s : Vmem) (ps : List Promise) : Prop extends Coherent s where
  root : ∀ {p}, p ∈ ps → p.root = .kmem
  kept : ∀ {p}, p ∈ ps → p.Kept s

section Step

variable {s s' : Vmem} {ps new : List Promise} (h : Shared s ps)

include h

/-- The same promises in a state with the same trees. -/
theorem Shared.of_look (hcoherent : Coherent s') (hlook : ∀ q, s'.look .kmem q = s.look .kmem q) :
  Shared s' ps
  where
  toCoherent := hcoherent
  root := h.root
  kept hp := by
    apply (h.kept hp).of_look h.toWfCore hcoherent.toWfCore
    · rw [h.root hp]
      apply root_kmem
    · rw [h.root hp]
      apply hlook

theorem Shared.of_same (hsteady : Steady s s') (hsame : s'.tables = s.tables) :
  Shared s' ps
  where
  toCoherent := h.toCoherent.of_same hsteady hsame
  root := h.root
  kept hp := by
    apply (h.kept hp).of_same h.toCoherent hsteady hsame
    rw [h.root hp]
    apply root_kmem

theorem Shared.map {core : ℕ} {virt phys size : U64} {perms : BitVec 32} {ret : VmemErrs}
    (hsound : Sound s ps none .kmem virt phys size perms)
    (hrun : vmemMap core none virt phys size perms s = .ok ret s') (hfresh : FreshPages s'.hist) :
  Shared s' (promised .kmem virt phys size ret ++ ps)
  := by
  obtain ⟨r, hroot, hrequested⟩ := h.toWf.requested hsound.proper.size_page hrun hfresh
  obtain rfl := Option.some.inj (hroot.symm.trans hsound.proper.root)
  constructor
  · apply h.toCoherent.map hrequested
    intro core' id hvm
    cases hvm
  · intro p hp
    rcases List.mem_append.mp hp with hnew | hold
    · apply root_promised hnew
    · apply h.root hold
  · intro p hp
    rcases List.mem_append.mp hp with hnew | hold
    · apply hsound.kept_promised h.toWf hrequested hnew
    · apply hsound.kept h.toWf hrequested hold _ (h.kept hold)
      rw [h.root hold]
      apply root_kmem

/-- Every section keeps the copies in order, and what was promised. -/
theorem Shared.step {action : Action} (hdate : UpToDate s ps action)
    (hacts : Acts s action new s') (hfresh : FreshPages s'.hist) :
  Shared s' (new ++ ps)
  := by
  cases hacts with
  | mpInit hrun =>
      apply h.of_look (h.toCoherent.mpInit hrun hfresh).1
      apply (h.toWf.vmemMpInit hrun hfresh).2.2 .kmem root_kmem
  | create hrun =>
      rcases vmemCreate_ok hrun with ⟨-, rfl⟩ | ⟨-, pos, rfl⟩
      · exact h
      · apply h.of_look (h.toCoherent.created pos)
        apply h.toWf.look_created pos root_kmem TablePtr.noConfusion
  | map _ hrun => apply h.map hdate hrun hfresh
  | saveUser hrun =>
      obtain ⟨hsteady, hsame⟩ := h.toCoherent.saveUser hrun
      apply h.of_same hsteady hsame
  | saveKernel hrun =>
      have hsync : Synced s _ := hdate
      obtain ⟨hsteady, hsame⟩ := hsync.saveKernel hrun
      apply h.of_same hsteady hsame
  | loadUser hid hrun =>
      obtain ⟨lcl, t, hlcl, ht, rfl⟩ := loadUser_ok hrun
      apply h.of_look (h.toCoherent.load hlcl ht hid)
      apply (h.toWf.load hlcl ht).2 .kmem root_kmem

end Step

theorem hist_acts {s s' : Vmem} {action : Action} {new : List Promise}
    (h : Acts s action new s') :
  s.hist <:+ s'.hist
  := by
  cases h with
  | mpInit hrun => apply hist_vmemMpInit hrun
  | create hrun => apply hist_vmemCreate hrun
  | map _ hrun => apply (steady_vmemMap hrun).hist
  | saveUser hrun => apply hist_of_along steps_longer.saveUser hrun
  | saveKernel hrun => apply hist_of_along steps_longer.saveKernel hrun
  | loadUser _ hrun => apply hist_of_along along_loadUser hrun

theorem Run.shared {core : ℕ} {s : Vmem} {ps : List Promise} (h : Run core Acts UpToDate s ps)
    (hfresh : FreshPages s.hist) :
  Shared s ps
  := by
  apply h.keeps _ hist_acts _ hfresh
  · intro s cpuHugepage curPtable s' hboot hrun hfresh
    constructor
    · apply (hboot.coherent hrun hfresh).1
    · intro p hp
      cases hp
    · intro p hp
      cases hp
  · intro s ps action new s' h hdate hacts hfresh
    apply h.step hdate hacts hfresh

/-- On every run of sections on any cores, in which each request is sound and the upper half is
saved on a core only where it is that of `kmem`, what was promised is translated through `kmem`. -/
theorem run_kept {core : ℕ} {s : Vmem} {ps : List Promise} (h : Run core Acts UpToDate s ps)
    (hfresh : FreshPages s.hist) :
  ∀ p ∈ ps, p.root = .kmem ∧ p.Kept s
  := by
  have hshared := h.shared hfresh
  intro p hp
  use hshared.root hp
  apply hshared.kept hp

/-! ### Runs of sections -/

/-- After `vmem_init` and `vmem_mp_init`, one of the two cores maps a page of 2 MiB and another one
is flushed. -/
def mapThenFlush (core core' : ℕ) : Program Vmem VmemErrs := do
  vmemInit 0 true 0x1000
  vmemMpInit 1 true
  let ret ← vmemMap core none (unusedBase + 0) 0x400000 (mib 2) 0
  saveUser core'
  saveKernel core'
  pure ret

/-- The core that has mapped the page is flushed. -/
theorem mapThenFlush_same :
  ∃ ret s, mapThenFlush 1 1 bootVmem = .ok ret s ∧ ret = .errNone ∧ allocs s.hist = sevenPages
  := exists_of_returns _ _ (by decide +kernel)

/-- The other core is flushed, and the top-level entry of the page is gone. -/
theorem mapThenFlush_other :
  ∃ ret s, mapThenFlush 0 1 bootVmem = .ok ret s ∧ ret = .errNone ∧ allocs s.hist = sevenPages
    ∧ s.tables .kmem 510 = 0
  := exists_of_returns _ _ (by decide +kernel)

/-- The sections of such a run, one after the other. -/
theorem mapThenFlush_ok {core core' : ℕ} {s₀ s : Vmem} {ret : VmemErrs}
    (hinit : vmemInit 0 true 0x1000 bootVmem = .ok ⟨⟩ s₀)
    (hrun : mapThenFlush core core' bootVmem = .ok ret s) :
  ∃ s₁ s₂ s₃, vmemMpInit 1 true s₀ = .ok ⟨⟩ s₁
    ∧ vmemMap core none (unusedBase + 0) 0x400000 (mib 2) 0 s₁ = .ok ret s₂
    ∧ saveUser core' s₂ = .ok ⟨⟩ s₃ ∧ saveKernel core' s₃ = .ok ⟨⟩ s
  := by
  rw [mapThenFlush, bind_of_ok hinit, bind_eq_ok] at hrun
  obtain ⟨⟨⟩, s₁, hmp, hrun⟩ := hrun
  rw [bind_eq_ok] at hrun
  obtain ⟨ret, s₂, hmap, hrun⟩ := hrun
  rw [bind_eq_ok] at hrun
  obtain ⟨⟨⟩, s₃, huser, hrun⟩ := hrun
  rw [bind_eq_ok] at hrun
  obtain ⟨⟨⟩, s₄, hkernel, hpure⟩ := hrun
  cases hpure
  exact ⟨s₁, s₂, s₃, hmp, hmap, huser, hkernel⟩

theorem sound_unusedBase (s : Vmem) :
  Sound s [] none .kmem (unusedBase + 0) 0x400000 (mib 2) 0
  := by
  constructor
  · apply proper_unusedBase (by decide) (by decide)
  · apply fits_unusedBase
  · apply addressable_unusedBase
  · intro p hp
    cases hp

/-- A core that maps a page and is flushed. -/
theorem run_kept_mapThenFlush :
  ∃ s p, Run 0 Acts UpToDate s [p] ∧ p.root = .kmem ∧ p.Kept s
  := by
  obtain ⟨s₀, hinit, -⟩ := exists_built_bootVmem
  obtain ⟨ret, s, hrun, rfl, hallocs⟩ := mapThenFlush_same
  obtain ⟨s₁, s₂, s₃, hmp, hmap, huser, hkernel⟩ := mapThenFlush_ok hinit hrun
  have hfresh : FreshPages s.hist := (lowPages_of_sevenPages hallocs).toFreshPages
  have hfresh₂ : FreshPages s₂.hist := hfresh.of_suffix
    ((hist_of_along steps_longer.saveUser huser).trans
      (hist_of_along steps_longer.saveKernel hkernel))
  have hrun₁ : Run 0 Acts UpToDate s₁ [] := by
    apply Run.step (.init boot_bootVmem hinit) _ (Acts.mpInit hmp)
    exact trivial
  have hacts₂ : Acts s₁ (.map 1 (unusedBase + 0) 0x400000 (mib 2) 0)
      [⟨.kmem, unusedBase + 0, 0x400000, mib 2⟩] s₂ := .map rfl hmap
  have hrun₂ : Run 0 Acts UpToDate s₂ [⟨.kmem, unusedBase + 0, 0x400000, mib 2⟩] := by
    apply Run.step hrun₁ _ hacts₂
    exact sound_unusedBase s₁
  have hrun₃ : Run 0 Acts UpToDate s₃ [⟨.kmem, unusedBase + 0, 0x400000, mib 2⟩] := by
    apply Run.step hrun₂ _ (Acts.saveUser huser)
    exact trivial
  -- The core has copied its own entry to its `ktable`.
  have hsync : Synced s₃ 1 := by
    have hwf := (hrun₁.shared (hfresh₂.of_suffix (steady_vmemMap hmap).hist)).toWf
    obtain ⟨_, _, hrequested⟩ := hwf.requested (by decide) hmap hfresh₂
    have hshared := hrun₂.shared hfresh₂
    obtain ⟨hsteady, hsame⟩ := hshared.toCoherent.saveUser huser
    apply (hrequested.synced rfl).of_same hsteady hsame
  have hrun₄ : Run 0 Acts UpToDate s [⟨.kmem, unusedBase + 0, 0x400000, mib 2⟩] := by
    apply Run.step hrun₃ _ (Acts.saveKernel hkernel)
    exact hsync
  use s, ⟨.kmem, unusedBase + 0, 0x400000, mib 2⟩, hrun₄
  apply run_kept hrun₄ hfresh
  apply List.mem_singleton_self

/-- A flush on one core takes back the page that another core has mapped. -/
theorem not_run_kept_mapThenFlush :
  ¬ ∀ (core : ℕ) (s : Vmem) (ps : List Promise), Run core Acts (fun _ _ _ => True) s ps →
    FreshPages s.hist → ∀ p ∈ ps, p.Kept s
  := by
  intro h
  obtain ⟨s₀, hinit, -⟩ := exists_built_bootVmem
  obtain ⟨ret, s, hrun, rfl, hallocs, hslot⟩ := mapThenFlush_other
  obtain ⟨s₁, s₂, s₃, hmp, hmap, huser, hkernel⟩ := mapThenFlush_ok hinit hrun
  have hacts : Acts s₁ (.map 0 (unusedBase + 0) 0x400000 (mib 2) 0)
      [⟨.kmem, unusedBase + 0, 0x400000, mib 2⟩] s₂ := .map rfl hmap
  have hrun₂ : Run 0 Acts (fun _ _ _ => True) s₂ [⟨.kmem, unusedBase + 0, 0x400000, mib 2⟩] :=
    .step (.step (.init boot_bootVmem hinit) trivial (Acts.mpInit hmp)) trivial hacts
  have hrun₄ : Run 0 Acts (fun _ _ _ => True) s [⟨.kmem, unusedBase + 0, 0x400000, mib 2⟩] :=
    .step (.step hrun₂ trivial (Acts.saveUser huser)) trivial (Acts.saveKernel hkernel)
  have hkept := h 0 s _ hrun₄ (lowPages_of_sevenPages hallocs).toFreshPages _
    (List.mem_singleton_self _)
  have hfirst := hkept 0 (by decide)
  rw [Vmem.translate, walk_of_empty hslot] at hfirst
  cases hfirst

end VirtMem
