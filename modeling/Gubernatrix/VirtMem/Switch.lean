import Gubernatrix.VirtMem.Promise

/-!
# Switching address spaces

Calls on one core that map user addresses and switch between address spaces. `vmem_map` writes to
the table of a space only, not to the `ktable` of a core on which it is active: an entry that is new
in the top-level table is not seen there, and is lost with the next save.
-/

namespace VirtMem

open Program Radix PhysMem

/-- A call on the core. -/
inductive Call where
  | create
  | map (id : ℕ) (virt phys size : U64) (perms : BitVec 32)
  | setactive (id : ℕ)
  | getactive
  | flush (virt sz : U64)

/-- The call returns, with what it promises. -/
inductive Called (core : ℕ) (s : Vmem) : Call → List Promise → Vmem → Prop where
  | create {id : Option ℕ} {s' : Vmem} : vmemCreate s = .ok id s' → Called core s .create [] s'
  | map {id : ℕ} {virt phys size : U64} {perms : BitVec 32} {ret : VmemErrs} {s' : Vmem} :
      id < s.vmCnt → rootOf (some id) virt = some (.vm id) →
      vmemMap core (some id) virt phys size perms s = .ok ret s' →
      Called core s (.map id virt phys size perms) (promised (.vm id) virt phys size ret) s'
  | setactive {id : ℕ} {s' : Vmem} : id < s.vmCnt → vmemSetactive core id s = .ok ⟨⟩ s' →
      Called core s (.setactive id) [] s'
  | getactive {id : Option ℕ} {s' : Vmem} : vmemGetactive core s = .ok id s' →
      Called core s .getactive [] s'
  | flush {virt sz : U64} {s' : Vmem} : vmemFlush core virt sz s = .ok ⟨⟩ s' →
      Called core s (.flush virt sz) [] s'

/-- A call of `vmem_map` is sound, and in the space that is active its addresses have entries in the
top-level table. -/
def Harmless (core : ℕ) (s : Vmem) (ps : List Promise) : Call → Prop
  | .map id virt phys size perms => Sound s ps (some id) (.vm id) virt phys size perms
      ∧ (s.active core = some id → Housed s (.vm id) virt size)
  | _ => True

/-- The range is translated through its space, and by `vmem_virttophys` where that is active. -/
def Promise.Resolves (core : ℕ) (p : Promise) (s : Vmem) : Prop :=
  p.Kept s ∧ ∀ id, p.root = .vm id → s.active core = some id →
    ∀ o < p.size, vmemVirttophys core (p.virt + o) s = .ok (some (p.phys + o)) s

/-- The copies of the core are in order, and what was promised is kept. -/
structure Settles (core : ℕ) (s : Vmem) (ps : List Promise) : Prop extends Coherent s where
  synced : Synced s core
  alone : ∀ {core' id}, s.active core' = some id → core' = core
  root : ∀ {p}, p ∈ ps → ∃ id < s.vmCnt, p.root = .vm id
  kept : ∀ {p}, p ∈ ps → p.Kept s

/-- Another space on a core leaves the upper half of its `ktable`. -/
theorem Synced.load {core id : ℕ} {s : Vmem} {lcl : Lcl} {t : TablePtr} (h : Synced s core)
    (hlcl : s.lcl core = some lcl) (ht : s.ktable core = some t) :
  Synced (s.load core id lcl t) core
  := by
  obtain ⟨lcl', v, hlcl', hv, hsame⟩ := h
  obtain rfl := Option.some.inj (hlcl.symm.trans hlcl')
  obtain rfl : t = .page v := by
    rw [Vmem.ktable, hlcl, Option.bind_some, hv] at ht
    exact (Option.some.inj ht).symm
  use { lcl with curVmem := some id }, v
  constructor
  · apply Function.update_self
  · use hv
    intro idx hidx
    have hlower : ¬ lowerHalf idx = true := fun hlower => not_upperHalf hlower hidx
    change (s.copy lowerHalf (.page v) (.vm id)).tables (.page v) idx
      = (s.copy lowerHalf (.page v) (.vm id)).tables .kmem idx
    rw [tables_copy, tables_copy_of_ne (root_kmem v)]
    dsimp only
    rw [if_neg hlower]
    apply hsame idx hidx

/-- A request at a user address leaves the upper half of the `ktable` and of `kmem`. -/
theorem Synced.map_user {core core' id : ℕ} {s s' : Vmem} {perms : BitVec 32}
    {virt phys size : U64} {ret : VmemErrs} (h : Synced s core)
    (hrequested : Requested perms core' s (.vm id) virt phys size ret s') (hwf : Wf s)
    (hroot : rootOf (some id) virt = some (.vm id)) :
  Synced s' core
  := by
  have huser : ¬ virt.slt 0 = true := by
    intro hkernel
    rw [rootOf, if_pos hkernel] at hroot
    cases hroot
  obtain ⟨lcl, v, hlcl, hv, hsame⟩ := h
  have ht : s.ktable core = some (.page v) := by
    rw [Vmem.ktable, hlcl, Option.bind_some, hv]
    rfl
  have hoff : ∀ r ∈ roots, ∀ l, s'.node r l ≠ some (.page v) := by
    rw [← hrequested.steady.ktable] at ht
    apply hrequested.wf.ktable_off ht
  use lcl, v
  rw [hrequested.steady.lcl, hrequested.steady.physMapSz]
  use hlcl, hv
  intro idx hidx
  rw [hrequested.frame hoff fun hkernel => absurd hkernel huser,
    hrequested.top_other hwf root_kmem TablePtr.noConfusion]
  apply hsame idx hidx

section Step

variable {core : ℕ} {s s' : Vmem} {ps new : List Promise} (h : Settles core s ps)

include h

theorem Settles.resolves {p : Promise} (hp : p ∈ ps) :
  p.Resolves core s
  := by
  use h.kept hp
  intro id hroot hactive o ho
  obtain ⟨lcl, v, hlcl, hv, -⟩ := h.synced
  have ht : s.ktable core = some (.page v) := by
    rw [Vmem.ktable, hlcl, Option.bind_some, hv]
    rfl
  have hkept := h.kept hp o ho
  rw [hroot] at hkept
  obtain ⟨acc, hacc, -⟩ := Option.map_eq_some_iff.mp hkept
  rw [h.vmemVirttophys hactive ht (inTable_of_walk hacc), hkept]

/-- A state with the same tables. -/
theorem Settles.of_same (hsteady : Steady s s') (hsame : s'.tables = s.tables) :
  Settles core s' ps
  where
  toCoherent := h.toCoherent.of_same hsteady hsame
  synced := h.synced.of_same hsteady hsame
  alone hactive := by
    rw [hsteady.active] at hactive
    apply h.alone hactive
  root hp := by
    rw [hsteady.vmCnt]
    apply h.root hp
  kept := by
    intro p hp
    obtain ⟨id, -, hroot⟩ := h.root hp
    apply (h.kept hp).of_same h.toCoherent hsteady hsame
    rw [hroot]
    apply root_vm

/-- Saving the state changes no table. -/
theorem Settles.savestate {u : Unit} (hrun : vmemSavestate core s = .ok u s') :
  Settles core s' ps ∧ Steady s s'
  := by
  rw [vmemSavestate, bind_eq_ok] at hrun
  obtain ⟨⟨⟩, s₁, huser, hkernel⟩ := hrun
  obtain ⟨hsteady, hsame⟩ := h.toCoherent.saveUser huser
  have h₁ := h.of_same hsteady hsame
  obtain ⟨hsteady₁, hsame₁⟩ := h₁.synced.saveKernel hkernel
  use h₁.of_same hsteady₁ hsame₁
  apply IsTrans.trans _ _ _ hsteady hsteady₁

theorem Settles.create {id : Option ℕ} (hrun : vmemCreate s = .ok id s') :
  Settles core s' ps
  := by
  rcases vmemCreate_ok hrun with ⟨-, rfl⟩ | ⟨-, pos, rfl⟩
  · exact h
  · constructor
    · apply h.toCoherent.created
    · obtain ⟨lcl, v, hlcl, hv, heq⟩ := h.synced
      use lcl, v, hlcl, hv
      intro idx hidx
      have hpage : TablePtr.page v ≠ .vm s.vmCnt := (root_vm s.vmCnt v).symm
      rw [Vmem.created, Vmem.tables_wipe, Function.update_of_ne hpage]
      rw [Function.update_of_ne TablePtr.noConfusion]
      apply heq idx hidx
    · intro core' id hactive
      apply h.alone hactive
    · intro p hp
      obtain ⟨id, hid, hroot⟩ := h.root hp
      use id, Nat.lt_succ_of_lt hid
    · intro p hp
      obtain ⟨id, hid, hroot⟩ := h.root hp
      apply (h.kept hp).created h.toWf pos
      · rw [hroot]
        apply root_vm
      · rw [hroot]
        intro heq
        have := TablePtr.vm.inj heq
        omega

theorem Settles.load {id : ℕ} (hid : id < s.vmCnt) {u : Unit}
    (hrun : loadUser core id s = .ok u s') :
  Settles core s' ps
  := by
  obtain ⟨lcl, t, hlcl, ht, rfl⟩ := loadUser_ok hrun
  obtain ⟨hwf, hlook⟩ := h.toWf.load hlcl ht
  constructor
  · apply h.toCoherent.load hlcl ht hid
  · apply h.synced.load hlcl ht
  · intro core' id' hactive
    rw [Vmem.active_load] at hactive
    split at hactive
    next heq => exact heq
    next => apply h.alone hactive
  · intro p hp
    apply h.root hp
  · intro p hp
    obtain ⟨id', -, hroot⟩ := h.root hp
    have hmem : p.root ∈ roots := by
      rw [hroot]
      apply root_vm
    apply (h.kept hp).of_look h.toWfCore hwf.toWfCore hmem
    apply hlook _ hmem

theorem Settles.map {id : ℕ} {virt phys size : U64} {perms : BitVec 32} {ret : VmemErrs}
    (hid : id < s.vmCnt) (hharmless : Harmless core s ps (.map id virt phys size perms))
    (hrun : vmemMap core (some id) virt phys size perms s = .ok ret s')
    (hfresh : FreshPages s'.hist) :
  Settles core s' (promised (.vm id) virt phys size ret ++ ps)
  := by
  obtain ⟨hsound, hhoused⟩ := hharmless
  obtain ⟨r, hroot, hrequested⟩ := h.toWf.requested hsound.proper.size_page hrun hfresh
  obtain rfl := Option.some.inj (hroot.symm.trans hsound.proper.root)
  have hsteady := hrequested.steady
  constructor
  · apply h.toCoherent.map hrequested
    intro core' id' hvm hactive
    obtain rfl := TablePtr.vm.inj hvm
    obtain rfl := h.alone hactive
    apply hrequested.top_housed h.toWf hsound.proper hsound.fits (hhoused hactive)
  · apply h.synced.map_user hrequested h.toWf hroot
  · intro core' id' hactive
    rw [hsteady.active] at hactive
    apply h.alone hactive
  · intro p hp
    rw [hsteady.vmCnt]
    rcases List.mem_append.mp hp with hnew | hold
    · use id, hid, root_promised hnew
    · apply h.root hold
  · intro p hp
    rcases List.mem_append.mp hp with hnew | hold
    · apply hsound.kept_promised h.toWf hrequested hnew
    · obtain ⟨id', -, hroot'⟩ := h.root hold
      apply hsound.kept h.toWf hrequested hold _ (h.kept hold)
      rw [hroot']
      apply root_vm

/-- Every call keeps the copies of the core in order. -/
theorem Settles.step {call : Call} (hharmless : Harmless core s ps call)
    (hcalled : Called core s call new s') (hfresh : FreshPages s'.hist) :
  Settles core s' (new ++ ps)
  := by
  cases hcalled with
  | create hrun => apply h.create hrun
  | map hid _ hrun => apply h.map hid hharmless hrun hfresh
  | setactive hid hrun =>
      rw [vmemSetactive, bind_eq_ok] at hrun
      obtain ⟨_, s₁, hsave, hload⟩ := hrun
      obtain ⟨h₁, hsteady⟩ := h.savestate hsave
      apply h₁.load _ hload
      rw [hsteady.vmCnt]
      exact hid
  | getactive hrun =>
      rw [vmemGetactive, bind_eq_ok] at hrun
      obtain ⟨_, s₁, hsave, hrest⟩ := hrun
      rw [bind_eq_ok] at hrest
      obtain ⟨lcl, s₂, hlcl, hpure⟩ := hrest
      obtain ⟨rfl, -⟩ := getLcl_ok hlcl
      cases hpure
      apply (h.savestate hsave).1
  | flush hrun => apply (h.savestate hrun).1

end Step

theorem hist_called {core : ℕ} {s s' : Vmem} {call : Call} {new : List Promise}
    (h : Called core s call new s') :
  s.hist <:+ s'.hist
  := by
  cases h with
  | create hrun => apply hist_vmemCreate hrun
  | map _ _ hrun => apply (steady_vmemMap hrun).hist
  | setactive _ hrun =>
      apply hist_of_along _ hrun
      apply steps_longer.vmemSavestate.bind
      intro _
      apply along_loadUser
  | getactive hrun =>
      apply hist_of_along _ hrun
      apply steps_longer.vmemSavestate.bind
      intro _
      apply Along.bind (R := Longer) along_getLcl
      intro lcl
      apply Along.pure
  | flush hrun => apply hist_of_along steps_longer.vmemSavestate hrun

/-- On every run of calls on one core, each of which is harmless, what was promised is translated
through its space, and by `vmem_virttophys` wherever that is active. -/
theorem run_resolves {core : ℕ} {s : Vmem} {ps : List Promise}
    (h : Run core (Called core) (Harmless core) s ps) (hfresh : FreshPages s.hist) :
  ∀ p ∈ ps, p.Resolves core s
  := by
  have hsettles : Settles core s ps := by
    apply h.keeps _ hist_called _ hfresh
    · intro s cpuHugepage curPtable s' hboot hrun hfresh
      obtain ⟨hcoherent, hsync, hnone⟩ := hboot.coherent hrun hfresh
      constructor
      · exact hcoherent
      · exact hsync
      · intro core' id hactive
        rw [hnone] at hactive
        cases hactive
      · intro p hp
        cases hp
      · intro p hp
        cases hp
    · intro s ps call new s' h hharmless hcalled hfresh
      apply h.step hharmless hcalled hfresh
  intro p hp
  apply hsettles.resolves hp

/-! ### Runs of calls -/

/-- After `vmem_init`, a page of 2 MiB is mapped in a new space, which is then made active. -/
def mapThenActive : Program Vmem (Option ℕ × VmemErrs) := do
  vmemInit 0 true 0x1000
  let id ← vmemCreate
  let ret ← vmemMap 0 (some 0) 0x400000 0x400000 (mib 2) 0
  vmemSetactive 0 0
  pure (id, ret)

theorem mapThenActive_returns :
  ∃ x s, mapThenActive bootVmem = .ok x s ∧ x = (some 0, .errNone) ∧ allocs s.hist = sixPages
  := exists_of_returns _ _ (by decide +kernel)

/-- After `vmem_init`, a new space is made active, a page of 2 MiB mapped in it, and the core
flushed. -/
def activeThenMap : Program Vmem (Option ℕ × VmemErrs) := do
  vmemInit 0 true 0x1000
  let id ← vmemCreate
  vmemSetactive 0 0
  let ret ← vmemMap 0 (some 0) 0x400000 0x400000 (mib 2) 0
  vmemFlush 0 0x400000 (mib 2)
  pure (id, ret)

theorem activeThenMap_returns :
  ∃ x s, activeThenMap bootVmem = .ok x s ∧ x = (some 0, .errNone) ∧ allocs s.hist = sixPages
    ∧ s.tables (.vm 0) 0 = 0
  := exists_of_returns _ _ (by decide +kernel)

theorem sound_user (s : Vmem) :
  Sound s [] (some 0) (.vm 0) 0x400000 0x400000 (mib 2) 0
  := by
  constructor
  · exact ⟨rfl, by decide, by decide, by decide, by decide, .inl (by decide)⟩
  · constructor
    · intro _ h
      apply absurd h (by decide)
    · intro _ _
      decide
    · intro h
      apply absurd h (by decide)
    · intro h
      apply absurd h (by decide)
  · apply addressable_of_le
    decide
  · intro p hp
    cases hp

/-- A new space is the first, after `vmem_init`. -/
theorem vmCnt_of_create {s s' : Vmem} (h : vmemCreate s = .ok (some 0) s') :
  0 < s'.vmCnt
  := by
  rcases vmemCreate_ok h with ⟨hnone, -⟩ | ⟨-, pos, rfl⟩
  · cases hnone
  · apply Nat.succ_pos

/-- Making a space active leaves the number of spaces. -/
theorem vmemSetactive_ok {core id : ℕ} {s s' : Vmem} {u : Unit}
    (h : vmemSetactive core id s = .ok u s') :
  s'.vmCnt = s.vmCnt ∧ s'.active core = some id
  := by
  rw [vmemSetactive, bind_eq_ok] at h
  obtain ⟨_, s₁, hsave, hload⟩ := h
  have hsteady : Steady s s₁ := by
    have hs : Steady s (finalState (vmemSavestate core s)) := by
      apply steps_steady.vmemSavestate
    rwa [hsave] at hs
  obtain ⟨lcl, t, -, -, rfl⟩ := loadUser_ok hload
  use hsteady.vmCnt
  rw [Vmem.active_load, if_pos rfl]

/-- A page that is mapped in a space before the space is made active. -/
theorem run_resolves_mapThenActive :
  ∃ s p, Run 0 (Called 0) (Harmless 0) s [p] ∧ s.active 0 = some 0 ∧ p.Resolves 0 s
  := by
  obtain ⟨s₀, hinit, -, hfresh₀, -⟩ := exists_built_bootVmem
  obtain ⟨x, s, hrun, rfl, hallocs⟩ := mapThenActive_returns
  rw [mapThenActive, bind_of_ok hinit, bind_eq_ok] at hrun
  obtain ⟨id, s₁, hcreate, hrun⟩ := hrun
  rw [bind_eq_ok] at hrun
  obtain ⟨ret, s₂, hmap, hrun⟩ := hrun
  rw [bind_eq_ok] at hrun
  obtain ⟨⟨⟩, s₃, hset, hpure⟩ := hrun
  cases hpure
  have hfresh := freshPages_of_sixPages hallocs
  have hcnt := vmCnt_of_create hcreate
  have hrun₁ : Run 0 (Called 0) (Harmless 0) s₁ [] :=
    .step (.init boot_bootVmem hinit) trivial (Called.create hcreate)
  have hcalled : Called 0 s₁ (.map 0 0x400000 0x400000 (mib 2) 0)
      [⟨.vm 0, 0x400000, 0x400000, mib 2⟩] s₂ := .map hcnt rfl hmap
  have hcalled' : Called 0 s₂ (.setactive 0) [] s := by
    apply Called.setactive _ hset
    rw [(steady_vmemMap hmap).vmCnt]
    exact hcnt
  -- Nothing is active when the page is mapped.
  have hactive : s₁.active 0 ≠ some 0 := by
    obtain ⟨-, -, hnone⟩ := boot_bootVmem.coherent hinit hfresh₀
    rcases vmemCreate_ok hcreate with ⟨hid, -⟩ | ⟨-, pos, rfl⟩
    · cases hid
    · intro hsome
      have hbefore : s₀.active 0 = some 0 := hsome
      rw [hnone] at hbefore
      cases hbefore
  have hharmless : Harmless 0 s₁ [] (.map 0 0x400000 0x400000 (mib 2) 0) :=
    ⟨sound_user s₁, fun h => absurd h hactive⟩
  have hrun₃ : Run 0 (Called 0) (Harmless 0) s [⟨.vm 0, 0x400000, 0x400000, mib 2⟩] := by
    apply Run.step (.step hrun₁ hharmless hcalled) _ hcalled'
    exact trivial
  use s, ⟨.vm 0, 0x400000, 0x400000, mib 2⟩, hrun₃
  constructor
  · apply (vmemSetactive_ok hset).2
  · apply run_resolves hrun₃ hfresh
    apply List.mem_singleton_self

/-- A page that is mapped in the space that is active is lost with the next flush. -/
theorem not_run_resolves_activeThenMap :
  ¬ ∀ (core : ℕ) (s : Vmem) (ps : List Promise), Run core (Called core) (fun _ _ _ => True) s ps →
    FreshPages s.hist → ∀ p ∈ ps, p.Resolves core s
  := by
  intro h
  obtain ⟨s₀, hinit, -⟩ := exists_built_bootVmem
  obtain ⟨x, s, hrun, rfl, hallocs, hslot⟩ := activeThenMap_returns
  rw [activeThenMap, bind_of_ok hinit, bind_eq_ok] at hrun
  obtain ⟨id, s₁, hcreate, hrun⟩ := hrun
  rw [bind_eq_ok] at hrun
  obtain ⟨⟨⟩, s₂, hset, hrun⟩ := hrun
  rw [bind_eq_ok] at hrun
  obtain ⟨ret, s₃, hmap, hrun⟩ := hrun
  rw [bind_eq_ok] at hrun
  obtain ⟨⟨⟩, s₄, hflush, hpure⟩ := hrun
  cases hpure
  have hfresh := freshPages_of_sixPages hallocs
  have hcnt := vmCnt_of_create hcreate
  have hcnt₂ : 0 < s₂.vmCnt := by
    rw [(vmemSetactive_ok hset).1]
    exact hcnt
  have hrun₂ : Run 0 (Called 0) (fun _ _ _ => True) s₂ [] :=
    .step (.step (.init boot_bootVmem hinit) trivial (Called.create hcreate)) trivial
      (Called.setactive hcnt hset)
  have hcalled : Called 0 s₂ (.map 0 0x400000 0x400000 (mib 2) 0)
      [⟨.vm 0, 0x400000, 0x400000, mib 2⟩] s₃ := .map hcnt₂ rfl hmap
  have hrun₄ : Run 0 (Called 0) (fun _ _ _ => True) s [⟨.vm 0, 0x400000, 0x400000, mib 2⟩] :=
    .step (.step hrun₂ trivial hcalled) trivial (Called.flush hflush)
  obtain ⟨hkept, -⟩ := h 0 s _ hrun₄ hfresh _ (List.mem_singleton_self _)
  have hfirst := hkept 0 (by decide)
  rw [Vmem.translate, walk_of_empty hslot] at hfirst
  cases hfirst

end VirtMem
