import Gubernatrix.VirtMem.Failed
import Gubernatrix.VirtMem.TopLevel
import Gubernatrix.VirtMem.Unmap

/-!
# Promises

A call of `vmem_map` that returns 0 promises that its addresses are translated from then on. Cores
have copies of the top-level tables in their `ktable`; a state is coherent when the lower half of
each is that of the space that is active on the core.
-/

namespace VirtMem

open Program Radix PhysMem

/-! ### What is promised -/

/-- A range of addresses below a top-level table, and where it is mapped. -/
structure Promise where
  root : TablePtr
  virt : U64
  phys : U64
  size : U64

/-- Every address of the range is translated. -/
def Promise.Kept (p : Promise) (s : Vmem) : Prop :=
  ∀ o < p.size, s.translate p.root (p.virt + o) = some (p.phys + o)

/-- A request of whole pages that fits, is addressable, and gives back what it takes of the ranges
that are promised. -/
structure Sound (s : Vmem) (ps : List Promise) (vm : Option ℕ) (r : TablePtr)
    (virt phys size : U64) (perms : BitVec 32) : Prop where
  proper : Proper vm r virt phys size
  fits : Fits s.hugepage virt.toNat size.toNat
  addressable : Addressable s.hugepage phys.toNat size.toNat
  gives : ∀ p ∈ ps, p.root = r → ∀ o < p.size, s.Loses r virt phys size (p.virt + o) →
    ∃ acc, s.Gains r virt phys size perms (p.virt + o) acc ∧ acc.phys = p.phys + o

/-- What a call of `vmem_map` promises when it returns `ret`. -/
def promised (r : TablePtr) (virt phys size : U64) : VmemErrs → List Promise
  | .errNone => [⟨r, virt, phys, size⟩]
  | _ => []

theorem root_promised {r : TablePtr} {virt phys size : U64} {ret : VmemErrs} {p : Promise}
    (hp : p ∈ promised r virt phys size ret) :
  p.root = r
  := by
  cases ret with
  | errNone =>
      obtain rfl := List.mem_singleton.mp hp
      rfl
  | errAlreadymapped => cases hp
  | errContinue => cases hp
  | errNomapping => cases hp

section Kept

variable {s s' : Vmem} {ps : List Promise} {p : Promise}

/-- The same trees keep the same promises. -/
theorem Promise.Kept.of_look (h : p.Kept s) (hwf : WfCore s) (hwf' : WfCore s')
    (hroot : p.root ∈ roots) (hlook : ∀ q, s'.look p.root q = s.look p.root q) :
  p.Kept s'
  := by
  intro o ho
  rw [Vmem.translate, hwf.walk_of_look hwf' hroot hlook]
  apply h o ho

variable {vm : Option ℕ} {r : TablePtr} {virt phys size : U64} {perms : BitVec 32} {core : ℕ}
  {ret : VmemErrs} (hsound : Sound s ps vm r virt phys size perms) (hwf : Wf s)
  (hrequested : Requested perms core s r virt phys size ret s')

include hsound hwf hrequested

/-- A sound request keeps what was promised before. -/
theorem Sound.kept (hp : p ∈ ps) (hroot : p.root ∈ roots) (h : p.Kept s) :
  p.Kept s'
  := by
  by_cases hr : p.root = r
  · intro o ho
    have hbefore := h o ho
    rw [Vmem.translate] at hbefore ⊢
    obtain ⟨acc, hacc, hphys⟩ := Option.map_eq_some_iff.mp hbefore
    rw [hr] at hacc ⊢
    have hr' := rootOf_mem hsound.proper.root
    by_cases hloses : s.Loses r virt phys size (p.virt + o)
    · obtain ⟨acc', hgains, hphys'⟩ := hsound.gives p hp hr o ho hloses
      rw [hrequested.walk_gains hwf hr' (inTable_of_walk hacc) hgains, Option.map_some, hphys']
    · rw [hrequested.walk_kept hwf hr' hloses hacc, Option.map_some, hphys]
  · apply h.of_look hwf.toWfCore hrequested.wf.toWfCore hroot
    intro q
    rw [hrequested.other p.root hroot hr]

/-- A sound request keeps what it promises. -/
theorem Sound.kept_promised (hp : p ∈ promised r virt phys size ret) :
  p.Kept s'
  := by
  cases ret with
  | errNone =>
      obtain rfl := List.mem_singleton.mp hp
      intro o ho
      have hwalk := hrequested.walk hwf hsound.proper hsound.fits hsound.addressable o ho
      rw [Vmem.translate, hwalk]
      rfl
  | errAlreadymapped => cases hp
  | errContinue => cases hp
  | errNomapping => cases hp

end Kept

/-! ### Copies of the top-level tables -/

/-- The space that is active on a core. -/
def Vmem.active (s : Vmem) (core : ℕ) : Option ℕ := (s.lcl core).bind Lcl.curVmem

/-- The `ktable`s of the cores are different tables, and their lower halves those of the spaces
that are active. -/
structure Coherent (s : Vmem) : Prop extends Wf s where
  apart : ∀ {core core' t}, s.ktable core = some t → s.ktable core' = some t → core = core'
  exists_vm : ∀ {core id}, s.active core = some id → id < s.vmCnt
  lower : ∀ {core id t}, s.active core = some id → s.ktable core = some t →
    ∀ idx, lowerHalf idx = true → s.tables t idx = s.tables (.vm id) idx

theorem Steady.active {s s' : Vmem} (h : Steady s s') (core : ℕ) :
  s'.active core = s.active core
  := by
  rw [Vmem.active, Vmem.active, h.lcl]

theorem not_upperHalf {idx : ℕ} (h : lowerHalf idx = true) :
  ¬ upperHalf idx = true
  := by
  rw [lowerHalf, decide_eq_true_eq] at h
  rw [upperHalf, Bool.and_eq_true, decide_eq_true_eq]
  omega

section Coherent

variable {s s' : Vmem} {core id : ℕ} {t : TablePtr} (h : Coherent s)

include h

/-- Where a space is active, `vmem_virttophys` translates its addresses. -/
theorem Coherent.vmemVirttophys (hactive : s.active core = some id) (ht : s.ktable core = some t)
    {a : U64} (hin : InTable (.vm id) (index a 0)) :
  vmemVirttophys core a s = .ok (s.translate (.vm id) a) s
  := by
  have hsame := h.lower hactive ht
  obtain ⟨lcl, hlcl, hreach⟩ := Option.bind_eq_some_iff.mp ht
  obtain ⟨v, hv, rfl⟩ := Option.map_eq_some_iff.mp hreach
  have hpage : InTable (.page v) (index a 0) := index_lt a (by decide)
  have hlower : lowerHalf (index a 0) = true := decide_eq_true hin
  have hroot : vmemVirttophysSt 4 (.page v) a s = vmemVirttophysSt 4 (.vm id) a s :=
    vmemVirttophysSt_congr hpage hin (hsame _ hlower)
  rw [VirtMem.vmemVirttophys, bind_of_ok (getLcl_eq hlcl), bind_of_ok (tableAt_of_reach hv), hroot]
  apply h.vmemVirttophysSt_root (root_vm id) hin

/-- A state with the same tables. -/
theorem Coherent.of_same (hsteady : Steady s s') (hsame : s'.tables = s.tables) :
  Coherent s'
  where
  toWf := h.toWf.of_same hsteady fun _ _ _ _ _ => by rw [hsame]
  apart ht ht' := by
    rw [hsteady.ktable] at ht ht'
    apply h.apart ht ht'
  exists_vm hactive := by
    rw [hsteady.active] at hactive
    rw [hsteady.vmCnt]
    apply h.exists_vm hactive
  lower hactive ht := by
    rw [hsteady.active] at hactive
    rw [hsteady.ktable] at ht
    rw [hsame]
    apply h.lower hactive ht

/-- The same tables keep the same promises. -/
theorem Promise.Kept.of_same {p : Promise} (hkept : p.Kept s) (hsteady : Steady s s')
    (hsame : s'.tables = s.tables) (hroot : p.root ∈ roots) :
  p.Kept s'
  := by
  have h' := h.of_same hsteady hsame
  apply hkept.of_look h.toWfCore h'.toWfCore hroot
  apply look_of_same hsteady
  intro _ _ _
  rw [hsame]

end Coherent

/-! ### Steps -/

section Steps

variable {s s' : Vmem} {core id : ℕ} {t : TablePtr} {perms : BitVec 32} {vm : Option ℕ}
  {r : TablePtr} {virt phys size : U64} {ret : VmemErrs}

/-- A request leaves the lower half of each `ktable` as it is. -/
theorem Requested.ktable_lower (h : Requested perms core s r virt phys size ret s') {core' : ℕ}
    (ht : s.ktable core' = some t) {idx : ℕ} (hidx : lowerHalf idx = true) :
  s'.tables t idx = s.tables t idx
  := by
  have hoff : ∀ r ∈ roots, ∀ l, s'.node r l ≠ some t := by
    rw [← h.steady.ktable] at ht
    apply h.wf.ktable_off ht
  by_cases hcopy : virt.slt 0 = true ∧ s.ktable core = some t
  · obtain ⟨t', ht', htable⟩ := h.ktable hcopy.1
    obtain rfl := Option.some.inj (ht'.symm.trans hcopy.2)
    rw [htable]
    apply if_neg (not_upperHalf hidx)
  · rw [h.frame hoff]
    intro hkernel hsame
    apply hcopy ⟨hkernel, hsame⟩

/-- A request keeps the copies in order, if its top-level table is that of no active space or
stays as it is. -/
theorem Coherent.map (h : Coherent s) (hrequested : Requested perms core s r virt phys size ret s')
    (hsame : ∀ core' id, r = .vm id → s.active core' = some id → s'.tables r = s.tables r) :
  Coherent s'
  where
  toWf := hrequested.wf
  apart ht ht' := by
    rw [hrequested.steady.ktable] at ht ht'
    apply h.apart ht ht'
  exists_vm hactive := by
    rw [hrequested.steady.active] at hactive
    rw [hrequested.steady.vmCnt]
    apply h.exists_vm hactive
  lower := by
    intro core' id t hactive ht idx hidx
    rw [hrequested.steady.active] at hactive
    rw [hrequested.steady.ktable] at ht
    have hvm : s'.tables (.vm id) = s.tables (.vm id) := by
      by_cases hr : r = .vm id
      · rw [← hr]
        apply hsame core' id hr hactive
      · apply hrequested.top_other h.toWf (root_vm id)
        rintro rfl
        apply hr rfl
    rw [hrequested.ktable_lower ht hidx, hvm]
    apply h.lower hactive ht idx hidx

/-- A new space keeps the copies in order. -/
theorem Coherent.created (h : Coherent s) (pos : U64) :
  Coherent (s.created pos)
  where
  toWf := h.toWf.created pos
  apart := h.apart
  exists_vm hactive := Nat.lt_succ_of_lt (h.exists_vm hactive)
  lower := by
    intro core id t hactive ht idx hidx
    have hne : t ≠ .vm s.vmCnt := by
      rintro rfl
      apply h.ktable_off ht (.vm s.vmCnt) (root_vm _) [] rfl
    have hne' : TablePtr.vm id ≠ .vm s.vmCnt := by
      intro heq
      have hlt := h.exists_vm hactive
      have := TablePtr.vm.inj heq
      omega
    rw [Vmem.created, Vmem.tables_wipe]
    rw [Function.update_of_ne hne, Function.update_of_ne hne']
    apply h.lower hactive ht idx hidx

/-- A new space keeps the promises about the others. -/
theorem Promise.Kept.created {p : Promise} (h : p.Kept s) (hwf : Wf s) (pos : U64)
    (hroot : p.root ∈ roots) (hne : p.root ≠ .vm s.vmCnt) :
  p.Kept (s.created pos)
  := by
  apply h.of_look hwf.toWfCore (hwf.created pos).toWfCore hroot
  apply hwf.look_created pos hroot hne

/-- A copy of what is there already. -/
theorem tables_copy_self {half : ℕ → Bool} {dst src : TablePtr}
    (h : ∀ idx, half idx = true → s.tables src idx = s.tables dst idx) :
  (s.copy half dst src).tables = s.tables
  := by
  funext u
  by_cases hu : u = dst
  · subst hu
    funext idx
    rw [tables_copy]
    dsimp only
    by_cases hidx : half idx = true
    · rw [if_pos hidx, h idx hidx]
    · rw [if_neg hidx]
  · apply tables_copy_of_ne hu

theorem getLcl_ok {lcl : Lcl} (h : getLcl core s = .ok lcl s') :
  s' = s ∧ s.lcl core = some lcl
  := by
  cases hcore : s.lcl core with
  | none =>
      rw [getLcl_none hcore] at h
      cases h
  | some lcl' =>
      rw [getLcl_eq hcore] at h
      cases h
      use rfl

/-- Where the copies are in order, saving the active space changes no table. -/
theorem Coherent.saveUser (h : Coherent s) (hrun : saveUser core s = .ok ⟨⟩ s') :
  Steady s s' ∧ s'.tables = s.tables
  := by
  rw [VirtMem.saveUser, bind_eq_ok] at hrun
  obtain ⟨lcl, s₁, hlcl, hrun⟩ := hrun
  obtain ⟨rfl, hcore⟩ := getLcl_ok hlcl
  cases hcur : lcl.curVmem with
  | none =>
      rw [hcur] at hrun
      cases hrun
      use Std.Refl.refl _
  | some id =>
      rw [hcur] at hrun
      dsimp only at hrun
      rw [bind_eq_ok] at hrun
      obtain ⟨t, s₂, htable, hrun⟩ := hrun
      obtain ⟨rfl, v, hv, rfl⟩ := tableAt_ok htable
      rw [memcpyHalf_eq] at hrun
      cases hrun
      have hactive : s₂.active core = some id := by
        rw [Vmem.active, hcore, Option.bind_some, hcur]
      have ht : s₂.ktable core = some (.page v) := by
        rw [Vmem.ktable, hcore, Option.bind_some, hv]
        rfl
      use steady_copy
      apply tables_copy_self (h.lower hactive ht)

theorem Synced.of_same (h : Synced s core) (hsteady : Steady s s') (hsame : s'.tables = s.tables) :
  Synced s' core
  := by
  obtain ⟨lcl, v, hlcl, hv, heq⟩ := h
  use lcl, v
  rw [hsteady.lcl, hsteady.physMapSz, hsame]
  use hlcl, hv

/-- Where the upper half of the `ktable` is that of `kmem`, saving it changes no table. -/
theorem Synced.saveKernel (h : Synced s core) (hrun : saveKernel core s = .ok ⟨⟩ s') :
  Steady s s' ∧ s'.tables = s.tables
  := by
  obtain ⟨lcl, v, hlcl, hv, hsame⟩ := h
  rw [VirtMem.saveKernel, bind_of_ok (getLcl_eq hlcl), bind_of_ok (tableAt_of_reach hv),
    memcpyHalf_eq] at hrun
  cases hrun
  use steady_copy
  apply tables_copy_self hsame

/-- The state after `loadUser`, with the `ktable` at `t`. -/
def Vmem.load (s : Vmem) (core id : ℕ) (lcl : Lcl) (t : TablePtr) : Vmem :=
  { s.copy lowerHalf t (.vm id) with
    lcl := Function.update s.lcl core (some { lcl with curVmem := some id }) }

theorem loadUser_ok (hrun : loadUser core id s = .ok ⟨⟩ s') :
  ∃ lcl t, s.lcl core = some lcl ∧ s.ktable core = some t ∧ s' = s.load core id lcl t
  := by
  rw [VirtMem.loadUser, bind_eq_ok] at hrun
  obtain ⟨lcl, s₁, hlcl, hrun⟩ := hrun
  obtain ⟨rfl, hcore⟩ := getLcl_ok hlcl
  rw [bind_eq_ok] at hrun
  obtain ⟨t, s₂, htable, hrun⟩ := hrun
  obtain ⟨rfl, v, hv, rfl⟩ := tableAt_ok htable
  rw [bind_of_ok memcpyHalf_eq, modify_apply] at hrun
  cases hrun
  use lcl, .page v, hcore
  constructor
  · rw [Vmem.ktable, hcore, Option.bind_some, hv]
    rfl
  · rfl

section Load

variable {lcl : Lcl} (hlcl : s.lcl core = some lcl)

include hlcl

/-- Another space on a core leaves it its `ktable`. -/
theorem Vmem.ktable_load (core' : ℕ) :
  (s.load core id lcl t).ktable core' = s.ktable core'
  := by
  rw [Vmem.ktable, Vmem.ktable]
  change (Function.update s.lcl core (some { lcl with curVmem := some id }) core').bind _ = _
  by_cases hcore : core' = core
  · subst hcore
    rw [Function.update_self, hlcl]
    rfl
  · rw [Function.update_of_ne hcore]
    rfl

omit hlcl in
theorem Vmem.active_load (core' : ℕ) :
  (s.load core id lcl t).active core' = if core' = core then some id else s.active core'
  := by
  rw [Vmem.active, Vmem.active]
  change (Function.update s.lcl core (some { lcl with curVmem := some id }) core').bind _ = _
  by_cases hcore : core' = core
  · subst hcore
    rw [Function.update_self, if_pos rfl]
    rfl
  · rw [Function.update_of_ne hcore, if_neg hcore]

variable (ht : s.ktable core = some t)

include ht

theorem Wf.load (hwf : Wf s) :
  Wf (s.load core id lcl t) ∧ ∀ r ∈ roots, ∀ p, (s.load core id lcl t).look r p = s.look r p
  := by
  obtain ⟨hwf', -, hlook⟩ := hwf.copy_ktable ht lowerHalf (.vm id)
  have hwider : Wider (s.copy lowerHalf t (.vm id)) (s.load core id lcl t) :=
    ⟨fun h => h, fun h => h, hwf.physMap, List.suffix_refl _⟩
  have hsame : ∀ r ∈ roots, ∀ l u, (s.copy lowerHalf t (.vm id)).node r l = some u →
      (s.load core id lcl t).tables u = (s.copy lowerHalf t (.vm id)).tables u :=
    fun _ _ _ _ _ => rfl
  constructor
  · apply Wf.widen hwf' hwider hsame
    intro core' lcl' hlcl'
    change Function.update s.lcl core (some { lcl with curVmem := some id }) core' = _ at hlcl'
    by_cases hcore : core' = core
    · subst hcore
      rw [Function.update_self] at hlcl'
      cases hlcl'
      have hcopy : (s.copy lowerHalf t (.vm id)).lcl core' = some lcl := hlcl
      obtain ⟨hhanded, hoff⟩ := hwf'.ktable hcopy
      use hhanded
      apply hoff
    · rw [Function.update_of_ne hcore] at hlcl'
      apply hwf'.ktable hlcl'
  · intro r hr p
    rw [hwider.look hwf' hsame hr, hlook r hr]

/-- Another space on a core keeps the copies in order. -/
theorem Coherent.load (h : Coherent s) (hid : id < s.vmCnt) :
  Coherent (s.load core id lcl t)
  where
  toWf := (h.toWf.load hlcl ht).1
  apart ht' ht'' := by
    rw [Vmem.ktable_load hlcl] at ht' ht''
    apply h.apart ht' ht''
  exists_vm := by
    intro core' id' hactive
    rw [Vmem.active_load] at hactive
    split at hactive
    · cases hactive
      apply hid
    · apply h.exists_vm hactive
  lower := by
    intro core' id' t' hactive ht' idx hidx
    rw [Vmem.active_load] at hactive
    rw [Vmem.ktable_load hlcl] at ht'
    have hroot (id : ℕ) : TablePtr.vm id ≠ t := by
      rintro rfl
      apply h.ktable_off ht (.vm id) (root_vm _) [] rfl
    change (s.copy lowerHalf t (.vm id)).tables t' idx
      = (s.copy lowerHalf t (.vm id)).tables (.vm id') idx
    rw [tables_copy_of_ne (hroot id')]
    split at hactive
    next hcore =>
      subst hcore
      cases hactive
      obtain rfl := Option.some.inj (ht'.symm.trans ht)
      rw [tables_copy]
      apply if_pos hidx
    next hcore =>
      have hne : t' ≠ t := by
        rintro rfl
        apply hcore (h.apart ht' ht)
      rw [tables_copy_of_ne hne]
      apply h.lower hactive ht' idx hidx

end Load

/-! ### Cores that are set up -/

section Setup

variable {cpuHugepage : Bool} {pmem : Pmem} {a v : U64}

theorem lcl_withKtable (core' : ℕ) :
  (s.withKtable cpuHugepage pmem core a v).lcl core'
    = if core' = core then some { ktable := a, curVmem := none } else s.lcl core'
  := Function.update_apply ..

/-- The `ktable` of a core that is set up is no other core's. -/
theorem Wf.ktable_ne (hwf : Wf s) (hreach : reach s.physMapSz a = some v) (ha : IsPage a)
    (hnot : ¬ Handed s.hist a) (core' : ℕ) :
  s.ktable core' ≠ some (.page v)
  := by
  intro ht
  obtain ⟨lcl, hlcl, hmap⟩ := Option.bind_eq_some_iff.mp ht
  obtain ⟨v', hv', heq⟩ := Option.map_eq_some_iff.mp hmap
  obtain rfl := TablePtr.page.inj heq
  obtain ⟨hhanded, -⟩ := hwf.ktable hlcl
  obtain rfl := reach_injective hwf.physMap ha hhanded.2 hreach hv'
  apply hnot hhanded

/-- A core that is set up keeps the copies in order. -/
theorem Coherent.mpInit (h : Coherent s) (hrun : vmemMpInit core cpuHugepage s = .ok ⟨⟩ s')
    (hfresh : FreshPages s'.hist) :
  Coherent s' ∧ Synced s' core
  := by
  have hwf := (h.toWf.vmemMpInit hrun hfresh).1
  obtain ⟨a, v, pmem, hreach, rfl⟩ := vmemMpInit_ok hrun
  have hgrant : FreshPages (.alloc (some a) :: s.hist) := hfresh.of_suffix ⟨[_, _], rfl⟩
  have hother := h.toWf.ktable_ne hreach hgrant.isPage_head hgrant.not_handed
  set s₁ := s.withKtable cpuHugepage pmem core a v with hs₁
  have hsteady : Steady s₁ (s₁.copy upperHalf (.page v) .kmem) := steady_copy
  have hreach' : reach s₁.physMapSz a = some v := hreach
  have hlcl (core' : ℕ) : (s₁.copy upperHalf (.page v) .kmem).lcl core'
      = if core' = core then some { ktable := a, curVmem := none } else s.lcl core' := by
    rw [hsteady.lcl]
    apply lcl_withKtable
  have hktable (core' : ℕ) (hne : core' ≠ core) :
      (s₁.copy upperHalf (.page v) .kmem).ktable core' = s.ktable core' := by
    rw [Vmem.ktable, Vmem.ktable, hlcl, if_neg hne]
    rfl
  have hself : (s₁.copy upperHalf (.page v) .kmem).ktable core = some (.page v) := by
    rw [hsteady.ktable]
    apply ktable_withKtable hreach
  have hsame {u : TablePtr} (hu : u ≠ .page v) :
      (s₁.copy upperHalf (.page v) .kmem).tables u = s.tables u := by
    rw [tables_copy_of_ne hu, hs₁, tables_withKtable, Function.update_of_ne hu]
  constructor
  · constructor
    · exact hwf
    · intro core₁ core₂ t ht ht'
      by_cases h₁ : core₁ = core
      · by_cases h₂ : core₂ = core
        · rw [h₁, h₂]
        · rw [h₁, hself] at ht
          rw [hktable core₂ h₂, ← ht] at ht'
          apply absurd ht' (hother core₂)
      · by_cases h₂ : core₂ = core
        · rw [h₂, hself] at ht'
          rw [hktable core₁ h₁, ← ht'] at ht
          apply absurd ht (hother core₁)
        · rw [hktable core₁ h₁] at ht
          rw [hktable core₂ h₂] at ht'
          apply h.apart ht ht'
    · intro core' id hactive
      rw [Vmem.active, hlcl] at hactive
      split at hactive
      · cases hactive
      · apply h.exists_vm hactive
    · intro core' id t hactive ht
      rw [Vmem.active, hlcl] at hactive
      split at hactive
      · cases hactive
      next hne =>
        rw [hktable core' hne] at ht
        have ht' : t ≠ .page v := by
          rintro rfl
          apply hother core' ht
        rw [hsame ht', hsame (root_vm id v)]
        apply h.lower hactive ht
  · use { ktable := a, curVmem := none }, v
    constructor
    · rw [hlcl, if_pos rfl]
    · use hreach'
      intro idx hidx
      rw [tables_copy, tables_copy_of_ne (root_kmem v)]
      apply if_pos hidx

/-- After `vmem_init` no space is active, and only one core is set up. -/
theorem Boot.coherent {curPtable : U64} (hboot : Boot s)
    (hrun : vmemInit core cpuHugepage curPtable s = .ok ⟨⟩ s') (hfresh : FreshPages s'.hist) :
  Coherent s' ∧ Synced s' core ∧ ∀ core', s'.active core' = none
  := by
  obtain ⟨hwf, -, hsync, -⟩ := hboot.after hrun hfresh
  obtain ⟨pmem, a, v, s₂, s₃, hinit⟩ := vmemInit_ok hrun
  obtain ⟨r₁, htop⟩ := hinit.top
  obtain ⟨r₂, hphysmap⟩ := hinit.physmap
  obtain ⟨r₃, huc⟩ := hinit.physmapUc
  have hlcl (core' : ℕ) : s'.lcl core'
      = if core' = core then some { ktable := a, curVmem := none } else none := by
    rw [(steady_vmemMap huc).lcl, (steady_vmemMap hphysmap).lcl]
    change s₂.lcl core' = _
    rw [(steady_vmemMap htop).lcl, ← hboot.lcl core']
    change (s.withKtable cpuHugepage pmem core a v).lcl core' = _
    apply lcl_withKtable
  have hactive (core' : ℕ) : s'.active core' = none := by
    rw [Vmem.active, hlcl]
    split
    · rfl
    · rfl
  have hcore {core' : ℕ} {t : TablePtr} (ht : s'.ktable core' = some t) : core' = core := by
    rw [Vmem.ktable, hlcl] at ht
    split at ht
    next heq => exact heq
    next => cases ht
  constructor
  · constructor
    · exact hwf
    · intro core₁ core₂ t ht ht'
      rw [hcore ht, hcore ht']
    · intro core' id hid
      rw [hactive] at hid
      cases hid
    · intro core' id t hid
      rw [hactive] at hid
      cases hid
  · use hsync

end Setup

/-! ### Histories -/

section Along

variable {R : Vmem → Vmem → Prop} [Std.Refl R]

theorem along_getLcl :
  Along R (getLcl core)
  := by
  intro s
  cases h : s.lcl core with
  | none =>
      rw [getLcl_none h]
      apply Std.Refl.refl
  | some lcl =>
      rw [getLcl_eq h]
      apply Std.Refl.refl

variable [IsTrans Vmem R] (hR : Steps R)

include hR

theorem Steps.saveUser :
  Along R (saveUser core)
  := by
  apply Along.bind (R := R) along_getLcl
  intro lcl
  cases lcl.curVmem with
  | none => apply Along.pure
  | some id =>
      apply (hR.tableAt _).bind
      intro pTable
      apply hR.memcpyHalf

theorem Steps.saveKernel :
  Along R (saveKernel core)
  := by
  apply Along.bind (R := R) along_getLcl
  intro lcl
  apply (hR.tableAt _).bind
  intro pTable
  apply hR.memcpyHalf

theorem Steps.vmemSavestate :
  Along R (vmemSavestate core)
  := by
  apply hR.saveUser.bind
  intro _
  apply hR.saveKernel

theorem Steps.loadUser (hload : ∀ s lcl, R s { s with lcl := Function.update s.lcl core lcl }) :
  Along R (loadUser core id)
  := by
  apply Along.bind (R := R) along_getLcl
  intro lcl
  apply (hR.tableAt _).bind
  intro pTable
  apply (hR.memcpyHalf _ _ _).bind
  intro _
  apply Along.modify
  intro s
  apply hload

end Along

theorem along_loadUser :
  Along Longer (loadUser core id)
  := steps_longer.loadUser fun s _ => List.suffix_refl s.hist

/-- The history of a call that returned. -/
theorem hist_of_along {α : Type} {x : Program Vmem α} {a : α} (hx : Along Longer x)
    (h : x s = .ok a s') :
  s.hist <:+ s'.hist
  := by
  have hs := hx s
  rw [h] at hs
  exact hs

theorem hist_vmemCreate {id : Option ℕ} (h : vmemCreate s = .ok id s') :
  s.hist <:+ s'.hist
  := by
  rcases vmemCreate_ok h with ⟨-, rfl⟩ | ⟨-, pos, rfl⟩
  · apply List.suffix_refl
  · apply List.suffix_cons

end Steps

/-! ### Runs -/

/-- A run from `vmem_init` on a core on, of steps that meet a condition, with what they promise. -/
inductive Run {α : Type} (core : ℕ) (step : Vmem → α → List Promise → Vmem → Prop)
    (C : Vmem → List Promise → α → Prop) : Vmem → List Promise → Prop where
  | init {cpuHugepage : Bool} {curPtable : U64} {s s' : Vmem} : Boot s →
      vmemInit core cpuHugepage curPtable s = .ok ⟨⟩ s' → Run core step C s' []
  | step {s s' : Vmem} {ps new : List Promise} {a : α} : Run core step C s ps → C s ps a →
      step s a new s' → Run core step C s' (new ++ ps)

/-- An invariant that every step keeps, as long as the allocator hands out fresh pages. -/
theorem Run.keeps {α : Type} {core : ℕ} {step : Vmem → α → List Promise → Vmem → Prop}
    {C : Vmem → List Promise → α → Prop} {Inv : Vmem → List Promise → Prop}
    (hinit : ∀ {s cpuHugepage curPtable s'}, Boot s →
      vmemInit core cpuHugepage curPtable s = .ok ⟨⟩ s' → FreshPages s'.hist → Inv s' [])
    (hhist : ∀ {s a new s'}, step s a new s' → s.hist <:+ s'.hist)
    (hstep : ∀ {s ps a new s'}, Inv s ps → C s ps a → step s a new s' → FreshPages s'.hist →
      Inv s' (new ++ ps))
    {s : Vmem} {ps : List Promise} (h : Run core step C s ps) (hfresh : FreshPages s.hist) :
  Inv s ps
  := by
  induction h with
  | init hboot hrun => apply hinit hboot hrun hfresh
  | step _ hC ha ih =>
      apply hstep _ hC ha hfresh
      apply ih
      apply hfresh.of_suffix (hhist ha)

end VirtMem
