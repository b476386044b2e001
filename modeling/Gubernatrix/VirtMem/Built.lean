import Gubernatrix.VirtMem.Establish

/-!
# States that are built

The states that `vmem_init`, `vmem_mp_init`, `vmem_create` and `vmem_map` build from the one at
boot. They are well-formed as long as the allocator has handed out fresh pages.
-/

namespace VirtMem

open Program Radix PhysMem

/-- The state before `vmem_init`: nothing is set up. -/
structure Boot (s : Vmem) : Prop where
  root : ∀ r ∈ roots, ∀ i, s.tables r i = 0
  hugepage : s.hugepage = false
  physMapSz : s.physMapSz = 0
  lcl : ∀ core, s.lcl core = none
  hist : s.hist = []

/-- The states built by `vmem_init` and, after it, calls on any core. -/
inductive Built : Vmem → Prop where
  | init {core : ℕ} {cpuHugepage : Bool} {curPtable : U64} {s s' : Vmem} :
      Boot s → vmemInit core cpuHugepage curPtable s = .ok ⟨⟩ s' → Built s'
  | mpInit {core : ℕ} {cpuHugepage : Bool} {s s' : Vmem} :
      Built s → vmemMpInit core cpuHugepage s = .ok ⟨⟩ s' → Built s'
  | create {id : Option ℕ} {s s' : Vmem} : Built s → vmemCreate s = .ok id s' → Built s'
  | map {core : ℕ} {vm : Option ℕ} {virt phys size : U64} {perms : BitVec 32} {ret : VmemErrs}
      {s s' : Vmem} : Built s → 4096 ∣ size.toNat →
      vmemMap core vm virt phys size perms s = .ok ret s' → Built s'

/-! ### Wider states -/

section Widen

variable {s s' : Vmem}

/-- Large pages and the direct map are there where they were, and the history has grown. -/
structure Wider (s s' : Vmem) : Prop where
  hugepage : s.hugepage = true → s'.hugepage = true
  reach : ∀ {a v}, reach s.physMapSz a = some v → reach s'.physMapSz a = some v
  physMap : s'.physMapSz.toNat ≤ 2 ^ 38
  hist : s.hist <:+ s'.hist

theorem Wider.avail (h : Wider s s') {lv : ℕ} (havail : largepageAvail s.hugepage lv = true) :
  largepageAvail s'.hugepage lv = true
  := by
  match lv, havail with
  | 1, havail => exact h.hugepage havail
  | _ + 2, _ => rfl

theorem Wider.entry (h : Wider s s') {lv : ℕ} {e : U64} (he : EntryOk s lv e) :
  EntryOk s' lv e
    ∧ link s'.hugepage s'.physMapSz lv e = link s.hugepage s.physMapSz lv e
    ∧ isLeaf s'.hugepage lv e = isLeaf s.hugepage lv e
  := by
  cases he with
  | empty => exact ⟨.empty, by rw [link_zero, link_zero], by rw [isLeaf_zero, isLeaf_zero]⟩
  | @table a hlv ha hreach =>
      obtain ⟨v, hv⟩ := hreach
      refine ⟨.table hlv (ha.mono h.hist) ⟨v, h.reach hv⟩, ?_, ?_⟩
      · rw [link_linkEntry _ _ hlv ha.2, link_linkEntry _ _ hlv ha.2, hv, h.reach hv]
      · rw [isLeaf_linkEntry _ hlv, isLeaf_linkEntry _ hlv]
  | @leaf phys perms havail =>
      have hleaf : isLeaf s.hugepage lv (leafEntry phys perms lv) = true := isLeaf_leafEntry havail
      have hleaf' : isLeaf s'.hugepage lv (leafEntry phys perms lv) = true :=
        isLeaf_leafEntry (h.avail havail)
      refine ⟨.leaf (h.avail havail), ?_, by rw [hleaf, hleaf']⟩
      rw [exclusive_link _ _ _ _ hleaf, exclusive_link _ _ _ _ hleaf']

section Same

variable (hwf : Wf s) (h : Wider s s')
  (hsame : ∀ r ∈ roots, ∀ l u, s.node r l = some u → s'.tables u = s.tables u)

include hwf h hsame

theorem Wider.node {r : TablePtr} (hr : r ∈ roots) (l : List ℕ) :
  s'.node r l = s.node r l
  := by
  apply node_congr
  intro l' u hu
  refine ⟨hsame r hr l' u hu, fun i => ?_⟩
  have := (h.entry (hwf.entry hr hu i)).2.1
  rwa [Nat.zero_add]

theorem Wider.look {r : TablePtr} (hr : r ∈ roots) (p : List ℕ) :
  s'.look r p = s.look r p
  := by
  apply look_congr
  intro l' u hu
  refine ⟨hsame r hr l' u hu, fun i => ?_⟩
  have := (h.entry (hwf.entry hr hu i)).2
  rwa [Nat.zero_add]

/-- A state that is wider, with the same trees, is well-formed. -/
theorem Wf.widen
    (hktable : ∀ {core lcl}, s'.lcl core = some lcl → Handed s'.hist lcl.ktable
      ∧ ∀ {v}, VirtMem.reach s'.physMapSz lcl.ktable = some v →
        ∀ r ∈ roots, ∀ l, s.node r l ≠ some (.page v)) :
  Wf s'
  where
  separate := hwf.separate.congr fun r hr l => h.node hwf hsame hr l
  entry := by
    intro r l t hr ht i
    rw [h.node hwf hsame hr] at ht
    rw [hsame r hr l t ht]
    exact (h.entry (hwf.entry hr ht i)).1
  beyond := by
    intro r l t hr ht i hi
    rw [h.node hwf hsame hr] at ht
    rw [hsame r hr l t ht]
    exact hwf.beyond hr ht hi
  physMap := h.physMap
  ktable := by
    intro core lcl hlcl
    refine ⟨(hktable hlcl).1, fun hv r hr l => ?_⟩
    rw [h.node hwf hsame hr]
    exact (hktable hlcl).2 hv r hr l
  filled := by
    intro r l t hr ht hne
    rw [h.node hwf hsame hr] at ht
    obtain ⟨p, hp⟩ := hwf.filled hr ht hne
    exact ⟨p, by rwa [h.look hwf hsame hr]⟩

end Same

end Widen

/-! ### Setting up a core -/

/-- The state after `initKtable` with the page `a`, reached at `v`. -/
def Vmem.withKtable (s : Vmem) (cpuHugepage : Bool) (pmem : Pmem) (core : ℕ) (a v : U64) : Vmem :=
  { s with
    pmem := pmem
    tables := Function.update s.tables (.page v) fun _ => 0
    hugepage := s.hugepage || cpuHugepage
    lcl := Function.update s.lcl core (some { ktable := a, curVmem := none })
    hist := .memset (.page v) :: .alloc (some a) :: s.hist }

section Setup

@[simp]
theorem tables_withKtable (s : Vmem) (cpuHugepage : Bool) (pmem : Pmem) (core : ℕ) (a v : U64) :
  (s.withKtable cpuHugepage pmem core a v).tables = Function.update s.tables (.page v) fun _ => 0
  := rfl

variable {s s' : Vmem} {core : ℕ} {cpuHugepage : Bool} {a v : U64} {pmem : Pmem} {t : TablePtr}

theorem initKtable_ok (h : initKtable core cpuHugepage s = .ok t s') :
  ∃ a v pmem, reach s.physMapSz a = some v ∧ t = .page v
    ∧ s' = s.withKtable cpuHugepage pmem core a v
  := by
  rw [initKtable, bind_of_ok (modify_apply _ s)] at h
  rcases allocpage_cases { s with hugepage := s.hugepage || cpuHugepage } with
    ⟨a, pmem, halloc⟩ | ⟨e, pmem, halloc⟩
  · rw [bind_of_ok halloc] at h
    cases hreach : reach s.physMapSz a with
    | none =>
        rw [bind_of_error (tableAt_of_none (by exact hreach))] at h
        cases h
    | some v =>
        rw [bind_of_ok (tableAt_of_reach (by exact hreach)), bind_of_ok memsetTable_eq,
          bind_of_ok (modify_apply _ _)] at h
        cases h
        exact ⟨a, v, pmem, hreach, rfl, rfl⟩
  · rw [bind_of_error halloc] at h
    cases h

/-- A state without tables below the top-level ones. -/
theorem Wf.of_blank (hroot : ∀ r ∈ roots, ∀ i, s.tables r i = 0)
    (hmap : s.physMapSz.toNat ≤ 2 ^ 38)
    (hktable : ∀ {core lcl}, s.lcl core = some lcl → Handed s.hist lcl.ktable) :
  Wf s
  := by
  have hnode : ∀ {r l t}, r ∈ roots → s.node r l = some t → l = [] ∧ t = r := by
    intro r l t hr ht
    cases l with
    | nil => exact ⟨rfl, (Option.some.inj ht).symm⟩
    | cons i l =>
        rw [Vmem.node, Radix.node, hroot r hr, link_zero] at ht
        cases ht
  refine ⟨⟨?_, ?_, ?_, hmap, ?_⟩, ?_⟩
  · intro r r' l l' t hr hr' ht ht'
    obtain ⟨rfl, rfl⟩ := hnode hr ht
    obtain ⟨rfl, rfl⟩ := hnode hr' ht'
    exact ⟨rfl, rfl⟩
  · intro r l t hr ht i
    obtain ⟨rfl, rfl⟩ := hnode hr ht
    rw [hroot t hr]
    exact .empty
  · intro r l t hr ht i _
    obtain ⟨rfl, rfl⟩ := hnode hr ht
    exact hroot t hr i
  · intro core lcl hlcl
    refine ⟨hktable hlcl, fun {v} _ r hr l ht => ?_⟩
    obtain ⟨-, rfl⟩ := hnode hr ht
    exact hr v rfl
  · intro r l t hr ht hne
    exact absurd (hnode hr ht).1 hne

/-- A `ktable` is set up outside the trees. -/
theorem Wf.withKtable (hwf : Wf s) (core : ℕ) (cpuHugepage : Bool) (pmem : Pmem)
    (hreach : reach s.physMapSz a = some v)
    (hfresh : FreshPages (s.withKtable cpuHugepage pmem core a v).hist) :
  Wf (s.withKtable cpuHugepage pmem core a v)
    ∧ (∀ r ∈ roots, ∀ l,
      (s.withKtable cpuHugepage pmem core a v).node r l = s.node r l)
    ∧ ∀ r ∈ roots, ∀ p, (s.withKtable cpuHugepage pmem core a v).look r p = s.look r p
  := by
  have hgrant : FreshPages (.alloc (some a) :: s.hist) :=
    hfresh.of_suffix (List.suffix_cons _ _)
  have hoff : ∀ r ∈ roots, ∀ l, s.node r l ≠ some (.page v) := fun r hr =>
    hwf.node_ne hgrant.isPage_head hgrant.not_handed hreach hr
  have hsuffix : s.hist <:+ (s.withKtable cpuHugepage pmem core a v).hist :=
    ⟨[_, _], rfl⟩
  have hwider : Wider s (s.withKtable cpuHugepage pmem core a v) :=
    ⟨fun h => by simp [Vmem.withKtable, h], fun h => h, hwf.physMap, hsuffix⟩
  have hsame : ∀ r ∈ roots, ∀ l u, s.node r l = some u →
      (s.withKtable cpuHugepage pmem core a v).tables u = s.tables u := by
    intro r hr l u hu
    refine Function.update_of_ne ?_ _ _
    rintro rfl
    exact hoff r hr l hu
  refine ⟨Wf.widen hwf hwider hsame ?_, fun r hr => hwider.node hwf hsame hr,
    fun r hr => hwider.look hwf hsame hr⟩
  intro core' lcl hlcl
  by_cases hcore : core' = core
  · subst hcore
    obtain rfl : { ktable := a, curVmem := none } = lcl := by
      simpa [Vmem.withKtable] using hlcl
    refine ⟨⟨?_, hgrant.isPage_head⟩, fun {v'} hv' => ?_⟩
    · simp [Vmem.withKtable]
    · obtain rfl := Option.some.inj (hreach.symm.trans hv')
      exact hoff
  · have hlcl' : s.lcl core' = some lcl := by
      simpa [Vmem.withKtable, Function.update_of_ne hcore] using hlcl
    exact ⟨(hwf.ktable hlcl').1.mono hsuffix, (hwf.ktable hlcl').2⟩

theorem vmemMpInit_ok (h : vmemMpInit core cpuHugepage s = .ok ⟨⟩ s') :
  ∃ a v pmem, reach s.physMapSz a = some v
    ∧ s' = (s.withKtable cpuHugepage pmem core a v).copy upperHalf (.page v) .kmem
  := by
  rw [vmemMpInit, bind_eq_ok] at h
  obtain ⟨t, s₁, hinit, hcopy⟩ := h
  obtain ⟨a, v, pmem, hreach, rfl, rfl⟩ := initKtable_ok hinit
  rw [memcpyHalf_eq] at hcopy
  cases hcopy
  exact ⟨a, v, pmem, hreach, rfl⟩

theorem ktable_withKtable (hreach : reach s.physMapSz a = some v) :
  (s.withKtable cpuHugepage pmem core a v).ktable core = some (.page v)
  := by
  have hlcl : (s.withKtable cpuHugepage pmem core a v).lcl core
      = some { ktable := a, curVmem := none } := Function.update_self ..
  have hreach' : reach (s.withKtable cpuHugepage pmem core a v).physMapSz a = some v := hreach
  rw [Vmem.ktable, hlcl, Option.bind_some, hreach']
  rfl

/-- A copy to the `ktable` of a core. -/
theorem Wf.copy_ktable (hwf : Wf s) (ht : s.ktable core = some t) (half : ℕ → Bool)
    (src : TablePtr) :
  Wf (s.copy half t src) ∧ (∀ r ∈ roots, ∀ l, (s.copy half t src).node r l = s.node r l)
    ∧ ∀ r ∈ roots, ∀ p, (s.copy half t src).look r p = s.look r p
  := by
  have hsame := hwf.same_ktable ht (f := (s.copy half t src).tables) fun u hu =>
    tables_copy_of_ne hu
  exact ⟨hwf.of_same steady_copy hsame, fun r hr => node_of_same steady_copy (hsame r hr),
    fun r hr => look_of_same steady_copy (hsame r hr)⟩

theorem Wf.vmemMpInit (hwf : Wf s) (h : vmemMpInit core cpuHugepage s = .ok ⟨⟩ s')
    (hfresh : FreshPages s'.hist) :
  Wf s' ∧ (∀ r ∈ roots, ∀ l, s'.node r l = s.node r l) ∧ ∀ r ∈ roots, ∀ p, s'.look r p = s.look r p
  := by
  obtain ⟨a, v, pmem, hreach, rfl⟩ := vmemMpInit_ok h
  obtain ⟨hwf₁, hnode₁, hlook₁⟩ := hwf.withKtable core cpuHugepage pmem hreach
    (hfresh.of_suffix (List.suffix_cons _ _))
  obtain ⟨hwf₂, hnode₂, hlook₂⟩ := hwf₁.copy_ktable (ktable_withKtable hreach) upperHalf .kmem
  exact ⟨hwf₂, fun r hr l => (hnode₂ r hr l).trans (hnode₁ r hr l),
    fun r hr p => (hlook₂ r hr p).trans (hlook₁ r hr p)⟩

end Setup

/-! ### New address spaces -/

section Create

variable {s s' : Vmem}

/-- The state after `vmemCreate` has returned a new space. -/
def Vmem.created (s : Vmem) (pos : U64) : Vmem :=
  { s with vmCnt := s.vmCnt + 1, bootstrapAllocPos := pos }.wipe (.vm s.vmCnt)

theorem vmemCreate_ok {id : Option ℕ} (h : vmemCreate s = .ok id s') :
  id = none ∧ s' = s ∨ id = some s.vmCnt ∧ ∃ pos, s' = s.created pos
  := by
  rw [vmemCreate, bind_of_ok (get_apply s)] at h
  cases hpos : bootstrapMalloc s.bootstrapAllocPos 2056 with
  | none =>
      rw [hpos] at h
      cases h
      exact .inl ⟨rfl, rfl⟩
  | some pos =>
      rw [hpos] at h
      dsimp only at h
      rw [bind_of_ok (set_apply _ _), bind_of_ok memsetTable_eq] at h
      cases h
      exact .inr ⟨rfl, pos, rfl⟩

variable (hwf : Wf s) (pos : U64)

include hwf

theorem Wf.node_created {r : TablePtr} (hr : r ∈ roots) (hne : r ≠ .vm s.vmCnt) (l : List ℕ) :
  (s.created pos).node r l = s.node r l
  := by
  apply node_congr
  intro l' u hu
  refine ⟨Function.update_of_ne ?_ _ _, fun _ => rfl⟩
  rintro rfl
  exact hne (hwf.separate hr (root_vm _) hu (node_nil _ _)).1

theorem Wf.look_created {r : TablePtr} (hr : r ∈ roots) (hne : r ≠ .vm s.vmCnt) (p : List ℕ) :
  (s.created pos).look r p = s.look r p
  := by
  apply look_congr
  intro l' u hu
  refine ⟨Function.update_of_ne ?_ _ _, fun _ => ⟨rfl, rfl⟩⟩
  rintro rfl
  exact hne (hwf.separate hr (root_vm _) hu (node_nil _ _)).1

omit hwf in
theorem tables_created_root (idx : ℕ) :
  (s.created pos).tables (.vm s.vmCnt) idx = 0
  := by
  change Function.update s.tables (.vm s.vmCnt) (fun _ => 0) (.vm s.vmCnt) idx = 0
  rw [Function.update_self]

omit hwf in
/-- A new space has no tables but its own. -/
theorem node_created_root {l : List ℕ} {t : TablePtr}
    (ht : (s.created pos).node (.vm s.vmCnt) l = some t) :
  l = [] ∧ t = .vm s.vmCnt
  := by
  cases l with
  | nil => exact ⟨rfl, (Option.some.inj ht).symm⟩
  | cons i l =>
      rw [Vmem.node, Radix.node, tables_created_root, link_zero] at ht
      cases ht

/-- The tables after a new space was created were there before. -/
theorem Wf.node_of_created {r t : TablePtr} {l : List ℕ} (hr : r ∈ roots)
    (ht : (s.created pos).node r l = some t) :
  s.node r l = some t
  := by
  by_cases hne : r = .vm s.vmCnt
  · subst hne
    obtain ⟨rfl, rfl⟩ := node_created_root pos ht
    rfl
  · rwa [hwf.node_created pos hr hne] at ht

omit hwf in
theorem tables_created (t : TablePtr) (i : ℕ) :
  (s.created pos).tables t i = 0 ∨ (s.created pos).tables t i = s.tables t i
  := by
  by_cases hne : t = .vm s.vmCnt
  · subst hne
    exact .inl (tables_created_root pos i)
  · right
    change Function.update s.tables (.vm s.vmCnt) (fun _ => 0) t i = _
    rw [Function.update_of_ne hne]

/-- A new space keeps the invariant. -/
theorem Wf.created :
  Wf (s.created pos)
  := by
  have hwider : Wider s (s.created pos) :=
    ⟨fun h => h, fun h => h, hwf.physMap, List.suffix_cons _ _⟩
  refine ⟨⟨?_, ?_, ?_, hwf.physMap, ?_⟩, ?_⟩
  · intro r r' l l' t hr hr' ht ht'
    exact hwf.separate hr hr' (hwf.node_of_created pos hr ht) (hwf.node_of_created pos hr' ht')
  · intro r l t hr ht i
    rcases tables_created pos t i with hzero | hsame
    · rw [hzero]
      exact .empty
    · rw [hsame]
      exact (hwider.entry (hwf.entry hr (hwf.node_of_created pos hr ht) i)).1
  · intro r l t hr ht i hi
    rcases tables_created pos t i with hzero | hsame
    · exact hzero
    · rw [hsame]
      exact hwf.beyond hr (hwf.node_of_created pos hr ht) hi
  · intro core lcl hlcl
    obtain ⟨hhanded, hoff⟩ := hwf.ktable hlcl
    refine ⟨hhanded.mono hwider.hist, fun hv r hr l ht => ?_⟩
    exact hoff hv r hr l (hwf.node_of_created pos hr ht)
  · intro r l t hr ht hne
    have hroot : r ≠ .vm s.vmCnt := by
      rintro rfl
      exact hne (node_created_root pos ht).1
    obtain ⟨p, hp⟩ := hwf.filled hr (hwf.node_of_created pos hr ht) hne
    exact ⟨p, by rwa [hwf.look_created pos hr hroot]⟩

end Create

/-! ### Setting up -/

/-- The state in which `vmem_init` makes its first request. -/
def Vmem.start (s : Vmem) (cpuHugepage : Bool) (pmem : Pmem) (core : ℕ) (a v : U64) : Vmem :=
  (s.withKtable cpuHugepage pmem core a v).wipe .kmem

/-- The state in which `vmem_init` makes its second request. -/
def Vmem.withPhysMap (s : Vmem) : Vmem := { s with physMapSz := gib 256 }

/-- The permissions of the first request of `vmem_init`. -/
def topPerms : BitVec 32 :=
  vmemFlagsKernel ||| vmemFlagsRw ||| vmemFlagsExec ||| vmemFlagsCachewriteback

/-- The permissions of the second request of `vmem_init`. -/
def physmapPerms : BitVec 32 := vmemFlagsKernel ||| vmemFlagsRw ||| vmemFlagsCachewriteback

/-- The permissions of the third request of `vmem_init`. -/
def physmapUcPerms : BitVec 32 := vmemFlagsKernel ||| vmemFlagsRw ||| vmemFlagsUncached

section Init

variable {core : ℕ} {cpuHugepage : Bool} {curPtable : U64} {s s' : Vmem}

/-- A run of `vmem_init` that returned: its `ktable` in the page `a`, and its requests. -/
structure InitRun (core : ℕ) (cpuHugepage : Bool) (s : Vmem) (pmem : Pmem) (a v : U64)
    (s₂ s₃ s' : Vmem) : Prop where
  reach : reach s.physMapSz a = some v
  top : ∃ ret, vmemMap core none kernTopBase 0 (gib 2) topPerms
    (s.start cpuHugepage pmem core a v) = .ok ret s₂
  physmap : ∃ ret, vmemMap core none kernPhysmapBase 0 (gib 256) physmapPerms s₂.withPhysMap
    = .ok ret s₃
  physmapUc : ∃ ret, vmemMap core none kernPhysmapBaseUc 0 (gib 256) physmapUcPerms s₃
    = .ok ret s'

theorem vmemInit_ok (h : vmemInit core cpuHugepage curPtable s = .ok ⟨⟩ s') :
  ∃ pmem a v s₂ s₃, InitRun core cpuHugepage s pmem a v s₂ s₃ s'
  := by
  rw [vmemInit, bind_eq_ok] at h
  obtain ⟨t, s₁, hinit, h⟩ := h
  obtain ⟨a, v, pmem, hreach, rfl, rfl⟩ := initKtable_ok hinit
  rw [bind_of_ok memsetTable_eq, bind_eq_ok] at h
  obtain ⟨t, s₁, hcur, h⟩ := h
  obtain ⟨rfl, -⟩ := tableAt_ok hcur
  rw [bind_eq_ok] at h
  obtain ⟨r₁, s₂, htop, h⟩ := h
  rw [bind_of_ok (modify_apply _ _), bind_eq_ok] at h
  obtain ⟨r₂, s₃, hphysmap, h⟩ := h
  rw [bind_eq_ok] at h
  obtain ⟨r₃, s₄, huc, h⟩ := h
  cases h
  exact ⟨pmem, a, v, s₂, s₃, hreach, ⟨r₁, htop⟩, ⟨r₂, hphysmap⟩, ⟨r₃, huc⟩⟩

/-- The state in which `vmem_init` makes its first request has no tables but the top-level
ones. -/
theorem Boot.wf_start (hboot : Boot s) {pmem : Pmem} {a v : U64}
    (hfresh : FreshPages (s.start cpuHugepage pmem core a v).hist) :
  Wf (s.start cpuHugepage pmem core a v)
  := by
  have hgrant : FreshPages (.alloc (some a) :: s.hist) :=
    hfresh.of_suffix ⟨[_, _], rfl⟩
  apply Wf.of_blank
  · intro r hr i
    rw [Vmem.start, Vmem.tables_wipe, tables_withKtable]
    by_cases hkmem : r = .kmem
    · rw [hkmem, Function.update_self]
    · rw [Function.update_of_ne hkmem, Function.update_of_ne (hr v)]
      exact hboot.root r hr i
  · change s.physMapSz.toNat ≤ _
    rw [hboot.physMapSz]
    decide
  · intro core' lcl hlcl
    change Function.update s.lcl core (some { ktable := a, curVmem := none }) core' = _ at hlcl
    by_cases hcore : core' = core
    · subst hcore
      rw [Function.update_self] at hlcl
      obtain rfl := Option.some.inj hlcl
      refine ⟨?_, hgrant.isPage_head⟩
      change some a ∈ allocs (.memset .kmem :: .memset (.page v) :: .alloc (some a) :: s.hist)
      simp
    · rw [Function.update_of_ne hcore, hboot.lcl] at hlcl
      cases hlcl

/-- The direct map of 256 GiB leaves the trees as they are. -/
theorem Wf.withPhysMap (hwf : Wf s) :
  Wf s.withPhysMap ∧ (∀ r ∈ roots, ∀ l, s.withPhysMap.node r l = s.node r l)
    ∧ ∀ r ∈ roots, ∀ p, s.withPhysMap.look r p = s.look r p
  := by
  have hnew : s.withPhysMap.physMapSz.toNat = 2 ^ 38 := rfl
  have hwider : Wider s s.withPhysMap :=
    ⟨fun h => h, reach_mono (hwf.physMap.trans_eq hnew.symm) hnew.le, hnew.le,
      List.suffix_refl _⟩
  have hsame : ∀ r ∈ roots, ∀ l u, s.node r l = some u → s.withPhysMap.tables u = s.tables u :=
    fun _ _ _ _ _ => rfl
  refine ⟨Wf.widen hwf hwider hsame ?_, fun r hr => hwider.node hwf hsame hr,
    fun r hr => hwider.look hwf hsame hr⟩
  intro core lcl hlcl
  obtain ⟨hhanded, hoff⟩ := hwf.ktable hlcl
  refine ⟨hhanded, fun {v} hv r hr l ht => ?_⟩
  by_cases hl : l = []
  · subst hl
    exact hr v (Option.some.inj ht)
  · obtain ⟨a, v', ha, hv', heq⟩ := hwf.node_page hr hl ht
    obtain rfl := TablePtr.page.inj heq
    -- only the `ktable` itself is reached at `v`
    obtain rfl := reach_injective hnew.le ha.2 hhanded.2 (hwider.reach hv') hv
    exact hoff hv' r hr l ht

/-- The trees along a run of `vmem_init`. -/
theorem InitRun.wf (hboot : Boot s) {pmem : Pmem} {a v : U64} {s₂ s₃ : Vmem}
    (h : InitRun core cpuHugepage s pmem a v s₂ s₃ s') (hfresh : FreshPages s'.hist) :
  Wf (s.start cpuHugepage pmem core a v) ∧ Wf s₂.withPhysMap ∧ Wf s₃ ∧ Wf s'
    ∧ FreshPages s₂.hist ∧ FreshPages s₃.hist
  := by
  obtain ⟨r₁, htop⟩ := h.top
  obtain ⟨r₂, hphysmap⟩ := h.physmap
  obtain ⟨r₃, huc⟩ := h.physmapUc
  have hfresh₃ : FreshPages s₃.hist := hfresh.of_suffix (steady_vmemMap huc).hist
  have hfresh₂ : FreshPages s₂.hist := hfresh₃.of_suffix (steady_vmemMap hphysmap).hist
  have hwf₁ : Wf (s.start cpuHugepage pmem core a v) :=
    hboot.wf_start (hfresh₂.of_suffix (steady_vmemMap htop).hist)
  obtain ⟨_, _, hrequested₁⟩ := hwf₁.requested (by decide) htop hfresh₂
  have hwf₂ := hrequested₁.wf.withPhysMap.1
  obtain ⟨_, _, hrequested₂⟩ := hwf₂.requested (by decide) hphysmap hfresh₃
  obtain ⟨_, _, hrequested₃⟩ := hrequested₂.wf.requested (by decide) huc hfresh
  exact ⟨hwf₁, hwf₂, hrequested₂.wf, hrequested₃.wf, hfresh₂, hfresh₃⟩

end Init

theorem hist_vmemMpInit {core : ℕ} {cpuHugepage : Bool} {s s' : Vmem}
    (h : vmemMpInit core cpuHugepage s = .ok ⟨⟩ s') :
  s.hist <:+ s'.hist
  := by
  obtain ⟨a, v, pmem, -, rfl⟩ := vmemMpInit_ok h
  exact ⟨[_, _, _], rfl⟩

/-- A state that is built is well-formed, if the pages that the allocator has handed out are
fresh. -/
theorem Built.wf {s : Vmem} (h : Built s) (hfresh : FreshPages s.hist) :
  Wf s
  := by
  induction h with
  | init hboot hrun =>
      obtain ⟨pmem, a, v, s₂, s₃, hinit⟩ := vmemInit_ok hrun
      obtain ⟨-, -, -, hwf, -⟩ := hinit.wf hboot hfresh
      exact hwf
  | mpInit _ hrun ih =>
      exact ((ih (hfresh.of_suffix (hist_vmemMpInit hrun))).vmemMpInit hrun hfresh).1
  | create _ hrun ih =>
      rcases vmemCreate_ok hrun with ⟨-, rfl⟩ | ⟨-, pos, rfl⟩
      · exact ih hfresh
      · exact (ih (hfresh.of_suffix (List.suffix_cons _ _))).created pos
  | map _ hpage hrun ih =>
      obtain ⟨_, _, hrequested⟩ :=
        (ih (hfresh.of_suffix (steady_vmemMap hrun).hist)).requested hpage hrun hfresh
      exact hrequested.wf

end VirtMem
