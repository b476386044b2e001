import Gubernatrix.VirtMem.Built
import Gubernatrix.VirtMem.Cover
import Gubernatrix.VirtMem.DirectMap

/-!
# The contract of `vmem_map`

A request establishes what it asks for when it fits, and when its last page has an address that the
address field of an entry holds; otherwise it does not.
-/

namespace VirtMem

open Program Radix PhysMem

/-- The call of `vmem_map` returns 0; the addresses of the request then give the access that was
asked for, and no other address gives one that gave none before. -/
def Establishes (core : ℕ) (vm : Option ℕ) (r : TablePtr) (virt phys size : U64)
    (perms : BitVec 32) (s : Vmem) : Prop :=
  ∃ s', vmemMap core vm virt phys size perms s = .ok .errNone s'
    ∧ (∀ o < size, s'.walk 4 r (virt + o) = some (wanted phys perms o))
    ∧ ∀ r' a, OfRoot r' a → (r' = r → ∀ o < size, a ≠ virt + o) → s.walk 4 r' a = none →
      s'.walk 4 r' a = none

/-- The last page for `m` bytes from `phys` on begins below 2^52. -/
def Addressable (hugepage : Bool) (phys m : ℕ) : Prop :=
  phys + m < 2 ^ 52 + span (pageLevel hugepage m)

theorem addressable_of_le {phys m : ℕ} (hugepage : Bool) (h : phys + m ≤ 2 ^ 52) :
  Addressable hugepage phys m
  := by
  have hpos := span_pos (pageLevel hugepage m)
  rw [Addressable]
  omega

section Contract

variable {core : ℕ} {vm : Option ℕ} {r : TablePtr} {virt phys size : U64} {perms : BitVec 32}
  {s s' : Vmem} (hproper : Proper vm r virt phys size)

include hproper

/-- The pages of a request that fits are of the level for its size. -/
theorem Proper.level (hfits : Fits s.hugepage virt.toNat size.toNat) {d : Page}
    (hd : d ∈ (pagesOf s virt phys size).1) :
  d.level = pageLevel s.hugepage size.toNat
  := by
  rw [← levelFrom_three]
  apply level_mapPlan (n := 3) (le_refl 3) hproper.virt_page hproper.size_page _ d hd
  apply (fitsFrom_iff hproper.virt_page).mpr hfits

/-- All pages of an addressable request begin below 2^52. -/
theorem Proper.phys_lt (hfits : Fits s.hugepage virt.toNat size.toNat)
    (haddr : Addressable s.hugepage phys.toNat size.toNat) {d : Page}
    (hd : d ∈ (pagesOf s virt phys size).1) :
  d.phys.toNat < 2 ^ 52
  := by
  obtain ⟨lv, o, htile⟩ := (hproper.tiles hfits).1.tile hd
  have hlevel := hproper.level hfits hd
  have hbound := htile.bound
  rw [htile.level] at hlevel
  rw [Addressable, ← hlevel] at haddr
  rw [htile.phys, BitVec.toNat_add, BitVec.toNat_ofNat]
  omega

/-- A call for a request that fits returns. -/
theorem Proper.returns (hwf : Wf s) (hcore : virt.slt 0 = true → s.lcl core ≠ none)
    (hsupplied : Supplied (finalState (vmemMap core vm virt phys size perms s)))
    (hfits : Fits s.hugepage virt.toNat size.toNat) :
  ∃ ret s', vmemMap core vm virt phys size perms s = .ok ret s'
    ∧ Requested perms core s r virt phys size ret s'
  := by
  have hreplies := vmemMap_replies core perms phys hwf hproper.root hproper.size_page
    hsupplied.fresh
  generalize vmemMap core vm virt phys size perms s = res at hreplies hsupplied
  cases hreplies with
  | @returned ret s' hrequested => use ret, s', rfl
  | stranded hstranded => apply absurd hstranded hsupplied.reached
  | outside hout => apply absurd hout (hproper.not_outside (hproper.tiles hfits).1)
  | unset hkernel hnone => apply absurd hnone (hcore hkernel)

/-- A request that fits and is addressable establishes what it asks for. -/
theorem Proper.establishes (hwf : Wf s) (hfree : ∀ o < size, s.walk 4 r (virt + o) = none)
    (hcore : virt.slt 0 = true → s.lcl core ≠ none)
    (hsupplied : Supplied (finalState (vmemMap core vm virt phys size perms s)))
    (hfits : Fits s.hugepage virt.toNat size.toNat)
    (haddr : Addressable s.hugepage phys.toNat size.toNat) :
  Establishes core vm r virt phys size perms s
  := by
  obtain ⟨ret, s', hrun, hrequested⟩ := hproper.returns hwf hcore hsupplied hfits
  have htiles := (hproper.tiles hfits).1
  obtain ⟨rfl, hmet⟩ := hwf.met hproper hfree hfits hrequested
  use s', hrun
  constructor
  · intro o ho
    apply hproper.walk hrequested.wf.toWfCore hmet.pages htiles _ ho
    intro d hd
    apply hproper.phys_lt hfits haddr hd
  · intro r' a ha hout hnone
    rw [hrequested.walk_other hwf.toWfCore hmet hproper htiles ha hout, hnone]

/-- Where nothing was mapped, the access is that of a page of the request. -/
theorem Proper.served (hwf : Wf s) (hfree : ∀ o < size, s.walk 4 r (virt + o) = none)
    {ret : VmemErrs} (hrequested : Requested perms core s r virt phys size ret s')
    (hwalk : ∀ o < size, s'.walk 4 r (virt + o) = some (wanted phys perms o)) :
  Served perms s.hugepage virt phys size
  := by
  intro o ho
  have hr := rootOf_mem hproper.root
  have hin := (hproper.ofRoot ho).inTable
  have hlt : BitVec.ofNat 64 o < size := by
    rw [BitVec.lt_def, BitVec.toNat_ofNat]
    omega
  have hbefore := hfree _ hlt
  have hafter := hwalk _ hlt
  rw [hwf.walk_eq_none hr hin] at hbefore
  rw [hrequested.wf.walk_root hr hin] at hafter
  obtain ⟨ok, hinstall, -⟩ := hrequested.install
  rcases hinstall.eq_or (pathTo (virt + BitVec.ofNat 64 o) 4) with
    hsame | hnone | ⟨d, hd, hpre, hd'⟩
  · rw [hsame, hbefore] at hafter
    cases hafter
  · rw [hnone] at hafter
    cases hafter
  · rw [hd'] at hafter
    obtain ⟨l, i, hfound⟩ := hrequested.wf.found hr hd'
    have havail := hfound.avail
    rw [hrequested.steady.hugepage] at havail
    use d, hd, ⟨hpre, Option.some.inj hafter⟩, havail

/-- The pages of a request that is served begin below 2^52. -/
theorem Proper.served_phys (hfits : Fits s.hugepage virt.toNat size.toNat)
    (hserved : Served perms s.hugepage virt phys size) {x : ℕ} (hx : x < size.toNat) :
  ∃ d ∈ (pagesOf s virt phys size).1, ∃ lv o, Tile s.hugepage virt phys size.toNat d lv o
    ∧ o ≤ x ∧ x < o + span lv ∧ d.phys.toNat < 2 ^ 52
  := by
  obtain ⟨d, hd, lv, o, htile, hle, hlt⟩ := (hproper.tiles hfits).1.cover hx
  obtain ⟨d', hd', lv', x', haligned, -, -, hbelow⟩ :=
    hserved.page hproper.phys_page hproper.size_page hproper.low_le hx
  have hsame : d' = d := by
    by_contra hne
    have hapart := (pairwise_mapPlan s.hugepage 4 [] virt phys size).forall hd' hd hne
    apply hapart.not_both hbelow
    apply (hproper.prefix_iff htile hx).mpr ⟨hle, hlt⟩
  rw [hsame] at haligned
  use d, hd, lv, o, htile, hle, hlt, haligned.phys

/-- A request that is served is addressable. -/
theorem Proper.addressable (hfits : Fits s.hugepage virt.toNat size.toNat)
    (hserved : Served perms s.hugepage virt phys size) :
  Addressable s.hugepage phys.toNat size.toNat
  := by
  have hpos := hproper.pos
  have hlow := hproper.low_le
  obtain ⟨d₀, -, lv₀, o₀, htile₀, hle₀, -, hphys₀⟩ := hproper.served_phys hfits hserved hpos
  obtain ⟨d, hd, lv, o, htile, -, hlt, hphys⟩ :=
    hproper.served_phys hfits hserved (show size.toNat - 1 < size.toNat by omega)
  have hlevel := hproper.level hfits hd
  have hbound := htile.bound
  rw [htile.level] at hlevel
  rw [htile₀.phys, BitVec.toNat_add, BitVec.toNat_ofNat] at hphys₀
  rw [htile.phys, BitVec.toNat_add, BitVec.toNat_ofNat] at hphys
  rw [Addressable, ← hlevel]
  omega

/-- What a request establishes fits, and is addressable. -/
theorem Proper.fits (hwf : Wf s) (hfree : ∀ o < size, s.walk 4 r (virt + o) = none)
    (hsupplied : Supplied (finalState (vmemMap core vm virt phys size perms s)))
    (h : Establishes core vm r virt phys size perms s) :
  Fits s.hugepage virt.toNat size.toNat ∧ Addressable s.hugepage phys.toNat size.toNat
  := by
  obtain ⟨s', hrun, hwalk, -⟩ := h
  rw [hrun] at hsupplied
  obtain ⟨r', hroot, hrequested⟩ := hwf.requested hproper.size_page hrun hsupplied.fresh
  obtain rfl : r' = r := Option.some.inj (hroot.symm.trans hproper.root)
  have hserved := hproper.served hwf hfree hrequested hwalk
  have hfits : Fits s.hugepage virt.toNat size.toNat := by
    apply hserved.fits hproper.phys_page hproper.size_page hproper.low_le _ hproper.pos
    rcases hproper.half with hhalf | hhalf
    · omega
    · apply hhalf.2
  use hfits
  apply hproper.addressable hfits hserved

end Contract

/-- In every state that is built, a request for unmapped addresses, for which the allocator hands
out fresh pages, establishes what it asks for just when it fits and is addressable. -/
theorem establishes_iff {core : ℕ} {vm : Option ℕ} {r : TablePtr} {virt phys size : U64}
    {perms : BitVec 32} {s : Vmem} (hbuilt : Built s) (hproper : Proper vm r virt phys size)
    (hfree : ∀ o < size, s.walk 4 r (virt + o) = none)
    (hcore : virt.slt 0 = true → s.lcl core ≠ none)
    (hsupplied : Supplied (finalState (vmemMap core vm virt phys size perms s))) :
  Establishes core vm r virt phys size perms s
    ↔ Fits s.hugepage virt.toNat size.toNat ∧ Addressable s.hugepage phys.toNat size.toNat
  := by
  have hwf : Wf s := by
    apply hbuilt.wf
    apply hsupplied.fresh.of_suffix
    apply (along_vmemMap core vm virt phys size perms s).hist
  constructor
  · apply hproper.fits hwf hfree hsupplied
  · rintro ⟨hfits, haddr⟩
    apply hproper.establishes hwf hfree hcore hsupplied hfits haddr

/-- A walk through an empty slot of the top-level table. -/
theorem walk_of_empty {s : Vmem} {r : TablePtr} {a : U64} (h : s.tables r (index a 0) = 0) :
  s.walk 4 r a = none
  := by
  rw [Vmem.walk]
  split
  next hin =>
    dsimp only
    rw [h, isLeaf_zero, link_zero]
    rfl
  next => rfl

/-- An address of the kernel without tables after `vmem_init`. -/
def unusedBase : U64 := 0xffffff0000000000

/-- A request for kernel addresses after `vmem_init`. -/
def initThenMap (virt phys size : U64) : Program Vmem VmemErrs := do
  vmemInit 0 true 0x1000
  vmemMap 0 none virt phys size 0

/-- The allocations for four tables in `vmem_init`, and two after it. -/
def sixPages : List (Option U64) :=
  [some 0x105000, some 0x104000, some 0x103000, some 0x102000, some 0x101000, some 0x100000]

/-- The allocations for four tables in `vmem_init`, and three after it. -/
def sevenPages : List (Option U64) :=
  [some 0x106000, some 0x105000, some 0x104000, some 0x103000, some 0x102000, some 0x101000,
    some 0x100000]

/-- `vmem_init` leaves the slot of `unusedBase` empty, and a page is mapped there afterwards, at
the base or next to it, with two more allocations. -/
theorem init_then_unusedBase :
  ∃ u s, vmemInit 0 true 0x1000 bootVmem = .ok u s ∧ s.tables .kmem 510 = 0
    ∧ allocs (finalState (vmemMap 0 none (unusedBase + 0) 0x400000 (mib 2) 0 s)).hist = sixPages
    ∧ allocs (finalState (vmemMap 0 none (unusedBase + kib 4) 0x400000 (mib 2) 0 s)).hist = sixPages
  := exists_of_returns _ _ (by decide +kernel)

theorem slot_unusedBase :
  (finalState (vmemInit 0 true 0x1000 bootVmem)).tables .kmem 510 = 0
  := by
  obtain ⟨u, s, hrun, hslot, -⟩ := init_then_unusedBase
  rw [hrun]
  exact hslot

theorem allocs_unusedBase :
  allocs (finalState (initThenMap (unusedBase + 0) 0x400000 (mib 2) bootVmem)).hist = sixPages
  := by
  obtain ⟨u, s, hrun, -, hallocs, -⟩ := init_then_unusedBase
  rw [initThenMap, bind_of_ok hrun]
  exact hallocs

theorem allocs_unusedBase_page :
  allocs (finalState (initThenMap (unusedBase + kib 4) 0x400000 (mib 2) bootVmem)).hist = sixPages
  := by
  obtain ⟨u, s, hrun, -, -, hallocs⟩ := init_then_unusedBase
  rw [initThenMap, bind_of_ok hrun]
  exact hallocs

theorem LowPages.of_allocs {hist : List Effect} {l : List (Option U64)} (h : allocs hist = l)
    (hnodup : l.Nodup) (hlow : ∀ r ∈ l, ∃ a, r = some a ∧ IsPage a ∧ a.toNat < 2 ^ 31 - 4096) :
  LowPages hist
  := by
  subst h
  refine ⟨⟨hnodup, ?_⟩, ?_⟩
  · intro r hr
    obtain ⟨a, ha, hpage, -⟩ := hlow r hr
    use a, ha
  · intro a ha
    obtain ⟨a', ha', -, hlt⟩ := hlow (some a) ha
    cases ha'
    apply hlt

theorem lowPages_of_sixPages {hist : List Effect} (h : allocs hist = sixPages) :
  LowPages hist
  := by
  apply LowPages.of_allocs h (by decide)
  simp [sixPages, IsPage]

theorem freshPages_of_sixPages {hist : List Effect} (h : allocs hist = sixPages) :
  FreshPages hist
  := (lowPages_of_sixPages h).toFreshPages

theorem lowPages_of_sevenPages {hist : List Effect} (h : allocs hist = sevenPages) :
  LowPages hist
  := by
  apply LowPages.of_allocs h (by decide)
  simp [sevenPages, IsPage]

/-- A request for which the allocator hands out low pages. -/
theorem Wf.supplied {core : ℕ} {vm : Option ℕ} {virt phys size : U64} {perms : BitVec 32}
    {s : Vmem} (hwf : Wf s)
    (hlow : LowPages (finalState (vmemMap core vm virt phys size perms s)).hist) :
  Supplied (finalState (vmemMap core vm virt phys size perms s))
  := by
  use hlow.toFreshPages
  apply hlow.not_stranded
  rw [(along_vmemMap core vm virt phys size perms s).physMapSz]
  apply hwf.physMap

theorem supplied_initThenMap {s : Vmem} {virt phys size : U64}
    (hrun : vmemInit 0 true 0x1000 bootVmem = .ok ⟨⟩ s) (hwf : Wf s)
    (hallocs : allocs (finalState (initThenMap virt phys size bootVmem)).hist = sixPages) :
  Supplied (finalState (vmemMap 0 none virt phys size 0 s))
  := by
  rw [initThenMap, bind_of_ok hrun] at hallocs
  exact hwf.supplied (lowPages_of_sixPages hallocs)

/-- Nothing is mapped past `unusedBase` after `vmem_init`. -/
theorem walk_unusedBase {s : Vmem} (hrun : vmemInit 0 true 0x1000 bootVmem = .ok ⟨⟩ s) {x : U64}
    (hx : x < gib 1) :
  s.walk 4 .kmem (unusedBase + x) = none
  := by
  have hslot := slot_unusedBase
  rw [hrun] at hslot
  have hbase : unusedBase.toNat = 0xffffff0000000000 := rfl
  have hgib : (gib 1).toNat = 2 ^ 30 := rfl
  rw [BitVec.lt_def, hgib] at hx
  have hidx : index (unusedBase + x) 0 = 510 := by
    rw [index_eq _ (by decide), span_zero, BitVec.toNat_add, hbase]
    omega
  apply walk_of_empty
  rw [hidx]
  exact hslot

/-- A request for a page of 2 MiB on a boundary of 2 MiB. -/
theorem proper_unusedBase {x : U64} (hx : 4096 ∣ x.toNat) (hlt : x.toNat < 2 ^ 30) :
  Proper none .kmem (unusedBase + x) 0x400000 (mib 2)
  := by
  have hbase : unusedBase.toNat = 0xffffff0000000000 := rfl
  have hsize : (mib 2).toNat = 2 ^ 21 := rfl
  have hsum : (unusedBase + x).toNat = 0xffffff0000000000 + x.toNat := by
    rw [BitVec.toNat_add, hbase]
    omega
  have hroot : rootOf none (unusedBase + x) = some .kmem := by
    apply if_pos
    rw [slt_zero_iff, hsum]
    omega
  refine ⟨hroot, ?_, by decide, by decide, by decide, ?_⟩
  · rw [hsum]
    apply Nat.dvd_add (by decide) hx
  · right
    rw [hsum, hsize]
    omega

theorem Synced.lcl {s : Vmem} {core : ℕ} (h : Synced s core) :
  s.lcl core ≠ none
  := by
  obtain ⟨lcl, -, hlcl, -⟩ := h
  rw [hlcl]
  apply Option.some_ne_none

/-- A request for 2 MiB past `unusedBase` finds nothing mapped. -/
theorem free_unusedBase {s : Vmem} (hrun : vmemInit 0 true 0x1000 bootVmem = .ok ⟨⟩ s) {x : U64}
    (hx : x.toNat ≤ 4096) :
  ∀ o < mib 2, s.walk 4 .kmem (unusedBase + x + o) = none
  := by
  intro o ho
  have hsize : (mib 2).toNat = 2 ^ 21 := rfl
  have hgib : (gib 1).toNat = 2 ^ 30 := rfl
  rw [BitVec.lt_def, hsize] at ho
  rw [BitVec.add_assoc]
  apply walk_unusedBase hrun
  rw [BitVec.lt_def, BitVec.toNat_add, hgib]
  omega

theorem fits_unusedBase (hugepage : Bool) :
  Fits hugepage (unusedBase + 0).toNat (mib 2).toNat
  := by
  constructor
  · intro _ h
    apply absurd h (by decide)
  · intro _ _
    decide
  · intro h
    apply absurd h (by decide)
  · intro h
    apply absurd h (by decide)

theorem addressable_unusedBase (hugepage : Bool) :
  Addressable hugepage (0x400000 : U64).toNat (mib 2).toNat
  := by
  apply addressable_of_le
  decide

/-- A page of 2 MiB on a boundary of 2 MiB. -/
theorem establishes_two_mib :
  ∃ s, Built s ∧ Establishes 0 none .kmem (unusedBase + 0) 0x400000 (mib 2) 0 s
  := by
  obtain ⟨s, hrun, hbuilt, -, hwf, -, hsync⟩ := exists_built_bootVmem
  use s, hbuilt
  exact (establishes_iff hbuilt (proper_unusedBase (by decide) (by decide))
    (free_unusedBase hrun (by decide)) (fun _ => hsync.lcl)
    (supplied_initThenMap hrun hwf allocs_unusedBase)).mpr
    ⟨fits_unusedBase s.hugepage, addressable_unusedBase s.hugepage⟩

/-- A page of 2 MiB past a boundary of 2 MiB is mapped elsewhere. -/
theorem not_establishes_two_mib :
  ¬ ∀ (core : ℕ) (vm : Option ℕ) (r : TablePtr) (virt phys size : U64) (perms : BitVec 32)
    (s : Vmem), Built s → Proper vm r virt phys size →
    (∀ o < size, s.walk 4 r (virt + o) = none) →
    (virt.slt 0 = true → s.lcl core ≠ none) →
    Supplied (finalState (vmemMap core vm virt phys size perms s)) →
    Establishes core vm r virt phys size perms s
  := by
  intro h
  obtain ⟨s, hrun, hbuilt, -, hwf, -, hsync⟩ := exists_built_bootVmem
  have hproper := proper_unusedBase (x := kib 4) (by decide) (by decide)
  have hfree := free_unusedBase hrun (x := kib 4) (by decide)
  have hsupplied := supplied_initThenMap hrun hwf allocs_unusedBase_page
  have hestablishes := h 0 none .kmem (unusedBase + kib 4) 0x400000 (mib 2) 0 s hbuilt hproper
    hfree (fun _ => hsync.lcl) hsupplied
  obtain ⟨hfits, -⟩ := hproper.fits hwf hfree hsupplied hestablishes
  have hlarge := hfits.large (fun h => absurd h.2 (by decide)) (by decide)
  apply absurd hlarge (by decide)

end VirtMem
