import Gubernatrix.VirtMem.Entry

/-!
# The tree of page tables

The tables below a top-level table form a tree; the invariant `WfCore` says that no table is
in two places, that entries are as `vmem_map_st` writes them, and that the `ktable` of a core
is no table of the tree. The two writes of `vmem_map_st`, a leaf entry to an empty slot and a
link to a fresh table, keep it, and what a walk finds after each is known from what it
found before.
-/

namespace VirtMem

open Program Radix PhysMem

/-! ### The direct map -/

theorem slt_iff {x y : U64} (hx : x.toNat < 2 ^ 63) (hy : y.toNat < 2 ^ 63) :
  x.slt y = true ↔ x.toNat < y.toNat
  := by
  rw [BitVec.slt_iff_toInt_lt, BitVec.toInt_eq_toNat_of_lt (by omega),
    BitVec.toInt_eq_toNat_of_lt (by omega)]
  omega

/-- The direct map of a page: the window of `KERN_TOP_BASE` for the pages below 2 GiB, except
the last one, then the window of `KERN_PHYSMAP_BASE`. -/
theorem reach_eq {z a : U64} (hz : z.toNat ≤ 2 ^ 38) (ha : a.toNat < 2 ^ 52) :
  reach z a = if a.toNat + 4096 < 2 ^ 31 then some (a + kernTopBase)
    else if a.toNat + 4096 < z.toNat then some (a + kernPhysmapBase) else none
  := by
  have hwb : vmemFlagsCachewriteback &&& vmemFlagsCachewriteback ≠ 0 := by decide
  have hgib : (gib 2).toNat = 2 ^ 31 := rfl
  have hsum : (a + kib 4).toNat = a.toNat + 4096 := by
    rw [BitVec.toNat_add, show (kib 4).toNat = 4096 from rfl]
    omega
  have hlow : a.toNat < 2 ^ 31 ∧ a.toNat + 4096 < 2 ^ 31 ↔ a.toNat + 4096 < 2 ^ 31 := by omega
  have hhigh : a.toNat < z.toNat ∧ a.toNat + 4096 < z.toNat ↔ a.toNat + 4096 < z.toNat := by
    omega
  rw [reach, directAddr, if_pos hwb]
  simp only [slt_iff (x := a) (y := gib 2) (by omega) (by omega),
    slt_iff (x := a) (y := z) (by omega) (by omega), BitVec.lt_def, hsum, hgib, hlow, hhigh]

/-- Where the direct map has a page. -/
theorem toNat_reach {z a v : U64} (hz : z.toNat ≤ 2 ^ 38) (ha : a.toNat < 2 ^ 52)
    (h : reach z a = some v) :
  a.toNat + 4096 < 2147483648 ∧ v.toNat = a.toNat + 18446744071562067968
    ∨ 2147483648 ≤ a.toNat + 4096 ∧ a.toNat < 274877906944
      ∧ v.toNat = a.toNat + 18446603336221196288
  := by
  have htop : kernTopBase.toNat = 18446744071562067968 := rfl
  have hmap : kernPhysmapBase.toNat = 18446603336221196288 := rfl
  rw [reach_eq hz ha] at h
  split_ifs at h with hlow hhigh
  · obtain rfl := Option.some.inj h
    rw [BitVec.toNat_add, htop]
    omega
  · obtain rfl := Option.some.inj h
    rw [BitVec.toNat_add, hmap]
    omega

/-- The direct map has one page at an address. -/
theorem reach_injective {z a a' v : U64} (hz : z.toNat ≤ 2 ^ 38) (ha : IsPage a)
    (ha' : IsPage a') (h : reach z a = some v) (h' : reach z a' = some v) :
  a = a'
  := by
  have hv := toNat_reach hz ha.2.2 h
  have hv' := toNat_reach hz ha'.2.2 h'
  apply BitVec.eq_of_toNat_eq
  omega

/-- A larger direct map reaches pages where the smaller one does. -/
theorem reach_mono {z z' a v : U64} (hle : z.toNat ≤ z'.toNat) (hz' : z'.toNat ≤ 2 ^ 38)
    (h : reach z a = some v) :
  reach z' a = some v
  := by
  have hwb : vmemFlagsCachewriteback &&& vmemFlagsCachewriteback ≠ 0 := by decide
  have hslt : a.slt z = true → a.slt z' = true := by
    rw [BitVec.slt_iff_toInt_lt, BitVec.slt_iff_toInt_lt,
      BitVec.toInt_eq_toNat_of_lt (x := z) (by omega),
      BitVec.toInt_eq_toNat_of_lt (x := z') (by omega)]
    omega
  have hlt : a + kib 4 < z → a + kib 4 < z' := by
    rw [BitVec.lt_def, BitVec.lt_def]
    omega
  rw [reach, directAddr, if_pos hwb] at h ⊢
  by_cases hlow : a.slt (gib 2) = true ∧ a + kib 4 < gib 2
  · rw [if_pos hlow] at h ⊢
    exact h
  · rw [if_neg hlow] at h ⊢
    by_cases hold : a.slt z = true ∧ a + kib 4 < z
    · rw [if_pos hold] at h
      rw [if_pos ⟨hslt hold.1, hlt hold.2⟩]
      exact h
    · rw [if_neg hold] at h
      cases h

/-! ### The invariant -/

/-- The top-level tables `kmem` and those of the address spaces. -/
def roots : Set TablePtr := {t | ∀ v, t ≠ .page v}

/-- The results of the allocations of a history. -/
def allocs (hist : List Effect) : List (Option U64) :=
  hist.filterMap fun
    | .alloc r => some r
    | _ => none

/-- The page was handed out by the allocator. -/
def Handed (hist : List Effect) (a : U64) : Prop := some a ∈ allocs hist ∧ IsPage a

/-- All allocations of a history handed out pages, each a different one. -/
structure FreshPages (hist : List Effect) : Prop where
  nodup : (allocs hist).Nodup
  isPage : ∀ {r}, r ∈ allocs hist → ∃ a, r = some a ∧ IsPage a

/-- The entries that `vmem_map_st` leaves at level `lv`. -/
inductive EntryOk (s : Vmem) (lv : ℕ) : U64 → Prop where
  | empty : EntryOk s lv 0
  | table {a : U64} : lv < 3 → Handed s.hist a → (∃ v, reach s.physMapSz a = some v) →
      EntryOk s lv (linkEntry a)
  | leaf {phys : U64} {perms : BitVec 32} : largepageAvail s.hugepage lv = true →
      EntryOk s lv (leafEntry phys perms lv)

namespace Vmem

variable (s : Vmem)

/-- The table that a path leads to. -/
def node (r : TablePtr) (l : List ℕ) : Option TablePtr :=
  Radix.node (link s.hugepage s.physMapSz) s.tables 0 r l

/-- The leaf entry that a path leads to, with its level. -/
def look (r : TablePtr) (p : List ℕ) : Option (ℕ × U64) :=
  Radix.look (link s.hugepage s.physMapSz) (isLeaf s.hugepage) s.tables 0 r p

end Vmem

/-- The tables below the top-level tables form trees of entries that are `EntryOk`, with nothing
at indices that they do not have, apart from the `ktable` of every core. -/
structure WfCore (s : Vmem) : Prop where
  separate : Separate (link s.hugepage s.physMapSz) s.tables roots
  entry : ∀ {r l t}, r ∈ roots → s.node r l = some t → ∀ i, EntryOk s l.length (s.tables t i)
  beyond : ∀ {r l t}, r ∈ roots → s.node r l = some t → ∀ {i}, ¬ InTable t i → s.tables t i = 0
  physMap : s.physMapSz.toNat ≤ 2 ^ 38
  ktable : ∀ {core lcl}, s.lcl core = some lcl → Handed s.hist lcl.ktable
    ∧ ∀ {v}, reach s.physMapSz lcl.ktable = some v → ∀ r ∈ roots, ∀ l, s.node r l ≠ some (.page v)

/-- Nothing but tables, allocator and history has changed, and the history has grown. -/
structure Steady (s s' : Vmem) : Prop where
  hugepage : s'.hugepage = s.hugepage
  physMapSz : s'.physMapSz = s.physMapSz
  lcl : s'.lcl = s.lcl
  vmCnt : s'.vmCnt = s.vmCnt
  bootstrapAllocPos : s'.bootstrapAllocPos = s.bootstrapAllocPos
  hist : s.hist <:+ s'.hist

instance : Std.Refl Steady where
  refl _ := ⟨rfl, rfl, rfl, rfl, rfl, List.suffix_refl _⟩

instance : IsTrans Vmem Steady where
  trans _ _ _ h h' := ⟨h'.hugepage.trans h.hugepage, h'.physMapSz.trans h.physMapSz,
    h'.lcl.trans h.lcl, h'.vmCnt.trans h.vmCnt,
    h'.bootstrapAllocPos.trans h.bootstrapAllocPos, h.hist.trans h'.hist⟩

/-! ### Histories -/

section Hist

variable {hist hist' : List Effect}

@[simp]
theorem allocs_alloc (r : Option U64) :
  allocs (.alloc r :: hist) = r :: allocs hist
  := rfl

@[simp]
theorem allocs_memset (vm : TablePtr) :
  allocs (.memset vm :: hist) = allocs hist
  := rfl

@[simp]
theorem allocs_write (vm : TablePtr) (idx : ℕ) (ent : U64) :
  allocs (.write vm idx ent :: hist) = allocs hist
  := rfl

@[simp]
theorem allocs_memcpy (dst src : TablePtr) :
  allocs (.memcpy dst src :: hist) = allocs hist
  := rfl

theorem allocs_suffix (h : hist <:+ hist') :
  allocs hist <:+ allocs hist'
  := by
  obtain ⟨l, rfl⟩ := h
  exact ⟨allocs l, (List.filterMap_append ..).symm⟩

theorem FreshPages.of_suffix (h : hist <:+ hist') (hfresh : FreshPages hist') :
  FreshPages hist
  where
  nodup := hfresh.nodup.sublist (allocs_suffix h).sublist
  isPage hr := hfresh.isPage ((allocs_suffix h).subset hr)

theorem Handed.mono {a : U64} (h : hist <:+ hist') (ha : Handed hist a) :
  Handed hist' a
  := ⟨(allocs_suffix h).subset ha.1, ha.2⟩

/-- What is handed out last was not handed out before. -/
theorem FreshPages.not_handed {r : U64} (hfresh : FreshPages (.alloc (some r) :: hist)) :
  ¬ Handed hist r
  := by
  intro h
  have hnodup := hfresh.nodup
  rw [allocs_alloc, List.nodup_cons] at hnodup
  exact hnodup.1 h.1

theorem FreshPages.isPage_head {r : U64} (hfresh : FreshPages (.alloc (some r) :: hist)) :
  IsPage r
  := by
  obtain ⟨a, ha, hpage⟩ := hfresh.isPage (r := some r) (by simp)
  obtain rfl := Option.some.inj ha
  exact hpage

theorem EntryOk.mono {s s' : Vmem} {lv : ℕ} {e : U64} (h : Steady s s') (he : EntryOk s lv e) :
  EntryOk s' lv e
  := by
  cases he with
  | empty => exact .empty
  | table hlv ha hreach => exact .table hlv (ha.mono h.hist) (by rw [h.physMapSz]; exact hreach)
  | leaf havail => exact .leaf (by rw [h.hugepage]; exact havail)

end Hist

/-! ### Tables of the tree -/

section Tree

variable {s : Vmem} {r t : TablePtr} {l : List ℕ}

theorem root_kmem :
  TablePtr.kmem ∈ roots
  := fun _ h => by cases h

theorem root_vm (id : ℕ) :
  TablePtr.vm id ∈ roots
  := fun _ h => by cases h

@[simp]
theorem node_root (s : Vmem) (r : TablePtr) :
  s.node r [] = some r
  := rfl

/-- An entry that is `EntryOk` and no link to a table is no link. -/
theorem EntryOk.link_eq_some {lv : ℕ} {e : U64} (h : EntryOk s lv e)
    (hlink : link s.hugepage s.physMapSz lv e = some t) :
  ∃ a v, lv < 3 ∧ e = linkEntry a ∧ Handed s.hist a ∧ reach s.physMapSz a = some v ∧ t = .page v
  := by
  cases h with
  | empty =>
      rw [link_zero] at hlink
      cases hlink
  | table hlv ha hreach =>
      obtain ⟨v, hv⟩ := hreach
      rw [link_linkEntry _ _ hlv ha.2, hv] at hlink
      exact ⟨_, v, hlv, rfl, ha, hv, (Option.some.inj hlink).symm⟩
  | leaf havail =>
      rw [exclusive_link _ _ _ _ (isLeaf_leafEntry havail)] at hlink
      cases hlink

theorem EntryOk.eq_zero {lv : ℕ} {e : U64} (h : EntryOk s lv e) (habsent : e &&& present = 0) :
  e = 0
  := by
  cases h with
  | empty => rfl
  | @table a => exact absurd habsent (linkEntry_present a)
  | leaf => exact absurd habsent leafEntry_present

/-- A table below a top-level table is in a page that was handed out. -/
theorem WfCore.node_page (h : WfCore s) (hr : r ∈ roots) (hl : l ≠ [])
    (ht : s.node r l = some t) :
  ∃ a v, Handed s.hist a ∧ reach s.physMapSz a = some v ∧ t = .page v
  := by
  obtain ⟨l', i, rfl⟩ := List.eq_nil_or_concat l |>.resolve_left hl
  rw [List.concat_eq_append] at ht
  have hsplit := ht
  rw [Vmem.node, node_append] at hsplit
  obtain ⟨u, hu, -⟩ := Option.bind_eq_some_iff.mp hsplit
  rw [Vmem.node, node_concat hu] at ht
  obtain ⟨a, v, -, -, ha, hv, rfl⟩ := (h.entry hr hu i).link_eq_some ht
  exact ⟨a, v, ha, hv, rfl⟩

/-- A table below the top-level table has all indices. -/
theorem WfCore.inTable (hwf : WfCore s) (hr : r ∈ roots) (hl : l ≠ []) (ht : s.node r l = some t)
    {i : ℕ} (hi : i < 512) :
  InTable t i
  := by
  obtain ⟨-, v, -, -, rfl⟩ := hwf.node_page hr hl ht
  exact hi

/-- A page that was not handed out holds no table. -/
theorem WfCore.node_ne (h : WfCore s) {a v : U64} (ha : IsPage a) (hnot : ¬ Handed s.hist a)
    (hv : reach s.physMapSz a = some v) (hr : r ∈ roots) (l : List ℕ) :
  s.node r l ≠ some (.page v)
  := by
  intro ht
  cases l with
  | nil =>
      obtain rfl := Option.some.inj ht
      exact hr v rfl
  | cons i l =>
      obtain ⟨a', v', ha', hv', heq⟩ := h.node_page hr (List.cons_ne_nil _ _) ht
      obtain rfl : v = v' := by simpa using heq
      obtain rfl := reach_injective h.physMap ha ha'.2 hv hv'
      exact hnot ha'

end Tree

end VirtMem
