import Gubernatrix.VirtMem.Tables

/-!
# Growth of the tree

The two ways in which `vmem_map_st` changes the tree of page tables: `writeEntry` of a leaf to
an empty slot, and `addTable`. Both keep `WfCore` and everything that was in the tree in its
place (`Grown`), and a walk through the slot written to is all that they change.
-/

namespace VirtMem

open Program Radix PhysMem

/-! ### What is kept -/

/-- Tables stay where they are in the trees, and no table outside the trees has changed. -/
structure Grown (s s' : Vmem) : Prop where
  steady : Steady s s'
  node : ∀ {r l t}, r ∈ roots → s.node r l = some t → s'.node r l = some t
  frame : ∀ {u}, (∀ r ∈ roots, ∀ l, s'.node r l ≠ some u) → s'.tables u = s.tables u

instance : Std.Refl Grown where
  refl s := ⟨Std.Refl.refl s, fun _ ht => ht, fun _ => rfl⟩

instance : IsTrans Vmem Grown where
  trans _ _ _ h h' :=
    { steady := IsTrans.trans _ _ _ h.steady h'.steady
      node := fun hr ht => h'.node hr (h.node hr ht)
      frame := fun hu => (h'.frame hu).trans
        (h.frame fun r hr l ht => hu r hr l (h'.node hr ht)) }

/-! ### Changes outside the trees -/

section Same

variable {s s' : Vmem} {r : TablePtr}

theorem node_of_same (h : Steady s s')
    (hsame : ∀ l u, s.node r l = some u → s'.tables u = s.tables u) (l : List ℕ) :
  s'.node r l = s.node r l
  := by
  rw [Vmem.node, Vmem.node, h.hugepage, h.physMapSz]
  exact node_congr fun l' u hu => ⟨hsame l' u hu, fun _ => rfl⟩

theorem look_of_same (h : Steady s s')
    (hsame : ∀ l u, s.node r l = some u → s'.tables u = s.tables u) (p : List ℕ) :
  s'.look r p = s.look r p
  := by
  rw [Vmem.look, Vmem.look, h.hugepage, h.physMapSz]
  exact look_congr fun l' u hu => ⟨hsame l' u hu, fun _ => ⟨rfl, rfl⟩⟩

/-- A change outside the trees keeps the invariant. -/
theorem WfCore.of_same (hwf : WfCore s) (h : Steady s s')
    (hsame : ∀ r ∈ roots, ∀ l u, s.node r l = some u → s'.tables u = s.tables u) :
  WfCore s'
  where
  separate := by
    have hnode : ∀ r ∈ roots, ∀ l, s'.node r l = s.node r l := fun r hr =>
      node_of_same h (hsame r hr)
    exact hwf.separate.congr hnode
  entry := by
    intro r l t hr ht i
    rw [node_of_same h (hsame r hr)] at ht
    rw [hsame r hr l t ht]
    exact (hwf.entry hr ht i).mono h
  beyond := by
    intro r l t hr ht i hi
    rw [node_of_same h (hsame r hr)] at ht
    rw [hsame r hr l t ht]
    exact hwf.beyond hr ht hi
  physMap := by
    rw [h.physMapSz]
    exact hwf.physMap
  ktable := by
    intro core lcl hlcl
    rw [h.lcl] at hlcl
    obtain ⟨hhanded, hnode⟩ := hwf.ktable hlcl
    refine ⟨hhanded.mono h.hist, ?_⟩
    intro v hv r hr l
    rw [h.physMapSz] at hv
    rw [node_of_same h (hsame r hr)]
    exact hnode hv r hr l

end Same

/-! ### Writes -/

namespace Vmem

/-- The state after `writeEntry`. -/
def poke (s : Vmem) (vm : TablePtr) (idx : ℕ) (ent : U64) : Vmem :=
  { s with
    tables := Radix.poke s.tables vm idx ent
    hist := .write vm idx ent :: s.hist }

/-- The state after `memsetTable`. -/
def wipe (s : Vmem) (vm : TablePtr) : Vmem :=
  { s with
    tables := Function.update s.tables vm fun _ => 0
    hist := .memset vm :: s.hist }

/-- The state after `allocpage`, with the allocator in state `pmem`. -/
def grant (s : Vmem) (pmem : Pmem) (r : Option U64) : Vmem :=
  { s with
    pmem := pmem
    hist := .alloc r :: s.hist }

@[simp]
theorem tables_wipe (s : Vmem) (vm : TablePtr) :
  (s.wipe vm).tables = Function.update s.tables vm fun _ => 0
  := rfl

@[simp]
theorem tables_poke (s : Vmem) (vm : TablePtr) (idx : ℕ) (ent : U64) :
  (s.poke vm idx ent).tables = Radix.poke s.tables vm idx ent
  := rfl

end Vmem

section Write

variable {s : Vmem} {vm : TablePtr} {idx : ℕ} {ent : U64}

theorem readEntry_eq (h : InTable vm idx) :
  readEntry vm idx s = .ok (s.tables vm idx) s
  := by
  rw [readEntry, bind_of_ok (get_apply s), if_pos h, pure_apply]

theorem readEntry_fault (h : ¬ InTable vm idx) :
  readEntry vm idx s = .error .fault s
  := by
  rw [readEntry, bind_of_ok (get_apply s), if_neg h, throw_apply]

theorem writeEntry_eq (h : InTable vm idx) :
  writeEntry vm idx ent s = .ok ⟨⟩ (s.poke vm idx ent)
  := by
  rw [writeEntry, if_pos h, modify_apply]
  rfl

theorem memsetTable_eq :
  memsetTable vm s = .ok ⟨⟩ (s.wipe vm)
  := rfl

theorem steady_poke :
  Steady s (s.poke vm idx ent)
  := ⟨rfl, rfl, rfl, rfl, rfl, List.suffix_cons _ _⟩

theorem steady_wipe :
  Steady s (s.wipe vm)
  := ⟨rfl, rfl, rfl, rfl, rfl, List.suffix_cons _ _⟩

theorem steady_grant {pmem : Pmem} {a : Option U64} :
  Steady s (s.grant pmem a)
  := ⟨rfl, rfl, rfl, rfl, rfl, List.suffix_cons _ _⟩

/-- What `allocpage` does: it hands out what the allocator does, or stops with it. -/
theorem allocpage_cases (s : Vmem) :
  (∃ a pmem, allocpage s = .ok a (s.grant pmem (some a)))
    ∨ ∃ e pmem, allocpage s = .error e (s.grant pmem none)
  := by
  unfold allocpage
  cases pmemAllocpage s.pmem with
  | ok a pmem => exact .inl ⟨a, pmem, rfl⟩
  | error e pmem => exact .inr ⟨e, pmem, rfl⟩

theorem tableAt_of_reach {a v : U64} (h : reach s.physMapSz a = some v) :
  tableAt a s = .ok (.page v) s
  := by
  rw [reach] at h
  simp only [tableAt, vmemPhystovirt, bind_apply, get_apply, h, pure_apply]

theorem tableAt_of_none {a : U64} (h : reach s.physMapSz a = none) :
  tableAt a s = .error (.panic "Invalid Address Detected!") s
  := by
  rw [reach] at h
  simp only [tableAt, vmemPhystovirt, bind_apply, get_apply, h, throw_apply]

theorem tableAt_ok {a : U64} {t : TablePtr} {s' : Vmem} (h : tableAt a s = .ok t s') :
  s' = s ∧ ∃ v, reach s.physMapSz a = some v ∧ t = .page v
  := by
  cases hreach : reach s.physMapSz a with
  | none =>
      rw [tableAt_of_none hreach] at h
      cases h
  | some v =>
      rw [tableAt_of_reach hreach] at h
      cases h
      exact ⟨rfl, v, rfl, rfl⟩

end Write

/-! ### Programs that change tables only -/

/-- What a sequence of programs allocates, its first part allocates a part of. -/
theorem FreshPages.of_bind {α β : Type} {x : Program Vmem α} {f : α → Program Vmem β} {s : Vmem}
    (h : FreshPages (finalState ((x >>= f) s)).hist) (hf : ∀ a, Along Steady (f a)) :
  FreshPages (finalState (x s)).hist
  := by
  cases hx : x s with
  | ok a s' =>
      rw [bind_of_ok hx] at h
      exact h.of_suffix (hf a s').hist
  | error e s' =>
      rw [bind_of_error hx] at h
      exact h

theorem along_allocpage :
  Along Steady allocpage
  := by
  intro s
  rcases allocpage_cases s with ⟨a, pmem, h⟩ | ⟨e, pmem, h⟩
  · rw [h]
    exact steady_grant
  · rw [h]
    exact steady_grant

theorem along_tableAt (a : U64) :
  Along Steady (tableAt a)
  := by
  intro s
  cases h : reach s.physMapSz a with
  | none =>
      rw [tableAt_of_none h]
      exact Std.Refl.refl s
  | some v =>
      rw [tableAt_of_reach h]
      exact Std.Refl.refl s

theorem along_readEntry (vm : TablePtr) (idx : ℕ) :
  Along Steady (readEntry vm idx)
  := by
  intro s
  by_cases h : InTable vm idx
  · rw [readEntry_eq h]
    exact Std.Refl.refl s
  · rw [readEntry_fault h]
    exact Std.Refl.refl s

theorem along_writeEntry (vm : TablePtr) (idx : ℕ) (ent : U64) :
  Along Steady (writeEntry vm idx ent)
  := by
  intro s
  by_cases h : InTable vm idx
  · rw [writeEntry_eq h]
    exact steady_poke
  · rw [writeEntry, if_neg h]
    exact Std.Refl.refl s

theorem along_memsetTable (vm : TablePtr) :
  Along Steady (memsetTable vm)
  := fun _ => steady_wipe

/-- The part of `addTable` after the allocation. -/
theorem along_addTable_tail (vm : TablePtr) (idx : ℕ) (s : Vmem) :
  Steady (finalState (allocpage s)) (finalState (addTable vm idx s))
  := by
  unfold addTable
  cases halloc : allocpage s with
  | error e s' =>
      rw [bind_of_error halloc]
      exact Std.Refl.refl s'
  | ok nLv s' =>
      rw [bind_of_ok halloc]
      refine Along.ite (R := Steady) (Along.throw _) ?_ s'
      apply (along_tableAt nLv).bind
      intro nLvD
      apply (along_memsetTable nLvD).bind
      intro
      apply (along_writeEntry vm idx _).bind
      intro
      apply Along.pure

theorem along_addTable (vm : TablePtr) (idx : ℕ) :
  Along Steady (addTable vm idx)
  := fun s => IsTrans.trans _ _ _ (along_allocpage s) (along_addTable_tail vm idx s)

theorem along_memcpyHalf (half : ℕ → Bool) (dst src : TablePtr) :
  Along Steady (memcpyHalf half dst src)
  := fun _ => ⟨rfl, rfl, rfl, rfl, rfl, List.suffix_cons _ _⟩

/-- The relation holds along all that `vmem_map` is made of. -/
structure Steps (R : Vmem → Vmem → Prop) : Prop where
  tableAt : ∀ a, Along R (tableAt a)
  readEntry : ∀ vm idx, Along R (readEntry vm idx)
  writeEntry : ∀ vm idx ent, Along R (writeEntry vm idx ent)
  addTable : ∀ vm idx, Along R (addTable vm idx)
  memcpyHalf : ∀ half dst src, Along R (memcpyHalf half dst src)

theorem Steps.mono {R R' : Vmem → Vmem → Prop} (hR : Steps R) (h : ∀ s s', R s s' → R' s s') :
  Steps R'
  where
  tableAt a := (hR.tableAt a).mono h
  readEntry vm idx := (hR.readEntry vm idx).mono h
  writeEntry vm idx ent := (hR.writeEntry vm idx ent).mono h
  addTable vm idx := (hR.addTable vm idx).mono h
  memcpyHalf half dst src := (hR.memcpyHalf half dst src).mono h

theorem steps_steady :
  Steps Steady
  := ⟨along_tableAt, along_readEntry, along_writeEntry, along_addTable, along_memcpyHalf⟩

/-! ### A leaf in an empty slot -/

section Leaf

variable {s : Vmem} {r t : TablePtr} {l : List ℕ} {i : ℕ}

/-- The entries of the tree after a write that keeps its tables. -/
theorem WfCore.entry_poke (hwf : WfCore s) (hr : r ∈ roots) (ht : s.node r l = some t) {e : U64}
    (he : EntryOk (s.poke t i e) l.length e) {r' u : TablePtr} {l' : List ℕ} (hr' : r' ∈ roots)
    (hu : s.node r' l' = some u) (j : ℕ) :
  EntryOk (s.poke t i e) l'.length ((s.poke t i e).tables u j)
  := by
  by_cases hslot : u = t ∧ j = i
  · obtain ⟨rfl, rfl⟩ := hslot
    obtain ⟨rfl, rfl⟩ := hwf.separate hr' hr hu ht
    rw [Vmem.tables_poke, poke_self]
    exact he
  · rw [Vmem.tables_poke, poke_of_ne_slot s.tables e fun hut hji => hslot ⟨hut, hji⟩]
    exact (hwf.entry hr' hu j).mono steady_poke

/-- A write to a table keeps what is beyond its tables. -/
theorem WfCore.beyond_poke (hwf : WfCore s) (hin : InTable t i) {e : U64} {r' u : TablePtr}
    {l' : List ℕ} (hr' : r' ∈ roots) (hu : s.node r' l' = some u) {j : ℕ} (hj : ¬ InTable u j) :
  (s.poke t i e).tables u j = 0
  := by
  rw [Vmem.tables_poke, poke_of_ne_slot]
  · exact hwf.beyond hr' hu hj
  · rintro rfl rfl
    exact hj hin

/-- A leaf written to an empty slot is found on the paths through the slot. -/
theorem WfCore.poke_leaf (hwf : WfCore s) (hr : r ∈ roots) (ht : s.node r l = some t)
    (hin : InTable t i) (hempty : s.tables t i = 0)
    (havail : largepageAvail s.hugepage l.length = true) (phys : U64)
    (perms : BitVec 32) :
  WfCore (s.poke t i (leafEntry phys perms l.length))
    ∧ Grown s (s.poke t i (leafEntry phys perms l.length))
    ∧ (∀ r' ∈ roots, ∀ l',
        (s.poke t i (leafEntry phys perms l.length)).node r' l' = s.node r' l')
    ∧ ∀ r' ∈ roots, ∀ p, (s.poke t i (leafEntry phys perms l.length)).look r' p
        = if r' = r ∧ l ++ [i] <+: p then some (l.length, leafEntry phys perms l.length)
          else s.look r' p
  := by
  let e := leafEntry phys perms l.length
  have hleaf : isLeaf s.hugepage l.length e = true := isLeaf_leafEntry havail
  have hold : link s.hugepage s.physMapSz l.length (s.tables t i) = none := by
    rw [hempty, link_zero]
  have hnew : link s.hugepage s.physMapSz l.length e = none := exclusive_link _ _ _ _ hleaf
  have hnode : ∀ r' ∈ roots, ∀ l', (s.poke t i e).node r' l' = s.node r' l' := fun r' hr' l' =>
    node_poke_same hwf.separate hr ht hold hnew hr' l'
  refine ⟨?_, ?_, hnode, ?_⟩
  · refine ⟨hwf.separate.poke_same hr ht hold hnew, ?_, ?_, hwf.physMap, ?_⟩
    · intro r' l' u hr' hu j
      rw [hnode r' hr'] at hu
      exact hwf.entry_poke hr ht (.leaf havail) hr' hu j
    · intro r' l' u hr' hu j hj
      rw [hnode r' hr'] at hu
      exact hwf.beyond_poke hin hr' hu hj
    · intro core lcl hlcl
      obtain ⟨hhanded, hoff⟩ := hwf.ktable hlcl
      refine ⟨hhanded.mono steady_poke.hist, fun hv r' hr' l' => ?_⟩
      rw [hnode r' hr']
      exact hoff hv r' hr' l'
  · refine ⟨steady_poke, fun hr' hu => by rwa [hnode _ hr'], ?_⟩
    intro u hu
    have hut : u ≠ t := by
      rintro rfl
      apply hu r hr l
      rw [hnode r hr, ht]
    exact poke_of_ne s.tables e hut
  · intro r' hr' p
    exact look_poke_leaf hwf.separate hr ht (exclusive_link _ _) hleaf hr' p

end Leaf

/-! ### A fresh table -/

/-- The direct map does not reach some page that was handed out. -/
def Stranded (s : Vmem) : Prop := ∃ a, Handed s.hist a ∧ reach s.physMapSz a = none

theorem Stranded.mono {s s' : Vmem} (h : Steady s s') (hs : Stranded s) :
  Stranded s'
  := by
  obtain ⟨a, ha, hnone⟩ := hs
  refine ⟨a, ha.mono h.hist, ?_⟩
  rw [h.physMapSz]
  exact hnone

/-- What `addTable` has done when it returns `a`: an empty table in the page `a`, reached at
`v`, stands in slot `i` of the table that `l` leads to. -/
structure Added (s : Vmem) (r : TablePtr) (l : List ℕ) (i : ℕ) (a v : U64) (s' : Vmem) :
    Prop where
  wf : WfCore s'
  grown : Grown s s'
  isPage : IsPage a
  reach : reach s'.physMapSz a = some v
  node : ∀ {r'}, r' ∈ roots → ∀ {l' t'}, s'.node r' l' = some t'
    ↔ s.node r' l' = some t' ∨ r' = r ∧ l' = l ++ [i] ∧ t' = .page v
  look : ∀ {r'}, r' ∈ roots → ∀ p, s'.look r' p
    = if r' = r ∧ l ++ [i] <+: p then none else s.look r' p

section Table

variable {s : Vmem} {r t : TablePtr} {l : List ℕ} {i : ℕ}

/-- A link to a fresh page, with a cleared table in it, adds the table to the tree. -/
theorem WfCore.poke_table (hwf : WfCore s) (hr : r ∈ roots) (ht : s.node r l = some t)
    (hlv : l.length < 3) (hin : InTable t i)
    (hold : link s.hugepage s.physMapSz l.length (s.tables t i) = none)
    {a v : U64} (ha : Handed s.hist a) (hv : reach s.physMapSz a = some v)
    (hfresh : ∀ r ∈ roots, ∀ l, s.node r l ≠ some (.page v))
    (hktable : ∀ core lcl, s.lcl core = some lcl → lcl.ktable ≠ a)
    (hclear : ∀ j, s.tables (.page v) j = 0) :
  Added s r l i a v (s.poke t i (linkEntry a))
  := by
  have hnew : link s.hugepage s.physMapSz l.length (linkEntry a) = some (.page v) := by
    rw [link_linkEntry _ _ hlv ha.2, hv]
    rfl
  have hempty : ∀ j, link s.hugepage s.physMapSz (l.length + 1) (s.tables (.page v) j) = none := by
    intro j
    rw [hclear, link_zero]
  have hbare : ∀ j, isLeaf s.hugepage (l.length + 1) (s.tables (.page v) j) = false := by
    intro j
    rw [hclear, isLeaf_zero]
  have hnode : ∀ {r'}, r' ∈ roots → ∀ {l' t'}, (s.poke t i (linkEntry a)).node r' l' = some t'
      ↔ s.node r' l' = some t' ∨ r' = r ∧ l' = l ++ [i] ∧ t' = .page v := by
    intro r' hr' l' t'
    exact node_poke_link hwf.separate hr ht hnew hfresh hempty hold hr'
  have htv : TablePtr.page v ≠ t := by
    rintro rfl
    exact hfresh r hr l ht
  refine ⟨⟨?_, ?_, ?_, hwf.physMap, ?_⟩, ⟨steady_poke, ?_, ?_⟩, ha.2, hv, hnode, ?_⟩
  · exact Separate.poke_link hwf.separate hr ht hnew hfresh hempty hold
  · intro r' l' u hr' hu j
    rcases (hnode hr').mp hu with hu | ⟨rfl, rfl, rfl⟩
    · exact hwf.entry_poke hr ht (.table hlv ha ⟨v, hv⟩) hr' hu j
    · rw [Vmem.tables_poke, poke_of_ne s.tables _ htv, hclear]
      exact .empty
  · intro r' l' u hr' hu j hj
    rcases (hnode hr').mp hu with hu | ⟨rfl, rfl, rfl⟩
    · exact hwf.beyond_poke hin hr' hu hj
    · rw [Vmem.tables_poke, poke_of_ne s.tables _ htv, hclear]
  · intro core lcl hlcl
    obtain ⟨hhanded, hoff⟩ := hwf.ktable hlcl
    refine ⟨hhanded, fun hw r' hr' l' hu => ?_⟩
    rcases (hnode hr').mp hu with hu | ⟨-, -, hwv⟩
    · exact hoff hw r' hr' l' hu
    · obtain rfl := TablePtr.page.inj hwv
      exact hktable core lcl hlcl (reach_injective hwf.physMap hhanded.2 ha.2 hw hv)
  · intro r' l' u hr' hu
    exact (hnode hr').mpr (.inl hu)
  · intro u hu
    have hut : u ≠ t := by
      rintro rfl
      exact hu r hr l ((hnode hr).mpr (.inl ht))
    exact poke_of_ne s.tables _ hut
  · intro r' hr' p
    exact look_poke_link hwf.separate hr ht hnew hfresh (exclusive_link _ _) hbare hempty hr' p

/-- `addTable`, when the pages that the allocator hands out are fresh: it adds a table, or
stops at a page that the direct map does not reach. -/
theorem addTable_cases (hwf : WfCore s) (hr : r ∈ roots) (ht : s.node r l = some t)
    (hlv : l.length < 3) (hin : InTable t i)
    (hold : link s.hugepage s.physMapSz l.length (s.tables t i) = none)
    (hfresh : FreshPages (finalState (addTable t i s)).hist) :
  (∃ a v s', addTable t i s = .ok a s' ∧ Added s r l i a v s')
    ∨ ∃ e s', addTable t i s = .error e s' ∧ Stranded s'
  := by
  have hgrant := hfresh.of_suffix (along_addTable_tail t i s).hist
  rcases allocpage_cases s with ⟨a, pmem, halloc⟩ | ⟨e, pmem, halloc⟩
  · rw [halloc] at hgrant
    have hpage : IsPage a := hgrant.isPage_head
    have hnot : ¬ Handed s.hist a := hgrant.not_handed
    have hhanded : Handed (s.grant pmem (some a)).hist a := ⟨List.mem_cons_self .., hpage⟩
    rw [addTable, bind_of_ok halloc, if_neg hpage.ne_zero]
    cases hreach : reach s.physMapSz a with
    | none =>
        right
        refine ⟨_, _, bind_of_error (tableAt_of_none (s := s.grant pmem (some a)) hreach) _, ?_⟩
        exact ⟨a, hhanded, hreach⟩
    | some v =>
        left
        have hoff : ∀ r ∈ roots, ∀ l, s.node r l ≠ some (.page v) := fun r hr =>
          hwf.node_ne hpage hnot hreach hr
        let s₁ := (s.grant pmem (some a)).wipe (.page v)
        have hsteady : Steady s s₁ := IsTrans.trans _ _ _ steady_grant steady_wipe
        have hsame : ∀ u, u ≠ .page v → s₁.tables u = s.tables u := fun u hu =>
          Function.update_of_ne hu _ _
        have hsame' : ∀ r ∈ roots, ∀ l u, s.node r l = some u → s₁.tables u = s.tables u := by
          intro r hr l u hu
          apply hsame
          rintro rfl
          exact hoff r hr l hu
        have hnode₁ : ∀ {r}, r ∈ roots → ∀ l, s₁.node r l = s.node r l := fun hr =>
          node_of_same hsteady (hsame' _ hr)
        have hadd := (hwf.of_same hsteady hsame').poke_table (a := a) (v := v) (i := i) hr
          (by rw [hnode₁ hr, ht]) hlv hin (by rw [hsame' r hr l t ht]; exact hold)
          (hhanded.mono steady_wipe.hist) hreach
          (fun r hr l => by rw [hnode₁ hr]; exact hoff r hr l)
          (fun core lcl hlcl => by
            rintro rfl
            exact hnot (hwf.ktable hlcl).1)
          (fun j => by rw [Vmem.tables_wipe, Function.update_self])
        refine ⟨a, v, s₁.poke t i (linkEntry a), ?_, hadd.wf, ?_, hpage, hreach, ?_, ?_⟩
        · rw [bind_of_ok (tableAt_of_reach (s := s.grant pmem (some a)) hreach),
            bind_of_ok memsetTable_eq, bind_of_ok (writeEntry_eq hin), pure_apply, linkEntry]
        · refine ⟨IsTrans.trans _ _ _ hsteady hadd.grown.steady, ?_, ?_⟩
          · intro r' l' u hr' hu
            rw [← hnode₁ hr'] at hu
            exact hadd.grown.node hr' hu
          · intro u hu
            rw [hadd.grown.frame hu]
            apply hsame
            rintro rfl
            exact hu r hr (l ++ [i]) ((hadd.node hr).mpr (.inr ⟨rfl, rfl, rfl⟩))
        · intro r' hr' l' t'
          rw [hadd.node hr', hnode₁ hr']
        · intro r' hr' p
          rw [hadd.look hr', look_of_same hsteady (hsame' r' hr')]
  · rw [halloc] at hgrant
    obtain ⟨a, ha, -⟩ := hgrant.isPage (r := none) (by simp [Vmem.grant])
    cases ha

end Table

end VirtMem
