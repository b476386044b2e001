import Gubernatrix.VirtMem.Disturb

/-!
# Top-level tables

What a request does to the entries of the top-level tables: those that are there stay as they are,
and new ones come only where a page of the request has its place.
-/

namespace VirtMem

open Program Radix PhysMem PageMap

section Entry

variable {s : Vmem} {r : TablePtr} {i : ℕ}

/-- An entry of a top-level table is empty, or it links to a table. -/
theorem WfCore.top_entry (hwf : WfCore s) (hr : r ∈ roots) (i : ℕ) :
  s.tables r i = 0
    ∨ ∃ a v, s.tables r i = linkEntry a ∧ IsPage a ∧ reach s.physMapSz a = some v
      ∧ s.node r [i] = some (.page v)
  := by
  have hok := hwf.entry hr (node_root s r) i
  have hstep := node_concat (node_root s r) i
  rw [List.nil_append] at hstep
  generalize s.tables r i = e at *
  cases hok with
  | empty =>
      left
      rfl
  | @table a hlv ha hreach =>
      right
      obtain ⟨v, hv⟩ := hreach
      use a, v, rfl, ha.2, hv
      rw [List.length_nil] at hlv
      rw [Vmem.node, hstep, List.length_nil, link_linkEntry _ _ hlv ha.2, hv]
      rfl
  | leaf havail => cases havail

end Entry

section Request

variable {perms : BitVec 32} {core : ℕ} {s s' : Vmem} {r r' : TablePtr} {virt phys size : U64}
  {ret : VmemErrs} {i : ℕ}

/-- Entries of top-level tables that are there stay as they are. -/
theorem Requested.top_kept (h : Requested perms core s r virt phys size ret s') (hwf : Wf s)
    (hr' : r' ∈ roots) (hne : s.tables r' i ≠ 0) :
  s'.tables r' i = s.tables r' i
  := by
  obtain ⟨a, v, he, ha, hv, hnode⟩ := (hwf.top_entry hr' i).resolve_left hne
  have hnode' := h.node hr' hnode
  rcases h.wf.top_entry hr' i with hzero | ⟨a', v', he', ha', hv', hlink⟩
  · have hstep := node_concat (node_root s' r') i
    rw [hzero, link_zero] at hstep
    rw [Vmem.node] at hnode'
    rw [List.nil_append, hnode'] at hstep
    cases hstep
  · rw [hnode'] at hlink
    obtain rfl := TablePtr.page.inj (Option.some.inj hlink)
    rw [h.steady.physMapSz] at hv'
    obtain rfl := reach_injective hwf.physMap ha ha' hv hv'
    rw [he, he']

/-- An entry that comes to a top-level table has a page below. -/
theorem Requested.top_new (h : Requested perms core s r virt phys size ret s') (hr' : r' ∈ roots)
    (hne : s'.tables r' i ≠ 0) :
  ∃ p, s'.look r' ([i] ++ p) ≠ none
  := by
  obtain ⟨a, v, -, -, -, hnode⟩ := (h.wf.top_entry hr' i).resolve_left hne
  apply h.wf.filled hr' hnode (List.cons_ne_nil _ _)

/-- A request leaves the other top-level tables as they are. -/
theorem Requested.top_other (h : Requested perms core s r virt phys size ret s') (hwf : Wf s)
    (hr' : r' ∈ roots) (hne : r' ≠ r) :
  s'.tables r' = s.tables r'
  := by
  funext i
  by_cases hzero : s.tables r' i = 0
  · rw [hzero]
    by_contra hnew
    obtain ⟨p, hp⟩ := h.top_new hr' hnew
    apply hp
    rw [h.other r' hr' hne]
    apply free_of_empty (node_root s r') hzero
    apply List.prefix_append
  · apply h.top_kept hwf hr' hzero

/-- A request whose pages have their places below entries that are there leaves its top-level table
as it is. -/
theorem Requested.top_same (h : Requested perms core s r virt phys size ret s') (hwf : Wf s)
    (hr : r ∈ roots)
    (hplaces : ∀ d ∈ (pagesOf s virt phys size).1, ∀ i q, d.path = i :: q → s.tables r i ≠ 0) :
  s'.tables r = s.tables r
  := by
  funext i
  by_cases hzero : s.tables r i = 0
  · rw [hzero]
    by_contra hnew
    obtain ⟨p, hp⟩ := h.top_new hr hnew
    have hfree : s.look r ([i] ++ p) = none :=
      free_of_empty (node_root s r) hzero _ (List.prefix_append _ _)
    obtain ⟨ok, hinstall, -⟩ := h.install
    rcases hinstall.eq_or ([i] ++ p) with hsame | hnone | ⟨d, hd, hpre, -⟩
    · rw [hsame] at hp
      apply hp hfree
    · apply hp hnone
    · obtain ⟨j, -, hj⟩ := below_mapPlan s.hugepage 4 [] virt phys size d hd
      obtain ⟨q, hq⟩ := hj
      rw [List.nil_append, List.singleton_append] at hq
      have hnil : d.path ≠ [] := by
        rw [← hq]
        apply List.cons_ne_nil
      have hfirst := (List.prefix_cons_iff.mp hpre).resolve_left hnil
      obtain ⟨q', hq', -⟩ := hfirst
      apply hplaces d hd i q' hq' hzero
  · apply h.top_kept hwf hr hzero

end Request

/-- The addresses of a request have entries in the top-level table. -/
def Housed (s : Vmem) (r : TablePtr) (virt size : U64) : Prop :=
  ∀ o < size, s.tables r (index (virt + o) 0) ≠ 0

/-- A request that fits, and whose addresses have entries in its top-level table, leaves it as it
is. -/
theorem Requested.top_housed {perms : BitVec 32} {core : ℕ} {s s' : Vmem} {vm : Option ℕ}
    {r : TablePtr} {virt phys size : U64} {ret : VmemErrs}
    (h : Requested perms core s r virt phys size ret s') (hwf : Wf s)
    (hproper : Proper vm r virt phys size) (hfits : Fits s.hugepage virt.toNat size.toNat)
    (hhoused : Housed s r virt size) :
  s'.tables r = s.tables r
  := by
  apply h.top_same hwf (rootOf_mem hproper.root)
  intro d hd i q hpath
  obtain ⟨lv, o, htile⟩ := (hproper.tiles hfits).1.tile hd
  have hbound := htile.bound
  have hpos := span_pos lv
  have hsize := size.isLt
  have hfirst : pathTo d.virt 1 <+: i :: q := by
    rw [← hpath, htile.path]
    apply pathTo_initial
    omega
  have hindex : i = index (virt + BitVec.ofNat 64 o) 0 := by
    rw [← htile.virt]
    rw [pathTo_succ, pathTo_zero, List.nil_append, List.cons_prefix_cons] at hfirst
    exact hfirst.1.symm
  rw [hindex]
  apply hhoused
  rw [BitVec.lt_def, BitVec.toNat_ofNat]
  omega

end VirtMem
