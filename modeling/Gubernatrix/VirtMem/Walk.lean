import Gubernatrix.VirtMem.Install
import Gubernatrix.VirtMem.Levels
import Gubernatrix.VirtMem.Growth

/-!
# Walks

What the processor makes of an address: `Vmem.walk` goes the way of `vmem_virttophys_st` and
takes note of the rights. In a well-formed tree `vmem_virttophys_st` does not stop, and the walk
depends on the leaf that is found on the path of the address, and on nothing else.
-/

namespace VirtMem

open Program Radix PhysMem

/-- What a walk comes to: an address, and the rights that all entries on the way give. -/
structure Access where
  phys : U64
  writable : Bool
  executable : Bool
  userAccess : Bool
deriving DecidableEq

/-- The access that a leaf entry at a level gives. -/
def leafAccess (virt : U64) (lv : ℕ) (e : U64) : Access where
  phys := (e &&& addrMask) + virt % levels lv
  writable := e &&& write ≠ 0
  executable := e &&& noexec = 0
  userAccess := e &&& user ≠ 0

/-- The access through an entry above. -/
def Access.under (e : U64) (a : Access) : Access where
  phys := a.phys
  writable := e &&& write ≠ 0 && a.writable
  executable := e &&& noexec = 0 && a.executable
  userAccess := e &&& user ≠ 0 && a.userAccess

/-- The walk of an address, with `n` levels from the table `pg` on. -/
def Vmem.walk (s : Vmem) : (n : ℕ) → (pg : TablePtr) → (virt : U64) → Option Access
  | 0, _, _ => none
  | n + 1, pg, virt =>
      let lv := 3 - n
      let idx := index virt lv
      if InTable pg idx then
        let ent := s.tables pg idx
        if isLeaf s.hugepage lv ent then some (leafAccess virt lv ent)
        else (link s.hugepage s.physMapSz lv ent).bind fun c =>
          (s.walk n c virt).map (Access.under ent)
      else none

/-- The invariant of the page tables: trees of tables, none of them without a page below. -/
structure Wf (s : Vmem) : Prop extends WfCore s where
  filled : ∀ {r l t}, r ∈ roots → s.node r l = some t → l ≠ [] → ∃ p, s.look r (l ++ p) ≠ none

variable {s : Vmem} {r pg t : TablePtr} {l : List ℕ} {virt : U64}

/-! ### Walks and leaves -/

/-- An entry that `vmem_map_st` writes for a table takes no rights away. -/
theorem under_linkEntry (a : U64) (acc : Access) :
  Access.under (linkEntry a) acc = acc
  := by
  have hw : linkEntry a &&& write ≠ 0 := by
    rw [linkEntry_bit a (by decide)]
    decide
  have hx : linkEntry a &&& noexec = 0 := by
    rw [linkEntry_bit a (by decide)]
    decide
  have hu : linkEntry a &&& user ≠ 0 := by
    rw [linkEntry_bit a (by decide)]
    decide
  rw [Access.under, decide_eq_true hw, decide_eq_true hx, decide_eq_true hu]
  rfl

theorem pathTo_tail (virt : U64) {lv : ℕ} (hlv : lv ≤ 3) :
  ∃ q, pathTo virt 4 = (pathTo virt lv ++ [index virt lv]) ++ q
  := by
  obtain ⟨q, hq⟩ := pathTo_initial virt (show lv + 1 ≤ 4 by omega)
  rw [pathTo_succ] at hq
  exact ⟨q, hq.symm⟩

theorem WfCore.inTable_index (hwf : WfCore s) (hr : r ∈ roots) {lv : ℕ} (hlv : lv ≤ 3)
    (hpg : s.node r (pathTo virt lv) = some pg) (hin : InTable r (index virt 0)) :
  InTable pg (index virt lv)
  := by
  cases lv with
  | zero =>
      obtain rfl := Option.some.inj hpg
      exact hin
  | succ lv =>
      have hne : pathTo virt (lv + 1) ≠ [] := by
        intro h
        have := congrArg List.length h
        simp at this
      exact hwf.inTable hr hne hpg (index_lt virt hlv)

/-- A walk comes to the leaf on the path of the address. -/
theorem WfCore.walk_node (hwf : WfCore s) (hr : r ∈ roots) {n : ℕ} (hn : n ≤ 3)
    (hpg : s.node r (pathTo virt (3 - n)) = some pg) (hin : InTable r (index virt 0)) :
  s.walk (n + 1) pg virt
    = (s.look r (pathTo virt 4)).map fun x => leafAccess virt x.1 x.2
  := by
  induction n using Nat.strong_induction_on generalizing pg with
  | h n ih =>
      have hidx := hwf.inTable_index hr (by omega) hpg hin
      have hentry := hwf.entry hr hpg (index virt (3 - n))
      have hnode := node_concat hpg (index virt (3 - n))
      obtain ⟨q, hq⟩ := pathTo_tail virt (show 3 - n ≤ 3 by omega)
      rw [← pathTo_succ, length_pathTo] at hnode
      rw [length_pathTo] at hentry
      rw [Vmem.walk, if_pos hidx]
      dsimp only
      generalize he : s.tables pg (index virt (3 - n)) = e at hentry hnode ⊢
      cases hentry with
      | empty =>
          have hlook := look_of_stop (exclusive_link s.hugepage s.physMapSz) hpg
            (by rw [he, isLeaf_zero]) (by rw [he, link_zero]) q
          rw [isLeaf_zero, if_neg Bool.false_ne_true, link_zero, hq, Vmem.look, hlook]
          rfl
      | @table a hlv ha hreach =>
          obtain ⟨v, hv⟩ := hreach
          obtain ⟨n, rfl⟩ : ∃ n', n = n' + 1 := ⟨n - 1, by omega⟩
          have hlv' : 3 - (n + 1) + 1 = 3 - n := by omega
          rw [link_linkEntry _ _ hlv ha.2, hv, hlv'] at hnode
          rw [isLeaf_linkEntry _ hlv, if_neg Bool.false_ne_true, link_linkEntry _ _ hlv ha.2, hv,
            Option.map_some, Option.bind_some, ih n (by omega) (by omega) hnode, Option.map_map]
          congr 1
          funext x
          exact under_linkEntry a _
      | @leaf phys perms havail =>
          have hleaf : isLeaf s.hugepage (3 - n) (leafEntry phys perms (3 - n)) = true :=
            isLeaf_leafEntry havail
          have hlook := look_of_leaf (exclusive_link s.hugepage s.physMapSz) hpg
            (by rw [he, length_pathTo]; exact hleaf) q
          rw [he, length_pathTo] at hlook
          rw [if_pos hleaf, hq, Vmem.look, hlook]
          rfl

/-- `vmem_virttophys_st` walks. -/
theorem WfCore.vmemVirttophysSt_node (hwf : WfCore s) (hr : r ∈ roots) {n : ℕ} (hn : n ≤ 3)
    (hpg : s.node r (pathTo virt (3 - n)) = some pg) (hin : InTable r (index virt 0)) :
  vmemVirttophysSt (n + 1) pg virt s = .ok ((s.walk (n + 1) pg virt).map Access.phys) s
  := by
  induction n using Nat.strong_induction_on generalizing pg with
  | h n ih =>
      have hidx := hwf.inTable_index hr (by omega) hpg hin
      have hentry := hwf.entry hr hpg (index virt (3 - n))
      have hnode := node_concat hpg (index virt (3 - n))
      rw [← pathTo_succ, length_pathTo] at hnode
      rw [length_pathTo] at hentry
      rw [vmemVirttophysSt, bind_of_ok (get_apply s), bind_of_ok (readEntry_eq hidx), Vmem.walk,
        if_pos hidx]
      dsimp only
      generalize he : s.tables pg (index virt (3 - n)) = e at hentry hnode ⊢
      cases hentry with
      | empty =>
          rw [if_neg (by simp), isLeaf_zero, if_neg Bool.false_ne_true, link_zero]
          rfl
      | @table a hlv ha hreach =>
          obtain ⟨v, hv⟩ := hreach
          obtain ⟨n, rfl⟩ : ∃ n', n = n' + 1 := ⟨n - 1, by omega⟩
          have hlv' : 3 - (n + 1) + 1 = 3 - n := by omega
          rw [link_linkEntry _ _ hlv ha.2, hv, hlv'] at hnode
          rw [isLeaf_linkEntry _ hlv, if_neg Bool.false_ne_true, link_linkEntry _ _ hlv ha.2, hv,
            if_pos (linkEntry_present a), linkEntry_largepage, if_neg (by simp),
            if_neg (levels_ne hlv), linkEntry_addr ha.2, bind_of_ok (tableAt_of_reach hv),
            ih n (by omega) (by omega) hnode, Option.map_some, Option.bind_some, Option.map_map]
          rfl
      | @leaf phys perms havail =>
          have hleaf : isLeaf s.hugepage (3 - n) (leafEntry phys perms (3 - n)) = true :=
            isLeaf_leafEntry havail
          rw [if_pos hleaf, if_pos leafEntry_present]
          by_cases hsize : levels (3 - n) = kib 4
          · rw [if_neg fun h => leafEntry_largepage.mp h.1 hsize, if_pos hsize]
            rfl
          · rw [if_pos ⟨leafEntry_largepage.mpr hsize, havail⟩]
            rfl

section Root

variable (hwf : WfCore s) (hr : r ∈ roots) (hin : InTable r (index virt 0))

include hwf hr hin

theorem WfCore.walk_root :
  s.walk 4 r virt = (s.look r (pathTo virt 4)).map fun x => leafAccess virt x.1 x.2
  := hwf.walk_node hr (n := 3) (by decide) (node_root s r) hin

/-- From a top-level table `vmem_virttophys_st` returns what the walk comes to. -/
theorem WfCore.vmemVirttophysSt_root :
  vmemVirttophysSt 4 r virt s = .ok ((s.walk 4 r virt).map Access.phys) s
  := hwf.vmemVirttophysSt_node hr (n := 3) (by decide) (node_root s r) hin

theorem WfCore.walk_eq_none :
  s.walk 4 r virt = none ↔ s.look r (pathTo virt 4) = none
  := by
  rw [hwf.walk_root hr hin, Option.map_eq_none_iff]

end Root

/-! ### What is found -/

/-- The indices on the way to a table are indices of tables. -/
theorem WfCore.digit (hwf : WfCore s) (hr : r ∈ roots) {i : ℕ} {q : List ℕ}
    (ht : s.node r (l ++ i :: q) = some t) :
  ∃ u, s.node r l = some u ∧ InTable u i
  := by
  rw [Vmem.node, node_append] at ht
  obtain ⟨u, hu, hrest⟩ := Option.bind_eq_some_iff.mp ht
  refine ⟨u, hu, ?_⟩
  by_contra hin
  rw [Radix.node, hwf.beyond hr hu hin, link_zero] at hrest
  cases hrest

theorem InTable.lt {t : TablePtr} {i : ℕ} (h : InTable t i) :
  i < 512
  := by
  cases t with
  | kmem => exact h.2
  | vm => exact lt_of_lt_of_le h (by decide)
  | page => exact h

theorem WfCore.digits_lt (hwf : WfCore s) (hr : r ∈ roots) (ht : s.node r l = some t) :
  ∀ i ∈ l, i < 512
  := by
  intro i hi
  obtain ⟨l', q, rfl⟩ := List.append_of_mem hi
  obtain ⟨u, -, hin⟩ := hwf.digit hr ht
  exact hin.lt

/-- There are tables at four levels. -/
theorem WfCore.length_le (hwf : WfCore s) (hr : r ∈ roots) (ht : s.node r l = some t) :
  l.length ≤ 3
  := by
  rcases List.eq_nil_or_concat l with rfl | ⟨l, i, rfl⟩
  · exact Nat.zero_le _
  · rw [List.concat_eq_append] at ht ⊢
    have hsplit := ht
    rw [Vmem.node, node_append] at hsplit
    obtain ⟨u, hu, -⟩ := Option.bind_eq_some_iff.mp hsplit
    rw [Vmem.node, node_concat hu] at ht
    obtain ⟨-, -, hlv, -⟩ := (hwf.entry hr hu i).link_eq_some ht
    rw [List.length_append, List.length_singleton]
    omega

/-- An entry that ends a walk is one that `vmem_map_st` writes for a page. -/
theorem EntryOk.eq_leafEntry {lv : ℕ} {e : U64} (h : EntryOk s lv e)
    (hleaf : isLeaf s.hugepage lv e = true) :
  largepageAvail s.hugepage lv = true ∧ ∃ phys perms, e = leafEntry phys perms lv
  := by
  cases h with
  | empty =>
      rw [isLeaf_zero] at hleaf
      cases hleaf
  | table hlv =>
      rw [isLeaf_linkEntry _ hlv] at hleaf
      cases hleaf
  | leaf havail => exact ⟨havail, _, _, rfl⟩

/-- What is found on a path: the entry in slot `i` of the table that `l` leads to. -/
structure Found (s : Vmem) (r : TablePtr) (p : List ℕ) (k : ℕ) (e : U64) (l : List ℕ) (i : ℕ) :
    Prop where
  prefix_path : l ++ [i] <+: p
  length : l.length = k
  le : k ≤ 3
  avail : largepageAvail s.hugepage k = true
  leaf : ∃ phys perms, e = leafEntry phys perms k
  digits : ∀ j ∈ l ++ [i], j < 512
  slot : ∃ t, s.node r l = some t ∧ s.tables t i = e

theorem WfCore.found (hwf : WfCore s) (hr : r ∈ roots) {p : List ℕ} {k : ℕ} {e : U64}
    (hlook : s.look r p = some (k, e)) :
  ∃ l i, Found s r p k e l i
  := by
  obtain ⟨l, i, q, t, rfl, hlen, ht, he, hleaf⟩ := look_eq_some hlook
  rw [Nat.zero_add] at hlen
  subst hlen
  have hin : InTable t i := by
    by_contra hin
    rw [← he, hwf.beyond hr ht hin, isLeaf_zero] at hleaf
    cases hleaf
  have hentry := hwf.entry hr ht i
  rw [he] at hentry
  obtain ⟨havail, hform⟩ := hentry.eq_leafEntry hleaf
  refine ⟨l, i, ⟨⟨q, by simp⟩, rfl, hwf.length_le hr ht, havail, hform, ?_, t, ht, he⟩⟩
  intro j hj
  rcases List.mem_append.mp hj with hj | hj
  · exact hwf.digits_lt hr ht j hj
  · rw [List.mem_singleton.mp hj]
    exact hin.lt

/-- What is found is found on every path through the entry. -/
theorem Found.look_eq {p p' : List ℕ} {k : ℕ} {e : U64} {i : ℕ} (h : Found s r p k e l i)
    (hpre : l ++ [i] <+: p') :
  s.look r p' = some (k, e)
  := by
  obtain ⟨q, rfl⟩ := hpre
  obtain ⟨t, ht, he⟩ := h.slot
  obtain ⟨phys, perms, hform⟩ := h.leaf
  have hleaf : isLeaf s.hugepage l.length (s.tables t i) = true := by
    rw [he, hform, h.length]
    exact isLeaf_leafEntry h.avail
  have := look_of_leaf (exclusive_link s.hugepage s.physMapSz) ht hleaf q
  rw [he, h.length] at this
  exact this

/-- Nothing is found at an entry and below when nothing is found for the addresses that it
stands for. -/
theorem WfCore.free_iff (hwf : WfCore s) (hr : r ∈ roots) (x : U64) {k : ℕ} (hk : k ≤ 3) :
  PageMap.Free (s.look r) (pathTo x (k + 1))
    ↔ ∀ a : U64, a.toNat / span k = x.toNat / span k → s.look r (pathTo a 4) = none
  := by
  constructor
  · intro hfree a ha
    apply hfree
    rw [← pathTo_eq_of_div hk ha]
    exact pathTo_initial a (by omega)
  · intro hnone p hpre
    by_contra hsome
    obtain ⟨⟨k', e⟩, hlook⟩ := Option.ne_none_iff_exists'.mp hsome
    obtain ⟨l, i, hfound⟩ := hwf.found hr hlook
    rcases List.prefix_or_prefix_of_prefix hpre hfound.prefix_path with hle | hle
    · have hlen : (l ++ [i]).length ≤ 4 := by
        have := hfound.le
        rw [List.length_append, List.length_singleton, hfound.length]
        omega
      obtain ⟨a, hdiv, hpath⟩ := exists_address x hle hlen hfound.digits
      have ha : l ++ [i] <+: pathTo a 4 := by
        rw [← hpath]
        exact pathTo_initial a hlen
      have := hfound.look_eq ha
      rw [hnone a hdiv] at this
      cases this
    · have hx : pathTo x (k + 1) <+: pathTo x 4 := pathTo_initial x (by omega)
      have := hfound.look_eq (hle.trans hx)
      rw [hnone x rfl] at this
      cases this

end VirtMem
