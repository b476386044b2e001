import Gubernatrix.VirtMem.Beyond
import Gubernatrix.VirtMem.Disturb

/-!
# Accesses within the tables

Which requests make `vmem_map_st` access an entry that a table does not have, or go down below the
last level. A request of whole pages that stays in its half never does, whatever the tables hold. A
request that leaves the lower half does as soon as nothing stops it before it comes there, and so
does a request that is not a multiple of the page size.
-/

namespace VirtMem

open Program Radix PhysMem PageMap

/-- The run was stopped by the allocator. -/
def Stalls (s s' : Vmem) : Prop :=
  ∃ effects, s'.hist = effects ++ s.hist ∧ .alloc none ∈ effects

/-- The run stopped at an access outside the tables. -/
def Strays (s : Vmem) (res : EStateM.Result Trap Vmem VmemErrs) : Prop :=
  ∃ s', res = .error .fault s' ∧ ¬ Stalls s s'

/-- A request that stays in the tables: whole pages that stay in their half. -/
def InTables (hugepage : Bool) (virt size : U64) : Prop :=
  4096 ∣ size.toNat ∧ (virt.slt 0 = false → StaysLow hugepage virt.toNat size.toNat)

/-- Nothing stops a request before it leaves the tables. For whole pages, nothing is in the way of
those pages that have an entry. For others, what is found at the address is an entry with physical
address zero, or a small page to which the direct map leads as to a table. -/
def Open (s : Vmem) (r : TablePtr) (virt phys size : U64) : Prop :=
  if 4096 ∣ size.toNat then
    ∀ d ∈ (pagesOf s virt phys size).1, ¬ Outside r [d] → ¬ Blocked (s.look r) d
  else ∀ k e, s.look r (pathTo virt 4) = some (k, e) →
    e &&& addrMask = 0 ∨ k = 3 ∧ reach s.physMapSz (e &&& addrMask) ≠ none

/-- The run goes on beyond its table only where the plan does, and it is stopped by the allocator,
with a panic, or outside its table, where `out` holds. -/
inductive Within (s : Vmem) (goOn : Bool) (out : Prop) :
    EStateM.Result Trap Vmem VmemErrs → Prop where
  | returned {ret : VmemErrs} {s' : Vmem} : (ret = .errContinue → goOn = true) →
      Within s goOn out (.ok ret s')
  | stalled {e : Trap} {s' : Vmem} : Stalls s s' → Within s goOn out (.error e s')
  | refused {msg : String} {s' : Vmem} : Within s goOn out (.error (.panic msg) s')
  | strayed {s' : Vmem} : out → Within s goOn out (.error .fault s')

theorem Below.lt {l : List ℕ} {ds : List Page} (h : Below l ds) {d : Page} (hd : d ∈ ds) {i : ℕ}
    (hi : l ++ [i] <+: d.path) :
  i < 512
  := by
  obtain ⟨j, hj, hpre⟩ := h d hd
  have heq : l ++ [i] = l ++ [j] := by
    rw [List.prefix_iff_eq_take.mp hi, List.prefix_iff_eq_take.mp hpre]
    simp
  have hij := List.append_cancel_left heq
  rw [List.singleton_inj] at hij
  rwa [hij]

/-! ### Any tables -/

section Any

variable {s s₁ s' : Vmem} {goOn : Bool} {out : Prop} {res : EStateM.Result Trap Vmem VmemErrs}
  {perms : BitVec 32} {hugepage : Bool} {virt phys size : U64} {l : List ℕ}

theorem Within.not_strays (h : Within s goOn out res) (hout : ¬ out) :
  ¬ Strays s res
  := by
  rintro ⟨s', rfl, hstalls⟩
  cases h with
  | stalled h => apply hstalls h
  | strayed h => apply hout h

theorem Within.mono {goOn' : Bool} {out' : Prop} (h : Within s goOn out res)
    (hgo : goOn = true → goOn' = true) (hout : out → out') :
  Within s goOn' out' res
  := by
  cases h with
  | returned h => apply Within.returned fun hret => hgo (h hret)
  | stalled h => apply Within.stalled h
  | refused => apply Within.refused
  | strayed h => apply Within.strayed (hout h)

theorem Stalls.from (h : Stalls s₁ s') (hsteady : Steady s s₁) :
  Stalls s s'
  := by
  obtain ⟨later, hlater, hmem⟩ := h
  obtain ⟨earlier, hearlier⟩ := hsteady.hist
  use later ++ earlier
  constructor
  · rw [hlater, ← hearlier, List.append_assoc]
  · apply List.mem_append_left _ hmem

/-- A run from a later state. -/
theorem Within.from (h : Within s₁ goOn out res) (hsteady : Steady s s₁) :
  Within s goOn out res
  := by
  cases h with
  | returned h => apply Within.returned h
  | stalled h => apply Within.stalled (h.from hsteady)
  | refused => apply Within.refused
  | strayed h => apply Within.strayed h

theorem within_leafLoop (lv : ℕ) (v : U64) {left : ℕ} (hleft : left ≤ 512) :
  Within s (leafPlan lv l left virt phys size).2 False (leafLoop lv (.page v) perms left phys size s)
  := by
  induction left generalizing s virt phys size with
  | zero =>
      by_cases hsize : size > 0
      · rw [leafPlan_full hsize]
        rw [leafLoop, if_pos hsize]
        apply Within.returned
        intro
        rfl
      · rw [leafLoop, if_neg hsize]
        apply Within.returned
        intro h
        cases h
  | succ left ih =>
      by_cases hsize : size > 0
      · have hin : InTable (.page v) (511 - left) := by
          change 511 - left < 512
          omega
        rw [leafLoop, if_pos hsize, leafPlan_succ hsize]
        dsimp only
        rw [bind_of_ok (readEntry_eq hin)]
        split
        · apply Within.returned
          intro h
          cases h
        · rw [bind_of_ok (writeEntry_eq hin)]
          apply (ih (by omega)).from steady_poke
      · rw [leafLoop, if_neg hsize]
        apply Within.returned
        intro h
        cases h

/-- `addTable` puts a link in the slot, or it stops: by the allocator, or with a panic. -/
theorem addTable_run {vm : TablePtr} {i : ℕ} (hin : InTable vm i) :
  (∃ a v s', addTable vm i s = .ok a s' ∧ s'.tables vm i = linkEntry a
      ∧ reach s.physMapSz a = some v)
    ∨ ∃ e s', addTable vm i s = .error e s' ∧ (e = .fault → Stalls s s')
      ∧ (FreshPages s'.hist → Stranded s')
  := by
  rcases allocpage_cases s with ⟨a, pmem, halloc⟩ | ⟨e, pmem, halloc⟩
  · rw [addTable, bind_of_ok halloc]
    by_cases hzero : a = 0
    · right
      rw [if_pos hzero]
      use .panic "Pagetable allocation failure!", s.grant pmem (some a), rfl
      use fun h => by cases h
      intro hfresh
      apply absurd hzero hfresh.isPage_head.ne_zero
    · rw [if_neg hzero]
      cases hreach : reach s.physMapSz a with
      | none =>
          right
          refine ⟨_, _, bind_of_error (tableAt_of_none (s := s.grant pmem (some a)) hreach) _,
            ?_, ?_⟩
          · intro h
            cases h
          · intro hfresh
            use a, ⟨List.mem_cons_self .., hfresh.isPage_head⟩
            apply hreach
      | some v =>
          left
          use a, v
          rw [bind_of_ok (tableAt_of_reach (s := s.grant pmem (some a)) hreach),
            bind_of_ok memsetTable_eq, bind_of_ok (writeEntry_eq hin)]
          refine ⟨_, rfl, ?_, hreach⟩
          simp only [Vmem.tables_poke, Radix.poke_self]
          rfl
  · right
    rw [addTable, bind_of_error halloc]
    refine ⟨e, _, rfl, ?_, ?_⟩
    · intro
      use [.alloc none], rfl
      apply List.mem_cons_self
    · intro hfresh
      obtain ⟨a, ha, -⟩ := hfresh.isPage (List.mem_cons_self ..)
      cases ha

section Turn

variable {sub : List ℕ → (virt phys size : U64) → List Page × Bool}
  {mapSt : TablePtr → (virt phys size : U64) → Program Vmem VmemErrs} {lv : ℕ} {vm : TablePtr}
  (hsteady : ∀ vm virt phys size, Along Steady (mapSt vm virt phys size))
  (hmapSt : ∀ {s : Vmem} {virt phys size : U64} (l : List ℕ) (v : U64), s.hugepage = hugepage →
    4096 ∣ size.toNat →
    Within s (sub l virt phys size).2 False (mapSt (.page v) virt phys size s))

include hsteady hmapSt

/-- One turn of the second loop, from the recursive call on. -/
theorem within_descend {left : ℕ} (v : U64) (hsize : size > 0) (hpage : 4096 ∣ size.toNat)
    (hhuge : s.hugepage = hugepage)
    (hrest : ∀ s', s'.hugepage = hugepage →
      Within s' (tablePlan sub lv l left (virt + iSz virt (lv + 1)) (phys + iSz virt (lv + 1))
          (size - iSz virt (lv + 1))).2 out
        (tableLoop mapSt lv vm left (virt + iSz virt (lv + 1)) (phys + iSz virt (lv + 1))
          (size - iSz virt (lv + 1)) s')) :
  Within s (tablePlan sub lv l (left + 1) virt phys size).2
    ((sub (l ++ [511 - left]) virt phys size).2 = true ∧ out)
    (descend mapSt lv vm left virt phys size (.page v) s)
  := by
  have hfirst : Within s (sub (l ++ [511 - left]) virt phys size).2 False
      (mapSt (.page v) virt phys size s) := by
    apply hmapSt _ v hhuge hpage
  have hsteady' := hsteady (.page v) virt phys size s
  rw [descend]
  generalize hres : mapSt (.page v) virt phys size s = res at hfirst hsteady'
  cases hfirst with
  | @returned ret s' hret =>
      rw [bind_of_ok hres]
      by_cases hgo : ret = .errContinue
      · rw [if_neg (not_not_intro hgo), tablePlan_go hsize (hret hgo)]
        apply Within.mono _ id fun h => ⟨hret hgo, h⟩
        apply (hrest s' (hsteady'.hugepage.trans hhuge)).from hsteady'
      · rw [if_pos hgo]
        apply Within.returned fun h => absurd h hgo
  | stalled h =>
      rw [bind_of_error hres]
      apply Within.stalled h
  | refused =>
      rw [bind_of_error hres]
      apply Within.refused
  | strayed h => apply h.elim

/-- One turn of the second loop, from the second reading of the entry on. -/
theorem within_enter {left : ℕ} (nLv : U64) (hin : InTable vm (511 - left)) (hsize : size > 0)
    (hpage : 4096 ∣ size.toNat) (hhuge : s.hugepage = hugepage)
    (hrest : ∀ s', s'.hugepage = hugepage →
      Within s' (tablePlan sub lv l left (virt + iSz virt (lv + 1)) (phys + iSz virt (lv + 1))
          (size - iSz virt (lv + 1))).2 out
        (tableLoop mapSt lv vm left (virt + iSz virt (lv + 1)) (phys + iSz virt (lv + 1))
          (size - iSz virt (lv + 1)) s')) :
  Within s (tablePlan sub lv l (left + 1) virt phys size).2
    ((sub (l ++ [511 - left]) virt phys size).2 = true ∧ out)
    (enter mapSt lv vm left virt phys size nLv s)
  := by
  rw [enter, bind_of_ok (readEntry_eq hin)]
  split
  · apply Within.returned
    intro h
    cases h
  · cases hreach : reach s.physMapSz nLv with
    | none =>
        rw [bind_of_error (tableAt_of_none hreach)]
        apply Within.refused
    | some v =>
        rw [bind_of_ok (tableAt_of_reach hreach)]
        apply within_descend hsteady hmapSt v hsize hpage hhuge hrest

/-- The second loop goes outside its table only at a page of the plan that is outside it. -/
theorem within_tableLoop (hbelow : ∀ l virt phys size, Below l (sub l virt phys size).1)
    (hne : ∀ l virt phys {size : U64}, size > 0 → 4096 ∣ size.toNat →
      (sub l virt phys size).1 ≠ [])
    (hlv : lv < 3) (left : ℕ) (hpage : 4096 ∣ size.toNat) (hhuge : s.hugepage = hugepage) :
  Within s (tablePlan sub lv l left virt phys size).2
    (∃ d ∈ (tablePlan sub lv l left virt phys size).1, ∃ i, l ++ [i] <+: d.path ∧ ¬ InTable vm i)
    (tableLoop mapSt lv vm left virt phys size s)
  := by
  induction left generalizing s virt phys size with
  | zero => apply Within.returned fun _ => rfl
  | succ left ih =>
      by_cases hsize : size > 0
      · have hhead : (sub (l ++ [511 - left]) virt phys size).1
            <+: (tablePlan sub lv l (left + 1) virt phys size).1 := tablePlan_head hsize
        rw [tableLoop_succ hsize]
        by_cases hin : InTable vm (511 - left)
        · have hrest (s' : Vmem) (hs' : s'.hugepage = hugepage) :=
            @ih s' (virt + iSz virt (lv + 1)) (phys + iSz virt (lv + 1)) (size - iSz virt (lv + 1))
              (page_dvd_sub hpage (page_dvd_iSz virt hlv)) hs'
          rw [bind_of_ok (readEntry_eq hin)]
          have hlater {s' : Vmem} (nLv : U64) (hs' : s'.hugepage = hugepage) :
              Within s' (tablePlan sub lv l (left + 1) virt phys size).2
                (∃ d ∈ (tablePlan sub lv l (left + 1) virt phys size).1, ∃ i,
                  l ++ [i] <+: d.path ∧ ¬ InTable vm i)
                (enter mapSt lv vm left virt phys size nLv s') := by
            apply (within_enter hsteady hmapSt nLv hin hsize hpage hs' hrest).mono id
            rintro ⟨hgo, d, hd, hout⟩
            rw [tablePlan_go hsize hgo]
            use d, List.mem_append_right _ hd
          split
          · rcases addTable_run (s := s) hin with ⟨a, v, s', hrun, -⟩ | ⟨e, s', hrun, hfault, -⟩
            · have hsteady' := along_addTable vm (511 - left) s
              rw [hrun] at hsteady'
              rw [bind_of_ok hrun]
              apply (hlater a (hsteady'.hugepage.trans hhuge)).from hsteady'
            · rw [bind_of_error hrun]
              cases e with
              | panic msg => apply Within.refused
              | fault => apply Within.stalled (hfault rfl)
          · apply hlater _ hhuge
        · obtain ⟨d, hd⟩ := List.exists_mem_of_ne_nil _
            (hne (l ++ [511 - left]) virt phys hsize hpage)
          obtain ⟨j, -, hpre⟩ := hbelow _ _ _ _ d hd
          rw [bind_of_error (readEntry_fault hin)]
          apply Within.strayed
          use d, hhead.subset hd, 511 - left, (List.prefix_append _ _).trans hpre
      · rw [eq_zero_of_not_pos hsize, tableLoop_of_zero]
        apply Within.returned
        intro h
        cases h

end Turn

/-- Below the top-level table, `vmem_map_st` never goes outside the tables. -/
theorem within_vmemMapSt {n : ℕ} (hn : n ≤ 2) (l : List ℕ) (v : U64) (hhuge : s.hugepage = hugepage)
    (hpage : 4096 ∣ size.toNat) :
  Within s (mapPlan hugepage (n + 1) l virt phys size).2 False
    (vmemMapSt perms (n + 1) (.page v) virt phys size s)
  := by
  induction n generalizing s virt phys size l v with
  | zero =>
      have hleaf : size % levels (3 - 0) = 0 ∧ largepageAvail hugepage (3 - 0) = true :=
        ⟨(mod_levels _ _).mpr hpage, rfl⟩
      rw [vmemMapSt_succ, mapPlan, hhuge, if_pos hleaf, if_pos hleaf]
      apply within_leafLoop _ _ (Nat.sub_le _ _)
  | succ n ih =>
      rw [vmemMapSt_succ, mapPlan, hhuge]
      split
      · apply within_leafLoop _ _ (Nat.sub_le _ _)
      · have hbelow := below_mapPlan hugepage (n + 1)
        apply (within_tableLoop (along_vmemMapSt perms (n + 1)) (fun l v => ih (by omega) l v)
          hbelow (fun l _ _ _ => mapPlan_ne_nil hugepage (by omega) l) (by omega) _ hpage
          hhuge).mono id
        rintro ⟨d, hd, i, hi, hout⟩
        apply hout
        apply (below_tablePlan hbelow _ l (Nat.sub_le _ _) _ _ _).lt hd hi

/-- `vmem_map_st` goes outside the top-level table only at a page of the request that is outside
it. -/
theorem within_root (r : TablePtr) (hpage : 4096 ∣ size.toNat) :
  Within s (pagesOf s virt phys size).2 (Outside r (pagesOf s virt phys size).1)
    (vmemMapSt perms 4 r virt phys size s)
  := by
  have hleaf : ¬ (size % levels (3 - 3) = 0 ∧ largepageAvail s.hugepage (3 - 3) = true) := by
    rintro ⟨-, h⟩
    cases h
  rw [vmemMapSt_succ, pagesOf, mapPlan, if_neg hleaf, if_neg hleaf]
  apply (within_tableLoop (along_vmemMapSt perms 3)
    (fun l v => within_vmemMapSt (by decide) l v) (below_mapPlan s.hugepage 3)
    (fun l _ _ _ => mapPlan_ne_nil s.hugepage (by decide) l) (by decide) _ hpage rfl).mono id
  apply id

end Any

/-! ### Requests that stay in the tables -/

section Stays

variable {s : Vmem} {vm : Option ℕ} {r : TablePtr} {virt phys size : U64}

/-- The first entry of a page of a request. -/
theorem index_le_of_mem {d : Page} (hd : d ∈ (pagesOf s virt phys size).1) {i : ℕ}
    (hi : [i] <+: d.path) :
  index virt 0 ≤ i ∧ i < 512
  := by
  have hleaf : ¬ (size % levels 0 = 0 ∧ largepageAvail s.hugepage 0 = true) := by
    rintro ⟨-, h⟩
    cases h
  have hidx := index_lt virt (show 0 ≤ 3 by decide)
  have hbelow := below_mapPlan s.hugepage 4 [] virt phys size
  use ?_, hbelow.lt hd hi
  rw [pagesOf, mapPlan, if_neg hleaf] at hd
  have hfrom := (pairwise_tablePlan (below_mapPlan s.hugepage 3) (pairwise_mapPlan s.hugepage 3) 0
    [] (Nat.sub_le 512 (index virt 0)) virt phys size).1
  obtain ⟨j, hj, hpre⟩ := hfrom d hd
  have heq : [i] = [j] := by
    apply (List.prefix_iff_eq_take.mp hi).trans (List.prefix_iff_eq_take.mp hpre).symm
  rw [List.singleton_inj] at heq
  omega

/-- The pages of a kernel address are in `kmem`. -/
theorem not_outside_kmem (hvirt : OfRoot .kmem virt) :
  ¬ Outside .kmem (pagesOf s virt phys size).1
  := by
  rintro ⟨d, hd, i, hi, hout⟩
  obtain ⟨hle, hlt⟩ := index_le_of_mem hd hi
  obtain ⟨hkernel, -⟩ := hvirt.inTable
  apply hout
  use by omega, hlt

/-- The pages of a request are in the top-level table just when the request stays in its half. -/
theorem outside_pagesOf_iff (hroot : rootOf vm virt = some r) (hvirt : OfRoot r virt)
    (hpage : 4096 ∣ size.toNat) :
  Outside r (pagesOf s virt phys size).1 ↔ ¬ InTables s.hugepage virt size
  := by
  unfold rootOf at hroot
  split at hroot
  next hslt =>
    obtain rfl := Option.some.inj hroot
    have hin : InTables s.hugepage virt size := by
      use hpage
      intro huser
      rw [hslt] at huser
      cases huser
    apply iff_of_false (not_outside_kmem hvirt) (not_not_intro hin)
  next hslt =>
    obtain ⟨id, -, rfl⟩ := Option.map_eq_some_iff.mp hroot
    have huser : virt.slt 0 = false := Bool.eq_false_of_not_eq_true hslt
    rw [pagesOf, outside_iff s.hugepage id hpage hvirt]
    simp only [InTables, hpage, huser, true_and, forall_const]

/-- A request that stays in the tables never leaves them, whatever they hold. -/
theorem InTables.not_strays (h : InTables s.hugepage virt size) (hroot : rootOf vm virt = some r)
    (hvirt : OfRoot r virt) (perms : BitVec 32) :
  ¬ Strays s (vmemMapSt perms 4 r virt phys size s)
  := by
  apply (within_root r h.1).not_strays
  rw [outside_pagesOf_iff hroot hvirt h.1]
  apply not_not_intro h

end Stays

/-! ### Requests that leave the tables -/

section Leaving

variable {perms : BitVec 32} {s : Vmem} {vm : Option ℕ} {r : TablePtr} {virt phys size : U64}

/-- The entry for the first page does not come after that for the second. -/
def InOrder (d d' : Page) : Prop := ∀ i j, [i] <+: d.path → [j] <+: d'.path → i ≤ j

theorem inOrder_tablePlan {sub : List ℕ → (virt phys size : U64) → List Page × Bool}
    (hbelow : ∀ l virt phys size, Below l (sub l virt phys size).1)
    (hsub : ∀ l virt phys size, (sub l virt phys size).1.Pairwise Apart) (lv : ℕ) {left : ℕ}
    (hleft : left ≤ 512) :
  (tablePlan sub lv [] left virt phys size).1.Pairwise InOrder
  := by
  induction left generalizing virt phys size with
  | zero => apply List.Pairwise.nil
  | succ left ih =>
      have hslot {d : Page} {i : ℕ} (hd : d ∈ (sub ([] ++ [511 - left]) virt phys size).1)
          (hi : [i] <+: d.path) : i = 511 - left := by
        obtain ⟨j, -, hpre⟩ := hbelow _ _ _ _ d hd
        have hslot := (List.prefix_append _ [j]).trans hpre
        have heq : [i] = [511 - left] := by
          apply (List.prefix_iff_eq_take.mp hi).trans (List.prefix_iff_eq_take.mp hslot).symm
        rwa [List.singleton_inj] at heq
      have hfirst : (sub ([] ++ [511 - left]) virt phys size).1.Pairwise InOrder := by
        apply List.pairwise_of_forall_mem_list
        intro d hd d' hd' i j hi hj
        rw [hslot hd hi, hslot hd' hj]
      by_cases hsize : size > 0
      · cases hgo : (sub ([] ++ [511 - left]) virt phys size).2 with
        | false =>
            rw [tablePlan_stop hsize hgo]
            apply hfirst
        | true =>
            rw [tablePlan_go hsize hgo, List.pairwise_append]
            use hfirst, ih (by omega)
            intro d hd d' hd' i j hi hj
            obtain ⟨j', hj', hpre⟩ := (pairwise_tablePlan hbelow hsub lv []
              (show left ≤ 512 by omega) _ _ _).1 d' hd'
            have heq : [j] = [j'] := by
              apply (List.prefix_iff_eq_take.mp hj).trans (List.prefix_iff_eq_take.mp hpre).symm
            rw [List.singleton_inj] at heq
            rw [hslot hd hi]
            omega
      · rw [eq_zero_of_not_pos hsize, tablePlan_of_zero]
        apply List.Pairwise.nil

theorem inOrder_pagesOf (s : Vmem) (virt phys size : U64) :
  (pagesOf s virt phys size).1.Pairwise InOrder
  := by
  have hleaf : ¬ (size % levels 0 = 0 ∧ largepageAvail s.hugepage 0 = true) := by
    rintro ⟨-, h⟩
    cases h
  rw [pagesOf, mapPlan, if_neg hleaf]
  apply inOrder_tablePlan (below_mapPlan s.hugepage 3) (pairwise_mapPlan s.hugepage 3) 0
    (Nat.sub_le _ _)

/-- An entry that a top-level table does not have is not looked at. -/
theorem WfCore.look_outside (hwf : WfCore s) (hr : r ∈ roots) {d : Page} (hout : Outside r [d])
    {p : List ℕ} (hpre : d.path <+: p) :
  s.look r p = none
  := by
  obtain ⟨d', hd', i, hi, hout⟩ := hout
  obtain rfl := List.mem_singleton.mp hd'
  obtain ⟨q, rfl⟩ := hi.trans hpre
  have hempty := hwf.beyond hr (node_root s r) hout
  apply free_of_empty (node_root s r) hempty
  apply List.prefix_append

/-- The pages after one that is outside are outside as well. -/
theorem outside_of_inOrder (hvirt : OfRoot r virt) {d x : Page}
    (hd : d ∈ (pagesOf s virt phys size).1) (hx : x ∈ (pagesOf s virt phys size).1)
    (horder : InOrder d x) {i : ℕ} (hi : [i] <+: d.path) (hout : ¬ InTable r i) :
  Outside r [x]
  := by
  obtain ⟨j, -, hj⟩ := below_mapPlan s.hugepage 4 [] virt phys size x hx
  use x, List.mem_singleton_self x, j, hj
  cases r with
  | kmem => apply absurd ⟨d, hd, i, hi, hout⟩ (not_outside_kmem hvirt)
  | vm id =>
      have hle := horder i j hi hj
      change ¬ i < 256 at hout
      change ¬ j < 256
      omega
  | page => apply hvirt.elim

theorem path_ne_nil {d : Page} (hd : d ∈ (pagesOf s virt phys size).1) :
  d.path ≠ []
  := by
  obtain ⟨i, -, hi⟩ := below_mapPlan s.hugepage 4 [] virt phys size d hd
  intro hnil
  rw [hnil] at hi
  cases List.prefix_nil.mp hi

theorem reached_of_clear {M : PageMap} {ds : List Page} (h : ∀ d ∈ ds, ¬ Blocked M d) {x : Page}
    (hx : x ∈ ds) :
  Reached M ds x
  := by
  induction ds with
  | nil => cases hx
  | cons d ds ih =>
      use h d (List.mem_cons_self ..)
      rcases List.mem_cons.mp hx with rfl | hx
      · left
        rfl
      · right
        apply ih (fun d hd => h d (List.mem_cons_of_mem _ hd)) hx

theorem Supplied.not_stalls {s s' : Vmem} (h : Supplied s') :
  ¬ Stalls s s'
  := by
  rintro ⟨effects, heq, hmem⟩
  have hnone : none ∈ allocs s'.hist := by
    rw [allocs, List.mem_filterMap]
    use .alloc none
    rw [heq]
    use List.mem_append_left _ hmem
  obtain ⟨a, ha, -⟩ := h.fresh.isPage hnone
  cases ha

/-- For whole pages, a run leaves the tables just when some page is outside and nothing is in the
way before. -/
theorem Wf.strays_iff_of_dvd (hwf : Wf s) (hroot : rootOf vm virt = some r) (hvirt : OfRoot r virt)
    (hpage : 4096 ∣ size.toNat)
    (hsupplied : Supplied (finalState (vmemMapSt perms 4 r virt phys size s))) :
  Strays s (vmemMapSt perms 4 r virt phys size s)
    ↔ ¬ InTables s.hugepage virt size ∧ Open s r virt phys size
  := by
  have hr := rootOf_mem hroot
  have hmaps := (follows_mapPlan perms s.hugepage (n := 3) (by decide)).mapsTo (l := []) rfl
    hwf.toWfCore rfl (hwf.filledBut r) hr (node_root s r) virt phys hpage hsupplied.fresh
  rw [← @outside_pagesOf_iff s vm r virt phys size hroot hvirt hpage, Open, if_pos hpage]
  generalize vmemMapSt perms 4 r virt phys size s = res at hmaps hsupplied
  cases hmaps with
  | @mapped ret s' hmapped =>
      apply iff_of_false
      · rintro ⟨s'', hres, -⟩
        cases hres
      · rintro ⟨⟨d, hd, hout⟩, hopen⟩
        have hclear : ∀ x ∈ (pagesOf s virt phys size).1, ¬ Blocked (s.look r) x := by
          intro x hx
          by_cases houtx : Outside r [x]
          · intro hblocked
            apply hblocked.1
            intro p hp
            apply hwf.look_outside hr houtx hp
          · apply hopen x hx houtx
        obtain ⟨ok, hinstall, -⟩ := hmapped.install
        have houtcome := (hinstall.outcome (hwf.leafy hr) (pairwise_mapPlan _ _ _ _ _ _)
          fun x hx => path_ne_nil hx).1
        have hnone := hmapped.wf.look_outside hr ⟨d, List.mem_singleton_self d, hout⟩
          (List.prefix_refl _)
        rw [houtcome.page d (reached_of_clear hclear hd) _ (List.prefix_refl _)] at hnone
        cases hnone
  | stranded hstranded => apply absurd hstranded hsupplied.reached
  | @outside ds d M s' hpre hbefore hout =>
      obtain ⟨rest, hrest⟩ := hpre
      have hd : d ∈ (pagesOf s virt phys size).1 := by
        rw [pagesOf, ← hrest]
        simp
      obtain ⟨d', hd', i, hi, hout'⟩ := hout
      obtain rfl := List.mem_singleton.mp hd'
      apply iff_of_true
      · use s', rfl, hsupplied.not_stalls
      · use ⟨d', hd, i, hi, hout'⟩
        intro x hx hin
        have hapart := pairwise_mapPlan s.hugepage 4 [] virt phys size
        have horder := inOrder_pagesOf s virt phys size
        have hmem := hx
        rw [pagesOf, ← hrest, List.append_assoc] at hx horder
        rw [← hrest, List.append_assoc] at hapart
        rcases List.mem_append.mp hx with hx | hx
        · -- the pages before have been installed
          have hpaths : ∀ y ∈ ds, y.path ≠ [] := by
            intro y hy
            apply @path_ne_nil s virt phys size
            rw [pagesOf, ← hrest, List.append_assoc]
            apply List.mem_append_left _ hy
          have hreached := (hbefore.outcome (hwf.leafy hr) (List.pairwise_append.mp hapart).1
            hpaths).2 rfl x hx
          apply hreached.clear
        · -- the pages after are outside as well
          apply absurd _ hin
          rcases List.mem_cons.mp hx with rfl | hx
          · use x, List.mem_singleton_self x, i
          · have hlater := (List.pairwise_cons.mp (List.pairwise_append.mp horder).2.1).1 x hx
            apply outside_of_inOrder hvirt hd hmem hlater hi hout'

/-- A size that is no multiple of the page size is none of a larger span either. -/
theorem not_leaf_of_not_dvd (hpage : ¬ 4096 ∣ size.toNat) (lv : ℕ) {p : Prop} :
  ¬ (size % levels lv = 0 ∧ p)
  := by
  rintro ⟨h, -⟩
  apply hpage ((page_dvd_span lv).trans ((mod_levels _ _).mp h))

/-- What is found lets a run for a size that is no multiple of the page size go down below the last
level. -/
def Bottomless (s : Vmem) : Option (ℕ × U64) → Prop
  | none => True
  | some (k, e) => e &&& addrMask = 0 ∨ k = 3 ∧ reach s.physMapSz (e &&& addrMask) ≠ none

/-- A run goes down below the last level just when it is let. -/
structure Sinks (s : Vmem) (found : Option (ℕ × U64))
    (res : EStateM.Result Trap Vmem VmemErrs) : Prop where
  strays : Bottomless s found → ∃ s', res = .error .fault s'
  stops : ¬ Bottomless s found →
    (∃ s', res = .ok .errAlreadymapped s') ∨ ∃ msg s', res = .error (.panic msg) s'

theorem Supplied.of_bind {α β : Type} {x : Program Vmem α} {f : α → Program Vmem β}
    (h : Supplied (finalState ((x >>= f) s))) (hf : ∀ a, Along Steady (f a)) :
  Supplied (finalState (x s))
  := by
  cases hx : x s with
  | ok a s' =>
      rw [bind_of_ok hx] at h
      use h.fresh.of_suffix (hf a s').hist
      intro hstranded
      apply h.reached (hstranded.mono (hf a s'))
  | error e s' =>
      rw [bind_of_error hx] at h
      apply h

section Last

variable {t : TablePtr} {left : ℕ} (hin : InTable t (511 - left))

include hin

/-- Down from the last level. -/
theorem enter_last {nLv v : U64} (hlarge : s.tables t (511 - left) &&& largepage = 0)
    (hreach : reach s.physMapSz nLv = some v) :
  enter (vmemMapSt perms 0) 3 t left virt phys size nLv s = .error .fault s
  := by
  rw [enter, bind_of_ok (readEntry_eq hin), if_neg (not_not_intro hlarge),
    bind_of_ok (tableAt_of_reach hreach)]
  rfl

/-- Down from the last level to a table that is added. -/
theorem addTable_last (hsupplied : Supplied (finalState
    ((addTable t (511 - left) >>= enter (vmemMapSt perms 0) 3 t left virt phys size) s))) :
  ∃ s', (addTable t (511 - left) >>= enter (vmemMapSt perms 0) 3 t left virt phys size) s
    = .error .fault s'
  := by
  rcases addTable_run (s := s) hin with
    ⟨a, v, s', hrun, hentry, hreach⟩ | ⟨e, s', hrun, -, hstranded⟩
  · have hsteady := along_addTable t (511 - left) s
    rw [hrun] at hsteady
    use s'
    rw [bind_of_ok hrun]
    apply enter_last hin
    · rw [hentry, linkEntry_largepage]
    · apply (congrArg (reach · a) hsteady.physMapSz).trans hreach
  · rw [bind_of_error hrun] at hsupplied
    apply absurd (hstranded hsupplied.fresh) hsupplied.reached

end Last

/-- At the last level. -/
theorem WfCore.sinks_last (hwf : WfCore s) (hr : r ∈ roots) {t : TablePtr}
    (ht : s.node r (pathTo virt 3) = some t) (hin : InTable t (index virt 3))
    (hpage : ¬ 4096 ∣ size.toNat)
    (hsupplied : Supplied (finalState (vmemMapSt perms 1 t virt phys size s))) :
  Sinks s (s.look r (pathTo virt 4)) (vmemMapSt perms 1 t virt phys size s)
  := by
  obtain ⟨left, hleft, hslot⟩ : ∃ left,
      512 - index virt 3 = left + 1 ∧ index virt 3 = 511 - left := by
    have hidx := index_lt virt (le_refl 3)
    use 511 - index virt 3, by omega, by omega
  have hpos : size > 0 := by
    by_contra hpos
    rw [eq_zero_of_not_pos hpos] at hpage
    apply hpage (dvd_zero _)
  have hentry := hwf.entry hr ht (511 - left)
  rw [hslot] at hin
  rw [vmemMapSt_succ, if_neg (not_leaf_of_not_dvd hpage _), hleft, tableLoop_succ hpos,
    bind_of_ok (readEntry_eq hin)] at hsupplied ⊢
  rw [length_pathTo] at hentry
  rw [pathTo_succ, hslot]
  generalize he : s.tables t (511 - left) = e at hentry hsupplied ⊢
  cases hentry with
  | empty =>
      have hnone : s.look r (pathTo virt 3 ++ [511 - left]) = none :=
        free_of_empty ht he _ (List.prefix_refl _)
      have haddr : (0 : U64) &&& addrMask = 0 := BitVec.zero_and
      rw [if_pos haddr] at hsupplied ⊢
      rw [hnone]
      constructor
      · intro
        apply addTable_last hin hsupplied
      · intro h
        apply absurd trivial h
  | table hlv => apply absurd hlv (by decide)
  | @leaf phys' perms' havail =>
      have hfound : s.look r (pathTo virt 3 ++ [511 - left])
          = some (3, leafEntry phys' perms' 3) := by
        have hleaf : isLeaf s.hugepage (pathTo virt 3).length (s.tables t (511 - left)) = true := by
          rw [he, length_pathTo]
          apply isLeaf_leafEntry havail
        have hlook := look_of_leaf (exclusive_link s.hugepage s.physMapSz) ht hleaf []
        rwa [he, length_pathTo, List.append_nil] at hlook
      have hsmall : leafEntry phys' perms' 3 &&& largepage = 0 := by
        by_contra h
        apply leafEntry_largepage.mp h rfl
      rw [hfound]
      by_cases haddr : leafEntry phys' perms' 3 &&& addrMask = 0
      · rw [if_pos haddr] at hsupplied ⊢
        constructor
        · intro
          apply addTable_last hin hsupplied
        · intro h
          apply absurd (.inl haddr) h
      · rw [if_neg haddr]
        cases hreach : reach s.physMapSz (leafEntry phys' perms' 3 &&& addrMask) with
        | none =>
            constructor
            · rintro (h | ⟨-, h⟩)
              · apply absurd h haddr
              · apply absurd hreach h
            · intro
              right
              use "Invalid Address Detected!", s
              rw [enter, bind_of_ok (readEntry_eq hin), he, if_neg (not_not_intro hsmall),
                bind_of_error (tableAt_of_none hreach)]
        | some v =>
            constructor
            · intro
              use s
              apply enter_last hin _ hreach
              rw [he, hsmall]
            · intro h
              apply absurd (.inr ⟨rfl, by simp [hreach]⟩) h

/-- What is found once a run has gone down to a table. -/
theorem Entered.bottomless {l : List ℕ} {i : ℕ} {v : U64} {s₁ : Vmem}
    (h : Entered s r l i v s₁) (hr : r ∈ roots) {p : List ℕ} (hpre : l ++ [i] <+: p) :
  (Bottomless s (s.look r p) ↔ Bottomless s₁ (s₁.look r p))
  := by
  have hnone {a : U64} (hadd : Added s r l i a v s₁) : s₁.look r p = none := by
    rw [hadd.look hr, if_pos ⟨rfl, hpre⟩]
  cases h with
  | there => rfl
  | added hadd hfree =>
      rw [hnone hadd, hfree p hpre]
      rfl
  | replaced hadd _ haddr hfound =>
      rw [hnone hadd, hfound p hpre]
      apply iff_of_true (.inl haddr) trivial

theorem Sinks.congr {s₁ : Vmem} {found found₁ : Option (ℕ × U64)}
    {res : EStateM.Result Trap Vmem VmemErrs} (h : Sinks s₁ found₁ res)
    (hiff : Bottomless s found ↔ Bottomless s₁ found₁) :
  Sinks s found res
  where
  strays hfound := h.strays (hiff.mp hfound)
  stops hfound := h.stops fun hfound₁ => hfound (hiff.mpr hfound₁)

/-- Up to the table above. -/
theorem Sinks.descend {found : Option (ℕ × U64)} {v : TablePtr}
    {mapSt : TablePtr → (virt phys size : U64) → Program Vmem VmemErrs}
    (h : Sinks s found (mapSt v virt phys size s)) (lv : ℕ) (t : TablePtr) (left : ℕ) :
  Sinks s found (descend mapSt lv t left virt phys size v s)
  := by
  constructor
  · intro hfound
    obtain ⟨s', hrun⟩ := h.strays hfound
    use s'
    rw [VirtMem.descend, bind_of_error hrun]
  · intro hfound
    rcases h.stops hfound with ⟨s', hrun⟩ | ⟨msg, s', hrun⟩
    · left
      use s'
      rw [VirtMem.descend, bind_of_ok hrun]
      rfl
    · right
      use msg, s'
      rw [VirtMem.descend, bind_of_error hrun]

/-- On the way down. -/
theorem WfCore.sinks (hwf : WfCore s) (hr : r ∈ roots) {n : ℕ} (hn : n ≤ 3) {t : TablePtr}
    (ht : s.node r (pathTo virt (3 - n)) = some t) (hroot : InTable r (index virt 0))
    (hpage : ¬ 4096 ∣ size.toNat)
    (hsupplied : Supplied (finalState (vmemMapSt perms (n + 1) t virt phys size s))) :
  Sinks s (s.look r (pathTo virt 4)) (vmemMapSt perms (n + 1) t virt phys size s)
  := by
  have hin := hwf.inTable_index hr (show 3 - n ≤ 3 by omega) ht hroot
  induction n generalizing s t with
  | zero => apply hwf.sinks_last hr ht hin hpage hsupplied
  | succ n ih =>
      obtain ⟨left, hleft, hslot⟩ : ∃ left, 512 - index virt (3 - (n + 1)) = left + 1
          ∧ index virt (3 - (n + 1)) = 511 - left := by
        have hidx := index_lt virt (show 3 - (n + 1) ≤ 3 by omega)
        use 511 - index virt (3 - (n + 1)), by omega, by omega
      have hpos : size > 0 := by
        by_contra hpos
        rw [eq_zero_of_not_pos hpos] at hpage
        apply hpage (dvd_zero _)
      have hlen := length_pathTo virt (3 - (n + 1))
      have hpre : pathTo virt (3 - (n + 1)) ++ [511 - left] <+: pathTo virt 4 := by
        rw [← hslot, ← pathTo_succ]
        apply pathTo_initial virt (by omega)
      have hnext : pathTo virt (3 - n) = pathTo virt (3 - (n + 1)) ++ [511 - left] := by
        rw [← hslot, ← pathTo_succ, show 3 - (n + 1) + 1 = 3 - n by omega]
      rw [hslot] at hin
      rw [vmemMapSt_succ, if_neg (not_leaf_of_not_dvd hpage _), hleft, ← hlen] at hsupplied ⊢
      rcases tableLoop_cases hwf hr ht (by omega) (along_vmemMapSt perms (n + 1)) hin hpos
        hsupplied.fresh with
        ⟨e, s', hrun, hstranded⟩ | ⟨e, hrun, haddr, hfound⟩ | ⟨v, s₁, hentered, hrun⟩
      · rw [hrun] at hsupplied
        apply absurd hstranded hsupplied.reached
      · rw [hrun, hfound _ hpre]
        constructor
        · rintro (h | ⟨h, -⟩)
          · apply absurd h haddr
          · omega
        · intro
          left
          use s
      · rw [hrun, descend] at hsupplied
        have hchild := ih (hentered.wf hwf) (by omega) (hnext ▸ hentered.node hr)
          (hsupplied.of_bind fun ret => by
            apply Along.ite
            · apply Along.pure
            · apply steps_steady.tableLoop (along_vmemMapSt perms (n + 1)))
          ((hentered.wf hwf).inTable_index hr (by omega) (hnext ▸ hentered.node hr) hroot)
        rw [hrun]
        apply (hchild.descend _ _ _).congr (hentered.bottomless hr hpre)

/-- For other sizes, a run goes down below the last level unless something stops it. -/
theorem Wf.strays_iff_of_not_dvd (hwf : Wf s) (hroot : rootOf vm virt = some r)
    (hvirt : OfRoot r virt) (hpage : ¬ 4096 ∣ size.toNat)
    (hsupplied : Supplied (finalState (vmemMapSt perms 4 r virt phys size s))) :
  Strays s (vmemMapSt perms 4 r virt phys size s)
    ↔ ¬ InTables s.hugepage virt size ∧ Open s r virt phys size
  := by
  have hsinks := hwf.sinks (n := 3) (rootOf_mem hroot) (le_refl 3) rfl hvirt.inTable hpage hsupplied
  have hout : ¬ InTables s.hugepage virt size := fun h => hpage h.1
  have hopen : Open s r virt phys size ↔ Bottomless s (s.look r (pathTo virt 4)) := by
    rw [Open, if_neg hpage]
    cases s.look r (pathTo virt 4) with
    | none => simp [Bottomless]
    | some x =>
        obtain ⟨k, e⟩ := x
        simp [Bottomless]
  rw [hopen]
  constructor
  · rintro ⟨s', hrun, -⟩
    use hout
    by_contra hfound
    rcases hsinks.stops hfound with ⟨s'', hrun'⟩ | ⟨msg, s'', hrun'⟩
    · rw [hrun] at hrun'
      cases hrun'
    · rw [hrun] at hrun'
      cases hrun'
  · rintro ⟨-, hfound⟩
    obtain ⟨s', hrun⟩ := hsinks.strays hfound
    rw [hrun] at hsupplied
    use s', hrun, hsupplied.not_stalls

end Leaving

/-! ### The claim -/

/-- Whatever the tables hold, a request that stays in the tables accesses no entry outside them; any
other does, in well-formed tables, just when nothing stops it before. -/
theorem within_tables_iff {vm : Option ℕ} {r : TablePtr} {virt : U64}
    (hroot : rootOf vm virt = some r) (hvirt : OfRoot r virt) (phys size : U64)
    (perms : BitVec 32) (s : Vmem) :
  (InTables s.hugepage virt size → ¬ Strays s (vmemMapSt perms 4 r virt phys size s))
    ∧ (Wf s → Supplied (finalState (vmemMapSt perms 4 r virt phys size s)) →
      (¬ Strays s (vmemMapSt perms 4 r virt phys size s)
        ↔ InTables s.hugepage virt size ∨ ¬ Open s r virt phys size))
  := by
  constructor
  · intro h
    apply h.not_strays hroot hvirt
  · intro hwf hsupplied
    have hiff : Strays s (vmemMapSt perms 4 r virt phys size s)
        ↔ ¬ InTables s.hugepage virt size ∧ Open s r virt phys size := by
      by_cases hpage : 4096 ∣ size.toNat
      · apply hwf.strays_iff_of_dvd hroot hvirt hpage hsupplied
      · apply hwf.strays_iff_of_not_dvd hroot hvirt hpage hsupplied
    rw [hiff, not_and_or, not_not]

/-- The last page of the lower half. -/
def lastPage : U64 := 0x7ffffffff000

/-- A request for an address space, after `vmem_init`. -/
def createThenMapSt (virt phys size : U64) : Program Vmem VmemErrs := do
  vmemInit 0 true 0x1000
  match ← vmemCreate with
  | none => pure .errNone
  | some id => vmemMapSt 0 4 (.vm id) virt phys size

theorem strays_lastPage :
  ∃ e s', createThenMapSt lastPage 0x400000 (kib 8) bootVmem = .error e s' ∧ e = .fault
    ∧ allocs s'.hist = sevenPages
  := exists_of_stops _ _ (by decide +kernel)

theorem supplied_sevenPages {s : Vmem} (hwf : Wf s) {virt phys size : U64} {id : ℕ} {s' : Vmem}
    (hrun : vmemMapSt 0 4 (.vm id) virt phys size s = .error .fault s')
    (hallocs : allocs s'.hist = sevenPages) :
  Supplied s'
  := by
  have hsteady := along_vmemMapSt 0 4 (.vm id) virt phys size s
  rw [hrun] at hsteady
  have hlow := lowPages_of_sevenPages hallocs
  use hlow.toFreshPages
  apply hlow.not_stranded
  have hsame : s'.physMapSz = s.physMapSz := hsteady.physMapSz
  rw [hsame]
  apply hwf.physMap

/-- After `vmem_init` and `vmem_create`, a request for the last page of the lower half and one page
more. -/
theorem exists_strays_lastPage :
  ∃ s id s', Built s ∧ Wf s ∧ Supplied s'
    ∧ vmemMapSt 0 4 (.vm id) lastPage 0x400000 (kib 8) s = .error .fault s'
  := by
  obtain ⟨s₀, hinit, hbuilt, hfresh, -⟩ := exists_built_bootVmem
  obtain ⟨e, s', hrun, rfl, hallocs⟩ := strays_lastPage
  rw [createThenMapSt, bind_of_ok hinit, bind_apply] at hrun
  cases hcreate : vmemCreate s₀ with
  | error e s =>
      rw [vmemCreate, bind_of_ok (get_apply s₀)] at hcreate
      cases hpos : bootstrapMalloc s₀.bootstrapAllocPos 2056 with
      | none =>
          rw [hpos] at hcreate
          cases hcreate
      | some pos =>
          rw [hpos] at hcreate
          cases hcreate
  | ok id s =>
      rw [hcreate] at hrun
      have hbuilt' := hbuilt.create hcreate
      cases id with
      | none => cases hrun
      | some id =>
          have hsteady := along_vmemMapSt 0 4 (.vm id) lastPage 0x400000 (kib 8) s
          dsimp only at hrun
          rw [hrun] at hsteady
          have hwf : Wf s :=
            hbuilt'.wf ((lowPages_of_sevenPages hallocs).toFreshPages.of_suffix hsteady.hist)
          use s, id, s', hbuilt', hwf, supplied_sevenPages hwf hrun hallocs

theorem inTables_lastPage (hugepage : Bool) :
  InTables hugepage lastPage (kib 4)
  := by
  use by decide
  intro
  cases hugepage with
  | false => constructor <;> decide
  | true => constructor <;> decide

/-- A request for the last page of the lower half, and one for one page more. -/
theorem within_tables_lastPage :
  ∃ s id, Built s ∧ ¬ Strays s (vmemMapSt 0 4 (.vm id) lastPage 0x400000 (kib 4) s)
    ∧ (¬ Strays s (vmemMapSt 0 4 (.vm id) lastPage 0x400000 (kib 8) s)
      ↔ InTables s.hugepage lastPage (kib 8) ∨ ¬ Open s (.vm id) lastPage 0x400000 (kib 8))
  := by
  obtain ⟨s, id, s', hbuilt, hwf, hsupplied, hrun⟩ := exists_strays_lastPage
  have hroot : rootOf (some id) lastPage = some (.vm id) := rfl
  have hvirt : OfRoot (.vm id) lastPage := by
    change lastPage.toNat < 2 ^ 47
    decide
  use s, id, hbuilt
  constructor
  · apply (within_tables_iff hroot hvirt 0x400000 (kib 4) 0 s).1 (inTables_lastPage _)
  · apply (within_tables_iff hroot hvirt 0x400000 (kib 8) 0 s).2 hwf
    rw [hrun]
    apply hsupplied

/-- A request for the last page of the lower half and one page more reads and writes past the table
of the address space. -/
theorem not_within_tables_lastPage :
  ¬ ∀ (vm : Option ℕ) (r : TablePtr) (virt phys size : U64) (perms : BitVec 32) (s : Vmem),
    Built s → rootOf vm virt = some r → OfRoot r virt →
    ¬ Strays s (vmemMapSt perms 4 r virt phys size s)
  := by
  intro h
  obtain ⟨s, id, s', hbuilt, -, hsupplied, hrun⟩ := exists_strays_lastPage
  apply h (some id) (.vm id) lastPage 0x400000 (kib 8) 0 s hbuilt rfl
  · change lastPage.toNat < 2 ^ 47
    decide
  · use s', hrun, hsupplied.not_stalls

end VirtMem
