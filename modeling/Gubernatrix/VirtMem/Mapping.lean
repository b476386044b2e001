import Gubernatrix.VirtMem.Plan
import Gubernatrix.VirtMem.Growth

/-!
# Mapping

A run of `vmem_map_st` installs the pages of its plan in what walks from the top-level table
find (`Mapped`), as long as the allocator hands out fresh pages.
-/

namespace VirtMem

open Program Radix PhysMem

/-- Something is found below every table, but for those on the way to `l`. -/
def FilledBut (s : Vmem) (r : TablePtr) (l : List ℕ) : Prop :=
  ∀ r' ∈ roots, ∀ l' t, s.node r' l' = some t → l' ≠ [] → (r' = r → ¬ l' <+: l) →
    ∃ p, s.look r' (l' ++ p) ≠ none

/-- What `vmem_map_st` returns when the pages were installed or one was in the way, and when it
is to go on beyond the table. -/
def verdict (ok goOn : Bool) : VmemErrs :=
  if ok then if goOn then .errContinue else .errNone else .errAlreadymapped

/-- A run from `s` that returned `ret` in `s'` has installed the pages of the plan for the table
that `l` leads to. -/
structure Mapped (perms : BitVec 32) (s : Vmem) (r : TablePtr) (l : List ℕ)
    (plan : List Page × Bool) (ret : VmemErrs) (s' : Vmem) : Prop where
  wf : WfCore s'
  grown : Grown s s'
  filled : FilledBut s' r l
  other : ∀ r' ∈ roots, r' ≠ r → s'.look r' = s.look r'
  install : ∃ ok, Install perms (s.look r) plan.1 (s'.look r) ok ∧ ret = verdict ok plan.2

theorem eq_false_of_verdict {ok goOn : Bool} (h : .errAlreadymapped = verdict ok goOn) :
  ok = false
  := by
  cases ok with
  | false => rfl
  | true => cases goOn <;> cases h

theorem eq_true_of_verdict {ok goOn : Bool} (h : .errContinue = verdict ok goOn) :
  ok = true ∧ goOn = true
  := by
  cases ok with
  | false => cases h
  | true =>
      cases goOn with
      | false => cases h
      | true => exact ⟨rfl, rfl⟩

/-- Some page has no place in the top-level table. -/
def Outside (r : TablePtr) (ds : List Page) : Prop :=
  ∃ d ∈ ds, ∃ i, [i] <+: d.path ∧ ¬ InTable r i

/-- A run has installed the pages of the plan, or it has stopped: at a page that the direct map
does not reach, or outside the top-level table, where all pages before were installed. -/
inductive MapsTo (perms : BitVec 32) (s : Vmem) (r : TablePtr) (l : List ℕ)
    (plan : List Page × Bool) : EStateM.Result Trap Vmem VmemErrs → Prop where
  | mapped {ret : VmemErrs} {s' : Vmem} :
      Mapped perms s r l plan ret s' → MapsTo perms s r l plan (.ok ret s')
  | stranded {e : Trap} {s' : Vmem} : Stranded s' → MapsTo perms s r l plan (.error e s')
  | outside {ds : List Page} {d : Page} {M : PageMap} {s' : Vmem} : ds ++ [d] <+: plan.1 →
      Install perms (s.look r) ds M true → Outside r [d] →
      MapsTo perms s r l plan (.error .fault s')

variable {perms : BitVec 32} {s : Vmem} {r vm : TablePtr} {l : List ℕ} {virt phys size : U64}

/-! ### Tables with something below -/

theorem FilledBut.mono {l' : List ℕ} (h : FilledBut s r l) (hpre : l <+: l') :
  FilledBut s r l'
  := fun r' hr' l'' t ht hne hoff => h r' hr' l'' t ht hne fun hrr hl => hoff hrr (hl.trans hpre)

/-- When something is found below the last table left out, all tables on the way to it are
taken back in. -/
theorem FilledBut.close {l' : List ℕ} (h : FilledBut s r (l ++ l'))
    (hfound : ∃ p, s.look r (l ++ l' ++ p) ≠ none) :
  FilledBut s r l
  := by
  intro r' hr' l'' t ht hne hoff
  by_cases hin : r' = r ∧ l'' <+: l ++ l'
  · obtain ⟨rfl, q, hq⟩ := hin
    obtain ⟨p, hp⟩ := hfound
    rw [← hq, List.append_assoc] at hp
    exact ⟨q ++ p, hp⟩
  · exact h r' hr' l'' t ht hne fun hrr hl => hin ⟨hrr, hl⟩

/-- A slot with a link or a leaf is not free. -/
theorem WfCore.not_free (hwf : WfCore s) (hfilled : FilledBut s r l) (hr : r ∈ roots)
    (ht : s.node r l = some vm) {i : ℕ} (hpresent : s.tables vm i &&& present ≠ 0) :
  ¬ PageMap.Free (s.look r) (l ++ [i])
  := by
  intro hfree
  have hentry := hwf.entry hr ht i
  generalize he : s.tables vm i = e at hentry hpresent
  cases hentry with
  | empty => simp at hpresent
  | @table a hlv ha hreach =>
      obtain ⟨v, hv⟩ := hreach
      have hlink : s.node r (l ++ [i]) = some (.page v) := by
        have := node_concat ht i
        rw [he, link_linkEntry _ _ hlv ha.2, hv] at this
        exact this
      obtain ⟨p, hp⟩ := hfilled r hr _ _ hlink (by simp) fun _ => not_snoc_below l i
      exact hp (hfree _ (List.prefix_append _ _))
  | @leaf phys perms havail =>
      have hleaf := look_of_leaf (i := i) (exclusive_link s.hugepage s.physMapSz) ht
        (by rw [he]; exact isLeaf_leafEntry havail) []
      rw [List.append_nil] at hleaf
      have := hfree _ (List.prefix_refl _)
      rw [Vmem.look, hleaf] at this
      cases this

/-- A slot without an entry is free. -/
theorem free_of_empty (ht : s.node r l = some vm) {i : ℕ} (hempty : s.tables vm i = 0) :
  PageMap.Free (s.look r) (l ++ [i])
  := by
  rintro p ⟨q, rfl⟩
  exact look_of_stop (exclusive_link s.hugepage s.physMapSz) ht (by rw [hempty, isLeaf_zero])
    (by rw [hempty, link_zero]) q

/-- A slot has nothing above it. -/
theorem not_zeroAbove (ht : s.node r l = some vm) (i k : ℕ) :
  ¬ PageMap.ZeroAbove (s.look r) (l ++ [i]) k
  := by
  rintro ⟨e, he, hlt, -⟩
  rw [Vmem.look, look_append (exclusive_link _ _) ht] at he
  have := look_lt he
  rw [List.length_append, List.length_singleton] at hlt
  omega

/-! ### Parts of runs -/

/-- Nothing to install. -/
theorem Mapped.refl (hwf : WfCore s) (hfilled : FilledBut s r l) (goOn : Bool) :
  Mapped perms s r l ([], goOn) (verdict true goOn) s
  where
  wf := hwf
  grown := Std.Refl.refl s
  filled := hfilled
  other _ _ _ := rfl
  install := ⟨true, .nil, rfl⟩

/-- A run that goes on from where the pages `ds` have been installed. -/
theorem MapsTo.after {ds : List Page} {plan : List Page × Bool} {s₁ : Vmem}
    {res : EStateM.Result Trap Vmem VmemErrs} (hgrown : Grown s s₁)
    (hother : ∀ r' ∈ roots, r' ≠ r → s₁.look r' = s.look r')
    (hinstall : Install perms (s.look r) ds (s₁.look r) true)
    (h : MapsTo perms s₁ r l plan res) :
  MapsTo perms s r l (ds ++ plan.1, plan.2) res
  := by
  cases h with
  | mapped h =>
      obtain ⟨ok, hrest, hret⟩ := h.install
      exact .mapped {
        wf := h.wf
        grown := IsTrans.trans _ _ _ hgrown h.grown
        filled := h.filled
        other := fun r' hr' hne => (h.other r' hr' hne).trans (hother r' hr' hne)
        install := ⟨ok, hinstall.append hrest, hret⟩ }
  | stranded h => exact .stranded h
  | @outside ds' d M s' hpre hbefore hout =>
      have hpre' : ds ++ ds' ++ [d] <+: ds ++ plan.1 := by
        rw [List.append_assoc]
        apply (List.prefix_append_right_inj _).mpr hpre
      exact .outside hpre' (hinstall.append hbefore) hout

/-! ### Leaves -/

theorem Steps.leafLoop {R : Vmem → Vmem → Prop} [Std.Refl R] [IsTrans Vmem R] (hR : Steps R)
    (lv : ℕ) (vm : TablePtr) (perms : BitVec 32) (left : ℕ) (phys size : U64) :
  Along R (VirtMem.leafLoop lv vm perms left phys size)
  := by
  induction left generalizing phys size with
  | zero =>
      rw [VirtMem.leafLoop]
      apply Along.ite
      · apply Along.pure
      · apply Along.pure
  | succ left ih =>
      rw [VirtMem.leafLoop]
      apply Along.ite
      · apply (hR.readEntry _ _).bind
        intro ent
        apply Along.ite
        · apply Along.pure
        · apply (hR.writeEntry _ _ _).bind
          intro
          apply ih
      · apply Along.pure

/-- One turn of the first loop of `vmem_map_st`, at a free entry. -/
theorem Mapped.leaf (perms : BitVec 32) (hwf : WfCore s) (hfilled : FilledBut s r l)
    (hr : r ∈ roots) (ht : s.node r l = some vm)
    (havail : largepageAvail s.hugepage l.length = true) {i : ℕ} (hin : InTable vm i)
    (hempty : s.tables vm i = 0) (virt phys : U64) :
  Mapped perms s r l ([⟨l ++ [i], virt, phys⟩], false) .errNone
    (s.poke vm i (leafEntry phys perms l.length))
  := by
  obtain ⟨hwf', hgrown, hnode, hlook⟩ := hwf.poke_leaf hr ht hin hempty havail phys perms
  have hlevel : (Page.mk (l ++ [i]) virt phys).level = l.length := by
    simp [Page.level]
  have hput : (s.poke vm i (leafEntry phys perms l.length)).look r
      = PageMap.put (s.look r) perms ⟨l ++ [i], virt, phys⟩ := by
    funext p
    rw [hlook r hr p, PageMap.put, Page.entry, hlevel]
    simp only [true_and]
  refine ⟨hwf', hgrown, ?_, ?_, true, ?_, rfl⟩
  · intro r' hr' l' t ht' hne hoff
    rw [hnode r' hr'] at ht'
    obtain ⟨p, hp⟩ := hfilled r' hr' l' t ht' hne hoff
    refine ⟨p, ?_⟩
    rw [hlook r' hr']
    split
    · exact Option.some_ne_none _
    · exact hp
  · intro r' hr' hne
    funext p
    rw [hlook r' hr', if_neg fun h => hne h.1]
  · rw [hput]
    exact .put (free_of_empty ht hempty) .nil

/-- The first loop of `vmem_map_st` installs its pages. -/
theorem mapsTo_leafLoop (hwf : WfCore s) (hfilled : FilledBut s r l) (hr : r ∈ roots)
    (ht : s.node r l = some vm) (hin : ∀ i < 512, InTable vm i)
    (havail : largepageAvail s.hugepage l.length = true) (left : ℕ) :
  MapsTo perms s r l (leafPlan l.length l left virt phys size)
    (leafLoop l.length vm perms left phys size s)
  := by
  induction left generalizing s virt phys size with
  | zero =>
      rw [leafLoop, leafPlan]
      split
      · exact .mapped (Mapped.refl hwf hfilled true)
      · exact .mapped (Mapped.refl hwf hfilled false)
  | succ left ih =>
      by_cases hsize : size > 0
      · have hidx : InTable vm (511 - left) := hin _ (by omega)
        rw [leafLoop, if_pos hsize, leafPlan_succ hsize, bind_of_ok (readEntry_eq hidx)]
        by_cases hpresent : s.tables vm (511 - left) &&& present = 0
        · have hempty := (hwf.entry hr ht (511 - left)).eq_zero hpresent
          have hleaf := Mapped.leaf perms hwf hfilled hr ht havail hidx hempty virt phys
          obtain ⟨ok, hinstall, hok⟩ := hleaf.install
          obtain rfl : ok = true := by
            cases ok with
            | false => cases hok
            | true => rfl
          rw [if_neg (by simpa using hpresent), bind_of_ok (writeEntry_eq hidx)]
          exact MapsTo.after hleaf.grown hleaf.other hinstall
            (ih hleaf.wf hleaf.filled (hleaf.grown.node hr ht) havail)
        · rw [if_pos hpresent]
          apply MapsTo.mapped
          refine ⟨hwf, Std.Refl.refl s, hfilled, fun _ _ _ => rfl, false, ?_, rfl⟩
          exact .taken (hwf.not_free hfilled hr ht hpresent) (not_zeroAbove ht _)
      · rw [eq_zero_of_not_pos hsize, leafLoop, leafPlan_of_zero]
        exact .mapped (Mapped.refl hwf hfilled false)

/-! ### Going down -/

section Turn

variable {mapSt : TablePtr → (virt phys size : U64) → Program Vmem VmemErrs} {left : ℕ}

/-- The second loop of `vmem_map_st` from a recursive call on, for the table at `v`. -/
def descend (mapSt : TablePtr → (virt phys size : U64) → Program Vmem VmemErrs) (lv : ℕ)
    (vm : TablePtr) (left : ℕ) (virt phys size : U64) (v : TablePtr) : Program Vmem VmemErrs := do
  let ret ← mapSt v virt phys size
  if ret ≠ .errContinue then pure ret
  else do
    tableLoop mapSt lv vm left (virt + iSz virt (lv + 1)) (phys + iSz virt (lv + 1))
      (size - iSz virt (lv + 1))

/-- The second loop of `vmem_map_st` from the second reading of an entry on. -/
def enter (mapSt : TablePtr → (virt phys size : U64) → Program Vmem VmemErrs) (lv : ℕ)
    (vm : TablePtr) (left : ℕ) (virt phys size nLv : U64) : Program Vmem VmemErrs := do
  let ent ← readEntry vm (511 - left)
  if ent &&& largepage ≠ 0 then pure .errAlreadymapped
  else do
    let nLvD ← tableAt nLv
    descend mapSt lv vm left virt phys size nLvD

theorem tableLoop_succ (hsize : size > 0) (lv : ℕ) :
  tableLoop mapSt lv vm (left + 1) virt phys size
    = readEntry vm (511 - left) >>= fun ent =>
      if ent &&& addrMask = 0 then
        addTable vm (511 - left) >>= enter mapSt lv vm left virt phys size
      else enter mapSt lv vm left virt phys size (ent &&& addrMask)
  := by
  rw [tableLoop, if_pos hsize]
  rfl

theorem tableLoop_of_zero (lv : ℕ) :
  tableLoop mapSt lv vm (left + 1) virt phys 0 = pure .errNone
  := by
  rw [tableLoop]
  rfl

section Along

variable {R : Vmem → Vmem → Prop} [Std.Refl R] [IsTrans Vmem R] (hR : Steps R)
  (hmapSt : ∀ vm virt phys size, Along R (mapSt vm virt phys size))

include hR hmapSt

omit hR in
theorem along_descend {lv left : ℕ} {vm : TablePtr}
    (hrest : ∀ virt phys size, Along R (tableLoop mapSt lv vm left virt phys size))
    (virt phys size : U64) (v : TablePtr) :
  Along R (descend mapSt lv vm left virt phys size v)
  := by
  apply (hmapSt _ _ _ _).bind
  intro ret
  apply Along.ite
  · apply Along.pure
  · apply hrest

theorem Steps.enter {lv left : ℕ} {vm : TablePtr}
    (hrest : ∀ virt phys size, Along R (tableLoop mapSt lv vm left virt phys size))
    (virt phys size nLv : U64) :
  Along R (enter mapSt lv vm left virt phys size nLv)
  := by
  apply (hR.readEntry _ _).bind
  intro ent
  apply Along.ite
  · apply Along.pure
  · apply (hR.tableAt _).bind
    intro nLvD
    apply along_descend hmapSt hrest

theorem Steps.tableLoop (lv : ℕ) (vm : TablePtr) (left : ℕ) (virt phys size : U64) :
  Along R (tableLoop mapSt lv vm left virt phys size)
  := by
  induction left generalizing virt phys size with
  | zero =>
      rw [VirtMem.tableLoop]
      apply Along.pure
  | succ left ih =>
      by_cases hsize : size > 0
      · rw [tableLoop_succ hsize]
        apply (hR.readEntry _ _).bind
        intro ent
        apply Along.ite
        · apply (hR.addTable _ _).bind
          intro nLv
          apply hR.enter hmapSt ih
        · apply hR.enter hmapSt ih
      · rw [eq_zero_of_not_pos hsize, tableLoop_of_zero]
        apply Along.pure

end Along

/-- Down to the table that a link leads to. -/
theorem enter_link (hin : InTable vm (511 - left)) (lv : ℕ) {a v : U64}
    (hentry : s.tables vm (511 - left) = linkEntry a) {nLv : U64}
    (hv : reach s.physMapSz nLv = some v) :
  enter mapSt lv vm left virt phys size nLv s = descend mapSt lv vm left virt phys size (.page v) s
  := by
  rw [enter, bind_of_ok (readEntry_eq hin), hentry, linkEntry_largepage, if_neg (by simp),
    bind_of_ok (tableAt_of_reach hv)]

/-- The slot of a table that was added holds a link. -/
theorem Added.link {i : ℕ} {a v : U64} {s₁ : Vmem} (h : Added s r l i a v s₁) (hr : r ∈ roots)
    (ht : s.node r l = some vm) :
  ∃ a', s₁.tables vm i = linkEntry a'
  := by
  have hchild : s₁.node r (l ++ [i]) = some (.page v) := (h.node hr).mpr (.inr ⟨rfl, rfl, rfl⟩)
  have hnode := h.grown.node hr ht
  rw [Vmem.node, node_concat hnode] at hchild
  obtain ⟨a', -, -, hentry, -⟩ := (h.wf.entry hr hnode i).link_eq_some hchild
  exact ⟨a', hentry⟩

/-- What stands in the slot when `vmem_map_st` goes down from it to the table at `v`, and what it
has made of it: a table that was there, or one that was added, where there was no entry or a
large page with address zero. -/
inductive Entered (s : Vmem) (r : TablePtr) (l : List ℕ) (i : ℕ) (v : U64) : Vmem → Prop where
  | there : s.node r (l ++ [i]) = some (.page v) → Entered s r l i v s
  | added {a : U64} {s₁ : Vmem} : Added s r l i a v s₁ →
      PageMap.Free (s.look r) (l ++ [i]) → Entered s r l i v s₁
  | replaced {a e : U64} {s₁ : Vmem} : Added s r l i a v s₁ → s.node r (l ++ [i]) = none →
      e &&& addrMask = 0 → (∀ p, l ++ [i] <+: p → s.look r p = some (l.length, e)) →
      Entered s r l i v s₁

/-- Down to a table that `addTable` adds. -/
theorem addTable_enter (hwf : WfCore s) (hr : r ∈ roots) (ht : s.node r l = some vm)
    (hlv : l.length < 3) (hmapSt : ∀ vm virt phys size, Along Steady (mapSt vm virt phys size))
    (hin : InTable vm (511 - left))
    (hold : link s.hugepage s.physMapSz l.length (s.tables vm (511 - left)) = none)
    (hfresh : FreshPages (finalState
      ((addTable vm (511 - left) >>= enter mapSt l.length vm left virt phys size) s)).hist) :
  (∃ e s', (addTable vm (511 - left) >>= enter mapSt l.length vm left virt phys size) s
      = .error e s' ∧ Stranded s')
    ∨ ∃ a v s₁, Added s r l (511 - left) a v s₁
      ∧ (addTable vm (511 - left) >>= enter mapSt l.length vm left virt phys size) s
        = descend mapSt l.length vm left virt phys size (.page v) s₁
  := by
  have hadd := addTable_cases hwf hr ht hlv hin hold
    (hfresh.of_bind (steps_steady.enter hmapSt (steps_steady.tableLoop hmapSt _ _ _) _ _ _))
  rcases hadd with ⟨a, v, s₁, hrun, hadd⟩ | ⟨e, s', hrun, hstranded⟩
  · obtain ⟨a', hentry⟩ := hadd.link hr ht
    right
    refine ⟨a, v, s₁, hadd, ?_⟩
    rw [bind_of_ok hrun, enter_link hin l.length hentry hadd.reach]
  · left
    exact ⟨e, s', bind_of_error hrun _, hstranded⟩

/-- One turn of the second loop of `vmem_map_st`, up to the recursive call. -/
theorem tableLoop_cases (hwf : WfCore s) (hr : r ∈ roots) (ht : s.node r l = some vm)
    (hlv : l.length < 3) (hmapSt : ∀ vm virt phys size, Along Steady (mapSt vm virt phys size))
    (hin : InTable vm (511 - left)) (hsize : size > 0)
    (hfresh : FreshPages
      (finalState (tableLoop mapSt l.length vm (left + 1) virt phys size s)).hist) :
  (∃ e s', tableLoop mapSt l.length vm (left + 1) virt phys size s = .error e s' ∧ Stranded s')
    ∨ (∃ e, tableLoop mapSt l.length vm (left + 1) virt phys size s = .ok .errAlreadymapped s
      ∧ e &&& addrMask ≠ 0
      ∧ ∀ p, l ++ [511 - left] <+: p → s.look r p = some (l.length, e))
    ∨ ∃ v s₁, Entered s r l (511 - left) v s₁
      ∧ tableLoop mapSt l.length vm (left + 1) virt phys size s
        = descend mapSt l.length vm left virt phys size (.page v) s₁
  := by
  rw [tableLoop_succ hsize, bind_of_ok (readEntry_eq hin)] at hfresh ⊢
  have hentry := hwf.entry hr ht (511 - left)
  generalize he : s.tables vm (511 - left) = e at hentry hfresh ⊢
  cases hentry with
  | empty =>
      have hold : link s.hugepage s.physMapSz l.length (s.tables vm (511 - left)) = none := by
        rw [he, link_zero]
      have haddr : (0 : U64) &&& addrMask = 0 := BitVec.zero_and
      rw [if_pos haddr] at hfresh ⊢
      rcases addTable_enter hwf hr ht hlv hmapSt hin hold hfresh with hstop | ⟨a, v, s₁, hadd, hrun⟩
      · exact .inl hstop
      · exact .inr (.inr ⟨v, s₁, .added hadd (free_of_empty ht he), hrun⟩)
  | @table a _ ha hreach =>
      obtain ⟨v, hv⟩ := hreach
      have hnode := node_concat ht (511 - left)
      rw [he, link_linkEntry _ _ hlv ha.2, hv] at hnode
      rw [linkEntry_addr ha.2, if_neg ha.2.ne_zero]
      exact .inr (.inr ⟨v, s, .there hnode, enter_link hin _ he hv⟩)
  | @leaf phys perms havail =>
      have hleaf : isLeaf s.hugepage l.length (leafEntry phys perms l.length) = true :=
        isLeaf_leafEntry havail
      have hfound : ∀ p, l ++ [511 - left] <+: p →
          s.look r p = some (l.length, leafEntry phys perms l.length) := by
        rintro p ⟨q, rfl⟩
        have := look_of_leaf (exclusive_link s.hugepage s.physMapSz) ht (by rw [he]; exact hleaf) q
        rwa [he] at this
      by_cases haddr : leafEntry phys perms l.length &&& addrMask = 0
      · have hold : link s.hugepage s.physMapSz l.length (s.tables vm (511 - left)) = none := by
          rw [he, exclusive_link _ _ _ _ hleaf]
        have hnode := node_concat ht (511 - left)
        rw [hold] at hnode
        rw [if_pos haddr] at hfresh ⊢
        rcases addTable_enter hwf hr ht hlv hmapSt hin hold hfresh with
          hstop | ⟨a, v, s₁, hadd, hrun⟩
        · exact .inl hstop
        · exact .inr (.inr ⟨v, s₁, .replaced hadd hnode haddr hfound, hrun⟩)
      · right; left
        refine ⟨_, ?_, haddr, hfound⟩
        have hlarge : leafEntry phys perms l.length &&& largepage ≠ 0 :=
          leafEntry_largepage.mpr (levels_ne hlv)
        rw [if_neg haddr, enter, bind_of_ok (readEntry_eq hin), he, if_pos hlarge, pure_apply]

end Turn

section Entered

variable {i : ℕ} {v : U64} {s₁ : Vmem}

theorem Entered.wf (h : Entered s r l i v s₁) (hwf : WfCore s) :
  WfCore s₁
  := by
  cases h with
  | there => exact hwf
  | added hadd => exact hadd.wf
  | replaced hadd => exact hadd.wf

theorem Entered.grown (h : Entered s r l i v s₁) :
  Grown s s₁
  := by
  cases h with
  | there => exact Std.Refl.refl s
  | added hadd => exact hadd.grown
  | replaced hadd => exact hadd.grown

theorem Entered.node (h : Entered s r l i v s₁) (hr : r ∈ roots) :
  s₁.node r (l ++ [i]) = some (.page v)
  := by
  cases h with
  | there hnode => exact hnode
  | added hadd => exact (hadd.node hr).mpr (.inr ⟨rfl, rfl, rfl⟩)
  | replaced hadd => exact (hadd.node hr).mpr (.inr ⟨rfl, rfl, rfl⟩)

theorem Added.other {a : U64} (h : Added s r l i a v s₁) {r' : TablePtr} (hr' : r' ∈ roots)
    (hne : r' ≠ r) :
  s₁.look r' = s.look r'
  := by
  funext p
  rw [h.look hr', if_neg fun hin => hne hin.1]

theorem Entered.other (h : Entered s r l i v s₁) {r' : TablePtr} (hr' : r' ∈ roots)
    (hne : r' ≠ r) :
  s₁.look r' = s.look r'
  := by
  cases h with
  | there => rfl
  | added hadd => exact hadd.other hr' hne
  | replaced hadd => exact hadd.other hr' hne

/-- A table that is added takes nothing away from the tables that are there. -/
theorem Added.filled {a : U64} (h : Added s r l i a v s₁) (hfilled : FilledBut s r l)
    (hkeep : ∀ l' t, s.node r l' = some t → l' ≠ [] → ¬ l' <+: l → ∀ p, s.look r (l' ++ p) ≠ none →
      ¬ l ++ [i] <+: l' ++ p) :
  FilledBut s₁ r (l ++ [i])
  := by
  intro r' hr' l' t ht hne hoff
  rcases (h.node hr').mp ht with ht | ⟨rfl, rfl, -⟩
  · have hoff' : r' = r → ¬ l' <+: l := fun hrr hl => hoff hrr (hl.trans (List.prefix_append _ _))
    obtain ⟨p, hp⟩ := hfilled r' hr' l' t ht hne hoff'
    refine ⟨p, ?_⟩
    rw [h.look hr']
    split
    next hin =>
      obtain ⟨rfl, hpre⟩ := hin
      exact absurd hpre (hkeep l' t ht hne (hoff' rfl) p hp)
    next => exact hp
  · exact absurd (List.prefix_refl _) (hoff rfl)

theorem Entered.filled (h : Entered s r l i v s₁) (hfilled : FilledBut s r l) :
  FilledBut s₁ r (l ++ [i])
  := by
  cases h with
  | there => exact hfilled.mono (List.prefix_append _ _)
  | added hadd hfree =>
      apply hadd.filled hfilled
      intro l' t ht hne hoff p hp hpre
      exact hp (hfree _ hpre)
  | replaced hadd hnode _ hfound =>
      apply hadd.filled hfilled
      intro l' t ht hne hoff p hp hpre
      -- a table at the slot or below it would be below a leaf
      have hl' : l ++ [i] <+: l' := by
        rcases List.prefix_or_prefix_of_prefix hpre (List.prefix_append l' p) with hl' | hl'
        · exact hl'
        · rcases List.prefix_concat_iff.mp hl' with rfl | hl'
          · exact List.prefix_refl _
          · exact absurd hl' hoff
      obtain ⟨q, rfl⟩ := hl'
      rw [Vmem.node] at hnode
      rw [Vmem.node, node_append, hnode] at ht
      cases ht

/-- What is installed below the slot afterwards is installed below it from the start. -/
theorem Entered.install (h : Entered s r l i v s₁) (hr : r ∈ roots) {ds : List Page}
    {M' : PageMap} {ok : Bool} (hne : ds ≠ []) (hbelow : Below (l ++ [i]) ds)
    (hinstall : Install perms (s₁.look r) ds M' ok) :
  Install perms (s.look r) ds M' ok
  := by
  cases h with
  | there => exact hinstall
  | added hadd hfree =>
      have hsame : s₁.look r = s.look r := by
        funext p
        rw [hadd.look hr]
        split
        next hin => exact (hfree p hin.2).symm
        next => rfl
      rwa [hsame] at hinstall
  | @replaced a e s₁ hadd hnode haddr hfound =>
      obtain ⟨d, ds, rfl⟩ := List.exists_cons_of_ne_nil hne
      obtain ⟨j, -, hpre⟩ := hbelow d (List.mem_cons_self ..)
      have hslot : l ++ [i] <+: d.path := (List.prefix_append _ _).trans hpre
      have htake : d.path.take (l.length + 1) = l ++ [i] := by
        rw [List.prefix_iff_eq_take.mp hslot, List.length_append, List.length_singleton]
      have hsame : s₁.look r = PageMap.clear (s.look r) (d.path.take (l.length + 1)) := by
        funext p
        rw [hadd.look hr, htake, PageMap.clear]
        simp only [true_and]
      rw [hsame] at hinstall
      apply Install.of_clear _ hinstall
      refine ⟨e, hfound _ hslot, ?_, haddr⟩
      have := hpre.length_le
      simp only [List.length_append, List.length_singleton] at this
      omega

end Entered

/-! ### The recursion -/

section Loop

variable {sub : List ℕ → (virt phys size : U64) → List Page × Bool}
  {mapSt : TablePtr → (virt phys size : U64) → Program Vmem VmemErrs} {hugepage : Bool}

/-- The plan `sub` tells what `mapSt` does to the tables at a level. -/
structure Follows (perms : BitVec 32) (hugepage : Bool)
    (sub : List ℕ → (virt phys size : U64) → List Page × Bool)
    (mapSt : TablePtr → (virt phys size : U64) → Program Vmem VmemErrs) (lv : ℕ) : Prop where
  steady : ∀ vm virt phys size, Along Steady (mapSt vm virt phys size)
  below : ∀ l virt phys size, Below l (sub l virt phys size).1
  ne_nil : ∀ l virt phys {size : U64}, size > 0 → 4096 ∣ size.toNat →
    (sub l virt phys size).1 ≠ []
  mapsTo : ∀ {s : Vmem} {r vm : TablePtr} {l : List ℕ}, l.length = lv → WfCore s →
    s.hugepage = hugepage → FilledBut s r l → r ∈ roots → s.node r l = some vm →
    ∀ virt phys {size : U64}, 4096 ∣ size.toNat →
      FreshPages (finalState (mapSt vm virt phys size s)).hist →
      MapsTo perms s r l (sub l virt phys size) (mapSt vm virt phys size s)

theorem page_dvd_sub {x y : U64} (hx : 4096 ∣ x.toNat) (hy : 4096 ∣ y.toNat) :
  4096 ∣ (x - y).toNat
  := by
  rw [BitVec.toNat_sub]
  omega

/-- A large page with an address above the pages of a plan is in the way. -/
theorem Mapped.taken (hwf : WfCore s) (hfilled : FilledBut s r l) {plan : List Page × Bool} {i : ℕ}
    (hne : plan.1 ≠ []) (hbelow : Below (l ++ [i]) plan.1) {e : U64} (haddr : e &&& addrMask ≠ 0)
    (hfound : ∀ p, l ++ [i] <+: p → s.look r p = some (l.length, e)) :
  Mapped perms s r l plan .errAlreadymapped s
  := by
  obtain ⟨ds, goOn⟩ := plan
  obtain ⟨d, ds, rfl⟩ := List.exists_cons_of_ne_nil hne
  obtain ⟨j, -, hpre⟩ := hbelow d (List.mem_cons_self ..)
  have hd := hfound d.path ((List.prefix_append _ _).trans hpre)
  refine ⟨hwf, Std.Refl.refl s, hfilled, fun _ _ _ => rfl, false, .taken ?_ ?_, rfl⟩
  · intro hfree
    rw [hfree _ (List.prefix_refl _)] at hd
    cases hd
  · rintro k ⟨e', he', -, haddr'⟩
    rw [hd] at he'
    cases he'
    exact haddr haddr'

/-- A page in the way ends the larger plans as well. -/
theorem Mapped.stop {first plan : List Page × Bool} {s' : Vmem}
    (h : Mapped perms s r l first .errAlreadymapped s') (hpre : first.1 <+: plan.1) :
  Mapped perms s r l plan .errAlreadymapped s'
  := by
  obtain ⟨rest, hrest⟩ := hpre
  obtain ⟨ok, hinstall, hok⟩ := h.install
  obtain rfl : ok = false := eq_false_of_verdict hok
  refine ⟨h.wf, h.grown, h.filled, h.other, false, ?_, rfl⟩
  rw [← hrest]
  exact hinstall.append_stop rest

/-- What a recursive call has done, it has done from the start. -/
theorem Entered.mapped {i : ℕ} {v : U64} {s₁ : Vmem} (h : Entered s r l i v s₁) (hr : r ∈ roots)
    {first : List Page × Bool} (hne : first.1 ≠ []) (hbelow : Below (l ++ [i]) first.1)
    {ret : VmemErrs} {s' : Vmem} (hmapped : Mapped perms s₁ r (l ++ [i]) first ret s') :
  Mapped perms s r l first ret s'
  := by
  obtain ⟨ok, hinstall, hret⟩ := hmapped.install
  refine ⟨hmapped.wf, IsTrans.trans _ _ _ h.grown hmapped.grown, ?_, ?_, ok,
    h.install hr hne hbelow hinstall, hret⟩
  · apply hmapped.filled.close
    obtain ⟨d, hd, p, hp, hfound⟩ := hinstall.found hne
    obtain ⟨j, -, hj⟩ := hbelow d hd
    obtain ⟨q, rfl⟩ := (List.prefix_append _ _).trans (hj.trans hp)
    exact ⟨q, hfound⟩
  · intro r' hr' hne'
    rw [hmapped.other r' hr' hne', h.other hr' hne']

/-- The pages before one that is outside, likewise. -/
theorem Entered.before {i : ℕ} {v : U64} {s₁ : Vmem} (h : Entered s r l i v s₁) (hr : r ∈ roots)
    {ds plan : List Page} {d : Page} (hbelow : Below (l ++ [i]) plan) (hpre : ds ++ [d] <+: plan)
    {M : PageMap} (hinstall : Install perms (s₁.look r) ds M true) :
  ∃ M, Install perms (s.look r) ds M true
  := by
  cases ds with
  | nil => exact ⟨_, .nil⟩
  | cons d' ds =>
      refine ⟨M, h.install hr (List.cons_ne_nil _ _) ?_ hinstall⟩
      intro x hx
      exact hbelow x (hpre.subset (List.mem_append_left _ hx))

/-- The second loop of `vmem_map_st` installs its pages. -/
theorem mapsTo_tableLoop (hfollows : Follows perms hugepage sub mapSt (l.length + 1))
    (hwf : WfCore s) (hhuge : s.hugepage = hugepage) (hfilled : FilledBut s r l) (hr : r ∈ roots)
    (ht : s.node r l = some vm) (hlv : l.length < 3) (left : ℕ) (hpage : 4096 ∣ size.toNat)
    (hfresh : FreshPages (finalState (tableLoop mapSt l.length vm left virt phys size s)).hist) :
  MapsTo perms s r l (tablePlan sub l.length l left virt phys size)
    (tableLoop mapSt l.length vm left virt phys size s)
  := by
  induction left generalizing s virt phys size with
  | zero => exact .mapped (Mapped.refl hwf hfilled true)
  | succ left ih =>
      by_cases hsize : size > 0
      · have hhead : (sub (l ++ [511 - left]) virt phys size).1
            <+: (tablePlan sub l.length l (left + 1) virt phys size).1 := tablePlan_head hsize
        have hne := hfollows.ne_nil (l ++ [511 - left]) virt phys hsize hpage
        have hbelow := hfollows.below (l ++ [511 - left]) virt phys size
        by_cases hin : InTable vm (511 - left)
        · rcases tableLoop_cases hwf hr ht hlv hfollows.steady hin hsize hfresh with
            ⟨e, s', hrun, hstranded⟩ | ⟨e, hrun, haddr, hfound⟩ | ⟨v, s₁, hentered, hrun⟩
          · rw [hrun]
            exact .stranded hstranded
          · rw [hrun]
            exact .mapped ((Mapped.taken hwf hfilled hne hbelow haddr hfound).stop hhead)
          · rw [hrun, descend] at hfresh
            have hchild := hfollows.mapsTo (by simp) (hentered.wf hwf)
              (hentered.grown.steady.hugepage.trans hhuge) (hentered.filled hfilled) hr
              (hentered.node hr) virt phys hpage (hfresh.of_bind fun ret => by
                apply Along.ite
                · apply Along.pure
                · apply steps_steady.tableLoop hfollows.steady)
            rw [hrun, descend]
            generalize hres : mapSt (.page v) virt phys size s₁ = res at hchild
            cases hchild with
            | @mapped ret s₂ hmapped =>
                have hmapped' := hentered.mapped hr hne hbelow hmapped
                obtain ⟨ok, hinstall, hret⟩ := hmapped'.install
                rw [bind_of_ok hres] at hfresh ⊢
                by_cases hgo : ret = .errContinue
                · subst hgo
                  obtain ⟨rfl, hgoOn⟩ := eq_true_of_verdict hret
                  rw [if_neg (not_not_intro rfl)] at hfresh ⊢
                  rw [tablePlan_go hsize hgoOn]
                  apply MapsTo.after hmapped'.grown hmapped'.other hinstall
                  exact ih hmapped'.wf (hmapped'.grown.steady.hugepage.trans hhuge)
                    hmapped'.filled (hmapped'.grown.node hr ht)
                    (page_dvd_sub hpage (page_dvd_iSz _ (by omega))) hfresh
                · rw [if_pos hgo, pure_apply]
                  apply MapsTo.mapped
                  cases hgoOn : (sub (l ++ [511 - left]) virt phys size).2 with
                  | false =>
                      rw [tablePlan_stop hsize hgoOn]
                      exact hmapped'
                  | true =>
                      obtain rfl : ok = false := by
                        cases ok with
                        | false => rfl
                        | true =>
                            rw [hgoOn] at hret
                            exact absurd hret hgo
                      subst hret
                      exact hmapped'.stop hhead
            | stranded hstranded =>
                rw [bind_of_error hres]
                exact .stranded hstranded
            | outside hpre hbefore hout =>
                rw [bind_of_error hres]
                obtain ⟨M, hbefore'⟩ := hentered.before hr hbelow hpre hbefore
                exact .outside (hpre.trans hhead) hbefore' hout
        · obtain ⟨d, ds, hd⟩ := List.exists_cons_of_ne_nil hne
          obtain rfl : l = [] := by
            by_contra hl
            exact hin (hwf.inTable hr hl ht (by omega))
          obtain rfl := Option.some.inj ht
          have hmem : d ∈ (sub [511 - left] virt phys size).1 := by
            rw [List.nil_append] at hd
            rw [hd]
            exact List.mem_cons_self ..
          obtain ⟨j, -, hpre⟩ := hbelow d hmem
          rw [tableLoop_succ hsize, bind_of_error (readEntry_fault hin)]
          refine .outside (d := d) ?_ .nil
            ⟨d, List.mem_singleton_self d, 511 - left, (List.prefix_append _ _).trans hpre, hin⟩
          rw [hd] at hhead
          exact (List.prefix_append [d] ds).trans hhead
      · rw [eq_zero_of_not_pos hsize, tableLoop_of_zero, tablePlan_of_zero]
        exact .mapped (Mapped.refl hwf hfilled false)

end Loop

theorem Steps.vmemMapSt {R : Vmem → Vmem → Prop} [Std.Refl R] [IsTrans Vmem R] (hR : Steps R)
    (perms : BitVec 32) (n : ℕ) (vm : TablePtr) (virt phys size : U64) :
  Along R (vmemMapSt perms n vm virt phys size)
  := by
  induction n generalizing vm virt phys size with
  | zero => apply Along.throw
  | succ n ih =>
      rw [VirtMem.vmemMapSt]
      apply (Along.get (R := R)).bind
      intro s
      apply Along.ite
      · apply hR.leafLoop
      · apply hR.tableLoop ih

theorem along_vmemMapSt (perms : BitVec 32) (n : ℕ) (vm : TablePtr) (virt phys size : U64) :
  Along Steady (vmemMapSt perms n vm virt phys size)
  := steps_steady.vmemMapSt perms n vm virt phys size

theorem vmemMapSt_succ (perms : BitVec 32) (n : ℕ) (vm : TablePtr) (virt phys size : U64)
    (s : Vmem) :
  vmemMapSt perms (n + 1) vm virt phys size s
    = if size % levels (3 - n) = 0 ∧ largepageAvail s.hugepage (3 - n) = true then
        leafLoop (3 - n) vm perms (512 - index virt (3 - n)) phys size s
      else tableLoop (vmemMapSt perms n) (3 - n) vm (512 - index virt (3 - n)) virt phys size s
  := by
  rw [vmemMapSt, bind_of_ok (get_apply s)]
  split
  · rfl
  · rfl

/-- The plan of a request tells what `vmem_map_st` does at every level. -/
theorem follows_mapPlan (perms : BitVec 32) (hugepage : Bool) {n : ℕ} (hn : n ≤ 3) :
  Follows perms hugepage (mapPlan hugepage (n + 1)) (vmemMapSt perms (n + 1)) (3 - n)
  := by
  induction n with
  | zero =>
      refine ⟨along_vmemMapSt perms 1, below_mapPlan hugepage 1,
        fun l virt phys => mapPlan_ne_nil hugepage hn l, ?_⟩
      intro s r vm l hl hwf hhuge hfilled hr ht virt phys size hpage hfresh
      have hleaf : size % levels (3 - 0) = 0 ∧ largepageAvail hugepage (3 - 0) = true :=
        ⟨(mod_levels _ _).mpr hpage, rfl⟩
      rw [vmemMapSt_succ, mapPlan, hhuge, if_pos hleaf, if_pos hleaf, ← hl]
      apply mapsTo_leafLoop hwf hfilled hr ht _ (by rw [hl]; rfl)
      exact fun i hi => hwf.inTable hr (by rintro rfl; cases hl) ht hi
  | succ n ih =>
      refine ⟨along_vmemMapSt perms (n + 2), below_mapPlan hugepage (n + 2),
        fun l virt phys => mapPlan_ne_nil hugepage hn l, ?_⟩
      intro s r vm l hl hwf hhuge hfilled hr ht virt phys size hpage hfresh
      rw [vmemMapSt_succ, hhuge] at hfresh ⊢
      rw [mapPlan]
      by_cases hleaf : size % levels (3 - (n + 1)) = 0
          ∧ largepageAvail hugepage (3 - (n + 1)) = true
      · have hl' : l ≠ [] := by
          rintro rfl
          rw [← hl] at hleaf
          cases hleaf.2
        rw [if_pos hleaf, if_pos hleaf, ← hl]
        apply mapsTo_leafLoop hwf hfilled hr ht _ (by rw [hl, hhuge]; exact hleaf.2)
        exact fun i hi => hwf.inTable hr hl' ht hi
      · have hsub := ih (by omega)
        rw [show 3 - n = l.length + 1 by omega] at hsub
        rw [if_neg hleaf] at hfresh ⊢
        rw [if_neg hleaf, ← hl]
        rw [← hl] at hfresh
        exact mapsTo_tableLoop hsub hwf hhuge hfilled hr ht (by omega) _ hpage hfresh

end VirtMem
