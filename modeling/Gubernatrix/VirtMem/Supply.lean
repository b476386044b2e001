import Gubernatrix.VirtMem.Switch
import Gubernatrix.PhysMem.Conservation

/-!
# Page tables out of the page allocator

The results about the page tables suppose that the allocator hands out fresh pages, and those
about the allocator that nobody is given a page twice. Here both are one system: `vmem_init` and
the calls after it get their tables from `pmem_allocpage`. As long as the calls ask for no more
pages than were free at first, none of them is refused, every table has a page of its own, and the
free queue describes just the pages that are left.
-/

namespace PhysMem

open Program

/-- `pmem_allocpage` takes the first page of the first entry, without a compaction. -/
theorem pmemAllocpage_of_free {w : World} (h : Conserved w) (hfree : w.free.Nonempty) :
  ∃ a s', pmemAllocpage w.pmem = .ok a s' ∧ a.toNat % 4096 = 0 ∧ s'.hist = w.pmem.hist
  := by
  obtain ⟨p, hp⟩ := hfree
  have hclean := h.clean
  have hlive : w.pmem.btmLevel.liveCnt ≠ 0 := by
    intro hzero
    rw [← Queue.length_live, List.length_eq_zero_iff] at hzero
    have hmem : p ∈ pages w.pmem.btmLevel := by
      rw [h.pages_eq]
      exact hp
    rw [pages, hzero] at hmem
    exact Multiset.notMem_zero p hmem
  have hcnt : (queueEntcnt w.pmem.btmLevel).toNat = w.pmem.btmLevel.liveCnt - 1 + 1 := by
    rw [queueEntcnt, hclean.entCnt_eq]
    omega
  have hpages : toInt32 (align (kib 4) btmLevel / btmLevel).toNat = 1 := by decide
  have hsome : queueTrydequeue w.pmem.btmLevel ≠ none := by
    rw [Ne, Queue.trydequeue_eq_none hclean.toInRange]
    exact hlive
  obtain ⟨⟨deq, q⟩, hdeq⟩ := Option.ne_none_iff_exists'.mp hsome
  obtain ⟨hrange, hsize, -, hlast, -⟩ := Queue.trydequeue_spec hclean.toInRange hdeq
  have hput : ∀ val s, s.btmLevel = q →
      ∃ s', insertQueueFront val s = .ok ⟨⟩ s' ∧ s'.hist = s.hist := by
    intro val s hs
    have hroom : queueTryenqueueFront s.btmLevel val ≠ none := by
      rw [hs, Ne, Queue.tryenqueueFront_eq_none hrange]
      have := hclean.liveCnt_lt
      omega
    obtain ⟨q', hq'⟩ := Option.ne_none_iff_exists'.mp hroom
    refine ⟨{ s with btmLevel := q' }, ?_, rfl⟩
    rw [insertQueueFront, insertWith, bind_of_ok (get_apply s), hq']
    rfl
  have hentry : ∃ s', allocEntry deq 1 (align (kib 4) btmLevel) { w.pmem with btmLevel := q }
      = .ok (some (getAddr deq)) s' ∧ s'.hist = w.pmem.hist := by
    rw [allocEntry]
    split
    · obtain ⟨s₁, hs₁, hhist⟩ := hput (buildEntry (getAddr deq + BitVec.ofInt 64 1 * btmLevel)
        (BitVec.ofInt 64 (toInt32 (getPgCnt deq - BitVec.ofInt 64 1).toNat)))
        { w.pmem with btmLevel := q } rfl
      exact ⟨_, bind_of_ok hs₁ _, hhist⟩
    · exact ⟨_, rfl, rfl⟩
  obtain ⟨s', hrun, hhist⟩ := hentry
  refine ⟨getAddr deq, s', ?_, getAddr_mod deq, hhist⟩
  have hscan : allocScan 0 1 (align (kib 4) btmLevel) (w.pmem.btmLevel.liveCnt - 1 + 1) w.pmem
      = .ok (some (getAddr deq)) s' := by
    have hflags : ¬ ((0 : BitVec 32) &&& flags32bit ≠ 0
        ∧ getAddr deq &&& ~~~0xffffffff#64 ≠ 0) := by
      intro hflags
      exact hflags.1 (by decide)
    have henough : toInt32 (getPgCnt deq).toNat ≥ 1 := by
      have := getPgCnt_pos deq
      rw [toInt32_pgCnt]
      omega
    rw [allocScan, bind_of_ok (get_apply w.pmem), hdeq]
    dsimp only
    rw [bind_of_ok (set_apply _ _), if_neg hflags, if_pos henough]
    exact hrun
  rw [pmemAllocpage, pageallocAlloc, hpages, allocLoop, bind_of_ok (get_apply w.pmem), hcnt,
    bind_of_ok hscan]
  rfl

end PhysMem

namespace VirtMem

open Program Radix PhysMem

/-- The numbers of the pages that were handed out. -/
def handedPages (hist : List Effect) : List ℕ :=
  (allocs hist).filterMap fun r => r.map fun a => a.toNat / 4096

/-- The allocator has the pages `F` but for those that it has handed out, each of them once. -/
structure Stocked (F : Finset ℕ) (s : Vmem) : Prop where
  conserved : Conserved ⟨s.pmem, F \ (handedPages s.hist).toFinset⟩
  atHead : AllAtHead s.pmem.hist
  subset : ∀ p ∈ handedPages s.hist, p ∈ F
  nodup : (handedPages s.hist).Nodup
  isPage : ∀ {r}, r ∈ allocs s.hist → ∃ a, r = some a ∧ IsPage a

section Stocked

variable {F : Finset ℕ} {s s' : Vmem}

theorem Stocked.handedPages_eq (h : Stocked F s) :
  handedPages s.hist = (allocs s.hist).map fun r => r.elim 0 fun a => a.toNat / 4096
  := by
  rw [handedPages, ← List.filterMap_eq_map]
  apply List.filterMap_congr
  intro r hr
  obtain ⟨a, rfl, -⟩ := h.isPage hr
  rfl

theorem Stocked.length_handedPages (h : Stocked F s) :
  (handedPages s.hist).length = (allocs s.hist).length
  := by
  rw [h.handedPages_eq, List.length_map]

/-- What the allocator has handed out is fresh. -/
theorem Stocked.fresh (h : Stocked F s) :
  FreshPages s.hist
  where
  nodup := by
    have hnodup := h.nodup
    rw [h.handedPages_eq] at hnodup
    exact hnodup.of_map
  isPage hr := h.isPage hr

/-- As long as fewer pages were asked for than there were, some are free. -/
theorem Stocked.exists_free (h : Stocked F s) (hlt : (allocs s.hist).length < F.card) :
  (F \ (handedPages s.hist).toFinset).Nonempty
  := by
  rw [← Finset.card_pos]
  have hsub : (handedPages s.hist).toFinset ⊆ F := by
    intro p hp
    exact h.subset p (List.mem_toFinset.mp hp)
  rw [Finset.card_sdiff_of_subset hsub, List.toFinset_card_of_nodup h.nodup,
    h.length_handedPages]
  omega

/-- A request for a page is served out of the free ones. -/
theorem Stocked.allocpage (hF : ∀ p ∈ F, 0 < p ∧ p < 2 ^ 40) (h : Stocked F s)
    (hlt : (allocs s.hist).length < F.card) :
  ∃ a s', VirtMem.allocpage s = .ok a s' ∧ Stocked F s'
  := by
  obtain ⟨a, pmem, hrun, haligned, hhist⟩ :=
    pmemAllocpage_of_free h.conserved (h.exists_free hlt)
  have hall : AllAtHead pmem.hist := by
    rw [hhist]
    exact h.atHead
  have htakes := pageallocAlloc_ok (by decide) h.conserved.clean h.conserved.pagesBelow hrun hall
  rw [allocated_of_aligned haligned] at htakes
  obtain ⟨hsub, hconserved⟩ := conserved_takes h.conserved rfl htakes
  have hpages : takenPages 1 (some a) = [a.toNat / 4096] := rfl
  change ∀ p ∈ takenPages 1 (some a), p ∈ F \ (handedPages s.hist).toFinset at hsub
  change Conserved ⟨pmem, (F \ (handedPages s.hist).toFinset)
    \ (takenPages 1 (some a)).toFinset⟩ at hconserved
  rw [hpages] at hsub hconserved
  have hmem := hsub _ (List.mem_singleton_self _)
  rw [Finset.mem_sdiff, List.mem_toFinset] at hmem
  obtain ⟨hin, hnot⟩ := hmem
  obtain ⟨hpos, hltF⟩ := hF _ hin
  have hpage : IsPage a := ⟨haligned, by omega, by omega⟩
  have hhanded : handedPages (s.grant pmem (some a)).hist
      = a.toNat / 4096 :: handedPages s.hist := rfl
  refine ⟨a, s.grant pmem (some a), ?_, ?_, hall, ?_, ?_, ?_⟩
  · rw [VirtMem.allocpage, hrun]
    rfl
  · have hset : F \ insert (a.toNat / 4096) (handedPages s.hist).toFinset
        = (F \ (handedPages s.hist).toFinset) \ [a.toNat / 4096].toFinset := by
      ext p
      simp only [Finset.mem_sdiff, Finset.mem_insert, List.mem_toFinset, List.mem_singleton]
      tauto
    rw [hhanded, List.toFinset_cons, hset]
    exact hconserved
  · rw [hhanded]
    intro p hp
    rcases List.mem_cons.mp hp with rfl | hp
    · exact hin
    · exact h.subset p hp
  · rw [hhanded]
    exact List.nodup_cons.mpr ⟨hnot, h.nodup⟩
  · intro r hr
    change r ∈ some a :: allocs s.hist at hr
    rcases List.mem_cons.mp hr with rfl | hr
    · exact ⟨a, rfl, hpage⟩
    · exact h.isPage hr

end Stocked

/-! ### Along the calls -/

/-- The pages are accounted for after it as before, unless more were asked for than there were. -/
def Supplies (F : Finset ℕ) (s s' : Vmem) : Prop :=
  s.hist <:+ s'.hist ∧ (Stocked F s → (allocs s'.hist).length ≤ F.card → Stocked F s')

section Supplies

variable {F : Finset ℕ}

instance : Std.Refl (Supplies F) where
  refl _ := ⟨List.suffix_refl _, fun h _ => h⟩

instance : IsTrans Vmem (Supplies F) where
  trans _ _ _ h h' := ⟨h.1.trans h'.1, fun hs hle =>
    h'.2 (h.2 hs ((allocs_suffix h'.1).length_le.trans hle)) hle⟩

/-- A step that has nothing to do with the allocator. -/
theorem supplies_of_same {s s' : Vmem} (hpmem : s'.pmem = s.pmem) (hist : s.hist <:+ s'.hist)
    (hallocs : allocs s'.hist = allocs s.hist) :
  Supplies F s s'
  := by
  refine ⟨hist, fun h _ => ?_⟩
  have hhanded : handedPages s'.hist = handedPages s.hist := by
    rw [handedPages, handedPages, hallocs]
  refine ⟨?_, ?_, ?_, ?_, ?_⟩
  · rw [hhanded, hpmem]
    exact h.conserved
  · rw [hpmem]
    exact h.atHead
  · rw [hhanded]
    exact h.subset
  · rw [hhanded]
    exact h.nodup
  · intro r hr
    rw [hallocs] at hr
    exact h.isPage hr

variable (hF : ∀ p ∈ F, 0 < p ∧ p < 2 ^ 40)

include hF in
theorem supplies_allocpage :
  Along (Supplies F) allocpage
  := by
  intro s
  refine ⟨(along_allocpage s).hist, fun h hle => ?_⟩
  have hlen : (allocs (finalState (allocpage s)).hist).length = (allocs s.hist).length + 1 := by
    rcases allocpage_cases s with ⟨a, pmem, hrun⟩ | ⟨e, pmem, hrun⟩
    · rw [hrun]
      rfl
    · rw [hrun]
      rfl
  obtain ⟨a, s', hrun, hstocked⟩ := h.allocpage hF (by omega)
  rw [hrun]
  exact hstocked

theorem supplies_tableAt (a : U64) :
  Along (Supplies F) (tableAt a)
  := by
  intro s
  cases h : reach s.physMapSz a with
  | none =>
      rw [tableAt_of_none h]
      exact Std.Refl.refl s
  | some v =>
      rw [tableAt_of_reach h]
      exact Std.Refl.refl s

theorem supplies_writeEntry (vm : TablePtr) (idx : ℕ) (ent : U64) :
  Along (Supplies F) (writeEntry vm idx ent)
  := by
  intro s
  by_cases h : InTable vm idx
  · rw [writeEntry_eq h]
    exact supplies_of_same rfl (List.suffix_cons _ _) rfl
  · rw [writeEntry, if_neg h]
    exact Std.Refl.refl s

theorem supplies_memsetTable (vm : TablePtr) :
  Along (Supplies F) (memsetTable vm)
  := fun _ => supplies_of_same rfl (List.suffix_cons _ _) rfl

include hF

theorem supplies_addTable (vm : TablePtr) (idx : ℕ) :
  Along (Supplies F) (addTable vm idx)
  := by
  apply (supplies_allocpage hF).bind
  intro nLv
  apply Along.ite (R := Supplies F) (Along.throw _)
  apply (supplies_tableAt nLv).bind
  intro nLvD
  apply (supplies_memsetTable nLvD).bind
  intro
  apply (supplies_writeEntry vm idx _).bind
  intro
  apply Along.pure

theorem supplies_steps :
  Steps (Supplies F)
  where
  tableAt := supplies_tableAt
  readEntry vm idx s := by
    by_cases h : InTable vm idx
    · rw [readEntry_eq h]
      exact Std.Refl.refl s
    · rw [readEntry_fault h]
      exact Std.Refl.refl s
  writeEntry := supplies_writeEntry
  addTable := supplies_addTable hF
  memcpyHalf _ _ _ _ := supplies_of_same rfl (List.suffix_cons _ _) rfl

theorem supplies_initKtable (core : ℕ) (cpuHugepage : Bool) :
  Along (Supplies F) (initKtable core cpuHugepage)
  := by
  apply Along.bind (R := Supplies F)
  · apply Along.modify
    intro s
    exact supplies_of_same rfl (List.suffix_refl _) rfl
  intro
  apply (supplies_allocpage hF).bind
  intro ktablePhys
  apply (supplies_tableAt ktablePhys).bind
  intro ktable
  apply (supplies_memsetTable ktable).bind
  intro
  apply Along.bind (R := Supplies F)
  · apply Along.modify
    intro s
    exact supplies_of_same rfl (List.suffix_refl _) rfl
  intro
  apply Along.pure

theorem supplies_vmemInit (core : ℕ) (cpuHugepage : Bool) (curPtable : U64) :
  Along (Supplies F) (vmemInit core cpuHugepage curPtable)
  := by
  rw [vmemInit_eq]
  apply (supplies_initKtable hF core cpuHugepage).bind
  intro
  apply (supplies_memsetTable .kmem).bind
  intro
  apply (supplies_steps hF).mapWindows
  intro s
  exact supplies_of_same rfl (List.suffix_refl _) rfl

/-- What a call on a core does to the allocator. -/
theorem supplies_called {core : ℕ} {s s' : Vmem} {call : Call} {new : List Promise}
    (h : Called core s call new s') :
  Supplies F s s'
  := by
  have hof : ∀ {α : Type} {x : Program Vmem α} {a : α}, Along (Supplies F) x → x s = .ok a s' →
      Supplies F s s' := by
    intro α x a hx hrun
    have := hx s
    rwa [hrun] at this
  have hsteps := supplies_steps hF
  cases h with
  | create hrun =>
      rcases vmemCreate_ok hrun with ⟨-, rfl⟩ | ⟨-, pos, rfl⟩
      · exact Std.Refl.refl _
      · exact supplies_of_same rfl (List.suffix_cons _ _) rfl
  | map _ _ hrun => exact hof (hsteps.vmemMap _ _ _ _ _ _) hrun
  | setactive _ hrun =>
      refine hof (hsteps.vmemSavestate.bind fun _ => ?_) hrun
      exact hsteps.loadUser fun s lcl => supplies_of_same rfl (List.suffix_refl _) rfl
  | getactive hrun =>
      refine hof (hsteps.vmemSavestate.bind fun _ => ?_) hrun
      exact Along.bind (R := Supplies F) along_getLcl fun _ => Along.pure _
  | flush hrun => exact hof hsteps.vmemSavestate hrun

end Supplies

/-! ### Runs from the boot on -/

/-- A run from `vmem_init` in the state `s₀` on, of calls on one core. -/
inductive RunFrom (core : ℕ) (s₀ : Vmem) : Vmem → List Promise → Prop where
  | init {cpuHugepage : Bool} {curPtable : U64} {s : Vmem} :
      vmemInit core cpuHugepage curPtable s₀ = .ok ⟨⟩ s → RunFrom core s₀ s []
  | step {s s' : Vmem} {ps new : List Promise} {call : Call} : RunFrom core s₀ s ps →
      Harmless core s ps call → Called core s call new s' → RunFrom core s₀ s' (new ++ ps)

section RunFrom

variable {core : ℕ} {s₀ s : Vmem} {ps : List Promise}

theorem RunFrom.run (hboot : Boot s₀) (h : RunFrom core s₀ s ps) :
  Run core (Called core) (Harmless core) s ps
  := by
  induction h with
  | init hrun => exact .init hboot hrun
  | step _ hharmless hcalled ih => exact .step ih hharmless hcalled

/-- The pages are accounted for along a run. -/
theorem RunFrom.supplies {F : Finset ℕ} (hF : ∀ p ∈ F, 0 < p ∧ p < 2 ^ 40)
    (h : RunFrom core s₀ s ps) :
  Supplies F s₀ s
  := by
  induction h with
  | @init cpuHugepage curPtable s hrun =>
      have := supplies_vmemInit hF core cpuHugepage curPtable s₀
      rwa [hrun] at this
  | step _ _ hcalled ih => exact IsTrans.trans _ _ _ ih (supplies_called hF hcalled)

/-- At the boot the allocator has just the pages `F`. -/
theorem stocked_of_boot {F : Finset ℕ} (hboot : Boot s₀) (hpmem : Conserved ⟨s₀.pmem, F⟩)
    (hhead : AllAtHead s₀.pmem.hist) :
  Stocked F s₀
  := by
  have hnone : handedPages s₀.hist = [] := by
    rw [hboot.hist]
    rfl
  refine ⟨?_, hhead, ?_, ?_, ?_⟩
  · rw [hnone, List.toFinset_nil, Finset.sdiff_empty]
    exact hpmem
  · rw [hnone]
    simp
  · rw [hnone]
    exact List.nodup_nil
  · intro r hr
    rw [hboot.hist] at hr
    cases hr

/-- What holds after a run that asks for no more pages than there were. -/
structure Provided (core : ℕ) (F : Finset ℕ) (s : Vmem) (ps : List Promise) : Prop where
  fresh : FreshPages s.hist
  left : pages s.pmem.btmLevel = (F \ (handedPages s.hist).toFinset).val
  freeMem : s.pmem.freeMem.toNat + 4096 * (allocs s.hist).length = 4096 * F.card
  table : ∀ {r l t}, r ∈ roots → l ≠ [] → s.node r l = some t →
    ∃ a v, t = .page v ∧ reach s.physMapSz a = some v ∧ a.toNat / 4096 ∈ F
      ∧ a.toNat / 4096 ∉ pages s.pmem.btmLevel
  resolves : ∀ p ∈ ps, p.Resolves core s

theorem mem_handedPages {a : U64} (ha : Handed s.hist a) :
  a.toNat / 4096 ∈ handedPages s.hist
  := List.mem_filterMap.mpr ⟨some a, ha.1, rfl⟩

/-- From a boot with the free pages `F` on, after every run of calls on a core whose calls of
`vmem_map` are harmless and that asks for no more pages than `F` has, no request for a page was
refused and none was answered with a page that was handed out before, the free queue describes just
the pages that are left, no table is in one of them, and what `vmem_map` promised is translated. -/
theorem provided_of_run {F : Finset ℕ} (hF : ∀ p ∈ F, 0 < p ∧ p < 2 ^ 40) (hboot : Boot s₀)
    (hpmem : Conserved ⟨s₀.pmem, F⟩) (hhead : AllAtHead s₀.pmem.hist)
    (h : RunFrom core s₀ s ps) (hle : (allocs s.hist).length ≤ F.card) :
  Provided core F s ps
  := by
  have hstocked := (h.supplies hF).2 (stocked_of_boot hboot hpmem hhead) hle
  have hfresh := hstocked.fresh
  have hsettles : Settles core s ps := by
    apply (h.run hboot).keeps _ hist_called _ hfresh
    · intro s cpuHugepage curPtable s' hboot hrun hfresh
      obtain ⟨hcoherent, hsync, hnone⟩ := hboot.coherent hrun hfresh
      refine ⟨hcoherent, hsync, fun hactive => ?_, fun hp => ?_, fun hp => ?_⟩
      · rw [hnone] at hactive
        cases hactive
      · cases hp
      · cases hp
    · intro s ps call new s' h hharmless hcalled hfresh
      exact h.step hharmless hcalled hfresh
  refine ⟨hfresh, hstocked.conserved.pages_eq, ?_, ?_, fun p hp => hsettles.resolves hp⟩
  · have hsub : (handedPages s.hist).toFinset ⊆ F := by
      intro p hp
      exact hstocked.subset p (List.mem_toFinset.mp hp)
    have hcard := Finset.card_sdiff_add_card_eq_card hsub
    rw [List.toFinset_card_of_nodup hstocked.nodup, hstocked.length_handedPages] at hcard
    have hmem := hstocked.conserved.freeMem_eq
    dsimp only at hmem
    omega
  · intro r l t hr hl ht
    obtain ⟨a, v, ha, hv, rfl⟩ := hsettles.toWfCore.node_page hr hl ht
    have hmem := mem_handedPages ha
    refine ⟨a, v, rfl, hv, hstocked.subset _ hmem, ?_⟩
    have hpages := hstocked.conserved.pages_eq
    dsimp only at hpages
    rw [hpages, Finset.mem_val, Finset.mem_sdiff, List.mem_toFinset]
    exact fun hleft => hleft.2 hmem

end RunFrom

/-- The 16 pages from 1 MiB on. -/
def bootPages : Finset ℕ := (List.range' 256 16).toFinset

theorem conserved_bootVmem :
  Conserved ⟨bootVmem.pmem, bootPages⟩
  := by
  have hq : queueTryenqueue (Queue.init 4) (buildEntry 0x100000 16) = some bootVmem.pmem.btmLevel :=
    rfl
  have hinit : (Queue.init 4).Clean := Queue.clean_init (by decide)
  refine ⟨Queue.clean_tryenqueue hinit hq, ?_, by decide, by decide⟩
  rw [enqueues_back.pages_eq hinit.toInRange hq]
  decide

/-- A page that is mapped in a new space after the boot. -/
theorem provided_of_run_mapThenActive :
  ∃ s, Provided 0 bootPages s [⟨.vm 0, 0x400000, 0x400000, mib 2⟩]
  := by
  obtain ⟨s₀, hinit, -, hfresh₀, -⟩ := exists_built_bootVmem
  obtain ⟨x, s, hrun, rfl, hallocs⟩ := mapThenActive_returns
  rw [mapThenActive, bind_of_ok hinit, bind_eq_ok] at hrun
  obtain ⟨id, s₁, hcreate, hrun⟩ := hrun
  rw [bind_eq_ok] at hrun
  obtain ⟨ret, s₂, hmap, hrun⟩ := hrun
  rw [bind_eq_ok] at hrun
  obtain ⟨⟨⟩, s₃, hset, hpure⟩ := hrun
  cases hpure
  have hcnt := vmCnt_of_create hcreate
  have hactive : s₁.active 0 ≠ some 0 := by
    obtain ⟨-, -, hnone⟩ := boot_bootVmem.coherent hinit hfresh₀
    rcases vmemCreate_ok hcreate with ⟨hid, -⟩ | ⟨-, pos, rfl⟩
    · cases hid
    · intro hsome
      have hbefore : s₀.active 0 = some 0 := hsome
      rw [hnone] at hbefore
      cases hbefore
  have hharmless : Harmless 0 s₁ [] (.map 0 0x400000 0x400000 (mib 2) 0) :=
    ⟨sound_user s₁, fun h => absurd h hactive⟩
  have hcalled : Called 0 s₁ (.map 0 0x400000 0x400000 (mib 2) 0)
      [⟨.vm 0, 0x400000, 0x400000, mib 2⟩] s₂ := .map hcnt rfl hmap
  have hsuffix : allocs s₂.hist <:+ sixPages := by
    rw [← hallocs]
    exact allocs_suffix (hist_called (.setactive (by
      rw [(steady_vmemMap hmap).vmCnt]
      exact hcnt) hset))
  have hle : (allocs s₂.hist).length ≤ bootPages.card :=
    hsuffix.length_le.trans (by decide)
  have hrun₁ : RunFrom 0 bootVmem s₁ [] :=
    .step (.init hinit) (show Harmless 0 s₀ [] .create from trivial) (.create hcreate)
  exact ⟨s₂, provided_of_run (by decide) boot_bootVmem conserved_bootVmem (by decide)
    (.step hrun₁ hharmless hcalled) hle⟩

end VirtMem
