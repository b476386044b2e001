import Gubernatrix.PhysMem.Run

/-!
# Conservation of pages

In a run whose compactions merge only at the head of their window, the free queue describes
just the pages that were freed and not handed out since, each once.
-/

namespace PhysMem

open Program

/-- The free queue describes the free pages, each once, and `free_mem` counts their bytes. -/
structure Conserved (w : World) : Prop where
  clean : w.pmem.btmLevel.Clean
  pages_eq : pages w.pmem.btmLevel = w.free.val
  freeMem_eq : w.pmem.freeMem.toNat = 4096 * w.free.card
  below : ∀ p ∈ w.free, p < 2 ^ 44

theorem conserved_init {sz : ℕ} (h : 0 < sz) :
  Conserved (World.init sz)
  where
  clean := Queue.clean_init h
  pages_eq := rfl
  freeMem_eq := rfl
  below p hp := absurd hp (Finset.notMem_empty p)

theorem Conserved.card_le {w : World} (h : Conserved w) :
  w.free.card ≤ 2 ^ 44
  := by
  have hsub : w.free ⊆ Finset.range (2 ^ 44) := fun p hp => Finset.mem_range.mpr (h.below p hp)
  have hcard := Finset.card_le_card hsub
  rwa [Finset.card_range] at hcard

theorem Conserved.pagesBelow {w : World} (h : Conserved w) :
  PagesBelow w.pmem.btmLevel
  := by
  intro p hp
  rw [h.pages_eq] at hp
  apply h.below p hp

/-- A list of pages that are not free joins the free ones. -/
theorem val_union_toFinset {F : Finset ℕ} {l : List ℕ} (hnodup : l.Nodup)
    (hnew : ∀ p ∈ l, p ∉ F) :
  (F ∪ l.toFinset).val = ↑l + F.val ∧ (F ∪ l.toFinset).card = l.length + F.card
  := by
  have hdisj : Disjoint l.toFinset F := by
    rw [Finset.disjoint_left]
    intro p hp
    apply hnew p (List.mem_toFinset.mp hp)
  rw [Finset.union_comm]
  constructor
  · rw [← Finset.disjUnion_eq_union _ _ hdisj]
    change l.toFinset.val + F.val = _
    rw [List.toFinset_val, hnodup.dedup]
  · rw [Finset.card_union_of_disjoint hdisj, List.toFinset_card_of_nodup hnodup]

/-- Pages that are found among the free ones leave them. -/
theorem val_sdiff_toFinset {F : Finset ℕ} {l : List ℕ} {m : Multiset ℕ} (hnodup : l.Nodup)
    (h : F.val = ↑l + m) :
  (∀ p ∈ l, p ∈ F) ∧ (F \ l.toFinset).val = m ∧ (F \ l.toFinset).card + l.length = F.card
  := by
  have hsub : ∀ p ∈ l, p ∈ F := by
    intro p hp
    rw [← Finset.mem_val, h]
    exact Multiset.mem_add.mpr (.inl hp)
  refine ⟨hsub, ?_, ?_⟩
  · rw [Finset.sdiff_val, h, List.toFinset_val, hnodup.dedup, Multiset.add_comm,
      Multiset.add_sub_cancel_right]
  · rw [← List.toFinset_card_of_nodup hnodup]
    apply Finset.card_sdiff_add_card_eq_card
    intro p hp
    apply hsub p (List.mem_toFinset.mp hp)

/-- Freeing a range of pages that are not free adds them. -/
theorem conserved_free {w : World} {addr size : U64} {s' : Pmem} (h : Conserved w)
    (hbound : addr.toNat + size.toNat ≤ 4096 * 2 ^ 44)
    (hnew : ∀ p ∈ rangePages addr (size.toNat / 4096), p ∉ w.free)
    (hfree : pageallocFree addr size w.pmem = .ok ⟨⟩ s') (hall : AllAtHead s'.hist) :
  Conserved ⟨s', w.free ∪ (rangePages addr (size.toNat / 4096)).toFinset⟩
  := by
  obtain ⟨haddr, hsize, hclean, hmem, hpages⟩ := pageallocFree_ok h.clean (by omega) hfree hall
  obtain ⟨hval, hcard⟩ := val_union_toFinset List.nodup_range' hnew
  rw [List.length_range'] at hcard
  have hbelow : ∀ p ∈ w.free ∪ (rangePages addr (size.toNat / 4096)).toFinset, p < 2 ^ 44 := by
    intro p hp
    rcases Finset.mem_union.mp hp with hp | hp
    · apply h.below p hp
    · rw [List.mem_toFinset, rangePages, List.mem_range'_1] at hp
      omega
  refine ⟨hclean, ?_, ?_, hbelow⟩
  · rw [hpages, h.pages_eq]
    exact hval.symm
  · have hle := h.card_le
    change s'.freeMem.toNat = 4096 * (w.free ∪ List.toFinset (List.range' _ _)).card
    rw [hmem, BitVec.toNat_add, h.freeMem_eq, hcard]
    omega

/-- What an allocation takes leaves the free pages. -/
theorem conserved_takes {w : World} {n : ℕ} {size : U64} {r : Option U64} {s' : Pmem}
    (h : Conserved w) (hsize : size.toNat = 4096 * n) (htakes : Takes n size w.pmem r s') :
  (∀ p ∈ takenPages n r, p ∈ w.free) ∧ Conserved ⟨s', w.free \ (takenPages n r).toFinset⟩
  := by
  cases r with
  | none =>
      obtain ⟨hclean, hpages, hmem⟩ := htakes
      rw [takenPages, List.toFinset_nil, Finset.sdiff_empty]
      refine ⟨fun p hp => absurd hp List.not_mem_nil, hclean, ?_, ?_, h.below⟩
      · rw [hpages, h.pages_eq]
      · rw [hmem, h.freeMem_eq]
  | some a =>
      obtain ⟨hclean, ha, hpages, hmem⟩ := htakes
      rw [h.pages_eq] at hpages
      obtain ⟨hsub, hval, hcard⟩ := val_sdiff_toFinset List.nodup_range' hpages
      rw [List.length_range'] at hcard
      refine ⟨hsub, hclean, hval.symm, ?_, fun p hp => h.below p (Finset.mem_sdiff.mp hp).1⟩
      have hle := h.card_le
      change s'.freeMem.toNat = 4096 * (w.free \ List.toFinset (List.range' _ _)).card
      rw [hmem, BitVec.toNat_sub, h.freeMem_eq, hsize]
      omega

/-- One call keeps the free queue conserved, and takes free pages only. -/
theorem conserved_step {w w' : World} {op : Op} {r : Option U64} (h : Conserved w)
    (hstep : step (2 ^ 44) op w = .ok r w') (hall : AllAtHead w'.pmem.hist) :
  (∀ p ∈ op.taken r, p ∈ w.free) ∧ Conserved w'
  := by
  obtain ⟨s', F'⟩ := w'
  obtain ⟨hvalid, hexec, hF⟩ := step_eq_ok.mp hstep
  dsimp only at hexec hF hall
  subst hF
  have hfree : ∀ {addr size}, op.range = some (addr, size) → op.request = none →
      pageallocFree addr size w.pmem = .ok ⟨⟩ s' →
      (∀ p ∈ op.taken r, p ∈ w.free) ∧ Conserved ⟨s', op.freeAfter r w.free⟩ := by
    intro addr size hrange hrequest hdone
    have htaken : op.taken r = [] := by rw [Op.taken, hrequest]
    have hfreed : op.freed = rangePages addr (size.toNat / 4096) := by rw [Op.freed, hrange]
    rw [Op.Valid, hrange] at hvalid
    obtain ⟨-, -, hbound, hnew⟩ := hvalid
    rw [Op.freeAfter, htaken, hfreed, List.toFinset_nil, Finset.sdiff_empty]
    exact ⟨fun p hp => absurd hp List.not_mem_nil, conserved_free h hbound hnew hdone hall⟩
  have halloc : ∀ {flags size a}, op.range = none → op.request = some (align size btmLevel) →
      size.toNat < 2 ^ 32 → pageallocAlloc flags size w.pmem = .ok a s' → allocated a = r →
      (∀ p ∈ op.taken r, p ∈ w.free) ∧ Conserved ⟨s', op.freeAfter r w.free⟩ := by
    intro flags size a hrange hrequest hlt hdone hr
    have htaken : op.taken r = takenPages ((align size btmLevel).toNat / 4096) r := by
      rw [Op.taken, hrequest]
    have hfreed : op.freed = [] := by rw [Op.freed, hrange]
    have hmod : (align size btmLevel).toNat % 4096 = 0 := align_page_mod size
    have htakes := pageallocAlloc_ok hlt h.clean h.pagesBelow hdone hall
    rw [hr] at htakes
    rw [Op.freeAfter, htaken, hfreed, List.toFinset_nil, Finset.union_empty]
    exact conserved_takes h (by omega) htakes
  cases op with
  | free addr size =>
      obtain ⟨⟨⟩, s, hdone, hr⟩ := bind_eq_ok.mp hexec
      rw [pure_apply, EStateM.Result.ok.injEq] at hr
      obtain ⟨rfl, rfl⟩ := hr
      exact hfree rfl rfl hdone
  | pmemFree addr =>
      obtain ⟨⟨⟩, s, hdone, hr⟩ := bind_eq_ok.mp hexec
      rw [pure_apply, EStateM.Result.ok.injEq] at hr
      obtain ⟨rfl, rfl⟩ := hr
      exact hfree rfl rfl hdone
  | pmemFreedma addr sz =>
      obtain ⟨⟨⟩, s, hdone, hr⟩ := bind_eq_ok.mp hexec
      rw [pure_apply, EStateM.Result.ok.injEq] at hr
      obtain ⟨rfl, rfl⟩ := hr
      exact hfree rfl rfl hdone
  | allocpage =>
      obtain ⟨a, s, hdone, hr⟩ := bind_eq_ok.mp hexec
      rw [pure_apply, EStateM.Result.ok.injEq] at hr
      obtain ⟨rfl, rfl⟩ := hr
      exact halloc rfl rfl (by decide) hdone rfl
  | allocdma sz =>
      obtain ⟨a, s, hdone, hr⟩ := bind_eq_ok.mp hexec
      rw [pure_apply, EStateM.Result.ok.injEq] at hr
      obtain ⟨rfl, rfl⟩ := hr
      have hsz : (sz.setWidth 64).toNat < 2 ^ 32 := by
        rw [BitVec.toNat_setWidth]
        have := sz.isLt
        omega
      exact halloc rfl rfl hsz hdone rfl

/-- A run whose compactions merge at the head keeps the free queue conserved. -/
theorem conserved_run {w' : World} :
  ∀ {ops : List Op} {w : World}, Conserved w → run (2 ^ 44) ops w = .ok ⟨⟩ w' →
    AllAtHead w'.pmem.hist → Conserved w'
  | [], w, h, hrun, hall => by
      rw [run, pure_apply, EStateM.Result.ok.injEq] at hrun
      rw [← hrun.2]
      exact h
  | op :: ops, w, h, hrun, hall => by
      rw [run] at hrun
      obtain ⟨r, w₁, hstep, hrest⟩ := bind_eq_ok.mp hrun
      have hgrows := grows_run (2 ^ 44) ops w₁
      rw [hrest] at hgrows
      exact conserved_run (conserved_step h hstep (hall.of_grows hgrows)).2 hrest hall

/-- From an empty free queue on, after every run of calls whose compactions merge only at the
head of their window, the free queue describes just the pages freed and not handed out
since, each once, `free_mem` is 4096 times their number, and whatever is allocated next is
taken from these pages. -/
theorem pages_conserved {sz : ℕ} (hsz : 0 < sz) {ops : List Op} {w : World}
    (hrun : run (2 ^ 44) ops (World.init sz) = .ok ⟨⟩ w) (hall : AllAtHead w.pmem.hist) :
  pages w.pmem.btmLevel = w.free.val ∧ w.pmem.freeMem.toNat = 4096 * w.free.card
    ∧ ∀ op r w', step (2 ^ 44) op w = .ok r w' → AllAtHead w'.pmem.hist →
        ∀ p ∈ op.taken r, p ∈ w.free
  := by
  have h := conserved_run (conserved_init hsz) hrun hall
  refine ⟨h.pages_eq, h.freeMem_eq, ?_⟩
  intro op r w' hstep hall'
  exact (conserved_step h hstep hall').1

/-- Three freed pages, of which a compaction merges the first two for a request of two. -/
theorem pages_conserved_merge :
  ∃ w, run (2 ^ 44) [.pmemFree 0x1000, .pmemFree 0x2000, .pmemFree 0x4000, .allocdma 0x2000]
      (World.init 8) = .ok ⟨⟩ w
    ∧ pages w.pmem.btmLevel = w.free.val ∧ w.pmem.freeMem.toNat = 4096 * w.free.card
    ∧ ∀ op r w', step (2 ^ 44) op w = .ok r w' → AllAtHead w'.pmem.hist →
        ∀ p ∈ op.taken r, p ∈ w.free
  := by
  obtain ⟨u, w, hrun, hall⟩ := exists_of_returns (fun _ w => AllAtHead w.pmem.hist)
    (run (2 ^ 44) [.pmemFree 0x1000, .pmemFree 0x2000, .pmemFree 0x4000, .allocdma 0x2000]
      (World.init 8))
    (by decide +kernel)
  exact ⟨w, hrun, pages_conserved (by decide) hrun hall⟩

/-- Four freed pages and a request too large for them: the compaction merges the pages 3
and 4, behind page 1, and page 1 is lost. -/
theorem pages_not_conserved :
  ¬ ∀ (sz : ℕ) (ops : List Op) (w : World), 0 < sz →
    run (2 ^ 44) ops (World.init sz) = .ok ⟨⟩ w → pages w.pmem.btmLevel = w.free.val
  := by
  intro h
  obtain ⟨u, w, hrun, hne⟩ := exists_of_returns (fun _ w => pages w.pmem.btmLevel ≠ w.free.val)
    (run (2 ^ 44)
      [.pmemFree 0x1000, .pmemFree 0x3000, .pmemFree 0x4000, .pmemFree 0x6000, .allocdma 0x8000]
      (World.init 8))
    (by decide +kernel)
  exact hne (h 8 _ w (by decide) hrun)

end PhysMem
