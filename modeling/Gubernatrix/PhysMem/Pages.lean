import Gubernatrix.PhysMem.Allocator
import Mathlib.Data.Multiset.AddSub
import Mathlib.Data.Multiset.Filter

/-!
# The pages of the free queue

What each operation of the allocator does to the pages that the free queue describes, on a
clean queue and as long as compactions merge only at the head of their window: an insertion
adds the pages of its entry, `pagealloc_free` the pages of its range, and an allocation takes
the pages it returns.

The condition is read off the history of the state in which an operation ends: histories only
grow, so it then held all along.
-/

namespace PhysMem

open Program

/-- At a compaction, the merges come first; nothing is asked of other moments. -/
def Event.AtHead : Event → Prop
  | .compact q => CompactsAtHead q
  | .ringFull _ => True

instance : DecidablePred Event.AtHead := fun e => by
  cases e <;> unfold Event.AtHead <;> infer_instance

/-- Every compaction of a history merged only at the head of its window. -/
def AllAtHead (hist : List Event) : Prop := ∀ e ∈ hist, e.AtHead

instance (hist : List Event) : Decidable (AllAtHead hist) :=
  inferInstanceAs (Decidable (∀ e ∈ hist, e.AtHead))

/-! ### Histories grow -/

/-- The history of `s'` continues that of `s`, and the ring has kept its size. -/
def Grows (s s' : Pmem) : Prop :=
  s.hist <:+ s'.hist ∧ s'.btmLevel.size = s.btmLevel.size

instance : Std.Refl Grows where
  refl _ := ⟨List.suffix_refl _, rfl⟩

instance : IsTrans Pmem Grows where
  trans _ _ _ h h' := ⟨h.1.trans h'.1, h'.2.trans h.2⟩

theorem AllAtHead.of_grows {s s' : Pmem} (h : Grows s s') (hall : AllAtHead s'.hist) :
  AllAtHead s.hist
  := fun e he => hall e (h.1.subset he)

theorem compactLoop_size (hi : ℤ) :
  ∀ (turns : ℕ) (lo : ℤ) (q : Queue), (compactLoop hi turns lo q).size = q.size
  | 0, _, _ => rfl
  | turns + 1, lo, q => by
      rw [compactLoop]
      split
      · rw [compactLoop_size]
        simp only [compactStep]
        split <;> rfl
      · rfl

theorem compactQueue_size {q q' : Queue} (h : compactQueue q = some q') :
  q'.size = q.size
  := by
  simp only [compactQueue, Option.bind_eq_bind, Option.bind_eq_some_iff] at h
  obtain ⟨data, -, h⟩ := h
  rw [← Option.some.inj h, compactLoop_size]

theorem grows_compact :
  Along Grows compact
  := by
  intro s
  rw [compact, bind_of_ok (get_apply s)]
  cases h : compactQueue s.btmLevel with
  | some q => exact ⟨List.suffix_cons _ _, compactQueue_size h⟩
  | none => exact Std.Refl.refl s

/-- What the two insertions of `stdqueue.c` have in common: they fail just on a full ring,
and otherwise add their entry to a clean queue. -/
structure Enqueues (tryenqueue : Queue → U64 → Option Queue) : Prop where
  none_iff : ∀ {q : Queue} {val}, q.InRange →
    (tryenqueue q val = none ↔ q.liveCnt + 1 = q.size)
  inRange : ∀ {q q' : Queue} {val}, q.InRange → tryenqueue q val = some q' → q'.InRange
  clean : ∀ {q q' : Queue} {val}, q.Clean → tryenqueue q val = some q' → q'.Clean
  size_eq : ∀ {q q' : Queue} {val}, tryenqueue q val = some q' → q'.size = q.size
  pages_eq : ∀ {q q' : Queue} {val}, q.InRange → tryenqueue q val = some q' →
    pages q' = ↑(entryPages val) + pages q
  mem_live : ∀ {q q' : Queue} {val e}, q.InRange → tryenqueue q val = some q' →
    (e ∈ q'.live ↔ e = val ∨ e ∈ q.live)

theorem enqueues_back :
  Enqueues queueTryenqueue
  where
  none_iff := Queue.tryenqueue_eq_none
  inRange h hq := (Queue.tryenqueue_spec h hq).1
  clean := Queue.clean_tryenqueue
  size_eq hq := by
    rw [queueTryenqueue] at hq
    split at hq
    · cases hq
    · obtain rfl := Option.some.inj hq
      rfl
  pages_eq h hq := by
    rw [pages, Queue.live_tryenqueue h hq, List.flatMap_append, List.flatMap_singleton,
      ← Multiset.coe_add, Multiset.add_comm]
    rfl
  mem_live h hq := by
    rw [Queue.live_tryenqueue h hq, List.mem_append, List.mem_singleton, or_comm]

theorem enqueues_front :
  Enqueues queueTryenqueueFront
  where
  none_iff := Queue.tryenqueueFront_eq_none
  inRange h hq := (Queue.tryenqueueFront_spec h hq).1
  clean := Queue.clean_tryenqueueFront
  size_eq hq := by
    rw [queueTryenqueueFront] at hq
    split at hq
    · cases hq
    · obtain rfl := Option.some.inj hq
      rfl
  pages_eq h hq := by
    rw [pages, Queue.live_tryenqueueFront h hq, List.flatMap_cons, ← Multiset.coe_add]
    rfl
  mem_live h hq := by
    rw [Queue.live_tryenqueueFront h hq, List.mem_cons]

theorem grows_insertWith {tryenqueue : Queue → U64 → Option Queue} (henq : Enqueues tryenqueue)
    (val : U64) :
  Along Grows (insertWith tryenqueue val)
  := by
  intro s
  rw [insertWith, bind_of_ok (get_apply s)]
  cases h : tryenqueue s.btmLevel val with
  | some q => exact ⟨List.suffix_refl _, henq.size_eq h⟩
  | none =>
      have hfull : Grows s { s with hist := .ringFull s.btmLevel :: s.hist } :=
        ⟨List.suffix_cons _ _, rfl⟩
      apply IsTrans.trans _ _ _ hfull
      refine Along.bind grows_compact (fun _ s => ?_) _
      rw [bind_of_ok (get_apply s)]
      cases h : tryenqueue s.btmLevel val with
      | some q => exact ⟨List.suffix_refl _, henq.size_eq h⟩
      | none => exact Std.Refl.refl s

theorem grows_freeLoop (pageCnt : U64) :
  ∀ (turns : ℕ) (pg0 addr : U64), Along Grows (freeLoop pageCnt turns pg0 addr)
  | 0, _, _ => Along.pure _
  | turns + 1, pg0, addr => by
      rw [freeLoop]
      apply Along.ite
      · apply Along.bind (grows_insertWith enqueues_back _)
        intro _
        apply grows_freeLoop
      · apply Along.pure

theorem grows_pageallocFree (addr size : U64) :
  Along Grows (pageallocFree addr size)
  := by
  rw [pageallocFree]
  apply Along.ite
  · apply Along.throw
  apply Along.ite
  · apply Along.throw
  apply Along.bind
  · apply Along.modify
    intro s
    exact ⟨List.suffix_refl _, rfl⟩
  intro _
  apply grows_freeLoop

theorem trydequeue_size {q q' : Queue} {val : U64} (h : queueTrydequeue q = some (val, q')) :
  q'.size = q.size
  := by
  rw [queueTrydequeue] at h
  split at h
  · cases h
  · simp only [Option.some.injEq, Prod.mk.injEq] at h
    rw [← h.2]

theorem grows_allocEntry (deq : U64) (pgCnt : ℤ) (size : U64) :
  Along Grows (allocEntry deq pgCnt size)
  := by
  rw [allocEntry]
  apply Along.bind
  · apply Along.ite
    · apply grows_insertWith enqueues_front
    · apply Along.pure
  intro _
  refine Along.bind (Along.modify fun s => ?_) (fun _ => Along.pure _)
  exact ⟨List.suffix_refl _, rfl⟩

theorem grows_allocScan (flags : BitVec 32) (pgCnt : ℤ) (size : U64) :
  ∀ turns, Along Grows (allocScan flags pgCnt size turns)
  | 0 => Along.pure _
  | turns + 1 => by
      intro s
      rw [allocScan, bind_of_ok (get_apply s)]
      cases h : queueTrydequeue s.btmLevel with
      | none => exact Std.Refl.refl s
      | some p =>
          obtain ⟨deq, q⟩ := p
          have hdeq : Grows s { s with btmLevel := q } := ⟨List.suffix_refl _, trydequeue_size h⟩
          apply IsTrans.trans _ _ _ hdeq
          refine Along.ite ?_ (Along.ite ?_ ?_) _
          · apply Along.bind (grows_insertWith enqueues_back _)
            intro _
            apply grows_allocScan
          · apply grows_allocEntry
          · apply Along.bind (grows_insertWith enqueues_back _)
            intro _
            apply grows_allocScan

theorem grows_allocLoop (flags : BitVec 32) (pgCnt : ℤ) (size : U64) :
  ∀ turns, Along Grows (allocLoop flags pgCnt size turns)
  | 0 => Along.pure _
  | turns + 1 => by
      intro s
      rw [allocLoop, bind_of_ok (get_apply s)]
      refine Along.bind (grows_allocScan flags pgCnt size _) (fun r => ?_) s
      cases r with
      | some r => apply Along.pure
      | none =>
          apply Along.bind grows_compact
          intro _
          apply grows_allocLoop

theorem grows_pageallocAlloc (flags : BitVec 32) (size : U64) :
  Along Grows (pageallocAlloc flags size)
  := grows_allocLoop _ _ _ _

/-! ### Insertions -/

/-- A compaction that merges at the head leaves a clean queue of the same pages. -/
theorem compact_ok {s s' : Pmem} (hclean : s.btmLevel.Clean) (h : compact s = .ok ⟨⟩ s')
    (hall : AllAtHead s'.hist) :
  s'.btmLevel.Clean ∧ pages s'.btmLevel = pages s.btmLevel ∧ s'.freeMem = s.freeMem
  := by
  rw [compact, bind_of_ok (get_apply s)] at h
  cases hq : compactQueue s.btmLevel with
  | none =>
      rw [hq] at h
      cases h
  | some q =>
      rw [hq] at h
      simp only [set_apply, EStateM.Result.ok.injEq, true_and] at h
      subst h
      obtain ⟨q', hq', hclean', -, hpages⟩ := compactQueue_clean hclean
        (hall (.compact s.btmLevel) List.mem_cons_self)
      rw [hq] at hq'
      obtain rfl := Option.some.inj hq'
      exact ⟨hclean', hpages, rfl⟩

/-- An insertion that returns has added the pages of its entry. -/
theorem insertWith_ok {tryenqueue : Queue → U64 → Option Queue} (henq : Enqueues tryenqueue)
    {val : U64} {s s' : Pmem} (hclean : s.btmLevel.Clean)
    (h : insertWith tryenqueue val s = .ok ⟨⟩ s') (hall : AllAtHead s'.hist) :
  s'.btmLevel.Clean ∧ pages s'.btmLevel = ↑(entryPages val) + pages s.btmLevel
    ∧ s'.freeMem = s.freeMem
  := by
  rw [insertWith, bind_of_ok (get_apply s)] at h
  cases hq : tryenqueue s.btmLevel val with
  | some q =>
      rw [hq] at h
      simp only [set_apply, EStateM.Result.ok.injEq, true_and] at h
      subst h
      exact ⟨henq.clean hclean hq, henq.pages_eq hclean.toInRange hq, rfl⟩
  | none =>
      rw [hq] at h
      simp only [bind_of_ok (set_apply _ _)] at h
      obtain ⟨⟨⟩, s₁, hcompact, h⟩ := bind_eq_ok.mp h
      rw [bind_of_ok (get_apply s₁)] at h
      cases hq₁ : tryenqueue s₁.btmLevel val with
      | none =>
          rw [hq₁] at h
          cases h
      | some q =>
          rw [hq₁] at h
          simp only [set_apply, EStateM.Result.ok.injEq, true_and] at h
          subst h
          obtain ⟨hclean₁, hpages₁, hfree₁⟩ := compact_ok (by exact hclean) hcompact hall
          refine ⟨henq.clean hclean₁ hq₁, ?_, hfree₁⟩
          rw [henq.pages_eq hclean₁.toInRange hq₁, hpages₁]

/-! ### Freeing -/

/-- The numbers of the pages from the page of `addr` on. -/
def rangePages (addr : U64) (n : ℕ) : List ℕ := List.range' (addr.toNat / 4096) n

theorem toNat_maxEntries :
  (BitVec.ofNat 64 maxEntries).toNat = 2 ^ 20
  := rfl

/-- The page numbers under which `pagealloc_free` files `n` pages from page `a` on: entry by
entry, the number of the first page modulo `2 ^ 44`. -/
def filedPages (a n : ℕ) : List ℕ :=
  (List.range n).map fun k => (a + k / 2 ^ 20 * 2 ^ 20) % 2 ^ 44 + k % 2 ^ 20

theorem filedPages_zero (a : ℕ) :
  filedPages a 0 = []
  := rfl

/-- Below page `2 ^ 44`, pages are filed under their own numbers. -/
theorem filedPages_eq_range' {a n : ℕ} (h : a + n ≤ 2 ^ 44) :
  filedPages a n = List.range' a n
  := by
  rw [filedPages, List.range'_eq_map_range]
  apply List.map_congr_left
  intro k hk
  have hlt := List.mem_range.mp hk
  omega

theorem filedPages_mod (a n : ℕ) :
  filedPages (a % 2 ^ 52) n = filedPages a n
  := by
  apply List.map_congr_left
  intro k hk
  omega

/-- The first entry, and the pages of the others. -/
theorem filedPages_split {a n c : ℕ} (hc : c = min n (2 ^ 20)) :
  filedPages a n = List.range' (a % 2 ^ 44) c ++ filedPages (a + c) (n - c)
  := by
  obtain ⟨m, rfl⟩ : ∃ m, n = c + m := ⟨n - c, by omega⟩
  rw [Nat.add_sub_cancel_left, filedPages, filedPages, List.range_add, List.map_append,
    List.map_map, List.range'_eq_map_range]
  congr 1
  · apply List.map_congr_left
    intro k hk
    have hlt := List.mem_range.mp hk
    omega
  · apply List.map_congr_left
    intro k hk
    have hlt := List.mem_range.mp hk
    dsimp only [Function.comp_apply]
    omega

/-- The pages of the first entry that is built for a range: what is left of it, but at most as many
as one entry can have. -/
theorem toNat_curPg {pageCnt pg0 : U64} (hlt : pg0 < pageCnt) :
  (if pageCnt - pg0 ≥ BitVec.ofNat 64 maxEntries then BitVec.ofNat 64 maxEntries
    else pageCnt - pg0).toNat = min (pageCnt.toNat - pg0.toNat) (2 ^ 20)
  := by
  rw [BitVec.lt_def] at hlt
  have hsub : (pageCnt - pg0).toNat = pageCnt.toNat - pg0.toNat :=
    BitVec.toNat_sub_of_le (by rw [BitVec.le_def]; omega)
  split
  next hge =>
    rw [ge_iff_le, BitVec.le_def, toNat_maxEntries, hsub] at hge
    rw [toNat_maxEntries]
    omega
  next hlt' =>
    rw [ge_iff_le, BitVec.le_def, toNat_maxEntries, hsub] at hlt'
    rw [hsub]
    omega

/-- The loop of `pagealloc_free` inserts entries, one after the other, with the pages that it
files. -/
theorem freeLoop_entries {pageCnt : U64} :
  ∀ (turns : ℕ) (pg0 addr : U64), addr.toNat % 4096 = 0 → pageCnt.toNat ≤ 2 ^ 52 →
    pageCnt.toNat - pg0.toNat ≤ turns * 2 ^ 20 →
    ∃ es : List U64, freeLoop pageCnt turns pg0 addr = forM es insertQueue
      ∧ es.flatMap entryPages = filedPages (addr.toNat / 4096) (pageCnt.toNat - pg0.toNat)
  | 0, pg0, addr, halign, hcnt, hturns => by
      have hzero : pageCnt.toNat - pg0.toNat = 0 := by omega
      refine ⟨[], rfl, ?_⟩
      rw [hzero]
      rfl
  | turns + 1, pg0, addr, halign, hcnt, hturns => by
      rw [freeLoop]
      by_cases hlt : pg0 < pageCnt
      · rw [if_pos hlt]
        have hcurval := toNat_curPg hlt
        rw [BitVec.lt_def] at hlt
        generalize (if pageCnt - pg0 ≥ BitVec.ofNat 64 maxEntries then BitVec.ofNat 64 maxEntries
          else pageCnt - pg0) = curPg at hcurval ⊢
        have haddr : (addr + curPg * btmLevel).toNat
            = (addr.toNat + curPg.toNat * 4096) % 2 ^ 64 := by
          rw [BitVec.toNat_add, BitVec.toNat_mul, show btmLevel.toNat = 4096 from rfl]
          omega
        have hpage : (addr + curPg * btmLevel).toNat / 4096
            = (addr.toNat / 4096 + curPg.toNat) % 2 ^ 52 := by
          omega
        have hpg : (pg0 + BitVec.ofNat 64 maxEntries).toNat = pg0.toNat + 2 ^ 20 := by
          rw [BitVec.toNat_add, toNat_maxEntries]
          omega
        have hrest : pageCnt.toNat - (pg0 + BitVec.ofNat 64 maxEntries).toNat
            = pageCnt.toNat - pg0.toNat - curPg.toNat := by
          omega
        obtain ⟨es, hloop, hpages⟩ := freeLoop_entries turns (pg0 + BitVec.ofNat 64 maxEntries)
          (addr + curPg * btmLevel) (by omega) hcnt (by omega)
        refine ⟨buildEntry addr curPg :: es, ?_, ?_⟩
        · rw [List.forM_cons, ← hloop]
        · rw [List.flatMap_cons, hpages, hpage, filedPages_mod, hrest,
            entryPages_buildEntry_mod (by omega) (by omega), ← filedPages_split hcurval]
      · rw [if_neg hlt]
        rw [BitVec.lt_def] at hlt
        have hzero : pageCnt.toNat - pg0.toNat = 0 := by omega
        refine ⟨[], rfl, ?_⟩
        rw [hzero]
        rfl

theorem umod_page_eq_zero {x : U64} :
  x % btmLevel = 0 ↔ x.toNat % 4096 = 0
  := by
  rw [← BitVec.toNat_inj, BitVec.toNat_umod]
  rfl

/-- `pagealloc_free` of whole pages inserts entries, one after the other. -/
theorem pageallocFree_entries {addr size : U64} (haddr : addr.toNat % 4096 = 0)
    (hsize : size.toNat % 4096 = 0) :
  ∃ es : List U64, (pageallocFree addr size = do
      modify fun s => { s with freeMem := s.freeMem + size }
      forM es insertQueue)
    ∧ es.flatMap entryPages = filedPages (addr.toNat / 4096) (size.toNat / 4096)
  := by
  have hdiv : (size / btmLevel).toNat = size.toNat / 4096 := by
    rw [BitVec.toNat_udiv]
    rfl
  have hzero : (0 : U64).toNat = 0 := rfl
  have hturns : (size / btmLevel).toNat - (0 : U64).toNat
      ≤ ((size / btmLevel).toNat / maxEntries + 1) * 2 ^ 20 := by
    rw [show maxEntries = 2 ^ 20 from rfl]
    omega
  obtain ⟨es, hloop, hpages⟩ := freeLoop_entries _ 0 addr haddr (by rw [hdiv]; omega) hturns
  rw [hdiv, hzero, Nat.sub_zero] at hpages
  refine ⟨es, ?_, hpages⟩
  rw [← umod_page_eq_zero] at haddr hsize
  rw [pageallocFree, if_neg (not_not.mpr haddr), if_neg (not_not.mpr hsize), ← hloop]

section Induct

variable {P : Pmem → Multiset ℕ → Prop}
  (hP : ∀ {s m val s'}, P s m → insertQueue val s = .ok ⟨⟩ s' → P s' (↑(entryPages val) + m))

include hP in
/-- What holds of the pages at every insertion holds of them after a sequence of insertions. -/
theorem forM_induct :
  ∀ {es : List U64} {s s' : Pmem} {m : Multiset ℕ}, P s m → forM es insertQueue s = .ok ⟨⟩ s' →
    P s' (↑(es.flatMap entryPages) + m)
  | [], s, s', m, hs, h => by
      rw [List.forM_nil, pure_apply] at h
      simp only [EStateM.Result.ok.injEq, true_and] at h
      subst h
      rw [List.flatMap_nil, Multiset.coe_nil, Multiset.zero_add]
      exact hs
  | e :: es, s, s', m, hs, h => by
      rw [List.forM_cons] at h
      obtain ⟨⟨⟩, s₁, hinsert, h⟩ := bind_eq_ok.mp h
      have hrest := forM_induct (hP hs hinsert) h
      rw [List.flatMap_cons, ← Multiset.coe_add, Multiset.add_comm (entryPages e : Multiset ℕ),
        Multiset.add_assoc]
      exact hrest

include hP in
theorem pageallocFree_induct {addr size : U64} {s s' : Pmem} {m : Multiset ℕ}
    (hs : P { s with freeMem := s.freeMem + size } m)
    (h : pageallocFree addr size s = .ok ⟨⟩ s') :
  addr.toNat % 4096 = 0 ∧ size.toNat % 4096 = 0
    ∧ P s' (↑(filedPages (addr.toNat / 4096) (size.toNat / 4096)) + m)
  := by
  have haligned : addr.toNat % 4096 = 0 ∧ size.toNat % 4096 = 0 := by
    rw [pageallocFree] at h
    split at h
    next => cases h
    next haddr =>
      split at h
      next => cases h
      next hsize =>
        rw [not_not, umod_page_eq_zero] at haddr hsize
        exact ⟨haddr, hsize⟩
  obtain ⟨es, hfree, hpages⟩ := pageallocFree_entries haligned.1 haligned.2
  rw [hfree, bind_of_ok (modify_apply _ _)] at h
  have hP' := forM_induct hP hs h
  rw [hpages] at hP'
  exact ⟨haligned.1, haligned.2, hP'⟩

end Induct

/-- `pagealloc_free` of a range below `2 ^ 56` adds the pages of the range. -/
theorem pageallocFree_ok {addr size : U64} {s s' : Pmem} (hclean : s.btmLevel.Clean)
    (hbound : addr.toNat + size.toNat ≤ 2 ^ 56) (h : pageallocFree addr size s = .ok ⟨⟩ s')
    (hall : AllAtHead s'.hist) :
  addr.toNat % 4096 = 0 ∧ size.toNat % 4096 = 0
    ∧ s'.btmLevel.Clean ∧ s'.freeMem = s.freeMem + size
    ∧ pages s'.btmLevel = ↑(rangePages addr (size.toNat / 4096)) + pages s.btmLevel
  := by
  let P : Pmem → Multiset ℕ → Prop := fun t m => AllAtHead t.hist →
    t.btmLevel.Clean ∧ t.freeMem = s.freeMem + size ∧ pages t.btmLevel = m
  have hP : ∀ {t m val t'}, P t m → insertQueue val t = .ok ⟨⟩ t' →
      P t' (↑(entryPages val) + m) := by
    intro t m val t' ht hinsert hall'
    have hgrows := grows_insertWith enqueues_back val t
    rw [show insertWith queueTryenqueue val t = .ok ⟨⟩ t' from hinsert] at hgrows
    obtain ⟨hclean₁, hfree₁, hpages₁⟩ := ht (hall'.of_grows hgrows)
    obtain ⟨hclean₂, hpages₂, hfree₂⟩ := insertWith_ok enqueues_back hclean₁ hinsert hall'
    exact ⟨hclean₂, hfree₂.trans hfree₁, by rw [hpages₂, hpages₁]⟩
  have hs : P { s with freeMem := s.freeMem + size } (pages s.btmLevel) :=
    fun _ => ⟨hclean, rfl, rfl⟩
  obtain ⟨haddr, hsize, hs'⟩ := pageallocFree_induct hP hs h
  obtain ⟨hclean', hfree', hpages'⟩ := hs' hall
  rw [filedPages_eq_range' (by omega)] at hpages'
  exact ⟨haddr, hsize, hclean', hfree', hpages'⟩

/-! ### Allocating -/

/-- A page count fits the `int32_t` it is kept in. -/
theorem toInt32_pgCnt (e : U64) :
  toInt32 (getPgCnt e).toNat = (getPgCnt e).toNat
  := by
  apply toInt32_of_lt
  have := getPgCnt_le e
  omega

/-- `Takes pgCnt size s r s'`: from `s` to `s'`, the `pgCnt` pages from `r` on have left the
free queue and `size` bytes the count, or, when `r` is `none`, nothing has. -/
def Takes (pgCnt : ℕ) (size : U64) (s : Pmem) (r : Option U64) (s' : Pmem) : Prop :=
  s'.btmLevel.Clean ∧ match r with
  | some a => a.toNat % 4096 = 0 ∧ pages s.btmLevel = ↑(rangePages a pgCnt) + pages s'.btmLevel
      ∧ s'.freeMem = s.freeMem - size
  | none => pages s'.btmLevel = pages s.btmLevel ∧ s'.freeMem = s.freeMem

theorem Takes.trans {pgCnt : ℕ} {size : U64} {s s₁ s' : Pmem} {r : Option U64}
    (hpages : pages s₁.btmLevel = pages s.btmLevel) (hfree : s₁.freeMem = s.freeMem)
    (h : Takes pgCnt size s₁ r s') :
  Takes pgCnt size s r s'
  := by
  cases r with
  | some a =>
      obtain ⟨hclean, ha, hp, hf⟩ := h
      exact ⟨hclean, ha, hpages.symm.trans hp, by rw [hf, hfree]⟩
  | none =>
      obtain ⟨hclean, hp, hf⟩ := h
      exact ⟨hclean, hp.trans hpages, hf.trans hfree⟩

theorem pages_trydequeue {q q' : Queue} {deq : U64} (h : q.InRange)
    (hdeq : queueTrydequeue q = some (deq, q')) :
  pages q = ↑(entryPages deq) + pages q'
  := by
  rw [pages, pages, Queue.live_trydequeue h hdeq, List.flatMap_cons, Multiset.coe_add]

/-- Putting a dequeued entry back leaves the pages as they were. -/
theorem requeue_ok {s s' : Pmem} {deq : U64} {q : Queue} (hclean : s.btmLevel.Clean)
    (hdeq : queueTrydequeue s.btmLevel = some (deq, q))
    (h : insertQueue deq { s with btmLevel := q } = .ok ⟨⟩ s') (hall : AllAtHead s'.hist) :
  s'.btmLevel.Clean ∧ pages s'.btmLevel = pages s.btmLevel ∧ s'.freeMem = s.freeMem
  := by
  obtain ⟨hclean', hpages', hfree'⟩ := insertWith_ok enqueues_back
    (by exact Queue.clean_trydequeue hclean hdeq) h hall
  refine ⟨hclean', ?_, hfree'⟩
  rw [hpages', pages_trydequeue hclean.toInRange hdeq]

/-- The pages of the queue have numbers below `2 ^ 44`, as those of addresses below `2 ^ 56`. -/
def PagesBelow (q : Queue) : Prop := ∀ p ∈ pages q, p < 2 ^ 44

/-- An entry with enough pages splits into the pages returned and the entry put back. -/
theorem allocEntry_ok {s s' : Pmem} {deq : U64} {q : Queue} {pgCnt : ℕ} {size : U64}
    {r : Option U64} (hclean : s.btmLevel.Clean) (hbelow : PagesBelow s.btmLevel)
    (hdeq : queueTrydequeue s.btmLevel = some (deq, q)) (henough : pgCnt ≤ (getPgCnt deq).toNat)
    (h : allocEntry deq pgCnt size { s with btmLevel := q } = .ok r s')
    (hall : AllAtHead s'.hist) :
  Takes pgCnt size s r s'
  := by
  have hclean₀ := Queue.clean_trydequeue hclean hdeq
  have hpages := pages_trydequeue hclean.toInRange hdeq
  have hle := getPgCnt_le deq
  have hpos := getPgCnt_pos deq
  have haddr := getAddr_lt deq
  have hmod := getAddr_mod deq
  have hend : (getAddr deq).toNat / 4096 + (getPgCnt deq).toNat ≤ 2 ^ 44 := by
    have hlast : (getAddr deq).toNat / 4096 + (getPgCnt deq).toNat - 1 ∈ entryPages deq :=
      mem_entryPages.mpr ⟨by omega, by omega⟩
    have := hbelow _ (by rw [hpages]; exact Multiset.mem_add.mpr (.inl hlast))
    omega
  have hpg : (BitVec.ofInt 64 (pgCnt : ℤ)).toNat = pgCnt := by
    rw [BitVec.ofInt_natCast, BitVec.toNat_ofNat]
    omega
  have hrest : (getPgCnt deq - BitVec.ofInt 64 pgCnt).toNat = (getPgCnt deq).toNat - pgCnt := by
    rw [BitVec.toNat_sub_of_le (by rw [BitVec.le_def]; omega), hpg]
  have hrest32 : toInt32 ((getPgCnt deq).toNat - pgCnt) = ((getPgCnt deq).toNat - pgCnt : ℕ) :=
    toInt32_of_lt (by omega)
  rw [allocEntry, hrest, hrest32] at h
  obtain ⟨⟨⟩, s₁, hput, h⟩ := bind_eq_ok.mp h
  rw [bind_of_ok (modify_apply _ _), pure_apply] at h
  simp only [EStateM.Result.ok.injEq] at h
  obtain ⟨rfl, rfl⟩ := h
  split at hput
  next hsome =>
    obtain ⟨hclean₁, hpages₁, hfree₁⟩ := insertWith_ok enqueues_front (by exact hclean₀) hput hall
    have hnaddr : (getAddr deq + BitVec.ofInt 64 pgCnt * btmLevel).toNat
        = (getAddr deq).toNat + pgCnt * 4096 := by
      rw [BitVec.toNat_add, BitVec.toNat_mul, hpg, show btmLevel.toNat = 4096 from rfl]
      omega
    have hcnt : (BitVec.ofInt 64 (((getPgCnt deq).toNat - pgCnt : ℕ) : ℤ)).toNat
        = (getPgCnt deq).toNat - pgCnt := by
      rw [BitVec.ofInt_natCast, BitVec.toNat_ofNat]
      omega
    have hsplit : entryPages deq = rangePages (getAddr deq) pgCnt
        ++ List.range' (((getAddr deq).toNat + pgCnt * 4096) / 4096)
          ((getPgCnt deq).toNat - pgCnt) := by
      have hcnt : (getPgCnt deq).toNat = pgCnt + ((getPgCnt deq).toNat - pgCnt) := by omega
      have hpage : ((getAddr deq).toNat + pgCnt * 4096) / 4096
          = (getAddr deq).toNat / 4096 + pgCnt := by
        omega
      rw [entryPages, rangePages, hpage, List.range'_append_1, ← hcnt]
    refine ⟨hclean₁, hmod, ?_, by rw [← hfree₁]⟩
    rw [hpages, hpages₁, entryPages_buildEntry (by omega) (by omega) (by omega), hnaddr, hcnt,
      ← Multiset.add_assoc, Multiset.coe_add, hsplit]
  next hnone =>
    rw [pure_apply] at hput
    simp only [EStateM.Result.ok.injEq, true_and] at hput
    subst hput
    have hall' : (getPgCnt deq).toNat = pgCnt := by omega
    refine ⟨hclean₀, hmod, ?_, rfl⟩
    rw [hpages, entryPages, hall', rangePages]

/-- The inner loop of `pagealloc_alloc` takes the pages it returns. -/
theorem allocScan_ok {flags : BitVec 32} {pgCnt : ℕ} {size : U64} :
  ∀ {turns : ℕ} {s s' : Pmem} {r : Option U64}, s.btmLevel.Clean → PagesBelow s.btmLevel →
    allocScan flags pgCnt size turns s = .ok r s' → AllAtHead s'.hist →
    Takes pgCnt size s r s'
  | 0, s, s', r, hclean, hbelow, h, hall => by
      rw [allocScan, pure_apply] at h
      simp only [EStateM.Result.ok.injEq] at h
      obtain ⟨rfl, rfl⟩ := h
      exact ⟨hclean, rfl, rfl⟩
  | turns + 1, s, s', r, hclean, hbelow, h, hall => by
      rw [allocScan, bind_of_ok (get_apply s)] at h
      cases hdeq : queueTrydequeue s.btmLevel with
      | none =>
          rw [hdeq] at h
          cases h
      | some p =>
          obtain ⟨deq, q⟩ := p
          rw [hdeq] at h
          simp only [bind_of_ok (set_apply _ _), toInt32_pgCnt] at h
          -- both branches that put the entry back go on in the same way
          have hrest : ∀ {s₁}, insertQueue deq { s with btmLevel := q } = .ok ⟨⟩ s₁ →
              allocScan flags pgCnt size turns s₁ = .ok r s' → Takes pgCnt size s r s' := by
            intro s₁ hput hrest
            have hgrows := grows_allocScan flags pgCnt size turns s₁
            rw [hrest] at hgrows
            obtain ⟨hclean₁, hpages₁, hfree₁⟩ :=
              requeue_ok hclean hdeq hput (hall.of_grows hgrows)
            apply Takes.trans hpages₁ hfree₁
            apply allocScan_ok hclean₁ (by rw [PagesBelow, hpages₁]; exact hbelow) hrest hall
          split at h
          next =>
            obtain ⟨⟨⟩, s₁, hput, h⟩ := bind_eq_ok.mp h
            apply hrest hput h
          next =>
            split at h
            next henough => exact allocEntry_ok hclean hbelow hdeq (by omega) h hall
            next =>
              obtain ⟨⟨⟩, s₁, hput, h⟩ := bind_eq_ok.mp h
              apply hrest hput h

/-- What `pagealloc_alloc` returned, as the address of the pages it took; `-1` is none. -/
def allocated (r : U64) : Option U64 := if r = -1 then none else some r

theorem allocated_of_aligned {a : U64} (h : a.toNat % 4096 = 0) :
  allocated a = some a
  := by
  apply if_neg
  rintro rfl
  revert h
  decide

/-- The outer loop of `pagealloc_alloc` takes the pages it returns. -/
theorem allocLoop_ok {flags : BitVec 32} {pgCnt : ℕ} {size : U64} :
  ∀ {turns : ℕ} {s s' : Pmem} {r : U64}, s.btmLevel.Clean → PagesBelow s.btmLevel →
    allocLoop flags pgCnt size turns s = .ok r s' → AllAtHead s'.hist →
    Takes pgCnt size s (allocated r) s'
  | 0, s, s', r, hclean, hbelow, h, hall => by
      rw [allocLoop, pure_apply] at h
      simp only [EStateM.Result.ok.injEq] at h
      obtain ⟨rfl, rfl⟩ := h
      exact ⟨hclean, rfl, rfl⟩
  | turns + 1, s, s', r, hclean, hbelow, h, hall => by
      rw [allocLoop, bind_of_ok (get_apply s)] at h
      obtain ⟨found, s₁, hscan, h⟩ := bind_eq_ok.mp h
      cases found with
      | some a =>
          change (pure a : Program Pmem U64) s₁ = .ok r s' at h
          rw [pure_apply] at h
          simp only [EStateM.Result.ok.injEq] at h
          obtain ⟨rfl, rfl⟩ := h
          have htakes := allocScan_ok hclean hbelow hscan hall
          rw [allocated_of_aligned htakes.2.1]
          exact htakes
      | none =>
          obtain ⟨⟨⟩, s₂, hcompact, h⟩ := bind_eq_ok.mp h
          have hgrows := grows_allocLoop flags pgCnt size turns s₂
          rw [h] at hgrows
          have hgrows₁ := grows_compact s₁
          rw [hcompact] at hgrows₁
          have hall₂ := hall.of_grows hgrows
          obtain ⟨hclean₁, hpages₁, hfree₁⟩ :=
            allocScan_ok hclean hbelow hscan (hall₂.of_grows hgrows₁)
          obtain ⟨hclean₂, hpages₂, hfree₂⟩ := compact_ok hclean₁ hcompact hall₂
          have hpages := hpages₂.trans hpages₁
          apply Takes.trans hpages (hfree₂.trans hfree₁)
          apply allocLoop_ok hclean₂ (by rw [PagesBelow, hpages]; exact hbelow) h hall

/-- `pagealloc_alloc` takes the pages it returns, and no others. -/
theorem pageallocAlloc_ok {flags : BitVec 32} {size : U64} {s s' : Pmem} {r : U64}
    (hsize : size.toNat < 2 ^ 32) (hclean : s.btmLevel.Clean) (hbelow : PagesBelow s.btmLevel)
    (h : pageallocAlloc flags size s = .ok r s') (hall : AllAtHead s'.hist) :
  Takes ((align size btmLevel).toNat / 4096) (align size btmLevel) s (allocated r) s'
  := by
  have halign : (align size btmLevel).toNat ≤ 2 ^ 32 := by
    rw [show btmLevel = kib 4 from rfl, toNat_align_page (by omega)]
    omega
  have hdiv : (align size btmLevel / btmLevel).toNat = (align size btmLevel).toNat / 4096 := by
    rw [BitVec.toNat_udiv]
    rfl
  rw [pageallocAlloc, hdiv, toInt32_of_lt (by omega)] at h
  exact allocLoop_ok hclean hbelow h hall

end PhysMem
