import Gubernatrix.BootInfo
import Gubernatrix.PhysMem.Pages

/-!
# The page allocator at boot

`pmem_init` frees every entry of the recorded memory map, whatever its type, after rounding
its address up and its length down to pages, one apart from the other. All pages that get
free this way are usable just when each entry that contributes pages is of available memory
and its rounded range still ends within it, and no compaction merges off the head of its
window; a compaction that does leaves page 0 among the free ones.
-/

namespace PhysMem

open Program BootInfo

/-- `queue_init` of `btm_level` with `bootstrap_alloc_pos` at `pos`: `none` when it fails. A
length that `malloc` accepts although it is negative makes no ring. -/
def queueInit (pos : U64) (sz : ℤ) : Program Pmem (Option Queue) :=
  match bootstrapMalloc pos (BitVec.ofInt 64 sz * 8) with
  | none => pure none
  | some _ => if sz < 0 then throw .fault else pure (some (Queue.init sz.toNat))

/-- The loop of `pmem_init` over the memory map. -/
def freeRegions : List MemMap → Program Pmem Unit
  | [] => pure ⟨⟩
  | e :: es => do
      let len := if e.len % btmLevel ≠ 0 then e.len - e.len % btmLevel else e.len
      let addr := align e.addr btmLevel
      pageallocFree addr len
      freeRegions es

/-- `pmem_init`. -/
def pmemInit (pos : U64) (bInfo : Info) : Program Pmem Unit := do
  let memSize := bInfo.memorySize
  let btmSz := toInt32 (align memSize btmLevel / btmLevel).toNat
  match ← queueInit pos (btmSz.tdiv 2 + 1) with
  | none => throw (.panic "Queue init failure!")
  | some q => do
      modify fun s => { s with btmLevel := q }
      freeRegions (bInfo.memoryMap.take bInfo.memoryMapCount)

/-- `set_bootinfo` and then `pmem_init`, with `bootstrap_alloc_pos` at `pos` for the one and
at `pos'` for the other. -/
def bootPmem (pos pos' kernelEndPhys : U64) (mmap : List MultibootMemoryMap) :
    Program Pmem Unit :=
  match setBootinfo pos kernelEndPhys mmap with
  | none => throw .fault
  | some bInfo => pmemInit pos' bInfo

/-! ### The page that a compaction makes up -/

theorem drop_subset_cons {α : Type} (x : α) (l : List α) {n : ℕ} :
  l.drop n ⊆ (x :: l).drop n
  := by
  cases n with
  | zero => exact List.subset_cons_self x l
  | succ n =>
      rw [List.drop_succ_cons]
      exact (List.drop_subset_drop_left l (Nat.le_succ n))

/-- The last slot that a sweep clears comes after at least as many slots as were cleared
before. -/
theorem zero_mem_drop_sweepSlots (x : U64) (l : List U64) (h : 0 < sweepCnt x l) :
  0 ∈ (sweepSlots x l).drop (sweepCnt x l - 1)
  := by
  fun_induction sweepSlots x l with
  | case1 x y z l hm ih =>
      rw [sweepCnt, if_pos hm] at h ⊢
      rw [Nat.add_sub_cancel]
      by_cases hmore : 0 < sweepCnt (mergeEntries x y) (z :: l)
      · have := ih hmore
        obtain ⟨c, hc⟩ : ∃ c, sweepCnt (mergeEntries x y) (z :: l) = c + 1 :=
          ⟨_, (Nat.succ_pred_eq_of_pos hmore).symm⟩
        rw [hc] at this ⊢
        exact this
      · rw [Nat.eq_zero_of_not_pos hmore, List.drop_zero]
        exact List.mem_cons_self
  | case2 x y z l hm ih =>
      rw [sweepCnt, if_neg hm] at h ⊢
      exact drop_subset_cons _ _ (ih h)
  | case3 _ _ hl =>
      rcases short_of_ne hl with rfl | ⟨y, rfl⟩
      · cases h
      · cases h

/-- A merge behind an unmerged entry leaves a cleared slot among the entries. -/
theorem zero_mem_of_not_mergesAtHead (x : U64) (l : List U64) (h : ¬ MergesAtHead x l) :
  0 ∈ (sweepSlots x l).drop (sweepCnt x l)
  := by
  fun_induction sweepSlots x l with
  | case1 x y z l hm ih =>
      rw [MergesAtHead, if_pos hm] at h
      rw [sweepCnt, if_pos hm, List.drop_succ_cons]
      exact ih h
  | case2 x y z l hm ih =>
      rw [MergesAtHead, if_neg hm, ← sweepCnt_eq_zero] at h
      rw [sweepCnt, if_neg hm]
      obtain ⟨c, hc⟩ : ∃ c, sweepCnt y (z :: l) = c + 1 :=
        ⟨_, (Nat.succ_pred_eq_of_pos (Nat.pos_of_ne_zero h)).symm⟩
      have hzero := zero_mem_drop_sweepSlots y (z :: l) (Nat.pos_of_ne_zero h)
      rw [hc] at hzero ⊢
      exact hzero
  | case3 _ _ hl =>
      rcases short_of_ne hl with rfl | ⟨y, rfl⟩
      · exact absurd trivial h
      · exact absurd trivial h

/-- A compaction that does not merge at the head leaves page 0 described, and one that finds it
described keeps it. -/
theorem compactQueue_page_zero {q : Queue} (h : q.InRange) (hpos : 0 < q.liveCnt)
    (hzero : ¬ CompactsAtHead q ∨ 0 ∈ pages q) :
  ∃ q', compactQueue q = some q' ∧ q'.InRange ∧ 0 ∈ pages q'
  := by
  obtain ⟨x, l, q', hsorted, hperm, -, hq', hrange, -, -, -, hlive, -⟩ := compactQueue_live h hpos
  refine ⟨q', hq', hrange, ?_⟩
  rw [pages, hlive, Multiset.mem_coe]
  by_cases hhead : MergesAtHead x l
  · have hzero' : 0 ∈ pages q := by
      rw [CompactsAtHead, hsorted] at hzero
      exact hzero.resolve_left (not_not.mpr hhead)
    rw [(pages_drop_sweepSlots x l hhead).mem_iff, (hperm.flatMap_right _).mem_iff]
    exact hzero'
  · rw [List.mem_flatMap]
    exact ⟨0, zero_mem_of_not_mergesAtHead x l hhead, List.mem_singleton.mpr rfl⟩

/-! ### What the entries of the memory map add -/

/-- As long as compactions merge at the head, the queue describes the pages `m`; after one that
did not, page 0 is among those it describes. -/
structure Tracks (s : Pmem) (m : Multiset ℕ) : Prop where
  inRange : s.btmLevel.InRange
  of_atHead : AllAtHead s.hist → s.btmLevel.Clean ∧ pages s.btmLevel = m
  of_not_atHead : ¬ AllAtHead s.hist → 0 ∈ pages s.btmLevel

theorem tracks_init {sz : ℕ} (h : 0 < sz) {s : Pmem} (hs : s.hist = []) :
  Tracks { s with btmLevel := Queue.init sz } 0
  where
  inRange := (Queue.clean_init h).toInRange
  of_atHead _ := ⟨Queue.clean_init h, rfl⟩
  of_not_atHead hnot := by
    exfalso
    apply hnot
    intro e he
    rw [hs] at he
    exact absurd he List.not_mem_nil

theorem Tracks.tryenqueue {s : Pmem} {m : Multiset ℕ} {val : U64} {q : Queue} (h : Tracks s m)
    (hq : queueTryenqueue s.btmLevel val = some q) :
  Tracks { s with btmLevel := q } (↑(entryPages val) + m)
  where
  inRange := enqueues_back.inRange h.inRange hq
  of_atHead hall := by
    obtain ⟨hclean, hpages⟩ := h.of_atHead hall
    exact ⟨enqueues_back.clean hclean hq, by rw [enqueues_back.pages_eq h.inRange hq, hpages]⟩
  of_not_atHead hnot := by
    rw [enqueues_back.pages_eq h.inRange hq]
    exact Multiset.mem_add.mpr (.inr (h.of_not_atHead hnot))

/-- Compacting a full ring that holds entries. -/
theorem Tracks.compact {s : Pmem} {m : Multiset ℕ} (h : Tracks s m) (hpos : 0 < s.btmLevel.liveCnt)
    {q : Queue} (hq : compactQueue s.btmLevel = some q) :
  Tracks { s with
    btmLevel := q, hist := .compact s.btmLevel :: .ringFull s.btmLevel :: s.hist } m
  := by
  have hiff : AllAtHead (.compact s.btmLevel :: .ringFull s.btmLevel :: s.hist)
      ↔ CompactsAtHead s.btmLevel ∧ AllAtHead s.hist := by
    simp [AllAtHead, Event.AtHead]
  refine ⟨?_, ?_, ?_⟩
  · obtain ⟨q', hq', hrange⟩ := compactQueue_inRange h.inRange
    rw [hq] at hq'
    obtain rfl := Option.some.inj hq'
    exact hrange
  · intro hall
    obtain ⟨hhead, hall⟩ := hiff.mp hall
    obtain ⟨hclean, hpages⟩ := h.of_atHead hall
    obtain ⟨q', hq', hclean', -, hpages'⟩ := compactQueue_clean hclean hhead
    rw [hq] at hq'
    obtain rfl := Option.some.inj hq'
    exact ⟨hclean', hpages'.trans hpages⟩
  · intro hnot
    have hzero : ¬ CompactsAtHead s.btmLevel ∨ 0 ∈ pages s.btmLevel := by
      by_cases hhead : CompactsAtHead s.btmLevel
      · exact .inr (h.of_not_atHead fun hall => hnot (hiff.mpr ⟨hhead, hall⟩))
      · exact .inl hhead
    obtain ⟨q', hq', -, hmem⟩ := compactQueue_page_zero h.inRange hpos hzero
    rw [hq] at hq'
    obtain rfl := Option.some.inj hq'
    exact hmem

/-- An insertion adds the pages of its entry. -/
theorem tracks_insertQueue {s s' : Pmem} {m : Multiset ℕ} {val : U64} (h : Tracks s m)
    (hinsert : insertQueue val s = .ok ⟨⟩ s') :
  Tracks s' (↑(entryPages val) + m)
  := by
  rw [insertQueue, insertWith, bind_of_ok (get_apply s)] at hinsert
  cases hq : queueTryenqueue s.btmLevel val with
  | some q =>
      rw [hq] at hinsert
      simp only [set_apply, EStateM.Result.ok.injEq, true_and] at hinsert
      subst hinsert
      exact h.tryenqueue hq
  | none =>
      rw [hq] at hinsert
      simp only [bind_of_ok (set_apply _ _)] at hinsert
      obtain ⟨q₁, hq₁, hrange₁⟩ := compactQueue_inRange h.inRange
      have hcompact : PhysMem.compact { s with hist := .ringFull s.btmLevel :: s.hist }
          = .ok ⟨⟩ { s with
            btmLevel := q₁, hist := .compact s.btmLevel :: .ringFull s.btmLevel :: s.hist } := by
        rw [PhysMem.compact, bind_of_ok (get_apply _)]
        dsimp only
        rw [hq₁]
        rfl
      rw [bind_of_ok hcompact, bind_of_ok (get_apply _)] at hinsert
      cases hq₂ : queueTryenqueue q₁ val with
      | none =>
          simp only [hq₂] at hinsert
          cases hinsert
      | some q₂ =>
          simp only [hq₂, set_apply, EStateM.Result.ok.injEq, true_and] at hinsert
          subst hinsert
          have hpos : 0 < s.btmLevel.liveCnt := by
            -- a ring of one slot stays full
            by_contra hzero
            have hfull := (enqueues_back.none_iff h.inRange).mp hq
            have hsize := compactQueue_size hq₁
            have hlt := hrange₁.liveCnt_lt
            have hnone : queueTryenqueue q₁ val = none :=
              (enqueues_back.none_iff hrange₁).mpr (by omega)
            rw [hnone] at hq₂
            cases hq₂
          exact (h.compact hpos hq₁).tryenqueue hq₂

/-- The number of the first page that `pmem_init` frees for an entry. -/
def firstPage (e : MemMap) : ℕ := (align e.addr btmLevel).toNat / 4096

/-- The number of pages that `pmem_init` frees for an entry. -/
def pageCnt (e : MemMap) : ℕ := e.len.toNat / 4096

/-- The pages that `pmem_init` frees for an entry, as they are filed. -/
def entryFiled (e : MemMap) : List ℕ := filedPages (firstPage e) (pageCnt e)

theorem toNat_len_down (len : U64) :
  (if len % btmLevel ≠ 0 then len - len % btmLevel else len).toNat = len.toNat / 4096 * 4096
  := by
  have hmod : (len % btmLevel).toNat = len.toNat % 4096 := by
    rw [BitVec.toNat_umod]
    rfl
  split
  next =>
    rw [BitVec.toNat_sub_of_le (by rw [BitVec.le_def, hmod]; exact Nat.mod_le _ _), hmod]
    omega
  next hzero =>
    rw [not_not, umod_page_eq_zero] at hzero
    omega

/-- The loop of `pmem_init` adds the pages of all entries. -/
theorem tracks_freeRegions :
  ∀ {es : List MemMap} {s s' : Pmem} {m : Multiset ℕ}, Tracks s m →
    freeRegions es s = .ok ⟨⟩ s' → Tracks s' (↑(es.flatMap entryFiled) + m)
  | [], s, s', m, hs, h => by
      rw [freeRegions, pure_apply] at h
      simp only [EStateM.Result.ok.injEq, true_and] at h
      subst h
      rw [List.flatMap_nil, Multiset.coe_nil, Multiset.zero_add]
      exact hs
  | e :: es, s, s', m, hs, h => by
      rw [freeRegions] at h
      obtain ⟨⟨⟩, s₁, hfree, h⟩ := bind_eq_ok.mp h
      obtain ⟨-, -, hs₁⟩ := pageallocFree_induct (P := Tracks) tracks_insertQueue
        ⟨hs.inRange, hs.of_atHead, hs.of_not_atHead⟩ hfree
      have hs' := tracks_freeRegions hs₁ h
      rw [toNat_len_down, Nat.mul_div_cancel _ (by decide), ← Multiset.add_assoc,
        Multiset.add_comm (↑(es.flatMap entryFiled) : Multiset ℕ), Multiset.coe_add] at hs'
      rw [List.flatMap_cons]
      exact hs'

theorem setBootinfo_memoryMap {pos ke : U64} {mmap : List MultibootMemoryMap} {bInfo : Info}
    (h : setBootinfo pos ke mmap = some bInfo) :
  ∃ n, bInfo.memoryMap.take bInfo.memoryMapCount
    = mmap.filterMap (recordEntry ke) ++ List.replicate n { addr := 0, len := 0, type := 0 }
  := by
  simp only [setBootinfo] at h
  split at h
  next => cases h
  next =>
    obtain rfl := Option.some.inj h
    have hle := List.length_filterMap_le (recordEntry ke) mmap
    refine ⟨mmap.length - (mmap.filterMap (recordEntry ke)).length, ?_⟩
    apply List.take_of_length_le
    dsimp only
    rw [List.length_append, List.length_replicate]
    omega

theorem pmemInit_ok {pos : U64} {bInfo : Info} {s s' : Pmem}
    (h : pmemInit pos bInfo s = .ok ⟨⟩ s') :
  ∃ sz, 0 < sz ∧ freeRegions (bInfo.memoryMap.take bInfo.memoryMapCount)
    { s with btmLevel := Queue.init sz } = .ok ⟨⟩ s'
  := by
  simp only [pmemInit] at h
  obtain ⟨q, s₁, hinit, h⟩ := bind_eq_ok.mp h
  rw [queueInit] at hinit
  generalize hlen : (toInt32 (align bInfo.memorySize btmLevel / btmLevel).toNat).tdiv 2 + 1 = sz
    at hinit
  cases hmalloc : bootstrapMalloc pos (BitVec.ofInt 64 sz * 8) with
  | none =>
      rw [hmalloc] at hinit
      cases hinit
      cases h
  | some pos' =>
      simp only [hmalloc] at hinit
      split at hinit
      next => cases hinit
      next hneg =>
        cases hinit
        refine ⟨sz.toNat, ?_, h⟩
        -- a length of zero is refused by `malloc`
        by_contra hzero
        obtain rfl : sz = 0 := by omega
        cases hmalloc

/-- After `set_bootinfo` and `pmem_init` the queue describes the pages freed for the recorded
entries, or page 0. -/
theorem tracks_bootPmem {pos pos' ke : U64} {mmap : List MultibootMemoryMap} {s : Pmem}
    (h : bootPmem pos pos' ke mmap (Pmem.init 0) = .ok ⟨⟩ s) :
  Tracks s ↑((mmap.filterMap (recordEntry ke)).flatMap entryFiled)
  := by
  rw [bootPmem] at h
  cases hinfo : setBootinfo pos ke mmap with
  | none =>
      rw [hinfo] at h
      cases h
  | some bInfo =>
      rw [hinfo] at h
      obtain ⟨sz, hsz, hfree⟩ := pmemInit_ok h
      obtain ⟨n, hmap⟩ := setBootinfo_memoryMap hinfo
      have htracks := tracks_freeRegions (tracks_init hsz rfl) hfree
      have hunused : (List.replicate n ({ addr := 0, len := 0, type := 0 } : MemMap)).flatMap
          entryFiled = [] := by
        rw [List.flatMap_eq_nil_iff]
        intro e he
        rw [List.eq_of_mem_replicate he]
        rfl
      rw [hmap, List.flatMap_append, hunused, List.append_nil, Multiset.add_zero] at htracks
      exact htracks

/-! ### Usable pages -/

/-- Page `p` lies in a region of available memory, at or above 2 MiB, and apart from the
kernel. -/
def Usable (mmap : List MultibootMemoryMap) (kernelEndPhys : U64) (p : ℕ) : Prop :=
  (∃ e ∈ mmap, e.type = multibootMemoryAvailable ∧ e.addr.toNat ≤ 4096 * p
      ∧ 4096 * p + 4096 ≤ e.addr.toNat + e.len.toNat)
    ∧ 2 ^ 21 ≤ 4096 * p
    ∧ ∀ b, 4096 * p ≤ b → b < 4096 * p + 4096 →
        ¬ (kernelStartPhys.toNat ≤ b ∧ b < kernelEndPhys.toNat)

/-- A recorded entry of at least a page is of available memory, and rounding its address up and
its length down stays within it. Pages from `2 ^ 44` on are filed under other numbers, of
which each must be usable. -/
def EntryOk (mmap : List MultibootMemoryMap) (kernelEndPhys : U64) (e : MemMap) : Prop :=
  0 < pageCnt e →
    if firstPage e + pageCnt e ≤ 2 ^ 44 then
      e.type = multibootMemoryAvailable
        ∧ 4096 * (firstPage e + pageCnt e) ≤ e.addr.toNat + e.len.toNat
    else ∀ p ∈ entryFiled e, Usable mmap kernelEndPhys p

theorem apart_unique {mmap : List MultibootMemoryMap} (hapart : mmap.Pairwise Apart)
    {e e' : MultibootMemoryMap} (he : e ∈ mmap) (he' : e' ∈ mmap) {b : ℕ}
    (hb : e.addr.toNat ≤ b ∧ b < e.addr.toNat + e.len.toNat)
    (hb' : e'.addr.toNat ≤ b ∧ b < e'.addr.toNat + e'.len.toNat) :
  e = e'
  := by
  by_contra hne
  exact hapart.forall he he' hne b hb.1 hb.2 hb'.1 hb'.2

/-- The first page is the first that begins in the entry. -/
theorem firstPage_spec {e : MemMap} (hpos : 0 < pageCnt e)
    (hwrap : e.addr.toNat + e.len.toNat ≤ 2 ^ 64) :
  e.addr.toNat ≤ 4096 * firstPage e ∧ 4096 * firstPage e < e.addr.toNat + 4096
  := by
  rw [pageCnt] at hpos
  rw [firstPage, show btmLevel = kib 4 from rfl, toNat_align_page (by omega)]
  omega

section Boot

variable {pos pos' ke : U64} {mmap : List MultibootMemoryMap} {s : Pmem}

/-- The pages of an entry that is `EntryOk` are usable. -/
theorem usable_of_entryOk (hwrap : ∀ e ∈ mmap, NoWrap e) {e : MultibootMemoryMap} {m : MemMap}
    (he : e ∈ mmap) (hm : recordEntry ke e = some m) (hok : EntryOk mmap ke m) {p : ℕ}
    (hp : p ∈ entryFiled m) :
  Usable mmap ke p
  := by
  have hpos : 0 < pageCnt m := by
    rw [Nat.pos_iff_ne_zero]
    intro hzero
    rw [entryFiled, hzero, filedPages_zero] at hp
    exact absurd hp List.not_mem_nil
  obtain ⟨htype, haddr, hlow, hkernel, hend⟩ := recordEntry_spec (hwrap e he) hm
  have hfirst := firstPage_spec hpos (by rw [hend]; exact hwrap e he)
  specialize hok hpos
  split at hok
  next hbelow =>
    obtain ⟨havail, hin⟩ := hok
    rw [entryFiled, filedPages_eq_range' hbelow, List.mem_range'_1] at hp
    refine ⟨⟨e, he, htype.symm.trans havail, by omega, by omega⟩, by omega, ?_⟩
    rintro b hb - ⟨-, hbk⟩
    omega
  next => exact hok p hp

/-- An entry whose pages are all usable is `EntryOk`. -/
theorem entryOk_of_usable (hwrap : ∀ e ∈ mmap, NoWrap e) (hapart : mmap.Pairwise Apart)
    {e : MultibootMemoryMap} {m : MemMap} (he : e ∈ mmap) (hm : recordEntry ke e = some m)
    (h : ∀ p ∈ entryFiled m, Usable mmap ke p) :
  EntryOk mmap ke m
  := by
  intro hpos
  obtain ⟨htype, haddr, hlow, hkernel, hend⟩ := recordEntry_spec (hwrap e he) hm
  have hfirst := firstPage_spec hpos (by rw [hend]; exact hwrap e he)
  split
  next hbelow =>
    -- the last page begins in the entry, so the region it lies in is that of the entry
    obtain ⟨⟨e', he', havail, hin, hout⟩, -, -⟩ := h (firstPage m + pageCnt m - 1) (by
      rw [entryFiled, filedPages_eq_range' hbelow, List.mem_range'_1]
      omega)
    have hlast : 4096 * pageCnt m ≤ m.len.toNat := by
      rw [pageCnt]
      omega
    obtain rfl := apart_unique hapart he he' (b := 4096 * (firstPage m + pageCnt m - 1))
      ⟨by omega, by omega⟩ ⟨hin, by omega⟩
    exact ⟨htype.trans havail, by omega⟩
  next => exact h

/-- After `set_bootinfo` and `pmem_init`, all free pages are usable just when every recorded
entry of at least a page is of available memory and, with its address rounded up and its
length rounded down, stays within itself, and the compactions merged only at the head of
their window. -/
theorem free_pages_usable_iff (hwrap : ∀ e ∈ mmap, NoWrap e) (hapart : mmap.Pairwise Apart)
    (hboot : bootPmem pos pos' ke mmap (Pmem.init 0) = .ok ⟨⟩ s) :
  (∀ p ∈ pages s.btmLevel, Usable mmap ke p)
    ↔ (∀ e ∈ mmap, ∀ m, recordEntry ke e = some m → EntryOk mmap ke m) ∧ AllAtHead s.hist
  := by
  have htracks := tracks_bootPmem hboot
  have hmem : AllAtHead s.hist → ∀ p, p ∈ pages s.btmLevel
      ↔ ∃ e ∈ mmap, ∃ m, recordEntry ke e = some m ∧ p ∈ entryFiled m := by
    intro hall p
    rw [(htracks.of_atHead hall).2, Multiset.mem_coe, List.mem_flatMap]
    simp only [List.mem_filterMap]
    grind
  constructor
  · intro h
    have hall : AllAtHead s.hist := by
      by_contra hnot
      obtain ⟨-, hlow, -⟩ := h 0 (htracks.of_not_atHead hnot)
      omega
    refine ⟨fun e he m hm => ?_, hall⟩
    apply entryOk_of_usable hwrap hapart he hm
    intro p hp
    exact h p ((hmem hall p).mpr ⟨e, he, m, hm, hp⟩)
  · rintro ⟨hok, hall⟩ p hp
    obtain ⟨e, he, m, hm, hp⟩ := (hmem hall p).mp hp
    exact usable_of_entryOk hwrap he hm (hok e he m hm) hp

end Boot

/-- A map of one region of available memory, with the kernel at its start. -/
theorem free_pages_usable_one_region :
  ∃ s, bootPmem 0 0x100 0x202000 [⟨0x200000, 0x10000, 1⟩] (Pmem.init 0) = .ok ⟨⟩ s
    ∧ ((∀ p ∈ pages s.btmLevel, Usable [⟨0x200000, 0x10000, 1⟩] 0x202000 p)
      ↔ (∀ e ∈ [⟨0x200000, 0x10000, 1⟩], ∀ m, recordEntry 0x202000 e = some m →
          EntryOk [⟨0x200000, 0x10000, 1⟩] 0x202000 m) ∧ AllAtHead s.hist)
  := by
  obtain ⟨u, s, hboot, -⟩ := exists_of_returns (fun _ _ => True)
    (bootPmem 0 0x100 0x202000 [⟨0x200000, 0x10000, 1⟩] (Pmem.init 0)) (by decide +kernel)
  refine ⟨s, hboot, free_pages_usable_iff ?_ (List.pairwise_singleton _ _) hboot⟩
  intro e he
  rw [List.mem_singleton.mp he]
  unfold NoWrap
  decide

/-- A reserved region behind available memory is freed as well. -/
theorem free_pages_not_usable :
  ¬ ∀ (pos pos' ke : U64) (mmap : List MultibootMemoryMap) (s : Pmem),
    (∀ e ∈ mmap, NoWrap e) → mmap.Pairwise Apart →
    bootPmem pos pos' ke mmap (Pmem.init 0) = .ok ⟨⟩ s →
    ∀ p ∈ pages s.btmLevel, Usable mmap ke p
  := by
  intro h
  obtain ⟨u, s, hboot, hmem⟩ := exists_of_returns (fun _ s => 0x300 ∈ pages s.btmLevel)
    (bootPmem 0 0x100 0x200000 [⟨0x200000, 0x10000, 1⟩, ⟨0x300000, 0x1000, 2⟩] (Pmem.init 0))
    (by decide +kernel)
  obtain ⟨⟨e, he, havail, hin, hout⟩, -⟩ := h _ _ _ _ s (by
    intro e he
    rcases List.mem_pair.mp he with rfl | rfl <;> unfold NoWrap <;> decide) (by
    rw [List.pairwise_pair]
    intro b h₁ h₂ h₃ h₄
    have h₂' : b < 0x200000 + 0x10000 := h₂
    have h₃' : 0x300000 ≤ b := h₃
    omega) hboot 0x300 hmem
  rcases List.mem_pair.mp he with rfl | rfl
  · have hout' : 4096 * 0x300 + 4096 ≤ 0x200000 + 0x10000 := hout
    omega
  · exact absurd havail (by decide)

end PhysMem
