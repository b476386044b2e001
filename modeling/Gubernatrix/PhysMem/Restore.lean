import Gubernatrix.PhysMem.Shortage

/-!
# Giving memory back

`pmem_allocdma` rounds the size up to pages, cuts the pages off the front of a range, and puts back
what is left of it. `pmem_freedma` wants the size as it is, and appends the pages as a range of
their own: where the ring is full, after a compaction, which makes room only if there is something
to put together, and may lose ranges.
-/

namespace PhysMem

open Program Ring

/-- The free queue of an allocator: its entries describe disjoint ranges of pages, and where there
is none, the slots are clean. -/
structure Allocator (q : Queue) : Prop extends DisjointRanges q where
  empty : q.liveCnt = 0 → q.Clean

/-- The same pages are free, and `free_mem` is the same. -/
structure Restored (s s' : Pmem) : Prop where
  pages : ∀ p, p ∈ pages s'.btmLevel ↔ p ∈ PhysMem.pages s.btmLevel
  freeMem : s'.freeMem = s.freeMem

/-- What `pmem_allocdma` returns can be given to `pmem_freedma`, and everything is as before. -/
def Restores (s : Pmem) (sz : BitVec 32) : Prop :=
  ∀ p s', pmemAllocdma sz s = .ok p s' → p ≠ -1 →
    ∃ s'', pmemFreedma p sz s' = .ok ⟨⟩ s'' ∧ Restored s s''

/-- A compaction of the ranges puts some of them together. -/
def Merges (l : List U64) : Prop :=
  match byAddr l with
  | [] => False
  | x :: l => sweepCnt x l ≠ 0

instance (l : List U64) : Decidable (Merges l) := by
  unfold Merges
  split <;> infer_instance

/-- The slots that a compaction of the ranges moves `head` over are all clear. -/
def DropsCleared (l : List U64) : Prop :=
  match byAddr l with
  | [] => True
  | x :: l => ∀ e ∈ (sweepSlots x l).take (sweepCnt x l), e = 0

instance (l : List U64) : Decidable (DropsCleared l) := by
  unfold DropsCleared
  split <;> infer_instance

/-- The pages of a request can be taken from the range and given back. -/
structure Restorable (q : Queue) (sz : BitVec 32) (e : U64) : Prop where
  aligned : sz.toNat % 4096 = 0
  below : dmaPages sz < (getPgCnt e).toNat → (getAddr e).toNat / 4096 + dmaPages sz < 2 ^ 44
  compacted : q.live.find? (hasPages (dmaPages sz)) = none → DropsCleared q.live
  room : q.live.find? (hasPages (dmaPages sz)) = some e →
    (remainder (dmaPages sz) e ++ q.live.erase e).length + 1 = q.size →
    Merges (remainder (dmaPages sz) e ++ q.live.erase e)
      ∧ DropsCleared (remainder (dmaPages sz) e ++ q.live.erase e)

/-! ### What a compaction loses -/

section Ranges

variable {l l' : List U64}

theorem byAddr_congr (h : l.Perm l') (hdistinct : (l'.map getAddr).Nodup) :
  byAddr l = byAddr l'
  := by
  have hperm : (byAddr l).Perm l := List.perm_insertionSort _ l
  apply eq_byAddr (hperm.trans h) hdistinct (List.pairwise_insertionSort _ l)

/-- An entry that is not zero has a page besides the page 0. -/
theorem exists_page_ne_zero {e : U64} (h : e ≠ 0) :
  ∃ p ∈ entryPages e, p ≠ 0
  := by
  have haddr := toNat_getAddr e
  have hcnt := toNat_getPgCnt e
  have hne : e.toNat ≠ 0 := fun hzero => h (BitVec.eq_of_toNat_eq hzero)
  by_cases hpage : (getAddr e).toNat / 4096 = 0
  · use 1
    rw [mem_entryPages]
    omega
  · use (getAddr e).toNat / 4096
    rw [mem_entryPages]
    omega

theorem mem_pages_swept {p : ℕ} (h : p ∈ (swept l).flatMap entryPages) :
  p = 0 ∨ p ∈ l.flatMap entryPages
  := by
  cases l with
  | nil => cases h
  | cons x l =>
      obtain ⟨e, he, hp⟩ := List.mem_flatMap.mp h
      have hslots : p ∈ (sweepSlots x l).flatMap entryPages :=
        List.mem_flatMap.mpr ⟨e, List.mem_of_mem_drop he, hp⟩
      rw [(pages_sweepSlots x l).mem_iff, List.mem_append] at hslots
      apply hslots.imp_left
      intro hzero
      apply List.eq_of_mem_replicate hzero

/-- A page besides the page 0 is described as often as before, where the sweep has left a slot or
dropped one. -/
theorem count_pages_swept (x : U64) (l : List U64) {p : ℕ} (hp : p ≠ 0) :
  (((sweepSlots x l).take (sweepCnt x l)).flatMap entryPages).count p
      + ((swept (x :: l)).flatMap entryPages).count p
    = ((x :: l).flatMap entryPages).count p
  := by
  have hcount := (pages_sweepSlots x l).count_eq p
  have hzeros : (List.replicate (sweepCnt x l) 0).count p = 0 := by
    apply List.count_eq_zero.mpr
    intro hmem
    apply hp (List.eq_of_mem_replicate hmem)
  rw [← List.take_append_drop (sweepCnt x l) (sweepSlots x l), List.flatMap_append,
    List.count_append, List.count_append, hzeros, Nat.zero_add] at hcount
  exact hcount

/-- A slot with an entry that is dropped takes a page with it. -/
theorem exists_lost {x : U64} (hnodup : ((x :: l).flatMap entryPages).Nodup) {d : U64}
    (hd : d ∈ (sweepSlots x l).take (sweepCnt x l)) (hne : d ≠ 0) :
  ∃ p ∈ (x :: l).flatMap entryPages, p ≠ 0 ∧ p ∉ (swept (x :: l)).flatMap entryPages
  := by
  obtain ⟨p, hp, hp0⟩ := exists_page_ne_zero hne
  have hcount := count_pages_swept x l hp0
  have hone := List.nodup_iff_count_le_one.mp hnodup p
  have hdropped : 0 < (((sweepSlots x l).take (sweepCnt x l)).flatMap entryPages).count p :=
    List.count_pos_iff.mpr (List.mem_flatMap.mpr ⟨d, hd, hp⟩)
  use p
  constructor
  · apply List.count_pos_iff.mp
    omega
  · use hp0
    apply List.count_eq_zero.mp
    omega

theorem pages_byAddr (l : List U64) :
  ((byAddr l).flatMap entryPages).Perm (l.flatMap entryPages)
  := (List.perm_insertionSort _ l).flatMap_right _

/-- A compaction that drops clear slots only keeps the pages. -/
theorem DropsCleared.pages (h : DropsCleared l) :
  ((swept (byAddr l)).flatMap entryPages).Perm (l.flatMap entryPages)
  := by
  have hsorted := pages_byAddr l
  rw [DropsCleared] at h
  cases hl : byAddr l with
  | nil =>
      rw [hl] at hsorted
      exact hsorted
  | cons x t =>
      rw [hl] at h hsorted
      have hlt := sweepCnt_lt x t
      have htake : (sweepSlots x t).take (sweepCnt x t) = List.replicate (sweepCnt x t) 0 := by
        rw [List.eq_replicate_iff]
        constructor
        · rw [List.length_take, length_sweepSlots]
          omega
        · exact h
      exact (pages_drop_of_take x t htake).trans hsorted

/-- Another compaction loses a page. -/
theorem exists_lost_of_not_dropsCleared (hnodup : (l.flatMap entryPages).Nodup)
    (h : ¬ DropsCleared l) :
  ∃ p ∈ l.flatMap entryPages, p ≠ 0 ∧ p ∉ (swept (byAddr l)).flatMap entryPages
  := by
  have hsorted := pages_byAddr l
  rw [DropsCleared] at h
  cases hl : byAddr l with
  | nil =>
      rw [hl] at h
      apply absurd trivial h
  | cons x t =>
      rw [hl] at h hsorted
      obtain ⟨d, hd⟩ := not_forall.mp h
      obtain ⟨hmem, hne⟩ := Classical.not_imp.mp hd
      obtain ⟨p, hp, hp0, hlost⟩ := exists_lost (hsorted.nodup_iff.mpr hnodup) hmem hne
      use p, hsorted.mem_iff.mp hp

/-- A compaction makes room just when it puts ranges together. -/
theorem length_swept_byAddr (l : List U64) :
  (swept (byAddr l)).length < l.length ↔ Merges l
  := by
  have hlen : (byAddr l).length = l.length := List.length_insertionSort _ l
  rw [Merges, ← hlen]
  cases byAddr l with
  | nil => simp [swept]
  | cons x t =>
      have hlt := sweepCnt_lt x t
      rw [swept, List.length_drop, length_sweepSlots, List.length_cons]
      dsimp only
      omega

theorem swept_of_not_merges (h : ¬ Merges l) :
  swept (byAddr l) = byAddr l
  := by
  rw [Merges] at h
  cases hl : byAddr l with
  | nil => rfl
  | cons x t =>
      rw [hl] at h
      have hzero := not_not.mp h
      rw [swept, hzero, List.drop_zero, sweepSlots_of_noMerge x t ((sweepCnt_eq_zero x t).mp hzero)]

end Ranges

/-! ### Giving back -/

section Free

variable {s : Pmem}

/-- The pages of one range are given back as one entry. -/
theorem pageallocFree_eq {addr size : U64} (haddr : addr.toNat % 4096 = 0)
    (hsize : size.toNat % 4096 = 0) (hpos : 0 < size.toNat) (hlt : size.toNat < 2 ^ 32) :
  pageallocFree addr size s
    = insertQueue (buildEntry addr (size / btmLevel)) { s with freeMem := s.freeMem + size }
  := by
  have hdiv : (size / btmLevel).toNat = size.toNat / 4096 := by
    rw [BitVec.toNat_udiv]
    rfl
  have hturns : (size / btmLevel).toNat / maxEntries + 1 = 1 := by
    rw [hdiv, show maxEntries = 2 ^ 20 from rfl]
    omega
  have hall : size / btmLevel - 0 = size / btmLevel := BitVec.sub_zero _
  have hlast : ¬ size / btmLevel ≥ BitVec.ofNat 64 maxEntries := by
    rw [ge_iff_le, BitVec.le_def, toNat_maxEntries, hdiv]
    omega
  have hfirst : (0 : U64) < size / btmLevel := by
    rw [BitVec.lt_def, hdiv]
    change 0 < _
    omega
  rw [pageallocFree, if_neg (not_not.mpr (umod_page_eq_zero.mpr haddr)),
    if_neg (not_not.mpr (umod_page_eq_zero.mpr hsize)), bind_of_ok (modify_apply _ _), hturns,
    freeLoop, if_pos hfirst, hall, if_neg hlast, bind_apply]
  cases insertQueue (buildEntry addr (size / btmLevel)) { s with freeMem := s.freeMem + size } with
  | ok u s' => rfl
  | error e s' => rfl

theorem pageallocFree_misaligned {addr size : U64} (hsize : size.toNat % 4096 ≠ 0) {s' : Pmem} :
  pageallocFree addr size s ≠ .ok ⟨⟩ s'
  := by
  rw [pageallocFree]
  split
  · intro h
    cases h
  · rw [if_pos (fun hzero => hsize (umod_page_eq_zero.mp hzero))]
    intro h
    cases h

/-- In a ring with a slot left, the entry is appended. -/
theorem insertQueue_room (h : s.btmLevel.InRange)
    (hroom : s.btmLevel.liveCnt + 1 ≠ s.btmLevel.size) (val : U64) :
  ∃ s', insertQueue val s = .ok ⟨⟩ s' ∧ s'.btmLevel.live = s.btmLevel.live ++ [val]
    ∧ s'.freeMem = s.freeMem
  := by
  obtain ⟨q, hq⟩ : ∃ q, queueTryenqueue s.btmLevel val = some q :=
    Option.ne_none_iff_exists'.mp fun hnone => hroom ((Queue.tryenqueue_eq_none h).mp hnone)
  exact ⟨_, insertWith_of_some hq, Queue.live_tryenqueue h hq, rfl⟩

/-- In a full ring, the entry is inserted after a compaction. -/
theorem insertQueue_of_full {val : U64} {s₁ : Pmem}
    (hnone : queueTryenqueue s.btmLevel val = none)
    (hcompact : compact { s with hist := .ringFull s.btmLevel :: s.hist } = .ok ⟨⟩ s₁) :
  insertQueue val s = match queueTryenqueue s₁.btmLevel val with
    | some q => .ok ⟨⟩ { s₁ with btmLevel := q }
    | none => .error (.panic "Failed to enqueue entry.") s₁
  := by
  rw [insertQueue, insertWith, bind_of_ok (get_apply s), hnone]
  dsimp only
  rw [bind_of_ok (set_apply _ _), bind_of_ok hcompact, bind_of_ok (get_apply s₁)]
  cases queueTryenqueue s₁.btmLevel val with
  | some q => rfl
  | none => rfl

/-- In a full ring, the entry is appended just when the compaction puts ranges together. -/
theorem insertQueue_full (hsound : Sound s.btmLevel)
    (hfull : s.btmLevel.liveCnt + 1 = s.btmLevel.size) (val : U64) :
  (Merges s.btmLevel.live → ∃ s', insertQueue val s = .ok ⟨⟩ s'
    ∧ s'.btmLevel.live = swept (byAddr s.btmLevel.live) ++ [val] ∧ s'.freeMem = s.freeMem)
    ∧ (∀ s', insertQueue val s = .ok ⟨⟩ s' → Merges s.btmLevel.live
      ∧ s'.btmLevel.live = swept (byAddr s.btmLevel.live) ++ [val])
  := by
  obtain ⟨s₁, hcompact, hrange, hlive, -, hsize, hfree⟩ :=
    compact_run (s := { s with hist := .ringFull s.btmLevel :: s.hist }) hsound
  dsimp only at hlive hsize hfree
  have hnone : queueTryenqueue s.btmLevel val = none :=
    (Queue.tryenqueue_eq_none hsound.toInRange).mpr hfull
  have hmerges : s₁.btmLevel.liveCnt + 1 ≠ s₁.btmLevel.size ↔ Merges s.btmLevel.live := by
    have hlt := hrange.liveCnt_lt
    rw [← length_swept_byAddr, ← hlive, Queue.length_live, Queue.length_live, hsize]
    omega
  rw [insertQueue_of_full hnone hcompact]
  constructor
  · intro hm
    obtain ⟨q, hq⟩ : ∃ q, queueTryenqueue s₁.btmLevel val = some q :=
      Option.ne_none_iff_exists'.mp fun hnone =>
        hmerges.mpr hm ((Queue.tryenqueue_eq_none hrange).mp hnone)
    rw [hq]
    refine ⟨_, rfl, ?_, hfree⟩
    rw [Queue.live_tryenqueue hrange hq, hlive]
  · intro s' hs'
    cases hq : queueTryenqueue s₁.btmLevel val with
    | none =>
        rw [hq] at hs'
        cases hs'
    | some q =>
        rw [hq] at hs'
        cases hs'
        constructor
        · apply hmerges.mp
          intro hfull₁
          rw [(Queue.tryenqueue_eq_none hrange).mpr hfull₁] at hq
          cases hq
        · rw [Queue.live_tryenqueue hrange hq, hlive]

/-- Whatever the compaction does, no page comes up from nowhere but the page 0. -/
theorem mem_pages_insertQueue (h : s.btmLevel.InRange) (hpos : 2 ≤ s.btmLevel.size) {val : U64}
    {s' : Pmem} (hinsert : insertQueue val s = .ok ⟨⟩ s') {p : ℕ} (hp : p ∈ pages s'.btmLevel) :
  p = 0 ∨ p ∈ pages s.btmLevel ∨ p ∈ entryPages val
  := by
  by_cases hfull : s.btmLevel.liveCnt + 1 = s.btmLevel.size
  · have hnone : queueTryenqueue s.btmLevel val = none :=
      (Queue.tryenqueue_eq_none h).mpr hfull
    obtain ⟨x, l, q, -, hperm, -, hq, hrange, -, -, -, hlive, -⟩ :=
      compactQueue_live h (by omega)
    let s₁ : Pmem := { s with
      btmLevel := q
      hist := .compact s.btmLevel :: .ringFull s.btmLevel :: s.hist }
    have hcompact : compact { s with hist := .ringFull s.btmLevel :: s.hist } = .ok ⟨⟩ s₁ := by
      rw [compact, bind_of_ok (get_apply _), hq]
      rfl
    rw [insertQueue_of_full hnone hcompact] at hinsert
    cases hq' : queueTryenqueue s₁.btmLevel val with
    | none =>
        rw [hq'] at hinsert
        cases hinsert
    | some q' =>
        rw [hq'] at hinsert
        cases hinsert
        have hlive' : q'.live = swept (x :: l) ++ [val] := by
          rw [Queue.live_tryenqueue hrange hq', hlive]
          rfl
        rw [pages, hlive', List.flatMap_append, Multiset.mem_coe, List.mem_append] at hp
        rcases hp with hp | hp
        · rcases mem_pages_swept hp with hzero | hp
          · left
            apply hzero
          · right
            left
            apply (hperm.flatMap_right _).mem_iff.mp hp
        · right
          right
          simpa using hp
  · obtain ⟨s₁, hs₁, hlive, -⟩ := insertQueue_room h hfull val
    rw [hinsert] at hs₁
    cases hs₁
    rw [pages, hlive, List.flatMap_append, Multiset.mem_coe, List.mem_append] at hp
    right
    apply hp.imp_right
    intro hp
    simpa using hp

end Free

/-! ### Taking -/

section Taken

variable {n : ℕ} {e : U64} {l rest : List U64}

/-- What is left of a range begins after the pages taken, modulo 2^44. -/
theorem pages_remainder (h : n ≤ (getPgCnt e).toNat) :
  (remainder n e).flatMap entryPages
    = List.range' (((getAddr e).toNat / 4096 + n) % 2 ^ 44) ((getPgCnt e).toNat - n)
  := by
  have haddr := getAddr_lt e
  have hle := getPgCnt_le e
  have hpg : (BitVec.ofNat 64 n).toNat = n := by
    rw [BitVec.toNat_ofNat]
    omega
  have hrest : (getPgCnt e - BitVec.ofNat 64 n).toNat = (getPgCnt e).toNat - n := by
    rw [BitVec.toNat_sub_of_le (by rw [BitVec.le_def]; omega), hpg]
  have hnext : (getAddr e + BitVec.ofNat 64 n * btmLevel).toNat = (getAddr e).toNat + n * 4096 := by
    rw [BitVec.toNat_add, BitVec.toNat_mul, hpg, show btmLevel.toNat = 4096 from rfl]
    omega
  have hpage : ((getAddr e).toNat + n * 4096) / 4096 = (getAddr e).toNat / 4096 + n := by omega
  by_cases hsome : n < (getPgCnt e).toNat
  · rw [remainder, if_pos hsome, List.flatMap_singleton, entryPages_buildEntry_mod (by omega)
      (by omega), hrest, hnext, hpage]
  · have hzero : (getPgCnt e).toNat - n = 0 := by omega
    rw [remainder, if_neg hsome, hzero]
    rfl

/-- The pages of a range are those taken and those that are left. -/
theorem entryPages_split (h : n ≤ (getPgCnt e).toNat) :
  entryPages e = List.range' ((getAddr e).toNat / 4096) n
    ++ List.range' ((getAddr e).toNat / 4096 + n) ((getPgCnt e).toNat - n)
  := by
  rw [List.range'_append_1, Nat.add_sub_cancel' h]
  rfl

/-- Unless what is left wraps around, the pages of the ranges are those taken and those of the
ranges afterwards. -/
theorem pages_taken (h : n ≤ (getPgCnt e).toNat)
    (hbelow : n < (getPgCnt e).toNat → (getAddr e).toNat / 4096 + n < 2 ^ 44)
    (hperm : l.Perm (e :: rest)) :
  (l.flatMap entryPages).Perm
    ((remainder n e ++ rest).flatMap entryPages ++ List.range' ((getAddr e).toNat / 4096) n)
  := by
  have hremainder : (remainder n e).flatMap entryPages
      = List.range' ((getAddr e).toNat / 4096 + n) ((getPgCnt e).toNat - n) := by
    rw [pages_remainder h]
    by_cases hsome : n < (getPgCnt e).toNat
    · rw [Nat.mod_eq_of_lt (hbelow hsome)]
    · rw [Nat.sub_eq_zero_of_le (not_lt.mp hsome)]
      rfl
  apply (hperm.flatMap_right _).trans
  rw [List.flatMap_cons, entryPages_split h, List.flatMap_append, hremainder, List.append_assoc]
  apply List.perm_append_comm

/-- The entry that `pmem_freedma` makes of the pages taken. -/
theorem pages_given {sz : BitVec 32} (hsz : 1 ≤ sz.toNat) (haligned : sz.toNat % 4096 = 0) :
  entryPages (buildEntry (getAddr e) (sz.setWidth 64 / btmLevel))
    = List.range' ((getAddr e).toNat / 4096) (dmaPages sz)
  := by
  have hlt := sz.isLt
  have hdiv : (sz.setWidth 64 / btmLevel).toNat = dmaPages sz := by
    rw [BitVec.toNat_udiv, BitVec.toNat_setWidth_of_le (by decide), dmaPages]
    change _ / 4096 = _
    omega
  have hpages : dmaPages sz = sz.toNat / 4096 := by
    rw [dmaPages]
    omega
  rw [entryPages_buildEntry (getAddr_lt e) (by omega) (by omega), hdiv]

end Taken

/-! ### Taking and giving back -/

section Searched

variable {n : ℕ} {l : List U64}

theorem firstLarge_eq (n : ℕ) (l : List U64) :
  firstLarge n l = (searched n l).find? (hasPages n)
  := by
  rw [firstLarge, searched]
  cases hfound : l.find? (hasPages n) with
  | none => rfl
  | some e =>
      rw [Option.isSome_some, if_pos rfl, hfound]
      rfl

theorem mem_pages_searched {p : ℕ} (h : p ∈ (searched n l).flatMap entryPages) :
  p = 0 ∨ p ∈ l.flatMap entryPages
  := by
  rw [searched] at h
  split at h
  · right
    apply h
  · apply (mem_pages_swept h).imp_right
    apply (pages_byAddr l).mem_iff.mp

/-- No page besides the page 0 is described twice where the search ends. -/
theorem count_pages_searched (hnodup : (l.flatMap entryPages).Nodup) {p : ℕ} (hp : p ≠ 0) :
  ((searched n l).flatMap entryPages).count p ≤ 1
  := by
  rw [searched]
  split
  · apply List.nodup_iff_count_le_one.mp hnodup
  · have hone := List.nodup_iff_count_le_one.mp ((pages_byAddr l).nodup_iff.mpr hnodup) p
    cases hl : byAddr l with
    | nil => simp [swept]
    | cons x t =>
        rw [hl] at hone
        have hcount := count_pages_swept x t hp
        omega

/-- Where nothing is lost, the pages are the same where the search ends. -/
theorem pages_searched (h : l.find? (hasPages n) = none → DropsCleared l) :
  ((searched n l).flatMap entryPages).Perm (l.flatMap entryPages)
  := by
  rw [searched]
  split
  · apply List.Perm.refl
  · next hnone =>
    apply (h (Option.not_isSome_iff_eq_none.mp hnone)).pages

/-- Something has been put together where the search has gone on after a compaction. -/
theorem length_searched (hnone : l.find? (hasPages n) = none) {e : U64}
    (h : firstLarge n l = some e) :
  (searched n l).length < l.length
  := by
  have hsearched : searched n l = swept (byAddr l) := by
    rw [searched, hnone]
    rfl
  rw [hsearched, length_swept_byAddr]
  by_contra hmerges
  rw [firstLarge_eq, hsearched, swept_of_not_merges hmerges] at h
  have hmem : e ∈ l := (List.perm_insertionSort _ l).mem_iff.mp (List.mem_of_find?_eq_some h)
  apply List.find?_eq_none.mp hnone e hmem (List.find?_some h)

end Searched

section Both

variable {s s' : Pmem} {sz : BitVec 32} {e : U64} {rest : List U64}
  (h : Allocator s.btmLevel) (hsz : 1 ≤ sz.toNat)
  (hfirst : firstLarge (dmaPages sz) s.btmLevel.live = some e)
  (hperm : (searched (dmaPages sz) s.btmLevel.live).Perm (e :: rest))
  (hout : HandedOut (dmaPages sz) (align (sz.setWidth 64) btmLevel) s e rest s')

include hfirst in
theorem dmaPages_le :
  dmaPages sz ≤ (getPgCnt e).toNat
  := by
  rw [firstLarge_eq] at hfirst
  have hfits := List.find?_some hfirst
  rwa [hasPages, decide_eq_true_eq] at hfits

include h hfirst in
theorem two_le_size :
  2 ≤ s.btmLevel.size
  := by
  have hlt := h.toInRange.liveCnt_lt
  have hne : s.btmLevel.live ≠ [] := by
    intro hnil
    rw [hnil] at hfirst
    cases hfirst
  have hpos := List.length_pos_iff.mpr hne
  rw [Queue.length_live] at hpos
  omega

include hsz in
/-- `pmem_freedma` inserts an entry. -/
theorem pmemFreedma_eq (haligned : sz.toNat % 4096 = 0) (s : Pmem) :
  pmemFreedma (getAddr e) sz s = insertQueue (buildEntry (getAddr e) (sz.setWidth 64 / btmLevel))
    { s with freeMem := s.freeMem + sz.setWidth 64 }
  := by
  have hlt := sz.isLt
  have hsize : (sz.setWidth 64 : U64).toNat = sz.toNat := BitVec.toNat_setWidth_of_le (by decide)
  apply pageallocFree_eq (getAddr_mod e)
  · rw [hsize, haligned]
  · rw [hsize]
    omega
  · rw [hsize]
    exact hlt

include h hfirst hperm hout in
/-- What is left of the range does not wrap around, if its pages are to be free again. -/
theorem below_of_restored {s'' : Pmem} (hsz : 1 ≤ sz.toNat) (haligned : sz.toNat % 4096 = 0)
    (hfreed : pmemFreedma (getAddr e) sz s' = .ok ⟨⟩ s'') (hrestored : Restored s s'')
    (hsome : dmaPages sz < (getPgCnt e).toNat) :
  (getAddr e).toNat / 4096 + dmaPages sz < 2 ^ 44
  := by
  have hfits := dmaPages_le hfirst
  have haddr := getAddr_lt e
  have hle := getPgCnt_le e
  by_contra hge
  rw [pmemFreedma_eq hsz haligned] at hfreed
  -- the first page that is left
  set p := (getAddr e).toNat / 4096 + dmaPages sz with hp
  have hp0 : p ≠ 0 := by omega
  have hmem : p ∈ entryPages e := by
    rw [mem_entryPages]
    omega
  have hcount := hperm.flatMap_right entryPages |>.count_eq p
  have hone := count_pages_searched (n := dmaPages sz) h.toDisjointRanges.nodup hp0
  have hepos := List.count_pos_iff.mpr hmem
  rw [List.flatMap_cons, List.count_append] at hcount
  have hrest : p ∉ rest.flatMap entryPages := by
    rw [← List.count_eq_zero]
    omega
  have hfree : p ∈ pages s.btmLevel := by
    apply (mem_pages_searched (n := dmaPages sz) _).resolve_left hp0
    rw [← List.count_pos_iff]
    omega
  have hsize := two_le_size h hfirst
  rw [← hout.size_eq] at hsize
  let s₁ : Pmem := { s' with freeMem := s'.freeMem + sz.setWidth 64 }
  rcases mem_pages_insertQueue (s := s₁) hout.inRange hsize hfreed ((hrestored.pages p).mpr hfree)
    with hzero | hleft | hgiven
  · apply hp0 hzero
  · rw [pages, Multiset.mem_coe] at hleft
    change p ∈ s'.btmLevel.live.flatMap entryPages at hleft
    rw [hout.live, List.flatMap_append, List.mem_append, pages_remainder hfits] at hleft
    apply hrest
    apply hleft.resolve_left
    rw [List.mem_range'_1]
    omega
  · rw [pages_given hsz haligned, List.mem_range'_1] at hgiven
    omega

include hout in
/-- In a ring that is full after the pages have been taken, all entries are sound. -/
theorem sound_of_full (hnodup : (s'.btmLevel.live.flatMap entryPages).Nodup)
    (hsize : 2 ≤ s'.btmLevel.size) (hfull : s'.btmLevel.liveCnt + 1 = s'.btmLevel.size) :
  Sound s'.btmLevel
  where
  toInRange := hout.inRange
  entCnt_eq := hout.entCnt_eq
  distinct := distinct_of_nodup hnodup
  empty hzero := by omega

include hperm hout in
/-- The ranges after the pages have been taken from an entry of the queue. -/
theorem perm_live (hfound : s.btmLevel.live.find? (hasPages (dmaPages sz)) = some e) :
  (remainder (dmaPages sz) e ++ s.btmLevel.live.erase e).Perm s'.btmLevel.live
  := by
  rw [searched, hfound, Option.isSome_some, if_pos rfl] at hperm
  have herase := hperm.erase e
  rw [List.erase_cons_head] at herase
  rw [hout.live]
  apply herase.append_left

include hfirst hperm hout in
theorem pages_searched_taken
    (hbelow : dmaPages sz < (getPgCnt e).toNat → (getAddr e).toNat / 4096 + dmaPages sz < 2 ^ 44) :
  ((searched (dmaPages sz) s.btmLevel.live).flatMap entryPages).Perm
    (s'.btmLevel.live.flatMap entryPages
      ++ List.range' ((getAddr e).toNat / 4096) (dmaPages sz))
  := by
  rw [hout.live]
  apply pages_taken (dmaPages_le hfirst) hbelow hperm

include h hfirst hperm hout in
theorem restorable_of_restored {s'' : Pmem} (hsz : 1 ≤ sz.toNat)
    (hfreed : pmemFreedma (getAddr e) sz s' = .ok ⟨⟩ s'') (hrestored : Restored s s'') :
  Restorable s.btmLevel sz e
  := by
  have haligned : sz.toNat % 4096 = 0 := by
    by_contra hne
    apply pageallocFree_misaligned _ hfreed
    rwa [BitVec.toNat_setWidth_of_le (by decide)]
  have hbelow := below_of_restored h hfirst hperm hout hsz haligned hfreed hrestored
  have hpages := pages_searched_taken hfirst hperm hout hbelow
  have hnodup := h.toDisjointRanges.nodup
  have hsize := two_le_size h hfirst
  rw [← hout.size_eq] at hsize
  rw [pmemFreedma_eq hsz haligned] at hfreed
  let s₁ : Pmem := { s' with freeMem := s'.freeMem + sz.setWidth 64 }
  refine ⟨haligned, hbelow, ?_, ?_⟩
  · intro hnone
    by_contra hdrops
    obtain ⟨p, hp, hp0, hlost⟩ := exists_lost_of_not_dropsCleared hnodup hdrops
    have hsearched : p ∉ (searched (dmaPages sz) s.btmLevel.live).flatMap entryPages := by
      rw [searched, hnone]
      exact hlost
    rw [hpages.mem_iff, List.mem_append, not_or] at hsearched
    rcases mem_pages_insertQueue (s := s₁) hout.inRange hsize hfreed ((hrestored.pages p).mpr hp)
      with hzero | hleft | hgiven
    · apply hp0 hzero
    · apply hsearched.1 hleft
    · rw [pages_given hsz haligned] at hgiven
      apply hsearched.2 hgiven
  · intro hfound hfull
    have hlive := perm_live hperm hout hfound
    rw [searched, hfound, Option.isSome_some, if_pos rfl] at hpages
    have hsplit := hpages.nodup_iff.mp hnodup
    have hleft := hsplit.of_append_left
    have hbyAddr := byAddr_congr hlive (distinct_of_nodup hleft)
    have hfull' : s'.btmLevel.liveCnt + 1 = s'.btmLevel.size := by
      rw [← Queue.length_live, ← hlive.length_eq, hout.size_eq, hfull]
    have hsound := sound_of_full hout hleft hsize hfull'
    obtain ⟨hmerges, hlive''⟩ := (insertQueue_full (s := s₁) hsound hfull' _).2 s'' hfreed
    constructor
    · rw [Merges, hbyAddr]
      exact hmerges
    · by_contra hdrops
      rw [DropsCleared, hbyAddr] at hdrops
      obtain ⟨p, hp, hp0, hlost⟩ := exists_lost_of_not_dropsCleared hleft hdrops
      have hfree := hpages.mem_iff.mpr (List.mem_append_left _ hp)
      have hback := (hrestored.pages p).mpr hfree
      rw [pages, hlive'', List.flatMap_append, Multiset.mem_coe, List.mem_append] at hback
      rcases hback with hkept | hgiven
      · apply hlost hkept
      · rw [List.flatMap_singleton, pages_given hsz haligned] at hgiven
        apply List.disjoint_of_nodup_append hsplit hp hgiven

include h hfirst hperm hout in
theorem restored_of_restorable (hsz : 1 ≤ sz.toNat) (hrest : Restorable s.btmLevel sz e) :
  ∃ s'', pmemFreedma (getAddr e) sz s' = .ok ⟨⟩ s'' ∧ Restored s s''
  := by
  have hlt := sz.isLt
  have hpages := (pages_searched_taken hfirst hperm hout hrest.below).symm.trans
    (pages_searched hrest.compacted)
  have hsplit := hpages.nodup_iff.mpr h.toDisjointRanges.nodup
  have hleft := hsplit.of_append_left
  have hsize := two_le_size h hfirst
  rw [← hout.size_eq] at hsize
  have hcredit : s'.freeMem + sz.setWidth 64 = s.freeMem := by
    have hsz' : (sz.setWidth 64 : U64).toNat = sz.toNat := BitVec.toNat_setWidth_of_le (by decide)
    have haligned := hrest.aligned
    have halign : align (sz.setWidth 64) btmLevel = sz.setWidth 64 := by
      apply BitVec.eq_of_toNat_eq
      rw [show btmLevel = kib 4 from rfl, toNat_align_page (by omega), hsz']
      omega
    rw [hout.freeMem, halign, BitVec.sub_add_cancel]
  have hrestored {s'' : Pmem} {l : List U64} (hlive : s''.btmLevel.live
      = l ++ [buildEntry (getAddr e) (sz.setWidth 64 / btmLevel)])
      (hl : (l.flatMap entryPages).Perm (s'.btmLevel.live.flatMap entryPages))
      (hfree : s''.freeMem = s'.freeMem + sz.setWidth 64) : Restored s s'' := by
    constructor
    · intro p
      rw [pages, pages, Multiset.mem_coe, Multiset.mem_coe, hlive, List.flatMap_append,
        List.flatMap_singleton, pages_given hsz hrest.aligned, (hl.append_right _).mem_iff,
        hpages.mem_iff]
    · rw [hfree, hcredit]
  let s₁ : Pmem := { s' with freeMem := s'.freeMem + sz.setWidth 64 }
  rw [pmemFreedma_eq hsz hrest.aligned]
  by_cases hfull : s'.btmLevel.liveCnt + 1 = s'.btmLevel.size
  · cases hfound : s.btmLevel.live.find? (hasPages (dmaPages sz)) with
    | none =>
        have hshort := length_searched hfound hfirst
        have hlen := hperm.length_eq
        have hone : (remainder (dmaPages sz) e).length ≤ 1 := by
          rw [remainder]
          split <;> simp
        have hlive := congrArg List.length hout.live
        have hroom := h.toInRange.liveCnt_lt
        rw [List.length_append, Queue.length_live] at hlive
        rw [Queue.length_live] at hshort
        rw [List.length_cons] at hlen
        rw [hout.size_eq] at hfull
        omega
    | some e' =>
        obtain rfl : e' = e := by
          rw [firstLarge, hfound] at hfirst
          apply Option.some.inj hfirst
        have hlive := perm_live hperm hout hfound
        have hbyAddr := byAddr_congr hlive (distinct_of_nodup hleft)
        obtain ⟨hmerges, hdrops⟩ := hrest.room hfound (by
          rw [hlive.length_eq, Queue.length_live, hfull, hout.size_eq])
        rw [Merges, hbyAddr] at hmerges
        rw [DropsCleared, hbyAddr] at hdrops
        have hsound := sound_of_full hout hleft hsize hfull
        obtain ⟨s'', hs'', hlive'', hfree⟩ := (insertQueue_full (s := s₁) hsound hfull
          (buildEntry (getAddr e') (sz.setWidth 64 / btmLevel))).1 hmerges
        use s'', hs''
        apply hrestored hlive'' (DropsCleared.pages hdrops) hfree
  · obtain ⟨s'', hs'', hlive, hfree⟩ := insertQueue_room (s := s₁) hout.inRange hfull
      (buildEntry (getAddr e) (sz.setWidth 64 / btmLevel))
    use s'', hs''
    apply hrestored hlive (List.Perm.refl _) hfree

end Both

/-- What `pmem_allocdma` returns can be given to `pmem_freedma`, and everything is as before, just
when the range it is taken from is restorable, if there is one. -/
theorem restores_iff {s : Pmem} (h : Allocator s.btmLevel) {sz : BitVec 32} (hsz : 1 ≤ sz.toNat) :
  Restores s sz
    ↔ ∀ e, firstLarge (dmaPages sz) s.btmLevel.live = some e → Restorable s.btmLevel sz e
  := by
  have hsound : Sound s.btmLevel := ⟨h.toInRange, h.entCnt_eq,
    distinct_of_nodup h.toDisjointRanges.nodup, h.empty⟩
  obtain ⟨s', hrun, hout⟩ := pmemAllocdma_run hsound sz
  rw [Restores, hrun]
  cases hfirst : firstLarge (dmaPages sz) s.btmLevel.live with
  | none =>
      apply iff_of_true
      · intro p s₁ heq hne
        cases heq
        apply absurd rfl hne
      · intro e he
        cases he
  | some e =>
      obtain ⟨rest, hperm, hout⟩ := hout e hfirst
      constructor
      · intro hrestores e' he'
        obtain rfl := Option.some.inj he'
        have hne : getAddr e ≠ -1 := by
          intro heq
          have hmod := getAddr_mod e
          rw [heq] at hmod
          apply absurd hmod (by decide)
        obtain ⟨s'', hfreed, hrestored⟩ := hrestores (getAddr e) s' rfl hne
        apply restorable_of_restored h hfirst hperm hout hsz hfreed hrestored
      · intro hrest p s₁ heq _
        cases heq
        apply restored_of_restorable h hfirst hperm hout hsz (hrest e rfl)

theorem allocator_three :
  Allocator (withPages [0x1000, 0x2000, 0x4000]).btmLevel
  where
  toDisjointRanges := disjointRanges_three
  empty hzero := absurd hzero (by decide)

theorem firstLarge_three :
  firstLarge 1 (withPages [0x1000, 0x2000, 0x4000]).btmLevel.live = some (buildEntry 0x1000 1)
  := by decide

/-- One page, which is all of the first range. -/
theorem restores_three :
  Restores (withPages [0x1000, 0x2000, 0x4000]) 4096
  := by
  apply (restores_iff allocator_three (by decide)).mpr
  intro e he
  have hpages : dmaPages 4096 = 1 := rfl
  rw [hpages, firstLarge_three, Option.some.injEq] at he
  subst he
  constructor
  · decide
  · decide
  · intro hnone
    revert hnone
    decide
  · intro _ hfull
    revert hfull
    decide

/-- One byte is taken as a page, but is no size to give back. -/
theorem not_restores_three :
  ¬ ∀ (s : Pmem) (sz : BitVec 32), Allocator s.btmLevel → 1 ≤ sz.toNat → Restores s sz
  := by
  intro h
  have hrestores := h _ 1 allocator_three (by decide)
  have hsound := disjointRanges_three.sound (by decide)
  obtain ⟨s', hrun, -⟩ := pmemAllocdma_run hsound 1
  have hpages : dmaPages 1 = 1 := rfl
  rw [hpages, firstLarge_three, Option.elim_some] at hrun
  obtain ⟨s'', hfreed, -⟩ := hrestores _ s' hrun (by decide)
  apply pageallocFree_misaligned _ hfreed
  decide

end PhysMem
