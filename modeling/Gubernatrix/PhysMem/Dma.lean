import Gubernatrix.PhysMem.Pages
import Mathlib.Data.List.Sort

/-!
# Memory for devices

`pmem_allocdma` is to return memory below 4 GiB. `pagealloc_alloc` clears the flag that asks for
it, so that what is returned is the first range that is large enough, wherever it lies: the
first one in the queue, or, when there is none, in the queue as `compact_queue` leaves it.
-/

namespace PhysMem

open Program Ring

/-- The free queue of an allocator: free ranges, each at an address of its own. -/
structure FreeRanges (q : Queue) : Prop extends Queue.Clean q where
  distinct : (q.live.map getAddr).Nodup

/-- What the search of `pagealloc_alloc` needs of the free queue: the entry count is right, and the
entries are at different addresses. Where there is none, the slots are clean. -/
structure Sound (q : Queue) : Prop extends Queue.InRange q where
  entCnt_eq : q.entCnt = q.liveCnt
  distinct : (q.live.map getAddr).Nodup
  empty : q.liveCnt = 0 → q.Clean

theorem FreeRanges.sound {q : Queue} (h : FreeRanges q) :
  Sound q
  where
  toInRange := h.toInRange
  entCnt_eq := h.entCnt_eq
  distinct := h.distinct
  empty _ := h.toClean

/-- The range has enough pages. -/
def hasPages (pgCnt : ℕ) (e : U64) : Bool := pgCnt ≤ (getPgCnt e).toNat

/-- The ranges in the order of their addresses. -/
def byAddr (l : List U64) : List U64 := l.insertionSort fun a b => getAddr a ≤ getAddr b

/-- The ranges that the sweep of `compact_queue` leaves. -/
def swept : List U64 → List U64
  | [] => []
  | x :: l => (sweepSlots x l).drop (sweepCnt x l)

/-- The first range with enough pages: in the queue, or after a compaction. -/
def firstLarge (pgCnt : ℕ) (l : List U64) : Option U64 :=
  (l.find? (hasPages pgCnt)).or ((swept (byAddr l)).find? (hasPages pgCnt))

/-- The ranges that the search ends in: the queue, or what a compaction leaves of it. -/
def searched (pgCnt : ℕ) (l : List U64) : List U64 :=
  if (l.find? (hasPages pgCnt)).isSome then l else swept (byAddr l)

/-- What is put back of a range that pages are taken from. -/
def remainder (pgCnt : ℕ) (e : U64) : List U64 :=
  if pgCnt < (getPgCnt e).toNat then
    [buildEntry (getAddr e + BitVec.ofNat 64 pgCnt * btmLevel) (getPgCnt e - BitVec.ofNat 64 pgCnt)]
  else []

/-- The pages of the range have been handed out, where the queue has the ranges `l` besides. -/
structure HandedOut (pgCnt : ℕ) (size : U64) (s : Pmem) (e : U64) (l : List U64) (s' : Pmem) :
    Prop where
  inRange : s'.btmLevel.InRange
  size_eq : s'.btmLevel.size = s.btmLevel.size
  live : s'.btmLevel.live = remainder pgCnt e ++ l
  entCnt_eq : s'.btmLevel.entCnt = s'.btmLevel.liveCnt
  freeMem : s'.freeMem = s.freeMem - size

/-- The pages that a request for `sz` bytes takes. -/
def dmaPages (sz : BitVec 32) : ℕ := (sz.toNat + 4095) / 4096

/-! ### Ranges in order -/

instance : Std.Total fun a b : U64 => getAddr a ≤ getAddr b where
  total a b := by
    simp only [BitVec.le_def]
    omega

instance : IsTrans U64 fun a b => getAddr a ≤ getAddr b where
  trans a b c := by
    simp only [BitVec.le_def]
    omega

/-- Ranges at different addresses have one order. -/
theorem eq_byAddr {l l' : List U64} (hperm : l'.Perm l) (hdistinct : (l.map getAddr).Nodup)
    (hsorted : l'.Pairwise fun a b => getAddr a ≤ getAddr b) :
  l' = byAddr l
  := by
  have hstrict : ∀ {m : List U64}, m.Perm l → (m.Pairwise fun a b => getAddr a ≤ getAddr b) →
      m.Pairwise fun a b => getAddr a < getAddr b := by
    intro m hm hle
    have hne : (m.map getAddr).Nodup := (hm.map getAddr).nodup_iff.mpr hdistinct
    rw [List.Nodup, List.pairwise_map] at hne
    refine (hle.and hne).imp ?_
    rintro a b ⟨hab, hab'⟩
    exact BitVec.lt_of_le_ne hab hab'
  have hbyAddr : (byAddr l).Perm l := List.perm_insertionSort _ l
  apply List.Perm.eq_of_pairwise _ (hstrict hperm hsorted)
    (hstrict hbyAddr (List.pairwise_insertionSort _ l)) (hperm.trans hbyAddr.symm)
  intro a b _ _ hab hba
  exact absurd (BitVec.lt_trans hab hba) (BitVec.lt_irrefl _)

/-! ### The search -/

section Search

variable {s : Pmem} {pgCnt : ℕ} {size : U64}

theorem hasPages_iff (pgCnt : ℕ) (e : U64) :
  toInt32 (getPgCnt e).toNat ≥ pgCnt ↔ hasPages pgCnt e = true
  := by
  rw [toInt32_pgCnt, hasPages, decide_eq_true_eq]
  omega

/-- An insertion into a queue with a slot left. -/
theorem insertWith_of_some {tryenqueue : Queue → U64 → Option Queue} {val : U64} {q : Queue}
    (h : tryenqueue s.btmLevel val = some q) :
  insertWith tryenqueue val s = .ok ⟨⟩ { s with btmLevel := q }
  := by
  rw [insertWith, bind_of_ok (get_apply s), h]
  rfl

/-- A queue that an entry has been taken from has a slot left. -/
theorem room_after_dequeue {q q' : Queue} {deq : U64} (h : q.InRange)
    (hdeq : queueTrydequeue q = some (deq, q')) :
  q'.InRange ∧ q'.liveCnt + 1 ≠ q'.size
  := by
  obtain ⟨hrange, hsize, -, hcnt, -⟩ := Queue.trydequeue_spec h hdeq
  have := h.liveCnt_lt
  exact ⟨hrange, by omega⟩

/-- An entry that is large enough is handed out. -/
theorem allocEntry_run (size : U64) {q : Queue} {deq : U64} {l : List U64}
    (h : s.btmLevel.InRange) (hent : s.btmLevel.entCnt = s.btmLevel.liveCnt)
    (hlive : s.btmLevel.live = deq :: l) (hdeq : queueTrydequeue s.btmLevel = some (deq, q))
    (hfits : hasPages pgCnt deq = true) :
  ∃ s', allocEntry deq pgCnt size { s with btmLevel := q } = .ok (some (getAddr deq)) s'
    ∧ HandedOut pgCnt size s deq l s'
  := by
  obtain ⟨hrange, hroom⟩ := room_after_dequeue h hdeq
  obtain ⟨-, hsize, -, hcnt, hent', -⟩ := Queue.trydequeue_spec h hdeq
  have htail : q.live = l := by
    have hdeq' := Queue.live_trydequeue h hdeq
    rw [hlive] at hdeq'
    exact (List.cons.inj hdeq').2.symm
  have hle := getPgCnt_le deq
  rw [hasPages, decide_eq_true_eq] at hfits
  have hpg : (BitVec.ofNat 64 pgCnt).toNat = pgCnt := by
    rw [BitVec.toNat_ofNat]
    omega
  have hrest : (getPgCnt deq - BitVec.ofNat 64 pgCnt).toNat = (getPgCnt deq).toNat - pgCnt := by
    rw [BitVec.toNat_sub_of_le (by rw [BitVec.le_def]; omega), hpg]
  have hrest32 : toInt32 (getPgCnt deq - BitVec.ofNat 64 pgCnt).toNat
      = ((getPgCnt deq - BitVec.ofNat 64 pgCnt).toNat : ℕ) := toInt32_of_lt (by omega)
  rw [allocEntry, BitVec.ofInt_natCast, hrest32, BitVec.ofInt_natCast, BitVec.ofNat_toNat,
    BitVec.setWidth_eq, hrest]
  by_cases hsome : pgCnt < (getPgCnt deq).toNat
  · obtain ⟨q', hq'⟩ : ∃ q', queueTryenqueueFront q
        (buildEntry (getAddr deq + BitVec.ofNat 64 pgCnt * btmLevel)
          (getPgCnt deq - BitVec.ofNat 64 pgCnt)) = some q' :=
      Option.ne_none_iff_exists'.mp fun hnone =>
        hroom ((Queue.tryenqueueFront_eq_none hrange).mp hnone)
    obtain ⟨hrange', hsize', -, hcnt', hent'', -⟩ := Queue.tryenqueueFront_spec hrange hq'
    refine ⟨{ s with btmLevel := q', freeMem := s.freeMem - size }, ?_, hrange',
      hsize'.trans hsize, ?_, ?_, rfl⟩
    · rw [if_pos (Int.natCast_pos.mpr (Nat.sub_pos_of_lt hsome)), insertQueueFront,
        bind_of_ok (insertWith_of_some (by exact hq'))]
      rfl
    · rw [remainder, if_pos hsome, ← htail]
      apply Queue.live_tryenqueueFront hrange hq'
    · dsimp only
      omega
  · refine ⟨{ s with btmLevel := q, freeMem := s.freeMem - size }, ?_, hrange, hsize, ?_, ?_, rfl⟩
    · rw [if_neg (by rw [Nat.sub_eq_zero_of_le (not_lt.mp hsome)]; decide)]
      rfl
    · rw [remainder, if_neg hsome, List.nil_append, ← htail]
    · dsimp only
      omega

/-- An entry that is put back goes to the end of the queue. -/
theorem requeue_run {q : Queue} {deq : U64} {l : List U64} (h : s.btmLevel.InRange)
    (hlive : s.btmLevel.live = deq :: l) (hdeq : queueTrydequeue s.btmLevel = some (deq, q)) :
  ∃ s', insertQueue deq { s with btmLevel := q } = .ok ⟨⟩ s' ∧ s'.btmLevel.InRange
    ∧ s'.btmLevel.live = l ++ [deq] ∧ (s.btmLevel.Clean → s'.btmLevel.Clean)
    ∧ s'.btmLevel.entCnt = s.btmLevel.entCnt ∧ s'.btmLevel.size = s.btmLevel.size
    ∧ s'.freeMem = s.freeMem
  := by
  obtain ⟨hrange, hroom⟩ := room_after_dequeue h hdeq
  cases henq : queueTryenqueue q deq with
  | none => exact absurd ((Queue.tryenqueue_eq_none hrange).mp henq) hroom
  | some q' =>
      have htail : q.live = l := by
        have := Queue.live_trydequeue h hdeq
        rw [hlive] at this
        exact (List.cons.inj this).2.symm
      obtain ⟨-, hsize, -, -, htaken, -⟩ := Queue.trydequeue_spec h hdeq
      obtain ⟨hrange', hsize', -, -, hput, -⟩ := Queue.tryenqueue_spec hrange henq
      refine ⟨_, insertWith_of_some (by exact henq), hrange', ?_, ?_, ?_, hsize'.trans hsize, rfl⟩
      · rw [← htail]
        exact Queue.live_tryenqueue hrange henq
      · intro hclean
        exact Queue.clean_tryenqueue (Queue.clean_trydequeue hclean hdeq) henq
      · rw [hput, htaken, Int.sub_add_cancel]

/-- The queue has been turned, so that the ranges are `l` in their order. -/
structure Turned (s : Pmem) (l : List U64) (s' : Pmem) : Prop where
  inRange : s'.btmLevel.InRange
  live : s'.btmLevel.live = l
  clean : s.btmLevel.Clean → s'.btmLevel.Clean
  entCnt_eq : s'.btmLevel.entCnt = s.btmLevel.entCnt
  size_eq : s'.btmLevel.size = s.btmLevel.size
  freeMem : s'.freeMem = s.freeMem

theorem Turned.trans {s s₁ s₂ : Pmem} {l l' : List U64} (h : Turned s l s₁) (h' : Turned s₁ l' s₂) :
  Turned s l' s₂
  where
  inRange := h'.inRange
  live := h'.live
  clean hclean := h'.clean (h.clean hclean)
  entCnt_eq := h'.entCnt_eq.trans h.entCnt_eq
  size_eq := h'.size_eq.trans h.size_eq
  freeMem := h'.freeMem.trans h.freeMem

theorem HandedOut.of_turned {s s₁ s₂ : Pmem} {e : U64} {l l' : List U64} (h : Turned s l s₁)
    (h' : HandedOut pgCnt size s₁ e l' s₂) :
  HandedOut pgCnt size s e l' s₂
  where
  inRange := h'.inRange
  size_eq := h'.size_eq.trans h.size_eq
  live := h'.live
  entCnt_eq := h'.entCnt_eq
  freeMem := by rw [h'.freeMem, h.freeMem]

/-- What the inner loop of `pagealloc_alloc` does with the queue: it hands out the first entry with
enough pages among the first ones, or turns the queue when there is none. -/
structure Scanned (pgCnt : ℕ) (size : U64) (s : Pmem) (l l' : List U64) (s' : Pmem) : Prop where
  found : ∀ e, l.find? (hasPages pgCnt) = some e →
    ∃ rest, (l ++ l').Perm (e :: rest) ∧ HandedOut pgCnt size s e rest s'
  turned : l.find? (hasPages pgCnt) = none → Turned s (l' ++ l) s'

theorem allocScan_run (pgCnt : ℕ) (size : U64) (l l' : List U64) {s : Pmem} (h : s.btmLevel.InRange)
    (hent : s.btmLevel.entCnt = s.btmLevel.liveCnt) (hlive : s.btmLevel.live = l ++ l') :
  ∃ s', allocScan 0 pgCnt size l.length s = .ok ((l.find? (hasPages pgCnt)).map getAddr) s'
    ∧ Scanned pgCnt size s l l' s'
  := by
  induction l generalizing l' s with
  | nil =>
      refine ⟨s, rfl, ?_, fun _ => ⟨h, ?_, fun hclean => hclean, rfl, rfl, rfl⟩⟩
      · intro e he
        cases he
      · rw [hlive, List.append_nil]
        rfl
  | cons e l ih =>
      rw [List.cons_append] at hlive
      rw [List.length_cons, allocScan, bind_of_ok (get_apply s)]
      cases hdeq : queueTrydequeue s.btmLevel with
      | none =>
          have hzero := (Queue.trydequeue_eq_none h).mp hdeq
          rw [Queue.live, hzero, window_zero] at hlive
          cases hlive
      | some p =>
          obtain ⟨deq, q⟩ := p
          have hdeq' := Queue.live_trydequeue h hdeq
          rw [hlive] at hdeq'
          obtain rfl : e = deq := (List.cons.inj hdeq').1
          dsimp only
          rw [bind_of_ok (set_apply _ _), if_neg (by simp)]
          by_cases hfits : hasPages pgCnt e = true
          · obtain ⟨s', hrun, hout⟩ := allocEntry_run size h hent hlive hdeq hfits
            rw [if_pos ((hasPages_iff pgCnt e).mpr hfits), List.find?_cons_of_pos hfits]
            refine ⟨s', hrun, ?_, ?_⟩
            · rw [List.find?_cons_of_pos hfits]
              rintro e' heq
              obtain rfl := Option.some.inj heq
              use l ++ l', List.Perm.refl _
            · rw [List.find?_cons_of_pos hfits]
              intro hnone
              cases hnone
          · obtain ⟨s₁, hput, hrange₁, hlive₁, hclean₁, hcnt₁, hsize₁, hfree₁⟩ :=
              requeue_run h hlive hdeq
            rw [List.append_assoc] at hlive₁
            have hturned₁ : Turned s (l ++ (l' ++ [e])) s₁ :=
              ⟨hrange₁, hlive₁, hclean₁, hcnt₁, hsize₁, hfree₁⟩
            have hent₁ : s₁.btmLevel.entCnt = s₁.btmLevel.liveCnt := by
              rw [hcnt₁, hent, ← Queue.length_live, ← Queue.length_live, hlive, hlive₁]
              simp only [List.length_cons, List.length_append, List.length_nil]
              omega
            obtain ⟨s', hrun, hscanned⟩ := ih (l' ++ [e]) hrange₁ hent₁ hlive₁
            rw [if_neg (mt (hasPages_iff pgCnt e).mp hfits), bind_of_ok hput,
              List.find?_cons_of_neg hfits]
            refine ⟨s', hrun, ?_, ?_⟩
            · rw [List.find?_cons_of_neg hfits]
              intro e' he'
              obtain ⟨rest, hperm, hout⟩ := hscanned.found e' he'
              use rest
              constructor
              · rw [← List.append_assoc] at hperm
                exact (List.perm_append_singleton e (l ++ l')).symm.trans hperm
              · apply HandedOut.of_turned hturned₁ hout
            · rw [List.find?_cons_of_neg hfits]
              intro hnone
              have hturned := hscanned.turned hnone
              rw [List.append_assoc, List.singleton_append] at hturned
              apply hturned₁.trans hturned

/-- `compact_queue` sorts the ranges and sweeps them. -/
theorem compact_run (hsound : Sound s.btmLevel) :
  ∃ s', compact s = .ok ⟨⟩ s' ∧ s'.btmLevel.InRange
    ∧ s'.btmLevel.live = swept (byAddr s.btmLevel.live)
    ∧ s'.btmLevel.entCnt = s'.btmLevel.liveCnt ∧ s'.btmLevel.size = s.btmLevel.size
    ∧ s'.freeMem = s.freeMem
  := by
  by_cases hzero : s.btmLevel.liveCnt = 0
  · obtain ⟨q', hq', hclean', -, hlive'⟩ := compactQueue_of_empty (hsound.empty hzero) hzero
    have hlive : s.btmLevel.live = [] := by rw [Queue.live, hzero, window_zero]
    refine ⟨{ s with btmLevel := q', hist := .compact s.btmLevel :: s.hist }, ?_,
      hclean'.toInRange, ?_, hclean'.entCnt_eq, compactQueue_size hq', rfl⟩
    · rw [compact, bind_of_ok (get_apply s), hq']
      rfl
    · rw [hlive, hlive']
      rfl
  · obtain ⟨x, l, q', -, hperm, hsorted, hq', hrange', hsize', hcnt', hent', hlive', -⟩ :=
      compactQueue_live hsound.toInRange (by omega)
    have hbyAddr := eq_byAddr hperm hsound.distinct hsorted
    refine ⟨{ s with btmLevel := q', hist := .compact s.btmLevel :: s.hist }, ?_, hrange', ?_, ?_,
      hsize', rfl⟩
    · rw [compact, bind_of_ok (get_apply s), hq']
      rfl
    · rw [← hbyAddr]
      exact hlive'
    · have hlt := sweepCnt_lt x l
      have hlen' := hperm.length_eq
      have hent := hsound.entCnt_eq
      rw [Queue.length_live, List.length_cons] at hlen'
      dsimp only
      omega

theorem Turned.sound {s' : Pmem} (h : Turned s s.btmLevel.live s') (hsound : Sound s.btmLevel) :
  Sound s'.btmLevel
  := by
  have hcnt : s'.btmLevel.liveCnt = s.btmLevel.liveCnt := by
    rw [← Queue.length_live, ← Queue.length_live, h.live]
  refine ⟨h.inRange, ?_, ?_, ?_⟩
  · rw [h.entCnt_eq, hsound.entCnt_eq, hcnt]
  · rw [h.live]
    exact hsound.distinct
  · intro hzero
    rw [hcnt] at hzero
    exact h.clean (hsound.empty hzero)

/-- What `pagealloc_alloc` returns is the address of the first range with enough pages, and these
are handed out. -/
theorem allocLoop_run (hsound : Sound s.btmLevel) :
  ∃ s', allocLoop 0 pgCnt size 2 s
      = .ok ((firstLarge pgCnt s.btmLevel.live).elim (-1) getAddr) s'
    ∧ ∀ e, firstLarge pgCnt s.btmLevel.live = some e →
      ∃ rest, (searched pgCnt s.btmLevel.live).Perm (e :: rest)
        ∧ HandedOut pgCnt size s e rest s'
  := by
  have hlen : s.btmLevel.entCnt = s.btmLevel.live.length := by
    rw [hsound.entCnt_eq, Queue.length_live]
  obtain ⟨s₁, hscan, hscanned⟩ := allocScan_run pgCnt size s.btmLevel.live []
    hsound.toInRange hsound.entCnt_eq (List.append_nil _).symm
  rw [allocLoop, bind_of_ok (get_apply s), queueEntcnt, hlen, Int.toNat_natCast, bind_of_ok hscan,
    firstLarge, searched]
  cases hfound : s.btmLevel.live.find? (hasPages pgCnt) with
  | some e =>
      refine ⟨s₁, rfl, ?_⟩
      intro e' heq
      obtain rfl := Option.some.inj heq
      obtain ⟨rest, hperm, hout⟩ := hscanned.found e hfound
      rw [List.append_nil] at hperm
      use rest, hperm
  | none =>
      have hturned := hscanned.turned hfound
      rw [List.nil_append] at hturned
      obtain ⟨s₂, hcompact, hrange₂, hlive₂, hent₂, hsize₂, hfree₂⟩ :=
        compact_run (hturned.sound hsound)
      have hlen₂ : s₂.btmLevel.entCnt = s₂.btmLevel.live.length := by
        rw [hent₂, Queue.length_live]
      obtain ⟨s₃, hscan₃, hscanned₃⟩ := allocScan_run pgCnt size
        s₂.btmLevel.live [] hrange₂ hent₂ (List.append_nil _).symm
      rw [hturned.live] at hlive₂
      rw [Option.map_none, Option.none_or, ← hlive₂]
      dsimp only
      rw [bind_of_ok hcompact, allocLoop, bind_of_ok (get_apply s₂), queueEntcnt, hlen₂,
        Int.toNat_natCast, bind_of_ok hscan₃]
      cases hfound₃ : s₂.btmLevel.live.find? (hasPages pgCnt) with
      | some e =>
          refine ⟨s₃, rfl, ?_⟩
          intro e' heq
          obtain rfl := Option.some.inj heq
          obtain ⟨rest, hperm, hout⟩ := hscanned₃.found e hfound₃
          rw [List.append_nil] at hperm
          use rest, hperm
          refine ⟨hout.inRange, ?_, hout.live, hout.entCnt_eq, ?_⟩
          · rw [hout.size_eq, hsize₂, hturned.size_eq]
          · rw [hout.freeMem, hfree₂, hturned.freeMem]
      | none =>
          obtain ⟨q', hq', -⟩ := compactQueue_inRange (hscanned₃.turned hfound₃).inRange
          rw [Option.map_none]
          dsimp only
          rw [compact, bind_apply, bind_of_ok (get_apply s₃), hq']
          refine ⟨_, rfl, ?_⟩
          intro e heq
          cases heq

end Search

/-! ### Memory below 4 GiB -/

/-- `pmem_allocdma` returns the address of the first range with enough pages, or `-1`. -/
theorem pmemAllocdma_run {s : Pmem} (hsound : Sound s.btmLevel) (sz : BitVec 32) :
  ∃ s', pmemAllocdma sz s
      = .ok ((firstLarge (dmaPages sz) s.btmLevel.live).elim (-1) getAddr) s'
    ∧ ∀ e, firstLarge (dmaPages sz) s.btmLevel.live = some e →
      ∃ rest, (searched (dmaPages sz) s.btmLevel.live).Perm (e :: rest)
        ∧ HandedOut (dmaPages sz) (align (sz.setWidth 64) btmLevel) s e rest s'
  := by
  have hsz := sz.isLt
  have hsize : (sz.setWidth 64).toNat = sz.toNat := by
    rw [BitVec.toNat_setWidth]
    omega
  have hpages : toInt32 (align (sz.setWidth 64) btmLevel / btmLevel).toNat = dmaPages sz := by
    rw [BitVec.toNat_udiv, show btmLevel = kib 4 from rfl, toNat_align_page (by omega), hsize,
      show (kib 4).toNat = 4096 from rfl, Nat.mul_div_cancel _ (by decide),
      toInt32_of_lt (by omega)]
    rfl
  rw [pmemAllocdma, pageallocAlloc, hpages]
  apply allocLoop_run hsound

/-- What `pmem_allocdma` returns lies below 4 GiB just when the first range with enough pages
does, as far as it is handed out. -/
theorem dma_below_iff {s : Pmem} (hfree : FreeRanges s.btmLevel) {sz : BitVec 32}
    (hsz : 1 ≤ sz.toNat) :
  (∀ p s', pmemAllocdma sz s = .ok p s' → p ≠ -1 → ∀ o < sz.toNat, p.toNat + o < 2 ^ 32)
    ↔ ∀ e, firstLarge (dmaPages sz) s.btmLevel.live = some e →
      (getAddr e).toNat + sz.toNat ≤ 2 ^ 32
  := by
  obtain ⟨s', hrun, -⟩ := pmemAllocdma_run hfree.sound sz
  rw [hrun]
  constructor
  · intro h e he
    rw [he] at h
    have hne : getAddr e ≠ -1 := by
      intro heq
      have := getAddr_mod e
      rw [heq] at this
      exact absurd this (by decide)
    have hlast := h _ _ rfl hne (sz.toNat - 1) (by omega)
    rw [Option.elim_some] at hlast
    omega
  · intro h p s₁ heq hne o ho
    cases hlarge : firstLarge (dmaPages sz) s.btmLevel.live with
    | none =>
        rw [hlarge] at heq
        cases heq
        exact absurd rfl hne
    | some e =>
        have := h e hlarge
        rw [hlarge] at heq
        cases heq
        rw [Option.elim_some]
        omega

/-- An allocator with one free range, two pages from 4 GiB less one page on. -/
def astride : Pmem :=
  { Pmem.init 4 with
    btmLevel := { Queue.init 4 with
      queue := Function.update (fun _ => 0) 0 (buildEntry 0xfffff000 2)
      tail := 1
      entCnt := 1 } }

theorem live_astride :
  astride.btmLevel.live = [buildEntry 0xfffff000 2]
  := rfl

theorem freeRanges_astride :
  FreeRanges astride.btmLevel
  where
  toClean := by
    have hput : queueTryenqueue (Queue.init 4) (buildEntry 0xfffff000 2)
        = some astride.btmLevel := rfl
    exact Queue.clean_tryenqueue (Queue.clean_init (by decide)) hput
  distinct := by
    rw [live_astride]
    exact List.nodup_singleton _

/-- The first page of the range lies below 4 GiB. -/
theorem dma_below_one_page :
  FreeRanges astride.btmLevel ∧ 1 ≤ (4096 : BitVec 32).toNat
    ∧ ∀ p s', pmemAllocdma 4096 astride = .ok p s' → p ≠ -1 → ∀ o < 4096, p.toNat + o < 2 ^ 32
  := by
  refine ⟨freeRanges_astride, by decide, ?_⟩
  apply (dma_below_iff freeRanges_astride (show 1 ≤ (4096 : BitVec 32).toNat by decide)).mpr
  intro e he
  have hlarge : firstLarge (dmaPages 4096) astride.btmLevel.live
      = some (buildEntry 0xfffff000 2) := by decide
  obtain rfl := Option.some.inj (hlarge.symm.trans he)
  decide

/-- Both pages of the range are handed out, although the second one lies at 4 GiB. -/
theorem dma_not_below :
  ¬ ∀ (s : Pmem) (sz : BitVec 32), FreeRanges s.btmLevel → 1 ≤ sz.toNat →
    ∀ p s', pmemAllocdma sz s = .ok p s' → p ≠ -1 → ∀ o < sz.toNat, p.toNat + o < 2 ^ 32
  := by
  intro h
  obtain ⟨s', hrun, -⟩ := pmemAllocdma_run freeRanges_astride.sound 8192
  have hlarge : (firstLarge (dmaPages 8192) astride.btmLevel.live).elim (-1) getAddr
      = 0xfffff000 := by decide
  rw [hlarge] at hrun
  have hsz : (8192 : BitVec 32).toNat = 8192 := rfl
  have hne : (0xfffff000 : U64) ≠ -1 := by decide
  have hlast := h astride 8192 freeRanges_astride (by omega) _ _ hrun hne 4096 (by omega)
  have haddr : (0xfffff000 : U64).toNat = 0xfffff000 := rfl
  omega

end PhysMem
