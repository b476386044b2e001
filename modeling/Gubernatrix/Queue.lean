import Gubernatrix.Types
import Gubernatrix.Lib.Ring

/-!
# The ring queue

The ring buffer of `stdqueue.c`. A queue of `size` slots holds at most `size - 1` entries,
from slot `head` on; `tail` is the slot the next entry goes to. The entries a queue holds,
in order, are `Queue.live`; the three operations act on that list.
-/

/-- `queue_t`. -/
structure Queue where
  queue : ℕ → U64
  size : ℕ
  entCnt : ℤ
  head : ℕ
  tail : ℕ

/-- The queue that `queue_init` sets up, over zeroed memory. -/
def Queue.init (sz : ℕ) : Queue where
  queue _ := 0
  size := sz
  entCnt := 0
  head := 0
  tail := 0

/-- `queue_entcnt`. -/
def queueEntcnt (q : Queue) : ℤ := q.entCnt

/-- `queue_tryenqueue`: `none` when it returns false. -/
def queueTryenqueue (q : Queue) (val : U64) : Option Queue :=
  let curTail := q.tail
  if q.head = (curTail + 1) % q.size then none
  else some { q with
    queue := Function.update q.queue curTail val
    tail := (curTail + 1) % q.size
    entCnt := q.entCnt + 1 }

/-- `queue_tryenqueue_front`: `none` when it returns false. -/
def queueTryenqueueFront (q : Queue) (val : U64) : Option Queue :=
  let curTail := q.tail
  let curHead := q.head
  if curHead = (curTail + 1) % q.size then none
  else
    let head := if curHead > 0 then (curHead - 1) % q.size else q.size - 1
    some { q with
      queue := Function.update q.queue head val
      head := head
      entCnt := q.entCnt + 1 }

/-- `queue_trydequeue`: `none` when it returns false. -/
def queueTrydequeue (q : Queue) : Option (U64 × Queue) :=
  let curHead := q.head
  if curHead = q.tail then none
  else some (q.queue curHead, { q with
    queue := Function.update q.queue curHead 0
    head := (curHead + 1) % q.size
    entCnt := q.entCnt - 1 })

namespace Queue

open Ring

/-! ### The entries of a queue -/

/-- The number of slots from `head` up to `tail`. -/
def liveCnt (q : Queue) : ℕ :=
  if q.head ≤ q.tail then q.tail - q.head else q.tail + q.size - q.head

/-- The entries of a queue, in order. -/
def live (q : Queue) : List U64 :=
  window q.queue q.size q.head q.liveCnt

theorem length_live (q : Queue) :
  q.live.length = q.liveCnt
  := length_window ..

/-- Both ends of the queue are slots of it. -/
structure InRange (q : Queue) : Prop where
  head_lt : q.head < q.size
  tail_lt : q.tail < q.size

/-- `InRange`, the entry count is that of the live entries, and the slots of no live entry
hold zero. -/
structure Clean (q : Queue) : Prop extends InRange q where
  entCnt_eq : q.entCnt = q.liveCnt
  unused : ∀ k : ℤ, q.head + q.liveCnt ≤ k → k < q.head + q.size →
    q.queue (slot q.size k) = 0

theorem succ_mod {x n : ℕ} (h : x < n) :
  (x + 1) % n = if x + 1 = n then 0 else x + 1
  := by
  split
  next heq => rw [heq, Nat.mod_self]
  next hne => rw [Nat.mod_eq_of_lt (by omega)]

section InRange

variable {q : Queue}

theorem InRange.size_pos (h : q.InRange) :
  0 < q.size
  := Nat.zero_lt_of_lt h.head_lt

theorem InRange.liveCnt_lt (h : q.InRange) :
  q.liveCnt < q.size
  := by
  have := h.head_lt
  have := h.tail_lt
  unfold liveCnt
  split <;> omega

/-- The queue is full when all slots but one are live. -/
theorem InRange.full_iff (h : q.InRange) :
  q.head = (q.tail + 1) % q.size ↔ q.liveCnt + 1 = q.size
  := by
  have := h.head_lt
  have := h.tail_lt
  rw [succ_mod h.tail_lt]
  unfold liveCnt
  split <;> split <;> omega

theorem InRange.empty_iff (h : q.InRange) :
  q.head = q.tail ↔ q.liveCnt = 0
  := by
  have := h.head_lt
  have := h.tail_lt
  unfold liveCnt
  split <;> omega

theorem InRange.slot_head (h : q.InRange) :
  slot q.size q.head = q.head
  := by
  rw [slot_natCast, Nat.mod_eq_of_lt h.head_lt]

/-- The slot past the live entries is `tail`. -/
theorem InRange.slot_tail (h : q.InRange) :
  slot q.size (q.head + q.liveCnt) = q.tail
  := by
  have := h.head_lt
  have := h.tail_lt
  by_cases hle : q.head ≤ q.tail
  · have heq : (q.head : ℤ) + q.liveCnt = (q.tail : ℕ) := by
      rw [liveCnt, if_pos hle]
      omega
    rw [heq, slot_natCast, Nat.mod_eq_of_lt h.tail_lt]
  · have heq : (q.head : ℤ) + q.liveCnt = (q.tail : ℕ) + (q.size : ℤ) := by
      rw [liveCnt, if_neg hle]
      omega
    rw [heq, slot_add_size, slot_natCast, Nat.mod_eq_of_lt h.tail_lt]

end InRange

/-! ### The initial queue -/

theorem clean_init {sz : ℕ} (h : 0 < sz) :
  (init sz).Clean
  where
  head_lt := h
  tail_lt := h
  entCnt_eq := rfl
  unused _ _ _ := rfl

@[simp]
theorem live_init (sz : ℕ) :
  (init sz).live = []
  := rfl

/-! ### Enqueueing at the back -/

section Enqueue

variable {q q' : Queue} {val : U64}

theorem tryenqueue_eq_none (h : q.InRange) :
  queueTryenqueue q val = none ↔ q.liveCnt + 1 = q.size
  := by
  rw [← h.full_iff, queueTryenqueue]
  simp

theorem tryenqueue_spec (h : q.InRange) (hq : queueTryenqueue q val = some q') :
  q'.InRange ∧ q'.size = q.size ∧ q'.head = q.head ∧ q'.liveCnt = q.liveCnt + 1
    ∧ q'.entCnt = q.entCnt + 1 ∧ q'.queue = Function.update q.queue q.tail val
  := by
  rw [queueTryenqueue] at hq
  split at hq
  · cases hq
  next hfull =>
    obtain rfl := Option.some.inj hq
    have hhead := h.head_lt
    have htail := h.tail_lt
    rw [h.full_iff] at hfull
    have hmod := Nat.mod_lt (q.tail + 1) h.size_pos
    refine ⟨⟨hhead, hmod⟩, rfl, rfl, ?_, rfl, rfl⟩
    unfold liveCnt at hfull ⊢
    simp only [succ_mod htail]
    grind

theorem live_tryenqueue (h : q.InRange) (hq : queueTryenqueue q val = some q') :
  q'.live = q.live ++ [val]
  := by
  obtain ⟨h', hsize, hhead, hcnt, -, hqueue⟩ := tryenqueue_spec h hq
  have hlt := h'.liveCnt_lt
  rw [live, hsize, hhead, hcnt, window_add, hqueue]
  congr 1
  · apply window_congr
    intro k hk hk'
    apply Function.update_of_ne
    rw [← h.slot_tail]
    intro heq
    have := slot_injective (by omega) (by omega) heq
    omega
  · rw [window_succ, h.slot_tail, Function.update_self, window_zero]

theorem clean_tryenqueue (h : q.Clean) (hq : queueTryenqueue q val = some q') :
  q'.Clean
  := by
  obtain ⟨h', hsize, hhead, hcnt, hent, hqueue⟩ := tryenqueue_spec h.toInRange hq
  refine ⟨h', by rw [hent, h.entCnt_eq, hcnt]; rfl, ?_⟩
  intro k hk hk'
  rw [hqueue, hsize, Function.update_of_ne]
  · apply h.unused <;> omega
  · rw [← h.slot_tail]
    intro heq
    have := slot_injective (by omega) (by omega) heq
    omega

end Enqueue

/-! ### Enqueueing at the front -/

section EnqueueFront

variable {q q' : Queue} {val : U64}

theorem tryenqueueFront_eq_none (h : q.InRange) :
  queueTryenqueueFront q val = none ↔ q.liveCnt + 1 = q.size
  := by
  rw [← h.full_iff, queueTryenqueueFront]
  simp

theorem tryenqueueFront_spec (h : q.InRange) (hq : queueTryenqueueFront q val = some q') :
  q'.InRange ∧ q'.size = q.size ∧ q'.head = slot q.size (q.head - 1)
    ∧ q'.liveCnt = q.liveCnt + 1 ∧ q'.entCnt = q.entCnt + 1
    ∧ q'.queue = Function.update q.queue (slot q.size (q.head - 1)) val
  := by
  rw [queueTryenqueueFront] at hq
  split at hq
  · cases hq
  next hfull =>
    obtain rfl := Option.some.inj hq
    have hhead := h.head_lt
    have htail := h.tail_lt
    have hslot : (if q.head > 0 then (q.head - 1) % q.size else q.size - 1)
        = slot q.size (q.head - 1) := by
      split
      next hpos =>
        rw [← slot_natCast]
        congr 1
        omega
      next hzero =>
        have hcast : (q.head : ℤ) - 1 + q.size = ((q.size - 1 : ℕ) : ℤ) := by omega
        rw [← slot_add_size, hcast, slot_natCast, Nat.mod_eq_of_lt (by omega)]
    have hval : (if q.head > 0 then (q.head - 1) % q.size else q.size - 1)
        = if q.head > 0 then q.head - 1 else q.size - 1 := by
      split
      · rw [Nat.mod_eq_of_lt (by omega)]
      · rfl
    rw [h.full_iff] at hfull
    refine ⟨⟨?_, htail⟩, rfl, hslot, ?_, rfl, ?_⟩
    · simp only [hslot]
      apply slot_lt h.size_pos
    · unfold liveCnt at hfull ⊢
      simp only [hval]
      grind
    · simp only [hslot]

theorem live_tryenqueueFront (h : q.InRange) (hq : queueTryenqueueFront q val = some q') :
  q'.live = val :: q.live
  := by
  obtain ⟨h', hsize, hhead, hcnt, -, hqueue⟩ := tryenqueueFront_spec h hq
  have hlt := h'.liveCnt_lt
  rw [live, hsize, hhead, window_slot h.size_pos, hcnt, window_succ, hqueue,
    Function.update_self, Int.sub_add_cancel]
  congr 1
  apply window_congr
  intro k hk hk'
  apply Function.update_of_ne
  intro heq
  have := slot_injective (by omega) (by omega) heq
  omega

theorem clean_tryenqueueFront (h : q.Clean) (hq : queueTryenqueueFront q val = some q') :
  q'.Clean
  := by
  obtain ⟨h', hsize, hhead, hcnt, hent, hqueue⟩ := tryenqueueFront_spec h.toInRange hq
  refine ⟨h', by rw [hent, h.entCnt_eq, hcnt]; rfl, ?_⟩
  intro k hk hk'
  -- positions are read from the new head: shift them to the old one
  have hshift := slot_sub_slot h.size_pos k (q.head - 1)
  rw [← hhead] at hshift
  rw [hqueue, hsize, ← hshift, Function.update_of_ne]
  · apply h.unused <;> omega
  · intro heq
    have := slot_injective (by omega) (by omega) heq
    omega

end EnqueueFront

/-! ### Dequeueing -/

section Dequeue

variable {q q' : Queue} {val : U64}

theorem trydequeue_eq_none (h : q.InRange) :
  queueTrydequeue q = none ↔ q.liveCnt = 0
  := by
  rw [← h.empty_iff, queueTrydequeue]
  simp

theorem trydequeue_spec (h : q.InRange) (hq : queueTrydequeue q = some (val, q')) :
  q'.InRange ∧ q'.size = q.size ∧ q'.head = slot q.size (q.head + 1)
    ∧ q.liveCnt = q'.liveCnt + 1 ∧ q'.entCnt = q.entCnt - 1
    ∧ q'.queue = Function.update q.queue q.head 0 ∧ val = q.queue q.head
  := by
  rw [queueTrydequeue] at hq
  split at hq
  · cases hq
  next hne =>
    simp only [Option.some.injEq, Prod.mk.injEq] at hq
    obtain ⟨rfl, rfl⟩ := hq
    have hhead := h.head_lt
    have htail := h.tail_lt
    have hmod := Nat.mod_lt (q.head + 1) h.size_pos
    refine ⟨⟨hmod, htail⟩, rfl, ?_, ?_, rfl, rfl, rfl⟩
    · exact (slot_natCast q.size (q.head + 1)).symm
    · unfold liveCnt
      simp only [succ_mod hhead]
      grind

theorem live_trydequeue (h : q.InRange) (hq : queueTrydequeue q = some (val, q')) :
  q.live = val :: q'.live
  := by
  obtain ⟨h', hsize, hhead, hcnt, -, hqueue, rfl⟩ := trydequeue_spec h hq
  have hlt := h.liveCnt_lt
  rw [live, hcnt, window_succ, h.slot_head, live, hsize, hhead, window_slot h.size_pos, hqueue]
  congr 1
  apply window_congr
  intro k hk hk'
  symm
  apply Function.update_of_ne
  intro heq
  have := slot_injective (by omega) (by omega) (heq.trans h.slot_head.symm)
  omega

theorem clean_trydequeue (h : q.Clean) (hq : queueTrydequeue q = some (val, q')) :
  q'.Clean
  := by
  obtain ⟨h', hsize, hhead, hcnt, hent, hqueue, -⟩ := trydequeue_spec h.toInRange hq
  refine ⟨h', by rw [hent, h.entCnt_eq, hcnt]; omega, ?_⟩
  intro k hk hk'
  have hshift := slot_sub_slot h.size_pos k (q.head + 1)
  rw [← hhead] at hshift
  rw [hqueue, hsize, ← hshift]
  by_cases hlast : k - q'.head + (q.head + 1) = q.head + q.size
  · rw [hlast, slot_add_size, h.slot_head, Function.update_self]
  · rw [Function.update_of_ne]
    · apply h.unused <;> omega
    · intro heq
      have := slot_injective (by omega) (by omega) (heq.trans h.slot_head.symm)
      omega

end Dequeue

end Queue
