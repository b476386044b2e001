import Gubernatrix.Lib.Machine
import Gubernatrix.Queue

/-!
# The ring queue as a bounded deque

What the ring queue is for: a list of at most `cap` entries, to which entries are added at both
ends and from which they are taken at the front. A queue that `queue_init` has set up gives the
replies of such a list to every sequence of calls.
-/

/-- A call on a queue. -/
inductive QueueCall where
  | tryenqueue (val : U64)
  | tryenqueueFront (val : U64)
  | trydequeue
  | size
  | entcnt

/-- What a call returns: whether it succeeded, the entry taken, if there was one, or a number. -/
inductive QueueReply where
  | success (done : Bool)
  | taken (val : Option U64)
  | number (n : ℤ)
deriving DecidableEq

/-- `queue_init`, where `block` is the memory that `malloc` returns, if it does; `none` when it
returns -1. -/
def queueInit (block : Option (ℕ → U64)) (sz : ℕ) : Option Queue :=
  match block with
  | none => none
  | some queue => some { queue := queue, size := sz, entCnt := 0, head := 0, tail := 0 }

/-- `queue_size`. -/
def queueSize (q : Queue) : ℕ := q.size

namespace Queue

/-- A call on the queue; when it fails, the queue stays as it is. -/
def call (q : Queue) : QueueCall → QueueReply × Queue
  | .tryenqueue val =>
      match queueTryenqueue q val with
      | none => (.success false, q)
      | some q' => (.success true, q')
  | .tryenqueueFront val =>
      match queueTryenqueueFront q val with
      | none => (.success false, q)
      | some q' => (.success true, q')
  | .trydequeue =>
      match queueTrydequeue q with
      | none => (.taken none, q)
      | some (val, q') => (.taken (some val), q')
  | .size => (.number (queueSize q), q)
  | .entcnt => (.number (queueEntcnt q), q)

/-! ### The bounded deque -/

/-- A call on a list of at most `cap` entries. -/
def dequeCall (cap : ℕ) (l : List U64) : QueueCall → QueueReply × List U64
  | .tryenqueue val =>
      if l.length = cap then (.success false, l) else (.success true, l ++ [val])
  | .tryenqueueFront val =>
      if l.length = cap then (.success false, l) else (.success true, val :: l)
  | .trydequeue =>
      match l with
      | [] => (.taken none, [])
      | val :: l => (.taken (some val), l)
  | .size => (.number (cap + 1), l)
  | .entcnt => (.number l.length, l)

/-- The queue holds the list: its ends are slots, its entries those of the list, and the number
that it keeps is theirs. -/
structure Holds (cap : ℕ) (q : Queue) (l : List U64) : Prop extends InRange q where
  size_eq : q.size = cap + 1
  live_eq : q.live = l
  entCnt_eq : q.entCnt = l.length

section Holds

variable {cap : ℕ} {q q' : Queue} {l : List U64} {val : U64}

theorem Holds.liveCnt_eq (h : q.Holds cap l) :
  q.liveCnt = l.length
  := by
  rw [← length_live, h.live_eq]

/-- The queue refuses an entry when its list is full. -/
theorem Holds.full_iff (h : q.Holds cap l) :
  q.liveCnt + 1 = q.size ↔ l.length = cap
  := by
  rw [h.liveCnt_eq, h.size_eq]
  omega

theorem Holds.tryenqueue (h : q.Holds cap l) (hq : queueTryenqueue q val = some q') :
  q'.Holds cap (l ++ [val])
  := by
  obtain ⟨hrange, hsize, -, -, hcnt, -⟩ := tryenqueue_spec h.toInRange hq
  use hrange
  · rw [hsize, h.size_eq]
  · rw [live_tryenqueue h.toInRange hq, h.live_eq]
  · rw [hcnt, h.entCnt_eq, List.length_append]
    rfl

theorem Holds.tryenqueueFront (h : q.Holds cap l) (hq : queueTryenqueueFront q val = some q') :
  q'.Holds cap (val :: l)
  := by
  obtain ⟨hrange, hsize, -, -, hcnt, -⟩ := tryenqueueFront_spec h.toInRange hq
  use hrange
  · rw [hsize, h.size_eq]
  · rw [live_tryenqueueFront h.toInRange hq, h.live_eq]
  · rw [hcnt, h.entCnt_eq, List.length_cons]
    rfl

theorem Holds.trydequeue (h : q.Holds cap l) (hq : queueTrydequeue q = some (val, q')) :
  ∃ l', l = val :: l' ∧ q'.Holds cap l'
  := by
  obtain ⟨hrange, hsize, -, -, hcnt, -⟩ := trydequeue_spec h.toInRange hq
  have hlive := live_trydequeue h.toInRange hq
  rw [h.live_eq] at hlive
  refine ⟨q'.live, hlive, hrange, ?_, rfl, ?_⟩
  · rw [hsize, h.size_eq]
  · rw [hcnt, h.entCnt_eq, hlive, List.length_cons]
    omega

end Holds

/-- A queue and the list that it holds reply alike, and the queue goes on holding the list. -/
theorem simulates_dequeCall (cap : ℕ) :
  Machine.Simulates call (dequeCall cap) (Holds cap)
  := by
  intro q l h c
  cases c with
  | tryenqueue val =>
      rw [call, dequeCall]
      cases hq : queueTryenqueue q val with
      | none =>
          rw [if_pos (h.full_iff.mp ((tryenqueue_eq_none h.toInRange).mp hq))]
          constructor
          · rfl
          · apply h
      | some q' =>
          have hroom : ¬ l.length = cap := by
            intro hfull
            rw [(tryenqueue_eq_none h.toInRange).mpr (h.full_iff.mpr hfull)] at hq
            cases hq
          rw [if_neg hroom]
          constructor
          · rfl
          · apply h.tryenqueue hq
  | tryenqueueFront val =>
      rw [call, dequeCall]
      cases hq : queueTryenqueueFront q val with
      | none =>
          rw [if_pos (h.full_iff.mp ((tryenqueueFront_eq_none h.toInRange).mp hq))]
          constructor
          · rfl
          · apply h
      | some q' =>
          have hroom : ¬ l.length = cap := by
            intro hfull
            rw [(tryenqueueFront_eq_none h.toInRange).mpr (h.full_iff.mpr hfull)] at hq
            cases hq
          rw [if_neg hroom]
          constructor
          · rfl
          · apply h.tryenqueueFront hq
  | trydequeue =>
      rw [call]
      cases hq : queueTrydequeue q with
      | none =>
          have hcnt := (trydequeue_eq_none h.toInRange).mp hq
          rw [h.liveCnt_eq, List.length_eq_zero_iff] at hcnt
          subst hcnt
          constructor
          · rfl
          · apply h
      | some x =>
          obtain ⟨val, q'⟩ := x
          obtain ⟨l', rfl, h'⟩ := h.trydequeue hq
          constructor
          · rfl
          · apply h'
  | size =>
      constructor
      · rw [call, dequeCall, queueSize, h.size_eq]
        rfl
      · apply h
  | entcnt =>
      constructor
      · rw [call, dequeCall, queueEntcnt, h.entCnt_eq]
      · apply h

theorem holds_queueInit {block : Option (ℕ → U64)} {sz : ℕ} (hsz : 1 ≤ sz) {q : Queue}
    (hq : queueInit block sz = some q) :
  q.Holds (sz - 1) []
  := by
  cases block with
  | none => cases hq
  | some queue =>
      cases hq
      constructor
      · use hsz, hsz
      · change sz = sz - 1 + 1
        omega
      · rfl
      · rfl

/-- A queue from `queue_init` replies to every sequence of calls as a list of at most `sz - 1`
entries does, which it holds afterwards: its `head` and `tail` are slots, and its entry count is the
length of the list. -/
theorem refines_deque {block : Option (ℕ → U64)} {sz : ℕ} (hsz : 1 ≤ sz) {q : Queue}
    (hq : queueInit block sz = some q) (calls : List QueueCall) :
  (Machine.run call q calls).1 = (Machine.run (dequeCall (sz - 1)) [] calls).1
    ∧ (Machine.run call q calls).2.live = (Machine.run (dequeCall (sz - 1)) [] calls).2
    ∧ (Machine.run call q calls).2.entCnt = (Machine.run (dequeCall (sz - 1)) [] calls).2.length
    ∧ (Machine.run call q calls).2.head < sz ∧ (Machine.run call q calls).2.tail < sz
  := by
  obtain ⟨hreplies, h⟩ := (simulates_dequeCall (sz - 1)).run (holds_queueInit hsz hq) calls
  have hsize : (Machine.run call q calls).2.size = sz := by
    rw [h.size_eq]
    omega
  have hhead := h.head_lt
  have htail := h.tail_lt
  rw [hsize] at hhead htail
  use hreplies, h.live_eq, h.entCnt_eq, hhead

/-- A queue of three slots, filled and taken around its end. -/
theorem refines_deque_three :
  (Machine.run call ⟨fun _ => 7, 3, 0, 0, 0⟩
      [.tryenqueueFront 1, .tryenqueue 2, .tryenqueue 3, .trydequeue, .entcnt]).1
    = [.success true, .success true, .success false, .taken (some 1), .number 1]
  := by
  have hq : queueInit (some fun _ => 7) 3 = some ⟨fun _ => 7, 3, 0, 0, 0⟩ := rfl
  apply (refines_deque (by decide) hq _).1

end Queue
