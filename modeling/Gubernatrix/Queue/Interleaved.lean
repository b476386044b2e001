import Gubernatrix.Queue
import Gubernatrix.Lib.Atomic

/-!
# The ring queue between two cores

`stdqueue.c` takes no lock: `head`, `tail` and `ent_cnt` are atomic variables, and a core that
enqueues may run while another one dequeues. Here one core calls `queue_tryenqueue` and one core
calls `queue_trydequeue`, again and again, and their loads and stores of the shared queue are
interleaved in any order.

`refines_fifo` says that the queue is then still a queue: what the two cores see is what they see
of an atomic first-in-first-out buffer of `size - 1` entries.
-/

namespace Queue

/-- Where the enqueueing core is in `queue_tryenqueue`. -/
inductive Producer
  | idle
  | entered (val : U64)
  | loaded (val : U64) (curTail : ℕ)
  | room (val : U64) (curTail : ℕ)
  | stored (val : U64) (curTail : ℕ)
  | published
  | returning (ret : Bool)
  deriving DecidableEq

/-- Where the dequeueing core is in `queue_trydequeue`. -/
inductive Consumer
  | idle
  | entered
  | loaded (curHead : ℕ)
  | nonempty (curHead : ℕ)
  | read (curHead : ℕ) (val : U64)
  | cleared (curHead : ℕ) (val : U64)
  | moved (val : U64)
  | returning (ret : Option U64)
  deriving DecidableEq

/-- The next access of `queue_tryenqueue` to the queue: the loads of `tail` and `head`, the store
of the entry, the store of `tail` and the increment of `ent_cnt`. -/
def produce (q : Queue) : Producer → Queue × Producer
  | .idle => (q, .idle)
  | .entered val => (q, .loaded val q.tail)
  | .loaded val curTail =>
      if q.head = (curTail + 1) % q.size then (q, .returning false) else (q, .room val curTail)
  | .room val curTail =>
      ({ q with queue := Function.update q.queue curTail val }, .stored val curTail)
  | .stored _ curTail => ({ q with tail := (curTail + 1) % q.size }, .published)
  | .published => ({ q with entCnt := q.entCnt + 1 }, .returning true)
  | .returning ret => (q, .returning ret)

/-- The next access of `queue_trydequeue` to the queue: the loads of `head` and `tail`, the load
of the entry, the store of zero over it, the store of `head` and the decrement of `ent_cnt`. -/
def consume (q : Queue) : Consumer → Queue × Consumer
  | .idle => (q, .idle)
  | .entered => (q, .loaded q.head)
  | .loaded curHead => if curHead = q.tail then (q, .returning none) else (q, .nonempty curHead)
  | .nonempty curHead => (q, .read curHead (q.queue curHead))
  | .read curHead val =>
      ({ q with queue := Function.update q.queue curHead 0 }, .cleared curHead val)
  | .cleared curHead val => ({ q with head := (curHead + 1) % q.size }, .moved val)
  | .moved val => ({ q with entCnt := q.entCnt - 1 }, .returning (some val))
  | .returning ret => (q, .returning ret)

/-- The two cores. -/
inductive Party
  | producer
  | consumer
  deriving DecidableEq

/-- A call of one of the two functions. -/
inductive Call
  | enqueue (val : U64)
  | dequeue
  deriving DecidableEq

/-- What a call returns; the value that `queue_trydequeue` stores is part of it. -/
inductive Reply
  | accepted (ret : Bool)
  | taken (ret : Option U64)
  deriving DecidableEq

/-- A queue with the two cores that use it. -/
structure Shared where
  q : Queue
  producer : Producer
  consumer : Consumer

/-- What happens next: a call of one of the two functions, or the next access of a core. -/
inductive Act
  | enqueue (val : U64)
  | produce
  | dequeue
  | consume

/-- One step of the two cores, with the call or the return that it is. A core that is in a call
makes no other, and a core that is in none has no next access. -/
def Shared.next (s : Shared) : Act → Option (Atomic.Event Party Call Reply) × Shared
  | .enqueue val =>
      match s.producer with
      | .idle => (some (.call .producer (.enqueue val)), { s with producer := .entered val })
      | _ => (none, s)
  | .produce =>
      match s.producer with
      | .returning ret => (some (.ret .producer (.accepted ret)), { s with producer := .idle })
      | p => (none, { s with q := (produce s.q p).1, producer := (produce s.q p).2 })
  | .dequeue =>
      match s.consumer with
      | .idle => (some (.call .consumer .dequeue), { s with consumer := .entered })
      | _ => (none, s)
  | .consume =>
      match s.consumer with
      | .returning ret => (some (.ret .consumer (.taken ret)), { s with consumer := .idle })
      | c => (none, { s with q := (consume s.q c).1, consumer := (consume s.q c).2 })

/-- The buffer of at most `cap` entries that the queue stands for. -/
def fifo (cap : ℕ) (entries : List U64) : Call → Reply × List U64
  | .enqueue val =>
      if entries.length = cap then (.accepted false, entries)
      else (.accepted true, entries ++ [val])
  | .dequeue =>
      match entries with
      | [] => (.taken none, [])
      | val :: rest => (.taken (some val), rest)

/-! ### One call alone -/

/-- `queue_tryenqueue` is its accesses, when no other core uses the queue meanwhile. -/
theorem produce_alone (q : Queue) (val : U64) :
  ∃ n, (fun x => produce x.1 x.2)^[n] (q, .entered val)
    = match queueTryenqueue q val with
      | some q' => (q', .returning true)
      | none => (q, .returning false)
  := by
  by_cases hfull : q.head = (q.tail + 1) % q.size
  · use 2
    simp [produce, queueTryenqueue, hfull]
  · use 5
    simp [produce, queueTryenqueue, hfull]

/-- `queue_trydequeue` is its accesses, when no other core uses the queue meanwhile. -/
theorem consume_alone (q : Queue) :
  ∃ n, (fun x => consume x.1 x.2)^[n] (q, .entered)
    = match queueTrydequeue q with
      | some (val, q') => (q', .returning (some val))
      | none => (q, .returning none)
  := by
  by_cases hempty : q.head = q.tail
  · use 2
    simp [consume, queueTrydequeue, hempty]
  · use 6
    simp [consume, queueTrydequeue, hempty]

/-! ### What an access changes -/

section Access

variable {q : Queue} {val : U64}

theorem live_congr {q q' : Queue} (hqueue : q'.queue = q.queue) (hsize : q'.size = q.size)
    (hhead : q'.head = q.head) (htail : q'.tail = q.tail) :
  q'.live = q.live
  := by
  rw [live, live, liveCnt, liveCnt, hqueue, hsize, hhead, htail]

/-- The slot at `tail` is none of the live ones. -/
theorem live_store_tail (h : q.InRange) :
  live { q with queue := Function.update q.queue q.tail val } = q.live
  := by
  have hlt := h.liveCnt_lt
  change Ring.window (Function.update q.queue q.tail val) q.size q.head q.liveCnt = _
  apply Ring.window_congr
  intro k hk hk'
  apply Function.update_of_ne
  rw [← h.slot_tail]
  intro heq
  have := Ring.slot_injective (by omega) (by omega) heq
  omega

/-- The slot at `head` is the first live one. -/
theorem live_eq_cons (h : q.InRange) (hcnt : 0 < q.liveCnt) :
  q.live = q.queue q.head :: q.live.tail
  := by
  obtain ⟨n, hn⟩ := Nat.exists_eq_add_of_lt hcnt
  rw [live, hn, Nat.zero_add, Ring.window_succ, h.slot_head, List.tail_cons]

theorem live_store_head (h : q.InRange) (hcnt : 0 < q.liveCnt) :
  (live { q with queue := Function.update q.queue q.head val }).tail = q.live.tail
  := by
  have hlt := h.liveCnt_lt
  obtain ⟨n, hn⟩ := Nat.exists_eq_add_of_lt hcnt
  rw [Nat.zero_add] at hn
  change (Ring.window (Function.update q.queue q.head val) q.size q.head q.liveCnt).tail = _
  rw [live, hn, Ring.window_succ, Ring.window_succ, List.tail_cons, List.tail_cons]
  apply Ring.window_congr
  intro k hk hk'
  apply Function.update_of_ne
  intro heq
  have := Ring.slot_injective (by omega) (by omega) (heq.trans h.slot_head.symm)
  omega

theorem head_ne_tail (h : q.InRange) (hcnt : 0 < q.liveCnt) :
  q.head ≠ q.tail
  := by
  rw [Ne, h.empty_iff]
  omega

/-- Moving `tail` over a slot makes the entry there the last one. -/
theorem move_tail (h : q.InRange) (hcnt : q.liveCnt + 1 < q.size) :
  let q' := { q with tail := (q.tail + 1) % q.size }
  q'.InRange ∧ q'.liveCnt = q.liveCnt + 1 ∧ q'.live = q.live ++ [q.queue q.tail]
  := by
  intro q'
  have hfull : ¬ q.head = (q.tail + 1) % q.size := by
    rw [h.full_iff]
    omega
  have hq : queueTryenqueue q (q.queue q.tail) = some { q' with entCnt := q.entCnt + 1 } := by
    rw [queueTryenqueue, if_neg hfull, Function.update_eq_self]
  obtain ⟨hrange, -, -, hcnt', -, -⟩ := tryenqueue_spec h hq
  refine ⟨⟨hrange.head_lt, hrange.tail_lt⟩, hcnt', ?_⟩
  rw [← live_tryenqueue h hq]
  rfl

/-- Moving `head` over a slot drops the first entry. -/
theorem move_head (h : q.InRange) (hcnt : 0 < q.liveCnt) :
  let q' := { q with head := (q.head + 1) % q.size }
  q'.InRange ∧ q.liveCnt = q'.liveCnt + 1 ∧ q'.live = q.live.tail
  := by
  intro q'
  have hq : queueTrydequeue q = some (q.queue q.head, { q' with
      queue := Function.update q.queue q.head 0
      entCnt := q.entCnt - 1 }) := by
    rw [queueTrydequeue, if_neg (head_ne_tail h hcnt)]
  obtain ⟨hrange, -, hslot, hcnt', -, -, -⟩ := trydequeue_spec h hq
  refine ⟨⟨hrange.head_lt, hrange.tail_lt⟩, hcnt', ?_⟩
  have hhead : q'.head = Ring.slot q.size (q.head + 1) := hslot
  have hcnt'' : q.liveCnt = q'.liveCnt + 1 := hcnt'
  rw [live, live, hcnt'', Ring.window_succ, List.tail_cons, hhead,
    show q'.size = q.size from rfl, Ring.window_slot h.size_pos]

end Access

/-! ### What the cores know of the queue -/

/-- What the enqueueing core has found out stays true until it moves `tail`. -/
def Producer.Ok (q : Queue) : Producer → Prop
  | .loaded _ curTail => curTail = q.tail
  | .room _ curTail => curTail = q.tail ∧ q.liveCnt + 1 < q.size
  | .stored val curTail => curTail = q.tail ∧ q.liveCnt + 1 < q.size ∧ q.queue q.tail = val
  | _ => True

/-- What the dequeueing core has found out stays true until it moves `head`. -/
def Consumer.Ok (q : Queue) : Consumer → Prop
  | .loaded curHead => curHead = q.head
  | .nonempty curHead => curHead = q.head ∧ 0 < q.liveCnt
  | .read curHead val => curHead = q.head ∧ 0 < q.liveCnt ∧ q.queue q.head = val
  | .cleared curHead _ => curHead = q.head ∧ 0 < q.liveCnt
  | _ => True

/-- The entries that are in the queue and not in `ent_cnt`. -/
def Producer.uncounted : Producer → ℤ
  | .published => 1
  | _ => 0

/-- The entries that are in `ent_cnt` and no longer in the queue. -/
def Consumer.uncounted : Consumer → ℤ
  | .moved _ => 1
  | _ => 0

/-- The invariant of the two cores. -/
structure Shared.Inv (s : Shared) : Prop where
  range : s.q.InRange
  producer : s.producer.Ok s.q
  consumer : s.consumer.Ok s.q
  entCnt : s.q.entCnt = s.q.liveCnt - s.producer.uncounted + s.consumer.uncounted

/-- The call of the enqueueing core takes effect when it moves `tail` or finds no room. -/
def Producer.status : Producer → Atomic.Status Call Reply
  | .idle => .idle
  | .entered val | .loaded val _ | .room val _ | .stored val _ => .called (.enqueue val)
  | .published => .answered (.accepted true)
  | .returning ret => .answered (.accepted ret)

/-- The call of the dequeueing core takes effect when it moves `head` or finds no entry. -/
def Consumer.status : Consumer → Atomic.Status Call Reply
  | .idle => .idle
  | .entered | .loaded _ | .nonempty _ | .read _ _ | .cleared _ _ => .called .dequeue
  | .moved val => .answered (.taken (some val))
  | .returning ret => .answered (.taken ret)

namespace Shared

/-- The entries of the queue. The first one may be overwritten already, by the core that is about
to take it. -/
def entries (s : Shared) : List U64 :=
  match s.consumer with
  | .cleared _ val => val :: s.q.live.tail
  | _ => s.q.live

/-- The atomic object that the two cores and the queue stand for. -/
def object (s : Shared) : Atomic.Object Party (List U64) Call Reply where
  state := s.entries
  status
    | .producer => s.producer.status
    | .consumer => s.consumer.status

/-- The queue between two cores that are in no call. -/
def quiet (q : Queue) : Shared where
  q := q
  producer := .idle
  consumer := .idle

variable {s : Shared}

theorem inv_quiet {q : Queue} (h : q.InRange) (hcnt : q.entCnt = q.liveCnt) :
  (quiet q).Inv
  := by
  refine ⟨h, trivial, trivial, ?_⟩
  change q.entCnt = q.liveCnt - 0 + 0
  rw [hcnt, Int.sub_zero, Int.add_zero]

theorem object_quiet (q : Queue) :
  (quiet q).object = .quiet q.live
  := by
  rw [object, Atomic.Object.quiet]
  congr
  funext t
  cases t <;> rfl

theorem Inv.length_entries (h : s.Inv) :
  s.entries.length = s.q.liveCnt
  := by
  obtain ⟨q, p, c⟩ := s
  cases c with
  | cleared curHead val =>
      have hcons := congrArg List.length (live_eq_cons h.range h.consumer.2)
      rw [length_live] at hcons
      exact hcons.symm
  | _ => exact length_live q

theorem status_producer (q q' : Queue) (p p' : Producer) (c : Consumer) :
  (object ⟨q', p', c⟩).status = Function.update (object ⟨q, p, c⟩).status .producer p'.status
  := by
  funext t
  cases t <;> simp [object]

theorem status_same_producer (q : Queue) {q' : Queue} {p p' : Producer} {c : Consumer}
    (h : p'.status = p.status) :
  (object ⟨q', p', c⟩).status = (object ⟨q, p, c⟩).status
  := by
  rw [status_producer q q' p, h]
  apply Function.update_eq_self

theorem status_consumer (q q' : Queue) (p : Producer) (c c' : Consumer) :
  (object ⟨q', p, c'⟩).status = Function.update (object ⟨q, p, c⟩).status .consumer c'.status
  := by
  funext t
  cases t <;> simp [object]

theorem status_same_consumer (q : Queue) {q' : Queue} {p : Producer} {c c' : Consumer}
    (h : c'.status = c.status) :
  (object ⟨q', p, c'⟩).status = (object ⟨q, p, c⟩).status
  := by
  rw [status_consumer q q' p c, h]
  apply Function.update_eq_self

/-! ### One access -/

section Access

variable {q q' : Queue} {p p' : Producer} {c c' : Consumer} {cap : ℕ}

open Atomic (Path Step)

/-- An access that neither changes the entries nor answers the call. -/
theorem path_silent {s s' : Shared} (hentries : s'.entries = s.entries)
    (hstatus : s'.object.status = s.object.status) :
  Path (Step (fifo cap)) s.object [] s'.object
  := by
  have heq : s'.object = s.object := by
    rw [object, object] at hstatus ⊢
    congr
  rw [heq]
  apply Path.nil

/-- An access by which a call takes effect. -/
theorem path_effect {s s' : Shared} (t : Party) (call : Call) (reply : Reply)
    (hcall : s.object.status t = .called call)
    (hfifo : fifo cap s.entries call = (reply, s'.entries))
    (hstatus : s'.object.status = Function.update s.object.status t (.answered reply)) :
  Path (Step (fifo cap)) s.object [] s'.object
  := by
  have hstep : Step (fifo cap) s.object none _ := Step.effect hcall
  have heq : s'.object = ⟨(fifo cap s.object.state call).2, Function.update s.object.status t
      (.answered (fifo cap s.object.state call).1)⟩ := by
    rw [show s.object.state = s.entries from rfl, hfifo, ← hstatus]
    rfl
  rw [heq]
  exact Path.one hstep

/-- The entries when the enqueueing core has appended one, or none, to the live ones. -/
theorem entries_append (h : Inv ⟨q, p, c⟩) {vals : List U64} (hlive : q'.live = q.live ++ vals) :
  entries ⟨q', p', c⟩ = entries ⟨q, p, c⟩ ++ vals
  := by
  cases c with
  | cleared curHead val =>
      have hne : q.live ≠ [] := by
        rw [live_eq_cons h.range h.consumer.2]
        apply List.cons_ne_nil
      rw [entries, entries, hlive, List.tail_append_of_ne_nil hne, List.cons_append]
  | _ => exact hlive

/-- What the dequeueing core knows stays true when entries are added behind the first one. -/
theorem ok_of_grown (h : c.Ok q) (hhead : q'.head = q.head) (hcnt : q.liveCnt ≤ q'.liveCnt)
    (hfirst : 0 < q.liveCnt → q'.queue q.head = q.queue q.head) :
  c.Ok q'
  := by
  cases c <;> grind [Consumer.Ok]

/-- What the enqueueing core knows stays true when entries are taken away. -/
theorem ok_of_shrunk (h : p.Ok q) (hsize : q'.size = q.size) (htail : q'.tail = q.tail)
    (hcnt : q'.liveCnt ≤ q.liveCnt) (hfree : q'.queue q.tail = q.queue q.tail) :
  p.Ok q'
  := by
  cases p <;> grind [Producer.Ok]

theorem refines_produce (h : Inv ⟨q, p, c⟩) (hsize : q.size = cap + 1) :
  let s := next ⟨q, p, c⟩ .produce
  Path (Step (fifo cap)) (object ⟨q, p, c⟩) s.1.toList s.2.object ∧ s.2.Inv
    ∧ s.2.q.size = cap + 1
  := by
  have hrange : q.InRange := h.range
  have hok : p.Ok q := h.producer
  have hent := h.entCnt
  cases p with
  | idle => exact ⟨path_silent rfl rfl, h, hsize⟩
  | entered val =>
      refine ⟨path_silent rfl ?_, ⟨hrange, rfl, h.consumer, hent⟩, hsize⟩
      exact status_same_producer q rfl
  | loaded val curTail =>
      obtain rfl : curTail = q.tail := hok
      by_cases hfull : q.head = (q.tail + 1) % q.size
      · -- no slot is free, and the call fails
        have hlen := h.length_entries
        have hcnt := hrange.full_iff.mp hfull
        simp only [next, produce, if_pos hfull]
        refine ⟨path_effect .producer (.enqueue val) (.accepted false) rfl ?_
          (status_producer q ..), ⟨hrange, trivial, h.consumer, hent⟩, hsize⟩
        rw [fifo, if_pos (by simp only at hlen; omega)]
        rfl
      · have hroom : q.liveCnt + 1 < q.size := by
          have := hrange.liveCnt_lt
          rw [hrange.full_iff] at hfull
          omega
        simp only [next, produce, if_neg hfull]
        refine ⟨path_silent rfl ?_, ⟨hrange, ⟨rfl, hroom⟩, h.consumer, hent⟩, hsize⟩
        exact status_same_producer q rfl
  | room val curTail =>
      obtain ⟨rfl, hroom⟩ := hok
      refine ⟨path_silent ?_ ?_, ⟨⟨hrange.head_lt, hrange.tail_lt⟩, ⟨rfl, hroom, ?_⟩,
        ok_of_grown h.consumer rfl le_rfl ?_, hent⟩, hsize⟩
      · rw [← List.append_nil (entries ⟨q, _, c⟩)]
        apply entries_append h
        rw [List.append_nil]
        apply live_store_tail hrange
      · exact status_same_producer q rfl
      · apply Function.update_self
      · intro hpos
        apply Function.update_of_ne (head_ne_tail hrange hpos)
  | stored val curTail =>
      obtain ⟨rfl, hroom, rfl⟩ := hok
      obtain ⟨hrange', hcnt, hlive⟩ := move_tail hrange hroom
      have hlen := h.length_entries
      refine ⟨path_effect .producer (.enqueue _) (.accepted true) rfl ?_
        (status_producer q ..), ⟨hrange', trivial, ok_of_grown h.consumer rfl ?_ ?_, ?_⟩, hsize⟩
      · rw [fifo, if_neg (by simp only at hlen; omega), ← entries_append h hlive]
        rfl
      · exact hcnt.symm ▸ Nat.le_succ _
      · exact fun _ => rfl
      · change q.entCnt = liveCnt { q with tail := (q.tail + 1) % q.size } - 1 + c.uncounted
        change q.entCnt = q.liveCnt - 0 + c.uncounted at hent
        omega
  | published =>
      refine ⟨path_silent ?_ ?_, ⟨⟨hrange.head_lt, hrange.tail_lt⟩, trivial,
        ok_of_grown h.consumer rfl le_rfl fun _ => rfl, ?_⟩, hsize⟩
      · rw [← List.append_nil (entries ⟨q, _, c⟩)]
        apply entries_append h
        rw [List.append_nil]
        exact live_congr rfl rfl rfl rfl
      · exact status_same_producer q rfl
      · change q.entCnt + 1 = q.liveCnt - 0 + c.uncounted
        change q.entCnt = q.liveCnt - 1 + c.uncounted at hent
        omega
  | returning ret =>
      refine ⟨Path.one ?_, ⟨hrange, trivial, h.consumer, hent⟩, hsize⟩
      have hstep : Step (fifo cap) (object ⟨q, .returning ret, c⟩) _ _ :=
        Step.ret (t := .producer) (o := .accepted ret) rfl
      have heq : object ⟨q, .idle, c⟩ = { object ⟨q, .returning ret, c⟩ with
          status := Function.update (object ⟨q, .returning ret, c⟩).status .producer .idle } := by
        rw [show Atomic.Status.idle = Producer.idle.status from rfl, ← status_producer q q]
        rfl
      change Step _ _ _ (object ⟨q, .idle, c⟩)
      rw [heq]
      exact hstep

theorem refines_consume (h : Inv ⟨q, p, c⟩) (hsize : q.size = cap + 1) :
  let s := next ⟨q, p, c⟩ .consume
  Path (Step (fifo cap)) (object ⟨q, p, c⟩) s.1.toList s.2.object ∧ s.2.Inv
    ∧ s.2.q.size = cap + 1
  := by
  have hrange : q.InRange := h.range
  have hok : c.Ok q := h.consumer
  have hent := h.entCnt
  cases c with
  | idle => exact ⟨path_silent rfl rfl, h, hsize⟩
  | entered =>
      exact ⟨path_silent rfl (status_same_consumer q rfl), ⟨hrange, h.producer, rfl, hent⟩, hsize⟩
  | loaded curHead =>
      obtain rfl : curHead = q.head := hok
      by_cases hempty : q.head = q.tail
      · -- there is no entry, and the call fails
        have hlive : q.live = [] := by
          rw [← List.length_eq_zero_iff, length_live]
          exact hrange.empty_iff.mp hempty
        simp only [next, consume, if_pos hempty]
        refine ⟨path_effect .consumer .dequeue (.taken none) rfl ?_
          (status_consumer q ..), ⟨hrange, h.producer, trivial, hent⟩, hsize⟩
        simp only [entries, hlive, fifo]
      · have hpos : 0 < q.liveCnt := by
          rw [hrange.empty_iff] at hempty
          omega
        simp only [next, consume, if_neg hempty]
        exact ⟨path_silent rfl (status_same_consumer q rfl),
          ⟨hrange, h.producer, ⟨rfl, hpos⟩, hent⟩, hsize⟩
  | nonempty curHead =>
      obtain ⟨rfl, hpos⟩ := hok
      exact ⟨path_silent rfl (status_same_consumer q rfl),
        ⟨hrange, h.producer, ⟨rfl, hpos, rfl⟩, hent⟩, hsize⟩
  | read curHead val =>
      obtain ⟨rfl, hpos, rfl⟩ := hok
      refine ⟨path_silent ?_ (status_same_consumer q rfl), ⟨⟨hrange.head_lt, hrange.tail_lt⟩,
        ok_of_shrunk h.producer rfl rfl le_rfl ?_, ⟨rfl, hpos⟩, hent⟩, hsize⟩
      · change _ :: (live { q with queue := Function.update q.queue q.head 0 }).tail = q.live
        rw [live_store_head hrange hpos]
        exact (live_eq_cons hrange hpos).symm
      · apply Function.update_of_ne (head_ne_tail hrange hpos).symm
  | cleared curHead val =>
      obtain ⟨rfl, hpos⟩ := hok
      obtain ⟨hrange', hcnt, hlive⟩ := move_head hrange hpos
      refine ⟨path_effect .consumer .dequeue (.taken (some val)) rfl ?_
        (status_consumer q ..), ⟨hrange', ok_of_shrunk h.producer rfl rfl ?_ rfl, trivial, ?_⟩,
        hsize⟩
      · simp only [entries, fifo]
        exact congrArg _ hlive.symm
      · exact hcnt ▸ Nat.le_succ _
      · change q.entCnt = liveCnt { q with head := (q.head + 1) % q.size } - p.uncounted + 1
        change q.entCnt = q.liveCnt - p.uncounted + 0 at hent
        omega
  | moved val =>
      refine ⟨path_silent ?_ (status_same_consumer q rfl), ⟨⟨hrange.head_lt, hrange.tail_lt⟩,
        ok_of_shrunk h.producer rfl rfl le_rfl rfl, trivial, ?_⟩, hsize⟩
      · exact live_congr rfl rfl rfl rfl
      · change q.entCnt - 1 = q.liveCnt - p.uncounted + 0
        change q.entCnt = q.liveCnt - p.uncounted + 1 at hent
        omega
  | returning ret =>
      refine ⟨Path.one ?_, ⟨hrange, h.producer, trivial, hent⟩, hsize⟩
      have hstep : Step (fifo cap) (object ⟨q, p, .returning ret⟩) _ _ :=
        Step.ret (t := .consumer) (o := .taken ret) rfl
      have heq : object ⟨q, p, .idle⟩ = { object ⟨q, p, .returning ret⟩ with
          status := Function.update (object ⟨q, p, .returning ret⟩).status .consumer .idle } := by
        rw [show Atomic.Status.idle = Consumer.idle.status from rfl, ← status_consumer q q]
        rfl
      change Step _ _ _ (object ⟨q, p, .idle⟩)
      rw [heq]
      exact hstep

theorem refines_call_enqueue (h : Inv ⟨q, p, c⟩) (hsize : q.size = cap + 1) (val : U64) :
  let s := next ⟨q, p, c⟩ (.enqueue val)
  Path (Step (fifo cap)) (object ⟨q, p, c⟩) s.1.toList s.2.object ∧ s.2.Inv
    ∧ s.2.q.size = cap + 1
  := by
  cases p with
  | idle =>
      refine ⟨Path.one ?_, ⟨h.range, trivial, h.consumer, h.entCnt⟩, hsize⟩
      have hstep : Step (fifo cap) (object ⟨q, .idle, c⟩) _ _ :=
        Step.call (t := .producer) (i := .enqueue val) rfl
      have heq : object ⟨q, .entered val, c⟩ = { object ⟨q, .idle, c⟩ with
          status := Function.update (object ⟨q, .idle, c⟩).status .producer
            (.called (.enqueue val)) } := by
        rw [show Atomic.Status.called (.enqueue val) = (Producer.entered val).status from rfl,
          ← status_producer q q]
        rfl
      change Step _ _ _ (object ⟨q, .entered val, c⟩)
      rw [heq]
      exact hstep
  | _ => exact ⟨path_silent rfl rfl, h, hsize⟩

theorem refines_call_dequeue (h : Inv ⟨q, p, c⟩) (hsize : q.size = cap + 1) :
  let s := next ⟨q, p, c⟩ .dequeue
  Path (Step (fifo cap)) (object ⟨q, p, c⟩) s.1.toList s.2.object ∧ s.2.Inv
    ∧ s.2.q.size = cap + 1
  := by
  cases c with
  | idle =>
      refine ⟨Path.one ?_, ⟨h.range, h.producer, trivial, h.entCnt⟩, hsize⟩
      have hstep : Step (fifo cap) (object ⟨q, p, .idle⟩) _ _ :=
        Step.call (t := .consumer) (i := .dequeue) rfl
      have heq : object ⟨q, p, .entered⟩ = { object ⟨q, p, .idle⟩ with
          status := Function.update (object ⟨q, p, .idle⟩).status .consumer
            (.called .dequeue) } := by
        rw [show Atomic.Status.called .dequeue = Consumer.entered.status from rfl,
          ← status_consumer q q]
        rfl
      change Step _ _ _ (object ⟨q, p, .entered⟩)
      rw [heq]
      exact hstep
  | _ => exact ⟨path_silent rfl rfl, h, hsize⟩

end Access

/-! ### Any interleaving -/

section Run

open Atomic

/-- Each access is matched by the atomic buffer. -/
theorem refines_fifo (cap : ℕ) :
  Refines next (fifo cap) fun s a => s.Inv ∧ s.q.size = cap + 1 ∧ a = s.object
  := by
  rintro ⟨q, p, c⟩ a ⟨hinv, hsize, rfl⟩ x
  cases x with
  | enqueue val =>
      obtain ⟨hpath, hinv', hsize'⟩ := refines_call_enqueue hinv hsize val
      exact ⟨_, hpath, hinv', hsize', rfl⟩
  | produce =>
      obtain ⟨hpath, hinv', hsize'⟩ := refines_produce hinv hsize
      exact ⟨_, hpath, hinv', hsize', rfl⟩
  | dequeue =>
      obtain ⟨hpath, hinv', hsize'⟩ := refines_call_dequeue hinv hsize
      exact ⟨_, hpath, hinv', hsize', rfl⟩
  | consume =>
      obtain ⟨hpath, hinv', hsize'⟩ := refines_consume hinv hsize
      exact ⟨_, hpath, hinv', hsize', rfl⟩

variable {q : Queue}

theorem path_of_run (h : q.InRange) (hcnt : q.entCnt = q.liveCnt) (acts : List Act) :
  let s := final next (quiet q) acts
  Path (Step (fifo (q.size - 1))) (.quiet q.live) (events next (quiet q) acts) s.object
    ∧ s.Inv ∧ s.q.size = q.size
  := by
  have hsize : q.size = q.size - 1 + 1 := by
    have := h.size_pos
    omega
  obtain ⟨a, hpath, hinv, hsize', rfl⟩ :=
    (refines_fifo (q.size - 1)).path ⟨inv_quiet h hcnt, hsize, rfl⟩ acts
  rw [object_quiet] at hpath
  exact ⟨hpath, hinv, hsize'.trans hsize.symm⟩

/-- However the accesses of an enqueueing core and of a dequeueing core are interleaved, the
calls and returns that the two cores see are those of an atomic first-in-first-out buffer of
`size - 1` entries: every call takes effect at one moment between its call and its return. -/
theorem interleaved_eq_fifo (h : q.InRange) (hcnt : q.entCnt = q.liveCnt) (acts : List Act) :
  ∃ a, Path (Step (fifo (q.size - 1))) (.quiet q.live) (events next (quiet q) acts) a
    ∧ a.state = (final next (quiet q) acts).entries
  := by
  obtain ⟨hpath, -⟩ := path_of_run h hcnt acts
  exact ⟨_, hpath, rfl⟩

/-- A queue of two slots on memory that is not zero: an entry is put in while the other core looks
for one, and is taken out before it has been counted. -/
theorem interleaved_eq_fifo_init :
  let q : Queue := ⟨fun _ => 9, 2, 0, 0, 0⟩
  let acts : List Act := [.enqueue 7, .dequeue, .produce, .consume, .produce, .produce, .produce,
    .consume, .consume, .consume, .consume, .produce, .consume, .consume, .produce]
  let es : List (Event Party Call Reply) := [.call .producer (.enqueue 7),
    .call .consumer .dequeue, .ret .consumer (.taken (some 7)), .ret .producer (.accepted true)]
  events next (quiet q) acts = es
    ∧ ∃ a, Path (Step (fifo 1)) (.quiet []) es a ∧ a.state = []
  := by
  intro q acts es
  obtain ⟨a, hpath, hstate⟩ :=
    interleaved_eq_fifo (q := q) ⟨Nat.two_pos, Nat.two_pos⟩ rfl acts
  have hevents : events next (quiet q) acts = es := by
    simp [acts, es, q, quiet, events, next, produce, consume]
  have hentries : (final next (quiet q) acts).entries = [] := by
    simp [acts, q, quiet, final, next, produce, consume, entries, live, liveCnt]
  rw [hevents] at hpath
  exact ⟨hevents, a, hpath, hstate.trans hentries⟩

/-- What `queue_entcnt` reads is behind the entries by one while the enqueueing core is about to
count its entry, and ahead of them by one while the dequeueing core is about to discount its own:
it may be as low as minus one, and as high as `size`. -/
theorem entCnt_bounds (h : q.InRange) (hcnt : q.entCnt = q.liveCnt) (acts : List Act) :
  let s := final next (quiet q) acts
  queueEntcnt s.q ≤ q.size ∧ -1 ≤ queueEntcnt s.q
  := by
  obtain ⟨-, hinv, hsize⟩ := path_of_run h hcnt acts
  have hent := hinv.entCnt
  have hlt := hinv.range.liveCnt_lt
  intro s
  have hp : 0 ≤ s.producer.uncounted ∧ s.producer.uncounted ≤ 1 := by
    cases s.producer <;> simp [Producer.uncounted]
  have hc : 0 ≤ s.consumer.uncounted ∧ s.consumer.uncounted ≤ 1 := by
    cases s.consumer <;> simp [Consumer.uncounted]
  unfold queueEntcnt
  change s.q.size = q.size at hsize
  change s.q.entCnt = s.q.liveCnt - s.producer.uncounted + s.consumer.uncounted at hent
  change s.q.liveCnt < s.q.size at hlt
  omega

/-- An entry is taken out before it has been counted. -/
theorem entCnt_bounds_init :
  let acts : List Act := [.enqueue 7, .produce, .produce, .produce, .produce, .dequeue, .consume,
    .consume, .consume, .consume, .consume, .consume]
  let s := final next (quiet (init 2)) acts
  queueEntcnt s.q ≤ 2 ∧ -1 ≤ queueEntcnt s.q
  := entCnt_bounds (q := init 2) ⟨Nat.two_pos, Nat.two_pos⟩ rfl _

/-- The values that `queue_tryenqueue` accepted, in order. -/
def enqueued (es : List (Event Party Call Reply)) : List U64 :=
  ((callsOf .producer es).zip (repliesOf .producer es)).filterMap fun
    | (.enqueue val, .accepted true) => some val
    | _ => none

/-- The values that `queue_trydequeue` returned, in order. -/
def dequeued (es : List (Event Party Call Reply)) : List U64 :=
  (repliesOf .consumer es).filterMap fun
    | .taken ret => ret
    | .accepted _ => none

/-- The entry that an effect appends. -/
def put : Effect Party Call Reply → Option U64
  | ⟨_, .enqueue val, .accepted true⟩ => some val
  | _ => none

/-- The entry that an effect takes away. -/
def got : Effect Party Call Reply → Option U64
  | ⟨_, _, .taken ret⟩ => ret
  | _ => none

/-- A buffer gives back what was put into it, in the same order. -/
theorem fifo_run {cap : ℕ} {entries entries' : List U64} {h : List (Effect Party Call Reply)}
    (hrun : Machine.run (fifo cap) entries (h.map (·.input)) = (h.map (·.output), entries')) :
  entries ++ h.filterMap put = h.filterMap got ++ entries'
  := by
  induction h generalizing entries with
  | nil => simpa [Machine.run] using hrun
  | cons e h ih =>
      obtain ⟨t, input, output⟩ := e
      simp only [List.map_cons, Machine.run, Prod.mk.injEq, List.cons.injEq] at hrun
      obtain ⟨⟨houtput, houtputs⟩, hlast⟩ := hrun
      have ih := ih (Prod.ext houtputs hlast)
      cases input with
      | enqueue val =>
          by_cases hfull : entries.length = cap
          · obtain rfl : Reply.accepted false = output := by simpa [fifo, hfull] using houtput
            simpa [fifo, hfull, put, got, List.filterMap_cons] using ih
          · obtain rfl : Reply.accepted true = output := by simpa [fifo, hfull] using houtput
            simpa [fifo, hfull, put, got, List.filterMap_cons] using ih
      | dequeue =>
          cases entries with
          | nil =>
              obtain rfl : Reply.taken none = output := houtput
              simpa [fifo, put, got, List.filterMap_cons] using ih
          | cons val rest =>
              obtain rfl : Reply.taken (some val) = output := houtput
              simpa [fifo, put, got, List.filterMap_cons] using ih

/-- Each core calls its own function only. -/
def Sided : Event Party Call Reply → Prop
  | .call .producer call => ∃ val, call = .enqueue val
  | .call .consumer call => call = .dequeue
  | .ret .producer reply => ∃ ret, reply = .accepted ret
  | .ret .consumer reply => ∃ ret, reply = .taken ret

theorem sided_next (s : Shared) (x : Act) :
  ∀ e ∈ (next s x).1, Sided e
  := by
  obtain ⟨q, p, c⟩ := s
  cases x with
  | enqueue val => cases p <;> simp [next, Sided]
  | produce => cases p <;> simp [next, Sided]
  | dequeue => cases c <;> simp [next, Sided]
  | consume => cases c <;> simp [next, Sided]

theorem sided_events (s : Shared) (acts : List Act) :
  ∀ e ∈ events next s acts, Sided e
  := by
  induction acts generalizing s with
  | nil => simp [events]
  | cons x acts ih =>
      intro e he
      rw [events, List.mem_append, Option.mem_toList] at he
      rcases he with he | he
      · exact sided_next s x e he
      · exact ih _ e he

section Whole

variable {es : List (Event Party Call Reply)} {h : List (Effect Party Call Reply)}

/-- Only the effects of one core count, if those of the other one do not. -/
theorem filterMap_effectsOf {f : Effect Party Call Reply → Option U64} {t : Party}
    (hf : ∀ e ∈ h, e.thread ≠ t → f e = none) :
  (effectsOf t h).filterMap f = h.filterMap f
  := by
  rw [effectsOf, List.filterMap_filter]
  apply List.filterMap_congr
  intro e he
  by_cases ht : e.thread = t
  · simp [ht]
  · simp [ht, hf e he ht]

theorem mem_effectsOf {e : Effect Party Call Reply} (he : e ∈ h) :
  e ∈ effectsOf e.thread h
  := by
  rw [effectsOf, List.mem_filter]
  exact ⟨he, decide_eq_true rfl⟩

theorem enqueued_eq (hs : ∀ e ∈ es, Sided e)
    (hcalls : ∀ t, callsOf t es = (effectsOf t h).map (·.input))
    (hreplies : ∀ t, repliesOf t es = (effectsOf t h).map (·.output)) :
  enqueued es = h.filterMap put
  := by
  rw [← filterMap_effectsOf (t := .producer), enqueued, hcalls, hreplies, List.zip_map',
    List.filterMap_map]
  · congr 1
    funext ⟨t, input, output⟩
    rcases input with val | _ <;> rcases output with (_ | _) | ret <;> rfl
  · rintro ⟨t, input, output⟩ he ht
    cases t with
    | producer => exact absurd rfl ht
    | consumer =>
        have hmem : input ∈ callsOf .consumer es := by
          rw [hcalls]
          exact List.mem_map_of_mem (mem_effectsOf he)
        obtain ⟨e, hes, he⟩ := List.mem_filterMap.mp hmem
        have := hs e hes
        cases e with
        | call t' input' => cases t' <;> simp_all [Sided, put]
        | ret t' output' => simp at he

theorem dequeued_eq (hs : ∀ e ∈ es, Sided e)
    (hreplies : ∀ t, repliesOf t es = (effectsOf t h).map (·.output)) :
  dequeued es = h.filterMap got
  := by
  rw [← filterMap_effectsOf (t := .consumer), dequeued, hreplies, List.filterMap_map]
  · congr 1
    funext ⟨t, input, output⟩
    cases output <;> rfl
  · rintro ⟨t, input, output⟩ he ht
    cases t with
    | consumer => exact absurd rfl ht
    | producer =>
        have hmem : output ∈ repliesOf .producer es := by
          rw [hreplies]
          exact List.mem_map_of_mem (mem_effectsOf he)
        obtain ⟨e, hes, he⟩ := List.mem_filterMap.mp hmem
        have := hs e hes
        cases e with
        | call t' input' => simp at he
        | ret t' output' =>
            cases t' with
            | producer =>
                obtain ⟨ret, rfl⟩ := this
                obtain rfl : Reply.accepted ret = output := by simpa using he
                rfl
            | consumer => simp at he

end Whole

/-- Nothing is lost, nothing comes twice and nothing overtakes: when both cores are in no call,
the values taken so far and the entries of the queue are the entries it had at first and the
values accepted since, in order, and `ent_cnt` is the number of entries. -/
theorem dequeued_append_live {q : Queue} (h : q.InRange) (hcnt : q.entCnt = q.liveCnt)
    (acts : List Act)
    (hproducer : (final next (quiet q) acts).producer = .idle)
    (hconsumer : (final next (quiet q) acts).consumer = .idle) :
  let es := events next (quiet q) acts
  let q' := (final next (quiet q) acts).q
  dequeued es ++ q'.live = q.live ++ enqueued es ∧ queueEntcnt q' = q'.live.length
  := by
  intro es q'
  obtain ⟨hpath, hinv, -⟩ := path_of_run h hcnt acts
  obtain ⟨effects, hrun, hcalls, hreplies⟩ := hpath.exists_history
  have hidle : ∀ t, (final next (quiet q) acts).object.status t = .idle := by
    intro t
    cases t with
    | producer => exact congrArg Producer.status hproducer
    | consumer => exact congrArg Consumer.status hconsumer
  have hentries : (final next (quiet q) acts).entries = q'.live := by
    rw [entries, hconsumer]
  simp only [hidle, Object.quiet, Status.waiting, Status.pending, List.nil_append,
    List.append_nil] at hcalls hreplies
  constructor
  · rw [enqueued_eq (sided_events _ _) hcalls hreplies,
      dequeued_eq (sided_events _ _) hreplies, ← hentries]
    exact (fifo_run hrun).symm
  · have hent := hinv.entCnt
    rw [hproducer, hconsumer] at hent
    change q'.entCnt = q'.liveCnt - 0 + 0 at hent
    rw [length_live, queueEntcnt, hent, Int.sub_zero, Int.add_zero]

theorem dequeued_append_live_init :
  let acts : List Act := [.enqueue 7, .dequeue, .produce, .consume, .produce, .produce, .produce,
    .consume, .consume, .consume, .consume, .produce, .consume, .consume, .produce]
  dequeued (events next (quiet (init 2)) acts) ++ (final next (quiet (init 2)) acts).q.live
    = enqueued (events next (quiet (init 2)) acts)
  := by
  intro acts
  exact (dequeued_append_live (q := init 2) ⟨Nat.two_pos, Nat.two_pos⟩ rfl acts rfl rfl).1

end Run

end Shared

end Queue
