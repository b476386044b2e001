import Gubernatrix.PhysMem.Run

/-!
# Overflow of the free queue

`pmem_init` sizes the free queue for half as many entries as there are pages. An insertion
that finds the ring full relies on `compact_queue` to make room, and stops with a panic if
it made none. It makes room just when, among the live entries as it sorts them, two
neighbours other than the last two can be merged.
-/

namespace PhysMem

open Program Ring

/-- When the ring is full, the sorted entries hold two to merge; nothing is asked of other
moments. -/
def Event.HasRoom : Event → Prop
  | .ringFull q => CompactsSome q
  | .compact _ => True

instance : DecidablePred Event.HasRoom
  | .ringFull q => inferInstanceAs (Decidable (CompactsSome q))
  | .compact _ => inferInstanceAs (Decidable True)

/-- Whenever the ring was full in a history, there was something to merge. -/
def AllHaveRoom (hist : List Event) : Prop := ∀ e ∈ hist, e.HasRoom

instance (hist : List Event) : Decidable (AllHaveRoom hist) :=
  inferInstanceAs (Decidable (∀ e ∈ hist, e.HasRoom))

/-- The panic of `insert_queue` and `insert_queue_front`. -/
def overflow : Trap := .panic "Failed to enqueue entry."

/-! ### Compacting a full ring -/

/-- Compaction of a full ring leaves it full just when there is nothing to merge. -/
theorem compactQueue_full_iff {q q' : Queue} (h : q.InRange) (hfull : q.liveCnt + 1 = q.size)
    (hq' : compactQueue q = some q') :
  q'.liveCnt + 1 = q'.size ↔ ¬ CompactsSome q
  := by
  by_cases hpos : 0 < q.liveCnt
  · obtain ⟨x, l, q₁, hsorted, hperm, -, hq₁, -, hsize, hcnt, -⟩ := compactQueue_live h hpos
    obtain rfl := Option.some.inj (hq'.symm.trans hq₁)
    have hlen : l.length + 1 = q.liveCnt := by
      have := hperm.length_eq
      rwa [List.length_cons, Queue.live, length_window] at this
    have hlt := sweepCnt_lt x l
    simp only [CompactsSome, hsorted, not_not]
    rw [← sweepCnt_eq_zero, hcnt, hsize]
    omega
  · -- a ring of one slot: its only entry is the last one
    have hsize : q.size = 1 := by omega
    obtain ⟨data, x, l, q₁, hsort, -, hwin, -, -, hq₁, hswept⟩ := compactQueue_spec h
    obtain rfl := Option.some.inj (hq'.symm.trans hq₁)
    have hspan : compactSpan q = 1 := by
      rw [compactSpan, if_pos (by omega), hsize]
    rw [hspan] at hwin
    have hlen := congrArg List.length hwin
    rw [length_window, List.length_cons] at hlen
    obtain rfl := List.eq_nil_of_length_eq_zero (by omega : l.length = 0)
    have hsorted : sortedWindow q = [x] := by
      simp only [sortedWindow, hsort, hspan, hwin]
    have hhead : q'.head < q'.size := by
      rw [hswept.head_eq, hswept.size_eq]
      apply slot_lt h.size_pos
    have htail : q'.tail < q'.size := by
      rw [hswept.tail_eq, hswept.size_eq]
      exact h.tail_lt
    have hsize' : q'.size = 1 := hswept.size_eq.trans hsize
    simp only [CompactsSome, hsorted, NoMerge, not_true_eq_false, not_false_eq_true, iff_true,
      Queue.liveCnt]
    rw [if_pos (by omega)]
    omega

/-! ### When a program overflows -/

section Guarded

variable {σ α β : Type} {pm : σ → Pmem}

/-- A run has stopped with `overflow` just when the ring was full with nothing to merge; one
that returned leaves a queue in its ring and has always found something to merge. -/
structure OverflowSpec (pm : σ → Pmem) (r : EStateM.Result Trap σ α) : Prop where
  of_ok : ∀ {a s}, r = .ok a s → (pm s).btmLevel.InRange ∧ AllHaveRoom (pm s).hist
  of_error : ∀ {e s}, r = .error e s → (e = overflow ↔ ¬ AllHaveRoom (pm s).hist)

theorem OverflowSpec.ok {a : α} {s : σ} (hrange : (pm s).btmLevel.InRange)
    (hroom : AllHaveRoom (pm s).hist) :
  OverflowSpec pm (.ok a s)
  where
  of_ok h := by
    cases h
    exact ⟨hrange, hroom⟩
  of_error h := by cases h

theorem OverflowSpec.error {e : Trap} {s : σ} (h : e = overflow ↔ ¬ AllHaveRoom (pm s).hist) :
  OverflowSpec pm (.error e s : EStateM.Result Trap σ α)
  where
  of_ok h := by cases h
  of_error h' := by
    cases h'
    exact h

/-- Another trap is no overflow. -/
theorem OverflowSpec.other {e : Trap} {s : σ} (he : e ≠ overflow)
    (hroom : AllHaveRoom (pm s).hist) :
  OverflowSpec pm (.error e s : EStateM.Result Trap σ α)
  := OverflowSpec.error ⟨fun h => absurd h he, fun h => absurd hroom h⟩

theorem OverflowSpec.bind {x : Program σ α} {f : α → Program σ β} {s : σ}
    (hx : OverflowSpec pm (x s))
    (hf : ∀ a s', (pm s').btmLevel.InRange → AllHaveRoom (pm s').hist →
      OverflowSpec pm (f a s')) :
  OverflowSpec pm ((x >>= f) s)
  := by
  rw [bind_apply]
  cases h : x s with
  | ok a s' =>
      obtain ⟨hrange, hroom⟩ := hx.of_ok h
      exact hf a s' hrange hroom
  | error e s' => exact OverflowSpec.error (hx.of_error h)

/-- From a queue in its ring and a history that always found something to merge, a run of `x`
overflows just when the ring is full with nothing to merge. -/
def Guarded (x : Program Pmem α) : Prop :=
  ∀ s, s.btmLevel.InRange → AllHaveRoom s.hist → OverflowSpec id (x s)

theorem Guarded.pure (a : α) :
  Guarded (pure a)
  := fun _ hrange hroom => OverflowSpec.ok hrange hroom

theorem Guarded.throw {e : Trap} (he : e ≠ overflow) :
  Guarded (throw e : Program Pmem α)
  := fun _ _ hroom => OverflowSpec.other he hroom

theorem Guarded.bind {x : Program Pmem α} {f : α → Program Pmem β} (hx : Guarded x)
    (hf : ∀ a, Guarded (f a)) :
  Guarded (x >>= f)
  := fun s hrange hroom => OverflowSpec.bind (hx s hrange hroom) hf

theorem Guarded.ite {p : Prop} [Decidable p] {x y : Program Pmem α} (hx : Guarded x)
    (hy : Guarded y) :
  Guarded (if p then x else y)
  := by
  split
  · exact hx
  · exact hy

end Guarded

theorem guarded_compact :
  Guarded compact
  := by
  intro s hrange hroom
  rw [compact, bind_of_ok (get_apply s)]
  obtain ⟨q', hq', hrange'⟩ := compactQueue_inRange hrange
  rw [hq']
  refine OverflowSpec.ok hrange' ?_
  intro e he
  rcases List.mem_cons.mp he with rfl | he
  · trivial
  · exact hroom e he

/-- An insertion overflows just when it finds the ring full and nothing to merge. -/
theorem guarded_insertWith {tryenqueue : Queue → U64 → Option Queue} (henq : Enqueues tryenqueue)
    (val : U64) :
  Guarded (insertWith tryenqueue val)
  := by
  intro s hrange hroom
  rw [insertWith, bind_of_ok (get_apply s)]
  cases hq : tryenqueue s.btmLevel val with
  | some q => exact OverflowSpec.ok (henq.inRange hrange hq) hroom
  | none =>
      have hfull := (henq.none_iff hrange).mp hq
      obtain ⟨q', hq', hrange'⟩ := compactQueue_inRange hrange
      have hfull' := compactQueue_full_iff hrange hfull hq'
      have hcompact : compact { s with hist := .ringFull s.btmLevel :: s.hist }
          = .ok ⟨⟩ { s with
            btmLevel := q', hist := .compact s.btmLevel :: .ringFull s.btmLevel :: s.hist } := by
        rw [compact, bind_of_ok (get_apply _)]
        dsimp only
        rw [hq']
        rfl
      dsimp only
      rw [bind_of_ok (set_apply _ _), bind_of_ok hcompact, bind_of_ok (get_apply _)]
      dsimp only
      have hnone_iff : tryenqueue q' val = none ↔ _ := henq.none_iff hrange'
      rw [← hnone_iff] at hfull'
      have hroom' : AllHaveRoom (.compact s.btmLevel :: .ringFull s.btmLevel :: s.hist)
          ↔ CompactsSome s.btmLevel := by
        constructor
        · intro h
          exact h (.ringFull s.btmLevel) (by simp)
        · intro h e he
          rcases List.mem_cons.mp he with rfl | he
          · trivial
          rcases List.mem_cons.mp he with rfl | he
          · exact h
          · exact hroom e he
      cases hagain : tryenqueue q' val with
      | some q =>
          refine OverflowSpec.ok (henq.inRange hrange' hagain) (hroom'.mpr ?_)
          by_contra hnone
          rw [hfull'.mpr hnone] at hagain
          cases hagain
      | none =>
          have hnone := hfull'.mp hagain
          exact OverflowSpec.error ⟨fun _ h => hnone (hroom'.mp h), fun _ => rfl⟩

theorem guarded_insertQueue (val : U64) :
  Guarded (insertQueue val)
  := guarded_insertWith enqueues_back val

theorem guarded_insertQueueFront (val : U64) :
  Guarded (insertQueueFront val)
  := guarded_insertWith enqueues_front val

theorem guarded_freeLoop (pageCnt : U64) :
  ∀ (turns : ℕ) (pg0 addr : U64), Guarded (freeLoop pageCnt turns pg0 addr)
  | 0, _, _ => Guarded.pure _
  | turns + 1, pg0, addr => by
      rw [freeLoop]
      apply Guarded.ite
      · apply Guarded.bind (guarded_insertQueue _)
        intro _
        exact guarded_freeLoop _ _ _ _
      · apply Guarded.pure

theorem guarded_pageallocFree (addr size : U64) :
  Guarded (pageallocFree addr size)
  := by
  rw [pageallocFree]
  apply Guarded.ite
  · apply Guarded.throw
    decide
  apply Guarded.ite
  · apply Guarded.throw
    decide
  apply Guarded.bind
  · intro s hrange hroom
    exact OverflowSpec.ok hrange hroom
  intro _
  exact guarded_freeLoop _ _ _ _

theorem guarded_allocEntry (deq : U64) (pgCnt : ℤ) (size : U64) :
  Guarded (allocEntry deq pgCnt size)
  := by
  rw [allocEntry]
  refine Guarded.bind (Guarded.ite (guarded_insertQueueFront _) (Guarded.pure _))
    (fun _ => ?_)
  refine Guarded.bind (fun s hrange hroom => ?_) (fun _ => Guarded.pure _)
  exact OverflowSpec.ok hrange hroom

theorem guarded_allocScan (flags : BitVec 32) (pgCnt : ℤ) (size : U64) :
  ∀ turns, Guarded (allocScan flags pgCnt size turns)
  | 0 => Guarded.pure _
  | turns + 1 => by
      intro s hrange hroom
      rw [allocScan, bind_of_ok (get_apply s)]
      cases h : queueTrydequeue s.btmLevel with
      | none => exact OverflowSpec.other (by decide) hroom
      | some p =>
          obtain ⟨deq, q⟩ := p
          have hrange' := (Queue.trydequeue_spec hrange h).1
          dsimp only
          rw [bind_of_ok (set_apply _ _)]
          refine Guarded.ite ?_ (Guarded.ite ?_ ?_) _ hrange' hroom
          · exact Guarded.bind (guarded_insertQueue _)
              (fun _ => guarded_allocScan _ _ _ _)
          · apply guarded_allocEntry
          · exact Guarded.bind (guarded_insertQueue _)
              (fun _ => guarded_allocScan _ _ _ _)

theorem guarded_allocLoop (flags : BitVec 32) (pgCnt : ℤ) (size : U64) :
  ∀ turns, Guarded (allocLoop flags pgCnt size turns)
  | 0 => Guarded.pure _
  | turns + 1 => by
      intro s hrange hroom
      rw [allocLoop, bind_of_ok (get_apply s)]
      refine Guarded.bind (guarded_allocScan flags pgCnt size _) (fun r => ?_) s hrange hroom
      cases r with
      | some r => apply Guarded.pure
      | none =>
          apply Guarded.bind guarded_compact
          intro _
          exact guarded_allocLoop _ _ _ _

theorem guarded_exec (op : Op) :
  Guarded op.exec
  := by
  cases op with
  | free addr size => exact Guarded.bind (guarded_pageallocFree _ _) fun _ => Guarded.pure _
  | pmemFree addr => exact Guarded.bind (guarded_pageallocFree _ _) fun _ => Guarded.pure _
  | pmemFreedma addr sz => exact Guarded.bind (guarded_pageallocFree _ _) fun _ => Guarded.pure _
  | allocpage => exact Guarded.bind (guarded_allocLoop _ _ _ _) fun _ => Guarded.pure _
  | allocdma sz => exact Guarded.bind (guarded_allocLoop _ _ _ _) fun _ => Guarded.pure _

theorem overflowSpec_step {limit : ℕ} {op : Op} {w : World} (hrange : w.pmem.btmLevel.InRange)
    (hroom : AllHaveRoom w.pmem.hist) :
  OverflowSpec World.pmem (step limit op w)
  := by
  have hexec := guarded_exec op w.pmem hrange hroom
  rw [step]
  split
  · cases h : op.exec w.pmem with
    | ok r s =>
        obtain ⟨hrange', hroom'⟩ := hexec.of_ok h
        exact OverflowSpec.ok hrange' hroom'
    | error e s => exact OverflowSpec.error (hexec.of_error h)
  · exact OverflowSpec.other (by decide) hroom

theorem overflowSpec_run {limit : ℕ} :
  ∀ {ops : List Op} {w : World}, w.pmem.btmLevel.InRange → AllHaveRoom w.pmem.hist →
    OverflowSpec World.pmem (run limit ops w)
  | [], _, hrange, hroom => OverflowSpec.ok hrange hroom
  | _ :: _, _, hrange, hroom =>
      OverflowSpec.bind (overflowSpec_step hrange hroom) fun _ _ => overflowSpec_run

/-- With the queue that `pmem_init` sizes for `N` pages, a run of calls on these pages does not
overflow just when, each time the ring was full, its sorted entries held two neighbours to
merge other than the last two. -/
theorem not_overflow_iff (N : ℕ) (ops : List Op) :
  (∀ w, run N ops (World.init (N / 2 + 1)) ≠ .error overflow w)
    ↔ AllHaveRoom (finalState (run N ops (World.init (N / 2 + 1)))).pmem.hist
  := by
  have hrange : (World.init (N / 2 + 1)).pmem.btmLevel.InRange :=
    (Queue.clean_init (Nat.succ_pos _)).toInRange
  have hspec : OverflowSpec World.pmem (run N ops (World.init (N / 2 + 1))) :=
    overflowSpec_run hrange (fun e he => absurd he List.not_mem_nil)
  cases h : run N ops (World.init (N / 2 + 1)) with
  | ok u w =>
      simp only [finalState_ok]
      exact ⟨fun _ => (hspec.of_ok h).2, fun _ w' h' => by cases h'⟩
  | error e w =>
      have hiff := hspec.of_error h
      simp only [finalState_error]
      constructor
      · intro hne
        by_contra hroom
        exact hne w (by rw [hiff.mpr hroom])
      · rintro hroom w' heq
        cases heq
        exact hiff.mp rfl hroom

/-- The pages 0 and 1, freed one after the other, do not fit the queue of two pages. -/
theorem overflow_of_two_pages :
  ¬ ∀ (N : ℕ) (ops : List Op) (w : World),
    run N ops (World.init (N / 2 + 1)) ≠ .error overflow w
  := by
  intro h
  obtain ⟨e, w, hrun, rfl⟩ := exists_of_stops (fun e _ => e = overflow)
    (run 2 [.pmemFree 0, .pmemFree 0x1000] (World.init (2 / 2 + 1))) (by decide +kernel)
  exact h 2 _ w hrun

end PhysMem
