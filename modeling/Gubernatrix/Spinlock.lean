import Gubernatrix.Types
import Gubernatrix.Lib.Atomic

/-!
# The spinlock

`local_spinlock.h`. Any number of cores call functions that take one lock, access the memory it
guards and release it, and the accesses of all cores are interleaved in any order.

`mutual_exclusion` says that at most one core is between `local_spinlock_lock` and
`local_spinlock_unlock`, and `refines` that the functions then act one after the other: what the
cores see is what they see of an object on which each call takes effect at one moment.
-/

namespace Spinlock

/-- The code between `local_spinlock_lock` and `local_spinlock_unlock` of a function, one access
to the guarded memory at a time. `done` is what the function returns, when there is no access
left. -/
structure Code (σ ι ο κ : Type) where
  start : ι → κ
  next : σ → κ → σ × κ
  done : κ → Option ο

/-- Where a core is: in no call, before the test of the lock, in the loop that waits for it, in
the code, or after the release. -/
inductive Core (ι ο κ : Type)
  | idle
  | locking (i : ι)
  | waiting (i : ι)
  | inside (i : ι) (k : κ)
  | leaving (o : ο)

/-- The lock, the memory it guards and the cores. -/
structure World (θ σ ι ο κ : Type) where
  x : BitVec 32
  mem : σ
  core : θ → Core ι ο κ

/-- What happens next: a core calls a function, or makes its next access. -/
inductive Act (θ ι : Type)
  | call (t : θ) (i : ι)
  | step (t : θ)

variable {θ σ ι ο κ : Type}

/-- `__sync_lock_test_and_set(x, 1)`: the value before, and the one after. -/
def testAndSet (x : BitVec 32) : BitVec 32 × BitVec 32 := (x, 1)

/-- The test of the outer loop of `local_spinlock_lock`. -/
def localSpinlockLock (c : Code σ ι ο κ) (x : BitVec 32) (i : ι) : BitVec 32 × Core ι ο κ :=
  if (testAndSet x).1 ≠ 0 then ((testAndSet x).2, .waiting i)
  else ((testAndSet x).2, .inside i (c.start i))

/-- The test of the inner loop of `local_spinlock_lock`, which only reads the lock. -/
def localSpinlockWait (x : BitVec 32) (i : ι) : Core ι ο κ :=
  if x ≠ 0 then .waiting i else .locking i

/-- `local_spinlock_unlock`. -/
def localSpinlockUnlock : BitVec 32 := 0

section Next

variable [DecidableEq θ]

/-- One step of the cores, with the call or the return that it is. -/
def next (c : Code σ ι ο κ) (w : World θ σ ι ο κ) :
    Act θ ι → Option (Atomic.Event θ ι ο) × World θ σ ι ο κ
  | .call t i =>
      match w.core t with
      | .idle => (some (.call t i), { w with core := Function.update w.core t (.locking i) })
      | _ => (none, w)
  | .step t =>
      match w.core t with
      | .idle => (none, w)
      | .locking i =>
          let lock := localSpinlockLock c w.x i
          (none, { w with x := lock.1, core := Function.update w.core t lock.2 })
      | .waiting i =>
          (none, { w with core := Function.update w.core t (localSpinlockWait w.x i) })
      | .inside i k =>
          match c.done k with
          | none =>
              let access := c.next w.mem k
              (none, { w with
                mem := access.1
                core := Function.update w.core t (.inside i access.2) })
          | some o =>
              (none, { w with
                x := localSpinlockUnlock
                core := Function.update w.core t (.leaving o) })
      | .leaving o => (some (.ret t o), { w with core := Function.update w.core t .idle })

end Next

/-- The memory and the code after some accesses of a core that is alone. -/
def Code.run (c : Code σ ι ο κ) (n : ℕ) (s : σ) (k : κ) : σ × κ :=
  (fun x => c.next x.1 x.2)^[n] (s, k)

/-- The code of a core that is alone computes `op`. -/
def Code.Computes (c : Code σ ι ο κ) (op : σ → ι → ο × σ) : Prop :=
  ∀ s i n o, c.done (c.run n s (c.start i)).2 = some o →
    op s i = (o, (c.run n s (c.start i)).1)

/-- An invariant of a core that is alone tells what its code computes. -/
theorem Code.computes_of_invariant {c : Code σ ι ο κ} {op : σ → ι → ο × σ}
    (I : σ → ι → σ → κ → Prop) (hstart : ∀ s i, I s i s (c.start i))
    (hnext : ∀ s i m k, I s i m k → c.done k = none → I s i (c.next m k).1 (c.next m k).2)
    (hdone : ∀ s i m k o, I s i m k → c.done k = some o → op s i = (o, m))
    (hstay : ∀ m k o, c.done k = some o → c.next m k = (m, k)) :
  c.Computes op
  := by
  have hrun : ∀ s i n, I s i (c.run n s (c.start i)).1 (c.run n s (c.start i)).2 := by
    intro s i n
    induction n with
    | zero => apply hstart
    | succ n ih =>
        rw [Code.run, Function.iterate_succ_apply']
        cases h : c.done (c.run n s (c.start i)).2 with
        | none => exact hnext _ _ _ _ ih h
        | some o =>
            have hsame := hstay (c.run n s (c.start i)).1 _ o h
            rw [Code.run] at hsame ih
            rw [hsame]
            exact ih
  intro s i n o h
  exact hdone _ _ _ _ _ (hrun s i n) h

/-- The cores when nobody is in a call. -/
def quiet (s : σ) : World θ σ ι ο κ where
  x := 0
  mem := s
  core _ := .idle

/-! ### The invariant -/

/-- A call takes effect when the lock is released. -/
def Core.status : Core ι ο κ → Atomic.Status ι ο
  | .idle => .idle
  | .locking i | .waiting i | .inside i _ => .called i
  | .leaving o => .answered o

/-- A core is in the code. -/
def Core.Inside : Core ι ο κ → Prop
  | .inside _ _ => True
  | _ => False

/-- The lock is held just when a core is in the code, and then by one core alone, whose accesses
have made the memory of the atomic object what it is. -/
structure Inv (c : Code σ ι ο κ) (w : World θ σ ι ο κ) (s : σ) : Prop where
  alone : ∀ t t', (w.core t).Inside → (w.core t').Inside → t = t'
  held : w.x ≠ 0 → ∃ t, (w.core t).Inside
  inside : ∀ t i k, w.core t = .inside i k →
    w.x ≠ 0 ∧ ∃ n, c.run n s (c.start i) = (w.mem, k)
  outside : w.x = 0 → w.mem = s

theorem inv_quiet (c : Code σ ι ο κ) (s : σ) :
  Inv c (quiet s : World θ σ ι ο κ) s
  where
  alone _ _ h := h.elim
  held h := absurd rfl h
  inside _ _ _ h := nomatch h
  outside _ := rfl

/-- The atomic object that the cores stand for. -/
def World.object (w : World θ σ ι ο κ) (s : σ) : Atomic.Object θ σ ι ο where
  state := s
  status t := (w.core t).status

variable [DecidableEq θ] {c : Code σ ι ο κ} {w : World θ σ ι ο κ} {s : σ} {t : θ} {i : ι} {o : ο}
  {k : κ}

theorem object_update (w : World θ σ ι ο κ) (x : BitVec 32) (m s s' : σ) (t : θ)
    (core : Core ι ο κ) :
  World.object ⟨x, m, Function.update w.core t core⟩ s'
    = ⟨s', Function.update (w.object s).status t core.status⟩
  := by
  rw [World.object, World.object]
  congr
  funext t'
  by_cases ht : t' = t
  · subst ht
    simp
  · simp [ht]

omit [DecidableEq θ] in
theorem inside_of_eq (hcore : w.core t = .inside i k) :
  (w.core t).Inside
  := by
  rw [hcore]
  trivial

omit [DecidableEq θ] in
/-- One core is in the code, and it has the lock. -/
theorem Inv.of_only {x : BitVec 32} {m : σ} {core : θ → Core ι ο κ} (hx : x ≠ 0)
    (honly : ∀ t', (core t').Inside → t' = t) (hcore : core t = .inside i k)
    (hrun : ∃ n, c.run n s (c.start i) = (m, k)) :
  Inv c ⟨x, m, core⟩ s
  where
  alone t₁ t₂ h₁ h₂ := (honly t₁ h₁).trans (honly t₂ h₂).symm
  held _ := ⟨t, inside_of_eq (w := ⟨x, m, core⟩) hcore⟩
  inside t' i' k' hinside := by
    obtain rfl : t' = t := honly t' (inside_of_eq (w := ⟨x, m, core⟩) hinside)
    obtain ⟨rfl, rfl⟩ := Core.inside.inj (hinside.symm.trans hcore)
    exact ⟨hx, hrun⟩
  outside hzero := absurd hzero hx

/-- A core that is not in the code goes somewhere that is not in the code either. It may write the
lock, if it neither takes nor releases it by that. -/
theorem Inv.outside_move (h : Inv c w s) (hcore : ¬ (w.core t).Inside) {core : Core ι ο κ}
    (hnew : ¬ core.Inside) {x : BitVec 32} (hx : x = 0 ↔ w.x = 0) :
  Inv c { w with x := x, core := Function.update w.core t core } s
  := by
  have hsame : ∀ t', (Function.update w.core t core t').Inside ↔ (w.core t').Inside := by
    intro t'
    by_cases ht : t' = t
    · subst ht
      simp [hcore, hnew]
    · simp [ht]
  refine ⟨fun t₁ t₂ h₁ h₂ => h.alone t₁ t₂ ((hsame t₁).mp h₁) ((hsame t₂).mp h₂), ?_, ?_,
    fun hzero => h.outside (hx.mp hzero)⟩
  · intro hne
    obtain ⟨t', ht'⟩ := h.held fun hzero => hne (hx.mpr hzero)
    exact ⟨t', (hsame t').mpr ht'⟩
  · intro t' i k hinside
    dsimp only at hinside
    have ht : t' ≠ t := by
      rintro rfl
      rw [Function.update_self] at hinside
      rw [hinside] at hnew
      exact hnew trivial
    rw [Function.update_of_ne ht] at hinside
    obtain ⟨hne, hrun⟩ := h.inside t' i k hinside
    exact ⟨fun hzero => hne (hx.mp hzero), hrun⟩

/-- A core that finds the lock free enters the code. -/
theorem Inv.enter (h : Inv c w s) (hx : w.x = 0) :
  Inv c { w with x := 1, core := Function.update w.core t (.inside i (c.start i)) } s
  := by
  refine Inv.of_only (t := t) (i := i) (k := c.start i) (by decide) ?_ (Function.update_self ..)
    ⟨0, by rw [Code.run, Function.iterate_zero, id, h.outside hx]⟩
  intro t' hinside
  by_contra ht
  rw [Function.update_of_ne ht] at hinside
  cases hcore : w.core t' with
  | inside i' k' => exact (h.inside t' i' k' hcore).1 hx
  | _ =>
      rw [hcore] at hinside
      exact hinside

/-- The core that is in the code is the only one, wherever it goes from there. -/
theorem Inv.only (h : Inv c w s) (hcore : w.core t = .inside i k) (core : Core ι ο κ) {t' : θ}
    (hinside : (Function.update w.core t core t').Inside) :
  t' = t
  := by
  by_contra ht
  rw [Function.update_of_ne ht] at hinside
  exact ht (h.alone t' t hinside (inside_of_eq hcore))

/-- An access of the core that has the lock. -/
theorem Inv.access (h : Inv c w s) (hcore : w.core t = .inside i k) :
  Inv c { w with
    mem := (c.next w.mem k).1
    core := Function.update w.core t (.inside i (c.next w.mem k).2) } s
  := by
  obtain ⟨hx, n, hrun⟩ := h.inside t i k hcore
  refine Inv.of_only hx (fun t' hinside => h.only hcore _ hinside) (Function.update_self ..)
    ⟨n + 1, ?_⟩
  rw [Code.run] at hrun
  rw [Code.run, Function.iterate_succ_apply', hrun]

/-- The core that has the lock releases it, and its call has taken effect. -/
theorem Inv.release (h : Inv c w s) (hcore : w.core t = .inside i k) :
  Inv c { w with x := 0, core := Function.update w.core t (.leaving o) } w.mem
  := by
  have hnone : ∀ t', ¬ (Function.update w.core t (.leaving o) t').Inside := by
    intro t' hinside
    obtain rfl := h.only hcore _ hinside
    rw [Function.update_self] at hinside
    exact hinside
  refine ⟨fun t' _ h' _ => absurd h' (hnone t'), fun hx => absurd rfl hx, ?_, fun _ => rfl⟩
  intro t' i' k' hinside
  exact absurd (inside_of_eq (w := ⟨0, w.mem, _⟩) hinside) (hnone t')

/-! ### One step -/

/-- The memory of the atomic object after a step: the release of the lock makes the accesses of
the core count. -/
def committed (c : Code σ ι ο κ) (w : World θ σ ι ο κ) (s : σ) : Act θ ι → σ
  | .call _ _ => s
  | .step t =>
      match w.core t with
      | .inside _ k => if (c.done k).isSome then w.mem else s
      | _ => s

/-- Every step keeps the invariant. -/
theorem Inv.next (h : Inv c w s) (x : Act θ ι) :
  Inv c (next c w x).2 (committed c w s x)
  := by
  cases x with
  | call t i =>
      cases hcore : w.core t with
      | idle =>
          simp only [Spinlock.next, hcore]
          exact h.outside_move (by rw [hcore]; exact id) id Iff.rfl
      | _ =>
          simp only [Spinlock.next, hcore]
          exact h
  | step t =>
      cases hcore : w.core t with
      | idle =>
          simp only [Spinlock.next, committed, hcore]
          exact h
      | locking i =>
          by_cases hx : w.x = 0
          · simp only [Spinlock.next, committed, hcore, localSpinlockLock, testAndSet, hx, ne_eq,
              not_true_eq_false, if_false]
            exact h.enter hx
          · -- the lock is taken, and writing one to it again changes nothing
            simp only [Spinlock.next, committed, hcore, localSpinlockLock, testAndSet, hx, ne_eq,
              not_false_eq_true, if_true]
            exact h.outside_move (by rw [hcore]; exact id) id (iff_of_false (by decide) hx)
      | waiting i =>
          simp only [Spinlock.next, committed, hcore]
          have hnew : ¬ (localSpinlockWait w.x i : Core ι ο κ).Inside := by
            rw [localSpinlockWait]
            split <;> exact id
          exact h.outside_move (by rw [hcore]; exact id) hnew Iff.rfl
      | inside i k =>
          cases hdone : c.done k with
          | none =>
              simp only [Spinlock.next, committed, hcore, hdone]
              exact h.access hcore
          | some o =>
              simp only [Spinlock.next, committed, hcore, hdone]
              exact h.release hcore
      | leaving o =>
          simp only [Spinlock.next, committed, hcore]
          exact h.outside_move (by rw [hcore]; exact id) id Iff.rfl

section Step

open Atomic (Path Step)

variable {op : σ → ι → ο × σ}

/-- A core moves on within its call. -/
theorem path_silent {x : BitVec 32} {m : σ} {core : Core ι ο κ}
    (hstatus : core.status = (w.core t).status) :
  Path (Step op) (w.object s) [] (World.object ⟨x, m, Function.update w.core t core⟩ s)
  := by
  rw [object_update w x m s s t core, hstatus]
  change Path _ _ _ (Atomic.Object.mk s (Function.update _ t ((w.object s).status t)))
  rw [Function.update_eq_self]
  apply Path.nil

/-- A step of the atomic object that a core takes. -/
theorem path_step {x : BitVec 32} {m s' : σ} (core : Core ι ο κ)
    {e : Option (Atomic.Event θ ι ο)}
    (hstep : Step op (w.object s) e ⟨s', Function.update (w.object s).status t core.status⟩) :
  Path (Step op) (w.object s) e.toList (World.object ⟨x, m, Function.update w.core t core⟩ s')
  := by
  rw [object_update w x m s s' t core]
  apply Path.one hstep

omit [DecidableEq θ] in
theorem status_of_core {core : Core ι ο κ} (hcore : w.core t = core) :
  (w.object s).status t = core.status
  := by
  exact congrArg Core.status hcore

/-- The functions that take the lock are, together, an object on which each call takes effect at
one moment. -/
theorem refines (hcode : c.Computes op) :
  Atomic.Refines (next c) op fun (w : World θ σ ι ο κ) a => ∃ s, Inv c w s ∧ a = w.object s
  := by
  rintro w a ⟨s, hinv, rfl⟩ x
  refine ⟨(next c w x).2.object (committed c w s x), ?_, _, hinv.next x, rfl⟩
  cases x with
  | call t i =>
      cases hcore : w.core t with
      | idle =>
          simp only [next, hcore]
          have hstatus : (w.object s).status t = .idle := status_of_core hcore
          exact path_step (.locking i) (Step.call hstatus)
      | _ =>
          simp only [next, hcore]
          apply Path.nil
  | step t =>
      cases hcore : w.core t with
      | idle =>
          simp only [next, committed, hcore]
          apply Path.nil
      | locking i =>
          simp only [next, committed, hcore]
          apply path_silent
          rw [hcore, localSpinlockLock]
          split <;> rfl
      | waiting i =>
          simp only [next, committed, hcore]
          apply path_silent
          rw [hcore, localSpinlockWait]
          split <;> rfl
      | inside i k =>
          cases hdone : c.done k with
          | none =>
              simp only [next, committed, hcore, hdone]
              apply path_silent
              rw [hcore]
              rfl
          | some o =>
              simp only [next, committed, hcore, hdone, localSpinlockUnlock]
              have hstatus : (w.object s).status t = .called i := status_of_core hcore
              obtain ⟨-, n, hrun⟩ := hinv.inside t i k hcore
              have hop : op s i = (o, w.mem) := by
                have := hcode s i n o
                rw [hrun] at this
                exact this hdone
              have hstep : Step op (w.object s) none _ := Step.effect hstatus
              rw [show (w.object s).state = s from rfl, hop] at hstep
              exact path_step (.leaving o) hstep
      | leaving o =>
          simp only [next, committed, hcore]
          have hstatus : (w.object s).status t = .answered o := status_of_core hcore
          exact path_step .idle (Step.ret hstatus)

/-! ### Any interleaving -/

/-- The invariant holds in every interleaving. -/
theorem inv_final (c : Code σ ι ο κ) {w : World θ σ ι ο κ} {s : σ} (h : Inv c w s)
    (acts : List (Act θ ι)) :
  ∃ s', Inv c (Atomic.final (next c) w acts) s'
  := by
  induction acts generalizing w s with
  | nil => exact ⟨s, h⟩
  | cons x acts ih => exact ih (h.next x)

/-- In every interleaving at most one core is between `local_spinlock_lock` and
`local_spinlock_unlock`, and the lock is taken just when one is. -/
theorem mutual_exclusion (c : Code σ ι ο κ) (s : σ) (acts : List (Act θ ι)) :
  let w := Atomic.final (next c) (quiet s) acts
  (∀ t t', (w.core t).Inside → (w.core t').Inside → t = t')
    ∧ (w.x ≠ 0 ↔ ∃ t, (w.core t).Inside)
  := by
  obtain ⟨s', hinv⟩ := inv_final c (inv_quiet c s) acts
  refine ⟨hinv.alone, hinv.held, ?_⟩
  rintro ⟨t, hinside⟩
  cases hcore : (Atomic.final (next c) (quiet s) acts).core t with
  | inside i k => exact (hinv.inside t i k hcore).1
  | _ =>
      rw [hcore] at hinside
      exact hinside.elim

/-- What the cores see is what they see of the atomic object, and when nobody is in the code the
memory is what the calls have made of it. -/
theorem path_of_run (hcode : c.Computes op) (s : σ) (acts : List (Act θ ι)) :
  let w := Atomic.final (next c) (quiet s) acts
  ∃ a, Path (Step op) (.quiet s) (Atomic.events (next c) (quiet s) acts) a
    ∧ ((∀ t, ¬ (w.core t).Inside) → w.mem = a.state) ∧ ∀ t, a.status t = (w.core t).status
  := by
  obtain ⟨a, hpath, s', hinv, rfl⟩ := (refines hcode).path ⟨s, inv_quiet c s, rfl⟩ acts
  refine ⟨_, hpath, fun hnone => hinv.outside ?_, fun t => rfl⟩
  by_contra hx
  obtain ⟨t, hinside⟩ := hinv.held hx
  exact hnone t hinside

end Step

end Spinlock
