import Gubernatrix.Lib.Trace
import Mathlib.Logic.Function.Basic
import Mathlib.Data.List.Basic
import Mathlib.Data.BitVec

/-!
# Interrupt vectors

`interrupt_allocate`, call by call and section by section: every part of it between taking
`interrupt_alloc_lock` and releasing it is one step, and calls on different cores may take their
steps in any order. A vector granted exclusively is marked in `interrupt_blocked`, one granted to
be shared is not, so that it may still be granted exclusively later.
-/

namespace Interrupts

open Trace

/-- `IDT_ENTRY_COUNT`. -/
def idtEntryCount : ℕ := 256

/-- `interrupt_flags_exclusive`. -/
def flagsExclusive : BitVec 32 := 1 <<< 0

/-- `interrupt_flags_fixed`. -/
def flagsFixed : BitVec 32 := 1 <<< 1

/-- A call of `interrupt_allocate`: `cnt`, `flags`, and what `base` points to. -/
structure Request where
  cnt : ℤ
  flags : BitVec 32
  base : ℤ

/-- The call asks for vectors of its own. -/
def Request.Exclusive (r : Request) : Prop := r.flags &&& flagsExclusive ≠ 0

instance (r : Request) : Decidable r.Exclusive :=
  inferInstanceAs (Decidable (_ ≠ _))

/-- Some of the `n` vectors from `base` on is blocked. -/
def anyBlocked (blocked : ℤ → Bool) (base : ℤ) (n : ℕ) : Bool :=
  (List.range n).any fun c => blocked (base + c)

/-- The table with the `n` vectors from `base` on blocked. -/
def block (blocked : ℤ → Bool) (base : ℤ) (n : ℕ) : ℤ → Bool :=
  (List.range n).foldl (fun blocked (c : ℕ) => Function.update blocked (base + c) true) blocked

/-- The locked section of `interrupt_allocate` for fixed vectors: `none` when it returns `-1`. -/
def allocateFixed (blocked : ℤ → Bool) (r : Request) : Option (ℤ → Bool) :=
  if anyBlocked blocked r.base r.cnt.toNat then none
  else if r.Exclusive then some (block blocked r.base r.cnt.toNat)
  else some blocked

/-- The loop of `interrupt_allocate` that searches, with `left` vectors to look at: the first
vector of a run that is long enough. -/
def searchLoop (blocked : ℤ → Bool) (cnt : ℤ) : (left : ℕ) → (runOff : ℤ) → (runLen : ℕ) → Option ℤ
  | 0, _, _ => none
  | left + 1, runOff, runLen =>
      let i : ℤ := idtEntryCount - (left + 1)
      if runLen ≥ cnt then some runOff
      else if blocked i then searchLoop blocked cnt left (i + 1) 0
      else searchLoop blocked cnt left runOff (runLen + 1)

/-- The locked section of `interrupt_allocate` that searches: the vector that it sets `base` to,
or `none` when it returns `-1`. -/
def allocateSearch (blocked : ℤ → Bool) (r : Request) : Option (ℤ × (ℤ → Bool)) :=
  (searchLoop blocked r.cnt (idtEntryCount - 32) 32 0).map fun runOff =>
    (runOff, if r.Exclusive then block blocked runOff r.cnt.toNat else blocked)

/-! ### Runs -/

/-- Vectors that a call was granted. -/
structure Grant where
  base : ℤ
  cnt : ℤ
  exclusive : Bool

/-- The vector is one of those granted. -/
def Grant.Has (g : Grant) (v : ℤ) : Prop := g.base ≤ v ∧ v < g.base + g.cnt

instance (g : Grant) (v : ℤ) : Decidable (g.Has v) :=
  inferInstanceAs (Decidable (_ ∧ _))

/-- `interrupt_blocked`, the call with which each core is about to search, and the grants so
far. -/
structure World where
  blocked : ℤ → Bool
  pending : ℕ → Option Request
  grants : List Grant

/-- A core begins a call of `interrupt_allocate`, or goes on to search. -/
inductive Act where
  | call (core : ℕ) (r : Request)
  | search (core : ℕ)

/-- The grant of the vectors from `base` on. -/
def Request.grant (r : Request) (base : ℤ) : Grant where
  base := base
  cnt := r.cnt
  exclusive := r.Exclusive

/-- The state after a step: `interrupt_allocate` tries the vectors that a call names, and then
searches, unless the flags say that the vectors are fixed or no vector is named. -/
def step (w : World) : Act → World
  | .call core r =>
      if r.flags &&& flagsFixed ≠ 0 then
        match allocateFixed w.blocked r with
        | some blocked => { w with blocked := blocked, grants := r.grant r.base :: w.grants }
        | none => w
      else if r.base ≠ 0 then
        match allocateFixed w.blocked r with
        | some blocked => { w with blocked := blocked, grants := r.grant r.base :: w.grants }
        | none => { w with pending := Function.update w.pending core (some r) }
      else { w with pending := Function.update w.pending core (some r) }
  | .search core =>
      match w.pending core with
      | none => w
      | some r =>
          let pending := Function.update w.pending core none
          match allocateSearch w.blocked r with
          | some (base, blocked) =>
              { blocked := blocked, pending := pending, grants := r.grant base :: w.grants }
          | none => { w with pending := pending }

/-- The state that `idt_init` sets up. -/
def init : World where
  blocked _ := false
  pending _ := none
  grants := []

/-- A core does one call after the other, and the vectors that a call names are in the table. -/
def Valid (w : World) : Act → Prop
  | .call core r => w.pending core = none
      ∧ (r.flags &&& flagsFixed ≠ 0 ∨ r.base ≠ 0 → 0 ≤ r.base ∧ r.base + r.cnt ≤ 256)
  | .search core => w.pending core ≠ none

/-- Of two grants one of which is exclusive, none has a vector of the other. -/
def OneOwner (w : World) : Prop :=
  w.grants.Pairwise fun g g' =>
    g.exclusive = true ∨ g'.exclusive = true → ∀ v, g.Has v → ¬ g'.Has v

/-! ### What a search finds -/

/-- The first of `cnt` unblocked vectors below vector 255, from 32 on, with none before it. -/
structure FirstFree (blocked : ℤ → Bool) (cnt base : ℤ) : Prop where
  ge : 32 ≤ base
  le : base + cnt ≤ 255
  free : ∀ v, base ≤ v → v < base + cnt → blocked v = false
  least : ∀ b, 32 ≤ b → b < base → ∃ v, b ≤ v ∧ v < b + cnt ∧ blocked v = true

/-- The vectors that a step may grant: those that a call names, or those that a search finds. -/
def Candidate (w : World) : Act → Grant → Prop
  | .call _ r, g => (r.flags &&& flagsFixed ≠ 0 ∨ r.base ≠ 0) ∧ g = r.grant r.base
      ∧ ∀ v, g.Has v → w.blocked v = false
  | .search core, g => ∃ r base, w.pending core = some r ∧ g = r.grant base
      ∧ FirstFree w.blocked r.cnt base

/-- What a step may grant exclusively was not granted to be shared before. -/
def Unshared (w : World) (a : Act) : Prop :=
  ∀ g, Candidate w a g → g.exclusive = true →
    ∀ g' ∈ w.grants, g'.exclusive = false → ∀ v, g.Has v → ¬ g'.Has v

section Search

variable {blocked : ℤ → Bool} {cnt : ℤ}

theorem anyBlocked_eq_false {base : ℤ} :
  anyBlocked blocked base cnt.toNat = false
    ↔ ∀ v, base ≤ v → v < base + cnt → blocked v = false
  := by
  simp only [anyBlocked, List.any_eq_false, List.mem_range, Bool.not_eq_true]
  constructor
  · intro h v hle hlt
    have := h (v - base).toNat (by omega)
    rwa [Int.toNat_of_nonneg (by omega), add_sub_cancel] at this
  · intro h c hc
    exact h _ (by omega) (by omega)

theorem block_eq_true {base : ℤ} {v : ℤ} :
  block blocked base cnt.toNat v = true ↔ blocked v = true ∨ base ≤ v ∧ v < base + cnt
  := by
  have hloop : ∀ n : ℕ, block blocked base n v = true
      ↔ blocked v = true ∨ base ≤ v ∧ v < base + n := by
    intro n
    induction n with
    | zero =>
        simp only [block, List.range_zero, List.foldl_nil]
        constructor
        · exact .inl
        · rintro (h | h)
          · exact h
          · omega
    | succ n ih =>
        rw [block, List.range_succ, List.foldl_append]
        change Function.update (block blocked base n) (base + n) true v = true ↔ _
        by_cases hv : v = base + n
        · subst hv
          simp
        · rw [Function.update_of_ne hv, ih]
          constructor
          · rintro (h | h)
            · exact .inl h
            · exact .inr (by omega)
          · rintro (h | h)
            · exact .inl h
            · exact .inr (by omega)
  rw [hloop]
  constructor
  · rintro (h | h)
    · exact .inl h
    · exact .inr (by omega)
  · rintro (h | h)
    · exact .inl h
    · exact .inr (by omega)

theorem FirstFree.unique {base base' : ℤ} (h : FirstFree blocked cnt base)
    (h' : FirstFree blocked cnt base') :
  base = base'
  := by
  have hnot : ∀ {b b' : ℤ}, FirstFree blocked cnt b → FirstFree blocked cnt b' → ¬ b < b' := by
    intro b b' hb hb' hlt
    obtain ⟨v, hle, hlt', hblocked⟩ := hb'.least b hb.ge hlt
    rw [hb.free v hle hlt'] at hblocked
    cases hblocked
  have := hnot h h'
  have := hnot h' h
  omega

/-- What the loop has seen: the current run, and that no earlier one is long enough. -/
structure Seen (blocked : ℤ → Bool) (cnt : ℤ) (left : ℕ) (runOff : ℤ) (runLen : ℕ) : Prop where
  ge : 32 ≤ runOff
  pos : runOff + runLen + left = 256
  free : ∀ v, runOff ≤ v → v < runOff + runLen → blocked v = false
  least : ∀ b, 32 ≤ b → b < runOff → ∃ v, b ≤ v ∧ v < b + cnt ∧ blocked v = true

theorem Seen.init (blocked : ℤ → Bool) (cnt : ℤ) :
  Seen blocked cnt (idtEntryCount - 32) 32 0
  := ⟨le_refl _, rfl, fun v hle hlt => by omega, fun b hb hlt => by omega⟩

section Loop

variable {left : ℕ} {runOff : ℤ} {runLen : ℕ}

/-- The vector that the loop looks at. -/
theorem Seen.index (h : Seen blocked cnt (left + 1) runOff runLen) :
  (idtEntryCount : ℤ) - (left + 1) = runOff + runLen
  := by
  have := h.pos
  change (256 : ℤ) - _ = _
  omega

/-- A blocked vector ends the run. -/
theorem Seen.next_blocked (h : Seen blocked cnt (left + 1) runOff runLen) (hshort : runLen < cnt)
    (hblocked : blocked (runOff + runLen) = true) :
  Seen blocked cnt left (runOff + runLen + 1) 0
  := by
  have hge := h.ge
  have hpos := h.pos
  refine ⟨by omega, by omega, fun v hle hlt => by omega, ?_⟩
  intro b hb hlt
  by_cases hold : b < runOff
  · exact h.least b hb hold
  · exact ⟨_, by omega, by omega, hblocked⟩

/-- A vector that is not blocked makes the run longer. -/
theorem Seen.next_free (h : Seen blocked cnt (left + 1) runOff runLen)
    (hfree : blocked (runOff + runLen) = false) :
  Seen blocked cnt left runOff (runLen + 1)
  := by
  have hpos := h.pos
  refine ⟨h.ge, by omega, ?_, h.least⟩
  intro v hle hlt
  by_cases hv : v = runOff + runLen
  · rw [hv, hfree]
  · exact h.free v hle (by omega)

/-- What the loop finds is the first run that is long enough and ends below vector 255. -/
theorem Seen.firstFree {base : ℤ} (hseen : Seen blocked cnt left runOff runLen)
    (h : searchLoop blocked cnt left runOff runLen = some base) :
  FirstFree blocked cnt base
  := by
  induction left generalizing runOff runLen with
  | zero => cases h
  | succ left ih =>
      rw [searchLoop] at h
      simp only [hseen.index] at h
      split at h
      next hfound =>
        obtain rfl := Option.some.inj h
        have hpos := hseen.pos
        refine ⟨hseen.ge, by omega, fun v hle hlt => ?_, hseen.least⟩
        exact hseen.free v hle (by omega)
      next hshort =>
        split at h
        next hblocked => exact ih (hseen.next_blocked (by omega) hblocked) h
        next hfree => exact ih (hseen.next_free (by simpa using hfree)) h

/-- A run that is long enough and ends below vector 255 is found. -/
theorem Seen.found {base : ℤ} (hseen : Seen blocked cnt left runOff runLen) (hle : runLen ≤ cnt)
    (h : FirstFree blocked cnt base) :
  searchLoop blocked cnt left runOff runLen = some base
  := by
  have hbase : runOff ≤ base := by
    by_contra hlt
    obtain ⟨v, hv, hv', hblocked⟩ := hseen.least base h.ge (by omega)
    rw [h.free v hv hv'] at hblocked
    cases hblocked
  have hend := h.le
  induction left generalizing runOff runLen with
  | zero =>
      have hpos := hseen.pos
      omega
  | succ left ih =>
      rw [searchLoop]
      simp only [hseen.index]
      split
      next hfound =>
        congr 1
        by_contra hne
        obtain ⟨v, hv, hv', hblocked⟩ := h.least runOff hseen.ge (by omega)
        rw [hseen.free v hv (by omega)] at hblocked
        cases hblocked
      next hshort =>
        split
        next hblocked =>
          apply ih (hseen.next_blocked (by omega) hblocked)
          · omega
          · by_contra hlt
            rw [h.free (runOff + runLen) (by omega) (by omega)] at hblocked
            cases hblocked
        next hfree => exact ih (hseen.next_free (by simpa using hfree)) (by omega) hbase

end Loop

/-- The search of `interrupt_allocate` finds the first run that is long enough and ends below
vector 255. -/
theorem search_eq_some {base : ℤ} :
  searchLoop blocked cnt (idtEntryCount - 32) 32 0 = some base ↔ FirstFree blocked cnt base
  := by
  refine ⟨(Seen.init blocked cnt).firstFree, fun h => ?_⟩
  by_cases hcnt : 0 ≤ cnt
  · exact (Seen.init blocked cnt).found hcnt h
  · -- nothing is asked for, and the loop stops at once
    have hbase : base = 32 := by
      by_contra hne
      have hge := h.ge
      obtain ⟨v, hv, hv', -⟩ := h.least 32 (le_refl _) (by omega)
      omega
    rw [show idtEntryCount - 32 = 223 + 1 from rfl, searchLoop, if_pos (by omega), hbase]

end Search

/-! ### Steps -/

section Steps

variable {w : World}

theorem grant_exclusive (r : Request) (base : ℤ) :
  (r.grant base).exclusive = true ↔ r.Exclusive
  := decide_eq_true_iff

/-- The table after vectors were granted. -/
theorem blocked_grant (blocked : ℤ → Bool) (r : Request) (base v : ℤ) :
  (if r.Exclusive then block blocked base r.cnt.toNat else blocked) v = true
    ↔ blocked v = true ∨ (r.grant base).exclusive = true ∧ (r.grant base).Has v
  := by
  rw [grant_exclusive]
  split
  next hexcl =>
    rw [block_eq_true]
    exact or_congr_right (iff_and_self.mpr fun _ => hexcl)
  next hshared => simp [hshared]

theorem allocateFixed_cases (blocked : ℤ → Bool) (r : Request) :
  (∃ blocked', allocateFixed blocked r = some blocked'
      ∧ (∀ v, (r.grant r.base).Has v → blocked v = false)
      ∧ ∀ v, blocked' v = true
        ↔ blocked v = true ∨ (r.grant r.base).exclusive = true ∧ (r.grant r.base).Has v)
    ∨ allocateFixed blocked r = none ∧ ¬ ∀ v, (r.grant r.base).Has v → blocked v = false
  := by
  have hfree : anyBlocked blocked r.base r.cnt.toNat = false
      ↔ ∀ v, (r.grant r.base).Has v → blocked v = false := by
    rw [anyBlocked_eq_false]
    exact forall_congr' fun v => and_imp.symm
  cases hany : anyBlocked blocked r.base r.cnt.toNat with
  | true =>
      refine .inr ⟨if_pos hany, ?_⟩
      rw [← hfree, hany]
      exact Bool.noConfusion
  | false =>
      refine .inl ⟨if r.Exclusive then block blocked r.base r.cnt.toNat else blocked, ?_,
        hfree.mp hany, blocked_grant _ _ _⟩
      rw [allocateFixed, hany]
      exact (apply_ite some _ _ _).symm

/-- A step grants what it may grant and blocks it if it is granted exclusively. -/
structure Granted (w : World) (a : Act) (g : Grant) (w' : World) : Prop where
  candidate : Candidate w a g
  free : ∀ v, g.Has v → w.blocked v = false
  grants : w'.grants = g :: w.grants
  blocked : ∀ v, w'.blocked v = true ↔ w.blocked v = true ∨ g.exclusive = true ∧ g.Has v

/-- There is nothing for a step to grant. -/
structure Denied (w : World) (a : Act) (w' : World) : Prop where
  candidate : ∀ g, ¬ Candidate w a g
  grants : w'.grants = w.grants
  blocked : w'.blocked = w.blocked

theorem step_call (w : World) (core : ℕ) (r : Request) :
  (∃ g, Granted w (.call core r) g (step w (.call core r)))
    ∨ Denied w (.call core r) (step w (.call core r))
  := by
  by_cases hfixed : r.flags &&& flagsFixed ≠ 0
  · rw [step, if_pos hfixed]
    rcases allocateFixed_cases w.blocked r with ⟨blocked, hrun, hfree, hblocked⟩ | ⟨hrun, htaken⟩
    · rw [hrun]
      exact .inl ⟨_, ⟨.inl hfixed, rfl, hfree⟩, hfree, rfl, hblocked⟩
    · rw [hrun]
      refine .inr ⟨?_, rfl, rfl⟩
      rintro g ⟨-, rfl, hfree⟩
      exact htaken hfree
  · rw [step, if_neg hfixed]
    by_cases hbase : r.base ≠ 0
    · rw [if_pos hbase]
      rcases allocateFixed_cases w.blocked r with ⟨blocked, hrun, hfree, hblocked⟩ | ⟨hrun, htaken⟩
      · rw [hrun]
        exact .inl ⟨_, ⟨.inr hbase, rfl, hfree⟩, hfree, rfl, hblocked⟩
      · rw [hrun]
        refine .inr ⟨?_, rfl, rfl⟩
        rintro g ⟨-, rfl, hfree⟩
        exact htaken hfree
    · rw [if_neg hbase]
      refine .inr ⟨?_, rfl, rfl⟩
      rintro g ⟨hnamed, -⟩
      exact hnamed.elim hfixed hbase

theorem step_search (w : World) (core : ℕ) :
  (∃ g, Granted w (.search core) g (step w (.search core)))
    ∨ Denied w (.search core) (step w (.search core))
  := by
  rw [step]
  cases hpending : w.pending core with
  | none =>
      refine .inr ⟨?_, rfl, rfl⟩
      rintro g ⟨r, base, hr, -⟩
      rw [hpending] at hr
      cases hr
  | some r =>
      dsimp only
      cases hsearch : searchLoop w.blocked r.cnt (idtEntryCount - 32) 32 0 with
      | some base =>
          have hfirst := search_eq_some.mp hsearch
          rw [allocateSearch, hsearch]
          refine .inl ⟨_, ⟨r, base, hpending, rfl, hfirst⟩, ?_, rfl, blocked_grant _ _ _⟩
          intro v hv
          exact hfirst.free v hv.1 hv.2
      | none =>
          rw [allocateSearch, hsearch]
          refine .inr ⟨?_, rfl, rfl⟩
          rintro g ⟨r', base, hr, -, hfirst⟩
          rw [hpending] at hr
          obtain rfl := Option.some.inj hr
          rw [search_eq_some.mpr hfirst] at hsearch
          cases hsearch

/-- What a step does. -/
theorem step_cases (w : World) (a : Act) :
  (∃ g, Granted w a g (step w a)) ∨ Denied w a (step w a)
  := by
  cases a with
  | call core r => exact step_call w core r
  | search core => exact step_search w core

/-- A step has one grant to give. -/
theorem Candidate.unique {a : Act} {g g' : Grant} (h : Candidate w a g) (h' : Candidate w a g') :
  g = g'
  := by
  cases a with
  | call core r => exact h.2.1.trans h'.2.1.symm
  | search core =>
      obtain ⟨r, base, hr, rfl, hfirst⟩ := h
      obtain ⟨r', base', hr', rfl, hfirst'⟩ := h'
      obtain rfl := Option.some.inj (hr.symm.trans hr')
      rw [hfirst.unique hfirst']

end Steps

/-! ### One owner -/

/-- The invariant: vectors granted exclusively have one owner and are blocked. -/
structure Inv (w : World) : Prop where
  owner : OneOwner w
  blocked : ∀ g ∈ w.grants, g.exclusive = true → ∀ v, g.Has v → w.blocked v = true

theorem inv_init :
  Inv init
  where
  owner := List.Pairwise.nil
  blocked := by simp [init]

section Inv

variable {w : World} {a : Act} (hinv : Inv w)

include hinv

/-- A step that grants nothing exclusively that is shared keeps the invariant. -/
theorem Inv.step (h : Unshared w a) :
  Inv (step w a)
  := by
  rcases step_cases w a with ⟨g, hgranted⟩ | hdenied
  · constructor
    · rw [OneOwner, hgranted.grants, List.pairwise_cons]
      refine ⟨?_, hinv.owner⟩
      intro g' hg' hexcl v hv hv'
      by_cases hold : g'.exclusive = true
      · have := hinv.blocked g' hg' hold v hv'
        rw [hgranted.free v hv] at this
        cases this
      · have hnew := hexcl.resolve_right hold
        exact h g hgranted.candidate hnew g' hg' (by simpa using hold) v hv hv'
    · intro g' hg' hexcl v hv
      rw [hgranted.blocked]
      rw [hgranted.grants] at hg'
      rcases List.mem_cons.mp hg' with rfl | hg'
      · exact .inr ⟨hexcl, hv⟩
      · exact .inl (hinv.blocked g' hg' hexcl v hv)
  · constructor
    · rw [OneOwner, hdenied.grants]
      exact hinv.owner
    · rw [hdenied.grants, hdenied.blocked]
      exact hinv.blocked

omit hinv in
/-- A step that grants exclusively what is shared leaves the vector with two owners. -/
theorem not_oneOwner (h : ¬ Unshared w a) :
  ¬ OneOwner (Interrupts.step w a)
  := by
  simp only [Unshared, not_forall, not_not] at h
  obtain ⟨g, hcand, hexcl, g', hg', -, v, hv, hv'⟩ := h
  rcases step_cases w a with ⟨g₁, hgranted⟩ | hdenied
  · obtain rfl := hcand.unique hgranted.candidate
    rw [OneOwner, hgranted.grants, List.pairwise_cons]
    rintro ⟨howner, -⟩
    exact howner g' hg' (.inl hexcl) v hv hv'
  · exact absurd hcand (hdenied.candidate g)

end Inv

/-- In a run of calls of `interrupt_allocate`, a vector that is granted exclusively is granted to
nobody else just when no call is granted exclusively what another one shares already. -/
theorem oneOwner_iff {acts : List Act} (hvalid : Each step Valid init acts) :
  Always step OneOwner init acts ↔ Each step Unshared init acts
  := always_iff_each (fun hinv => hinv.owner) (fun hinv _ h => hinv.step h)
    (fun _ _ h => not_oneOwner h) inv_init hvalid

/-- Vector 0x27 is granted exclusively, and another core searches for a vector to share. -/
theorem oneOwner_two_cores :
  Each step Valid init [.call 0 ⟨1, 1, 0x27⟩, .call 1 ⟨1, 0, 0⟩, .search 1]
    ∧ Always step OneOwner init [.call 0 ⟨1, 1, 0x27⟩, .call 1 ⟨1, 0, 0⟩, .search 1]
  := by
  have hvalid : Each step Valid init [.call 0 ⟨1, 1, 0x27⟩, .call 1 ⟨1, 0, 0⟩, .search 1] :=
    ⟨⟨rfl, by decide⟩, ⟨rfl, by decide⟩, Option.some_ne_none _, trivial⟩
  refine ⟨hvalid, (oneOwner_iff hvalid).mpr ⟨?_, ?_, ?_, trivial⟩⟩
  · intro g _ _ g' hg'
    cases hg'
  · rintro g ⟨hnamed, -⟩
    exact absurd hnamed (by decide)
  · rintro g ⟨r, base, hr, rfl, -⟩ hexcl
    obtain rfl := Option.some.inj hr
    exact absurd ((grant_exclusive _ _).mp hexcl) (by decide)

/-- Vector 0x30 is granted to be shared, and then exclusively to another core. -/
theorem not_oneOwner_shared :
  ¬ ∀ acts, Each step Valid init acts → Always step OneOwner init acts
  := by
  intro h
  have hrun := h [.call 0 ⟨1, 2, 0x30⟩, .call 1 ⟨1, 3, 0x30⟩]
    ⟨⟨rfl, by decide⟩, ⟨rfl, by decide⟩, trivial⟩
  have howner : OneOwner (step (step init (.call 0 ⟨1, 2, 0x30⟩)) (.call 1 ⟨1, 3, 0x30⟩)) :=
    hrun.2.2
  exact (List.pairwise_cons.mp howner).1 ⟨0x30, 1, false⟩ (List.mem_cons_self ..) (.inl rfl) 0x30
    (by decide) (by decide)

end Interrupts
