import Gubernatrix.Heap
import Gubernatrix.Spinlock
import Mathlib.Algebra.BigOperators.Group.Finset.Basic
import Mathlib.Data.Fintype.Basic
import Mathlib.Tactic.Abel

/-!
# The heap of the kernel on several cores

`bootstrap_malloc` and `bootstrap_free` called by any number of cores at once. Both take
`bootstrap_alloc_lock`, and their loads and stores of `bootstrap_alloc_pos` are interleaved in any
order. `blocks_disjoint_interleaved` says that the blocks that the cores hold are apart then as
well.

As in the sequential model the heap keeps the blocks in use besides `bootstrap_alloc_pos`, and the
pointer that `bootstrap_malloc` returns comes with the size that was asked for.
-/

namespace Heap

open Atomic Spinlock

/-- Where a core is between the lock and the release of it. The size is rounded already. -/
inductive At
  | test (size s : U64)
  | take (size s : U64)
  | move (size s mem : U64)
  | check (b : Block) (s : U64)
  | compare (b : Block) (s : U64)
  | back (b : Block) (s : U64)
  | finish (ret : Option Block)

/-- The size of a block as `bootstrap_free` rounds it. -/
def freedSize (size : U64) : U64 :=
  if size % 16 ≠ 0 then ((size >>> 4) + 1) <<< 4 else size

/-- A call that reaches the lock: its size is not zero. -/
inductive Request
  | malloc (s : U64) (h : s > 0)
  | free (b : Block) (h : b.size ≠ 0)

/-- The code of `bootstrap_malloc` and `bootstrap_free` under the lock. Each step reads
`bootstrap_alloc_pos` once or writes it once. -/
def code : Code State Request (Option Block) At where
  start
    | .malloc s _ => .test s (align s 16)
    | .free b _ => .check b (freedSize b.size)
  next h
    | .test size s =>
        if h.pos + s < bootstrapAllocAreaSize then (h, .take size s) else (h, .finish none)
    | .take size s => (h, .move size s h.pos)
    | .move size s mem =>
        ({ pos := h.pos + s, live := ⟨mem, size⟩ :: h.live }, .finish (some ⟨mem, size⟩))
    | .check b s =>
        if h.pos > s then (h, .compare b s)
        else ({ h with live := h.live.erase b }, .finish none)
    | .compare b s =>
        if h.pos - s = b.mem then (h, .back b s)
        else ({ h with live := h.live.erase b }, .finish none)
    | .back b s => ({ pos := h.pos - s, live := h.live.erase b }, .finish none)
    | .finish ret => (h, .finish ret)
  done
    | .finish ret => some ret
    | _ => none

/-- A call of the allocator as a step of the heap, with what it returns. -/
def serve (h : State) : Request → Option Block × State
  | .malloc s _ =>
      match bootstrapMalloc h.pos s with
      | some _ => (some ⟨h.pos, s⟩, step h (.malloc s))
      | none => (none, step h (.malloc s))
  | .free b _ => (none, step h (.free b))

/-- What is known of the heap and of a core in the code: the heap `m` is the one of the lock being
taken, until the last access. -/
def Known (h : State) (r : Request) (m : State) : At → Prop
  | .test size s => m = h ∧ (∃ hs, r = .malloc size hs) ∧ s = align size 16
  | .take size s => m = h ∧ (∃ hs, r = .malloc size hs) ∧ s = align size 16
      ∧ h.pos + s < bootstrapAllocAreaSize
  | .move size s mem => m = h ∧ (∃ hs, r = .malloc size hs) ∧ s = align size 16
      ∧ h.pos + s < bootstrapAllocAreaSize ∧ mem = h.pos
  | .check b s => m = h ∧ (∃ hs, r = .free b hs) ∧ s = freedSize b.size
  | .compare b s => m = h ∧ (∃ hs, r = .free b hs) ∧ s = freedSize b.size ∧ h.pos > s
  | .back b s => m = h ∧ (∃ hs, r = .free b hs) ∧ s = freedSize b.size ∧ h.pos > s
      ∧ h.pos - s = b.mem
  | .finish ret => serve h r = (ret, m)

section Serve

variable {h : State} {size : U64} {b : Block}

theorem serve_malloc (hs : size > 0) (hlt : h.pos + align size 16 < bootstrapAllocAreaSize) :
  serve h (.malloc size hs) = (some ⟨h.pos, size⟩,
    { pos := h.pos + align size 16, live := ⟨h.pos, size⟩ :: h.live })
  := by
  have hmalloc : bootstrapMalloc h.pos size = some (h.pos + align size 16) := by
    rw [bootstrapMalloc, if_pos hs]
    exact if_pos hlt
  simp only [serve, step, hmalloc]

theorem serve_malloc_full (hs : size > 0)
    (hlt : ¬ h.pos + align size 16 < bootstrapAllocAreaSize) :
  serve h (.malloc size hs) = (none, h)
  := by
  have hmalloc : bootstrapMalloc h.pos size = none := by
    rw [bootstrapMalloc, if_pos hs]
    exact if_neg hlt
  simp only [serve, step, hmalloc]

theorem serve_free (hb : b.size ≠ 0) :
  serve h (.free b hb) = (none, {
    pos := if h.pos > freedSize b.size ∧ h.pos - freedSize b.size = b.mem
      then h.pos - freedSize b.size else h.pos
    live := h.live.erase b })
  := by
  rw [serve, step, bootstrapFree, if_neg hb]
  rfl

end Serve

theorem computes_serve :
  code.Computes serve
  := by
  refine Code.computes_of_invariant Known ?_ ?_ ?_ ?_
  · rintro h (⟨s, hs⟩ | ⟨b, hb⟩)
    · exact ⟨rfl, ⟨hs, rfl⟩, rfl⟩
    · exact ⟨rfl, ⟨hb, rfl⟩, rfl⟩
  · intro h r m k hk hdone
    cases k with
    | test size s =>
        obtain ⟨rfl, ⟨hs, rfl⟩, rfl⟩ := hk
        by_cases hlt : m.pos + align size 16 < bootstrapAllocAreaSize
        · simp only [code, if_pos hlt]
          exact ⟨rfl, ⟨hs, rfl⟩, rfl, hlt⟩
        · simp only [code, if_neg hlt]
          exact serve_malloc_full hs hlt
    | take size s =>
        obtain ⟨rfl, ⟨hs, rfl⟩, rfl, hlt⟩ := hk
        exact ⟨rfl, ⟨hs, rfl⟩, rfl, hlt, rfl⟩
    | move size s mem =>
        obtain ⟨rfl, ⟨hs, rfl⟩, rfl, hlt, rfl⟩ := hk
        exact serve_malloc hs hlt
    | check b s =>
        obtain ⟨rfl, ⟨hb, rfl⟩, rfl⟩ := hk
        by_cases hgt : m.pos > freedSize b.size
        · simp only [code, if_pos hgt]
          exact ⟨rfl, ⟨hb, rfl⟩, rfl, hgt⟩
        · simp only [code, if_neg hgt]
          rw [Known, serve_free, if_neg (fun htop => hgt htop.1)]
    | compare b s =>
        obtain ⟨rfl, ⟨hb, rfl⟩, rfl, hgt⟩ := hk
        by_cases heq : m.pos - freedSize b.size = b.mem
        · simp only [code, if_pos heq]
          exact ⟨rfl, ⟨hb, rfl⟩, rfl, hgt, heq⟩
        · simp only [code, if_neg heq]
          rw [Known, serve_free, if_neg (fun htop => heq htop.2)]
    | back b s =>
        obtain ⟨rfl, ⟨hb, rfl⟩, rfl, hgt, heq⟩ := hk
        simp only [code, Known]
        rw [serve_free, if_pos ⟨hgt, heq⟩]
    | finish ret => cases hdone
  · rintro h r m k o hk hdone
    cases k with
    | finish ret =>
        obtain rfl : ret = o := Option.some.inj hdone
        exact hk
    | _ => cases hdone
  · intro m k o hdone
    cases k with
    | finish ret => rfl
    | _ => cases hdone

/-! ### What the cores hold -/

section Held

variable {θ : Type}

/-- The blocks that the cores hold: those that were returned and not given back. -/
def held : List Block → List (Event θ Request (Option Block)) → List Block
  | bs, [] => bs
  | bs, .call _ (.malloc _ _) :: es => held bs es
  | bs, .call _ (.free b _) :: es => held (bs.erase b) es
  | bs, .ret _ (some b) :: es => held (b :: bs) es
  | bs, .ret _ none :: es => held bs es

/-- Only blocks that are held are given back, and no request is so large that the position runs
over `2 ^ 64`. -/
def Proper : List Block → List (Event θ Request (Option Block)) → Prop
  | _, [] => True
  | bs, .call _ (.malloc s _) :: es =>
      bootstrapAllocAreaSize.toNat + rounded s ≤ 2 ^ 64 ∧ Proper bs es
  | bs, .call _ (.free b _) :: es => b ∈ bs ∧ Proper (bs.erase b) es
  | bs, .ret _ (some b) :: es => Proper (b :: bs) es
  | bs, .ret _ none :: es => Proper bs es

/-- The blocks that a call is about to give back or about to return. -/
def owed : Status Request (Option Block) → Multiset Block
  | .called (.free b _) => {b}
  | .answered (some b) => {b}
  | _ => 0

/-- A request that is under way is not too large. -/
def Fits : Status Request (Option Block) → Prop
  | .called (.malloc s _) => bootstrapAllocAreaSize.toNat + rounded s ≤ 2 ^ 64
  | _ => True

/-- The blocks in use are those that the cores hold, and those of the calls under way. -/
structure Accounted [Fintype θ] (a : Object θ State Request (Option Block)) (bs : List Block) :
    Prop where
  inv : Inv a.state
  fits : ∀ t, Fits (a.status t)
  live : (a.state.live : Multiset Block) = bs + ∑ t, owed (a.status t)

variable [DecidableEq θ]

theorem fits_update {f : θ → Status Request (Option Block)} (h : ∀ t, Fits (f t)) (t : θ)
    (x : Status Request (Option Block)) (hx : Fits x) (t' : θ) :
  Fits (Function.update f t x t')
  := by
  by_cases ht : t' = t
  · subst ht
    rwa [Function.update_self]
  · rw [Function.update_of_ne ht]
    apply h

variable [Fintype θ]

/-- One core's share of the owed blocks is exchanged. -/
theorem sum_owed_update (f : θ → Status Request (Option Block)) (t : θ)
    (x : Status Request (Option Block)) :
  ∑ t', owed (Function.update f t x t') + owed (f t) = ∑ t', owed (f t') + owed x
  := by
  rw [← Finset.add_sum_erase _ _ (Finset.mem_univ t),
    ← Finset.add_sum_erase (f := fun t' => owed (f t')) _ (Finset.mem_univ t),
    Function.update_self]
  have hrest : ∑ t' ∈ Finset.univ.erase t, owed (Function.update f t x t')
      = ∑ t' ∈ Finset.univ.erase t, owed (f t') := by
    apply Finset.sum_congr rfl
    intro t' ht'
    rw [Function.update_of_ne (Finset.ne_of_mem_erase ht')]
  rw [hrest]
  abel

variable {a a' : Object θ State Request (Option Block)} {bs : List Block} {t : θ}

/-- A status that owes as much as the one before it. -/
theorem Accounted.move (h : Accounted a bs) (x : Status Request (Option Block)) (hx : Fits x)
    {bs' : List Block} (howed : (bs' : Multiset Block) + owed x = bs + owed (a.status t)) :
  Accounted { a with status := Function.update a.status t x } bs'
  := by
  refine ⟨h.inv, fits_update h.fits t x hx, ?_⟩
  have hsum := sum_owed_update a.status t x
  have hlive := h.live
  apply add_right_cancel (b := owed (a.status t))
  rw [add_assoc, hsum, hlive]
  calc (bs : Multiset Block) + ∑ t, owed (a.status t) + owed (a.status t)
      = bs + owed (a.status t) + ∑ t, owed (a.status t) := by abel
    _ = bs' + owed x + ∑ t, owed (a.status t) := by rw [howed]
    _ = bs' + (∑ t, owed (a.status t) + owed x) := by abel

/-- A call of `bootstrap_malloc` takes effect. -/
theorem Accounted.malloc (h : Accounted a bs) {s : U64} {hs : s > 0}
    (hcalled : a.status t = .called (.malloc s hs)) :
  Accounted ⟨(serve a.state (.malloc s hs)).2,
    Function.update a.status t (.answered (serve a.state (.malloc s hs)).1)⟩ bs
  := by
  have hfits := h.fits t
  rw [hcalled] at hfits
  have hwrap : a.state.pos.toNat + rounded s < 2 ^ 64 :=
    lt_of_lt_of_le (Nat.add_lt_add_right h.inv.pos_lt _) hfits
  have hinv := h.inv.malloc hwrap
  have hsum := sum_owed_update a.status t (.answered (serve a.state (.malloc s hs)).1)
  rw [hcalled, show owed (.called (.malloc s hs)) = 0 from rfl, add_zero] at hsum
  refine ⟨?_, fits_update h.fits t (.answered _) trivial, ?_⟩
  · rw [serve]
    split <;> exact hinv
  · dsimp only
    rw [hsum]
    by_cases hlt : a.state.pos + align s 16 < bootstrapAllocAreaSize
    · rw [serve_malloc hs hlt, ← Multiset.cons_coe, h.live, ← Multiset.singleton_add,
        show owed (.answered (some ⟨a.state.pos, s⟩)) = {⟨a.state.pos, s⟩} from rfl]
      abel
    · rw [serve_malloc_full hs hlt, h.live, show owed (.answered none) = 0 from rfl, add_zero]

/-- A call of `bootstrap_free` takes effect. -/
theorem Accounted.free (h : Accounted a bs) {b : Block} {hb : b.size ≠ 0}
    (hcalled : a.status t = .called (.free b hb)) :
  Accounted ⟨(serve a.state (.free b hb)).2,
    Function.update a.status t (.answered (serve a.state (.free b hb)).1)⟩ bs
  := by
  have hsum := sum_owed_update a.status t (.answered (serve a.state (.free b hb)).1)
  rw [hcalled, show owed (.called (.free b hb)) = {b} from rfl,
    show owed (.answered (serve a.state (.free b hb)).1) = 0 from rfl, add_zero] at hsum
  have hlive := h.live
  rw [← hsum, ← add_assoc, add_comm, Multiset.singleton_add] at hlive
  have hmem : b ∈ a.state.live := by
    rw [← Multiset.mem_coe, hlive]
    apply Multiset.mem_cons_self
  refine ⟨h.inv.free hmem, fits_update h.fits t (.answered _) trivial, ?_⟩
  change ((a.state.live.erase b : List Block) : Multiset Block) = _
  rw [← Multiset.coe_erase, hlive, Multiset.erase_cons_head]

/-- A path of the heap keeps account of the blocks. -/
theorem Accounted.path {es : List (Event θ Request (Option Block))}
    (hpath : Path (Step serve) a es a') {bs : List Block} (h : Accounted a bs)
    (hproper : Proper bs es) :
  Accounted a' (held bs es)
  := by
  induction hpath generalizing bs with
  | nil a => exact h
  | @cons a b a' e es hstep _ ih =>
      cases hstep with
      | @call t r hidle =>
          cases r with
          | malloc s hs => exact ih (h.move (.called (.malloc s hs)) hproper.1
              (by rw [hidle]; rfl)) hproper.2
          | free b hb =>
              refine ih (h.move (.called (.free b hb)) trivial ?_) hproper.2
              rw [hidle, show owed (.called (.free b hb)) = {b} from rfl,
                show owed (.idle) = 0 from rfl, add_zero, add_comm, Multiset.singleton_add,
                ← Multiset.coe_erase, Multiset.cons_erase (Multiset.mem_coe.mpr hproper.1)]
      | @effect t r hcalled =>
          cases r with
          | malloc s hs => exact ih (h.malloc hcalled) hproper
          | free b hb => exact ih (h.free hcalled) hproper
      | @ret t o hanswered =>
          cases o with
          | none => exact ih (h.move .idle trivial (by rw [hanswered]; rfl)) hproper
          | some b =>
              refine ih (h.move .idle trivial ?_) hproper
              rw [hanswered, show owed (.answered (some b)) = {b} from rfl,
                show owed (.idle) = 0 from rfl, add_zero, ← Multiset.cons_coe, add_comm,
                Multiset.singleton_add]

end Held

theorem Block.Disjoint.symm {b b' : Block} (h : b.Disjoint b') :
  b'.Disjoint b
  := Or.symm h

/-- However the accesses of the cores are interleaved, the blocks that they hold lie in the area
and have no byte in common, if only blocks that are held are given back and no request is so large
that the position runs over `2 ^ 64`. -/
theorem blocks_disjoint_interleaved {θ : Type} [Fintype θ] [DecidableEq θ]
    (acts : List (Act θ Request))
    (hproper : Proper [] (events (Spinlock.next code) (Spinlock.quiet init) acts)) :
  let bs := held [] (events (Spinlock.next code) (Spinlock.quiet init) acts)
  bs.Pairwise Block.Disjoint
    ∧ ∀ b ∈ bs, b.mem.toNat + b.size.toNat ≤ bootstrapAllocAreaSize.toNat
  := by
  obtain ⟨a, hpath, -⟩ := path_of_run computes_serve init acts
  have hstart : Accounted (Object.quiet init : Object θ State Request (Option Block)) [] := by
    refine ⟨inv_init, fun t => trivial, ?_⟩
    rw [show (Object.quiet init : Object θ State Request (Option Block)).state.live = [] from rfl]
    simp [Object.quiet, owed]
  have hend := hstart.path hpath hproper
  have hsound := hend.inv.sound
  have hsub : (held [] (events (Spinlock.next code) (Spinlock.quiet init) acts)).Subperm
      a.state.live := by
    rw [← Multiset.coe_le, hend.live]
    apply Multiset.le_add_right
  obtain ⟨bs, hperm, hsublist⟩ := hsub
  constructor
  · rw [← hperm.pairwise_iff Block.Disjoint.symm]
    exact hsound.disjoint.sublist hsublist
  · intro b hb
    exact hsound.inside b (hsublist.subset (hperm.mem_iff.mpr hb))

/-- Two cores ask at the same time, and the second one waits for the lock. -/
theorem blocks_disjoint_interleaved_two :
  let acts : List (Act (Fin 2) Request) := [.call 0 (.malloc 24 (by decide)), .step 0,
    .call 1 (.malloc 8 (by decide)), .step 1, .step 0, .step 0, .step 0, .step 0, .step 0,
    .step 1, .step 1, .step 1, .step 1, .step 1, .step 1, .step 1]
  held [] (events (Spinlock.next code) (Spinlock.quiet init) acts) = [⟨32, 8⟩, ⟨0, 24⟩]
    ∧ (held [] (events (Spinlock.next code) (Spinlock.quiet init) acts)).Pairwise Block.Disjoint
  := by
  intro acts
  have hevents : events (Spinlock.next code) (Spinlock.quiet init) acts
      = [.call 0 (.malloc 24 (by decide)), .call 1 (.malloc 8 (by decide)),
        .ret 0 (some ⟨0, 24⟩), .ret 1 (some ⟨32, 8⟩)] := by
    rfl
  refine ⟨by rw [hevents]; rfl, (blocks_disjoint_interleaved acts ?_).1⟩
  rw [hevents]
  exact ⟨by decide, by decide, trivial⟩

end Heap
