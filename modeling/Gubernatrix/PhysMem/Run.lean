import Gubernatrix.PhysMem.Pages
import Mathlib.Data.Finset.SDiff
import Mathlib.Data.Finset.Card

/-!
# Runs of the page allocator

The callers of the allocator free ranges and allocate, in any order. A `World` is the state
of the allocator together with the set of the pages that were freed and not handed out
since; the set is bookkeeping of the callers, which the allocator does not see. Callers only
free page-aligned ranges of pages below a given limit which are not free already.
-/

namespace PhysMem

open Program

/-- A call of the allocator. -/
inductive Op where
  | free (addr size : U64)
  | pmemFree (addr : U64)
  | pmemFreedma (addr : U64) (sz : BitVec 32)
  | allocpage
  | allocdma (sz : BitVec 32)

/-- The `n` pages from the address allocated, if any, on. -/
def takenPages (n : ℕ) : Option U64 → List ℕ
  | some a => rangePages a n
  | none => []

namespace Op

/-- The call itself; its value is the address allocated, if any. -/
def exec : Op → Program Pmem (Option U64)
  | free addr size => do pageallocFree addr size; pure none
  | pmemFree addr => do PhysMem.pmemFree addr; pure none
  | pmemFreedma addr sz => do PhysMem.pmemFreedma addr sz; pure none
  | allocpage => do let r ← pmemAllocpage; pure (allocated r)
  | allocdma sz => do let r ← pmemAllocdma sz; pure (allocated r)

/-- The range that a call frees. -/
def range : Op → Option (U64 × U64)
  | free addr size => some (addr, size)
  | pmemFree addr => some (addr, kib 4)
  | pmemFreedma addr sz => some (addr, sz.setWidth 64)
  | _ => none

/-- The number of bytes that a call allocates. -/
def request : Op → Option U64
  | allocpage => some (align (kib 4) btmLevel)
  | allocdma sz => some (align (sz.setWidth 64) btmLevel)
  | _ => none

/-- The pages that a call frees. -/
def freed (op : Op) : List ℕ :=
  match op.range with
  | some (addr, size) => rangePages addr (size.toNat / 4096)
  | none => []

/-- The pages that a call with the value `r` takes. -/
def taken (op : Op) (r : Option U64) : List ℕ :=
  match op.request with
  | some size => takenPages (size.toNat / 4096) r
  | none => []

/-- What callers keep to when the pages `F` are free: the ranges they free are page aligned,
of pages below `limit`, and not free already. -/
def Valid (limit : ℕ) (F : Finset ℕ) (op : Op) : Prop :=
  match op.range with
  | some (addr, size) => addr.toNat % 4096 = 0 ∧ size.toNat % 4096 = 0
      ∧ addr.toNat + size.toNat ≤ 4096 * limit
      ∧ ∀ p ∈ rangePages addr (size.toNat / 4096), p ∉ F
  | none => True

instance (limit : ℕ) (F : Finset ℕ) (op : Op) : Decidable (op.Valid limit F) := by
  unfold Valid
  split <;> infer_instance

end Op

/-- The allocator, and the pages freed and not handed out since. -/
structure World where
  pmem : Pmem
  free : Finset ℕ

/-- The empty free queue of `sz` slots. -/
def World.init (sz : ℕ) : World where
  pmem := Pmem.init sz
  free := ∅

/-- The pages that are free after a call with the value `r`. -/
def Op.freeAfter (op : Op) (r : Option U64) (F : Finset ℕ) : Finset ℕ :=
  (F \ (op.taken r).toFinset) ∪ op.freed.toFinset

/-- One call in a run. A call that the callers do not make ends the run as a fault. -/
def step (limit : ℕ) (op : Op) : Program World (Option U64) := fun w =>
  if op.Valid limit w.free then
    match op.exec w.pmem with
    | .ok r s => .ok r { pmem := s, free := op.freeAfter r w.free }
    | .error e s => .error e { w with pmem := s }
  else .error .fault w

/-- A run of calls. -/
def run (limit : ℕ) : List Op → Program World Unit
  | [] => pure ⟨⟩
  | op :: ops => do
      let _ ← step limit op
      run limit ops

theorem step_eq_ok {limit : ℕ} {op : Op} {w w' : World} {r : Option U64} :
  step limit op w = .ok r w' ↔ op.Valid limit w.free ∧ op.exec w.pmem = .ok r w'.pmem
    ∧ w'.free = op.freeAfter r w.free
  := by
  rw [step]
  split
  next hvalid =>
    cases op.exec w.pmem with
    | ok r' s =>
        cases w'
        simp only [hvalid, EStateM.Result.ok.injEq, World.mk.injEq, true_and]
        constructor
        · rintro ⟨rfl, rfl, rfl⟩
          exact ⟨⟨rfl, rfl⟩, rfl⟩
        · rintro ⟨⟨rfl, rfl⟩, rfl⟩
          exact ⟨rfl, rfl, rfl⟩
    | error e s => simp
  next hvalid => simp [hvalid]

theorem grows_exec (op : Op) :
  Along Grows op.exec
  := by
  cases op with
  | free addr size => exact Along.bind (grows_pageallocFree _ _) fun _ => Along.pure _
  | pmemFree addr => exact Along.bind (grows_pageallocFree _ _) fun _ => Along.pure _
  | pmemFreedma addr sz => exact Along.bind (grows_pageallocFree _ _) fun _ => Along.pure _
  | allocpage => exact Along.bind (grows_pageallocAlloc _ _) fun _ => Along.pure _
  | allocdma sz => exact Along.bind (grows_pageallocAlloc _ _) fun _ => Along.pure _

/-- The history of the allocator only grows along a run. -/
def GrowsW (w w' : World) : Prop := Grows w.pmem w'.pmem

instance : Std.Refl GrowsW where
  refl w := Std.Refl.refl (r := Grows) w.pmem

instance : IsTrans World GrowsW where
  trans _ _ _ h h' := IsTrans.trans (r := Grows) _ _ _ h h'

theorem grows_step (limit : ℕ) (op : Op) :
  Along GrowsW (step limit op)
  := by
  intro w
  have hexec := grows_exec op w.pmem
  rw [step]
  split
  · cases h : op.exec w.pmem with
    | ok r s =>
        rw [h] at hexec
        exact hexec
    | error e s =>
        rw [h] at hexec
        exact hexec
  · apply Std.Refl.refl

theorem grows_run (limit : ℕ) :
  ∀ ops, Along GrowsW (run limit ops)
  | [] => Along.pure _
  | op :: ops => Along.bind (grows_step limit op) fun _ => grows_run limit ops

end PhysMem
