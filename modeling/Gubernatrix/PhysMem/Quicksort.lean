import Gubernatrix.Nesting
import Gubernatrix.PhysMem.Init

/-!
# Sorting with `int32_t` positions

The quicksort of `phys_mem.c` as the machine runs it: the positions are `int32_t`, a sum that does
not fit is undefined, an index is the remainder of a position with the sign of the position, and
an index below zero is outside of the ring. Every slot that is read or written is recorded.

As long as no sum overflows this is the sort over the integers, and it stays within its window. None
overflows on the rings that there are: the area of `bootstrap_malloc` has room for fewer than 2²⁴
slots.
-/

namespace PhysMem.Checked

open Program Ring

/-! ### The code -/

/-- The ring, and the slots that were read or written so far. -/
structure Cells where
  data : ℕ → U64
  touched : List ℕ

/-- The result of an operation on `int32_t`. -/
def int32 (x : ℤ) : Program Cells ℤ :=
  if -2 ^ 31 ≤ x ∧ x < 2 ^ 31 then pure x else throw .fault

/-- The index `k % sz` into the ring. -/
def index (k : ℤ) (sz : ℕ) : Program Cells ℕ :=
  if 0 < sz ∧ 0 ≤ k.tmod sz then pure (k.tmod sz).toNat else throw .fault

/-- Reading `data[k % sz]`. -/
def load (k : ℤ) (sz : ℕ) : Program Cells U64 := do
  let x ← index k sz
  modify fun m => { m with touched := x :: m.touched }
  let m ← get
  pure (m.data x)

/-- Writing `data[k % sz]`. -/
def store (k : ℤ) (sz : ℕ) (v : U64) : Program Cells Unit := do
  let x ← index k sz
  modify fun m => { data := Function.update m.data x v, touched := x :: m.touched }

/-- `data[k % sz] ^= data[l % sz];`. -/
def xorInto (k l : ℤ) (sz : ℕ) : Program Cells Unit := do
  let a ← load k sz
  let b ← load l sz
  store k sz (a ^^^ b)

/-- `do j--; while (GET_ADDR(data[j % sz]) > pivot);`, for at most the given number of turns. -/
def scanDown (sz : ℕ) (pivot : U64) : ℕ → ℤ → Program Cells ℤ
  | 0, _ => throw .fault
  | turns + 1, j => do
      let j ← int32 (j - 1)
      let e ← load j sz
      if getAddr e > pivot then scanDown sz pivot turns j else pure j

/-- `do i++; while (GET_ADDR(data[i % sz]) < pivot);`, for at most the given number of turns. -/
def scanUp (sz : ℕ) (pivot : U64) : ℕ → ℤ → Program Cells ℤ
  | 0, _ => throw .fault
  | turns + 1, i => do
      let i ← int32 (i + 1)
      let e ← load i sz
      if getAddr e < pivot then scanUp sz pivot turns i else pure i

/-- The loop of `partition_pgs`; `bound` bounds the turns of its scans. -/
def partitionLoop (bound sz : ℕ) (pivot : U64) : ℕ → ℤ → ℤ → Program Cells ℤ
  | 0, _, _ => throw .fault
  | turns + 1, i, j => do
      let j ← scanDown sz pivot bound j
      let i ← scanUp sz pivot bound i
      if i ≥ j then pure j
      else do
        xorInto i j sz
        xorInto j i sz
        xorInto i j sz
        partitionLoop bound sz pivot turns i j

/-- `partition_pgs`. -/
def partitionPgs (bound : ℕ) (lo hi : ℤ) (sz : ℕ) : Program Cells ℤ := do
  let sum ← int32 (lo + hi)
  let pivLoc ← int32 (sum.tdiv 2)
  let e ← load pivLoc sz
  let i ← int32 (lo - 1)
  let j ← int32 (hi + 1)
  partitionLoop bound sz (getAddr e) bound i j

/-- `quicksort_pgs`, with a bound on the turns of its loop and the depth of its recursion. -/
def quicksortLoop (bound sz : ℕ) : ℕ → ℤ → ℤ → Program Cells Unit
  | 0, _, _ => throw .fault
  | depth + 1, lo, hi =>
      if hi > lo then do
        let p ← partitionPgs bound lo hi sz
        let left ← int32 (p - lo)
        let right ← int32 (hi - p)
        if left > right then do
          quicksortLoop bound sz depth lo p
          let lo ← int32 (p + 1)
          quicksortLoop bound sz depth lo hi
        else do
          let next ← int32 (p + 1)
          quicksortLoop bound sz depth next hi
          quicksortLoop bound sz depth lo p
      else
        pure ()

/-- `quicksort_pgs`; every loop, and the recursion, takes at most `bound` turns. -/
def quicksortPgs (bound : ℕ) (lo hi : ℤ) (sz : ℕ) : Program Cells Unit :=
  quicksortLoop bound sz bound lo hi

/-! ### What sorting a window means -/

/-- The sort of the positions `lo`, …, `hi` that began with `data` ended as it should: it read and
wrote no other slots, changed no other slots, and the entries of the window are the former ones, in
increasing order of their addresses. -/
structure Sorted (data : ℕ → U64) (sz : ℕ) (lo hi : ℤ) (m : Cells) : Prop where
  touched : ∀ x ∈ m.touched, x ∈ slots sz lo hi
  others : ∀ x, x ∉ slots sz lo hi → m.data x = data x
  perm : (window m.data sz lo (hi - lo + 1).toNat).Perm (window data sz lo (hi - lo + 1).toNat)
  increasing : SortedOn m.data sz lo hi

/-- `quicksort_pgs` sorts the positions `lo`, …, `hi` of a ring of `sz` slots, whatever the ring
contains. -/
def Sorts (sz : ℕ) (lo hi : ℤ) : Prop :=
  ∀ data, ∃ bound m, quicksortPgs bound lo hi sz ⟨data, []⟩ = .ok () m ∧ Sorted data sz lo hi m

/-! ### Runs on given slots -/

variable {S : Set ℕ} {data data' data'' : ℕ → U64} {α β : Type}

/-- From a ring that contains `data` the run returns `a` and leaves `data'`, and it reads and
writes slots of `S` only. -/
def Gives (S : Set ℕ) (data : ℕ → U64) (x : Program Cells α) (a : α) (data' : ℕ → U64) : Prop :=
  ∀ touched, ∃ touched', x ⟨data, touched⟩ = .ok a ⟨data', touched'⟩
    ∧ ∀ s ∈ touched', s ∈ touched ∨ s ∈ S

theorem Gives.pure (S : Set ℕ) (data : ℕ → U64) (a : α) :
  Gives S data (pure a) a data
  := fun touched => ⟨touched, rfl, fun _ => .inl⟩

theorem Gives.bind {x : Program Cells α} {f : α → Program Cells β} {a : α} {b : β}
    (hx : Gives S data x a data') (hf : Gives S data' (f a) b data'') :
  Gives S data (x >>= f) b data''
  := by
  intro touched
  obtain ⟨touched', hx', hin'⟩ := hx touched
  obtain ⟨touched'', hf', hin''⟩ := hf touched'
  refine ⟨touched'', ?_, ?_⟩
  · rw [bind_of_ok hx', hf']
  · intro s hs
    obtain h | h := hin'' s hs
    · apply hin' s h
    · right
      exact h

theorem Gives.mono {S' : Set ℕ} {x : Program Cells α} {a : α} (h : Gives S data x a data')
    (hS : S ⊆ S') :
  Gives S' data x a data'
  := by
  intro touched
  obtain ⟨touched', hx, hin⟩ := h touched
  refine ⟨touched', hx, ?_⟩
  intro s hs
  apply (hin s hs).imp_right
  apply hS

theorem gives_int32 {x : ℤ} (h : -2 ^ 31 ≤ x) (h' : x < 2 ^ 31) :
  Gives S data (int32 x) x data
  := by
  rw [int32, if_pos ⟨h, h'⟩]
  apply Gives.pure

theorem gives_index {k : ℤ} {sz : ℕ} (hsz : 0 < sz) (hk : 0 ≤ k) :
  Gives S data (index k sz) (slot sz k) data
  := by
  have hmod : k.tmod sz = k % sz := Int.tmod_eq_emod_of_nonneg hk
  have hnonneg : 0 ≤ k % (sz : ℤ) := Int.emod_nonneg k (by omega)
  rw [index, hmod, if_pos ⟨hsz, hnonneg⟩]
  apply Gives.pure

/-- One more slot was touched. -/
theorem mem_or_of_mem_cons {x : ℕ} (hx : x ∈ S) (touched : List ℕ) :
  ∀ s ∈ x :: touched, s ∈ touched ∨ s ∈ S
  := by
  intro s hs
  obtain rfl | h := List.mem_cons.mp hs
  · right
    exact hx
  · left
    exact h

theorem gives_load {k : ℤ} {sz : ℕ} (hsz : 0 < sz) (hk : 0 ≤ k) (hS : slot sz k ∈ S) :
  Gives S data (load k sz) (data (slot sz k)) data
  := by
  apply Gives.bind (gives_index hsz hk)
  exact fun touched => ⟨slot sz k :: touched, rfl, mem_or_of_mem_cons hS touched⟩

theorem gives_store {k : ℤ} {sz : ℕ} (v : U64) (hsz : 0 < sz) (hk : 0 ≤ k) (hS : slot sz k ∈ S) :
  Gives S data (store k sz v) () (Function.update data (slot sz k) v)
  := by
  apply Gives.bind (gives_index hsz hk)
  exact fun touched => ⟨slot sz k :: touched, rfl, mem_or_of_mem_cons hS touched⟩

theorem gives_xorInto {k l : ℤ} {sz : ℕ} (hsz : 0 < sz) (hk : 0 ≤ k) (hl : 0 ≤ l)
    (hkS : slot sz k ∈ S) (hlS : slot sz l ∈ S) :
  Gives S data (xorInto k l sz) ()
    (Function.update data (slot sz k) (data (slot sz k) ^^^ data (slot sz l)))
  := by
  apply Gives.bind (gives_load hsz hk hkS)
  apply Gives.bind (gives_load hsz hl hlS)
  apply gives_store _ hsz hk hkS

/-- The exchange of two slots. -/
theorem gives_xorSwap {k l : ℤ} {sz : ℕ} {x : Program Cells α} {a : α} (hsz : 0 < sz) (hk : 0 ≤ k)
    (hl : 0 ≤ l) (hkS : slot sz k ∈ S) (hlS : slot sz l ∈ S)
    (hx : Gives S (xorSwap data (slot sz k) (slot sz l)) x a data') :
  Gives S data (do xorInto k l sz; xorInto l k sz; xorInto k l sz; x) a data'
  := by
  apply Gives.bind (gives_xorInto hsz hk hl hkS hlS)
  apply Gives.bind (gives_xorInto hsz hl hk hlS hkS)
  apply Gives.bind (gives_xorInto hsz hk hl hkS hlS)
  exact hx

/-! ### Without overflow -/

section Window

variable {sz : ℕ} {lo hi : ℤ}

theorem gives_scanDown {pivot : U64} {k : ℤ} (hsz : 0 < sz) (hlo : 0 ≤ lo) (hlok : lo ≤ k) :
  ∀ {turns : ℕ} {j : ℤ}, j ≤ hi + 1 → j < 2 ^ 31 →
    Scan.down (fun j => getAddr (data (slot sz j)) > pivot) turns j = some k →
    Gives (slots sz lo hi) data (scanDown sz pivot turns j) k data
  | 0, _, _, _, h => by cases h
  | turns + 1, j, hj, hj', h => by
      have hkj := Scan.lt_of_down h
      rw [Scan.down] at h
      rw [scanDown]
      apply Gives.bind (gives_int32 (by omega) (by omega))
      apply Gives.bind (gives_load hsz (by omega) (slot_mem_slots (by omega) (by omega)))
      by_cases hpivot : getAddr (data (slot sz (j - 1))) > pivot
      · rw [if_pos hpivot]
        rw [if_pos (decide_eq_true hpivot)] at h
        apply gives_scanDown hsz hlo hlok (by omega) (by omega) h
      · rw [if_neg hpivot]
        rw [if_neg (mt of_decide_eq_true hpivot)] at h
        cases h
        apply Gives.pure

theorem gives_scanUp {pivot : U64} {k : ℤ} (hsz : 0 < sz) (hlo : 0 ≤ lo) (hkhi : k ≤ hi)
    (hhi : hi < 2 ^ 31) :
  ∀ {turns : ℕ} {i : ℤ}, lo - 1 ≤ i →
    Scan.up (fun i => getAddr (data (slot sz i)) < pivot) turns i = some k →
    Gives (slots sz lo hi) data (scanUp sz pivot turns i) k data
  | 0, _, _, h => by cases h
  | turns + 1, i, hi, h => by
      have hik := Scan.lt_of_up h
      rw [Scan.up] at h
      rw [scanUp]
      apply Gives.bind (gives_int32 (by omega) (by omega))
      apply Gives.bind (gives_load hsz (by omega) (slot_mem_slots (by omega) (by omega)))
      by_cases hpivot : getAddr (data (slot sz (i + 1))) < pivot
      · rw [if_pos hpivot]
        rw [if_pos (decide_eq_true hpivot)] at h
        apply gives_scanUp hsz hlo hkhi hhi (by omega) h
      · rw [if_neg hpivot]
        rw [if_neg (mt of_decide_eq_true hpivot)] at h
        cases h
        apply Gives.pure

/-- The loop of `partition_pgs` does on `int32_t` what it does on the integers. -/
theorem gives_partitionLoop (hturn : hi - lo < sz) (hlo : 0 ≤ lo) (hhi : hi + 1 < 2 ^ 31)
    (pivot : U64) :
  ∀ (turns : ℕ) {data data' : ℕ → U64} {i j p : ℤ},
    PartitionInv data sz pivot.toNat lo hi i j → i < j →
    PhysMem.partitionLoop sz pivot turns data i j = some (data', p) →
    Gives (slots sz lo hi) data (partitionLoop (sz + 2) sz pivot turns i j) p data'
  | 0, _, _, _, _, _, _, _, h => by cases h
  | turns + 1, data, data', i, j, p, hinv, hij, h => by
      have hi₀ := hinv.lo_le
      have hj₀ := hinv.le_hi
      obtain ⟨i', j', hstep⟩ := hinv.turn hturn
      have hj'lo := hstep.lo_le
      have hj'j := hstep.down_lt
      have hii' := hstep.lt_up
      have hi'hi := hstep.le_hi
      rw [PhysMem.partitionLoop, hstep.down, Option.bind_eq_bind, Option.bind_some, hstep.up,
        Option.bind_some] at h
      rw [partitionLoop]
      apply Gives.bind (gives_scanDown (by omega) hlo hj'lo hj₀ (by omega) hstep.down)
      apply Gives.bind (gives_scanUp (by omega) hlo hi'hi (by omega) hi₀ hstep.up)
      by_cases hmet : i' ≥ j'
      · rw [if_pos hmet] at h ⊢
        cases h
        apply Gives.pure
      · rw [if_neg hmet] at h ⊢
        have hi'S : slot sz i' ∈ slots sz lo hi := slot_mem_slots (by omega) hi'hi
        have hj'S : slot sz j' ∈ slots sz lo hi := slot_mem_slots hj'lo (by omega)
        apply gives_xorSwap (by omega) (by omega) (by omega) hi'S hj'S
        apply gives_partitionLoop hturn hlo hhi pivot turns (hstep.inv (not_le.mp hmet))
          (not_le.mp hmet) h

theorem gives_partitionPgs (hturn : hi - lo < sz) (hlo : 0 ≤ lo) (hlt : lo < hi)
    (hhi : hi ≤ 2 ^ 30) {p : ℤ} (h : PhysMem.partitionPgs data lo hi sz = some (data', p)) :
  Gives (slots sz lo hi) data (partitionPgs (sz + 2) lo hi sz) p data'
  := by
  have hhalf : (lo + hi).tdiv 2 = (lo + hi) / 2 := Int.tdiv_eq_ediv_of_nonneg (by omega)
  apply Gives.bind (gives_int32 (by omega) (by omega))
  rw [hhalf]
  apply Gives.bind (gives_int32 (by omega) (by omega))
  apply Gives.bind (gives_load (by omega) (by omega) (slot_mem_slots (by omega) (by omega)))
  apply Gives.bind (gives_int32 (by omega) (by omega))
  apply Gives.bind (gives_int32 (by omega) (by omega))
  have hinv := partitionInv_init data sz hlt
  apply gives_partitionLoop hturn hlo (by omega) _ _ hinv (by omega) h

/-- As long as no position exceeds 2³⁰, `quicksort_pgs` does on `int32_t` what it does on the
integers. -/
theorem gives_quicksortLoop (sz : ℕ) :
  ∀ (depth : ℕ) {data data' : ℕ → U64} {lo hi : ℤ}, hi - lo < sz → 0 ≤ lo →
    (lo < hi → hi ≤ 2 ^ 30) →
    PhysMem.quicksortLoop sz depth data lo hi = some data' →
    Gives (slots sz lo hi) data (quicksortLoop (sz + 2) sz depth lo hi) () data'
  | 0, _, _, _, _, _, _, _, h => by cases h
  | depth + 1, data, data', lo, hi, hturn, hlo, hhi, h => by
      rw [PhysMem.quicksortLoop] at h
      rw [quicksortLoop]
      by_cases hlt : hi > lo
      · obtain ⟨data₀, p, heq, hpart⟩ := partitionPgs_spec hturn hlt data
        have hle := hhi hlt
        have hlop := hpart.lo_le
        have hphi := hpart.lt_hi
        have hsubl : slots sz lo p ⊆ slots sz lo hi := slots_mono (by omega) (by omega)
        have hsubr : slots sz (p + 1) hi ⊆ slots sz lo hi := slots_mono (by omega) (by omega)
        rw [if_pos hlt, heq, Option.bind_eq_bind, Option.bind_some] at h
        rw [if_pos hlt]
        apply Gives.bind (gives_partitionPgs hturn hlo hlt hle heq)
        apply Gives.bind (gives_int32 (by omega) (by omega))
        apply Gives.bind (gives_int32 (by omega) (by omega))
        dsimp only at h
        by_cases hside : p - lo > hi - p
        · rw [if_pos hside] at h ⊢
          obtain ⟨data₁, hleft, hright⟩ := Option.bind_eq_some_iff.mp h
          have hl := gives_quicksortLoop sz depth (by omega) hlo (by omega) hleft
          have hr := gives_quicksortLoop sz depth (by omega) (by omega) (by omega) hright
          apply Gives.bind (hl.mono hsubl)
          apply Gives.bind (gives_int32 (by omega) (by omega))
          apply hr.mono hsubr
        · rw [if_neg hside] at h ⊢
          obtain ⟨data₁, hright, hleft⟩ := Option.bind_eq_some_iff.mp h
          have hr := gives_quicksortLoop sz depth (by omega) (by omega) (by omega) hright
          have hl := gives_quicksortLoop sz depth (by omega) hlo (by omega) hleft
          apply Gives.bind (gives_int32 (by omega) (by omega))
          apply Gives.bind (hr.mono hsubr)
          apply hl.mono hsubl
      · rw [if_neg hlt] at h ⊢
        cases h
        apply Gives.pure

/-- Within these positions `quicksort_pgs` sorts its window. -/
theorem sorts_of_le {sz : ℕ} {lo hi : ℤ} (hle : lo ≤ hi) (hturn : hi - lo < sz) (hlo : 0 ≤ lo)
    (hhi : lo < hi → hi ≤ 2 ^ 30) :
  Sorts sz lo hi
  := by
  intro data
  obtain ⟨data', hideal, hre, hsorted⟩ := quicksortLoop_spec sz (sz + 2) data lo hi hturn
    (by omega) (by omega)
  obtain ⟨touched, hrun, hin⟩ := gives_quicksortLoop sz (sz + 2) hturn hlo hhi hideal []
  refine ⟨sz + 2, ⟨data', touched⟩, hrun, ?_, ?_, ?_, hsorted⟩
  · intro x hx
    exact (hin x hx).resolve_left List.not_mem_nil
  · intro x hx
    exact hre.of_notMem hx
  · apply perm_window (by omega)
    have hlast : lo + ((hi - lo + 1).toNat : ℤ) - 1 = hi := by omega
    rw [hlast]
    exact hre

end Window

/-! ### The rings that there are -/

section Ring

variable {h : Heap.State} {sz : ℤ} {s s' : Pmem} {q : Queue} {lo hi : ℤ}

/-- `queue_init` makes no ring of 2²⁴ slots, whatever it is asked for and was allocated before. -/
theorem size_lt_of_queueInit (hreach : Heap.Reachable h) (hsz : sz < 2 ^ 31)
    (hring : queueInit h.pos sz s = .ok (some q) s') :
  q.size < 2 ^ 24
  := by
  have harea : bootstrapAllocAreaSize.toNat = 2 ^ 27 := rfl
  have hpos := hreach.pos_lt
  rw [queueInit] at hring
  cases hmalloc : bootstrapMalloc h.pos (BitVec.ofInt 64 sz * 8) with
  | none =>
      rw [hmalloc] at hring
      cases hring
  | some pos =>
      simp only [hmalloc] at hring
      split at hring
      next => cases hring
      next hneg =>
        cases hring
        obtain ⟨n, rfl⟩ := Int.eq_ofNat_of_zero_le (not_lt.mp hneg)
        have hbytes : (BitVec.ofInt 64 n * 8).toNat = n * 8 := by
          rw [BitVec.ofInt_natCast, BitVec.toNat_mul, BitVec.toNat_ofNat,
            Nat.mod_eq_of_lt (by omega : n < 2 ^ 64), show (8 : U64).toNat = 8 from rfl]
          omega
        have hle := Heap.le_rounded (BitVec.ofInt 64 n * 8)
        have hwrap : h.pos.toNat + Heap.rounded (BitVec.ofInt 64 n * 8) < 2 ^ 64 := by
          rw [Heap.rounded, hbytes]
          omega
        have hroom := (Heap.bootstrapMalloc_of_noWrap hwrap hmalloc).2.2
        change n < 2 ^ 24
        omega

/-- On every ring that `queue_init` makes of an `int32_t` length, at any state of the heap, and for
all content of the ring, `quicksort_pgs` ends, stays within the positions `lo`, …, `hi`, and sorts
them. -/
theorem sorts_ring (hreach : Heap.Reachable h) (hsz : sz < 2 ^ 31)
    (hring : queueInit h.pos sz s = .ok (some q) s') (hlo : 0 ≤ lo) (hlt : lo < q.size)
    (hle : lo ≤ hi) (hturn : hi - lo < q.size) :
  Sorts q.size lo hi
  := by
  have hsize := size_lt_of_queueInit hreach hsz hring
  apply sorts_of_le hle hturn hlo
  intro _
  omega

/-- Three entries at the end and the beginning of a ring of four slots. -/
theorem sorts_ring_four :
  Sorts (Queue.init 4).size 3 5
  := by
  have hreach : Heap.Reachable Heap.init := ⟨[], trivial, rfl⟩
  have hring : queueInit Heap.init.pos 4 (Pmem.init 0) = .ok (some (Queue.init 4)) (Pmem.init 0) :=
    rfl
  exact sorts_ring hreach (by decide) hring (by decide) (by decide) (by decide) (by decide)

end Ring

end PhysMem.Checked
