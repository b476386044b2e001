import Gubernatrix.PhysMem.Entry
import Gubernatrix.Lib.Ring
import Gubernatrix.Lib.Scan

/-!
# Sorting the free queue

The quicksort of `phys_mem.c`: it sorts the entries at the positions `lo`, …, `hi` of a ring
of `sz` slots by their address, in place. Loops and recursion are bounded by a fuel;
`quicksortPgs_spec` shows that the fuel is enough on every window of at most a turn, and that
the window is rearranged into increasing order of addresses.
-/

namespace PhysMem

open Ring

/-- The exchange of two slots by three exclusive ors. -/
def xorSwap (data : ℕ → U64) (si sj : ℕ) : ℕ → U64 :=
  let data := Function.update data si (data si ^^^ data sj)
  let data := Function.update data sj (data sj ^^^ data si)
  Function.update data si (data si ^^^ data sj)

/-- The loop of `partition_pgs`, from the positions `i` and `j` on. -/
def partitionLoop (sz : ℕ) (pivot : U64) :
    ℕ → (ℕ → U64) → ℤ → ℤ → Option ((ℕ → U64) × ℤ)
  | 0, _, _, _ => none
  | fuel + 1, data, i, j => do
      let j ← Scan.down (fun j => getAddr (data (slot sz j)) > pivot) (sz + 2) j
      let i ← Scan.up (fun i => getAddr (data (slot sz i)) < pivot) (sz + 2) i
      if i ≥ j then
        some (data, j)
      else
        partitionLoop sz pivot fuel (xorSwap data (slot sz i) (slot sz j)) i j

/-- `partition_pgs`. -/
def partitionPgs (data : ℕ → U64) (lo hi : ℤ) (sz : ℕ) : Option ((ℕ → U64) × ℤ) :=
  let pivLoc := (lo + hi) / 2
  let pivot := getAddr (data (slot sz pivLoc))
  partitionLoop sz pivot (sz + 2) data (lo - 1) (hi + 1)

/-- `quicksort_pgs`, with a bound on the turns of its loop and the depth of its recursion. -/
def quicksortLoop (sz : ℕ) : ℕ → (ℕ → U64) → ℤ → ℤ → Option (ℕ → U64)
  | 0, _, _, _ => none
  | fuel + 1, data, lo, hi =>
      if hi > lo then do
        let (data, p) ← partitionPgs data lo hi sz
        if p - lo > hi - p then
          let data ← quicksortLoop sz fuel data lo p
          quicksortLoop sz fuel data (p + 1) hi
        else
          let data ← quicksortLoop sz fuel data (p + 1) hi
          quicksortLoop sz fuel data lo p
      else
        some data

/-- `quicksort_pgs`. -/
def quicksortPgs (data : ℕ → U64) (lo hi : ℤ) (sz : ℕ) : Option (ℕ → U64) :=
  quicksortLoop sz (sz + 1) data lo hi

/-! ### Exchanging two slots -/

theorem xorSwap_left (data : ℕ → U64) {si sj : ℕ} (h : si ≠ sj) :
  xorSwap data si sj si = data sj
  := by
  simp only [xorSwap, Function.update_self, Function.update_of_ne h, Function.update_of_ne h.symm]
  rw [BitVec.xor_comm (data sj), ← BitVec.xor_assoc, BitVec.xor_self, BitVec.zero_xor]

theorem xorSwap_right (data : ℕ → U64) {si sj : ℕ} (h : si ≠ sj) :
  xorSwap data si sj sj = data si
  := by
  simp only [xorSwap, Function.update_self, Function.update_of_ne h.symm]
  rw [BitVec.xor_comm (data si), ← BitVec.xor_assoc, BitVec.xor_self, BitVec.zero_xor]

theorem xorSwap_of_ne (data : ℕ → U64) {si sj x : ℕ} (hi : x ≠ si) (hj : x ≠ sj) :
  xorSwap data si sj x = data x
  := by
  simp only [xorSwap, Function.update_of_ne hi, Function.update_of_ne hj]

theorem rearranged_xorSwap {S : Set ℕ} (data : ℕ → U64) {si sj : ℕ} (h : si ≠ sj)
    (hi : si ∈ S) (hj : sj ∈ S) :
  Rearranged S data (xorSwap data si sj)
  := by
  apply Rearranged.swap hi hj
  · apply xorSwap_left data h
  · apply xorSwap_right data h
  · intro x hx hx'
    apply xorSwap_of_ne data hx hx'

/-! ### Partitioning -/

/-- The address of the entry at position `k`. -/
def addrAt (data : ℕ → U64) (sz : ℕ) (k : ℤ) : ℕ := (getAddr (data (slot sz k))).toNat

/-- What the loop of `partition_pgs` keeps: up to `i` no address exceeds the pivot, from `j`
on none is below it, and each scan has a position to stop at. The scan up stops before `hi`
in the first turn, and later because `j` has moved. -/
structure PartitionInv (data : ℕ → U64) (sz : ℕ) (pivot : ℕ) (lo hi i j : ℤ) : Prop where
  lo_le : lo - 1 ≤ i
  le_hi : j ≤ hi + 1
  below : ∀ k, lo ≤ k → k ≤ i → addrAt data sz k ≤ pivot
  above : ∀ k, j ≤ k → k ≤ hi → pivot ≤ addrAt data sz k
  stop_down : ∃ m, lo ≤ m ∧ m < j ∧ addrAt data sz m ≤ pivot
  stop_up : ∃ m, i < m ∧ m ≤ hi ∧ pivot ≤ addrAt data sz m ∧ (m < hi ∨ j ≤ hi)

/-- Where the two scans of a turn stop, from `i` and `j` on: inside the window, and either they
have met and the window is split, or the invariant holds once the two entries are exchanged. -/
structure PartitionTurn (data : ℕ → U64) (sz : ℕ) (pivot : U64) (lo hi i j i' j' : ℤ) : Prop where
  down : Scan.down (fun j => getAddr (data (slot sz j)) > pivot) (sz + 2) j = some j'
  up : Scan.up (fun i => getAddr (data (slot sz i)) < pivot) (sz + 2) i = some i'
  lo_le : lo ≤ j'
  down_lt : j' < j
  lt_up : i < i'
  le_hi : i' ≤ hi
  met : i' ≥ j' → j' < hi ∧
    ∀ k l, lo ≤ k → k ≤ j' → j' < l → l ≤ hi → addrAt data sz k ≤ addrAt data sz l
  inv : i' < j' →
    PartitionInv (xorSwap data (slot sz i') (slot sz j')) sz pivot.toNat lo hi i' j'

/-- What `partition_pgs` leaves: up to `p` no address exceeds the pivot, after `p` none is
below it, and neither side is the whole window. -/
structure Partitioned (data data' : ℕ → U64) (sz : ℕ) (lo hi p : ℤ) : Prop where
  rearranged : Rearranged (slots sz lo hi) data data'
  lo_le : lo ≤ p
  lt_hi : p < hi
  split : ∀ k l, lo ≤ k → k ≤ p → p < l → l ≤ hi → addrAt data' sz k ≤ addrAt data' sz l

/-- After the exchange of two positions of a window, each has the address of the other, and the
addresses at the other positions are as they were. -/
theorem addrAt_xorSwap {sz : ℕ} {lo hi i j : ℤ} (data : ℕ → U64) (hturn : hi - lo < sz)
    (hi₀ : lo ≤ i) (hij : i < j) (hj : j ≤ hi) :
  addrAt (xorSwap data (slot sz i) (slot sz j)) sz i = addrAt data sz j
    ∧ addrAt (xorSwap data (slot sz i) (slot sz j)) sz j = addrAt data sz i
    ∧ ∀ k, lo ≤ k → k ≤ hi → k ≠ i → k ≠ j →
      addrAt (xorSwap data (slot sz i) (slot sz j)) sz k = addrAt data sz k
  := by
  have hne : slot sz i ≠ slot sz j := by
    intro h
    have := slot_injective (by omega) (by omega) h
    omega
  refine ⟨?_, ?_, ?_⟩
  · rw [addrAt, xorSwap_left data hne, addrAt]
  · rw [addrAt, xorSwap_right data hne, addrAt]
  · intro k hk hk' hki hkj
    rw [addrAt, xorSwap_of_ne]
    · rfl
    · intro h
      exact hki (slot_injective (by omega) (by omega) h)
    · intro h
      exact hkj (slot_injective (by omega) (by omega) h)

/-- Each turn finds where to stop, as long as the invariant holds. -/
theorem PartitionInv.turn {data : ℕ → U64} {sz : ℕ} {lo hi i j : ℤ} {pivot : U64}
    (hturn : hi - lo < sz) (hinv : PartitionInv data sz pivot.toNat lo hi i j) :
  ∃ i' j', PartitionTurn data sz pivot lo hi i j i' j'
  := by
  have hlo := hinv.lo_le
  have hhi := hinv.le_hi
  obtain ⟨m, hm, hmj, hmp⟩ := hinv.stop_down
  obtain ⟨m', him', hm', hm'p, hstop⟩ := hinv.stop_up
  have hdown : decide (getAddr (data (slot sz m)) > pivot) = false := by
    rw [decide_eq_false_iff_not, gt_iff_lt, BitVec.lt_def, not_lt]
    exact hmp
  have hup : decide (getAddr (data (slot sz m')) < pivot) = false := by
    rw [decide_eq_false_iff_not, BitVec.lt_def, not_lt]
    exact hm'p
  obtain ⟨j', hj', hmj', hj'j, hpj', hafter⟩ := Scan.down_spec
    (p := fun j => getAddr (data (slot sz j)) > pivot) hdown (sz + 2) j hmj (by omega)
  obtain ⟨i', hi', hii', hi'm', hpi', hbefore⟩ := Scan.up_spec
    (p := fun i => getAddr (data (slot sz i)) < pivot) hup (sz + 2) i him' (by omega)
  have hj'le : addrAt data sz j' ≤ pivot.toNat := by
    simpa [BitVec.lt_def, addrAt] using hpj'
  have hi'ge : pivot.toNat ≤ addrAt data sz i' := by
    simpa [BitVec.lt_def, addrAt] using hpi'
  have hafter' : ∀ k, j' < k → k ≤ hi → pivot.toNat ≤ addrAt data sz k := by
    intro k hk hk'
    by_cases hkj : k < j
    · have := hafter k hk hkj
      simp only [decide_eq_true_eq, gt_iff_lt, BitVec.lt_def] at this
      exact this.le
    · apply hinv.above k (by omega) hk'
  have hbefore' : ∀ k, lo ≤ k → k < i' → addrAt data sz k ≤ pivot.toNat := by
    intro k hk hk'
    by_cases hik : i < k
    · have := hbefore k hik hk'
      simp only [decide_eq_true_eq, BitVec.lt_def] at this
      exact this.le
    · apply hinv.below k hk (by omega)
  use i', j'
  refine ⟨hj', hi', by omega, hj'j, hii', by omega, ?_, ?_⟩
  · intro hmet
    use by omega
    intro k l hk hkj hjl hl
    apply le_trans _ (hafter' l hjl hl)
    by_cases hki : k < i'
    · apply hbefore' k hk hki
    · obtain rfl : k = j' := by omega
      exact hj'le
  · intro hlt
    obtain ⟨hleft, hright, hother⟩ := addrAt_xorSwap data hturn (by omega : lo ≤ i') hlt
      (by omega : j' ≤ hi)
    refine ⟨by omega, by omega, ?_, ?_, ⟨i', by omega, by omega, ?_⟩,
      ⟨j', by omega, by omega, ?_, by omega⟩⟩
    · intro k hk hki
      by_cases h : k = i'
      · rw [h, hleft]
        exact hj'le
      · rw [hother k hk (by omega) h (by omega)]
        apply hbefore' k hk (by omega)
    · intro k hjk hk
      by_cases h : k = j'
      · rw [h, hright]
        exact hi'ge
      · rw [hother k (by omega) hk (by omega) h]
        apply hafter' k (by omega) hk
    · rw [hleft]
      exact hj'le
    · rw [hright]
      exact hi'ge

theorem partitionLoop_spec {sz : ℕ} {lo hi : ℤ} (hturn : hi - lo < sz) (pivot : U64) :
  ∀ (fuel : ℕ) {data : ℕ → U64} {i j : ℤ}, PartitionInv data sz pivot.toNat lo hi i j →
    i < j → j - i ≤ fuel →
    ∃ data' p, partitionLoop sz pivot fuel data i j = some (data', p)
      ∧ Partitioned data data' sz lo hi p
  | 0, data, i, j, hinv, hij, hfuel => by omega
  | fuel + 1, data, i, j, hinv, hij, hfuel => by
      have hi₀ := hinv.lo_le
      have hj₀ := hinv.le_hi
      obtain ⟨i', j', hstep⟩ := hinv.turn hturn
      have hj'lo := hstep.lo_le
      have hj'j := hstep.down_lt
      have hii' := hstep.lt_up
      have hi'hi := hstep.le_hi
      rw [partitionLoop, hstep.down, Option.bind_eq_bind, Option.bind_some, hstep.up,
        Option.bind_some]
      by_cases hmet : i' ≥ j'
      · rw [if_pos hmet]
        obtain ⟨hlt, hsplit⟩ := hstep.met hmet
        exact ⟨data, j', rfl, Rearranged.refl _ _, hj'lo, hlt, hsplit⟩
      · rw [if_neg hmet]
        have hne : slot sz i' ≠ slot sz j' := by
          intro h
          have := slot_injective (by omega) (by omega) h
          omega
        obtain ⟨data', p, heq, hpart⟩ := partitionLoop_spec hturn pivot fuel
          (hstep.inv (not_le.mp hmet)) (not_le.mp hmet) (by omega)
        refine ⟨data', p, heq, ?_, hpart.lo_le, hpart.lt_hi, hpart.split⟩
        apply (rearranged_xorSwap data hne _ _).trans hpart.rearranged
        · apply slot_mem_slots <;> omega
        · apply slot_mem_slots <;> omega

/-- The invariant holds before the first turn. -/
theorem partitionInv_init (data : ℕ → U64) (sz : ℕ) {lo hi : ℤ} (hlt : lo < hi) :
  PartitionInv data sz (addrAt data sz ((lo + hi) / 2)) lo hi (lo - 1) (hi + 1)
  := by
  refine ⟨by omega, by omega, ?_, ?_, ⟨(lo + hi) / 2, by omega, by omega, le_refl _⟩,
    ⟨(lo + hi) / 2, by omega, by omega, le_refl _, by omega⟩⟩
  · intro k hk hk'
    omega
  · intro k hk hk'
    omega

theorem partitionPgs_spec {sz : ℕ} {lo hi : ℤ} (hturn : hi - lo < sz) (hlt : lo < hi)
    (data : ℕ → U64) :
  ∃ data' p, partitionPgs data lo hi sz = some (data', p) ∧ Partitioned data data' sz lo hi p
  := by
  apply partitionLoop_spec hturn
  · apply partitionInv_init data sz hlt
  · omega
  · omega

/-! ### Sorting -/

/-- The addresses at the positions `lo`, …, `hi` increase. -/
def SortedOn (data : ℕ → U64) (sz : ℕ) (lo hi : ℤ) : Prop :=
  ∀ k l, lo ≤ k → k < l → l ≤ hi → addrAt data sz k ≤ addrAt data sz l

/-- Sorting the two sides of a partitioned window, one after the other, sorts the window. -/
theorem sortedOn_of_sides {data data₁ data₂ : ℕ → U64} {sz : ℕ} {lo hi p : ℤ}
    {S₁ S₂ : Set ℕ} (hturn : hi - lo < sz) (hlo : lo ≤ p) (hhi : p < hi)
    (hsplit : ∀ k l, lo ≤ k → k ≤ p → p < l → l ≤ hi → addrAt data sz k ≤ addrAt data sz l)
    (hsides : S₁ = slots sz lo p ∧ S₂ = slots sz (p + 1) hi
      ∨ S₁ = slots sz (p + 1) hi ∧ S₂ = slots sz lo p)
    (h₁ : Rearranged S₁ data data₁) (h₂ : Rearranged S₂ data₁ data₂)
    (hl : SortedOn data₂ sz lo p) (hr : SortedOn data₂ sz (p + 1) hi) :
  SortedOn data₂ sz lo hi
  := by
  -- a value on a side comes from a value on the same side
  have hfrom : ∀ lo' hi', (lo' = lo ∧ hi' = p ∨ lo' = p + 1 ∧ hi' = hi) → ∀ k, lo' ≤ k →
      k ≤ hi' → ∃ k', lo' ≤ k' ∧ k' ≤ hi' ∧ addrAt data₂ sz k = addrAt data sz k' := by
    intro lo' hi' hside k hk hk'
    have hin : slot sz k ∈ slots sz lo' hi' := slot_mem_slots hk hk'
    have hout : ∀ k, lo' ≤ k → k ≤ hi' → ∀ lo'' hi'', (lo'' = lo ∧ hi'' = p ∨
        lo'' = p + 1 ∧ hi'' = hi) → lo' ≠ lo'' → slot sz k ∉ slots sz lo'' hi'' := by
      intro k hk hk' lo'' hi'' hside' hne
      apply slot_notMem_slots _ _ hturn <;> omega
    obtain ⟨rfl, rfl⟩ | ⟨rfl, rfl⟩ := hside <;> obtain ⟨rfl, rfl⟩ | ⟨rfl, rfl⟩ := hsides
    · have hout' := hout k hk hk' (hi' + 1) hi (by omega) (by omega)
      obtain ⟨_, ⟨k', hk₁, hk₂, rfl⟩, hval⟩ := h₁.exists_of_mem hin
      exact ⟨k', hk₁, hk₂, by rw [addrAt, h₂.of_notMem hout', hval, addrAt]⟩
    · obtain ⟨_, ⟨k', hk₁, hk₂, rfl⟩, hval⟩ := h₂.exists_of_mem hin
      have hout' := hout k' hk₁ hk₂ (hi' + 1) hi (by omega) (by omega)
      exact ⟨k', hk₁, hk₂, by rw [addrAt, hval, h₁.of_notMem hout', addrAt]⟩
    · obtain ⟨_, ⟨k', hk₁, hk₂, rfl⟩, hval⟩ := h₂.exists_of_mem hin
      have hout' := hout k' hk₁ hk₂ lo p (by omega) (by omega)
      exact ⟨k', hk₁, hk₂, by rw [addrAt, hval, h₁.of_notMem hout', addrAt]⟩
    · have hout' := hout k hk hk' lo p (by omega) (by omega)
      obtain ⟨_, ⟨k', hk₁, hk₂, rfl⟩, hval⟩ := h₁.exists_of_mem hin
      exact ⟨k', hk₁, hk₂, by rw [addrAt, h₂.of_notMem hout', hval, addrAt]⟩
  intro k l hk hkl hl'
  by_cases hlp : l ≤ p
  · apply hl k l hk hkl hlp
  · by_cases hkp : p < k
    · apply hr k l (by omega) hkl hl'
    · obtain ⟨k', hk₁, hk₂, hval⟩ := hfrom lo p (by omega) k hk (by omega)
      obtain ⟨l', hl₁, hl₂, hval'⟩ := hfrom (p + 1) hi (by omega) l (by omega) hl'
      rw [hval, hval']
      apply hsplit <;> omega

/-- Rearranging slots outside a part of the window keeps the part sorted. -/
theorem SortedOn.rearranged {data data' : ℕ → U64} {sz : ℕ} {lo hi lo' hi' : ℤ}
    (h : SortedOn data sz lo hi) (hS : Rearranged (slots sz lo' hi') data data')
    (hout : ∀ k, lo ≤ k → k ≤ hi → slot sz k ∉ slots sz lo' hi') :
  SortedOn data' sz lo hi
  := by
  intro k l hk hkl hl
  rw [addrAt, addrAt, hS.of_notMem (hout k hk (by omega)), hS.of_notMem (hout l (by omega) hl)]
  apply h k l hk hkl hl

/-- A partitioned window is sorted, and rearranged, once both sides are. -/
theorem Partitioned.sorted {data data₀ data₁ data₂ : ℕ → U64} {sz : ℕ} {lo hi p : ℤ}
    {S₁ S₂ : Set ℕ} (hpart : Partitioned data data₀ sz lo hi p) (hturn : hi - lo < sz)
    (hsides : S₁ = slots sz lo p ∧ S₂ = slots sz (p + 1) hi
      ∨ S₁ = slots sz (p + 1) hi ∧ S₂ = slots sz lo p)
    (h₁ : Rearranged S₁ data₀ data₁) (h₂ : Rearranged S₂ data₁ data₂)
    (hl : SortedOn data₂ sz lo p) (hr : SortedOn data₂ sz (p + 1) hi) :
  Rearranged (slots sz lo hi) data data₂ ∧ SortedOn data₂ sz lo hi
  := by
  have hlo := hpart.lo_le
  have hhi := hpart.lt_hi
  have hsubl : slots sz lo p ⊆ slots sz lo hi := slots_mono (by omega) (by omega)
  have hsubr : slots sz (p + 1) hi ⊆ slots sz lo hi := slots_mono (by omega) (by omega)
  constructor
  · apply hpart.rearranged.trans
    obtain ⟨rfl, rfl⟩ | ⟨rfl, rfl⟩ := hsides
    · apply (h₁.mono hsubl).trans (h₂.mono hsubr)
    · apply (h₁.mono hsubr).trans (h₂.mono hsubl)
  · apply sortedOn_of_sides hturn hlo hhi hpart.split hsides h₁ h₂ hl hr

theorem quicksortLoop_spec (sz : ℕ) :
  ∀ (fuel : ℕ) (data : ℕ → U64) (lo hi : ℤ), hi - lo < sz → hi - lo < fuel → 0 < fuel →
    ∃ data', quicksortLoop sz fuel data lo hi = some data'
      ∧ Rearranged (slots sz lo hi) data data' ∧ SortedOn data' sz lo hi
  | 0, data, lo, hi, hturn, hfuel, hpos => by omega
  | fuel + 1, data, lo, hi, hturn, hfuel, hpos => by
      rw [quicksortLoop]
      by_cases hlt : hi > lo
      · obtain ⟨data₀, p, heq, hpart⟩ := partitionPgs_spec hturn hlt data
        have hlo := hpart.lo_le
        have hhi := hpart.lt_hi
        rw [if_pos hlt, heq, Option.bind_eq_bind, Option.bind_some]
        by_cases hside : p - lo > hi - p
        · obtain ⟨data₁, heq₁, hre₁, hso₁⟩ := quicksortLoop_spec sz fuel data₀ lo p
            (by omega) (by omega) (by omega)
          obtain ⟨data₂, heq₂, hre₂, hso₂⟩ := quicksortLoop_spec sz fuel data₁ (p + 1) hi
            (by omega) (by omega) (by omega)
          have hl : SortedOn data₂ sz lo p := by
            apply hso₁.rearranged hre₂
            intro k hk hk'
            apply slot_notMem_slots _ _ hturn <;> omega
          refine ⟨data₂, ?_, hpart.sorted hturn (.inl ⟨rfl, rfl⟩) hre₁ hre₂ hl hso₂⟩
          simp only [if_pos hside, heq₁, heq₂, Option.bind_eq_bind, Option.bind_some]
        · obtain ⟨data₁, heq₁, hre₁, hso₁⟩ := quicksortLoop_spec sz fuel data₀ (p + 1) hi
            (by omega) (by omega) (by omega)
          obtain ⟨data₂, heq₂, hre₂, hso₂⟩ := quicksortLoop_spec sz fuel data₁ lo p
            (by omega) (by omega) (by omega)
          have hr : SortedOn data₂ sz (p + 1) hi := by
            apply hso₁.rearranged hre₂
            intro k hk hk'
            apply slot_notMem_slots _ _ hturn <;> omega
          refine ⟨data₂, ?_, hpart.sorted hturn (.inr ⟨rfl, rfl⟩) hre₁ hre₂ hso₂ hr⟩
          simp only [if_neg hside, heq₁, heq₂, Option.bind_eq_bind, Option.bind_some]
      · rw [if_neg hlt]
        refine ⟨data, rfl, Rearranged.refl _ _, ?_⟩
        intro k l hk hkl hl
        omega

/-- `quicksort_pgs` ends on every window of at most a turn, moves entries only between the
slots of the window, and leaves the window sorted by address. -/
theorem quicksortPgs_spec {sz : ℕ} (lo hi : ℤ) (hturn : hi - lo < sz) (data : ℕ → U64) :
  ∃ data', quicksortPgs data lo hi sz = some data'
    ∧ Rearranged (slots sz lo hi) data data' ∧ SortedOn data' sz lo hi
  := by
  apply quicksortLoop_spec _ _ _ _ _ hturn <;> omega

end PhysMem
