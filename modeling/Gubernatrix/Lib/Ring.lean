import Mathlib.Algebra.Group.End
import Mathlib.Data.List.Nodup
import Mathlib.Data.Set.Basic
import Mathlib.Data.Int.Order.Basic
import Mathlib.Algebra.Order.Group.Unbundled.Int
import Mathlib.Tactic.Linarith

/-!
# Ring memories

A ring memory of size `sz` is a function `data : ℕ → α` read at positions of `ℤ`: position
`k` is kept in the slot `k` modulo `sz`. A window is a run of fewer than `sz + 1` successive
positions, so its slots are distinct.

`Rearranged S f g` says that `g` arises from `f` by permuting the arguments in `S`.
In-place sorting of a window is such a rearrangement, on the slots of the window.
-/

namespace Ring

/-! ### Rearrangements -/

/-- `g` is `f` with the arguments in `S` permuted. -/
def Rearranged {ι α : Type} (S : Set ι) (f g : ι → α) : Prop :=
  ∃ σ : Equiv.Perm ι, (∀ x, x ∉ S → σ x = x) ∧ g = f ∘ σ

namespace Rearranged

variable {ι α : Type} {S T : Set ι} {f g h : ι → α}

theorem refl (S : Set ι) (f : ι → α) :
  Rearranged S f f
  := ⟨1, fun _ _ => rfl, rfl⟩

theorem trans (hfg : Rearranged S f g) (hgh : Rearranged S g h) :
  Rearranged S f h
  := by
  obtain ⟨σ, hσ, rfl⟩ := hfg
  obtain ⟨τ, hτ, rfl⟩ := hgh
  refine ⟨σ * τ, fun x hx => ?_, rfl⟩
  rw [Equiv.Perm.mul_apply, hτ x hx, hσ x hx]

theorem mono (hST : S ⊆ T) (hfg : Rearranged S f g) :
  Rearranged T f g
  := by
  obtain ⟨σ, hσ, rfl⟩ := hfg
  exact ⟨σ, fun x hx => hσ x (fun h => hx (hST h)), rfl⟩

theorem of_notMem (hfg : Rearranged S f g) {x : ι} (hx : x ∉ S) :
  g x = f x
  := by
  obtain ⟨σ, hσ, rfl⟩ := hfg
  rw [Function.comp_apply, hσ x hx]

/-- The permutation of the arguments keeps `S`. -/
theorem mem_iff {σ : Equiv.Perm ι} (hσ : ∀ x, x ∉ S → σ x = x) (x : ι) :
  σ x ∈ S ↔ x ∈ S
  := by
  constructor
  · intro h
    by_contra hx
    rw [hσ x hx] at h
    exact hx h
  · intro h
    by_contra hx
    have hfix := hσ _ hx
    rw [EmbeddingLike.apply_eq_iff_eq] at hfix
    rw [hfix] at hx
    exact hx h

theorem exists_of_mem (hfg : Rearranged S f g) {x : ι} (hx : x ∈ S) :
  ∃ y ∈ S, g x = f y
  := by
  obtain ⟨σ, hσ, rfl⟩ := hfg
  exact ⟨σ x, (mem_iff hσ x).mpr hx, rfl⟩

/-- The values along a list of distinct arguments which are just those of `S` are
permuted. -/
theorem perm_map (hfg : Rearranged S f g) {l : List ι} (hl : l.Nodup)
    (hmem : ∀ x, x ∈ l ↔ x ∈ S) :
  (l.map g).Perm (l.map f)
  := by
  obtain ⟨σ, hσ, rfl⟩ := hfg
  have hperm : (l.map σ).Perm l := by
    rw [List.perm_ext_iff_of_nodup (hl.map σ.injective) hl]
    intro x
    rw [List.mem_map]
    constructor
    · rintro ⟨y, hy, rfl⟩
      rw [hmem, mem_iff hσ, ← hmem]
      exact hy
    · intro hx
      refine ⟨σ.symm x, ?_, σ.apply_symm_apply x⟩
      rw [hmem, ← mem_iff hσ, σ.apply_symm_apply, ← hmem]
      exact hx
  rw [← List.map_map]
  apply hperm.map f

variable [DecidableEq ι]

/-- Exchanging the values at two arguments of `S` is a rearrangement. -/
theorem swap {i j : ι} (hi : i ∈ S) (hj : j ∈ S) (hgi : g i = f j) (hgj : g j = f i)
    (hg : ∀ x, x ≠ i → x ≠ j → g x = f x) :
  Rearranged S f g
  := by
  refine ⟨Equiv.swap i j, ?_, ?_⟩
  · intro x hx
    apply Equiv.swap_apply_of_ne_of_ne
    · rintro rfl
      exact hx hi
    · rintro rfl
      exact hx hj
  · funext x
    rw [Function.comp_apply]
    by_cases hxi : x = i
    · rw [hxi, Equiv.swap_apply_left, hgi]
    · by_cases hxj : x = j
      · rw [hxj, Equiv.swap_apply_right, hgj]
      · rw [Equiv.swap_apply_of_ne_of_ne hxi hxj, hg x hxi hxj]

end Rearranged

/-! ### Slots -/

/-- The slot of position `k` in a ring of `sz` slots. -/
def slot (sz : ℕ) (k : ℤ) : ℕ := (k % sz).toNat

theorem slot_lt {sz : ℕ} (hsz : 0 < sz) (k : ℤ) :
  slot sz k < sz
  := by
  have h0 := Int.emod_nonneg k (by omega : (sz : ℤ) ≠ 0)
  have h1 := Int.emod_lt_of_pos k (by omega : (0 : ℤ) < sz)
  unfold slot
  omega

theorem slot_natCast (sz k : ℕ) :
  slot sz k = k % sz
  := by
  rw [slot, ← Int.natCast_mod, Int.toNat_natCast]

theorem slot_add_size (sz : ℕ) (k : ℤ) :
  slot sz (k + sz) = slot sz k
  := by
  simp [slot]

/-- Positions less than a turn apart have distinct slots. -/
theorem slot_injective {sz : ℕ} {k l : ℤ} (hkl : l - k < sz) (hlk : k - l < sz)
    (h : slot sz k = slot sz l) :
  k = l
  := by
  by_cases hsz : sz = 0
  · subst hsz
    omega
  have hk := Int.emod_nonneg k (by omega : (sz : ℤ) ≠ 0)
  have hl := Int.emod_nonneg l (by omega : (sz : ℤ) ≠ 0)
  have hmod : k % sz = l % sz := by
    unfold slot at h
    omega
  have hdvd : (sz : ℤ) ∣ k - l := (Int.emod_eq_emod_iff_emod_sub_eq_zero.mp hmod)
    |> Int.dvd_of_emod_eq_zero
  have hzero : k - l = 0 := by
    apply Int.eq_zero_of_abs_lt_dvd hdvd
    rw [abs_lt]
    omega
  omega

/-- A position may be read from `m` instead of from the slot of `m`. -/
theorem slot_sub_slot {sz : ℕ} (hsz : 0 < sz) (k m : ℤ) :
  slot sz (k - slot sz m + m) = slot sz k
  := by
  have h0 := Int.emod_nonneg m (by omega : (sz : ℤ) ≠ 0)
  have hcast : ((slot sz m : ℕ) : ℤ) = m % sz := by
    unfold slot
    omega
  have hdvd : k - m % sz + m = k + sz * (m / sz) := by
    have := Int.emod_add_mul_ediv m sz
    omega
  rw [hcast, hdvd]
  simp [slot]

/-! ### Windows -/

/-- The slots of the positions `lo`, …, `hi`. -/
def slots (sz : ℕ) (lo hi : ℤ) : Set ℕ :=
  { x | ∃ k, lo ≤ k ∧ k ≤ hi ∧ slot sz k = x }

theorem slot_mem_slots {sz : ℕ} {lo hi k : ℤ} (hlo : lo ≤ k) (hhi : k ≤ hi) :
  slot sz k ∈ slots sz lo hi
  := ⟨k, hlo, hhi, rfl⟩

theorem slots_mono {sz : ℕ} {lo hi lo' hi' : ℤ} (hlo : lo' ≤ lo) (hhi : hi ≤ hi') :
  slots sz lo hi ⊆ slots sz lo' hi'
  := by
  rintro _ ⟨k, hk, hk', rfl⟩
  exact ⟨k, by omega, by omega, rfl⟩

/-- In a window of at most a turn, a position outside a part of it has its slot outside the
slots of that part. -/
theorem slot_notMem_slots {sz : ℕ} {lo' hi' k : ℤ} (lo hi : ℤ) (hturn : hi - lo < sz)
    (hlo : lo ≤ lo') (hhi : hi' ≤ hi) (hk : lo ≤ k) (hk' : k ≤ hi) (hout : k < lo' ∨ hi' < k) :
  slot sz k ∉ slots sz lo' hi'
  := by
  rintro ⟨l, hl, hl', h⟩
  have := slot_injective (by omega) (by omega) h
  omega

variable {α : Type}

/-- The `n` values from position `lo` on. -/
def window (data : ℕ → α) (sz : ℕ) (lo : ℤ) : ℕ → List α
  | 0 => []
  | n + 1 => data (slot sz lo) :: window data sz (lo + 1) n

@[simp]
theorem window_zero (data : ℕ → α) (sz : ℕ) (lo : ℤ) :
  window data sz lo 0 = []
  := rfl

theorem window_succ (data : ℕ → α) (sz : ℕ) (lo : ℤ) (n : ℕ) :
  window data sz lo (n + 1) = data (slot sz lo) :: window data sz (lo + 1) n
  := rfl

@[simp]
theorem length_window (data : ℕ → α) (sz : ℕ) (lo : ℤ) (n : ℕ) :
  (window data sz lo n).length = n
  := by
  induction n generalizing lo with
  | zero => rfl
  | succ n ih => rw [window_succ, List.length_cons, ih]

theorem window_add (data : ℕ → α) (sz : ℕ) (lo : ℤ) (m n : ℕ) :
  window data sz lo (m + n) = window data sz lo m ++ window data sz (lo + m) n
  := by
  induction m generalizing lo with
  | zero => simp
  | succ m ih =>
      have h : lo + ((m + 1 : ℕ) : ℤ) = lo + 1 + m := by omega
      rw [Nat.add_right_comm, window_succ, ih, window_succ, h, List.cons_append]

/-- A window is the image of its slots. -/
theorem window_eq_map (data : ℕ → α) (sz : ℕ) (lo : ℤ) (n : ℕ) :
  window data sz lo n = (window id sz lo n).map data
  := by
  induction n generalizing lo with
  | zero => rfl
  | succ n ih => rw [window_succ, window_succ, List.map_cons, ← ih, id]

theorem mem_window {data : ℕ → α} {sz : ℕ} {lo : ℤ} {n : ℕ} {a : α} :
  a ∈ window data sz lo n ↔ ∃ k, lo ≤ k ∧ k < lo + n ∧ data (slot sz k) = a
  := by
  induction n generalizing lo with
  | zero =>
      simp only [window_zero, List.not_mem_nil, false_iff]
      rintro ⟨k, hk, hk', -⟩
      omega
  | succ n ih =>
      rw [window_succ, List.mem_cons, ih]
      constructor
      · rintro (rfl | ⟨k, hk, hk', rfl⟩)
        · exact ⟨lo, by omega, by omega, rfl⟩
        · exact ⟨k, by omega, by omega, rfl⟩
      · rintro ⟨k, hk, hk', rfl⟩
        by_cases h : k = lo
        · left
          rw [h]
        · right
          exact ⟨k, by omega, by omega, rfl⟩

/-- Windows depend only on the values in their slots. -/
theorem window_congr {data data' : ℕ → α} {sz : ℕ} {lo : ℤ} {n : ℕ}
    (h : ∀ k, lo ≤ k → k < lo + n → data (slot sz k) = data' (slot sz k)) :
  window data sz lo n = window data' sz lo n
  := by
  induction n generalizing lo with
  | zero => rfl
  | succ n ih =>
      rw [window_succ, window_succ, h lo (by omega) (by omega)]
      congr 1
      apply ih
      intro k hk hk'
      apply h k (by omega) (by omega)

/-- A window may be read from any position with the same slot. -/
theorem window_slot {sz : ℕ} (hsz : 0 < sz) (data : ℕ → α) (lo : ℤ) (n : ℕ) :
  window data sz (slot sz lo) n = window data sz lo n
  := by
  have hslot : ∀ k : ℤ, slot sz (slot sz lo + k) = slot sz (lo + k) := by
    intro k
    rw [← slot_sub_slot hsz _ lo]
    congr 1
    omega
  suffices h : ∀ m : ℤ, window data sz (slot sz lo + m) n = window data sz (lo + m) n by
    simpa using h 0
  induction n with
  | zero => simp
  | succ n ih =>
      intro m
      rw [window_succ, window_succ, hslot, add_assoc, add_assoc, ih]

/-- The slots of a window of at most a turn are distinct. -/
theorem nodup_window_id {sz : ℕ} {lo : ℤ} {n : ℕ} (hn : n ≤ sz) :
  (window id sz lo n).Nodup
  := by
  induction n generalizing lo with
  | zero => apply List.nodup_nil
  | succ n ih =>
      rw [window_succ, List.nodup_cons]
      constructor
      · rw [mem_window]
        rintro ⟨k, hk, hk', h⟩
        have := slot_injective (by omega) (by omega) h
        omega
      · apply ih
        omega

/-- Rearranging the slots of a window permutes its values. -/
theorem perm_window {data data' : ℕ → α} {sz : ℕ} {lo : ℤ} {n : ℕ} (hn : n ≤ sz)
    (h : Rearranged (slots sz lo (lo + n - 1)) data data') :
  (window data' sz lo n).Perm (window data sz lo n)
  := by
  rw [window_eq_map data', window_eq_map data]
  apply h.perm_map (nodup_window_id hn)
  intro x
  rw [mem_window]
  constructor
  · rintro ⟨k, hk, hk', rfl⟩
    exact ⟨k, hk, by omega, rfl⟩
  · rintro ⟨k, hk, hk', rfl⟩
    exact ⟨k, hk, by omega, rfl⟩

/-- A window whose values grow along the positions is a sorted list. -/
theorem pairwise_window {r : α → α → Prop} {data : ℕ → α} {sz : ℕ} {lo : ℤ} {n : ℕ}
    (h : ∀ k l, lo ≤ k → k < l → l < lo + n → r (data (slot sz k)) (data (slot sz l))) :
  (window data sz lo n).Pairwise r
  := by
  induction n generalizing lo with
  | zero => apply List.Pairwise.nil
  | succ n ih =>
      rw [window_succ, List.pairwise_cons]
      constructor
      · intro a ha
        obtain ⟨k, hk, hk', rfl⟩ := mem_window.mp ha
        apply h <;> omega
      · apply ih
        intro k l hk hkl hl
        apply h <;> omega

end Ring
