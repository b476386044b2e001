import Gubernatrix.VirtMem.Paging

/-!
# Levels of the page tables

The arithmetic of `levels`, `masks` and `shamts`. An address is its offset in a page and one
digit for each level, to the base 512; `pathTo virt k` are the digits of the first `k` levels.
-/

namespace VirtMem

/-- The bytes that an entry at a level stands for. -/
def span (lv : ℕ) : ℕ := (levels lv).toNat

theorem span_zero : span 0 = 549755813888 := rfl

theorem span_one : span 1 = 1073741824 := rfl

theorem span_two : span 2 = 2097152 := rfl

theorem span_three : span 3 = 4096 := rfl

/-- The entries of a table make up an entry of the level above. -/
theorem span_eq {lv : ℕ} (hlv : lv < 3) :
  span lv = 512 * span (lv + 1)
  := by
  match lv, hlv with
  | 0, _ => rfl
  | 1, _ => rfl
  | 2, _ => rfl

theorem span_pos (lv : ℕ) :
  0 < span lv
  := by
  match lv with
  | 0 => decide
  | 1 => decide
  | 2 => decide
  | _ + 3 => exact (by decide : 0 < (kib 4).toNat)

theorem page_dvd_span (lv : ℕ) :
  4096 ∣ span lv
  := by
  match lv with
  | 0 => decide
  | 1 => decide
  | 2 => decide
  | _ + 3 => exact (by decide : 4096 ∣ (kib 4).toNat)

theorem span_dvd_span {k lv : ℕ} (h : k ≤ lv) (hlv : lv ≤ 3) :
  span lv ∣ span k
  := by
  induction lv, h using Nat.le_induction with
  | base => exact dvd_refl _
  | succ lv _ ih =>
      have hstep : span (lv + 1) ∣ span lv := by
        rw [span_eq (show lv < 3 by omega)]
        exact dvd_mul_left _ _
      exact hstep.trans (ih (by omega))

theorem mod_levels (size : U64) (lv : ℕ) :
  size % levels lv = 0 ↔ span lv ∣ size.toNat
  := by
  rw [← BitVec.toNat_inj, BitVec.toNat_umod]
  exact (Nat.dvd_iff_mod_eq_zero).symm

/-- The offset of an address in its page. -/
theorem add_mod_levels {virt : U64} {lv x : ℕ} (hlv : lv ≤ 3) (hvirt : span lv ∣ virt.toNat)
    (hx : x < span lv) :
  (virt + BitVec.ofNat 64 x) % levels lv = BitVec.ofNat 64 x
  := by
  apply BitVec.eq_of_toNat_eq
  rw [BitVec.toNat_umod, BitVec.toNat_add, BitVec.toNat_ofNat]
  change _ % span lv = _
  match lv, hlv with
  | 0, _ => rw [span_zero] at *; omega
  | 1, _ => rw [span_one] at *; omega
  | 2, _ => rw [span_two] at *; omega
  | 3, _ => rw [span_three] at *; omega

theorem toNat_levels (lv : ℕ) :
  (levels lv).toNat = span lv
  := rfl

theorem index_eq (virt : U64) {lv : ℕ} (hlv : lv ≤ 3) :
  index virt lv = virt.toNat / span lv % 512
  := by
  have hfield : ∀ b, index virt lv = (virt.toNat &&& ((2 ^ 9 - 1) * 2 ^ b)) >>> b →
      index virt lv = virt.toNat / 2 ^ b % 512 := by
    intro b hb
    rw [hb, Bits.and_field, Nat.shiftRight_eq_div_pow, Nat.mul_div_cancel _ (by positivity)]
    rfl
  match lv, hlv with
  | 0, _ => exact hfield 39 (by simp [index, masks, shamts])
  | 1, _ => exact hfield 30 (by simp [index, masks, shamts])
  | 2, _ => exact hfield 21 (by simp [index, masks, shamts])
  | 3, _ => exact hfield 12 (by simp [index, masks, shamts])

theorem index_lt (virt : U64) {lv : ℕ} (hlv : lv ≤ 3) :
  index virt lv < 512
  := by
  rw [index_eq virt hlv]
  exact Nat.mod_lt _ (by decide)

/-- The value of `i_sz` in `vmem_map_st`: the bytes from the entry for `virt` to the end of its
table at level `lv`. -/
def iSz (virt : U64) (lv : ℕ) : U64 := BitVec.ofNat 64 (512 - index virt lv) <<< shamts lv

theorem toNat_iSz (virt : U64) {lv : ℕ} (hlv : 0 < lv) (hlv' : lv ≤ 3) :
  (iSz virt lv).toNat = (512 - index virt lv) * span lv
  := by
  rw [iSz, BitVec.toNat_shiftLeft, BitVec.toNat_ofNat, Nat.shiftLeft_eq]
  match lv, hlv, hlv' with
  | 1, _, _ =>
      rw [span_one]
      simp only [shamts]
      omega
  | 2, _, _ =>
      rw [span_two]
      simp only [shamts]
      omega
  | 3, _, _ =>
      rw [span_three]
      simp only [shamts]
      omega

theorem page_dvd_iSz (virt : U64) {lv : ℕ} (hlv : lv < 3) :
  4096 ∣ (iSz virt (lv + 1)).toNat
  := by
  rw [toNat_iSz virt (by omega) (by omega)]
  exact (page_dvd_span _).mul_left _

/-! ### Paths of addresses -/

/-- The indices of an address in the tables of the first `k` levels. -/
def pathTo (virt : U64) (k : ℕ) : List ℕ := (List.range k).map (index virt)

@[simp]
theorem length_pathTo (virt : U64) (k : ℕ) :
  (pathTo virt k).length = k
  := by
  simp [pathTo]

@[simp]
theorem pathTo_zero (virt : U64) :
  pathTo virt 0 = []
  := rfl

theorem pathTo_succ (virt : U64) (k : ℕ) :
  pathTo virt (k + 1) = pathTo virt k ++ [index virt k]
  := by
  simp [pathTo, List.range_succ]

theorem pathTo_initial (virt : U64) {k k' : ℕ} (h : k ≤ k') :
  pathTo virt k <+: pathTo virt k'
  := by
  induction k', h using Nat.le_induction with
  | base => exact List.prefix_refl _
  | succ k' _ ih =>
      rw [pathTo_succ]
      exact ih.trans (List.prefix_append _ _)

theorem take_pathTo (virt : U64) {k k' : ℕ} (h : k ≤ k') :
  (pathTo virt k').take k = pathTo virt k
  := by
  have hpre := List.prefix_iff_eq_take.mp (pathTo_initial virt h)
  rw [length_pathTo] at hpre
  exact hpre.symm

theorem pathTo_succ_inj {x y : U64} {k : ℕ} :
  pathTo x (k + 1) = pathTo y (k + 1) ↔ pathTo x k = pathTo y k ∧ index x k = index y k
  := by
  rw [pathTo_succ, pathTo_succ]
  constructor
  · intro h
    obtain ⟨hinit, hlast⟩ := List.append_inj' h rfl
    exact ⟨hinit, List.singleton_inj.mp hlast⟩
  · rintro ⟨hinit, hlast⟩
    rw [hinit, hlast]

/-- The part of the address that the tables look at. -/
def low (virt : U64) : ℕ := virt.toNat % 2 ^ 48

theorem index_eq_low (virt : U64) {lv : ℕ} (hlv : lv ≤ 3) :
  index virt lv = low virt / span lv % 512
  := by
  rw [index_eq virt hlv, low]
  match lv, hlv with
  | 0, _ => rw [span_zero]; omega
  | 1, _ => rw [span_one]; omega
  | 2, _ => rw [span_two]; omega
  | 3, _ => rw [span_three]; omega

/-- The first digits of an address are its number without the others. -/
theorem pathTo_eq_iff (x y : U64) {k : ℕ} (hk : k ≤ 3) :
  pathTo x (k + 1) = pathTo y (k + 1) ↔ low x / span k = low y / span k
  := by
  induction k with
  | zero =>
      have hx : low x < 2 ^ 48 := Nat.mod_lt _ (by decide)
      have hy : low y < 2 ^ 48 := Nat.mod_lt _ (by decide)
      rw [pathTo_succ, pathTo_succ, pathTo_zero, pathTo_zero, index_eq_low x (by decide),
        index_eq_low y (by decide), span_zero]
      simp only [List.nil_append, List.cons.injEq, and_true]
      omega
  | succ k ih =>
      have hdiv : ∀ z : U64, low z / span k = low z / span (k + 1) / 512 := by
        intro z
        rw [Nat.div_div_eq_div_mul, span_eq (by omega), Nat.mul_comm]
      rw [pathTo_succ_inj, ih (by omega), index_eq_low x hk, index_eq_low y hk, hdiv x, hdiv y]
      omega

/-- A path to an entry is on the way to all addresses that the entry stands for. -/
theorem pathTo_prefix_iff (x y : U64) {k : ℕ} (hk : k ≤ 3) :
  pathTo x (k + 1) <+: pathTo y 4 ↔ low x / span k = low y / span k
  := by
  rw [← pathTo_eq_iff x y hk]
  constructor
  · intro h
    have htake := List.prefix_iff_eq_take.mp h
    rwa [length_pathTo, take_pathTo y (by omega)] at htake
  · intro h
    rw [h]
    exact pathTo_initial y (by omega)

/-- An address moved to a given entry of its table. -/
theorem exists_index (x : U64) {k i : ℕ} (hk : k < 3) (hi : i < 512) :
  ∃ a : U64, a.toNat / span k = x.toNat / span k ∧ index a (k + 1) = i
  := by
  have hx := x.isLt
  refine ⟨BitVec.ofNat 64 (x.toNat / span k * span k + i * span (k + 1)), ?_⟩
  rw [index_eq _ (by omega), BitVec.toNat_ofNat]
  match k, hk with
  | 0, _ => rw [span_zero, span_one]; omega
  | 1, _ => rw [span_one, span_two]; omega
  | 2, _ => rw [span_two, span_three]; omega

theorem pathTo_eq_of_div {x y : U64} {k : ℕ} (hk : k ≤ 3)
    (h : x.toNat / span k = y.toNat / span k) :
  pathTo x (k + 1) = pathTo y (k + 1)
  := by
  rw [pathTo_eq_iff x y hk, low, low]
  match k, hk with
  | 0, _ => rw [span_zero] at h ⊢; omega
  | 1, _ => rw [span_one] at h ⊢; omega
  | 2, _ => rw [span_two] at h ⊢; omega
  | 3, _ => rw [span_three] at h ⊢; omega

theorem div_span_of_le {x y : U64} {j k : ℕ} (hk : k ≤ j) (hj : j ≤ 3)
    (h : x.toNat / span j = y.toNat / span j) :
  x.toNat / span k = y.toNat / span k
  := by
  obtain ⟨c, hc⟩ := span_dvd_span hk hj
  rw [hc, ← Nat.div_div_eq_div_mul, ← Nat.div_div_eq_div_mul, h]

/-- Every path below that of an address leads to some address. -/
theorem exists_address (x : U64) {k : ℕ} {q : List ℕ} (hpre : pathTo x (k + 1) <+: q)
    (hlen : q.length ≤ 4) (hdigits : ∀ i ∈ q, i < 512) :
  ∃ a : U64, a.toNat / span k = x.toNat / span k ∧ pathTo a q.length = q
  := by
  induction q using List.reverseRecOn with
  | nil =>
      have := hpre.length_le
      simp at this
  | append_singleton q i ih =>
      rcases List.prefix_concat_iff.mp hpre with heq | hpre
      · refine ⟨x, rfl, ?_⟩
        rw [← heq, length_pathTo]
      · have hk := hpre.length_le
        rw [length_pathTo] at hk
        rw [List.length_append, List.length_singleton] at hlen ⊢
        obtain ⟨a, hdiv, hpath⟩ := ih hpre (by omega) fun j hj =>
          hdigits j (List.mem_append_left _ hj)
        obtain ⟨j, hj⟩ : ∃ j, q.length = j + 1 := ⟨q.length - 1, by omega⟩
        obtain ⟨a', hdiv', hidx⟩ := exists_index a (k := j) (i := i) (by omega)
          (hdigits i (by simp))
        refine ⟨a', ?_, ?_⟩
        · rw [div_span_of_le (by omega) (by omega) hdiv', hdiv]
        · rw [hj] at hpath ⊢
          rw [pathTo_succ, hidx, pathTo_eq_of_div (by omega) hdiv', hpath]

end VirtMem
