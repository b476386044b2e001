import Gubernatrix.VirtMem.Contract

/-!
# Beyond a table

Where a request goes on beyond a table, and where it leaves the lower half. The size that is left
after an entry is what was left before it, less the distance to the next boundary counted from the
address itself; where the first page begins before the address, that is too little, and where the
request ends sooner than that, the subtraction wraps around.
-/

namespace VirtMem

open Program Radix PhysMem

/-! ### Going on beyond a table -/

section GoingOn

variable {hugepage : Bool} {virt phys size : U64} {l : List ℕ}

/-- How far an address is past a boundary of level `lv`, in whole pages of level `k`. -/
def past (virt : U64) (lv k : ℕ) : ℕ := virt.toNat % span lv - virt.toNat % span k

/-- The request goes on beyond the last of `left` entries of level `lv`. Where an entry is left
early, since the tables below it are not begun at their first entry, the size left wraps
around. -/
def Crosses (virt : U64) (m lv k left : ℕ) : Prop :=
  left * span lv < past virt lv k + m
    ∨ span lv < past virt lv k + m ∧ 0 < (past virt lv k + m) % span lv
      ∧ (past virt lv k + m) % span lv < past virt (lv + 1) k

/-- The level of the pages depends on the size modulo the largest of them. -/
theorem levelFrom_congr {n m m' : ℕ} (hn : n ≤ 3) (h : m' % span (3 - n) = m % span (3 - n)) :
  levelFrom hugepage n m' = levelFrom hugepage n m
  := by
  induction n with
  | zero => rfl
  | succ n ih =>
      have hlv : 3 - (n + 1) = 2 - n := by omega
      rw [hlv] at h
      have hiff : span (2 - n) ∣ m' ↔ span (2 - n) ∣ m := by
        rw [Nat.dvd_iff_mod_eq_zero, Nat.dvd_iff_mod_eq_zero, h]
      have hfine : m' % span (3 - n) = m % span (3 - n) := by
        have hdvd : span (3 - n) ∣ span (2 - n) := span_dvd_span (by omega) (by omega)
        rw [← Nat.mod_mod_of_dvd m' hdvd, h, Nat.mod_mod_of_dvd m hdvd]
      simp only [levelFrom, hiff, ih (by omega) hfine]

theorem goesOn_leafPlan {lv : ℕ} {left : ℕ} (hdvd : span lv ∣ size.toNat) :
  (leafPlan lv l left virt phys size).2 = true ↔ left * span lv < size.toNat
  := by
  have hlevels := toNat_levels lv
  induction left generalizing virt phys size with
  | zero =>
      by_cases hpos : size > 0
      · rw [leafPlan_full hpos]
        simp only [Nat.zero_mul, true_iff]
        exact hpos
      · rw [eq_zero_of_not_pos hpos, leafPlan_of_zero]
        simp
  | succ left ih =>
      by_cases hpos : size > 0
      · have hle : span lv ≤ size.toNat := Nat.le_of_dvd hpos hdvd
        have hsub : (size - levels lv).toNat = size.toNat - span lv := by
          rw [BitVec.toNat_sub_of_le, hlevels]
          rw [BitVec.le_def, hlevels]
          exact hle
        rw [leafPlan_succ hpos]
        have hrest := @ih (virt + levels lv) (phys + levels lv) (size - levels lv)
          (by rw [hsub]; exact Nat.dvd_sub hdvd (dvd_refl _))
        apply hrest.trans
        rw [hsub, Nat.succ_mul]
        omega
      · rw [eq_zero_of_not_pos hpos, leafPlan_of_zero]
        simp

/-- The size that is left after an entry, and the address there. -/
structure After (virt size : U64) (lv k : ℕ) (virt' size' : U64) : Prop where
  size_eq : size'.toNat + (iSz virt (lv + 1)).toNat = size.toNat
    ∨ size.toNat < (iSz virt (lv + 1)).toNat
      ∧ size'.toNat + (iSz virt (lv + 1)).toNat = size.toNat + 2 ^ 64
  step : past virt lv k + (iSz virt (lv + 1)).toNat = span lv + past virt (lv + 1) k
  here : past virt' lv k = past virt (lv + 1) k
  next : past virt' (lv + 1) k = past virt (lv + 1) k

theorem after_step {lv k : ℕ} (hlv : lv < 3) (hk : lv < k) (hk3 : k ≤ 3) :
  After virt size lv k (virt + iSz virt (lv + 1)) (size - iSz virt (lv + 1))
  := by
  have hi := toNat_iSz virt (show 0 < lv + 1 by omega) (by omega)
  have hsum := mod_add_iSz virt hlv
  have hmod := Nat.mod_lt virt.toNat (span_pos (lv + 1))
  have heq := span_eq hlv
  have hbelow : virt.toNat % span (lv + 1) < span lv := by omega
  have hle : virt.toNat % span k ≤ virt.toNat % span (lv + 1) := by
    have hdvd : span k ∣ span (lv + 1) := span_dvd_span (by omega) hk3
    rw [← Nat.mod_mod_of_dvd virt.toNat hdvd]
    apply Nat.mod_le
  have hle' : virt.toNat % span k ≤ virt.toNat % span lv := by
    have hdvd : span k ∣ span lv := span_dvd_span (by omega) hk3
    rw [← Nat.mod_mod_of_dvd virt.toNat hdvd]
    apply Nat.mod_le
  have hsame {j : ℕ} (hj : lv + 1 ≤ j) (hj3 : j ≤ 3) :
      (virt + iSz virt (lv + 1)).toNat % span j = virt.toNat % span j := by
    have hdvd : span j ∣ (iSz virt (lv + 1)).toNat := by
      rw [hi]
      apply (span_dvd_span hj hj3).mul_left
    rw [toNat_add_mod _ _ hj3, Nat.add_mod, Nat.mod_eq_zero_of_dvd hdvd, Nat.add_zero,
      Nat.mod_mod, Nat.mod_mod]
  constructor
  · have hlt := (iSz virt (lv + 1)).isLt
    have hlt' := size.isLt
    rw [BitVec.toNat_sub]
    omega
  · rw [past, past]
    omega
  · rw [past, past, hsame (by omega) hk3, toNat_add_mod _ _ (by omega), hsum,
      Nat.add_mod_left, Nat.mod_eq_of_lt hbelow]
  · rw [past, past, hsame (by omega) hk3, hsame (le_refl _) (by omega)]

/-- A difference modulo a span that divides what is taken. -/
theorem mod_sub_of_dvd {x y : U64} {lv : ℕ} (hlv : lv ≤ 3) (h : span lv ∣ y.toNat) :
  (x - y).toNat % span lv = x.toNat % span lv
  := by
  have hx := x.isLt
  have hy := y.isLt
  rw [BitVec.toNat_sub]
  match lv, hlv with
  | 0, _ => rw [span_zero] at *; omega
  | 1, _ => rw [span_one] at *; omega
  | 2, _ => rw [span_two] at *; omega
  | 3, _ => rw [span_three] at *; omega

theorem past_lt (virt : U64) (lv k : ℕ) :
  past virt lv k < span lv
  := by
  have hmod := Nat.mod_lt virt.toNat (span_pos lv)
  rw [past]
  omega

/-- An entry after an entry that was left. -/
theorem After.crosses_iff {virt' size' : U64} {lv k left : ℕ} (h : After virt size lv k virt' size')
    (hlv : lv < 3) (hleft : left + 2 ≤ 512) (hgo : span lv < past virt lv k + size.toNat) :
  Crosses virt' size'.toNat lv k (left + 1) ↔ Crosses virt size.toNat lv k (left + 2)
  := by
  have hpast := past_lt virt lv k
  have hnext := past_lt virt (lv + 1) k
  have heq := span_eq hlv
  obtain ⟨hsize, hstep, hhere, hnext'⟩ := h
  rw [Crosses, Crosses, hhere, hnext']
  generalize past virt lv k = p at *
  generalize past virt (lv + 1) k = z at *
  generalize (iSz virt (lv + 1)).toNat = i at *
  have hlt := size.isLt
  generalize size.toNat = m at *
  generalize size'.toNat = m' at *
  match lv, hlv with
  | 0, _ => rw [span_zero, span_one] at *; omega
  | 1, _ => rw [span_one, span_two] at *; omega
  | 2, _ => rw [span_two, span_three] at *; omega

/-- The second loop of `vmem_map_st` goes on when each entry goes on to the next. -/
theorem goesOn_tablePlan {n k : ℕ} (hn : n ≤ 2) (hk : 2 - n < k) (hk3 : k ≤ 3)
    {sub : List ℕ → (virt phys size : U64) → List Page × Bool}
    (hsub : ∀ {l : List ℕ} {virt phys size : U64}, size > 0 → 4096 ∣ size.toNat →
      levelFrom hugepage n size.toNat = k →
      ((sub l virt phys size).2 = true ↔ span (2 - n) < past virt (2 - n) k + size.toNat))
    (hsize : 4096 ∣ size.toNat) (hlevel : levelFrom hugepage n size.toNat = k) {left : ℕ}
    (hleft : left < 512) :
  (tablePlan sub (2 - n) l (left + 1) virt phys size).2 = true
    ↔ Crosses virt size.toNat (2 - n) k (left + 1)
  := by
  have hlv : 2 - n < 3 := by omega
  have hpast := past_lt virt (2 - n) k
  induction left generalizing virt phys size with
  | zero =>
      by_cases hpos : size > 0
      · have hiff := @hsub (l ++ [511 - 0]) virt phys size hpos hsize hlevel
        have hcrosses : Crosses virt size.toNat (2 - n) k (0 + 1)
            ↔ span (2 - n) < past virt (2 - n) k + size.toNat := by
          rw [Crosses]
          omega
        rw [hcrosses, ← hiff]
        cases hgo : (sub (l ++ [511 - 0]) virt phys size).2 with
        | false => rw [tablePlan_stop hpos hgo, hgo]
        | true =>
            rw [tablePlan_go hpos hgo]
            rfl
      · rw [eq_zero_of_not_pos hpos, tablePlan_of_zero, Crosses]
        simp
        omega
  | succ left ih =>
      by_cases hpos : size > 0
      · have hiff := @hsub (l ++ [511 - (left + 1)]) virt phys size hpos hsize hlevel
        cases hgo : (sub (l ++ [511 - (left + 1)]) virt phys size).2 with
        | false =>
            rw [hgo] at hiff
            rw [tablePlan_stop hpos hgo, hgo, Crosses]
            have hstay : ¬ span (2 - n) < past virt (2 - n) k + size.toNat := by
              intro hlt
              apply absurd (hiff.mpr hlt) Bool.false_ne_true
            have hmul : span (2 - n) ≤ (left + 1 + 1) * span (2 - n) := by
              apply Nat.le_mul_of_pos_left
              omega
            constructor
            · intro h
              cases h
            · omega
        | true =>
            have hafter : After virt size (2 - n) k (virt + iSz virt (2 - n + 1))
                (size - iSz virt (2 - n + 1)) := after_step hlv hk hk3
            rw [tablePlan_go hpos hgo, ← hafter.crosses_iff hlv (by omega) (hiff.mp hgo)]
            apply ih (page_dvd_sub hsize (page_dvd_iSz virt hlv)) _ (by omega) (past_lt _ _ _)
            rw [← hlevel]
            apply levelFrom_congr (by omega)
            have hdvd : span (3 - n) ∣ (iSz virt (2 - n + 1)).toNat := by
              rw [toNat_iSz virt (by omega) (by omega), show 2 - n + 1 = 3 - n by omega]
              apply dvd_mul_left
            apply mod_sub_of_dvd (by omega) hdvd
      · rw [eq_zero_of_not_pos hpos, tablePlan_of_zero, Crosses]
        have hmul : span (2 - n) ≤ (left + 1 + 1) * span (2 - n) := by
          apply Nat.le_mul_of_pos_left
          omega
        simp
        omega

theorem past_self (virt : U64) (k : ℕ) :
  past virt k k = 0
  := Nat.sub_self _

/-- An address in a table. -/
theorem past_eq (virt : U64) {lv k : ℕ} (hlv : lv < 3) (hk : lv < k) (hk3 : k ≤ 3) :
  past virt lv k = index virt (lv + 1) * span (lv + 1) + past virt (lv + 1) k
  := by
  have hle : virt.toNat % span k ≤ virt.toNat % span (lv + 1) := by
    have hdvd : span k ∣ span (lv + 1) := span_dvd_span (by omega) hk3
    rw [← Nat.mod_mod_of_dvd virt.toNat hdvd]
    apply Nat.mod_le
  rw [past, past, index_eq virt (by omega)]
  generalize virt.toNat % span k = y at *
  match lv, hlv with
  | 0, _ => rw [span_zero, span_one] at *; omega
  | 1, _ => rw [span_one, span_two] at *; omega
  | 2, _ => rw [span_two, span_three] at *; omega

/-- What is left of a table. -/
theorem room_lt_iff (virt : U64) {lv k m : ℕ} (hlv : lv < 3) (hk : lv < k) (hk3 : k ≤ 3) :
  (512 - index virt (lv + 1)) * span (lv + 1) < past virt (lv + 1) k + m
    ↔ span lv < past virt lv k + m
  := by
  have hidx := index_lt virt (show lv + 1 ≤ 3 by omega)
  have hmul : (512 - index virt (lv + 1)) * span (lv + 1) + index virt (lv + 1) * span (lv + 1)
      = span lv := by
    rw [← Nat.add_mul, Nat.sub_add_cancel hidx.le, ← span_eq hlv]
  rw [past_eq virt hlv hk hk3]
  omega

theorem levelFrom_le (hugepage : Bool) (n m : ℕ) :
  levelFrom hugepage n m ≤ 3
  := by
  induction n with
  | zero => apply le_refl
  | succ n ih =>
      rw [levelFrom]
      split
      · omega
      · apply ih

theorem lt_levelFrom (hugepage : Bool) {n : ℕ} (hn : n ≤ 2) (m : ℕ) :
  2 - n < levelFrom hugepage n m
  := by
  induction n with
  | zero =>
      rw [levelFrom]
      omega
  | succ n ih =>
      rw [levelFrom]
      split
      · omega
      · have := ih (by omega)
        omega

/-- Large pages fill a table. -/
theorem goesOn_large {n : ℕ} (hn : n ≤ 2)
    (hleaf : size % levels (3 - n) = 0 ∧ largepageAvail hugepage (3 - n) = true) {k : ℕ}
    (hk : k = 3 - n) :
  (mapPlan hugepage (n + 1) l virt phys size).2 = true
    ↔ span (2 - n) < past virt (2 - n) k + size.toNat
  := by
  have hlv : 3 - n = 2 - n + 1 := by omega
  subst hk
  rw [mapPlan, if_pos hleaf, goesOn_leafPlan ((mod_levels _ _).mp hleaf.1)]
  have hiff := @room_lt_iff virt (2 - n) (3 - n) size.toNat (by omega) (by omega) (by omega)
  rw [← hlv, past_self, Nat.zero_add] at hiff
  apply hiff

theorem goesOn_last (hsize : 4096 ∣ size.toNat) :
  (mapPlan hugepage 1 l virt phys size).2 = true ↔ span 2 < past virt 2 3 + size.toNat
  := goesOn_large (n := 0) (by decide) ⟨(mod_levels _ _).mpr hsize, rfl⟩ rfl

/-- The request goes on beyond a table of the last level but one when it is longer than what is
left of the table. -/
theorem goesOn_second {k : ℕ} (hsize : 4096 ∣ size.toNat)
    (hk : levelFrom hugepage 1 size.toNat = k) :
  (mapPlan hugepage 2 l virt phys size).2 = true ↔ span 1 < past virt 1 k + size.toNat
  := by
  rw [levelFrom] at hk
  by_cases hleaf : size % levels 2 = 0 ∧ largepageAvail hugepage 2 = true
  · apply goesOn_large (n := 1) (by decide) hleaf
    rw [← hk, if_pos ⟨hleaf.2, (mod_levels _ _).mp hleaf.1⟩]
  · rw [if_neg fun h => hleaf ⟨(mod_levels _ _).mpr h.2, h.1⟩] at hk
    obtain rfl : 3 = k := hk
    have hidx := index_lt virt (show 2 ≤ 3 by decide)
    have hleft : 512 - index virt 2 = 511 - index virt 2 + 1 := by omega
    have htable : (tablePlan (mapPlan hugepage 1) 2 l (511 - index virt 2 + 1) virt phys size).2
        = true ↔ Crosses virt size.toNat 2 3 (511 - index virt 2 + 1) := by
      apply @goesOn_tablePlan hugepage _ _ _ _ 0 _ (by decide) (by decide) (le_refl 3) _ _ hsize rfl
        _ (by omega)
      intro l virt phys size _ hsize _
      apply goesOn_last hsize
    have hroom := room_lt_iff virt (m := size.toNat) (show 1 < 3 by decide) (show 1 < 3 by decide)
      (le_refl 3)
    rw [← hleft, Crosses, past_self, hroom] at htable
    rw [mapPlan, if_neg hleaf]
    apply htable.trans
    omega

/-- The request goes on beyond a table of the second level when it is longer than what is left of
the table, or when an entry is left early. -/
theorem goesOn_first {k : ℕ} (hsize : 4096 ∣ size.toNat)
    (hk : levelFrom hugepage 2 size.toNat = k) :
  (mapPlan hugepage 3 l virt phys size).2 = true
    ↔ span 0 < past virt 0 k + size.toNat
      ∨ span 1 < past virt 1 k + size.toNat ∧ 0 < (past virt 1 k + size.toNat) % span 1
        ∧ (past virt 1 k + size.toNat) % span 1 < past virt 2 k
  := by
  rw [levelFrom] at hk
  by_cases hleaf : size % levels 1 = 0 ∧ largepageAvail hugepage 1 = true
  · rw [if_pos ⟨hleaf.2, (mod_levels _ _).mp hleaf.1⟩] at hk
    obtain rfl : 1 = k := hk
    have hzero : past virt 2 1 = 0 := by
      apply Nat.sub_eq_zero_of_le
      have hdvd : span 2 ∣ span 1 := span_dvd_span (by decide) (by decide)
      rw [← Nat.mod_mod_of_dvd virt.toNat hdvd]
      apply Nat.mod_le
    rw [goesOn_large (n := 2) (k := 1) (by decide) hleaf rfl, hzero]
    simp
  · rw [if_neg fun h => hleaf ⟨(mod_levels _ _).mpr h.2, h.1⟩] at hk
    have hlt := lt_levelFrom hugepage (show 1 ≤ 2 by decide) size.toNat
    have hle := levelFrom_le hugepage 1 size.toNat
    change levelFrom hugepage 1 size.toNat = k at hk
    rw [hk] at hlt hle
    have hidx := index_lt virt (show 1 ≤ 3 by decide)
    have hleft : 512 - index virt 1 = 511 - index virt 1 + 1 := by omega
    have htable : (tablePlan (mapPlan hugepage 2) 1 l (511 - index virt 1 + 1) virt phys size).2
        = true ↔ Crosses virt size.toNat 1 k (511 - index virt 1 + 1) := by
      apply goesOn_tablePlan (n := 1) (by decide) hlt hle _ hsize hk (by omega)
      intro l virt phys size _ hsize hk
      apply goesOn_second hsize hk
    have hroom := room_lt_iff virt (m := size.toNat) (show 0 < 3 by decide) (show 0 < k by omega)
      hle
    rw [← hleft, Crosses, hroom] at htable
    rw [mapPlan, if_neg hleaf]
    apply htable

end GoingOn

/-! ### Past the lower half -/

section Lower

variable {hugepage : Bool} {virt phys size : U64} {l : List ℕ}

/-- The request comes to an entry past the lower half, `j` entries on. -/
def Leaves (virt : U64) (m k : ℕ) : (j : ℕ) → Prop
  | 0 => 0 < m
  | j + 1 =>
      (j + 1) * span 0 < past virt 0 k + m ∧ past virt 0 k + m ≠ (j + 1) * span 0 + past virt 1 k
        ∨ span 0 < past virt 0 k + m ∧ 0 < (past virt 0 k + m) % span 0
          ∧ (past virt 0 k + m) % span 0 < past virt 1 k
        ∨ span 1 < past virt 1 k + m ∧ 0 < (past virt 1 k + m) % span 1
          ∧ (past virt 1 k + m) % span 1 < past virt 2 k

theorem past_le (virt : U64) {lv lv' : ℕ} (h : lv ≤ lv') (hlv : lv' ≤ 3) (k : ℕ) :
  past virt lv' k ≤ past virt lv k
  := by
  have hle : virt.toNat % span lv' ≤ virt.toNat % span lv := by
    rw [← Nat.mod_mod_of_dvd virt.toNat (span_dvd_span h hlv)]
    apply Nat.mod_le
  rw [past, past]
  omega

/-- The offset in an entry of the second level stays. -/
theorem past_add_iSz {k : ℕ} (hk : 0 < k) (hk3 : k ≤ 3) :
  past (virt + iSz virt 1) 2 k = past virt 2 k
  := by
  have hi := toNat_iSz virt (show 0 < 1 by decide) (by decide)
  have hsame {j : ℕ} (hj : 1 ≤ j) (hj3 : j ≤ 3) :
      (virt + iSz virt 1).toNat % span j = virt.toNat % span j := by
    have hdvd : span j ∣ (iSz virt 1).toNat := by
      rw [hi]
      apply (span_dvd_span hj hj3).mul_left
    rw [toNat_add_mod _ _ hj3, Nat.add_mod, Nat.mod_eq_zero_of_dvd hdvd, Nat.add_zero,
      Nat.mod_mod, Nat.mod_mod]
  rw [past, past, hsame (by decide) (by decide), hsame hk hk3]

/-- An entry of the lower half after an entry that was left. -/
theorem leaves_succ_iff {j k : ℕ} (hj : j < 256) (hk : 0 < k) (hk3 : k ≤ 3) :
  (span 0 < past virt 0 k + size.toNat
      ∨ span 1 < past virt 1 k + size.toNat ∧ 0 < (past virt 1 k + size.toNat) % span 1
        ∧ (past virt 1 k + size.toNat) % span 1 < past virt 2 k)
      ∧ Leaves (virt + iSz virt 1) (size - iSz virt 1).toNat k j
    ↔ Leaves virt size.toNat k (j + 1)
  := by
  have hafter : After virt size 0 k (virt + iSz virt 1) (size - iSz virt 1) :=
    after_step (by decide) hk hk3
  have hsize : (size - iSz virt 1).toNat + (iSz virt 1).toNat = size.toNat
      ∨ size.toNat < (iSz virt 1).toNat
        ∧ (size - iSz virt 1).toNat + (iSz virt 1).toNat = size.toNat + 2 ^ 64 := hafter.size_eq
  have hstep : past virt 0 k + (iSz virt 1).toNat = span 0 + past virt 1 k := hafter.step
  have hhere : past (virt + iSz virt 1) 0 k = past virt 1 k := hafter.here
  have hnext : past (virt + iSz virt 1) 1 k = past virt 1 k := hafter.next
  have hsecond := @past_add_iSz virt k hk hk3
  have hlt := size.isLt
  have hzero := past_lt virt 0 k
  have hone := past_lt virt 1 k
  have htwo := past_lt virt 2 k
  have hle := past_le virt (show 1 ≤ 2 by decide) (by decide) k
  have hle' := past_le virt (show 0 ≤ 1 by decide) (by decide) k
  obtain ⟨q, hq⟩ : ∃ q, (iSz virt 1).toNat = q * span 1 :=
    ⟨_, toNat_iSz virt (by decide) (by decide)⟩
  generalize (size - iSz virt 1).toNat = m' at *
  generalize (iSz virt 1).toNat = i at *
  generalize size.toNat = m at *
  rw [span_zero, span_one] at *
  cases j with
  | zero =>
      rw [Leaves, Leaves, span_zero, span_one]
      omega
  | succ j =>
      rw [Leaves, Leaves, hhere, hnext, hsecond, span_zero, span_one]
      have hmod : (past virt 1 k + m') % 1073741824 = (past virt 1 k + m) % 1073741824 := by
        omega
      have hmod' : (past virt 1 k + m') % 549755813888 = (past virt 0 k + m) % 549755813888 := by
        omega
      generalize past virt 0 k = p₀ at *
      generalize past virt 1 k = p₁ at *
      rcases hsize with hsize | ⟨hwrap, hsize⟩
      · -- what is left is past the boundary as far as the request is
        have hsum : p₀ + m = 549755813888 + (p₁ + m') := by omega
        have hone' : (p₁ + m) % 1073741824 < past virt 2 k → 0 < (p₁ + m) % 1073741824 →
            1073741824 < p₁ + m' := by omega
        have hzero' : (p₀ + m) % 549755813888 < p₁ → 0 < (p₀ + m) % 549755813888 →
            549755813888 < p₁ + m' := by omega
        have hless : m' ≤ m := by omega
        rw [← hmod] at hone'
        rw [← hmod'] at hzero'
        rw [← hmod, ← hmod', hsum]
        clear hq hmod hmod'
        generalize (p₁ + m') % 549755813888 = v at *
        generalize (p₁ + m') % 1073741824 = w at *
        omega
      · -- what is left has wrapped around
        have hbig : 256 * 549755813888 < p₁ + m' := by omega
        have hne : p₁ + m' ≠ (j + 1) * 549755813888 + p₁ := by omega
        have hback : 549755813888 < p₀ + m →
            0 < (p₀ + m) % 549755813888 ∧ (p₀ + m) % 549755813888 < p₁ := by omega
        have hnear : (j + 1 + 1) * 549755813888 < p₀ + m → 549755813888 < p₀ + m := by omega
        rw [← hmod'] at hback
        rw [← hmod, ← hmod']
        clear hq hsize hmod hmod'
        generalize (p₁ + m') % 549755813888 = v at *
        generalize (p₁ + m') % 1073741824 = w at *
        omega

/-- The size of the pages is that of the rest of the request. -/
theorem levelFrom_sub_iSz :
  levelFrom hugepage 2 (size - iSz virt 1).toNat = levelFrom hugepage 2 size.toNat
  := by
  apply levelFrom_congr (by decide)
  apply mod_sub_of_dvd (by decide)
  rw [toNat_iSz virt (by decide) (by decide)]
  apply dvd_mul_left

theorem outside_append {r : TablePtr} {ds ds' : List Page} :
  Outside r (ds ++ ds') ↔ Outside r ds ∨ Outside r ds'
  := by
  simp only [Outside, List.mem_append, or_and_right, exists_or]

/-- No page below an entry of the top-level table is outside it. -/
theorem not_outside_of_below {r : TablePtr} {ds : List Page} {i : ℕ} (hbelow : Below [i] ds)
    (hin : InTable r i) :
  ¬ Outside r ds
  := by
  rintro ⟨d, hd, i', hi', hout⟩
  obtain ⟨j, -, hpre⟩ := hbelow d hd
  have heq : i' = i := by
    have hi := (List.prefix_append [i] [j]).trans hpre
    have htake := (List.prefix_iff_eq_take.mp hi').trans (List.prefix_iff_eq_take.mp hi).symm
    apply List.singleton_injective htake
  rw [heq] at hout
  apply hout hin

/-- The pages of a request that leaves the lower half are outside the table of an address
space. -/
theorem outside_tablePlan (id : ℕ) (hsize : 4096 ∣ size.toNat) {k : ℕ}
    (hk : levelFrom hugepage 2 size.toNat = k) {j : ℕ} (hj : j ≤ 256) :
  Outside (.vm id) (tablePlan (mapPlan hugepage 3) 0 [] (256 + j) virt phys size).1
    ↔ Leaves virt size.toNat k j
  := by
  have hlt := lt_levelFrom hugepage (show 2 ≤ 2 by decide) size.toNat
  have hle := levelFrom_le hugepage 2 size.toNat
  rw [hk] at hlt hle
  induction j generalizing virt phys size with
  | zero =>
      rw [Leaves]
      constructor
      · rintro ⟨d, hd, -⟩
        by_contra hpos
        rw [eq_zero_of_not_pos hpos, show 256 + 0 = 255 + 1 from rfl, tablePlan_of_zero] at hd
        cases hd
      · intro hpos
        have hne : (mapPlan hugepage 3 ([] ++ [511 - 255]) virt phys size).1 ≠ [] := by
          apply mapPlan_ne_nil hugepage (show 2 ≤ 3 by decide) _ hpos hsize
        obtain ⟨d, hd⟩ := List.exists_mem_of_ne_nil _ hne
        obtain ⟨i, -, hpre⟩ := below_mapPlan hugepage 3 ([] ++ [511 - 255]) virt phys size d hd
        refine ⟨d, (tablePlan_head hpos).subset hd, 256, ?_, Nat.lt_irrefl 256⟩
        exact (List.prefix_append _ _).trans hpre
  | succ j ih =>
      rw [← leaves_succ_iff (by omega) (by omega) hle]
      have hentry : InTable (.vm id) (511 - (256 + j)) := by
        change 511 - (256 + j) < 256
        omega
      rw [← Nat.add_assoc]
      by_cases hpos : size > 0
      · have hgo := @goesOn_first hugepage virt phys size ([] ++ [511 - (256 + j)]) k hsize hk
        have hfirst : ¬ Outside (.vm id)
            (mapPlan hugepage 3 ([] ++ [511 - (256 + j)]) virt phys size).1 :=
          not_outside_of_below (below_mapPlan hugepage 3 _ virt phys size) hentry
        rw [← hgo]
        cases hsub : (mapPlan hugepage 3 ([] ++ [511 - (256 + j)]) virt phys size).2 with
        | false =>
            rw [tablePlan_stop hpos hsub]
            constructor
            · intro h
              apply absurd h hfirst
            · rintro ⟨h, -⟩
              cases h
        | true =>
            have hrest := @ih (virt + iSz virt 1) (phys + iSz virt 1) (size - iSz virt 1)
              (page_dvd_sub hsize (page_dvd_iSz virt (show 0 < 3 by decide)))
              (levelFrom_sub_iSz.trans hk) (by omega)
            rw [tablePlan_go hpos hsub, outside_append]
            simp only [hfirst, false_or, true_and]
            apply hrest
      · have hone := past_lt virt 1 k
        have hzero := past_lt virt 0 k
        have hsize : size.toNat = 0 := by
          rw [eq_zero_of_not_pos hpos]
          rfl
        rw [hsize, eq_zero_of_not_pos hpos]
        constructor
        · rintro ⟨d, hd, -⟩
          rw [tablePlan_of_zero] at hd
          cases hd
        · omega

/-- Where the first page of a request begins. -/
def firstByte (hugepage : Bool) (v m : ℕ) : ℕ := v - v % span (pageLevel hugepage m)

/-- Where a request ends, from its first page on. -/
def endByte (hugepage : Bool) (v m : ℕ) : ℕ := firstByte hugepage v m + m

/-- The request stays in the lower half: it ends there, or just where nothing is left of it when
`vmem_map_st` has come to the end of the half; and where it crosses a boundary of 1 GiB or of
512 GiB, it does not end sooner after it than `vmem_map_st` goes on. -/
structure StaysLow (hugepage : Bool) (v m : ℕ) : Prop where
  top : endByte hugepage v m ≤ 2 ^ 47
    ∨ endByte hugepage v m = 2 ^ 47 + firstByte hugepage v m % span 1
  cross_one : firstByte hugepage v m / span 1 < endByte hugepage v m / span 1 →
    endByte hugepage v m % span 1 = 0
      ∨ firstByte hugepage v m % span 2 ≤ endByte hugepage v m % span 1
  cross_zero : firstByte hugepage v m / span 0 < endByte hugepage v m / span 0 →
    endByte hugepage v m % span 0 = 0
      ∨ firstByte hugepage v m % span 1 ≤ endByte hugepage v m % span 0

theorem levelFrom_two (hugepage : Bool) (m : ℕ) :
  levelFrom hugepage 2 m = pageLevel hugepage m
  := by
  simp [levelFrom, pageLevel, largepageAvail]

theorem pageLevel_le (hugepage : Bool) (m : ℕ) :
  pageLevel hugepage m ≤ 3
  := by
  rw [← levelFrom_two]
  apply levelFrom_le

theorem mod_firstByte (hugepage : Bool) (virt : U64) (m : ℕ) {lv : ℕ} (hlv : lv ≤ 3) :
  firstByte hugepage virt.toNat m % span lv = past virt lv (pageLevel hugepage m)
  := by
  have hle := pageLevel_le hugepage m
  rw [firstByte, past]
  generalize pageLevel hugepage m = k at *
  have hsub : virt.toNat - virt.toNat % span k = span k * (virt.toNat / span k) := by
    have := Nat.div_add_mod virt.toNat (span k)
    omega
  rcases Nat.le_total lv k with h | h
  · obtain ⟨c, hc⟩ := span_dvd_span h hle
    have hmod : virt.toNat % span k ≤ virt.toNat % span lv := by
      rw [← Nat.mod_mod_of_dvd virt.toNat (span_dvd_span h hle)]
      apply Nat.mod_le
    have hsplit := Nat.div_add_mod virt.toNat (span lv)
    have hlt := Nat.mod_lt virt.toNat (span_pos lv)
    have hrest : virt.toNat - virt.toNat % span k
        = span lv * (virt.toNat / span lv) + (virt.toNat % span lv - virt.toNat % span k) := by
      omega
    rw [hrest, Nat.mul_add_mod, Nat.mod_eq_of_lt (by omega)]
  · have hdvd : span lv ∣ span k := span_dvd_span h hlv
    have hmod : virt.toNat % span lv ≤ virt.toNat % span k := by
      rw [← Nat.mod_mod_of_dvd virt.toNat hdvd]
      apply Nat.mod_le
    rw [hsub, Nat.mod_eq_zero_of_dvd (hdvd.mul_right _), Nat.sub_eq_zero_of_le hmod]

theorem leaves_iff (hugepage : Bool) {m : ℕ} (hlow : virt.toNat < 2 ^ 47) :
  Leaves virt m (pageLevel hugepage m) (255 - index virt 0 + 1)
    ↔ ¬ StaysLow hugepage virt.toNat m
  := by
  have hzero := mod_firstByte hugepage virt m (show 0 ≤ 3 by decide)
  have hone := mod_firstByte hugepage virt m (show 1 ≤ 3 by decide)
  have hidx := index_eq virt (show 0 ≤ 3 by decide)
  have hstart : firstByte hugepage virt.toNat m / span 0 = index virt 0 := by
    have hle : virt.toNat % span (pageLevel hugepage m) ≤ virt.toNat % span 0 := by
      rw [← Nat.mod_mod_of_dvd virt.toNat (span_dvd_span (Nat.zero_le _) (pageLevel_le hugepage m))]
      apply Nat.mod_le
    rw [hidx, firstByte]
    clear hzero hone hidx
    generalize virt.toNat % span (pageLevel hugepage m) = y at *
    rw [span_zero] at *
    omega
  have htop : (255 - index virt 0 + 1) * span 0 < past virt 0 (pageLevel hugepage m) + m
        ∧ past virt 0 (pageLevel hugepage m) + m
          ≠ (255 - index virt 0 + 1) * span 0 + past virt 1 (pageLevel hugepage m)
      ↔ ¬ (endByte hugepage virt.toNat m ≤ 2 ^ 47 ∨ endByte hugepage virt.toNat m
        = 2 ^ 47 + firstByte hugepage virt.toNat m % span 1) := by
    rw [endByte, ← hzero, ← hone]
    generalize firstByte hugepage virt.toNat m = x at *
    rw [span_zero, span_one] at *
    omega
  have hcross {lv : ℕ} (hlv : lv < 3) :
      span lv < past virt lv (pageLevel hugepage m) + m
        ∧ 0 < (past virt lv (pageLevel hugepage m) + m) % span lv
        ∧ (past virt lv (pageLevel hugepage m) + m) % span lv
          < past virt (lv + 1) (pageLevel hugepage m)
      ↔ ¬ (firstByte hugepage virt.toNat m / span lv < endByte hugepage virt.toNat m / span lv →
        endByte hugepage virt.toNat m % span lv = 0
          ∨ firstByte hugepage virt.toNat m % span (lv + 1)
            ≤ endByte hugepage virt.toNat m % span lv) := by
    rw [endByte, ← mod_firstByte hugepage virt m (show lv ≤ 3 by omega),
      ← mod_firstByte hugepage virt m (show lv + 1 ≤ 3 by omega)]
    generalize firstByte hugepage virt.toNat m = x
    clear hzero hone hidx hstart htop
    match lv, hlv with
    | 0, _ => rw [span_zero, span_one]; omega
    | 1, _ => rw [span_one, span_two]; omega
    | 2, _ => rw [span_two, span_three]; omega
  rw [Leaves, htop, hcross (show 0 < 3 by decide), hcross (show 1 < 3 by decide)]
  constructor
  · rintro (h | h | h) hlow
    · apply h hlow.top
    · apply h hlow.cross_zero
    · apply h hlow.cross_one
  · intro h
    by_contra hnot
    apply h
    constructor
    · by_contra hout
      apply hnot (.inl hout)
    · by_contra hout
      apply hnot (.inr (.inr hout))
    · by_contra hout
      apply hnot (.inr (.inl hout))

/-- The pages of a request at a user address are in the table of the address space just when the
request stays in the lower half. -/
theorem outside_iff (hugepage : Bool) (id : ℕ) (hsize : 4096 ∣ size.toNat)
    (hlow : virt.toNat < 2 ^ 47) :
  Outside (.vm id) (mapPlan hugepage 4 [] virt phys size).1
    ↔ ¬ StaysLow hugepage virt.toNat size.toNat
  := by
  have hidx : index virt 0 < 256 := by
    rw [index_eq virt (by decide), span_zero]
    omega
  have hleft : 512 - index virt 0 = 256 + (255 - index virt 0 + 1) := by omega
  have hleaf : ¬ (size % levels 0 = 0 ∧ largepageAvail hugepage 0 = true) := by
    rintro ⟨-, h⟩
    cases h
  rw [← leaves_iff hugepage hlow, mapPlan, if_neg hleaf, hleft]
  apply outside_tablePlan id hsize (levelFrom_two hugepage size.toNat) (by omega)

end Lower

end VirtMem
