import Gubernatrix.VirtMem.Plan

/-!
# Requests that are tiled

The pages of a plan are right when they tile the request: each begins where the one before
ends, on a boundary of its own size. Since `vmem_map_st` chooses them from the size alone they
tile it only when the address fits the size (`Fits`).
-/

namespace VirtMem

/-- The pages cover `m` bytes from `virt` on, one after the other, each on a boundary of its
size. -/
inductive Tiles (hugepage : Bool) : (virt phys : U64) → (m : ℕ) → List Page → Prop where
  | nil {virt phys : U64} : Tiles hugepage virt phys 0 []
  | cons {virt phys : U64} {m lv : ℕ} {ds : List Page} : lv ≤ 3 →
      largepageAvail hugepage lv = true → span lv ∣ virt.toNat → span lv ≤ m →
      Tiles hugepage (virt + levels lv) (phys + levels lv) (m - span lv) ds →
      Tiles hugepage virt phys m (⟨pathTo virt (lv + 1), virt, phys⟩ :: ds)

/-- The pages that `vmem_map_st` chooses for `m` bytes fit at the address `v`: the first page is
on a boundary of its size, and where the request crosses a boundary of 1 GiB or of 512 GiB, it
begins on a boundary of 2 MiB or of 1 GiB. -/
structure Fits (hugepage : Bool) (v m : ℕ) : Prop where
  huge : hugepage = true → span 1 ∣ m → span 1 ∣ v
  large : ¬ (hugepage = true ∧ span 1 ∣ m) → span 2 ∣ m → span 2 ∣ v
  cross_one : span 1 < v % span 1 + m → span 2 ∣ v
  cross_zero : span 0 < v % span 0 + m → span 1 ∣ v

/-- `Fits`, level by level, with `n` levels from the tables below on. -/
def FitsFrom (hugepage : Bool) : (n : ℕ) → (v m : ℕ) → Prop
  | 0, _, _ => True
  | n + 1, v, m =>
      if largepageAvail hugepage (2 - n) = true ∧ span (2 - n) ∣ m then span (2 - n) ∣ v
      else FitsFrom hugepage n v m ∧ (span (2 - n) < v % span (2 - n) + m → span (3 - n) ∣ v)

variable {hugepage : Bool}

theorem fitsFrom_iff {v m : ℕ} (hv : 4096 ∣ v) :
  FitsFrom hugepage 3 v m ↔ Fits hugepage v m
  := by
  have hlast : span 3 ∣ v := hv
  have htrans (h : span 1 ∣ v) : span 2 ∣ v := dvd_trans (by decide) h
  have hunfold : FitsFrom hugepage 3 v m
      ↔ (if hugepage = true ∧ span 1 ∣ m then span 1 ∣ v
          else (if span 2 ∣ m then span 2 ∣ v else True)
            ∧ (span 1 < v % span 1 + m → span 2 ∣ v))
        ∧ (span 0 < v % span 0 + m → span 1 ∣ v) := by
    simp [FitsFrom, largepageAvail, hlast]
  rw [hunfold]
  constructor
  · rintro ⟨hfirst, hcross⟩
    split_ifs at hfirst with hhuge hlarge
    · exact ⟨fun _ _ => hfirst, fun h => absurd hhuge h, fun _ => htrans hfirst, hcross⟩
    · exact ⟨fun h h' => absurd ⟨h, h'⟩ hhuge, fun _ _ => hfirst.1, hfirst.2, hcross⟩
    · exact ⟨fun h h' => absurd ⟨h, h'⟩ hhuge, fun _ h => absurd h hlarge, hfirst.2, hcross⟩
  · intro h
    refine ⟨?_, h.cross_zero⟩
    split_ifs with hhuge hlarge
    · exact h.huge hhuge.1 hhuge.2
    · exact ⟨h.large hhuge hlarge, h.cross_one⟩
    · exact ⟨trivial, h.cross_one⟩

theorem Tiles.append {virt phys : U64} {m m' : ℕ} {ds ds' : List Page}
    (h : Tiles hugepage virt phys m ds)
    (h' : Tiles hugepage (virt + BitVec.ofNat 64 m) (phys + BitVec.ofNat 64 m) m' ds') :
  Tiles hugepage virt phys (m + m') (ds ++ ds')
  := by
  induction h with
  | nil =>
      simpa using h'
  | @cons virt phys m lv ds hlv havail hdvd hle _ ih =>
      have hsum : BitVec.ofNat 64 m = levels lv + BitVec.ofNat 64 (m - span lv) := by
        apply BitVec.eq_of_toNat_eq
        rw [BitVec.toNat_add, BitVec.toNat_ofNat, BitVec.toNat_ofNat, toNat_levels]
        omega
      refine .cons hlv havail hdvd (by omega) ?_
      rw [Nat.sub_add_comm hle]
      apply ih
      rwa [hsum, ← BitVec.add_assoc, ← BitVec.add_assoc] at h'

/-! ### Addresses within a table -/

/-- An address moved within an entry keeps the digits up to the entry. -/
theorem pathTo_add (virt x : U64) {k : ℕ} (hk : k ≤ 3)
    (h : low virt % span k + x.toNat < span k) :
  pathTo (virt + x) (k + 1) = pathTo virt (k + 1)
  := by
  rw [pathTo_eq_iff _ _ hk]
  have hsum : low (virt + x) = (low virt + x.toNat) % 2 ^ 48 := by
    rw [low, low, BitVec.toNat_add]
    omega
  have hlow : low virt < 2 ^ 48 := Nat.mod_lt _ (by decide)
  rw [hsum]
  obtain rfl | rfl | rfl | rfl : k = 0 ∨ k = 1 ∨ k = 2 ∨ k = 3 := by omega
  · rw [span_zero] at h ⊢; omega
  · rw [span_one] at h ⊢; omega
  · rw [span_two] at h ⊢; omega
  · rw [span_three] at h ⊢; omega

section Step

variable {virt x : U64} {lv : ℕ} (hlv : lv ≤ 3)
  (hle : span lv ≤ virt.toNat % span lv + x.toNat)
  (hlt : virt.toNat % span lv + x.toNat < 2 * span lv)

include hlv hle hlt in
/-- To an address that the next entry of a table stands for. -/
theorem index_step (h : index virt lv < 511) :
  index (virt + x) lv = index virt lv + 1
  := by
  rw [index_eq _ hlv] at h ⊢
  rw [index_eq _ hlv, BitVec.toNat_add]
  match lv, hlv with
  | 0, _ => rw [span_zero] at h hle hlt ⊢; omega
  | 1, _ => rw [span_one] at h hle hlt ⊢; omega
  | 2, _ => rw [span_two] at h hle hlt ⊢; omega
  | 3, _ => rw [span_three] at h hle hlt ⊢; omega

include hlv hle hlt in
theorem pathTo_step (h : index virt lv < 511) :
  pathTo (virt + x) lv = pathTo virt lv
  := by
  rw [index_eq _ hlv] at h
  match lv, hlv with
  | 0, _ => rw [pathTo_zero, pathTo_zero]
  | 1, _ =>
      rw [span_one] at h hle hlt
      apply pathTo_add _ _ (by decide)
      rw [low, span_zero]
      omega
  | 2, _ =>
      rw [span_two] at h hle hlt
      apply pathTo_add _ _ (by decide)
      rw [low, span_one]
      omega
  | 3, _ =>
      rw [span_three] at h hle hlt
      apply pathTo_add _ _ (by decide)
      rw [low, span_two]
      omega

end Step

section Next

variable {virt x : U64} {lv : ℕ} (hlv : lv ≤ 3)
  (hx : x.toNat = span lv - virt.toNat % span lv)

include hlv hx in
/-- To the next entry of a table. -/
theorem index_next (h : index virt lv < 511) :
  index (virt + x) lv = index virt lv + 1
  := by
  have hmod := Nat.mod_lt virt.toNat (span_pos lv)
  apply index_step hlv (by omega) (by omega) h

include hlv hx in
theorem pathTo_next (h : index virt lv < 511) :
  pathTo (virt + x) lv = pathTo virt lv
  := by
  have hmod := Nat.mod_lt virt.toNat (span_pos lv)
  apply pathTo_step hlv (by omega) (by omega) h

include hlv hx in
theorem dvd_next :
  span lv ∣ (virt + x).toNat
  := by
  rw [BitVec.toNat_add, hx]
  match lv, hlv with
  | 0, _ => rw [span_zero]; omega
  | 1, _ => rw [span_one]; omega
  | 2, _ => rw [span_two]; omega
  | 3, _ => rw [span_three]; omega

end Next

/-- From the boundary of an entry, the next entry is `levels` further. -/
theorem toNat_levels_next {virt : U64} {lv : ℕ} (hvirt : span lv ∣ virt.toNat) :
  (levels lv).toNat = span lv - virt.toNat % span lv
  := by
  rw [toNat_levels, Nat.mod_eq_zero_of_dvd hvirt, Nat.sub_zero]

/-- From a boundary of the next level, the next entry is `i_sz` further. -/
theorem toNat_iSz_next {virt : U64} {lv : ℕ} (hlv : lv < 3) (hvirt : span (lv + 1) ∣ virt.toNat) :
  (iSz virt (lv + 1)).toNat = span lv - virt.toNat % span lv
  := by
  rw [toNat_iSz virt (by omega) (by omega), index_eq _ (by omega)]
  match lv, hlv with
  | 0, _ => rw [span_one] at hvirt ⊢; rw [span_zero]; omega
  | 1, _ => rw [span_two] at hvirt ⊢; rw [span_one]; omega
  | 2, _ => rw [span_three] at hvirt ⊢; rw [span_two]; omega

/-- The bytes from `virt` to the end of its table at level `lv`. -/
def room (virt : U64) (lv : ℕ) : ℕ := 512 * span lv - virt.toNat % (512 * span lv)

/-- The pages of the first loop of `vmem_map_st`, written from an address on the boundary of a
page. -/
theorem tiles_leafPlan {lv : ℕ} (hlv : lv ≤ 3) (havail : largepageAvail hugepage lv = true)
    {virt phys size : U64} (hvirt : span lv ∣ virt.toNat) (hsize : span lv ∣ size.toNat) {left : ℕ}
    (hleft : 0 < left → index virt lv + left = 512) {l : List ℕ}
    (hl : 0 < left → l = pathTo virt lv) :
  Tiles hugepage virt phys (min size.toNat (left * span lv))
      (leafPlan lv l left virt phys size).1
    ∧ ((leafPlan lv l left virt phys size).2 = true ↔ left * span lv < size.toNat)
  := by
  induction left generalizing virt phys size with
  | zero =>
      by_cases hpos : size > 0
      · have hpos' : 0 < size.toNat := hpos
        rw [leafPlan_full hpos]
        simpa using ⟨.nil, hpos'⟩
      · rw [eq_zero_of_not_pos hpos, leafPlan_of_zero]
        simpa using .nil
  | succ left ih =>
      by_cases hpos : size > 0
      · have hpos' : 0 < size.toNat := hpos
        have hle : span lv ≤ size.toNat := Nat.le_of_dvd hpos' hsize
        have hidx : index virt lv + (left + 1) = 512 := hleft (by omega)
        have hsub : (size - levels lv).toNat = size.toNat - span lv := by
          rw [BitVec.toNat_sub_of_le hle, toNat_levels]
        have hnext := toNat_levels_next hvirt
        obtain ⟨htiles, hgoOn⟩ := @ih (virt + levels lv) (phys + levels lv)
          (size - levels lv) (dvd_next hlv hnext)
          (by rw [hsub]; exact Nat.dvd_sub hsize (dvd_refl _))
          (fun h => by rw [index_next hlv hnext (by omega)]; omega)
          (fun h => by rw [pathTo_next hlv hnext (by omega)]; exact hl (by omega))
        have hmin : min size.toNat ((left + 1) * span lv) - span lv
            = min (size.toNat - span lv) (left * span lv) := by
          rw [Nat.succ_mul]
          omega
        have hpath : l ++ [511 - left] = pathTo virt (lv + 1) := by
          rw [pathTo_succ, hl (by omega), show 511 - left = index virt lv by omega]
        rw [leafPlan_succ hpos, hpath]
        rw [hsub] at htiles hgoOn
        constructor
        · refine .cons hlv havail hvirt ?_ (by rw [hmin]; exact htiles)
          rw [Nat.succ_mul]
          omega
        · rw [hgoOn, Nat.succ_mul]
          omega
      · rw [eq_zero_of_not_pos hpos, leafPlan_of_zero]
        simpa using .nil

/-- On a boundary of the level above every size fits. -/
theorem fitsFrom_of_dvd {n v : ℕ} (hn : n ≤ 2) (m : ℕ) (h : span (2 - n) ∣ v) :
  FitsFrom hugepage n v m
  := by
  induction n with
  | zero => exact trivial
  | succ n ih =>
      have hle : span (2 - n) ∣ v := (span_dvd_span (by omega) (by omega)).trans h
      rw [FitsFrom]
      split
      · exact hle
      · exact ⟨ih (by omega) hle, fun _ => (span_dvd_span (by omega) (by omega)).trans h⟩

/-- The pages below the entries of a table, when those of each entry are right. -/
theorem tiles_tablePlan {n : ℕ} (hn : n ≤ 2)
    (hsub : ∀ {virt phys size : U64}, 4096 ∣ virt.toNat → 4096 ∣ size.toNat → 0 < size.toNat →
      FitsFrom hugepage n virt.toNat size.toNat →
      Tiles hugepage virt phys (min size.toNat (room virt (3 - n)))
          (mapPlan hugepage (n + 1) (pathTo virt (3 - n)) virt phys size).1
        ∧ ((mapPlan hugepage (n + 1) (pathTo virt (3 - n)) virt phys size).2 = true
          ↔ room virt (3 - n) < size.toNat))
    {virt phys size : U64} (hvirt : 4096 ∣ virt.toNat) (hsize : 4096 ∣ size.toNat)
    (hpos : 0 < size.toNat) {left : ℕ} (hleft : 0 < left → index virt (2 - n) + left = 512)
    {l : List ℕ} (hl : 0 < left → l = pathTo virt (2 - n))
    (hfits : 0 < left → FitsFrom hugepage n virt.toNat size.toNat)
    (hcross : 0 < left → span (2 - n) < virt.toNat % span (2 - n) + size.toNat →
      span (3 - n) ∣ virt.toNat) :
  Tiles hugepage virt phys
      (min size.toNat (left * span (2 - n) - virt.toNat % span (2 - n)))
      (tablePlan (mapPlan hugepage (n + 1)) (2 - n) l left virt phys size).1
    ∧ ((tablePlan (mapPlan hugepage (n + 1)) (2 - n) l left virt phys size).2 = true
      ↔ left * span (2 - n) - virt.toNat % span (2 - n) < size.toNat)
  := by
  have hn' : 3 - n = 2 - n + 1 := by omega
  induction left generalizing virt phys size with
  | zero =>
      rw [tablePlan]
      simpa using ⟨.nil, hpos⟩
  | succ left ih =>
      have hidx : index virt (2 - n) + (left + 1) = 512 := hleft (by omega)
      have hroom : room virt (3 - n) = span (2 - n) - virt.toNat % span (2 - n) := by
        rw [room, hn', ← span_eq (by omega)]
      have hrem : virt.toNat % span (2 - n) < span (2 - n) := Nat.mod_lt _ (span_pos _)
      have hpath : l ++ [511 - left] = pathTo virt (3 - n) := by
        rw [hn', pathTo_succ, hl (by omega), show 511 - left = index virt (2 - n) by omega]
      obtain ⟨htiles, hgoOn⟩ := @hsub virt phys size hvirt hsize hpos (hfits (by omega))
      rw [← hpath, hroom] at htiles hgoOn
      have hsum : (left + 1) * span (2 - n) - virt.toNat % span (2 - n)
          = span (2 - n) - virt.toNat % span (2 - n) + left * span (2 - n) := by
        rw [Nat.succ_mul]
        omega
      rw [hsum]
      by_cases hgo : span (2 - n) - virt.toNat % span (2 - n) < size.toNat
      · have hdvd : span (3 - n) ∣ virt.toNat := hcross (by omega) (by omega)
        rw [hn'] at hdvd
        have hnext := toNat_iSz_next (by omega) hdvd
        have hsub' : (size - iSz virt (2 - n + 1)).toNat
            = size.toNat - (span (2 - n) - virt.toNat % span (2 - n)) := by
          rw [BitVec.toNat_sub_of_le (by rw [BitVec.le_def, hnext]; omega), hnext]
        have hvirt' := dvd_next (by omega) hnext
        have hzero : (virt + iSz virt (2 - n + 1)).toNat % span (2 - n) = 0 :=
          Nat.mod_eq_zero_of_dvd hvirt'
        have hrest := @ih (virt + iSz virt (2 - n + 1))
          (phys + iSz virt (2 - n + 1)) (size - iSz virt (2 - n + 1))
          ((page_dvd_span _).trans hvirt')
          (by rw [hsub', ← hnext]; exact Nat.dvd_sub hsize (page_dvd_iSz virt (by omega)))
          (by rw [hsub']; omega)
          (fun h => by rw [index_next (by omega) hnext (by omega)]; omega)
          (fun h => by rw [pathTo_next (by omega) hnext (by omega)]; exact hl (by omega))
          (fun _ => fitsFrom_of_dvd hn _ hvirt')
          (fun _ _ => (span_dvd_span (by omega) (by omega)).trans hvirt')
        rw [hsub', hzero, Nat.sub_zero] at hrest
        obtain ⟨hrest, hrest'⟩ := hrest
        rw [tablePlan_go hpos (hgoOn.mpr hgo)]
        rw [min_eq_right (by omega), ← hnext] at htiles
        rw [← hnext] at hgo hrest hrest' ⊢
        have hmin : min size.toNat ((iSz virt (2 - n + 1)).toNat + left * span (2 - n))
            = (iSz virt (2 - n + 1)).toNat
              + min (size.toNat - (iSz virt (2 - n + 1)).toNat) (left * span (2 - n)) := by
          omega
        rw [hmin]
        constructor
        · apply htiles.append
          rwa [BitVec.ofNat_toNat, BitVec.setWidth_eq]
        · rw [hrest']
          omega
      · have hstop : (mapPlan hugepage (n + 1) (l ++ [511 - left]) virt phys size).2 = false := by
          rw [← Bool.not_eq_true, hgoOn]
          exact hgo
        rw [tablePlan_stop hpos hstop, hstop]
        rw [min_eq_left (by omega)] at htiles ⊢
        refine ⟨htiles, ?_⟩
        simp only [Bool.false_eq_true, false_iff]
        omega

theorem room_eq (virt : U64) {lv : ℕ} (hlv : lv ≤ 3) :
  room virt lv = (512 - index virt lv) * span lv - virt.toNat % span lv
  := by
  have hrem : virt.toNat % span lv < span lv := Nat.mod_lt _ (span_pos _)
  rw [room, Nat.mul_comm 512, Nat.mod_mul, ← index_eq virt hlv, Nat.sub_mul, Nat.mul_comm 512,
    Nat.mul_comm (index virt lv), Nat.sub_sub, Nat.add_comm]

/-- The pages of a request that fits tile the part of it in the table. -/
theorem tiles_mapPlan {n : ℕ} (hn : n ≤ 3) {virt phys size : U64} (hvirt : 4096 ∣ virt.toNat)
    (hsize : 4096 ∣ size.toNat) (hpos : 0 < size.toNat)
    (hfits : FitsFrom hugepage n virt.toNat size.toNat) :
  Tiles hugepage virt phys (min size.toNat (room virt (3 - n)))
      (mapPlan hugepage (n + 1) (pathTo virt (3 - n)) virt phys size).1
    ∧ ((mapPlan hugepage (n + 1) (pathTo virt (3 - n)) virt phys size).2 = true
      ↔ room virt (3 - n) < size.toNat)
  := by
  have hidx := index_lt virt (show 3 - n ≤ 3 by omega)
  induction n generalizing virt phys size with
  | zero =>
      have hpage : span (3 - 0) ∣ virt.toNat := hvirt
      have hroom : room virt (3 - 0) = (512 - index virt (3 - 0)) * span (3 - 0) := by
        rw [room_eq virt (by omega), Nat.mod_eq_zero_of_dvd hpage, Nat.sub_zero]
      rw [mapPlan, if_pos ⟨(mod_levels _ _).mpr hsize, rfl⟩, hroom]
      exact tiles_leafPlan (by omega) rfl hpage hsize (by omega) fun _ => rfl
  | succ n ih =>
      have hlv : 3 - (n + 1) = 2 - n := by omega
      rw [FitsFrom] at hfits
      rw [mapPlan, hlv]
      rw [hlv] at hidx
      by_cases hleaf : size % levels (2 - n) = 0 ∧ largepageAvail hugepage (2 - n) = true
      · have hdvd := (mod_levels _ _).mp hleaf.1
        rw [if_pos ⟨hleaf.2, hdvd⟩] at hfits
        have hroom : room virt (2 - n) = (512 - index virt (2 - n)) * span (2 - n) := by
          rw [room_eq virt (by omega), Nat.mod_eq_zero_of_dvd hfits, Nat.sub_zero]
        rw [if_pos hleaf, hroom]
        exact tiles_leafPlan (by omega) hleaf.2 hfits hdvd (by omega) fun _ => rfl
      · rw [if_neg fun h => hleaf ⟨(mod_levels _ _).mpr h.2, h.1⟩] at hfits
        rw [if_neg hleaf, room_eq virt (by omega)]
        exact tiles_tablePlan (by omega)
          (fun hvirt hsize hpos hfits => ih (by omega) hvirt hsize hpos hfits
            (index_lt _ (by omega)))
          hvirt hsize hpos (by omega) (fun _ => rfl) (fun _ => hfits.1) (fun _ => hfits.2)

/-! ### Whole requests -/

/-- The addresses of a request lie in one half of the canonical addresses. -/
def InHalf (virt size : U64) : Prop :=
  virt.toNat + size.toNat ≤ 2 ^ 47
    ∨ 2 ^ 64 - 2 ^ 47 ≤ virt.toNat ∧ virt.toNat + size.toNat ≤ 2 ^ 64

/-- The pages of a request that fits tile it. -/
theorem tiles_request {virt phys size : U64} (hvirt : 4096 ∣ virt.toNat)
    (hsize : 4096 ∣ size.toNat) (hpos : 0 < size.toNat) (hhalf : InHalf virt size)
    (hfits : Fits hugepage virt.toNat size.toNat) :
  Tiles hugepage virt phys size.toNat (mapPlan hugepage 4 [] virt phys size).1
    ∧ (mapPlan hugepage 4 [] virt phys size).2 = false
  := by
  have hroom : size.toNat ≤ room virt 0 := by
    rw [room, span_zero]
    unfold InHalf at hhalf
    omega
  obtain ⟨htiles, hgoOn⟩ := @tiles_mapPlan hugepage 3 (by decide) virt phys size hvirt hsize hpos
    ((fitsFrom_iff hvirt).mpr hfits)
  rw [pathTo_zero, min_eq_left hroom] at htiles
  refine ⟨htiles, ?_⟩
  rw [← Bool.not_eq_true]
  intro h
  exact absurd (hgoOn.mp h) (not_lt.mpr hroom)

/-! ### Tiles -/

theorem low_add {virt : U64} {o : ℕ} (h : low virt + o < 2 ^ 48) :
  low (virt + BitVec.ofNat 64 o) = low virt + o
  := by
  rw [low, BitVec.toNat_add, BitVec.toNat_ofNat]
  unfold low at h ⊢
  omega

theorem span_dvd_low {virt : U64} {lv : ℕ} (hlv : lv ≤ 3) :
  span lv ∣ low virt ↔ span lv ∣ virt.toNat
  := by
  rw [low]
  obtain rfl | rfl | rfl | rfl : lv = 0 ∨ lv = 1 ∨ lv = 2 ∨ lv = 3 := by omega
  · rw [span_zero]; omega
  · rw [span_one]; omega
  · rw [span_two]; omega
  · rw [span_three]; omega

/-- A page of a tiled request, of level `lv` and at the offset `o`. -/
structure Tile (hugepage : Bool) (virt phys : U64) (m : ℕ) (d : Page) (lv o : ℕ) : Prop where
  le : lv ≤ 3
  avail : largepageAvail hugepage lv = true
  path : d.path = pathTo d.virt (lv + 1)
  virt : d.virt = virt + BitVec.ofNat 64 o
  phys : d.phys = phys + BitVec.ofNat 64 o
  dvd : span lv ∣ d.virt.toNat
  bound : o + span lv ≤ m

theorem Tile.level {virt phys : U64} {m lv o : ℕ} {d : Page}
    (h : Tile hugepage virt phys m d lv o) :
  d.level = lv
  := by
  rw [Page.level, h.path, length_pathTo, Nat.add_sub_cancel]

theorem Tile.head {virt phys : U64} {m lv : ℕ} (hlv : lv ≤ 3)
    (havail : largepageAvail hugepage lv = true) (hdvd : span lv ∣ virt.toNat)
    (hle : span lv ≤ m) :
  Tile hugepage virt phys m ⟨pathTo virt (lv + 1), virt, phys⟩ lv 0
  := ⟨hlv, havail, rfl, by simp, by simp, hdvd, by omega⟩

theorem Tile.shift {virt phys : U64} {m k lv o : ℕ} {d : Page} (hle : span k ≤ m)
    (h : Tile hugepage (virt + levels k) (phys + levels k) (m - span k) d lv o) :
  Tile hugepage virt phys m d lv (span k + o)
  := by
  have hsum : BitVec.ofNat 64 (span k + o) = levels k + BitVec.ofNat 64 o := by
    rw [BitVec.ofNat_add, span, BitVec.ofNat_toNat, BitVec.setWidth_eq]
  refine ⟨h.le, h.avail, h.path, ?_, ?_, h.dvd, ?_⟩
  · rw [h.virt, hsum, BitVec.add_assoc]
  · rw [h.phys, hsum, BitVec.add_assoc]
  · have := h.bound
    omega

theorem Tiles.tile {virt phys : U64} {m : ℕ} {ds : List Page} (h : Tiles hugepage virt phys m ds)
    {d : Page} (hd : d ∈ ds) :
  ∃ lv o, Tile hugepage virt phys m d lv o
  := by
  induction h with
  | nil => cases hd
  | cons hlv havail hdvd hle _ ih =>
      rcases List.mem_cons.mp hd with rfl | hd
      · exact ⟨_, 0, .head hlv havail hdvd hle⟩
      · obtain ⟨lv, o, htile⟩ := ih hd
        exact ⟨lv, _, htile.shift hle⟩

/-- Every byte of the request is in one of the pages. -/
theorem Tiles.cover {virt phys : U64} {m : ℕ} {ds : List Page} (h : Tiles hugepage virt phys m ds)
    {x : ℕ} (hx : x < m) :
  ∃ d ∈ ds, ∃ lv o, Tile hugepage virt phys m d lv o ∧ o ≤ x ∧ x < o + span lv
  := by
  induction h generalizing x with
  | nil => exact absurd hx (Nat.not_lt_zero _)
  | @cons virt phys m k ds hlv havail hdvd hle _ ih =>
      by_cases hin : x < span k
      · exact ⟨_, List.mem_cons_self .., k, 0, .head hlv havail hdvd hle, Nat.zero_le _, by omega⟩
      · obtain ⟨d, hd, lv, o, htile, hle', hlt⟩ := ih (x := x - span k) (by omega)
        exact ⟨d, List.mem_cons_of_mem _ hd, lv, _, htile.shift hle, by omega, by omega⟩

/-- The addresses in a page of a tiled request. -/
theorem Tile.prefix_iff {virt phys : U64} {m lv o : ℕ} {d : Page}
    (h : Tile hugepage virt phys m d lv o) (hlow : low virt + m ≤ 2 ^ 48) (a : U64) :
  d.path <+: pathTo a 4 ↔ low virt + o ≤ low a ∧ low a < low virt + o + span lv
  := by
  have hbound := h.bound
  have hpos := span_pos lv
  have hd : low d.virt = low virt + o := by
    rw [h.virt, low_add (by omega)]
  have hdvd := (span_dvd_low h.le).mpr h.dvd
  rw [h.path, pathTo_prefix_iff _ _ h.le, hd, eq_comm]
  rw [hd] at hdvd
  obtain ⟨c, hc⟩ := hdvd
  rw [hc, Nat.mul_div_cancel_left _ hpos, Nat.div_eq_iff hpos, Nat.mul_comm c]
  omega

end VirtMem
