import Gubernatrix.VirtMem.Install
import Gubernatrix.VirtMem.Levels

/-!
# The pages of a request

`vmem_map_st` chooses the pages for a request from its size alone, whatever the tables hold:
`mapPlan` lists them in the order in which they are written, with `true` when the request goes
on beyond the table.
-/

namespace VirtMem

/-- The pages that the first loop of `vmem_map_st` writes to the table at `l`. -/
def leafPlan (lv : ℕ) (l : List ℕ) : (left : ℕ) → (virt phys size : U64) → List Page × Bool
  | left, virt, phys, size =>
      if size > 0 then
        match left with
        | 0 => ([], true)
        | left + 1 =>
            let rest := leafPlan lv l left (virt + levels lv) (phys + levels lv)
              (size - levels lv)
            (⟨l ++ [511 - left], virt, phys⟩ :: rest.1, rest.2)
      else ([], false)

/-- The pages that the second loop of `vmem_map_st` has written below the table at `l`, those of
one entry by `sub`. -/
def tablePlan (sub : List ℕ → (virt phys size : U64) → List Page × Bool) (lv : ℕ) (l : List ℕ) :
    (left : ℕ) → (virt phys size : U64) → List Page × Bool
  | 0, _, _, _ => ([], true)
  | left + 1, virt, phys, size =>
      if size > 0 then
        let first := sub (l ++ [511 - left]) virt phys size
        if first.2 then
          let rest := tablePlan sub lv l left (virt + iSz virt (lv + 1)) (phys + iSz virt (lv + 1))
            (size - iSz virt (lv + 1))
          (first.1 ++ rest.1, rest.2)
        else first
      else ([], false)

/-- The pages that `vmem_map_st` writes, with `n` levels from the table at `l` on. -/
def mapPlan (hugepage : Bool) : (n : ℕ) → List ℕ → (virt phys size : U64) → List Page × Bool
  | 0, _, _, _, _ => ([], false)
  | n + 1, l, virt, phys, size =>
      let lv := 3 - n
      let idx := index virt lv
      if size % levels lv = 0 ∧ largepageAvail hugepage lv then
        leafPlan lv l (512 - idx) virt phys size
      else tablePlan (mapPlan hugepage n) lv l (512 - idx) virt phys size

section Equations

variable {lv left : ℕ} {l : List ℕ} {virt phys size : U64}

theorem leafPlan_of_zero :
  leafPlan lv l left virt phys 0 = ([], false)
  := by
  rw [leafPlan.eq_def]
  rfl

theorem leafPlan_full (h : size > 0) :
  leafPlan lv l 0 virt phys size = ([], true)
  := by
  rw [leafPlan, if_pos h]

theorem leafPlan_succ (h : size > 0) :
  leafPlan lv l (left + 1) virt phys size
    = (⟨l ++ [511 - left], virt, phys⟩
        :: (leafPlan lv l left (virt + levels lv) (phys + levels lv) (size - levels lv)).1,
      (leafPlan lv l left (virt + levels lv) (phys + levels lv) (size - levels lv)).2)
  := by
  rw [leafPlan, if_pos h]

variable {sub : List ℕ → (virt phys size : U64) → List Page × Bool}

theorem tablePlan_of_zero :
  tablePlan sub lv l (left + 1) virt phys 0 = ([], false)
  := by
  rw [tablePlan]
  rfl

theorem tablePlan_go (h : size > 0) (hfirst : (sub (l ++ [511 - left]) virt phys size).2 = true) :
  tablePlan sub lv l (left + 1) virt phys size
    = ((sub (l ++ [511 - left]) virt phys size).1
        ++ (tablePlan sub lv l left (virt + iSz virt (lv + 1)) (phys + iSz virt (lv + 1))
          (size - iSz virt (lv + 1))).1,
      (tablePlan sub lv l left (virt + iSz virt (lv + 1)) (phys + iSz virt (lv + 1))
          (size - iSz virt (lv + 1))).2)
  := by
  rw [tablePlan, if_pos h]
  exact if_pos hfirst

theorem tablePlan_stop (h : size > 0)
    (hfirst : (sub (l ++ [511 - left]) virt phys size).2 = false) :
  tablePlan sub lv l (left + 1) virt phys size = sub (l ++ [511 - left]) virt phys size
  := by
  rw [tablePlan, if_pos h]
  exact if_neg (by simp [hfirst])

/-- The plan begins with the pages of the first entry. -/
theorem tablePlan_head (h : size > 0) :
  (sub (l ++ [511 - left]) virt phys size).1 <+: (tablePlan sub lv l (left + 1) virt phys size).1
  := by
  cases hfirst : (sub (l ++ [511 - left]) virt phys size).2 with
  | false =>
      rw [tablePlan_stop h hfirst]
  | true =>
      rw [tablePlan_go h hfirst]
      exact List.prefix_append _ _

theorem eq_zero_of_not_pos (h : ¬ size > 0) :
  size = 0
  := BitVec.eq_of_toNat_eq (Nat.eq_zero_of_not_pos h)

end Equations

/-! ### Where the pages are -/

/-- All pages lie below the table at `l`. -/
def Below (l : List ℕ) (ds : List Page) : Prop := ∀ d ∈ ds, ∃ i < 512, l ++ [i] <+: d.path

theorem below_leafPlan (lv : ℕ) (l : List ℕ) {left : ℕ} (hleft : left ≤ 512)
    (virt phys size : U64) :
  Below l (leafPlan lv l left virt phys size).1
  := by
  induction left generalizing virt phys size with
  | zero =>
      rw [leafPlan]
      split
      · simp [Below]
      · simp [Below]
  | succ left ih =>
      rw [leafPlan]
      split
      · intro d hd
        rcases List.mem_cons.mp hd with rfl | hd
        · exact ⟨511 - left, by omega, List.prefix_refl _⟩
        · exact ih (by omega) _ _ _ d hd
      · simp [Below]

theorem below_tablePlan {sub : List ℕ → (virt phys size : U64) → List Page × Bool}
    (hsub : ∀ l virt phys size, Below l (sub l virt phys size).1) (lv : ℕ) (l : List ℕ) {left : ℕ}
    (hleft : left ≤ 512) (virt phys size : U64) :
  Below l (tablePlan sub lv l left virt phys size).1
  := by
  induction left generalizing virt phys size with
  | zero => simp [tablePlan, Below]
  | succ left ih =>
      have hfirst : Below l (sub (l ++ [511 - left]) virt phys size).1 := by
        intro d hd
        obtain ⟨i, -, hi⟩ := hsub _ _ _ _ d hd
        exact ⟨511 - left, by omega, (List.prefix_append _ _).trans hi⟩
      by_cases hsize : size > 0
      · cases hgo : (sub (l ++ [511 - left]) virt phys size).2 with
        | false =>
            rw [tablePlan_stop hsize hgo]
            exact hfirst
        | true =>
            rw [tablePlan_go hsize hgo]
            intro d hd
            rcases List.mem_append.mp hd with hd | hd
            · exact hfirst d hd
            · exact ih (by omega) _ _ _ d hd
      · rw [eq_zero_of_not_pos hsize, tablePlan_of_zero]
        simp [Below]

theorem below_mapPlan (hugepage : Bool) (n : ℕ) (l : List ℕ) (virt phys size : U64) :
  Below l (mapPlan hugepage n l virt phys size).1
  := by
  induction n generalizing l virt phys size with
  | zero => simp [mapPlan, Below]
  | succ n ih =>
      rw [mapPlan]
      split
      · exact below_leafPlan _ _ (Nat.sub_le _ _) _ _ _
      · exact below_tablePlan ih _ _ (Nat.sub_le _ _) _ _ _

/-- A request for some pages has a first page in every table it comes to. -/
theorem mapPlan_ne_nil (hugepage : Bool) {n : ℕ} (hn : n ≤ 3) (l : List ℕ) {virt phys size : U64}
    (hsize : size > 0) (hpage : 4096 ∣ size.toNat) :
  (mapPlan hugepage (n + 1) l virt phys size).1 ≠ []
  := by
  induction n generalizing l with
  | zero =>
      have hlt := index_lt virt (show 3 ≤ 3 by decide)
      rw [mapPlan, if_pos ⟨(mod_levels _ _).mpr hpage, rfl⟩,
        show 512 - index virt 3 = 511 - index virt 3 + 1 by omega, leafPlan, if_pos hsize]
      exact List.cons_ne_nil _ _
  | succ n ih =>
      have hlt := index_lt virt (show 3 - (n + 1) ≤ 3 by omega)
      have hidx : 512 - index virt (3 - (n + 1)) = 511 - index virt (3 - (n + 1)) + 1 := by omega
      rw [mapPlan]
      split
      · rw [hidx, leafPlan, if_pos hsize]
        exact List.cons_ne_nil _ _
      · have hfirst := ih (by omega) (l ++ [511 - (511 - index virt (3 - (n + 1)))])
        rw [hidx]
        cases hgo : (mapPlan hugepage (n + 1) (l ++ [511 - (511 - index virt (3 - (n + 1)))])
            virt phys size).2 with
        | false =>
            rw [tablePlan_stop hsize hgo]
            exact hfirst
        | true =>
            rw [tablePlan_go hsize hgo]
            exact List.append_ne_nil_of_left_ne_nil hfirst _

/-! ### Pages apart -/

/-- The pages of later entries of a table. -/
def From (l : List ℕ) (i : ℕ) (ds : List Page) : Prop :=
  ∀ d ∈ ds, ∃ j, i ≤ j ∧ l ++ [j] <+: d.path

theorem apart_of_lt {l : List ℕ} {i j : ℕ} {d d' : Page} (hij : i < j) (hd : l ++ [i] <+: d.path)
    (hd' : l ++ [j] <+: d'.path) :
  Apart d d'
  := by
  have hne : ∀ p, l ++ [i] <+: p → ¬ l ++ [j] <+: p := by
    intro p hi hj
    have hlen : (l ++ [i]).length = (l ++ [j]).length := by simp
    have heq : l ++ [i] = l ++ [j] := by
      rw [List.prefix_iff_eq_take.mp hi, List.prefix_iff_eq_take.mp hj, hlen]
    have := List.append_cancel_left heq
    rw [List.singleton_inj] at this
    omega
  exact ⟨fun hpre => hne _ (hd.trans hpre) hd', fun hpre => hne _ hd (hd'.trans hpre)⟩

theorem From.cons {l : List ℕ} {i : ℕ} {d : Page} {ds : List Page} (hd : l ++ [i] <+: d.path)
    (h : From l (i + 1) ds) :
  From l i (d :: ds)
  := by
  intro d' hd'
  rcases List.mem_cons.mp hd' with rfl | hd'
  · exact ⟨i, le_refl _, hd⟩
  · obtain ⟨j, hj, hpre⟩ := h d' hd'
    exact ⟨j, by omega, hpre⟩

theorem pairwise_leafPlan (lv : ℕ) (l : List ℕ) {left : ℕ} (hleft : left ≤ 512)
    (virt phys size : U64) :
  From l (512 - left) (leafPlan lv l left virt phys size).1
    ∧ (leafPlan lv l left virt phys size).1.Pairwise Apart
  := by
  induction left generalizing virt phys size with
  | zero =>
      rw [leafPlan]
      split
      · simp [From]
      · simp [From]
  | succ left ih =>
      by_cases hsize : size > 0
      · obtain ⟨hfrom, hapart⟩ := ih (by omega) (virt + levels lv) (phys + levels lv)
          (size - levels lv)
        have hidx : 512 - (left + 1) = 511 - left := by omega
        have hidx' : 512 - left = 511 - left + 1 := by omega
        rw [leafPlan_succ hsize, hidx]
        rw [hidx'] at hfrom
        refine ⟨hfrom.cons (List.prefix_refl _), List.pairwise_cons.mpr ⟨?_, hapart⟩⟩
        intro d hd
        obtain ⟨j, hj, hpre⟩ := hfrom d hd
        exact apart_of_lt (by omega) (List.prefix_refl _) hpre
      · rw [eq_zero_of_not_pos hsize, leafPlan_of_zero]
        simp [From]

theorem pairwise_tablePlan {sub : List ℕ → (virt phys size : U64) → List Page × Bool}
    (hbelow : ∀ l virt phys size, Below l (sub l virt phys size).1)
    (hsub : ∀ l virt phys size, (sub l virt phys size).1.Pairwise Apart) (lv : ℕ) (l : List ℕ)
    {left : ℕ} (hleft : left ≤ 512) (virt phys size : U64) :
  From l (512 - left) (tablePlan sub lv l left virt phys size).1
    ∧ (tablePlan sub lv l left virt phys size).1.Pairwise Apart
  := by
  induction left generalizing virt phys size with
  | zero => simp [tablePlan, From]
  | succ left ih =>
      have hidx : 512 - (left + 1) = 511 - left := by omega
      have hfirst : ∀ d ∈ (sub (l ++ [511 - left]) virt phys size).1,
          l ++ [511 - left] <+: d.path := by
        intro d hd
        obtain ⟨i, -, hi⟩ := hbelow _ _ _ _ d hd
        exact (List.prefix_append _ _).trans hi
      rw [hidx]
      by_cases hsize : size > 0
      · cases hgo : (sub (l ++ [511 - left]) virt phys size).2 with
        | false =>
            rw [tablePlan_stop hsize hgo]
            exact ⟨fun d hd => ⟨_, le_refl _, hfirst d hd⟩, hsub _ _ _ _⟩
        | true =>
            obtain ⟨hfrom, hapart⟩ := ih (by omega) (virt + iSz virt (lv + 1))
              (phys + iSz virt (lv + 1)) (size - iSz virt (lv + 1))
            rw [tablePlan_go hsize hgo]
            constructor
            · intro d hd
              rcases List.mem_append.mp hd with hd | hd
              · exact ⟨_, le_refl _, hfirst d hd⟩
              · obtain ⟨j, hj, hpre⟩ := hfrom d hd
                exact ⟨j, by omega, hpre⟩
            · refine List.pairwise_append.mpr ⟨hsub _ _ _ _, hapart, ?_⟩
              intro d hd d' hd'
              obtain ⟨j, hj, hpre⟩ := hfrom d' hd'
              exact apart_of_lt (by omega) (hfirst d hd) hpre
      · rw [eq_zero_of_not_pos hsize, tablePlan_of_zero]
        simp [From]

/-- The pages of a request are apart. -/
theorem pairwise_mapPlan (hugepage : Bool) (n : ℕ) (l : List ℕ) (virt phys size : U64) :
  (mapPlan hugepage n l virt phys size).1.Pairwise Apart
  := by
  induction n generalizing l virt phys size with
  | zero => simp [mapPlan]
  | succ n ih =>
      rw [mapPlan]
      split
      · exact (pairwise_leafPlan _ _ (Nat.sub_le _ _) _ _ _).2
      · exact (pairwise_tablePlan (below_mapPlan hugepage n) ih _ _ (Nat.sub_le _ _) _ _ _).2

end VirtMem
