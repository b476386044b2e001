import Gubernatrix.VirtMem.Establish
import Mathlib.Data.List.Pairwise

/-!
# Requests that are covered

Where the pages of a request are, whether they tile it or not: `vmem_map_st` writes each at the
entry for the address that it has come to. A request that they cover, each on a boundary of its
size, fits.
-/

namespace VirtMem

open Program Radix PhysMem

/-- The pages are at the entries for addresses whole pages and less than `m` bytes on from
`virt`. -/
def Strewn (virt phys : U64) (m : ℕ) (ds : List Page) : Prop :=
  ∀ d ∈ ds, ∃ o < m, 4096 ∣ o ∧ ∃ lv ≤ 3, d.virt = virt + BitVec.ofNat 64 o
    ∧ d.phys = phys + BitVec.ofNat 64 o ∧ d.path = pathTo d.virt (lv + 1)

variable {hugepage : Bool} {virt phys size : U64} {l : List ℕ}

/-! ### Where the pages are -/

theorem strewn_nil (virt phys : U64) (m : ℕ) :
  Strewn virt phys m []
  := by
  intro d hd
  cases hd

theorem Strewn.mono {m m' : ℕ} {ds : List Page} (h : Strewn virt phys m ds) (hle : m ≤ m') :
  Strewn virt phys m' ds
  := by
  intro d hd
  obtain ⟨o, ho, hrest⟩ := h d hd
  use o, lt_of_lt_of_le ho hle

/-- The pages from a later address on. -/
theorem Strewn.shift {x : U64} {m m' : ℕ} {ds : List Page} (h : Strewn (virt + x) (phys + x) m ds)
    (hx : 4096 ∣ x.toNat) (hle : 0 < m → x.toNat + m ≤ m') :
  Strewn virt phys m' ds
  := by
  intro d hd
  obtain ⟨o, ho, hdvd, lv, hlv, hvirt, hphys, hpath⟩ := h d hd
  have hle' := hle (by omega)
  have hsum : BitVec.ofNat 64 (x.toNat + o) = x + BitVec.ofNat 64 o := by
    rw [BitVec.ofNat_add, BitVec.ofNat_toNat, BitVec.setWidth_eq]
  refine ⟨x.toNat + o, by omega, Nat.dvd_add hx hdvd, lv, hlv, ?_, ?_, hpath⟩
  · rw [hvirt, hsum, BitVec.add_assoc]
  · rw [hphys, hsum, BitVec.add_assoc]

/-- The offset of an address in an entry, after a step. -/
theorem toNat_add_mod (virt x : U64) {lv : ℕ} (hlv : lv ≤ 3) :
  (virt + x).toNat % span lv = (virt.toNat % span lv + x.toNat) % span lv
  := by
  rw [BitVec.toNat_add]
  match lv, hlv with
  | 0, _ => rw [span_zero]; omega
  | 1, _ => rw [span_one]; omega
  | 2, _ => rw [span_two]; omega
  | 3, _ => rw [span_three]; omega

theorem strewn_leafPlan {lv : ℕ} (hlv : lv ≤ 3) {left : ℕ}
    (hleft : 0 < left → index virt lv + left = 512) (hl : 0 < left → l = pathTo virt lv) :
  Strewn virt phys (left * span lv - virt.toNat % span lv) (leafPlan lv l left virt phys size).1
  := by
  induction left generalizing virt phys size with
  | zero =>
      rw [leafPlan]
      split
      · apply strewn_nil
      · apply strewn_nil
  | succ left ih =>
      by_cases hpos : size > 0
      · have hidx : index virt lv + (left + 1) = 512 := hleft (by omega)
        have hmod := Nat.mod_lt virt.toNat (span_pos lv)
        have hle : span lv ≤ virt.toNat % span lv + (levels lv).toNat := by
          rw [toNat_levels]
          omega
        have hlt : virt.toNat % span lv + (levels lv).toNat < 2 * span lv := by
          rw [toNat_levels]
          omega
        rw [leafPlan_succ hpos]
        intro d hd
        rcases List.mem_cons.mp hd with rfl | hd
        · refine ⟨0, ?_, dvd_zero _, lv, hlv, by simp, by simp, ?_⟩
          · rw [Nat.succ_mul]
            omega
          · rw [pathTo_succ, hl (by omega), show 511 - left = index virt lv by omega]
        · have hrest := @ih (virt + levels lv) (phys + levels lv) (size - levels lv)
            (fun h => by rw [index_step hlv hle hlt (by omega)]; omega)
            (fun h => by rw [pathTo_step hlv hle hlt (by omega)]; apply hl (by omega))
          apply hrest.shift (page_dvd_span lv) _ d hd
          rw [toNat_add_mod _ _ hlv, toNat_levels, Nat.add_mod_right, Nat.mod_mod, Nat.succ_mul]
          omega
      · rw [eq_zero_of_not_pos hpos, leafPlan_of_zero]
        apply strewn_nil

/-- Where the second loop of `vmem_map_st` goes on after an entry: from the next one, as far from
its boundary as it was from one of the next level. -/
theorem mod_add_iSz (virt : U64) {lv : ℕ} (hlv : lv < 3) :
  virt.toNat % span lv + (iSz virt (lv + 1)).toNat = span lv + virt.toNat % span (lv + 1)
  := by
  rw [toNat_iSz virt (by omega) (by omega), index_eq _ (by omega)]
  match lv, hlv with
  | 0, _ => rw [span_zero, span_one]; omega
  | 1, _ => rw [span_one, span_two]; omega
  | 2, _ => rw [span_two, span_three]; omega

theorem room_succ (virt : U64) {lv : ℕ} (hlv : lv < 3) :
  room virt (lv + 1) = span lv - virt.toNat % span lv
  := by
  rw [room, ← span_eq hlv]

section Step

variable {lv : ℕ} (hlv : lv < 3) (h : index virt lv < 511)

include hlv h

theorem index_add_iSz :
  index (virt + iSz virt (lv + 1)) lv = index virt lv + 1
  := by
  have hsum := mod_add_iSz virt hlv
  have hmod := Nat.mod_lt virt.toNat (span_pos (lv + 1))
  have heq := span_eq hlv
  apply index_step (by omega) (by omega) (by omega) h

theorem pathTo_add_iSz :
  pathTo (virt + iSz virt (lv + 1)) lv = pathTo virt lv
  := by
  have hsum := mod_add_iSz virt hlv
  have hmod := Nat.mod_lt virt.toNat (span_pos (lv + 1))
  have heq := span_eq hlv
  apply pathTo_step (by omega) (by omega) (by omega) h

end Step

theorem strewn_tablePlan {sub : List ℕ → (virt phys size : U64) → List Page × Bool} {lv : ℕ}
    (hlv : lv < 3)
    (hsub : ∀ {virt phys size : U64}, 4096 ∣ size.toNat →
      Strewn virt phys (room virt (lv + 1)) (sub (pathTo virt (lv + 1)) virt phys size).1)
    (hsize : 4096 ∣ size.toNat) {left : ℕ} (hleft : 0 < left → index virt lv + left = 512)
    (hl : 0 < left → l = pathTo virt lv) :
  Strewn virt phys (left * span lv - virt.toNat % span lv)
    (tablePlan sub lv l left virt phys size).1
  := by
  induction left generalizing virt phys size with
  | zero => apply strewn_nil
  | succ left ih =>
      by_cases hpos : size > 0
      · have hidx : index virt lv + (left + 1) = 512 := hleft (by omega)
        have hpath : l ++ [511 - left] = pathTo virt (lv + 1) := by
          rw [pathTo_succ, hl (by omega), show 511 - left = index virt lv by omega]
        have hsum := mod_add_iSz virt hlv
        have hmod := Nat.mod_lt virt.toNat (span_pos (lv + 1))
        have heq := span_eq hlv
        have hfirst : Strewn virt phys ((left + 1) * span lv - virt.toNat % span lv)
            (sub (l ++ [511 - left]) virt phys size).1 := by
          rw [hpath]
          apply (hsub hsize).mono
          rw [room_succ virt hlv, Nat.succ_mul]
          omega
        cases hgo : (sub (l ++ [511 - left]) virt phys size).2 with
        | false =>
            rw [tablePlan_stop hpos hgo]
            apply hfirst
        | true =>
            have hrest := @ih (virt + iSz virt (lv + 1)) (phys + iSz virt (lv + 1))
              (size - iSz virt (lv + 1)) (page_dvd_sub hsize (page_dvd_iSz virt hlv))
              (fun h => by rw [index_add_iSz hlv (by omega)]; omega)
              (fun h => by rw [pathTo_add_iSz hlv (by omega)]; apply hl (by omega))
            rw [tablePlan_go hpos hgo]
            intro d hd
            rcases List.mem_append.mp hd with hd | hd
            · apply hfirst d hd
            · apply hrest.shift (page_dvd_iSz virt hlv) _ d hd
              rw [toNat_add_mod _ _ (by omega), hsum, Nat.add_mod_left,
                Nat.mod_eq_of_lt (a := virt.toNat % span (lv + 1)) (by omega), Nat.succ_mul]
              omega
      · rw [eq_zero_of_not_pos hpos, tablePlan_of_zero]
        apply strewn_nil

/-- The pages of a request, from a table on. -/
theorem strewn_mapPlan {n : ℕ} (hn : n ≤ 3) (hsize : 4096 ∣ size.toNat) :
  Strewn virt phys (room virt (3 - n))
    (mapPlan hugepage (n + 1) (pathTo virt (3 - n)) virt phys size).1
  := by
  induction n generalizing virt phys size with
  | zero =>
      have hidx := index_lt virt (show 3 ≤ 3 by omega)
      rw [mapPlan, if_pos ⟨(mod_levels _ _).mpr hsize, rfl⟩, room_eq virt (by omega)]
      apply strewn_leafPlan (by omega) _ fun _ => rfl
      omega
  | succ n ih =>
      have hlv : 3 - (n + 1) = 2 - n := by omega
      have hidx := index_lt virt (show 2 - n ≤ 3 by omega)
      rw [mapPlan, hlv, room_eq virt (by omega)]
      split
      · apply strewn_leafPlan (by omega) (by omega) fun _ => rfl
      · apply strewn_tablePlan (by omega) _ hsize (by omega) fun _ => rfl
        intro virt phys size hsize
        rw [show 2 - n + 1 = 3 - n by omega]
        apply ih (by omega) hsize

/-! ### Across a boundary -/

/-- Where the entry after the one for `virt` begins. -/
def nextEntry (virt : U64) (lv : ℕ) : ℕ := virt.toNat - virt.toNat % span lv + span lv

/-- The pages after the first entry of a table are written from where the loop goes on. When one
of them is on the boundary of the next entry, the request begins on a boundary of the next
level. -/
theorem dvd_of_mem_tablePlan {sub : List ℕ → (virt phys size : U64) → List Page × Bool} {lv : ℕ}
    (hlv : lv < 3) (hbelow : ∀ l virt phys size, Below l (sub l virt phys size).1)
    (hsub : ∀ {virt phys size : U64}, 4096 ∣ size.toNat →
      Strewn virt phys (room virt (lv + 1)) (sub (pathTo virt (lv + 1)) virt phys size).1)
    (hsize : 4096 ∣ size.toNat) (hidx : index virt lv < 511) {d : Page}
    (hd : d ∈ (tablePlan sub lv (pathTo virt lv) (512 - index virt lv) virt phys size).1)
    (hnext : d.virt.toNat = nextEntry virt lv) :
  span (lv + 1) ∣ virt.toNat
  := by
  have hleft : 512 - index virt lv = 511 - index virt lv + 1 := by omega
  have hslot : 511 - (511 - index virt lv) = index virt lv := by omega
  have hmod := Nat.mod_lt virt.toNat (span_pos lv)
  have hmod' := Nat.mod_lt virt.toNat (span_pos (lv + 1))
  have hsum := mod_add_iSz virt hlv
  have heq := span_eq hlv
  have hle := Nat.mod_le virt.toNat (span lv)
  rw [nextEntry] at hnext
  rw [hleft] at hd
  by_cases hpos : size > 0
  · have hpath : pathTo virt lv ++ [511 - (511 - index virt lv)] = pathTo virt (lv + 1) := by
      rw [hslot, pathTo_succ]
    have hfirst : d ∉ (sub (pathTo virt (lv + 1)) virt phys size).1 := by
      intro hd
      obtain ⟨o, -, -, k, hk, -, -, hdpath⟩ := hsub hsize d hd
      obtain ⟨i, -, hpre⟩ := hbelow _ _ _ _ d hd
      have hinit : pathTo virt (lv + 1) <+: pathTo d.virt (k + 1) := by
        rw [← hdpath]
        apply (List.prefix_append _ _).trans hpre
      have hlen : lv + 1 ≤ k + 1 := by
        have := hinit.length_le
        rwa [length_pathTo, length_pathTo] at this
      have htake := List.prefix_iff_eq_take.mp hinit
      rw [length_pathTo, take_pathTo _ hlen, pathTo_succ_inj] at htake
      have hvirt : d.virt = virt + BitVec.ofNat 64 (span lv - virt.toNat % span lv) := by
        apply BitVec.eq_of_toNat_eq
        rw [hnext, BitVec.toNat_add, BitVec.toNat_ofNat]
        have := d.virt.isLt
        omega
      have hstep := @index_next virt (BitVec.ofNat 64 (span lv - virt.toNat % span lv)) lv
        (by omega) (by
          rw [BitVec.toNat_ofNat]
          apply Nat.mod_eq_of_lt
          have := d.virt.isLt
          omega) hidx
      rw [← hvirt] at hstep
      omega
    cases hgo : (sub (pathTo virt lv ++ [511 - (511 - index virt lv)]) virt phys size).2 with
    | false =>
        rw [tablePlan_stop hpos hgo, hpath] at hd
        apply absurd hd hfirst
    | true =>
        rw [tablePlan_go hpos hgo, hpath] at hd
        rcases List.mem_append.mp hd with hd | hd
        · apply absurd hd hfirst
        · have hrest := @strewn_tablePlan (virt + iSz virt (lv + 1)) (phys + iSz virt (lv + 1))
            (size - iSz virt (lv + 1)) (pathTo virt lv) sub lv hlv hsub
            (page_dvd_sub hsize (page_dvd_iSz virt hlv)) (511 - index virt lv)
            (fun _ => by rw [index_add_iSz hlv hidx]; omega)
            (fun _ => by rw [pathTo_add_iSz hlv hidx])
          obtain ⟨o, ho, -, -, -, hvirt, -⟩ := hrest d hd
          have hspan : span lv ≤ span 0 :=
            Nat.le_of_dvd (span_pos 0) (span_dvd_span (by omega) (by omega))
          have hmul : (511 - index virt lv) * span lv ≤ 511 * span 0 := by
            apply Nat.mul_le_mul (by omega) hspan
          rw [hvirt, BitVec.toNat_add, BitVec.toNat_add, BitVec.toNat_ofNat] at hnext
          rw [span_zero] at hmul
          omega
  · rw [eq_zero_of_not_pos hpos, tablePlan_of_zero] at hd
    cases hd

/-! ### Pages with the right addresses -/

/-- A page of a request gives an address of it the access that was asked for. -/
structure Serves (perms : BitVec 32) (virt phys : U64) (o : ℕ) (d : Page) : Prop where
  below : d.path <+: pathTo (virt + BitVec.ofNat 64 o) 4
  access : leafAccess (virt + BitVec.ofNat 64 o) d.level (d.entry perms)
    = wanted phys perms (BitVec.ofNat 64 o)

/-- The page is at the offset `x`, on a boundary of its size, and its physical address is in the
address field of its entry. -/
structure Aligned (virt : U64) (d : Page) (lv x : ℕ) : Prop where
  le : lv ≤ 3
  path : d.path = pathTo d.virt (lv + 1)
  bound : low virt + x < 2 ^ 48
  dvd : span lv ∣ low virt + x
  virt : d.virt = virt + BitVec.ofNat 64 x
  phys : d.phys.toNat < 2 ^ 52

/-- A page that serves an address of the request is where it should be. -/
theorem Strewn.aligned {perms : BitVec 32} {ds : List Page}
    (h : Strewn virt phys (room virt 0) ds) (hphys : 4096 ∣ phys.toNat) {d : Page} (hd : d ∈ ds)
    {o : ℕ} (ho : low virt + o < 2 ^ 48) (hserves : Serves perms virt phys o d) :
  ∃ lv x, Aligned virt d lv x ∧ (low virt + x) / span lv = (low virt + o) / span lv
  := by
  obtain ⟨x, hx, hdvd, lv, hlv, hvirt, hdphys, hpath⟩ := h d hd
  have hlevel : d.level = lv := by
    rw [Page.level, hpath, length_pathTo, Nat.add_sub_cancel]
  have hroom : low virt + x < 2 ^ 48 := by
    rw [room, span_zero] at hx
    rw [low]
    omega
  have hsame : low d.virt / span lv = (low virt + o) / span lv := by
    have hbelow := hserves.below
    rwa [hpath, pathTo_prefix_iff _ _ hlv, low_add ho] at hbelow
  have haccess := congrArg Access.phys hserves.access
  rw [Page.entry, hlevel] at haccess
  change (leafEntry d.phys perms lv &&& addrMask)
    + (virt + BitVec.ofNat 64 o) % levels lv = phys + BitVec.ofNat 64 o at haccess
  have haddr := congrArg BitVec.toNat haccess
  have hdlow : low d.virt = low virt + x := by
    rw [hvirt, low_add hroom]
  have hmod : (virt + BitVec.ofNat 64 o).toNat % span lv = (low virt + o) % span lv := by
    rw [← low_add ho, low, Nat.mod_mod_of_dvd]
    have hspan : span 0 ∣ 2 ^ 48 := by decide
    apply (span_dvd_span (Nat.zero_le _) hlv).trans hspan
  rw [leafEntry_addr, BitVec.toNat_add, toNat_addrMask, BitVec.toNat_umod, toNat_levels, hmod,
    BitVec.toNat_add, BitVec.toNat_ofNat] at haddr
  rw [hdlow] at hsame
  have hsplit := Nat.div_add_mod (low virt + o) (span lv)
  have hsplit' := Nat.div_add_mod (low virt + x) (span lv)
  rw [hsame] at hsplit'
  have hlt := Nat.mod_lt (low virt + o) (span_pos lv)
  have hlt' := Nat.mod_lt (low virt + x) (span_pos lv)
  have hspan : span lv ≤ span 0 :=
    Nat.le_of_dvd (span_pos 0) (span_dvd_span (Nat.zero_le _) hlv)
  have hpage : d.phys.toNat = (phys.toNat + x) % 2 ^ 64 := by
    rw [hdphys, BitVec.toNat_add, BitVec.toNat_ofNat]
    omega
  rw [span_zero] at hspan
  -- what the address field leaves out of the address is the offset of the page in its entry
  have hrest : (low virt + x) % span lv = 0 ∧ d.phys.toNat < 2 ^ 52 := by
    omega
  use lv, x, ⟨hlv, hpath, hroom, Nat.dvd_of_mod_eq_zero hrest.1, hvirt, hrest.2⟩, hsame

/-- The first page of a request is of the first level that has pages of its own and divides the
size. -/
theorem head_mapPlan {n : ℕ} (hn : n ≤ 3) (hsize : 4096 ∣ size.toNat) (hpos : size > 0) :
  ∃ lv ≤ 3, ⟨pathTo virt (lv + 1), virt, phys⟩
      ∈ (mapPlan hugepage (n + 1) (pathTo virt (3 - n)) virt phys size).1
    ∧ largepageAvail hugepage lv = true ∧ span lv ∣ size.toNat
    ∧ ∀ k, 3 - n ≤ k → k < lv → ¬ (largepageAvail hugepage k = true ∧ span k ∣ size.toNat)
  := by
  have hslot {k : ℕ} (hk : k ≤ 3) : 512 - index virt k = 511 - index virt k + 1
      ∧ 511 - (511 - index virt k) = index virt k := by
    have := index_lt virt hk
    omega
  have hleaf {k : ℕ} (hk : k ≤ 3) : ⟨pathTo virt (k + 1), virt, phys⟩
      ∈ (leafPlan k (pathTo virt k) (512 - index virt k) virt phys size).1 := by
    rw [(hslot hk).1, leafPlan_succ hpos, (hslot hk).2, pathTo_succ]
    apply List.mem_cons_self
  induction n with
  | zero =>
      use 3, le_refl 3
      rw [mapPlan, if_pos ⟨(mod_levels _ _).mpr hsize, rfl⟩]
      use hleaf (le_refl 3), rfl, hsize
      intro k hk hlt
      omega
  | succ n ih =>
      have hlv : 3 - (n + 1) = 2 - n := by omega
      rw [mapPlan, hlv]
      split
      next hdvd =>
        use 2 - n, by omega, hleaf (by omega), hdvd.2, (mod_levels _ _).mp hdvd.1
        intro k hk hlt
        omega
      next hdvd =>
        obtain ⟨lv, hle, hmem, havail, hsize', hfirst⟩ := ih (by omega)
        use lv, hle
        refine ⟨?_, havail, hsize', ?_⟩
        · rw [(hslot (by omega)).1]
          apply (tablePlan_head hpos).subset
          rw [(hslot (by omega)).2, ← pathTo_succ, show 2 - n + 1 = 3 - n by omega]
          apply hmem
        · intro k hk hlt
          rcases Nat.eq_or_lt_of_le hk with rfl | hk
          · rintro ⟨havail', hspan⟩
            apply hdvd ⟨(mod_levels _ _).mpr hspan, havail'⟩
          · apply hfirst k (by omega) hlt

/-- The pages of the first entry of a table. -/
theorem mem_of_mem_tablePlan {sub : List ℕ → (virt phys size : U64) → List Page × Bool} {lv : ℕ}
    (hlv : lv ≤ 3) (hbelow : ∀ l virt phys size, Below l (sub l virt phys size).1)
    (hsub : ∀ l virt phys size, (sub l virt phys size).1.Pairwise Apart) {d : Page}
    (hd : d ∈ (tablePlan sub lv (pathTo virt lv) (512 - index virt lv) virt phys size).1)
    (hpath : pathTo virt (lv + 1) <+: d.path) :
  d ∈ (sub (pathTo virt (lv + 1)) virt phys size).1
  := by
  have hidx := index_lt virt hlv
  have hleft : 512 - index virt lv = 511 - index virt lv + 1 := by omega
  have hslot : 511 - (511 - index virt lv) = index virt lv := by omega
  rw [hleft] at hd
  by_cases hpos : size > 0
  · cases hgo : (sub (pathTo virt lv ++ [511 - (511 - index virt lv)]) virt phys size).2 with
    | false =>
        rwa [tablePlan_stop hpos hgo, hslot, ← pathTo_succ] at hd
    | true =>
        rw [tablePlan_go hpos hgo, hslot, ← pathTo_succ] at hd
        rcases List.mem_append.mp hd with hd | hd
        · apply hd
        · obtain ⟨hfrom, -⟩ := pairwise_tablePlan hbelow hsub lv (pathTo virt lv)
            (show 511 - index virt lv ≤ 512 by omega) (virt + iSz virt (lv + 1))
            (phys + iSz virt (lv + 1)) (size - iSz virt (lv + 1))
          obtain ⟨j, hj, hpre⟩ := hfrom d hd
          rw [pathTo_succ] at hpath
          apply absurd (List.prefix_refl _) (apart_of_lt _ hpath hpre).1
          omega
  · rw [eq_zero_of_not_pos hpos, tablePlan_of_zero] at hd
    cases hd

/-! ### Requests that are served -/

section Served

variable {perms : BitVec 32}

instance : Std.Symm Apart where
  symm _ _ h := ⟨h.2, h.1⟩

/-- Each address of a request is served by one of its pages. -/
def Served (perms : BitVec 32) (hugepage : Bool) (virt phys size : U64) : Prop :=
  ∀ o < size.toNat, ∃ d ∈ (mapPlan hugepage 4 [] virt phys size).1,
    Serves perms virt phys o d ∧ largepageAvail hugepage d.level = true

variable (hphys : 4096 ∣ phys.toNat) (hsize : 4096 ∣ size.toNat)
  (hlow : low virt + size.toNat ≤ 2 ^ 48) (hserved : Served perms hugepage virt phys size)

include hphys hsize hlow hserved

/-- The page that serves an address on a boundary of 1 GiB begins there. -/
theorem Served.page {o : ℕ} (ho : o < size.toNat) :
  ∃ d ∈ (mapPlan hugepage 4 [] virt phys size).1, ∃ lv x, Aligned virt d lv x
    ∧ (low virt + x) / span lv = (low virt + o) / span lv ∧ 1 ≤ lv
    ∧ d.path <+: pathTo (virt + BitVec.ofNat 64 o) 4
  := by
  obtain ⟨d, hd, hserves, havail⟩ := hserved o ho
  have hstrewn : Strewn virt phys (room virt 0) (mapPlan hugepage 4 [] virt phys size).1 :=
    strewn_mapPlan (n := 3) (le_refl 3) hsize
  obtain ⟨lv, x, haligned, hsame⟩ := hstrewn.aligned hphys hd (by omega) hserves
  use d, hd, lv, x, haligned, hsame
  rw [Page.level, haligned.path, length_pathTo, Nat.add_sub_cancel] at havail
  constructor
  · by_contra hlv
    obtain rfl : lv = 0 := by omega
    cases havail
  · apply hserves.below

/-- The first page of a request that is served is on a boundary of its size. -/
theorem Served.head (hpos : size > 0) {lv : ℕ} (hlv : lv ≤ 3)
    (hmem : ⟨pathTo virt (lv + 1), virt, phys⟩ ∈ (mapPlan hugepage 4 [] virt phys size).1) :
  span lv ∣ virt.toNat
  := by
  obtain ⟨d, hd, k, x, haligned, -, -, hbelow⟩ := hserved.page hphys hsize hlow (o := 0) hpos
  rw [BitVec.add_zero] at hbelow
  have hsame : d = ⟨pathTo virt (lv + 1), virt, phys⟩ := by
    by_contra hne
    have hapart := (pairwise_mapPlan hugepage 4 [] virt phys size).forall hd hmem hne
    apply hapart.not_both hbelow
    apply pathTo_initial virt (show lv + 1 ≤ 4 by omega)
  have hk := congrArg List.length haligned.path
  rw [hsame, length_pathTo, length_pathTo] at hk
  obtain rfl : lv = k := by omega
  have hx := congrArg low haligned.virt
  rw [low_add haligned.bound, hsame] at hx
  rw [← span_dvd_low hlv, hx]
  apply haligned.dvd

/-- A request that is served begins on a boundary of its first level. -/
theorem Served.dvd (hpos : size > 0) {lv : ℕ} (hlv : 1 ≤ lv) (hlv' : lv ≤ 2)
    (hdvd : span lv ∣ size.toNat) (havail : largepageAvail hugepage lv = true)
    (hfirst : ∀ k, 1 ≤ k → k < lv → ¬ (largepageAvail hugepage k = true ∧ span k ∣ size.toNat)) :
  span lv ∣ virt.toNat
  := by
  have hhead : ∃ k ≤ 3, ⟨pathTo virt (k + 1), virt, phys⟩
        ∈ (mapPlan hugepage 4 [] virt phys size).1
      ∧ largepageAvail hugepage k = true ∧ span k ∣ size.toNat
      ∧ ∀ j, 0 ≤ j → j < k → ¬ (largepageAvail hugepage j = true ∧ span j ∣ size.toNat) :=
    head_mapPlan (n := 3) (le_refl 3) hsize hpos
  obtain ⟨k, hk, hmem, havail', hdvd', hfirst'⟩ := hhead
  obtain rfl : k = lv := by
    rcases lt_trichotomy k lv with hlt | heq | hgt
    · cases k with
      | zero => cases havail'
      | succ k => apply absurd ⟨havail', hdvd'⟩ (hfirst (k + 1) (by omega) hlt)
    · apply heq
    · apply absurd ⟨havail, hdvd⟩ (hfirst' lv (Nat.zero_le _) hgt)
  apply hserved.head hphys hsize hlow hpos hk hmem

/-- The page at the next boundary of a level, where the request goes beyond it. -/
theorem Served.next (hvirt : virt.toNat + size.toNat ≤ 2 ^ 64) {lv : ℕ} (hlv : lv ≤ 1)
    (hcross : span lv < virt.toNat % span lv + size.toNat) :
  ∃ d ∈ (mapPlan hugepage 4 [] virt phys size).1, d.virt.toNat = nextEntry virt lv
    ∧ ∃ k, 1 ≤ k ∧ d.path = pathTo d.virt (k + 1)
  := by
  have hmod := Nat.mod_lt virt.toNat (span_pos lv)
  have ho : span lv - virt.toNat % span lv < size.toNat := by omega
  obtain ⟨d, hd, k, x, haligned, hsame, hk, -⟩ := hserved.page hphys hsize hlow ho
  use d, hd
  have hdvd : span k ∣ low virt + (span lv - virt.toNat % span lv) := by
    have hoff : low virt % span lv = virt.toNat % span lv := by
      rw [low, Nat.mod_mod_of_dvd]
      have hspan : span 0 ∣ 2 ^ 48 := by decide
      apply (span_dvd_span (Nat.zero_le _) (by omega)).trans hspan
    apply (span_dvd_span (show lv ≤ k by omega) haligned.le).trans
    rw [← Nat.div_add_mod (low virt) (span lv), hoff, Nat.add_assoc, Nat.add_sub_cancel' hmod.le]
    apply Nat.dvd_add (dvd_mul_right _ _) (dvd_refl _)
  obtain rfl : x = span lv - virt.toNat % span lv := by
    have := Nat.div_mul_cancel haligned.dvd
    have := Nat.div_mul_cancel hdvd
    rw [hsame] at *
    omega
  constructor
  · rw [haligned.virt, BitVec.toNat_add, BitVec.toNat_ofNat, nextEntry]
    have := Nat.mod_le virt.toNat (span lv)
    omega
  · use k, hk, haligned.path

/-- A request that goes beyond a boundary of 512 GiB begins on one of 1 GiB. -/
theorem Served.cross_zero (hvirt : virt.toNat + size.toNat ≤ 2 ^ 64)
    (hcross : span 0 < virt.toNat % span 0 + size.toNat) :
  span 1 ∣ virt.toNat
  := by
  obtain ⟨d, hd, hnext, -⟩ :=
    hserved.next hphys hsize hlow hvirt (Nat.zero_le 1) hcross
  have hidx : index virt 0 < 511 := by
    rw [index_eq_low virt (by decide), span_zero]
    rw [span_zero] at hcross
    rw [low] at *
    omega
  rw [mapPlan, if_neg fun h => by cases h.2] at hd
  apply dvd_of_mem_tablePlan (by decide) (below_mapPlan hugepage 3) _ hsize hidx hd hnext
  intro virt phys size hsize
  apply strewn_mapPlan (n := 2) (by decide) hsize

/-- A request that goes beyond a boundary of 1 GiB begins on one of 2 MiB. -/
theorem Served.cross_one (hvirt : virt.toNat + size.toNat ≤ 2 ^ 64) (hpos : size > 0)
    (hcross : span 1 < virt.toNat % span 1 + size.toNat) :
  span 2 ∣ virt.toNat
  := by
  have hdvd : span 2 ∣ span 1 := by decide
  have hsub : ∀ {virt phys size : U64}, 4096 ∣ size.toNat → Strewn virt phys (room virt 2)
      (mapPlan hugepage 2 (pathTo virt 2) virt phys size).1 := by
    intro virt phys size hsize
    apply strewn_mapPlan (n := 1) (by decide) hsize
  by_cases hidx : index virt 1 < 511
  · obtain ⟨d, hd, hnext, k, hk, hpath⟩ :=
      hserved.next hphys hsize hlow hvirt (le_refl 1) hcross
    rw [mapPlan, if_neg fun h => by cases h.2] at hd
    have hpre : pathTo virt 1 <+: d.path := by
      rw [hpath, show pathTo virt 1 = pathTo d.virt 1 by
        rw [pathTo_eq_iff _ _ (by decide), low, low, hnext, nextEntry, span_zero, span_one]
        rw [index_eq virt (by decide), span_one] at hidx
        omega]
      apply pathTo_initial
      omega
    have hd' := mem_of_mem_tablePlan (by decide) (below_mapPlan hugepage 3)
      (pairwise_mapPlan hugepage 3) hd hpre
    rw [mapPlan] at hd'
    by_cases hleaf : size % levels 1 = 0 ∧ largepageAvail hugepage 1 = true
    · apply hdvd.trans
      apply hserved.dvd hphys hsize hlow hpos (le_refl 1) (by decide) _ hleaf.2
      · intro k hk hlt
        omega
      · apply (mod_levels _ _).mp hleaf.1
    · rw [if_neg hleaf] at hd'
      apply dvd_of_mem_tablePlan (by decide) (below_mapPlan hugepage 2) hsub hsize hidx hd' hnext
  · apply hdvd.trans
    apply hserved.cross_zero hphys hsize hlow hvirt
    have hidx' := index_lt virt (show 1 ≤ 3 by decide)
    rw [index_eq virt (by decide), span_one] at hidx hidx'
    rw [span_one] at hcross
    rw [span_zero]
    omega

/-- A request that is served fits. -/
theorem Served.fits (hvirt : virt.toNat + size.toNat ≤ 2 ^ 64) (hpos : size > 0) :
  Fits hugepage virt.toNat size.toNat
  := by
  constructor
  · intro hhuge hdvd
    apply hserved.dvd hphys hsize hlow hpos (le_refl 1) (by decide) hdvd hhuge
    intro k hk hlt
    omega
  · intro hnot hdvd
    apply hserved.dvd hphys hsize hlow hpos (by decide) (le_refl 2) hdvd rfl
    intro k hk hlt
    obtain rfl : k = 1 := by omega
    apply hnot
  · apply hserved.cross_one hphys hsize hlow hvirt hpos
  · apply hserved.cross_zero hphys hsize hlow hvirt

end Served

/-! ### The size of the pages -/

/-- The level of the pages for `m` bytes. -/
def pageLevel (hugepage : Bool) (m : ℕ) : ℕ :=
  if hugepage = true ∧ span 1 ∣ m then 1 else if span 2 ∣ m then 2 else 3

/-- `pageLevel`, level by level, with `n` levels from the tables below on. -/
def levelFrom (hugepage : Bool) : (n : ℕ) → (m : ℕ) → ℕ
  | 0, _ => 3
  | n + 1, m =>
      if largepageAvail hugepage (2 - n) = true ∧ span (2 - n) ∣ m then 2 - n
      else levelFrom hugepage n m

theorem levelFrom_three (hugepage : Bool) (m : ℕ) :
  levelFrom hugepage 3 m = pageLevel hugepage m
  := by
  simp [levelFrom, pageLevel, largepageAvail]

/-- Whole pages of the first level more or less change nothing. -/
theorem levelFrom_sub {n m x : ℕ} (hn : n ≤ 3) (hle : x ≤ m) (hx : span (3 - n) ∣ x) :
  levelFrom hugepage n (m - x) = levelFrom hugepage n m
  := by
  induction n with
  | zero => rfl
  | succ n ih =>
      have hlv : 3 - (n + 1) = 2 - n := by omega
      rw [hlv] at hx
      have hiff : span (2 - n) ∣ m - x ↔ span (2 - n) ∣ m := Nat.dvd_sub_iff_left hle hx
      simp only [levelFrom, hiff, ih (by omega) ((span_dvd_span (by omega) (by omega)).trans hx)]

theorem level_leafPlan (lv left : ℕ) (l : List ℕ) (virt phys size : U64) :
  ∀ d ∈ (leafPlan lv l left virt phys size).1, d.level = l.length
  := by
  induction left generalizing virt phys size with
  | zero =>
      rw [leafPlan]
      split
      · simp
      · simp
  | succ left ih =>
      by_cases hpos : size > 0
      · rw [leafPlan_succ hpos]
        intro d hd
        rcases List.mem_cons.mp hd with rfl | hd
        · simp [Page.level]
        · apply ih _ _ _ d hd
      · rw [eq_zero_of_not_pos hpos, leafPlan_of_zero]
        simp

theorem level_tablePlan {n : ℕ} (hn : n ≤ 2)
    (hsub : ∀ {virt phys size : U64}, 4096 ∣ virt.toNat → 4096 ∣ size.toNat →
      FitsFrom hugepage n virt.toNat size.toNat →
      ∀ d ∈ (mapPlan hugepage (n + 1) (pathTo virt (3 - n)) virt phys size).1,
        d.level = levelFrom hugepage n size.toNat)
    (hvirt : 4096 ∣ virt.toNat) (hsize : 4096 ∣ size.toNat) {left : ℕ}
    (hleft : 0 < left → index virt (2 - n) + left = 512) (hl : 0 < left → l = pathTo virt (2 - n))
    (hfits : 0 < left → FitsFrom hugepage n virt.toNat size.toNat)
    (hcross : 0 < left → span (2 - n) < virt.toNat % span (2 - n) + size.toNat →
      span (3 - n) ∣ virt.toNat) :
  ∀ d ∈ (tablePlan (mapPlan hugepage (n + 1)) (2 - n) l left virt phys size).1,
    d.level = levelFrom hugepage n size.toNat
  := by
  have hn' : 3 - n = 2 - n + 1 := by omega
  induction left generalizing virt phys size with
  | zero =>
      intro d hd
      cases hd
  | succ left ih =>
      by_cases hpos : size > 0
      · have hidx : index virt (2 - n) + (left + 1) = 512 := hleft (by omega)
        have hroom : room virt (3 - n) = span (2 - n) - virt.toNat % span (2 - n) := by
          rw [hn', room_succ virt (by omega)]
        have hrem : virt.toNat % span (2 - n) < span (2 - n) := Nat.mod_lt _ (span_pos _)
        have hpath : l ++ [511 - left] = pathTo virt (3 - n) := by
          rw [hn', pathTo_succ, hl (by omega), show 511 - left = index virt (2 - n) by omega]
        have hfirst := @hsub virt phys size hvirt hsize (hfits (by omega))
        have htiles := @tiles_mapPlan hugepage n (by omega) virt phys size hvirt hsize hpos
          (hfits (by omega))
        rw [← hpath] at hfirst htiles
        cases hgo : (mapPlan hugepage (n + 1) (l ++ [511 - left]) virt phys size).2 with
        | false =>
            rw [tablePlan_stop hpos hgo]
            apply hfirst
        | true =>
            have hlt := htiles.2.mp hgo
            have hdvd : span (3 - n) ∣ virt.toNat := hcross (by omega) (by omega)
            rw [hn'] at hdvd
            have hnext := toNat_iSz_next (by omega) hdvd
            have hsub' : (size - iSz virt (2 - n + 1)).toNat
                = size.toNat - (iSz virt (2 - n + 1)).toNat := by
              rw [BitVec.toNat_sub_of_le]
              rw [BitVec.le_def]
              omega
            have hvirt' := dvd_next (by omega) hnext
            have hrest := @ih (virt + iSz virt (2 - n + 1)) (phys + iSz virt (2 - n + 1))
              (size - iSz virt (2 - n + 1)) ((page_dvd_span _).trans hvirt')
              (page_dvd_sub hsize (page_dvd_iSz virt (by omega)))
              (fun h => by rw [index_next (by omega) hnext (by omega)]; omega)
              (fun h => by rw [pathTo_next (by omega) hnext (by omega)]; apply hl (by omega))
              (fun _ => fitsFrom_of_dvd hn _ hvirt')
              (fun _ _ => (span_dvd_span (by omega) (by omega)).trans hvirt')
            have hsame : levelFrom hugepage n (size - iSz virt (2 - n + 1)).toNat
                = levelFrom hugepage n size.toNat := by
              rw [hsub']
              apply levelFrom_sub (by omega) (by omega)
              rw [hn', toNat_iSz virt (by omega) (by omega)]
              apply dvd_mul_left
            rw [hsame] at hrest
            rw [tablePlan_go hpos hgo]
            intro d hd
            rcases List.mem_append.mp hd with hd | hd
            · apply hfirst d hd
            · apply hrest d hd
      · rw [eq_zero_of_not_pos hpos, tablePlan_of_zero]
        intro d hd
        cases hd

/-- All pages of a request that fits are of one size. -/
theorem level_mapPlan {n : ℕ} (hn : n ≤ 3) (hvirt : 4096 ∣ virt.toNat)
    (hsize : 4096 ∣ size.toNat) (hfits : FitsFrom hugepage n virt.toNat size.toNat) :
  ∀ d ∈ (mapPlan hugepage (n + 1) (pathTo virt (3 - n)) virt phys size).1,
    d.level = levelFrom hugepage n size.toNat
  := by
  induction n generalizing virt phys size with
  | zero =>
      rw [mapPlan, if_pos ⟨(mod_levels _ _).mpr hsize, rfl⟩]
      intro d hd
      rw [level_leafPlan _ _ _ _ _ _ d hd, length_pathTo, levelFrom]
  | succ n ih =>
      have hlv : 3 - (n + 1) = 2 - n := by omega
      rw [FitsFrom] at hfits
      rw [mapPlan, hlv, levelFrom]
      by_cases hleaf : size % levels (2 - n) = 0 ∧ largepageAvail hugepage (2 - n) = true
      · rw [if_pos hleaf, if_pos ⟨hleaf.2, (mod_levels _ _).mp hleaf.1⟩]
        intro d hd
        rw [level_leafPlan _ _ _ _ _ _ d hd, length_pathTo]
      · have hnot : ¬ (largepageAvail hugepage (2 - n) = true ∧ span (2 - n) ∣ size.toNat) :=
          fun h => hleaf ⟨(mod_levels _ _).mpr h.2, h.1⟩
        rw [if_neg hnot] at hfits
        have hidx := index_lt virt (show 2 - n ≤ 3 by omega)
        rw [if_neg hleaf, if_neg hnot]
        apply level_tablePlan (by omega) _ hvirt hsize (by omega) (fun _ => rfl)
          (fun _ => hfits.1) (fun _ => hfits.2)
        intro virt phys size hvirt hsize hfits
        apply ih (by omega) hvirt hsize hfits

end VirtMem
