import Gubernatrix.VirtMem.Request
import Gubernatrix.VirtMem.Tiling

/-!
# Requests that are met

When the pages of a request tile it and nothing is in the way, `vmem_map` maps what was asked
for and nothing else.
-/

namespace VirtMem

open Program Radix PhysMem

/-- The canonical addresses that a top-level table is for. -/
def OfRoot : TablePtr → U64 → Prop
  | .kmem, a => 2 ^ 64 - 2 ^ 47 ≤ a.toNat
  | .vm _, a => a.toNat < 2 ^ 47
  | .page _, _ => False

/-- The access that a request asks for at the offset `o`. -/
def wanted (phys : U64) (perms : BitVec 32) (o : U64) : Access where
  phys := phys + o
  writable := perms &&& vmemFlagsWrite ≠ 0
  executable := perms &&& vmemFlagsExec ≠ 0
  userAccess := perms &&& vmemFlagsUser ≠ 0

/-- All pages that were handed out for tables are different, and the direct map reaches
them. -/
structure Supplied (s : Vmem) : Prop where
  fresh : FreshPages s.hist
  reached : ¬ Stranded s

/-- A request for whole pages within one half of the canonical addresses, as `vmem_map` gets
it for the top-level table `r`. -/
structure Proper (vm : Option ℕ) (r : TablePtr) (virt phys size : U64) : Prop where
  root : rootOf vm virt = some r
  virt_page : 4096 ∣ virt.toNat
  phys_page : 4096 ∣ phys.toNat
  size_page : 4096 ∣ size.toNat
  pos : 0 < size.toNat
  half : InHalf virt size

section Root

variable {r : TablePtr} {a : U64}

theorem OfRoot.mem (h : OfRoot r a) :
  r ∈ roots
  := by
  cases r with
  | kmem => exact root_kmem
  | vm id => exact root_vm id
  | page => exact h.elim

theorem OfRoot.inTable (h : OfRoot r a) :
  InTable r (index a 0)
  := by
  have ha := a.isLt
  have hidx := index_eq a (show 0 ≤ 3 by decide)
  rw [span_zero] at hidx
  cases r with
  | kmem =>
      unfold OfRoot at h
      change 256 ≤ index a 0 ∧ index a 0 < 512
      omega
  | vm id =>
      unfold OfRoot at h
      change index a 0 < 256
      omega
  | page => exact h.elim

/-- The addresses that a top-level table is for are told apart by what the tables look at. -/
theorem OfRoot.toNat_inj {b : U64} (h : OfRoot r a) (hb : OfRoot r b) (hlow : low a = low b) :
  a = b
  := by
  apply BitVec.eq_of_toNat_eq
  have ha' := a.isLt
  have hb' := b.isLt
  unfold low at hlow
  cases r with
  | kmem =>
      unfold OfRoot at h hb
      omega
  | vm id =>
      unfold OfRoot at h hb
      omega
  | page => exact h.elim

end Root

section Request

variable {vm : Option ℕ} {r : TablePtr} {virt phys size : U64}

theorem slt_zero_iff (virt : U64) :
  virt.slt 0 = true ↔ 2 ^ 63 ≤ virt.toNat
  := by
  have hzero : (0 : U64).toInt = 0 := rfl
  have := virt.isLt
  rw [BitVec.slt_iff_toInt_lt, hzero, BitVec.toInt_eq_toNat_cond]
  split
  · omega
  · omega

theorem Proper.low_le (h : Proper vm r virt phys size) :
  low virt + size.toNat ≤ 2 ^ 48
  := by
  have hpos := h.pos
  have := virt.isLt
  unfold low
  rcases h.half with hhalf | hhalf
  · omega
  · omega

/-- The addresses of a request are addresses of its top-level table. -/
theorem Proper.ofRoot (h : Proper vm r virt phys size) {o : ℕ} (ho : o < size.toNat) :
  OfRoot r (virt + BitVec.ofNat 64 o)
  := by
  have hroot := h.root
  have hlt := virt.isLt
  have hsum : (virt + BitVec.ofNat 64 o).toNat = virt.toNat + o := by
    rw [BitVec.toNat_add, BitVec.toNat_ofNat]
    rcases h.half with hhalf | hhalf
    · omega
    · omega
  unfold rootOf at hroot
  split at hroot
  next hneg =>
    rw [slt_zero_iff] at hneg
    obtain rfl := Option.some.inj hroot
    change 2 ^ 64 - 2 ^ 47 ≤ _
    rcases h.half with hhalf | hhalf
    · omega
    · omega
  next hpos =>
    rw [slt_zero_iff] at hpos
    obtain ⟨id, -, rfl⟩ := Option.map_eq_some_iff.mp hroot
    change _ < 2 ^ 47
    rcases h.half with hhalf | hhalf
    · omega
    · omega

end Request

/-! ### Tiled requests -/

section Tiled

variable {perms : BitVec 32} {core : ℕ} {s s' : Vmem} {vm : Option ℕ} {r : TablePtr}
  {virt phys size : U64} {ret : VmemErrs}

/-- The tree after a request that was met: its pages are found, and what was found elsewhere. -/
structure Met (perms : BitVec 32) (s : Vmem) (r : TablePtr) (ds : List Page) (s' : Vmem) :
    Prop where
  pages : ∀ d ∈ ds, ∀ p, d.path <+: p → s'.look r p = some (d.level, d.entry perms)
  others : ∀ p, (∀ d ∈ ds, ¬ d.path <+: p) → s'.look r p = s.look r p

theorem Proper.tiles (h : Proper vm r virt phys size)
    (hfits : Fits s.hugepage virt.toNat size.toNat) :
  Tiles s.hugepage virt phys size.toNat (pagesOf s virt phys size).1
    ∧ (pagesOf s virt phys size).2 = false
  := tiles_request h.virt_page h.size_page h.pos h.half hfits

/-- All pages of a tiled request have a place in its top-level table. -/
theorem Proper.not_outside (h : Proper vm r virt phys size) {ds : List Page}
    (htiles : Tiles s.hugepage virt phys size.toNat ds) :
  ¬ Outside r ds
  := by
  rintro ⟨d, hd, i, hpre, hin⟩
  obtain ⟨lv, o, htile⟩ := htiles.tile hd
  have hbound := htile.bound
  have hpos := span_pos lv
  have hroot := (h.ofRoot (o := o) (by omega)).inTable
  rw [← htile.virt] at hroot
  rw [htile.path] at hpre
  have hfirst := hpre.trans (pathTo_initial d.virt (show lv + 1 ≤ 4 by have := htile.le; omega))
  have : i = index d.virt 0 := by
    have h4 : pathTo d.virt 4 = [index d.virt 0, index d.virt 1, index d.virt 2, index d.virt 3] :=
      rfl
    rw [h4] at hfirst
    exact (List.cons_prefix_cons.mp hfirst).1
  rw [this] at hin
  exact hin hroot

/-- Where a tiled request is unmapped, its pages are free. -/
theorem Proper.free (h : Proper vm r virt phys size) (hwf : WfCore s)
    (hfree : ∀ o < size, s.walk 4 r (virt + o) = none) {ds : List Page}
    (htiles : Tiles s.hugepage virt phys size.toNat ds) {d : Page} (hd : d ∈ ds) :
  PageMap.Free (s.look r) d.path
  := by
  obtain ⟨lv, o, htile⟩ := htiles.tile hd
  have hbound := htile.bound
  have hr := rootOf_mem h.root
  rw [htile.path, hwf.free_iff hr _ htile.le]
  intro a ha
  -- an address in the page is in the request
  have hmod : d.virt.toNat % span lv = 0 := Nat.mod_eq_zero_of_dvd htile.dvd
  have ha' : a = d.virt + BitVec.ofNat 64 (a.toNat % span lv) := by
    have halt := a.isLt
    have hsplit := Nat.div_add_mod a.toNat (span lv)
    have hsplit' := Nat.div_add_mod d.virt.toNat (span lv)
    rw [← ha, hmod] at hsplit'
    apply BitVec.eq_of_toNat_eq
    rw [BitVec.toNat_add, BitVec.toNat_ofNat]
    omega
  have hx : o + a.toNat % span lv < size.toNat := by
    have := Nat.mod_lt a.toNat (span_pos lv)
    omega
  have hsum : a = virt + BitVec.ofNat 64 (o + a.toNat % span lv) := by
    rw [BitVec.ofNat_add, ← BitVec.add_assoc, ← htile.virt]
    exact ha'
  have hroot := h.ofRoot hx
  rw [← hsum] at hroot
  rw [← hwf.walk_eq_none hr hroot.inTable, hsum]
  apply hfree
  rw [BitVec.lt_def, BitVec.toNat_ofNat]
  have := size.isLt
  omega

/-- A request that fits, where nothing is mapped, is met. -/
theorem Wf.met (hwf : Wf s) (h : Proper vm r virt phys size)
    (hfree : ∀ o < size, s.walk 4 r (virt + o) = none)
    (hfits : Fits s.hugepage virt.toNat size.toNat)
    (hrequested : Requested perms core s r virt phys size ret s') :
  ret = .errNone ∧ Met perms s r (pagesOf s virt phys size).1 s'
  := by
  obtain ⟨htiles, hgoOn⟩ := h.tiles hfits
  obtain ⟨ok, hinstall, hret⟩ := hrequested.install
  obtain ⟨rfl, hpages, hothers⟩ := hinstall.of_free
    (fun d hd => h.free hwf.toWfCore hfree htiles hd) (pairwise_mapPlan _ _ _ _ _ _)
  rw [hgoOn] at hret
  exact ⟨hret, hpages, hothers⟩

/-- The addresses in a page of a request. -/
theorem Proper.prefix_iff (h : Proper vm r virt phys size) {d : Page} {lv o : ℕ}
    (htile : Tile s.hugepage virt phys size.toNat d lv o) {x : ℕ} (hx : x < size.toNat) :
  d.path <+: pathTo (virt + BitVec.ofNat 64 x) 4 ↔ o ≤ x ∧ x < o + span lv
  := by
  have hlow := h.low_le
  rw [htile.prefix_iff hlow, low_add (by omega)]
  omega

/-- The leaf of a page gives the access that was asked for, when the page has an address. -/
theorem leafAccess_tile (perms : BitVec 32) {m : ℕ} {d : Page} {lv o : ℕ}
    (htile : Tile s.hugepage virt phys m d lv o) (hvirt : 4096 ∣ virt.toNat)
    (hphys : 4096 ∣ phys.toNat) {x : ℕ} (hle : o ≤ x) (hlt : x < o + span lv)
    (haddr : d.phys.toNat < 2 ^ 52) :
  leafAccess (virt + BitVec.ofNat 64 x) lv (d.entry perms)
    = wanted phys perms (BitVec.ofNat 64 x)
  := by
  have hentry : d.entry perms = leafEntry d.phys perms lv := by
    rw [Page.entry, htile.level]
  have hoffset : (virt + BitVec.ofNat 64 x) % levels lv = BitVec.ofNat 64 (x - o) := by
    have hmove : virt + BitVec.ofNat 64 x = d.virt + BitVec.ofNat 64 (x - o) := by
      rw [htile.virt, BitVec.add_assoc, ← BitVec.ofNat_add, Nat.add_sub_cancel' hle]
    have hlt' : x - o < span lv := by omega
    rw [hmove]
    exact add_mod_levels htile.le htile.dvd hlt'
  have hpage : d.phys &&& addrMask = d.phys := by
    have hdvd := (page_dvd_span lv).trans htile.dvd
    have hdphys := htile.phys
    rw [htile.virt, BitVec.toNat_add, BitVec.toNat_ofNat] at hdvd
    apply BitVec.eq_of_toNat_eq
    rw [toNat_addrMask]
    rw [htile.phys, BitVec.toNat_add, BitVec.toNat_ofNat] at haddr ⊢
    omega
  have hsum : d.phys + BitVec.ofNat 64 (x - o) = phys + BitVec.ofNat 64 x := by
    rw [htile.phys, BitVec.add_assoc, ← BitVec.ofNat_add, Nat.add_sub_cancel' hle]
  have hw : (leafEntry d.phys perms lv &&& write ≠ 0) = (perms &&& vmemFlagsWrite ≠ 0) :=
    propext leafEntry_write
  have hu : (leafEntry d.phys perms lv &&& user ≠ 0) = (perms &&& vmemFlagsUser ≠ 0) :=
    propext leafEntry_user
  have hx : (leafEntry d.phys perms lv &&& noexec = 0) = (perms &&& vmemFlagsExec ≠ 0) :=
    propext (by rw [← not_iff_not, ← ne_eq, leafEntry_noexec, not_not])
  rw [hentry, leafAccess, wanted, leafEntry_addr, hpage, hoffset, hsum]
  simp only [hw, hu, hx]

/-- Where the pages of a request are found, its addresses give the access that was asked for. -/
theorem Proper.walk (hproper : Proper vm r virt phys size) (hwf' : WfCore s')
    (hpages : ∀ d ∈ (pagesOf s virt phys size).1, ∀ p, d.path <+: p →
      s'.look r p = some (d.level, d.entry perms))
    (htiles : Tiles s.hugepage virt phys size.toNat (pagesOf s virt phys size).1)
    (haddr : ∀ d ∈ (pagesOf s virt phys size).1, d.phys.toNat < 2 ^ 52) {o : U64} (ho : o < size) :
  s'.walk 4 r (virt + o) = some (wanted phys perms o)
  := by
  have hr := rootOf_mem hproper.root
  have hx : o.toNat < size.toNat := ho
  have hroot := hproper.ofRoot hx
  obtain ⟨d, hd, lv, x, htile, hle, hlt⟩ := htiles.cover hx
  have hpre := (hproper.prefix_iff htile hx).mpr ⟨hle, hlt⟩
  rw [BitVec.ofNat_toNat, BitVec.setWidth_eq] at hroot hpre
  have haccess := leafAccess_tile perms htile hproper.virt_page hproper.phys_page
    hle hlt (haddr d hd)
  rw [BitVec.ofNat_toNat, BitVec.setWidth_eq] at haccess
  rw [hwf'.walk_root hr hroot.inTable, hpages d hd _ hpre, Option.map_some, htile.level, haccess]

/-- After a request was met, the other addresses give the access that they gave before. -/
theorem Requested.walk_other (hrequested : Requested perms core s r virt phys size ret s')
    (hwf : WfCore s) (h : Met perms s r (pagesOf s virt phys size).1 s')
    (hproper : Proper vm r virt phys size)
    (htiles : Tiles s.hugepage virt phys size.toNat (pagesOf s virt phys size).1)
    {r' : TablePtr} {a : U64} (ha : OfRoot r' a) (hout : r' = r → ∀ o < size, a ≠ virt + o) :
  s'.walk 4 r' a = s.walk 4 r' a
  := by
  have hlook : s'.look r' (pathTo a 4) = s.look r' (pathTo a 4) := by
    by_cases hr : r' = r
    · subst hr
      apply h.others
      intro d hd hpre
      obtain ⟨lv, o, htile⟩ := htiles.tile hd
      have hlow := hproper.low_le
      have hbound := htile.bound
      rw [htile.prefix_iff hlow] at hpre
      have hx : low a - low virt < size.toNat := by omega
      apply hout rfl (BitVec.ofNat 64 (low a - low virt))
      · rw [BitVec.lt_def, BitVec.toNat_ofNat]
        omega
      · apply ha.toNat_inj (hproper.ofRoot hx)
        rw [low_add (by omega)]
        omega
    · rw [hrequested.other r' ha.mem hr]
  rw [hrequested.wf.walk_root ha.mem ha.inTable, hwf.walk_root ha.mem ha.inTable, hlook]

end Tiled

end VirtMem
