import Gubernatrix.VirtMem.Paging
import Gubernatrix.Lib.Radix

/-!
# Page table entries

The entries that the page tables hold: none, links to tables and leaves. `isLeaf` and `link`
read an entry as `vmem_virttophys_st` does; on the entries that `vmem_map_st` writes the
tests of `vmem_map_st` itself agree with them, but for a leaf with address zero.
-/

namespace VirtMem

open PhysMem

/-- The entry ends a walk at level `lv`. -/
def isLeaf (hugepage : Bool) (lv : ℕ) (e : U64) : Bool :=
  e &&& present ≠ 0 && (e &&& largepage ≠ 0 && largepageAvail hugepage lv || levels lv = kib 4)

/-- The address at which the page at `phys` is reached. -/
def reach (physMapSz phys : U64) : Option U64 :=
  directAddr physMapSz phys (kib 4) vmemFlagsCachewriteback

/-- The table that a walk goes on with after the entry at level `lv`. -/
def link (hugepage : Bool) (physMapSz : U64) (lv : ℕ) (e : U64) : Option TablePtr :=
  if e &&& present ≠ 0 && !isLeaf hugepage lv e then (reach physMapSz (e &&& addrMask)).map .page
  else none

/-- The entry that `vmem_map_st` writes for a table. -/
def linkEntry (a : U64) : U64 := a &&& addrMask ||| present ||| write ||| user

/-- The entry that `vmem_map_st` writes for a page. -/
def leafEntry (phys : U64) (perms : BitVec 32) (lv : ℕ) : U64 :=
  phys &&& addrMask ||| cFlags perms lv

/-- The address of a page other than the first, within the address field of an entry. -/
def IsPage (a : U64) : Prop := a.toNat % 4096 = 0 ∧ 0 < a.toNat ∧ a.toNat < 2 ^ 52

theorem exclusive_link (hugepage : Bool) (physMapSz : U64) :
  Radix.Exclusive (link hugepage physMapSz) (isLeaf hugepage)
  := by
  intro lv e h
  simp [link, h]

/-- Large pages are those above the last level. -/
theorem levels_ne {lv : ℕ} (hlv : lv < 3) :
  levels lv ≠ kib 4
  := by
  match lv, hlv with
  | 0, _ => decide
  | 1, _ => decide
  | 2, _ => decide

/-! ### The address field -/

theorem toNat_addrMask (x : U64) :
  (x &&& addrMask).toNat = x.toNat % 2 ^ 52 / 4096 * 4096
  := by
  have hmask : addrMask.toNat = (2 ^ 40 - 1) * 2 ^ 12 := by decide
  rw [BitVec.toNat_and, hmask, Bits.and_field]
  omega

theorem addrMask_of_isPage {a : U64} (h : IsPage a) :
  a &&& addrMask = a
  := by
  apply BitVec.eq_of_toNat_eq
  obtain ⟨halign, hpos, hlt⟩ := h
  rw [toNat_addrMask]
  omega

theorem IsPage.ne_zero {a : U64} (h : IsPage a) :
  a ≠ 0
  := by
  rintro rfl
  exact absurd h.2.1 (lt_irrefl _)

/-! ### Links -/

section Link

variable {a : U64}

theorem linkEntry_addr (h : IsPage a) :
  linkEntry a &&& addrMask = a
  := by
  have hflags : present &&& addrMask = 0 ∧ write &&& addrMask = 0 ∧ user &&& addrMask = 0 := by
    decide
  obtain ⟨hp, hw, hu⟩ := hflags
  simp [linkEntry, BitVec.and_or_distrib_right, hp, hw, hu, addrMask_of_isPage h]

/-- The bits of a link below the address. -/
theorem linkEntry_bit (a : U64) {x : U64} (hx : addrMask &&& x = 0) :
  linkEntry a &&& x = (present ||| write ||| user) &&& x
  := by
  simp [linkEntry, BitVec.and_or_distrib_right, BitVec.and_assoc, hx]

theorem linkEntry_present (a : U64) :
  linkEntry a &&& present ≠ 0
  := by
  rw [linkEntry_bit a (by decide)]
  decide

theorem linkEntry_largepage (a : U64) :
  linkEntry a &&& largepage = 0
  := by
  rw [linkEntry_bit a (by decide)]
  decide

theorem isLeaf_linkEntry (hugepage : Bool) {lv : ℕ} (hlv : lv < 3) (a : U64) :
  isLeaf hugepage lv (linkEntry a) = false
  := by
  rw [isLeaf, linkEntry_largepage, decide_eq_false (levels_ne hlv)]
  simp

theorem link_linkEntry (hugepage : Bool) (physMapSz : U64) {lv : ℕ} (hlv : lv < 3)
    (h : IsPage a) :
  link hugepage physMapSz lv (linkEntry a) = (reach physMapSz a).map .page
  := by
  rw [link, isLeaf_linkEntry hugepage hlv, linkEntry_addr h, if_pos (by
    simpa using linkEntry_present a)]

end Link

/-! ### Empty entries -/

theorem isLeaf_zero (hugepage : Bool) (lv : ℕ) :
  isLeaf hugepage lv 0 = false
  := by
  simp [isLeaf]

theorem link_zero (hugepage : Bool) (physMapSz : U64) (lv : ℕ) :
  link hugepage physMapSz lv 0 = none
  := by
  simp [link]

/-! ### Leaves -/

section Leaf

variable {phys : U64} {perms : BitVec 32} {lv : ℕ}

/-- `c_flags`, one flag after the other. -/
theorem cFlags_eq (perms : BitVec 32) (lv : ℕ) :
  cFlags perms lv = present
    ||| (if perms &&& vmemFlagsWrite ≠ 0 then write else 0)
    ||| (if ~~~perms &&& vmemFlagsExec ≠ 0 then noexec else 0)
    ||| (if perms &&& vmemFlagsCachewritethrough ≠ 0 then writethrough
        else if perms &&& vmemFlagsUncached ≠ 0 then cachedisable
        else if perms &&& vmemFlagsCachewritecomplete ≠ 0 then writecomplete else 0)
    ||| (if perms &&& vmemFlagsUser ≠ 0 then user else 0)
    ||| (if levels lv ≠ kib 4 then largepage else 0)
  := by
  unfold cFlags
  split_ifs <;> simp [writeback]

/-- What the flags have in common with a mask that they share only the bits in `x` with. -/
theorem cFlags_and (x : U64) :
  cFlags perms lv &&& x = (present &&& x)
    ||| (if perms &&& vmemFlagsWrite ≠ 0 then write &&& x else 0)
    ||| (if ~~~perms &&& vmemFlagsExec ≠ 0 then noexec &&& x else 0)
    ||| (if perms &&& vmemFlagsCachewritethrough ≠ 0 then writethrough &&& x
        else if perms &&& vmemFlagsUncached ≠ 0 then cachedisable &&& x
        else if perms &&& vmemFlagsCachewritecomplete ≠ 0 then writecomplete &&& x else 0)
    ||| (if perms &&& vmemFlagsUser ≠ 0 then user &&& x else 0)
    ||| (if levels lv ≠ kib 4 then largepage &&& x else 0)
  := by
  rw [cFlags_eq]
  have hzero : (0 : U64) &&& x = 0 := BitVec.zero_and
  simp only [BitVec.and_or_distrib_right, apply_ite (· &&& x), hzero]

theorem leafEntry_addr :
  leafEntry phys perms lv &&& addrMask = phys &&& addrMask
  := by
  have hflags : cFlags perms lv &&& addrMask = 0 := by
    rw [cFlags_and]
    have h : present &&& addrMask = 0 ∧ write &&& addrMask = 0 ∧ noexec &&& addrMask = 0
        ∧ writethrough &&& addrMask = 0 ∧ cachedisable &&& addrMask = 0
        ∧ writecomplete &&& addrMask = 0 ∧ user &&& addrMask = 0
        ∧ largepage &&& addrMask = 0 := by
      decide
    simp [h]
  simp [leafEntry, BitVec.and_or_distrib_right, hflags, BitVec.and_assoc]

/-- The flags of a leaf entry outside the address field. -/
theorem leafEntry_bit {x : U64} (hx : addrMask &&& x = 0) :
  leafEntry phys perms lv &&& x = cFlags perms lv &&& x
  := by
  simp [leafEntry, BitVec.and_or_distrib_right, BitVec.and_assoc, hx]

theorem leafEntry_present :
  leafEntry phys perms lv &&& present ≠ 0
  := by
  rw [leafEntry_bit (by decide), cFlags_and]
  have h : present &&& present = 1 ∧ write &&& present = 0 ∧ noexec &&& present = 0
      ∧ writethrough &&& present = 0 ∧ cachedisable &&& present = 0
      ∧ writecomplete &&& present = 0 ∧ user &&& present = 0 ∧ largepage &&& present = 0 := by
    decide
  simp [h]

theorem leafEntry_write :
  leafEntry phys perms lv &&& write ≠ 0 ↔ perms &&& vmemFlagsWrite ≠ 0
  := by
  rw [leafEntry_bit (by decide), cFlags_and]
  have h : present &&& write = 0 ∧ noexec &&& write = 0
      ∧ writethrough &&& write = 0 ∧ cachedisable &&& write = 0
      ∧ writecomplete &&& write = 0 ∧ user &&& write = 0 ∧ largepage &&& write = 0
      ∧ write ≠ 0#64 := by
    decide
  by_cases hp : perms &&& vmemFlagsWrite = 0 <;> simp [h, hp]

theorem leafEntry_user :
  leafEntry phys perms lv &&& user ≠ 0 ↔ perms &&& vmemFlagsUser ≠ 0
  := by
  rw [leafEntry_bit (by decide), cFlags_and]
  have h : present &&& user = 0 ∧ write &&& user = 0 ∧ noexec &&& user = 0
      ∧ writethrough &&& user = 0 ∧ cachedisable &&& user = 0
      ∧ writecomplete &&& user = 0 ∧ largepage &&& user = 0 ∧ user ≠ 0#64 := by
    decide
  by_cases hp : perms &&& vmemFlagsUser = 0 <;> simp [h, hp]

theorem leafEntry_largepage :
  leafEntry phys perms lv &&& largepage ≠ 0 ↔ levels lv ≠ kib 4
  := by
  rw [leafEntry_bit (by decide), cFlags_and]
  have h : present &&& largepage = 0 ∧ write &&& largepage = 0 ∧ noexec &&& largepage = 0
      ∧ writethrough &&& largepage = 0 ∧ cachedisable &&& largepage = 0
      ∧ writecomplete &&& largepage = 0 ∧ user &&& largepage = 0 ∧ largepage ≠ 0#64 := by
    decide
  by_cases hp : levels lv = kib 4 <;> simp [h, hp]

/-- `vmem_flags_exec` is a single bit. -/
theorem not_exec (perms : BitVec 32) :
  ~~~perms &&& vmemFlagsExec ≠ 0 ↔ perms &&& vmemFlagsExec = 0
  := by
  have hbit : vmemFlagsExec = BitVec.twoPow 32 1 := by decide
  have hne : BitVec.twoPow 32 1 ≠ 0 := by decide
  rw [hbit, BitVec.and_twoPow, BitVec.and_twoPow, BitVec.getLsbD_not]
  cases perms.getLsbD 1 with
  | false => simpa using hne
  | true => simpa using hne

theorem leafEntry_noexec :
  leafEntry phys perms lv &&& noexec ≠ 0 ↔ perms &&& vmemFlagsExec = 0
  := by
  rw [← not_exec, leafEntry_bit (by decide), cFlags_and]
  have h : present &&& noexec = 0 ∧ write &&& noexec = 0 ∧ writethrough &&& noexec = 0
      ∧ cachedisable &&& noexec = 0 ∧ writecomplete &&& noexec = 0 ∧ user &&& noexec = 0
      ∧ largepage &&& noexec = 0 ∧ noexec ≠ 0#64 := by
    decide
  by_cases hp : ~~~perms &&& vmemFlagsExec = 0 <;> simp [h, hp]

/-- Where large pages are there, the leaf entry of a level ends a walk. -/
theorem isLeaf_leafEntry {hugepage : Bool} (havail : largepageAvail hugepage lv = true) :
  isLeaf hugepage lv (leafEntry phys perms lv) = true
  := by
  rw [isLeaf, havail]
  by_cases hsize : levels lv = kib 4
  · simpa [hsize] using leafEntry_present
  · have : leafEntry phys perms lv &&& largepage ≠ 0 := leafEntry_largepage.mpr hsize
    simp only [Bool.and_true, Bool.and_eq_true, decide_eq_true_eq, Bool.or_eq_true]
    exact ⟨leafEntry_present, .inl this⟩

end Leaf

end VirtMem
