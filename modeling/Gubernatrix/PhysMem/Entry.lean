import Gubernatrix.Types
import Mathlib.Data.List.Basic

/-!
# Entries of the free queue

An entry of the free queue packs a run of free pages into one word: the page number of the
first page from bit 20 on and, below it, the number of pages minus one. `entryPages` is the
list of page numbers that an entry describes.
-/

namespace PhysMem

/-- `BTM_LEVEL`, the size of a page. -/
def btmLevel : U64 := kib 4

/-- `MAX_ENTRIES`, the largest number of pages of one entry. -/
def maxEntries : ℕ := 1 <<< (12 + 8)

/-- `BUILD_ADDR`. -/
def buildAddr (addr : U64) : U64 := (addr &&& ~~~(btmLevel - 1)) <<< 8

/-- `BUILD_PAGES`. -/
def buildPages (pages : U64) : U64 := (pages - 1) &&& (BitVec.ofNat 64 maxEntries - 1)

/-- `BUILD_ENTRY`. -/
def buildEntry (addr pages : U64) : U64 := buildAddr addr ||| buildPages pages

/-- `GET_ADDR`. -/
def getAddr (e : U64) : U64 := (e >>> 8) &&& ~~~(btmLevel - 1)

/-- `GET_PG_CNT`. -/
def getPgCnt (e : U64) : U64 := (e &&& (BitVec.ofNat 64 maxEntries - 1)) + 1

/-- The numbers of the pages that an entry describes. -/
def entryPages (e : U64) : List ℕ :=
  List.range' ((getAddr e).toNat / 4096) (getPgCnt e).toNat

/-! ### Fields of a word -/

/-- Clearing the page offset rounds down to a page boundary. -/
theorem toNat_and_not_page (x : U64) :
  (x &&& ~~~(btmLevel - 1)).toNat = x.toNat / 4096 * 4096
  := by
  have hmask : (~~~(btmLevel - 1) : U64).toNat = (2 ^ 52 - 1) * 2 ^ 12 := by decide
  have hx := x.isLt
  rw [BitVec.toNat_and, hmask, Bits.and_field]
  omega

theorem toNat_and_count (x : U64) :
  (x &&& (BitVec.ofNat 64 maxEntries - 1)).toNat = x.toNat % 2 ^ 20
  := by
  have hmask : (BitVec.ofNat 64 maxEntries - 1 : U64).toNat = 2 ^ 20 - 1 := by decide
  rw [BitVec.toNat_and, hmask, Bits.and_low]

theorem toNat_getAddr (e : U64) :
  (getAddr e).toNat = e.toNat / 2 ^ 20 * 4096
  := by
  rw [getAddr, toNat_and_not_page, BitVec.toNat_ushiftRight, Nat.shiftRight_eq_div_pow,
    Nat.div_div_eq_div_mul]
  rfl

theorem toNat_getPgCnt (e : U64) :
  (getPgCnt e).toNat = e.toNat % 2 ^ 20 + 1
  := by
  rw [getPgCnt, BitVec.toNat_add, toNat_and_count, show (1 : U64).toNat = 1 from rfl]
  omega

theorem getAddr_lt (e : U64) :
  (getAddr e).toNat < 2 ^ 56
  := by
  rw [toNat_getAddr]
  have := e.isLt
  omega

theorem getAddr_mod (e : U64) :
  (getAddr e).toNat % 4096 = 0
  := by
  rw [toNat_getAddr]
  omega

theorem getPgCnt_pos (e : U64) :
  0 < (getPgCnt e).toNat
  := by
  rw [toNat_getPgCnt]
  omega

theorem getPgCnt_le (e : U64) :
  (getPgCnt e).toNat ≤ 2 ^ 20
  := by
  rw [toNat_getPgCnt]
  omega

/-- The word of an entry: the page number modulo `2 ^ 44` above, the count minus one below. -/
theorem toNat_buildEntry (addr pages : U64) :
  (buildEntry addr pages).toNat
    = addr.toNat / 4096 % 2 ^ 44 * 2 ^ 20 + (pages.toNat + (2 ^ 64 - 1)) % 2 ^ 20
  := by
  have haddr : (buildAddr addr).toNat = addr.toNat / 4096 % 2 ^ 44 * 2 ^ 20 := by
    rw [buildAddr, BitVec.toNat_shiftLeft, toNat_and_not_page, Nat.shiftLeft_eq]
    omega
  have hpages : (buildPages pages).toNat = (pages.toNat + (2 ^ 64 - 1)) % 2 ^ 20 := by
    rw [buildPages, toNat_and_count, BitVec.toNat_sub, show (1 : U64).toNat = 1 from rfl]
    omega
  rw [buildEntry, BitVec.toNat_or, haddr, hpages, Bits.or_low]
  omega

/-! ### An entry describes what it was built from -/

section Build

variable {addr pages : U64} (haddr : addr.toNat < 2 ^ 56) (hpos : 0 < pages.toNat)
  (hmax : pages.toNat ≤ 2 ^ 20)

include hpos hmax in
theorem toNat_getPgCnt_buildEntry :
  (getPgCnt (buildEntry addr pages)).toNat = pages.toNat
  := by
  rw [toNat_getPgCnt, toNat_buildEntry]
  omega

include hpos hmax in
/-- The page number is kept modulo `2 ^ 44`. -/
theorem entryPages_buildEntry_mod :
  entryPages (buildEntry addr pages) = List.range' (addr.toNat / 4096 % 2 ^ 44) pages.toNat
  := by
  rw [entryPages, toNat_getPgCnt_buildEntry hpos hmax, toNat_getAddr, toNat_buildEntry]
  congr 1
  omega

include haddr hpos hmax in
theorem entryPages_buildEntry :
  entryPages (buildEntry addr pages) = List.range' (addr.toNat / 4096) pages.toNat
  := by
  rw [entryPages_buildEntry_mod hpos hmax]
  congr 1
  omega

end Build

@[simp]
theorem entryPages_zero :
  entryPages 0 = [0]
  := rfl

theorem mem_entryPages {e : U64} {p : ℕ} :
  p ∈ entryPages e
    ↔ (getAddr e).toNat / 4096 ≤ p ∧ p < (getAddr e).toNat / 4096 + (getPgCnt e).toNat
  := by
  rw [entryPages, List.mem_range'_1]

end PhysMem
