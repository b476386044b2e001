import Gubernatrix.Interrupts.Stores

/-!
# The arrays of both models

`Acpi.acpiIntrInit` has lists for the arrays and numbers for the counts and the offsets. Where there
is room for the arrays and no offset can wrap around, it is what `acpi_intr_init` does: the lists
are the arrays as the four loops leave them.
-/

namespace Passes

open Ioapic (U32)
open Acpi (Byte LapicInfo EntryIsaovr Madt select selected withOverrides madtLapicEntryType
  madtIoapicEntryType madtIsaoverEntryType)

/-! ### The table -/

section Table

variable {t : Table}

/-- A table that does not end so close below 4 GiB that an offset could wrap around. -/
def Table.madt (t : Table) (short : t.len.toNat + 255 < 2 ^ 32) : Madt where
  length := t.length
  entries := t.entries
  short := short

variable (short : t.len.toNat + 255 < 2 ^ 32)

theorem entrySize_madt (i : ℕ) :
  (t.madt short).entrySize i = entryBytes t i
  := by
  have hzero : (t.entries (i + 1)).toNat = 0 ↔ t.entries (i + 1) = 0 :=
    (BitVec.toNat_eq (y := 0)).symm
  rw [Madt.entrySize, entryBytes, Table.madt]
  simp only [hzero]

theorem offsetsFrom_madt (n i : ℕ) :
  (t.madt short).offsetsFrom n i = offsetsFrom t n i
  := by
  induction n generalizing i with
  | zero => rfl
  | succ n ih =>
      rw [Madt.offsetsFrom, offsetsFrom, entrySize_madt, ih]
      rfl

theorem offsets_madt :
  (t.madt short).offsets = offsets t
  := offsetsFrom_madt short _ 0

theorem u32_madt (i : ℕ) :
  (t.madt short).u32 i = t.u32 i
  := by
  apply BitVec.eq_of_toNat_eq
  rw [Madt.u32, Table.u32, Table.u16, Table.u16, Table.madt]
  simp only [BitVec.toNat_append, Nat.shiftLeft_or_distrib, ← Nat.shiftLeft_add, Nat.or_assoc]

theorem isaovr_madt (i : ℕ) :
  (t.madt short).isaovr i = t.isaovr i
  := by
  rw [Madt.isaovr, Table.isaovr, u32_madt]
  rfl

/-- No offset wraps around. -/
theorem noWrap_of_short (short : t.len.toNat + 255 < 2 ^ 32) :
  NoWrap t
  := by
  intro i hi
  have hlt := lt_of_mem_offsetsFrom hi
  have hsize : entryBytes t i ≤ 255 := by
    rw [entryBytes]
    split
    · omega
    · have hbyte := (t.entries (i + 1)).isLt
      omega
  omega

end Table

/-! ### The arrays -/

section Arrays

variable {t : Table} {pos : U64} (short : t.len.toNat + 255 < 2 ^ 32)

/-- An IOAPIC, with the array of its overrides as a list. -/
def IoapicInfo.listed (info : IoapicInfo) : Acpi.IoapicInfo where
  ioApicId := info.ioApicId
  ioApicBaseAddr := info.ioApicBaseAddr
  globalSysIntBase := info.globalSysIntBase
  isaovrCnt := info.isaovrCnt.toNat
  isaovrIdx := info.isaovrIdx.toNat
  isaovrs := info.isaovrs.map fun a => (List.range a.count.toNat).map fun p => a.data p

theorem lapics_madt {lapicData : ℕ → LapicInfo}
    (h : ∀ (k i : ℕ), (ofType t madtLapicEntryType)[k]? = some i → lapicData k = t.lapic i) :
  (List.range (number t madtLapicEntryType)).map lapicData = (t.madt short).lapics
  := by
  rw [number, map_range_eq t.lapic h, Madt.lapics, offsets_madt]
  rfl

/-- The bases of the IOAPICs. -/
theorem bases_madt (hfits : Fits t pos) (junk : Junk) :
  (List.range (filled t pos junk).ioapicCnt.toNat).map
      (fun k => ((filled t pos junk).ioapicData k).globalSysIntBase)
    = (t.madt short).bases
  := by
  have hsaved := saved_allocated t pos junk
  rw [hsaved.ioapicCnt, (hfits.allocated junk).ioapicCnt, Int.toNat_natCast, number,
    map_range_eq (fun i => (t.ioapic i).globalSysIntBase), Madt.bases, Madt.ioapics, offsets_madt,
    List.map_map]
  · apply List.map_congr_left
    intro i _
    apply (u32_madt short (i + 8)).symm
  · intro k i hi
    rw [hsaved.ioapics.data k i hi]

/-- The overrides of an IOAPIC. -/
theorem selected_madt (hfits : Fits t pos) (junk : Junk) (k : ℕ) :
  selected (t.madt short).bases (t.madt short).overrides k
    = (ownedAt t (filled t pos junk) (offsets t) k).map t.isaovr
  := by
  have hisaovr : (t.madt short).isaovr = t.isaovr := funext (isaovr_madt short)
  rw [selected, Madt.overrides, List.filter_map, List.filter_filter, offsets_madt, hisaovr, ownedAt,
    ← bases_madt short hfits junk]
  congr 1
  apply List.filter_congr
  intro i _
  rw [Function.comp_apply, ← Bool.decide_and]
  apply decide_eq_decide.mpr
  apply and_comm

/-- What the four loops leave of an IOAPIC is the IOAPIC with its overrides. -/
theorem listed_finish {junk' : Acpi.Junk} {k i : ℕ} {v₀ v : Vars}
    (happlied : Applied t v₀ (offsets t) v) (hnumber : number t madtIsaoverEntryType < 2 ^ 31)
    (hk : k < v₀.ioapicCnt) (hdata : v₀.ioapicData k = t.ioapic i) :
  (v.ioapicData k).listed = withOverrides junk' (ownedAt t v₀ (offsets t) k).length
    ((ownedAt t v₀ (offsets t) k).map t.isaovr) ((t.madt short).ioapic i)
  := by
  have hbare := happlied.keeps.ioapicData k
  rw [hdata] at hbare
  have hcnt : (v.ioapicData k).isaovrCnt = (ownedAt t v₀ (offsets t) k).length := by
    rw [happlied.cnt k hk, toInt32_owned hnumber (List.prefix_refl _), length_ownedAt]
  have hidx : (v.ioapicData k).isaovrIdx = (ownedAt t v₀ (offsets t) k).length := by
    rw [happlied.idx k hk, toInt32_owned hnumber (List.prefix_refl _), length_ownedAt]
  have hnone := happlied.none_iff k hk
  rw [← length_ownedAt, List.length_eq_zero_iff] at hnone
  have hid : (v.ioapicData k).ioApicId = t.entries (i + 2) := congrArg IoapicInfo.ioApicId hbare
  have haddr : (v.ioapicData k).ioApicBaseAddr = t.u32 (i + 4) :=
    congrArg IoapicInfo.ioApicBaseAddr hbare
  have hbase : (v.ioapicData k).globalSysIntBase = t.u32 (i + 8) :=
    congrArg IoapicInfo.globalSysIntBase hbare
  rw [IoapicInfo.listed, withOverrides, Madt.ioapic, hid, haddr, hbase, hcnt, hidx, u32_madt,
    u32_madt, List.length_map, Nat.sub_self, List.replicate_zero, List.append_nil]
  dsimp only
  congr 1
  induction hsome : (v.ioapicData k).isaovrs with
  | none => rw [hnone.mp hsome, List.map_nil, if_pos rfl, Option.map_none]
  | some a =>
      have hne : ownedAt t v₀ (offsets t) k ≠ [] := by
        intro hnil
        rw [hnone.mpr hnil] at hsome
        cases hsome
      have hcount : a.count = (ownedAt t v₀ (offsets t) k).length := by
        rw [happlied.isaovrs k hk a hsome, toInt32_owned hnumber (List.prefix_refl _),
          length_ownedAt]
      rw [if_neg (by simpa using hne), Option.map_some, hcount, Int.toNat_natCast, List.map_map]
      apply congrArg some
      apply map_range_eq
      intro p i' hi'
      apply happlied.data k hk a hsome p i' hi'

/-- The IOAPICs of the table. -/
theorem finished_madt (hinside : Inside t) (hfits : Fits t pos) (junk : Junk)
    (junk' : Acpi.Junk) :
  (t.madt short).finished junk'
    = (List.range (number t madtIoapicEntryType)).map fun k =>
        ((finish t pos junk).ioapicData k).listed
  := by
  have hne : madtIsaoverEntryType ≠ madtIoapicEntryType := by decide
  have hsaved := saved_allocated t pos junk
  have hcnt : (filled t pos junk).ioapicCnt = number t madtIoapicEntryType := by
    rw [hsaved.ioapicCnt, (hfits.allocated junk).ioapicCnt]
  apply List.ext_getElem?
  intro k
  rw [Madt.finished, Acpi.getElem?_stored, selected_madt short hfits junk, Madt.ioapics,
    offsets_madt, List.length_map, List.getElem?_map, List.getElem?_map]
  by_cases hk : k < number t madtIoapicEntryType
  · have hi : (ofType t madtIoapicEntryType)[k]? = some (ofType t madtIoapicEntryType)[k] :=
      List.getElem?_eq_getElem hk
    have hi' : ((offsets t).filter ((t.madt short).type · = madtIoapicEntryType))[k]?
        = some (ofType t madtIoapicEntryType)[k] := hi
    rw [hi', List.getElem?_range hk, Option.map_some, Option.map_some, Option.map_some,
      listed_finish short (applied_finish hinside hfits junk) (number_lt hne hinside.length)
        (by rw [hcnt]; omega) (hsaved.ioapics.data k _ hi)]
  · have hnone : ((offsets t).filter ((t.madt short).type · = madtIoapicEntryType))[k]? = none :=
      List.getElem?_eq_none (not_lt.mp hk)
    rw [hnone, List.getElem?_eq_none (by rw [List.length_range]; omega)]
    rfl

/-- Where there is room for the arrays and no offset can wrap around, the lists are the arrays. -/
theorem acpiIntrInit_madt (hinside : Inside t) (hfits : Fits t pos) (junk : Junk)
    (junk' : Acpi.Junk) :
  ∃ n r, acpiIntrInit t pos junk n = some r
    ∧ Acpi.acpiIntrInit junk' (t.madt short)
      = some ((List.range r.vars.lapicCnt.toNat).map r.vars.lapicData,
        (List.range r.vars.ioapicCnt.toNat).map fun k => (r.vars.ioapicData k).listed)
  := by
  refine ⟨_, _, acpiIntrInit_eq (noWrap_of_short short) pos junk, ?_⟩
  have halloc := hfits.allocated junk
  have hsaved := saved_allocated t pos junk
  have hkeeps := keeps_finish t pos junk
  have hbases : (t.madt short).bases ≠ [] := by
    rw [Madt.bases, Madt.ioapics, offsets_madt, List.map_map]
    apply mt List.map_eq_nil_iff.mp hinside.ioapic
  have hlapicCnt : (finish t pos junk).lapicCnt.toNat = number t madtLapicEntryType := by
    rw [hkeeps.lapicCnt, hsaved.lapicCnt, halloc.lapicCnt, Int.toNat_natCast]
  have hioapicCnt : (finish t pos junk).ioapicCnt.toNat = number t madtIoapicEntryType := by
    rw [hkeeps.ioapicCnt, hsaved.ioapicCnt, halloc.ioapicCnt, Int.toNat_natCast]
  dsimp only
  rw [Acpi.acpiIntrInit_eq hbases, hlapicCnt, hioapicCnt, finished_madt short hinside hfits junk,
    lapics_madt short]
  intro k i hi
  rw [hkeeps.lapicData]
  apply hsaved.lapics.data k i hi

end Arrays

end Passes
