import Gubernatrix.Interrupts.Ioapic
import Mathlib.Data.List.Basic
import Mathlib.Data.List.Count
import Mathlib.Data.Finset.Max

/-!
# The MADT

`acpi_intr_init`, which goes through the entries of the MADT four times: it counts the LAPICs and
the IOAPICs, stores them, counts the ISA overrides of each IOAPIC, and stores them with the
IOAPIC. To find the IOAPIC of an override, it compares distances between interrupts with the
index of an IOAPIC.
-/

namespace Acpi

open Ioapic (U32 Owner)

/-- A byte. -/
abbrev Byte := BitVec 8

/-! ### The table -/

/-- The MADT: the length in its header, and the bytes from `entries` on. The table does not end
so close below 4 GiB that the offset of an entry could wrap around. -/
structure Madt where
  length : U32
  entries : ℕ → Byte
  short : (length - 8 - 36).toNat + 255 < 2 ^ 32

/-- `len` in `acpi_intr_init`. -/
def Madt.len (m : Madt) : ℕ := (m.length - 8 - 36).toNat

/-- The 16 bits at an offset. -/
def Madt.u16 (m : Madt) (i : ℕ) : BitVec 16 := m.entries (i + 1) ++ m.entries i

/-- The 32 bits at an offset. -/
def Madt.u32 (m : Madt) (i : ℕ) : U32 :=
  m.entries (i + 3) ++ m.entries (i + 2) ++ m.entries (i + 1) ++ m.entries i

/-- `hdr->type` of the entry at an offset. -/
def Madt.type (m : Madt) (i : ℕ) : Byte := m.entries i

/-- How far the loops go on from the entry at an offset. -/
def Madt.entrySize (m : Madt) (i : ℕ) : ℕ :=
  if (m.entries (i + 1)).toNat = 0 then 8 else (m.entries (i + 1)).toNat

/-- The offsets of the entries that the loops find from `i` on, at most `n` of them. -/
def Madt.offsetsFrom (m : Madt) : (n i : ℕ) → List ℕ
  | 0, _ => []
  | n + 1, i => if i < m.len then i :: m.offsetsFrom n (i + m.entrySize i) else []

/-- The offsets of the entries: there are not more than bytes. -/
def Madt.offsets (m : Madt) : List ℕ := m.offsetsFrom m.len 0

/-- `MADT_LAPIC_ENTRY_TYPE`. -/
def madtLapicEntryType : Byte := 0

/-- `MADT_IOAPIC_ENTRY_TYPE`. -/
def madtIoapicEntryType : Byte := 1

/-- `MADT_ISAOVER_ENTRY_TYPE`. -/
def madtIsaoverEntryType : Byte := 2

/-- `MADT_EntryISAOVR`. -/
structure EntryIsaovr where
  busSrc : Byte
  irqSrc : Byte
  globalSysInt : U32
  flags : BitVec 16
deriving DecidableEq

/-- The ISA override at an offset. -/
def Madt.isaovr (m : Madt) (i : ℕ) : EntryIsaovr where
  busSrc := m.entries (i + 2)
  irqSrc := m.entries (i + 3)
  globalSysInt := m.u32 (i + 4)
  flags := m.u16 (i + 8)

/-! ### What is stored -/

/-- `lapic_info_t`. -/
structure LapicInfo where
  processorId : Byte
  apicId : Byte

/-- `isaovr_info_t`. -/
structure IsaovrInfo where
  busSrc : Byte
  irqSrc : Byte
  globalSysInt : U32
  activeLow : Bool
  levelTrigger : Bool
deriving DecidableEq

/-- `ioapic_info_t`. -/
structure IoapicInfo where
  ioApicId : Byte
  ioApicBaseAddr : U32
  globalSysIntBase : U32
  isaovrCnt : ℕ
  isaovrIdx : ℕ
  isaovrs : Option (List IsaovrInfo)

/-- An array after an element is written, if it has that element. -/
def store {α : Type} (array : List α) (idx : ℕ) (x : α) : Option (List α) :=
  if idx < array.length then some (array.set idx x) else none

/-- What memory holds that was allocated and not written. -/
structure Junk where
  lapic : LapicInfo
  ioapic : IoapicInfo
  isaovr : IsaovrInfo

/-- The LAPIC at an offset, as `save_lapic` stores it. -/
def Madt.lapic (m : Madt) (i : ℕ) : LapicInfo where
  processorId := m.entries (i + 2)
  apicId := m.entries (i + 3)

/-- The IOAPIC at an offset, as `save_ioapic` stores it. -/
def Madt.ioapic (m : Madt) (i : ℕ) : IoapicInfo where
  globalSysIntBase := m.u32 (i + 8)
  ioApicBaseAddr := m.u32 (i + 4)
  ioApicId := m.entries (i + 2)
  isaovrCnt := 0
  isaovrIdx := 0
  isaovrs := none

/-- The fields of `isaovr_info_t` that `save_isaovr` writes. -/
def EntryIsaovr.info (isaovr : EntryIsaovr) : IsaovrInfo where
  globalSysInt := isaovr.globalSysInt
  busSrc := isaovr.busSrc
  irqSrc := isaovr.irqSrc
  activeLow := isaovr.flags &&& 2 ≠ 0
  levelTrigger := isaovr.flags &&& 8 ≠ 0

/-- The loop of `save_isaovr` and `isaovr_count_update` over the IOAPICs, from index `i` on, with
the value of `idx`; the bases are those of `ioapic_data`. -/
def selectLoop (globalSysInt : U32) : (i : ℕ) → (bases : List U32) → (idx : ℕ) → ℕ
  | _, [], idx => idx
  | i, b :: bases, idx =>
      if globalSysInt ≥ b ∧ (globalSysInt - b).toNat ≤ idx then
        selectLoop globalSysInt (i + 1) bases i
      else selectLoop globalSysInt (i + 1) bases idx

/-- The index of the IOAPIC with which an override is counted and stored. -/
def select (bases : List U32) (globalSysInt : U32) : ℕ := selectLoop globalSysInt 0 bases 0

/-- `isaovr_count_update`. -/
def isaovrCountUpdate (ioapicData : List IoapicInfo) (isaovr : EntryIsaovr) : List IoapicInfo :=
  ioapicData.modify (select (ioapicData.map (·.globalSysIntBase)) isaovr.globalSysInt)
    fun info => { info with isaovrCnt := info.isaovrCnt + 1 }

/-- `save_isaovr`. -/
def saveIsaovr (junk : Junk) (ioapicData : List IoapicInfo) (isaovr : EntryIsaovr) :
    Option (List IoapicInfo) := do
  let idx := select (ioapicData.map (·.globalSysIntBase)) isaovr.globalSysInt
  let info ← ioapicData[idx]?
  let isaovrs := info.isaovrs.getD (List.replicate info.isaovrCnt junk.isaovr)
  let isaovrs ← store isaovrs info.isaovrIdx isaovr.info
  store ioapicData idx
    { info with isaovrs := some isaovrs, isaovrIdx := info.isaovrIdx + 1 }

/-- The static variables of `acpi_init.c`, and the indices in the second loop. -/
structure State where
  lapicData : List LapicInfo
  lapicIdx : ℕ
  ioapicData : List IoapicInfo
  ioapicIdx : ℕ

/-- The first loop, at an entry: `lapic_cnt` and `ioapic_cnt`. -/
def countEntry (m : Madt) (cnt : ℕ × ℕ) (i : ℕ) : ℕ × ℕ :=
  if m.type i = madtLapicEntryType then (cnt.1 + 1, cnt.2)
  else if m.type i = madtIoapicEntryType then (cnt.1, cnt.2 + 1)
  else cnt

/-- The second loop, at an entry. -/
def saveEntry (m : Madt) (s : State) (i : ℕ) : Option State :=
  if m.type i = madtLapicEntryType then
    (store s.lapicData s.lapicIdx (m.lapic i)).map fun lapicData =>
      { s with lapicData := lapicData, lapicIdx := s.lapicIdx + 1 }
  else if m.type i = madtIoapicEntryType then
    (store s.ioapicData s.ioapicIdx (m.ioapic i)).map fun ioapicData =>
      { s with ioapicData := ioapicData, ioapicIdx := s.ioapicIdx + 1 }
  else some s

/-- The third loop, at an entry. -/
def countIsaovr (m : Madt) (ioapicData : List IoapicInfo) (i : ℕ) : List IoapicInfo :=
  if m.type i = madtIsaoverEntryType then isaovrCountUpdate ioapicData (m.isaovr i)
  else ioapicData

/-- The last loop, at an entry. -/
def applyIsaovr (junk : Junk) (m : Madt) (ioapicData : List IoapicInfo) (i : ℕ) :
    Option (List IoapicInfo) :=
  if m.type i = madtIsaoverEntryType then saveIsaovr junk ioapicData (m.isaovr i)
  else some ioapicData

/-- `acpi_intr_init`: the arrays that it fills, or `none` if it writes outside of them. -/
def acpiIntrInit (junk : Junk) (m : Madt) : Option (List LapicInfo × List IoapicInfo) := do
  let cnt := m.offsets.foldl (countEntry m) (0, 0)
  let s ← m.offsets.foldlM (saveEntry m)
    { lapicData := List.replicate cnt.1 junk.lapic, lapicIdx := 0
      ioapicData := List.replicate cnt.2 junk.ioapic, ioapicIdx := 0 }
  let ioapicData := m.offsets.foldl (countIsaovr m) s.ioapicData
  let ioapicData ← m.offsets.foldlM (applyIsaovr junk m) ioapicData
  some (s.lapicData, ioapicData)

/-- The pin that `ioapic_init` configures for an override of an IOAPIC. -/
def irqPin (info : IoapicInfo) (isaovr : IsaovrInfo) : U32 :=
  (isaovr.globalSysInt.setWidth 64 - info.globalSysIntBase.setWidth 64 : BitVec 64).setWidth 32

/-! ### What should be stored -/

/-- The LAPICs of the table. -/
def Madt.lapics (m : Madt) : List LapicInfo :=
  (m.offsets.filter (m.type · = madtLapicEntryType)).map m.lapic

/-- The IOAPICs of the table. -/
def Madt.ioapics (m : Madt) : List IoapicInfo :=
  (m.offsets.filter (m.type · = madtIoapicEntryType)).map m.ioapic

/-- Their bases. -/
def Madt.bases (m : Madt) : List U32 := m.ioapics.map (·.globalSysIntBase)

/-- The ISA overrides of the table. -/
def Madt.overrides (m : Madt) : List EntryIsaovr :=
  (m.offsets.filter (m.type · = madtIsaoverEntryType)).map m.isaovr

/-- What an override says: bit 1 of the flags is the polarity, and bit 3 the trigger mode. -/
def EntryIsaovr.meaning (isaovr : EntryIsaovr) : IsaovrInfo where
  busSrc := isaovr.busSrc
  irqSrc := isaovr.irqSrc
  globalSysInt := isaovr.globalSysInt
  activeLow := isaovr.flags.getLsbD 1
  levelTrigger := isaovr.flags.getLsbD 3

/-- The overrides that `ioapic_init` finds in the array of an IOAPIC. -/
def IoapicInfo.read (info : IoapicInfo) : List IsaovrInfo :=
  (info.isaovrs.getD []).take info.isaovrCnt

instance (bases : List U32) (line : U32) (k : ℕ) (base : U32) :
    Decidable (Owner bases line k base) :=
  decidable_of_iff (bases[k]? = some base ∧ base.toNat ≤ line.toNat
      ∧ ∀ b ∈ bases, b.toNat ≤ line.toNat → b.toNat ≤ base.toNat)
    ⟨fun h => ⟨h.1, h.2.1, h.2.2⟩, fun h => ⟨h.get, h.le, h.greatest⟩⟩

/-- Every override is once in the array of the IOAPIC that owns it, and nowhere else; and the pin
that is configured for it is at the distance from the base. -/
structure Filed (m : Madt) (ioapicData : List IoapicInfo) : Prop where
  arrays : ∀ (k : ℕ) (info : IoapicInfo), ioapicData[k]? = some info → info.read.Perm ((m.overrides.filter
    fun o => Owner m.bases o.globalSysInt k info.globalSysIntBase).map EntryIsaovr.meaning)
  pins : ∀ (k : ℕ) (info : IoapicInfo), ioapicData[k]? = some info → ∀ o ∈ info.read,
    info.globalSysIntBase.toNat + (irqPin info o).toNat = o.globalSysInt.toNat

/-- The owner of the interrupt comes first; or its base is the interrupt, and every one that comes
later has a base above the interrupt, or farther below it than the index of the owner. -/
def InPlace (bases : List U32) (globalSysInt : U32) : Prop :=
  ∀ k base, Owner bases globalSysInt k base →
    k = 0 ∨ base = globalSysInt ∧ ∀ j b, k < j → bases[j]? = some b →
      b.toNat ≤ globalSysInt.toNat → k < globalSysInt.toNat - b.toNat

/-! ### The loops -/

section Loops

variable (m : Madt)

/-- The first loop counts the LAPICs and the IOAPICs of the entries. -/
theorem foldl_countEntry (is : List ℕ) (l c : ℕ) :
  is.foldl (countEntry m) (l, c)
    = (l + is.countP (m.type · = madtLapicEntryType), c + is.countP (m.type · = madtIoapicEntryType))
  := by
  induction is generalizing l c with
  | nil => rfl
  | cons i is ih =>
      have hne : madtLapicEntryType ≠ madtIoapicEntryType := by decide
      rw [List.foldl_cons, countEntry]
      by_cases hlapic : m.type i = madtLapicEntryType
      · simp [hlapic, hne, ih]
        omega
      · by_cases hioapic : m.type i = madtIoapicEntryType
        · simp [hioapic, hne.symm, ih]
          omega
        · simp [hlapic, hioapic, ih]

end Loops

section Arrays

variable {α : Type}

/-- Storing the next element of an array. -/
theorem store_next (done : List α) (x y : α) (rest : List α) :
  store (done ++ y :: rest) done.length x = some (done ++ [x] ++ rest)
  := by
  rw [store, if_pos (by simp), List.set_append_right _ _ (le_refl _), Nat.sub_self,
    List.set_cons_zero, List.append_assoc, List.singleton_append]

end Arrays

/-- The second loop stores the LAPICs and the IOAPICs of the entries. -/
theorem foldlM_saveEntry (m : Madt) (is : List ℕ) (lapics lrest : List LapicInfo)
    (ioapics irest : List IoapicInfo)
    (hlrest : lrest.length = is.countP (m.type · = madtLapicEntryType))
    (hirest : irest.length = is.countP (m.type · = madtIoapicEntryType)) :
  ∃ s, is.foldlM (saveEntry m)
      { lapicData := lapics ++ lrest, lapicIdx := lapics.length
        ioapicData := ioapics ++ irest, ioapicIdx := ioapics.length } = some s
    ∧ s.lapicData = lapics ++ (is.filter (m.type · = madtLapicEntryType)).map m.lapic
    ∧ s.ioapicData = ioapics ++ (is.filter (m.type · = madtIoapicEntryType)).map m.ioapic
  := by
  induction is generalizing lapics lrest ioapics irest with
  | nil =>
      obtain rfl := List.eq_nil_of_length_eq_zero hlrest
      obtain rfl := List.eq_nil_of_length_eq_zero hirest
      exact ⟨_, rfl, rfl, rfl⟩
  | cons i is ih =>
      have hne : madtLapicEntryType ≠ madtIoapicEntryType := by decide
      rw [List.countP_cons] at hlrest hirest
      by_cases hlapic : m.type i = madtLapicEntryType
      · rw [if_pos (decide_eq_true hlapic)] at hlrest
        rw [hlapic, if_neg (by simpa using hne)] at hirest
        obtain ⟨y, lrest, rfl⟩ := List.exists_cons_of_length_eq_add_one hlrest
        obtain ⟨s, hs, hl, hi⟩ := ih (lapics ++ [m.lapic i]) lrest ioapics irest
          (by simpa using hlrest) hirest
        refine ⟨s, ?_, ?_, ?_⟩
        · rw [List.foldlM_cons, saveEntry, if_pos hlapic, store_next]
          simpa using hs
        · rw [hl]
          simp [hlapic]
        · rw [hi]
          simp [hlapic, hne]
      · rw [if_neg (by simpa using hlapic)] at hlrest
        by_cases hioapic : m.type i = madtIoapicEntryType
        · rw [if_pos (decide_eq_true hioapic)] at hirest
          obtain ⟨y, irest, rfl⟩ := List.exists_cons_of_length_eq_add_one hirest
          obtain ⟨s, hs, hl, hi⟩ := ih lapics lrest (ioapics ++ [m.ioapic i]) irest hlrest
            (by simpa using hirest)
          refine ⟨s, ?_, ?_, ?_⟩
          · rw [List.foldlM_cons, saveEntry, if_neg hlapic, if_pos hioapic, store_next]
            simpa using hs
          · rw [hl]
            simp [hlapic]
          · rw [hi]
            simp [hioapic]
        · rw [if_neg (by simpa using hioapic)] at hirest
          obtain ⟨s, hs, hl, hi⟩ := ih lapics lrest ioapics irest hlrest hirest
          refine ⟨s, ?_, ?_, ?_⟩
          · rw [List.foldlM_cons, saveEntry, if_neg hlapic, if_neg hioapic]
            exact hs
          · rw [hl]
            simp [hlapic]
          · rw [hi]
            simp [hioapic]

/-! ### Overrides -/

section Overrides

variable {junk : Junk} {m : Madt} {data : List IoapicInfo}

/-- The last two loops go through the overrides of the entries. -/
theorem foldl_countIsaovr (is : List ℕ) :
  is.foldl (countIsaovr m) data
    = ((is.filter (m.type · = madtIsaoverEntryType)).map m.isaovr).foldl isaovrCountUpdate data
  := by
  rw [List.foldl_map, List.foldl_filter]
  simp only [decide_eq_true_eq]
  rfl

theorem foldlM_applyIsaovr (is : List ℕ) :
  is.foldlM (applyIsaovr junk m) data
    = ((is.filter (m.type · = madtIsaoverEntryType)).map m.isaovr).foldlM (saveIsaovr junk) data
  := by
  induction is generalizing data with
  | nil => rfl
  | cons i is ih =>
      rw [List.foldlM_cons, applyIsaovr]
      by_cases hisaovr : m.type i = madtIsaoverEntryType
      · rw [List.filter_cons_of_pos (by simpa using hisaovr), List.map_cons, List.foldlM_cons]
        simp only [if_pos hisaovr, ih]
      · rw [if_neg hisaovr, List.filter_cons_of_neg (by simpa using hisaovr)]
        exact ih

/-- An IOAPIC for which `cnt` overrides are counted, and some of them are stored. -/
def withOverrides (junk : Junk) (cnt : ℕ) (done : List EntryIsaovr) (info : IoapicInfo) :
    IoapicInfo :=
  { info with
    isaovrCnt := cnt
    isaovrIdx := done.length
    isaovrs := if done = [] then none else
      some (done.map EntryIsaovr.info ++ List.replicate (cnt - done.length) junk.isaovr) }

/-- The IOAPICs, each with overrides of its own. -/
def stored (junk : Junk) (data : List IoapicInfo) (cnt : ℕ → ℕ) (done : ℕ → List EntryIsaovr) :
    List IoapicInfo :=
  data.mapIdx fun k => withOverrides junk (cnt k) (done k)

variable {cnt : ℕ → ℕ} {done : ℕ → List EntryIsaovr}

theorem getElem?_stored (k : ℕ) :
  (stored junk data cnt done)[k]? = data[k]?.map (withOverrides junk (cnt k) (done k))
  := List.getElem?_mapIdx

theorem bases_stored :
  (stored junk data cnt done).map (·.globalSysIntBase) = data.map (·.globalSysIntBase)
  := by
  apply List.ext_getElem?
  intro k
  rw [List.getElem?_map, getElem?_stored, List.getElem?_map, Option.map_map]
  rfl

/-- Counting one more override. -/
theorem isaovrCountUpdate_stored (isaovr : EntryIsaovr) :
  isaovrCountUpdate (stored junk data cnt fun _ => []) isaovr
    = stored junk data (fun k => cnt k
      + if select (data.map (·.globalSysIntBase)) isaovr.globalSysInt = k then 1 else 0) fun _ => []
  := by
  rw [isaovrCountUpdate, bases_stored]
  apply List.ext_getElem?
  intro k
  rw [List.getElem?_modify, getElem?_stored, getElem?_stored]
  cases data[k]? with
  | none => rfl
  | some info => split <;> rfl

/-- The array of an IOAPIC, when `save_isaovr` has allocated it. -/
theorem withOverrides_getD (n : ℕ) (os : List EntryIsaovr) (info : IoapicInfo) :
  (withOverrides junk n os info).isaovrs.getD (List.replicate n junk.isaovr)
    = os.map EntryIsaovr.info ++ List.replicate (n - os.length) junk.isaovr
  := by
  rw [withOverrides]
  by_cases hos : os = []
  · simp [hos]
  · simp [hos]

/-- Storing one more override. -/
theorem saveIsaovr_stored (isaovr : EntryIsaovr) {k : ℕ}
    (hk : select (data.map (·.globalSysIntBase)) isaovr.globalSysInt = k) (hlt : k < data.length)
    (hcnt : (done k).length < cnt k) :
  saveIsaovr junk (stored junk data cnt done) isaovr
    = some (stored junk data cnt (Function.update done k (done k ++ [isaovr])))
  := by
  obtain ⟨info, hinfo⟩ : ∃ info, data[k]? = some info := ⟨_, List.getElem?_eq_getElem hlt⟩
  have hrest : List.replicate (cnt k - (done k).length) junk.isaovr
      = junk.isaovr :: List.replicate (cnt k - (done k).length - 1) junk.isaovr := by
    rw [← List.replicate_succ]
    congr 1
    omega
  have harray := store_next ((done k).map EntryIsaovr.info) isaovr.info junk.isaovr
    (List.replicate (cnt k - (done k).length - 1) junk.isaovr)
  rw [List.length_map] at harray
  have hlength : (stored junk data cnt done).length = data.length := List.length_mapIdx
  rw [saveIsaovr, bases_stored, hk]
  simp only [getElem?_stored, hinfo, Option.map_some, Option.bind_eq_bind, Option.bind_some]
  rw [show (withOverrides junk (cnt k) (done k) info).isaovrCnt = cnt k from rfl,
    withOverrides_getD, hrest]
  rw [show (withOverrides junk (cnt k) (done k) info).isaovrIdx = (done k).length from rfl, harray,
    Option.bind_some, store, if_pos (hlength ▸ hlt), Option.some.injEq]
  apply List.ext_getElem?
  intro j
  rw [List.getElem?_set, getElem?_stored, getElem?_stored, hlength]
  by_cases hj : k = j
  · subst hj
    rw [if_pos rfl, if_pos hlt, hinfo, Function.update_self, Option.map_some]
    simp [withOverrides, Nat.sub_sub]
  · rw [if_neg hj, Function.update_of_ne (Ne.symm hj)]

/-- The overrides with which the IOAPIC with the index `k` is selected. -/
def selected (bases : List U32) (os : List EntryIsaovr) (k : ℕ) : List EntryIsaovr :=
  os.filter fun o => select bases o.globalSysInt = k

theorem selected_cons (bases : List U32) (o : EntryIsaovr) (os : List EntryIsaovr) (k : ℕ) :
  selected bases (o :: os) k
    = if select bases o.globalSysInt = k then o :: selected bases os k else selected bases os k
  := by
  rw [selected, List.filter_cons]
  simp only [decide_eq_true_eq]
  rfl

/-- The third loop counts the overrides of each IOAPIC. -/
theorem foldl_isaovrCountUpdate (os : List EntryIsaovr) :
  os.foldl isaovrCountUpdate (stored junk data cnt fun _ => [])
    = stored junk data
      (fun k => cnt k + (selected (data.map (·.globalSysIntBase)) os k).length) fun _ => []
  := by
  induction os generalizing cnt with
  | nil => rfl
  | cons o os ih =>
      rw [List.foldl_cons, isaovrCountUpdate_stored, ih]
      congr 1
      funext k
      rw [selected_cons]
      split
      · rw [List.length_cons]
        omega
      · rw [Nat.add_zero]

/-- The last loop stores the overrides of each IOAPIC. -/
theorem foldlM_saveIsaovr (os : List EntryIsaovr)
    (hselect : ∀ g, select (data.map (·.globalSysIntBase)) g < data.length)
    (hcnt : ∀ k, (done k).length + (selected (data.map (·.globalSysIntBase)) os k).length ≤ cnt k) :
  os.foldlM (saveIsaovr junk) (stored junk data cnt done)
    = some (stored junk data cnt
      fun k => done k ++ selected (data.map (·.globalSysIntBase)) os k)
  := by
  induction os generalizing done with
  | nil => simp [selected]
  | cons o os ih =>
      obtain ⟨k, hk⟩ : ∃ k, select (data.map (·.globalSysIntBase)) o.globalSysInt = k := ⟨_, rfl⟩
      have hself := hcnt k
      rw [selected_cons, if_pos hk, List.length_cons] at hself
      rw [List.foldlM_cons, saveIsaovr_stored o hk (hk ▸ hselect _) (by omega)]
      simp only [Option.bind_eq_bind, Option.bind_some]
      rw [ih]
      · congr 2
        funext j
        rw [selected_cons, hk]
        by_cases hj : k = j
        · subst hj
          simp
        · rw [if_neg hj, Function.update_of_ne (Ne.symm hj)]
      · intro j
        have hother := hcnt j
        rw [selected_cons, hk] at hother
        by_cases hj : k = j
        · subst hj
          rw [Function.update_self, List.length_append, List.length_singleton]
          omega
        · rw [if_neg hj] at hother
          rwa [Function.update_of_ne (Ne.symm hj)]

end Overrides

/-! ### The selected IOAPIC -/

section Selection

variable {bases : List U32} {g : U32}

theorem selectLoop_lt {i idx : ℕ} (hidx : idx < i + bases.length) :
  selectLoop g i bases idx < i + bases.length
  := by
  induction bases generalizing i idx with
  | nil => exact hidx
  | cons b bases ih =>
      rw [List.length_cons] at hidx ⊢
      rw [selectLoop]
      split
      · have hlt : selectLoop g (i + 1) bases i < i + 1 + bases.length := ih (by omega)
        omega
      · have hlt : selectLoop g (i + 1) bases idx < i + 1 + bases.length := ih (by omega)
        omega

theorem select_lt (hbases : bases ≠ []) :
  select bases g < bases.length
  := by
  have hpos := List.length_pos_iff.mpr hbases
  have hlt : selectLoop g 0 bases 0 < 0 + bases.length := selectLoop_lt (by omega)
  rwa [Nat.zero_add] at hlt

/-- The loop takes another index just when it comes to a base near enough. -/
theorem selectLoop_cases (g : U32) (bases : List U32) (i idx : ℕ) :
  selectLoop g i bases idx = idx ∧ (∀ b ∈ bases, ¬ (g ≥ b ∧ (g - b).toNat ≤ idx))
    ∨ i ≤ selectLoop g i bases idx ∧ ∃ b ∈ bases, g ≥ b ∧ (g - b).toNat ≤ idx
  := by
  induction bases generalizing i idx with
  | nil => exact .inl ⟨rfl, by simp⟩
  | cons b bases ih =>
      rw [selectLoop]
      split
      case isTrue hnear =>
        right
        refine ⟨?_, b, List.mem_cons_self .., hnear⟩
        rcases ih (i + 1) i with ⟨heq, -⟩ | ⟨hle, -⟩
        · exact heq.ge
        · omega
      case isFalse hfar =>
        rcases ih (i + 1) idx with ⟨heq, hall⟩ | ⟨hle, c, hc, hnear⟩
        · exact .inl ⟨heq, List.forall_mem_cons.mpr ⟨hfar, hall⟩⟩
        · exact .inr ⟨by omega, c, List.mem_cons_of_mem _ hc, hnear⟩

/-- The loop passes over bases that are not near enough. -/
theorem selectLoop_append {pre rest : List U32} {i idx : ℕ}
    (hpre : ∀ b ∈ pre, ¬ (g ≥ b ∧ (g - b).toNat ≤ idx)) :
  selectLoop g i (pre ++ rest) idx = selectLoop g (i + pre.length) rest idx
  := by
  induction pre generalizing i with
  | nil => rfl
  | cons b pre ih =>
      obtain ⟨hb, hpre⟩ := List.forall_mem_cons.mp hpre
      rw [List.cons_append, selectLoop, if_neg hb, ih hpre, List.length_cons]
      congr 1
      omega

theorem near_iff (b : U32) (idx : ℕ) :
  g ≥ b ∧ (g - b).toNat ≤ idx ↔ b.toNat ≤ g.toNat ∧ g.toNat - b.toNat ≤ idx
  := by
  apply and_congr_right
  intro hle
  rw [BitVec.toNat_sub_of_le hle]

theorem not_near_zero {b : U32} (hb : b ≠ g) :
  ¬ (g ≥ b ∧ (g - b).toNat ≤ 0)
  := by
  rw [near_iff]
  rintro ⟨hle, hsub⟩
  exact hb (BitVec.toNat_inj.mp (by omega))

/-- The owner is selected just when it comes first; or when its base is the interrupt, and no
later one is near enough. -/
theorem select_eq_iff {k : ℕ} {base : U32} (hbases : bases.Nodup) (hown : Owner bases g k base) :
  select bases g = k ↔ k = 0 ∨ base = g ∧ ∀ j b, k < j → bases[j]? = some b →
    b.toNat ≤ g.toNat → k < g.toNat - b.toNat
  := by
  by_cases hbase : base = g
  · subst hbase
    obtain ⟨hk, hget⟩ := List.getElem?_eq_some_iff.mp hown.get
    have hsplit : bases = bases.take k ++ base :: bases.drop (k + 1) := by
      conv_lhs => rw [← List.take_append_drop k bases, List.drop_eq_getElem_cons hk, hget]
    have hdisjoint := hbases
    rw [hsplit, List.nodup_append, List.nodup_cons] at hdisjoint
    obtain ⟨-, ⟨hlater, -⟩, hearlier⟩ := hdisjoint
    have hlength : 0 + (bases.take k).length = k := by
      rw [List.length_take]
      omega
    have hselect : select bases base = selectLoop base (k + 1) (bases.drop (k + 1)) k := by
      have hpre : ∀ b ∈ bases.take k, ¬ (base ≥ b ∧ (base - b).toNat ≤ 0) :=
        fun b hb => not_near_zero (hearlier b hb base (List.mem_cons_self ..))
      conv_lhs => rw [select, hsplit]
      rw [selectLoop_append hpre, hlength, selectLoop, if_pos (by simp)]
    rw [hselect]
    rcases selectLoop_cases base (bases.drop (k + 1)) (k + 1) k with
      ⟨heq, hall⟩ | ⟨hle, b, hb, hnear⟩
    · refine iff_of_true heq (.inr ⟨rfl, ?_⟩)
      intro j b hj hgetj hb
      have hmem : b ∈ bases.drop (k + 1) := by
        apply List.mem_of_getElem? (i := j - (k + 1))
        rw [List.getElem?_drop, show k + 1 + (j - (k + 1)) = j by omega, hgetj]
      have hfar := hall b hmem
      rw [near_iff] at hfar
      omega
    · refine iff_of_false (by omega) ?_
      rw [near_iff] at hnear
      rintro (rfl | ⟨-, hall⟩)
      · have heq : b = base := BitVec.toNat_inj.mp (by omega)
        exact hlater (heq ▸ hb)
      · obtain ⟨i, hi⟩ := List.mem_iff_getElem?.mp hb
        rw [List.getElem?_drop] at hi
        have := hall (k + 1 + i) b (by omega) hi hnear.1
        omega
  · have hzero : select bases g = 0 := by
      have hall : ∀ b ∈ bases, ¬ (g ≥ b ∧ (g - b).toNat ≤ 0) := by
        intro b hb
        apply not_near_zero
        rintro rfl
        have hge := hown.greatest b hb (le_refl _)
        have hle := hown.le
        exact hbase (BitVec.toNat_inj.mp (by omega))
      have happend : selectLoop g 0 (bases ++ []) 0 = 0 := selectLoop_append hall
      rwa [List.append_nil] at happend
    rw [hzero]
    simp [hbase, eq_comm]

end Selection

/-! ### The whole -/

section Init

variable {junk : Junk} {m : Madt}

theorem and_two_pow_ne_zero (flags : BitVec 16) {k : ℕ} (hk : k < 16) :
  decide (flags &&& BitVec.twoPow 16 k ≠ 0) = flags.getLsbD k
  := by
  rw [BitVec.and_twoPow]
  cases hbit : flags.getLsbD k with
  | true =>
      have hne : BitVec.twoPow 16 k ≠ 0 := by
        intro h
        have hzero := congrArg (BitVec.getLsbD · k) h
        simp [hk] at hzero
      simpa using hne
  | false => simp

/-- The polarity and the trigger mode are preserved. -/
theorem info_eq_meaning (isaovr : EntryIsaovr) :
  isaovr.info = isaovr.meaning
  := by
  rw [EntryIsaovr.info, EntryIsaovr.meaning]
  congr 1
  · exact and_two_pow_ne_zero isaovr.flags (k := 1) (by decide)
  · exact and_two_pow_ne_zero isaovr.flags (k := 3) (by decide)

/-- The IOAPICs, each with the overrides with which it is selected. -/
def Madt.finished (junk : Junk) (m : Madt) : List IoapicInfo :=
  stored junk m.ioapics (fun k => (selected m.bases m.overrides k).length)
    (selected m.bases m.overrides)

/-- `acpi_intr_init` stores each override with the selected IOAPIC. -/
theorem acpiIntrInit_eq (hbases : m.bases ≠ []) :
  acpiIntrInit junk m = some (m.lapics, m.finished junk)
  := by
  have hsaved := foldlM_saveEntry m m.offsets []
    (List.replicate (m.offsets.countP (m.type · = madtLapicEntryType)) junk.lapic) []
    (List.replicate (m.offsets.countP (m.type · = madtIoapicEntryType)) junk.ioapic)
    List.length_replicate List.length_replicate
  obtain ⟨s, hs, hlapics, hioapics⟩ := hsaved
  simp only [List.nil_append, List.length_nil] at hs hlapics hioapics
  rw [← Madt.lapics] at hlapics
  rw [← Madt.ioapics] at hioapics
  have hinit : m.ioapics = stored junk m.ioapics (fun _ => 0) fun _ => [] := by
    apply List.ext_getElem?
    intro k
    rw [getElem?_stored, Madt.ioapics, List.getElem?_map, Option.map_map]
    rfl
  have hcounted : m.offsets.foldl (countIsaovr m) m.ioapics = stored junk m.ioapics
      (fun k => (selected m.bases m.overrides k).length) fun _ => [] := by
    rw [foldl_countIsaovr, ← Madt.overrides]
    conv_lhs => rw [hinit]
    rw [foldl_isaovrCountUpdate]
    simp only [Nat.zero_add]
    rfl
  have happlied : m.offsets.foldlM (applyIsaovr junk m) (stored junk m.ioapics
      (fun k => (selected m.bases m.overrides k).length) fun _ => []) = some (m.finished junk) := by
    have hlength : m.bases.length = m.ioapics.length := List.length_map _
    rw [foldlM_applyIsaovr, ← Madt.overrides, foldlM_saveIsaovr]
    · rfl
    · exact fun g => hlength ▸ select_lt hbases
    · exact fun k => (Nat.zero_add _).le
  rw [acpiIntrInit, foldl_countEntry]
  simp only [Nat.zero_add, hs, Option.bind_eq_bind, Option.bind_some, hioapics, hcounted, happlied,
    hlapics]

/-- What `ioapic_init` finds in the array of an IOAPIC. -/
theorem read_withOverrides (os : List EntryIsaovr) (info : IoapicInfo) :
  (withOverrides junk os.length os info).read = os.map EntryIsaovr.meaning
  := by
  have hmeaning : EntryIsaovr.info = EntryIsaovr.meaning := funext info_eq_meaning
  rw [IoapicInfo.read, withOverrides, hmeaning]
  by_cases hos : os = []
  · simp [hos]
  · simp [hos]

end Init

/-! ### Owners -/

section Owners

variable {bases : List U32} {g : U32}

theorem exists_owner (hzero : 0 ∈ bases) :
  ∃ k base, Owner bases g k base
  := by
  have hnonempty : (bases.toFinset.filter (·.toNat ≤ g.toNat)).Nonempty :=
    ⟨0, by rw [Finset.mem_filter, List.mem_toFinset]; exact ⟨hzero, Nat.zero_le _⟩⟩
  obtain ⟨base, hbase, hmax⟩ := Finset.exists_max_image _ BitVec.toNat hnonempty
  rw [Finset.mem_filter, List.mem_toFinset] at hbase
  obtain ⟨k, hk⟩ := List.mem_iff_getElem?.mp hbase.1
  refine ⟨k, base, hk, hbase.2, fun b hb hle => hmax b ?_⟩
  rw [Finset.mem_filter, List.mem_toFinset]
  exact ⟨hb, hle⟩

theorem owner_unique {k k' : ℕ} {base base' : U32} (hbases : bases.Nodup)
    (h : Owner bases g k base) (h' : Owner bases g k' base') :
  k = k'
  := by
  have hle := h.greatest base' (List.mem_of_getElem? h'.get) h'.le
  have hge := h'.greatest base (List.mem_of_getElem? h.get) h.le
  obtain rfl : base = base' := BitVec.toNat_inj.mp (le_antisymm hge hle)
  obtain ⟨hk, -⟩ := List.getElem?_eq_some_iff.mp h.get
  exact (List.getElem?_inj hk hbases).mp (by rw [h.get, h'.get])

/-- The pin of an owned interrupt. -/
theorem irqPin_toNat {info : IoapicInfo} {isaovr : IsaovrInfo}
    (hle : info.globalSysIntBase.toNat ≤ isaovr.globalSysInt.toNat) :
  info.globalSysIntBase.toNat + (irqPin info isaovr).toNat = isaovr.globalSysInt.toNat
  := by
  have hbase := info.globalSysIntBase.isLt
  have hint := isaovr.globalSysInt.isLt
  rw [irqPin, BitVec.toNat_setWidth, BitVec.toNat_sub, BitVec.toNat_setWidth,
    BitVec.toNat_setWidth]
  omega

end Owners

/-! ### Filing -/

section Filing

variable {junk : Junk} {m : Madt}

theorem getElem?_finished {k : ℕ} {info : IoapicInfo} (h : (m.finished junk)[k]? = some info) :
  m.bases[k]? = some info.globalSysIntBase
    ∧ info.read = (selected m.bases m.overrides k).map EntryIsaovr.meaning
  := by
  rw [Madt.finished, getElem?_stored, Option.map_eq_some_iff] at h
  obtain ⟨info₀, hinfo₀, rfl⟩ := h
  refine ⟨?_, read_withOverrides _ _⟩
  rw [Madt.bases, List.getElem?_map, hinfo₀]
  rfl

/-- An override that is filed under its owner was stored there because the owner was selected. -/
theorem Filed.inPlace (h : Filed m (m.finished junk)) (hbases : m.bases.Nodup)
    {o : EntryIsaovr} (ho : o ∈ m.overrides) :
  InPlace m.bases o.globalSysInt
  := by
  intro k base hown
  rw [← select_eq_iff hbases hown]
  obtain ⟨k', hk'⟩ : ∃ k', select m.bases o.globalSysInt = k' := ⟨_, rfl⟩
  have hlt : k' < m.ioapics.length := by
    have hselect := select_lt (g := o.globalSysInt)
      (List.ne_nil_of_mem (List.mem_of_getElem? hown.get))
    rwa [hk', Madt.bases, List.length_map] at hselect
  obtain ⟨info, hinfo⟩ : ∃ info, (m.finished junk)[k']? = some info := by
    rw [Madt.finished, getElem?_stored, List.getElem?_eq_getElem hlt]
    exact ⟨_, rfl⟩
  have hmem : o.meaning ∈ info.read := by
    rw [(getElem?_finished hinfo).2]
    apply List.mem_map_of_mem
    rw [selected, List.mem_filter]
    exact ⟨ho, decide_eq_true hk'⟩
  rw [(h.arrays k' info hinfo).mem_iff, List.mem_map] at hmem
  obtain ⟨o', ho', heq⟩ := hmem
  have hown' := of_decide_eq_true (List.mem_filter.mp ho').2
  have hint : o'.globalSysInt = o.globalSysInt := congrArg IsaovrInfo.globalSysInt heq
  rw [hint] at hown'
  rw [hk']
  exact owner_unique hbases hown' hown

/-- Where the owners are selected, everything is filed under its owner. -/
theorem filed_of_inPlace (hbases : m.bases.Nodup) (hzero : 0 ∈ m.bases)
    (h : ∀ o ∈ m.overrides, InPlace m.bases o.globalSysInt) :
  Filed m (m.finished junk)
  := by
  have hselect : ∀ o ∈ m.overrides, ∀ k base, m.bases[k]? = some base →
      (select m.bases o.globalSysInt = k ↔ Owner m.bases o.globalSysInt k base) := by
    intro o ho k base hbase
    obtain ⟨k', base', hown⟩ := exists_owner (g := o.globalSysInt) hzero
    rw [(select_eq_iff hbases hown).mpr (h o ho k' base' hown)]
    constructor
    · rintro rfl
      rw [hown.get, Option.some.injEq] at hbase
      exact hbase ▸ hown
    · exact fun hown' => owner_unique hbases hown hown'
  have hread : ∀ k info, (m.finished junk)[k]? = some info → info.read = (m.overrides.filter
      fun o => Owner m.bases o.globalSysInt k info.globalSysIntBase).map EntryIsaovr.meaning := by
    intro k info hinfo
    obtain ⟨hbase, hread⟩ := getElem?_finished hinfo
    rw [hread, selected]
    congr 1
    apply List.filter_congr
    intro o ho
    exact decide_eq_decide.mpr (hselect o ho k _ hbase)
  constructor
  · intro k info hinfo
    rw [hread k info hinfo]
  · intro k info hinfo o ho
    rw [hread k info hinfo] at ho
    obtain ⟨o', ho', rfl⟩ := List.mem_map.mp ho
    exact irqPin_toNat (of_decide_eq_true (List.mem_filter.mp ho').2).le

end Filing

/-- `acpi_intr_init` files every override under its owner just when for each of them the owner
comes first, or the interrupt is its base and the comparison with indices does no harm. -/
theorem overrides_filed_iff (junk : Junk) (m : Madt) (hbases : m.bases.Nodup)
    (hzero : 0 ∈ m.bases) :
  ∃ lapics ioapics, acpiIntrInit junk m = some (lapics, ioapics)
    ∧ (Filed m ioapics ↔ ∀ o ∈ m.overrides, InPlace m.bases o.globalSysInt)
  := by
  refine ⟨_, _, acpiIntrInit_eq (List.ne_nil_of_mem hzero), ?_⟩
  constructor
  · exact fun hfiled o ho => hfiled.inPlace hbases ho
  · exact fun hplace => filed_of_inPlace hbases hzero hplace

/-- The table with the given bytes of entries. -/
def Madt.ofBytes (bytes : List Byte) (h : bytes.length < 2 ^ 16) : Madt where
  length := BitVec.ofNat 32 (44 + bytes.length)
  entries i := bytes.getD i 0
  short := by
    rw [BitVec.toNat_sub, BitVec.toNat_sub, BitVec.toNat_ofNat]
    have h8 : (8 : U32).toNat = 8 := rfl
    have h36 : (36 : U32).toNat = 36 := rfl
    rw [h8, h36]
    omega

/-- Memory that holds zeros. -/
def Junk.zero : Junk where
  lapic := ⟨0, 0⟩
  ioapic := ⟨0, 0, 0, 0, 0, none⟩
  isaovr := ⟨0, 0, 0, false, false⟩

/-- One IOAPIC, and an override of IRQ 0 by interrupt 2. -/
def oneIoapic : Madt :=
  .ofBytes [1, 12, 0, 0, 0, 0, 0xc0, 0xfe, 0, 0, 0, 0, 2, 10, 0, 0, 2, 0, 0, 0, 0, 0] (by decide)

/-- An IOAPIC with the base 24 that comes before the one with the base 0, and an override of IRQ 0
by interrupt 2. -/
def twoIoapics : Madt :=
  .ofBytes [1, 12, 1, 0, 0, 0x10, 0xc0, 0xfe, 24, 0, 0, 0, 1, 12, 0, 0, 0, 0, 0xc0, 0xfe, 0, 0, 0, 0,
    2, 10, 0, 0, 2, 0, 0, 0, 0, 0] (by decide)

theorem overrides_filed_oneIoapic :
  ∃ lapics ioapics, acpiIntrInit .zero oneIoapic = some (lapics, ioapics)
    ∧ Filed oneIoapic ioapics
  := by
  have hbases : oneIoapic.bases = [0] := by decide
  obtain ⟨lapics, ioapics, hrun, hfiled⟩ := overrides_filed_iff .zero oneIoapic
    (by rw [hbases]; decide) (by rw [hbases]; decide)
  refine ⟨lapics, ioapics, hrun, hfiled.mpr fun o _ k base hown => .inl ?_⟩
  obtain ⟨hk, -⟩ := List.getElem?_eq_some_iff.mp hown.get
  rw [hbases, List.length_singleton] at hk
  omega

/-- The override is stored with the IOAPIC that has the base 24. -/
theorem overrides_not_filed :
  ¬ ∀ (junk : Junk) (m : Madt), m.bases.Nodup → 0 ∈ m.bases →
    ∃ lapics ioapics, acpiIntrInit junk m = some (lapics, ioapics) ∧ Filed m ioapics
  := by
  intro h
  have hbases : twoIoapics.bases = [24, 0] := by decide
  have hoverrides : twoIoapics.overrides = [⟨0, 0, 2, 0⟩] := by decide
  have hne : twoIoapics.bases ≠ [] := by simp [hbases]
  obtain ⟨lapics, ioapics, hrun, hfiled⟩ := h .zero twoIoapics (by rw [hbases]; decide)
    (by rw [hbases]; decide)
  rw [acpiIntrInit_eq hne, Option.some.injEq, Prod.mk.injEq] at hrun
  have hplace := (hrun.2 ▸ hfiled).inPlace (by rw [hbases]; decide) (o := ⟨0, 0, 2, 0⟩)
    (by rw [hoverrides]; exact List.mem_cons_self ..)
  rw [hbases] at hplace
  have hown : Owner [24, 0] 2 1 0 := ⟨rfl, by decide, by simp⟩
  rcases hplace 1 0 hown with h | ⟨h, -⟩
  · exact absurd h (by decide)
  · exact absurd h (by decide)

end Acpi
