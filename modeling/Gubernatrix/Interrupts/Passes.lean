import Gubernatrix.Heap
import Gubernatrix.Interrupts.AcpiInit
import Mathlib.Algebra.BigOperators.Group.Finset.Basic

/-!
# The walks over the MADT

The four loops of `acpi_intr_init`, each of which finds the entries again. The first one counts what
the arrays are allocated for; the others store to these arrays, without a look at whether `malloc`
returned `NULL`. An entry takes as many bytes as it says, and may say one: so there are tables, of
4 MiB and more, with more IOAPICs than the area of `bootstrap_malloc` has room for.
-/

namespace Passes

open Ioapic (U32)
open Acpi (Byte LapicInfo IsaovrInfo EntryIsaovr select madtLapicEntryType madtIoapicEntryType
  madtIsaoverEntryType)

/-! ### The table -/

/-- The MADT: the length in its header, and the bytes from `entries` on. -/
structure Table where
  length : U32
  entries : ℕ → Byte

namespace Table

variable (t : Table) (i : ℕ)

/-- `len` in `acpi_intr_init`. -/
def len : U32 := t.length - 8 - 36

/-- `hdr->type` of the entry at an offset. -/
def type : Byte := t.entries i

/-- The 16 bits at an offset. -/
def u16 : BitVec 16 := t.entries (i + 1) ++ t.entries i

/-- The 32 bits at an offset. -/
def u32 : U32 := t.u16 (i + 2) ++ t.u16 i

/-- The LAPIC at an offset, as `save_lapic` stores it. -/
def lapic : LapicInfo where
  processorId := t.entries (i + 2)
  apicId := t.entries (i + 3)

/-- The ISA override at an offset. -/
def isaovr : EntryIsaovr where
  busSrc := t.entries (i + 2)
  irqSrc := t.entries (i + 3)
  globalSysInt := t.u32 (i + 4)
  flags := t.u16 (i + 8)

end Table

/-! ### The arrays -/

/-- `x++` of an `int`. -/
def incr (x : ℤ) : ℤ := Int.bmod (x + 1) (2 ^ 32)

/-- An array of ISA overrides: how many it was allocated for, and the memory from there on. -/
structure IsaovrArray where
  count : ℤ
  data : ℤ → IsaovrInfo

/-- `ioapic_info_t`. -/
structure IoapicInfo where
  ioApicId : Byte
  ioApicBaseAddr : U32
  globalSysIntBase : U32
  isaovrCnt : ℤ
  isaovrIdx : ℤ
  isaovrs : Option IsaovrArray

/-- The IOAPIC at an offset, as `save_ioapic` stores it. -/
def Table.ioapic (t : Table) (i : ℕ) : IoapicInfo where
  ioApicId := t.entries (i + 2)
  ioApicBaseAddr := t.u32 (i + 4)
  globalSysIntBase := t.u32 (i + 8)
  isaovrCnt := 0
  isaovrIdx := 0
  isaovrs := none

/-- Where a store goes to: to a LAPIC or to an IOAPIC that is saved, to the IOAPIC of an override,
or to its array of overrides. -/
inductive Target where
  | lapic
  | ioapic
  | owner
  | isaovr (ioapic : ℕ)
deriving DecidableEq

/-- A store to the element of an array, which was allocated for `count` elements: for none, if it is
at `NULL`. -/
structure Write where
  target : Target
  idx : ℤ
  count : ℤ

/-- The static variables of `acpi_init.c`, with how many elements the arrays were allocated for, the
indices in `acpi_intr_init`, `bootstrap_alloc_pos`, and a history of the stores. -/
structure Vars where
  lapicCnt : ℤ
  ioapicCnt : ℤ
  lapicRoom : ℤ
  ioapicRoom : ℤ
  lapicData : ℕ → LapicInfo
  ioapicData : ℕ → IoapicInfo
  lapicIdx : U32
  ioapicIdx : U32
  pos : U64
  writes : List Write

/-- What memory holds that was allocated and not written. -/
structure Junk where
  lapics : ℕ → LapicInfo
  ioapics : ℕ → IoapicInfo
  isaovrs : ℤ → IsaovrInfo

/-- `sizeof(lapic_info_t)`. -/
def sizeofLapicInfo : U64 := 2

/-- `sizeof(ioapic_info_t)`. -/
def sizeofIoapicInfo : U64 := 32

/-- `sizeof(isaovr_info_t)`. -/
def sizeofIsaovrInfo : U64 := 12

/-- `malloc` of an array, with `bootstrap_alloc_pos` at `pos`: the position after it, or `none` when
it returns `NULL`. The count is extended to 64 bits with its sign. -/
def mallocArray (pos size : U64) (cnt : ℤ) : Option U64 :=
  bootstrapMalloc pos (size * BitVec.ofInt 64 cnt)

/-- How many elements there are in an array that was allocated like this. -/
def room (pos size : U64) (cnt : ℤ) : ℤ := if (mallocArray pos size cnt).isSome then cnt else 0

/-- `save_lapic`. -/
def saveLapic (v : Vars) (idx : U32) (lapic : LapicInfo) : Vars :=
  { v with
    lapicData := Function.update v.lapicData idx.toNat lapic
    writes := v.writes ++ [⟨.lapic, idx.toNat, v.lapicRoom⟩] }

/-- `save_ioapic`. -/
def saveIoapic (v : Vars) (idx : U32) (ioapic : IoapicInfo) : Vars :=
  { v with
    ioapicData := Function.update v.ioapicData idx.toNat ioapic
    writes := v.writes ++ [⟨.ioapic, idx.toNat, v.ioapicRoom⟩] }

/-- The IOAPIC that `save_isaovr` and `isaovr_count_update` find for an override. -/
def owner (v : Vars) (isaovr : EntryIsaovr) : ℕ :=
  select ((List.range v.ioapicCnt.toNat).map fun k => (v.ioapicData k).globalSysIntBase)
    isaovr.globalSysInt

/-- `isaovr_count_update`. -/
def isaovrCountUpdate (v : Vars) (isaovr : EntryIsaovr) : Vars :=
  let idx := owner v isaovr
  let info := v.ioapicData idx
  { v with
    ioapicData := Function.update v.ioapicData idx { info with isaovrCnt := incr info.isaovrCnt }
    writes := v.writes ++ [⟨.owner, idx, v.ioapicRoom⟩] }

/-- The array that `save_isaovr` stores to, and `bootstrap_alloc_pos` after it was allocated, if it
was `NULL` before. -/
def isaovrArray (junk : Junk) (pos : U64) (info : IoapicInfo) : Option IsaovrArray × U64 :=
  match info.isaovrs with
  | some a => (some a, pos)
  | none =>
      match mallocArray pos sizeofIsaovrInfo info.isaovrCnt with
      | some pos => (some { count := info.isaovrCnt, data := junk.isaovrs }, pos)
      | none => (none, pos)

/-- `save_isaovr`. What is stored at `NULL` is not kept. -/
def saveIsaovr (junk : Junk) (v : Vars) (isaovr : EntryIsaovr) : Vars :=
  let idx := owner v isaovr
  let info := v.ioapicData idx
  let (isaovrs, pos) := isaovrArray junk v.pos info
  let isaovrIdx := info.isaovrIdx
  let stored := isaovrs.map fun a =>
    { a with data := Function.update a.data isaovrIdx isaovr.info }
  { v with
    ioapicData := Function.update v.ioapicData idx
      { info with isaovrIdx := incr isaovrIdx, isaovrs := stored }
    pos := pos
    writes := v.writes ++ [⟨.owner, idx, v.ioapicRoom⟩,
      ⟨.isaovr idx, isaovrIdx, isaovrs.elim 0 IsaovrArray.count⟩] }

/-! ### The loops -/

/-- A loop over the entries, from the offset `i` on, for at most `n` tests of its condition: the
offsets of the entries that it comes to, and the variables afterwards. -/
def loop (t : Table) (body : Vars → ℕ → Vars) : (n : ℕ) → (i : U32) → Vars → Option (List ℕ × Vars)
  | 0, _, _ => none
  | n + 1, i, v =>
      if i < t.len then
        let v := body v i.toNat
        let entrySize := t.entries (i.toNat + 1)
        let next := i + entrySize.setWidth 32
        let next := if entrySize = 0 then next + 8 else next
        (loop t body n next v).map fun r => (i.toNat :: r.1, r.2)
      else some ([], v)

variable (t : Table)

/-- The first loop, at an entry. -/
def countEntry (v : Vars) (i : ℕ) : Vars :=
  if t.type i = madtLapicEntryType then { v with lapicCnt := incr v.lapicCnt }
  else if t.type i = madtIoapicEntryType then { v with ioapicCnt := incr v.ioapicCnt }
  else v

/-- The second loop, at an entry. -/
def saveEntry (v : Vars) (i : ℕ) : Vars :=
  if t.type i = madtLapicEntryType then
    { saveLapic v v.lapicIdx (t.lapic i) with lapicIdx := v.lapicIdx + 1 }
  else if t.type i = madtIoapicEntryType then
    { saveIoapic v v.ioapicIdx (t.ioapic i) with ioapicIdx := v.ioapicIdx + 1 }
  else v

/-- The third loop, at an entry. -/
def countIsaovr (v : Vars) (i : ℕ) : Vars :=
  if t.type i = madtIsaoverEntryType then isaovrCountUpdate v (t.isaovr i) else v

/-- The last loop, at an entry. -/
def applyIsaovr (junk : Junk) (v : Vars) (i : ℕ) : Vars :=
  if t.type i = madtIsaoverEntryType then saveIsaovr junk v (t.isaovr i) else v

/-- The variables before `acpi_intr_init`, and what the arrays will hold when they are allocated. -/
def start (pos : U64) (junk : Junk) : Vars where
  lapicCnt := 0
  ioapicCnt := 0
  lapicRoom := 0
  ioapicRoom := 0
  lapicData := junk.lapics
  ioapicData := junk.ioapics
  lapicIdx := 0
  ioapicIdx := 0
  pos := pos
  writes := []

/-- The allocation of the arrays. -/
def allocate (v : Vars) : Vars :=
  let pos := (mallocArray v.pos sizeofLapicInfo v.lapicCnt).getD v.pos
  { v with
    lapicRoom := room v.pos sizeofLapicInfo v.lapicCnt
    ioapicRoom := room pos sizeofIoapicInfo v.ioapicCnt
    pos := (mallocArray pos sizeofIoapicInfo v.ioapicCnt).getD pos }

/-- The offsets that the four loops come to, and the variables after them. -/
structure Run where
  first : List ℕ
  second : List ℕ
  third : List ℕ
  fourth : List ℕ
  vars : Vars

/-- `acpi_intr_init`, where each loop tests its condition at most `n` times. -/
def acpiIntrInit (pos : U64) (junk : Junk) (n : ℕ) : Option Run := do
  let (first, v) ← loop t (countEntry t) n 0 (start pos junk)
  let (second, v) ← loop t (saveEntry t) n 0 (allocate v)
  let (third, v) ← loop t (countIsaovr t) n 0 v
  let (fourth, v) ← loop t (applyIsaovr t junk) n 0 v
  some { first := first, second := second, third := third, fourth := fourth, vars := v }

/-! ### What should hold -/

/-- The bytes that an entry takes. -/
def entryBytes (i : ℕ) : ℕ :=
  if t.entries (i + 1) = 0 then 8 else (t.entries (i + 1)).toNat

/-- The bytes that the loops read of an entry. -/
def bytesRead (i : ℕ) : ℕ :=
  if t.type i = madtLapicEntryType then 4
  else if t.type i = madtIoapicEntryType then 12
  else if t.type i = madtIsaoverEntryType then 10
  else 2

/-- The offsets of entries that follow each other from `i` on, at most `n` of them. -/
def offsetsFrom : (n i : ℕ) → List ℕ
  | 0, _ => []
  | n + 1, i => if i < t.len.toNat then i :: offsetsFrom n (i + entryBytes t i) else []

/-- The offsets of the entries: there are not more than bytes. -/
def offsets : List ℕ := offsetsFrom t t.len.toNat 0

/-- The offsets of the entries of a type. -/
def ofType (type : Byte) : List ℕ := (offsets t).filter (t.type · = type)

/-- The number of entries of a type. -/
def number (type : Byte) : ℕ := (ofType t type).length

/-- The IOAPIC that an override belongs to. -/
def ownerOf (i : ℕ) : ℕ :=
  select ((ofType t madtIoapicEntryType).map fun i => (t.ioapic i).globalSysIntBase)
    (t.isaovr i).globalSysInt

/-- The number of overrides that belong to an IOAPIC. -/
def overridesOf (k : ℕ) : ℕ := (ofType t madtIsaoverEntryType).countP (ownerOf t · = k)

/-- What `malloc` takes for an array. -/
def arrayBytes (size : U64) (cnt : ℕ) : ℕ := (size.toNat * cnt + 15) / 16 * 16

/-- The arrays fit into what is left of the area of `bootstrap_malloc`. -/
def Fits (pos : U64) : Prop :=
  pos.toNat + arrayBytes sizeofLapicInfo (number t madtLapicEntryType)
      + arrayBytes sizeofIoapicInfo (number t madtIoapicEntryType)
      + ∑ k ∈ Finset.range (number t madtIoapicEntryType),
        arrayBytes sizeofIsaovrInfo (overridesOf t k)
    < bootstrapAllocAreaSize.toNat

/-- A table whose entries are not read past its end, with an IOAPIC. -/
structure Inside : Prop where
  length : 44 ≤ t.length.toNat
  read : ∀ i ∈ offsets t, i + bytesRead t i ≤ t.len.toNat
  ioapic : ofType t madtIoapicEntryType ≠ []

/-- No entry takes so many bytes that the offset after it wraps around. -/
def NoWrap : Prop := ∀ i ∈ offsets t, i + entryBytes t i < 2 ^ 32

/-- The loops come to the same entries, and store inside of the arrays: to each LAPIC and each
IOAPIC once, in the order of the table, and as many overrides as were counted. -/
structure Good (r : Run) : Prop where
  second : r.second = r.first
  third : r.third = r.first
  fourth : r.fourth = r.first
  inside : ∀ w ∈ r.vars.writes, 0 ≤ w.idx ∧ w.idx < w.count
  lapics : (r.vars.writes.filter (·.target = .lapic)).map Write.idx
    = (List.range r.vars.lapicCnt.toNat).map Nat.cast
  ioapics : (r.vars.writes.filter (·.target = .ioapic)).map Write.idx
    = (List.range r.vars.ioapicCnt.toNat).map Nat.cast
  lapicData : ∀ k i, (r.first.filter (t.type · = madtLapicEntryType))[k]? = some i →
    r.vars.lapicData k = t.lapic i
  ioapicData : ∀ k i, (r.first.filter (t.type · = madtIoapicEntryType))[k]? = some i →
    { r.vars.ioapicData k with isaovrCnt := 0, isaovrIdx := 0, isaovrs := none } = t.ioapic i
  isaovrs : ∀ k : ℕ, k < r.vars.ioapicCnt →
    (r.vars.ioapicData k).isaovrIdx = (r.vars.ioapicData k).isaovrCnt

/-- `acpi_intr_init` ends, and all is as it should be. -/
def Initializes (pos : U64) : Prop :=
  ∀ junk, ∃ n r, acpiIntrInit t pos junk n = some r ∧ Good t r

/-! ### The walks -/

section Walks

variable {t} {body : Vars → ℕ → Vars} {v : Vars} {n i : ℕ}

theorem entryBytes_pos (i : ℕ) :
  0 < entryBytes t i
  := by
  rw [entryBytes]
  split
  · decide
  · next hne =>
    apply Nat.pos_of_ne_zero
    intro hzero
    apply hne (BitVec.eq_of_toNat_eq hzero)

/-- The entries begin before the end of the table. -/
theorem lt_of_mem_offsetsFrom {j : ℕ} (h : j ∈ offsetsFrom t n i) :
  j < t.len.toNat
  := by
  induction n generalizing i with
  | zero => cases h
  | succ n ih =>
      rw [offsetsFrom] at h
      split at h
      · rcases List.mem_cons.mp h with rfl | h
        · assumption
        · apply ih h
      · cases h

/-- The offset after an entry. -/
theorem next_eq (i : ℕ) :
  (if t.entries (i + 1) = 0 then BitVec.ofNat 32 i + (t.entries (i + 1)).setWidth 32 + 8
    else BitVec.ofNat 32 i + (t.entries (i + 1)).setWidth 32)
    = BitVec.ofNat 32 (i + entryBytes t i)
  := by
  rw [entryBytes]
  split
  · next hzero =>
    rw [hzero, BitVec.ofNat_add]
    apply congrArg (· + 8) (BitVec.add_zero _)
  · rw [BitVec.ofNat_add, BitVec.ofNat_toNat]

/-- A loop comes to the entries, and takes its body at each of them. -/
theorem loop_eq (hwrap : ∀ j ∈ offsetsFrom t n i, j + entryBytes t j < 2 ^ 32) (hi : i < 2 ^ 32)
    (hn : t.len.toNat ≤ i + n) :
  loop t body (n + 1) (BitVec.ofNat 32 i) v
    = some (offsetsFrom t n i, (offsetsFrom t n i).foldl body v)
  := by
  have htoNat : (BitVec.ofNat 32 i).toNat = i := by
    rw [BitVec.toNat_ofNat, Nat.mod_eq_of_lt hi]
  have hlt : BitVec.ofNat 32 i < t.len ↔ i < t.len.toNat := by
    rw [BitVec.lt_def, htoNat]
  induction n generalizing i v with
  | zero =>
      rw [loop, if_neg (by rw [hlt]; omega), offsetsFrom]
      rfl
  | succ n ih =>
      have hpos := entryBytes_pos (t := t) i
      rw [loop, offsetsFrom]
      by_cases hin : i < t.len.toNat
      · rw [offsetsFrom, if_pos hin] at hwrap
        have hnext := hwrap i (List.mem_cons_self ..)
        have htoNat' : (BitVec.ofNat 32 (i + entryBytes t i)).toNat = i + entryBytes t i := by
          rw [BitVec.toNat_ofNat, Nat.mod_eq_of_lt hnext]
        rw [if_pos (hlt.mpr hin), if_pos hin, List.foldl_cons, htoNat]
        dsimp only
        rw [next_eq, ih (fun j hj => hwrap j (List.mem_cons_of_mem _ hj)) hnext (by omega) htoNat'
          (by rw [BitVec.lt_def, htoNat'])]
        rfl
      · rw [if_neg (mt hlt.mp hin), if_neg hin]
        rfl

/-- A loop that has ended does not go on. -/
theorem loop_mono {j : U32} {r : List ℕ × Vars} (h : loop t body n j v = some r) (k : ℕ) :
  loop t body (n + k) j v = some r
  := by
  induction n generalizing j v r with
  | zero => cases h
  | succ n ih =>
      rw [Nat.succ_add, loop]
      rw [loop] at h
      split
      · next hlt =>
        rw [if_pos hlt] at h
        obtain ⟨r', hr', hr⟩ := Option.map_eq_some_iff.mp h
        dsimp only
        rw [ih hr', Option.map_some, hr]
      · next hge =>
        rw [if_neg hge] at h
        exact h

/-- Where no offset wraps around, a loop that ends has come to the entries. -/
theorem loop_offsets (hwrap : NoWrap t) {r : List ℕ × Vars} (h : loop t body n 0 v = some r) :
  r = (offsets t, (offsets t).foldl body v)
  := by
  have hall : loop t body (t.len.toNat + 1) (BitVec.ofNat 32 0) v
      = some (offsets t, (offsets t).foldl body v) := by
    apply loop_eq hwrap (by decide)
    omega
  have hmore := loop_mono hall n
  have hr := loop_mono h (t.len.toNat + 1)
  rw [Nat.add_comm] at hr
  apply Option.some.inj (hr.symm.trans hmore)

/-- The variables when the arrays are allocated. -/
def allocated (t : Table) (pos : U64) (junk : Junk) : Vars :=
  allocate ((offsets t).foldl (countEntry t) (start pos junk))

/-- The variables after the first two loops. -/
def filled (t : Table) (pos : U64) (junk : Junk) : Vars :=
  (offsets t).foldl (saveEntry t) (allocated t pos junk)

/-- The variables after the four loops. -/
def finish (t : Table) (pos : U64) (junk : Junk) : Vars :=
  (offsets t).foldl (applyIsaovr t junk) ((offsets t).foldl (countIsaovr t) (filled t pos junk))

theorem acpiIntrInit_of_some (hwrap : NoWrap t) {pos : U64} {junk : Junk} {r : Run}
    (h : acpiIntrInit t pos junk n = some r) :
  r = ⟨offsets t, offsets t, offsets t, offsets t, finish t pos junk⟩
  := by
  simp only [acpiIntrInit, Option.bind_eq_bind, Option.bind_eq_some_iff] at h
  obtain ⟨r₁, h₁, r₂, h₂, r₃, h₃, r₄, h₄, h⟩ := h
  obtain rfl := loop_offsets hwrap h₁
  obtain rfl := loop_offsets hwrap h₂
  obtain rfl := loop_offsets hwrap h₃
  obtain rfl := loop_offsets hwrap h₄
  cases h
  rfl

theorem acpiIntrInit_eq (hwrap : NoWrap t) (pos : U64) (junk : Junk) :
  acpiIntrInit t pos junk (t.len.toNat + 1)
    = some ⟨offsets t, offsets t, offsets t, offsets t, finish t pos junk⟩
  := by
  have hloop (body : Vars → ℕ → Vars) (v : Vars) : loop t body (t.len.toNat + 1) 0 v
      = some (offsets t, (offsets t).foldl body v) := by
    apply loop_eq hwrap (by decide)
    omega
  simp only [acpiIntrInit, hloop, Option.bind_eq_bind, Option.bind_some]
  rfl

end Walks

/-! ### Counting -/

section Counting

variable {t}

theorem incr_toInt32 (a : ℕ) :
  incr (toInt32 a) = toInt32 (a + 1)
  := Int.bmod_add_bmod

/-- The first loop counts the LAPICs and the IOAPICs, as far as an `int` goes. -/
theorem foldl_countEntry (is : List ℕ) (v : Vars) {a b : ℕ} (ha : v.lapicCnt = toInt32 a)
    (hb : v.ioapicCnt = toInt32 b) :
  is.foldl (countEntry t) v = { v with
    lapicCnt := toInt32 (a + is.countP (t.type · = madtLapicEntryType))
    ioapicCnt := toInt32 (b + is.countP (t.type · = madtIoapicEntryType)) }
  := by
  have hne : madtLapicEntryType ≠ madtIoapicEntryType := by decide
  induction is generalizing v a b with
  | nil =>
      rw [List.foldl_nil, List.countP_nil, List.countP_nil, Nat.add_zero, Nat.add_zero, ← ha, ← hb]
  | cons i is ih =>
      have hcount (type : Byte) : (i :: is).countP (t.type · = type)
          = is.countP (t.type · = type) + if t.type i = type then 1 else 0 := by
        rw [List.countP_cons]
        simp only [decide_eq_true_eq]
      rw [List.foldl_cons, countEntry, hcount, hcount]
      by_cases hlapic : t.type i = madtLapicEntryType
      · have hioapic : t.type i ≠ madtIoapicEntryType := hlapic ▸ hne
        rw [if_pos hlapic, if_pos hlapic, if_neg hioapic, Nat.add_zero, Nat.add_comm _ 1,
          ← Nat.add_assoc]
        apply ih { v with lapicCnt := incr v.lapicCnt } _ hb
        rw [ha, incr_toInt32]
      · rw [if_neg hlapic, if_neg hlapic, Nat.add_zero]
        by_cases hioapic : t.type i = madtIoapicEntryType
        · rw [if_pos hioapic, if_pos hioapic, Nat.add_comm _ 1, ← Nat.add_assoc]
          apply ih { v with ioapicCnt := incr v.ioapicCnt } ha
          rw [hb, incr_toInt32]
        · rw [if_neg hioapic, if_neg hioapic, Nat.add_zero]
          apply ih v ha hb

/-- The variables before the arrays are allocated. -/
theorem counted (pos : U64) (junk : Junk) :
  (offsets t).foldl (countEntry t) (start pos junk) = { start pos junk with
    lapicCnt := toInt32 (number t madtLapicEntryType)
    ioapicCnt := toInt32 (number t madtIoapicEntryType) }
  := by
  rw [foldl_countEntry (a := 0) (b := 0) (offsets t) (start pos junk) rfl rfl, Nat.zero_add,
    Nat.zero_add, List.countP_eq_length_filter, List.countP_eq_length_filter]
  rfl

/-- There are not more entries than bytes. -/
theorem length_offsetsFrom (n i : ℕ) :
  (offsetsFrom t n i).length ≤ t.len.toNat - i
  := by
  induction n generalizing i with
  | zero => exact Nat.zero_le _
  | succ n ih =>
      have hpos := entryBytes_pos (t := t) i
      have hrest := ih (i + entryBytes t i)
      rw [offsetsFrom]
      split
      · rw [List.length_cons]
        omega
      · exact Nat.zero_le _

/-- The byte after the type of an entry that takes one byte is the type 1 of the next: two entries
of any other type are at least two bytes apart. -/
theorem countP_offsetsFrom {type : Byte} (htype : type ≠ madtIoapicEntryType) (n i : ℕ) :
  (offsetsFrom t n i).countP (t.type · = type) ≤ (t.len.toNat - i + 1) / 2
    ∧ (t.type i ≠ type → (offsetsFrom t n i).countP (t.type · = type) ≤ (t.len.toNat - i) / 2)
  := by
  induction n generalizing i with
  | zero =>
      rw [offsetsFrom, List.countP_nil]
      omega
  | succ n ih =>
      have hpos := entryBytes_pos (t := t) i
      obtain ⟨hall, hother⟩ := ih (i + entryBytes t i)
      rw [offsetsFrom]
      by_cases hin : i < t.len.toNat
      · rw [if_pos hin, List.countP_cons]
        by_cases hi : t.type i = type
        · rw [if_pos (by simpa using hi)]
          by_cases hone : entryBytes t i = 1
          · -- the next entry is of another type
            have hnext : t.type (i + 1) ≠ type := by
              have hbyte : t.entries (i + 1) = 1 := by
                rw [entryBytes] at hone
                split at hone
                · omega
                · apply BitVec.eq_of_toNat_eq hone
              rw [Table.type, hbyte]
              exact htype.symm
            rw [hone] at hother
            have hrest := hother hnext
            rw [hone]
            constructor
            · omega
            · intro hne
              apply absurd hi hne
          · constructor
            · omega
            · intro hne
              apply absurd hi hne
        · rw [if_neg (by simpa using hi)]
          omega
      · rw [if_neg hin, List.countP_nil]
        omega

theorem number_lt {type : Byte} (htype : type ≠ madtIoapicEntryType)
    (hlength : 44 ≤ t.length.toNat) :
  number t type < 2 ^ 31
  := by
  have hcount := (countP_offsetsFrom (t := t) htype t.len.toNat 0).1
  have hlen : t.len.toNat = t.length.toNat - 44 := by
    have h8 : (8 : U32).toNat = 8 := rfl
    have h36 : (36 : U32).toNat = 36 := rfl
    have hlt := t.length.isLt
    rw [Table.len, BitVec.toNat_sub, BitVec.toNat_sub, h8, h36]
    omega
  have hlt := t.length.isLt
  rw [List.countP_eq_length_filter] at hcount
  change (ofType t type).length ≤ _ at hcount
  rw [number]
  omega

end Counting

/-! ### Allocating -/

section Allocating

variable {pos size : U64} {cnt : ℕ}

@[simp]
theorem arrayBytes_zero (size : U64) :
  arrayBytes size 0 = 0
  := by
  rw [arrayBytes, Nat.mul_zero]

/-- An array of elements that there is room for. -/
theorem mallocArray_of_lt (hsize : 0 < size.toNat) (hcnt : 0 < cnt)
    (hlt : pos.toNat + arrayBytes size cnt < bootstrapAllocAreaSize.toNat) :
  ∃ pos', mallocArray pos size cnt = some pos' ∧ pos'.toNat = pos.toNat + arrayBytes size cnt
  := by
  have harea : bootstrapAllocAreaSize.toNat = 2 ^ 27 := rfl
  have hpos : 0 < size.toNat * cnt := Nat.mul_pos hsize hcnt
  have hle : cnt ≤ size.toNat * cnt := Nat.le_mul_of_pos_left cnt hsize
  rw [arrayBytes] at hlt ⊢
  have hbytes : (size * BitVec.ofInt 64 cnt).toNat = size.toNat * cnt := by
    rw [BitVec.ofInt_natCast, BitVec.toNat_mul, BitVec.toNat_ofNat,
      Nat.mod_eq_of_lt (by omega : cnt < 2 ^ 64), Nat.mod_eq_of_lt (by omega)]
  have hrounded : Heap.rounded (size * BitVec.ofInt 64 cnt)
      = (size.toNat * cnt + 15) / 16 * 16 := by
    rw [Heap.rounded, hbytes]
  rw [← hrounded] at hlt ⊢
  exact Heap.bootstrapMalloc_of_lt (by omega) hlt

/-- `malloc` of no bytes returns `NULL`. -/
theorem mallocArray_zero (pos size : U64) :
  mallocArray pos size 0 = none
  := by
  have hzero : size * BitVec.ofInt 64 0 = 0 := BitVec.mul_zero
  rw [mallocArray, hzero]
  rfl

/-- An array that there is room for has the elements that it was allocated for. -/
theorem room_of_lt (hsize : 0 < size.toNat)
    (hlt : pos.toNat + arrayBytes size cnt < bootstrapAllocAreaSize.toNat) :
  room pos size cnt = cnt
    ∧ ((mallocArray pos size cnt).getD pos).toNat = pos.toNat + arrayBytes size cnt
  := by
  rcases Nat.eq_zero_or_pos cnt with rfl | hcnt
  · rw [room, Nat.cast_zero, mallocArray_zero, arrayBytes_zero]
    exact ⟨rfl, rfl⟩
  · obtain ⟨pos', hpos', hmoved⟩ := mallocArray_of_lt hsize hcnt hlt
    rw [room, hpos']
    exact ⟨rfl, hmoved⟩

end Allocating

end Passes
