import Gubernatrix.BootInfo
import Mathlib.Data.List.Range
import Mathlib.Logic.Function.Basic

/-!
# The memory map and the firmware's map

The loop of `set_bootinfo` over the memory map tag, entry by entry, with the buffer it writes
the map to. The map that it leaves is meant to be the firmware's map without what lies below
2 MiB and without the kernel. The count that is published is the number of entries of the tag,
while the elements that are written are those of the entries that were not skipped: the map is
the intended one exactly when no entry is skipped.
-/

namespace BootInfo

/-- `multiboot_tag_mmap`. The entries are given by their offset in bytes from `entries`. -/
structure MultibootTagMmap where
  size : BitVec 32
  entrySize : BitVec 32
  entries : ℕ → MultibootMemoryMap

/-- `entryCount`. -/
def MultibootTagMmap.entryCount (mmap : MultibootTagMmap) : ℕ :=
  ((mmap.size - 16) / mmap.entrySize).toNat

/-- The variables of the loop of `set_bootinfo` over the entries, with the indices of the map
it has written so far. -/
structure MmapLoop where
  memorySize : U64
  mmapEntry : ℕ
  map : ℕ → MemMap
  written : List ℕ

/-- The variables in front of the loop, with `previous` in the buffer. -/
def MmapLoop.start (previous : ℕ → MemMap) : MmapLoop where
  memorySize := 0
  mmapEntry := 0
  map := previous
  written := []

/-- The body of the loop at an entry. -/
def MmapLoop.record (kernelEndPhys : U64) (s : MmapLoop) (e : MultibootMemoryMap) : MmapLoop :=
  let size := if e.type = multibootMemoryAvailable then s.memorySize + e.len else s.memorySize
  match recordEntry kernelEndPhys e with
  | none => { s with memorySize := size }
  | some m =>
    { memorySize := size
      mmapEntry := s.mmapEntry + 1
      map := Function.update s.map s.mmapEntry m
      written := s.written ++ [s.mmapEntry] }

/-- The loop from offset `j` on, `none` when it is still running after `fuel` rounds. -/
def mmapLoop (kernelEndPhys : U64) (mmap : MultibootTagMmap) :
    ℕ → BitVec 32 → MmapLoop → Option MmapLoop
  | 0, _, _ => none
  | fuel + 1, j, s =>
    if j < mmap.size - 16 then
      mmapLoop kernelEndPhys mmap fuel (j + mmap.entrySize)
        (s.record kernelEndPhys (mmap.entries j.toNat))
    else some s

/-- The memory map tag in `set_bootinfo`, with `previous` in the memory that
`bootstrap_malloc` returns: the fields it sets and the indices of the map it has written. -/
def setMemoryMap (fuel : ℕ) (pos kernelEndPhys : U64) (mmap : MultibootTagMmap)
    (previous : ℕ → MemMap) : Option (Info × List ℕ) := do
  let entryCount := mmap.entryCount
  if entryCount ≠ 0 ∧ bootstrapMalloc pos (24 * BitVec.ofNat 64 entryCount) = none then none
  else
    let s ← mmapLoop kernelEndPhys mmap fuel 0 (.start previous)
    some ({ memorySize := s.memorySize
            memoryMapCount := entryCount
            memoryMap := (List.range entryCount).map s.map }, s.written)

/-! ### The regions of the tag -/

/-- The entries of the tag in their order. -/
def MultibootTagMmap.regions (mmap : MultibootTagMmap) : List MultibootMemoryMap :=
  (List.range mmap.entryCount).map fun k => mmap.entries (k * mmap.entrySize.toNat)

/-- The entries have room for their fields and fill the tag. -/
structure MultibootTagMmap.WellFormed (mmap : MultibootTagMmap) : Prop where
  room : 24 ≤ mmap.entrySize.toNat
  fill : mmap.entrySize.toNat ∣ (mmap.size - 16).toNat

/-- The entries of a well-formed tag end where the tag ends. -/
theorem MultibootTagMmap.WellFormed.end_eq {mmap : MultibootTagMmap} (hmmap : mmap.WellFormed) :
  mmap.entryCount * mmap.entrySize.toNat = (mmap.size - 16).toNat
  := by
  rw [entryCount, BitVec.toNat_udiv]
  apply Nat.div_mul_cancel hmmap.fill

/-- The region holds the byte. -/
def MultibootMemoryMap.Holds (e : MultibootMemoryMap) (x : U64) : Prop :=
  e.addr.toNat ≤ x.toNat ∧ x.toNat < e.addr.toNat + e.len.toNat

/-- The element of the map holds the byte. -/
def MemMap.Holds (m : MemMap) (x : U64) : Prop :=
  m.addr.toNat ≤ x.toNat ∧ x.toNat < m.addr.toNat + m.len.toNat

/-- A byte that the map may hold: at or above 2 MiB and not in the kernel. -/
def Usable (kernelEndPhys x : U64) : Prop :=
  mib 2 ≤ x ∧ ¬ (kernelStartPhys ≤ x ∧ x < kernelEndPhys)

/-- The map is the one of the tag without the reserved bytes, and its elements were written. -/
structure Exact (kernelEndPhys : U64) (mmap : MultibootTagMmap) (info : Info)
    (written : List ℕ) : Prop where
  count : info.memoryMap.length = info.memoryMapCount
  holds : ∀ (x : U64) (t : BitVec 32),
    (∃ m ∈ info.memoryMap, m.type = t ∧ m.Holds x) ↔
      (∃ e ∈ mmap.regions, e.type = t ∧ e.Holds x) ∧ Usable kernelEndPhys x
  written : ∀ i < info.memoryMapCount, i ∈ written

/-- The entry is not skipped: it reaches past 2 MiB, or begins there, and its end, taken modulo
`2 ^ 64`, is not in front of the end of the kernel. -/
def Kept (kernelEndPhys : U64) (e : MultibootMemoryMap) : Prop :=
  (2 ^ 21 ≤ e.addr.toNat ∨ 2 ^ 21 < e.addr.toNat + e.len.toNat) ∧
    kernelEndPhys.toNat ≤ (e.addr.toNat + e.len.toNat) % 2 ^ 64

/-! ### An entry that is not skipped -/

theorem reserveLow_isSome {e : MultibootMemoryMap} (hwrap : NoWrap e) :
  (reserveLow e).isSome ↔ 2 ^ 21 ≤ e.addr.toNat ∨ 2 ^ 21 < e.addr.toNat + e.len.toNat
  := by
  unfold NoWrap at hwrap
  rw [reserveLow]
  simp only [BitVec.lt_def, ge_iff_le, BitVec.le_def, toNat_mib_two]
  split
  next hlow =>
    have hdiff : (mib 2 - e.addr).toNat = 2 ^ 21 - e.addr.toNat :=
      BitVec.toNat_sub_of_le (by rw [BitVec.le_def, toNat_mib_two]; omega)
    rw [hdiff]
    split
    next hskip =>
      simp only [Option.isSome_none, Bool.false_eq_true, false_iff]
      omega
    next hrest =>
      simp only [Option.isSome_some, true_iff]
      omega
  next hhigh =>
    simp only [Option.isSome_some, true_iff]
    omega

/-- What `reserveLow` leaves of a region begins where the region does, or at 2 MiB. -/
theorem reserveLow_addr {e e' : MultibootMemoryMap} (h : reserveLow e = some e') :
  e'.addr.toNat ≤ max e.addr.toNat (2 ^ 21)
  := by
  rw [reserveLow] at h
  dsimp only at h
  split at h
  next hlow =>
    split at h
    next => cases h
    next hrest =>
      obtain rfl := Option.some.inj h
      have haddr : e.addr + (mib 2 - e.addr) = mib 2 := by
        rw [BitVec.add_comm]
        apply BitVec.sub_add_cancel
      rw [haddr, toNat_mib_two]
      apply le_max_right
  next hhigh =>
    obtain rfl := Option.some.inj h
    apply le_max_left

theorem reserveKernel_isSome {ke : U64} {e : MultibootMemoryMap}
    (hstart : 2 ^ 21 ≤ e.addr.toNat) :
  (reserveKernel ke e).isSome ↔ ke.toNat ≤ (e.addr.toNat + e.len.toNat) % 2 ^ 64
  := by
  have hks : kernelStartPhys.toNat = 2 ^ 21 := rfl
  rw [reserveKernel]
  simp only [BitVec.lt_def, ge_iff_le, BitVec.le_def, hks, BitVec.toNat_add]
  rw [if_pos hstart]
  split
  next hskip =>
    simp only [Option.isSome_none, Bool.false_eq_true, false_iff]
    omega
  next hend =>
    rw [← not_lt]
    simp only [hend, not_false_eq_true, iff_true]
    split <;> rfl

/-- What `reserveKernel` leaves of a region begins where the region does, or where the kernel
ends. -/
theorem reserveKernel_addr {ke : U64} {e e' : MultibootMemoryMap}
    (h : reserveKernel ke e = some e') :
  e'.addr.toNat ≤ max e.addr.toNat ke.toNat
  := by
  rw [reserveKernel] at h
  dsimp only at h
  split at h
  next hstart =>
    split at h
    next => cases h
    next hend =>
      split at h
      next hlow =>
        obtain rfl := Option.some.inj h
        have haddr : e.addr + (ke - e.addr) = ke := by
          rw [BitVec.add_comm]
          apply BitVec.sub_add_cancel
        rw [haddr]
        apply le_max_right
      next hhigh =>
        obtain rfl := Option.some.inj h
        apply le_max_left
  next hbefore =>
    obtain rfl := Option.some.inj h
    apply le_max_left

/-- The entries that are recorded are the kept ones. -/
theorem recordEntry_isSome {ke : U64} {e : MultibootMemoryMap} (hwrap : NoWrap e) :
  (recordEntry ke e).isSome ↔ Kept ke e
  := by
  have hlow := reserveLow_isSome hwrap
  unfold recordEntry Kept
  cases hr : reserveLow e with
  | none =>
    rw [hr] at hlow
    simp only [Option.bind_eq_bind, Option.bind_none, Option.isSome_none, Bool.false_eq_true,
      false_iff, not_and_or] at hlow ⊢
    left
    apply hlow
  | some e' =>
    rw [hr] at hlow
    obtain ⟨-, -, -, hstart, hsum⟩ := reserveLow_spec hwrap hr
    have hkernel := @reserveKernel_isSome ke e' hstart
    rw [hsum] at hkernel
    rw [← hkernel]
    simp only [Option.isSome_some, true_iff] at hlow
    simp only [hlow, true_and, Option.bind_eq_bind, Option.bind_some, Option.isSome_bind]
    cases reserveKernel ke e' <;> simp

/-- The element that is recorded for a region holds the bytes of the region that the map may
hold. -/
theorem recordEntry_holds {ke : U64} {e : MultibootMemoryMap} {m : MemMap} (hwrap : NoWrap e)
    (h : recordEntry ke e = some m) (x : U64) :
  m.Holds x ↔ e.Holds x ∧ Usable ke x
  := by
  obtain ⟨-, haddr, hlow, hkernel, hend⟩ := recordEntry_spec hwrap h
  have hbegin : m.addr.toNat ≤ max (max e.addr.toNat (2 ^ 21)) ke.toNat := by
    simp only [recordEntry, Option.bind_eq_bind, Option.bind_eq_some_iff] at h
    obtain ⟨e₁, h₁, e₂, h₂, hm⟩ := h
    obtain rfl := Option.some.inj hm
    have ha₁ := reserveLow_addr h₁
    have ha₂ := reserveKernel_addr h₂
    dsimp only
    omega
  have hks : kernelStartPhys.toNat = 2 ^ 21 := rfl
  unfold MemMap.Holds MultibootMemoryMap.Holds Usable
  rw [BitVec.le_def, BitVec.le_def, BitVec.lt_def, toNat_mib_two, hks]
  omega

/-! ### The loop -/

/-- The body of the loop at the entries of a list, one after the other. -/
def MmapLoop.recordAll (kernelEndPhys : U64) (s : MmapLoop) (es : List MultibootMemoryMap) :
    MmapLoop :=
  es.foldl (MmapLoop.record kernelEndPhys) s

theorem MmapLoop.recordAll_cons (ke : U64) (s : MmapLoop) (e : MultibootMemoryMap)
    (es : List MultibootMemoryMap) :
  s.recordAll ke (e :: es) = (s.record ke e).recordAll ke es
  := rfl

/-- The loop over a well-formed tag visits the entries from the `k`-th on, and ends. -/
theorem mmapLoop_run (ke : U64) {mmap : MultibootTagMmap} (hmmap : mmap.WellFormed) :
  ∀ (left fuel k : ℕ) (s : MmapLoop), k + left = mmap.entryCount → left < fuel →
    mmapLoop ke mmap fuel (BitVec.ofNat 32 (k * mmap.entrySize.toNat)) s
      = some (s.recordAll ke ((List.range' k left).map
          fun k => mmap.entries (k * mmap.entrySize.toNat)))
  := by
  have hend := hmmap.end_eq
  have hroom := hmmap.room
  have hsize := (mmap.size - 16).isLt
  intro left
  induction left with
  | zero =>
    intro fuel k s hk hfuel
    obtain ⟨fuel, rfl⟩ := Nat.exists_eq_add_of_lt hfuel
    rw [Nat.zero_add, mmapLoop, if_neg]
    · rfl
    · rw [Nat.add_zero] at hk
      rw [BitVec.lt_def, hk, hend, BitVec.toNat_ofNat, Nat.mod_eq_of_lt hsize]
      apply lt_irrefl
  | succ left ih =>
    intro fuel k s hk hfuel
    obtain ⟨fuel, rfl⟩ : ∃ f, fuel = f + 1 := Nat.exists_eq_add_one.mpr (Nat.zero_lt_of_lt hfuel)
    have hlt : k * mmap.entrySize.toNat < (mmap.size - 16).toNat := by
      rw [← hend]
      apply Nat.mul_lt_mul_of_pos_right
      · omega
      · omega
    have hnat : (BitVec.ofNat 32 (k * mmap.entrySize.toNat)).toNat = k * mmap.entrySize.toNat :=
      BitVec.toNat_ofNat .. ▸ Nat.mod_eq_of_lt (hlt.trans hsize)
    have hnext : BitVec.ofNat 32 (k * mmap.entrySize.toNat) + mmap.entrySize
        = BitVec.ofNat 32 ((k + 1) * mmap.entrySize.toNat) := by
      rw [Nat.succ_mul, BitVec.ofNat_add, BitVec.ofNat_toNat, BitVec.setWidth_eq]
    rw [mmapLoop, if_pos (by rwa [BitVec.lt_def, hnat]), hnext, ih fuel (k + 1) _ (by omega)
      (by omega), hnat, List.range'_succ, List.map_cons, MmapLoop.recordAll_cons]

/-- What the body of the loop does at the entries of a list: the elements recorded for the
entries that are not skipped follow each other in the map, from the entry the loop is at. -/
theorem MmapLoop.recordAll_spec (ke : U64) (es : List MultibootMemoryMap) :
  ∀ s : MmapLoop,
    (s.recordAll ke es).memorySize = es.foldl (fun sz e =>
        if e.type = multibootMemoryAvailable then sz + e.len else sz) s.memorySize ∧
    (s.recordAll ke es).written
      = s.written ++ List.range' s.mmapEntry (es.filterMap (recordEntry ke)).length ∧
    ∀ i, (s.recordAll ke es).map i = if i < s.mmapEntry then s.map i
      else (es.filterMap (recordEntry ke))[i - s.mmapEntry]?.getD (s.map i)
  := by
  induction es with
  | nil =>
    intro s
    refine ⟨rfl, (List.append_nil _).symm, ?_⟩
    intro i
    split <;> rfl
  | cons e es ih =>
    intro s
    obtain ⟨hsize, hwritten, hmap⟩ := ih (s.record ke e)
    rw [recordAll_cons, hsize, hwritten, List.foldl_cons]
    unfold record at hmap ⊢
    cases he : recordEntry ke e with
    | none =>
      rw [List.filterMap_cons_none he]
      rw [he] at hmap
      refine ⟨rfl, rfl, hmap⟩
    | some m =>
      rw [List.filterMap_cons_some he]
      rw [he] at hmap
      refine ⟨rfl, ?_, ?_⟩
      · rw [List.length_cons, List.range'_succ, List.append_assoc]
        rfl
      · intro i
        rw [hmap]
        dsimp only
        obtain hlt | heq | hgt := lt_trichotomy i s.mmapEntry
        · rw [if_pos (by omega), if_pos hlt, Function.update_of_ne hlt.ne]
        · rw [if_pos (by omega), if_neg (by omega), heq, Function.update_self, Nat.sub_self]
          rfl
        · rw [if_neg (by omega), if_neg (by omega), Function.update_of_ne hgt.ne',
            show i - s.mmapEntry = (i - (s.mmapEntry + 1)) + 1 by omega, List.getElem?_cons_succ]

/-- On a well-formed tag the loop ends, and the map holds the elements recorded for the entries
that were not skipped, followed by what was in the buffer. -/
theorem setMemoryMap_eq {pos ke : U64} {mmap : MultibootTagMmap} (hmmap : mmap.WellFormed)
    (hbuffer : mmap.entryCount = 0 ∨
      bootstrapMalloc pos (24 * BitVec.ofNat 64 mmap.entryCount) ≠ none)
    (previous : ℕ → MemMap) {fuel : ℕ} (hfuel : mmap.entryCount < fuel) :
  setMemoryMap fuel pos ke mmap previous = some
    ({ memorySize := memorySize mmap.regions
       memoryMapCount := mmap.entryCount
       memoryMap := (List.range mmap.entryCount).map fun i =>
         (mmap.regions.filterMap (recordEntry ke))[i]?.getD (previous i) },
      List.range (mmap.regions.filterMap (recordEntry ke)).length)
  := by
  have hrun := mmapLoop_run ke hmmap mmap.entryCount fuel 0 (.start previous) (Nat.zero_add _)
    hfuel
  rw [Nat.zero_mul, ← List.range_eq_range', ← MultibootTagMmap.regions] at hrun
  obtain ⟨hsize, hwritten, hmap⟩ := MmapLoop.recordAll_spec ke mmap.regions (.start previous)
  have hguard : ¬ (mmap.entryCount ≠ 0 ∧
      bootstrapMalloc pos (24 * BitVec.ofNat 64 mmap.entryCount) = none) := by tauto
  have hzero : (0 : BitVec 32) = 0#32 := rfl
  simp only [setMemoryMap, hguard, if_false, hzero, hrun, Option.bind_eq_bind, Option.bind_some,
    hsize, hwritten]
  congr 2
  · congr 1
    apply List.map_congr_left
    intro i hi
    rw [hmap, MmapLoop.start, if_neg (Nat.not_lt_zero i), Nat.sub_zero]
  · rw [List.range_eq_range']
    apply List.nil_append

/-- In a buffer of zeros the loop leaves the map of `setBootinfo`. -/
theorem setMemoryMap_zero {pos ke : U64} {mmap : MultibootTagMmap} (hmmap : mmap.WellFormed)
    {fuel : ℕ} (hfuel : mmap.entryCount < fuel) :
  (setMemoryMap fuel pos ke mmap fun _ => { addr := 0, len := 0, type := 0 }).map Prod.fst
    = setBootinfo pos ke mmap.regions
  := by
  have hlength : mmap.regions.length = mmap.entryCount := by
    rw [MultibootTagMmap.regions, List.length_map, List.length_range]
  by_cases hbuffer : mmap.entryCount ≠ 0 ∧
      bootstrapMalloc pos (24 * BitVec.ofNat 64 mmap.entryCount) = none
  · rw [setMemoryMap, setBootinfo, hlength, if_pos hbuffer, if_pos hbuffer]
    rfl
  · rw [setMemoryMap_eq hmmap (by tauto) _ hfuel, setBootinfo, hlength, if_neg hbuffer,
      Option.map_some]
    congr 1
    dsimp only
    congr 1
    have hle := List.length_filterMap_le (recordEntry ke) mmap.regions
    apply List.ext_getElem
    · rw [List.length_map, List.length_range, List.length_append, List.length_replicate]
      omega
    · intro i hi hi'
      rw [List.getElem_map, List.getElem_range, List.getElem_append]
      split
      next hrec => rw [List.getElem?_eq_getElem hrec, Option.getD_some]
      next hunused =>
        rw [List.getElem?_eq_none (by omega), List.getElem_replicate, Option.getD_none]

/-! ### The map against the tag -/

/-- An element that is recorded for each of the entries makes the map one of their elements. -/
theorem filterMap_kept {ke : U64} {es : List MultibootMemoryMap} (hwrap : ∀ e ∈ es, NoWrap e) :
  (es.filterMap (recordEntry ke)).length = es.length ↔ ∀ e ∈ es, Kept ke e
  := by
  rw [List.filterMap_length_eq_length]
  constructor
  · intro h e he
    rw [← recordEntry_isSome (hwrap e he)]
    apply h e he
  · intro h e he
    rw [recordEntry_isSome (hwrap e he)]
    apply h e he

/-- The recorded elements hold the bytes of the entries that the map may hold. -/
theorem filterMap_holds {ke : U64} {es : List MultibootMemoryMap} (hwrap : ∀ e ∈ es, NoWrap e)
    (hkept : ∀ e ∈ es, Kept ke e) (x : U64) (t : BitVec 32) :
  (∃ m ∈ es.filterMap (recordEntry ke), m.type = t ∧ m.Holds x) ↔
    (∃ e ∈ es, e.type = t ∧ e.Holds x) ∧ Usable ke x
  := by
  constructor
  · rintro ⟨m, hm, ht, hx⟩
    obtain ⟨e, he, hrec⟩ := List.mem_filterMap.mp hm
    rw [recordEntry_holds (hwrap e he) hrec] at hx
    obtain ⟨htype, -⟩ := recordEntry_spec (hwrap e he) hrec
    apply And.intro _ hx.2
    exact ⟨e, he, htype.symm.trans ht, hx.1⟩
  · rintro ⟨⟨e, he, ht, hx⟩, husable⟩
    have hsome := (recordEntry_isSome (hwrap e he)).mpr (hkept e he)
    obtain ⟨m, hrec⟩ := Option.isSome_iff_exists.mp hsome
    obtain ⟨htype, -⟩ := recordEntry_spec (hwrap e he) hrec
    use m, List.mem_filterMap.mpr ⟨e, he, hrec⟩, htype.trans ht
    rw [recordEntry_holds (hwrap e he) hrec]
    apply And.intro hx husable

/-- On a well-formed tag whose regions do not wrap, the map that `set_bootinfo` leaves holds
the bytes of the regions that lie at or above 2 MiB and not in the kernel, under their types,
and consists of written elements, exactly when no entry of the tag is skipped. -/
theorem memoryMap_exact_iff {pos ke : U64} {mmap : MultibootTagMmap} (hmmap : mmap.WellFormed)
    (hwrap : ∀ e ∈ mmap.regions, NoWrap e)
    (hbuffer : mmap.entryCount = 0 ∨
      bootstrapMalloc pos (24 * BitVec.ofNat 64 mmap.entryCount) ≠ none)
    (previous : ℕ → MemMap) {fuel : ℕ} (hfuel : mmap.entryCount < fuel) :
  ∃ info written, setMemoryMap fuel pos ke mmap previous = some (info, written) ∧
    (Exact ke mmap info written ↔ ∀ e ∈ mmap.regions, Kept ke e)
  := by
  have hlength : mmap.regions.length = mmap.entryCount := by
    rw [MultibootTagMmap.regions, List.length_map, List.length_range]
  refine ⟨_, _, setMemoryMap_eq hmmap hbuffer previous hfuel, ?_⟩
  constructor
  · intro h
    rw [← filterMap_kept hwrap, hlength]
    apply Nat.le_antisymm
    · rw [← hlength]
      apply List.length_filterMap_le
    -- an index past the recorded elements is one that was not written
    · apply le_of_not_gt
      intro hlt
      have hin := h.written _ hlt
      rw [List.mem_range] at hin
      apply lt_irrefl _ hin
  · intro hkept
    have hall := (filterMap_kept hwrap).mpr hkept
    rw [hlength] at hall
    have hmap : (List.range mmap.entryCount).map (fun i =>
        (mmap.regions.filterMap (recordEntry ke))[i]?.getD (previous i))
        = mmap.regions.filterMap (recordEntry ke) := by
      apply List.ext_getElem
      · rw [List.length_map, List.length_range, hall]
      · intro i hi hi'
        rw [List.getElem_map, List.getElem_range, List.getElem?_eq_getElem hi', Option.getD_some]
    constructor
    · dsimp only
      rw [List.length_map, List.length_range]
    · dsimp only
      rw [hmap]
      apply filterMap_holds hwrap hkept
    · intro i hi
      rw [List.mem_range, hall]
      apply hi

/-- A tag with one region, the 64 MiB from 1 MiB on. -/
def oneRegion : MultibootTagMmap where
  size := 40
  entrySize := 24
  entries _ := { addr := mib 1, len := mib 64, type := multibootMemoryAvailable }

theorem memoryMap_exact_oneRegion :
  ∃ info written, setMemoryMap 2 0 (mib 3) oneRegion (fun _ => { addr := 0, len := 0, type := 0 })
      = some (info, written) ∧
    (Exact (mib 3) oneRegion info written ↔ ∀ e ∈ oneRegion.regions, Kept (mib 3) e)
  := by
  have hmmap : oneRegion.WellFormed := ⟨by decide, by decide⟩
  apply memoryMap_exact_iff hmmap
  · unfold NoWrap
    decide
  · right
    decide
  · decide

/-- A tag with one region, the conventional memory below 640 KiB. -/
def conventional : MultibootTagMmap where
  size := 40
  entrySize := 24
  entries _ := { addr := 0, len := 0x9fc00, type := multibootMemoryAvailable }

/-- The region of `conventional` is skipped, yet the map has one element, which is not written:
it is what the buffer held before, here a page at address 0. -/
theorem memoryMap_not_exact_conventional :
  ∃ info written, setMemoryMap 2 0 (mib 3) conventional
      (fun _ => { addr := 0, len := kib 4, type := multibootMemoryAvailable })
      = some (info, written) ∧
    ¬ Exact (mib 3) conventional info written
  := by
  have hmmap : conventional.WellFormed := ⟨by decide, by decide⟩
  refine ⟨_, _, setMemoryMap_eq hmmap (Or.inr (by decide)) _ (by decide), ?_⟩
  intro h
  have hzero := (h.holds 0 multibootMemoryAvailable).mp
    ⟨_, List.mem_singleton_self _, rfl, by unfold MemMap.Holds; decide⟩
  apply absurd hzero.2
  unfold Usable
  decide

end BootInfo
