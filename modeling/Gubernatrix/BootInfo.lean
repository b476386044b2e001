import Gubernatrix.BootstrapMalloc
import Mathlib.Data.List.Pairwise

/-!
# The memory map

`boot_info.c` copies the memory map that the boot loader left into `bootInfo`. What lies below
2 MiB or in the kernel is cut off the regions, or the region is skipped; the regions that
remain are recorded with their types.
-/

namespace BootInfo

/-- `MULTIBOOT_MEMORY_AVAILABLE`. -/
def multibootMemoryAvailable : BitVec 32 := 1

/-- `multiboot_memory_map_t`. -/
structure MultibootMemoryMap where
  addr : U64
  len : U64
  type : BitVec 32

/-- `MemMap`. -/
structure MemMap where
  addr : U64
  len : U64
  type : BitVec 32

/-- The fields of `BootInfo` that the memory map goes to. -/
structure Info where
  memorySize : U64
  memoryMapCount : ℕ
  memoryMap : List MemMap

/-- `kernel_start_phys`, the address `_region_kernel_start_` of the linker script. -/
def kernelStartPhys : U64 := mib 2

/-- The part of the loop of `set_bootinfo` that reserves everything below 2 MiB; `none` when
it skips the entry. -/
def reserveLow (e : MultibootMemoryMap) : Option MultibootMemoryMap :=
  if e.addr < mib 2 then
    let diff := mib 2 - e.addr
    if diff ≥ e.len then none
    else some { e with addr := e.addr + diff, len := e.len - diff }
  else some e

/-- The part of the loop of `set_bootinfo` that reserves kernel memory; `none` when it skips
the entry. -/
def reserveKernel (kernelEndPhys : U64) (e : MultibootMemoryMap) : Option MultibootMemoryMap :=
  if e.addr ≥ kernelStartPhys then
    let diff := kernelEndPhys - e.addr
    if e.addr + e.len < kernelEndPhys then none
    else if e.addr < kernelEndPhys then
      some { e with addr := e.addr + diff, len := e.len - diff }
    else some e
  else some e

/-- The entry that the loop of `set_bootinfo` records for a region, if it is not skipped. -/
def recordEntry (kernelEndPhys : U64) (e : MultibootMemoryMap) : Option MemMap := do
  let e ← reserveLow e
  let e ← reserveKernel kernelEndPhys e
  some { addr := e.addr, len := e.len, type := e.type }

/-- The value `MemorySize` has after the entries of the tag. -/
def memorySize (mmap : List MultibootMemoryMap) : U64 :=
  mmap.foldl (fun sz e => if e.type = multibootMemoryAvailable then sz + e.len else sz) 0

/-- The memory map tag in `set_bootinfo`: `none` when the map it writes to could not be
allocated. The map has an entry for every region of the tag; those past the recorded ones
keep the zeros of the allocation area. -/
def setBootinfo (pos kernelEndPhys : U64) (mmap : List MultibootMemoryMap) : Option Info :=
  let entryCount := mmap.length
  let recorded := mmap.filterMap (recordEntry kernelEndPhys)
  let unused := List.replicate (entryCount - recorded.length) { addr := 0, len := 0, type := 0 }
  if entryCount ≠ 0 ∧ bootstrapMalloc pos (24 * BitVec.ofNat 64 entryCount) = none then none
  else some {
    memorySize := memorySize mmap
    memoryMapCount := entryCount
    memoryMap := recorded ++ unused }

/-! ### What is recorded of a region -/

/-- The region does not reach past the end of the address space. -/
def NoWrap (e : MultibootMemoryMap) : Prop := e.addr.toNat + e.len.toNat ≤ 2 ^ 64

/-- The two regions have no byte in common. -/
def Apart (e e' : MultibootMemoryMap) : Prop :=
  ∀ b, e.addr.toNat ≤ b → b < e.addr.toNat + e.len.toNat →
    e'.addr.toNat ≤ b → b < e'.addr.toNat + e'.len.toNat → False

instance : Std.Symm Apart where
  symm _ _ h b h₁ h₂ h₃ h₄ := h b h₃ h₄ h₁ h₂

theorem toNat_mib_two :
  (mib 2).toNat = 2 ^ 21
  := rfl

theorem reserveLow_spec {e e' : MultibootMemoryMap} (hwrap : NoWrap e)
    (h : reserveLow e = some e') :
  e'.type = e.type ∧ NoWrap e' ∧ e.addr.toNat ≤ e'.addr.toNat ∧ 2 ^ 21 ≤ e'.addr.toNat
    ∧ e'.addr.toNat + e'.len.toNat = e.addr.toNat + e.len.toNat
  := by
  unfold NoWrap at *
  rw [reserveLow] at h
  simp only [BitVec.lt_def, ge_iff_le, BitVec.le_def, toNat_mib_two] at h
  split at h
  next hlow =>
    have hdiff : (mib 2 - e.addr).toNat = 2 ^ 21 - e.addr.toNat :=
      BitVec.toNat_sub_of_le (by rw [BitVec.le_def, toNat_mib_two]; omega)
    rw [hdiff] at h
    split at h
    next => cases h
    next hrest =>
      obtain rfl := Option.some.inj h
      have haddr : (e.addr + (mib 2 - e.addr)).toNat = 2 ^ 21 := by
        rw [BitVec.toNat_add, hdiff]
        omega
      have hlen : (e.len - (mib 2 - e.addr)).toNat = e.len.toNat - (2 ^ 21 - e.addr.toNat) := by
        rw [BitVec.toNat_sub_of_le (by rw [BitVec.le_def, hdiff]; omega), hdiff]
      simp only [haddr, hlen, true_and]
      omega
  next hhigh =>
    obtain rfl := Option.some.inj h
    refine ⟨rfl, hwrap, le_refl _, by omega, rfl⟩

theorem reserveKernel_spec {ke : U64} {e e' : MultibootMemoryMap} (hwrap : NoWrap e)
    (hstart : 2 ^ 21 ≤ e.addr.toNat) (h : reserveKernel ke e = some e') :
  e'.type = e.type ∧ NoWrap e' ∧ e.addr.toNat ≤ e'.addr.toNat ∧ ke.toNat ≤ e'.addr.toNat
    ∧ e'.addr.toNat + e'.len.toNat = e.addr.toNat + e.len.toNat
  := by
  unfold NoWrap at *
  have hks : kernelStartPhys.toNat = 2 ^ 21 := rfl
  have hke := ke.isLt
  rw [reserveKernel] at h
  simp only [BitVec.lt_def, ge_iff_le, BitVec.le_def, hks, BitVec.toNat_add] at h
  rw [if_pos hstart] at h
  split at h
  next => cases h
  next hend =>
    split at h
    next hlow =>
      obtain rfl := Option.some.inj h
      have hdiff : (ke - e.addr).toNat = ke.toNat - e.addr.toNat :=
        BitVec.toNat_sub_of_le (by rw [BitVec.le_def]; omega)
      have hreach : ke.toNat ≤ e.addr.toNat + e.len.toNat := by
        have := Nat.mod_le (e.addr.toNat + e.len.toNat) (2 ^ 64)
        omega
      have haddr : (e.addr + (ke - e.addr)).toNat = ke.toNat := by
        rw [BitVec.toNat_add, hdiff]
        omega
      have hlen : (e.len - (ke - e.addr)).toNat = e.len.toNat - (ke.toNat - e.addr.toNat) := by
        rw [BitVec.toNat_sub_of_le (by rw [BitVec.le_def, hdiff]; omega), hdiff]
      simp only [haddr, hlen, true_and]
      omega
    next hhigh =>
      obtain rfl := Option.some.inj h
      exact ⟨rfl, hwrap, le_refl _, by omega, rfl⟩

/-- What is recorded of a region is an end of it, at or above 2 MiB and the kernel end. -/
theorem recordEntry_spec {ke : U64} {e : MultibootMemoryMap} {m : MemMap} (hwrap : NoWrap e)
    (h : recordEntry ke e = some m) :
  m.type = e.type ∧ e.addr.toNat ≤ m.addr.toNat ∧ 2 ^ 21 ≤ m.addr.toNat ∧ ke.toNat ≤ m.addr.toNat
    ∧ m.addr.toNat + m.len.toNat = e.addr.toNat + e.len.toNat
  := by
  simp only [recordEntry, Option.bind_eq_bind, Option.bind_eq_some_iff] at h
  obtain ⟨e₁, hlow, e₂, hkernel, hm⟩ := h
  obtain rfl := Option.some.inj hm
  obtain ⟨ht₁, hw₁, ha₁, hl₁, he₁⟩ := reserveLow_spec hwrap hlow
  obtain ⟨ht₂, hw₂, ha₂, hl₂, he₂⟩ := reserveKernel_spec hw₁ hl₁ hkernel
  dsimp only
  exact ⟨ht₂.trans ht₁, by omega, by omega, hl₂, he₂.trans he₁⟩

end BootInfo
