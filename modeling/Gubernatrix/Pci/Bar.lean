import Gubernatrix.Pci.Msi

/-!
# Base address registers

The address in a memory BAR is decoded twice: `pci_parsebar` takes a BAR for one of 64 bits only if
its index is even, `pci_setmsiinfo` whatever its index. The size of the region is found out by
`pci_getbarsize`, which writes ones to the register and reads back which of them were kept, but
takes the type bits of the register for address bits, and looks at the lower register only.
-/

namespace Bar

open Msi (U32 Capability barLoop tablePhys)

/-- `pci_parsebar`. -/
def pciParsebar (bars : ℕ → U32) (idx : ℕ) : U64 :=
  if idx % 2 = 0 ∧ bars idx &&& 0x4 = 0x4 then
    (bars (idx + 1)).setWidth 64 <<< 32 ||| (bars idx &&& 0xfffffff0).setWidth 64
  else (bars idx &&& 0xfffffff0).setWidth 64

/-! ### The address -/

/-- The index holds a memory BAR of 32 bits, or the lower half of one of 64 bits. -/
structure IsMemory (bars : ℕ → U32) (idx : ℕ) : Prop where
  lt : idx < 6
  memory : bars idx &&& 0x1 = 0
  type : bars idx &&& 0x6 = 0 ∨ bars idx &&& 0x6 = 0x4 ∧ idx ≤ 4

/-- The two decoders agree on the BAR that the MSI-X capability names, and the table is at its
offset from there. -/
structure Agree (bars : ℕ → U32) (idx : ℕ) (c : Capability) : Prop where
  address : pciParsebar bars idx = barLoop bars c.bir.toNat 6 0 0
  table : tablePhys bars c = barLoop bars c.bir.toNat 6 0 0 + 8 * c.offset.setWidth 64

section Address

variable {bars : ℕ → U32} {idx : ℕ}

/-- The loop of `pci_setmsiinfo` decodes the BAR that it stops at. -/
theorem barLoop_eq (h : IsMemory bars idx) {n i : ℕ} (hn : n + i = 6) (hi : i ≤ idx) (bar : U64) :
  barLoop bars idx n i bar
    = (bars idx &&& 0xFFFFFFF0).setWidth 64
      + if bars idx &&& 0x6 = 0x4 then (bars (idx + 1)).setWidth 64 <<< 32 else 0#64
  := by
  induction n generalizing i bar with
  | zero =>
      have hlt := h.lt
      omega
  | succ n ih =>
      rw [barLoop]
      by_cases hidx : i = idx
      · subst hidx
        rw [if_pos rfl]
        by_cases hlong : bars i &&& 0x6 = 0x4
        · rw [if_pos hlong, if_pos hlong]
        · have hshort := h.type.resolve_right fun hlong' => hlong hlong'.1
          rw [if_neg hlong, if_neg hlong, if_pos hshort, BitVec.add_zero]
      · rw [if_neg hidx]
        apply ih (by omega) (by omega)

theorem and_four_iff (h : IsMemory bars idx) :
  bars idx &&& 0x4 = 0x4 ↔ bars idx &&& 0x6 = 0x4
  := by
  have hsplit : bars idx &&& 0x4 = (bars idx &&& 0x6) &&& 0x4 := by
    rw [BitVec.and_assoc]
    rfl
  rw [hsplit]
  rcases h.type with htype | ⟨htype, -⟩
  · rw [htype]
    decide
  · rw [htype]
    decide

/-- The halves of an address do not overlap. -/
theorem or_eq_add (hi lo : U32) :
  hi.setWidth 64 <<< 32 ||| lo.setWidth 64 = lo.setWidth 64 + hi.setWidth 64 <<< 32
  := by
  have hlo := lo.isLt
  have hhi := hi.isLt
  apply BitVec.eq_of_toNat_eq
  rw [BitVec.toNat_or, BitVec.toNat_add, BitVec.toNat_shiftLeft, BitVec.toNat_setWidth,
    BitVec.toNat_setWidth, Nat.shiftLeft_eq, Nat.mod_eq_of_lt (a := lo.toNat) (by omega),
    Nat.mod_eq_of_lt (a := hi.toNat) (by omega), Nat.mod_eq_of_lt (a := _ * _) (by omega),
    Bits.or_low _ hlo]
  omega

theorem shiftLeft_eq_zero {hi : U32} :
  hi.setWidth 64 <<< 32 = (0 : U64) ↔ hi = 0
  := by
  have hhi := hi.isLt
  rw [← BitVec.toNat_inj, ← BitVec.toNat_inj, BitVec.toNat_shiftLeft, BitVec.toNat_setWidth,
    Nat.shiftLeft_eq]
  change _ = 0 ↔ _ = 0
  omega

/-- `pci_parsebar` leaves out the upper half of a BAR of 64 bits at an odd index. -/
theorem pciParsebar_eq_iff (h : IsMemory bars idx) :
  pciParsebar bars idx = barLoop bars idx 6 0 0
    ↔ (idx % 2 = 1 → bars idx &&& 0x6 = 0x4 → bars (idx + 1) = 0)
  := by
  have hfour := and_four_iff h
  rw [barLoop_eq h (by omega) (Nat.zero_le _), pciParsebar]
  by_cases hlong : bars idx &&& 0x6 = 0x4
  · by_cases heven : idx % 2 = 0
    · rw [if_pos ⟨heven, hfour.mpr hlong⟩, if_pos hlong]
      apply iff_of_true
      · apply or_eq_add
      · omega
    · rw [if_neg (fun hand => heven hand.1), if_pos hlong, eq_comm, add_eq_left,
        shiftLeft_eq_zero]
      have hodd : idx % 2 = 1 := by omega
      simp only [hodd, hlong, true_imp_iff]
  · rw [if_neg (fun hand => hlong (hfour.mp hand.2)), if_neg hlong, BitVec.add_zero]
    apply iff_of_true rfl
    intro _ hlong'
    apply absurd hlong' hlong

/-- The offset of the table is multiplied by 8 as a signed number of 32 bits. -/
theorem offset_eq_iff (offset : BitVec 29) :
  (offset.setWidth 32 <<< 3).signExtend 64 = 8 * offset.setWidth 64 ↔ offset.toNat < 2 ^ 28
  := by
  have hlt := offset.isLt
  have hshift : (offset.setWidth 32 <<< 3).toNat = offset.toNat * 8 := by
    rw [BitVec.toNat_shiftLeft, BitVec.toNat_setWidth, Nat.shiftLeft_eq]
    omega
  have hmul : ((8 : U64) * offset.setWidth 64).toNat = 8 * offset.toNat := by
    rw [BitVec.toNat_mul, BitVec.toNat_setWidth, show (8 : U64).toNat = 8 from rfl]
    omega
  rw [← BitVec.toNat_inj, hmul, BitVec.toNat_signExtend, BitVec.toNat_setWidth, hshift,
    BitVec.msb_eq_decide, hshift]
  simp only [decide_eq_true_eq]
  split
  · omega
  · omega

end Address

/-- For a memory BAR, the two decoders agree and the table of an MSI-X capability is at its offset
just when the BAR is not one of 64 bits at an odd index with an address above 4 GiB, and the offset
of the table is below 2 GiB. -/
theorem decoders_agree_iff {bars : ℕ → U32} {idx : ℕ} {c : Capability} (h : IsMemory bars idx)
    (hbir : c.bir.toNat = idx) :
  Agree bars idx c ↔ (idx % 2 = 1 → bars idx &&& 0x6 = 0x4 → bars (idx + 1) = 0)
    ∧ c.offset.toNat < 2 ^ 28
  := by
  have hoffset : tablePhys bars c = barLoop bars c.bir.toNat 6 0 0 + 8 * c.offset.setWidth 64
      ↔ c.offset.toNat < 2 ^ 28 := by
    rw [tablePhys, BitVec.add_right_inj, offset_eq_iff]
  rw [← pciParsebar_eq_iff h, ← hoffset, ← hbir]
  constructor
  · intro hagree
    use hagree.address, hagree.table
  · intro hagree
    use hagree.1, hagree.2

/-- The register at the index is the upper half of a BAR of 64 bits. -/
def UpperHalf (bars : ℕ → U32) : ℕ → Prop
  | 0 => False
  | i + 1 => ¬ UpperHalf bars i ∧ bars i &&& 0x7 = 0x4

/-- One BAR of 64 bits, above 4 GiB, with its lower half at the index. -/
def oneBar (idx i : ℕ) : U32 :=
  if i = idx then 0xfe000004 else if i = idx + 1 then 1 else 0

/-- An MSI-X capability with its table at 0x2000 from the given BAR on. -/
def tableIn (bir : U32) : Capability := ⟨Msi.pciCapMsix, 0, 0, 0x2000 ||| bir, 0, 0⟩

theorem decoders_agree_two :
  Agree (oneBar 2) 2 (tableIn 2)
  := by
  have hmemory : IsMemory (oneBar 2) 2 := ⟨by decide, by decide, by decide⟩
  apply (decoders_agree_iff hmemory (by decide)).mpr
  constructor
  · intro hodd
    cases hodd
  · decide

/-- At index 1, `pci_parsebar` leaves out the upper half. -/
theorem not_decoders_agree_one :
  ¬ ∀ (bars : ℕ → U32) (idx : ℕ) (c : Capability), IsMemory bars idx → ¬ UpperHalf bars idx →
    c.bir.toNat = idx → Agree bars idx c
  := by
  intro h
  have hmemory : IsMemory (oneBar 1) 1 := ⟨by decide, by decide, by decide⟩
  have hlower : ¬ UpperHalf (oneBar 1) 1 := by
    rintro ⟨-, htype⟩
    revert htype
    decide
  have haddress := (h (oneBar 1) 1 (tableIn 1) hmemory hlower (by decide)).address
  revert haddress
  decide

/-! ### The size -/

/-- The registers of a device: what they read, and which of their bits can be written. -/
structure Registers where
  value : ℕ → U32
  writable : ℕ → U32

/-- Writing to a register leaves the bits that are read-only. -/
def Registers.write (r : Registers) (i : ℕ) (v : U32) : Registers :=
  { r with value :=
      Function.update r.value i (v &&& r.writable i ||| r.value i &&& ~~~ r.writable i) }

/-- `pci_getbarsize`, and the registers after it. -/
def pciGetbarsize (r : Registers) (idx : ℕ) : U64 × Registers :=
  let origVal := r.value idx
  let r := r.write idx 0xffffffff
  let sz := (~~~ r.value idx + 1).setWidth 64
  let r := r.write idx origVal
  (sz, r)

/-- A memory BAR for a region of `2 ^ k` bytes: its type bits, and the address of the region. -/
structure MemoryBar where
  type : BitVec 4
  k : ℕ
  base : U64
  memory : type.getLsbD 0 = false
  ge : 4 ≤ k
  width : type.getLsbD 2 = false ∧ type.getLsbD 1 = false ∧ k ≤ 31 ∧ base.toNat < 2 ^ 32
    ∨ type.getLsbD 2 = true ∧ type.getLsbD 1 = false ∧ k ≤ 63
  aligned : 2 ^ k ∣ base.toNat

/-- The BAR takes two registers. -/
def MemoryBar.Is64 (b : MemoryBar) : Prop := b.type.getLsbD 2 = true

/-- The BAR is in the register at the index and, if it is one of 64 bits, the next one: the type
bits are read-only, and so are the address bits below the size. -/
structure MemoryBar.At (b : MemoryBar) (r : Registers) (idx : ℕ) : Prop where
  low : r.value idx = b.base.setWidth 32 ||| b.type.setWidth 32
  lowWritable : r.writable idx = BitVec.ofNat 32 (2 ^ 32 - 2 ^ b.k)
  high : b.Is64 → r.value (idx + 1) = (b.base >>> 32).setWidth 32
  highWritable : b.Is64 → r.writable (idx + 1) = BitVec.ofNat 32 (2 ^ 32 - 2 ^ (b.k - 32))

/-- The size is returned, and the registers read as before. -/
structure Sized (b : MemoryBar) (r : Registers) (idx : ℕ) : Prop where
  size : (pciGetbarsize r idx).1.toNat = 2 ^ b.k
  unchanged : (pciGetbarsize r idx).2.value = r.value

theorem pciGetbarsize_value (r : Registers) (idx : ℕ) :
  (pciGetbarsize r idx).2.value = r.value
  := by
  funext i
  rw [pciGetbarsize, Registers.write, Registers.write]
  dsimp only
  by_cases hi : i = idx
  · subst hi
    rw [Function.update_self, Function.update_self]
    apply BitVec.eq_of_getLsbD_eq
    intro j hj
    simp only [BitVec.getLsbD_or, BitVec.getLsbD_and, BitVec.getLsbD_not, hj, decide_true,
      Bool.true_and]
    cases (r.writable i).getLsbD j <;> simp
  · rw [Function.update_of_ne hi, Function.update_of_ne hi]

section Size

variable {b : MemoryBar} {r : Registers} {idx : ℕ}

/-- A region of 4 GiB or more takes a BAR of 64 bits. -/
theorem MemoryBar.type_ne_zero (b : MemoryBar) (hk : 31 < b.k) :
  b.type.toNat ≠ 0
  := by
  intro hzero
  have htype : b.type = 0 := BitVec.eq_of_toNat_eq hzero
  rcases b.width with ⟨-, -, hle, -⟩ | ⟨hlong, -, -⟩
  · omega
  · rw [htype] at hlong
    cases hlong

theorem MemoryBar.At.value_eq (h : b.At r idx) :
  (r.value idx).toNat = b.base.toNat % 2 ^ 32 + b.type.toNat
  := by
  have hdvd : 2 ^ 4 ∣ b.base.toNat := (pow_dvd_pow 2 b.ge).trans b.aligned
  have hdiv : b.base.toNat % 2 ^ 32 = b.base.toNat % 2 ^ 32 / 2 ^ 4 * 2 ^ 4 := by omega
  rw [h.low, BitVec.toNat_or, BitVec.toNat_setWidth, BitVec.toNat_setWidth_of_le (by decide), hdiv,
    Bits.or_low _ b.type.isLt]

/-- The bits that cannot be written hold the type bits. -/
theorem MemoryBar.At.and_not_writable (h : b.At r idx) :
  (r.value idx &&& ~~~ r.writable idx).toNat = b.type.toNat
  := by
  have htype := b.type.isLt
  rw [BitVec.toNat_and, h.value_eq, h.lowWritable, BitVec.toNat_not, BitVec.toNat_ofNat]
  by_cases hk : b.k ≤ 31
  · have hsplit : (2 : ℕ) ^ 32 = 2 ^ b.k * 2 ^ (32 - b.k) := by
      rw [← pow_add]
      congr 1
      omega
    have hle : 2 ^ 4 ≤ 2 ^ b.k := Nat.pow_le_pow_right two_pos b.ge
    have hlt : 2 ^ b.k ≤ 2 ^ 31 := Nat.pow_le_pow_right two_pos hk
    have hmask : 2 ^ 32 - 1 - (2 ^ 32 - 2 ^ b.k) % 2 ^ 32 = 2 ^ b.k - 1 := by omega
    have hbase : 2 ^ b.k ∣ b.base.toNat % 2 ^ 32 :=
      (Nat.dvd_mod_iff (Dvd.intro _ hsplit.symm)).mpr b.aligned
    rw [hmask, Bits.and_low, Nat.add_mod, Nat.mod_eq_zero_of_dvd hbase, Nat.zero_add,
      Nat.mod_mod, Nat.mod_eq_of_lt (by omega)]
  · have hlong : 2 ^ 32 ∣ b.base.toNat := (pow_dvd_pow 2 (by omega)).trans b.aligned
    have hle : 2 ^ 32 ≤ 2 ^ b.k := Nat.pow_le_pow_right two_pos (by omega)
    have hmask : 2 ^ 32 - 1 - (2 ^ 32 - 2 ^ b.k) % 2 ^ 32 = 2 ^ 32 - 1 := by omega
    rw [hmask, Nat.mod_eq_zero_of_dvd hlong, Nat.zero_add, Bits.and_low,
      Nat.mod_eq_of_lt (by omega)]

/-- After the ones are written, the register reads as the address bits above the size, and the type
bits. -/
theorem MemoryBar.At.readBack (h : b.At r idx) :
  ((r.write idx 0xffffffff).value idx).toNat
    = (2 ^ 32 - 2 ^ b.k) % 2 ^ 32 + b.type.toNat
  := by
  have hdvd : 2 ^ 4 ∣ 2 ^ b.k := pow_dvd_pow 2 b.ge
  have hdiv : (2 ^ 32 - 2 ^ b.k) % 2 ^ 32 = (2 ^ 32 - 2 ^ b.k) % 2 ^ 32 / 2 ^ 4 * 2 ^ 4 := by omega
  have hones : 0xffffffff &&& r.writable idx = r.writable idx := BitVec.allOnes_and
  rw [Registers.write]
  dsimp only
  rw [Function.update_self, BitVec.toNat_or, h.and_not_writable, hones, h.lowWritable,
    BitVec.toNat_ofNat, hdiv, Bits.or_low _ b.type.isLt]

/-- The type bits are subtracted from the size, and no size is above 4 GiB. -/
theorem MemoryBar.At.size_eq (h : b.At r idx) :
  (pciGetbarsize r idx).1.toNat
    = (2 ^ 32 - ((2 ^ 32 - 2 ^ b.k) % 2 ^ 32 + b.type.toNat)) % 2 ^ 32
  := by
  have hread := h.readBack
  have hlt := ((r.write idx 0xffffffff).value idx).isLt
  rw [pciGetbarsize]
  dsimp only
  rw [BitVec.toNat_setWidth_of_le (by decide), BitVec.toNat_add, BitVec.toNat_not, hread]
  rw [hread] at hlt
  change (_ + 1) % _ = _
  omega

end Size

/-- The size of a memory BAR is found out just when its type bits are all zero: it is one of 32
bits, and not prefetchable. -/
theorem sized_iff {b : MemoryBar} {r : Registers} {idx : ℕ} (h : b.At r idx) :
  Sized b r idx ↔ b.type = 0
  := by
  have htype := b.type.isLt
  have hle : 2 ^ 4 ≤ 2 ^ b.k := Nat.pow_le_pow_right two_pos b.ge
  have hzero : b.type = 0 ↔ b.type.toNat = 0 := by
    rw [← BitVec.toNat_inj]
    rfl
  rw [hzero]
  constructor
  · intro hsized
    have hsize := hsized.size
    rw [h.size_eq] at hsize
    by_cases hk : b.k ≤ 31
    · have hlt : 2 ^ b.k ≤ 2 ^ 31 := Nat.pow_le_pow_right two_pos hk
      omega
    · have hlt : 2 ^ 32 ≤ 2 ^ b.k := Nat.pow_le_pow_right two_pos (by omega)
      omega
  · intro hnone
    have hk : b.k ≤ 31 := by
      by_contra hk
      apply b.type_ne_zero (by omega) hnone
    have hlt : 2 ^ b.k ≤ 2 ^ 31 := Nat.pow_le_pow_right two_pos hk
    constructor
    · rw [h.size_eq]
      omega
    · apply pciGetbarsize_value

/-- A BAR of 32 bits for 4 KiB at 0xfebf0000. -/
def smallBar : MemoryBar where
  type := 0
  k := 12
  base := 0xfebf0000
  memory := by decide
  ge := by decide
  width := by
    left
    decide
  aligned := by decide

/-- A BAR of 64 bits for 16 MiB at 0xfd000000. -/
def longBar : MemoryBar where
  type := 4
  k := 24
  base := 0xfd000000
  memory := by decide
  ge := by decide
  width := by
    right
    decide
  aligned := by decide

/-- The registers of a device with one BAR, in the first register and, if it is of 64 bits, the
second. -/
def MemoryBar.registers (b : MemoryBar) : Registers where
  value i := if i = 0 then b.base.setWidth 32 ||| b.type.setWidth 32 else (b.base >>> 32).setWidth 32
  writable i := BitVec.ofNat 32 (2 ^ 32 - 2 ^ (if i = 0 then b.k else b.k - 32))

theorem MemoryBar.at_registers (b : MemoryBar) :
  b.At b.registers 0
  where
  low := rfl
  lowWritable := rfl
  high _ := rfl
  highWritable _ := rfl

theorem sized_small :
  Sized smallBar smallBar.registers 0
  := by
  apply (sized_iff smallBar.at_registers).mpr
  rfl

/-- The first BAR of the graphics device: its size is 4 bytes short. -/
theorem not_sized_long :
  ¬ ∀ (b : MemoryBar) (r : Registers) (idx : ℕ), b.At r idx → Sized b r idx
  := by
  intro h
  have hsize := (h longBar longBar.registers 0 longBar.at_registers).size
  revert hsize
  decide

end Bar
