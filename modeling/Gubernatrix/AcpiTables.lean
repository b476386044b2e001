import Gubernatrix.VirtMem.Paging
import Mathlib.Algebra.BigOperators.Group.Finset.Basic
import Mathlib.Data.List.Range

/-!
# Finding an ACPI table

`acpi.c` looks for a table by its signature. The pointers to the tables are listed in the XSDT,
or in the RSDT where there is no XSDT; both of them and the tables they list are reached
through the direct map. What is searched for is the first table listed that has the signature
and whose bytes sum to 0 modulo 256. The two loops over the pointers do not agree on what to do
with a pointer that is zero, and the two branches do not agree on what to return when the root
table itself does not sum to 0.
-/

namespace AcpiTables

open VirtMem (directAddr vmemFlagsCachewriteback kernTopBase kernPhysmapBase)

/-- A byte. -/
abbrev Byte := BitVec 8

/-- The bytes that are read at each address of the kernel. -/
abbrev Memory := U64 → Byte

/-- The fields of the RSDP that `acpi_tables_find_table` reads. -/
structure Rsdp where
  revision : Byte
  rsdtAddress : BitVec 32
  xsdtAddress : U64

/-- `ACPI_VERSION_1`. -/
def acpiVersion1 : Byte := 0

/-- `NULL`. -/
def null : U64 := 0

/-- The 32 bits at an address. -/
def u32 (mem : Memory) (a : U64) : BitVec 32 :=
  mem (a + 3) ++ mem (a + 2) ++ mem (a + 1) ++ mem a

/-- The 64 bits at an address. -/
def u64 (mem : Memory) (a : U64) : U64 := u32 mem (a + 4) ++ u32 mem a

/-- `sizeof(ACPISDTHeader)`. -/
def headerSize : U64 := 36

/-- `header->Length`. -/
def headerLength (mem : Memory) (header : U64) : BitVec 32 := u32 mem (header + 4)

/-- The loop of `acpi_tables_validate_csum` from index `i` on, with `left` bytes left. -/
def csumLoop (mem : Memory) (header : U64) : (left i : ℕ) → (sum : Byte) → Byte
  | 0, _, sum => sum
  | left + 1, i, sum =>
    csumLoop mem header left (i + 1) (sum + mem (header + BitVec.ofNat 64 i))

/-- `acpi_tables_validate_csum`. -/
def acpiTablesValidateCsum (mem : Memory) (header : U64) : Bool :=
  csumLoop mem header (headerLength mem header).toNat 0 0 = 0

/-- `!memcmp(h->Signature, table_name, 4)`. -/
def sameSignature (mem : Memory) (h : U64) (tableName : ℕ → Byte) : Bool :=
  (List.range 4).all fun i => mem (h + BitVec.ofNat 64 i) = tableName i

/-- `XSDT_GET_POINTER_COUNT` and `RSDT_GET_POINTER_COUNT`, for pointers of `width` bytes: the
quotient is unsigned and narrowed to an `int`. -/
def pointerCount (mem : Memory) (header width : U64) : ℤ :=
  toInt32 (((headerLength mem header).setWidth 64 - headerSize) / width).toNat

/-- `xsdt->PointerToOtherSDT[i]`. -/
def xsdtPointer (mem : Memory) (xsdt : U64) (i : ℕ) : U64 :=
  u64 mem (xsdt + headerSize + 8 * BitVec.ofNat 64 i)

/-- `rsdt->PointerToOtherSDT[i]`, cast to an `intptr_t`. -/
def rsdtPointer (mem : Memory) (rsdt : U64) (i : ℕ) : U64 :=
  (u32 mem (rsdt + headerSize + 4 * BitVec.ofNat 64 i)).setWidth 64

/-- `vmem_phystovirt(phys, MiB(2), vmem_flags_cachewriteback)`, with the value of `phys_map_sz`;
`none` when it panics. -/
def tableAddr (physMapSz phys : U64) : Option U64 :=
  directAddr physMapSz phys (mib 2) vmemFlagsCachewriteback

/-- The loop over the pointers of the XSDT from index `i` on, with `left` pointers left. -/
def xsdtLoop (mem : Memory) (physMapSz xsdt : U64) (tableName : ℕ → Byte) :
    (left i : ℕ) → Option U64
  | 0, _ => some null
  | left + 1, i =>
    if xsdtPointer mem xsdt i = 0 then xsdtLoop mem physMapSz xsdt tableName left (i + 1)
    else do
      let h ← tableAddr physMapSz (xsdtPointer mem xsdt i)
      if sameSignature mem h tableName ∧ acpiTablesValidateCsum mem h then some h
      else xsdtLoop mem physMapSz xsdt tableName left (i + 1)

/-- The loop over the pointers of the RSDT from index `i` on, with `left` pointers left. It does
not skip a pointer that is zero. -/
def rsdtLoop (mem : Memory) (physMapSz rsdt : U64) (tableName : ℕ → Byte) :
    (left i : ℕ) → Option U64
  | 0, _ => some null
  | left + 1, i => do
    let h ← tableAddr physMapSz (rsdtPointer mem rsdt i)
    if sameSignature mem h tableName ∧ acpiTablesValidateCsum mem h then some h
    else rsdtLoop mem physMapSz rsdt tableName left (i + 1)

/-- `acpi_tables_find_table`: the pointer it returns, or `none` when it panics. -/
def acpiTablesFindTable (mem : Memory) (physMapSz : U64) (rsdp : Option Rsdp)
    (tableName : ℕ → Byte) : Option U64 :=
  match rsdp with
  | none => some null
  | some rsdp =>
    if rsdp.revision ≠ acpiVersion1 ∧ rsdp.xsdtAddress ≠ 0 then do
      let xsdt ← tableAddr physMapSz rsdp.xsdtAddress
      if ¬ acpiTablesValidateCsum mem xsdt then some (-1)
      else xsdtLoop mem physMapSz xsdt tableName (pointerCount mem xsdt 8).toNat 0
    else if rsdp.revision = acpiVersion1 ∨ rsdp.xsdtAddress = 0 then do
      let rsdt ← tableAddr physMapSz (rsdp.rsdtAddress.setWidth 64)
      if ¬ acpiTablesValidateCsum mem rsdt then some null
      else rsdtLoop mem physMapSz rsdt tableName (pointerCount mem rsdt 4).toNat 0
    else some null

/-! ### The table that is meant -/

/-- The bytes of the table, as many as its header says, sum to 0 modulo 256. -/
def Verified (mem : Memory) (h : U64) : Prop :=
  (∑ i ∈ Finset.range (headerLength mem h).toNat, (mem (h + BitVec.ofNat 64 i)).toNat) % 256 = 0

instance (mem : Memory) (h : U64) : Decidable (Verified mem h) :=
  inferInstanceAs (Decidable (_ = _))

/-- The table begins with the signature. -/
def Signed (mem : Memory) (tableName : ℕ → Byte) (h : U64) : Prop :=
  ∀ i < 4, mem (h + BitVec.ofNat 64 i) = tableName i

instance (mem : Memory) (tableName : ℕ → Byte) (h : U64) : Decidable (Signed mem tableName h) :=
  inferInstanceAs (Decidable (∀ i < 4, _))

/-- The root table is the XSDT. -/
def Rsdp.HasXsdt (rsdp : Rsdp) : Prop := rsdp.revision ≠ acpiVersion1 ∧ rsdp.xsdtAddress ≠ 0

instance (rsdp : Rsdp) : Decidable rsdp.HasXsdt := inferInstanceAs (Decidable (_ ∧ _))

/-- The physical address of the root table. -/
def Rsdp.root (rsdp : Rsdp) : U64 :=
  if rsdp.HasXsdt then rsdp.xsdtAddress else rsdp.rsdtAddress.setWidth 64

/-- Where a table with a given physical address is in the direct map. -/
def address (physMapSz phys : U64) : U64 := (tableAddr physMapSz phys).getD null

/-- The pointers that the root table lists. -/
def listed (mem : Memory) (physMapSz : U64) (rsdp : Rsdp) : List U64 :=
  let root := address physMapSz rsdp.root
  let size := (headerLength mem root).toNat - 36
  if rsdp.HasXsdt then (List.range (size / 8)).map (xsdtPointer mem root)
  else (List.range (size / 4)).map (rsdtPointer mem root)

/-- The table at a physical address is one that is searched for. -/
def Wanted (mem : Memory) (physMapSz : U64) (tableName : ℕ → Byte) (phys : U64) : Prop :=
  Signed mem tableName (address physMapSz phys) ∧ Verified mem (address physMapSz phys)

instance (mem : Memory) (physMapSz : U64) (tableName : ℕ → Byte) (phys : U64) :
    Decidable (Wanted mem physMapSz tableName phys) := inferInstanceAs (Decidable (_ ∧ _))

/-- The physical address of the table that is meant: the first wanted one of those the root
table lists, pointers that are zero left out, if the root table itself sums to 0. -/
def meant (mem : Memory) (physMapSz : U64) (rsdp : Rsdp) (tableName : ℕ → Byte) : Option U64 :=
  if Verified mem (address physMapSz rsdp.root) then
    ((listed mem physMapSz rsdp).filter (· ≠ 0)).find? (Wanted mem physMapSz tableName)
  else none

/-- The pointer to a table, `NULL` for none. -/
def pointerTo (physMapSz : U64) (phys : Option U64) : U64 :=
  (phys.map (address physMapSz)).getD null

/-- The pointers to the root table and to the tables it lists are in the direct map. -/
structure Mapped (mem : Memory) (physMapSz : U64) (rsdp : Rsdp) : Prop where
  root : (tableAddr physMapSz rsdp.root).isSome
  listed : ∀ phys ∈ listed mem physMapSz rsdp, phys ≠ 0 → (tableAddr physMapSz phys).isSome

/-- The XSDT sums to 0; or, where the root table is the RSDT and sums to 0, the first wanted
table it lists is not listed as zero. -/
def Regular (mem : Memory) (physMapSz : U64) (rsdp : Rsdp) (tableName : ℕ → Byte) : Prop :=
  if rsdp.HasXsdt then Verified mem (address physMapSz rsdp.root)
  else Verified mem (address physMapSz rsdp.root) →
    (AcpiTables.listed mem physMapSz rsdp).find? (Wanted mem physMapSz tableName) ≠ some 0

/-! ### Checksums and signatures -/

theorem csumLoop_toNat (mem : Memory) (header : U64) :
  ∀ (left i : ℕ) (sum : Byte), (csumLoop mem header left i sum).toNat
    = (sum.toNat + ∑ k ∈ Finset.range left,
        (mem (header + BitVec.ofNat 64 (i + k))).toNat) % 256
  := by
  intro left
  induction left with
  | zero =>
    intro i sum
    rw [csumLoop, Finset.sum_range_zero, Nat.add_zero, Nat.mod_eq_of_lt sum.isLt]
  | succ left ih =>
    intro i sum
    have hshift : ∀ k, i + 1 + k = i + (k + 1) := fun k => Nat.succ_add_eq_add_succ i k
    rw [csumLoop, ih, Finset.sum_range_succ', BitVec.toNat_add, Nat.add_zero]
    simp only [hshift, Nat.add_zero]
    omega

theorem validateCsum_iff (mem : Memory) (h : U64) :
  acpiTablesValidateCsum mem h = true ↔ Verified mem h
  := by
  rw [acpiTablesValidateCsum, decide_eq_true_iff, ← BitVec.toNat_inj, csumLoop_toNat, Verified]
  simp only [Nat.zero_add]
  rw [show (0 : Byte).toNat = 0 from rfl, Nat.zero_add]

theorem sameSignature_iff (mem : Memory) (h : U64) (tableName : ℕ → Byte) :
  sameSignature mem h tableName = true ↔ Signed mem tableName h
  := by
  simp only [sameSignature, List.all_eq_true, List.mem_range, decide_eq_true_iff]
  rfl

theorem toInt32_nonpos {x : ℕ} (h : 2 ^ 31 ≤ x % 2 ^ 32) :
  toInt32 x ≤ 0
  := by
  unfold toInt32
  rw [Int.bmod_def]
  norm_num
  split_ifs <;> omega

/-- The quotient of the pointer counts, taken as an `int`, is the number of pointers that fit
behind the header, and negative when the table is shorter than a header. -/
theorem pointerCount_toNat (mem : Memory) (header : U64) {width : U64}
    (hwidth : width = 4 ∨ width = 8) :
  (pointerCount mem header width).toNat = ((headerLength mem header).toNat - 36) / width.toNat
  := by
  unfold pointerCount
  generalize headerLength mem header = len
  have hlen := len.isLt
  have hset : (len.setWidth 64).toNat = len.toNat := by
    rw [BitVec.toNat_setWidth]
    omega
  have hsub : (len.setWidth 64 - headerSize).toNat = (2 ^ 64 - 36 + len.toNat) % 2 ^ 64 := by
    rw [BitVec.toNat_sub, hset]
    rfl
  rw [BitVec.toNat_udiv, hsub]
  by_cases hshort : 36 ≤ len.toNat
  · have hrest : (2 ^ 64 - 36 + len.toNat) % 2 ^ 64 = len.toNat - 36 := by omega
    have hsmall : (len.toNat - 36) / width.toNat < 2 ^ 31 := by
      obtain rfl | rfl := hwidth
      · rw [show (4 : U64).toNat = 4 from rfl]
        omega
      · rw [show (8 : U64).toNat = 8 from rfl]
        omega
    rw [hrest, toInt32_of_lt hsmall, Int.toNat_natCast]
  · have hnone : len.toNat - 36 = 0 := by omega
    rw [hnone, Nat.zero_div, Int.toNat_of_nonpos]
    apply toInt32_nonpos
    obtain rfl | rfl := hwidth
    · rw [show (4 : U64).toNat = 4 from rfl]
      omega
    · rw [show (8 : U64).toNat = 8 from rfl]
      omega

/-! ### The search -/

section Search

variable {mem : Memory} {physMapSz : U64} {tableName : ℕ → Byte}

theorem address_of_tableAddr {phys h : U64} (haddr : tableAddr physMapSz phys = some h) :
  address physMapSz phys = h
  := by
  rw [address, haddr, Option.getD_some]

/-- What the two loops test at a table is whether it is wanted. -/
theorem wanted_iff {phys h : U64} (haddr : tableAddr physMapSz phys = some h) :
  (sameSignature mem h tableName ∧ acpiTablesValidateCsum mem h)
    ↔ Wanted mem physMapSz tableName phys
  := by
  rw [sameSignature_iff, validateCsum_iff, Wanted, address_of_tableAddr haddr]

/-- The loop over the pointers of the XSDT finds the first wanted table whose pointer is not
zero. -/
theorem xsdtLoop_eq {xsdt : U64} :
  ∀ (left i : ℕ), (∀ k < left, xsdtPointer mem xsdt (i + k) ≠ 0 →
      (tableAddr physMapSz (xsdtPointer mem xsdt (i + k))).isSome) →
    xsdtLoop mem physMapSz xsdt tableName left i = some (pointerTo physMapSz
      ((((List.range' i left).map (xsdtPointer mem xsdt)).filter (· ≠ 0)).find?
        (Wanted mem physMapSz tableName)))
  := by
  intro left
  induction left with
  | zero =>
    intro i hmapped
    rfl
  | succ left ih =>
    intro i hmapped
    have hrest : ∀ k < left, xsdtPointer mem xsdt (i + 1 + k) ≠ 0 →
        (tableAddr physMapSz (xsdtPointer mem xsdt (i + 1 + k))).isSome := by
      intro k hk
      rw [Nat.succ_add_eq_add_succ]
      apply hmapped (k + 1) (Nat.succ_lt_succ hk)
    rw [xsdtLoop, List.range'_succ, List.map_cons]
    split
    next hzero =>
      rw [ih _ hrest, List.filter_cons_of_neg]
      rw [hzero]
      decide
    next hnonzero =>
      obtain ⟨h, haddr⟩ := Option.isSome_iff_exists.mp (hmapped 0 (Nat.zero_lt_succ _) hnonzero)
      rw [Nat.add_zero] at haddr
      rw [List.filter_cons_of_pos (by rwa [decide_eq_true_iff]), haddr, Option.bind_eq_bind,
        Option.bind_some]
      split
      next hwanted =>
        rw [wanted_iff haddr] at hwanted
        rw [List.find?_cons_of_pos (by rwa [decide_eq_true_iff]), pointerTo, Option.map_some,
          address_of_tableAddr haddr, Option.getD_some]
      next hother =>
        rw [wanted_iff haddr] at hother
        rw [List.find?_cons_of_neg (by rwa [decide_eq_true_iff]), ih _ hrest]

/-- The loop over the pointers of the RSDT finds the first wanted table. -/
theorem rsdtLoop_eq {rsdt : U64} :
  ∀ (left i : ℕ),
    (∀ k < left, (tableAddr physMapSz (rsdtPointer mem rsdt (i + k))).isSome) →
    rsdtLoop mem physMapSz rsdt tableName left i = some (pointerTo physMapSz
      (((List.range' i left).map (rsdtPointer mem rsdt)).find?
        (Wanted mem physMapSz tableName)))
  := by
  intro left
  induction left with
  | zero =>
    intro i hmapped
    rfl
  | succ left ih =>
    intro i hmapped
    have hrest : ∀ k < left,
        (tableAddr physMapSz (rsdtPointer mem rsdt (i + 1 + k))).isSome := by
      intro k hk
      rw [Nat.succ_add_eq_add_succ]
      apply hmapped (k + 1) (Nat.succ_lt_succ hk)
    obtain ⟨h, haddr⟩ := Option.isSome_iff_exists.mp (hmapped 0 (Nat.zero_lt_succ _))
    rw [Nat.add_zero] at haddr
    rw [rsdtLoop, List.range'_succ, List.map_cons, haddr, Option.bind_eq_bind, Option.bind_some]
    split
    next hwanted =>
      rw [wanted_iff haddr] at hwanted
      rw [List.find?_cons_of_pos (by rwa [decide_eq_true_iff]), pointerTo, Option.map_some,
        address_of_tableAddr haddr, Option.getD_some]
    next hother =>
      rw [wanted_iff haddr] at hother
      rw [List.find?_cons_of_neg (by rwa [decide_eq_true_iff]), ih _ hrest]

/-- Physical address 0 is in the direct map. -/
theorem tableAddr_zero (physMapSz : U64) :
  tableAddr physMapSz 0 = some kernTopBase
  := by
  have hflags : vmemFlagsCachewriteback &&& vmemFlagsCachewriteback ≠ 0 := by decide
  have htop : (0 : U64).slt (gib 2) = true ∧ 0 + mib 2 < gib 2 := by decide
  rw [tableAddr, directAddr, if_pos hflags, if_pos htop, zero_add]

/-- The tables that the RSDT can list, other than at address 0, are elsewhere in the direct map,
and not at `NULL`. -/
theorem address_ne_zero {phys : U64} (hphys : phys.toNat < 2 ^ 32) (hne : phys ≠ 0) :
  address physMapSz phys ≠ address physMapSz 0
  := by
  have hpos : phys.toNat ≠ 0 := by
    intro h
    apply hne
    apply BitVec.eq_of_toNat_eq h
  have htop : kernTopBase.toNat = 2 ^ 64 - 2 ^ 31 := rfl
  have hbase : kernPhysmapBase.toNat = 2 ^ 64 - 2 ^ 47 := rfl
  rw [address_of_tableAddr (tableAddr_zero physMapSz)]
  have hflags : vmemFlagsCachewriteback &&& vmemFlagsCachewriteback ≠ 0 := by decide
  rw [address, tableAddr, directAddr, if_pos hflags]
  split_ifs
  · rw [Option.getD_some, Ne, ← BitVec.toNat_inj, BitVec.toNat_add, htop]
    omega
  · rw [Option.getD_some, Ne, ← BitVec.toNat_inj, BitVec.toNat_add, htop, hbase]
    omega
  · rw [Option.getD_none]
    decide

/-- A pointer to a table in the direct map is not `NULL`. -/
theorem address_zero_ne_null (physMapSz : U64) :
  address physMapSz 0 ≠ null
  := by
  rw [address_of_tableAddr (tableAddr_zero physMapSz)]
  decide

/-- Leaving out the pointers that are zero changes the first wanted table exactly when its
pointer is zero. -/
theorem find_nonzero_iff {ps : List U64} (hps : ∀ phys ∈ ps, phys.toNat < 2 ^ 32) :
  pointerTo physMapSz (ps.find? (Wanted mem physMapSz tableName))
      = pointerTo physMapSz ((ps.filter (· ≠ 0)).find? (Wanted mem physMapSz tableName)) ↔
    ps.find? (Wanted mem physMapSz tableName) ≠ some 0
  := by
  induction ps with
  | nil =>
    simp only [List.filter_nil, List.find?_nil, true_iff]
    apply Option.some_ne_none _ |>.symm
  | cons p ps ih =>
    have ih := ih fun phys hphys => hps phys (List.mem_cons_of_mem _ hphys)
    by_cases hwanted : Wanted mem physMapSz tableName p
    · rw [List.find?_cons_of_pos (by rwa [decide_eq_true_iff])]
      by_cases hzero : p = 0
      · subst hzero
        rw [List.filter_cons_of_neg (by decide)]
        simp only [ne_eq, not_true_eq_false, iff_false]
        intro heq
        cases hfind : (ps.filter (· ≠ 0)).find? (Wanted mem physMapSz tableName) with
        | none =>
          rw [hfind] at heq
          apply address_zero_ne_null physMapSz heq
        | some q =>
          rw [hfind] at heq
          have hq := List.mem_filter.mp (List.mem_of_find?_eq_some hfind)
          apply address_ne_zero (hps q (List.mem_cons_of_mem _ hq.1)) (of_decide_eq_true hq.2)
          apply heq.symm
      · rw [List.filter_cons_of_pos (by rwa [decide_eq_true_iff]),
          List.find?_cons_of_pos (by rwa [decide_eq_true_iff])]
        simp only [true_iff]
        intro h
        apply hzero (Option.some.inj h)
    · rw [List.find?_cons_of_neg (by rwa [decide_eq_true_iff])]
      by_cases hzero : p = 0
      · rw [List.filter_cons_of_neg (by rwa [decide_eq_true_iff, not_not]), ih]
      · rw [List.filter_cons_of_pos (by rwa [decide_eq_true_iff]),
          List.find?_cons_of_neg (by rwa [decide_eq_true_iff]), ih]

end Search

/-! ### What is returned -/

section Returned

variable {mem : Memory} {physMapSz : U64} {rsdp : Rsdp}

/-- What is returned where there is an XSDT. -/
theorem findTable_xsdt (tableName : ℕ → Byte) (hmapped : Mapped mem physMapSz rsdp)
    (hxsdt : rsdp.HasXsdt) :
  acpiTablesFindTable mem physMapSz (some rsdp) tableName
    = some (if Verified mem (address physMapSz rsdp.root) then
        pointerTo physMapSz (((listed mem physMapSz rsdp).filter (· ≠ 0)).find?
          (Wanted mem physMapSz tableName))
      else -1)
  := by
  obtain ⟨root, hroot⟩ := Option.isSome_iff_exists.mp hmapped.root
  have hlist : listed mem physMapSz rsdp = (List.range' 0
      (((headerLength mem root).toNat - 36) / 8)).map (xsdtPointer mem root) := by
    rw [listed, address_of_tableAddr hroot, ← List.range_eq_range']
    apply if_pos hxsdt
  have hpointers := hmapped.listed
  rw [hlist] at hpointers ⊢
  rw [address_of_tableAddr hroot]
  rw [Rsdp.root, if_pos hxsdt] at hroot
  simp only [acpiTablesFindTable, if_pos (show _ ∧ _ from hxsdt), hroot, Option.bind_eq_bind,
    Option.bind_some, validateCsum_iff, ite_not]
  split
  next hverified =>
    rw [pointerCount_toNat mem root (Or.inr rfl), show (8 : U64).toNat = 8 from rfl]
    apply xsdtLoop_eq
    intro k hk hne
    apply hpointers _ _ hne
    apply List.mem_map_of_mem
    rw [List.mem_range'_1]
    omega
  next hbad => rfl

/-- What is returned where there is no XSDT. -/
theorem findTable_rsdt (tableName : ℕ → Byte) (hmapped : Mapped mem physMapSz rsdp)
    (hrsdt : ¬ rsdp.HasXsdt) :
  acpiTablesFindTable mem physMapSz (some rsdp) tableName
    = some (if Verified mem (address physMapSz rsdp.root) then
        pointerTo physMapSz ((listed mem physMapSz rsdp).find? (Wanted mem physMapSz tableName))
      else null)
  := by
  obtain ⟨root, hroot⟩ := Option.isSome_iff_exists.mp hmapped.root
  have hlist : listed mem physMapSz rsdp = (List.range' 0
      (((headerLength mem root).toNat - 36) / 4)).map (rsdtPointer mem root) := by
    rw [listed, address_of_tableAddr hroot, ← List.range_eq_range']
    apply if_neg hrsdt
  have hpointers := hmapped.listed
  rw [hlist] at hpointers ⊢
  rw [address_of_tableAddr hroot]
  rw [Rsdp.root, if_neg hrsdt] at hroot
  have hversion : rsdp.revision = acpiVersion1 ∨ rsdp.xsdtAddress = 0 := by
    unfold Rsdp.HasXsdt at hrsdt
    tauto
  simp only [acpiTablesFindTable, if_neg (show ¬ (_ ∧ _) from hrsdt), if_pos hversion, hroot,
    Option.bind_eq_bind, Option.bind_some, validateCsum_iff, ite_not]
  split
  next hverified =>
    rw [pointerCount_toNat mem root (Or.inl rfl), show (4 : U64).toNat = 4 from rfl]
    apply rsdtLoop_eq
    intro k hk
    by_cases hzero : rsdtPointer mem root (0 + k) = 0
    · rw [hzero, tableAddr_zero]
      rfl
    · apply hpointers _ _ hzero
      apply List.mem_map_of_mem
      rw [List.mem_range'_1]
      omega
  next hbad => rfl

/-- The pointers of the RSDT have 32 bits. -/
theorem listed_lt (hrsdt : ¬ rsdp.HasXsdt) {phys : U64} (hphys : phys ∈ listed mem physMapSz rsdp) :
  phys.toNat < 2 ^ 32
  := by
  rw [listed] at hphys
  simp only [if_neg hrsdt, List.mem_map] at hphys
  obtain ⟨i, -, rfl⟩ := hphys
  rw [rsdtPointer, BitVec.toNat_setWidth]
  have hlt := (u32 mem (address physMapSz rsdp.root + headerSize + 4 * BitVec.ofNat 64 i)).isLt
  omega

/-- With the pointers in the direct map, `acpi_tables_find_table` returns, and what it returns
is the pointer to the table that is meant, or `NULL` where there is none, exactly when the root
table is regular. -/
theorem findTable_iff (tableName : ℕ → Byte) (hmapped : Mapped mem physMapSz rsdp) :
  acpiTablesFindTable mem physMapSz none tableName = some null ∧
  ∃ ret, acpiTablesFindTable mem physMapSz (some rsdp) tableName = some ret ∧
    (ret = pointerTo physMapSz (meant mem physMapSz rsdp tableName) ↔
      Regular mem physMapSz rsdp tableName)
  := by
  apply And.intro rfl
  unfold Regular meant
  by_cases hxsdt : rsdp.HasXsdt
  · refine ⟨_, findTable_xsdt tableName hmapped hxsdt, ?_⟩
    rw [if_pos hxsdt]
    split
    next hverified => simp only [hverified]
    next hbad =>
      simp only [hbad, iff_false, pointerTo, Option.map_none, Option.getD_none]
      decide
  · refine ⟨_, findTable_rsdt tableName hmapped hxsdt, ?_⟩
    rw [if_neg hxsdt]
    split
    next hverified =>
      rw [find_nonzero_iff fun phys hphys => listed_lt hxsdt hphys]
      simp only [hverified, true_implies]
    next hbad =>
      simp only [hbad, false_implies, pointerTo, Option.map_none, Option.getD_none]

end Returned

/-- The signature of the MADT. -/
def madtSig : ℕ → Byte
  | 0 => 0x41
  | 1 => 0x50
  | 2 => 0x49
  | 3 => 0x43
  | _ => 0

/-- A memory with an XSDT at physical address 4096, which has a given byte in its checksum field
and lists a MADT at 8192. -/
def oneTable (checksum : Byte) : Memory := fun a =>
  let contents : List (ℕ × Byte) :=
    [(4096 + 4, 44), (4096 + 9, checksum), (4096 + 37, 0x20), (8192, 0x41), (8192 + 1, 0x50),
      (8192 + 2, 0x49), (8192 + 3, 0x43), (8192 + 4, 36), (8192 + 9, 191)]
  (contents.lookup (a - kernTopBase).toNat).getD 0

/-- An RSDP with the XSDT at physical address 4096. -/
def rsdp20 : Rsdp where
  revision := 2
  rsdtAddress := 0
  xsdtAddress := 4096

theorem address_rsdp20 :
  address 0 rsdp20.root = kernTopBase + 4096
  := by decide +kernel

theorem headerLength_oneTable (checksum : Byte) :
  headerLength (oneTable checksum) (kernTopBase + 4096) = 44
  := by
  simp [headerLength, u32, oneTable, kernTopBase, List.lookup_cons]

/-- The XSDT of `oneTable` lists the MADT. -/
theorem listed_oneTable (checksum : Byte) :
  listed (oneTable checksum) 0 rsdp20 = [8192]
  := by
  have hxsdt : rsdp20.HasXsdt := by decide
  have hpointer : xsdtPointer (oneTable checksum) (kernTopBase + 4096) 0 = 8192 := by
    simp [xsdtPointer, u64, u32, oneTable, kernTopBase, headerSize, List.lookup_cons]
  have hcount : ((44 : BitVec 32).toNat - 36) / 8 = 1 := rfl
  rw [listed, address_rsdp20, headerLength_oneTable, if_pos hxsdt, hcount, List.range_one,
    List.map_singleton, hpointer]

theorem mapped_oneTable (checksum : Byte) :
  Mapped (oneTable checksum) 0 rsdp20
  := by
  constructor
  · decide +kernel
  · intro phys hphys hne
    rw [listed_oneTable, List.mem_singleton] at hphys
    subst hphys
    decide +kernel

theorem findTable_oneTable :
  acpiTablesFindTable (oneTable 180) 0 none madtSig = some null ∧
  ∃ ret, acpiTablesFindTable (oneTable 180) 0 (some rsdp20) madtSig = some ret ∧
    (ret = pointerTo 0 (meant (oneTable 180) 0 rsdp20 madtSig) ↔
      Regular (oneTable 180) 0 rsdp20 madtSig)
  := by
  apply findTable_iff
  apply mapped_oneTable

/-- Where the XSDT does not sum to 0, what is returned is not `NULL`, which callers test for. -/
theorem findTable_badXsdt :
  Mapped (oneTable 0) 0 rsdp20 ∧
    ∃ ret, acpiTablesFindTable (oneTable 0) 0 (some rsdp20) madtSig = some ret ∧
      ret ≠ pointerTo 0 (meant (oneTable 0) 0 rsdp20 madtSig) ∧ ret ≠ null
  := by
  have hxsdt : rsdp20.HasXsdt := by decide
  have hbad : ¬ Verified (oneTable 0) (address 0 rsdp20.root) := by
    rw [address_rsdp20, Verified, headerLength_oneTable]
    decide +kernel
  apply And.intro (mapped_oneTable 0)
  refine ⟨_, findTable_xsdt madtSig (mapped_oneTable 0) hxsdt, ?_⟩
  rw [meant, if_neg hbad, if_neg hbad]
  decide

end AcpiTables
