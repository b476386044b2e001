import Gubernatrix.Lib.Bits
import Gubernatrix.Pci.Enumerate
import Mathlib.Data.Set.Lattice
import Mathlib.Order.CompletePartialOrder
import Mathlib.Order.Interval.Set.Basic

/-!
# Windows of the functions

An entry of the MCFG has a window with 4 KiB for each function of the buses in its range. In
`ecam_addr`, `pci_reg_init` stores where the 4 KiB of a function begin, in the window of the first
entry whose range has its bus, or NULL when there is none. A window may begin at address 0, and NULL
says nothing then.
-/

namespace Pci

/-- The bytes of the window of an entry. -/
def McfgEntry.size (e : McfgEntry) : ℕ :=
  (e.endBusNumber.toNat + 1 - e.startBusNumber.toNat) * 2 ^ 20

/-- The window of an entry. -/
def McfgEntry.window (e : McfgEntry) : Set ℕ :=
  Set.Ico e.baseAddr.toNat (e.baseAddr.toNat + e.size)

/-- The bus range of the entry has the bus. -/
def McfgEntry.Contains (e : McfgEntry) (bus : ℕ) : Prop :=
  e.startBusNumber.toNat ≤ bus ∧ e.endBusNumber.toNat ≥ bus

instance (e : McfgEntry) (bus : ℕ) : Decidable (e.Contains bus) :=
  inferInstanceAs (Decidable (_ ∧ _))

/-- The windows of the entries are disjoint, and do not wrap around. -/
structure Mcfg.Separate (mcfg : Mcfg) : Prop where
  disjoint : ∀ i < mcfg.count, ∀ j < mcfg.count, i ≠ j →
    Disjoint (mcfg.entries i).window (mcfg.entries j).window
  noWrap : ∀ i < mcfg.count, (mcfg.entries i).baseAddr.toNat + (mcfg.entries i).size ≤ 2 ^ 64

/-- The 4 KiB from `ecam_addr` on. -/
def PciDevice.window (devInfo : PciDevice) : Set ℕ :=
  Set.Ico devInfo.ecamAddr.toNat (devInfo.ecamAddr.toNat + 4096)

/-- The windows of different elements are disjoint, and each is in the window of an entry for its
bus. -/
structure Windows (mcfg : Mcfg) (n : ℕ) (cells : ℕ → PciDevice) : Prop where
  disjoint : ∀ i < n, ∀ j < n, i ≠ j → (cells i).ecamAddr ≠ 0 → (cells j).ecamAddr ≠ 0 →
    Disjoint (cells i).window (cells j).window
  inside : ∀ i < n, (cells i).ecamAddr ≠ 0 → ∃ k < mcfg.count,
    (mcfg.entries k).Contains (cells i).bus ∧ (cells i).window ⊆ (mcfg.entries k).window

/-- The element has no address just when no entry has its bus. -/
def Null (mcfg : Mcfg) (devInfo : PciDevice) : Prop :=
  devInfo.ecamAddr = 0 ↔ ∀ k < mcfg.count, ¬ (mcfg.entries k).Contains devInfo.bus

/-- The first entry that has the bus of the element is based at address 0, and the element is the
first function of it. -/
def AtZero (mcfg : Mcfg) (devInfo : PciDevice) : Prop :=
  ∃ k < mcfg.count, (mcfg.entries k).Contains devInfo.bus
    ∧ (∀ j < k, ¬ (mcfg.entries j).Contains devInfo.bus)
    ∧ (mcfg.entries k).baseAddr = 0 ∧ devInfo.bus = (mcfg.entries k).startBusNumber.toNat
    ∧ devInfo.device = 0 ∧ devInfo.function = 0

/-- The element has no address just when no entry has its bus, or it is at address 0. -/
def NullOrAtZero (mcfg : Mcfg) (devInfo : PciDevice) : Prop :=
  devInfo.ecamAddr = 0
    ↔ (∀ k < mcfg.count, ¬ (mcfg.entries k).Contains devInfo.bus) ∨ AtZero mcfg devInfo

/-! ### The address of a function -/

section Address

variable {mcfg : Mcfg} {x : Func}

/-- The place of the function in the window of an entry. -/
def place (e : McfgEntry) (x : Func) : ℕ :=
  ((x.bus - e.startBusNumber.toNat) * 2 ^ 8 + x.device * 2 ^ 3 + x.function) * 2 ^ 12

/-- The fields of the offset do not overlap. -/
theorem toNat_offset {e : McfgEntry} (hbus : x.bus < 256) (hdevice : x.device < 32)
    (hfunction : x.function < 8) (he : e.Contains x.bus) :
  ((BitVec.ofNat 32 x.bus - e.startBusNumber.setWidth 32) <<< 20
      ||| BitVec.ofNat 32 x.device <<< 15 ||| BitVec.ofNat 32 x.function <<< 12).toNat
    = place e x
  := by
  have hstart := he.1
  have hsub : (BitVec.ofNat 32 x.bus - e.startBusNumber.setWidth 32).toNat
      = x.bus - e.startBusNumber.toNat := by
    rw [BitVec.toNat_sub, BitVec.toNat_setWidth, BitVec.toNat_ofNat]
    omega
  have hfirst : ((x.bus - e.startBusNumber.toNat) * 2 ^ 20 ||| x.device * 2 ^ 15)
      = ((x.bus - e.startBusNumber.toNat) * 2 ^ 5 + x.device) * 2 ^ 15 := by
    rw [Bits.or_low _ (by omega)]
    omega
  rw [BitVec.toNat_or, BitVec.toNat_or, BitVec.toNat_shiftLeft, BitVec.toNat_shiftLeft,
    BitVec.toNat_shiftLeft, hsub, BitVec.toNat_ofNat, BitVec.toNat_ofNat, Nat.shiftLeft_eq,
    Nat.shiftLeft_eq, Nat.shiftLeft_eq, Nat.mod_eq_of_lt (a := _ * 2 ^ 20) (by omega),
    Nat.mod_eq_of_lt (a := _ % _ * 2 ^ 15) (by omega),
    Nat.mod_eq_of_lt (a := _ % _ * 2 ^ 12) (by omega), Nat.mod_eq_of_lt (a := x.device) (by omega),
    Nat.mod_eq_of_lt (a := x.function) (by omega), hfirst, Bits.or_low _ (by omega), place]
  omega

theorem place_lt {e : McfgEntry} (hdevice : x.device < 32) (hfunction : x.function < 8)
    (he : e.Contains x.bus) :
  place e x + 4096 ≤ e.size
  := by
  obtain ⟨hstart, hend⟩ := he
  rw [place, McfgEntry.size]
  omega

/-- The address of a function is at its place in the window of the first entry that has its bus. -/
theorem ecamAddr_cases (h : mcfg.Separate) (hbus : x.bus < 256) (hdevice : x.device < 32)
    (hfunction : x.function < 8) :
  (∀ k < mcfg.count, ¬ (mcfg.entries k).Contains x.bus) ∧ ecamAddr mcfg x = 0
    ∨ ∃ k < mcfg.count, (mcfg.entries k).Contains x.bus
      ∧ (∀ j < k, ¬ (mcfg.entries j).Contains x.bus)
      ∧ (ecamAddr mcfg x).toNat = (mcfg.entries k).baseAddr.toNat + place (mcfg.entries k) x
  := by
  rw [ecamAddr]
  cases hfind : (List.range mcfg.count).find? fun i => (mcfg.entries i).startBusNumber.toNat ≤ x.bus
      ∧ (mcfg.entries i).endBusNumber.toNat ≥ x.bus with
  | none =>
      left
      rw [List.find?_range_eq_none] at hfind
      constructor
      · intro k hk
        have hnot := hfind k hk
        rw [Bool.not_eq_true'] at hnot
        apply of_decide_eq_false hnot
      · rfl
  | some k =>
      right
      rw [List.find?_range_eq_some] at hfind
      obtain ⟨hcontains, hk, hfirst⟩ := hfind
      have he : (mcfg.entries k).Contains x.bus := of_decide_eq_true hcontains
      have hlt : k < mcfg.count := List.mem_range.mp hk
      use k, hlt, he
      constructor
      · intro j hj
        have hnot := hfirst j hj
        rw [Bool.not_eq_true'] at hnot
        apply of_decide_eq_false hnot
      · have hplace := place_lt hdevice hfunction he
        have hwrap := h.noWrap k hlt
        dsimp only
        rw [BitVec.toNat_add, BitVec.toNat_setWidth, toNat_offset hbus hdevice hfunction he]
        omega

/-- The places of different functions are 4 KiB apart. -/
theorem place_apart {e : McfgEntry} {y : Func} (hne : x ≠ y) (hxdevice : x.device < 32)
    (hxfunction : x.function < 8) (hydevice : y.device < 32) (hyfunction : y.function < 8)
    (hx : e.Contains x.bus) (hy : e.Contains y.bus) :
  place e x + 4096 ≤ place e y ∨ place e y + 4096 ≤ place e x
  := by
  have hxstart := hx.1
  have hystart := hy.1
  by_contra hnear
  apply hne
  rw [place, place] at hnear
  have hbus : x.bus = y.bus := by omega
  have hdevice : x.device = y.device := by omega
  have hfunction : x.function = y.function := by omega
  obtain ⟨xbus, xdevice, xfunction⟩ := x
  obtain ⟨ybus, ydevice, yfunction⟩ := y
  cases hbus
  cases hdevice
  cases hfunction
  rfl

end Address

/-! ### The windows of the elements -/

section Elements

variable {mcfg : Mcfg} {space : Space} {n : ℕ} {cells : ℕ → PciDevice}

/-- An element that is listed has an address in the window of the first entry for its bus, or no
entry has its bus. -/
theorem record_cases (h : mcfg.Separate) {x : Func} (hx : Reached space x) :
  (∀ k < mcfg.count, ¬ (mcfg.entries k).Contains x.bus) ∧ (record mcfg space x).ecamAddr = 0
    ∨ ∃ k < mcfg.count, (mcfg.entries k).Contains x.bus
      ∧ (∀ j < k, ¬ (mcfg.entries j).Contains x.bus)
      ∧ (record mcfg space x).window = Set.Ico
        ((mcfg.entries k).baseAddr.toNat + place (mcfg.entries k) x)
        ((mcfg.entries k).baseAddr.toNat + place (mcfg.entries k) x + 4096)
  := by
  have hfunction := lt_of_lt_of_le hx.function (pciGetFuncCount_le space x.bus x.device)
  rcases ecamAddr_cases h hx.bus hx.device hfunction with hnone | ⟨k, hk, he, hfirst, haddr⟩
  · left
    apply hnone
  · right
    use k, hk, he, hfirst
    rw [PciDevice.window, record]
    dsimp only
    rw [haddr]

theorem window_subset {e : McfgEntry} {x : Func} (hx : Reached space x) (he : e.Contains x.bus) :
  Set.Ico (e.baseAddr.toNat + place e x) (e.baseAddr.toNat + place e x + 4096) ⊆ e.window
  := by
  have hfunction := lt_of_lt_of_le hx.function (pciGetFuncCount_le space x.bus x.device)
  have hplace := place_lt hx.device hfunction he
  apply Set.Ico_subset_Ico
  · omega
  · omega

theorem disjoint_record (h : mcfg.Separate) {x y : Func} (hx : Reached space x)
    (hy : Reached space y) (hne : x ≠ y) (hxaddr : (record mcfg space x).ecamAddr ≠ 0)
    (hyaddr : (record mcfg space y).ecamAddr ≠ 0) :
  Disjoint (record mcfg space x).window (record mcfg space y).window
  := by
  have hxfunction := lt_of_lt_of_le hx.function (pciGetFuncCount_le space x.bus x.device)
  have hyfunction := lt_of_lt_of_le hy.function (pciGetFuncCount_le space y.bus y.device)
  obtain ⟨k, hk, hxe, -, hxwindow⟩ :=
    (record_cases h hx).resolve_left fun hnone => hxaddr hnone.2
  obtain ⟨l, hl, hye, -, hywindow⟩ :=
    (record_cases h hy).resolve_left fun hnone => hyaddr hnone.2
  rw [hxwindow, hywindow]
  by_cases hkl : k = l
  · subst hkl
    have hapart := place_apart hne hx.device hxfunction hy.device hyfunction hxe hye
    apply Set.disjoint_left.mpr
    rintro a ⟨hxle, hxlt⟩ ⟨hyle, hylt⟩
    omega
  · apply (h.disjoint k hk l hl hkl).mono
    · apply window_subset hx hxe
    · apply window_subset hy hye

theorem record_inside (h : mcfg.Separate) {x : Func} (hx : Reached space x)
    (haddr : (record mcfg space x).ecamAddr ≠ 0) :
  ∃ k < mcfg.count, (mcfg.entries k).Contains x.bus
    ∧ (record mcfg space x).window ⊆ (mcfg.entries k).window
  := by
  obtain ⟨k, hk, he, -, hwindow⟩ := (record_cases h hx).resolve_left fun hnone => haddr hnone.2
  use k, hk, he
  rw [hwindow]
  apply window_subset hx he

theorem record_null_iff (h : mcfg.Separate) {x : Func} (hx : Reached space x) :
  NullOrAtZero mcfg (record mcfg space x)
  := by
  have hfunction := lt_of_lt_of_le hx.function (pciGetFuncCount_le space x.bus x.device)
  have hzero : ∀ a : U64, a = 0 ↔ a.toNat = 0 := by
    intro a
    rw [← BitVec.toNat_inj]
    rfl
  rcases ecamAddr_cases h hx.bus hx.device hfunction with
    ⟨hnone, haddr⟩ | ⟨k, hk, he, hfirst, haddr⟩
  · apply iff_of_true haddr
    left
    apply hnone
  · have hstart := he.1
    have hiff : (record mcfg space x).ecamAddr = 0
        ↔ (mcfg.entries k).baseAddr = 0 ∧ x.bus = (mcfg.entries k).startBusNumber.toNat
          ∧ x.device = 0 ∧ x.function = 0 := by
      rw [hzero, hzero, record, haddr, place]
      omega
    rw [NullOrAtZero, hiff]
    constructor
    · intro hat
      right
      use k, hk, he, hfirst
      apply hat
    · rintro (hnone | ⟨j, hj, hej, hfirstj, hat⟩)
      · apply absurd he (hnone k hk)
      · have hkj : j = k := by
          rcases lt_trichotomy j k with hlt | heq | hgt
          · apply absurd hej (hfirst j hlt)
          · exact heq
          · apply absurd he (hfirstj k hgt)
        rw [← hkj]
        apply hat

/-- What holds of each function that is listed holds of each element. -/
theorem Lists.element (h : Lists mcfg space n cells) :
  ∃ f : ℕ → Func, (∀ i < n, Reached space (f i) ∧ cells i = record mcfg space (f i))
    ∧ ∀ i < n, ∀ j < n, i ≠ j → f i ≠ f j
  := by
  obtain ⟨xs, hlen, hordered, hmem, hcells⟩ := h
  have hnodup : xs.Nodup := by
    apply hordered.imp
    intro x y hbefore heq
    rw [heq] at hbefore
    apply Before.irrefl y hbefore
  use fun i => xs.getD i ⟨0, 0, 0⟩
  have hget : ∀ i < n, xs[i]? = some (xs.getD i ⟨0, 0, 0⟩) := by
    intro i hi
    rw [List.getD_eq_getElem?_getD, List.getElem?_eq_getElem (hlen ▸ hi)]
    rfl
  constructor
  · intro i hi
    use ((hmem _).mp (List.mem_of_getElem? (hget i hi))).1
    apply hcells i _ (hget i hi)
  · intro i hi j hj hij heq
    apply hij
    apply (List.getElem?_inj (hlen ▸ hi) hnodup).mp
    rw [hget i hi, hget j hj]
    apply congrArg some heq

theorem Lists.windows (h : Lists mcfg space n cells) (hseparate : mcfg.Separate) :
  Windows mcfg n cells
  := by
  obtain ⟨f, hf, hne⟩ := h.element
  constructor
  · intro i hi j hj hij
    rw [(hf i hi).2, (hf j hj).2]
    apply disjoint_record hseparate (hf i hi).1 (hf j hj).1 (hne i hi j hj hij)
  · intro i hi
    rw [(hf i hi).2]
    apply record_inside hseparate (hf i hi).1

theorem Lists.null (h : Lists mcfg space n cells) (hseparate : mcfg.Separate) :
  ∀ i < n, NullOrAtZero mcfg (cells i)
  := by
  obtain ⟨f, hf, -⟩ := h.element
  intro i hi
  rw [(hf i hi).2]
  apply record_null_iff hseparate (hf i hi).1

end Elements

/-- The windows of different elements of `device_set` are disjoint, and each is in the window of an
entry for its bus. An element has no address just when no entry has its bus, or the first one that
has is based at address 0 and the element is the first function of it. -/
theorem windows_separate {mcfg : Mcfg} (h : mcfg.Separate) (space : Space) (devInfo : PciDevice)
    (junk : ℕ → PciDevice) :
  Windows mcfg (pciRegInit mcfg space devInfo junk).1 (pciRegInit mcfg space devInfo junk).2.cells
    ∧ ∀ i < (pciRegInit mcfg space devInfo junk).1,
      NullOrAtZero mcfg ((pciRegInit mcfg space devInfo junk).2.cells i)
  := by
  constructor
  · apply lists_pciRegInit.windows h
  · apply lists_pciRegInit.null h

/-- A table with one entry, for all buses. -/
def oneEntry (baseAddr : U64) : Mcfg := ⟨60, fun _ => ⟨baseAddr, 0, 255⟩⟩

theorem separate_oneEntry {baseAddr : U64} (h : baseAddr.toNat + 2 ^ 28 ≤ 2 ^ 64) :
  (oneEntry baseAddr).Separate
  := by
  have hcount : (oneEntry baseAddr).count = 1 := by
    have hentries : (60 - 8 - 36 : U32).toNat / 16 = 1 := by decide
    exact hentries
  constructor
  · intro i hi j hj hij
    rw [hcount] at hi hj
    omega
  · intro i _
    have hbase : ((oneEntry baseAddr).entries i).baseAddr = baseAddr := rfl
    have hstart : ((oneEntry baseAddr).entries i).startBusNumber.toNat = 0 := rfl
    have hend : ((oneEntry baseAddr).entries i).endBusNumber.toNat = 255 := rfl
    rw [McfgEntry.size, hbase, hstart, hend]
    omega

/-- An element of `device_set` before `pci_reg_init`. -/
def noDevice : PciDevice := ⟨0, 0, 0, 0, 0, 0, 0, 0, 0, 0, 0⟩

theorem windows_separate_oneEntry :
  Windows (oneEntry 0xb0000000)
      (pciRegInit (oneEntry 0xb0000000) oneFunction noDevice fun _ => noDevice).1
      (pciRegInit (oneEntry 0xb0000000) oneFunction noDevice fun _ => noDevice).2.cells
    ∧ ∀ i < (pciRegInit (oneEntry 0xb0000000) oneFunction noDevice fun _ => noDevice).1,
      NullOrAtZero (oneEntry 0xb0000000)
        ((pciRegInit (oneEntry 0xb0000000) oneFunction noDevice fun _ => noDevice).2.cells i)
  := windows_separate (separate_oneEntry (by decide)) oneFunction noDevice fun _ => noDevice

/-- With its window at address 0, the first function has no address, although its bus is in the
range. -/
theorem not_null_oneEntry :
  ¬ ∀ mcfg : Mcfg, mcfg.Separate → ∀ (space : Space) (devInfo : PciDevice) (junk : ℕ → PciDevice),
    Windows mcfg (pciRegInit mcfg space devInfo junk).1
        (pciRegInit mcfg space devInfo junk).2.cells
      ∧ ∀ i < (pciRegInit mcfg space devInfo junk).1,
        Null mcfg ((pciRegInit mcfg space devInfo junk).2.cells i)
  := by
  intro h
  have hnull := (h (oneEntry 0) (separate_oneEntry (by decide)) oneFunction noDevice
    fun _ => noDevice).2
  have hlists : Lists (oneEntry 0) oneFunction
      (pciRegInit (oneEntry 0) oneFunction noDevice fun _ => noDevice).1
      (pciRegInit (oneEntry 0) oneFunction noDevice fun _ => noDevice).2.cells := lists_pciRegInit
  obtain ⟨xs, hlen, -, hmem, hcells⟩ := hlists
  have hfirst : (⟨0, 0, 0⟩ : Func) ∈ xs := by
    apply (hmem _).mpr
    constructor
    · constructor <;> decide
    · constructor <;> decide
  obtain ⟨i, hi⟩ := List.mem_iff_getElem?.mp hfirst
  obtain ⟨hlt, -⟩ := List.getElem?_eq_some_iff.mp hi
  have hiff := hnull i (hlen ▸ hlt)
  rw [hcells i _ hi] at hiff
  apply hiff.mp rfl 0 (by decide)
  constructor <;> decide

end Pci
