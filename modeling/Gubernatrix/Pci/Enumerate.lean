import Gubernatrix.Lib.Sieve
import Mathlib.Data.BitVec
import Mathlib.Data.List.Find

/-!
# Enumeration of PCI functions

`pci_reg_init`, which goes through the devices of all buses twice: it counts the functions that
are present, and then stores what it reads of each function in the next free element of
`device_set`, before it looks whether the function is present.
-/

namespace Pci

/-- `uint32_t`. -/
abbrev U32 := BitVec 32

/-- `uint64_t`. -/
abbrev U64 := BitVec 64

/-- The configuration space: what `PCI_DATA` reads for each value of `PCI_ADDR`. -/
abbrev Space := U32 → U32

/-- A function of a device on a bus. -/
structure Func where
  bus : ℕ
  device : ℕ
  function : ℕ
deriving DecidableEq

/-- The value that `pci_read_dword` writes to `PCI_ADDR`. -/
def pciAddr (x : Func) (offset : U32) : U32 :=
  0x80000000#32 ||| BitVec.ofNat 32 x.bus <<< 16 ||| BitVec.ofNat 32 x.device <<< 11
    ||| BitVec.ofNat 32 x.function <<< 8 ||| offset &&& 0xfc

/-- `pci_read_dword`. -/
def pciReadDword (space : Space) (x : Func) (offset : U32) : U32 := space (pciAddr x offset)

/-- `pci_get_next_device` takes the device. -/
def responds (space : Space) (bus device : ℕ) : Bool :=
  pciReadDword space ⟨bus, device, 0⟩ 0 ≠ 0xffffffff

/-- The loop of `pci_get_next_device`, with `n` buses to go through from `b` on. -/
def nextDeviceLoop (space : Space) : (n b d : ℕ) → Option (ℕ × ℕ)
  | 0, _, _ => none
  | n + 1, b, d =>
      match (List.range' d (32 - d)).find? (responds space b) with
      | some d => some (b, d)
      | none => nextDeviceLoop space n (b + 1) 0

/-- `pci_get_next_device`: the bus and the device that it finds, or `none` when it returns `-1`. -/
def pciGetNextDevice (space : Space) (bus device : ℕ) : Option (ℕ × ℕ) :=
  nextDeviceLoop space (256 - bus) bus device

/-- `pci_get_func_count`. -/
def pciGetFuncCount (space : Space) (bus device : ℕ) : ℕ :=
  let hdrType := pciReadDword space ⟨bus, device, 0⟩ 0x0c
  if (hdrType >>> 23) &&& 1 ≠ 0 then 8 else 1

theorem pciGetFuncCount_le (space : Space) (bus device : ℕ) :
  pciGetFuncCount space bus device ≤ 8
  := by
  rw [pciGetFuncCount]
  split <;> decide

/-- `pci_device_t`. -/
structure PciDevice where
  classCode : U32
  subClassCode : U32
  progIF : U32
  hdrType : U32
  deviceID : U32
  vendorID : U32
  barCount : U32
  bus : ℕ
  device : ℕ
  function : ℕ
  ecamAddr : U64

/-- `pci_get_device`: what `devInfo` points to afterwards. -/
def pciGetDevice (space : Space) (x : Func) (devInfo : PciDevice) : PciDevice :=
  let hdrType := (pciReadDword space x 0x0c >>> 16) &&& 0xff
  { devInfo with
    classCode := pciReadDword space x 8 >>> 24
    subClassCode := (pciReadDword space x 8 >>> 16) &&& 0xff
    progIF := (pciReadDword space x 8 >>> 8) &&& 0xff
    hdrType := hdrType
    deviceID := ((pciReadDword space x 0 >>> 16).setWidth 16).setWidth 32
    vendorID := ((pciReadDword space x 0).setWidth 16).setWidth 32
    bus := x.bus
    device := x.device
    function := x.function
    barCount := if hdrType = 0 then 6 else 2 }

/-- The device is skipped. -/
def PciDevice.absent (devInfo : PciDevice) : Bool :=
  devInfo.vendorID = 0xffff || devInfo.deviceID = 0xffff

/-- `MCFG_Entry`. -/
structure McfgEntry where
  baseAddr : U64
  startBusNumber : BitVec 8
  endBusNumber : BitVec 8

/-- The MCFG: the length in its header, and its entries. -/
structure Mcfg where
  length : U32
  entries : ℕ → McfgEntry

/-- The number of entries that `pci_reg_init` looks at. -/
def Mcfg.count (mcfg : Mcfg) : ℕ := (mcfg.length - 8 - 36).toNat / 16

/-- `ecam_addr` of a function. -/
def ecamAddr (mcfg : Mcfg) (x : Func) : U64 :=
  match (List.range mcfg.count).find? fun i => (mcfg.entries i).startBusNumber.toNat ≤ x.bus
      ∧ (mcfg.entries i).endBusNumber.toNat ≥ x.bus with
  | some i =>
      let entry := mcfg.entries i
      let off : U32 := (BitVec.ofNat 32 x.bus - entry.startBusNumber.setWidth 32) <<< 20
        ||| BitVec.ofNat 32 x.device <<< 15 ||| BitVec.ofNat 32 x.function <<< 12
      entry.baseAddr + off.setWidth 64
  | none => 0

/-- The functions of a device, in the inner loops of `pci_reg_init`. -/
def functions (space : Space) (bus device : ℕ) : List Func :=
  (List.range (pciGetFuncCount space bus device)).map fun f => ⟨bus, device, f⟩

/-- The functions that the loops of `pci_reg_init` come to from a device on, in at most `n` turns
of the outer one. -/
def scanLoop (space : Space) : (n bus device : ℕ) → List Func
  | 0, _, _ => []
  | n + 1, bus, device =>
      match pciGetNextDevice space bus device with
      | some (bus, device) => functions space bus device ++ scanLoop space n bus (device + 1)
      | none => []

/-- The functions that the loops of `pci_reg_init` come to: every turn of the outer one takes a
device, and there are 8192. -/
def scan (space : Space) : List Func := scanLoop space (8192 + 1) 0 0

/-- The first loop, at a function: `device_count`. -/
def countFunction (space : Space) (devInfo : PciDevice) (deviceCount : ℕ) (x : Func) : ℕ :=
  if (pciGetDevice space x devInfo).absent then deviceCount else deviceCount + 1

/-- The memory from `device_set` on, `idx`, and the elements that were written to. -/
abbrev Store := Sieve.State PciDevice

/-- The second loop, at a function. -/
def storeFunction (mcfg : Mcfg) (space : Space) (s : Store) (x : Func) : Store :=
  let devInfo := pciGetDevice space x (s.cells s.idx)
  if devInfo.absent then
    { cells := Function.update s.cells s.idx devInfo, idx := s.idx, touched := s.idx :: s.touched }
  else
    let devInfo := { devInfo with ecamAddr := ecamAddr mcfg x }
    { cells := Function.update s.cells s.idx devInfo, idx := s.idx + 1
      touched := s.idx :: s.touched }

/-- `pci_reg_init`: `device_count`, and the state after the second loop. What the memory held
before is `junk`, and `devInfo` at the first function what the stack held. -/
def pciRegInit (mcfg : Mcfg) (space : Space) (devInfo : PciDevice) (junk : ℕ → PciDevice) :
    ℕ × Store :=
  ((scan space).foldl (countFunction space devInfo) 0,
    (scan space).foldl (storeFunction mcfg space) { cells := junk, idx := 0, touched := [] })

/-! ### What should be recorded -/

/-- The scan comes to the function: its device responds, and has as many functions. -/
structure Reached (space : Space) (x : Func) : Prop where
  bus : x.bus < 256
  device : x.device < 32
  responds : pciReadDword space ⟨x.bus, x.device, 0⟩ 0 ≠ 0xffffffff
  function : x.function < pciGetFuncCount space x.bus x.device

/-- The vendor and the device ID of a function differ from `0xffff`. -/
def Present (space : Space) (x : Func) : Prop :=
  (pciReadDword space x 0).setWidth 16 ≠ 0xffff#16
    ∧ (pciReadDword space x 0 >>> 16).setWidth 16 ≠ 0xffff#16

/-- The order of functions. -/
def Before (x y : Func) : Prop :=
  x.bus < y.bus ∨ x.bus = y.bus ∧ (x.device < y.device
    ∨ x.device = y.device ∧ x.function < y.function)

/-- What is recorded about a function. -/
def record (mcfg : Mcfg) (space : Space) (x : Func) : PciDevice where
  classCode := pciReadDword space x 8 >>> 24
  subClassCode := (pciReadDword space x 8 >>> 16) &&& 0xff
  progIF := (pciReadDword space x 8 >>> 8) &&& 0xff
  hdrType := (pciReadDword space x 0x0c >>> 16) &&& 0xff
  deviceID := ((pciReadDword space x 0 >>> 16).setWidth 16).setWidth 32
  vendorID := ((pciReadDword space x 0).setWidth 16).setWidth 32
  barCount := if (pciReadDword space x 0x0c >>> 16) &&& 0xff = 0 then 6 else 2
  bus := x.bus
  device := x.device
  function := x.function
  ecamAddr := ecamAddr mcfg x

/-- The first `n` elements of an array list the functions that are present, in order and each
once. -/
def Lists (mcfg : Mcfg) (space : Space) (n : ℕ) (cells : ℕ → PciDevice) : Prop :=
  ∃ xs : List Func, xs.length = n ∧ xs.Pairwise Before
    ∧ (∀ x, x ∈ xs ↔ Reached space x ∧ Present space x)
    ∧ ∀ i x, xs[i]? = some x → cells i = record mcfg space x

/-- `pci_reg_init` lists the functions that are present, and writes to no other element. -/
structure Recorded (mcfg : Mcfg) (space : Space) (r : ℕ × Store) : Prop where
  lists : Lists mcfg space r.1 r.2.cells
  inside : ∀ i ∈ r.2.touched, i < r.1

/-- The last function that the scan comes to, if any, is present. -/
def EndsPresent (space : Space) : Prop :=
  ∀ x, Reached space x → (∀ y, Reached space y → ¬ Before x y) → Present space x

/-! ### Addresses -/

/-- The address of a dword of a function: the fields do not overlap. -/
theorem toNat_pciAddr {x : Func} (hbus : x.bus < 256) (hdevice : x.device < 32)
    (hfunction : x.function < 8) (offset : U32) :
  (pciAddr x offset).toNat = 2 ^ 31 + x.bus * 2 ^ 16 + x.device * 2 ^ 11 + x.function * 2 ^ 8
    + (offset &&& 0xfc).toNat
  := by
  have hoff : (offset &&& 0xfc).toNat < 2 ^ 8 := by
    rw [BitVec.toNat_and]
    exact lt_of_le_of_lt Nat.and_le_right (by decide)
  have hadd : ∀ {a b k : ℕ}, b < 2 ^ k → (a * 2 ^ k) ||| b = a * 2 ^ k + b := by
    intro a b k hb
    rw [Nat.mul_comm, Nat.two_pow_add_eq_or_of_lt hb]
  have hshift : ∀ {n k : ℕ}, n * 2 ^ k < 2 ^ 32 → (BitVec.ofNat 32 n <<< k).toNat = n * 2 ^ k := by
    intro n k hn
    have hle : n < 2 ^ 32 := lt_of_le_of_lt (Nat.le_mul_of_pos_right n (Nat.two_pow_pos k)) hn
    rw [BitVec.toNat_shiftLeft, BitVec.toNat_ofNat, Nat.mod_eq_of_lt hle, Nat.shiftLeft_eq,
      Nat.mod_eq_of_lt hn]
  rw [pciAddr]
  simp only [BitVec.toNat_or]
  rw [hshift (by omega), hshift (by omega), hshift (by omega),
    show (0x80000000#32).toNat = 1 * 2 ^ 31 from rfl]
  have h1 : (1 * 2 ^ 31 ||| x.bus * 2 ^ 16) = (2 ^ 15 + x.bus) * 2 ^ 16 := by
    rw [hadd (by omega)]
    omega
  have h2 : ((2 ^ 15 + x.bus) * 2 ^ 16 ||| x.device * 2 ^ 11)
      = ((2 ^ 15 + x.bus) * 2 ^ 5 + x.device) * 2 ^ 11 := by
    rw [hadd (by omega)]
    omega
  have h3 : (((2 ^ 15 + x.bus) * 2 ^ 5 + x.device) * 2 ^ 11 ||| x.function * 2 ^ 8)
      = (((2 ^ 15 + x.bus) * 2 ^ 5 + x.device) * 2 ^ 3 + x.function) * 2 ^ 8 := by
    rw [hadd (by omega)]
    omega
  rw [h1, h2, h3, hadd hoff]
  omega

/-! ### The scan -/

section Scan

variable {space : Space}

/-- The device with a number, if they are numbered across the buses, responds. -/
def respondsAt (space : Space) (p : ℕ) : Bool := responds space (p / 32) (p % 32)

/-- The loop of `pci_get_next_device` looks for the next device that responds. -/
theorem nextDeviceLoop_eq {n b d : ℕ} (hd : d ≤ 32) :
  nextDeviceLoop space n b d = ((List.range' (32 * b + d) (32 * n - d)).find?
    (respondsAt space)).map fun p => (p / 32, p % 32)
  := by
  induction n generalizing b d with
  | zero =>
      rw [Nat.mul_zero, Nat.zero_sub]
      rfl
  | succ n ih =>
      have hsplit : List.range' (32 * b + d) (32 * (n + 1) - d)
          = (List.range' d (32 - d)).map (32 * b + ·)
            ++ List.range' (32 * (b + 1) + 0) (32 * n - 0) := by
        rw [List.map_add_range', show 32 * (b + 1) + 0 = 32 * b + d + (32 - d) by omega,
          List.range'_append_1]
        congr 1
        omega
      have hbus : ∀ e ∈ List.range' d (32 - d), responds space b e
          = (respondsAt space ∘ (32 * b + ·)) e := by
        intro e he
        have hlt : e < 32 := by
          rw [List.mem_range'_1] at he
          omega
        simp only [Function.comp_apply, respondsAt]
        congr 1 <;> omega
      rw [nextDeviceLoop, List.find?_congr hbus, hsplit, List.find?_append, List.find?_map]
      cases hfind : (List.range' d (32 - d)).find? (respondsAt space ∘ (32 * b + ·)) with
      | none =>
          simp only [Option.map_none, Option.none_or]
          exact ih (Nat.zero_le _)
      | some e =>
          have hlt : e < 32 := by
            have hmem := List.mem_of_find?_eq_some hfind
            rw [List.mem_range'_1] at hmem
            omega
          simp only [Option.map_some, Option.some_or, Option.some.injEq, Prod.mk.injEq]
          omega

/-- `pci_get_next_device` finds the next device that responds. -/
theorem pciGetNextDevice_eq {bus device : ℕ} (hbus : bus ≤ 256) (hdevice : device ≤ 32) :
  pciGetNextDevice space bus device
    = ((List.range' (32 * bus + device) (8192 - (32 * bus + device))).find?
      (respondsAt space)).map fun p => (p / 32, p % 32)
  := by
  rw [pciGetNextDevice, nextDeviceLoop_eq hdevice]
  congr 3
  omega

/-- The devices that respond, from a number on. -/
def respondingFrom (space : Space) (k : ℕ) : List ℕ :=
  (List.range' k (8192 - k)).filter (respondsAt space)

theorem respondingFrom_cases (space : Space) (k : ℕ) :
  (List.range' k (8192 - k)).find? (respondsAt space) = none ∧ respondingFrom space k = []
    ∨ ∃ p, (List.range' k (8192 - k)).find? (respondsAt space) = some p ∧ k ≤ p ∧ p < 8192
      ∧ respondingFrom space k = p :: respondingFrom space (p + 1)
  := by
  cases hfind : (List.range' k (8192 - k)).find? (respondsAt space) with
  | none =>
      left
      rw [List.find?_eq_none] at hfind
      exact ⟨rfl, List.filter_eq_nil_iff.mpr hfind⟩
  | some p =>
      right
      obtain ⟨hp, skipped, rest, hsplit, hskipped⟩ := List.find?_eq_some_iff_append.mp hfind
      obtain ⟨j, hj, hpre, hpost⟩ := List.range'_eq_append_iff.mp hsplit
      obtain ⟨hkj, hpos, hrest⟩ := List.range'_eq_cons_iff.mp hpost.symm
      refine ⟨p, rfl, by omega, by omega, ?_⟩
      have hnone : skipped.filter (respondsAt space) = [] := by
        rw [List.filter_eq_nil_iff]
        intro q hq
        simpa using hskipped q hq
      rw [respondingFrom, hsplit, List.filter_append, hnone, List.nil_append,
        List.filter_cons_of_pos hp, respondingFrom, hrest]
      congr 3
      omega

/-- The loops of `pci_reg_init` come to the functions of the devices that respond. -/
theorem scanLoop_eq {n bus device : ℕ} (hbus : bus ≤ 256) (hdevice : device ≤ 32)
    (hn : 8192 < n + (32 * bus + device)) :
  scanLoop space n bus device
    = (respondingFrom space (32 * bus + device)).flatMap fun p => functions space (p / 32) (p % 32)
  := by
  induction n generalizing bus device with
  | zero =>
      have hempty : respondingFrom space (32 * bus + device) = [] := by
        rw [respondingFrom, Nat.sub_eq_zero_of_le (by omega)]
        rfl
      rw [hempty]
      rfl
  | succ n ih =>
      rw [scanLoop, pciGetNextDevice_eq hbus hdevice]
      rcases respondingFrom_cases space (32 * bus + device) with
        ⟨hfind, hfrom⟩ | ⟨p, hfind, hle, hlt, hfrom⟩
      · rw [hfind, hfrom]
        rfl
      · have hnext : 32 * (p / 32) + (p % 32 + 1) = p + 1 := by omega
        rw [hfind, hfrom, List.flatMap_cons]
        simp only [Option.map_some]
        rw [ih (by omega) (by omega) (by omega), hnext]

theorem scan_eq :
  scan space = (respondingFrom space 0).flatMap fun p => functions space (p / 32) (p % 32)
  := scanLoop_eq (by decide) (by decide) (by decide)

theorem mem_respondingFrom {p : ℕ} :
  p ∈ respondingFrom space 0 ↔ p < 8192 ∧ respondsAt space p = true
  := by
  rw [respondingFrom, List.mem_filter, List.mem_range'_1]
  simp

theorem mem_functions {bus device : ℕ} {x : Func} :
  x ∈ functions space bus device ↔ x.bus = bus ∧ x.device = device
    ∧ x.function < pciGetFuncCount space bus device
  := by
  rw [functions, List.mem_map]
  constructor
  · rintro ⟨f, hf, rfl⟩
    exact ⟨rfl, rfl, List.mem_range.mp hf⟩
  · rintro ⟨rfl, rfl, hf⟩
    exact ⟨x.function, List.mem_range.mpr hf, rfl⟩

theorem mem_scan {x : Func} :
  x ∈ scan space ↔ Reached space x
  := by
  rw [scan_eq, List.mem_flatMap]
  constructor
  · rintro ⟨p, hp, hx⟩
    obtain ⟨hlt, hresponds⟩ := mem_respondingFrom.mp hp
    obtain ⟨hbus, hdevice, hfunction⟩ := mem_functions.mp hx
    rw [respondsAt, responds, decide_eq_true_eq] at hresponds
    rw [← hbus, ← hdevice] at hfunction hresponds
    exact ⟨by omega, by omega, hresponds, hfunction⟩
  · rintro ⟨hbus, hdevice, hresponds, hfunction⟩
    have hdiv : (32 * x.bus + x.device) / 32 = x.bus := by omega
    have hmod : (32 * x.bus + x.device) % 32 = x.device := by omega
    refine ⟨32 * x.bus + x.device, mem_respondingFrom.mpr ⟨by omega, ?_⟩, ?_⟩
    · rw [respondsAt, hdiv, hmod, responds]
      exact decide_eq_true hresponds
    · rw [hdiv, hmod]
      exact mem_functions.mpr ⟨rfl, rfl, hfunction⟩

/-- The scan goes through the functions in order. -/
theorem scan_pairwise :
  (scan space).Pairwise Before
  := by
  rw [scan_eq, List.pairwise_flatMap]
  constructor
  · intro p _
    rw [functions, List.pairwise_map]
    exact List.pairwise_lt_range.imp fun hlt => .inr ⟨rfl, .inr ⟨rfl, hlt⟩⟩
  · refine List.Pairwise.imp (fun {p q} hlt => ?_) (List.Pairwise.filter _ List.pairwise_lt_range')
    intro x hx y hy
    obtain ⟨hbus, hdevice, -⟩ := mem_functions.mp hx
    obtain ⟨hbus', hdevice', -⟩ := mem_functions.mp hy
    rw [Before]
    omega

theorem Before.irrefl (x : Func) :
  ¬ Before x x
  := by
  rw [Before]
  omega

theorem Before.asymm {x y : Func} (h : Before x y) :
  ¬ Before y x
  := by
  rw [Before] at h ⊢
  omega

/-- The last function of the scan is the one with none after it. -/
theorem mem_getLast?_scan {x : Func} :
  x ∈ (scan space).getLast? ↔ Reached space x ∧ ∀ y, Reached space y → ¬ Before x y
  := by
  constructor
  · intro hx
    obtain ⟨init, hinit⟩ := List.getLast?_eq_some_iff.mp hx
    have hpairwise : (scan space).Pairwise Before := scan_pairwise
    rw [hinit, List.pairwise_append] at hpairwise
    constructor
    · rw [← mem_scan, hinit]
      simp
    · intro y hy
      rw [← mem_scan, hinit, List.mem_append, List.mem_singleton] at hy
      rcases hy with hy | rfl
      · exact (hpairwise.2.2 y hy x (List.mem_singleton_self x)).asymm
      · exact Before.irrefl y
  · rintro ⟨hx, hlast⟩
    rw [← mem_scan] at hx
    obtain ⟨z, hz⟩ : ∃ z, (scan space).getLast? = some z :=
      ⟨_, List.getLast?_eq_some_getLast (List.ne_nil_of_mem hx)⟩
    obtain ⟨init, hinit⟩ := List.getLast?_eq_some_iff.mp hz
    have hpairwise : (scan space).Pairwise Before := scan_pairwise
    rw [hinit, List.pairwise_append] at hpairwise
    have hz' : Reached space z := mem_scan.mp (List.mem_of_getLast? hz)
    rw [hinit, List.mem_append, List.mem_singleton] at hx
    rcases hx with hx | rfl
    · exact absurd (hpairwise.2.2 x hx z (List.mem_singleton_self z)) (hlast z hz')
    · exact hz

end Scan

/-! ### The two passes -/

section Passes

variable {mcfg : Mcfg} {space : Space}

instance (x : Func) : Decidable (Present space x) :=
  inferInstanceAs (Decidable (_ ∧ _))

/-- The function is present. -/
def present (space : Space) (x : Func) : Bool := decide (Present space x)

theorem setWidth_eq_ffff (w : BitVec 16) :
  w.setWidth 32 = 0xffff#32 ↔ w = 0xffff#16
  := by
  rw [← BitVec.toNat_inj, ← BitVec.toNat_inj, BitVec.toNat_setWidth]
  have hw := w.isLt
  simp
  omega

theorem absent_pciGetDevice (x : Func) (devInfo : PciDevice) :
  (pciGetDevice space x devInfo).absent = !present space x
  := by
  have hvendor := setWidth_eq_ffff ((pciReadDword space x 0).setWidth 16)
  have hdevice := setWidth_eq_ffff ((pciReadDword space x 0 >>> 16).setWidth 16)
  have habsent : ¬ Present space x ↔ (pciReadDword space x 0).setWidth 16 = 0xffff#16
      ∨ (pciReadDword space x 0 >>> 16).setWidth 16 = 0xffff#16 :=
    not_and_or.trans (or_congr not_not not_not)
  rw [PciDevice.absent, Bool.eq_iff_iff, Bool.or_eq_true, decide_eq_true_eq, decide_eq_true_eq,
    Bool.not_eq_true', present, decide_eq_false_iff_not, habsent]
  exact or_congr hvendor hdevice

theorem foldl_countFunction (devInfo : PciDevice) (n : ℕ) (xs : List Func) :
  xs.foldl (countFunction space devInfo) n = n + xs.countP (present space)
  := by
  induction xs generalizing n with
  | nil => rfl
  | cons x xs ih =>
      rw [List.foldl_cons, ih, countFunction, absent_pciGetDevice, List.countP_cons]
      cases present space x
      · rfl
      · simp
        omega

/-- What the second loop makes of an element. -/
def fill (mcfg : Mcfg) (space : Space) (x : Func) (devInfo : PciDevice) : PciDevice :=
  if present space x then record mcfg space x else pciGetDevice space x devInfo

theorem storeFunction_eq :
  storeFunction mcfg space = Sieve.step (present space) (fill mcfg space)
  := by
  funext s x
  rw [storeFunction, Sieve.step, absent_pciGetDevice, fill]
  cases present space x <;> rfl

end Passes

section Init

variable {mcfg : Mcfg} {space : Space} {devInfo : PciDevice} {junk : ℕ → PciDevice}

theorem pciRegInit_eq :
  pciRegInit mcfg space devInfo junk = ((scan space).countP (present space),
    Sieve.run (present space) (fill mcfg space) (Sieve.start junk) (scan space))
  := by
  rw [pciRegInit, foldl_countFunction, Nat.zero_add, storeFunction_eq]
  rfl

/-- Whatever else is written to, the functions that are present are listed. -/
theorem lists_pciRegInit :
  Lists mcfg space (pciRegInit mcfg space devInfo junk).1 (pciRegInit mcfg space devInfo junk).2.cells
  := by
  rw [pciRegInit_eq]
  refine ⟨(scan space).filter (present space), List.countP_eq_length_filter.symm,
    scan_pairwise.filter _, ?_, ?_⟩
  · intro x
    rw [List.mem_filter, mem_scan, present, decide_eq_true_eq]
  · intro i x hx
    have hfill : ∀ x old, present space x = true → fill mcfg space x old = record mcfg space x :=
      fun x old hx => if_pos hx
    have hcells := Sieve.run_cells (s := Sieve.start junk) hfill hx
    rwa [show (Sieve.start junk).idx = 0 from rfl, Nat.zero_add] at hcells

/-- Where nothing else is written to, the scan ends with a function that is present. -/
theorem Recorded.endsPresent (h : Recorded mcfg space (pciRegInit mcfg space devInfo junk)) :
  EndsPresent space
  := by
  have hinside := h.inside
  rw [pciRegInit_eq] at hinside
  intro x hx hlast
  exact of_decide_eq_true
    (Sieve.touched_lt_iff.mp hinside x (mem_getLast?_scan.mpr ⟨hx, hlast⟩))

theorem recorded_of_endsPresent (h : EndsPresent space) :
  Recorded mcfg space (pciRegInit mcfg space devInfo junk)
  := by
  refine ⟨lists_pciRegInit, ?_⟩
  rw [pciRegInit_eq]
  apply Sieve.touched_lt_iff.mpr
  intro x hx
  obtain ⟨hreached, hlast⟩ := mem_getLast?_scan.mp hx
  exact decide_eq_true (h x hreached hlast)

end Init

/-- `pci_reg_init` records the functions that are present, and stays inside of its array, just
when the last function that it comes to is present. -/
theorem recorded_iff (mcfg : Mcfg) (space : Space) (devInfo : PciDevice) (junk : ℕ → PciDevice) :
  Recorded mcfg space (pciRegInit mcfg space devInfo junk) ↔ EndsPresent space
  := ⟨Recorded.endsPresent, recorded_of_endsPresent⟩

/-- The configuration space of one device with several functions, of which only the first one is
present. -/
def oneFunction : Space := fun addr =>
  if addr = 0x80000000 then 0x12378086 else if addr = 0x8000000c then 0x00800000 else 0xffffffff

/-- The scan of `oneFunction` ends at function 7, which is not present. -/
theorem not_recorded_oneFunction :
  ¬ ∀ (mcfg : Mcfg) (space : Space) (devInfo : PciDevice) (junk : ℕ → PciDevice),
    Recorded mcfg space (pciRegInit mcfg space devInfo junk)
  := by
  intro h
  have hends := (h ⟨44, fun _ => ⟨0, 0, 0⟩⟩ oneFunction ⟨0, 0, 0, 0, 0, 0, 0, 0, 0, 0, 0⟩
    fun _ => ⟨0, 0, 0, 0, 0, 0, 0, 0, 0, 0, 0⟩).endsPresent
  have hreached : Reached oneFunction ⟨0, 0, 7⟩ := ⟨by decide, by decide, by decide, by decide⟩
  have hlast : ∀ y, Reached oneFunction y → ¬ Before ⟨0, 0, 7⟩ y := by
    intro y hy
    have hfunction : y.function < 8 := lt_of_lt_of_le hy.function (pciGetFuncCount_le ..)
    have haddr := toNat_pciAddr (x := ⟨y.bus, y.device, 0⟩) hy.bus hy.device (Nat.zero_lt_succ 7) 0
    have hdevice : (pciAddr ⟨y.bus, y.device, 0⟩ 0).toNat = 2 ^ 31
        ∨ (pciAddr ⟨y.bus, y.device, 0⟩ 0).toNat = 2 ^ 31 + 12 := by
      have hresponds := hy.responds
      rw [pciReadDword, oneFunction] at hresponds
      split_ifs at hresponds with hfirst hsecond
      · exact .inl (congrArg BitVec.toNat hfirst)
      · exact .inr (congrArg BitVec.toNat hsecond)
      · exact absurd rfl hresponds
    have hzero : ((0 : U32) &&& 0xfc).toNat = 0 := rfl
    rw [haddr, hzero] at hdevice
    rw [Before]
    dsimp only at hdevice ⊢
    omega
  exact absurd (hends _ hreached hlast) (by decide)

end Pci
