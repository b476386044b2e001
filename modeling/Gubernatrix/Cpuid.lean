import Gubernatrix.Lib.Bitfield
import Gubernatrix.Types

/-!
# Detection of the processor

`cpuid_init` reads what `cpuid` says about the processor, and computes the frequencies of the
time-stamp counter and of the local APIC timer in variables of 32 bits. On a processor of Intel that
does not say the rate of its bus, the rate is looked up by the model.
-/

namespace Cpuid

/-- `uint32_t`. -/
abbrev U32 := BitVec 32

/-! ### The processor -/

/-- What `cpuid` returns in the registers. -/
structure Regs where
  eax : U32
  ebx : U32
  ecx : U32
  edx : U32

/-- A processor: the answers of `cpuid` for a page and an index, and its model-specific
registers. -/
structure Processor where
  cpuid : U32 → U32 → Regs
  rdmsr : U32 → U64

/-- `cpu_manufacturer`. -/
inductive Manufacturer where
  | amd
  | intel
deriving DecidableEq

/-- `cpuinfo_t`. -/
structure Cpuinfo where
  smep : Bool
  smap : Bool
  hugepage : Bool
  x2apic : Bool
  xsave : Bool
  tscValid : Bool
  tscDeadline : Bool
  tscInvar : Bool
  processorName : List (BitVec 8)
  tscFreq : U64
  apicFreq : U64
  xsaveBits : U64
  xsaveSz : U32

/-! ### `cpuid_init` -/

/-- The bytes of a register. -/
def bytes (reg : U32) : List (BitVec 8) := (List.range 4).map fun i => reg.extractLsb' (8 * i) 8

/-- The bytes of a string. -/
def chars (s : String) : List (BitVec 8) := s.toList.map fun c => BitVec.ofNat 8 c.toNat

/-- `processor_name`. -/
def processorName (p : Processor) : List (BitVec 8) :=
  let regs := p.cpuid 0 0
  bytes regs.ebx ++ bytes regs.edx ++ bytes regs.ecx

/-- The manufacturer: AMD unless the name says Intel. -/
def cpuManufacturer (p : Processor) : Manufacturer :=
  if processorName p = chars "GenuineIntel" then .intel else .amd

/-- `model`, from the answer for page 1. -/
def model (eax : U32) : U32 :=
  let model := (eax &&& 0xf0) >>> 4
  let family := (eax &&& 0xf00) >>> 8
  if family = 15 then model ||| (eax &&& 0xf0000) >>> 12 else model

/-- The models for which `MSR_PLATFORM_INFO` gives the rate of the bus. -/
def platformInfoModels : List U32 :=
  [0x2a, 0x2d, 0x3a, 0x3e, 0x3c, 0x3f, 0x45, 0x46, 0x3d, 0x47, 0x56, 0x4f]

/-- The models with a bus of 24 MHz. -/
def fixedModels : List U32 := [0x4e, 0x5e, 0x55, 0x8e, 0x9e]

/-- `tsc_rate`, from page 0x15. -/
def tscRate (p : Processor) : U32 :=
  let regs := p.cpuid 0x15 0
  let ratioDenom := regs.eax
  let ratioNumer := regs.ebx
  let clockFreq := regs.ecx
  if ratioDenom ≠ 0 then (clockFreq * ratioNumer) / ratioDenom else 0

/-- The product that `tsc_rate` is set to on AMD, if it is zero. -/
def amdTscRate (p : Processor) : U64 := (p.rdmsr 0xc0010064 &&& 0xff) * 25 * (1000 * 1000)

/-- `tsc_freq`. -/
def tscFreq (p : Processor) : U64 :=
  match cpuManufacturer p with
  | .amd =>
      let tscRate := if tscRate p = 0 then (amdTscRate p).setWidth 32 else tscRate p
      tscRate.setWidth 64
  | .intel => (tscRate p).setWidth 64

/-- `apic_rate`, once it is settled. -/
def apicRate (p : Processor) : U32 :=
  let apicRate := (p.cpuid 0x16 0).ecx &&& 0xffff
  match cpuManufacturer p with
  | .amd => if apicRate = 0 then 100 else apicRate
  | .intel =>
      if apicRate = 0 then
        let model := model (p.cpuid 1 0).eax
        if model ∈ platformInfoModels then (((p.rdmsr 0xce >>> 8) &&& 0xff) * 100).setWidth 32
        else if model ∈ fixedModels then 24
        else apicRate
      else apicRate

/-- `apic_freq`. -/
def apicFreq (p : Processor) : U64 := (apicRate p * 1000 * 1000).setWidth 64

/-- `cpuid_init`. -/
def cpuidInit (p : Processor) : Cpuinfo where
  smep := (p.cpuid 7 0).ebx.getLsbD 7
  smap := (p.cpuid 7 0).ebx.getLsbD 20
  hugepage := (p.cpuid 0x80000001 0).edx.getLsbD 26
  x2apic := (p.cpuid 1 0).ecx.getLsbD 21
  xsave := (p.cpuid 1 0).ecx.getLsbD 26
  tscValid := (p.cpuid 1 0).edx.getLsbD 4
  tscDeadline := (p.cpuid 1 0).ecx.getLsbD 24
  tscInvar := (p.cpuid 0x80000007 0).edx.getLsbD 8
  processorName := processorName p
  tscFreq := tscFreq p
  apicFreq := apicFreq p
  xsaveBits := (p.cpuid 0xd 0).edx.setWidth 64 <<< 32 ||| (p.cpuid 0xd 0).eax.setWidth 64
  xsaveSz := (p.cpuid 0xd 0).ecx

/-! ### What should hold -/

/-- The denominator of the ratio of the time-stamp counter to the crystal. -/
def Processor.ratioDenom (p : Processor) : ℕ := (p.cpuid 0x15 0).eax.toNat

/-- The frequency of the crystal times the numerator of the ratio. -/
def Processor.product (p : Processor) : ℕ :=
  (p.cpuid 0x15 0).ecx.toNat * (p.cpuid 0x15 0).ebx.toNat

/-- The multiplier of the frequency of an AMD processor. -/
def Processor.amdMultiplier (p : Processor) : ℕ := (p.rdmsr 0xc0010064 &&& 0xff).toNat

/-- The rate of the bus in page 0x16. -/
def Processor.busRate (p : Processor) : ℕ := ((p.cpuid 0x16 0).ecx &&& 0xffff).toNat

/-- The ratio of the processor to the bus in `MSR_PLATFORM_INFO`. -/
def Processor.platformRatio (p : Processor) : ℕ := ((p.rdmsr 0xce >>> 8) &&& 0xff).toNat

/-- The frequencies are the products and quotients of numbers without a bound. -/
structure Exact (p : Processor) : Prop where
  tsc : p.ratioDenom ≠ 0 → p.product / p.ratioDenom ≠ 0 →
    (cpuidInit p).tscFreq.toNat = p.product / p.ratioDenom
  amd : cpuManufacturer p = .amd → p.ratioDenom ≠ 0 → p.product / p.ratioDenom = 0 →
    (cpuidInit p).tscFreq.toNat = p.amdMultiplier * 25 * 10 ^ 6
  apic : (cpuidInit p).apicFreq.toNat = (apicRate p).toNat * 10 ^ 6

/-- No product of two variables of 32 bits wraps around. -/
structure Unwrapped (p : Processor) : Prop where
  tsc : p.ratioDenom ≠ 0 → ¬ BitVec.umulOverflow (p.cpuid 0x15 0).ecx (p.cpuid 0x15 0).ebx
  apic : ¬ BitVec.umulOverflow (apicRate p) 1000 ∧ ¬ BitVec.umulOverflow (apicRate p * 1000) 1000

/-- The numbers that the processor reports are small enough for 32 bits. -/
structure Fits (p : Processor) : Prop where
  product : p.ratioDenom ≠ 0 → p.product < 2 ^ 32
  multiplier : cpuManufacturer p = .amd → p.ratioDenom ≠ 0 → p.product / p.ratioDenom = 0 →
    p.amdMultiplier ≤ 171
  bus : p.busRate ≤ 4294
  ratio : cpuManufacturer p = .intel → p.busRate = 0 →
    model (p.cpuid 1 0).eax ∈ platformInfoModels → p.platformRatio ≤ 42

/-- The product wraps around to less than the denominator, and what is taken instead on AMD wraps
around to the right frequency. -/
structure Coincides (p : Processor) : Prop where
  amd : cpuManufacturer p = .amd
  product : 2 ^ 32 ≤ p.product
  small : p.product % 2 ^ 32 / p.ratioDenom = 0
  equal : p.amdMultiplier * 25 * 10 ^ 6 % 2 ^ 32 = p.product / p.ratioDenom

/-! ### The rates -/

section Rates

variable {p : Processor}

theorem ratioDenom_lt (p : Processor) :
  p.ratioDenom < 2 ^ 32
  := (p.cpuid 0x15 0).eax.isLt

theorem amdMultiplier_lt (p : Processor) :
  p.amdMultiplier < 2 ^ 8
  := by
  rw [Processor.amdMultiplier, BitVec.toNat_and]
  exact Nat.and_lt_two_pow _ (by decide)

theorem platformRatio_lt (p : Processor) :
  p.platformRatio < 2 ^ 8
  := by
  rw [Processor.platformRatio, BitVec.toNat_and]
  exact Nat.and_lt_two_pow _ (by decide)

/-- Dividing what is left of a product that wraps around gives too little. -/
theorem wrapped_div_lt {x d : ℕ} (hx : 2 ^ 32 ≤ x) (hpos : 0 < d) (hd : d < 2 ^ 32) :
  x % 2 ^ 32 / d < x / d
  := by
  have hle : x % 2 ^ 32 + d ≤ x := by omega
  calc
    x % 2 ^ 32 / d < x % 2 ^ 32 / d + 1 := Nat.lt_succ_self _
    _ = (x % 2 ^ 32 + d) / d := (Nat.add_div_right _ hpos).symm
    _ ≤ x / d := Nat.div_le_div_right hle

theorem toNat_tscRate (h : p.ratioDenom ≠ 0) :
  (tscRate p).toNat = p.product % 2 ^ 32 / p.ratioDenom
  := by
  have hne : (p.cpuid 0x15 0).eax ≠ 0 := by
    intro hzero
    apply h
    rw [Processor.ratioDenom, hzero]
    rfl
  rw [tscRate, if_pos hne, BitVec.toNat_udiv, BitVec.toNat_mul]
  rfl

/-- The product of AMD does not wrap around in 64 bits. -/
theorem toNat_amdTscRate (p : Processor) :
  (amdTscRate p).toNat = p.amdMultiplier * 25 * 10 ^ 6
  := by
  have hlt := amdMultiplier_lt p
  have h25 : (25 : U64).toNat = 25 := rfl
  have hmillion : (1000 * 1000 : U64).toNat = 10 ^ 6 := rfl
  have hproduct : ((p.rdmsr 0xc0010064 &&& 0xff) * 25).toNat = p.amdMultiplier * 25 := by
    rw [BitVec.toNat_mul, h25]
    apply Nat.mod_eq_of_lt
    rw [Processor.amdMultiplier] at hlt
    omega
  rw [amdTscRate, BitVec.toNat_mul, hproduct, hmillion]
  apply Nat.mod_eq_of_lt
  omega

theorem toNat_tscFreq_amd (h : cpuManufacturer p = .amd) :
  (tscFreq p).toNat
    = if (tscRate p).toNat = 0 then p.amdMultiplier * 25 * 10 ^ 6 % 2 ^ 32 else (tscRate p).toNat
  := by
  have hiff : tscRate p = 0 ↔ (tscRate p).toNat = 0 := BitVec.toNat_inj.symm
  have hwide : ∀ x : U32, (x.setWidth 64).toNat = x.toNat := fun x => by
    rw [BitVec.toNat_setWidth]
    omega
  rw [tscFreq, h]
  simp only [hwide, hiff]
  split
  · rw [BitVec.toNat_setWidth, toNat_amdTscRate]
  · rfl

theorem toNat_tscFreq_intel (h : cpuManufacturer p = .intel) :
  (tscFreq p).toNat = (tscRate p).toNat
  := by
  rw [tscFreq, h]
  simp only [BitVec.toNat_setWidth]
  omega

/-- The rate of the bus that is settled on. -/
theorem toNat_apicRate (p : Processor) :
  (apicRate p).toNat =
    match cpuManufacturer p with
    | .amd => if p.busRate = 0 then 100 else p.busRate
    | .intel =>
        if p.busRate = 0 then
          if model (p.cpuid 1 0).eax ∈ platformInfoModels then p.platformRatio * 100
          else if model (p.cpuid 1 0).eax ∈ fixedModels then 24
          else 0
        else p.busRate
  := by
  have hzero : (p.cpuid 0x16 0).ecx &&& 0xffff = 0 ↔ p.busRate = 0 := BitVec.toNat_inj.symm
  have hratio : (((p.rdmsr 0xce >>> 8 &&& 0xff) * 100).setWidth 32).toNat
      = p.platformRatio * 100 := by
    have hlt := platformRatio_lt p
    have h100 : (100 : U64).toNat = 100 := rfl
    rw [Processor.platformRatio] at hlt ⊢
    rw [BitVec.toNat_setWidth, BitVec.toNat_mul, h100]
    omega
  rw [apicRate]
  cases cpuManufacturer p with
  | amd =>
      simp only [hzero]
      split
      · rfl
      · rfl
  | intel =>
      simp only [hzero]
      split
      next hbus =>
        split
        · exact hratio
        · split
          · rfl
          · exact hbus
      · rfl

/-- The rate of the bus is small enough if what the processor reports is. -/
theorem apicRate_le_iff (p : Processor) :
  (apicRate p).toNat ≤ 4294
    ↔ p.busRate ≤ 4294
      ∧ (cpuManufacturer p = .intel → p.busRate = 0 →
        model (p.cpuid 1 0).eax ∈ platformInfoModels → p.platformRatio ≤ 42)
  := by
  rw [toNat_apicRate]
  cases cpuManufacturer p with
  | amd =>
      simp only [reduceCtorEq, false_implies, and_true]
      split
      · omega
      · rfl
  | intel =>
      by_cases hbus : p.busRate = 0
      · by_cases hmem : model (p.cpuid 1 0).eax ∈ platformInfoModels
        · simp only [hbus, hmem, if_true, true_implies]
          omega
        · simp only [hbus, hmem, if_true, if_false, false_implies]
          split
          · decide
          · decide
      · simp [hbus]

/-- The frequency of the APIC timer wraps around when the rate of the bus is too large. -/
theorem toNat_apicFreq (p : Processor) :
  (apicFreq p).toNat = (apicRate p).toNat * 10 ^ 6 % 2 ^ 32
  := by
  have hthousand : (1000 : U32).toNat = 1000 := rfl
  rw [apicFreq, BitVec.toNat_setWidth, BitVec.toNat_mul, BitVec.toNat_mul, hthousand,
    Nat.mod_mul_mod, Nat.mul_assoc]
  apply Nat.mod_eq_of_lt
  omega

theorem apicFreq_exact_iff (p : Processor) :
  (apicFreq p).toNat = (apicRate p).toNat * 10 ^ 6 ↔ (apicRate p).toNat ≤ 4294
  := by
  rw [toNat_apicFreq]
  omega

theorem apicFreq_unwrapped_iff (p : Processor) :
  (¬ BitVec.umulOverflow (apicRate p) 1000 ∧ ¬ BitVec.umulOverflow (apicRate p * 1000) 1000)
    ↔ (apicRate p).toNat ≤ 4294
  := by
  have hthousand : (1000 : U32).toNat = 1000 := rfl
  simp only [BitVec.umulOverflow, BitVec.toNat_mul, hthousand, decide_eq_true_eq, Nat.not_le]
  constructor
  · rintro ⟨hfirst, hsecond⟩
    rw [Nat.mod_eq_of_lt hfirst] at hsecond
    omega
  · intro hle
    have hfirst : (apicRate p).toNat * 1000 < 2 ^ 32 := by omega
    rw [Nat.mod_eq_of_lt hfirst]
    omega

end Rates

/-! ### The frequencies -/

section Frequencies

variable {p : Processor}

theorem exact_of_fits (h : Fits p) :
  Exact p
  := by
  have hrate : p.ratioDenom ≠ 0 → (tscRate p).toNat = p.product / p.ratioDenom := fun hd => by
    rw [toNat_tscRate hd, Nat.mod_eq_of_lt (h.product hd)]
  constructor
  · intro hd hne
    cases hmanufacturer : cpuManufacturer p with
    | amd =>
        apply Eq.trans (toNat_tscFreq_amd hmanufacturer)
        rw [hrate hd, if_neg hne]
    | intel => exact (toNat_tscFreq_intel hmanufacturer).trans (hrate hd)
  · intro hamd hd hzero
    have hle := h.multiplier hamd hd hzero
    apply Eq.trans (toNat_tscFreq_amd hamd)
    rw [hrate hd, if_pos hzero]
    omega
  · apply (apicFreq_exact_iff p).mpr
    exact (apicRate_le_iff p).mpr ⟨h.bus, h.ratio⟩

theorem unwrapped_of_fits (h : Fits p) :
  Unwrapped p
  := by
  constructor
  · intro hd hoverflow
    rw [BitVec.umulOverflow, decide_eq_true_eq] at hoverflow
    exact absurd (h.product hd) (Nat.not_lt.mpr hoverflow)
  · apply (apicFreq_unwrapped_iff p).mpr
    exact (apicRate_le_iff p).mpr ⟨h.bus, h.ratio⟩

/-- A product that wraps around gives a wrong frequency, but for a coincidence. -/
theorem coincides_of_wrapped (h : Exact p) (hd : p.ratioDenom ≠ 0) (hwrap : 2 ^ 32 ≤ p.product) :
  Coincides p
  := by
  have hlt := wrapped_div_lt hwrap (Nat.pos_of_ne_zero hd) (ratioDenom_lt p)
  have hexact := h.tsc hd (Nat.ne_zero_of_lt hlt)
  have hrate := toNat_tscRate hd
  cases hmanufacturer : cpuManufacturer p with
  | amd =>
      have hfreq := (toNat_tscFreq_amd hmanufacturer).symm.trans hexact
      rw [hrate] at hfreq
      split at hfreq
      next hzero => exact ⟨hmanufacturer, hwrap, hzero, hfreq⟩
      next hne => omega
  | intel =>
      have hfreq := (toNat_tscFreq_intel hmanufacturer).symm.trans hexact
      omega

theorem fits_of_exact (h : Exact p) (hproduct : p.ratioDenom ≠ 0 → p.product < 2 ^ 32) :
  Fits p
  := by
  obtain ⟨hbus, hratio⟩ := (apicRate_le_iff p).mp ((apicFreq_exact_iff p).mp h.apic)
  refine ⟨hproduct, ?_, hbus, hratio⟩
  intro hamd hd hzero
  have hfreq := (toNat_tscFreq_amd hamd).symm.trans (h.amd hamd hd hzero)
  rw [toNat_tscRate hd, Nat.mod_eq_of_lt (hproduct hd), if_pos hzero] at hfreq
  omega

end Frequencies

/-- The frequencies are exact, and no product wraps around, exactly if the numbers that the
processor reports are small enough. Frequencies that are exact otherwise are a coincidence. -/
theorem cpuidInit_exact_iff (p : Processor) :
  (Exact p ∧ Unwrapped p ↔ Fits p) ∧ (Exact p → Fits p ∨ Coincides p)
  := by
  constructor
  · constructor
    · rintro ⟨hexact, hunwrapped⟩
      apply fits_of_exact hexact
      intro hd
      have hfits := hunwrapped.tsc hd
      rw [BitVec.umulOverflow, decide_eq_true_eq, Nat.not_le] at hfits
      exact hfits
    · intro h
      exact ⟨exact_of_fits h, unwrapped_of_fits h⟩
  · intro hexact
    by_cases hproduct : p.ratioDenom ≠ 0 → p.product < 2 ^ 32
    · exact .inl (fits_of_exact hexact hproduct)
    · push Not at hproduct
      exact .inr (coincides_of_wrapped hexact hproduct.1 hproduct.2)

/-- A processor of Intel with a crystal of 24 MHz, and a time-stamp counter that is 108 times as
fast. -/
def crystal24MHz : Processor where
  cpuid page _ :=
    if page = 0 then ⟨0x16, 0x756e6547, 0x6c65746e, 0x49656e69⟩
    else if page = 0x15 then ⟨2, 216, 24000000, 0⟩
    else if page = 0x16 then ⟨2600, 3500, 100, 0⟩
    else ⟨0, 0, 0, 0⟩
  rdmsr _ := 0

/-- Its frequency of 2592 MHz is taken to be 444 MHz. -/
theorem not_exact_crystal24MHz :
  cpuManufacturer crystal24MHz = .intel ∧ (cpuidInit crystal24MHz).tscFreq = 444516352
    ∧ ¬ Exact crystal24MHz
  := by
  have hfreq : (cpuidInit crystal24MHz).tscFreq = 444516352 := by decide
  refine ⟨by decide, hfreq, ?_⟩
  intro h
  have hexact := h.tsc (by decide) (by decide)
  rw [hfreq] at hexact
  contradiction

/-! ### The models of Intel -/

/-- The answer of `cpuid` for page 1 in `eax`. -/
def Processor.signature (p : Processor) : U32 := (p.cpuid 1 0).eax

/-- The family in a signature, without the extended one. -/
def family (eax : U32) : BitVec 4 := eax.extractLsb' 8 4

/-- The model in a signature, below the extended model. -/
def displayModel (eax : U32) : U32 := (eax.extractLsb' 16 4 ++ eax.extractLsb' 4 4).setWidth 32

/-- The models of Nehalem and Westmere, for which the table has no rate. -/
def callibratedModels : List U32 := [0x1a, 0x1e, 0x1f, 0x2e, 0x25, 0x2c, 0x2f]

/-- The case labels of the table. -/
def caseLabels : List U32 := callibratedModels ++ platformInfoModels ++ fixedModels

/-- The rate of the bus that the table has for a model. -/
def Processor.tableRate (p : Processor) (model : U32) : ℕ :=
  if model ∈ platformInfoModels then p.platformRatio * 100
  else if model ∈ fixedModels then 24
  else 0

/-- The rate of the bus is the one that the table has for the display model, and a case that the
table has for the display model is the one taken. -/
structure Identified (p : Processor) : Prop where
  rate : (apicRate p).toNat = p.tableRate (displayModel p.signature)
  label : displayModel p.signature ∈ caseLabels → model p.signature = displayModel p.signature

section Models

variable (eax : U32)

/-- Four bits of a signature, as `cpuid_init` gets at them. -/
theorem toNat_nibble {mask : U32} (start : ℕ) {shift : ℕ}
    (hmask : mask.toNat = (2 ^ 4 - 1) * 2 ^ start)
    (hle : shift ≤ start) :
  ((eax &&& mask) >>> shift).toNat = eax.toNat / 2 ^ start % 16 * 2 ^ (start - shift)
  := by
  have hpow : ∀ a : ℕ, a * 2 ^ start = a * 2 ^ (start - shift) * 2 ^ shift := fun a => by
    rw [Nat.mul_assoc, ← pow_add, Nat.sub_add_cancel hle]
  rw [BitVec.toNat_ushiftRight, BitVec.toNat_and, hmask, Bits.and_field, Nat.shiftRight_eq_div_pow,
    hpow]
  exact Nat.mul_div_cancel _ (Nat.two_pow_pos shift)

theorem toNat_displayModel :
  (displayModel eax).toNat = eax.toNat / 2 ^ 16 % 16 * 2 ^ 4 + eax.toNat / 2 ^ 4 % 16
  := by
  rw [displayModel, BitVec.toNat_setWidth, Bitfield.toNat_append, BitVec.extractLsb'_toNat,
    BitVec.extractLsb'_toNat, Nat.shiftRight_eq_div_pow, Nat.shiftRight_eq_div_pow]
  omega

theorem family_iff :
  (eax &&& 0xf00) >>> 8 = 15 ↔ family eax = 15
  := by
  rw [← BitVec.toNat_inj, ← BitVec.toNat_inj, toNat_nibble eax 8 rfl (le_refl 8),
    family, BitVec.extractLsb'_toNat, Nat.shiftRight_eq_div_pow, Nat.sub_self, pow_zero,
    Nat.mul_one]
  rfl

/-- The extended model is added in family 15. -/
theorem model_of_family15 (h : family eax = 15) :
  model eax = displayModel eax
  := by
  have hlow : ((eax &&& 0xf0) >>> 4).toNat = eax.toNat / 2 ^ 4 % 16 := by
    rw [toNat_nibble eax 4 rfl (le_refl 4), Nat.sub_self, pow_zero, Nat.mul_one]
  have hhigh : ((eax &&& 0xf0000) >>> 12).toNat = eax.toNat / 2 ^ 16 % 16 * 2 ^ 4 :=
    toNat_nibble eax 16 rfl (by decide)
  have hlt : eax.toNat / 2 ^ 4 % 16 < 2 ^ 4 := Nat.mod_lt _ (by decide)
  apply BitVec.eq_of_toNat_eq
  simp only [model, (family_iff eax).mpr h, if_true]
  rw [BitVec.toNat_or, hlow, hhigh, Nat.or_comm, Bits.or_low _ hlt, toNat_displayModel]

/-- In the other families the model has four bits. -/
theorem model_lt (h : family eax ≠ 15) :
  (model eax).toNat < 16
  := by
  have hnot : ¬ (eax &&& 0xf00) >>> 8 = 15 := fun hfamily => h ((family_iff eax).mp hfamily)
  simp only [model, hnot, if_false]
  rw [toNat_nibble eax 4 rfl (le_refl 4), Nat.sub_self, pow_zero, Nat.mul_one]
  exact Nat.mod_lt _ (by decide)

/-- Four bits are not enough for any case of the table. -/
theorem le_of_mem_caseLabels :
  ∀ m ∈ caseLabels, 16 ≤ m.toNat
  := by simp [caseLabels, callibratedModels, platformInfoModels, fixedModels]

end Models

/-- A processor of Intel of family 6 or 15 that does not say the rate of its bus is identified
exactly if it is of family 15, or of a model that the table does not have. -/
theorem identified_iff {p : Processor} (hintel : cpuManufacturer p = .intel) (hbus : p.busRate = 0)
    (hfamily : family p.signature = 6 ∨ family p.signature = 15) :
  Identified p ↔ family p.signature = 15 ∨ displayModel p.signature ∉ caseLabels
  := by
  have hrate : (apicRate p).toNat = p.tableRate (model p.signature) := by
    rw [toNat_apicRate, hintel]
    simp only [hbus, if_true]
    rfl
  constructor
  · intro h
    by_contra hneither
    push Not at hneither
    obtain ⟨hother, hmem⟩ := hneither
    have hlt := model_lt p.signature hother
    rw [h.label hmem] at hlt
    have hle := le_of_mem_caseLabels _ hmem
    omega
  · rintro (h15 | hnot)
    · have hmodel := model_of_family15 p.signature h15
      constructor
      · rw [hrate, hmodel]
      · intro _
        exact hmodel
    · constructor
      · rw [hrate]
        obtain h6 | h15 := hfamily
        · have hnone : model p.signature ∉ caseLabels := by
            intro hmem
            have hle := le_of_mem_caseLabels _ hmem
            have hlt := model_lt p.signature (by rw [h6]; decide)
            omega
          simp only [caseLabels, List.mem_append, not_or] at hnot hnone
          simp only [Processor.tableRate, hnot, hnone, if_false]
        · rw [model_of_family15 p.signature h15]
      · intro hmem
        exact absurd hmem hnot

/-- A processor of Intel with a signature, which does not say the rate of its bus. -/
def intelOf (signature : U32) : Processor where
  cpuid page _ :=
    if page = 0 then ⟨0xd, 0x756e6547, 0x6c65746e, 0x49656e69⟩
    else if page = 1 then ⟨signature, 0, 0, 0⟩
    else ⟨0, 0, 0, 0⟩
  rdmsr _ := 0

/-- A processor of family 15. -/
theorem identified_family15 :
  Identified (intelOf 0xf4a)
  := (identified_iff (by decide) (by decide) (by decide)).mpr (.inl (by decide))

/-- A Skylake, with a bus of 24 MHz, is taken for the model 0xe, and has no rate. -/
theorem not_identified_skylake :
  cpuManufacturer (intelOf 0x506e3) = .intel ∧ (intelOf 0x506e3).busRate = 0
    ∧ family (intelOf 0x506e3).signature = 6 ∧ displayModel (intelOf 0x506e3).signature = 0x5e
    ∧ apicRate (intelOf 0x506e3) = 0 ∧ ¬ Identified (intelOf 0x506e3)
  := by
  have hrate : apicRate (intelOf 0x506e3) = 0 := by decide
  refine ⟨by decide, by decide, by decide, by decide, hrate, ?_⟩
  intro h
  have htable := h.rate
  rw [hrate] at htable
  revert htable
  decide

end Cpuid
