import Mathlib.Data.BitVec
import Mathlib.Data.Nat.Notation

/-!
# Extended processor state

The x87, SSE and further state of an x86 core, and the instructions that put it into memory and
take it back: `fxsave` and `fxrstor`, which move the x87 and the SSE state, and `xsave` and
`xrstor`, which move the components that are enabled in `xcr0` and keep in a header which of them
are in use.

The state is given by its bytes at the offsets that they have in the area in memory. An instruction
that faults is `none`. Only the standard form of the area is here: `xrstor` from an area in the
compacted form is taken for a fault.
-/

namespace XState

/-- The bytes at all addresses. -/
abbrev Mem := BitVec 64 → BitVec 8

/-- The bytes of the state, at their offsets. -/
abbrev Image := ℕ → BitVec 8

/-- What a processor has: the components of the state, from 2 on with their offsets and sizes, the
bits of `mxcsr` that may be set, and what it takes to be in use. -/
structure Hardware where
  xsave : Bool
  supported : BitVec 64
  offset : ℕ → ℕ
  size : ℕ → ℕ
  mxcsrMask : BitVec 32
  inUse : Image → BitVec 64

/-- The registers of a core that control the state, and the state. -/
structure Core where
  cr0 : BitVec 64
  cr4 : BitVec 64
  xcr0 : BitVec 64
  image : Image

namespace Core

/-- `cr0.em`. -/
def em (c : Core) : Bool := c.cr0.getLsbD 2

/-- `cr0.ts`. -/
def ts (c : Core) : Bool := c.cr0.getLsbD 3

/-- `cr4.osfxsr`. -/
def osfxsr (c : Core) : Bool := c.cr4.getLsbD 9

/-- `cr4.osxsave`. -/
def osxsave (c : Core) : Bool := c.cr4.getLsbD 18

end Core

/-! ### The area -/

/-- The offset belongs to the component: the x87 state is 0, the SSE registers are 1. -/
def Hardware.InComponent (hw : Hardware) : (i p : ℕ) → Prop
  | 0, p => p < 24 ∨ 32 ≤ p ∧ p < 160
  | 1, p => 160 ≤ p ∧ p < 416
  | i, p => hw.offset i ≤ p ∧ p < hw.offset i + hw.size i

instance (hw : Hardware) (i p : ℕ) : Decidable (hw.InComponent i p) :=
  match i with
  | 0 => inferInstanceAs (Decidable (_ ∨ _))
  | 1 => inferInstanceAs (Decidable (_ ∧ _))
  | _ + 2 => inferInstanceAs (Decidable (_ ∧ _))

/-- The offset belongs to one of the components. -/
def Hardware.Covered (hw : Hardware) (bits : ℕ → Bool) (p : ℕ) : Prop :=
  ∃ i < 64, bits i = true ∧ hw.InComponent i p

instance (hw : Hardware) (bits : ℕ → Bool) (p : ℕ) : Decidable (hw.Covered bits p) :=
  inferInstanceAs (Decidable (∃ i < 64, _))

/-- `mxcsr` is moved, as it is with the SSE and with the AVX registers. -/
def MovesMxcsr (bits : ℕ → Bool) : Prop := bits 1 = true ∨ bits 2 = true

instance (bits : ℕ → Bool) : Decidable (MovesMxcsr bits) := inferInstanceAs (Decidable (_ ∨ _))

/-- The offset is one of state that is moved with the components. -/
def Hardware.Managed (hw : Hardware) (bits : ℕ → Bool) (p : ℕ) : Prop :=
  hw.Covered bits p ∨ MovesMxcsr bits ∧ 24 ≤ p ∧ p < 28

instance (hw : Hardware) (bits : ℕ → Bool) (p : ℕ) : Decidable (hw.Managed bits p) :=
  inferInstanceAs (Decidable (_ ∨ _))

/-- The components of `fxsave` and `fxrstor`. -/
def legacy (osfxsr : Bool) : ℕ → Bool
  | 0 => true
  | 1 => osfxsr
  | _ => false

/-- The initial state: all exceptions are masked, everything else is 0 and empty. -/
def initial : Image
  | 0 => 0x7f
  | 1 => 0x03
  | 24 => 0x80
  | 25 => 0x1f
  | _ => 0

/-- The value of `mxcsr`. -/
def mxcsr (image : Image) : BitVec 32 := image 27 ++ image 26 ++ image 25 ++ image 24

/-- No reserved bit of `mxcsr` is set. -/
def Hardware.ValidMxcsr (hw : Hardware) (image : Image) : Prop :=
  mxcsr image &&& ~~~hw.mxcsrMask = 0

instance (hw : Hardware) (image : Image) : Decidable (hw.ValidMxcsr image) :=
  inferInstanceAs (Decidable (_ = _))

/-- The bytes of an area. -/
def area (m : Mem) (buf : BitVec 64) : Image := fun p => m (buf + BitVec.ofNat 64 p)

/-- A bit of `xstate_bv`. -/
def xstateBv (m : Mem) (buf : BitVec 64) (i : ℕ) : Bool :=
  (area m buf (512 + i / 8)).getLsbD (i % 8)

/-! ### Instructions -/

/-- The memory after the components are put into an area. -/
def Hardware.put (hw : Hardware) (bits : ℕ → Bool) (image : Image) (m : Mem) (buf : BitVec 64) :
    Mem := fun a =>
  let p := (a - buf).toNat
  if hw.Managed bits p then image p
  else if MovesMxcsr bits ∧ 28 ≤ p ∧ p < 32 then hw.mxcsrMask.extractLsb' (8 * (p - 28)) 8
  else m a

/-- The memory after the header is written. -/
def putHeader (rfbm inUse : BitVec 64) (m : Mem) (buf : BitVec 64) : Mem := fun a =>
  let p := (a - buf).toNat
  if 512 ≤ p ∧ p < 520 then
    let r := rfbm.extractLsb' (8 * (p - 512)) 8
    m a &&& ~~~r ||| r &&& inUse.extractLsb' (8 * (p - 512)) 8
  else m a

/-- The state after the components are taken from an area. -/
def Hardware.take (hw : Hardware) (bits inUse : ℕ → Bool) (m : Mem) (buf : BitVec 64)
    (image : Image) : Image := fun p =>
  if hw.Covered (fun i => bits i && inUse i) p then area m buf p
  else if hw.Covered bits p then initial p
  else if MovesMxcsr bits ∧ 24 ≤ p ∧ p < 28 then area m buf p
  else image p

/-- `fxsave`. -/
def fxsave (hw : Hardware) (c : Core) (m : Mem) (buf : BitVec 64) : Option Mem :=
  if c.em = false ∧ c.ts = false ∧ buf % 16 = 0 then
    some (hw.put (legacy c.osfxsr) c.image m buf)
  else none

/-- `fxrstor`. -/
def fxrstor (hw : Hardware) (c : Core) (m : Mem) (buf : BitVec 64) : Option Core :=
  if (c.em = false ∧ c.ts = false ∧ buf % 16 = 0)
      ∧ (MovesMxcsr (legacy c.osfxsr) → hw.ValidMxcsr (area m buf)) then
    some { c with image := hw.take (legacy c.osfxsr) (fun _ => true) m buf c.image }
  else none

/-- `xsave`, with the mask in `edx` and `eax`. -/
def xsave (hw : Hardware) (mask : BitVec 64) (c : Core) (m : Mem) (buf : BitVec 64) :
    Option Mem :=
  let rfbm := c.xcr0 &&& mask
  if c.osxsave = true ∧ c.ts = false ∧ buf % 64 = 0 then
    some (hw.put rfbm.getLsbD c.image (putHeader rfbm (hw.inUse c.image) m buf) buf)
  else none

/-- The area may be given to `xrstor`: no reserved byte of the header is set, all components in use
are enabled, and no reserved bit of `mxcsr` is set. -/
structure Hardware.Accepts (hw : Hardware) (xcr0 rfbm : BitVec 64) (m : Mem) (buf : BitVec 64) :
    Prop where
  reserved : ∀ p < 16, area m buf (520 + p) = 0
  enabled : ∀ i < 64, xstateBv m buf i = true → xcr0.getLsbD i = true
  mxcsr : MovesMxcsr rfbm.getLsbD → hw.ValidMxcsr (area m buf)

instance (hw : Hardware) (xcr0 rfbm : BitVec 64) (m : Mem) (buf : BitVec 64) :
    Decidable (hw.Accepts xcr0 rfbm m buf) :=
  decidable_of_iff ((∀ p < 16, area m buf (520 + p) = 0)
      ∧ (∀ i < 64, xstateBv m buf i = true → xcr0.getLsbD i = true)
      ∧ (MovesMxcsr rfbm.getLsbD → hw.ValidMxcsr (area m buf)))
    ⟨fun h => ⟨h.1, h.2.1, h.2.2⟩, fun h => ⟨h.reserved, h.enabled, h.mxcsr⟩⟩

/-- `xrstor`, with the mask in `edx` and `eax`. -/
def xrstor (hw : Hardware) (mask : BitVec 64) (c : Core) (m : Mem) (buf : BitVec 64) :
    Option Core :=
  let rfbm := c.xcr0 &&& mask
  if (c.osxsave = true ∧ c.ts = false ∧ buf % 64 = 0) ∧ hw.Accepts c.xcr0 rfbm m buf then
    some { c with image := hw.take rfbm.getLsbD (xstateBv m buf) m buf c.image }
  else none

/-- `fninit`, which leaves the contents of the x87 registers. -/
def fninit (c : Core) : Option Core :=
  if c.em = false ∧ c.ts = false then
    some { c with image := fun p => if p < 24 then initial p else c.image p }
  else none

/-- `cr4` is written. -/
def movCr4 (hw : Hardware) (c : Core) (value : BitVec 64) : Option Core :=
  if value.getLsbD 18 = true → hw.xsave = true then some { c with cr4 := value } else none

/-- What may be written to `xcr0`: the x87 state is always enabled, AVX needs SSE, and the parts of
MPX and of AVX-512 go together. -/
def Hardware.Enables (hw : Hardware) (value : BitVec 64) : Prop :=
  value &&& ~~~hw.supported = 0 ∧ value.getLsbD 0 = true
    ∧ (value.getLsbD 2 = true → value.getLsbD 1 = true) ∧ value.getLsbD 3 = value.getLsbD 4
    ∧ (value.getLsbD 5 = true → value.getLsbD 2 = true) ∧ value.getLsbD 5 = value.getLsbD 6
    ∧ value.getLsbD 6 = value.getLsbD 7

instance (hw : Hardware) (value : BitVec 64) : Decidable (hw.Enables value) :=
  inferInstanceAs (Decidable (_ ∧ _))

/-- `xsetbv` of `xcr0`. -/
def xsetbv (hw : Hardware) (c : Core) (value : BitVec 64) : Option Core :=
  if c.osxsave = true ∧ hw.Enables value then some { c with xcr0 := value } else none

/-! ### The state that is moved -/

/-- The state that the components make up. -/
def Hardware.view (hw : Hardware) (bits : ℕ → Bool) (image : Image) : Image := fun p =>
  if hw.Managed bits p then image p else 0

/-- The components are laid out as documented: those after the SSE registers are past the header,
and one that is not in use is in its initial state. -/
structure Hardware.Sound (hw : Hardware) : Prop where
  past : ∀ i, 2 ≤ i → i < 64 → hw.supported.getLsbD i = true → 576 ≤ hw.offset i
  unused : ∀ image i p, i < 64 → (hw.inUse image).getLsbD i = false → hw.InComponent i p →
    image p = initial p

/-- What the registers of a core can be. -/
structure Hardware.Possible (hw : Hardware) (c : Core) : Prop where
  osxsave : c.osxsave = true → hw.xsave = true
  mxcsr : hw.ValidMxcsr c.image

section Areas

variable {hw : Hardware} {bits : ℕ → Bool} {m : Mem} {buf : BitVec 64} {image : Image}

theorem sub_place {p : ℕ} (hp : p < 2 ^ 64) :
  (buf + BitVec.ofNat 64 p - buf).toNat = p
  := by
  have h : buf + BitVec.ofNat 64 p - buf = BitVec.ofNat 64 p := by
    rw [BitVec.add_comm, BitVec.add_sub_cancel]
  rw [h, BitVec.toNat_ofNat, Nat.mod_eq_of_lt hp]

/-- All components are supported, or they are those of the legacy area. -/
def Hardware.Known (hw : Hardware) (bits : ℕ → Bool) : Prop :=
  ∀ i, 2 ≤ i → i < 64 → bits i = true → hw.supported.getLsbD i = true

theorem known_legacy (osfxsr : Bool) :
  hw.Known (legacy osfxsr)
  := by
  intro i hi _ hbit
  match i, hi with
  | i + 2, _ => cases hbit

/-- A component is in the legacy area or past the header. -/
theorem InComponent.lt_or_le (hsound : hw.Sound) (hknown : hw.Known bits) {i p : ℕ} (hi : i < 64)
    (hbit : bits i = true) (h : hw.InComponent i p) :
  p < 24 ∨ 32 ≤ p ∧ p < 416 ∨ 576 ≤ p
  := by
  match i, h with
  | 0, h =>
      rcases h with h | h
      · exact .inl h
      · exact .inr (.inl ⟨h.1, by omega⟩)
  | 1, h => exact .inr (.inl ⟨by have := h.1; omega, h.2⟩)
  | i + 2, h =>
      have hpast := hsound.past (i + 2) (by omega) hi (hknown (i + 2) (by omega) hi hbit)
      exact .inr (.inr (hpast.trans h.1))

/-- The state that is moved is in the legacy area or past the header. -/
theorem Managed.lt_or_le (hsound : hw.Sound) (hknown : hw.Known bits) {p : ℕ}
    (h : hw.Managed bits p) :
  p < 28 ∨ 32 ≤ p ∧ p < 416 ∨ 576 ≤ p
  := by
  rcases h with ⟨i, hi, hbit, h⟩ | h
  · rcases InComponent.lt_or_le hsound hknown hi hbit h with h | h | h
    · exact .inl (by omega)
    · exact .inr (.inl h)
    · exact .inr (.inr h)
  · exact .inl h.2.2

/-- What an area holds after the components are put into it. -/
theorem area_put {p : ℕ} (hp : p < 2 ^ 64) :
  area (hw.put bits image m buf) buf p
    = if hw.Managed bits p then image p
      else if MovesMxcsr bits ∧ 28 ≤ p ∧ p < 32 then hw.mxcsrMask.extractLsb' (8 * (p - 28)) 8
      else area m buf p
  := by
  rw [area, Hardware.put, sub_place hp]
  rfl

/-- The header is left as it is. -/
theorem area_put_header (hsound : hw.Sound) (hknown : hw.Known bits) {p : ℕ} (hle : 512 ≤ p)
    (hlt : p < 576) :
  area (hw.put bits image m buf) buf p = area m buf p
  := by
  rw [area_put (by omega), if_neg, if_neg]
  · rintro ⟨-, -, h⟩
    omega
  · intro h
    rcases Managed.lt_or_le hsound hknown h with h | h | h
    · omega
    · omega
    · omega

/-- Only the first so many bytes are written. -/
theorem put_outside {n : ℕ} (h : ∀ p, hw.Managed bits p → p < n) (hn : 32 ≤ n) {a : BitVec 64}
    (ha : n ≤ (a - buf).toNat) :
  hw.put bits image m buf a = m a
  := by
  rw [Hardware.put, if_neg, if_neg]
  · rintro ⟨-, -, hlt⟩
    omega
  · intro hmanaged
    have := h _ hmanaged
    omega

theorem putHeader_outside {rfbm inUse : BitVec 64} {a : BitVec 64}
    (ha : ¬ (512 ≤ (a - buf).toNat ∧ (a - buf).toNat < 520)) :
  putHeader rfbm inUse m buf a = m a
  := if_neg ha

/-- The components that are in use afterwards: the enabled ones that are, and the others that were
before. -/
theorem xstateBv_putHeader {rfbm inUse : BitVec 64} {i : ℕ} (hi : i < 64) :
  xstateBv (putHeader rfbm inUse m buf) buf i
    = if rfbm.getLsbD i = true then inUse.getLsbD i else xstateBv m buf i
  := by
  have hp : 512 + i / 8 < 2 ^ 64 := by omega
  have hin : 512 ≤ 512 + i / 8 ∧ 512 + i / 8 < 520 := by omega
  have hbyte : 8 * (512 + i / 8 - 512) + i % 8 = i := by omega
  have hlt : i % 8 < 8 := Nat.mod_lt _ (by decide)
  rw [xstateBv, area, putHeader, sub_place hp, if_pos hin, BitVec.getLsbD_or, BitVec.getLsbD_and,
    BitVec.getLsbD_and, BitVec.getLsbD_not, BitVec.getLsbD_extractLsb', BitVec.getLsbD_extractLsb',
    hbyte]
  simp only [hlt, decide_true, Bool.true_and]
  cases rfbm.getLsbD i with
  | false => simp [xstateBv, area]
  | true => simp

/-! ### What an area holds -/

/-- Which state is taken does not depend on the state before. -/
theorem view_take (inUse : ℕ → Bool) (image image' : Image) :
  hw.view bits (hw.take bits inUse m buf image) = hw.view bits (hw.take bits inUse m buf image')
  := by
  funext p
  rw [Hardware.view, Hardware.view]
  split
  next h =>
    rw [Hardware.take, Hardware.take]
    split
    · rfl
    · split
      · rfl
      next hnot => rw [if_pos (h.resolve_left hnot), if_pos (h.resolve_left hnot)]
  next => rfl

/-- Which state is taken depends on the bytes of it, and on which components are in use. -/
theorem view_take_congr {m' : Mem} {inUse inUse' : ℕ → Bool} (hinUse : ∀ i < 64, inUse' i = inUse i)
    (harea : ∀ p, hw.Managed bits p → area m' buf p = area m buf p) :
  hw.view bits (hw.take bits inUse' m' buf image) = hw.view bits (hw.take bits inUse m buf image)
  := by
  have hcovered : ∀ p, hw.Covered (fun i => bits i && inUse' i) p
      ↔ hw.Covered (fun i => bits i && inUse i) p := by
    intro p
    refine exists_congr fun i => and_congr_right fun hi => ?_
    dsimp only
    rw [hinUse i hi]
  funext p
  rw [Hardware.view, Hardware.view]
  split
  next h =>
    rw [Hardware.take, Hardware.take, harea p h]
    simp only [hcovered]
  next => rfl

/-- Without a header, the state that is taken is what the area holds. -/
theorem view_take_true (image : Image) :
  hw.view bits (hw.take bits (fun _ => true) m buf image) = hw.view bits (area m buf)
  := by
  funext p
  rw [Hardware.view, Hardware.view]
  split
  next h =>
    rw [Hardware.take]
    simp only [Bool.and_true]
    split
    · rfl
    next hnot => rw [if_pos (h.resolve_left hnot)]
  next => rfl

/-- What is put into an area is what it holds. -/
theorem view_area_put (hfits : ∀ p, hw.Managed bits p → p < 2 ^ 64) :
  hw.view bits (area (hw.put bits image m buf) buf) = hw.view bits image
  := by
  funext p
  rw [Hardware.view, Hardware.view]
  split
  next h => rw [area_put (hfits p h), if_pos h]
  next => rfl

/-- What is put into an area is what is taken from it, if the header tells which components are in
use: what is not in use is initial. -/
theorem view_take_put (hsound : hw.Sound) {inUse : ℕ → Bool}
    (hinUse : ∀ i < 64, bits i = true → inUse i = (hw.inUse image).getLsbD i)
    (hfits : ∀ p, hw.Managed bits p → p < 2 ^ 64) (image' : Image) :
  hw.view bits (hw.take bits inUse (hw.put bits image m buf) buf image') = hw.view bits image
  := by
  funext p
  rw [Hardware.view, Hardware.view]
  split
  next h =>
    have hput : area (hw.put bits image m buf) buf p = image p := by
      rw [area_put (hfits p h), if_pos h]
    rw [Hardware.take, hput]
    split
    · rfl
    next hnot =>
      split
      next hcovered =>
        obtain ⟨i, hi, hbit, hcomponent⟩ := hcovered
        refine (hsound.unused image i p hi ?_ hcomponent).symm
        rw [← hinUse i hi hbit, ← Bool.not_eq_true]
        intro huse
        exact hnot ⟨i, hi, Bool.and_eq_true_iff.mpr ⟨hbit, huse⟩, hcomponent⟩
      next hcovered => rw [if_pos (h.resolve_left hcovered)]
  next => rfl

theorem validMxcsr_congr {image' : Image} (h : ∀ p, 24 ≤ p → p < 28 → image p = image' p) :
  hw.ValidMxcsr image ↔ hw.ValidMxcsr image'
  := by
  have hmxcsr : mxcsr image = mxcsr image' := by
    rw [mxcsr, mxcsr, h 24 (by decide) (by decide), h 25 (by decide) (by decide),
      h 26 (by decide) (by decide), h 27 (by decide) (by decide)]
  rw [Hardware.ValidMxcsr, Hardware.ValidMxcsr, hmxcsr]

/-- The control register is no component. -/
theorem not_covered_mxcsr (hsound : hw.Sound) (hknown : hw.Known bits) {p : ℕ} (hle : 24 ≤ p)
    (hlt : p < 28) :
  ¬ hw.Covered bits p
  := by
  rintro ⟨i, hi, hbit, h⟩
  rcases InComponent.lt_or_le hsound hknown hi hbit h with h | h | h
  · omega
  · omega
  · omega

/-- An area holds a valid `mxcsr` if the state that is put into it does. -/
theorem validMxcsr_put (hmoves : MovesMxcsr bits) (h : hw.ValidMxcsr image) :
  hw.ValidMxcsr (area (hw.put bits image m buf) buf)
  := by
  refine (validMxcsr_congr fun p hle hlt => ?_).mpr h
  rw [area_put (by omega), if_pos (.inr ⟨hmoves, hle, hlt⟩)]

/-- What is taken from an area with a valid `mxcsr` has one. -/
theorem validMxcsr_take (hsound : hw.Sound) (hknown : hw.Known bits) {inUse : ℕ → Bool}
    (harea : MovesMxcsr bits → hw.ValidMxcsr (area m buf)) (h : hw.ValidMxcsr image) :
  hw.ValidMxcsr (hw.take bits inUse m buf image)
  := by
  by_cases hmoves : MovesMxcsr bits
  · refine (validMxcsr_congr fun p hle hlt => ?_).mpr (harea hmoves)
    have hnot := not_covered_mxcsr hsound hknown hle hlt
    rw [Hardware.take, if_neg, if_neg hnot, if_pos ⟨hmoves, hle, hlt⟩]
    rintro ⟨i, hi, hbit, hcomponent⟩
    rw [Bool.and_eq_true] at hbit
    exact hnot ⟨i, hi, hbit.1, hcomponent⟩
  · refine (validMxcsr_congr fun p hle hlt => ?_).mpr h
    have hnot := not_covered_mxcsr hsound hknown hle hlt
    rw [Hardware.take, if_neg, if_neg hnot, if_neg fun h => hmoves h.1]
    rintro ⟨i, hi, hbit, hcomponent⟩
    rw [Bool.and_eq_true] at hbit
    exact hnot ⟨i, hi, hbit.1, hcomponent⟩

/-- The bits of the header are those that were written. -/
theorem xstateBv_put (hsound : hw.Sound) (hknown : hw.Known bits) {i : ℕ} (hi : i < 64) :
  xstateBv (hw.put bits image m buf) buf i = xstateBv m buf i
  := by
  rw [xstateBv, area_put_header hsound hknown (by omega) (by omega), xstateBv]

/-- The area that `xsave` has written may be given to `xrstor`, if it might have been before. -/
theorem accepts_put {xcr0 : BitVec 64} (hsound : hw.Sound) (hknown : hw.Known xcr0.getLsbD)
    (h : hw.Accepts xcr0 xcr0 m buf) (hmxcsr : hw.ValidMxcsr image) :
  hw.Accepts xcr0 xcr0
    (hw.put xcr0.getLsbD image (putHeader xcr0 (hw.inUse image) m buf) buf) buf
  := by
  refine ⟨fun p hp => ?_, fun i hi hbit => ?_, fun hmoves => validMxcsr_put hmoves hmxcsr⟩
  · rw [area_put_header hsound hknown (by omega) (by omega), area, putHeader_outside]
    · exact h.reserved p hp
    · rw [sub_place (by omega)]
      omega
  · rw [xstateBv_put hsound hknown hi, xstateBv_putHeader hi] at hbit
    by_contra hnot
    rw [if_neg hnot] at hbit
    exact hnot (h.enabled i hi hbit)

/-- Acceptance depends on the bytes of the area only. -/
theorem Hardware.Accepts.congr {xcr0 rfbm : BitVec 64} {m' : Mem}
    (harea : ∀ p < 576, area m' buf p = area m buf p) (h : hw.Accepts xcr0 rfbm m buf) :
  hw.Accepts xcr0 rfbm m' buf
  := by
  refine ⟨fun p hp => ?_, fun i hi hbit => ?_, fun hmoves => ?_⟩
  · rw [harea _ (by omega)]
    exact h.reserved p hp
  · rw [xstateBv, harea _ (by omega)] at hbit
    exact h.enabled i hi hbit
  · exact (validMxcsr_congr fun p _ hlt => harea p (by omega)).mpr (h.mxcsr hmoves)

end Areas

end XState
