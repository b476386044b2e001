import Gubernatrix.Lib.Bitfield
import Gubernatrix.Lib.Counted
import Mathlib.Data.List.Range
import Mathlib.Data.Nat.Bitwise
import Mathlib.Logic.Function.Basic
import Mathlib.Tactic.IntervalCases

/-!
# The EDID of a display

`parse_edid` reads the base block of the EDID of a display: the kind of its port, its standard
timings, its name, and the modes in the four descriptors at the end of the block. The layout of
a descriptor of a mode is given from the side of the display, by what it encodes; the two are
compared.
-/

namespace Edid

open Counted

/-- A byte. -/
abbrev Byte := BitVec 8

/-- `edid_detailed_mode_t`. -/
structure DetailedMode where
  vPolarity : BitVec 8
  hPolarity : BitVec 8
  hborder : BitVec 8
  vborder : BitVec 8
  hactive : BitVec 32
  vactive : BitVec 32
  hblank : BitVec 32
  vblank : BitVec 32
  hsyncPorch : BitVec 32
  vsyncPorch : BitVec 32
  hsyncPulse : BitVec 32
  vsyncPulse : BitVec 32
  pixelClock : BitVec 16
  hsizeMm : BitVec 16
  vsizeMm : BitVec 16
deriving DecidableEq

/-- `edid_standard_timings_t`. -/
structure StandardTimings where
  hRes : BitVec 16
  vRes : BitVec 16
  vFreq : BitVec 16
  aspectNum : BitVec 8
  aspectDenom : BitVec 8

/-- `edid_t`. The arrays are given by index. -/
structure EdidInfo where
  portType : BitVec 32
  bitDepth : BitVec 8
  gamma : BitVec 8
  establishedModes : BitVec 32
  standardTimingCount : ℕ
  standardTimings : ℕ → StandardTimings
  displayName : ℕ → BitVec 8
  detailedModeCount : ℕ
  detailedModes : ℕ → DetailedMode

/-- The bytes of a base block. -/
abbrev Raw := ℕ → Byte

/-- The value of a byte as an `int`. -/
def int (raw : Raw) (i : ℕ) : ℕ := (raw i).toNat

/-- The header that `parse_edid` looks for. -/
def hasHeader (raw : Raw) : Bool :=
  raw 0 = 0 ∧ raw 1 = 0xff ∧ raw 2 = 0xff ∧ raw 3 = 0xff ∧ raw 4 = 0xff ∧ raw 5 = 0xff ∧
    raw 6 = 0xff ∧ raw 7 = 0

/-- The part of `parse_edid` that detects the port type, with `false` when it returns `false`. -/
def parsePort (raw : Raw) (result : EdidInfo) : Bool × EdidInfo :=
  if int raw 20 >>> 7 ≠ 0 then
    let result := { result with portType := BitVec.ofNat 32 (int raw 20 &&& 7) }
    match (int raw 20 >>> 4) &&& 7 with
    | 1 => (true, { result with bitDepth := 6 })
    | 2 => (true, { result with bitDepth := 8 })
    | 3 => (true, { result with bitDepth := 10 })
    | 4 => (true, { result with bitDepth := 12 })
    | 5 => (true, { result with bitDepth := 14 })
    | 6 => (true, { result with bitDepth := 16 })
    | _ => (false, result)
  else (true, result)

/-- `aspect_num` and `aspect_denom` of a standard timing. -/
def aspect : ℕ → BitVec 8 × BitVec 8
  | 0 => (16, 10)
  | 1 => (4, 3)
  | 2 => (5, 4)
  | _ => (16, 9)

/-- The standard timing at offset `i`. -/
def standardTiming (raw : Raw) (i : ℕ) : StandardTimings :=
  let hRes := BitVec.ofNat 16 ((int raw (38 + i) + 31) * 8)
  let (num, denom) := aspect (int raw (39 + i) >>> 6)
  { hRes := hRes
    vFreq := BitVec.ofNat 16 ((int raw (39 + i) &&& 0x1f) + 60)
    aspectNum := num
    aspectDenom := denom
    vRes := BitVec.ofNat 16 (hRes.toNat * denom.toNat / num.toNat) }

/-- The loop of `parse_edid` over the standard timings, at these offsets. -/
def standardLoop (raw : Raw) : List ℕ → EdidInfo → EdidInfo
  | [], result => result
  | i :: offsets, result =>
    if ¬ (raw (38 + i) = 0x01 ∧ raw (39 + i) = 0x01) then
      standardLoop raw offsets { result with
        standardTimings := Function.update result.standardTimings result.standardTimingCount
          (standardTiming raw i)
        standardTimingCount := result.standardTimingCount + 1 }
    else standardLoop raw offsets result

/-- The fields of a mode that `parse_edid` sets from the timing descriptor at offset `i`, whatever
its kind of sync is. -/
def timingFields (raw : Raw) (i : ℕ) (mode : DetailedMode) : DetailedMode :=
  let raw := fun k => int raw (54 + i + k)
  { vPolarity := mode.vPolarity
    hPolarity := mode.hPolarity
    pixelClock := BitVec.ofNat 16 ((raw 1 <<< 8) + raw 0)
    hactive := BitVec.ofNat 32 (raw 2 + ((raw 4 >>> 4) <<< 8))
    hblank := BitVec.ofNat 32 (raw 3 + ((raw 4 &&& 0xf) <<< 8))
    vactive := BitVec.ofNat 32 (raw 5 + ((raw 7 >>> 4) <<< 8))
    vblank := BitVec.ofNat 32 (raw 6 + ((raw 7 &&& 0xf) <<< 8))
    hsyncPorch := BitVec.ofNat 32 (raw 8 + ((raw 11 >>> 6) <<< 8))
    hsyncPulse := BitVec.ofNat 32 (raw 9 + (((raw 11 >>> 4) &&& 0x3) <<< 8))
    vsyncPorch := BitVec.ofNat 32 ((raw 10 >>> 4) + (((raw 11 >>> 2) &&& 0x3) <<< 4))
    -- as in C, `+` binds more tightly than `&`
    vsyncPulse := BitVec.ofNat 32 (raw 10 &&& (0xf + ((raw 11 &&& 0x3) <<< 4)))
    hsizeMm := BitVec.ofNat 16 (raw 12 + ((raw 14 >>> 4) <<< 8))
    vsizeMm := BitVec.ofNat 16 (raw 13 + ((raw 14 &&& 0xf) <<< 8))
    hborder := BitVec.ofNat 8 (raw 15)
    vborder := BitVec.ofNat 8 (raw 16) }

/-- The timing descriptor at offset `i` is of a digital mode. -/
def isDigital (raw : Raw) (i : ℕ) : Bool := (int raw (54 + i + 17) >>> 4) &&& 1 ≠ 0

/-- The mode with the polarities that the digital timing descriptor at offset `i` gives it. -/
def setPolarity (raw : Raw) (i : ℕ) (mode : DetailedMode) : DetailedMode :=
  let flags := int raw (54 + i + 17)
  if (flags >>> 3) &&& 1 ≠ 0 then
    { mode with
      vPolarity := BitVec.ofNat 8 ((flags >>> 2) &&& 1)
      hPolarity := BitVec.ofNat 8 ((flags >>> 1) &&& 1) }
  else
    { mode with
      vPolarity := BitVec.ofNat 8 ((flags >>> 2) &&& 1)
      hPolarity := BitVec.ofNat 8 ((flags >>> 2) &&& 1) }

/-- The descriptor at offset `i` is a display descriptor. -/
def isDisplayDescriptor (raw : Raw) (i : ℕ) : Bool := raw (54 + i) = 0 ∧ raw (54 + i + 1) = 0

/-- The mode that is next is set. -/
def EdidInfo.setMode (result : EdidInfo) (mode : DetailedMode) : EdidInfo :=
  { result with
    detailedModes := Function.update result.detailedModes result.detailedModeCount mode }

/-- The loop of `parse_edid` over the descriptors, at these offsets, with `false` when it returns
`false`. -/
def detailedLoop (raw : Raw) : List ℕ → EdidInfo → Bool × EdidInfo
  | [], result => (true, result)
  | i :: offsets, result =>
    if isDisplayDescriptor raw i then
      if raw (54 + i + 3) = 0xfc then
        detailedLoop raw offsets { result with
          displayName := fun n => if n < 13 then raw (54 + i + 5) else result.displayName n }
      else detailedLoop raw offsets result
    else
      let mode := timingFields raw i (result.detailedModes result.detailedModeCount)
      if isDigital raw i then
        let result := result.setMode (setPolarity raw i mode)
        detailedLoop raw offsets
          { result with detailedModeCount := result.detailedModeCount + 1 }
      else (false, result.setMode mode)

/-- The offsets of the four descriptors. -/
def descriptorOffsets : List ℕ := [0, 18, 36, 54]

/-- `parse_edid`: what it returns, and what `result` points to then. -/
def parseEdid (raw : Raw) (result : EdidInfo) : Bool × EdidInfo :=
  if ¬ hasHeader raw then (false, result)
  else
    match parsePort raw result with
    | (false, result) => (false, result)
    | (true, result) =>
      let result := { result with
        gamma := raw 23
        establishedModes := BitVec.ofNat 32
          (int raw 35 ||| (int raw 36 <<< 8) ||| (int raw 37 <<< 16))
        standardTimingCount := 0 }
      let result := standardLoop raw [0, 2, 4, 6, 8, 10, 12, 14] result
      detailedLoop raw descriptorOffsets { result with detailedModeCount := 0 }

/-! ### The modes of a block -/

/-- The mode of the timing descriptor at offset `i`. -/
def decodeTiming (raw : Raw) (i : ℕ) : DetailedMode :=
  setPolarity raw i (timingFields raw i
    { vPolarity := 0, hPolarity := 0, hborder := 0, vborder := 0, hactive := 0, vactive := 0
      hblank := 0, vblank := 0, hsyncPorch := 0, vsyncPorch := 0, hsyncPulse := 0
      vsyncPulse := 0, pixelClock := 0, hsizeMm := 0, vsizeMm := 0 })

/-- The modes of the timing descriptors at these offsets. -/
def decodedModes (raw : Raw) (offsets : List ℕ) : List DetailedMode :=
  (offsets.filter fun i => ¬ isDisplayDescriptor raw i).map (decodeTiming raw)

/-- A mode that is read from a digital timing descriptor does not depend on what was there. -/
theorem setPolarity_timingFields (raw : Raw) (i : ℕ) (mode : DetailedMode) :
  setPolarity raw i (timingFields raw i mode) = decodeTiming raw i
  := by
  unfold decodeTiming setPolarity
  dsimp only
  split <;> rfl

/-- The loop over the descriptors adds the modes of the timing descriptors to those that were there,
when it gets to its end. -/
theorem detailedLoop_true {raw : Raw} {offsets : List ℕ} {result result' : EdidInfo}
    (h : detailedLoop raw offsets result = (true, result')) :
  Appended result.detailedModeCount result.detailedModes (decodedModes raw offsets)
    result'.detailedModeCount result'.detailedModes
  := by
  induction offsets generalizing result with
  | nil =>
    obtain rfl := (Prod.mk.inj h).2
    apply Appended.nil
  | cons i offsets ih =>
    rw [detailedLoop] at h
    unfold decodedModes at ih ⊢
    by_cases hdisplay : isDisplayDescriptor raw i = true
    · rw [if_pos hdisplay] at h
      rw [List.filter_cons_of_neg (by simpa using hdisplay)]
      split at h
      next hname => apply ih h
      next hother => apply ih h
    · rw [if_neg hdisplay] at h
      rw [List.filter_cons_of_pos (by simpa using hdisplay), List.map_cons]
      dsimp only at h
      split at h
      next hdigital =>
        rw [setPolarity_timingFields] at h
        exact (ih h).cons
      next hanalog => cases h

/-- The offsets of the entries of the standard timings, after the first. -/
def standardOffsets : List ℕ := [0, 2, 4, 6, 8, 10, 12, 14]

/-- When `parse_edid` returns `true`, the two loops have run one after the other. -/
theorem parseEdid_loops {raw : Raw} {result result' : EdidInfo}
    (h : parseEdid raw result = (true, result')) :
  ∃ start : EdidInfo, start.standardTimingCount = 0 ∧
    detailedLoop raw descriptorOffsets
      { standardLoop raw standardOffsets start with detailedModeCount := 0 } = (true, result')
  := by
  rw [parseEdid] at h
  split at h
  next hheader => cases h
  next hheader =>
    split at h
    next hport => cases h
    next hport => exact ⟨_, rfl, h⟩

/-- When `parse_edid` returns `true`, the modes it has read are those of the timing descriptors,
in their order. -/
theorem parseEdid_true {raw : Raw} {result result' : EdidInfo}
    (h : parseEdid raw result = (true, result')) :
  result'.detailedModeCount = (decodedModes raw descriptorOffsets).length ∧
    ∀ n (hn : n < (decodedModes raw descriptorOffsets).length),
      result'.detailedModes n = (decodedModes raw descriptorOffsets)[n]
  := by
  obtain ⟨start, -, hloop⟩ := parseEdid_loops h
  have happended := detailedLoop_true hloop
  dsimp only at happended
  constructor
  · rw [happended.count, Nat.zero_add]
  · intro n hn
    exact happended.getElem hn

/-! ### What is accepted -/

/-- The bit depth is one that `parse_edid` knows, or the port is not digital. -/
def portKnown (raw : Raw) : Bool :=
  int raw 20 >>> 7 = 0 ∨ 1 ≤ (int raw 20 >>> 4) &&& 7 ∧ (int raw 20 >>> 4) &&& 7 ≤ 6

/-- `parse_edid` accepts the block: it has the header and a known bit depth, and its timing
descriptors are digital. -/
def Accepted (raw : Raw) : Bool :=
  hasHeader raw && portKnown raw
    && descriptorOffsets.all fun i => isDisplayDescriptor raw i || isDigital raw i

theorem parsePort_fst (raw : Raw) (result : EdidInfo) :
  (parsePort raw result).1 = portKnown raw
  := by
  have hlt : (int raw 20 >>> 4) &&& 7 ≤ 7 := Nat.and_le_right
  unfold parsePort portKnown
  generalize (int raw 20 >>> 4) &&& 7 = depth at hlt
  by_cases hdigital : int raw 20 >>> 7 = 0
  · simp only [hdigital, ne_eq, not_true_eq_false, if_false, true_or, decide_true]
  · simp only [hdigital, ne_eq, not_false_eq_true, if_true, false_or]
    interval_cases depth <;> rfl

theorem detailedLoop_fst (raw : Raw) (offsets : List ℕ) (result : EdidInfo) :
  (detailedLoop raw offsets result).1
    = offsets.all fun i => isDisplayDescriptor raw i || isDigital raw i
  := by
  induction offsets generalizing result with
  | nil => rfl
  | cons i offsets ih =>
    rw [detailedLoop, List.all_cons]
    cases hdisplay : isDisplayDescriptor raw i with
    | true =>
      simp only [if_true, Bool.true_or, Bool.true_and]
      split
      next hname => apply ih
      next hother => apply ih
    | false =>
      simp only [Bool.false_eq_true, if_false, Bool.false_or]
      cases isDigital raw i with
      | true => apply ih
      | false => rfl

/-- What `parse_edid` returns does not depend on what `result` points to. -/
theorem parseEdid_fst (raw : Raw) (result : EdidInfo) :
  (parseEdid raw result).1 = Accepted raw
  := by
  have hport := parsePort_fst raw result
  unfold parseEdid Accepted
  cases hheader : hasHeader raw with
  | false => rfl
  | true =>
    simp only [not_true_eq_false, if_false, Bool.true_and]
    split
    next result' hparse =>
      rw [hparse] at hport
      rw [← hport]
      rfl
    next result' hparse =>
      rw [hparse] at hport
      rw [← hport, Bool.true_and]
      apply detailedLoop_fst

/-! ### The layout of a mode -/

/-- A mode as a display describes it, with a digital separate sync: the fields of a detailed mode
at the widths that the layout has for them, and the features that `parse_edid` does not read. -/
structure Timing where
  pixelClock : BitVec 16
  hactive : BitVec 12
  hblank : BitVec 12
  vactive : BitVec 12
  vblank : BitVec 12
  hsyncPorch : BitVec 10
  hsyncPulse : BitVec 10
  vsyncPorch : BitVec 6
  vsyncPulse : BitVec 6
  hsizeMm : BitVec 12
  vsizeMm : BitVec 12
  hborder : BitVec 8
  vborder : BitVec 8
  vPolarity : BitVec 1
  hPolarity : BitVec 1
  interlaced : BitVec 1
  stereo : BitVec 2
  stereoMode : BitVec 1
  clocked : pixelClock ≠ 0

/-- The bytes of the descriptor of a mode. -/
def Timing.encode (t : Timing) : ℕ → Byte
  | 0 => t.pixelClock.extractLsb' 0 8
  | 1 => t.pixelClock.extractLsb' 8 8
  | 2 => t.hactive.extractLsb' 0 8
  | 3 => t.hblank.extractLsb' 0 8
  | 4 => t.hactive.extractLsb' 8 4 ++ t.hblank.extractLsb' 8 4
  | 5 => t.vactive.extractLsb' 0 8
  | 6 => t.vblank.extractLsb' 0 8
  | 7 => t.vactive.extractLsb' 8 4 ++ t.vblank.extractLsb' 8 4
  | 8 => t.hsyncPorch.extractLsb' 0 8
  | 9 => t.hsyncPulse.extractLsb' 0 8
  | 10 => t.vsyncPorch.extractLsb' 0 4 ++ t.vsyncPulse.extractLsb' 0 4
  | 11 => t.hsyncPorch.extractLsb' 8 2 ++ t.hsyncPulse.extractLsb' 8 2
      ++ t.vsyncPorch.extractLsb' 4 2 ++ t.vsyncPulse.extractLsb' 4 2
  | 12 => t.hsizeMm.extractLsb' 0 8
  | 13 => t.vsizeMm.extractLsb' 0 8
  | 14 => t.hsizeMm.extractLsb' 8 4 ++ t.vsizeMm.extractLsb' 8 4
  | 15 => t.hborder
  | 16 => t.vborder
  | 17 => t.interlaced ++ t.stereo ++ 0b11#2 ++ t.vPolarity ++ t.hPolarity ++ t.stereoMode
  | _ => 0

/-- The detailed mode that a mode is to be read as. -/
def Timing.mode (t : Timing) : DetailedMode where
  vPolarity := t.vPolarity.setWidth 8
  hPolarity := t.hPolarity.setWidth 8
  hborder := t.hborder
  vborder := t.vborder
  hactive := t.hactive.setWidth 32
  vactive := t.vactive.setWidth 32
  hblank := t.hblank.setWidth 32
  vblank := t.vblank.setWidth 32
  hsyncPorch := t.hsyncPorch.setWidth 32
  vsyncPorch := t.vsyncPorch.setWidth 32
  hsyncPulse := t.hsyncPulse.setWidth 32
  vsyncPulse := t.vsyncPulse.setWidth 32
  pixelClock := t.pixelClock
  hsizeMm := t.hsizeMm.setWidth 16
  vsizeMm := t.vsizeMm.setWidth 16

/-- The bits above the lower nibble of the vertical sync pulse are set in the lower nibble of the
vertical sync porch. -/
def Timing.PulseInPorch (t : Timing) : Prop :=
  t.vsyncPulse.toNat / 16 &&& t.vsyncPorch.toNat % 16 = t.vsyncPulse.toNat / 16

instance (t : Timing) : Decidable t.PulseInPorch := inferInstanceAs (Decidable (_ = _))

/-- The descriptor at offset `i` is the one of a mode. -/
def Encodes (raw : Raw) (i : ℕ) (t : Timing) : Prop := ∀ k < 18, raw (54 + i + k) = t.encode k

section Layout

variable {raw : Raw} {i : ℕ} {t : Timing}

theorem Encodes.int (h : Encodes raw i t) {k : ℕ} (hk : k < 18) :
  int raw (54 + i + k) = (t.encode k).toNat
  := by
  rw [Edid.int, h k hk]

theorem Encodes.clocked (h : Encodes raw i t) :
  isDisplayDescriptor raw i = false
  := by
  rw [isDisplayDescriptor, decide_eq_false_iff_not]
  rintro ⟨h₀, h₁⟩
  rw [← Nat.add_zero (54 + i), h 0 (by decide)] at h₀
  rw [h 1 (by decide)] at h₁
  apply t.clocked
  apply BitVec.eq_of_toNat_eq
  have hlow := congrArg BitVec.toNat h₀
  have hhigh := congrArg BitVec.toNat h₁
  have hlt := t.pixelClock.isLt
  simp only [Timing.encode, BitVec.extractLsb'_toNat, Nat.shiftRight_eq_div_pow] at hlow hhigh
  rw [show (0 : Byte).toNat = 0 from rfl] at hlow hhigh
  rw [show (0 : BitVec 16).toNat = 0 from rfl]
  omega

/-- The byte with the flags of a mode. -/
theorem Encodes.flags (h : Encodes raw i t) :
  Edid.int raw (54 + i + 17) = t.interlaced.toNat * 128 + t.stereo.toNat * 32 + 24
    + t.vPolarity.toNat * 4 + t.hPolarity.toNat * 2 + t.stereoMode.toNat
  := by
  rw [h.int (by decide), Timing.encode]
  simp only [Bitfield.toNat_append]
  rw [show (0b11#2).toNat = 3 from rfl]
  omega

/-- The byte with the upper bits of the sync porches and pulses. -/
theorem toNat_quarters (a b c d : BitVec 2) :
  (a ++ b ++ c ++ d).toNat >>> 6 = a.toNat ∧ ((a ++ b ++ c ++ d).toNat >>> 4) &&& 3 = b.toNat ∧
    ((a ++ b ++ c ++ d).toNat >>> 2) &&& 3 = c.toNat ∧ (a ++ b ++ c ++ d).toNat &&& 3 = d.toNat
  := by
  have hthree : 3 = 2 ^ 2 - 1 := rfl
  have hfour : 4 = 2 + 2 := rfl
  have hsix : 6 = 2 + 2 + 2 := rfl
  rw [hthree, hfour, hsix, Nat.shiftRight_add, Nat.shiftRight_add,
    Bitfield.toNat_append_shiftRight, Bitfield.toNat_append_shiftRight,
    Bitfield.toNat_append_shiftRight, Bitfield.toNat_append_and, Bitfield.toNat_append_and,
    Bitfield.toNat_append_and]
  exact ⟨rfl, rfl, rfl, rfl⟩

/-- Where the mask reaches into the upper nibble, it keeps the bits that are set in both. -/
theorem nibbles_and (a b : BitVec 4) (c : BitVec 2) :
  (a ++ b).toNat &&& (0xf + (c.toNat <<< 4)) = (c.toNat &&& a.toNat) * 16 + b.toNat
  := by
  have hc := c.isLt
  have hset : (c.setWidth 4).toNat = c.toNat := by
    rw [BitVec.toNat_setWidth, Nat.mod_eq_of_lt (by omega)]
  have hmask : 0xf + (c.toNat <<< 4) = (c.setWidth 4 ++ BitVec.allOnes 4).toNat := by
    rw [Bitfield.toNat_append, hset, BitVec.toNat_allOnes, Nat.shiftLeft_eq, Nat.add_comm]
  rw [hmask, ← BitVec.toNat_and, BitVec.and_append, BitVec.and_allOnes, Bitfield.toNat_append,
    BitVec.toNat_and, hset, Nat.and_comm]
  rfl

/-- The polarities that the flags give, for the kind of sync they say. -/
theorem Encodes.polarity (h : Encodes raw i t) (mode : DetailedMode) :
  setPolarity raw i mode
    = { mode with vPolarity := t.vPolarity.setWidth 8, hPolarity := t.hPolarity.setWidth 8 }
  := by
  have hv := t.vPolarity.isLt
  have hh := t.hPolarity.isLt
  have hs := t.stereoMode.isLt
  unfold setPolarity
  rw [h.flags]
  simp only [Nat.shiftRight_eq_div_pow, Nat.and_one_is_mod]
  rw [if_pos (by omega), ← BitVec.ofNat_toNat, ← BitVec.ofNat_toNat]
  congr 2
  · omega
  · omega

/-- What is read from the descriptor of a mode: all fields are as encoded, but for the vertical
sync pulse. -/
def Timing.read (t : Timing) : DetailedMode :=
  { t.mode with
    vsyncPulse := BitVec.ofNat 32 ((t.vsyncPulse.toNat / 16 &&& t.vsyncPorch.toNat % 16) * 16
      + t.vsyncPulse.toNat % 16) }

theorem Encodes.decode (h : Encodes raw i t) :
  decodeTiming raw i = t.read
  := by
  have hint : ∀ k < 18, Edid.int raw (54 + i + k) = (t.encode k).toNat := fun k hk => h.int hk
  have hfifteen : 0xf = 2 ^ 4 - 1 := rfl
  obtain ⟨hporch, hpulse, vporch, vpulse⟩ := toNat_quarters (t.hsyncPorch.extractLsb' 8 2)
    (t.hsyncPulse.extractLsb' 8 2) (t.vsyncPorch.extractLsb' 4 2) (t.vsyncPulse.extractLsb' 4 2)
  rw [decodeTiming, h.polarity]
  unfold timingFields Timing.read Timing.mode
  dsimp only
  congr 1
  · rw [hint 15 (by decide), Timing.encode, BitVec.ofNat_toNat, BitVec.setWidth_eq]
  · rw [hint 16 (by decide), Timing.encode, BitVec.ofNat_toNat, BitVec.setWidth_eq]
  · rw [hint 2 (by decide), hint 4 (by decide), Timing.encode, Timing.encode,
      Bitfield.toNat_append_shiftRight]
    apply Bitfield.ofNat_split
    rfl
  · rw [hint 5 (by decide), hint 7 (by decide), Timing.encode, Timing.encode,
      Bitfield.toNat_append_shiftRight]
    apply Bitfield.ofNat_split
    rfl
  · rw [hint 3 (by decide), hint 4 (by decide), Timing.encode, Timing.encode, hfifteen,
      Bitfield.toNat_append_and]
    apply Bitfield.ofNat_split
    rfl
  · rw [hint 6 (by decide), hint 7 (by decide), Timing.encode, Timing.encode, hfifteen,
      Bitfield.toNat_append_and]
    apply Bitfield.ofNat_split
    rfl
  · rw [hint 8 (by decide), hint 11 (by decide), Timing.encode, Timing.encode, hporch]
    apply Bitfield.ofNat_split
    rfl
  · rw [hint 10 (by decide), hint 11 (by decide), Timing.encode, Timing.encode, vporch,
      Bitfield.toNat_append_shiftRight]
    apply Bitfield.ofNat_split
    rfl
  · rw [hint 9 (by decide), hint 11 (by decide), Timing.encode, Timing.encode, hpulse]
    apply Bitfield.ofNat_split
    rfl
  · have hlt := t.vsyncPulse.isLt
    rw [hint 10 (by decide), hint 11 (by decide), Timing.encode, Timing.encode, vpulse,
      nibbles_and, BitVec.extractLsb'_toNat, BitVec.extractLsb'_toNat, BitVec.extractLsb'_toNat,
      Nat.shiftRight_zero, Nat.shiftRight_zero, Nat.shiftRight_eq_div_pow,
      Nat.mod_eq_of_lt (a := _ / _) (by omega)]
  · rw [hint 0 (by decide), hint 1 (by decide), Timing.encode, Timing.encode, Nat.add_comm]
    apply (Bitfield.ofNat_split 16 _).trans
    · apply BitVec.setWidth_eq
    · rfl
  · rw [hint 12 (by decide), hint 14 (by decide), Timing.encode, Timing.encode,
      Bitfield.toNat_append_shiftRight]
    apply Bitfield.ofNat_split
    rfl
  · rw [hint 13 (by decide), hint 14 (by decide), Timing.encode, Timing.encode, hfifteen,
      Bitfield.toNat_append_and]
    apply Bitfield.ofNat_split
    rfl

/-- A mode is read as it is encoded just when the upper bits of the pulse are in the porch. -/
theorem read_eq_mode_iff (t : Timing) :
  t.read = t.mode ↔ t.PulseInPorch
  := by
  have hlt := t.vsyncPulse.isLt
  have hand : t.vsyncPulse.toNat / 16 &&& t.vsyncPorch.toNat % 16 ≤ t.vsyncPulse.toNat / 16 :=
    Nat.and_le_left
  have hfield : t.read = t.mode ↔ t.read.vsyncPulse = t.mode.vsyncPulse := by
    constructor
    · intro h
      rw [h]
    · intro h
      unfold Timing.read at h ⊢
      dsimp only at h
      rw [h]
  rw [hfield, ← BitVec.toNat_inj, Timing.read, Timing.mode, BitVec.toNat_ofNat,
    BitVec.toNat_setWidth, Timing.PulseInPorch]
  omega

end Layout

/-! ### Blocks with modes -/

/-- The modes are in these slots of the block, and display descriptors in the others. -/
def Placed (raw : Raw) (slots : Fin 4 → Option Timing) : Prop :=
  ∀ k : Fin 4, match slots k with
    | some t => Encodes raw (18 * k) t
    | none => isDisplayDescriptor raw (18 * k)

/-- The modes in the slots, in their order. -/
def placedModes (slots : Fin 4 → Option Timing) : List Timing := (List.finRange 4).filterMap slots

/-- The result has these modes and no others. -/
structure HasModes (result : EdidInfo) (modes : List DetailedMode) : Prop where
  count : result.detailedModeCount = modes.length
  modes : ∀ n (hn : n < modes.length), result.detailedModes n = modes[n]

theorem decodedModes_placed {raw : Raw} {slots : Fin 4 → Option Timing}
    (hplaced : Placed raw slots) :
  decodedModes raw descriptorOffsets = (placedModes slots).map Timing.read
  := by
  have hoffsets : descriptorOffsets = (List.finRange 4).map fun k => 18 * k.val := by decide
  rw [hoffsets, placedModes]
  generalize List.finRange 4 = ks
  induction ks with
  | nil => rfl
  | cons k ks ih =>
    have hk := hplaced k
    unfold decodedModes at ih ⊢
    rw [List.map_cons]
    cases hslot : slots k with
    | none =>
      rw [hslot] at hk
      rw [List.filter_cons_of_neg (by simpa using hk), List.filterMap_cons_none hslot, ih]
    | some t =>
      rw [hslot] at hk
      rw [List.filter_cons_of_pos (by simpa using hk.clocked), List.filterMap_cons_some hslot,
        List.map_cons, List.map_cons, ih, hk.decode]

/-- When `parse_edid` returns `true` for a block with modes in some of its slots, the result has
exactly these modes, with all their fields, if and only if the upper bits of each vertical sync
pulse are in the vertical sync porch. -/
theorem hasModes_iff {raw : Raw} {slots : Fin 4 → Option Timing} (hplaced : Placed raw slots)
    {result result' : EdidInfo} (htrue : parseEdid raw result = (true, result')) :
  HasModes result' ((placedModes slots).map Timing.mode) ↔
    ∀ t ∈ placedModes slots, t.PulseInPorch
  := by
  obtain ⟨hcount, hmodes⟩ := parseEdid_true htrue
  rw [decodedModes_placed hplaced, List.length_map] at hcount
  have hread : ∀ n (hn : n < (placedModes slots).length),
      result'.detailedModes n = (placedModes slots)[n].read := by
    intro n hn
    have hn' : n < (decodedModes raw descriptorOffsets).length := by
      rwa [decodedModes_placed hplaced, List.length_map]
    rw [hmodes n hn']
    simp only [decodedModes_placed hplaced, List.getElem_map]
  constructor
  · intro h t ht
    obtain ⟨n, hn, rfl⟩ := List.getElem_of_mem ht
    rw [← read_eq_mode_iff, ← hread n hn, h.modes n (by rwa [List.length_map]), List.getElem_map]
  · intro h
    constructor
    · rw [hcount, List.length_map]
    · intro n hn
      rw [List.length_map] at hn
      rw [List.getElem_map, hread n hn, read_eq_mode_iff]
      apply h _ (List.getElem_mem hn)

/-- A mode with 640 columns and 480 lines, with a given vertical sync porch and pulse. -/
def vga (vsyncPorch vsyncPulse : BitVec 6) : Timing where
  pixelClock := 2518
  hactive := 640
  hblank := 160
  vactive := 480
  vblank := 45
  hsyncPorch := 16
  hsyncPulse := 96
  vsyncPorch := vsyncPorch
  vsyncPulse := vsyncPulse
  hsizeMm := 0
  vsizeMm := 0
  hborder := 0
  vborder := 0
  vPolarity := 0
  hPolarity := 0
  interlaced := 0
  stereo := 0
  stereoMode := 0
  clocked := by decide

/-- A block of an analog port with a mode in its first slot. -/
def blockOf (t : Timing) : Raw := fun k =>
  if 54 ≤ k ∧ k < 72 then t.encode (k - 54)
  else if 1 ≤ k ∧ k < 7 then 0xff
  else 0

/-- What `result` can point to. -/
def blank : EdidInfo where
  portType := 0
  bitDepth := 0
  gamma := 0
  establishedModes := 0
  standardTimingCount := 0
  standardTimings _ := { hRes := 0, vRes := 0, vFreq := 0, aspectNum := 0, aspectDenom := 0 }
  displayName _ := 0
  detailedModeCount := 0
  detailedModes _ := (vga 0 0).mode

/-- The mode is in the first slot. -/
def firstSlot (t : Timing) : Fin 4 → Option Timing := fun k => if k = 0 then some t else none

theorem placed_blockOf (t : Timing) :
  Placed (blockOf t) (firstSlot t)
  := by
  intro k
  by_cases hk : k = 0
  · subst hk
    intro k hk
    rw [blockOf, if_pos (by omega)]
    congr 1
    omega
  · have hpos : 0 < k.val := Fin.pos_iff_ne_zero.mpr hk
    have hzero : ∀ n, 72 ≤ n → blockOf t n = 0 := by
      intro n hn
      rw [blockOf, if_neg (by omega), if_neg (by omega)]
    rw [firstSlot, if_neg hk]
    apply decide_eq_true
    use hzero _ (by omega), hzero _ (by omega)

theorem hasModes_vga :
  HasModes (parseEdid (blockOf (vga 18 18)) blank).2
      ((placedModes (firstSlot (vga 18 18))).map Timing.mode) ↔
    ∀ t ∈ placedModes (firstSlot (vga 18 18)), t.PulseInPorch
  := by
  have htrue : parseEdid (blockOf (vga 18 18)) blank
      = (true, (parseEdid (blockOf (vga 18 18)) blank).2) := by
    apply Prod.ext
    · decide +kernel
    · rfl
  apply hasModes_iff (placed_blockOf _) htrue

/-- With a porch of 10 lines and a pulse of 16, what is read for the pulse is 0. -/
theorem not_hasModes_vga :
  ∃ result', parseEdid (blockOf (vga 10 16)) blank = (true, result') ∧
    Placed (blockOf (vga 10 16)) (firstSlot (vga 10 16)) ∧
    ¬ HasModes result' ((placedModes (firstSlot (vga 10 16))).map Timing.mode)
  := by
  refine ⟨_, Prod.ext (by decide +kernel) rfl, placed_blockOf _, ?_⟩
  intro h
  have hpulse := congrArg DetailedMode.vsyncPulse (h.modes 0 (by decide))
  revert hpulse
  decide +kernel

end Edid
