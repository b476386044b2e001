import Gubernatrix.Edid

/-!
# The standard timings and the name of a display

What `parse_edid` reads from the entries of the standard timings, and from the descriptor with the
name of the display, compared with what the layout of the block has there.
-/

namespace Edid

open Counted

/-! ### What a block has -/

/-- The entry of a standard timing at offset `i` is in use. -/
def isListed (raw : Raw) (i : ℕ) : Bool := ¬ (raw (38 + i) = 0x01 ∧ raw (39 + i) = 0x01)

/-- The offsets of the entries in use, in their order. -/
def listed (raw : Raw) : List ℕ := standardOffsets.filter (isListed raw)

/-- The aspect ratio that two bits stand for. -/
def ratio : BitVec 2 → ℕ × ℕ
  | 0 => (16, 10)
  | 1 => (4, 3)
  | 2 => (5, 4)
  | 3 => (16, 9)

/-- The standard timing is the one that the two bytes of an entry describe. -/
structure Reads (t : StandardTimings) (byte₀ byte₁ : Byte) : Prop where
  hRes : t.hRes.toNat = (byte₀.toNat + 31) * 8
  vFreq : t.vFreq.toNat = 60 + (byte₁.extractLsb' 0 6).toNat
  aspect : (t.aspectNum.toNat, t.aspectDenom.toNat) = ratio (byte₁.extractLsb' 6 2)
  vRes : t.vRes.toNat = t.hRes.toNat * t.aspectDenom.toNat / t.aspectNum.toNat

/-- The standard timings are those of the entries in use. -/
structure HasStandardTimings (raw : Raw) (result : EdidInfo) : Prop where
  count : result.standardTimingCount = (listed raw).length
  reads : ∀ n (hn : n < (listed raw).length), Reads (result.standardTimings n)
    (raw (38 + (listed raw)[n])) (raw (39 + (listed raw)[n]))

/-- The descriptor at offset `i` is a display descriptor with the name. -/
def isName (raw : Raw) (i : ℕ) : Bool := isDisplayDescriptor raw i ∧ raw (54 + i + 3) = 0xfc

/-- The offsets of the descriptors with the name, in their order. -/
def nameOffsets (raw : Raw) : List ℕ := descriptorOffsets.filter (isName raw)

/-- The bytes of the text of the descriptor at offset `i`. -/
def text (raw : Raw) (i k : ℕ) : Byte := raw (54 + i + 5 + k)

/-- The display name is the text of the descriptor at offset `i`, and every block that has this text
in its last descriptor with a name, wherever and next to whatever modes, gives the same. -/
structure HasName (raw : Raw) (i : ℕ) (result : EdidInfo) : Prop where
  text : ∀ k < 13, result.displayName k = text raw i k
  alone : ∀ {raw₂ : Raw} {result₂ result₂' : EdidInfo} {j : ℕ},
    parseEdid raw₂ result₂ = (true, result₂') → (nameOffsets raw₂).getLast? = some j →
    (∀ k < 13, Edid.text raw₂ j k = Edid.text raw i k) →
    ∀ k < 13, result₂'.displayName k = result.displayName k

/-! ### The loops -/

theorem standardLoop_timings (raw : Raw) (offsets : List ℕ) (result : EdidInfo) :
  Appended result.standardTimingCount result.standardTimings
    ((offsets.filter (isListed raw)).map (standardTiming raw))
    (standardLoop raw offsets result).standardTimingCount
    (standardLoop raw offsets result).standardTimings
  := by
  induction offsets generalizing result with
  | nil => apply Appended.nil
  | cons i offsets ih =>
    rw [standardLoop]
    split
    next hused =>
      have hlisted : isListed raw i = true := decide_eq_true hused
      have hrest := ih { result with
        standardTimings := Function.update result.standardTimings result.standardTimingCount
          (standardTiming raw i)
        standardTimingCount := result.standardTimingCount + 1 }
      rw [List.filter_cons_of_pos hlisted, List.map_cons]
      exact hrest.cons
    next hunused =>
      have hnot : ¬ isListed raw i = true := fun hlisted => hunused (of_decide_eq_true hlisted)
      rw [List.filter_cons_of_neg hnot]
      apply ih

/-- The loop over the descriptors leaves the standard timings alone. -/
theorem detailedLoop_standard (raw : Raw) (offsets : List ℕ) (result : EdidInfo) :
  (detailedLoop raw offsets result).2.standardTimingCount = result.standardTimingCount ∧
    (detailedLoop raw offsets result).2.standardTimings = result.standardTimings
  := by
  induction offsets generalizing result with
  | nil => exact ⟨rfl, rfl⟩
  | cons i offsets ih =>
    rw [detailedLoop]
    split
    next hdisplay =>
      split
      next hname => apply ih
      next hother => apply ih
    next htiming =>
      dsimp only
      split
      next hdigital => apply ih
      next hanalog => exact ⟨rfl, rfl⟩

/-- The loop over the descriptors leaves the first byte of the text of the last one with a name in
all places of the display name. -/
theorem detailedLoop_displayName {raw : Raw} {offsets : List ℕ} {result result' : EdidInfo}
    (h : detailedLoop raw offsets result = (true, result')) {k : ℕ} (hk : k < 13) :
  result'.displayName k = (((offsets.filter (isName raw)).getLast?).map (text raw · 0)).getD
    (result.displayName k)
  := by
  induction offsets generalizing result with
  | nil =>
    obtain rfl := (Prod.mk.inj h).2
    rfl
  | cons i offsets ih =>
    rw [detailedLoop] at h
    split at h
    next hdisplay =>
      split at h
      next hname =>
        have hisname : isName raw i = true := decide_eq_true ⟨hdisplay, hname⟩
        rw [List.filter_cons_of_pos hisname, List.getLast?_cons, ih h]
        dsimp only
        rw [if_pos hk]
        cases (offsets.filter (isName raw)).getLast? with
        | none => rfl
        | some j => rfl
      next hother =>
        have hnot : ¬ isName raw i = true := fun hname => hother (of_decide_eq_true hname).2
        rw [List.filter_cons_of_neg hnot, ih h]
    next htiming =>
      have hnot : ¬ isName raw i = true := fun hname => htiming (of_decide_eq_true hname).1
      rw [List.filter_cons_of_neg hnot]
      dsimp only at h
      split at h
      next hdigital => rw [ih h]; rfl
      next hanalog => cases h

/-! ### The standard timings -/

/-- The aspect ratio is that of the upper two bits. -/
theorem aspect_eq_ratio (b : Byte) :
  ((aspect (b.toNat >>> 6)).1.toNat, (aspect (b.toNat >>> 6)).2.toNat)
    = ratio (b.extractLsb' 6 2)
  := by
  revert b
  decide +kernel

/-- A display is not taller than wide. -/
theorem aspect_le (n : ℕ) :
  (aspect n).2.toNat ≤ (aspect n).1.toNat
  := by
  unfold aspect
  split
  · decide
  · decide
  · decide
  · decide

/-- The refresh rate is taken from five bits. -/
theorem five_bits_iff (b : Byte) :
  (b.toNat &&& 0x1f) + 60 = 60 + (b.extractLsb' 0 6).toNat ↔ b.getLsbD 5 = false
  := by
  have hfive : b.toNat &&& 0x1f = b.toNat % 2 ^ 5 := Nat.and_two_pow_sub_one_eq_mod _ 5
  rw [hfive, BitVec.extractLsb'_toNat, Nat.shiftRight_zero, BitVec.getLsbD,
    Nat.testBit_eq_decide_div_mod_eq, decide_eq_false_iff_not]
  omega

theorem reads_standardTiming_iff (raw : Raw) (i : ℕ) :
  Reads (standardTiming raw i) (raw (38 + i)) (raw (39 + i)) ↔ (raw (39 + i)).getLsbD 5 = false
  := by
  have hfreq : (standardTiming raw i).vFreq.toNat = (int raw (39 + i) &&& 0x1f) + 60 := by
    have hle : int raw (39 + i) &&& 0x1f ≤ 0x1f := Nat.and_le_right
    rw [standardTiming, BitVec.toNat_ofNat]
    omega
  rw [← five_bits_iff]
  constructor
  · intro h
    rw [← h.vFreq, hfreq]
    rfl
  · intro h
    have hres : (standardTiming raw i).hRes.toNat = ((raw (38 + i)).toNat + 31) * 8 := by
      have hlt := (raw (38 + i)).isLt
      rw [standardTiming, BitVec.toNat_ofNat, int]
      omega
    constructor
    · exact hres
    · rw [hfreq, ← h]
      rfl
    · apply aspect_eq_ratio
    · have hle : (standardTiming raw i).hRes.toNat * (standardTiming raw i).aspectDenom.toNat
          / (standardTiming raw i).aspectNum.toNat ≤ (standardTiming raw i).hRes.toNat :=
        Nat.div_le_of_le_mul ((Nat.mul_comm _ _).trans_le (Nat.mul_le_mul_right _ (aspect_le _)))
      apply Nat.mod_eq_of_lt
      exact hle.trans_lt (BitVec.isLt _)

/-- When `parse_edid` returns `true`, the standard timings are those of the entries in use if and
only if bit 5 of the second byte of each is clear. -/
theorem hasStandardTimings_iff {raw : Raw} {result result' : EdidInfo}
    (htrue : parseEdid raw result = (true, result')) :
  HasStandardTimings raw result' ↔ ∀ i ∈ listed raw, (raw (39 + i)).getLsbD 5 = false
  := by
  obtain ⟨start, hzero, hloop⟩ := parseEdid_loops htrue
  obtain ⟨hcount, htimings⟩ := detailedLoop_standard raw descriptorOffsets
    { standardLoop raw standardOffsets start with detailedModeCount := 0 }
  have happended := standardLoop_timings raw standardOffsets start
  rw [hzero] at happended
  rw [hloop] at hcount htimings
  dsimp only at hcount htimings
  have hget : ∀ n (hn : n < (listed raw).length),
      result'.standardTimings n = standardTiming raw (listed raw)[n] := by
    intro n hn
    rw [htimings, happended.getElem (by rwa [List.length_map]), List.getElem_map]
    rfl
  constructor
  · intro h i hi
    obtain ⟨n, hn, rfl⟩ := List.getElem_of_mem hi
    have hreads := h.reads n hn
    rw [hget n hn] at hreads
    apply (reads_standardTiming_iff _ _).mp hreads
  · intro h
    constructor
    · rw [hcount, happended.count, Nat.zero_add, List.length_map]
      rfl
    · intro n hn
      rw [hget n hn, reads_standardTiming_iff]
      apply h _ (List.getElem_mem hn)

/-- A block of an analog port with one standard timing, of 1920 columns, and no modes. -/
def standardBlock (byte₁ : Byte) : Raw := fun k =>
  if k = 38 then 0xd1
  else if k = 39 then byte₁
  else if 40 ≤ k ∧ k < 54 then 1
  else if 1 ≤ k ∧ k < 7 then 0xff
  else 0

theorem parseEdid_standardBlock (byte₁ : Byte) :
  parseEdid (standardBlock byte₁) blank
    = (true, (parseEdid (standardBlock byte₁) blank).2)
  := by
  apply Prod.ext
  · rw [parseEdid_fst]
    simp [Accepted, hasHeader, portKnown, descriptorOffsets, isDisplayDescriptor, int,
      standardBlock]
  · rfl

/-- At 60 Hz. -/
theorem hasStandardTimings_60Hz :
  HasStandardTimings (standardBlock 0xc0) (parseEdid (standardBlock 0xc0) blank).2
  := (hasStandardTimings_iff (parseEdid_standardBlock 0xc0)).mpr (by decide +kernel)

/-- 100 Hz are read as 68 Hz. -/
theorem not_hasStandardTimings_100Hz :
  ∃ result', parseEdid (standardBlock 0xe8) blank = (true, result')
    ∧ (result'.standardTimings 0).vFreq = 68
    ∧ ¬ HasStandardTimings (standardBlock 0xe8) result'
  := by
  refine ⟨_, parseEdid_standardBlock 0xe8, by decide +kernel, ?_⟩
  intro h
  have hfreq := (h.reads 0 (by decide +kernel)).vFreq
  revert hfreq
  decide +kernel

/-! ### The name -/

/-- When `parse_edid` returns `true`, all bytes of the display name are the first byte of the text
of the last descriptor with a name. -/
theorem parseEdid_displayName {raw : Raw} {result result' : EdidInfo} {i : ℕ}
    (htrue : parseEdid raw result = (true, result')) (hlast : (nameOffsets raw).getLast? = some i)
    {k : ℕ} (hk : k < 13) :
  result'.displayName k = text raw i 0
  := by
  obtain ⟨start, -, hloop⟩ := parseEdid_loops htrue
  rw [nameOffsets] at hlast
  rw [detailedLoop_displayName hloop hk, hlast]
  rfl

/-- When `parse_edid` returns `true` for a block with a name, the display name is its text if and
only if all bytes of the text are the same. -/
theorem hasName_iff {raw : Raw} {result result' : EdidInfo} {i : ℕ}
    (htrue : parseEdid raw result = (true, result'))
    (hlast : (nameOffsets raw).getLast? = some i) :
  HasName raw i result' ↔ ∀ k < 13, text raw i k = text raw i 0
  := by
  constructor
  · intro h k hk
    rw [← h.text k hk, parseEdid_displayName htrue hlast hk]
  · intro h
    constructor
    · intro k hk
      rw [parseEdid_displayName htrue hlast hk, h k hk]
    · intro raw₂ result₂ result₂' j htrue₂ hlast₂ hsame k hk
      rw [parseEdid_displayName htrue₂ hlast₂ hk, parseEdid_displayName htrue hlast hk,
        hsame 0 (by decide)]

/-- A block of an analog port with a name in its first descriptor, and no modes. -/
def nameBlock (name : ℕ → Byte) : Raw := fun k =>
  if 59 ≤ k ∧ k < 72 then name (k - 59)
  else if k = 57 then 0xfc
  else if 1 ≤ k ∧ k < 7 then 0xff
  else 0

theorem parseEdid_nameBlock (name : ℕ → Byte) :
  parseEdid (nameBlock name) blank = (true, (parseEdid (nameBlock name) blank).2)
  := by
  apply Prod.ext
  · rw [parseEdid_fst]
    simp [Accepted, hasHeader, portKnown, descriptorOffsets, isDisplayDescriptor, int, nameBlock]
  · rfl

/-- A name of blanks. -/
theorem hasName_blanks :
  HasName (nameBlock fun _ => 0x20) 0 (parseEdid (nameBlock fun _ => 0x20) blank).2
  := (hasName_iff (parseEdid_nameBlock _) (by decide +kernel)).mpr (by decide +kernel)

/-- The name that begins with `A` and goes on with `B` is read as thirteen times `A`. -/
theorem not_hasName_AB :
  ∃ result', parseEdid (nameBlock fun k => 0x41 + BitVec.ofNat 8 k) blank = (true, result')
    ∧ (nameOffsets (nameBlock fun k => 0x41 + BitVec.ofNat 8 k)).getLast? = some 0
    ∧ (∀ k < 13, result'.displayName k = 0x41)
    ∧ ¬ HasName (nameBlock fun k => 0x41 + BitVec.ofNat 8 k) 0 result'
  := by
  refine ⟨_, parseEdid_nameBlock _, by decide +kernel, by decide +kernel, ?_⟩
  intro h
  have hsecond := h.text 1 (by decide)
  revert hsecond
  decide +kernel

end Edid
