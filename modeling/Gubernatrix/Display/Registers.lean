import Gubernatrix.Display

/-!
# The timing registers of a pipe

`igfx_display_pipe_setup` packs the sums of the numbers of a mode, less one, into the fields of the
timing registers, which have 12 or 13 bits. The fields are given here with the numbers that they
stand for, and read back from what was written.
-/

namespace Igfx

open Edid (DetailedMode EdidInfo Raw parseEdid decodeTiming timingFields setPolarity)

/-- A field of a timing register, at an offset from `display_mmio_base`, and the number of a mode
that it stands for. -/
structure Field where
  offset : U32
  start : ℕ
  width : ℕ
  value : DetailedMode → ℕ

/-- The fields of HTOTAL, HBLANK, HSYNC, VTOTAL, VBLANK, VSYNC and PIPECSRC. -/
def fields : List Field :=
  [⟨0x63000, 16, 13, fun m => m.hactive.toNat + m.hblank.toNat + m.hborder.toNat⟩,
    ⟨0x63000, 0, 12, fun m => m.hactive.toNat⟩,
    ⟨0x63004, 16, 13, fun m => m.hborder.toNat + m.hactive.toNat + m.hblank.toNat⟩,
    ⟨0x63004, 0, 13, fun m => m.hborder.toNat + m.hactive.toNat⟩,
    ⟨0x63008, 16, 13, fun m =>
      m.hactive.toNat + m.hborder.toNat + m.hsyncPorch.toNat + m.hsyncPulse.toNat⟩,
    ⟨0x63008, 0, 13, fun m => m.hactive.toNat + m.hborder.toNat + m.hsyncPorch.toNat⟩,
    ⟨0x6300C, 16, 13, fun m => m.vactive.toNat + m.vblank.toNat + m.vborder.toNat⟩,
    ⟨0x6300C, 0, 12, fun m => m.vactive.toNat⟩,
    ⟨0x63010, 16, 13, fun m => m.vborder.toNat + m.vactive.toNat + m.vblank.toNat⟩,
    ⟨0x63010, 0, 13, fun m => m.vborder.toNat + m.vactive.toNat⟩,
    ⟨0x63014, 16, 13, fun m =>
      m.vactive.toNat + m.vborder.toNat + m.vsyncPorch.toNat + m.vsyncPulse.toNat⟩,
    ⟨0x63014, 0, 13, fun m => m.vactive.toNat + m.vborder.toNat + m.vsyncPorch.toNat⟩,
    ⟨0x6301C, 16, 12, fun m => m.hactive.toNat⟩,
    ⟨0x6301C, 0, 12, fun m => m.vactive.toNat⟩]

/-- What a register holds after these writes, if it was written to. -/
def readBack (writes : List Write) (reg : U32) : Option U32 :=
  (writes.reverse.find? fun w => w.1 = reg).map Prod.snd

/-- The field of a register that holds `v` stands for the number of the mode. -/
def Field.Stands (f : Field) (mode : DetailedMode) (v : U32) : Prop :=
  (v.extractLsb' f.start f.width).toNat + 1 = f.value mode

/-- Each field of the timing registers is written, and stands for the number that it is to have. -/
def Untruncated (driver : Driver) (poll : Poll) (mode : DetailedMode) : Prop :=
  ∀ f ∈ fields, ∃ v, readBack (pipeSetup driver poll 0 mode) (driver.displayMmioBase + f.offset)
    = some v ∧ f.Stands mode v

/-- The mode has columns and lines, and no more in total than 13 bits can count. -/
structure Programmable (mode : DetailedMode) : Prop where
  hactive : 0 < mode.hactive.toNat
  vactive : 0 < mode.vactive.toNat
  htotal : mode.hactive.toNat + mode.hblank.toNat + mode.hborder.toNat ≤ 2 ^ 13
  vtotal : mode.vactive.toNat + mode.vblank.toNat + mode.vborder.toNat ≤ 2 ^ 13

/-! ### The numbers of a mode -/

/-- The numbers of a mode are as small as the fields of a descriptor. -/
structure Decoded (mode : DetailedMode) : Prop where
  hactive : mode.hactive.toNat < 2 ^ 12
  hblank : mode.hblank.toNat < 2 ^ 12
  vactive : mode.vactive.toNat < 2 ^ 12
  vblank : mode.vblank.toNat < 2 ^ 12
  hsyncPorch : mode.hsyncPorch.toNat < 2 ^ 10
  hsyncPulse : mode.hsyncPulse.toNat < 2 ^ 10
  vsyncPorch : mode.vsyncPorch.toNat < 2 ^ 6
  vsyncPulse : mode.vsyncPulse.toNat < 2 ^ 8

theorem int_lt (raw : Raw) (k : ℕ) :
  Edid.int raw k < 2 ^ 8
  := (raw k).isLt

theorem shiftRight_lt {x : ℕ} (n k : ℕ) (hx : x < 2 ^ (n + k)) :
  x >>> n < 2 ^ k
  := by
  rw [Nat.shiftRight_eq_div_pow]
  apply Nat.div_lt_of_lt_mul
  rwa [← pow_add]

/-- A number with a second one from bit `n` on. -/
theorem join_lt {x y n k : ℕ} (hx : x < 2 ^ n) (hy : y < 2 ^ k) :
  (BitVec.ofNat 32 (x + (y <<< n))).toNat < 2 ^ (n + k)
  := by
  rw [BitVec.toNat_ofNat]
  apply (Nat.mod_le _ _).trans_lt
  calc
    x + y <<< n < 2 ^ n + y <<< n := Nat.add_lt_add_right hx _
    _ = 2 ^ n * (y + 1) := by rw [Nat.shiftLeft_eq, Nat.mul_add, Nat.mul_one, Nat.mul_comm y,
      Nat.add_comm]
    _ ≤ 2 ^ n * 2 ^ k := Nat.mul_le_mul_left _ hy
    _ = 2 ^ (n + k) := (pow_add 2 n k).symm

/-- The polarities are set apart from the numbers. -/
theorem decoded_setPolarity (raw : Raw) (i : ℕ) {mode : DetailedMode} (h : Decoded mode) :
  Decoded (setPolarity raw i mode)
  := by
  unfold setPolarity
  dsimp only
  split
  · exact ⟨h.1, h.2, h.3, h.4, h.5, h.6, h.7, h.8⟩
  · exact ⟨h.1, h.2, h.3, h.4, h.5, h.6, h.7, h.8⟩

theorem decoded_timingFields (raw : Raw) (i : ℕ) (mode : DetailedMode) :
  Decoded (timingFields raw i mode)
  := by
  have hint := fun k => int_lt raw (54 + i + k)
  constructor
  · exact join_lt (hint 2) (shiftRight_lt 4 4 (hint 4))
  · exact join_lt (hint 3) (Nat.and_lt_two_pow _ (by decide) : _ < 2 ^ 4)
  · exact join_lt (hint 5) (shiftRight_lt 4 4 (hint 7))
  · exact join_lt (hint 6) (Nat.and_lt_two_pow _ (by decide) : _ < 2 ^ 4)
  · exact join_lt (hint 8) (shiftRight_lt 6 2 (hint 11))
  · exact join_lt (hint 9) (Nat.and_lt_two_pow _ (by decide) : _ < 2 ^ 2)
  · exact join_lt (shiftRight_lt 4 4 (hint 10)) (Nat.and_lt_two_pow _ (by decide) : _ < 2 ^ 2)
  · rw [timingFields, BitVec.toNat_ofNat]
    exact (Nat.mod_le _ _).trans_lt (Nat.and_le_left.trans_lt (hint 10))

/-- The modes that `parse_edid` produces are decoded from a descriptor. -/
theorem decoded_of_parseEdid {raw : Raw} {result result' : EdidInfo}
    (htrue : parseEdid raw result = (true, result')) {n : ℕ} (hn : n < result'.detailedModeCount) :
  Decoded (result'.detailedModes n)
  := by
  obtain ⟨hcount, hmodes⟩ := Edid.parseEdid_true htrue
  rw [hcount] at hn
  rw [hmodes n hn]
  obtain ⟨i, -, hi⟩ := List.mem_map.mp (List.getElem_mem hn)
  rw [← hi]
  exact decoded_setPolarity raw i (decoded_timingFields raw i _)

/-! ### The fields of a register -/

/-- Two numbers of at most 16 bits in a register. -/
theorem toNat_pack {a b : U32} (ha : a.toNat < 2 ^ 16) (hb : b.toNat < 2 ^ 16) :
  (a <<< 16 ||| b).toNat = a.toNat * 2 ^ 16 + b.toNat
  := by
  rw [BitVec.toNat_or, BitVec.toNat_shiftLeft, Nat.shiftLeft_eq, Nat.mod_eq_of_lt (by omega),
    Bits.or_low _ hb]

/-- A number less one, masked to `w` bits. -/
theorem toNat_mask (x : U32) {mask : U32} (w : ℕ) (hmask : mask.toNat = 2 ^ w - 1) :
  ((x - 1) &&& mask).toNat = (x.toNat + (2 ^ 32 - 1)) % 2 ^ 32 % 2 ^ w
  := by
  rw [BitVec.toNat_and, hmask, Nat.and_two_pow_sub_one_eq_mod, BitVec.toNat_sub, Nat.add_comm]
  rfl

/-- A number that is stored less one, in `w` bits, is read back just if it is not zero and `w` bits
can count to it. -/
theorem counted_iff {x w : ℕ} (hw : w ≤ 32) (hx : x < 2 ^ 32) :
  (x + (2 ^ 32 - 1)) % 2 ^ 32 % 2 ^ w + 1 = x ↔ 0 < x ∧ x ≤ 2 ^ w
  := by
  have hpow : 2 ^ w ≤ 2 ^ 32 := Nat.pow_le_pow_right (by decide) hw
  have hpos := Nat.two_pow_pos w
  rcases Nat.eq_zero_or_pos x with hzero | hx0
  · subst hzero
    omega
  · have hsub : (x + (2 ^ 32 - 1)) % 2 ^ 32 = x - 1 := by omega
    rw [hsub]
    constructor
    · intro h
      have hlt := Nat.mod_lt (x - 1) hpos
      omega
    · rintro ⟨-, hle⟩
      rw [Nat.mod_eq_of_lt (by omega)]
      omega

section Register

variable {x y mask₁ mask₂ : U32} (w₁ w₂ : ℕ) (hmask₁ : mask₁.toNat = 2 ^ w₁ - 1)
  (hmask₂ : mask₂.toNat = 2 ^ w₂ - 1) (hw₁ : w₁ ≤ 16) (hw₂ : w₂ ≤ 16)

include hmask₁ hmask₂ hw₁ hw₂ in
/-- The register with two numbers less one, as a number. -/
theorem toNat_register :
  (((x - 1) &&& mask₁) <<< 16 ||| ((y - 1) &&& mask₂)).toNat
    = (x.toNat + (2 ^ 32 - 1)) % 2 ^ 32 % 2 ^ w₁ * 2 ^ 16
      + (y.toNat + (2 ^ 32 - 1)) % 2 ^ 32 % 2 ^ w₂
  := by
  have hlt : ∀ {a w : ℕ}, w ≤ 16 → a % 2 ^ w < 2 ^ 16 := fun hw =>
    (Nat.mod_lt _ (Nat.two_pow_pos _)).trans_le (Nat.pow_le_pow_right (by decide) hw)
  rw [toNat_pack, toNat_mask x w₁ hmask₁, toNat_mask y w₂ hmask₂]
  · rw [toNat_mask x w₁ hmask₁]
    exact hlt hw₁
  · rw [toNat_mask y w₂ hmask₂]
    exact hlt hw₂

include hmask₁ hmask₂ hw₁ hw₂ in
theorem high_iff :
  ((((x - 1) &&& mask₁) <<< 16 ||| ((y - 1) &&& mask₂)).extractLsb' 16 w₁).toNat + 1 = x.toNat
    ↔ 0 < x.toNat ∧ x.toNat ≤ 2 ^ w₁
  := by
  have hlt : (y.toNat + (2 ^ 32 - 1)) % 2 ^ 32 % 2 ^ w₂ < 2 ^ 16 :=
    (Nat.mod_lt _ (Nat.two_pow_pos _)).trans_le (Nat.pow_le_pow_right (by decide) hw₂)
  rw [BitVec.extractLsb'_toNat, toNat_register w₁ w₂ hmask₁ hmask₂ hw₁ hw₂,
    Nat.shiftRight_eq_div_pow, Nat.add_comm (_ * _), Nat.add_mul_div_right _ _ (Nat.two_pow_pos 16), Nat.div_eq_of_lt hlt,
    Nat.zero_add, Nat.mod_mod]
  exact counted_iff (by omega) x.isLt

include hmask₁ hmask₂ hw₁ hw₂ in
theorem low_iff :
  ((((x - 1) &&& mask₁) <<< 16 ||| ((y - 1) &&& mask₂)).extractLsb' 0 w₂).toNat + 1 = y.toNat
    ↔ 0 < y.toNat ∧ y.toNat ≤ 2 ^ w₂
  := by
  have hpow : 2 ^ 16 = 2 ^ (16 - w₂) * 2 ^ w₂ := by rw [← pow_add, Nat.sub_add_cancel hw₂]
  rw [BitVec.extractLsb'_toNat, toNat_register w₁ w₂ hmask₁ hmask₂ hw₁ hw₂, Nat.shiftRight_zero,
    hpow, ← Nat.mul_assoc, Nat.mul_add_mod_self_right, Nat.mod_mod]
  exact counted_iff (by omega) y.isLt

end Register

/-! ### What the pipe is set up with -/

section Pipe

variable {driver : Driver} {mode : DetailedMode}

/-- The timing registers hold what is written to them. -/
theorem readBack_pipeSetup (harch : driver.architecture = cherrytrail) (poll : Poll)
    (mode : DetailedMode) :
  let hborder := mode.hborder.setWidth 32
  let vborder := mode.vborder.setWidth 32
  let held := fun offset =>
    readBack (pipeSetup driver poll 0 mode) (driver.displayMmioBase + offset)
  held 0x63000 = some (bounds (mode.hactive + mode.hblank + hborder) mode.hactive 0xFFF)
    ∧ held 0x63004
      = some (bounds (hborder + mode.hactive + mode.hblank) (hborder + mode.hactive) 0x1FFF)
    ∧ held 0x63008 = some (bounds (mode.hactive + hborder + mode.hsyncPorch + mode.hsyncPulse)
      (mode.hactive + hborder + mode.hsyncPorch) 0x1FFF)
    ∧ held 0x6300C = some (bounds (mode.vactive + mode.vblank + vborder) mode.vactive 0xFFF)
    ∧ held 0x63010
      = some (bounds (vborder + mode.vactive + mode.vblank) (vborder + mode.vactive) 0x1FFF)
    ∧ held 0x63014 = some (bounds (mode.vactive + vborder + mode.vsyncPorch + mode.vsyncPulse)
      (mode.vactive + vborder + mode.vsyncPorch) 0x1FFF)
    ∧ held 0x6301C
      = some (((mode.hactive - 1) &&& 0xFFF) <<< 16 ||| ((mode.vactive - 1) &&& 0xFFF))
  := by simp [readBack, pipeSetup, harch]

/-- A field stands for its number if the number that it is made from is that number, and can be read
back. -/
theorem stands_iff {writes : List Write} {reg v x : U32} {f : Field}
    (hread : readBack writes reg = some v) (hvalue : x.toNat = f.value mode)
    (hiff : (v.extractLsb' f.start f.width).toNat + 1 = x.toNat
      ↔ 0 < x.toNat ∧ x.toNat ≤ 2 ^ f.width) :
  (∃ v, readBack writes reg = some v ∧ f.Stands mode v)
    ↔ 0 < f.value mode ∧ f.value mode ≤ 2 ^ f.width
  := by
  rw [hvalue] at hiff
  rw [← hiff, hread]
  constructor
  · rintro ⟨v', hv', hstands⟩
    obtain rfl := Option.some.inj hv'
    exact hstands
  · intro hstands
    exact ⟨v, rfl, hstands⟩

/-- Each field stands for its number just if the number is not zero and the field can count to
it. -/
theorem each_stands_iff (poll : Poll) (harch : driver.architecture = cherrytrail)
    (h : Decoded mode) :
  ∀ f ∈ fields, (∃ v, readBack (pipeSetup driver poll 0 mode) (driver.displayMmioBase + f.offset)
      = some v ∧ f.Stands mode v) ↔ 0 < f.value mode ∧ f.value mode ≤ 2 ^ f.width
  := by
  obtain ⟨hha, hhb, hva, hvb, hhp, hhs, hvp, hvs⟩ := h
  have hbh := mode.hborder.isLt
  have hbv := mode.vborder.isLt
  obtain ⟨htotal, hblank, hsync, vtotal, vblank, vsync, src⟩ :=
    readBack_pipeSetup harch poll mode
  simp only [fields, List.forall_mem_cons]
  refine ⟨stands_iff htotal ?_ (high_iff 13 12 rfl rfl (by decide) (by decide)),
    stands_iff htotal rfl (low_iff 13 12 rfl rfl (by decide) (by decide)),
    stands_iff hblank ?_ (high_iff 13 13 rfl rfl (by decide) (by decide)),
    stands_iff hblank ?_ (low_iff 13 13 rfl rfl (by decide) (by decide)),
    stands_iff hsync ?_ (high_iff 13 13 rfl rfl (by decide) (by decide)),
    stands_iff hsync ?_ (low_iff 13 13 rfl rfl (by decide) (by decide)),
    stands_iff vtotal ?_ (high_iff 13 12 rfl rfl (by decide) (by decide)),
    stands_iff vtotal rfl (low_iff 13 12 rfl rfl (by decide) (by decide)),
    stands_iff vblank ?_ (high_iff 13 13 rfl rfl (by decide) (by decide)),
    stands_iff vblank ?_ (low_iff 13 13 rfl rfl (by decide) (by decide)),
    stands_iff vsync ?_ (high_iff 13 13 rfl rfl (by decide) (by decide)),
    stands_iff vsync ?_ (low_iff 13 13 rfl rfl (by decide) (by decide)),
    stands_iff src rfl (high_iff 12 12 rfl rfl (by decide) (by decide)),
    stands_iff src rfl (low_iff 12 12 rfl rfl (by decide) (by decide)),
    List.forall_mem_nil _⟩
  -- none of the sums wraps around
  all_goals
    simp only [BitVec.toNat_add, BitVec.toNat_setWidth]
    omega

end Pipe

/-- A mode that `parse_edid` produces is programmed without loss if and only if it has columns and
lines, and no more than 8192 of them in total. -/
theorem untruncated_iff {raw : Raw} {result result' : EdidInfo}
    (htrue : parseEdid raw result = (true, result')) {n : ℕ} (hn : n < result'.detailedModeCount)
    {driver : Driver} (harch : driver.architecture = cherrytrail) (poll : Poll) :
  Untruncated driver poll (result'.detailedModes n) ↔ Programmable (result'.detailedModes n)
  := by
  have hdecoded := decoded_of_parseEdid htrue hn
  have heach := each_stands_iff poll harch hdecoded
  generalize result'.detailedModes n = mode at hdecoded heach
  have hfields : Untruncated driver poll mode
      ↔ ∀ f ∈ fields, 0 < f.value mode ∧ f.value mode ≤ 2 ^ f.width :=
    forall₂_congr heach
  obtain ⟨hha, hhb, hva, hvb, hhp, hhs, hvp, hvs⟩ := hdecoded
  have hbh := mode.hborder.isLt
  have hbv := mode.vborder.isLt
  rw [hfields]
  simp only [fields, List.forall_mem_cons, List.not_mem_nil]
  constructor
  · rintro ⟨htotal, hactive, -, -, -, -, vtotal, vactive, -⟩
    exact ⟨hactive.1, vactive.1, htotal.2, vtotal.2⟩
  · rintro ⟨hactive, vactive, htotal, vtotal⟩
    norm_num
    omega

/-- The block of a mode, as it is read. -/
theorem parseEdid_vga :
  parseEdid (Edid.blockOf (Edid.vga 10 2)) Edid.blank
    = (true, (parseEdid (Edid.blockOf (Edid.vga 10 2)) Edid.blank).2)
  := by
  apply Prod.ext
  · decide +kernel
  · rfl

/-- A mode with 640 columns and 480 lines. -/
theorem untruncated_vga :
  Untruncated chv unplugged
    ((parseEdid (Edid.blockOf (Edid.vga 10 2)) Edid.blank).2.detailedModes 0)
  := by
  apply (untruncated_iff parseEdid_vga (by decide +kernel) rfl unplugged).mpr
  constructor
  · decide +kernel
  · decide +kernel
  · decide +kernel
  · decide +kernel

/-- A mode with 4095 columns, and as many in the blank, and borders of 3. -/
def wide : Edid.Timing :=
  { Edid.vga 10 2 with
    hactive := 4095
    hblank := 4095
    hborder := 3 }

theorem parseEdid_wide :
  parseEdid (Edid.blockOf wide) Edid.blank
    = (true, (parseEdid (Edid.blockOf wide) Edid.blank).2)
  := by
  apply Prod.ext
  · decide +kernel
  · rfl

/-- Its total of 8193 columns is too much. -/
theorem not_untruncated_wide :
  ∃ result', parseEdid (Edid.blockOf wide) Edid.blank = (true, result')
    ∧ 0 < result'.detailedModeCount ∧ ¬ Untruncated chv unplugged (result'.detailedModes 0)
  := by
  have hn : 0 < (parseEdid (Edid.blockOf wide) Edid.blank).2.detailedModeCount := by
    decide +kernel
  refine ⟨_, parseEdid_wide, hn, ?_⟩
  intro h
  have hhtotal := List.head_mem (List.cons_ne_nil _ _ : fields ≠ [])
  have hdecoded := decoded_of_parseEdid parseEdid_wide hn
  have htotal := (each_stands_iff unplugged rfl hdecoded _ hhtotal).mp (h _ hhtotal)
  revert htotal
  decide +kernel

end Igfx
