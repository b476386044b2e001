import Gubernatrix.Startup

/-!
# The interrupt command register

`interrupt_sendipi` writes an interprocessor interrupt to the command register of the local APIC:
in x2APIC mode as one model-specific register, which it reads first, and in xAPIC mode as two
registers, the half with the destination first. The register is read as the local APIC reads it.
-/

namespace Startup

open Ioapic (U32)
open Acpi (Byte)

/-- The interrupt command register: the model-specific register of x2APIC mode, and the two
registers of xAPIC mode. -/
structure Icr where
  msr : U64
  low : U32
  high : U32

/-- The register after a write. -/
def Icr.store (x2apicMode : Bool) (icr : Icr) (w : Write) : Icr :=
  if x2apicMode then
    if w.off = apicIcrX2apic then { icr with msr := w.val } else icr
  else if w.off = apicIcrXapicLo then { icr with low := w.val.setWidth 32 }
  else if w.off = apicIcrXapicHi then { icr with high := w.val.setWidth 32 }
  else icr

/-- The interrupt that the register describes in its mode. -/
def Icr.ipi (x2apicMode : Bool) (icr : Icr) : Ipi :=
  if x2apicMode then .ofCommand icr.msr ((icr.msr >>> 32).setWidth 32)
  else .ofCommand (icr.low.setWidth 64) (icr.high >>> 24)

/-- What `interrupt_sendipi` writes, in a mode, with the register as it was before. -/
def Icr.writes (x2apicMode : Bool) (icr : Icr) (id cpu vector : U32) (deliveryMode : DeliveryMode) :
    List Write :=
  interruptSendipi { id := id, x2apicMode := x2apicMode, icr := icr.msr } cpu vector deliveryMode

/-- The register after `interrupt_sendipi`. -/
def Icr.send (x2apicMode : Bool) (icr : Icr) (id cpu vector : U32) (deliveryMode : DeliveryMode) :
    Icr :=
  (icr.writes x2apicMode id cpu vector deliveryMode).foldl (store x2apicMode) icr

/-- The interrupt that `interrupt_sendipi` is called for. -/
def Ipi.requested (cpu vector : U32) (deliveryMode : DeliveryMode) : Ipi where
  dest := cpu
  vector := vector.setWidth 8
  mode := deliveryMode.code.setWidth 3
  logical := false
  assert := true
  shorthand := 0

/-- In both modes the register describes the interrupt that was asked for; in x2APIC mode nothing of
what was there before is left, and in xAPIC mode the half with the destination is written first. -/
structure SendsSame (icr : Icr) (id cpu vector : U32) (deliveryMode : DeliveryMode) : Prop where
  x2apic : (icr.send true id cpu vector deliveryMode).ipi true
    = .requested cpu vector deliveryMode
  xapic : (icr.send false id cpu vector deliveryMode).ipi false
    = .requested cpu vector deliveryMode
  fresh : ∀ icr' : Icr, (icr'.send true id cpu vector deliveryMode).msr
    = (icr.send true id cpu vector deliveryMode).msr
  order : (icr.writes false id cpu vector deliveryMode).map Write.off
    = [apicIcrXapicHi, apicIcrXapicLo]

/-- The number of a delivery mode has three bits. -/
theorem DeliveryMode.code_lt (mode : DeliveryMode) :
  mode.code.toNat < 8
  := by
  cases mode with
  | fixed => decide
  | init => decide
  | startup => decide

/-- The command as a number. -/
theorem toNat_command (vector : U32) (deliveryMode : DeliveryMode) :
  (command vector deliveryMode).toNat
    = 2 ^ 14 + (deliveryMode.code.toNat * 2 ^ 8 + vector.toNat % 2 ^ 8)
  := by
  have hvector : (vector &&& 0xff).toNat = vector.toNat % 2 ^ 8 := by
    rw [BitVec.toNat_and]
    exact Bits.and_low _ 8
  have hcode := deliveryMode.code_lt
  have hmode : ((deliveryMode.code &&& 0x7) <<< 8).toNat = deliveryMode.code.toNat * 2 ^ 8 := by
    cases deliveryMode with
    | fixed => rfl
    | init => rfl
    | startup => rfl
  have hlt : vector.toNat % 2 ^ 8 < 2 ^ 8 := Nat.mod_lt _ (Nat.two_pow_pos 8)
  have hlow : deliveryMode.code.toNat * 2 ^ 8 + vector.toNat % 2 ^ 8 < 2 ^ 14 := by omega
  have hbit : (0x4000 : U32).toNat = 1 * 2 ^ 14 := rfl
  have hcommand : command vector deliveryMode
      = (vector &&& (0xff : U32)) ||| ((deliveryMode.code &&& 0x7) <<< 8) ||| (0x4000 : U32) := rfl
  rw [hcommand, BitVec.toNat_or, BitVec.toNat_or, hvector, hmode, Nat.or_comm (vector.toNat % 2 ^ 8),
    Bits.or_low _ hlt, hbit, Nat.or_comm, Bits.or_low _ hlow, Nat.one_mul]

/-- The fields of the command. -/
theorem ofCommand_command (cpu vector : U32) (deliveryMode : DeliveryMode) :
  Ipi.ofCommand ((command vector deliveryMode).setWidth 64) cpu
    = .requested cpu vector deliveryMode
  := by
  have hcode := deliveryMode.code_lt
  have hcommand : ((command vector deliveryMode).setWidth 64 : U64).toNat
      = 2 ^ 14 + (deliveryMode.code.toNat * 2 ^ 8 + vector.toNat % 2 ^ 8) := by
    rw [BitVec.toNat_setWidth, toNat_command]
    omega
  generalize ((command vector deliveryMode).setWidth 64 : U64) = c at hcommand
  rw [Ipi.ofCommand, Ipi.requested]
  congr 1
  · apply BitVec.eq_of_toNat_eq
    rw [BitVec.extractLsb'_toNat, hcommand, BitVec.toNat_setWidth, Nat.shiftRight_zero]
    omega
  · apply BitVec.eq_of_toNat_eq
    rw [BitVec.extractLsb'_toNat, hcommand, BitVec.toNat_setWidth, Nat.shiftRight_eq_div_pow]
    omega
  · rw [BitVec.getLsbD, hcommand, Nat.testBit_eq_decide_div_mod_eq, decide_eq_false_iff_not]
    omega
  · rw [BitVec.getLsbD, hcommand, Nat.testBit_eq_decide_div_mod_eq, decide_eq_true_eq]
    omega
  · apply BitVec.eq_of_toNat_eq
    rw [BitVec.extractLsb'_toNat, hcommand, Nat.shiftRight_eq_div_pow,
      show (0 : BitVec 2).toNat = 0 from rfl]
    omega

/-- A destination in the highest byte is not part of the lower half. -/
theorem low_half (c : U32) (x : U64) :
  (c.setWidth 64 ||| x <<< 56 : U64).setWidth 32 = c
  := by
  apply BitVec.eq_of_getLsbD_eq
  intro i hi
  simp [hi]

/-- The highest byte of the upper half. -/
theorem high_byte (high : U32) :
  high >>> 24 = (high.setWidth 64 >>> 24 : U64).setWidth 32
  := by
  apply BitVec.eq_of_toNat_eq
  rw [BitVec.toNat_ushiftRight, BitVec.toNat_setWidth, BitVec.toNat_ushiftRight,
    BitVec.toNat_setWidth, Nat.shiftRight_eq_div_pow, Nat.shiftRight_eq_div_pow]
  omega

/-- In x2APIC mode the command and the destination are written over what the register held. -/
theorem send_x2apic (icr : Icr) (id cpu vector : U32) (deliveryMode : DeliveryMode) :
  (icr.send true id cpu vector deliveryMode).msr
    = (command vector deliveryMode).setWidth 64 ||| cpu.signExtend 64 <<< 32
  := by
  have hne : apicIcrX2apic ≠ apicEoi := by decide
  rw [Icr.send, Icr.writes, interruptSendipi]
  simp only [setWidth_command]
  simp [apicWrite, hne, Icr.store]

/-- In xAPIC mode the halves of the command with the destination are written, the upper one
first. -/
theorem writes_xapic (icr : Icr) (id cpu vector : U32) (deliveryMode : DeliveryMode) :
  ∃ w₁ w₂, icr.writes false id cpu vector deliveryMode
      = [⟨apicIcrXapicHi, w₁⟩, ⟨apicIcrXapicLo, w₂⟩]
    ∧ w₁.setWidth 32 = (((command vector deliveryMode).setWidth 64 ||| cpu.signExtend 64 <<< 56
      : U64) >>> 32).setWidth 32
    ∧ w₂.setWidth 32 = ((command vector deliveryMode).setWidth 64 ||| cpu.signExtend 64 <<< 56
      : U64).setWidth 32
  := by
  rw [Icr.writes, interruptSendipi]
  simp only [setWidth_command]
  simp [apicWrite]

/-- `interrupt_sendipi` sends the same interrupt in both modes to a processor with an APIC ID,
whatever the register held before. -/
theorem sendsSame (icr : Icr) (id vector : U32) (deliveryMode : DeliveryMode) {cpu : U32}
    (hcpu : cpu.toNat ≤ 255) :
  SendsSame icr id cpu vector deliveryMode
  := by
  obtain ⟨apicId, rfl⟩ : ∃ apicId : Byte, cpu = apicId.setWidth 32 := by
    refine ⟨cpu.setWidth 8, ?_⟩
    apply BitVec.eq_of_toNat_eq
    rw [BitVec.toNat_setWidth, BitVec.toNat_setWidth]
    omega
  obtain ⟨w₁, w₂, hwrites, hhigh, hlow⟩ :=
    writes_xapic icr id (apicId.setWidth 32) vector deliveryMode
  constructor
  · rw [Icr.ipi, if_pos rfl, send_x2apic, signExtend_id, dest_x2apic, ofCommand_or,
      ofCommand_command]
  · have hne : apicIcrXapicHi ≠ apicIcrXapicLo := by decide
    have hsent : (icr.send false id (apicId.setWidth 32) vector deliveryMode)
        = { icr with high := w₁.setWidth 32, low := w₂.setWidth 32 } := by
      rw [Icr.send, hwrites]
      simp [Icr.store, hne]
    rw [hsent, Icr.ipi, if_neg Bool.false_ne_true, hhigh, hlow, signExtend_id, low_half, high_byte,
      dest_xapic, ofCommand_command]
  · intro icr'
    rw [send_x2apic, send_x2apic]
  · rw [hwrites]
    rfl

/-- A STARTUP for the processor 255, with the register full of ones. -/
theorem sendsSame_255 :
  SendsSame ⟨-1, -1, -1⟩ 0 255 0x0f .startup
  := sendsSame ⟨-1, -1, -1⟩ 0 0x0f .startup (by decide)

end Startup
