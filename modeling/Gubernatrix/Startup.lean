import Gubernatrix.Interrupts.AcpiInit
import Gubernatrix.Smp

/-!
# Which processors are started

`smp_init` goes through the LAPICs that `acpi_intr_init` has saved, and sends an INIT and a STARTUP
to each but its own. A LAPIC entry of the MADT says in its flags whether the processor may be
used; `save_lapic` does not keep the flags. The interrupts are read off the writes to the
interrupt command register, as the local APIC reads them.
-/

namespace Startup

open Ioapic (U32)
open Acpi (Byte Madt LapicInfo Junk)

/-! ### Interprocessor interrupts -/

/-- `ipi_delivery_mode_t`. -/
inductive DeliveryMode where
  | fixed
  | init
  | startup
deriving DecidableEq

/-- The number of a delivery mode. -/
def DeliveryMode.code : DeliveryMode → U32
  | .fixed => 0
  | .init => 5
  | .startup => 6

/-- `APIC_EOI`. -/
def apicEoi : U32 := 0xb0

/-- `APIC_ICR_xAPIC_LO`. -/
def apicIcrXapicLo : U32 := 0x300

/-- `APIC_ICR_xAPIC_HI`. -/
def apicIcrXapicHi : U32 := 0x310

/-- `APIC_ICR_x2APIC`. -/
def apicIcrX2apic : U32 := 0x300

/-- `tls_apic_t` of the boot processor, with what `rdmsr` finds in the interrupt command
register. -/
structure Apic where
  id : U32
  x2apicMode : Bool
  icr : U64

/-- `interrupt_get_cpuidx`. -/
def Apic.cpuidx (apic : Apic) : ℤ := toInt32 apic.id.toNat

/-- A write to a register of the local APIC. -/
structure Write where
  off : U32
  val : U64
deriving DecidableEq

/-- `apic_write` to the interrupt command register or to `APIC_EOI`. The constant `~0xffffffff`
has 32 bits, all of them 0. -/
def apicWrite (apic : Apic) (off : U32) (val : U64) : Write :=
  if apic.x2apicMode then
    if off = apicEoi then ⟨off, val⟩
    else ⟨off, apic.icr &&& (~~~0xffffffff#32).setWidth 64 ||| val⟩
  else ⟨off, (val.setWidth 32).setWidth 64⟩

/-- `interrupt_sendipi`. -/
def interruptSendipi (apic : Apic) (cpu vector : U32) (deliveryMode : DeliveryMode) :
    List Write :=
  let ipiMsg : U64 := (vector &&& 0xff).setWidth 64
  let ipiMsg := ipiMsg ||| ((deliveryMode.code &&& 0x7) <<< 8).setWidth 64
  let ipiMsg := ipiMsg ||| 1 <<< 14
  if apic.x2apicMode then
    let ipiMsg := ipiMsg ||| cpu.signExtend 64 <<< 32
    [apicWrite apic apicIcrX2apic ipiMsg]
  else
    let ipiMsg := ipiMsg ||| cpu.signExtend 64 <<< 56
    [apicWrite apic apicIcrXapicHi (((ipiMsg >>> 32).setWidth 32).setWidth 64),
      apicWrite apic apicIcrXapicLo ((ipiMsg.setWidth 32).setWidth 64)]

/-! ### The loop of `smp_init` -/

/-- What `smp_init` does: it calls `alloc_ap_stack`, writes to the local APIC, waits with
`timer_wait`, or waits for `core_ready` in the given turn of the loop. -/
inductive Event where
  | allocApStack
  | write (w : Write)
  | timerWait (ns : ℕ)
  | coreReady (i : ℕ)
deriving DecidableEq

/-- What was done, and whether `smp_init` returned or waits for ever. -/
structure Run where
  events : List Event
  returned : Bool
deriving DecidableEq

/-- What `smp_init` does for a processor, up to the wait for `core_ready`. -/
def startOne (apic : Apic) (i : ℕ) (apicId : Byte) : List Event :=
  .allocApStack :: (interruptSendipi apic (apicId.setWidth 32) 0x0 .init).map .write
    ++ .timerWait (10 * 1000 * 1000)
      :: (interruptSendipi apic (apicId.setWidth 32) 0x0f .startup).map .write
    ++ [.coreReady i]

/-- The loop of `smp_init` from turn `i` on; `answers i` says whether the processor that is
started in turn `i` sets `core_ready`. -/
def smpInit (apic : Apic) (answers : ℕ → Bool) : (i : ℕ) → List LapicInfo → Run
  | _, [] => ⟨[], true⟩
  | i, info :: infos =>
      if (info.apicId.toNat : ℤ) ≠ apic.cpuidx then
        if answers i then
          let rest := smpInit apic answers (i + 1) infos
          ⟨startOne apic i info.apicId ++ rest.events, rest.returned⟩
        else ⟨startOne apic i info.apicId, false⟩
      else smpInit apic answers (i + 1) infos

/-- `lapic_data` after the second loop of `acpi_intr_init`. -/
def lapicData (junk : Junk) (m : Madt) : Option (List LapicInfo) := do
  let cnt := m.offsets.foldl (Acpi.countEntry m) (0, 0)
  let s ← m.offsets.foldlM (Acpi.saveEntry m)
    { lapicData := List.replicate cnt.1 junk.lapic, lapicIdx := 0
      ioapicData := List.replicate cnt.2 junk.ioapic, ioapicIdx := 0 }
  some s.lapicData

/-! ### What should be sent -/

/-- An interprocessor interrupt: the fields of the interrupt command register. -/
structure Ipi where
  dest : U32
  vector : Byte
  mode : BitVec 3
  logical : Bool
  assert : Bool
  shorthand : BitVec 2
deriving DecidableEq

/-- The interrupt that the lower half of the interrupt command register describes. -/
def Ipi.ofCommand (low : U64) (dest : U32) : Ipi where
  dest := dest
  vector := low.extractLsb' 0 8
  mode := low.extractLsb' 8 3
  logical := low.getLsbD 11
  assert := low.getLsbD 14
  shorthand := low.extractLsb' 18 2

/-- The interrupts that a local APIC sends for writes to its registers, with what the upper half of
the interrupt command register holds: the destination is in its upper half, in the highest byte
of it unless the local APIC is in x2APIC mode. -/
def sentFrom (x2apicMode : Bool) : (high : U64) → List Write → List Ipi
  | _, [] => []
  | high, w :: ws =>
      if x2apicMode then
        if w.off = apicIcrX2apic then
          .ofCommand w.val ((w.val >>> 32).setWidth 32) :: sentFrom x2apicMode high ws
        else sentFrom x2apicMode high ws
      else if w.off = apicIcrXapicHi then sentFrom x2apicMode w.val ws
      else if w.off = apicIcrXapicLo then
        .ofCommand w.val ((high >>> 24).setWidth 32) :: sentFrom x2apicMode high ws
      else sentFrom x2apicMode high ws

/-- The write of an event. -/
def Event.write? : Event → Option Write
  | .write w => some w
  | _ => none

/-- The turn in which an event is a wait for `core_ready`. -/
def Event.coreReady? : Event → Option ℕ
  | .coreReady i => some i
  | _ => none

/-- The interrupts that were sent. -/
def Run.ipis (apic : Apic) (r : Run) : List Ipi :=
  sentFrom apic.x2apicMode 0 (r.events.filterMap Event.write?)

/-- The turns in which `core_ready` was waited for. -/
def Run.awaited (r : Run) : List ℕ := r.events.filterMap Event.coreReady?

/-- An INIT for a processor. -/
def Ipi.initFor (apicId : Byte) : Ipi := ⟨apicId.setWidth 32, 0, 5, false, true, 0⟩

/-- A STARTUP for a processor, at the page of the trampoline. -/
def Ipi.startupFor (apicId : Byte) : Ipi := ⟨apicId.setWidth 32, 0x0f, 6, false, true, 0⟩

/-- The offsets of the LAPIC entries. -/
def lapicOffsets (m : Madt) : List ℕ := m.offsets.filter (m.type · = Acpi.madtLapicEntryType)

/-- The `flags` of the LAPIC entry at an offset say that the processor is enabled. -/
def Enabled (m : Madt) (off : ℕ) : Prop := (m.u32 (off + 4)).getLsbD 0 = true

/-- The LAPIC entry at an offset is not that of the boot processor. -/
def Other (apic : Apic) (m : Madt) (off : ℕ) : Prop :=
  (m.lapic off).apicId.toNat ≠ apic.id.toNat

instance (m : Madt) (off : ℕ) : Decidable (Enabled m off) :=
  inferInstanceAs (Decidable (_ = _))

instance (apic : Apic) (m : Madt) (off : ℕ) : Decidable (Other apic m off) :=
  inferInstanceAs (Decidable (_ ≠ _))

/-- An INIT and a STARTUP for each enabled processor that is not the boot processor, in the order of
the table. -/
def wanted (apic : Apic) (m : Madt) : List Ipi :=
  ((lapicOffsets m).filter fun off => Enabled m off ∧ Other apic m off).flatMap fun off =>
    [.initFor (m.lapic off).apicId, .startupFor (m.lapic off).apicId]

/-- If the enabled processors set `core_ready` when they are started, `smp_init` returns, the
interrupts are those wanted, and it waits for enabled processors only. -/
def OnlyUsable (apic : Apic) (m : Madt) : Prop :=
  ∀ junk answers,
    (∀ i off, (lapicOffsets m)[i]? = some off → Enabled m off → answers i = true) →
      ∃ infos, lapicData junk m = some infos
        ∧ (smpInit apic answers 0 infos).returned = true
        ∧ (smpInit apic answers 0 infos).ipis apic = wanted apic m
        ∧ ∀ i ∈ (smpInit apic answers 0 infos).awaited,
          ∃ off, (lapicOffsets m)[i]? = some off ∧ Enabled m off

/-! ### The interrupt command register -/

section Command

variable (c : U32) (id : Byte)

/-- An APIC ID is not negative as an `int`. -/
theorem signExtend_id :
  (id.setWidth 32 : U32).signExtend 64 = id.setWidth 64
  := by
  have hmsb : (id.setWidth 32 : U32).msb = false := by
    rw [BitVec.msb_setWidth]
    apply BitVec.getLsbD_of_ge
    decide
  rw [BitVec.signExtend_eq_setWidth_of_msb_false hmsb, BitVec.setWidth_setWidth]
  decide

/-- A destination from bit 32 on is not part of the command. -/
theorem ofCommand_or (x : U64) (dest : U32) :
  Ipi.ofCommand (c.setWidth 64 ||| x <<< 32) dest = Ipi.ofCommand (c.setWidth 64) dest
  := by
  have hbit : ∀ i < 32, (c.setWidth 64 ||| x <<< 32 : U64).getLsbD i
      = (c.setWidth 64 : U64).getLsbD i := by
    intro i hi
    rw [BitVec.getLsbD_or, BitVec.getLsbD_shiftLeft]
    simp [hi]
  have hfield : ∀ start len, start + len ≤ 32 →
      (c.setWidth 64 ||| x <<< 32 : U64).extractLsb' start len
        = (c.setWidth 64 : U64).extractLsb' start len := by
    intro start len hlen
    apply BitVec.eq_of_getLsbD_eq
    intro i hi
    rw [BitVec.getLsbD_extractLsb', BitVec.getLsbD_extractLsb', hbit _ (by omega)]
  rw [Ipi.ofCommand, Ipi.ofCommand, hfield 0 8 (by decide), hfield 8 3 (by decide),
    hfield 18 2 (by decide), hbit 11 (by decide), hbit 14 (by decide)]

theorem dest_x2apic :
  (((c.setWidth 64 ||| id.setWidth 64 <<< 32 : U64) >>> 32).setWidth 32 : U32) = id.setWidth 32
  := by
  apply BitVec.eq_of_getLsbD_eq
  intro i hi
  have hsum : 32 + i < 64 := by omega
  have hwide : i < 64 := by omega
  simp [hi, hsum, hwide]

theorem dest_xapic :
  ((((c.setWidth 64 ||| id.setWidth 64 <<< 56 : U64) >>> 32).setWidth 32 : U32).setWidth 64
    >>> 24 : U64).setWidth 32 = (id.setWidth 32 : U32)
  := by
  apply BitVec.eq_of_getLsbD_eq
  intro i hi
  rcases Nat.lt_or_ge i 8 with hlt | hge
  · have hsub : 32 + (24 + i) - 56 = i := by omega
    have hi32 : 24 + i < 32 := by omega
    have hi64 : 24 + i < 64 := by omega
    have hsum : 32 + (24 + i) < 64 := by omega
    have hle : ¬ 32 + (24 + i) < 56 := by omega
    simp [hi, hsub, hi32, hi64, hsum, hle]
  · have hi32 : ¬ 24 + i < 32 := by omega
    simp [hi, hi32, BitVec.getLsbD_of_ge id i hge]

/-- `ipi_msg` before the destination is added. -/
def command (vector : U32) (deliveryMode : DeliveryMode) : U32 :=
  (vector &&& 0xff) ||| ((deliveryMode.code &&& 0x7) <<< 8) ||| 1 <<< 14

theorem setWidth_command (vector : U32) (deliveryMode : DeliveryMode) :
  (vector &&& 0xff).setWidth 64 ||| ((deliveryMode.code &&& 0x7) <<< 8).setWidth 64 ||| 1 <<< 14
    = (command vector deliveryMode).setWidth 64
  := by
  rw [command, BitVec.setWidth_or, BitVec.setWidth_or]
  rfl

/-- The local APIC sends what `interrupt_sendipi` is called for, to a processor with an APIC ID. -/
theorem sentFrom_interruptSendipi (apic : Apic) (vector : U32) (deliveryMode : DeliveryMode)
    (high : U64) (ws : List Write) :
  ∃ high', sentFrom apic.x2apicMode high
      (interruptSendipi apic (id.setWidth 32) vector deliveryMode ++ ws)
    = .ofCommand ((command vector deliveryMode).setWidth 64) (id.setWidth 32)
      :: sentFrom apic.x2apicMode high' ws
  := by
  rw [interruptSendipi]
  simp only [setWidth_command, signExtend_id]
  cases hmode : apic.x2apicMode with
  | false =>
      have hne : apicIcrXapicLo ≠ apicIcrXapicHi := by decide
      simp [sentFrom, apicWrite, hmode, hne, dest_xapic]
      exact ⟨_, rfl⟩
  | true =>
      have hne : apicIcrX2apic ≠ apicEoi := by decide
      simp [sentFrom, apicWrite, hmode, hne, ofCommand_or, dest_x2apic]
      use high

/-- Starting a processor sends it an INIT and a STARTUP. -/
theorem sentFrom_startOne (apic : Apic) (i : ℕ) (high : U64) (ws : List Write) :
  ∃ high', sentFrom apic.x2apicMode high ((startOne apic i id).filterMap Event.write? ++ ws)
    = .initFor id :: .startupFor id :: sentFrom apic.x2apicMode high' ws
  := by
  have hwrites : (startOne apic i id).filterMap Event.write? ++ ws
      = interruptSendipi apic (id.setWidth 32) 0x0 .init
        ++ (interruptSendipi apic (id.setWidth 32) 0x0f .startup ++ ws) := by
    simp [startOne, Event.write?, Function.comp_def, List.filterMap_cons, List.filterMap_append]
  obtain ⟨high', hinit⟩ := sentFrom_interruptSendipi id apic 0x0 .init high
    (interruptSendipi apic (id.setWidth 32) 0x0f .startup ++ ws)
  obtain ⟨high'', hstartup⟩ := sentFrom_interruptSendipi id apic 0x0f .startup high' ws
  use high''
  rw [hwrites, hinit, hstartup]
  rfl

theorem awaited_startOne (apic : Apic) (i : ℕ) :
  (startOne apic i id).filterMap Event.coreReady? = [i]
  := by
  simp [startOne, Event.coreReady?, Function.comp_def, List.filterMap_cons, List.filterMap_append]

end Command

/-! ### Turns of the loop -/

section Turns

variable {apic : Apic} {answers : ℕ → Bool}

/-- The comparison of `smp_init` as `int`s is one of APIC IDs. -/
theorem ne_cpuidx_iff (id : Byte) :
  (id.toNat : ℤ) ≠ apic.cpuidx ↔ id.toNat ≠ apic.id.toNat
  := by
  have hid := id.isLt
  have hapic := apic.id.isLt
  have hid := id.isLt
  rw [Apic.cpuidx, ne_comm, ne_eq, toInt32_eq_natCast_iff apic.id.isLt (by omega)]
  apply ne_comm

/-- The processor of the entry is started. -/
def Starts (apic : Apic) (info : LapicInfo) : Prop := info.apicId.toNat ≠ apic.id.toNat

instance (info : LapicInfo) : Decidable (Starts apic info) :=
  inferInstanceAs (Decidable (_ ≠ _))

theorem smpInit_skip {info : LapicInfo} (h : ¬ Starts apic info) (i : ℕ) (infos : List LapicInfo) :
  smpInit apic answers i (info :: infos) = smpInit apic answers (i + 1) infos
  := by
  rw [smpInit, if_neg]
  rwa [ne_cpuidx_iff]

theorem smpInit_hang {info : LapicInfo} (h : Starts apic info) {i : ℕ} (ha : answers i = false)
    (infos : List LapicInfo) :
  smpInit apic answers i (info :: infos) = ⟨startOne apic i info.apicId, false⟩
  := by
  rw [smpInit, if_pos ((ne_cpuidx_iff _).mpr h), if_neg (by simp [ha])]

theorem smpInit_start {info : LapicInfo} (h : Starts apic info) {i : ℕ} (ha : answers i = true)
    (infos : List LapicInfo) :
  smpInit apic answers i (info :: infos)
    = ⟨startOne apic i info.apicId ++ (smpInit apic answers (i + 1) infos).events,
      (smpInit apic answers (i + 1) infos).returned⟩
  := by
  rw [smpInit, if_pos ((ne_cpuidx_iff _).mpr h), if_pos ha]

/-- `smp_init` returns when every processor that it starts sets `core_ready`. -/
theorem returned_iff (i : ℕ) (infos : List LapicInfo) :
  (smpInit apic answers i infos).returned = true
    ↔ ∀ k info, infos[k]? = some info → Starts apic info → answers (i + k) = true
  := by
  induction infos generalizing i with
  | nil => simp [smpInit]
  | cons info infos ih =>
      have hsplit : (∀ k info', (info :: infos)[k]? = some info' → Starts apic info' →
          answers (i + k) = true) ↔ (Starts apic info → answers i = true)
            ∧ ∀ k info', infos[k]? = some info' → Starts apic info' →
              answers (i + 1 + k) = true := by
        constructor
        · intro h
          refine ⟨fun hstarts => h 0 info rfl hstarts, ?_⟩
          intro k info' hk hstarts
          rw [Nat.add_assoc, Nat.add_comm 1 k]
          apply h (k + 1) info' hk hstarts
        · rintro ⟨hhead, htail⟩ k info' hk hstarts
          cases k with
          | zero =>
              obtain rfl : info = info' := by simpa using hk
              apply hhead hstarts
          | succ k =>
              rw [Nat.add_comm k 1, ← Nat.add_assoc]
              apply htail k info' hk hstarts
      rw [hsplit]
      by_cases hstarts : Starts apic info
      · cases ha : answers i with
        | false => simp [smpInit_hang hstarts ha, hstarts]
        | true => simp [smpInit_start hstarts ha, ih]
      · simp [smpInit_skip hstarts, hstarts, ih]

/-- If `smp_init` returns, it has sent an INIT and a STARTUP for each entry but that of the boot
processor. -/
theorem sentFrom_smpInit {i : ℕ} {infos : List LapicInfo}
    (h : (smpInit apic answers i infos).returned = true) (high : U64) :
  sentFrom apic.x2apicMode high ((smpInit apic answers i infos).events.filterMap Event.write?)
    = (infos.filter (Starts apic ·)).flatMap fun info =>
      [.initFor info.apicId, .startupFor info.apicId]
  := by
  induction infos generalizing i high with
  | nil => rfl
  | cons info infos ih =>
      by_cases hstarts : Starts apic info
      · cases ha : answers i with
        | false => simp [smpInit_hang hstarts ha] at h
        | true =>
            rw [smpInit_start hstarts ha] at h ⊢
            obtain ⟨high', hsent⟩ := sentFrom_startOne info.apicId apic i high
              ((smpInit apic answers (i + 1) infos).events.filterMap Event.write?)
            rw [List.filterMap_append, hsent, ih h high']
            simp [hstarts]
      · rw [smpInit_skip hstarts] at h ⊢
        rw [ih h high]
        simp [hstarts]

/-- The processors that are sent interrupts are those whose handshake is followed in `Smp`. -/
theorem ipis_others {c : Smp.Config} (hcpuidx : c.cpuidx = apic.cpuidx) {infos : List LapicInfo}
    (hlapics : c.lapics = infos.map (·.apicId))
    (h : (smpInit apic answers 0 infos).returned = true) :
  (smpInit apic answers 0 infos).ipis apic
    = c.others.flatMap fun id => [.initFor id, .startupFor id]
  := by
  rw [Run.ipis, sentFrom_smpInit h, Smp.Config.others, hlapics, List.filter_map, List.flatMap_map]
  congr 1
  apply List.filter_congr
  intro info hinfo
  rw [Function.comp_apply, decide_eq_decide, Smp.Config.IsBoot, hcpuidx]
  apply (ne_cpuidx_iff info.apicId).symm

/-- If `smp_init` returns, it has waited in the turns of these entries. -/
theorem mem_awaited_smpInit {i : ℕ} {infos : List LapicInfo}
    (h : (smpInit apic answers i infos).returned = true) (j : ℕ) :
  j ∈ (smpInit apic answers i infos).awaited
    ↔ ∃ k info, infos[k]? = some info ∧ Starts apic info ∧ j = i + k
  := by
  induction infos generalizing i with
  | nil => simp [smpInit, Run.awaited]
  | cons info infos ih =>
      have hsplit : (∃ k info', (info :: infos)[k]? = some info' ∧ Starts apic info' ∧ j = i + k)
          ↔ Starts apic info ∧ j = i
            ∨ ∃ k info', infos[k]? = some info' ∧ Starts apic info' ∧ j = i + 1 + k := by
        constructor
        · rintro ⟨k, info', hk, hstarts, rfl⟩
          cases k with
          | zero =>
              obtain rfl : info = info' := by simpa using hk
              exact .inl ⟨hstarts, rfl⟩
          | succ k => exact .inr ⟨k, info', hk, hstarts, by omega⟩
        · rintro (⟨hstarts, rfl⟩ | ⟨k, info', hk, hstarts, rfl⟩)
          · exact ⟨0, info, rfl, hstarts, rfl⟩
          · exact ⟨k + 1, info', hk, hstarts, by omega⟩
      rw [hsplit]
      by_cases hstarts : Starts apic info
      · cases ha : answers i with
        | false => simp [smpInit_hang hstarts ha] at h
        | true =>
            rw [smpInit_start hstarts ha] at h ⊢
            rw [← ih h, Run.awaited, Run.awaited, List.filterMap_append, awaited_startOne]
            simp [hstarts]
      · rw [smpInit_skip hstarts] at h ⊢
        rw [← ih h]
        simp [hstarts]

end Turns

/-! ### The table -/

section Table

variable {apic : Apic} {m : Madt}

/-- `acpi_intr_init` saves the LAPIC of every entry. -/
theorem lapicData_eq (junk : Junk) (m : Madt) :
  lapicData junk m = some ((lapicOffsets m).map m.lapic)
  := by
  obtain ⟨s, hs, hlapics, -⟩ := Acpi.foldlM_saveEntry m m.offsets []
    (List.replicate (m.offsets.countP (m.type · = Acpi.madtLapicEntryType)) junk.lapic) []
    (List.replicate (m.offsets.countP (m.type · = Acpi.madtIoapicEntryType)) junk.ioapic)
    (by simp) (by simp)
  rw [lapicData, Acpi.foldl_countEntry]
  simp only [List.nil_append, List.length_nil] at hs hlapics
  simp only [Nat.zero_add, hs, Option.bind_eq_bind, Option.bind_some, hlapics]
  rfl

/-- `smp_init` returns when every processor that it starts sets `core_ready`. -/
theorem returned_table_iff {answers : ℕ → Bool} :
  (smpInit apic answers 0 ((lapicOffsets m).map m.lapic)).returned = true
    ↔ ∀ i off, (lapicOffsets m)[i]? = some off → Other apic m off → answers i = true
  := by
  rw [returned_iff]
  constructor
  · intro h i off hoff hother
    rw [← Nat.zero_add i]
    apply h i (m.lapic off) _ hother
    rw [List.getElem?_map, hoff, Option.map_some]
  · intro h i info hinfo hstarts
    rw [List.getElem?_map, Option.map_eq_some_iff] at hinfo
    obtain ⟨off, hoff, rfl⟩ := hinfo
    rw [Nat.zero_add]
    apply h i off hoff hstarts

/-- If only usable processors are started, the entries say that they are enabled: the loop would
wait for ever for one that is not. -/
theorem OnlyUsable.enabled (h : OnlyUsable apic m) {off : ℕ} (hoff : off ∈ lapicOffsets m)
    (hother : Other apic m off) :
  Enabled m off
  := by
  obtain ⟨i, hi⟩ := List.getElem?_of_mem hoff
  -- Only the enabled processors answer.
  let answers : ℕ → Bool := fun i =>
    ((lapicOffsets m)[i]?.map fun off => decide (Enabled m off)).getD false
  have hanswers : ∀ i off, (lapicOffsets m)[i]? = some off → Enabled m off → answers i = true := by
    intro i off hoff henabled
    simp [answers, hoff, henabled]
  obtain ⟨infos, hinfos, hreturned, -⟩ := h Junk.zero answers hanswers
  rw [lapicData_eq] at hinfos
  obtain rfl := Option.some.inj hinfos
  have hanswer := returned_table_iff.mp hreturned i off hi hother
  simpa [answers, hi] using hanswer

/-- Where the entries of the other processors say that they are enabled, the interrupts are those
wanted. -/
theorem ipis_smpInit (h : ∀ off ∈ lapicOffsets m, Other apic m off → Enabled m off)
    {answers : ℕ → Bool}
    (hreturned : (smpInit apic answers 0 ((lapicOffsets m).map m.lapic)).returned = true) :
  (smpInit apic answers 0 ((lapicOffsets m).map m.lapic)).ipis apic = wanted apic m
  := by
  rw [Run.ipis, sentFrom_smpInit hreturned, wanted, List.filter_map, List.flatMap_map]
  congr 1
  apply List.filter_congr
  intro off hoff
  have henabled := h off hoff
  rw [Function.comp_apply, decide_eq_decide]
  constructor
  · intro hother
    exact ⟨henabled hother, hother⟩
  · apply And.right

/-- Only usable processors are started exactly when every LAPIC entry but that of the boot processor
says that the processor is enabled. -/
theorem onlyUsable_iff (apic : Apic) (m : Madt) :
  OnlyUsable apic m ↔ ∀ off ∈ lapicOffsets m, Other apic m off → Enabled m off
  := by
  constructor
  · intro h off
    apply h.enabled
  · intro h junk answers hanswers
    have hreturned : (smpInit apic answers 0 ((lapicOffsets m).map m.lapic)).returned = true := by
      rw [returned_table_iff]
      intro i off hoff hother
      apply hanswers i off hoff
      apply h off (List.mem_of_getElem? hoff) hother
    use (lapicOffsets m).map m.lapic, lapicData_eq junk m, hreturned, ipis_smpInit h hreturned
    intro i hi
    obtain ⟨k, info, hinfo, hstarts, rfl⟩ := (mem_awaited_smpInit hreturned i).mp hi
    rw [List.getElem?_map, Option.map_eq_some_iff] at hinfo
    obtain ⟨off, hoff, rfl⟩ := hinfo
    rw [Nat.zero_add]
    use off, hoff
    apply h off (List.mem_of_getElem? hoff) hstarts

end Table

/-- A boot processor with the APIC ID 0. -/
def bootApic : Apic where
  id := 0
  x2apicMode := false
  icr := 0

/-- A MADT with the LAPICs 0 and 1, the second disabled. -/
def secondDisabled : Madt :=
  Madt.ofBytes [0, 8, 0, 0, 1, 0, 0, 0, 0, 8, 1, 1, 0, 0, 0, 0] (by decide)

/-- `smp_init` waits for the disabled processor. -/
theorem not_onlyUsable_secondDisabled :
  ¬ OnlyUsable bootApic secondDisabled
  := by
  intro h
  have henabled : Enabled secondDisabled 8 := h.enabled (by decide) (by decide)
  revert henabled
  decide

end Startup
