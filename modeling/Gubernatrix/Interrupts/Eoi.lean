import Gubernatrix.Types
import Gubernatrix.Lib.LocalApic
import Mathlib.Tactic.IntervalCases

/-!
# The end of interrupts

`apic_init` and `interrupt_sendeoi` with the local APIC of a core. Interrupts arrive and are
delivered in any order, on top of what the core runs, among them interrupts that do not come from
the local APIC, and exceptions. `in_service_of_run` says that what is in service is what the core
runs a handler for.
-/

namespace Apic

open LocalApic

abbrev U32 := BitVec 32

/-- `APIC_ID`. -/
def apicId : U32 := 0x20

/-- `APIC_TPR`. -/
def apicTpr : U32 := 0x80

/-- `APIC_EOI`. -/
def apicEoi : U32 := 0xb0

/-- `APIC_DFR`. -/
def apicDfr : U32 := 0xe0

/-- `APIC_SVR`. -/
def apicSvr : U32 := 0xf0

/-- `APIC_ISR`. -/
def apicIsr : U32 := 0x100

/-- `IA32_APIC_BASE`. -/
def ia32ApicBase : U32 := 0x1b

/-- `tls_apic_t`, where `base_addr` is the address of the registers. -/
structure TlsApic where
  id : U32
  x2apicMode : Bool

/-- `apic_read`. -/
def apicRead (x2apicMode : Bool) (l : Lapic) (off : U32) : Option U64 :=
  if x2apicMode then l.rdmsr (0x800 + off / 16) else l.load (off / 4).toNat

/-- `apic_write`. The constant `~0xffffffff` has 32 bits, all of them 0. -/
def apicWrite (x2apicMode : Bool) (l : Lapic) (off : U32) (val : U64) : Option Lapic :=
  if x2apicMode then
    if off = apicEoi then l.wrmsr (0x800 + off / 16) val
    else
      (l.rdmsr (0x800 + off / 16)).bind fun tmpVal =>
        l.wrmsr (0x800 + off / 16) (tmpVal &&& (~~~0xffffffff#32).setWidth 64 ||| val)
  else l.store (off / 4).toNat (val.setWidth 32)

/-- `apic_init`, where `x2apicSup` is what `get_cpuid` says. -/
def apicInit (x2apicSup : Bool) (l : Lapic) : Option (TlsApic × Lapic) := do
  let apicBaseReg ← l.rdmsr ia32ApicBase
  let apicBaseReg := apicBaseReg ||| 1#64 <<< 11
  let apicBaseReg := if x2apicSup then apicBaseReg ||| 1#64 <<< 10 else apicBaseReg
  let l ← (if x2apicSup then some l else apicWrite x2apicSup l apicDfr 0xf0000000)
  let l ← l.wrmsr ia32ApicBase apicBaseReg
  let id ← apicRead x2apicSup l apicId
  let id : U32 := id.setWidth 32
  let id := if x2apicSup then id else id >>> 24
  let l ← apicWrite x2apicSup l apicTpr 0
  let l ← apicWrite x2apicSup l apicSvr (1#64 <<< 8 ||| 0xff)
  some ({ id := id, x2apicMode := x2apicSup }, l)

/-- `interrupt_sendeoi`. -/
def interruptSendeoi (apic : TlsApic) (l : Lapic) (irq : U32) : Option Lapic :=
  let byteOff := irq / 32 * 16
  let bitOff := irq % 32
  (apicRead apic.x2apicMode l (apicIsr + byteOff)).bind fun isr =>
    if isr &&& (1#32 <<< bitOff).signExtend 64 ≠ 0 then apicWrite apic.x2apicMode l apicEoi 0
    else some l

/-! ### Registers -/

section Registers

variable {n : ℕ}

/-- The address of a register in x2APIC mode. -/
theorem msr_addr (hn : n < 0x100) :
  (0x800 + BitVec.ofNat 32 (16 * n) / 16 : U32) ≠ 0x1b
    ∧ (0x800 + BitVec.ofNat 32 (16 * n) / 16 - 0x800 : U32).toNat = n
  := by
  have hoff : BitVec.ofNat 32 (16 * n) / 16 = BitVec.ofNat 32 n := by
    apply BitVec.eq_of_toNat_eq
    rw [BitVec.toNat_udiv, BitVec.toNat_ofNat, BitVec.toNat_ofNat,
      show (16 : U32).toNat = 16 from rfl]
    omega
  have haddr : (0x800 + BitVec.ofNat 32 n - 0x800).toNat = n := by
    rw [BitVec.add_comm, BitVec.add_sub_cancel, BitVec.toNat_ofNat]
    omega
  rw [hoff]
  refine ⟨?_, haddr⟩
  intro heq
  rw [heq] at haddr
  change 4294965275 = n at haddr
  omega

/-- The index of a register in xAPIC mode. -/
theorem mmio_index (hn : n < 0x100) :
  (BitVec.ofNat 32 (16 * n) / 4 : U32).toNat = 4 * n
  := by
  rw [BitVec.toNat_udiv, BitVec.toNat_ofNat, show (4 : U32).toNat = 4 from rfl]
  omega

variable {l : Lapic}

/-- In both modes the offset names the register that is read. -/
theorem apicRead_eq (henabled : l.enabled = true) (hn : n < 0x100) :
  apicRead l.x2apic l (BitVec.ofNat 32 (16 * n)) = (l.get n).map (·.setWidth 64)
  := by
  obtain ⟨hne, haddr⟩ := msr_addr hn
  rw [apicRead]
  cases hmode : l.x2apic with
  | true =>
      rw [if_pos rfl, Lapic.rdmsr, if_neg hne, henabled, hmode, haddr]
      rfl
  | false =>
      rw [if_neg Bool.false_ne_true, mmio_index hn, Lapic.load, henabled, hmode,
        Nat.mul_mod_right, Nat.mul_div_cancel_left _ (by decide)]
      rfl

/-- In both modes the offset names the register that is written. A register is read first, but for
the one that cannot be read. -/
theorem apicWrite_eq (henabled : l.enabled = true) (hn : n < 0x100)
    (hget : n ≠ 0xb → (l.get n).isSome) (val : U64) (hval : val >>> 32 = 0) :
  apicWrite l.x2apic l (BitVec.ofNat 32 (16 * n)) val = l.set n (val.setWidth 32)
  := by
  obtain ⟨hne, haddr⟩ := msr_addr hn
  rw [apicWrite]
  cases hmode : l.x2apic with
  | true =>
      have hwrmsr : l.wrmsr (0x800 + BitVec.ofNat 32 (16 * n) / 16) val
          = l.set n (val.setWidth 32) := by
        rw [Lapic.wrmsr, if_neg hne, henabled, hmode, hval, haddr]
        rfl
      rw [if_pos rfl]
      split
      next => exact hwrmsr
      next hoff =>
        have hread : n ≠ 0xb := by
          rintro rfl
          exact hoff rfl
        obtain ⟨x, hx⟩ := Option.isSome_iff_exists.mp (hget hread)
        have hmask : (~~~0xffffffff#32 : U32).setWidth 64 = (0 : U64) := by decide
        rw [Lapic.rdmsr, if_neg hne, henabled, hmode, haddr, hx, hmask]
        simpa using hwrmsr
  | false =>
      rw [if_neg Bool.false_ne_true, mmio_index hn, Lapic.store, henabled, hmode,
        Nat.mul_mod_right, Nat.mul_div_cancel_left _ (by decide)]
      rfl

end Registers

/-- A local APIC that `apic_init` has set up. -/
structure Ready (apic : TlsApic) (l : Lapic) : Prop where
  enabled : l.enabled = true
  mode : apic.x2apicMode = l.x2apic
  tpr : l.tpr = 0
  svr : l.svr.getLsbD 8 = true

/-- The mode bits that `apic_init` writes. -/
theorem baseReg_bits (base : U64) (x2apicSup : Bool) :
  ∃ base' : U64, base' = (if x2apicSup then base ||| 1#64 <<< 11 ||| 1#64 <<< 10
      else base ||| 1#64 <<< 11)
    ∧ base'.getLsbD 11 = true ∧ base'.getLsbD 10 = (x2apicSup || base.getLsbD 10)
  := by
  refine ⟨_, rfl, ?_⟩
  cases x2apicSup with
  | true => simp
  | false => simp

/-- `apic_init` sets the local APIC up in the mode that the processor has. -/
theorem apicInit_eq {x2apicSup : Bool} {l : Lapic} (henabled : l.enabled = true)
    (hmode : l.x2apic = true → x2apicSup = true) :
  ∃ apic l', apicInit x2apicSup l = some (apic, l') ∧ Ready apic l' ∧ l'.irr = l.irr
    ∧ l'.isr = l.isr
  := by
  -- the write to the destination format register
  obtain ⟨l₀, hdfr, hbase₀, hirr₀, hisr₀⟩ : ∃ l₀,
      (if x2apicSup then some l else apicWrite x2apicSup l apicDfr 0xf0000000) = some l₀
      ∧ l₀.base = l.base ∧ l₀.irr = l.irr ∧ l₀.isr = l.isr := by
    cases x2apicSup with
    | true => exact ⟨l, rfl, rfl, rfl, rfl⟩
    | false =>
        have hxapic : l.x2apic = false := by
          rw [← Bool.not_eq_true]
          exact fun h => Bool.false_ne_true (hmode h)
        have hwrite := apicWrite_eq henabled (n := 0xe) (by decide)
          (fun _ => by simp [Lapic.get, hxapic]) 0xf0000000 (by decide)
        rw [hxapic, Lapic.set] at hwrite
        simp only [hxapic] at hwrite
        exact ⟨_, hwrite, rfl, rfl, rfl⟩
  obtain ⟨base, hbase, h11, h10⟩ := baseReg_bits l.base x2apicSup
  have hlegal : Lapic.Legal l₀.base base := by
    rw [hbase₀]
    refine ⟨fun _ => ⟨h11, henabled⟩, fun hold hnew => ?_⟩
    rw [h10, hold, Bool.or_true] at hnew
    cases hnew
  -- from here on the mode is the one of the processor
  obtain ⟨l₁, hl₁⟩ : ∃ l₁, l₁ = { l₀ with base := base } := ⟨_, rfl⟩
  have henabled₁ : l₁.enabled = true := by
    rw [hl₁]
    exact h11
  have hmode₁ : l₁.x2apic = x2apicSup := by
    rw [hl₁]
    change base.getLsbD 10 = _
    rw [h10]
    cases hx : l.base.getLsbD 10 with
    | true => rw [hmode hx, Bool.true_or]
    | false => rw [Bool.or_false]
  obtain ⟨id, hid⟩ : ∃ id, l₁.get 0x2 = some id := ⟨_, rfl⟩
  have hread := apicRead_eq henabled₁ (n := 0x2) (by decide)
  have htpr := apicWrite_eq henabled₁ (n := 0x8) (by decide) (fun _ => rfl) 0 (by decide)
  have hsvr := apicWrite_eq (l := { l₁ with tpr := 0 }) henabled₁ (n := 0xf) (by decide)
    (fun _ => rfl) (1#64 <<< 8 ||| 0xff) (by decide)
  rw [hmode₁, hid] at hread
  rw [hmode₁] at htpr
  rw [show Lapic.x2apic { l₁ with tpr := 0 } = x2apicSup from hmode₁] at hsvr
  have hmsr : l.rdmsr ia32ApicBase = some l.base := rfl
  have hwrmsr : l₀.wrmsr ia32ApicBase base = some l₁ := by
    rw [Lapic.wrmsr, if_pos (show ia32ApicBase = 0x1b from rfl), if_pos hlegal, hl₁]
  have hbit : ((1#64 <<< 8 ||| 0xff).setWidth 32 : U32).getLsbD 8 = true := by decide
  refine ⟨⟨if x2apicSup then (id.setWidth 64).setWidth 32 else (id.setWidth 64).setWidth 32 >>> 24,
    x2apicSup⟩, { l₁ with tpr := 0, svr := (1#64 <<< 8 ||| 0xff).setWidth 32 }, ?_,
    ⟨henabled₁, hmode₁.symm, rfl, hbit⟩, ?_, ?_⟩
  · rw [apicInit, hmsr]
    simp only [Option.bind_eq_bind, Option.bind_some, ← hbase, hdfr, hwrmsr]
    rw [show apicRead x2apicSup l₁ apicId = some (id.setWidth 64) from hread, Option.bind_some,
      show apicWrite x2apicSup l₁ apicTpr 0 = some { l₁ with tpr := 0 } from htpr,
      Option.bind_some]
    exact congrArg (Option.bind · _) hsvr
  · rw [hl₁]
    exact hirr₀
  · rw [hl₁]
    exact hisr₀

/-- The bit of a register that is tested. -/
theorem bit_test {i : ℕ} (hi : i < 32) (r : U32) :
  r.setWidth 64 &&& (1#32 <<< BitVec.ofNat 32 i).signExtend 64 ≠ (0 : U64) ↔ r.getLsbD i = true
  := by
  have hbit : ∀ j, (r.setWidth 64 &&& (1#32 <<< BitVec.ofNat 32 i).signExtend 64 : U64).getLsbD j
      = (decide (j = i) && r.getLsbD j) := by
    intro j
    rw [BitVec.getLsbD_and, BitVec.getLsbD_setWidth, BitVec.getLsbD_signExtend]
    by_cases hj : j < 32
    · have h64 : j < 64 := by omega
      have hmod : (BitVec.ofNat 32 i).toNat = i := by
        rw [BitVec.toNat_ofNat]
        omega
      rw [BitVec.shiftLeft_eq', hmod, BitVec.getLsbD_shiftLeft, BitVec.getLsbD_one]
      simp [hj, h64]
      grind
    · -- the sign reaches only into bits that the register does not have
      rw [BitVec.getLsbD_of_ge r j (by omega)]
      simp
  constructor
  · intro hne
    by_contra hclear
    apply hne
    apply BitVec.eq_of_getLsbD_eq
    intro j _
    rw [hbit, show (0 : U64).getLsbD j = false from BitVec.getLsbD_zero]
    by_cases hj : j = i
    · rw [hj, Bool.eq_false_of_not_eq_true hclear, Bool.and_false]
    · rw [decide_eq_false hj, Bool.false_and]
  · intro hset heq
    have htest := hbit i
    rw [heq, hset] at htest
    simp at htest

/-- The EOI register is written when the interrupt is in service. -/
theorem interruptSendeoi_eq {apic : TlsApic} {l : Lapic} (h : Ready apic l) (v : Vec) :
  interruptSendeoi apic l (BitVec.ofNat 32 v) = some (if l.isr.has v then l.eoi else l)
  := by
  have hv := v.isLt
  have hoff : apicIsr + BitVec.ofNat 32 v / 32 * 16 = BitVec.ofNat 32 (16 * (0x10 + v / 32)) := by
    apply BitVec.eq_of_toNat_eq
    rw [BitVec.toNat_add, BitVec.toNat_mul, BitVec.toNat_udiv, BitVec.toNat_ofNat,
      BitVec.toNat_ofNat, show apicIsr.toNat = 0x100 from rfl,
      show (32 : U32).toNat = 32 from rfl, show (16 : U32).toNat = 16 from rfl]
    omega
  have hbit : BitVec.ofNat 32 v % 32 = BitVec.ofNat 32 (v % 32) := by
    apply BitVec.eq_of_toNat_eq
    rw [BitVec.toNat_umod, BitVec.toNat_ofNat, BitVec.toNat_ofNat,
      show (32 : U32).toNat = 32 from rfl]
    omega
  have hget : l.get (0x10 + v / 32) = some (l.isr.register (v / 32)) := by
    have hk : v.val / 32 < 8 := by omega
    generalize v.val / 32 = k at hk
    interval_cases k <;> rfl
  have htest := bit_test (Nat.mod_lt v.val (by decide : 32 > 0)) (l.isr.register (v / 32))
  rw [VecSet.getLsbD_register (Nat.mod_lt _ (by decide)) (Nat.div_add_mod v.val 32).symm] at htest
  have heoi : apicWrite apic.x2apicMode l apicEoi 0 = some l.eoi := by
    rw [h.mode]
    refine (apicWrite_eq h.enabled (n := 0xb) (by decide) (fun hne => absurd rfl hne)
      0 (by decide)).trans ?_
    simp [Lapic.set]
  rw [interruptSendeoi]
  simp only [hoff, hbit]
  rw [h.mode, apicRead_eq h.enabled (by omega), hget, Option.map_some, Option.bind_some, ← h.mode,
    heoi]
  by_cases hhas : l.isr.has v = true
  · rw [if_pos (htest.mpr hhas), if_pos hhas]
  · rw [if_neg (fun hne => hhas (htest.mp hne)), if_neg hhas]

/-! ### Handlers on top of each other -/

/-- Where an interrupt comes from: the local APIC, elsewhere, as from the legacy PIC or as a
spurious interrupt, or the processor itself. -/
inductive Cause where
  | lapic
  | outside
  | exception
deriving DecidableEq

/-- `idt_mainhandler` at work. -/
structure Activation where
  v : Vec
  cause : Cause
deriving DecidableEq

/-- A core, with what it runs `idt_mainhandler` for, the last first. -/
structure Core where
  apic : TlsApic
  lapic : Lapic
  stack : List Activation

/-- What happens next: an interrupt arrives at the local APIC, the local APIC delivers one, another
one is taken, or the last `idt_mainhandler` comes to its end. -/
inductive Event where
  | arrive (v : Vec)
  | deliver
  | outside (v : Vec)
  | exception (v : Vec)
  | finish

/-- The local APIC delivers what it can. -/
def Core.deliver (c : Core) : Core :=
  c.lapic.deliverable.elim c fun v =>
    { c with lapic := c.lapic.deliver v, stack := ⟨v, .lapic⟩ :: c.stack }

/-- The end of `idt_mainhandler`. -/
def Core.finish (c : Core) : Option Core :=
  match c.stack with
  | [] => some c
  | a :: stack =>
      if 32 ≤ a.v then
        (interruptSendeoi c.apic c.lapic (BitVec.ofNat 32 a.v)).map fun l =>
          { c with lapic := l, stack := stack }
      else some { c with stack := stack }

/-- The core after an event, or `none` after a general protection fault. -/
def step (c : Core) : Event → Option Core
  | .arrive v => some { c with lapic := c.lapic.accept v }
  | .deliver => some c.deliver
  | .outside v => some { c with stack := ⟨v, .outside⟩ :: c.stack }
  | .exception v => some { c with stack := ⟨v, .exception⟩ :: c.stack }
  | .finish => c.finish

/-- The core after a run. -/
def run : List Event → Core → Option Core
  | [], c => some c
  | e :: es, c => (step c e).bind (run es)

/-- The core after `apic_init`. -/
def boot (x2apicSup : Bool) (l : Lapic) : Option Core :=
  (apicInit x2apicSup l).map fun x => { apic := x.1, lapic := x.2, stack := [] }

/-- The vectors of the local APIC are those of `interrupt_allocate`, and what is taken from
elsewhere has another one. -/
def Event.Proper (c : Core) : Event → Prop
  | .arrive v => 32 ≤ v
  | .outside v => c.lapic.isr.has v = false
  | .exception v => v < 32
  | _ => True

/-- Every event of a run is proper. -/
def Proper : List Event → Core → Prop
  | [], _ => True
  | e :: es, c => e.Proper c ∧ ∀ c' ∈ step c e, Proper es c'

/-- The vectors of the local APIC that the core runs `idt_mainhandler` for. -/
def inService : List Activation → List Vec
  | [] => []
  | a :: stack => if a.cause = .lapic then a.v :: inService stack else inService stack

/-- What came from elsewhere has a vector that is not in service below, and an exception has one
that is not ended. -/
def Apart : List Activation → Prop
  | [] => True
  | a :: stack => (a.cause = .outside → a.v ∉ inService stack)
      ∧ (a.cause = .exception → a.v < 32) ∧ Apart stack

/-- What is in service is what the core runs `idt_mainhandler` for, each with a priority class above
the ones below. -/
structure Inv (c : Core) : Prop where
  ready : Ready c.apic c.lapic
  isr : ∀ v, c.lapic.isr.has v = true ↔ v ∈ inService c.stack
  sorted : (inService c.stack).Pairwise fun v w => priority w < priority v
  high : ∀ v, c.lapic.irr.has v = true ∨ c.lapic.isr.has v = true → 32 ≤ v
  apart : Apart c.stack

theorem mem_inService {stack : List Activation} {v : Vec} :
  v ∈ inService stack ↔ ⟨v, .lapic⟩ ∈ stack
  := by
  induction stack with
  | nil => simp [inService]
  | cons a stack ih =>
      obtain ⟨w, cause⟩ := a
      rw [inService]
      split
      next h =>
        subst h
        simp [ih]
      next h =>
        rw [ih, List.mem_cons]
        constructor
        · exact .inr
        · rintro (heq | hmem)
          · exact absurd (Activation.mk.inj heq).2.symm h
          · exact hmem

section Step

variable {c c' : Core}

theorem Inv.arrive (h : Inv c) {v : Vec} (hv : 32 ≤ v) :
  Inv { c with lapic := c.lapic.accept v }
  := by
  have haccept : c.lapic.accept v = { c.lapic with irr := c.lapic.irr.insert v } := by
    rw [Lapic.accept, h.ready.enabled, h.ready.svr]
    rfl
  rw [haccept]
  refine ⟨⟨h.ready.enabled, h.ready.mode, h.ready.tpr, h.ready.svr⟩, h.isr, h.sorted, ?_, h.apart⟩
  intro w hw
  dsimp only at hw
  rw [VecSet.has_insert, Bool.or_eq_true, decide_eq_true_eq] at hw
  rcases hw with (rfl | hirr) | hisr
  · exact hv
  · exact h.high w (.inl hirr)
  · exact h.high w (.inr hisr)

/-- The local APIC delivers only above what is in service. -/
theorem Inv.deliver (h : Inv c) :
  Inv c.deliver
  := by
  cases hv : c.lapic.deliverable with
  | none => rwa [Core.deliver, hv, Option.elim_none]
  | some v =>
      rw [Core.deliver, hv, Option.elim_some]
      obtain ⟨hirr, habove⟩ := Lapic.deliverable_spec hv
      refine ⟨⟨h.ready.enabled, h.ready.mode, h.ready.tpr, h.ready.svr⟩, ?_, ?_, ?_, ?_⟩
      · intro w
        rw [Lapic.deliver, VecSet.has_insert, Bool.or_eq_true, decide_eq_true_eq, h.isr w,
          inService, if_pos rfl, List.mem_cons]
      · rw [inService, if_pos rfl, List.pairwise_cons]
        exact ⟨fun w hw => habove w ((h.isr w).mpr hw), h.sorted⟩
      · intro w hw
        rw [Lapic.deliver, VecSet.has_insert, VecSet.has_erase, Bool.and_eq_true,
          Bool.or_eq_true, decide_eq_true_eq, decide_eq_true_eq] at hw
        rcases hw with ⟨-, hw⟩ | rfl | hw
        · exact h.high w (.inl hw)
        · exact h.high w (.inl hirr)
        · exact h.high w (.inr hw)
      · refine ⟨?_, ?_, h.apart⟩
        · intro hcause
          cases hcause
        · intro hcause
          cases hcause

/-- What does not come from the local APIC leaves it. -/
theorem Inv.push (h : Inv c) {v : Vec} {cause : Cause} (hcause : cause ≠ .lapic)
    (houtside : cause = .outside → c.lapic.isr.has v = false)
    (hexception : cause = .exception → v < 32) :
  Inv { c with stack := ⟨v, cause⟩ :: c.stack }
  := by
  have hservice : inService (⟨v, cause⟩ :: c.stack) = inService c.stack := if_neg hcause
  refine ⟨h.ready, ?_, ?_, h.high, ?_, hexception, h.apart⟩
  · intro w
    rw [hservice]
    exact h.isr w
  · rw [hservice]
    exact h.sorted
  · intro heq hmem
    rw [← h.isr, houtside heq] at hmem
    cases hmem

/-- The last handler comes to its end with the local APIC as it was. -/
theorem Inv.pop (h : Inv c) {a : Activation} {stack : List Activation}
    (hstack : c.stack = a :: stack) (hcause : a.cause ≠ .lapic) :
  Inv { c with stack := stack }
  := by
  have hservice : inService c.stack = inService stack := by
    rw [hstack]
    exact if_neg hcause
  have hapart := h.apart
  rw [hstack] at hapart
  refine ⟨h.ready, ?_, ?_, h.high, hapart.2.2⟩
  · rw [← hservice]
    exact h.isr
  · rw [← hservice]
    exact h.sorted

/-- A handler that comes to its end takes its own vector out of service, and no other. -/
theorem Inv.finish (h : Inv c) :
  ∃ c', c.finish = some c' ∧ Inv c'
  := by
  cases hstack : c.stack with
  | nil => exact ⟨c, by rw [Core.finish, hstack], h⟩
  | cons a stack =>
      have hsend := interruptSendeoi_eq h.ready a.v
      by_cases hcause : a.cause = .lapic
      · -- the vector is the highest one in service
        have hservice : inService c.stack = a.v :: inService stack := by
          rw [hstack]
          exact if_pos hcause
        have hsorted := h.sorted
        rw [hservice, List.pairwise_cons] at hsorted
        have hisr := h.isr
        rw [hservice] at hisr
        have hv : c.lapic.isr.has a.v = true := (hisr a.v).mpr List.mem_cons_self
        have heoi := Lapic.eoi_eq hv fun w hw => (List.mem_cons.mp ((hisr w).mp hw)).imp_right
          (hsorted.1 w)
        rw [if_pos hv, heoi] at hsend
        refine ⟨{ c with lapic := { c.lapic with isr := c.lapic.isr.erase a.v }, stack := stack },
          ?_, ⟨h.ready.enabled, h.ready.mode, h.ready.tpr, h.ready.svr⟩, ?_, hsorted.2, ?_, ?_⟩
        · rw [Core.finish, hstack]
          dsimp only
          rw [if_pos (h.high a.v (.inr hv)), hsend]
          rfl
        · intro w
          dsimp only
          rw [VecSet.has_erase, Bool.and_eq_true, decide_eq_true_eq, hisr w, List.mem_cons]
          constructor
          · rintro ⟨hne, heq | hmem⟩
            · exact absurd heq hne
            · exact hmem
          · intro hmem
            refine ⟨?_, .inr hmem⟩
            rintro rfl
            exact lt_irrefl _ (hsorted.1 a.v hmem)
        · intro w hw
          dsimp only at hw
          rw [VecSet.has_erase, Bool.and_eq_true] at hw
          exact h.high w (hw.imp_right And.right)
        · have hapart := h.apart
          rw [hstack] at hapart
          exact hapart.2.2
      · -- nothing with the vector is in service
        refine ⟨{ c with stack := stack }, ?_, h.pop hstack hcause⟩
        rw [Core.finish, hstack]
        dsimp only
        split
        next hge =>
          have hv : c.lapic.isr.has a.v ≠ true := by
            intro hv
            have hmem := (h.isr a.v).mp hv
            have hapart := h.apart
            rw [hstack] at hmem hapart
            rw [inService, if_neg hcause] at hmem
            cases hcase : a.cause with
            | lapic => exact hcause hcase
            | outside => exact hapart.1 hcase hmem
            | exception => exact absurd (hapart.2.1 hcase) (not_lt.mpr hge)
          rw [hsend, if_neg hv]
          rfl
        next => rfl

/-- Every event keeps the invariant. -/
theorem Inv.step (h : Inv c) {e : Event} (he : e.Proper c) :
  ∃ c', Apic.step c e = some c' ∧ Inv c'
  := by
  cases e with
  | arrive v => exact ⟨_, rfl, h.arrive he⟩
  | deliver => exact ⟨_, rfl, h.deliver⟩
  | outside v => exact ⟨_, rfl, h.push (by decide) (fun _ => he) (fun hcause => nomatch hcause)⟩
  | exception v => exact ⟨_, rfl, h.push (by decide) (fun hcause => nomatch hcause) (fun _ => he)⟩
  | finish => exact h.finish

/-- Every run keeps the invariant. -/
theorem Inv.run (h : Inv c) {es : List Event} (hes : Proper es c) :
  ∃ c', Apic.run es c = some c' ∧ Inv c'
  := by
  induction es generalizing c with
  | nil => exact ⟨c, rfl, h⟩
  | cons e es ih =>
      obtain ⟨c₁, hstep, hinv⟩ := h.step hes.1
      obtain ⟨c', hrun, hinv'⟩ := ih hinv (hes.2 c₁ hstep)
      refine ⟨c', ?_, hinv'⟩
      rw [Apic.run, hstep]
      exact hrun

end Step

/-- In both modes, whatever comes on top of what, no access to the local APIC faults, what is in
service is what the core runs `idt_mainhandler` for, and when it runs none for the local APIC then
nothing that waits is held back. -/
theorem in_service_of_run {x2apicSup : Bool} {l : Lapic} (henabled : l.enabled = true)
    (hmode : l.x2apic = true → x2apicSup = true) (hirr : l.irr = 0) (hisr : l.isr = 0)
    {es : List Event} (hes : ∀ c ∈ boot x2apicSup l, Proper es c) :
  ∃ c, (boot x2apicSup l).bind (run es) = some c
    ∧ (∀ v, c.lapic.isr.has v = true ↔ ⟨v, .lapic⟩ ∈ c.stack)
    ∧ ((∀ v, ⟨v, .lapic⟩ ∉ c.stack) → ∀ v, c.lapic.irr.has v = true →
      c.lapic.deliverable.isSome = true)
  := by
  obtain ⟨apic, l', hinit, hready, hirr', hisr'⟩ := apicInit_eq henabled hmode
  have hboot : boot x2apicSup l = some { apic := apic, lapic := l', stack := [] } := by
    rw [boot, hinit]
    rfl
  have hinv : Inv { apic := apic, lapic := l', stack := [] } := by
    refine ⟨hready, ?_, .nil, ?_, trivial⟩
    · intro v
      rw [hisr', hisr, VecSet.has_zero, inService]
      simp
    · intro v hv
      rw [hirr', hisr', hirr, hisr, VecSet.has_zero] at hv
      simp at hv
  obtain ⟨c, hrun, hend⟩ := hinv.run (hes _ hboot)
  refine ⟨c, ?_, ?_, ?_⟩
  · rw [hboot]
    exact hrun
  · intro v
    rw [hend.isr, mem_inService]
  · intro hnone v hv
    refine Lapic.deliverable_isSome hend.ready.tpr (fun w => ?_) hv
      (le_trans (by decide) (Fin.le_def.mp (hend.high v (.inl hv))))
    rw [← Bool.not_eq_true, hend.isr, mem_inService]
    exact hnone w

/-- A page fault in a handler that a more urgent interrupt has come on top of, in x2APIC mode. -/
theorem in_service_of_run_nested :
  let es : List Event := [.arrive 0x31, .deliver, .arrive 0x51, .deliver, .exception 0xe, .finish]
  let l : Lapic := ⟨0xfee00900, 0, 0x20, 0, 0xff, 0, 0, ⟨0x10000, 0, 0, 0, 0⟩⟩
  ∃ c, (boot true l).bind (run es) = some c
    ∧ (∀ v, c.lapic.isr.has v = true ↔ ⟨v, .lapic⟩ ∈ c.stack)
    ∧ ((∀ v, ⟨v, .lapic⟩ ∉ c.stack) → ∀ v, c.lapic.irr.has v = true →
      c.lapic.deliverable.isSome = true)
  := by
  intro es l
  exact in_service_of_run (by decide) (fun _ => rfl) rfl rfl
    (by simp [es, Proper, Event.Proper])

end Apic
