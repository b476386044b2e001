import Gubernatrix.Interrupts.Context
import Gubernatrix.Lib.Descriptors

/-!
# Segments and gates in memory

The tables that `gdt_init` and `idt_init` fill in, as they lie in memory, and the task state
segment, of which `interrupt_setstack` writes `rsp0`. `delivered_through_tables` says that the
processor that goes through these tables delivers every interrupt as `deliver` does with the gates
of `Kernel`.
-/

namespace Idt

open X86

/-- `GDT_ENTRY_COUNT`. -/
def gdtEntryCount : ℕ := 8

/-- `gdt_t`. -/
structure GdtT where
  limitLow : BitVec 16
  baseLow : BitVec 16
  baseMid : Byte
  access : Byte
  granularity : Byte
  baseHigh : Byte

/-- The first four bytes of the packed structure. -/
def GdtT.low (g : GdtT) : Dword := g.baseLow ++ g.limitLow

/-- The last four bytes of the packed structure. -/
def GdtT.high (g : GdtT) : Dword := g.baseHigh ++ g.granularity ++ g.access ++ g.baseMid

/-- `tss_struct_t`. -/
structure TssStruct where
  rsv0 : Dword
  rsp0 : Word
  rsp1 : Word
  rsp2 : Word
  rsv1 : Word
  ist1 : Word
  ist2 : Word
  ist3 : Word
  ist4 : Word
  ist5 : Word
  ist6 : Word
  ist7 : Word
  rsv2 : Word
  rsv3 : BitVec 16
  iomap : BitVec 16

/-- A word in two double words. -/
def wordDwords (w : Word) : List Dword := [w.extractLsb' 0 32, w.extractLsb' 32 32]

/-- The packed structure. -/
def TssStruct.dwords (t : TssStruct) : List Dword :=
  [t.rsv0] ++ wordDwords t.rsp0 ++ wordDwords t.rsp1 ++ wordDwords t.rsp2 ++ wordDwords t.rsv1
    ++ wordDwords t.ist1 ++ wordDwords t.ist2 ++ wordDwords t.ist3 ++ wordDwords t.ist4
    ++ wordDwords t.ist5 ++ wordDwords t.ist6 ++ wordDwords t.ist7 ++ wordDwords t.rsv2
    ++ [t.iomap ++ t.rsv3]

theorem TssStruct.length_dwords (t : TssStruct) :
  t.dwords.length = 26
  := by
  simp [TssStruct.dwords, wordDwords]

/-- `sizeof(tss_struct_t)`. -/
def sizeofTssStruct : Dword := 104

/-- `gdt_setentry`. -/
def gdtSetentry (gdt : GdtT) (base limit : Dword) (access gran : Byte) : GdtT :=
  let gdt := { gdt with baseLow := (base &&& 0xffff).setWidth 16 }
  let gdt := { gdt with baseMid := (base >>> 16 &&& 0xff).setWidth 8 }
  let gdt := { gdt with baseHigh := (base >>> 24 &&& 0xff).setWidth 8 }
  let gdt := { gdt with limitLow := (limit &&& 0xffff).setWidth 16 }
  let gdt := { gdt with granularity := (limit >>> 16 &&& 0x0f).setWidth 8 }
  let gdt := { gdt with granularity := gdt.granularity ||| (gran &&& 0xf0) }
  { gdt with access := access }

/-- `gdt_settss`. -/
def gdtSettss (gdtLcl : ℕ → GdtT) (num : ℕ) (base : Word) (limit : Dword) (access : Byte) :
    ℕ → GdtT :=
  let gdtLcl := Function.update gdtLcl num
    (gdtSetentry (gdtLcl num) (base.setWidth 32) limit access 0)
  let gdtLcl := Function.update gdtLcl (num + 1) (gdtSetentry (gdtLcl (num + 1)) 0 0 0 0)
  let gdtLcl := Function.update gdtLcl (num + 1)
    { gdtLcl (num + 1) with limitLow := (base >>> 32).setWidth 16 }
  Function.update gdtLcl (num + 1)
    { gdtLcl (num + 1) with baseLow := (base >>> (32 + 16)).setWidth 16 }

/-- The table that `gdt_init` fills in, with the address of the task state segment. -/
def gdtInit (gdtLcl : ℕ → GdtT) (tss : Word) : ℕ → GdtT :=
  let gdtLcl := Function.update gdtLcl 0 (gdtSetentry (gdtLcl 0) 0 0 0 0)
  let gdtLcl := Function.update gdtLcl 1 (gdtSetentry (gdtLcl 1) 0 0xffffffff 0x9b 0xa0)
  let gdtLcl := Function.update gdtLcl 2 (gdtSetentry (gdtLcl 2) 0 0xffffffff 0x93 0x00)
  let gdtLcl := Function.update gdtLcl 3 (gdtSetentry (gdtLcl 3) 0 0xffffffff 0xfb 0xd0)
  let gdtLcl := Function.update gdtLcl 4 (gdtSetentry (gdtLcl 4) 0 0xffffffff 0xf3 0x00)
  let gdtLcl := Function.update gdtLcl 5 (gdtSetentry (gdtLcl 5) 0 0xffffffff 0xfb 0xa0)
  gdtSettss gdtLcl 6 tss sizeofTssStruct 0xe9

/-- The register that `gdt_init` loads. -/
def gdtr (gdtLcl : Word) : TableReg where
  limit := BitVec.ofNat 16 (8 * gdtEntryCount - 1)
  base := gdtLcl

/-- The selector that `gdt_init` loads the task register with. -/
def tssSelector : BitVec 16 := 0x33

/-- `interrupt_setstack`. -/
def interruptSetstack (tss : TssStruct) (stack : Word) : TssStruct := { tss with rsp0 := stack }

/-- `IDT_ENTRY_COUNT`. -/
def idtEntryCount : ℕ := 256

/-- `idt_t`. -/
structure IdtT where
  offset0 : BitVec 16
  segSelect : BitVec 16
  ist : BitVec 3
  zr0 : BitVec 5
  type : BitVec 4
  zr1 : BitVec 1
  dpl : BitVec 2
  p : BitVec 1
  offset1 : BitVec 16
  offset2 : BitVec 32
  zr2 : BitVec 32

/-- The second double word of an entry. -/
def IdtT.options (e : IdtT) : Dword :=
  e.offset1 ++ e.p ++ e.dpl ++ e.zr1 ++ e.type ++ e.zr0 ++ e.ist

/-- The fields, in the order of the structure. -/
def IdtT.dwords (e : IdtT) : List Dword :=
  [e.segSelect ++ e.offset0, e.options, e.offset2, e.zr2]

/-- The entry that `idt_init` fills in at the index `i`. -/
def Kernel.idtLcl (k : Kernel) (i : Byte) : IdtT where
  offset0 := (k.handlerAddr i &&& 0xffff).setWidth 16
  offset1 := (k.handlerAddr i >>> 16 &&& 0xffff).setWidth 16
  offset2 := (k.handlerAddr i >>> 32 &&& 0xffffffff).setWidth 32
  segSelect := 0x08
  type := idtTypeIntr
  p := 1
  dpl := 0
  ist := 0
  zr0 := 0
  zr1 := 0
  zr2 := 0

/-- The register that `idt_init` loads. -/
def idtr (idtLcl : Word) : TableReg where
  limit := BitVec.ofNat 16 (16 * idtEntryCount - 1)
  base := idtLcl

/-! ### Descriptors -/

section Setentry

variable (gdt : GdtT) (base limit : Dword) (access gran : Byte)

/-- The processor takes apart what `gdt_setentry` puts together. -/
theorem ofDwords_setentry :
  Descriptor.ofDwords (gdtSetentry gdt base limit access gran).low
      (gdtSetentry gdt base limit access gran).high
    = { base := base
        limit := limit.extractLsb' 0 20
        type := access.extractLsb' 0 4
        segment := access.getLsbD 4
        dpl := access.extractLsb' 5 2
        present := access.getLsbD 7
        long := gran.getLsbD 5
        big := gran.getLsbD 6
        granular := gran.getLsbD 7 }
  := by
  rw [Descriptor.ofDwords]
  congr 1
  · apply BitVec.eq_of_getLsbD_eq
    intro i hi
    simp only [gdtSetentry, GdtT.low, GdtT.high, BitVec.getLsbD_append,
      BitVec.getLsbD_extractLsb', BitVec.getLsbD_and, BitVec.getLsbD_setWidth,
      BitVec.getLsbD_ushiftRight]
    interval_cases i <;> simp
  · apply BitVec.eq_of_getLsbD_eq
    intro i hi
    simp only [gdtSetentry, GdtT.low, GdtT.high, BitVec.getLsbD_append,
      BitVec.getLsbD_extractLsb', BitVec.getLsbD_or, BitVec.getLsbD_and,
      BitVec.getLsbD_setWidth, BitVec.getLsbD_ushiftRight]
    interval_cases i <;> simp
  · apply BitVec.eq_of_getLsbD_eq
    intro i hi
    simp only [gdtSetentry, GdtT.high, BitVec.getLsbD_append, BitVec.getLsbD_extractLsb']
    interval_cases i <;> simp
  · simp only [gdtSetentry, GdtT.high, BitVec.getLsbD_append]
    simp
  · apply BitVec.eq_of_getLsbD_eq
    intro i hi
    simp only [gdtSetentry, GdtT.high, BitVec.getLsbD_append, BitVec.getLsbD_extractLsb']
    interval_cases i <;> simp
  all_goals
    simp only [gdtSetentry, GdtT.high, BitVec.getLsbD_append, BitVec.getLsbD_or,
      BitVec.getLsbD_and, BitVec.getLsbD_setWidth, BitVec.getLsbD_ushiftRight]
    simp

/-- The address of a task state segment is in two entries. -/
theorem settss_base (gdtLcl : ℕ → GdtT) (num : ℕ) (base : Word) (limit : Dword) (access : Byte) :
  (gdtSettss gdtLcl num base limit access (num + 1)).low
      ++ (Descriptor.ofDwords (gdtSettss gdtLcl num base limit access num).low
        (gdtSettss gdtLcl num base limit access num).high).base = base
    ∧ (gdtSettss gdtLcl num base limit access (num + 1)).high = 0
  := by
  have hnum : gdtSettss gdtLcl num base limit access num
      = gdtSetentry (gdtLcl num) (base.setWidth 32) limit access 0 := by
    simp [gdtSettss]
  rw [hnum, ofDwords_setentry]
  constructor
  · apply BitVec.eq_of_getLsbD_eq
    intro i hi
    simp only [gdtSettss, Function.update_self, GdtT.low, BitVec.getLsbD_append,
      BitVec.getLsbD_setWidth, BitVec.getLsbD_ushiftRight]
    interval_cases i <;> simp
  · simp [gdtSettss, gdtSetentry, GdtT.high]

end Setentry

/-! ### The tables in memory -/

/-- The entry with the index `i` of the global descriptor table lies in memory. -/
def Entry (ram : Ram) (gdtLcl : Word) (i : ℕ) (e : GdtT) : Prop :=
  ram (gdtLcl + BitVec.ofNat 64 (8 * i)) = e.low
    ∧ ram (gdtLcl + BitVec.ofNat 64 (8 * i + 4)) = e.high

/-- The global descriptor table lies in memory. -/
def Table (ram : Ram) (gdtLcl : Word) (g : ℕ → GdtT) : Prop :=
  ∀ i < gdtEntryCount, Entry ram gdtLcl i (g i)

/-- The interrupt descriptor table lies in memory. -/
def Gates (ram : Ram) (idtLcl : Word) (k : Kernel) : Prop :=
  ∀ v : Byte, ram.Holds (idtLcl + 16 * v.setWidth 64) (k.idtLcl v).dwords

/-- The processor finds the entry that a selector names. -/
theorem descriptor_table {ram : Ram} {gdtLcl : Word} {i : ℕ} {e : GdtT}
    (h : Entry ram gdtLcl i e) {bytes : ℕ} {sel : BitVec 16}
    (hsel : sel.getLsbD 2 = false ∧ selOffset sel = BitVec.ofNat 64 (8 * i)) (hpos : 0 < i)
    (hlt : 8 * i + bytes ≤ 8 * gdtEntryCount) (hbytes : 0 < bytes) :
  descriptor ram (gdtr gdtLcl) bytes sel = some (.ofDwords e.low e.high)
  := by
  rw [gdtEntryCount] at hlt
  obtain ⟨hlow, hhigh⟩ := h
  have hoff : (selOffset sel).toNat = 8 * i := by
    rw [hsel.2, BitVec.toNat_ofNat]
    omega
  have hne : selOffset sel ≠ 0 := by
    intro hzero
    rw [hzero] at hoff
    change 0 = 8 * i at hoff
    omega
  have hlimit : (gdtr gdtLcl).limit.toNat + 1 = 64 := rfl
  rw [descriptor, if_pos ⟨hsel.1, hne, by rw [hoff, hlimit]; omega⟩, gdtr, hsel.2, hlow]
  rw [BitVec.add_assoc, show (4 : Word) = BitVec.ofNat 64 4 from rfl, ← BitVec.ofNat_add, hhigh]

/-- The processor takes apart an entry of an interrupt gate or of a trap gate. -/
theorem gateOf_dwords {e : IdtT} (hp : e.p = 1) (hzr1 : e.zr1 = 0)
    (htype : e.type.extractLsb' 1 3 = 7#3) :
  gateOf (e.segSelect ++ e.offset0) e.options e.offset2
    = some {
      offset0 := e.offset0, segSelect := e.segSelect, ist := e.ist, type := e.type
      offset1 := e.offset1, offset2 := e.offset2 }
  := by
  have hbit : ∀ i, e.options.getLsbD i =
      if i < 3 then e.ist.getLsbD i else if i - 3 < 5 then e.zr0.getLsbD (i - 3)
      else if i - 3 - 5 < 4 then e.type.getLsbD (i - 3 - 5)
      else if i - 3 - 5 - 4 < 1 then e.zr1.getLsbD (i - 3 - 5 - 4)
      else if i - 3 - 5 - 4 - 1 < 2 then e.dpl.getLsbD (i - 3 - 5 - 4 - 1)
      else if i - 3 - 5 - 4 - 1 - 2 < 1 then e.p.getLsbD (i - 3 - 5 - 4 - 1 - 2)
      else e.offset1.getLsbD (i - 3 - 5 - 4 - 1 - 2 - 1) := by
    intro i
    simp only [IdtT.options, BitVec.getLsbD_append]
  have hpresent : e.options.getLsbD 15 = true := by
    rw [hbit, hp]
    rfl
  have hsystem : e.options.getLsbD 12 = false := by
    rw [hbit, hzr1]
    rfl
  have hgate : e.options.extractLsb' 9 3 = 7#3 := by
    rw [← htype]
    apply BitVec.eq_of_getLsbD_eq
    intro i hi
    rw [BitVec.getLsbD_extractLsb', BitVec.getLsbD_extractLsb', hbit]
    interval_cases i <;> rfl
  rw [gateOf, if_pos ⟨hpresent, hsystem, hgate⟩, Option.some.injEq, Gate.mk.injEq]
  refine ⟨?_, ?_, ?_, ?_, ?_, rfl⟩
  all_goals
    apply BitVec.eq_of_getLsbD_eq
    intro i hi
    simp only [BitVec.getLsbD_extractLsb', hbit, BitVec.getLsbD_append]
    interval_cases i <;> simp

/-- The processor finds the gates of the kernel in the interrupt descriptor table. -/
theorem gateAt_gates {ram : Ram} {idtLcl : Word} {k : Kernel} (h : Gates ram idtLcl k) (v : Byte) :
  gateAt ram (idtr idtLcl) v = some (k.gate v)
  := by
  have hlimit : 16 * v.toNat + 16 ≤ (idtr idtLcl).limit.toNat + 1 := by
    have hv := v.isLt
    change _ ≤ 4096
    omega
  have h₀ : ram ((idtr idtLcl).base + 16 * v.setWidth 64)
      = (k.idtLcl v).segSelect ++ (k.idtLcl v).offset0 := by
    have := (h v).get 0 rfl
    rwa [Nat.mul_zero, BitVec.add_zero] at this
  have h₁ : ram ((idtr idtLcl).base + 16 * v.setWidth 64 + 4) = (k.idtLcl v).options :=
    (h v).get 1 rfl
  have h₂ : ram ((idtr idtLcl).base + 16 * v.setWidth 64 + 8) = (k.idtLcl v).offset2 :=
    (h v).get 2 rfl
  simp only [gateAt, if_pos hlimit, h₀, h₁, h₂]
  exact gateOf_dwords rfl rfl (show idtTypeIntr.extractLsb' 1 3 = 7#3 by decide)

/-! ### Delivery -/

section Delivery

variable {ram ram' : Ram} {gdtLcl tss : Word} {g : ℕ → GdtT}

/-- The segment of the gates is one of 64-bit code of privilege level 0. -/
theorem descriptor_code (h : Entry ram gdtLcl 1 (gdtInit g tss 1)) :
  ∃ d, descriptor ram (gdtr gdtLcl) 8 0x08 = some d ∧ (∀ cpl, d.Code cpl)
    ∧ ∀ cpl, d.newCpl cpl = 0
  := by
  have hentry : gdtInit g tss 1 = gdtSetentry (g 1) 0 0xffffffff 0x9b 0xa0 := by
    simp [gdtInit, gdtSettss]
  rw [hentry] at h
  refine ⟨_, descriptor_table h ⟨by decide, by decide⟩ (by decide) (by decide) (by decide), ?_, ?_⟩
  · intro cpl
    rw [ofDwords_setentry]
    exact ⟨rfl, rfl, rfl, rfl, rfl, BitVec.le_def.mpr (Nat.zero_le _)⟩
  · intro cpl
    rw [ofDwords_setentry]
    rfl

/-- The segment that `gdt_init` loads `ss` with is one of writable data of privilege level 0. -/
theorem descriptor_stack (h : Entry ram gdtLcl 2 (gdtInit g tss 2)) :
  ∃ d, descriptor ram (gdtr gdtLcl) 8 0x10 = some d ∧ d.Stack
  := by
  have hentry : gdtInit g tss 2 = gdtSetentry (g 2) 0 0xffffffff 0x93 0x00 := by
    simp [gdtInit, gdtSettss]
  rw [hentry] at h
  refine ⟨_, descriptor_table h ⟨by decide, by decide⟩ (by decide) (by decide) (by decide), ?_⟩
  rw [ofDwords_setentry]
  exact ⟨rfl, rfl, rfl, rfl, by decide⟩

/-- `gdt_init` loads the task register with the task state segment. -/
theorem ltr_gdtInit (h : Table ram gdtLcl (gdtInit g tss)) :
  ltr ram (gdtr gdtLcl) tssSelector
    = some ({ base := tss, limit := 104 }, Function.update ram (gdtLcl + BitVec.ofNat 64 52)
      ((gdtInit g tss 6).high ||| 0x200))
  := by
  have hoff : selOffset tssSelector = BitVec.ofNat 64 (8 * 6) := by decide
  obtain ⟨hlow, hhigh⟩ := h 6 (by decide)
  obtain ⟨hlow', hhigh'⟩ := h 7 (by decide)
  -- the address is in both entries
  obtain ⟨hbase, hzero⟩ : (gdtInit g tss 7).low
      ++ (Descriptor.ofDwords (gdtInit g tss 6).low (gdtInit g tss 6).high).base = tss
      ∧ (gdtInit g tss 7).high = 0 := settss_base _ 6 tss sizeofTssStruct 0xe9
  have hentry : gdtInit g tss 6 = gdtSetentry (g 6) (tss.setWidth 32) sizeofTssStruct 0xe9 0 := by
    simp [gdtInit, gdtSettss]
  have hd := ofDwords_setentry (g 6) (tss.setWidth 32) sizeofTssStruct 0xe9 0
  rw [← hentry] at hd
  have haddr : ∀ n : ℕ, (gdtr gdtLcl).base + selOffset tssSelector + BitVec.ofNat 64 n
      = gdtLcl + BitVec.ofNat 64 (8 * 6 + n) := by
    intro n
    rw [gdtr, hoff, BitVec.add_assoc, ← BitVec.ofNat_add]
  have h₈ : ram ((gdtr gdtLcl).base + selOffset tssSelector + 8) = (gdtInit g tss 7).low :=
    (congrArg ram (haddr 8)).trans hlow'
  have h₁₂ : ram ((gdtr gdtLcl).base + selOffset tssSelector + 12) = 0 :=
    ((congrArg ram (haddr 12)).trans hhigh').trans hzero
  rw [ltr, descriptor_table ⟨hlow, hhigh⟩ ⟨by decide, hoff⟩ (by decide) (by decide) (by decide)]
  have hbusy : (gdtr gdtLcl).base + selOffset tssSelector + 4 = gdtLcl + BitVec.ofNat 64 52 :=
    haddr 4
  have hmark : ram (gdtLcl + BitVec.ofNat 64 52) = (gdtInit g tss 6).high := hhigh
  have havail : (Descriptor.ofDwords (gdtInit g tss 6).low (gdtInit g tss 6).high).present = true
      ∧ (Descriptor.ofDwords (gdtInit g tss 6).low (gdtInit g tss 6).high).segment = false
      ∧ (Descriptor.ofDwords (gdtInit g tss 6).low (gdtInit g tss 6).high).type = 9 := by
    rw [hd]
    exact ⟨rfl, rfl, (by decide : (0xe9 : Byte).extractLsb' 0 4 = 9)⟩
  have hlimit : (Descriptor.ofDwords (gdtInit g tss 6).low (gdtInit g tss 6).high).limit = 104 := by
    rw [hd]
    exact (by decide : sizeofTssStruct.extractLsb' 0 20 = 104)
  simp only [h₈, h₁₂, hbusy, hmark, hbase, hlimit, havail]
  rfl

/-- An entry that `ltr` does not write. -/
theorem entry_of_ltr {i : ℕ} (hi : i < gdtEntryCount) (hne : i ≠ 6)
    (h : Table ram gdtLcl (gdtInit g tss))
    (hsame : ∀ n < 2 * gdtEntryCount, ram' (gdtLcl + BitVec.ofNat 64 (4 * n))
      = Function.update ram (gdtLcl + BitVec.ofNat 64 52) ((gdtInit g tss 6).high ||| 0x200)
        (gdtLcl + BitVec.ofNat 64 (4 * n))) :
  Entry ram' gdtLcl i (gdtInit g tss i)
  := by
  rw [gdtEntryCount] at hi hsame
  obtain ⟨hlow, hhigh⟩ := h i hi
  have hsame' : ∀ n < 16, n ≠ 13 →
      ram' (gdtLcl + BitVec.ofNat 64 (4 * n)) = ram (gdtLcl + BitVec.ofNat 64 (4 * n)) := by
    intro n hn hne
    rw [hsame n hn, Function.update_of_ne (add_ofNat_ne (by omega) (by omega) (by omega))]
  constructor
  · rw [← hlow, show 8 * i = 4 * (2 * i) by omega]
    exact hsame' _ (by omega) (by omega)
  · rw [← hhigh, show 8 * i + 4 = 4 * (2 * i + 1) by omega]
    exact hsame' _ (by omega) (by omega)

/-- The processor finds `rsp0` in the task state segment. -/
theorem rsp0_of_holds {limit : BitVec 20} {t : TssStruct} (h : ram.Holds tss t.dwords) :
  (Task.tss { base := tss, limit := limit } ram).rsp0 = t.rsp0
  := by
  have hwords : t.dwords[1]? = some (t.rsp0.extractLsb' 0 32)
      ∧ t.dwords[2]? = some (t.rsp0.extractLsb' 32 32) := by
    simp [TssStruct.dwords, wordDwords]
  have hlow : ram (tss + 4) = t.rsp0.extractLsb' 0 32 := h.get 1 hwords.1
  have hhigh : ram (tss + 4 + 4) = t.rsp0.extractLsb' 32 32 := by
    rw [BitVec.add_assoc]
    exact h.get 2 hwords.2
  rw [Task.tss, Ram.qword, hlow, hhigh]
  exact BitVec.extractLsb'_append_extractLsb'

/-- The processor that goes through the tables of `gdt_init` and `idt_init` delivers every
interrupt through the gate of the kernel and, from user mode, on the stack that
`interrupt_setstack` was last given; and the selectors of a default state are those of segments
that it can be resumed with. -/
theorem delivered_through_tables (k : Kernel) (idtLcl : Word)
    (h : Table ram gdtLcl (gdtInit g tss)) :
  ∃ task ram₁, ltr ram (gdtr gdtLcl) tssSelector = some (task, ram₁)
    ∧ ∀ (ram' : Ram) (t : TssStruct),
      (∀ n < 2 * gdtEntryCount, ram' (gdtLcl + BitVec.ofNat 64 (4 * n))
        = ram₁ (gdtLcl + BitVec.ofNat 64 (4 * n))) →
      ram'.Holds tss (interruptSetstack t k.tss.rsp0).dwords → Gates ram' idtLcl k →
      (∀ v err c, deliverVia ram' (gdtr gdtLcl) (idtr idtLcl) task v err c
        = some (deliver k.tss (k.gate v) err c))
      ∧ ∀ sp ip args, ∃ code stack,
        descriptor ram' (gdtr gdtLcl) 8
          ((smpPlatformGetdefaultstate sp ip args).cs.setWidth 16) = some code ∧ code.Code 0
        ∧ descriptor ram' (gdtr gdtLcl) 8
          ((smpPlatformGetdefaultstate sp ip args).ss.setWidth 16) = some stack ∧ stack.Stack
  := by
  refine ⟨_, _, ltr_gdtInit h, ?_⟩
  intro ram' t hsame htss hgates
  obtain ⟨code, hcode, hlong, hcpl⟩ := descriptor_code
    (entry_of_ltr (by decide) (by decide) h hsame)
  obtain ⟨stack, hstack, hdata⟩ := descriptor_stack
    (entry_of_ltr (by decide) (by decide) h hsame)
  refine ⟨?_, fun _ _ _ => ⟨code, stack, hcode, hlong 0, hstack, hdata⟩⟩
  intro v err c
  have hseg : (k.gate v).segSelect = 0x08 := rfl
  have hrsp : (Task.tss { base := tss, limit := 104 } ram').rsp0 = k.tss.rsp0 :=
    rsp0_of_holds htss
  have hhas : Task.HasStack { base := tss, limit := 104 } (k.gate v) c := by
    intro _
    exact (by decide : 12 ≤ (104 : BitVec 20).toNat + 1)
  rw [← deliver_of_ist (g := k.gate v) rfl hrsp, deliverVia, gateAt_gates hgates v]
  simp only [hseg, hcode, hcpl]
  exact if_pos ⟨hlong _, hhas⟩

end Delivery

/-- The tables of the boot processor in some memory. -/
theorem delivered_through_tables_boot :
  let k : Kernel := {
    idtHandlers := 0xffffffff80100000, defaulthandler := 0xffffffff80001000
    tss := { rsp0 := 0xffffffff80200000, ist := fun _ => 0 } }
  let g : ℕ → GdtT := gdtInit (fun _ => ⟨0, 0, 0, 0, 0, 0⟩) 0x2000
  let t : TssStruct := ⟨0, 0, 0, 0, 0, 0x3000, 0, 0, 0, 0, 0, 0, 0, 0, 0⟩
  let ram : Ram := fun a =>
    if a.toNat < 0x2000 then
      if a.toNat % 8 = 0 then (g ((a.toNat - 0x1000) / 8)).low
      else (g ((a.toNat - 0x1000) / 8)).high
    else if a.toNat < 0x4000 then
      (interruptSetstack t k.tss.rsp0).dwords.getD ((a.toNat - 0x2000) / 4) 0
    else (k.idtLcl (.ofNat 8 ((a.toNat - 0x4000) / 16))).dwords.getD (a.toNat % 16 / 4) 0
  ∃ task ram', ltr ram (gdtr 0x1000) tssSelector = some (task, ram')
    ∧ ∀ v err c, deliverVia ram' (gdtr 0x1000) (idtr 0x4000) task v err c
      = some (deliver k.tss (k.gate v) err c)
  := by
  intro k g t ram
  have htable : Table ram 0x1000 g := by
    intro i hi
    rw [gdtEntryCount] at hi
    interval_cases i <;> exact ⟨rfl, rfl⟩
  obtain ⟨task, ram', hltr, hdelivered⟩ := delivered_through_tables k 0x4000 htable
  refine ⟨task, ram', hltr, (hdelivered ram' t (fun _ _ => rfl) ?_ ?_).1⟩
  · rw [ltr_gdtInit htable] at hltr
    obtain ⟨-, rfl⟩ := Prod.mk.inj (Option.some.inj hltr)
    apply Ram.holds_of_getD (by decide)
    intro i hi b hb
    rw [TssStruct.length_dwords] at hi
    change b.toNat = 0x2000 + 4 * i at hb
    have hne : b ≠ 0x1000 + BitVec.ofNat 64 52 := by
      rintro rfl
      change 0x1034 = _ at hb
      omega
    rw [Function.update_of_ne hne]
    simp only [ram, hb]
    rw [if_neg (by omega), if_pos (by omega), Nat.add_sub_cancel_left,
      Nat.mul_div_cancel_left _ (by decide)]
  · rw [ltr_gdtInit htable] at hltr
    obtain ⟨-, rfl⟩ := Prod.mk.inj (Option.some.inj hltr)
    intro v
    have hv := v.isLt
    have haddr : ((0x4000 : Word) + 16 * v.setWidth 64).toNat = 0x4000 + 16 * v.toNat := by
      rw [BitVec.toNat_add, BitVec.toNat_mul, BitVec.toNat_setWidth,
        show (0x4000 : Word).toNat = 0x4000 from rfl, show (16 : Word).toNat = 16 from rfl]
      omega
    have hlen : (k.idtLcl v).dwords.length = 4 := rfl
    apply Ram.holds_of_getD (by rw [haddr, hlen]; omega)
    intro i hi b hb
    rw [hlen] at hi
    rw [haddr] at hb
    have hne : b ≠ 0x1000 + BitVec.ofNat 64 52 := by
      rintro rfl
      change 0x1034 = _ at hb
      omega
    rw [Function.update_of_ne hne]
    simp only [ram, hb]
    rw [if_neg (by omega), if_neg (by omega),
      show (0x4000 + 16 * v.toNat + 4 * i - 0x4000) / 16 = v.toNat by omega,
      show (0x4000 + 16 * v.toNat + 4 * i) % 16 / 4 = i by omega, BitVec.ofNat_toNat,
      BitVec.setWidth_eq]

end Idt
