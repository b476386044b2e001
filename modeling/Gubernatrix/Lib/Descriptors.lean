import Gubernatrix.Lib.X86

/-!
# Descriptor tables of an x86-64 processor

What the processor finds in memory: segment descriptors and the task state segment through the
global descriptor table, gates through the interrupt descriptor table, and the delivery of an
interrupt by way of all of them. `none` stands for an exception.
-/

namespace X86

/-- A double word of 4 bytes. -/
abbrev Dword := BitVec 32

/-- The memory of the tables: the double word at each address. -/
abbrev Ram := Word → Dword

/-- The word at an address. -/
def Ram.qword (ram : Ram) (a : Word) : Word := ram (a + 4) ++ ram a

/-- The double words lie in the memory from an address on. -/
def Ram.Holds (ram : Ram) (a : Word) (ws : List Dword) : Prop :=
  ∀ i w, ws[i]? = some w → ram (a + 4 * BitVec.ofNat 64 i) = w

/-- The register of a table. -/
structure TableReg where
  limit : BitVec 16
  base : Word

/-- A segment descriptor, as the processor takes it apart. -/
structure Descriptor where
  base : BitVec 32
  limit : BitVec 20
  type : BitVec 4
  segment : Bool
  dpl : BitVec 2
  present : Bool
  long : Bool
  big : Bool
  granular : Bool

/-- The descriptor in two double words. -/
def Descriptor.ofDwords (low high : Dword) : Descriptor where
  base := high.extractLsb' 24 8 ++ high.extractLsb' 0 8 ++ low.extractLsb' 16 16
  limit := high.extractLsb' 16 4 ++ low.extractLsb' 0 16
  type := high.extractLsb' 8 4
  segment := high.getLsbD 12
  dpl := high.extractLsb' 13 2
  present := high.getLsbD 15
  long := high.getLsbD 21
  big := high.getLsbD 22
  granular := high.getLsbD 23

/-- The offset in the table that a selector names. -/
def selOffset (sel : BitVec 16) : Word := (sel &&& 0xfff8).setWidth 64

/-- The descriptor of some bytes that a selector names in the global descriptor table. -/
def descriptor (ram : Ram) (gdtr : TableReg) (bytes : ℕ) (sel : BitVec 16) : Option Descriptor :=
  if sel.getLsbD 2 = false ∧ selOffset sel ≠ 0
      ∧ (selOffset sel).toNat + bytes ≤ gdtr.limit.toNat + 1 then
    some (.ofDwords (ram (gdtr.base + selOffset sel)) (ram (gdtr.base + selOffset sel + 4)))
  else none

/-- The stack segment can be loaded at privilege level 0: writable data. -/
def Descriptor.Stack (d : Descriptor) : Prop :=
  d.present = true ∧ d.segment = true ∧ d.type.getLsbD 3 = false ∧ d.type.getLsbD 1 = true
    ∧ d.dpl = 0

/-- The code segment can be entered from a privilege level: 64-bit code. -/
def Descriptor.Code (d : Descriptor) (cpl : BitVec 2) : Prop :=
  d.present = true ∧ d.segment = true ∧ d.type.getLsbD 3 = true ∧ d.long = true ∧ d.big = false
    ∧ d.dpl ≤ cpl

instance (d : Descriptor) (cpl : BitVec 2) : Decidable (d.Code cpl) := by
  unfold Descriptor.Code
  infer_instance

/-- The task register. -/
structure Task where
  base : Word
  limit : BitVec 20

/-- `ltr`: the task register, and the memory with the descriptor marked busy. -/
def ltr (ram : Ram) (gdtr : TableReg) (sel : BitVec 16) : Option (Task × Ram) :=
  match descriptor ram gdtr 16 sel with
  | none => none
  | some d =>
      let a := gdtr.base + selOffset sel
      if d.present = true ∧ d.segment = false ∧ d.type = 9
          ∧ (ram (a + 12)).extractLsb' 8 5 = 0 then
        some ({ base := ram (a + 8) ++ d.base, limit := d.limit },
          Function.update ram (a + 4) (ram (a + 4) ||| 0x200))
      else none

/-- The stacks in a task state segment. -/
def Task.tss (task : Task) (ram : Ram) : Tss where
  rsp0 := ram.qword (task.base + 4)
  ist i := ram.qword (task.base + 28 + 8 * i.setWidth 64)

/-- The gate in three double words, if it is an interrupt or trap gate and present. -/
def gateOf (w₀ w₁ w₂ : Dword) : Option Gate :=
  if w₁.getLsbD 15 = true ∧ w₁.getLsbD 12 = false ∧ w₁.extractLsb' 9 3 = 7#3 then
    some {
      offset0 := w₀.extractLsb' 0 16
      segSelect := w₀.extractLsb' 16 16
      ist := w₁.extractLsb' 0 3
      type := w₁.extractLsb' 8 4
      offset1 := w₁.extractLsb' 16 16
      offset2 := w₂ }
  else none

/-- The gate of a vector. -/
def gateAt (ram : Ram) (idtr : TableReg) (v : Byte) : Option Gate :=
  let a := idtr.base + 16 * v.setWidth 64
  if 16 * v.toNat + 16 ≤ idtr.limit.toNat + 1 then
    gateOf (ram a) (ram (a + 4)) (ram (a + 8))
  else none

/-- The current privilege level. -/
def Cpu.cpl (c : Cpu) : BitVec 2 := c.cs.setWidth 2

/-- The privilege level of the handler in a code segment. -/
def Descriptor.newCpl (d : Descriptor) (cpl : BitVec 2) : BitVec 2 :=
  if d.type.getLsbD 2 then cpl else d.dpl

/-- The stack that delivery needs lies within the task state segment. -/
def Task.HasStack (task : Task) (g : Gate) (c : Cpu) : Prop :=
  if g.ist ≠ 0 then 28 + 8 * g.ist.toNat + 8 ≤ task.limit.toNat + 1
  else switches g c = true → 12 ≤ task.limit.toNat + 1

instance (task : Task) (g : Gate) (c : Cpu) : Decidable (task.HasStack g c) := by
  unfold Task.HasStack
  infer_instance

/-- The delivery of an interrupt through the tables. -/
def deliverVia (ram : Ram) (gdtr idtr : TableReg) (task : Task) (v : Byte) (err : Option Word)
    (c : Cpu) : Option Cpu :=
  match gateAt ram idtr v with
  | none => none
  | some g =>
      match descriptor ram gdtr 8 g.segSelect with
      | none => none
      | some d =>
          let g := { g with
            segSelect := (g.segSelect &&& 0xfffc) ||| (d.newCpl c.cpl).setWidth 16 }
          if d.Code c.cpl ∧ task.HasStack g c then some (deliver (task.tss ram) g err c) else none

/-! ### Reading the tables -/

section Holds

variable {ram : Ram} {a : Word} {ws : List Dword}

theorem Ram.Holds.get (h : ram.Holds a ws) (i : ℕ) {w : Dword} (hw : ws[i]? = some w) :
  ram (a + BitVec.ofNat 64 (4 * i)) = w
  := by
  rw [BitVec.ofNat_mul]
  exact h i w hw

/-- Double words that lie in memory, by the numbers of their addresses. -/
theorem Ram.holds_of_getD (hlen : a.toNat + 4 * ws.length < 2 ^ 64)
    (h : ∀ i < ws.length, ∀ b : Word, b.toNat = a.toNat + 4 * i → ram b = ws.getD i 0) :
  ram.Holds a ws
  := by
  intro i w hw
  obtain ⟨hi, -⟩ := List.getElem?_eq_some_iff.mp hw
  rw [h i hi, List.getD_eq_getElem?_getD, hw, Option.getD_some]
  rw [BitVec.toNat_add, BitVec.toNat_mul, BitVec.toNat_ofNat, show (4 : Word).toNat = 4 from rfl]
  omega

/-- What is written elsewhere in the table leaves a double word. -/
theorem add_ofNat_ne {m n : ℕ} (hm : m < 2 ^ 64) (hn : n < 2 ^ 64) (h : m ≠ n) :
  a + BitVec.ofNat 64 m ≠ a + BitVec.ofNat 64 n
  := by
  intro heq
  have hcancel := congrArg (· - a) heq
  simp only [BitVec.add_comm a, BitVec.add_sub_cancel] at hcancel
  have := congrArg BitVec.toNat hcancel
  rw [BitVec.toNat_ofNat, BitVec.toNat_ofNat, Nat.mod_eq_of_lt hm, Nat.mod_eq_of_lt hn] at this
  exact h this

end Holds

/-- The stack on which an interrupt is delivered through a gate without a stack of its own. -/
theorem deliver_of_ist {tss tss' : Tss} {g : Gate} (hist : g.ist = 0)
    (hrsp : tss.rsp0 = tss'.rsp0) (err : Option Word) (c : Cpu) :
  deliver tss g err c = deliver tss' g err c
  := by
  have hstack : stackFor tss g c = stackFor tss' g c := by
    rw [stackFor, stackFor, hist, hrsp]
    rfl
  simp only [deliver, hstack]

end X86
