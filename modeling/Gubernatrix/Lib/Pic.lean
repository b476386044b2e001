import Mathlib.Data.BitVec
import Mathlib.Data.List.Basic

/-!
# A pair of interrupt controllers

Two 8259A, the second one behind an input of the first. A controller is set up by a sequence of
words, and masks its inputs after it. When it is asked for a vector and has none to give, it gives
that of its last input, a spurious one. The commands that end an interrupt are left out.
-/

namespace I8259

abbrev Byte := BitVec 8

/-- What a write to the data port is taken for. -/
inductive Phase where
  | icw2
  | icw3
  | icw4
  | mask
deriving DecidableEq

/-- The registers of a controller. Two bits of the first word of the sequence say which words
follow. -/
structure Chip where
  phase : Phase
  single : Bool
  needsIcw4 : Bool
  base : Byte
  cascade : Byte
  mode : Byte
  imr : Byte
  irr : Byte
  isr : Byte

namespace Chip

/-- A write to the command port: with bit 4 it begins the sequence. -/
def writeCommand (c : Chip) (v : Byte) : Chip :=
  if v.getLsbD 4 then
    { c with
      phase := .icw2, single := v.getLsbD 1, needsIcw4 := v.getLsbD 0
      mode := if v.getLsbD 0 then c.mode else 0, imr := 0, irr := 0, isr := 0 }
  else c

/-- What follows the words that only a controller in a cascade needs. -/
def lastPhase (c : Chip) : Phase := if c.needsIcw4 then .icw4 else .mask

/-- A write to the data port. -/
def writeData (c : Chip) (v : Byte) : Chip :=
  match c.phase with
  | .icw2 =>
      { c with base := v &&& 0xf8, phase := if c.single then c.lastPhase else .icw3 }
  | .icw3 => { c with cascade := v, phase := c.lastPhase }
  | .icw4 => { c with mode := v, phase := .mask }
  | .mask => { c with imr := v }

/-- The input is requested and not masked, and nothing at least as urgent is in service. -/
def wants (c : Chip) (i : ℕ) : Bool :=
  c.irr.getLsbD i && !c.imr.getLsbD i && (List.range (i + 1)).all fun j => !c.isr.getLsbD j

/-- The input whose interrupt is presented. -/
def pending (c : Chip) : Option ℕ := (List.range 8).find? c.wants

/-- The interrupt of an input is taken: bit 1 of the last word of the sequence ends it at once. -/
def take (c : Chip) (i : ℕ) : Chip :=
  { c with
    irr := c.irr &&& ~~~(1#8 <<< i)
    isr := if c.mode.getLsbD 1 then c.isr else c.isr ||| 1#8 <<< i }

/-- The vector that is given for an acknowledgement. -/
def acknowledge (c : Chip) : Byte × Chip :=
  match c.pending with
  | some i => (c.base ||| BitVec.ofNat 8 i, c.take i)
  | none => (c.base ||| 7, c)

end Chip

/-- Both controllers. -/
structure Pair where
  master : Chip
  slave : Chip

namespace Pair

/-- The processor is interrupted. -/
def int (p : Pair) : Bool := p.master.pending.isSome

/-- The processor acknowledges: for an input with a controller behind it, that one gives the
vector. -/
def inta (p : Pair) : Byte × Pair :=
  match p.master.pending with
  | none => (p.master.acknowledge.1, p)
  | some i =>
      if p.master.cascade.getLsbD i then
        (p.slave.acknowledge.1, ⟨p.master.take i, p.slave.acknowledge.2⟩)
      else (p.master.acknowledge.1, ⟨p.master.take i, p.slave⟩)

/-- The requests of the devices change. The second controller is at input 2 of the first one. -/
def requests (p : Pair) (m s : Byte) : Pair :=
  let slave := { p.slave with irr := s }
  { master := { p.master with irr := if slave.pending.isSome then m ||| 4 else m &&& ~~~4 }
    slave := slave }

/-- A write to one of the ports. -/
def outb (p : Pair) (port : BitVec 16) (v : Byte) : Pair :=
  if port = 0x20 then { p with master := p.master.writeCommand v }
  else if port = 0x21 then { p with master := p.master.writeData v }
  else if port = 0xa0 then { p with slave := p.slave.writeCommand v }
  else if port = 0xa1 then { p with slave := p.slave.writeData v }
  else p

end Pair

/-- The requests of the devices change, or the processor acknowledges. -/
inductive Event where
  | requests (m s : Byte)
  | inta

/-- The controllers after an event. -/
def step (p : Pair) : Event → Pair
  | .requests m s => p.requests m s
  | .inta => p.inta.2

/-! ### Masked inputs -/

namespace Chip

variable {c : Chip}

/-- When all inputs are masked, no interrupt is presented. -/
theorem pending_of_masked (h : c.imr = 0xff) :
  c.pending = none
  := by
  rw [pending, List.find?_eq_none]
  intro i hi
  have hmask : c.imr.getLsbD i = true := by
    rw [h]
    rw [List.mem_range] at hi
    revert i
    decide
  rw [wants, hmask]
  simp

/-- When all inputs are masked, the vector is that of the last one. -/
theorem acknowledge_of_masked (h : c.imr = 0xff) :
  c.acknowledge = (c.base ||| 7, c)
  := by
  rw [acknowledge, pending_of_masked h]

end Chip

namespace Pair

variable {p : Pair}

theorem int_of_masked (h : p.master.imr = 0xff) :
  p.int = false
  := by
  rw [int, Chip.pending_of_masked h]
  rfl

/-- When all inputs of the first controller are masked, all that is acknowledged is spurious. -/
theorem inta_of_masked (h : p.master.imr = 0xff) :
  p.inta = (p.master.base ||| 7, p)
  := by
  rw [inta, Chip.acknowledge_of_masked h, Chip.pending_of_masked h]

end Pair

/-- No event changes the mask or the vectors of the first controller while its inputs are masked. -/
theorem masked_step {p : Pair} {base : Byte} (h : p.master.imr = 0xff ∧ p.master.base = base)
    (e : Event) :
  (step p e).master.imr = 0xff ∧ (step p e).master.base = base
  := by
  cases e with
  | requests m s => exact h
  | inta =>
      rw [step, Pair.inta_of_masked h.1]
      exact h

end I8259
