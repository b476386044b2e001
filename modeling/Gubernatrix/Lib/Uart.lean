import Mathlib.Data.BitVec
import Mathlib.Data.List.Basic

/-!
# A serial port

The registers of a 16550 without its FIFO that take part in sending. A byte that is written waits
in the holding register until it is passed on to the line, after as many reads of the line status
as the line takes for it; a byte that is written before that takes its place.
-/

namespace Uart

abbrev Byte := BitVec 8

/-- The registers, the number of reads of the line status until the byte in the holding register is
passed on, and what went out on the line. -/
structure Serial where
  dll : Byte
  dlm : Byte
  ier : Byte
  lcr : Byte
  holding : Option Byte
  left : ℕ
  line : List Byte

namespace Serial

/-- Bit 7 of the line control register selects the divisor. -/
def dlab (s : Serial) : Bool := s.lcr.getLsbD 7

/-- A write to the register with the offset `off`, where `pace` is how long the line takes for each
byte. -/
def write (pace : ℕ → ℕ) (s : Serial) (off : ℕ) (b : Byte) : Serial :=
  if off = 0 then
    if s.dlab then { s with dll := b }
    else { s with holding := some b, left := pace s.line.length }
  else if off = 1 then if s.dlab then { s with dlm := b } else { s with ier := b }
  else if off = 3 then { s with lcr := b }
  else s

/-- A read of the line status: bit 5 says that the holding register is empty. -/
def status (s : Serial) : Byte × Serial :=
  match s.holding with
  | none => (0x60, s)
  | some b =>
      if s.left = 0 then (0x20, { s with holding := none, line := s.line ++ [b] })
      else (0, { s with left := s.left - 1 })

/-- What was sent: what went out, and what is about to. -/
def sent (s : Serial) : List Byte := s.line ++ s.holding.toList

end Serial

end Uart
