import Mathlib.Data.BitVec
import Mathlib.Data.List.Basic
import Mathlib.Tactic.IntervalCases

/-!
# A graphics management bus

The controller of a bus on which displays hand out their identification, with the registers of it
that take part in reads. A read fetches the bytes of a slave into the data register, four at a time:
the status says when it is full, and the next bytes are fetched when it has been read. Bit 31 of the
command register protects the registers against writes, and stops the read that runs.
-/

namespace Gmbus

abbrev Byte := BitVec 8

/-- A register. -/
abbrev U32 := BitVec 32

/-- The bytes of the slaves, by the pins of a port and an address. -/
abbrev Slaves := BitVec 3 → BitVec 7 → Option (ℕ → Byte)

/-- A read that runs: the slave's bytes, the place of the one that is fetched next, and the number
of those that are still to be fetched. -/
structure Transfer where
  bytes : ℕ → Byte
  pos : ℕ
  count : ℕ

/-- The first four bytes from a place on, with the first one lowest. -/
def word (bytes : ℕ → Byte) (pos : ℕ) : U32 :=
  bytes (pos + 3) ++ bytes (pos + 2) ++ bytes (pos + 1) ++ bytes pos

/-- What the data register is filled with: after the last byte, it has zeros. -/
def Transfer.word (t : Transfer) : U32 :=
  Gmbus.word (fun k => if k < t.pos + t.count then t.bytes k else 0) t.pos

/-- The transfer when the data register has been filled. -/
def Transfer.next (t : Transfer) : Transfer := { t with pos := t.pos + 4, count := t.count - 4 }

/-- The registers, the read that runs, the number of reads of the status until the data register is
full, and how often it has been filled. -/
structure Controller where
  select : U32
  command : U32
  data : U32
  ready : Bool
  transfer : Option Transfer
  left : ℕ
  filled : ℕ

namespace Controller

/-- Bit 31 of the command register. -/
def isProtected (c : Controller) : Bool := c.command.getLsbD 31

/-- The read that a command begins: its address, its index if it has one, and its count. -/
def transferOf (slaves : Slaves) (select v : U32) : Option Transfer :=
  (slaves (select.extractLsb' 0 3) (v.extractLsb' 1 7)).map fun bytes =>
    { bytes := bytes
      pos := if v.getLsbD 26 then (v.extractLsb' 8 8).toNat else 0
      count := (v.extractLsb' 16 9).toNat }

/-- A write to the select register. -/
def writeSelect (c : Controller) (v : U32) : Controller :=
  if c.isProtected then c else { c with select := v }

/-- A write to the command register, where `pace` is how long the slave takes to fill the data
register each time. Under protection only the bit that protects is written. Bit 30 begins a cycle:
a read, when it has bits 25 and 0, or one that ends with a stop, when it has bit 27 alone. -/
def writeCommand (slaves : Slaves) (pace : ℕ → ℕ) (c : Controller) (v : U32) : Controller :=
  if c.isProtected then
    if v.getLsbD 31 then c else { c with command := c.command &&& 0x7fffffff, ready := false }
  else if v.getLsbD 31 then { c with command := v, transfer := none, ready := true }
  else if v.getLsbD 30 then
    if v.getLsbD 25 ∧ v.getLsbD 0 then
      { c with
        command := v, ready := false, transfer := transferOf slaves c.select v
        left := pace c.filled }
    else { c with command := v, ready := v.getLsbD 27, transfer := none }
  else { c with command := v }

/-- A read of the status, of which bit 11 says whether the controller is ready. -/
def status (c : Controller) : U32 × Controller :=
  if c.ready then (1#32 <<< 11, c)
  else match c.transfer with
    | none => (0, c)
    | some t =>
        if t.count = 0 then (0, c)
        else if c.left = 0 then
          (1#32 <<< 11, { c with
            ready := true, data := t.word, transfer := some t.next, filled := c.filled + 1 })
        else (0, { c with left := c.left - 1 })

/-- A read of the data register. -/
def readData (pace : ℕ → ℕ) (c : Controller) : U32 × Controller :=
  (c.data, if c.transfer.isSome then { c with ready := false, left := pace c.filled } else c)

/-- A read of the register with the offset `off`. -/
def read (pace : ℕ → ℕ) (c : Controller) (off : ℕ) : U32 × Controller :=
  if off = 0x0 then (c.select, c)
  else if off = 0x4 then (c.command, c)
  else if off = 0x8 then c.status
  else if off = 0xc then c.readData pace
  else (0, c)

/-- A write to the register with the offset `off`. -/
def write (slaves : Slaves) (pace : ℕ → ℕ) (c : Controller) (off : ℕ) (v : U32) : Controller :=
  if off = 0x0 then c.writeSelect v
  else if off = 0x4 then c.writeCommand slaves pace v
  else c

end Controller

/-! ### Bytes of words -/

/-- A byte of a word. -/
theorem word_byte (bytes : ℕ → Byte) (pos : ℕ) {j : ℕ} (hj : j < 4) :
  (word bytes pos >>> (8 * j)).setWidth 8 = bytes (pos + j)
  := by
  apply BitVec.eq_of_getLsbD_eq
  intro i hi
  rw [BitVec.getLsbD_setWidth, BitVec.getLsbD_ushiftRight, word]
  simp only [BitVec.getLsbD_append]
  interval_cases j
  · simp [hi]
  · rw [if_neg (by omega), if_pos (by omega), show 8 * 1 + i - 8 = i by omega]
    simp [hi]
  · rw [if_neg (by omega), if_neg (by omega), if_pos (by omega),
      show 8 * 2 + i - 8 - 8 = i by omega]
    simp [hi]
  · rw [if_neg (by omega), if_neg (by omega), if_neg (by omega),
      show 8 * 3 + i - 8 - 8 - 8 = i by omega]
    simp [hi]

theorem Transfer.word_byte (t : Transfer) {j : ℕ} (hj : j < 4) (hcount : j < t.count) :
  (t.word >>> (8 * j)).setWidth 8 = t.bytes (t.pos + j)
  := by
  rw [Transfer.word, Gmbus.word_byte _ _ hj, if_pos (by omega)]

/-! ### Reading -/

namespace Controller

variable {slaves : Slaves} {c : Controller}

/-- The controller fetches the bytes of a read, and does not have them yet. -/
structure Fetching (c : Controller) (t : Transfer) : Prop where
  ready : c.ready = false
  transfer : c.transfer = some t

/-- The data register has the bytes of a read. -/
structure Full (c : Controller) (t : Transfer) : Prop where
  ready : c.ready = true
  transfer : c.transfer = some t.next
  data : c.data = t.word

/-- The status says that the controller is not ready, or it becomes ready. -/
theorem status_of_fetching {t : Transfer} (h : c.Fetching t) (hcount : t.count ≠ 0) :
  (c.left ≠ 0 ∧ c.status = (0, { c with left := c.left - 1 }))
    ∨ (c.left = 0 ∧ c.status.1 = 1#32 <<< 11 ∧ c.status.2.Full t)
  := by
  rw [status, h.ready, if_neg Bool.false_ne_true, h.transfer]
  by_cases hleft : c.left = 0
  · right
    dsimp only
    rw [if_neg hcount, if_pos hleft]
    exact ⟨hleft, rfl, rfl, rfl, rfl⟩
  · left
    dsimp only
    rw [if_neg hcount, if_neg hleft]
    exact ⟨hleft, rfl⟩

/-- When the data register has been read, the next bytes are fetched. -/
theorem readData_of_full (pace : ℕ → ℕ) {t : Transfer} (h : c.Full t) :
  (c.readData pace).1 = t.word ∧ (c.readData pace).2.Fetching t.next
  := by
  have hread : c.readData pace = (c.data, { c with ready := false, left := pace c.filled }) := by
    rw [readData, h.transfer]
    rfl
  rw [hread]
  exact ⟨h.data, rfl, h.transfer⟩

/-- A command that begins a read. -/
theorem writeCommand_of_read (pace : ℕ → ℕ) {v : U32} (h : c.isProtected = false)
    (hprot : v.getLsbD 31 = false) (hcycle : v.getLsbD 30 = true)
    (hread : v.getLsbD 25 = true ∧ v.getLsbD 0 = true) {t : Transfer}
    (ht : transferOf slaves c.select v = some t) :
  (c.writeCommand slaves pace v).Fetching t
  := by
  rw [writeCommand, h, if_neg Bool.false_ne_true, hprot, if_neg Bool.false_ne_true, if_pos hcycle,
    if_pos hread]
  exact ⟨rfl, ht⟩

end Controller

end Gmbus
