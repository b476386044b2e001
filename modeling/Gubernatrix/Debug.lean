import Gubernatrix.Lib.CString
import Gubernatrix.Lib.Uart
import Gubernatrix.Types

/-!
# The debug console

The functions of `debug.c`: what they print, and the serial port that it goes out on.
`printed_of_run` says that the line carries what is printed, byte by byte, however slow it is. Every
call comes to its end but that of `print_hexdump` for the last 15 lengths of an `int`, since the
offset of the line after the last one is not an `int`.
-/

namespace Debug

open CStrings (Byte CString)
open Uart (Serial)

/-- `BASE_HEX`. -/
def baseHex : Byte := 16

/-- `SERIAL_OUT`, from which on the registers of the port are. -/
def serialOut : BitVec 16 := 0x3f8

/-- The characters of a text. -/
def chars (s : String) : List Byte := s.toList.map fun c => BitVec.ofNat 8 c.toNat

/-- `hex_str`. -/
def hexStr : List Byte := chars "0123456789ABCDEF"

/-- `outb` on a register of the port. -/
def outb (pace : ℕ → ℕ) (s : Serial) (port : BitVec 16) (b : Byte) : Serial :=
  s.write pace (port - serialOut).toNat b

/-- `debug_init`. -/
def debugInit (pace : ℕ → ℕ) (s : Serial) : Serial :=
  let s := outb pace s (serialOut + 1) 0
  let s := outb pace s (serialOut + 3) 0x80
  let s := outb pace s serialOut 1
  let s := outb pace s (serialOut + 1) 0
  outb pace s (serialOut + 3) 0x03

/-- `is_transmit_empty`. -/
def isTransmitEmpty (s : Serial) : Bool × Serial :=
  (s.status.1 &&& 0x20 ≠ 0, s.status.2)

/-- The loop that waits for `is_transmit_empty`, for at most the given number of turns. -/
def waitEmpty : (turns : ℕ) → Serial → Option Serial
  | 0, _ => none
  | turns + 1, s =>
      if (isTransmitEmpty s).1 then some (isTransmitEmpty s).2
      else waitEmpty turns (isTransmitEmpty s).2

/-- The bytes sent one after the other, each after the loop. -/
def sendAll (pace : ℕ → ℕ) (turns : ℕ) : List Byte → Serial → Option Serial
  | [], s => some s
  | b :: bs, s => (waitEmpty turns s).bind fun s => sendAll pace turns bs (outb pace s serialOut b)

/-! ### What is printed -/

/-- The bytes that `print_str` sends, from a pointer on; `none` if it runs past the bytes. -/
def printStr : List Byte → Option (List Byte)
  | [] => none
  | c :: str => if c ≠ 0 then (printStr str).map (c :: ·) else some []

/-- The bytes that the loop of `PRINT_BITCNT` sends for the last `k` digits, where `shift i` is
`num >> i`. -/
def digitsLoop {w : ℕ} (shift : ℕ → BitVec w) : ℕ → List Byte
  | 0 => []
  | k + 1 => hexStr.getD (shift (4 * k) &&& 0xf).toNat 0 :: digitsLoop shift k

/-- `PRINT_BITCNT`. -/
def printBitcnt {w : ℕ} (shift : ℕ → BitVec w) (base : Byte) (bitcnt : ℕ) : List Byte :=
  if base = baseHex then digitsLoop shift (bitcnt / 4) else []

/-- `print_int8`. -/
def printInt8 (num : BitVec 8) (base : Byte) : List Byte := printBitcnt num.sshiftRight base 8

/-- `print_int16`. -/
def printInt16 (num : BitVec 16) (base : Byte) : List Byte := printBitcnt num.sshiftRight base 16

/-- `print_int32`. -/
def printInt32 (num : BitVec 32) (base : Byte) : List Byte := printBitcnt num.sshiftRight base 32

/-- `print_int64`. -/
def printInt64 (num : BitVec 64) (base : Byte) : List Byte := printBitcnt num.sshiftRight base 64

/-- `print_uint8`. -/
def printUint8 (num : BitVec 8) (base : Byte) : List Byte := printBitcnt num.ushiftRight base 8

/-- `print_uint16`. -/
def printUint16 (num : BitVec 16) (base : Byte) : List Byte := printBitcnt num.ushiftRight base 16

/-- `print_uint32`. -/
def printUint32 (num : BitVec 32) (base : Byte) : List Byte := printBitcnt num.ushiftRight base 32

/-- `print_uint64`. -/
def printUint64 (num : BitVec 64) (base : Byte) : List Byte := printBitcnt num.ushiftRight base 64

/-- `print_ptr`. -/
def printPtr (num : U64) : List Byte := printUint64 num baseHex

/-- What `print_hexdump` prints for the byte `b`, at the address `a`. -/
def hexdumpByte (a : U64) (lOff : ℕ) (b : Byte) : List Byte :=
  (if lOff = 0 then printUint64 a baseHex ++ chars "  " else [])
    ++ printUint8 b baseHex
    ++ (if lOff = 7 then chars "  " else if lOff < 15 then chars " " else chars "\r\n")

/-- The inner loop of `print_hexdump`, with at most `left` turns to go; `a` is the address of the
data. The sum of the offsets is an `int`, since `off` is a multiple of 16. -/
def lineLoop (a : U64) (data : ℤ → Byte) (len off : ℤ) : (left : ℕ) → List Byte
  | 0 => []
  | left + 1 =>
      let lOff := 16 - (left + 1)
      if off + lOff < len then
        hexdumpByte (a + BitVec.ofInt 64 (off + lOff)) lOff (data (off + lOff))
          ++ lineLoop a data len off left
      else []

/-- The outer loop of `print_hexdump`, for at most the given number of turns. The offset is an
`int`, which the sum wraps around to. -/
def hexdumpLoop (a : U64) (data : ℤ → Byte) (len : ℤ) : (turns : ℕ) → (off : ℤ) → Option (List Byte)
  | 0, _ => none
  | turns + 1, off =>
      if off < len then
        (hexdumpLoop a data len turns (Int.bmod (off + 16) (2 ^ 32))).map
          (lineLoop a data len off 16 ++ ·)
      else some []

/-- `print_hexdump`, with at most the given number of turns of its outer loop. -/
def printHexdump (turns : ℕ) (a : U64) (data : ℤ → Byte) (len : ℤ) : Option (List Byte) :=
  (hexdumpLoop a data len turns 0).map (· ++ chars "\r\n")

/-! ### The console -/

/-- A call. A string is followed by whatever is there after it. -/
inductive Call where
  | str (s : CString) (rest : List Byte)
  | ptr (num : U64)
  | int8 (num : BitVec 8) (base : Byte)
  | int16 (num : BitVec 16) (base : Byte)
  | int32 (num : BitVec 32) (base : Byte)
  | int64 (num : BitVec 64) (base : Byte)
  | uint8 (num : BitVec 8) (base : Byte)
  | uint16 (num : BitVec 16) (base : Byte)
  | uint32 (num : BitVec 32) (base : Byte)
  | uint64 (num : BitVec 64) (base : Byte)
  | hexdump (a : U64) (data : ℤ → Byte) (len : ℤ)

/-- What a call sends. -/
def Call.printed (turns : ℕ) : Call → Option (List Byte)
  | str s rest => printStr (s.followed rest)
  | ptr num => some (printPtr num)
  | int8 num base => some (printInt8 num base)
  | int16 num base => some (printInt16 num base)
  | int32 num base => some (printInt32 num base)
  | int64 num base => some (printInt64 num base)
  | uint8 num base => some (printUint8 num base)
  | uint16 num base => some (printUint16 num base)
  | uint32 num base => some (printUint32 num base)
  | uint64 num base => some (printUint64 num base)
  | hexdump a data len => printHexdump turns a data len

/-- The port after the calls. -/
def run (pace : ℕ → ℕ) (turns : ℕ) : List Call → Serial → Option Serial
  | [], s => some s
  | call :: calls, s =>
      (call.printed turns).bind fun bs => (sendAll pace turns bs s).bind (run pace turns calls)

/-- The `k` hexadecimal digits of a number, the highest one first. -/
def hexText (k n : ℕ) : List Byte :=
  (List.range k).reverse.map fun i => hexStr.getD (n / 16 ^ i % 16) 0

/-- The text of a byte of a hexdump, at the address `a` and with the index `i`. -/
def byteText (a : U64) (i : ℕ) (b : Byte) : List Byte :=
  (if i % 16 = 0 then hexText 16 a.toNat ++ chars "  " else [])
    ++ hexText 2 b.toNat
    ++ (if i % 16 = 7 then chars "  " else if i % 16 < 15 then chars " " else chars "\r\n")

/-- The text of the bytes of a hexdump with the indices from `lo` up to `hi`. -/
def bytesText (a : U64) (data : ℤ → Byte) (lo hi : ℕ) : List Byte :=
  (List.range' lo (hi - lo)).flatMap fun i => byteText (a + BitVec.ofNat 64 i) i (data i)

/-- The text of a hexdump of the first `n` bytes. -/
def hexdumpText (a : U64) (data : ℤ → Byte) (n : ℕ) : List Byte :=
  bytesText a data 0 n ++ chars "\r\n"

/-- The text that a call is for. A number is only printed in base 16. -/
def Call.text : Call → List Byte
  | str s _ => s.chars
  | ptr num => hexText 16 num.toNat
  | int8 num base | uint8 num base => if base = baseHex then hexText 2 num.toNat else []
  | int16 num base | uint16 num base => if base = baseHex then hexText 4 num.toNat else []
  | int32 num base | uint32 num base => if base = baseHex then hexText 8 num.toNat else []
  | int64 num base | uint64 num base => if base = baseHex then hexText 16 num.toNat else []
  | hexdump a data len => hexdumpText a data len.toNat

/-- The call comes to its end. -/
def Call.Ends : Call → Prop
  | hexdump _ _ len => len ≤ 2 ^ 31 - 16
  | _ => True

instance : DecidablePred Call.Ends
  | .hexdump _ _ len => inferInstanceAs (Decidable (len ≤ 2 ^ 31 - 16))
  | .str .. | .ptr .. | .int8 .. | .int16 .. | .int32 .. | .int64 .. | .uint8 .. | .uint16 ..
  | .uint32 .. | .uint64 .. => inferInstanceAs (Decidable True)

/-! ### Digits -/

section Digits

variable {w : ℕ}

theorem digitsLoop_eq {shift : ℕ → BitVec w} {n : ℕ} (hw : 4 ≤ w) (k : ℕ)
    (hshift : ∀ i < k, (shift (4 * i)).toNat % 16 = n / 16 ^ i % 16) :
  digitsLoop shift k = hexText k n
  := by
  induction k with
  | zero => rfl
  | succ k ih =>
      have hmask : (shift (4 * k) &&& 0xf).toNat = n / 16 ^ k % 16 := by
        have hlt : 15 < 2 ^ w := lt_of_lt_of_le (by decide) (Nat.pow_le_pow_right (by decide) hw)
        have h15 : (0xf : BitVec w).toNat = 2 ^ 4 - 1 := by
          rw [BitVec.ofNat_eq_ofNat, BitVec.toNat_ofNat]
          exact Nat.mod_eq_of_lt hlt
        rw [← hshift k (Nat.lt_succ_self k), BitVec.toNat_and, h15,
          Nat.and_two_pow_sub_one_eq_mod]
      rw [digitsLoop, ih fun i hi => hshift i (by omega), hmask, hexText, hexText,
        List.range_succ, List.reverse_append]
      rfl

theorem toNat_ushiftRight_digit (num : BitVec w) (i : ℕ) :
  (num.ushiftRight (4 * i)).toNat % 16 = num.toNat / 16 ^ i % 16
  := by
  change (num >>> (4 * i)).toNat % 16 = _
  rw [BitVec.toNat_ushiftRight, Nat.shiftRight_eq_div_pow, pow_mul, show 2 ^ 4 = 16 from rfl]

theorem printBitcnt_unsigned (num : BitVec w) (hw : 4 ≤ w) (base : Byte) {k : ℕ} :
  printBitcnt num.ushiftRight base (4 * k)
    = if base = baseHex then hexText k num.toNat else []
  := by
  rw [printBitcnt, Nat.mul_div_cancel_left _ (by decide)]
  congr 1
  apply digitsLoop_eq hw
  intro i hi
  exact toNat_ushiftRight_digit num i

theorem printBitcnt_signed (num : BitVec w) (hw : 4 ≤ w) (base : Byte) {k : ℕ}
    (hk : 4 * k ≤ w) :
  printBitcnt num.sshiftRight base (4 * k)
    = if base = baseHex then hexText k num.toNat else []
  := by
  rw [printBitcnt, Nat.mul_div_cancel_left _ (by decide)]
  congr 1
  apply digitsLoop_eq hw
  intro i hi
  -- the sign is shifted into the digits above
  have hlow : (num.sshiftRight (4 * i)).setWidth 4 = (num.ushiftRight (4 * i)).setWidth 4 := by
    apply BitVec.eq_of_getLsbD_eq
    intro j hj
    have hin : 4 * i + j < w := by omega
    have hj' : ¬ w ≤ j := by omega
    rw [BitVec.getLsbD_setWidth, BitVec.getLsbD_setWidth, BitVec.getLsbD_sshiftRight, if_pos hin]
    change _ = (_ && (num >>> (4 * i)).getLsbD j)
    rw [BitVec.getLsbD_ushiftRight]
    simp [hj']
  have hdigit := congrArg BitVec.toNat hlow
  rw [BitVec.toNat_setWidth, BitVec.toNat_setWidth] at hdigit
  exact hdigit.trans (toNat_ushiftRight_digit num i)

end Digits

theorem printStr_append {cs : List Byte} (hcs : 0 ∉ cs) (rest : List Byte) :
  printStr (cs ++ 0 :: rest) = some cs
  := by
  induction cs with
  | nil => rfl
  | cons c cs ih =>
      rw [List.mem_cons, not_or] at hcs
      rw [List.cons_append, printStr, if_pos (Ne.symm hcs.1), ih hcs.2]
      rfl

/-! ### Hexdumps -/

section Hexdump

variable {a : U64} {data : ℤ → Byte} {len : ℤ} {lo mid hi : ℕ}

theorem bytesText_nil (h : hi ≤ lo) :
  bytesText a data lo hi = []
  := by
  rw [bytesText, Nat.sub_eq_zero_of_le h]
  rfl

theorem bytesText_succ (h : lo < hi) :
  bytesText a data lo hi
    = byteText (a + BitVec.ofNat 64 lo) lo (data lo) ++ bytesText a data (lo + 1) hi
  := by
  rw [bytesText, show hi - lo = hi - (lo + 1) + 1 by omega, List.range'_succ, List.flatMap_cons]
  rfl

theorem bytesText_append (h₁ : lo ≤ mid) (h₂ : mid ≤ hi) :
  bytesText a data lo hi = bytesText a data lo mid ++ bytesText a data mid hi
  := by
  obtain ⟨m, rfl⟩ := Nat.exists_eq_add_of_le h₁
  obtain ⟨n, rfl⟩ := Nat.exists_eq_add_of_le h₂
  rw [bytesText, bytesText, bytesText, ← List.flatMap_append, Nat.add_sub_cancel_left,
    Nat.add_sub_cancel_left, List.range'_append_1, Nat.add_assoc, Nat.add_sub_cancel_left]

theorem hexdumpByte_eq {i lOff : ℕ} (hi : i % 16 = lOff) (b : Byte) :
  hexdumpByte a lOff b = byteText a i b
  := by
  have haddr : printUint64 a baseHex = hexText 16 a.toNat :=
    printBitcnt_unsigned a (by decide) baseHex (k := 16)
  have hbyte : printUint8 b baseHex = hexText 2 b.toNat :=
    printBitcnt_unsigned b (by decide) baseHex (k := 2)
  rw [hexdumpByte, byteText, hi, haddr, hbyte]

/-- A line, from the byte that the inner loop has come to. -/
theorem lineLoop_eq {n off : ℕ} (hoff : 16 ∣ off) {left : ℕ} (hleft : left ≤ 16) :
  lineLoop a data n off left = bytesText a data (off + (16 - left)) (min n (off + 16))
  := by
  induction left with
  | zero => exact (bytesText_nil (by omega)).symm
  | succ left ih =>
      have hsum : (off : ℤ) + (16 - (left + 1) : ℕ) = (off + (16 - (left + 1)) : ℕ) :=
        (Nat.cast_add _ _).symm
      rw [lineLoop, hsum, BitVec.ofInt_natCast]
      split
      next hlt =>
        have hlt' : off + (16 - (left + 1)) < min n (off + 16) := by omega
        have hmod : (off + (16 - (left + 1))) % 16 = 16 - (left + 1) := by omega
        rw [ih (by omega), bytesText_succ hlt', hexdumpByte_eq hmod,
          show off + (16 - (left + 1)) + 1 = off + (16 - left) by omega]
      next hge => exact (bytesText_nil (by omega)).symm

/-- The lines, from the one that the outer loop has come to. -/
theorem hexdumpLoop_eq {n : ℕ} (hn : n ≤ 2 ^ 31 - 16) {turns off : ℕ} (hoff : 16 ∣ off)
    (hturns : n - off < turns) :
  hexdumpLoop a data n turns off = some (bytesText a data off n)
  := by
  induction turns generalizing off with
  | zero => cases hturns
  | succ turns ih =>
      rw [hexdumpLoop]
      split
      next hlt =>
        have hnext : Int.bmod ((off : ℤ) + 16) (2 ^ 32) = (off + 16 : ℕ) := by
          have hcast : (off : ℤ) + 16 = (off + 16 : ℕ) := by omega
          rw [hcast]
          apply toInt32_of_lt
          omega
        rw [hnext, ih (by omega) (by omega), lineLoop_eq hoff le_rfl, Option.map_some]
        apply congrArg some
        rcases Nat.le_total n (off + 16) with hle | hge
        · rw [Nat.min_eq_left hle, bytesText_nil hle, List.append_nil]
          rfl
        · rw [Nat.min_eq_right hge]
          exact (bytesText_append (Nat.le_add_right off 16) hge).symm
      next hge => rw [bytesText_nil (by omega)]

/-- For the lengths above, the offset wraps around before it comes to the length. -/
theorem hexdumpLoop_eq_none (hlen : 2 ^ 31 - 16 < len) {turns : ℕ} {off : ℤ} (hoff : 16 ∣ off)
    (hlo : -2 ^ 31 ≤ off) (hhi : off ≤ 2 ^ 31 - 16) :
  hexdumpLoop a data len turns off = none
  := by
  induction turns generalizing off with
  | zero => rfl
  | succ turns ih =>
      have hnext : Int.bmod (off + 16) (2 ^ 32)
          = if off = 2 ^ 31 - 16 then -2 ^ 31 else off + 16 := by
        rw [Int.bmod_def]
        split <;> omega
      rw [hexdumpLoop, if_pos (by omega), hnext, ih]
      · rfl
      · split <;> omega
      · split <;> omega
      · split <;> omega

/-- `print_hexdump` ends just for the lengths up to 2³¹ - 16, with the text. -/
theorem printHexdump_eq (hlen : len ≤ 2 ^ 31 - 16) {turns : ℕ} (hturns : len.toNat < turns) :
  printHexdump turns a data len = some (hexdumpText a data len.toNat)
  := by
  rw [printHexdump, hexdumpText]
  rcases Int.le_total 0 len with hnonneg | hneg
  · obtain ⟨n, rfl⟩ := Int.eq_ofNat_of_zero_le hnonneg
    have hloop : hexdumpLoop a data n turns (0 : ℕ) = some (bytesText a data 0 n) :=
      hexdumpLoop_eq (by omega) (Nat.dvd_zero 16) (by omega)
    rw [Nat.cast_zero] at hloop
    rw [hloop]
    rfl
  · obtain ⟨turns, rfl⟩ := Nat.exists_eq_add_of_lt hturns
    rw [Int.toNat_of_nonpos hneg, Nat.zero_add, hexdumpLoop, if_neg (not_lt.mpr hneg),
      bytesText_nil le_rfl]
    rfl

theorem printHexdump_eq_none (hlen : ¬ len ≤ 2 ^ 31 - 16) (turns : ℕ) :
  printHexdump turns a data len = none
  := by
  rw [printHexdump, hexdumpLoop_eq_none (not_le.mp hlen) (Int.dvd_zero 16) (by decide) (by decide)]
  rfl

end Hexdump

/-- What a call sends is the text that it is for. -/
theorem printed_eq {call : Call} (hends : call.Ends) :
  ∃ n, ∀ turns > n, call.printed turns = some call.text
  := by
  cases call with
  | str s rest => exact ⟨0, fun _ _ => printStr_append s.nonzero rest⟩
  | ptr num =>
      exact ⟨0, fun _ _ => congrArg some (printBitcnt_unsigned num (by decide) baseHex (k := 16))⟩
  | int8 num base =>
      exact ⟨0, fun _ _ => congrArg some (printBitcnt_signed num (by decide) base (k := 2) le_rfl)⟩
  | int16 num base =>
      exact ⟨0, fun _ _ => congrArg some (printBitcnt_signed num (by decide) base (k := 4) le_rfl)⟩
  | int32 num base =>
      exact ⟨0, fun _ _ => congrArg some (printBitcnt_signed num (by decide) base (k := 8) le_rfl)⟩
  | int64 num base =>
      exact ⟨0, fun _ _ => congrArg some (printBitcnt_signed num (by decide) base (k := 16) le_rfl)⟩
  | uint8 num base =>
      exact ⟨0, fun _ _ => congrArg some (printBitcnt_unsigned num (by decide) base (k := 2))⟩
  | uint16 num base =>
      exact ⟨0, fun _ _ => congrArg some (printBitcnt_unsigned num (by decide) base (k := 4))⟩
  | uint32 num base =>
      exact ⟨0, fun _ _ => congrArg some (printBitcnt_unsigned num (by decide) base (k := 8))⟩
  | uint64 num base =>
      exact ⟨0, fun _ _ => congrArg some (printBitcnt_unsigned num (by decide) base (k := 16))⟩
  | hexdump a data len => exact ⟨len.toNat, fun _ hturns => printHexdump_eq hends hturns⟩

theorem printed_eq_none {call : Call} (hends : ¬ call.Ends) (turns : ℕ) :
  call.printed turns = none
  := by
  cases call with
  | hexdump a data len => exact printHexdump_eq_none hends turns
  | _ => exact absurd trivial hends

/-! ### What goes out -/

section Sending

variable {pace : ℕ → ℕ} {s : Serial}

/-- The port when the byte that waits has gone out. -/
def drained (s : Serial) : Serial :=
  match s.holding with
  | none => s
  | some b => { s with holding := none, left := 0, line := s.line ++ [b] }

/-- The status says whether a byte waits that the line is not ready for. -/
theorem isTransmitEmpty_eq (s : Serial) :
  isTransmitEmpty s = if s.holding ≠ none ∧ s.left ≠ 0 then (false, { s with left := s.left - 1 })
    else (true, drained s)
  := by
  rw [isTransmitEmpty, drained]
  cases hholding : s.holding with
  | none => simp [Serial.status, hholding]
  | some b =>
      cases hleft : s.left with
      | zero => simp [Serial.status, hholding, hleft]
      | succ n => simp [Serial.status, hholding, hleft]

/-- The loop ends when the byte that waits has gone out. -/
theorem waitEmpty_eq {turns : ℕ} (hturns : s.left < turns) :
  waitEmpty turns s = some (drained s)
  := by
  induction turns generalizing s with
  | zero => cases hturns
  | succ turns ih =>
      rw [waitEmpty, isTransmitEmpty_eq]
      split
      next hbusy =>
        rw [if_neg Bool.false_ne_true, ih (by dsimp only; omega), drained, drained]
        cases hholding : s.holding with
        | none => exact absurd hholding hbusy.1
        | some b => rfl
      next => rw [if_pos rfl]

theorem drained_line :
  (drained s).line = s.sent
  := by
  rw [drained, Serial.sent]
  cases hholding : s.holding with
  | none => exact (List.append_nil _).symm
  | some b => rfl

theorem drained_lcr :
  (drained s).lcr = s.lcr
  := by
  rw [drained]
  split <;> rfl

theorem drained_divisor :
  (drained s).dll = s.dll ∧ (drained s).dlm = s.dlm
  := by
  rw [drained]
  split <;> exact ⟨rfl, rfl⟩

/-- A byte that is written to the port. -/
theorem outb_data (hdlab : s.dlab = false) (b : Byte) :
  outb pace s serialOut b = { s with holding := some b, left := pace s.line.length }
  := by
  rw [outb, Serial.write, BitVec.sub_self, if_pos (show (0#16).toNat = 0 from rfl), hdlab]
  rfl

/-- The bytes are sent after the ones before them, and none is lost. -/
theorem sendAll_sent (pace : ℕ → ℕ) (hdlab : s.dlab = false) (bs : List Byte) :
  ∃ n s', (∀ turns ≥ n, sendAll pace turns bs s = some s') ∧ s'.sent = s.sent ++ bs
    ∧ s'.lcr = s.lcr ∧ s'.dll = s.dll ∧ s'.dlm = s.dlm
  := by
  induction bs generalizing s with
  | nil => exact ⟨0, s, fun _ _ => rfl, (List.append_nil _).symm, rfl, rfl, rfl⟩
  | cons b bs ih =>
      have hdlab' : (drained s).dlab = false := by
        rw [Serial.dlab, drained_lcr]
        exact hdlab
      obtain ⟨n, s', hsend, hsent, hlcr, hdll, hdlm⟩ := ih (s := outb pace (drained s) serialOut b)
        (by rwa [outb_data hdlab'])
      rw [outb_data hdlab'] at hsent hlcr hdll hdlm
      refine ⟨max (s.left + 1) n, s', ?_, ?_, hlcr.trans drained_lcr,
        hdll.trans drained_divisor.1, hdlm.trans drained_divisor.2⟩
      · intro turns hturns
        rw [sendAll, waitEmpty_eq (by omega)]
        exact hsend turns (by omega)
      · rw [hsent, Serial.sent]
        dsimp only
        rw [drained_line, Option.toList_some, List.append_assoc, List.singleton_append]

/-- `debug_init` sets up the divisor and the line, and sends nothing. -/
theorem debugInit_eq (pace : ℕ → ℕ) (s : Serial) :
  (debugInit pace s).sent = s.sent ∧ (debugInit pace s).dlab = false
    ∧ (debugInit pace s).lcr = 0x03 ∧ (debugInit pace s).dll = 1 ∧ (debugInit pace s).dlm = 0
  := by
  have hline : ∀ (s : Serial) b, outb pace s (serialOut + 3) b = { s with lcr := b } :=
    fun _ _ => rfl
  have hhigh : ∀ (s : Serial) b, outb pace s (serialOut + 1) b
      = if s.dlab then { s with dlm := b } else { s with ier := b } := fun _ _ => rfl
  have hlow : ∀ (s : Serial) b, outb pace s serialOut b
      = if s.dlab then { s with dll := b }
        else { s with holding := some b, left := pace s.line.length } := fun _ _ => rfl
  have hdlab : ∀ s : Serial, s.lcr = 0x80 → s.dlab = true := by
    intro s hlcr
    rw [Serial.dlab, hlcr]
    decide
  have hsent : (outb pace s (serialOut + 1) 0).sent = s.sent := by
    rw [hhigh]
    split <;> rfl
  have hinit : debugInit pace s
      = { outb pace s (serialOut + 1) 0 with lcr := 0x03, dll := 1, dlm := 0 } := by
    rw [debugInit]
    generalize outb pace s (serialOut + 1) 0 = s₁
    dsimp only
    rw [hline s₁, hlow, if_pos (hdlab _ rfl), hhigh, if_pos (hdlab _ rfl), hline]
  rw [hinit]
  exact ⟨hsent, (by decide : (0x03 : Byte).getLsbD 7 = false), rfl, rfl, rfl⟩

/-- The calls send their texts, one after the other. -/
theorem run_sent (pace : ℕ → ℕ) (hdlab : s.dlab = false) {calls : List Call}
    (hends : ∀ call ∈ calls, call.Ends) :
  ∃ n s', (∀ turns ≥ n, run pace turns calls s = some s')
    ∧ s'.sent = s.sent ++ calls.flatMap Call.text
    ∧ s'.lcr = s.lcr ∧ s'.dll = s.dll ∧ s'.dlm = s.dlm
  := by
  induction calls generalizing s with
  | nil => exact ⟨0, s, fun _ _ => rfl, (List.append_nil _).symm, rfl, rfl, rfl⟩
  | cons call calls ih =>
      obtain ⟨hcall, hcalls⟩ := List.forall_mem_cons.mp hends
      obtain ⟨m, hprinted⟩ := printed_eq hcall
      obtain ⟨n, s₁, hsend, hsent, hlcr, hdll, hdlm⟩ := sendAll_sent pace hdlab call.text
      obtain ⟨n', s', hrun, hsent', hlcr', hdll', hdlm'⟩ := ih (s := s₁)
        (by rwa [Serial.dlab, hlcr]) hcalls
      refine ⟨max (m + 1) (max n n'), s', ?_, ?_, hlcr'.trans hlcr, hdll'.trans hdll,
        hdlm'.trans hdlm⟩
      · intro turns hturns
        rw [run, hprinted turns (by omega), Option.bind_some, hsend turns (by omega),
          Option.bind_some, hrun turns (by omega)]
      · rw [hsent', hsent, List.flatMap_cons, List.append_assoc]

/-- A call that does not come to its end keeps the others from it. -/
theorem run_eq_none {turns : ℕ} {calls : List Call} (hends : ∃ call ∈ calls, ¬ call.Ends) :
  run pace turns calls s = none
  := by
  induction calls generalizing s with
  | nil =>
      obtain ⟨call, hmem, -⟩ := hends
      cases hmem
  | cons call calls ih =>
      rw [run, Option.bind_eq_none_iff]
      intro bs hbs
      rw [Option.bind_eq_none_iff]
      intro s₁ _
      apply ih
      obtain ⟨c, hmem, hc⟩ := hends
      rcases List.mem_cons.mp hmem with rfl | hmem
      · rw [printed_eq_none hc turns] at hbs
        cases hbs
      · exact ⟨c, hmem, hc⟩

/-- However slow the line is, the calls come to their end unless one of them is of `print_hexdump`
for more than 2³¹ - 16 bytes; and if they do, the line carries the texts of the calls, with nothing
lost, twice or in between. -/
theorem printed_of_run (pace : ℕ → ℕ) (s : Serial) (calls : List Call) :
  ((∃ n s', run pace n calls (debugInit pace s) = some s') ↔ ∀ call ∈ calls, call.Ends)
    ∧ ((∀ call ∈ calls, call.Ends) →
      ∃ n s', (∀ turns ≥ n, run pace turns calls (debugInit pace s) = some s')
        ∧ s'.sent = s.sent ++ calls.flatMap Call.text
        ∧ s'.lcr = 0x03 ∧ s'.dll = 1 ∧ s'.dlm = 0)
  := by
  obtain ⟨hsent₀, hdlab, hlcr₀, hdll₀, hdlm₀⟩ := debugInit_eq pace s
  have hrun (hends : ∀ call ∈ calls, call.Ends) := run_sent pace hdlab hends
  constructor
  · constructor
    · rintro ⟨n, s', hsome⟩
      by_contra hends
      rw [run_eq_none (by simpa using hends)] at hsome
      cases hsome
    · intro hends
      obtain ⟨n, s', hrun', -⟩ := hrun hends
      exact ⟨n, s', hrun' n le_rfl⟩
  · intro hends
    obtain ⟨n, s', hrun', hsent, hlcr, hdll, hdlm⟩ := hrun hends
    exact ⟨n, s', hrun', hsent.trans (by rw [hsent₀]), hlcr.trans hlcr₀, hdll.trans hdll₀,
      hdlm.trans hdlm₀⟩

end Sending

end Debug
