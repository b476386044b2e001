import Gubernatrix.Lib.Bits
import Gubernatrix.Lib.CString
import Mathlib.Data.BitVec
import Mathlib.Data.Nat.Digits.Defs
import Mathlib.Logic.Function.Basic
import Mathlib.Tactic.Linarith

/-!
# Numbers as text

The conversions of `stdlib.c`. `itoa` and `ltoa` are one function at two widths: it writes the
digits of a number from the last one on, and turns them round in place. `atoi` makes room for the
next digit each time it has read one, and gives the room back when there is none. A buffer is the
memory from a pointer on, and an `int` is a word whose operations wrap around.
-/

namespace Stdlib

open CStrings (writeAll writeAll_of_lt writeAll_get writeAll_update)

/-- `char`. -/
abbrev Char8 := BitVec 8

/-- The memory from a pointer on. -/
abbrev Buf := ℕ → Char8

/-- `int`. -/
abbrev Int32 := BitVec 32

/-! ### `itoa` and `ltoa` -/

/-- The character that is written for a digit. -/
def digitChar (v : Char8) : Char8 :=
  if v.sle 9 then 0x30 + v
  else if v.sle 35 then 0x61 + (v - 10)
  else 0

/-- The loop of `itoa` that writes the digits of `tmp` from `len` on, for at most the given number
of turns: the buffer after it, and the length. -/
def digitsLoop {w : ℕ} (base : BitVec w) : ℕ → (tmp : BitVec w) → Buf → (len : ℕ) →
    Option (Buf × ℕ)
  | 0, _, _, _ => none
  | turns + 1, tmp, dst, len =>
      if tmp ≠ 0 then
        let c := digitChar ((tmp % base).setWidth 8)
        digitsLoop base turns (tmp / base)
          (Function.update (Function.update dst len c) (len + 1) 0) (len + 1)
      else some (dst, len)

/-- The loop of `itoa` that turns round what is in the buffer between `start` and `len`, which takes
at most the given number of turns. -/
def reverseLoop : ℕ → Buf → (start len : ℕ) → Buf
  | 0, dst, _, _ => dst
  | turns + 1, dst, start, len =>
      if start < len then
        let t := dst start
        let dst := Function.update dst start (dst (len - 1))
        reverseLoop turns (Function.update dst (len - 1) t) (start + 1) (len - 1)
      else dst

/-- The common body of `itoa` and `ltoa`, at the width of `val`: the buffer after it. It is `none`
when they return `NULL`, and when they do not return. -/
def toText {w : ℕ} (val : BitVec w) (dst : Buf) (base : Int32) : Option Buf :=
  if base = 0 then none
  else if val = 0 then some (Function.update (Function.update dst 0 0x30) 1 0)
  else do
    let tmp := if val.slt 0 ∧ base = 10 then -val else val
    let (dst, len) ← digitsLoop (base.signExtend w) (w + 1) tmp dst 0
    let (dst, len) :=
      if val.slt 0 ∧ base = 10 then
        (Function.update (Function.update dst len 0x2d) (len + 1) 0, len + 1)
      else (dst, len)
    some (reverseLoop len dst 0 len)

/-- `itoa`. -/
def itoa (val : Int32) (dst : Buf) (base : Int32) : Option Buf := toText val dst base

/-- `ltoa`. -/
def ltoa (val : BitVec 64) (dst : Buf) (base : Int32) : Option Buf := toText val dst base

/-! ### `atoi` -/

/-- What `atoi` adds for a character, and `none` if it stops there. -/
def hexValue (c : Char8) : Option Int32 :=
  if (0x30 : Char8).sle c ∧ c.sle 0x39 then some (c.signExtend 32 - 0x30)
  else if (0x61 : Char8).sle c ∧ c.sle 0x66 then some (c.signExtend 32 - 0x61 + 10)
  else if (0x41 : Char8).sle c ∧ c.sle 0x46 then some (c.signExtend 32 - 0x41 + 10)
  else none

/-- The loop of `atoi`, for at most the given number of turns. -/
def atoiLoop : ℕ → (ptr : Buf) → (val : Int32) → Option Int32
  | 0, _, _ => none
  | turns + 1, ptr, val =>
      match hexValue (ptr 0) with
      | some digit => atoiLoop turns (fun k => ptr (k + 1)) ((val ||| digit) <<< 4)
      | none => some (val.sshiftRight 4)

/-- `atoi`, for at most the given number of turns of its loop. -/
def atoi (turns : ℕ) (ptr : Buf) (base : Int32) : Option Int32 :=
  if base = 16 then atoiLoop turns ptr 0 else some (-1)

/-! ### Hexadecimal text -/

/-- The character is a hexadecimal digit, in either case. -/
def IsDigit (c : Char8) (d : ℕ) : Prop :=
  d < 10 ∧ c.toNat = 48 + d
    ∨ 10 ≤ d ∧ d < 16 ∧ (c.toNat = 97 + (d - 10) ∨ c.toNat = 65 + (d - 10))

instance (c : Char8) (d : ℕ) : Decidable (IsDigit c d) :=
  inferInstanceAs (Decidable (_ ∨ _))

/-- The text is made of these digits, and what follows is not a digit. -/
structure Spells (ptr : Buf) (ds : List ℕ) : Prop where
  digits : ∀ k (hk : k < ds.length), IsDigit (ptr k) ds[k]
  stop : ∀ d, ¬ IsDigit (ptr ds.length) d

/-- The number with these digits, the first one being the highest. -/
def expansion (ds : List ℕ) : ℕ := Nat.ofDigits 16 ds.reverse

/-- `itoa` prints the pattern of the number, as an unsigned one. -/
def Prints (v : Int32) (buf : Buf) : Prop :=
  ∃ buf' ds, itoa v buf 16 = some buf' ∧ Spells buf' ds ∧ expansion ds = v.toNat

/-- `atoi` returns this number for a hexadecimal text. -/
def Returns (ptr : Buf) (r : Int32) : Prop := ∃ turns, atoi turns ptr 16 = some r

/-- `atoi` reads the number back that `itoa` prints. -/
def RoundTrips (v : Int32) (buf : Buf) : Prop :=
  ∃ buf', itoa v buf 16 = some buf' ∧ Returns buf' v

/-- The upper five bits of the number are equal. -/
def Narrow (v : Int32) : Prop := -2 ^ 27 ≤ v.toInt ∧ v.toInt < 2 ^ 27

instance (v : Int32) : Decidable (Narrow v) := inferInstanceAs (Decidable (_ ∧ _))

/-! ### Reading -/

/-- What is left of a number after room was made for a digit and given back. -/
def shiftBack (x : Int32) : Int32 := (x <<< 4).sshiftRight 4

theorem IsDigit.lt {c : Char8} {d : ℕ} (h : IsDigit c d) :
  d < 16
  := by
  unfold IsDigit at h
  omega

theorem hexValue_of_isDigit {c : Char8} {d : ℕ} (h : IsDigit c d) :
  hexValue c = some (BitVec.ofNat 32 d)
  := by
  have key : ∀ c : Char8, ∀ d < 16, IsDigit c d → hexValue c = some (BitVec.ofNat 32 d) := by
    decide +kernel
  exact key c d h.lt h

theorem hexValue_eq_none {c : Char8} (h : ∀ d, ¬ IsDigit c d) :
  hexValue c = none
  := by
  have key : ∀ c : Char8, (∀ d < 16, ¬ IsDigit c d) → hexValue c = none := by decide +kernel
  exact key c fun d _ => h d

theorem Spells.tail {ptr : Buf} {d : ℕ} {ds : List ℕ} (h : Spells ptr (d :: ds)) :
  Spells (fun k => ptr (k + 1)) ds
  := by
  constructor
  · intro k hk
    exact h.digits (k + 1) (Nat.succ_lt_succ hk)
  · exact h.stop

/-- A digit is joined to a number that was moved up by one digit. -/
theorem join_digit (n : ℕ) {d : ℕ} (hd : d < 16) :
  BitVec.ofNat 32 n <<< 4 ||| BitVec.ofNat 32 d = BitVec.ofNat 32 (n * 16 + d)
  := by
  have hlt : d % 2 ^ 32 < 2 ^ 4 := by omega
  have hshift : n % 2 ^ 32 * 2 ^ 4 % 2 ^ 32 = n % 2 ^ 28 * 2 ^ 4 := by omega
  apply BitVec.eq_of_toNat_eq
  rw [BitVec.toNat_or, BitVec.toNat_shiftLeft, BitVec.toNat_ofNat, BitVec.toNat_ofNat,
    BitVec.toNat_ofNat, Nat.shiftLeft_eq, hshift, Bits.or_low _ hlt]
  omega

/-- The loop of `atoi` reads the digits, one after the other, up to the character that is none. -/
theorem atoiLoop_spells {ptr : Buf} {ds : List ℕ} (h : Spells ptr ds) (n : ℕ) :
  atoiLoop (ds.length + 1) ptr (BitVec.ofNat 32 n <<< 4)
    = some (shiftBack (BitVec.ofNat 32 (n * 16 ^ ds.length + expansion ds)))
  := by
  induction ds generalizing ptr n with
  | nil =>
    have hstop : ∀ d, ¬ IsDigit (ptr 0) d := h.stop
    rw [atoiLoop, hexValue_eq_none hstop, List.length_nil, pow_zero, Nat.mul_one]
    rfl
  | cons d ds ih =>
    have hd := h.digits 0 (Nat.succ_pos _)
    rw [List.getElem_cons_zero] at hd
    have hvalue : n * 16 ^ (d :: ds).length + expansion (d :: ds)
        = (n * 16 + d) * 16 ^ ds.length + expansion ds := by
      rw [expansion, List.reverse_cons, Nat.ofDigits_append, List.length_reverse,
        Nat.ofDigits_singleton, List.length_cons, pow_succ, expansion]
      ring
    rw [List.length_cons, atoiLoop, hexValue_of_isDigit hd]
    dsimp only
    rw [join_digit n hd.lt, ih h.tail, ← hvalue, List.length_cons]

/-- Whatever number of turns it takes, the result is the same. -/
theorem atoiLoop_unique :
  ∀ {turns turns' : ℕ} {ptr : Buf} {val r r' : Int32}, atoiLoop turns ptr val = some r →
    atoiLoop turns' ptr val = some r' → r = r'
  | 0, _, _, _, _, _, h, _ => by cases h
  | _ + 1, 0, _, _, _, _, _, h' => by cases h'
  | turns + 1, turns' + 1, ptr, val, r, r', h, h' => by
      rw [atoiLoop] at h h'
      cases hdigit : hexValue (ptr 0) with
      | some digit =>
          rw [hdigit] at h h'
          exact atoiLoop_unique h h'
      | none =>
          rw [hdigit] at h h'
          exact (Option.some.inj h).symm.trans (Option.some.inj h')

/-- `atoi` returns for every hexadecimal text, and the room for one more digit is lost. -/
theorem returns_iff {ptr : Buf} {ds : List ℕ} (h : Spells ptr ds) (r : Int32) :
  Returns ptr r ↔ r = shiftBack (BitVec.ofNat 32 (expansion ds))
  := by
  have hloop := atoiLoop_spells h 0
  have hzero : BitVec.ofNat 32 0 <<< 4 = 0 := by decide
  rw [hzero, Nat.zero_mul, Nat.zero_add] at hloop
  constructor
  · rintro ⟨turns, hturns⟩
    rw [atoi, if_pos rfl] at hturns
    exact atoiLoop_unique hturns hloop
  · rintro rfl
    use ds.length + 1
    rw [atoi, if_pos rfl, hloop]

/-- A number is the same after room was made for a digit and given back just if it is narrow. -/
theorem shiftBack_eq_iff (x : Int32) :
  shiftBack x = x ↔ Narrow x
  := by
  unfold Narrow
  have hshift : (↑(x.toNat <<< 4) : ℤ) = x.toNat * 16 := by
    rw [Nat.shiftLeft_eq]
    push_cast
    rfl
  have hint : (shiftBack x).toInt = ((x.toNat : ℤ) * 16).bmod (2 ^ 32) / 16 := by
    rw [shiftBack, BitVec.toInt_sshiftRight, Int.shiftRight_eq_div_pow, BitVec.toInt_shiftLeft,
      ← hshift]
    rfl
  have hlt := x.isLt
  rw [← BitVec.toInt_inj, hint, BitVec.toInt_eq_toNat_cond, Int.bmod]
  norm_num
  split <;> split <;> omega

/-! ### Printing -/

/-- The digits from `len` on are these, what is before is as it was, and a zero follows if there
is a digit or there was a zero. -/
structure Written (dst dst' : Buf) (len : ℕ) (ds : List ℕ) : Prop where
  before : ∀ k < len, dst' k = dst k
  digits : ∀ k (hk : k < ds.length), IsDigit (dst' (len + k)) ds[k]
  stop : ds ≠ [] ∨ dst len = 0 → dst' (len + ds.length) = 0

theorem isDigit_digitChar :
  ∀ d < 16, IsDigit (digitChar (BitVec.ofNat 8 d)) d
  := by decide

/-- The characters of the digits of a number, the lowest first. -/
def digitChars (base n : ℕ) : List Char8 :=
  (Nat.digits base n).map fun d => digitChar (BitVec.ofNat 8 d)

/-- The digits of a number are written, the lowest first, and a zero after them. -/
theorem digitsLoop_eq {w : ℕ} {base : BitVec w} (hbase : 1 < base.toNat) :
  ∀ (turns : ℕ) (tmp : BitVec w) (dst : Buf) (len : ℕ), tmp ≠ 0 → tmp.toNat < 2 ^ turns →
    digitsLoop base (turns + 1) tmp dst len
      = some (writeAll dst len (digitChars base.toNat tmp.toNat ++ [0]),
          len + (Nat.digits base.toNat tmp.toNat).length)
  | turns, tmp, dst, len, htmp, hlt => by
      have hpos : 0 < tmp.toNat := by
        apply Nat.pos_of_ne_zero
        intro hnat
        apply htmp
        exact BitVec.eq_of_toNat_eq hnat
      obtain ⟨turns, rfl⟩ : ∃ turns', turns = turns' + 1 := by
        cases turns with
        | zero => omega
        | succ turns' => exact ⟨turns', rfl⟩
      have hsmall : (tmp / base).toNat < 2 ^ turns := by
        rw [BitVec.toNat_udiv]
        apply Nat.div_lt_of_lt_mul
        calc tmp.toNat < 2 ^ (turns + 1) := hlt
          _ = 2 * 2 ^ turns := pow_succ' 2 turns
          _ ≤ base.toNat * 2 ^ turns := Nat.mul_le_mul_right _ hbase
      have hchar : (tmp % base).setWidth 8 = BitVec.ofNat 8 (tmp.toNat % base.toNat) := by
        rw [← BitVec.toNat_umod, BitVec.ofNat_toNat]
      rw [digitsLoop, if_pos htmp, digitChars, Nat.digits_def' hbase hpos, List.map_cons,
        List.length_cons, List.cons_append, ← BitVec.toNat_udiv, hchar, writeAll]
      dsimp only
      by_cases hlast : tmp / base = 0
      · have hnat : (tmp / base).toNat = 0 := congrArg BitVec.toNat hlast
        rw [hnat, Nat.digits_zero, digitsLoop, if_neg (not_not.mpr hlast)]
        rfl
      · rw [digitsLoop_eq hbase turns _ _ _ hlast hsmall, writeAll_update _ _ _ (by simp),
          digitChars, Nat.add_assoc, Nat.add_comm 1]

/-- The loop that turns the buffer round. -/
theorem reverseLoop_apply :
  ∀ (turns : ℕ) (dst : Buf) (start len : ℕ), len ≤ start + 2 * turns → ∀ k,
    reverseLoop turns dst start len k
      = if start ≤ k ∧ k < len then dst (start + (len - 1 - k)) else dst k
  | 0, dst, start, len, hturns, k => by
      rw [reverseLoop, if_neg]
      omega
  | turns + 1, dst, start, len, hturns, k => by
      rw [reverseLoop]
      by_cases hlt : start < len
      · rw [if_pos hlt, reverseLoop_apply turns _ (start + 1) (len - 1) (by omega) k]
        have hlast : Function.update (Function.update dst start (dst (len - 1))) (len - 1)
            (dst start) (len - 1) = dst start := Function.update_self _ _ _
        have hother : ∀ l, l ≠ start → l ≠ len - 1 →
            Function.update (Function.update dst start (dst (len - 1))) (len - 1) (dst start) l
              = dst l := by
          intro l hl hl'
          rw [Function.update_of_ne hl', Function.update_of_ne hl]
        have hfirst : Function.update (Function.update dst start (dst (len - 1))) (len - 1)
            (dst start) start = dst (len - 1) := by
          by_cases hone : start = len - 1
          · rw [hone, Function.update_self]
          · rw [Function.update_of_ne hone, Function.update_self]
        by_cases hinside : start + 1 ≤ k ∧ k < len - 1
        · rw [if_pos hinside, if_pos (by omega), hother _ (by omega) (by omega)]
          congr 1
          omega
        · rw [if_neg hinside]
          by_cases hk : k = start
          · rw [hk, hfirst, if_pos (by omega)]
            congr 1
            omega
          · by_cases hk' : k = len - 1
            · rw [hk', hlast, if_pos (by omega)]
              congr 1
              omega
            · rw [hother k hk hk', if_neg (by omega)]
      · rw [if_neg hlt, if_neg]
        omega

theorem not_isDigit_zero (d : ℕ) :
  ¬ IsDigit 0 d
  := by
  have hzero : (0 : Char8).toNat = 0 := rfl
  unfold IsDigit
  rw [hzero]
  omega

/-- Hexadecimal digits and a zero after them are written. -/
theorem written_writeAll (dst : Buf) (len n : ℕ) :
  Written dst (writeAll dst len (digitChars 16 n ++ [0])) len (Nat.digits 16 n)
  := by
  have hlength : (digitChars 16 n).length = (Nat.digits 16 n).length := List.length_map _
  constructor
  · intro k hk
    exact writeAll_of_lt hk
  · intro k hk
    have hsmall : (Nat.digits 16 n)[k] < 16 :=
      Nat.digits_lt_base (by decide) (List.getElem_mem hk)
    have hk' : k < (digitChars 16 n).length := hlength ▸ hk
    rw [writeAll_get dst len (by rw [List.length_append]; omega), List.getElem_append_left hk']
    simp only [digitChars, List.getElem_map]
    exact isDigit_digitChar _ hsmall
  · intro _
    rw [← hlength, writeAll_get dst len (by simp)]
    simp

/-- Digits that were turned round are spelled from the first one on. -/
theorem Written.spells {dst dst' : Buf} {ds : List ℕ} (h : Written dst dst' 0 ds) (hne : ds ≠ []) :
  Spells (reverseLoop ds.length dst' 0 ds.length) ds.reverse
  := by
  have hreverse := reverseLoop_apply ds.length dst' 0 ds.length (by omega)
  constructor
  · intro k hk
    rw [List.length_reverse] at hk
    rw [hreverse k, if_pos ⟨Nat.zero_le k, hk⟩, List.getElem_reverse]
    exact h.digits _ _
  · have hstop := h.stop (.inl hne)
    rw [Nat.zero_add] at hstop
    rw [List.length_reverse, hreverse, if_neg (by omega), hstop]
    exact not_isDigit_zero

/-- The number that is printed in base 16 is the pattern of the number, also of a negative one. -/
theorem toText_spells {w : ℕ} (hw : 5 ≤ w) (v : BitVec w) (dst : Buf) :
  ∃ dst' ds, toText v dst 16 = some dst' ∧ Spells dst' ds ∧ expansion ds = v.toNat
  := by
  have hbase : ((16 : Int32).signExtend w).toNat = 16 := by
    rw [BitVec.signExtend_eq_setWidth_of_msb_false rfl, BitVec.toNat_setWidth]
    apply Nat.mod_eq_of_lt
    calc 16 < 2 ^ 5 := by decide
      _ ≤ 2 ^ w := Nat.pow_le_pow_right (by decide) hw
  have hsixteen : ¬ (16 : Int32) = 0 := by decide
  have hten : ¬ (v.slt 0 ∧ (16 : Int32) = 10) := by
    rintro ⟨_, h⟩
    exact absurd h (by decide)
  rw [toText, if_neg hsixteen]
  by_cases hzero : v = 0
  · rw [if_pos hzero]
    refine ⟨_, [0], rfl, ⟨?_, ?_⟩, ?_⟩
    · intro k hk
      obtain rfl : k = 0 := Nat.lt_one_iff.mp hk
      left
      exact ⟨Nat.zero_lt_succ 9, rfl⟩
    · exact not_isDigit_zero
    · rw [hzero]
      exact BitVec.toNat_zero.symm
  · have hne : Nat.digits 16 v.toNat ≠ [] := by
      rw [Nat.digits_ne_nil_iff_ne_zero]
      intro hnat
      apply hzero
      exact BitVec.eq_of_toNat_eq hnat
    have hone : 1 < ((16 : Int32).signExtend w).toNat := by
      rw [hbase]
      decide
    have hloop := digitsLoop_eq hone w v dst 0 hzero v.isLt
    rw [hbase, Nat.zero_add] at hloop
    refine ⟨_, _, ?_, (written_writeAll dst 0 v.toNat).spells hne, ?_⟩
    · rw [if_neg hzero, if_neg hten]
      dsimp only
      rw [hloop, Option.bind_eq_bind, Option.bind_some]
      dsimp only
      rw [if_neg hten]
    · rw [expansion, List.reverse_reverse, Nat.ofDigits_digits]

/-! ### There and back -/

/-- `atoi` makes room for a digit that does not come, and the upper four bits are lost there: the
number that was printed comes back, and a text is read as its digits say, just if the upper five
bits are equal. -/
theorem hex_iff (v : Int32) (buf : Buf) {ptr : Buf} {ds : List ℕ} (h : Spells ptr ds) :
  (Prints v buf ∧ RoundTrips v buf ↔ Narrow v)
    ∧ (Returns ptr (BitVec.ofNat 32 (expansion ds)) ↔ Narrow (BitVec.ofNat 32 (expansion ds)))
  := by
  constructor
  · obtain ⟨buf', ds', hitoa, hspells, hvalue⟩ := toText_spells (by decide : 5 ≤ 32) v buf
    have hback : Returns buf' v ↔ Narrow v := by
      rw [returns_iff hspells, hvalue, BitVec.ofNat_toNat, BitVec.setWidth_eq, eq_comm,
        shiftBack_eq_iff]
    rw [← hback]
    constructor
    · rintro ⟨-, buf'', hitoa', hreturns⟩
      obtain rfl : buf' = buf'' := Option.some.inj (hitoa.symm.trans hitoa')
      exact hreturns
    · intro hreturns
      constructor
      · exact ⟨buf', ds', hitoa, hspells, hvalue⟩
      · exact ⟨buf', hitoa, hreturns⟩
  · rw [returns_iff h, eq_comm, shiftBack_eq_iff]

/-- The text `7F`. -/
def text7F : Buf
  | 0 => 0x37
  | 1 => 0x46
  | _ => 0

theorem spells_text7F :
  Spells text7F [7, 15]
  := by
  constructor
  · decide
  · exact not_isDigit_zero

/-- `-1` is printed with eight digits, and is read again. -/
theorem hex_iff_neg_one :
  Spells text7F [7, 15] ∧ RoundTrips (-1) (fun _ => 0) ∧ Returns text7F 127
  := by
  obtain ⟨hback, hreads⟩ := hex_iff (-1) (fun _ => 0) spells_text7F
  exact ⟨spells_text7F, (hback.mpr (by decide)).2, hreads.mpr (by decide)⟩

/-- 2²⁷ is printed as `8000000`, which is read as −2²⁷. -/
theorem not_hex :
  ¬ ((∀ v buf, Prints v buf ∧ RoundTrips v buf)
    ∧ ∀ ptr ds, Spells ptr ds → ds.length ≤ 8 → Returns ptr (BitVec.ofNat 32 (expansion ds)))
  := by
  rintro ⟨hback, -⟩
  obtain ⟨-, buf', hitoa, turns, hturns⟩ := hback 0x8000000 fun _ => 0
  have hread : (itoa 0x8000000 (fun _ => 0) 16).bind (fun buf => atoi 8 buf 16)
      = some 0xf8000000 := by
    decide
  rw [hitoa, Option.bind_some, atoi, if_pos rfl] at hread
  rw [atoi, if_pos rfl] at hturns
  exact absurd (atoiLoop_unique hturns hread) (by decide)

end Stdlib
