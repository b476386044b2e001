import Gubernatrix.Stdlib
import Mathlib.Data.Nat.Digits.Lemmas

/-!
# Numerals

`itoa` and `ltoa` write the numeral of a number in a base: the digits are written from the last one
on, then the sign, and the text is turned round. A negative number has a sign in base 10 only, and
in each other base its pattern is written, as an unsigned number.
-/

namespace Stdlib

open CStrings

/-- The character of a digit: `0` to `9`, and then `a` to `z`. -/
def numeralChar (d : ℕ) : Char8 :=
  if d < 10 then BitVec.ofNat 8 (0x30 + d) else BitVec.ofNat 8 (0x61 + (d - 10))

/-- The number is written with a sign. -/
def Signed {w : ℕ} (val : BitVec w) (base : Int32) : Prop := base = 10 ∧ val.toInt < 0

instance {w : ℕ} (val : BitVec w) (base : Int32) : Decidable (Signed val base) :=
  inferInstanceAs (Decidable (_ ∧ _))

/-- The number that is written after the sign. -/
def magnitude {w : ℕ} (val : BitVec w) (base : Int32) : ℕ :=
  if base = 10 then val.toInt.natAbs else val.toNat

/-- The buffer contains the numeral with these digits. -/
structure Canonical {w : ℕ} (val : BitVec w) (base : Int32) (buf : Buf) (ds : List ℕ) : Prop where
  text : Terminated buf ((if Signed val base then [0x2d] else []) ++ ds.map numeralChar)
  minus : buf 0 = 0x2d ↔ Signed val base
  digits : ∀ d ∈ ds, d < base.toNat
  leading : ds ≠ [] ∧ (ds.head? = some 0 → ds = [0])
  value : Nat.ofDigits base.toNat ds.reverse = magnitude val base

theorem digitChar_eq :
  ∀ d < 36, digitChar (BitVec.ofNat 8 d) = numeralChar d
  := by decide

theorem numeralChar_ne :
  ∀ d < 36, numeralChar d ≠ 0 ∧ numeralChar d ≠ 0x2d
  := by decide

/-- A string that was turned round is a string. -/
theorem terminated_reverse {buf : Buf} {cs : List Char8} (h : Terminated buf cs) :
  Terminated (reverseLoop cs.length buf 0 cs.length) cs.reverse
  := by
  have hreverse := reverseLoop_apply cs.length buf 0 cs.length (by omega)
  constructor
  · intro k hk
    rw [List.length_reverse] at hk
    rw [hreverse k, if_pos ⟨Nat.zero_le k, hk⟩, Nat.zero_add, h.chars _ (by omega),
      List.getElem_reverse]
  · rw [List.length_reverse, hreverse, if_neg (by omega), h.stop]
  · rw [List.mem_reverse]
    exact h.nonzero

theorem slt_zero_iff {w : ℕ} (val : BitVec w) :
  val.slt 0 ↔ val.toInt < 0
  := by
  rw [BitVec.slt_eq_decide, decide_eq_true_iff]
  exact iff_of_eq (congrArg _ BitVec.toInt_zero)

theorem signed_iff {w : ℕ} (val : BitVec w) (base : Int32) :
  val.slt 0 ∧ base = 10 ↔ Signed val base
  := by rw [slt_zero_iff, and_comm, Signed]

/-- The number that the digits are taken from is the magnitude, also of the lowest number. -/
theorem toNat_magnitude {w : ℕ} (val : BitVec w) (base : Int32) :
  (if val.slt 0 ∧ base = 10 then -val else val).toNat = magnitude val base
  := by
  have hlt := val.isLt
  have hint := BitVec.toInt_eq_toNat_cond val
  generalize hpow : 2 ^ w = p at hlt hint
  simp only [signed_iff]
  unfold magnitude
  by_cases hsigned : Signed val base
  · obtain ⟨hbase, hneg⟩ := hsigned
    rw [if_pos ⟨hbase, hneg⟩, if_pos hbase, BitVec.toNat_neg, hpow, Nat.mod_eq_of_lt]
    · split at hint <;> omega
    · split at hint <;> omega
  · rw [if_neg hsigned]
    by_cases hbase : base = 10
    · have hnonneg : ¬ val.toInt < 0 := fun h => hsigned ⟨hbase, h⟩
      rw [if_pos hbase]
      split at hint <;> omega
    · rw [if_neg hbase]

theorem toNat_signExtend {w : ℕ} (hw : 6 ≤ w) {base : Int32} (h : base.toNat ≤ 36) :
  (base.signExtend w).toNat = base.toNat
  := by
  have hmsb : base.msb = false := by
    rw [BitVec.msb_eq_false_iff_two_mul_lt]
    omega
  rw [BitVec.signExtend_eq_setWidth_of_msb_false hmsb, BitVec.toNat_setWidth]
  apply Nat.mod_eq_of_lt
  calc base.toNat ≤ 36 := h
    _ < 2 ^ 6 := by decide
    _ ≤ 2 ^ w := Nat.pow_le_pow_right (by decide) hw

/-- No digit is a sign. -/
theorem minus_iff {w : ℕ} {val : BitVec w} {base : Int32} {buf : Buf} {ds : List ℕ}
    (htext : Terminated buf ((if Signed val base then [0x2d] else []) ++ ds.map numeralChar))
    (hne : ds ≠ []) (hsmall : ∀ d ∈ ds, d < 36) :
  buf 0 = 0x2d ↔ Signed val base
  := by
  by_cases hsigned : Signed val base
  · rw [if_pos hsigned] at htext
    exact iff_of_true (htext.chars 0 (Nat.succ_pos _)) hsigned
  · rw [if_neg hsigned, List.nil_append] at htext
    cases ds with
    | nil => exact absurd rfl hne
    | cons d ds =>
      have hfirst : buf 0 = numeralChar d := htext.chars 0 (Nat.succ_pos _)
      rw [hfirst]
      exact iff_of_false (numeralChar_ne d (hsmall d List.mem_cons_self)).2 hsigned

/-- The digits of a number are turned round. -/
theorem reverse_digitChars {base : ℕ} (h2 : 1 < base) (h36 : base ≤ 36) (n : ℕ) :
  (digitChars base n).reverse = (Nat.digits base n).reverse.map numeralChar
  := by
  rw [digitChars, List.map_reverse]
  congr 1
  apply List.map_congr_left
  intro d hd
  exact digitChar_eq d ((Nat.digits_lt_base h2 hd).trans_le h36)

/-- The numeral of zero. -/
theorem canonical_zero {w : ℕ} {base : Int32} (h2 : 1 < base.toNat) (dst : Buf) :
  Canonical (0 : BitVec w) base (Function.update (Function.update dst 0 0x30) 1 0) [0]
  := by
  have hsigned : ¬ Signed (0 : BitVec w) base := by
    rintro ⟨-, hneg⟩
    have hzero : (0 : BitVec w).toInt = 0 := BitVec.toInt_zero
    exact absurd hneg hzero.not_lt
  have htext : Terminated (Function.update (Function.update dst 0 0x30) 1 0) [0x30] :=
    terminated_writeAll dst (s := [0x30]) (by decide)
  have hsmall : ∀ m, 0 < m → ∀ d ∈ [0], d < m := by
    intro m hm d hd
    rwa [List.mem_singleton.mp hd]
  have hnumeral : Terminated (Function.update (Function.update dst 0 0x30) 1 0)
      ((if Signed (0 : BitVec w) base then [0x2d] else []) ++ [0].map numeralChar) := by
    rw [if_neg hsigned]
    exact htext
  constructor
  · exact hnumeral
  · exact minus_iff hnumeral (List.cons_ne_nil _ _) (hsmall 36 (by decide))
  · exact hsmall _ (Nat.zero_lt_of_lt h2)
  · exact ⟨List.cons_ne_nil _ _, fun _ => rfl⟩
  · simp [magnitude]

/-- One more character is written over the zero, and a zero after it. -/
theorem update_writeAll (dst : Buf) (cs : List Char8) (c : Char8) :
  Function.update (Function.update (writeAll dst 0 (cs ++ [0])) cs.length c) (cs.length + 1) 0
    = writeAll dst 0 (cs ++ [c] ++ [0])
  := by
  rw [writeAll_append, Nat.zero_add, writeAll, writeAll, Function.update_idem, List.append_assoc,
    writeAll_append, Nat.zero_add]
  rfl

/-- The text of a number as it is written, from its last character on. -/
def backwards {w : ℕ} (val : BitVec w) (base : Int32) : List Char8 :=
  digitChars base.toNat (magnitude val base) ++ if Signed val base then [0x2d] else []

theorem reverse_backwards {w : ℕ} (val : BitVec w) {base : Int32} (h2 : 1 < base.toNat)
    (h36 : base.toNat ≤ 36) :
  (backwards val base).reverse = (if Signed val base then [0x2d] else [])
    ++ (Nat.digits base.toNat (magnitude val base)).reverse.map numeralChar
  := by
  rw [backwards, List.reverse_append, reverse_digitChars h2 h36]
  split
  · rfl
  · rfl

theorem zero_notMem_backwards {w : ℕ} (val : BitVec w) {base : Int32} (h2 : 1 < base.toNat)
    (h36 : base.toNat ≤ 36) :
  0 ∉ backwards val base
  := by
  rw [← List.mem_reverse, reverse_backwards val h2 h36, List.mem_append, not_or]
  constructor
  · split
    · decide
    · exact List.not_mem_nil
  · intro hmem
    obtain ⟨d, hd, hzero⟩ := List.mem_map.mp hmem
    have hlt : d < 36 := (Nat.digits_lt_base h2 (List.mem_reverse.mp hd)).trans_le h36
    exact (numeralChar_ne d hlt).1 hzero

theorem magnitude_ne_zero {w : ℕ} {val : BitVec w} (h : val ≠ 0) (base : Int32) :
  magnitude val base ≠ 0
  := by
  rw [← toNat_magnitude]
  intro hnat
  have hzero := BitVec.eq_of_toNat_eq (y := 0) hnat
  split at hzero
  · exact h (BitVec.neg_eq_zero_iff.mp hzero)
  · exact h hzero

theorem base_ne_zero {base : Int32} (h : 1 < base.toNat) :
  base ≠ 0
  := by
  rintro rfl
  exact absurd h (by decide)

/-- `itoa` and `ltoa` write the text from its last character on, and turn it round. -/
theorem toText_eq {w : ℕ} (hw : 6 ≤ w) {base : Int32} (h2 : 1 < base.toNat)
    (h36 : base.toNat ≤ 36) {val : BitVec w} (hval : val ≠ 0) (dst : Buf) :
  toText val dst base
    = some (reverseLoop (backwards val base).length
        (writeAll dst 0 (backwards val base ++ [0])) 0 (backwards val base).length)
  := by
  have hext := toNat_signExtend hw h36
  have hone : 1 < (base.signExtend w).toNat := hext ▸ h2
  have htmp : (if val.slt 0 ∧ base = 10 then -val else val) ≠ 0 := by
    intro hzero
    apply magnitude_ne_zero hval base
    rw [← toNat_magnitude, hzero]
    exact BitVec.toNat_zero
  have hloop := digitsLoop_eq hone w _ dst 0 htmp (BitVec.isLt _)
  have hlength : (Nat.digits base.toNat (magnitude val base)).length
      = (digitChars base.toNat (magnitude val base)).length := (List.length_map _).symm
  rw [hext, toNat_magnitude, Nat.zero_add, hlength] at hloop
  rw [toText, if_neg (base_ne_zero h2), if_neg hval, backwards]
  dsimp only
  rw [hloop, Option.bind_eq_bind, Option.bind_some]
  dsimp only
  by_cases hsigned : Signed val base
  · rw [if_pos ((signed_iff val base).mpr hsigned), if_pos hsigned, update_writeAll,
      List.length_append]
    rfl
  · rw [if_neg fun h => hsigned ((signed_iff val base).mp h), if_neg hsigned, List.append_nil]

/-- What is left in the buffer is the numeral of the number. -/
theorem toText_canonical {w : ℕ} (hw : 6 ≤ w) {base : Int32} (h2 : 1 < base.toNat)
    (h36 : base.toNat ≤ 36) (val : BitVec w) (dst : Buf) :
  ∃ dst' ds, toText val dst base = some dst' ∧ Canonical val base dst' ds
  := by
  by_cases hval : val = 0
  · rw [toText, if_neg (base_ne_zero h2), if_pos hval, hval]
    exact ⟨_, _, rfl, canonical_zero h2 dst⟩
  · have hmagnitude := magnitude_ne_zero hval base
    have hne : Nat.digits base.toNat (magnitude val base) ≠ [] :=
      Nat.digits_ne_nil_iff_ne_zero.mpr hmagnitude
    have hsmall : ∀ d ∈ (Nat.digits base.toNat (magnitude val base)).reverse, d < base.toNat := by
      intro d hd
      exact Nat.digits_lt_base h2 (List.mem_reverse.mp hd)
    have htext :=
      terminated_reverse (terminated_writeAll dst (zero_notMem_backwards val h2 h36))
    rw [reverse_backwards val h2 h36] at htext
    refine ⟨_, _, toText_eq hw h2 h36 hval dst, htext, ?_, hsmall, ?_, ?_⟩
    · apply minus_iff htext (List.reverse_ne_nil_iff.mpr hne)
      intro d hd
      exact (hsmall d hd).trans_le h36
    · refine ⟨List.reverse_ne_nil_iff.mpr hne, ?_⟩
      intro hhead
      rw [List.head?_reverse, List.getLast?_eq_some_getLast hne] at hhead
      exact absurd (Option.some.inj hhead) (Nat.getLast_digit_ne_zero _ hmagnitude)
    · rw [List.reverse_reverse, Nat.ofDigits_digits]

/-- `itoa` and `ltoa` write the numeral of each number in each base. -/
theorem canonical {base : Int32} (h2 : 2 ≤ base.toNat) (h36 : base.toNat ≤ 36) :
  (∀ (val : Int32) (dst : Buf), ∃ dst' ds, itoa val dst base = some dst'
      ∧ Canonical val base dst' ds)
    ∧ ∀ (val : BitVec 64) (dst : Buf), ∃ dst' ds, ltoa val dst base = some dst'
      ∧ Canonical val base dst' ds
  := ⟨toText_canonical (by decide) h2 h36, toText_canonical (by decide) h2 h36⟩

/-- The lowest numbers have a numeral in base 10. -/
theorem canonical_lowest :
  (∃ dst' ds, itoa 0x80000000 (fun _ => 0) 10 = some dst'
      ∧ Canonical (0x80000000 : Int32) 10 dst' ds)
    ∧ ∃ dst' ds, ltoa 0x8000000000000000 (fun _ => 0) 10 = some dst'
      ∧ Canonical (0x8000000000000000 : BitVec 64) 10 dst' ds
  := by
  have h2 : 2 ≤ (10 : Int32).toNat := by decide
  obtain ⟨hitoa, hltoa⟩ := canonical h2 (by decide)
  exact ⟨hitoa _ _, hltoa _ _⟩

end Stdlib
