import Gubernatrix.Lib.CString

/-!
# Comparison of bytes and of strings

`memcmp`, `strncmp` and `strcmp` of `string.c`. A pointer is the list of the bytes from it on, and
a byte that is read where there is none is a fault. `memcmp` and `strncmp` subtract bytes as
unsigned numbers, and `strcmp` subtracts values of `char`, which is signed.
-/

namespace Strings

open CStrings

/-- `int`. -/
abbrev Int32 := BitVec 32

/-- `memcmp`. The count is decremented before it is tested. -/
def memcmp : (s1 s2 : List Byte) → (n : BitVec 64) → Option Int32
  | x :: s1, y :: s2, n =>
      if x = y then
        if n - 1 = 0 then some 0 else memcmp s1 s2 (n - 1)
      else some (x.setWidth 32 - y.setWidth 32)
  | _, _, _ => none

/-- `strncmp`. The zero at the end of a string is a byte as the others are. -/
def strncmp : (n : ℕ) → (s1 s2 : List Byte) → Option Int32
  | 0, _, _ => some 0
  | n + 1, x :: s1, y :: s2 =>
      if x ≠ y then some (x.setWidth 32 - y.setWidth 32) else strncmp n s1 s2
  | _ + 1, _, _ => none

/-- `strcmp`. -/
def strcmp : (s1 s2 : List Byte) → Option Int32
  | x :: s1, y :: s2 =>
      if x = y ∧ x ≠ 0 ∧ y ≠ 0 then strcmp s1 s2 else some (x.signExtend 32 - y.signExtend 32)
  | _, _ => none

/-! ### What is returned -/

/-- The order that the sign of a returned number stands for. -/
def sign (r : Int32) : Ordering :=
  if r.toInt < 0 then .lt else if r.toInt = 0 then .eq else .gt

/-- What is returned for the first difference. -/
def returned (convert : Byte → Int32) : Option (Byte × Byte) → Int32
  | none => 0
  | some (x, y) => convert x - convert y

theorem sign_eq_iff (r : Int32) :
  sign r = .eq ↔ r = 0
  := by
  rw [← BitVec.toInt_inj, sign]
  have hzero : (0 : Int32).toInt = 0 := rfl
  rw [hzero]
  split
  · have hne : r.toInt ≠ 0 := by omega
    simp [hne]
  · split <;> simp_all

/-- Numbers with few bits are subtracted without a wrap. -/
theorem sign_sub {x y : Int32} (hx : -256 ≤ x.toInt ∧ x.toInt < 256)
    (hy : -256 ≤ y.toInt ∧ y.toInt < 256) :
  sign (x - y) = if x.toInt < y.toInt then .lt else if x.toInt = y.toInt then .eq else .gt
  := by
  have hsub : (x - y).toInt = x.toInt - y.toInt := by
    rw [BitVec.toInt_sub, Int.bmod_eq_of_le (by omega) (by omega)]
  rw [sign, hsub]
  congr 1
  · exact propext ⟨Int.lt_of_sub_neg, Int.sub_neg_of_lt⟩
  · congr 1
    exact propext Int.sub_eq_zero

theorem toInt_setWidth (x : Byte) :
  (x.setWidth 32).toInt = x.toNat
  := by
  have hlt := x.isLt
  rw [BitVec.toInt_eq_toNat_of_lt, BitVec.toNat_setWidth_of_le (by decide)]
  rw [BitVec.toNat_setWidth_of_le (by decide)]
  omega

/-- An unsigned difference has the sign of the order of the bytes. -/
theorem sign_unsigned (d : Option (Byte × Byte)) :
  sign (returned (fun x => x.setWidth 32) d) = differenceOrder d
  := by
  cases d with
  | none => rfl
  | some d =>
    obtain ⟨x, y⟩ := d
    have hx := x.isLt
    have hy := y.isLt
    rw [returned, sign_sub, toInt_setWidth, toInt_setWidth, differenceOrder, byteOrder]
    · simp only [Int.ofNat_lt, Int.ofNat_inj, BitVec.lt_def, BitVec.toNat_inj]
    · rw [toInt_setWidth]
      omega
    · rw [toInt_setWidth]
      omega

/-- A signed difference has the sign of the order of the bytes just if these agree in their highest
bit. -/
theorem sign_signed_iff {x y : Byte} (h : x ≠ y) :
  sign (returned (fun x => x.signExtend 32) (some (x, y))) = byteOrder x y ↔ x.msb = y.msb
  := by
  have hextend : ∀ x : Byte, (x.signExtend 32).toInt = x.toInt :=
    fun x => BitVec.toInt_signExtend_of_le (by decide)
  have hlow : ∀ x : Byte, -256 ≤ (x.signExtend 32).toInt ∧ (x.signExtend 32).toInt < 256 := by
    intro x
    have hle := BitVec.le_toInt x
    have hlt := BitVec.toInt_lt (x := x)
    rw [hextend]
    omega
  have hint : x.toInt ≠ y.toInt := fun h' => h (BitVec.eq_of_toInt_eq h')
  have hbranch : ∀ p q : Prop, [Decidable p] → [Decidable q] →
      ((if p then Ordering.lt else .gt) = (if q then .lt else .gt) ↔ (p ↔ q)) := by
    intro p q _ _
    by_cases hp : p <;> by_cases hq : q <;> simp [hp, hq]
  rw [returned, sign_sub (hlow x) (hlow y), hextend, hextend, if_neg hint, byteOrder, if_neg h,
    hbranch, BitVec.lt_def, BitVec.toInt_eq_toNat_cond, BitVec.toInt_eq_toNat_cond,
    BitVec.msb_eq_decide, BitVec.msb_eq_decide, decide_eq_decide]
  have hx := x.isLt
  have hy := y.isLt
  split <;> split <;> omega

/-! ### `memcmp` -/

theorem memcmp_eq {a b rest rest' : List Byte} {n : BitVec 64} (hn : n ≠ 0)
    (ha : a.length = n.toNat) (hb : b.length = n.toNat) :
  memcmp (a ++ rest) (b ++ rest') n
    = some (returned (fun x => x.setWidth 32) (firstDifference a b))
  := by
  have hpos : n.toNat ≠ 0 := fun h => hn (BitVec.eq_of_toNat_eq h)
  induction a generalizing b n with
  | nil => exact absurd ha.symm hpos
  | cons x a ih =>
    cases b with
    | nil => exact absurd hb.symm hpos
    | cons y b =>
      have hlt := n.isLt
      have hpred : (n - 1).toNat = n.toNat - 1 := by
        rw [BitVec.toNat_sub_of_le]
        · rfl
        · rw [BitVec.le_def]
          exact Nat.one_le_iff_ne_zero.mpr hpos
      rw [List.length_cons] at ha hb
      rw [List.cons_append, List.cons_append, memcmp]
      by_cases hxy : x = y
      · rw [if_pos hxy, hxy, firstDifference_cons_self]
        by_cases hone : n - 1 = 0
        · have hzero : (n - 1).toNat = 0 := congrArg BitVec.toNat hone
          obtain rfl : a = [] := List.eq_nil_of_length_eq_zero (by omega)
          rw [if_pos hone]
          rfl
        · rw [if_neg hone]
          exact ih hone (by omega) (by omega) fun h => hone (BitVec.eq_of_toNat_eq h)
      · rw [if_neg hxy, firstDifference_cons_of_ne hxy]
        rfl

/-- `memcmp` compares the first bytes of two arrays, and reads no others. -/
structure Compares (a b : List Byte) (n : BitVec 64) (r : Int32) : Prop where
  reads : ∀ rest rest', memcmp (a ++ rest) (b ++ rest') n = some r
  equal : r = 0 ↔ a = b
  sign : sign r = differenceOrder (firstDifference a b)

/-- `memcmp` counts from zero to the highest number, and so compares the first bytes of two arrays
unless it is called for none. -/
theorem memcmp_iff {a b : List Byte} {n : BitVec 64} (ha : a.length = n.toNat)
    (hb : b.length = n.toNat) :
  (∃ r, Compares a b n r) ↔ n ≠ 0
  := by
  constructor
  · rintro ⟨r, hr⟩ rfl
    obtain rfl : a = [] := List.eq_nil_of_length_eq_zero ha
    obtain rfl : b = [] := List.eq_nil_of_length_eq_zero hb
    cases hr.reads [] []
  · intro hn
    have hsign := sign_unsigned (firstDifference a b)
    refine ⟨_, fun _ _ => memcmp_eq hn ha hb, ?_, hsign⟩
    rw [← sign_eq_iff, hsign, differenceOrder_eq_iff,
      firstDifference_eq_none_iff (ha.trans hb.symm)]

/-- The last bytes of `SSDT` and `SSDU` differ. -/
theorem memcmp_iff_signature :
  ∃ r, Compares [0x53, 0x53, 0x44, 0x54] [0x53, 0x53, 0x44, 0x55] 4 r
  := (memcmp_iff rfl rfl).mpr (by decide)

/-- No bytes of different arrays are equal, but their first bytes are compared. -/
theorem not_memcmp :
  ¬ ∀ a b : List Byte, ∀ n : BitVec 64, a.length = n.toNat → b.length = n.toNat →
    ∃ r, Compares a b n r
  := by
  intro h
  obtain ⟨r, hr⟩ := h [] [] 0 rfl rfl
  have hread : memcmp [1] [2] 0 = some (-1) := by decide
  have hzero : r = 0 := hr.equal.mpr rfl
  have hr' := hr.reads [1] [2]
  rw [List.nil_append, List.nil_append, hread, hzero] at hr'
  exact absurd hr' (by decide)

/-! ### `strcmp` and `strncmp` -/

/-- `strcmp` returns for two strings what their first difference says, zeros included. -/
theorem strcmp_eq {a b rest rest' : List Byte} (ha : 0 ∉ a) (hb : 0 ∉ b) :
  strcmp (a ++ 0 :: rest) (b ++ 0 :: rest')
    = some (returned (fun x => x.signExtend 32) (firstDifference (a ++ [0]) (b ++ [0])))
  := by
  induction a generalizing b with
  | nil =>
    cases b with
    | nil => rfl
    | cons y b =>
      have hy := (ne_zero_of_cons hb).symm
      rw [List.nil_append, List.cons_append, strcmp, if_neg fun h => hy h.1, List.nil_append,
        List.cons_append, firstDifference_cons_of_ne hy]
      rfl
  | cons x a ih =>
    have hx := ne_zero_of_cons ha
    cases b with
    | nil =>
      rw [List.nil_append, List.cons_append, strcmp, if_neg fun h => hx h.1, List.nil_append,
        List.cons_append, firstDifference_cons_of_ne hx]
      rfl
    | cons y b =>
      have hy := ne_zero_of_cons hb
      rw [List.cons_append, List.cons_append, strcmp, List.cons_append, List.cons_append]
      by_cases hxy : x = y
      · rw [if_pos ⟨hxy, hx, hy⟩, hxy, firstDifference_cons_self]
        exact ih (zero_notMem_of_cons ha) (zero_notMem_of_cons hb)
      · rw [if_neg fun h => hxy h.1, firstDifference_cons_of_ne hxy]
        rfl

/-- `strncmp` returns what the first difference says, if there is one or there are enough bytes. -/
theorem strncmp_eq {n : ℕ} {s1 s2 : List Byte}
    (h : (firstDifference (s1.take n) (s2.take n)).isSome ∨ n ≤ s1.length ∧ n ≤ s2.length)
    (rest rest' : List Byte) :
  strncmp n (s1 ++ rest) (s2 ++ rest')
    = some (returned (fun x => x.setWidth 32) (firstDifference (s1.take n) (s2.take n)))
  := by
  induction n generalizing s1 s2 with
  | zero => rfl
  | succ n ih =>
    cases s1 with
    | nil =>
      obtain hsome | hlen := h
      · cases hsome
      · exact absurd hlen.1 (Nat.not_succ_le_zero n)
    | cons x s1 =>
      cases s2 with
      | nil =>
        obtain hsome | hlen := h
        · cases hsome
        · exact absurd hlen.2 (Nat.not_succ_le_zero n)
      | cons y s2 =>
        rw [List.take_succ_cons, List.take_succ_cons] at h ⊢
        rw [List.cons_append, List.cons_append, strncmp]
        by_cases hxy : x = y
        · rw [hxy, firstDifference_cons_self, List.length_cons, List.length_cons,
            Nat.add_le_add_iff_right, Nat.add_le_add_iff_right] at h
          rw [if_neg (not_not.mpr hxy), hxy, firstDifference_cons_self]
          exact ih h
        · rw [if_pos hxy, firstDifference_cons_of_ne hxy]
          rfl

/-- `strncmp` does not stop at the end of equal strings. -/
theorem strncmp_self {n : ℕ} {s : List Byte} (h : s.length < n) :
  strncmp n s s = none
  := by
  induction s generalizing n with
  | nil =>
    cases n with
    | zero => cases h
    | succ n => rfl
  | cons x s ih =>
    cases n with
    | zero => cases h
    | succ n =>
      rw [strncmp, if_neg (not_not.mpr rfl)]
      exact ih (Nat.lt_of_succ_lt_succ h)

/-- `strcmp` and `strncmp` return the order of two strings, and of what is left of them when they
are cut. -/
structure Ordered (a b : CString) (n : ℕ) (r r' : Int32) : Prop where
  strcmp : Returns₂ strcmp a b r
  strncmp : Returns₂ (strncmp n) a b r'
  sign_strcmp : sign r = order a.chars b.chars
  sign_strncmp : sign r' = order (a.chars.take n) (b.chars.take n)
  agree : a.chars.length < n → b.chars.length < n → sign r' = sign r

/-- The bytes at the first difference of two strings agree in their highest bit, and equal strings
are not compared after their zeros. -/
def Comparable (a b : CString) (n : ℕ) : Prop :=
  match firstDifference (a.chars ++ [0]) (b.chars ++ [0]) with
  | none => n ≤ a.chars.length + 1
  | some (x, y) => x.msb = y.msb

/-- The first difference is found, or there are enough bytes before it. -/
theorem enough_of_difference {s1 s2 : List Byte} {d : Byte × Byte} (n : ℕ)
    (h : firstDifference s1 s2 = some d) :
  (firstDifference (s1.take n) (s2.take n)).isSome ∨ n ≤ s1.length ∧ n ≤ s2.length
  := by
  induction s1 generalizing s2 n with
  | nil => cases h
  | cons x s1 ih =>
    cases s2 with
    | nil => cases h
    | cons y s2 =>
      cases n with
      | zero => exact .inr ⟨Nat.zero_le _, Nat.zero_le _⟩
      | succ n =>
        rw [List.take_succ_cons, List.take_succ_cons]
        by_cases hxy : x = y
        · rw [hxy, firstDifference_cons_self] at h
          rw [hxy, firstDifference_cons_self, List.length_cons, List.length_cons,
            Nat.add_le_add_iff_right, Nat.add_le_add_iff_right]
          exact ih n h
        · rw [firstDifference_cons_of_ne hxy]
          exact .inl rfl

/-- The strings are compared as they should be if `strcmp` is right and `strncmp` does not read too
much. -/
theorem ordered_of_enough {a b : CString} {n : ℕ}
    (hsign : sign (returned (fun x => x.signExtend 32)
      (firstDifference (a.chars ++ [0]) (b.chars ++ [0]))) = order a.chars b.chars)
    (henough : (firstDifference ((a.chars ++ [0]).take n) ((b.chars ++ [0]).take n)).isSome
      ∨ n ≤ (a.chars ++ [0]).length ∧ n ≤ (b.chars ++ [0]).length) :
  ∃ r r', Ordered a b n r r'
  := by
  have hreads := strncmp_eq henough
  simp only [List.append_assoc] at hreads
  refine ⟨_, _, fun _ _ => strcmp_eq a.nonzero b.nonzero, hreads, hsign, ?_, ?_⟩
  · rw [sign_unsigned, order_take a.nonzero b.nonzero]
  · intro ha hb
    have hlen : ∀ s : List Byte, s.length < n → (s ++ [0]).take n = s ++ [0] := by
      intro s hs
      apply List.take_of_length_le
      rwa [List.length_append]
    rw [hsign, sign_unsigned, hlen _ ha, hlen _ hb, order_eq a.nonzero b.nonzero]

/-- `strcmp` subtracts signed bytes, and `strncmp` does not stop at the end of equal strings. Both
return the order of two strings just if neither makes a difference. -/
theorem compare_iff (a b : CString) (n : ℕ) :
  (∃ r r', Ordered a b n r r') ↔ Comparable a b n
  := by
  unfold Comparable
  cases hd : firstDifference (a.chars ++ [0]) (b.chars ++ [0]) with
  | none =>
    have hab := eq_of_firstDifference a.nonzero b.nonzero hd
    constructor
    · rintro ⟨r, r', h⟩
      by_contra hle
      have hreads := h.strncmp [] []
      rw [CString.followed, CString.followed, ← hab, strncmp_self] at hreads
      · cases hreads
      · rw [List.length_append]
        exact Nat.lt_of_not_le hle
    · intro hle
      apply ordered_of_enough
      · rw [hd, order_eq a.nonzero b.nonzero, hd]
        rfl
      · rw [← hab, List.length_append]
        exact .inr ⟨hle, hle⟩
  | some d =>
    obtain ⟨x, y⟩ := d
    have hsigned := sign_signed_iff (firstDifference_ne hd)
    have horder : order a.chars b.chars = byteOrder x y := by
      rw [order_eq a.nonzero b.nonzero, hd]
      rfl
    constructor
    · rintro ⟨r, r', h⟩
      have hr := (h.strcmp [] []).symm.trans (strcmp_eq a.nonzero b.nonzero)
      rw [hd] at hr
      apply hsigned.mp
      rw [← Option.some.inj hr, h.sign_strcmp, horder]
    · intro hmsb
      apply ordered_of_enough
      · rw [hd, horder]
        exact hsigned.mpr hmsb
      · exact enough_of_difference n hd

/-- The byte `0xff` is after every other one, but it is `-1` as a `char`. -/
theorem not_compare :
  ¬ ∀ a b : CString, ∀ n : ℕ, ∃ r r', Ordered a b n r r'
  := by
  intro h
  obtain ⟨r, r', hr⟩ := h ⟨[0xff], by decide, by decide⟩ ⟨[1], by decide, by decide⟩ 1
  have hread : strcmp [0xff, 0] [1, 0] = some (-2) := by decide
  obtain rfl := Option.some.inj ((hr.strcmp [] []).symm.trans hread)
  exact absurd hr.sign_strcmp (by decide)

end Strings
