import Mathlib.Data.BitVec
import Mathlib.Data.List.Basic
import Mathlib.Logic.Function.Basic
import Mathlib.Order.Bounds.Basic

/-!
# Strings that end with a zero

A string is a list of bytes other than zero. In memory it is followed by a zero, and by whatever is
there after it. A pointer that only moves forward is the list of the bytes from it on: what a
program does on the bytes of a string, with every list of bytes after them, it does without reading
any of these.

Strings are ordered by their first difference, as lists of unsigned bytes. The bytes of a string,
and the strings in it, are searched for by their positions.
-/

namespace CStrings

abbrev Byte := BitVec 8

/-- The bytes of a string, without the zero at its end; it fits an address space of 64 bits. -/
structure CString where
  chars : List Byte
  nonzero : 0 ∉ chars
  fits : chars.length < 2 ^ 64
deriving DecidableEq

/-- The string, its zero, and what is after it. -/
def CString.followed (s : CString) (rest : List Byte) : List Byte := s.chars ++ 0 :: rest

/-- The program returns this for the string, and does not read what is after it. -/
def Returns {α : Type} (f : List Byte → Option α) (s : CString) (r : α) : Prop :=
  ∀ rest, f (s.followed rest) = some r

/-- The program returns this for two strings, and does not read what is after them. -/
def Returns₂ {α : Type} (f : List Byte → List Byte → Option α) (s s' : CString) (r : α) : Prop :=
  ∀ rest rest', f (s.followed rest) (s'.followed rest') = some r

/-- The buffer contains this string, and a zero after it. -/
structure Terminated (buf : ℕ → Byte) (s : List Byte) : Prop where
  chars : ∀ k (hk : k < s.length), buf k = s[k]
  stop : buf s.length = 0
  nonzero : 0 ∉ s

/-! ### Writing -/

/-- The buffer after these bytes were written from `k` on. -/
def writeAll : (buf : ℕ → Byte) → (k : ℕ) → List Byte → (ℕ → Byte)
  | buf, _, [] => buf
  | buf, k, c :: cs => writeAll (Function.update buf k c) (k + 1) cs

theorem writeAll_of_lt {buf : ℕ → Byte} {k i : ℕ} {cs : List Byte} (h : i < k) :
  writeAll buf k cs i = buf i
  := by
  induction cs generalizing buf k with
  | nil => rfl
  | cons c cs ih => rw [writeAll, ih (Nat.lt_succ_of_lt h), Function.update_of_ne h.ne]

theorem writeAll_of_ge {buf : ℕ → Byte} {k i : ℕ} {cs : List Byte} (h : k + cs.length ≤ i) :
  writeAll buf k cs i = buf i
  := by
  induction cs generalizing buf k with
  | nil => rfl
  | cons c cs ih =>
    rw [List.length_cons] at h
    rw [writeAll, ih (by omega), Function.update_of_ne (by omega)]

theorem writeAll_get (buf : ℕ → Byte) (k : ℕ) {j : ℕ} {cs : List Byte} (h : j < cs.length) :
  writeAll buf k cs (k + j) = cs[j]
  := by
  induction cs generalizing buf k j with
  | nil => exact absurd h (Nat.not_lt_zero j)
  | cons c cs ih =>
    cases j with
    | zero => exact (writeAll_of_lt (Nat.lt_succ_self k)).trans (Function.update_self _ _ _)
    | succ j =>
      rw [writeAll, List.getElem_cons_succ, ← ih _ (k + 1) (Nat.lt_of_succ_lt_succ h),
        Nat.add_comm j, ← Nat.add_assoc]

/-- What is written over is lost. -/
theorem writeAll_update (buf : ℕ → Byte) (k : ℕ) (x : Byte) {cs : List Byte} (h : cs ≠ []) :
  writeAll (Function.update buf k x) k cs = writeAll buf k cs
  := by
  cases cs with
  | nil => exact absurd rfl h
  | cons c cs => rw [writeAll, Function.update_idem, writeAll]

theorem writeAll_append (buf : ℕ → Byte) (k : ℕ) (cs ds : List Byte) :
  writeAll buf k (cs ++ ds) = writeAll (writeAll buf k cs) (k + cs.length) ds
  := by
  induction cs generalizing buf k with
  | nil => rfl
  | cons c cs ih =>
    rw [List.cons_append, writeAll, ih, writeAll, List.length_cons, Nat.add_assoc k,
      Nat.add_comm 1]

/-- A buffer that contains a string contains the longer one that is written after it. -/
theorem terminated_append {buf : ℕ → Byte} {s t : List Byte}
    (hs : ∀ k (hk : k < s.length), buf k = s[k]) (h : 0 ∉ s ++ t) :
  Terminated (writeAll buf s.length (t ++ [0])) (s ++ t)
  := by
  constructor
  · intro k hk
    by_cases hlt : k < s.length
    · rw [writeAll_of_lt hlt, hs k hlt, List.getElem_append_left hlt]
    · obtain ⟨j, rfl⟩ := Nat.exists_eq_add_of_le (Nat.le_of_not_lt hlt)
      rw [List.length_append] at hk
      rw [writeAll_get _ _ (by rw [List.length_append]; omega), List.getElem_append_left (by omega),
        List.getElem_append_right (Nat.le_add_right _ _)]
      simp only [Nat.add_sub_cancel_left]
  · rw [List.length_append, writeAll_get _ _ (by simp)]
    simp
  · exact h

theorem terminated_writeAll (buf : ℕ → Byte) {s : List Byte} (h : 0 ∉ s) :
  Terminated (writeAll buf 0 (s ++ [0])) s
  := terminated_append (s := []) (fun k hk => absurd hk (Nat.not_lt_zero k)) h

/-- A string that is written without a zero is in the buffer just if there was one already. -/
theorem terminated_writeAll_iff {buf : ℕ → Byte} {s : List Byte} (h : 0 ∉ s) :
  Terminated (writeAll buf 0 s) s ↔ buf s.length = 0
  := by
  have hstop : writeAll buf 0 s s.length = buf s.length := writeAll_of_ge (Nat.zero_add _).le
  constructor
  · intro hs
    rw [← hstop, hs.stop]
  · intro hzero
    refine ⟨?_, hstop.trans hzero, h⟩
    intro k hk
    have hget := writeAll_get buf 0 hk
    rwa [Nat.zero_add] at hget

/-! ### The order -/

/-- Two bytes are compared as unsigned numbers. -/
def byteOrder (x y : Byte) : Ordering := if x < y then .lt else if x = y then .eq else .gt

/-- The order of two lists of bytes, in which a proper prefix comes first. -/
def order : List Byte → List Byte → Ordering := List.compareLex byteOrder

/-- The first pair of bytes that differ. -/
def firstDifference : List Byte → List Byte → Option (Byte × Byte)
  | x :: xs, y :: ys => if x = y then firstDifference xs ys else some (x, y)
  | _, _ => none

/-- The order of the bytes at the first difference. -/
def differenceOrder : Option (Byte × Byte) → Ordering
  | none => .eq
  | some (x, y) => byteOrder x y

theorem order_nil_nil :
  order [] [] = .eq
  := List.compareLex_nil_nil

theorem order_nil_cons (y : Byte) (ys : List Byte) :
  order [] (y :: ys) = .lt
  := List.compareLex_nil_cons

theorem order_cons_nil (x : Byte) (xs : List Byte) :
  order (x :: xs) [] = .gt
  := List.compareLex_cons_nil

theorem order_cons_self (x : Byte) (xs ys : List Byte) :
  order (x :: xs) (x :: ys) = order xs ys
  := by
  have hx : byteOrder x x = .eq := by
    rw [byteOrder, if_neg (BitVec.lt_irrefl x), if_pos rfl]
  rw [order, List.compareLex_cons_cons, hx]
  rfl

theorem order_cons_of_ne {x y : Byte} (h : x ≠ y) (xs ys : List Byte) :
  order (x :: xs) (y :: ys) = byteOrder x y
  := by
  rw [order, List.compareLex_cons_cons, byteOrder, if_neg h]
  split
  · rfl
  · rfl

theorem zero_lt_of_ne {x : Byte} (hx : x ≠ 0) :
  0 < x
  := by
  rw [BitVec.lt_def]
  apply Nat.pos_of_ne_zero
  intro hnat
  apply hx
  exact BitVec.eq_of_toNat_eq hnat

/-- The zero at the end of a string is before every byte of a string. -/
theorem byteOrder_zero_left {y : Byte} (hy : y ≠ 0) :
  byteOrder 0 y = .lt
  := by rw [byteOrder, if_pos (zero_lt_of_ne hy)]

theorem byteOrder_zero_right {x : Byte} (hx : x ≠ 0) :
  byteOrder x 0 = .gt
  := by
  have hlt : ¬ x < 0 := BitVec.not_lt_zero
  rw [byteOrder, if_neg hlt, if_neg hx]

theorem firstDifference_cons_of_ne {x y : Byte} (h : x ≠ y) (s s' : List Byte) :
  firstDifference (x :: s) (y :: s') = some (x, y)
  := by rw [firstDifference, if_neg h]

theorem firstDifference_cons_self (x : Byte) (s s' : List Byte) :
  firstDifference (x :: s) (x :: s') = firstDifference s s'
  := by rw [firstDifference, if_pos rfl]

theorem firstDifference_self (s : List Byte) :
  firstDifference s s = none
  := by
  induction s with
  | nil => rfl
  | cons x s ih => rw [firstDifference_cons_self, ih]

theorem firstDifference_ne {s s' : List Byte} {x y : Byte}
    (h : firstDifference s s' = some (x, y)) :
  x ≠ y
  := by
  induction s generalizing s' with
  | nil => cases h
  | cons u s ih =>
    cases s' with
    | nil => cases h
    | cons v s' =>
      by_cases huv : u = v
      · rw [huv, firstDifference_cons_self] at h
        exact ih h
      · rw [firstDifference_cons_of_ne huv] at h
        cases h
        exact huv

/-- Lists of one length that do not differ are equal. -/
theorem firstDifference_eq_none_iff {s s' : List Byte} (h : s.length = s'.length) :
  firstDifference s s' = none ↔ s = s'
  := by
  constructor
  · intro hnone
    induction s generalizing s' with
    | nil => exact (List.eq_nil_of_length_eq_zero h.symm).symm
    | cons x s ih =>
      cases s' with
      | nil => cases h
      | cons y s' =>
        by_cases hxy : x = y
        · rw [hxy, firstDifference_cons_self] at hnone
          rw [hxy, ih (Nat.succ.inj h) hnone]
        · rw [firstDifference_cons_of_ne hxy] at hnone
          cases hnone
  · rintro rfl
    exact firstDifference_self s

theorem byteOrder_ne_eq {x y : Byte} (h : x ≠ y) :
  byteOrder x y ≠ .eq
  := by
  rw [byteOrder, if_neg h]
  split <;> simp

theorem differenceOrder_eq_iff (s s' : List Byte) :
  differenceOrder (firstDifference s s') = .eq ↔ firstDifference s s' = none
  := by
  cases h : firstDifference s s' with
  | none => exact iff_of_true rfl rfl
  | some d =>
    apply iff_of_false
    · exact byteOrder_ne_eq (firstDifference_ne h)
    · exact Option.some_ne_none d

/-! ### Strings and their zeros -/

theorem ne_zero_of_cons {x : Byte} {s : List Byte} (h : 0 ∉ x :: s) :
  x ≠ 0
  := by
  rintro rfl
  exact h List.mem_cons_self

theorem zero_notMem_of_cons {x : Byte} {s : List Byte} (h : 0 ∉ x :: s) :
  0 ∉ s
  := by
  intro hmem
  exact h (List.mem_cons_of_mem x hmem)

/-- Two strings are equal if they do not differ, their zeros included. -/
theorem eq_of_firstDifference {a b : List Byte} (ha : 0 ∉ a) (hb : 0 ∉ b)
    (h : firstDifference (a ++ [0]) (b ++ [0]) = none) :
  a = b
  := by
  induction a generalizing b with
  | nil =>
    cases b with
    | nil => rfl
    | cons y b =>
      rw [List.nil_append, List.cons_append,
        firstDifference_cons_of_ne (ne_zero_of_cons hb).symm] at h
      cases h
  | cons x a ih =>
    cases b with
    | nil =>
      rw [List.nil_append, List.cons_append,
        firstDifference_cons_of_ne (ne_zero_of_cons ha)] at h
      cases h
    | cons y b =>
      rw [List.cons_append, List.cons_append] at h
      by_cases hxy : x = y
      · rw [hxy, firstDifference_cons_self] at h
        rw [hxy, ih (zero_notMem_of_cons ha) (zero_notMem_of_cons hb) h]
      · rw [firstDifference_cons_of_ne hxy] at h
        cases h

/-- The first difference of two strings that are cut, their zeros included, decides the order of
what is left of them. -/
theorem order_take {a b : List Byte} (ha : 0 ∉ a) (hb : 0 ∉ b) (n : ℕ) :
  order (a.take n) (b.take n)
    = differenceOrder (firstDifference ((a ++ [0]).take n) ((b ++ [0]).take n))
  := by
  induction n generalizing a b with
  | zero => exact order_nil_nil
  | succ n ih =>
    cases a with
    | nil =>
      cases b with
      | nil =>
        rw [List.take_nil, firstDifference_self]
        exact order_nil_nil
      | cons y b =>
        have hy := ne_zero_of_cons hb
        rw [List.take_nil, List.take_succ_cons, order_nil_cons, List.nil_append, List.cons_append,
          List.take_succ_cons, List.take_succ_cons, firstDifference_cons_of_ne hy.symm]
        exact (byteOrder_zero_left hy).symm
    | cons x a =>
      cases b with
      | nil =>
        have hx := ne_zero_of_cons ha
        rw [List.take_nil, List.take_succ_cons, order_cons_nil, List.nil_append, List.cons_append,
          List.take_succ_cons, List.take_succ_cons, firstDifference_cons_of_ne hx]
        exact (byteOrder_zero_right hx).symm
      | cons y b =>
        rw [List.cons_append, List.cons_append, List.take_succ_cons, List.take_succ_cons,
          List.take_succ_cons, List.take_succ_cons]
        by_cases hxy : x = y
        · rw [hxy, order_cons_self, firstDifference_cons_self]
          exact ih (zero_notMem_of_cons ha) (zero_notMem_of_cons hb)
        · rw [order_cons_of_ne hxy, firstDifference_cons_of_ne hxy]
          rfl

/-- The first difference of two strings, their zeros included, decides their order. -/
theorem order_eq {a b : List Byte} (ha : 0 ∉ a) (hb : 0 ∉ b) :
  order a b = differenceOrder (firstDifference (a ++ [0]) (b ++ [0]))
  := by
  have h := order_take ha hb (a.length + b.length + 1)
  rwa [List.take_of_length_le (by omega), List.take_of_length_le (by omega),
    List.take_of_length_le (by simp), List.take_of_length_le (by simp)] at h

/-! ### Searching -/

/-- The places of a byte. -/
def positions (c : Byte) (s : List Byte) : Set ℕ := {k | s[k]? = some c}

/-- The places where one string occurs in another. -/
def occurrences (needle haystack : List Byte) : Set ℕ :=
  {k | k ≤ haystack.length ∧ needle <+: haystack.drop k}

/-- The first place, if there is one. -/
def First (p : Set ℕ) : Option ℕ → Prop
  | none => p = ∅
  | some k => IsLeast p k

/-- The last place, if there is one. -/
def Last (p : Set ℕ) : Option ℕ → Prop
  | none => p = ∅
  | some k => IsGreatest p k

theorem First.zero {p : Set ℕ} (h : 0 ∈ p) :
  First p (some 0)
  := by
  constructor
  · exact h
  · intro k _
    exact Nat.zero_le k

/-- A place that is not the first one is one further. -/
theorem First.succ {p : Set ℕ} {r : Option ℕ} (h0 : 0 ∉ p) (h : First {k | k + 1 ∈ p} r) :
  First p (r.map (· + 1))
  := by
  cases r with
  | none =>
    apply Set.eq_empty_of_forall_notMem
    rintro (_ | k) hk
    · exact h0 hk
    · exact Set.notMem_empty k (h ▸ hk)
  | some j =>
    refine ⟨h.1, ?_⟩
    rintro (_ | k) hk
    · exact absurd hk h0
    · exact Nat.succ_le_succ (h.2 hk)

/-- The first place and the last one are the same just if there is one place. -/
theorem first_last_iff {p : Set ℕ} {r r' : Option ℕ} (h : First p r) (h' : Last p r') :
  (∃ k, r = some k ∧ r' = some k) ↔ ∃! k, k ∈ p
  := by
  constructor
  · rintro ⟨k, rfl, rfl⟩
    refine ⟨k, h.1, ?_⟩
    intro j hj
    exact Nat.le_antisymm (h'.2 hj) (h.2 hj)
  · rintro ⟨k, hk, hunique⟩
    refine ⟨k, ?_, ?_⟩
    · cases r with
      | none => exact absurd (h ▸ hk) (Set.notMem_empty k)
      | some j => rw [hunique j h.1]
    · cases r' with
      | none => exact absurd (h' ▸ hk) (Set.notMem_empty k)
      | some j => rw [hunique j h'.1]

theorem positions_eq_empty_iff {c : Byte} {s : List Byte} :
  positions c s = ∅ ↔ c ∉ s
  := by
  rw [Set.eq_empty_iff_forall_notMem, List.mem_iff_getElem?, not_exists]
  rfl

/-- The last place in a list is the last one in its tail, or else the first byte. -/
theorem Last.cons {c : Byte} {s : List Byte} {r : Option ℕ} (h : Last (positions c s) r)
    (x : Byte) :
  Last (positions c (x :: s)) ((r.map (· + 1)).or (if x = c then some 0 else none))
  := by
  cases r with
  | none =>
    have hmem : c ∉ s := positions_eq_empty_iff.mp h
    rw [Option.map_none, Option.none_or]
    by_cases hx : x = c
    · rw [if_pos hx]
      refine ⟨congrArg some hx, ?_⟩
      rintro (_ | k) hk
      · exact le_rfl
      · have hget : s[k]? = some c := hk
        exact absurd (List.mem_of_getElem? hget) hmem
    · rw [if_neg hx]
      apply positions_eq_empty_iff.mpr
      rw [List.mem_cons, not_or]
      exact ⟨fun hc => hx hc.symm, hmem⟩
  | some j =>
    refine ⟨h.1, ?_⟩
    rintro (_ | k) hk
    · exact Nat.zero_le _
    · exact Nat.succ_le_succ (h.2 hk)

/-- The zero at the end is no place of another byte. -/
theorem positions_append_zero {c : Byte} (hc : c ≠ 0) (s : List Byte) :
  positions c (s ++ [0]) = positions c s
  := by
  ext k
  change (s ++ [0])[k]? = some c ↔ s[k]? = some c
  by_cases hk : k < s.length
  · rw [List.getElem?_append_left hk]
  · rw [List.getElem?_append_right (Nat.le_of_not_lt hk),
      List.getElem?_eq_none (Nat.le_of_not_lt hk)]
    cases k - s.length with
    | zero =>
      apply iff_of_false
      · intro h
        exact hc (Option.some.inj h).symm
      · exact (Option.some_ne_none c).symm
    | succ j => simp

/-- What the last place of a byte in the tail of a string says about the string. -/
theorem last_cons_iff {c x : Byte} {s : List Byte} (hs : 0 ∉ s) {r : Option ℕ}
    (h : Last (positions c s) r) :
  Last (positions c (x :: s ++ [0])) (r.map (· + 1)) ↔ c ≠ 0 ∧ (x = c → c ∈ s)
  := by
  have hnone : c ∉ s → r = none := by
    intro hc
    rw [← positions_eq_empty_iff] at hc
    cases r with
    | none => rfl
    | some j => exact absurd (hc ▸ h.1) (Set.notMem_empty j)
  constructor
  · intro hlast
    have hmem : c ∉ s → c ∉ x :: s ++ [0] := by
      intro hc
      rw [hnone hc] at hlast
      exact positions_eq_empty_iff.mp hlast
    constructor
    · rintro rfl
      apply hmem hs
      simp
    · rintro rfl
      by_contra hc
      apply hmem hc
      simp
  · rintro ⟨hc, hhead⟩
    have hcons := h.cons x
    rw [positions_append_zero hc]
    cases r with
    | none =>
      have hx : x ≠ c := fun hx => positions_eq_empty_iff.mp h (hhead hx)
      rwa [if_neg hx, Option.or_none] at hcons
    | some j => exact hcons

/-- The first byte of a string that occurs is the byte at its place. -/
theorem head_of_occurs {c x : Byte} {needle haystack : List Byte}
    (h : 0 ∈ occurrences (c :: needle) (x :: haystack)) :
  x = c
  := (List.cons_prefix_cons.mp h.2).1.symm

theorem occurrences_succ (needle : List Byte) (x : Byte) (haystack : List Byte) :
  {k | k + 1 ∈ occurrences needle (x :: haystack)} = occurrences needle haystack
  := by
  ext k
  exact and_congr_left' Nat.succ_le_succ_iff

/-- A string does not occur in a shorter one. -/
theorem occurrences_of_lt {needle haystack : List Byte} (h : haystack.length < needle.length) :
  occurrences needle haystack = ∅
  := by
  apply Set.eq_empty_of_forall_notMem
  rintro k ⟨-, hoccurs⟩
  have hle := hoccurs.length_le
  rw [List.length_drop] at hle
  omega

end CStrings
