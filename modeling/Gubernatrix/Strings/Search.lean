import Gubernatrix.Strings.Compare

/-!
# Searching in strings

`strchr`, `strrchr`, `strlen` and `strstr` of `string.c`. A pointer is `none` if it is `NULL`, and
otherwise the list of the bytes from it on. What is returned is the number of bytes that the pointer
was moved by, and `none` for `NULL`. `strrchr` moves its pointer before it looks at a byte, so that
it does not see the first one.
-/

namespace Strings

open CStrings

/-! ### `strchr` and `strrchr` -/

/-- The loop of `strchr` and the test after it. -/
def strchrLoop (c : Byte) : (s : List Byte) → (k : ℕ) → Option (Option ℕ)
  | [], _ => none
  | x :: s, k =>
      if x ≠ c ∧ x ≠ 0 then strchrLoop c s (k + 1)
      else if x = c then some (some k)
      else some none

/-- `strchr`. -/
def strchr (s : Option (List Byte)) (c : Int32) : Option (Option ℕ) :=
  match s with
  | none => some none
  | some s => strchrLoop (c.setWidth 8) s 0

/-- The loop of `strrchr`. -/
def strrchrLoop (c : Byte) : (s : List Byte) → (k : ℕ) → (prev : Option ℕ) → Option (Option ℕ)
  | _ :: x :: s, k, prev =>
      if x = 0 then some prev
      else strrchrLoop c (x :: s) (k + 1) (if x = c then some (k + 1) else prev)
  | _, _, _ => none

/-- `strrchr`. -/
def strrchr (s : Option (List Byte)) (c : Int32) : Option (Option ℕ) :=
  match s with
  | none => some none
  | some s => strrchrLoop (c.setWidth 8) s 0 none

/-- A place that is one further, from one byte further on. -/
theorem map_succ (r : Option ℕ) (k : ℕ) :
  (r.map (· + 1)).map (· + k) = r.map (· + (k + 1))
  := by
  cases r with
  | none => rfl
  | some j =>
    rw [Option.map_some, Option.map_some, Option.map_some]
    congr 1
    omega

/-- The first place is found, and nothing after the zero is read. -/
theorem strchrLoop_first {s : List Byte} (hs : 0 ∉ s) (c : Byte) :
  ∃ r, (∀ rest k, strchrLoop c (s ++ 0 :: rest) k = some (r.map (· + k)))
    ∧ First (positions c (s ++ [0])) r
  := by
  induction s with
  | nil =>
    by_cases hc : 0 = c
    · refine ⟨some 0, ?_, First.zero (congrArg some hc)⟩
      intro rest k
      rw [List.nil_append, strchrLoop, if_neg fun h => h.2 rfl, if_pos hc, Option.map_some,
        Nat.zero_add]
    · refine ⟨none, ?_, ?_⟩
      · intro rest k
        rw [List.nil_append, strchrLoop, if_neg fun h => h.2 rfl, if_neg hc, Option.map_none]
      · apply positions_eq_empty_iff.mpr
        rw [List.nil_append, List.mem_singleton]
        exact fun h => hc h.symm
  | cons x s ih =>
    by_cases hx : x = c
    · refine ⟨some 0, ?_, First.zero (congrArg some hx)⟩
      intro rest k
      rw [List.cons_append, strchrLoop, if_neg fun h => h.1 hx, if_pos hx, Option.map_some,
        Nat.zero_add]
    · obtain ⟨r, hloop, hfirst⟩ := ih (zero_notMem_of_cons hs)
      refine ⟨r.map (· + 1), ?_, First.succ (fun h => hx (Option.some.inj h)) hfirst⟩
      intro rest k
      rw [List.cons_append, strchrLoop, if_pos ⟨hx, ne_zero_of_cons hs⟩, hloop, map_succ]

/-- The last place after the first byte is found, or else the one that was found before it. -/
theorem strrchrLoop_last {s : List Byte} (hs : 0 ∉ s) (c : Byte) :
  ∃ r, (∀ rest y k prev, strrchrLoop c (y :: (s ++ 0 :: rest)) k prev
      = some ((r.map (· + (k + 1))).or prev))
    ∧ Last (positions c s) r
  := by
  induction s with
  | nil =>
    refine ⟨none, ?_, positions_eq_empty_iff.mpr List.not_mem_nil⟩
    intro rest y k prev
    rw [List.nil_append, strrchrLoop, if_pos rfl, Option.map_none, Option.none_or]
  | cons x s ih =>
    obtain ⟨r, hloop, hlast⟩ := ih (zero_notMem_of_cons hs)
    have hturn : ∀ rest y k prev, strrchrLoop c (y :: (x :: s ++ 0 :: rest)) k prev
        = some ((r.map (· + (k + 1 + 1))).or (if x = c then some (k + 1) else prev)) := by
      intro rest y k prev
      rw [List.cons_append, strrchrLoop, if_neg (ne_zero_of_cons hs), hloop]
    refine ⟨_, ?_, hlast.cons x⟩
    intro rest y k prev
    rw [hturn, ← map_succ]
    cases r with
    | none => by_cases hx : x = c <;> simp [hx]
    | some j => rfl

/-- `strchr` and `strrchr` find the first and the last place of a character, and read nothing after
the zero at the end of the string, which is a place as well. -/
structure Searches (s : CString) (c : Int32) (r r' : Option ℕ) : Prop where
  strchr : Returns (fun p => strchr (some p) c) s r
  strrchr : Returns (fun p => strrchr (some p) c) s r'
  first : First (positions (c.setWidth 8) (s.chars ++ [0])) r
  last : Last (positions (c.setWidth 8) (s.chars ++ [0])) r'
  once : (∃ k, r = some k ∧ r' = some k) ↔ ∃! k, k ∈ positions (c.setWidth 8) (s.chars ++ [0])

/-- `strrchr` sees each place but the first byte and the zero. -/
theorem searches_iff (s : CString) (c : Int32) :
  (∃ r r', Searches s c r r')
    ↔ s.chars ≠ [] ∧ c.setWidth 8 ≠ (0 : Byte)
      ∧ (s.chars.head? = some (c.setWidth 8) → c.setWidth 8 ∈ s.chars.tail)
  := by
  obtain ⟨chars, nonzero, fits⟩ := s
  obtain ⟨r, hfirst_returns, hfirst⟩ := strchrLoop_first nonzero (c.setWidth 8)
  cases chars with
  | nil =>
    apply iff_of_false
    · rintro ⟨r, r', h⟩
      cases h.strrchr []
    · rintro ⟨hne, -⟩
      exact hne rfl
  | cons x chars =>
    have hnonzero := zero_notMem_of_cons nonzero
    obtain ⟨r', hlast_returns, hlast⟩ := strrchrLoop_last hnonzero (c.setWidth 8)
    have hiff := last_cons_iff (x := x) hnonzero hlast
    have hreturns : Returns (fun p => strrchr (some p) c) ⟨x :: chars, nonzero, fits⟩
        (r'.map (· + 1)) := by
      intro rest
      exact (hlast_returns rest x 0 none).trans (congrArg some Option.or_none)
    constructor
    · rintro ⟨q, q', h⟩
      have hq : q' = r'.map (· + 1) := Option.some.inj ((h.strrchr []).symm.trans (hreturns []))
      obtain ⟨hc, hhead⟩ := hiff.mp (hq ▸ h.last)
      exact ⟨List.cons_ne_nil _ _, hc, fun hx => hhead (Option.some.inj hx)⟩
    · rintro ⟨-, hc, hhead⟩
      have hlast' := hiff.mpr ⟨hc, fun hx => hhead (congrArg some hx)⟩
      refine ⟨r, _, ?_, hreturns, hfirst, hlast', first_last_iff hfirst hlast'⟩
      intro rest
      refine (hfirst_returns rest 0).trans ?_
      exact congrArg some Option.map_id'

/-- A string of one character. -/
theorem not_searches :
  ¬ ∀ s : CString, ∀ c : Int32, ∃ r r', Searches s c r r'
  := by
  intro h
  obtain ⟨r, r', hr⟩ := h ⟨[0x61], by decide, by decide⟩ 0x61
  have hread : strrchr (some [0x61, 0]) 0x61 = some none := by decide
  obtain rfl := Option.some.inj ((hr.strrchr []).symm.trans hread)
  exact positions_eq_empty_iff.mp hr.last (by decide)

/-! ### `strstr` -/

/-- The loop of `strlen`. -/
def strlenLoop : (s : List Byte) → (n : BitVec 64) → Option (BitVec 64)
  | [], _ => none
  | x :: s, n => if x ≠ 0 then strlenLoop s (n + 1) else some n

/-- `strlen`. -/
def strlen (s : Option (List Byte)) : Option (BitVec 64) :=
  match s with
  | none => some 0
  | some s => strlenLoop s 0

/-- The inner loop of `strstr`, which looks for the first byte of the needle: the haystack from
there on, its place, and its length. -/
def skipLoop (c : Byte) : (haystack : List Byte) → (k : ℕ) → (len : BitVec 64) →
    Option (List Byte × ℕ × BitVec 64)
  | [], _, _ => none
  | x :: haystack, k, len =>
      if x ≠ 0 ∧ x ≠ c then skipLoop c haystack (k + 1) (len - 1)
      else some (x :: haystack, k, len)

/-- The outer loop of `strstr`, for at most the given number of turns. -/
def strstrLoop (needle : List Byte) (needleLen : BitVec 64) : ℕ → (haystack : List Byte) →
    (k : ℕ) → (haystackLen : BitVec 64) → Option (Option ℕ)
  | 0, _, _, _ => none
  | turns + 1, haystack, k, haystackLen => do
      let c ← needle.head?
      let (haystack, k, haystackLen) ← skipLoop c haystack k haystackLen
      let x ← haystack.head?
      if x = 0 then some none
      else if haystackLen < needleLen then some none
      else
        let r ← strncmp needleLen.toNat haystack needle
        if r = 0 then some (some k)
        else strstrLoop needle needleLen turns haystack.tail (k + 1) (haystackLen - 1)

/-- `strstr`, for at most the given number of turns of its outer loop. -/
def strstr (turns : ℕ) (haystack needle : Option (List Byte)) : Option (Option ℕ) :=
  match needle, haystack with
  | none, _ => some none
  | some _, none => some none
  | some needle, some haystack => do
      let c ← needle.head?
      if c = 0 then some (some 0)
      else
        let needleLen ← strlen (some needle)
        let haystackLen ← strlen (some haystack)
        strstrLoop needle needleLen turns haystack 0 haystackLen

theorem strlenLoop_eq {s : List Byte} (hs : 0 ∉ s) (rest : List Byte) (n : BitVec 64) :
  strlenLoop (s ++ 0 :: rest) n = some (n + BitVec.ofNat 64 s.length)
  := by
  induction s generalizing n with
  | nil =>
    rw [List.nil_append, strlenLoop, if_neg (not_not.mpr rfl)]
    exact congrArg some (BitVec.add_zero n).symm
  | cons x s ih =>
    rw [List.cons_append, strlenLoop, if_pos (ne_zero_of_cons hs), ih (zero_notMem_of_cons hs),
      List.length_cons, Nat.add_comm s.length 1, BitVec.ofNat_add, ← BitVec.add_assoc]
    rfl

theorem strlen_eq (s : CString) (rest : List Byte) :
  strlen (some (s.followed rest)) = some (BitVec.ofNat 64 s.chars.length)
  := by
  have h := strlenLoop_eq s.nonzero rest 0
  exact h.trans (congrArg some (BitVec.zero_add _))

/-- The needle is compared only where enough bytes of the haystack are left, and before its zero. -/
theorem strncmp_occurs {needle s : List Byte} (h : needle.length ≤ s.length) :
  ∃ v, (∀ rest rest', strncmp needle.length (s ++ rest) (needle ++ rest') = some v)
    ∧ (v = 0 ↔ needle <+: s)
  := by
  have hlen : (s.take needle.length).length = needle.length := List.length_take_of_le h
  refine ⟨_, strncmp_eq (.inr ⟨h, le_rfl⟩), ?_⟩
  rw [← sign_eq_iff, sign_unsigned, differenceOrder_eq_iff, List.take_length,
    firstDifference_eq_none_iff hlen, List.prefix_iff_eq_take, eq_comm]

/-- A byte that is not the first one of the needle is skipped. -/
theorem strstrLoop_skip {c x : Byte} (hx : x ≠ 0) (hc : x ≠ c) (needle : List Byte)
    (needleLen : BitVec 64) (turns : ℕ) (haystack : List Byte) (k : ℕ) (len : BitVec 64) :
  strstrLoop (c :: needle) needleLen (turns + 1) (x :: haystack) k len
    = strstrLoop (c :: needle) needleLen (turns + 1) haystack (k + 1) (len - 1)
  := by
  rw [strstrLoop, strstrLoop, List.head?_cons, Option.bind_eq_bind, Option.bind_some, skipLoop,
    if_pos ⟨hx, hc⟩]
  rfl

/-- At the first byte of the needle, the whole needle is compared. -/
theorem strstrLoop_stop {c : Byte} (hc : c ≠ 0) (needle : List Byte) (needleLen : BitVec 64)
    (turns : ℕ) (haystack : List Byte) (k : ℕ) (len : BitVec 64) :
  strstrLoop (c :: needle) needleLen (turns + 1) (c :: haystack) k len
    = if len < needleLen then some none
      else (strncmp needleLen.toNat (c :: haystack) (c :: needle)).bind fun r =>
        if r = 0 then some (some k)
        else strstrLoop (c :: needle) needleLen turns haystack (k + 1) (len - 1)
  := by
  rw [strstrLoop, List.head?_cons, Option.bind_eq_bind, Option.bind_some, skipLoop,
    if_neg fun h => h.2 rfl, Option.bind_eq_bind, Option.bind_some]
  dsimp only
  rw [List.head?_cons, Option.bind_eq_bind, Option.bind_some, if_neg hc]
  rfl

/-- The loop of `strstr` finds the first place of the needle in what is left of the haystack. -/
theorem strstrLoop_first {c : Byte} {needle : List Byte} (hneedle : 0 ∉ c :: needle)
    (hfits : (c :: needle).length < 2 ^ 64) {haystack : List Byte} (hhaystack : 0 ∉ haystack)
    (hlen : haystack.length < 2 ^ 64) :
  ∃ turns r, (∀ rest rest' k, strstrLoop (c :: needle ++ 0 :: rest')
      (BitVec.ofNat 64 (c :: needle).length) (turns + 1) (haystack ++ 0 :: rest) k
      (BitVec.ofNat 64 haystack.length) = some (r.map (· + k)))
    ∧ First (occurrences (c :: needle) haystack) r
  := by
  induction haystack with
  | nil =>
    refine ⟨0, none, ?_, occurrences_of_lt (Nat.succ_pos _)⟩
    intro rest rest' k
    rfl
  | cons x haystack ih =>
    have hx := ne_zero_of_cons hhaystack
    obtain ⟨turns, r, hloop, hfirst⟩ :=
      ih (zero_notMem_of_cons hhaystack) (Nat.lt_of_succ_lt hlen)
    have hpred : BitVec.ofNat 64 (x :: haystack).length - 1 = BitVec.ofNat 64 haystack.length := by
      rw [List.length_cons, BitVec.ofNat_add]
      exact BitVec.add_sub_cancel _ _
    rw [← occurrences_succ _ x] at hfirst
    by_cases hc : x = c
    · subst hc
      by_cases hlt : (x :: haystack).length < (x :: needle).length
      · -- the needle is too long
        refine ⟨0, none, ?_, occurrences_of_lt hlt⟩
        intro rest rest' k
        rw [List.cons_append, List.cons_append, strstrLoop_stop hx, if_pos]
        · rfl
        · rw [BitVec.lt_def, BitVec.toNat_ofNat, BitVec.toNat_ofNat, Nat.mod_eq_of_lt hlen,
            Nat.mod_eq_of_lt hfits]
          exact hlt
      · obtain ⟨v, hv, hoccurs⟩ := strncmp_occurs (Nat.le_of_not_lt hlt)
        have hturn : ∀ rest rest' k, strstrLoop (x :: needle ++ 0 :: rest')
            (BitVec.ofNat 64 (x :: needle).length) (turns + 1 + 1) (x :: haystack ++ 0 :: rest) k
            (BitVec.ofNat 64 (x :: haystack).length)
              = if v = 0 then some (some k) else some (r.map (· + (k + 1))) := by
          intro rest rest' k
          rw [List.cons_append, List.cons_append, strstrLoop_stop hx, if_neg, BitVec.toNat_ofNat,
            Nat.mod_eq_of_lt hfits, ← List.cons_append, ← List.cons_append, hv, Option.bind_some,
            hpred, hloop]
          rw [BitVec.lt_def, BitVec.toNat_ofNat, BitVec.toNat_ofNat, Nat.mod_eq_of_lt hlen,
            Nat.mod_eq_of_lt hfits]
          exact hlt
        by_cases hzero : v = 0
        · refine ⟨turns + 1, some 0, ?_, First.zero ⟨Nat.zero_le _, hoccurs.mp hzero⟩⟩
          intro rest rest' k
          rw [hturn, if_pos hzero, Option.map_some, Nat.zero_add]
        · refine ⟨turns + 1, r.map (· + 1), ?_,
            First.succ (fun h => hzero (hoccurs.mpr h.2)) hfirst⟩
          intro rest rest' k
          rw [hturn, if_neg hzero, map_succ]
    · -- the byte is skipped
      refine ⟨turns, r.map (· + 1), ?_, First.succ (fun h => hc (head_of_occurs h)) hfirst⟩
      intro rest rest' k
      rw [List.cons_append, List.cons_append, strstrLoop_skip hx hc, hpred, map_succ]
      exact hloop rest rest' (k + 1)

/-- `strstr` returns the first place of one string in another, if there is one, and reads nothing
after their zeros. -/
theorem strstr_first (haystack needle : CString) :
  ∃ turns r, Returns₂ (fun p q => strstr turns (some p) (some q)) haystack needle r
    ∧ First (occurrences needle.chars haystack.chars) r
  := by
  obtain ⟨chars, nonzero, fits⟩ := needle
  cases chars with
  | nil =>
    refine ⟨0, some 0, ?_, First.zero ⟨Nat.zero_le _, List.nil_prefix⟩⟩
    intro rest rest'
    rfl
  | cons c needle =>
    obtain ⟨turns, r, hloop, hfirst⟩ :=
      strstrLoop_first nonzero fits haystack.nonzero haystack.fits
    refine ⟨turns + 1, r, ?_, hfirst⟩
    intro rest rest'
    have hneedle := strlen_eq ⟨c :: needle, nonzero, fits⟩ rest'
    dsimp only [strstr]
    rw [hneedle, strlen_eq, CString.followed, CString.followed, List.cons_append, List.head?_cons,
      Option.bind_eq_bind, Option.bind_some, if_neg (ne_zero_of_cons nonzero), Option.bind_eq_bind,
      Option.bind_some, Option.bind_some]
    refine (hloop rest rest' 0).trans ?_
    exact congrArg some Option.map_id'

end Strings
