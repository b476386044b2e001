import Gubernatrix.Debug
import Mathlib.Tactic.Ring

/-!
# Reading a hexdump

What `print_hexdump` prints is cut into its words, of which the long ones are addresses and the
short ones are bytes. `readDump_printHexdump` says that this gives back every byte with its
address, for the lengths for which `print_hexdump` ends.
-/

namespace Debug

open CStrings (Byte)

/-- What stands between the words. -/
def separators : List Byte := chars " \r\n"

/-- The words of a text, where `word` is what was read of the first one. -/
def tokens : (word : List Byte) → List Byte → List (List Byte)
  | word, [] => if word = [] then [] else [word]
  | word, c :: cs =>
      if c ∈ separators then if word = [] then tokens [] cs else word :: tokens [] cs
      else tokens (word ++ [c]) cs

/-- The number that the digits of a word stand for. -/
def value (word : List Byte) : ℕ := word.foldl (fun n c => 16 * n + hexStr.idxOf c) 0

/-- The bytes with their addresses, where the next byte is at `a`. -/
def readWords : (a : U64) → List (List Byte) → List (U64 × Byte)
  | _, [] => []
  | a, word :: words =>
      if word.length = 16 then readWords (BitVec.ofNat 64 (value word)) words
      else (a, BitVec.ofNat 8 (value word)) :: readWords (a + 1) words

/-- What a hexdump says. -/
def readDump (text : List Byte) : List (U64 × Byte) := readWords 0 (tokens [] text)

/-- The bytes with the indices from `lo` up to `hi`, with their addresses. -/
def entries (a : U64) (data : ℤ → Byte) (lo hi : ℕ) : List (U64 × Byte) :=
  (List.range' lo (hi - lo)).map fun i => (a + BitVec.ofNat 64 i, data i)

/-! ### Words -/

theorem tokens_append {t : List Byte} (ht : ∀ c ∈ t, c ∉ separators) (word rest : List Byte) :
  tokens word (t ++ rest) = tokens (word ++ t) rest
  := by
  induction t generalizing word with
  | nil => rw [List.append_nil, List.nil_append]
  | cons c t ih =>
      rw [List.cons_append, tokens, if_neg (ht c List.mem_cons_self),
        ih (fun c' hc' => ht c' (List.mem_cons_of_mem _ hc')), List.append_assoc,
        List.singleton_append]

theorem tokens_separators {s : List Byte} (hs : ∀ c ∈ s, c ∈ separators) (rest : List Byte) :
  tokens [] (s ++ rest) = tokens [] rest
  := by
  induction s with
  | nil => rfl
  | cons c s ih =>
      rw [List.cons_append, tokens, if_pos (hs c List.mem_cons_self), if_pos rfl,
        ih (fun c' hc' => hs c' (List.mem_cons_of_mem _ hc'))]

/-- A word, with something between it and the next one. -/
theorem tokens_word {t s : List Byte} (ht : ∀ c ∈ t, c ∉ separators) (hnil : t ≠ [])
    (hs : ∀ c ∈ s, c ∈ separators) (hsep : s ≠ []) (rest : List Byte) :
  tokens [] (t ++ (s ++ rest)) = t :: tokens [] rest
  := by
  obtain ⟨c, s, rfl⟩ := List.exists_cons_of_ne_nil hsep
  rw [tokens_append ht, List.nil_append, List.cons_append, tokens,
    if_pos (hs c List.mem_cons_self), if_neg hnil,
    tokens_separators (fun c' hc' => hs c' (List.mem_cons_of_mem _ hc'))]

/-! ### Numbers -/

/-- A digit is not a separator, and is read back. -/
theorem digit_spec :
  ∀ d < 16, hexStr.getD d 0 ∉ separators ∧ hexStr.idxOf (hexStr.getD d 0) = d
  := by
  decide

theorem hexText_succ (k n : ℕ) :
  hexText (k + 1) n = hexStr.getD (n / 16 ^ k % 16) 0 :: hexText k n
  := by
  rw [hexText, List.range_succ, List.reverse_append]
  rfl

theorem length_hexText (k n : ℕ) :
  (hexText k n).length = k
  := by
  rw [hexText, List.length_map, List.length_reverse, List.length_range]

theorem notMem_separators_hexText {k n : ℕ} {c : Byte} (hc : c ∈ hexText k n) :
  c ∉ separators
  := by
  obtain ⟨i, -, rfl⟩ := List.mem_map.mp hc
  exact (digit_spec _ (Nat.mod_lt _ (by decide))).1

/-- The digits of a number stand for its last digits. -/
theorem value_hexText (k n : ℕ) :
  value (hexText k n) = n % 16 ^ k
  := by
  have hfold : ∀ m, (hexText k n).foldl (fun n c => 16 * n + hexStr.idxOf c) m
      = m * 16 ^ k + n % 16 ^ k := by
    induction k with
    | zero =>
        intro m
        rw [pow_zero, Nat.mod_one, Nat.mul_one]
        rfl
    | succ k ih =>
        intro m
        have hsplit : n % 16 ^ (k + 1) = n / 16 ^ k % 16 * 16 ^ k + n % 16 ^ k := by
          rw [pow_succ, Nat.mod_mul, Nat.add_comm, Nat.mul_comm]
        rw [hexText_succ, List.foldl_cons, ih, (digit_spec _ (Nat.mod_lt _ (by decide))).2, hsplit,
          pow_succ]
        ring
  rw [value, hfold, Nat.zero_mul, Nat.zero_add]

/-! ### Lines -/

section Lines

variable {a : U64} {data : ℤ → Byte}

theorem entries_nil {l n : ℕ} (h : n ≤ l) :
  entries a data l n = []
  := by
  rw [entries, Nat.sub_eq_zero_of_le h]
  rfl

theorem entries_succ {l n : ℕ} (h : l < n) :
  entries a data l n = (a + BitVec.ofNat 64 l, data l) :: entries a data (l + 1) n
  := by
  rw [entries, show n - l = n - (l + 1) + 1 by omega, List.range'_succ]
  rfl

/-- A byte, with the address before the first one of a line. -/
theorem readWords_byteText (cur : U64) (i : ℕ) (b : Byte) (rest : List Byte) :
  readWords cur (tokens [] (byteText a i b ++ rest))
    = ((if i % 16 = 0 then a else cur), b)
      :: readWords ((if i % 16 = 0 then a else cur) + 1) (tokens [] rest)
  := by
  have hvalue : ∀ {w : ℕ} (x : BitVec w) k, 16 ^ k = 2 ^ w →
      BitVec.ofNat w (value (hexText k x.toNat)) = x := by
    intro w x k hk
    rw [value_hexText, hk, Nat.mod_eq_of_lt x.isLt, BitVec.ofNat_toNat, BitVec.setWidth_eq]
  have hword : ∀ cur, readWords cur (tokens [] (hexText 2 b.toNat
      ++ ((if i % 16 = 7 then chars "  " else if i % 16 < 15 then chars " " else chars "\r\n")
        ++ rest))) = (cur, b) :: readWords (cur + 1) (tokens [] rest) := by
    intro cur
    have hlen : (hexText 2 b.toNat).length ≠ 16 := by
      rw [length_hexText]
      decide
    have hnil : hexText 2 b.toNat ≠ [] := by
      intro hnil
      have := length_hexText 2 b.toNat
      rw [hnil] at this
      cases this
    rw [tokens_word (fun _ hc => notMem_separators_hexText hc) hnil _ _ rest, readWords,
      if_neg hlen, hvalue b 2 (by decide)]
    · split
      next => decide
      next => split <;> decide
    · split
      next => decide
      next => split <;> decide
  rw [byteText]
  split
  next =>
    have hlen : (hexText 16 a.toNat).length = 16 := length_hexText 16 a.toNat
    have hnil : hexText 16 a.toNat ≠ [] := by
      intro hnil
      rw [hnil] at hlen
      cases hlen
    rw [List.append_assoc, List.append_assoc, List.append_assoc,
      tokens_word (fun _ hc => notMem_separators_hexText hc) hnil (by decide) (by decide),
      readWords, if_pos hlen, hvalue a 16 (by decide), hword]
  next => rw [List.nil_append, List.append_assoc, hword]

/-- The bytes from `lo` on, where the address of the first one is known if it begins no line. -/
theorem readWords_bytesText (a : U64) (data : ℤ → Byte) {k lo hi : ℕ} (hk : hi - lo = k)
    (rest : List Byte) (cur : U64) (hcur : lo % 16 ≠ 0 → cur = a + BitVec.ofNat 64 lo) :
  ∃ cur', readWords cur (tokens [] (bytesText a data lo hi ++ rest))
    = entries a data lo hi ++ readWords cur' (tokens [] rest)
  := by
  induction k generalizing lo cur with
  | zero =>
      refine ⟨cur, ?_⟩
      rw [bytesText_nil (by omega), entries_nil (by omega)]
      rfl
  | succ k ih =>
      have haddr : (if lo % 16 = 0 then a + BitVec.ofNat 64 lo else cur)
          = a + BitVec.ofNat 64 lo := by
        split
        next => rfl
        next hne => exact hcur hne
      have hstep : hi - (lo + 1) = k := by omega
      obtain ⟨cur', hrest⟩ := ih hstep (a + BitVec.ofNat 64 lo + 1) fun _ => by
        rw [BitVec.add_assoc, show (1 : U64) = BitVec.ofNat 64 1 from rfl, ← BitVec.ofNat_add]
      refine ⟨cur', ?_⟩
      rw [bytesText_succ (by omega), List.append_assoc, readWords_byteText, haddr, hrest,
        entries_succ (by omega : lo < hi)]
      rfl

end Lines

/-- The text of a hexdump gives back every byte, with its address. -/
theorem readDump_hexdumpText (a : U64) (data : ℤ → Byte) (n : ℕ) :
  readDump (hexdumpText a data n)
    = (List.range n).map fun i : ℕ => (a + BitVec.ofNat 64 i, data i)
  := by
  obtain ⟨cur, hread⟩ := readWords_bytesText a data (Nat.sub_zero n) (chars "\r\n") 0
    (fun h => absurd rfl h)
  have hend : tokens [] (chars "\r\n") = [] := by decide
  rw [readDump, hexdumpText, hread, hend, readWords, List.append_nil, entries,
    List.range_eq_range', Nat.sub_zero]

/-- For up to 2³¹ - 16 bytes `print_hexdump` ends, and what it prints gives back every byte, with
its address; for more it does not end. -/
theorem readDump_printHexdump (a : U64) (data : ℤ → Byte) (len : ℤ) :
  (len ≤ 2 ^ 31 - 16 → ∃ n text, (∀ turns > n, printHexdump turns a data len = some text)
      ∧ readDump text = (List.range len.toNat).map fun i : ℕ => (a + BitVec.ofNat 64 i, data i))
    ∧ (2 ^ 31 - 16 < len → ∀ turns, printHexdump turns a data len = none)
  := by
  constructor
  · intro hlen
    exact ⟨len.toNat, hexdumpText a data len.toNat, fun _ hturns => printHexdump_eq hlen hturns,
      readDump_hexdumpText a data len.toNat⟩
  · intro hlen turns
    exact printHexdump_eq_none (not_le.mpr hlen) turns

end Debug
