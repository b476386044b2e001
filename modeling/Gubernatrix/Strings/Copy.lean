import Gubernatrix.Lib.CString

/-!
# Bounded copies of strings

`strncpy` and `strncat` of `string.c`. The destination is the memory from its pointer on, and does
not overlap the source. `strncpy` stops at the end of the source without a zero of its own, and
`strncat` writes one in each case.
-/

namespace Strings

open CStrings

/-- The memory from a pointer on. -/
abbrev Buf := ℕ → Byte

/-- The loop of `strncpy`, from the place `i` on, where the source is at `s`. -/
def strncpyLoop (n : ℕ) : (s : List Byte) → (i : ℕ) → (d : Buf) → Option Buf
  | [], i, d => if i < n then none else some d
  | c :: s, i, d =>
      if i < n ∧ c ≠ 0 then strncpyLoop n s (i + 1) (Function.update d i c) else some d

/-- `strncpy`. -/
def strncpy (dest : Buf) (src : List Byte) (n : ℕ) : Option Buf := strncpyLoop n src 0 dest

/-- The first loop of `strncat`, for at most the given number of turns: the end of the string in the
destination. -/
def endLoop (dest : Buf) : ℕ → (k : ℕ) → Option ℕ
  | 0, _ => none
  | turns + 1, k => if dest k ≠ 0 then endLoop dest turns (k + 1) else some k

/-- The second loop of `strncat`, and the zero that is written after it. -/
def appendLoop : (count : ℕ) → (dest : Buf) → (k : ℕ) → (src : List Byte) → Option Buf
  | 0, dest, k, _ => some (Function.update dest k 0)
  | count + 1, dest, k, c :: src =>
      let dest := Function.update dest k c
      if c = 0 then some dest else appendLoop count dest (k + 1) src
  | _ + 1, _, _, [] => none

/-- `strncat`, for at most the given number of turns of its first loop. -/
def strncat (turns : ℕ) (dest : Buf) (src : List Byte) (count : ℕ) : Option Buf := do
  let k ← endLoop dest turns 0
  appendLoop count dest k src

/-! ### The loops -/

theorem strncpyLoop_eq {n : ℕ} {s : List Byte} (hs : 0 ∉ s) (rest : List Byte) (i : ℕ) (d : Buf) :
  strncpyLoop n (s ++ 0 :: rest) i d = some (writeAll d i (s.take (n - i)))
  := by
  induction s generalizing i d with
  | nil =>
    rw [List.nil_append, strncpyLoop, if_neg fun h => h.2 rfl, List.take_nil]
    rfl
  | cons c s ih =>
    rw [List.cons_append, strncpyLoop]
    by_cases hi : i < n
    · have hsucc : n - i = n - (i + 1) + 1 := by omega
      rw [if_pos ⟨hi, ne_zero_of_cons hs⟩, ih (zero_notMem_of_cons hs), hsucc, List.take_succ_cons,
        writeAll]
    · rw [if_neg fun h => hi h.1, Nat.sub_eq_zero_of_le (Nat.le_of_not_lt hi), List.take_zero]
      rfl

theorem endLoop_eq {dest : Buf} {old : List Byte} (h : Terminated dest old) :
  endLoop dest (old.length + 1) 0 = some old.length
  := by
  have hskip : ∀ j ≤ old.length, endLoop dest (j + 1) (old.length - j) = some old.length := by
    intro j hj
    induction j with
    | zero => rw [endLoop, Nat.sub_zero, if_neg (not_not.mpr h.stop)]
    | succ j ih =>
      have hlt : old.length - (j + 1) < old.length := by omega
      have hsucc : old.length - (j + 1) + 1 = old.length - j := by omega
      have hne : dest (old.length - (j + 1)) ≠ 0 := by
        rw [h.chars _ hlt]
        intro hzero
        apply h.nonzero
        rw [← hzero]
        exact List.getElem_mem hlt
      rw [endLoop, if_pos hne, hsucc, ih (Nat.le_of_succ_le hj)]
  have hall := hskip old.length le_rfl
  rwa [Nat.sub_self] at hall

theorem appendLoop_eq {s : List Byte} (hs : 0 ∉ s) (rest : List Byte) (count : ℕ) (dest : Buf)
    (k : ℕ) :
  appendLoop count dest k (s ++ 0 :: rest) = some (writeAll dest k (s.take count ++ [0]))
  := by
  induction count generalizing s dest k with
  | zero => rfl
  | succ count ih =>
    cases s with
    | nil =>
      rw [List.nil_append, appendLoop]
      rw [if_pos rfl, List.take_nil]
      rfl
    | cons c s =>
      rw [List.cons_append, appendLoop]
      rw [if_neg (ne_zero_of_cons hs), ih (zero_notMem_of_cons hs), List.take_succ_cons,
        List.cons_append, writeAll]

/-! ### The copies -/

/-- `strncpy` copies the string when there is room for its zero, and `strncat` appends as much of it
as it is told to. -/
structure Copies (dest : Buf) (src : CString) (n : ℕ) : Prop where
  strncpy : src.chars.length < n →
    ∃ dest', Returns (fun s => strncpy dest s n) src dest' ∧ Terminated dest' src.chars
      ∧ ∀ k, n ≤ k → dest' k = dest k
  strncat : ∀ old, Terminated dest old →
    ∃ turns dest', Returns (fun s => strncat turns dest s n) src dest'
      ∧ Terminated dest' (old ++ src.chars.take n)

theorem strncpy_returns (dest : Buf) (src : CString) {n : ℕ} (h : src.chars.length < n) :
  Returns (fun s => strncpy dest s n) src (writeAll dest 0 src.chars)
  := by
  intro rest
  have hloop := strncpyLoop_eq src.nonzero rest (n := n) 0 dest
  rwa [Nat.sub_zero, List.take_of_length_le h.le] at hloop

theorem strncat_returns {dest : Buf} {old : List Byte} (hold : Terminated dest old) (src : CString)
    (n : ℕ) :
  Returns (fun s => strncat (old.length + 1) dest s n) src
    (writeAll dest old.length (src.chars.take n ++ [0]))
  := by
  intro rest
  have hend := endLoop_eq hold
  have happend := appendLoop_eq src.nonzero rest n dest old.length
  dsimp only
  rw [strncat, hend, Option.bind_eq_bind, Option.bind_some]
  exact happend

/-- The copy of a string ends where the buffer has a zero, and `strncpy` does not write one. -/
theorem copies_iff (dest : Buf) (src : CString) (n : ℕ) :
  Copies dest src n ↔ (src.chars.length < n → dest src.chars.length = 0)
  := by
  constructor
  · intro h hlen
    obtain ⟨dest', hreturns, hterminated, -⟩ := h.strncpy hlen
    have heq := (hreturns []).symm.trans (strncpy_returns dest src hlen [])
    rw [Option.some.inj heq] at hterminated
    exact (terminated_writeAll_iff src.nonzero).mp hterminated
  · intro h
    constructor
    · intro hlen
      refine ⟨_, strncpy_returns dest src hlen, ?_, ?_⟩
      · exact (terminated_writeAll_iff src.nonzero).mpr (h hlen)
      · intro k hk
        exact writeAll_of_ge (by omega)
    · intro old hold
      refine ⟨_, _, strncat_returns hold src n, ?_⟩
      apply terminated_append hold.chars
      intro hmem
      obtain hmem | hmem := List.mem_append.mp hmem
      · exact hold.nonzero hmem
      · exact src.nonzero (List.mem_of_mem_take hmem)

/-- `apic_tsc`, the name of a timer. -/
def apicTsc : CString := ⟨[0x61, 0x70, 0x69, 0x63, 0x5f, 0x74, 0x73, 0x63], by decide, by decide⟩

/-- The name of a timer has sixteen bytes, and what was there before follows the name that is
copied to them. -/
theorem not_copies :
  ¬ ∀ dest : Buf, ∀ src : CString, ∀ n : ℕ, Copies dest src n
  := by
  intro h
  have hlen : apicTsc.chars.length < 16 := by decide
  obtain ⟨dest', hreturns, hterminated, -⟩ := (h (fun _ => 0x78) apicTsc 16).strncpy hlen
  have heq := (hreturns []).symm.trans (strncpy_returns _ apicTsc hlen [])
  rw [Option.some.inj heq] at hterminated
  exact absurd hterminated.stop (by decide)

end Strings
