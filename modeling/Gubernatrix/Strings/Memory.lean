import Gubernatrix.Types
import Mathlib.Logic.Function.Basic

/-!
# Filling and moving memory

`memset` and `memmove` of `string.c`, on a memory of bytes whose addresses wrap around. `memset`
writes single bytes until the address and the count are both multiples of eight, and words after
that. `memmove` starts at the end where no byte of the source is overwritten before it is read. What
is returned is the memory: both return the pointer that they were given.
-/

namespace Strings

/-- The bytes at all addresses. -/
abbrev Mem := U64 → BitVec 8

/-- A word is stored with its lowest byte first. -/
def store64 (m : Mem) (a v : U64) : Mem :=
  fun x => if x - a < 8 then (v >>> (8 * (x - a).toNat)).setWidth 8 else m x

/-- The byte that `memset` writes, as a word. -/
def byteOf (c : BitVec 32) : U64 := (c &&& 0xff).signExtend 64

/-- The word that `memset` writes. -/
def wordOf (c8 : U64) : U64 :=
  let c32 := (c8 <<< 24) ||| (c8 <<< 16) ||| (c8 <<< 8) ||| c8
  (c32 <<< 32) ||| c32

/-- The first loop of `memset`, for at most the given number of turns: the memory, the address and
the count after it. -/
def byteLoop (c8 : U64) : ℕ → Mem → (s8 n : U64) → Option (Mem × U64 × U64)
  | 0, _, _, _ => none
  | turns + 1, m, s8, n =>
      if s8 % 8 = 0 ∧ n % 8 = 0 then some (m, s8, n)
      else if n = 0 then some (m, s8, n)
      else byteLoop c8 turns (Function.update m s8 (c8.setWidth 8)) (s8 + 1) (n - 1)

/-- The second loop of `memset`, for at most the given number of turns. -/
def wordLoop (c64 : U64) : ℕ → Mem → (s64 n : U64) → Option Mem
  | 0, _, _, _ => none
  | turns + 1, m, s64, n =>
      if 0 < n then wordLoop c64 turns (store64 m s64 c64) (s64 + 8) (n - 8) else some m

/-- `memset`, for at most the given number of turns of each loop. -/
def memset (turns : ℕ) (m : Mem) (s : U64) (c : BitVec 32) (n : U64) : Option Mem := do
  let c8 := byteOf c
  let (m, s8, n) ← byteLoop c8 turns m s n
  wordLoop (wordOf c8) turns m s8 n

/-- The loop of `memmove` from the last byte on, where the pointers are after the bytes. -/
def downLoop : (n : ℕ) → Mem → (pd ps : U64) → Mem
  | 0, m, _, _ => m
  | n + 1, m, pd, ps => downLoop n (Function.update m (pd - 1) (m (ps - 1))) (pd - 1) (ps - 1)

/-- The loop of `memmove` from the first byte on. -/
def upLoop : (n : ℕ) → Mem → (pd ps : U64) → Mem
  | 0, m, _, _ => m
  | n + 1, m, pd, ps => upLoop n (Function.update m pd (m ps)) (pd + 1) (ps + 1)

/-- `memmove`. That the pointers are declared `restrict` makes no difference to its loops. -/
def memmove (m : Mem) (dest src n : U64) : Mem :=
  if src < dest then downLoop n.toNat m (dest + n) (src + n) else upLoop n.toNat m dest src

/-! ### What is written -/

/-- These many bytes from an address on are given by their places, and the others are as before. -/
structure Written (m m' : Mem) (s n : U64) (f : U64 → BitVec 8) : Prop where
  inside : ∀ i < n, m' (s + i) = f i
  outside : ∀ x, (∀ i < n, x ≠ s + i) → m' x = m x

/-- The place of an address decides whether it is written. -/
theorem written_iff {m m' : Mem} {s n : U64} {f : U64 → BitVec 8} :
  Written m m' s n f ↔ ∀ x, m' x = if x - s < n then f (x - s) else m x
  := by
  have hback : ∀ x, s + (x - s) = x := fun x => by rw [BitVec.add_comm, BitVec.sub_add_cancel]
  have hplace : ∀ i, s + i - s = i := fun i => by rw [BitVec.add_comm, BitVec.add_sub_cancel]
  constructor
  · intro h x
    split
    · rename_i hlt
      rw [← h.inside _ hlt, hback]
    · rename_i hlt
      apply h.outside
      rintro i hi rfl
      rw [hplace] at hlt
      exact hlt hi
  · intro h
    constructor
    · intro i hi
      rw [h, hplace, if_pos hi]
    · intro x hx
      rw [h, if_neg]
      intro hlt
      exact hx _ hlt (hback x).symm

/-! ### `memset` -/

theorem byteOf_eq (c : BitVec 32) :
  byteOf c = (c.setWidth 8).setWidth 64
  := by
  have hmsb : (c &&& 0xff).msb = false := by
    rw [BitVec.msb_and]
    exact Bool.and_false _
  have hmask : (c &&& 0xff).toNat = c.toNat % 2 ^ 8 := by
    rw [BitVec.toNat_and]
    exact Nat.and_two_pow_sub_one_eq_mod _ 8
  apply BitVec.eq_of_toNat_eq
  rw [byteOf, BitVec.signExtend_eq_setWidth_of_msb_false hmsb, BitVec.toNat_setWidth,
    BitVec.toNat_setWidth, BitVec.toNat_setWidth, hmask]

/-- Each byte of the word is the byte that is written. -/
theorem wordOf_byte (b : BitVec 8) {i : ℕ} (hi : i < 8) :
  (wordOf (b.setWidth 64) >>> (8 * i)).setWidth 8 = b
  := by
  have key : ∀ b : BitVec 8, ∀ i < 8, (wordOf (b.setWidth 64) >>> (8 * i)).setWidth 8 = b := by
    decide +kernel
  exact key b i hi

/-- A byte and the bytes after it are written. -/
theorem Written.byte {m m' : Mem} {s n : U64} {b : BitVec 8} (hn : n ≠ 0)
    (h : Written (Function.update m s b) m' (s + 1) (n - 1) fun _ => b) :
  Written m m' s n fun _ => b
  := by
  rw [written_iff] at h ⊢
  intro x
  rw [h]
  by_cases hx : x = s
  · subst hx
    have hzero : x - x < n := by bv_omega
    rw [if_pos hzero, Function.update_self, ite_self]
  · rw [Function.update_of_ne hx]
    have hplace : x - (s + 1) < n - 1 ↔ x - s < n := by bv_omega
    simp only [hplace]

/-- A word and the bytes after it are written. -/
theorem Written.word {m m' : Mem} {s n v : U64} {b : BitVec 8} (hn : 8 ≤ n)
    (hv : ∀ i < 8, (v >>> (8 * i)).setWidth 8 = b)
    (h : Written (store64 m s v) m' (s + 8) (n - 8) fun _ => b) :
  Written m m' s n fun _ => b
  := by
  rw [written_iff] at h ⊢
  intro x
  rw [h]
  by_cases hlow : x - s < 8
  · have hlt : x - s < n := by bv_omega
    have hbyte : store64 m s v x = b := by
      rw [store64, if_pos hlow]
      exact hv _ hlow
    rw [hbyte, ite_self, if_pos hlt]
  · have hplace : x - (s + 8) < n - 8 ↔ x - s < n := by bv_omega
    rw [store64, if_neg hlow]
    simp only [hplace]

theorem written_zero (m : Mem) (s : U64) (f : U64 → BitVec 8) :
  Written m m s 0 f
  := by
  rw [written_iff]
  intro x
  have hlt : ¬ x - s < 0 := BitVec.not_lt_zero
  rw [if_neg hlt]

theorem mod_eight_iff (n : U64) :
  n % 8 = 0 ↔ n.toNat % 8 = 0
  := by
  rw [← BitVec.toNat_inj, BitVec.toNat_umod]
  rfl

/-- After the first loop, a whole number of words is left, and the bytes before them are written. -/
theorem byteLoop_written (b : BitVec 8) :
  ∀ (turns : ℕ) (m : Mem) (s n : U64), n.toNat < turns →
    ∃ m' s' n', byteLoop (b.setWidth 64) turns m s n = some (m', s', n') ∧ n'.toNat < turns
      ∧ n' % 8 = 0 ∧ ∀ m'', Written m' m'' s' n' (fun _ => b) → Written m m'' s n fun _ => b
  | 0, _, _, _, hturns => absurd hturns (Nat.not_lt_zero _)
  | turns + 1, m, s, n, hturns => by
      rw [byteLoop]
      by_cases haligned : s % 8 = 0 ∧ n % 8 = 0
      · rw [if_pos haligned]
        exact ⟨m, s, n, rfl, hturns, haligned.2, fun _ h => h⟩
      · rw [if_neg haligned]
        by_cases hn : n = 0
        · rw [if_pos hn]
          refine ⟨m, s, n, rfl, hturns, ?_, fun _ h => h⟩
          rw [hn]
          rfl
        · have hpred : (n - 1).toNat < turns := by bv_omega
          obtain ⟨m', s', n', hloop, hlt, hwords, hwritten⟩ :=
            byteLoop_written b turns (Function.update m s b) (s + 1) (n - 1) hpred
          have hbyte : (b.setWidth 64).setWidth 8 = b :=
            BitVec.setWidth_setWidth_of_le b (by decide)
          rw [if_neg hn, hbyte]
          refine ⟨m', s', n', hloop, Nat.lt_succ_of_lt hlt, hwords, ?_⟩
          intro m'' h
          exact (hwritten m'' h).byte hn

/-- The second loop writes a whole number of words. -/
theorem wordLoop_written {v : U64} {b : BitVec 8} (hv : ∀ i < 8, (v >>> (8 * i)).setWidth 8 = b) :
  ∀ (turns : ℕ) (m : Mem) (s n : U64), n.toNat < turns → n % 8 = 0 →
    ∃ m', wordLoop v turns m s n = some m' ∧ Written m m' s n fun _ => b
  | 0, _, _, _, hturns, _ => absurd hturns (Nat.not_lt_zero _)
  | turns + 1, m, s, n, hturns, hwords => by
      rw [wordLoop]
      by_cases hn : 0 < n
      · rw [mod_eight_iff] at hwords
        have hword : 8 ≤ n := by bv_omega
        have hrest : (n - 8) % 8 = 0 := by
          have hsub : (n - 8).toNat = n.toNat - 8 := by bv_omega
          rw [mod_eight_iff, hsub]
          omega
        obtain ⟨m', hloop, hwritten⟩ :=
          wordLoop_written hv turns (store64 m s v) (s + 8) (n - 8) (by bv_omega) hrest
        rw [if_pos hn]
        exact ⟨m', hloop, hwritten.word hword hv⟩
      · obtain rfl : n = 0 := by bv_omega
        rw [if_neg hn]
        exact ⟨m, rfl, written_zero m s _⟩

/-- A turn for each byte, and one more, is enough. -/
theorem memset_written (m : Mem) (s : U64) (c : BitVec 32) (n : U64) :
  ∃ m', memset (n.toNat + 1) m s c n = some m' ∧ Written m m' s n fun _ => c.setWidth 8
  := by
  obtain ⟨m', s', n', hbytes, hlt, hwords, hwritten⟩ :=
    byteLoop_written (c.setWidth 8) (n.toNat + 1) m s n (Nat.lt_succ_self _)
  obtain ⟨m'', hloop, hwritten'⟩ :=
    wordLoop_written (fun i hi => wordOf_byte (c.setWidth 8) hi) (n.toNat + 1) m' s' n' hlt hwords
  refine ⟨m'', ?_, hwritten m'' hwritten'⟩
  rw [memset, byteOf_eq]
  dsimp only
  rw [hbytes, Option.bind_eq_bind, Option.bind_some]
  exact hloop

/-- `memset` returns, and has filled the bytes that it was given and no others. -/
theorem memset_fills (m : Mem) (s : U64) (c : BitVec 32) (n : U64) :
  ∃ turns m', memset turns m s c n = some m' ∧ Written m m' s n fun _ => c.setWidth 8
  := ⟨n.toNat + 1, memset_written m s c n⟩

/-! ### `memmove` -/

theorem eq_place_iff {x a : U64} {i : ℕ} (hi : i < 2 ^ 64) :
  x = a + BitVec.ofNat 64 i ↔ (x - a).toNat = i
  := by bv_omega

theorem place_succ (a : U64) (i : ℕ) :
  a + BitVec.ofNat 64 i + 1 = a + BitVec.ofNat 64 (i + 1)
  := by
  rw [BitVec.add_assoc, BitVec.ofNat_add]
  rfl

theorem place_pred (a : U64) (i : ℕ) :
  a + BitVec.ofNat 64 (i + 1) - 1 = a + BitVec.ofNat 64 i
  := by
  rw [← place_succ]
  exact BitVec.add_sub_cancel _ _

/-- Addresses that are different numbers without a wrap are different. -/
theorem add_ne_place {a b y : U64} {i : ℕ} (hy : a.toNat + y.toNat < 2 ^ 64)
    (hi : b.toNat + i < 2 ^ 64) (h : a.toNat + y.toNat ≠ b.toNat + i) :
  a + y ≠ b + BitVec.ofNat 64 i
  := by
  intro heq
  have hnat := congrArg BitVec.toNat heq
  rw [BitVec.toNat_add, BitVec.toNat_add, BitVec.toNat_ofNat] at hnat
  omega

/-- The loop from the first byte on moves the bytes of the places that are left: a byte that is
written is before all that are read later. -/
theorem upLoop_apply {dest src : U64} (h : dest.toNat ≤ src.toNat) :
  ∀ (k i : ℕ) (m : Mem), src.toNat + (i + k) ≤ 2 ^ 64 → ∀ x,
    upLoop k m (dest + BitVec.ofNat 64 i) (src + BitVec.ofNat 64 i) x
      = if i ≤ (x - dest).toNat ∧ (x - dest).toNat < i + k then m (src + (x - dest)) else m x
  | 0, i, m, _, x => by
      rw [upLoop, if_neg]
      omega
  | k + 1, i, m, hfits, x => by
      have hi : i < 2 ^ 64 := by omega
      rw [upLoop, place_succ, place_succ, upLoop_apply h k (i + 1) _ (by omega)]
      by_cases hx : (x - dest).toNat = i
      · have hplace := (eq_place_iff hi).mpr hx
        have hoffset : x - dest = BitVec.ofNat 64 i := by bv_omega
        rw [if_neg (by omega), if_pos (by omega), hoffset, hplace, Function.update_self]
      · have hplace : x ≠ dest + BitVec.ofNat 64 i := fun h' => hx ((eq_place_iff hi).mp h')
        rw [Function.update_of_ne hplace]
        by_cases hlater : i + 1 ≤ (x - dest).toNat ∧ (x - dest).toNat < i + 1 + k
        · have hread : src + (x - dest) ≠ dest + BitVec.ofNat 64 i :=
            add_ne_place (by omega) (by omega) (by omega)
          rw [if_pos hlater, if_pos (by omega), Function.update_of_ne hread]
        · rw [if_neg hlater, if_neg (by omega)]

/-- The loop from the last byte on moves the bytes before the pointers: a byte that is written is
after all that are read later. -/
theorem downLoop_apply {dest src : U64} (h : src.toNat ≤ dest.toNat) :
  ∀ (k : ℕ) (m : Mem), dest.toNat + k ≤ 2 ^ 64 → ∀ x,
    downLoop k m (dest + BitVec.ofNat 64 k) (src + BitVec.ofNat 64 k) x
      = if (x - dest).toNat < k then m (src + (x - dest)) else m x
  | 0, m, _, x => by
      rw [downLoop, if_neg]
      omega
  | k + 1, m, hfits, x => by
      have hk : k < 2 ^ 64 := by omega
      rw [downLoop, place_pred, place_pred, downLoop_apply h k _ (by omega)]
      by_cases hx : (x - dest).toNat = k
      · have hplace := (eq_place_iff hk).mpr hx
        have hoffset : x - dest = BitVec.ofNat 64 k := by bv_omega
        rw [if_neg (by omega), if_pos (by omega), hoffset, hplace, Function.update_self]
      · have hplace : x ≠ dest + BitVec.ofNat 64 k := fun h' => hx ((eq_place_iff hk).mp h')
        rw [Function.update_of_ne hplace]
        by_cases hlater : (x - dest).toNat < k
        · have hread : src + (x - dest) ≠ dest + BitVec.ofNat 64 k :=
            add_ne_place (by omega) (by omega) (by omega)
          rw [if_pos hlater, if_pos (by omega), Function.update_of_ne hread]
        · rw [if_neg hlater, if_neg (by omega)]

/-- `memmove` moves the bytes as they were before, whether the two ranges overlap or not. -/
theorem memmove_moves (m : Mem) {dest src n : U64} (hdest : dest.toNat + n.toNat ≤ 2 ^ 64)
    (hsrc : src.toNat + n.toNat ≤ 2 ^ 64) :
  Written m (memmove m dest src n) dest n fun i => m (src + i)
  := by
  rw [written_iff]
  intro x
  rw [memmove]
  have hn : BitVec.ofNat 64 n.toNat = n := by
    rw [BitVec.ofNat_toNat, BitVec.setWidth_eq]
  by_cases hlt : src < dest
  · have hmove := downLoop_apply (BitVec.lt_def.mp hlt).le n.toNat m hdest x
    rw [hn] at hmove
    rw [if_pos hlt, hmove]
    rfl
  · have hle : dest.toNat ≤ src.toNat := by bv_omega
    have hmove := upLoop_apply hle n.toNat 0 m (by omega) x
    have hzero : ∀ a : U64, a + BitVec.ofNat 64 0 = a := BitVec.add_zero
    rw [hzero, hzero, Nat.zero_add] at hmove
    rw [if_neg hlt, hmove]
    simp only [Nat.zero_le, true_and]
    rfl

/-- Each byte is the low part of its address. -/
def lowBytes : Mem := fun x => x.setWidth 8

/-- Eight bytes are moved by one, up and down. -/
theorem memmove_moves_overlap :
  Written lowBytes (memmove lowBytes 1 0 8) 1 8 (fun i => lowBytes (0 + i))
    ∧ Written lowBytes (memmove lowBytes 0 1 8) 0 8 fun i => lowBytes (1 + i)
  := by
  constructor
  · exact memmove_moves lowBytes (by decide) (by decide)
  · exact memmove_moves lowBytes (by decide) (by decide)

end Strings
