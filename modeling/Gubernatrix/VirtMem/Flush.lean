import Gubernatrix.VirtMem.Paging

/-!
# Flushing a range

What `vmem_flush` does to the TLB once it has saved the state: up to 1 GiB it flushes a page at a
time, from the address that it is given on. Its loop counts the bytes of the range, not the pages
that the range has a part of.
-/

namespace VirtMem

/-- An instruction that flushes translations. -/
inductive TlbInstr where
  | loadCr3
  | invlpg (virt : U64)
deriving DecidableEq

/-- The addresses for which the loop of `vmem_flush` executes `invlpg`, from `n` bytes on, for at
most the given number of turns. -/
def flushLoop (sz : U64) : ℕ → (n virt : U64) → Option (List U64)
  | 0, _, _ => none
  | turns + 1, n, virt =>
      if n < sz then do
        let rest ← flushLoop sz turns (n + kib 4) (virt + kib 4)
        some (virt :: rest)
      else some []

/-- The instructions of `vmem_flush`. -/
def flushInstrs (virt sz : U64) : Option (List TlbInstr) :=
  if sz > gib 1 then some [.loadCr3]
  else do
    let virts ← flushLoop sz (sz.toNat / 4096 + 2) 0 virt
    some (virts.map .invlpg)

/-- The page has an address in the range. -/
def Meets (virt sz : U64) (page : ℕ) : Prop :=
  ∃ a, virt.toNat ≤ a ∧ a < virt.toNat + sz.toNat ∧ a / 4096 = page

/-- For each page that meets the range, `vmem_flush` executes an `invlpg` with an address in it. -/
def Covers (virt sz : U64) : Prop :=
  ∃ instrs, flushInstrs virt sz = some instrs ∧
    ∀ page, Meets virt sz page → ∃ v : U64, TlbInstr.invlpg v ∈ instrs ∧ v.toNat / 4096 = page

/-- The loop executes an `invlpg` for every 4096 bytes that are left, the last ones included. -/
theorem flushLoop_eq {sz : U64} (hsz : sz.toNat ≤ 2 ^ 30) :
  ∀ (turns : ℕ) (n virt : U64), (sz.toNat - n.toNat + 4095) / 4096 < turns →
    flushLoop sz turns n virt = some ((List.range ((sz.toNat - n.toNat + 4095) / 4096)).map
      fun i => virt + BitVec.ofNat 64 (i * 4096))
  | 0, n, virt, hturns => by omega
  | turns + 1, n, virt, hturns => by
      rw [flushLoop]
      by_cases hlt : n < sz
      · rw [if_pos hlt]
        rw [BitVec.lt_def] at hlt
        have hn : (n + kib 4).toNat = n.toNat + 4096 := by
          rw [BitVec.toNat_add, show (kib 4).toNat = 4096 from rfl]
          omega
        have hcnt : (sz.toNat - n.toNat + 4095) / 4096
            = (sz.toNat - (n + kib 4).toNat + 4095) / 4096 + 1 := by
          omega
        rw [flushLoop_eq hsz turns _ _ (by omega), hcnt, List.range_succ_eq_map, List.map_cons,
          List.map_map]
        simp only [Option.bind_eq_bind, Option.bind_some, Option.some.injEq, List.cons.injEq]
        constructor
        · rw [Nat.zero_mul]
          exact (BitVec.add_zero virt).symm
        · apply List.map_congr_left
          intro i _
          have hnext : kib 4 + BitVec.ofNat 64 (i * 4096) = BitVec.ofNat 64 (i.succ * 4096) := by
            apply BitVec.eq_of_toNat_eq
            rw [BitVec.toNat_add, BitVec.toNat_ofNat, BitVec.toNat_ofNat,
              show (kib 4).toNat = 4096 from rfl]
            omega
          rw [Function.comp_apply, BitVec.add_assoc, hnext]
      · rw [if_neg hlt]
        rw [BitVec.lt_def] at hlt
        have hzero : (sz.toNat - n.toNat + 4095) / 4096 = 0 := by omega
        rw [hzero]
        rfl

/-- The instructions for a range of at most 1 GiB. -/
theorem mem_flushInstrs (virt : U64) {sz : U64} (hsz : sz.toNat ≤ 2 ^ 30) :
  ∃ instrs, flushInstrs virt sz = some instrs ∧ ∀ v, TlbInstr.invlpg v ∈ instrs ↔
    ∃ i, i < (sz.toNat + 4095) / 4096 ∧ virt + BitVec.ofNat 64 (i * 4096) = v
  := by
  have hnot : ¬ sz > gib 1 := by
    rw [gt_iff_lt, BitVec.lt_def, show (gib 1).toNat = 2 ^ 30 from rfl]
    omega
  have hzero : (0 : U64).toNat = 0 := rfl
  rw [flushInstrs, if_neg hnot, flushLoop_eq hsz _ _ _ (by rw [hzero]; omega), hzero, Nat.sub_zero]
  refine ⟨_, rfl, ?_⟩
  intro v
  simp only [List.mem_map, List.mem_range, TlbInstr.invlpg.injEq, exists_eq_right]

/-- A range of at most 1 GiB is covered if and only if the offset of its address in the page, and
what its size, less one, is above whole pages, are together less than a page. -/
theorem covers_iff {virt sz : U64} (hpos : 0 < sz.toNat) (hsz : sz ≤ gib 1)
    (hwrap : virt.toNat + sz.toNat ≤ 2 ^ 64) :
  Covers virt sz ↔ virt.toNat % 4096 + (sz.toNat - 1) % 4096 < 4096
  := by
  rw [BitVec.le_def, show (gib 1).toNat = 2 ^ 30 from rfl] at hsz
  obtain ⟨instrs, hinstrs, hmem⟩ := mem_flushInstrs virt hsz
  have hvirt : ∀ {i}, i < (sz.toNat + 4095) / 4096 →
      (virt + BitVec.ofNat 64 (i * 4096)).toNat = virt.toNat + i * 4096 := by
    intro i hi
    rw [BitVec.toNat_add, BitVec.toNat_ofNat]
    omega
  constructor
  · rintro ⟨instrs', hinstrs', hcovers⟩
    obtain rfl := Option.some.inj (hinstrs'.symm.trans hinstrs)
    -- the page of the last address
    obtain ⟨v, hv, hpage⟩ := hcovers ((virt.toNat + sz.toNat - 1) / 4096)
      ⟨virt.toNat + sz.toNat - 1, by omega, by omega, rfl⟩
    obtain ⟨i, hi, rfl⟩ := (hmem v).mp hv
    rw [hvirt hi] at hpage
    omega
  · intro hoffsets
    refine ⟨instrs, hinstrs, ?_⟩
    rintro page ⟨a, hle, hlt, rfl⟩
    have hi : a / 4096 - virt.toNat / 4096 < (sz.toNat + 4095) / 4096 := by omega
    refine ⟨_, (hmem _).mpr ⟨a / 4096 - virt.toNat / 4096, hi, rfl⟩, ?_⟩
    rw [hvirt hi]
    omega

/-- Two pages from the start of a page on. -/
theorem covers_twoPages :
  Covers 0x1000 (kib 8)
  := (covers_iff (by decide) (by decide) (by decide)).mpr (by decide)

/-- Of the two bytes on both sides of the end of a page, the second is not flushed. -/
theorem not_covers_twoBytes :
  ¬ Covers 0x1fff 2
  := by
  rintro ⟨instrs, hinstrs, hcovers⟩
  obtain rfl : [TlbInstr.invlpg 0x1fff] = instrs := Option.some.inj hinstrs
  obtain ⟨v, hv, hpage⟩ := hcovers 2 ⟨0x2000, by decide, by decide, rfl⟩
  obtain rfl : v = 0x1fff := by simpa using hv
  revert hpage
  decide

end VirtMem
