import Gubernatrix.Lib.PageWalk
import Mathlib.Tactic.NormNum

/-!
# The page tables of the boot code

`boot.S` enters long mode with page tables that it builds itself, with 32-bit stores to physical
memory. `walk_bootTables` says what the processor then translates: the first two megabytes to
themselves, the last two gigabytes to the first two of physical memory, and nothing else.
-/

namespace BootPaging

open PageWalk

/-- `movl $imm, (addr)`. -/
def movl (mem : Phys) (addr imm : BitVec 32) : Phys := Function.update mem addr.toNat imm

/-- `rep stosl` with the given count in `ecx`: `edi` and memory after it. The direction flag is
clear. -/
def repStosl (eax : BitVec 32) : ℕ → BitVec 32 → Phys → BitVec 32 × Phys
  | 0, edi, mem => (edi, mem)
  | ecx + 1, edi, mem => repStosl eax ecx (edi + 4) (movl mem edi eax)

/-- The loop `.SetGBEntry`, with the given count in `ecx`. -/
def setGBEntry : ℕ → (edi ebx : BitVec 32) → Phys → Phys
  | 0, _, _, mem => mem
  | ecx + 1, edi, ebx, mem =>
      let mem := movl mem edi ebx
      let mem := movl mem (edi + 4) 0
      setGBEntry ecx (edi + 8) (ebx + 0x200000) mem

/-- The loop `.SetEntry`, with the given count in `ecx`. -/
def setEntry : ℕ → (edi ebx : BitVec 32) → Phys → Phys
  | 0, _, _, mem => mem
  | ecx + 1, edi, ebx, mem => setEntry ecx (edi + 8) (ebx + 0x1000) (movl mem edi ebx)

/-- The value of `cr3`. -/
def cr3 : BitVec 32 := 0x1000

/-- The part of `_start` that clears the tables. -/
def clearTables (mem : Phys) : Phys :=
  let first := repStosl 0 4096 cr3 mem
  (repStosl 0 4096 first.1 first.2).2

/-- The part of `_start` that links the tables. -/
def linkTables (mem : Phys) : Phys :=
  let edi := cr3
  let mem := movl mem edi 0x2003
  let mem := movl mem (edi + 0xFF8) 0x5003
  let edi := edi + 0x1000
  let mem := movl mem edi 0x3003
  let edi := edi + 0x1000
  let mem := movl mem edi 0x4003
  let edi := edi + 0x1000
  let mem := movl mem (edi + 0x1FE0) 0
  let mem := movl mem (edi + 0x1FE8) 0
  let mem := movl mem (edi + 0x1FF0) 0
  let mem := movl mem (edi + 0x1FF8) 0
  let mem := movl mem (edi + 0x1FF0) 0x16003
  movl mem (edi + 0x1FF8) 0x17003

/-- The page tables of `_start`. -/
def start (mem : Phys) : Phys :=
  setEntry 512 0x4000 0x3 (setGBEntry 2048 0x16000 0x108B (linkTables (clearTables mem)))

/-! ### The loops -/

theorem movl_apply (mem : Phys) (addr imm : BitVec 32) (a : ℕ) :
  movl mem addr imm a = if a = addr.toNat then imm else mem a
  := by
  rw [movl, Function.update_apply]

theorem toNat_add_of_lt {x : BitVec 32} {k : ℕ} (h : x.toNat + k < 2 ^ 32) :
  (x + BitVec.ofNat 32 k).toNat = x.toNat + k
  := by
  rw [BitVec.toNat_add, BitVec.toNat_ofNat]
  omega

theorem repStosl_fst (eax : BitVec 32) (n : ℕ) (edi : BitVec 32) (mem : Phys)
    (hfit : edi.toNat + 4 * n < 2 ^ 32) :
  (repStosl eax n edi mem).1.toNat = edi.toNat + 4 * n
  := by
  induction n generalizing edi mem with
  | zero => rfl
  | succ n ih =>
      have hnext : (edi + 4).toNat = edi.toNat + 4 := toNat_add_of_lt (k := 4) (by omega)
      rw [repStosl, ih _ _ (by omega), hnext]
      omega

/-- The words that `rep stosl` writes. -/
theorem repStosl_apply (eax : BitVec 32) (n : ℕ) (edi : BitVec 32) (mem : Phys)
    (hfit : edi.toNat + 4 * n < 2 ^ 32) (a : ℕ) :
  (repStosl eax n edi mem).2 a
    = if edi.toNat ≤ a ∧ a < edi.toNat + 4 * n ∧ (a - edi.toNat) % 4 = 0 then eax else mem a
  := by
  induction n generalizing edi mem with
  | zero =>
      rw [repStosl, if_neg (by omega)]
  | succ n ih =>
      have hnext : (edi + 4).toNat = edi.toNat + 4 := toNat_add_of_lt (k := 4) (by omega)
      rw [repStosl, ih _ _ (by omega), hnext, movl_apply]
      by_cases ha : a = edi.toNat
      · subst ha
        rw [if_neg (by omega), if_pos rfl, if_pos (by omega)]
      · rw [if_neg ha]
        apply if_congr _ rfl rfl
        omega

/-- The value of `ebx` some turns later. -/
theorem add_turn (ebx : BitVec 32) {a edi : ℕ} (step : ℕ) (ha : edi + 8 ≤ a) :
  ebx + BitVec.ofNat 32 step + BitVec.ofNat 32 ((a - (edi + 8)) / 8 * step)
    = ebx + BitVec.ofNat 32 ((a - edi) / 8 * step)
  := by
  have hturn : (a - edi) / 8 = (a - (edi + 8)) / 8 + 1 := by omega
  rw [hturn, BitVec.add_assoc, ← BitVec.ofNat_add, Nat.add_mul, Nat.one_mul, Nat.add_comm step]

/-- The words that `.SetGBEntry` writes. -/
theorem setGBEntry_apply (n : ℕ) (edi ebx : BitVec 32) (mem : Phys)
    (hfit : edi.toNat + 8 * n < 2 ^ 32) (a : ℕ) :
  setGBEntry n edi ebx mem a
    = if edi.toNat ≤ a ∧ a < edi.toNat + 8 * n ∧ (a - edi.toNat) % 8 = 0 then
        ebx + BitVec.ofNat 32 ((a - edi.toNat) / 8 * 0x200000)
      else if edi.toNat ≤ a ∧ a < edi.toNat + 8 * n ∧ (a - edi.toNat) % 8 = 4 then 0
      else mem a
  := by
  induction n generalizing edi ebx mem with
  | zero => rw [setGBEntry, if_neg (by omega), if_neg (by omega)]
  | succ n ih =>
      have hnext : (edi + 8).toNat = edi.toNat + 8 := toNat_add_of_lt (k := 8) (by omega)
      have hhigh : (edi + 4).toNat = edi.toNat + 4 := toNat_add_of_lt (k := 4) (by omega)
      rw [setGBEntry, ih _ _ _ (by omega), hnext, movl_apply, movl_apply, hhigh]
      by_cases hlater : edi.toNat + 8 ≤ a
      · -- an entry of a later turn
        rw [if_neg (show ¬ a = edi.toNat + 4 by omega), if_neg (show ¬ a = edi.toNat by omega)]
        have hvalue := add_turn ebx 0x200000 hlater
        rw [show BitVec.ofNat 32 0x200000 = (0x200000 : BitVec 32) from rfl] at hvalue
        rw [hvalue]
        apply if_congr (by omega) rfl
        apply if_congr (by omega) rfl rfl
      · rw [if_neg (by omega), if_neg (by omega)]
        by_cases hlow : a = edi.toNat
        · subst hlow
          rw [if_neg (by omega), if_pos rfl, if_pos (by omega), Nat.sub_self]
          simp
        · by_cases hword : a = edi.toNat + 4
          · rw [if_pos hword, if_neg (by omega), if_pos (by omega)]
          · rw [if_neg hword, if_neg hlow, if_neg (by omega), if_neg (by omega)]

/-- The words that `.SetEntry` writes. -/
theorem setEntry_apply (n : ℕ) (edi ebx : BitVec 32) (mem : Phys)
    (hfit : edi.toNat + 8 * n < 2 ^ 32) (a : ℕ) :
  setEntry n edi ebx mem a
    = if edi.toNat ≤ a ∧ a < edi.toNat + 8 * n ∧ (a - edi.toNat) % 8 = 0 then
        ebx + BitVec.ofNat 32 ((a - edi.toNat) / 8 * 0x1000)
      else mem a
  := by
  induction n generalizing edi ebx mem with
  | zero => rw [setEntry, if_neg (by omega)]
  | succ n ih =>
      have hnext : (edi + 8).toNat = edi.toNat + 8 := toNat_add_of_lt (k := 8) (by omega)
      rw [setEntry, ih _ _ _ (by omega), hnext, movl_apply]
      by_cases hlater : edi.toNat + 8 ≤ a
      · rw [if_neg (show ¬ a = edi.toNat by omega)]
        have hvalue := add_turn ebx 0x1000 hlater
        rw [show BitVec.ofNat 32 0x1000 = (0x1000 : BitVec 32) from rfl] at hvalue
        rw [hvalue]
        apply if_congr (by omega) rfl rfl
      · rw [if_neg (by omega)]
        by_cases hlow : a = edi.toNat
        · subst hlow
          rw [if_pos rfl, if_pos (by omega), Nat.sub_self]
          simp
        · rw [if_neg hlow, if_neg (by omega)]

/-! ### The tables -/

theorem clearTables_apply (mem : Phys) {a : ℕ} (h4 : a % 4 = 0) :
  clearTables mem a = if 0x1000 ≤ a ∧ a < 0x9000 then 0 else mem a
  := by
  have hcr3 : cr3.toNat = 0x1000 := rfl
  have hfirst : (repStosl 0 4096 cr3 mem).1.toNat = 0x5000 :=
    repStosl_fst 0 4096 cr3 mem (by rw [hcr3]; norm_num)
  rw [clearTables, repStosl_apply _ _ _ _ (by rw [hfirst]; norm_num), hfirst,
    repStosl_apply _ _ _ _ (by rw [hcr3]; norm_num), hcr3]
  by_cases hhigh : 0x5000 ≤ a ∧ a < 0x9000
  · rw [if_pos (by omega), if_pos (by omega)]
  · rw [if_neg (by omega)]
    apply if_congr (by omega) rfl rfl

theorem linkTables_apply (mem : Phys) (a : ℕ) :
  linkTables mem a = if a = 0x1000 then 0x2003 else if a = 0x1FF8 then 0x5003
    else if a = 0x2000 then 0x3003 else if a = 0x3000 then 0x4003
    else if a = 0x5FF0 then 0x16003 else if a = 0x5FF8 then 0x17003
    else if a = 0x5FE0 ∨ a = 0x5FE8 then 0 else mem a
  := by
  have h : cr3.toNat = 0x1000 ∧ (cr3 + 0xFF8).toNat = 0x1FF8 ∧ (cr3 + 0x1000).toNat = 0x2000
      ∧ (cr3 + 0x1000 + 0x1000).toNat = 0x3000
      ∧ (cr3 + 0x1000 + 0x1000 + 0x1000 + 0x1FE0).toNat = 0x5FE0
      ∧ (cr3 + 0x1000 + 0x1000 + 0x1000 + 0x1FE8).toNat = 0x5FE8
      ∧ (cr3 + 0x1000 + 0x1000 + 0x1000 + 0x1FF0).toNat = 0x5FF0
      ∧ (cr3 + 0x1000 + 0x1000 + 0x1000 + 0x1FF8).toNat = 0x5FF8 := by
    decide
  simp only [linkTables, movl_apply, h]
  split_ifs <;> first | rfl | omega

/-- What the boot code leaves at an address. -/
theorem start_apply (mem : Phys) {a : ℕ} (h4 : a % 4 = 0) :
  start mem a = if 0x4000 ≤ a ∧ a < 0x5000 ∧ a % 8 = 0 then
      3 + BitVec.ofNat 32 ((a - 0x4000) / 8 * 0x1000)
    else if 0x16000 ≤ a ∧ a < 0x1A000 then
      (if a % 8 = 0 then 0x108B + BitVec.ofNat 32 ((a - 0x16000) / 8 * 0x200000) else 0)
    else linkTables (clearTables mem) a
  := by
  have hpt : (0x4000 : BitVec 32).toNat = 0x4000 := rfl
  have hpd : (0x16000 : BitVec 32).toNat = 0x16000 := rfl
  rw [start, setEntry_apply _ _ _ _ (by rw [hpt]; norm_num),
    setGBEntry_apply _ _ _ _ (by rw [hpd]; norm_num), hpt, hpd]
  apply if_congr (by omega) rfl
  by_cases hin : 0x16000 ≤ a ∧ a < 0x1A000
  · rw [if_pos hin]
    by_cases h8 : a % 8 = 0
    · rw [if_pos (by omega), if_pos h8]
    · rw [if_neg (by omega), if_pos (by omega), if_neg h8]
  · rw [if_neg (by omega), if_neg (by omega), if_neg hin]

/-! ### The entries -/

section Entries

variable (mem : Phys) {i : ℕ}

/-- The upper words of the tables are zero. -/
theorem start_high {table : ℕ} (hlow : 0x1000 ≤ table) (hhigh : table + 0x1000 ≤ 0x9000)
    (h8 : table % 8 = 0) (hi : i < 512) :
  start mem (table + 8 * i + 4) = 0
  := by
  rw [start_apply mem (by omega), if_neg (by omega), if_neg (by omega), linkTables_apply,
    if_neg (by omega), if_neg (by omega), if_neg (by omega), if_neg (by omega), if_neg (by omega),
    if_neg (by omega), if_neg (by omega), clearTables_apply mem (by omega), if_pos (by omega)]

/-- The lower words of the tables that are only linked. -/
theorem start_low {table : ℕ} (hlow : 0x1000 ≤ table) (hhigh : table + 0x1000 ≤ 0x9000)
    (hpt : table + 0x1000 ≤ 0x4000 ∨ 0x5000 ≤ table) (h8 : table % 8 = 0) (hi : i < 512) :
  start mem (table + 8 * i) = if table + 8 * i = 0x1000 then 0x2003
    else if table + 8 * i = 0x1FF8 then 0x5003 else if table + 8 * i = 0x2000 then 0x3003
    else if table + 8 * i = 0x3000 then 0x4003 else if table + 8 * i = 0x5FF0 then 0x16003
    else if table + 8 * i = 0x5FF8 then 0x17003 else 0
  := by
  rw [start_apply mem (by omega), if_neg (by omega), if_neg (by omega), linkTables_apply,
    clearTables_apply mem (by omega), if_pos (show 0x1000 ≤ table + 8 * i ∧ _ by omega), ite_self]

/-- An entry that links a table or maps a page. -/
def lower (w : BitVec 32) : BitVec 64 := 0#32 ++ w

theorem entry_start {table : ℕ} (hlow : 0x1000 ≤ table) (hhigh : table + 0x1000 ≤ 0x9000)
    (h8 : table % 8 = 0) (hi : i < 512) :
  entry (start mem) table i = lower (start mem (table + 8 * i))
  := by
  rw [entry, start_high mem hlow hhigh h8 hi]
  rfl

theorem entry_pml4 (hi : i < 512) :
  entry (start mem) 0x1000 i = if i = 0 then 0x2003 else if i = 511 then 0x5003 else 0
  := by
  rw [entry_start mem (by omega) (by omega) (by omega) hi,
    start_low mem (by omega) (by omega) (by omega) (by omega) hi]
  by_cases h0 : i = 0
  · subst h0
    rfl
  by_cases h511 : i = 511
  · subst h511
    rfl
  rw [if_neg h0, if_neg h511, if_neg (by omega), if_neg (by omega), if_neg (by omega),
    if_neg (by omega), if_neg (by omega), if_neg (by omega)]
  rfl

theorem entry_pdpt_low (hi : i < 512) :
  entry (start mem) 0x2000 i = if i = 0 then 0x3003 else 0
  := by
  rw [entry_start mem (by omega) (by omega) (by omega) hi,
    start_low mem (by omega) (by omega) (by omega) (by omega) hi]
  by_cases h0 : i = 0
  · subst h0
    rfl
  rw [if_neg h0, if_neg (by omega), if_neg (by omega), if_neg (by omega), if_neg (by omega),
    if_neg (by omega), if_neg (by omega)]
  rfl

theorem entry_pd_low (hi : i < 512) :
  entry (start mem) 0x3000 i = if i = 0 then 0x4003 else 0
  := by
  rw [entry_start mem (by omega) (by omega) (by omega) hi,
    start_low mem (by omega) (by omega) (by omega) (by omega) hi]
  by_cases h0 : i = 0
  · subst h0
    rfl
  rw [if_neg h0, if_neg (by omega), if_neg (by omega), if_neg (by omega), if_neg (by omega),
    if_neg (by omega), if_neg (by omega)]
  rfl

theorem entry_pdpt_high (hi : i < 512) :
  entry (start mem) 0x5000 i = if i = 510 then 0x16003 else if i = 511 then 0x17003 else 0
  := by
  rw [entry_start mem (by omega) (by omega) (by omega) hi,
    start_low mem (by omega) (by omega) (by omega) (by omega) hi]
  by_cases h510 : i = 510
  · subst h510
    rfl
  by_cases h511 : i = 511
  · subst h511
    rfl
  rw [if_neg h510, if_neg h511, if_neg (by omega), if_neg (by omega), if_neg (by omega),
    if_neg (by omega), if_neg (by omega), if_neg (by omega)]
  rfl

/-- The entries that map the first two megabytes. -/
theorem entry_pt (hi : i < 512) :
  (entry (start mem) 0x4000 i).toNat = 3 + i * 0x1000
  := by
  rw [toNat_entry_of_low (start_high mem (by omega) (by omega) (by omega) hi),
    start_apply mem (by omega), if_pos (by omega), Nat.add_sub_cancel_left,
    Nat.mul_div_cancel_left _ (by omega), BitVec.toNat_add, BitVec.toNat_ofNat]
  change (3 + _) % _ = _
  omega

/-- The entries that map the first four gigabytes, of which two are linked. -/
theorem entry_pd_high (table : ℕ) (h8 : table % 8 = 0) (hlow : 0x16000 ≤ table)
    (hhigh : table + 8 * i < 0x1A000) :
  (entry (start mem) table i).toNat = 0x108B + ((table - 0x16000) / 8 + i) * 0x200000
  := by
  have hzero : start mem (table + 8 * i + 4) = 0 := by
    rw [start_apply mem (by omega), if_neg (by omega), if_pos (by omega), if_neg (by omega)]
  have hidx : (table + 8 * i - 0x16000) / 8 = (table - 0x16000) / 8 + i := by omega
  rw [toNat_entry_of_low hzero, start_apply mem (by omega), if_neg (by omega), if_pos (by omega),
    if_pos (by omega), hidx, BitVec.toNat_add, BitVec.toNat_ofNat]
  change (0x108B + _) % _ = _
  omega

end Entries

/-! ### The translation -/

section Walk

variable (mem : Phys) {va : BitVec 64}

theorem index_lt (va : BitVec 64) (level : ℕ) :
  index va level < 512
  := Nat.mod_lt _ (by norm_num)

/-- An address below two megabytes goes through all four tables. -/
theorem walk_low (h : va.toNat < 0x200000) :
  walk (start mem) cr3.toNat va = some ⟨va.toNat, true, false⟩
  := by
  have hcanonical : Canonical va := .inl (by omega)
  have h3 : index va 3 = 0 := by unfold index; omega
  have h2 : index va 2 = 0 := by unfold index; omega
  have h1 : index va 1 = 0 := by unfold index; omega
  have h0 : index va 0 = va.toNat / 0x1000 := by unfold index; omega
  have hpt := entry_pt mem (i := index va 0) (index_lt va 0)
  rw [h0] at hpt
  have hbits : isPresent (entry (start mem) 0x4000 (va.toNat / 0x1000)) = true
      ∧ isWritable (entry (start mem) 0x4000 (va.toNat / 0x1000)) = true := by
    simp only [isPresent, isWritable, getLsbD_eq, hpt, decide_eq_true_eq]
    omega
  have hbase : base (entry (start mem) 0x4000 (va.toNat / 0x1000)) (2 ^ 12) + va.toNat % 2 ^ 12
      = va.toNat := by
    rw [base, hpt]
    omega
  have e3 : entry (start mem) cr3.toNat 0 = 0x2003 := entry_pml4 mem (by omega)
  have e2 : entry (start mem) 0x2000 0 = 0x3003 := entry_pdpt_low mem (by omega)
  have e1 : entry (start mem) 0x3000 0 = 0x4003 := entry_pd_low mem (by omega)
  have hlinks : isPresent 0x2003 ∧ base 0x2003 (2 ^ 12) = 0x2000 ∧ isPresent 0x3003
      ∧ ¬ isLarge 0x3003 ∧ base 0x3003 (2 ^ 12) = 0x3000 ∧ isPresent 0x4003 ∧ ¬ isLarge 0x4003
      ∧ base 0x4003 (2 ^ 12) = 0x4000 := by
    decide
  obtain ⟨hp3, hb3, hp2, hl2, hb2, hp1, hl1, hb1⟩ := hlinks
  rw [walk, if_pos hcanonical, h3, e3]
  dsimp only
  rw [if_pos hp3, hb3, h2, e2, if_pos hp2, if_neg hl2, hb2, h1, e1, if_pos hp1, if_neg hl1, hb1, h0,
    if_pos hbits.1, hbase]
  have hwritable : ∀ e ∈ [0x2003, 0x3003, 0x4003,
      entry (start mem) 0x4000 (va.toNat / 0x1000)], isWritable e = true := by
    simp only [List.forall_mem_cons]
    exact ⟨rfl, rfl, rfl, hbits.2, List.forall_mem_nil _⟩
  rw [Access.of_kernel hwritable (List.mem_cons_self ..) rfl]

/-- The bits below the address of a large page do not count. -/
theorem base_large {n : ℕ} (hn : n < 2 ^ 20) :
  (0x108B + n * 0x200000) % 2 ^ 52 / 2 ^ 21 * 2 ^ 21 = n * 0x200000
  := by
  omega

/-- An address in the last two gigabytes ends at a large page. -/
theorem walk_high (h : 0xffffffff80000000 ≤ va.toNat) :
  walk (start mem) cr3.toNat va = some ⟨va.toNat - 0xffffffff80000000, true, false⟩
  := by
  have hva := va.isLt
  have hcanonical : Canonical va := .inr (by omega)
  have h3 : index va 3 = 511 := by unfold index; omega
  have h1 : index va 1 = va.toNat / 0x200000 % 512 := rfl
  have e3 : entry (start mem) cr3.toNat 511 = 0x5003 := entry_pml4 mem (by omega)
  have hp3 : isPresent 0x5003 ∧ base 0x5003 (2 ^ 12) = 0x5000 := by decide
  -- the table of the gigabyte, and the entry in it
  have hlast : ∀ (e₂ : BitVec 64) (table : ℕ), entry (start mem) 0x5000 (index va 2) = e₂ →
      isPresent e₂ → ¬ isLarge e₂ → base e₂ (2 ^ 12) = table → isWritable e₂ →
      table % 8 = 0 → 0x16000 ≤ table → table + 8 * 512 ≤ 0x1A000 →
      ((table - 0x16000) / 8 + index va 1) * 0x200000 + va.toNat % 2 ^ 21
        = va.toNat - 0xffffffff80000000 →
      walk (start mem) cr3.toNat va = some ⟨va.toNat - 0xffffffff80000000, true, false⟩ := by
    intro e₂ table he hpresent hlarge htable hwritable h8 hlow hhigh hphys
    have hidx := index_lt va 1
    have hpd := entry_pd_high mem (i := index va 1) table h8 hlow (by omega)
    have hbits : isPresent (entry (start mem) table (index va 1)) = true
        ∧ isLarge (entry (start mem) table (index va 1)) = true
        ∧ isWritable (entry (start mem) table (index va 1)) = true := by
      simp only [isPresent, isLarge, isWritable, getLsbD_eq, hpd, decide_eq_true_eq]
      omega
    have hbase : base (entry (start mem) table (index va 1)) (2 ^ 21) + va.toNat % 2 ^ 21
        = va.toNat - 0xffffffff80000000 := by
      rw [base, hpd, base_large (by omega)]
      exact hphys
    rw [walk, if_pos hcanonical, h3, e3]
    dsimp only
    rw [if_pos hp3.1, hp3.2, he, if_pos hpresent, if_neg hlarge, htable, if_pos hbits.1,
      if_pos hbits.2.1, hbase]
    have hall : ∀ e ∈ [0x5003, e₂, entry (start mem) table (index va 1)],
        isWritable e = true := by
      simp only [List.forall_mem_cons]
      exact ⟨rfl, hwritable, hbits.2.2, List.forall_mem_nil _⟩
    rw [Access.of_kernel hall (List.mem_cons_self ..) rfl]
  by_cases hgib : va.toNat < 0xffffffffc0000000
  · have h2 : index va 2 = 510 := by unfold index; omega
    refine hlast 0x16003 0x16000 ?_ (by decide) (by decide) (by decide)
      (by decide) (by omega) (by omega) (by omega) (by rw [h1]; omega)
    rw [h2, entry_pdpt_high mem (by omega), if_pos rfl]
  · have h2 : index va 2 = 511 := by unfold index; omega
    refine hlast 0x17003 0x17000 ?_ (by decide) (by decide) (by decide)
      (by decide) (by omega) (by omega) (by omega) (by rw [h1]; omega)
    rw [h2, entry_pdpt_high mem (by omega), if_neg (by omega), if_pos rfl]

/-- No other address is mapped. -/
theorem walk_none (hlow : ¬ va.toNat < 0x200000) (hhigh : ¬ 0xffffffff80000000 ≤ va.toNat) :
  walk (start mem) cr3.toNat va = none
  := by
  have hva := va.isLt
  rw [walk]
  split
  next hcanonical =>
    unfold Canonical at hcanonical
    have e3 : entry (start mem) cr3.toNat (index va 3) = _ := entry_pml4 mem (index_lt va 3)
    rw [e3]
    dsimp only
    by_cases h3 : index va 3 = 0
    · have hp3 : isPresent 0x2003 ∧ base 0x2003 (2 ^ 12) = 0x2000 := by decide
      rw [if_pos h3, if_pos hp3.1, hp3.2, entry_pdpt_low mem (index_lt va 2)]
      by_cases h2 : index va 2 = 0
      · have hp2 : isPresent 0x3003 ∧ ¬ isLarge 0x3003 ∧ base 0x3003 (2 ^ 12) = 0x3000 := by decide
        have h1 : index va 1 ≠ 0 := by
          unfold index at h3 h2 ⊢
          omega
        rw [if_pos h2, if_pos hp2.1, if_neg hp2.2.1, hp2.2.2, entry_pd_low mem (index_lt va 1),
          if_neg h1, not_isPresent_zero]
        rfl
      · rw [if_neg h2, not_isPresent_zero]
        rfl
    · by_cases h511 : index va 3 = 511
      · have hp3 : isPresent 0x5003 ∧ base 0x5003 (2 ^ 12) = 0x5000 := by decide
        have h2 : index va 2 ≠ 510 ∧ index va 2 ≠ 511 := by
          unfold index at h511 ⊢
          omega
        rw [if_neg h3, if_pos h511, if_pos hp3.1, hp3.2, entry_pdpt_high mem (index_lt va 2),
          if_neg h2.1, if_neg h2.2, not_isPresent_zero]
        rfl
      · rw [if_neg h3, if_neg h511, not_isPresent_zero]
        rfl
  next => rfl

end Walk

/-- Whatever was in memory before, with the page tables of the boot code the first two megabytes
are mapped to themselves and the last two gigabytes to the first two of physical memory, all of
it writable and for the kernel only, and every other address faults. -/
theorem walk_bootTables (mem : Phys) (va : BitVec 64) :
  walk (start mem) cr3.toNat va
    = if va.toNat < 0x200000 then some ⟨va.toNat, true, false⟩
      else if 0xffffffff80000000 ≤ va.toNat then some ⟨va.toNat - 0xffffffff80000000, true, false⟩
      else none
  := by
  split
  next hlow => exact walk_low mem hlow
  next hlow =>
    split
    next hhigh => exact walk_high mem hhigh
    next hhigh => exact walk_none mem hlow hhigh

end BootPaging
