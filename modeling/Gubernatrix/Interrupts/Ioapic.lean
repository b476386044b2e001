import Gubernatrix.Types
import Mathlib.Data.List.Basic
import Mathlib.Tactic.IntervalCases

/-!
# Lines of the IOAPICs

`interrupt_mapinterrupt` and `interrupt_setmask` over the registers of the IOAPICs. Every line
has an owner, the IOAPIC with the greatest base that does not exceed it, and is the pin of it at
the distance from the base. The functions look for a base below the line, and go on with the
number of the line instead of that of the pin.
-/

namespace Ioapic

/-- `uint32_t`. -/
abbrev U32 := BitVec 32

/-- The registers of the IOAPICs: by the index of the IOAPIC, and by the offset. -/
abbrev Regs := ℕ → U32 → U32

/-- `ioapic_write`. -/
def ioapicWrite (regs : Regs) (idx : ℕ) (off val : U32) : Regs :=
  Function.update regs idx (Function.update (regs idx) off val)

/-- `ioapic_read`. -/
def ioapicRead (regs : Regs) (idx : ℕ) (off : U32) : U32 := regs idx off

/-- `low_index` of a pin. -/
def lowIndex (irqPin : U32) : U32 := 0x10 + irqPin * 2

/-- `high_index` of a pin. -/
def highIndex (irqPin : U32) : U32 := 0x10 + irqPin * 2 + 1

/-- A `bool`, as an integer. -/
def ofBool (b : Bool) : U32 := if b then 1 else 0

/-- The value that `ioapic_map` writes to the high half of an entry. -/
def mapHigh (cpuidx high : U32) : U32 := high &&& ~~~0xff000000#32 ||| cpuidx <<< 24

/-- The value that `ioapic_map` writes to the low half of an entry. -/
def mapLow (irq : U32) (activeLow levelTrigger : Bool) (low : U32) : U32 :=
  let low := low &&& ~~~(1#32 <<< 13)
  let low := low ||| (ofBool activeLow &&& 1) <<< 13
  let low := low &&& ~~~(1#32 <<< 15)
  let low := low ||| (ofBool levelTrigger &&& 1) <<< 15
  let low := low &&& ~~~0xff#32
  let low := low ||| irq &&& 0xff
  let low := low &&& ~~~(1#32 <<< 11)
  let low := low ||| 0 <<< 11
  let low := low &&& ~~~0x700#32
  let low := low ||| 0 <<< 8
  low &&& ~~~(1#32 <<< 16)

/-- `ioapic_map`, where `interrupt_get_cpuidx` returns `cpuidx`. -/
def ioapicMap (cpuidx : U32) (regs : Regs) (idx : ℕ) (irqPin irq : U32)
    (activeLow levelTrigger : Bool) : Regs :=
  let high := ioapicRead regs idx (highIndex irqPin)
  let regs := ioapicWrite regs idx (highIndex irqPin) (mapHigh cpuidx high)
  let low := ioapicRead regs idx (lowIndex irqPin)
  ioapicWrite regs idx (lowIndex irqPin) (mapLow irq activeLow levelTrigger low)

/-- The value that `ioapic_setmask` writes to the low half of an entry. -/
def maskLow (mask : Bool) (low : U32) : U32 :=
  let low := low &&& ~~~(1#32 <<< 16)
  if mask then low ||| 1 <<< 16 else low

/-- `ioapic_setmask`. -/
def ioapicSetmask (regs : Regs) (idx : ℕ) (irqPin : U32) (mask : Bool) : Regs :=
  let low := ioapicRead regs idx (lowIndex irqPin)
  ioapicWrite regs idx (lowIndex irqPin) (maskLow mask low)

/-- The loop over the IOAPICs, from index `i` on, with the values of `ioapic_idx` and
`ioapic_close_intr_base`; the bases are those of `ioapics`. -/
def closeLoop (line : U32) : (i : ℕ) → (bases : List U32) → (ioapicIdx : ℕ) →
    (ioapicCloseIntrBase : U32) → ℕ
  | _, [], ioapicIdx, _ => ioapicIdx
  | i, b :: bases, ioapicIdx, ioapicCloseIntrBase =>
      if b < line ∧ b > ioapicCloseIntrBase then closeLoop line (i + 1) bases i b
      else closeLoop line (i + 1) bases ioapicIdx ioapicCloseIntrBase

/-- The index with which `interrupt_mapinterrupt` and `interrupt_setmask` go on. -/
def closeIdx (bases : List U32) (line : U32) : ℕ := closeLoop line 0 bases 0 0

/-- `interrupt_mapinterrupt`. -/
def interruptMapinterrupt (cpuidx : U32) (bases : List U32) (regs : Regs) (line irq : U32)
    (activeLow levelTrig : Bool) : Regs :=
  ioapicMap cpuidx regs (closeIdx bases line) line irq activeLow levelTrig

/-- `interrupt_setmask`. -/
def interruptSetmask (bases : List U32) (regs : Regs) (line : U32) (mask : Bool) : Regs :=
  ioapicSetmask regs (closeIdx bases line) line mask

/-! ### Owners -/

/-- The IOAPIC with the index `k` has the greatest base not exceeding the line. -/
structure Owner (bases : List U32) (line : U32) (k : ℕ) (base : U32) : Prop where
  get : bases[k]? = some base
  le : base.toNat ≤ line.toNat
  greatest : ∀ b ∈ bases, b.toNat ≤ line.toNat → b.toNat ≤ base.toNat

/-- Only the entry of a pin has changed: it has the vector, the polarity and the trigger mode,
and is not masked. -/
structure Mapped (regs : Regs) (k : ℕ) (pin irq : U32) (activeLow levelTrig : Bool)
    (regs' : Regs) : Prop where
  other : ∀ i off, ¬ (i = k ∧ (off = lowIndex pin ∨ off = highIndex pin)) →
    regs' i off = regs i off
  vector : regs' k (lowIndex pin) &&& 0xff = irq &&& 0xff
  polarity : (regs' k (lowIndex pin)).getLsbD 13 = activeLow
  trigger : (regs' k (lowIndex pin)).getLsbD 15 = levelTrig
  mask : (regs' k (lowIndex pin)).getLsbD 16 = false

/-- Only the mask bit of the entry of a pin has changed. -/
structure Masked (regs : Regs) (k : ℕ) (pin : U32) (mask : Bool) (regs' : Regs) : Prop where
  other : ∀ i off, ¬ (i = k ∧ off = lowIndex pin) → regs' i off = regs i off
  mask : (regs' k (lowIndex pin)).getLsbD 16 = mask
  rest : ∀ j, j ≠ 16 → (regs' k (lowIndex pin)).getLsbD j = (regs k (lowIndex pin)).getLsbD j

/-- Whatever the registers hold, the line is programmed, and masked, at the pin of its owner. -/
structure AtOwnPin (bases : List U32) (line : U32) (k : ℕ) (base : U32) : Prop where
  map : ∀ cpuidx regs irq activeLow levelTrig, Mapped regs k (line - base) irq activeLow levelTrig
    (interruptMapinterrupt cpuidx bases regs line irq activeLow levelTrig)
  setmask : ∀ regs mask, Masked regs k (line - base) mask (interruptSetmask bases regs line mask)

/-- The owner has the base 0 and comes first; or its base is `2 ^ 31`, whose double is 0 again,
and it is the one with the greatest base below the line, or there is none and it comes first. -/
def NoOffset (bases : List U32) (line : U32) (k : ℕ) (base : U32) : Prop :=
  base.toNat = 0 ∧ k = 0
    ∨ base.toNat = 2 ^ 31
      ∧ (base.toNat < line.toNat ∨ k = 0 ∧ ∀ b ∈ bases, b.toNat < line.toNat → b.toNat = 0)

/-! ### Entries -/

section Entries

variable {irq : U32} {activeLow levelTrig : Bool} {low : U32}

theorem mapLow_vector :
  mapLow irq activeLow levelTrig low &&& 0xff = irq &&& 0xff
  := by
  apply BitVec.eq_of_getLsbD_eq
  intro i hi
  by_cases hlow : i < 8
  · interval_cases i <;> simp [mapLow]
  · have hmask : (0xff : U32).getLsbD i = false := by
      interval_cases i <;> rfl
    rw [BitVec.getLsbD_and, BitVec.getLsbD_and, hmask, Bool.and_false, Bool.and_false]

theorem mapLow_polarity :
  (mapLow irq activeLow levelTrig low).getLsbD 13 = activeLow
  := by
  cases activeLow <;> simp [mapLow, ofBool]

theorem mapLow_trigger :
  (mapLow irq activeLow levelTrig low).getLsbD 15 = levelTrig
  := by
  cases levelTrig <;> simp [mapLow, ofBool]

theorem mapLow_mask :
  (mapLow irq activeLow levelTrig low).getLsbD 16 = false
  := by
  simp [mapLow]

theorem maskLow_mask (mask : Bool) :
  (maskLow mask low).getLsbD 16 = mask
  := by
  cases mask <;> simp [maskLow]

theorem maskLow_rest (mask : Bool) {j : ℕ} (hj : j ≠ 16) :
  (maskLow mask low).getLsbD j = low.getLsbD j
  := by
  have hbit : (1#32 <<< 16).getLsbD j = false := by
    rw [BitVec.getLsbD_shiftLeft]
    rcases Nat.lt_or_ge j 16 with hlt | hge
    · simp [hlt]
    · have hsub : j - 16 ≠ 0 := by omega
      simp [hsub]
  by_cases hwidth : j < 32
  · cases mask <;> simp only [maskLow, Bool.false_eq_true, if_false, if_true, BitVec.getLsbD_or,
      BitVec.getLsbD_and, BitVec.getLsbD_not, hbit, hwidth] <;> simp
    exact fun h => absurd h (by simpa using hbit)
  · rw [BitVec.getLsbD_of_ge _ _ (by omega), BitVec.getLsbD_of_ge _ _ (by omega)]

/-- The entry of a pin lies where that of another does if the distance is a multiple of
`2 ^ 31`. -/
theorem lowIndex_sub (line base : U32) :
  lowIndex line = lowIndex (line - base) ↔ base.toNat = 0 ∨ base.toNat = 2 ^ 31
  := by
  simp only [lowIndex, ← BitVec.toNat_inj, BitVec.toNat_add, BitVec.toNat_mul,
    BitVec.toNat_sub]
  have h16 : (0x10 : U32).toNat = 16 := rfl
  have h2 : (2 : U32).toNat = 2 := rfl
  rw [h16, h2]
  have hline := line.isLt
  have hbase := base.isLt
  omega

end Entries

/-! ### The selected IOAPIC -/

section Selection

variable {bases : List U32} {line base : U32} {k : ℕ}

theorem closeLoop_spec {i ioapicIdx : ℕ} {ioapicCloseIntrBase : U32} :
  (closeLoop line i bases ioapicIdx ioapicCloseIntrBase = ioapicIdx
      ∧ ∀ b ∈ bases, b.toNat < line.toNat → b.toNat ≤ ioapicCloseIntrBase.toNat)
    ∨ ∃ j b, closeLoop line i bases ioapicIdx ioapicCloseIntrBase = i + j ∧ bases[j]? = some b
      ∧ ioapicCloseIntrBase.toNat < b.toNat ∧ b.toNat < line.toNat
      ∧ ∀ c ∈ bases, c.toNat < line.toNat → c.toNat ≤ b.toNat
  := by
  induction bases generalizing i ioapicIdx ioapicCloseIntrBase with
  | nil => exact .inl ⟨rfl, by simp⟩
  | cons c bases ih =>
    rw [closeLoop]
    split
    case isTrue h =>
      obtain ⟨hline, hclose⟩ := h
      replace hline : c.toNat < line.toNat := hline
      replace hclose : ioapicCloseIntrBase.toNat < c.toNat := hclose
      right
      rcases ih with ⟨hidx, hall⟩ | ⟨j, b, hidx, hget, hlt, hb, hall⟩
      · refine ⟨0, c, by rw [hidx, Nat.add_zero], rfl, hclose, hline, ?_⟩
        simpa using hall
      · refine ⟨j + 1, b, by rw [hidx]; omega, hget, by omega, hb, ?_⟩
        simp only [List.mem_cons, forall_eq_or_imp]
        exact ⟨fun _ => by omega, hall⟩
    case isFalse h =>
      have hc : c.toNat < line.toNat → c.toNat ≤ ioapicCloseIntrBase.toNat := by
        intro hline
        by_contra hclose
        exact h ⟨hline, Nat.lt_of_not_ge hclose⟩
      rcases ih with ⟨hidx, hall⟩ | ⟨j, b, hidx, hget, hlt, hb, hall⟩
      · left
        refine ⟨hidx, ?_⟩
        simp only [List.mem_cons, forall_eq_or_imp]
        exact ⟨hc, hall⟩
      · right
        refine ⟨j + 1, b, by rw [hidx]; omega, hget, hlt, hb, ?_⟩
        simp only [List.mem_cons, forall_eq_or_imp]
        exact ⟨fun hline => (hc hline).trans (by omega), hall⟩

/-- The owner is selected if its base is below the line and positive, or if it comes first and no
other base is. -/
theorem closeIdx_eq_iff (hbases : bases.Nodup) (hown : Owner bases line k base) :
  closeIdx bases line = k ↔ 0 < base.toNat ∧ base.toNat < line.toNat
    ∨ k = 0 ∧ ∀ b ∈ bases, b.toNat < line.toNat → b.toNat = 0
  := by
  have hmem : base ∈ bases := List.mem_of_getElem? hown.get
  have hle := hown.le
  rcases closeLoop_spec with ⟨hidx, hall⟩ | ⟨j, b, hidx, hget, hpos, hb, hall⟩
  · -- no base lies strictly between 0 and the line
    rw [closeIdx, hidx]
    have hzero : ∀ b ∈ bases, b.toNat < line.toNat → b.toNat = 0 :=
      fun b hb hlt => Nat.le_zero.mp (hall b hb hlt)
    constructor
    · exact fun hk => .inr ⟨hk.symm, hzero⟩
    · rintro (⟨hpos, hlt⟩ | ⟨rfl, -⟩)
      · have := hzero base hmem hlt
        omega
      · rfl
  · -- the greatest such base is that of the index `j`
    replace hidx : closeIdx bases line = j := by
      rw [closeIdx, hidx, Nat.zero_add]
    have hbmem : b ∈ bases := List.mem_of_getElem? hget
    have hble : b.toNat ≤ base.toNat := hown.greatest b hbmem hb.le
    rw [hidx]
    constructor
    · rintro rfl
      obtain rfl : b = base := Option.some.inj (hget.symm.trans hown.get)
      exact .inl ⟨hpos, hb⟩
    · rintro (⟨-, hlt⟩ | ⟨-, hzero⟩)
      · have heq : base = b := BitVec.toNat_inj.mp (le_antisymm (hall base hmem hlt) hble)
        obtain ⟨hj, -⟩ := List.getElem?_eq_some_iff.mp hget
        exact (List.getElem?_inj hj hbases).mp (by rw [hget, hown.get, heq])
      · have := hzero b hbmem hb
        rw [show (0 : U32).toNat = 0 from rfl] at hpos
        omega

/-- The line is at the pin of its owner exactly if the owner is selected, and the entry with the
number of the line is that of the pin. -/
theorem atOwnPin_iff :
  AtOwnPin bases line k base ↔ closeIdx bases line = k ∧ lowIndex line = lowIndex (line - base)
  := by
  constructor
  · intro h
    have hbit := (h.setmask (fun _ _ => 0) true).mask
    by_contra hne
    rw [interruptSetmask, ioapicSetmask, ioapicWrite] at hbit
    by_cases hk : k = closeIdx bases line
    · have hoff : lowIndex (line - base) ≠ lowIndex line := fun heq => hne ⟨hk.symm, heq.symm⟩
      rw [← hk, Function.update_self, Function.update_of_ne hoff] at hbit
      simp at hbit
    · rw [Function.update_of_ne hk] at hbit
      simp at hbit
  · rintro ⟨hidx, hlow⟩
    have hhigh : highIndex line = highIndex (line - base) := congrArg (· + 1) hlow
    have hne : lowIndex (line - base) ≠ highIndex (line - base) := by
      rw [highIndex, ← lowIndex]
      simp
    constructor
    · intro cpuidx regs irq activeLow levelTrig
      rw [interruptMapinterrupt, hidx, ioapicMap, hlow, hhigh, ioapicRead, ioapicRead]
      refine ⟨?_, ?_, ?_, ?_, ?_⟩
      · intro i off hother
        simp only [ioapicWrite, Function.update_apply]
        grind
      all_goals rw [ioapicWrite, Function.update_self, Function.update_self]
      · exact mapLow_vector
      · exact mapLow_polarity
      · exact mapLow_trigger
      · exact mapLow_mask
    · intro regs mask
      rw [interruptSetmask, hidx, ioapicSetmask, hlow, ioapicRead]
      refine ⟨?_, ?_, ?_⟩
      · intro i off hother
        simp only [ioapicWrite, Function.update_apply]
        grind
      all_goals rw [ioapicWrite, Function.update_self, Function.update_self]
      · exact maskLow_mask mask
      · exact fun j hj => maskLow_rest mask hj

/-- A line is programmed at the pin of its owner exactly if the owner is the first IOAPIC and has
the base 0; or if its base is `2 ^ 31` and the loop selects it. -/
theorem atOwnPin_iff_noOffset (hbases : bases.Nodup) (hown : Owner bases line k base) :
  AtOwnPin bases line k base ↔ NoOffset bases line k base
  := by
  have hle := hown.le
  rw [atOwnPin_iff, closeIdx_eq_iff hbases hown, lowIndex_sub, NoOffset]
  constructor
  · rintro ⟨⟨hpos, hlt⟩ | ⟨hk, hzero⟩, hbase | hbase⟩
    · omega
    · exact .inr ⟨hbase, .inl hlt⟩
    · exact .inl ⟨hbase, hk⟩
    · exact .inr ⟨hbase, .inr ⟨hk, hzero⟩⟩
  · rintro (⟨hbase, hk⟩ | ⟨hbase, hlt | ⟨hk, hzero⟩⟩)
    · refine ⟨.inr ⟨hk, fun b hb hlt => ?_⟩, .inl hbase⟩
      have := hown.greatest b hb hlt.le
      omega
    · exact ⟨.inl ⟨by omega, hlt⟩, .inr hbase⟩
    · exact ⟨.inr ⟨hk, hzero⟩, .inr hbase⟩

end Selection

/-- Line 5 of an IOAPIC with the base 0 that comes before one with the base 24. -/
theorem atOwnPin_first :
  AtOwnPin [0, 24] 5 0 0
  := (atOwnPin_iff_noOffset (by decide) ⟨rfl, by decide, by simp⟩).mpr (.inl ⟨rfl, rfl⟩)

/-- Line 30 is pin 6 of the IOAPIC with the base 24, and is programmed as pin 30. -/
theorem not_atOwnPin_second :
  Owner [0, 24] 30 1 24 ∧ ¬ AtOwnPin [0, 24] 30 1 24
  := by
  refine ⟨⟨rfl, by decide, by simp⟩, ?_⟩
  rw [atOwnPin_iff]
  decide

end Ioapic
