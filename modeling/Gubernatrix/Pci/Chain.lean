import Gubernatrix.Pci.Msi

/-!
# The chain of capabilities

The loops of `pci_getmsiinfo` and `pci_setmsiinfo` follow the `nextPtr` bytes of a configuration
space until one is 0, and nothing else ends them. The headers of the capabilities are read-only.
-/

namespace Msi

/-! ### The configuration space -/

/-- Two bytes of a configuration space. -/
def word (bytes : ℕ → Byte) (i : ℕ) : U16 := bytes (i + 1) ++ bytes i

/-- Four bytes of a configuration space. -/
def dword (bytes : ℕ → Byte) (i : ℕ) : U32 := word bytes (i + 2) ++ word bytes i

/-- The function with a configuration space. -/
def device (bytes : ℕ → Byte) (mem : U64 → U32) : Device where
  capabilitiesPtr := bytes 0x34
  bar i := dword bytes (0x10 + 4 * i)
  cap ptr :=
    { capID := bytes ptr.toNat
      nextPtr := bytes (ptr.toNat + 1)
      ctrl := word bytes (ptr.toNat + 2)
      reg1 := dword bytes (ptr.toNat + 4)
      reg2 := dword bytes (ptr.toNat + 8)
      reg3 := dword bytes (ptr.toNat + 12) }
  mem := mem

/-- `ptr` after `n` turns of the loops, or 0 when they have ended. -/
def chain (bytes : ℕ → Byte) : ℕ → Byte
  | 0 => bytes 0x34
  | n + 1 => if chain bytes n = 0 then 0 else bytes ((chain bytes n).toNat + 1)

/-- No offset comes up in the chain again. -/
def Acyclic (bytes : ℕ → Byte) : Prop :=
  ∀ i j, i < j → chain bytes i ≠ 0 → chain bytes i ≠ chain bytes j

/-! ### The loops -/

/-- The loop of `pci_getmsiinfo`, for at most `n` turns. -/
def getTurns (d : Device) (n : ℕ) (x : Info) : Option (Except Empty Info) :=
  Links.walk (fun _ => next d) (fun x ptr => .ok (getStep (d.cap ptr) x)) n d.capabilitiesPtr x

/-- The loop of `pci_setmsiinfo`, for at most `n` turns. -/
def setTurns (physMapSz : U64) (msix : ℤ) (msiAddr : ℕ → U64) (msiMsg : ℕ → U32) (cnt : U32)
    (n : ℕ) (d : Device) : Option (Except End Device) :=
  Links.walk next (setStep physMapSz msix msiAddr msiMsg cnt) n d.capabilitiesPtr d

/-- The loops end, whatever they are called with. -/
structure Terminates (d : Device) : Prop where
  get : d.capabilitiesPtr ≠ 0 → ∀ cnt, ∃ n, getTurns d n ⟨false, false, cnt⟩ ≠ none
  set : d.capabilitiesPtr ≠ 0 → ∀ physMapSz msix msiAddr msiMsg cnt,
    ∃ n, setTurns physMapSz msix msiAddr msiMsg cnt n d ≠ none

variable {bytes : ℕ → Byte} {mem : U64 → U32}

/-- An offset, or `none` when it is 0. -/
def nonzero (p : Byte) : Option Byte := if p = 0 then none else some p

theorem nonzero_of_ne {p : Byte} (h : p ≠ 0) :
  nonzero p = some p
  := if_neg h

theorem nonzero_eq_none {p : Byte} :
  nonzero p = none ↔ p = 0
  := by
  constructor
  · intro hnone
    by_contra hp
    rw [nonzero_of_ne hp] at hnone
    cases hnone
  · intro hp
    apply if_pos hp

theorem nonzero_injective :
  Function.Injective nonzero
  := by
  intro p q h
  by_cases hp : p = 0
  · rw [nonzero_eq_none.mpr hp] at h
    rw [hp, nonzero_eq_none.mp h.symm]
  · by_cases hq : q = 0
    · rw [nonzero_eq_none.mpr hq] at h
      apply absurd (nonzero_eq_none.mp h) hp
    · rw [nonzero_of_ne hp, nonzero_of_ne hq] at h
      apply Option.some_injective _ h

theorem chain_eq_zero {k : ℕ} (h : chain bytes k = 0) (n : ℕ) :
  chain bytes (k + n) = 0
  := by
  induction n with
  | zero => exact h
  | succ n ih => rw [← Nat.add_assoc, chain, if_pos ih]

/-- The links of the capabilities lead along the chain. -/
theorem after_eq {k : ℕ} (hk : chain bytes k ≠ 0) (n : ℕ) :
  Links.after (next (device bytes mem)) (chain bytes k) n = nonzero (chain bytes (k + n))
  := by
  induction n generalizing k with
  | zero => rw [Nat.add_zero, nonzero_of_ne hk, Links.after]
  | succ n ih =>
      have hnext : next (device bytes mem) (chain bytes k) = nonzero (chain bytes (k + 1)) := by
        rw [chain, if_neg hk]
        rfl
      rw [Links.after, hnext, Nat.add_comm n, ← Nat.add_assoc]
      by_cases hend : chain bytes (k + 1) = 0
      · rw [nonzero_eq_none.mpr hend, nonzero_eq_none.mpr (chain_eq_zero hend n), Option.bind_none]
      · rw [nonzero_of_ne hend, Option.bind_some, ih hend]

/-- The list of capabilities has an end just when no offset comes up again. -/
theorem exists_path_iff_acyclic (mem : U64 → U32) (h : bytes 0x34 ≠ 0) :
  (∃ ps, Links.Path (next (device bytes mem)) (bytes 0x34) ps) ↔ Acyclic bytes
  := by
  have hfinite : Finite Byte := Finite.of_injective _ BitVec.equivFin.injective
  have hafter (n : ℕ) : Links.after (next (device bytes mem)) (bytes 0x34) n
      = nonzero (chain bytes n) := by
    rw [← Nat.zero_add n, ← after_eq (k := 0) h, Nat.zero_add]
    rfl
  rw [Links.exists_path_iff, Acyclic]
  simp only [hafter, ne_eq, nonzero_eq_none, nonzero_injective.eq_iff]

theorem acyclic_of_empty (h : bytes 0x34 = 0) :
  Acyclic bytes
  := by
  intro i j _ hi
  apply absurd (chain_eq_zero (k := 0) h i)
  rwa [Nat.zero_add]

theorem Terminates.acyclic (h : Terminates (device bytes mem)) :
  Acyclic bytes
  := by
  by_cases hptr : bytes 0x34 = 0
  · apply acyclic_of_empty hptr
  · obtain ⟨n, hn⟩ := h.get hptr 0
    apply (exists_path_iff_acyclic mem hptr).mp
    apply Links.exists_path_of_walk _ hn
    intro x ptr
    use getStep ((device bytes mem).cap ptr) x

/-- The loops of `pci_getmsiinfo` and `pci_setmsiinfo` end just when no offset comes up twice in the
chain of capabilities. -/
theorem terminates_iff_acyclic (bytes : ℕ → Byte) (mem : U64 → U32) :
  Terminates (device bytes mem) ↔ Acyclic bytes
  := by
  constructor
  · apply Terminates.acyclic
  · intro hacyclic
    constructor
    · intro hptr cnt
      obtain ⟨ps, hps⟩ := (exists_path_iff_acyclic mem hptr).mpr hacyclic
      use ps.length
      exact Links.walk_ne_none (fun _ _ _ _ => rfl) hps
    · intro hptr physMapSz msix msiAddr msiMsg cnt
      obtain ⟨ps, hps⟩ := (exists_path_iff_acyclic mem hptr).mpr hacyclic
      use ps.length
      exact Links.walk_ne_none (fun _ _ _ => next_setStep) hps

/-- A configuration space with one capability at 0x40, and a byte after its ID. -/
def oneCapability (nextPtr : Byte) (i : ℕ) : Byte :=
  if i = 0x34 then 0x40 else if i = 0x40 then pciCapMsi else if i = 0x41 then nextPtr else 0

/-- A capability that links to itself. -/
theorem not_terminates_self :
  ¬ ∀ (bytes : ℕ → Byte) (mem : U64 → U32), Terminates (device bytes mem)
  := by
  intro h
  have hacyclic := (h (oneCapability 0x40) fun _ => 0).acyclic
  apply hacyclic 0 1 (by decide) (by decide)
  rfl

end Msi
