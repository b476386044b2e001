import Mathlib.Data.BitVec
import Mathlib.Logic.Function.Basic

/-!
# The page walk of the processor

How a processor in long mode translates a virtual address: through four levels of tables in
physical memory, of which the second and the third may end the walk with a large page. Physical
memory is read in aligned words of 32 bits.
-/

namespace PageWalk

/-- Physical memory: the word at each address that is a multiple of four. -/
abbrev Phys := ℕ → BitVec 32

/-- The entry of a table at a physical address. -/
def entry (mem : Phys) (table i : ℕ) : BitVec 64 := mem (table + 8 * i + 4) ++ mem (table + 8 * i)

/-- The bits of an entry that a walk reads. -/
def isPresent (e : BitVec 64) : Bool := e.getLsbD 0

def isWritable (e : BitVec 64) : Bool := e.getLsbD 1

def isUser (e : BitVec 64) : Bool := e.getLsbD 2

def isLarge (e : BitVec 64) : Bool := e.getLsbD 7

/-- The address in an entry, a multiple of the given size. -/
def base (e : BitVec 64) (size : ℕ) : ℕ := e.toNat % 2 ^ 52 / size * size

/-- A physical address, and what the entries of the walk allow. -/
structure Access where
  phys : ℕ
  writable : Bool
  user : Bool
  deriving DecidableEq

/-- The access at the end of a walk over the given entries. -/
def Access.of (phys : ℕ) (es : List (BitVec 64)) : Access where
  phys := phys
  writable := es.all isWritable
  user := es.all isUser

/-- An access that all entries let the kernel write, and one of them no user. -/
theorem Access.of_kernel {phys : ℕ} {es : List (BitVec 64)} (hw : ∀ e ∈ es, isWritable e = true)
    {e : BitVec 64} (he : e ∈ es) (hu : isUser e = false) :
  Access.of phys es = ⟨phys, true, false⟩
  := by
  have hall : es.all isUser = false := by
    rw [List.all_eq_false]
    exact ⟨e, he, by rw [hu]; exact Bool.false_ne_true⟩
  rw [Access.of, hall, List.all_eq_true.mpr hw]

/-- Bits 63 to 47 of a virtual address are the same. -/
def Canonical (va : BitVec 64) : Prop := va.toNat < 2 ^ 47 ∨ 2 ^ 64 - 2 ^ 47 ≤ va.toNat

instance (va : BitVec 64) : Decidable (Canonical va) :=
  inferInstanceAs (Decidable (_ ∨ _))

/-- The index of a virtual address at a level; level 0 is the last one. -/
def index (va : BitVec 64) (level : ℕ) : ℕ := va.toNat / 2 ^ (12 + 9 * level) % 512

/-- The translation of a virtual address with the top-level table at `cr3`; `none` is a fault. -/
def walk (mem : Phys) (cr3 : ℕ) (va : BitVec 64) : Option Access :=
  if Canonical va then
    let e₃ := entry mem cr3 (index va 3)
    if isPresent e₃ then
      let e₂ := entry mem (base e₃ (2 ^ 12)) (index va 2)
      if isPresent e₂ then
        if isLarge e₂ then some (.of (base e₂ (2 ^ 30) + va.toNat % 2 ^ 30) [e₃, e₂])
        else
          let e₁ := entry mem (base e₂ (2 ^ 12)) (index va 1)
          if isPresent e₁ then
            if isLarge e₁ then some (.of (base e₁ (2 ^ 21) + va.toNat % 2 ^ 21) [e₃, e₂, e₁])
            else
              let e₀ := entry mem (base e₁ (2 ^ 12)) (index va 0)
              if isPresent e₀ then
                some (.of (base e₀ (2 ^ 12) + va.toNat % 2 ^ 12) [e₃, e₂, e₁, e₀])
              else none
          else none
      else none
    else none
  else none

/-! ### Entries of two words -/

section Entry

variable {mem : Phys} {table i : ℕ}

/-- An entry whose upper word is zero. -/
theorem toNat_entry_of_low (hhigh : mem (table + 8 * i + 4) = 0) :
  (entry mem table i).toNat = (mem (table + 8 * i)).toNat
  := by
  rw [entry, hhigh, BitVec.toNat_append]
  simp

end Entry

/-- The bits of an entry out of its value. -/
theorem getLsbD_eq (e : BitVec 64) (n : ℕ) :
  e.getLsbD n = decide (e.toNat / 2 ^ n % 2 = 1)
  := by
  rw [BitVec.getLsbD, Nat.testBit_eq_decide_div_mod_eq]

theorem not_isPresent_zero :
  isPresent 0 = false
  := rfl

end PageWalk
