import Gubernatrix.Lib.Strides
import Gubernatrix.MemoryMap
import Mathlib.Logic.Relation

/-!
# The tags of the boot loader

The walk of `set_bootinfo` over the tags of the information block, which takes their sizes from the
block, and the loop over the entries of a memory map tag, which takes the size of the entries from
it and writes what it cuts off an entry back to the block. Nothing of this is checked: the walk
ends, and the offset grows all the time, just when the tags that it comes to say so.
-/

namespace BootTags

open BootInfo (MultibootMemoryMap MemMap MmapLoop reserveLow reserveKernel)

/-- `uint8_t`. -/
abbrev Byte := BitVec 8

/-- `uint32_t`. -/
abbrev U32 := BitVec 32

/-! ### The block -/

/-- The information block, and what follows it: the bytes from `hdr_8` on. -/
abbrev Block := ℕ → Byte

namespace Block

variable (b : Block) (o : ℕ)

/-- The `uint32_t` at an offset. -/
def u32 : U32 := b (o + 3) ++ b (o + 2) ++ b (o + 1) ++ b o

/-- The `uint64_t` at an offset. -/
def u64 : U64 := b.u32 (o + 4) ++ b.u32 o

/-- The entry of a memory map at an offset. -/
def entry : MultibootMemoryMap where
  addr := b.u64 o
  len := b.u64 (o + 8)
  type := b.u32 (o + 16)

/-- Stores a `uint64_t` at an offset. -/
def store (x : U64) : Block := fun k =>
  if o ≤ k ∧ k < o + 8 then x.extractLsb' (8 * (k - o)) 8 else b k

/-- Stores the address and the length of an entry at an offset. -/
def storeEntry (e : MultibootMemoryMap) : Block := (b.store o e.addr).store (o + 8) e.len

end Block

/-! ### The fields of `bootInfo` -/

/-- The fields of `BootInfo`; the memory map by its place in the area of `bootstrap_malloc`. -/
structure Fields where
  memorySize : U64 := 0
  kernelEndPhys : U64 := 0
  kernelVirtOffset : U64 := 0
  elfShdrType : U32 := 0
  elfShdrSize : U32 := 0
  elfShdrNum : U32 := 0
  elfShdrEntsize : U32 := 0
  elfShdrShndx : U32 := 0
  memoryMapCount : U32 := 0
  elfShdrAddr : U64 := 0
  rsdpAddress : U64 := 0
  initrdStartAddress : U64 := 0
  initrdPhysStartAddress : U64 := 0
  initrdLength : U64 := 0
  memoryMap : Option U64 := none
  framebufferAddress : U64 := 0
  framebufferPitch : U32 := 0
  framebufferWidth : U32 := 0
  framebufferHeight : U32 := 0
  framebufferBPP : Byte := 0
  framebufferRedFieldPosition : Byte := 0
  framebufferRedMaskSize : Byte := 0
  framebufferGreenFieldPosition : Byte := 0
  framebufferGreenMaskSize : Byte := 0
  framebufferBlueFieldPosition : Byte := 0
  framebufferBlueMaskSize : Byte := 0

/-- What does not come from the block: its address, the addresses that the linker sets, and what the
memory holds that `bootstrap_malloc` returns. -/
structure Env where
  hdr : U64
  kernelEndPhys : U64
  kernelVirtAddr : U64
  previous : Option U64 → ℕ → MemMap

/-- The block, the fields, `bootstrap_alloc_pos`, and what the last memory map holds. -/
structure State where
  block : Block
  info : Fields
  pos : U64
  map : ℕ → MemMap

/-! ### The tags -/

/-- `MULTIBOOT_TAG_TYPE_MODULE`. -/
def tagTypeModule : U32 := 3

/-- `MULTIBOOT_TAG_TYPE_MMAP`. -/
def tagTypeMmap : U32 := 6

/-- `MULTIBOOT_TAG_TYPE_FRAMEBUFFER`. -/
def tagTypeFramebuffer : U32 := 8

/-- `MULTIBOOT_TAG_TYPE_ELF_SECTIONS`. -/
def tagTypeElfSections : U32 := 9

/-- `MULTIBOOT_TAG_TYPE_ACPI_OLD`. -/
def tagTypeAcpiOld : U32 := 14

/-- `MULTIBOOT_TAG_TYPE_ACPI_NEW`. -/
def tagTypeAcpiNew : U32 := 15

/-- The variables of the loop over the entries, and the block. -/
structure Entries where
  block : Block
  vars : MmapLoop

/-- What the loop leaves of an entry in the block. -/
def writeBack (kernelEndPhys : U64) (e : MultibootMemoryMap) : MultibootMemoryMap :=
  match reserveLow e with
  | none => e
  | some e => (reserveKernel kernelEndPhys e).getD e

/-- The body of the loop over the entries, for the entry at an offset. -/
def Entries.record (kernelEndPhys : U64) (s : Entries) (o : ℕ) : Entries where
  block := s.block.storeEntry o (writeBack kernelEndPhys (s.block.entry o))
  vars := s.vars.record kernelEndPhys (s.block.entry o)

/-- The loop over the entries of the tag at the offset `i`, from `j` on, for at most `n` tests of
its condition. -/
def entriesLoop (kernelEndPhys : U64) (i : ℕ) : (n : ℕ) → (j : U32) → Entries → Option Entries
  | 0, _, _ => none
  | n + 1, j, s =>
      if j < s.block.u32 (i + 4) - 16 then
        let s := s.record kernelEndPhys (i + 16 + j.toNat)
        entriesLoop kernelEndPhys i n (j + s.block.u32 (i + 8)) s
      else some s

variable (env : Env) (n : ℕ) (i : ℕ) (s : State)

/-- What the loop over the entries begins with, when the map is allocated. -/
def entriesStart (map : Option U64) : Entries where
  block := s.block
  vars := { MmapLoop.start (env.previous map) with memorySize := s.info.memorySize }

/-- A memory map tag at an offset, or `none` if it divides by zero, or if the loop has not ended
after `n` tests of its condition. -/
def mmapTag : Option State :=
  let size := s.block.u32 (i + 4)
  let entrySize := s.block.u32 (i + 8)
  if entrySize = 0 then none
  else do
    let entryCount := (size - 16) / entrySize
    let alloc := bootstrapMalloc s.pos (24 * entryCount.signExtend 64)
    let map := alloc.map fun _ => s.pos
    let r ← entriesLoop env.kernelEndPhys i n 0 (entriesStart env s map)
    some {
      block := r.block
      info := { s.info with
        memorySize := r.vars.memorySize
        memoryMap := map
        memoryMapCount := entryCount }
      pos := alloc.getD s.pos
      map := r.vars.map }

/-- The fields that a tag of another type sets. -/
def otherTag (b : Block) (info : Fields) : Fields :=
  let val := b.u32 i
  if val = tagTypeFramebuffer then
    { info with
      framebufferAddress := b.u64 (i + 8)
      framebufferPitch := b.u32 (i + 16)
      framebufferWidth := b.u32 (i + 20)
      framebufferHeight := b.u32 (i + 24)
      framebufferBPP := b (i + 28)
      framebufferRedFieldPosition := b (i + 32)
      framebufferRedMaskSize := b (i + 33)
      framebufferGreenFieldPosition := b (i + 34)
      framebufferGreenMaskSize := b (i + 35)
      framebufferBlueFieldPosition := b (i + 36)
      framebufferBlueMaskSize := b (i + 37) }
  else if val = tagTypeElfSections then
    { info with
      elfShdrType := b.u32 i
      elfShdrSize := b.u32 (i + 4)
      elfShdrNum := b.u32 (i + 8)
      elfShdrEntsize := b.u32 (i + 12)
      elfShdrShndx := b.u32 (i + 16)
      elfShdrAddr := env.hdr + BitVec.ofNat 64 (i + 20) }
  else if val = tagTypeAcpiOld ∨ val = tagTypeAcpiNew then
    { info with rsdpAddress := env.hdr + BitVec.ofNat 64 (i + 8) }
  else if val = tagTypeModule then
    { info with
      initrdStartAddress := (b.u32 (i + 8)).setWidth 64
      initrdPhysStartAddress := (b.u32 (i + 8)).setWidth 64
      initrdLength := (b.u32 (i + 12) - b.u32 (i + 8)).setWidth 64 }
  else info

/-- The `switch` at the tag with an offset. -/
def visit : Option State :=
  if s.block.u32 i = tagTypeMmap then mmapTag env n i s
  else some { s with info := otherTag env i s.block s.info }

/-- What the walk adds to the offset after a tag: its size, rounded up to a multiple of 8. -/
def advance (b : Block) (i : U32) : U32 :=
  let s := b.u32 (i + 4).toNat
  if s % 8 ≠ 0 then s + (8 - s % 8) else s

/-- The walk over the tags, from the offset `i` on, for at most `n` tests of its condition: the
offsets that it tests, and what it leaves. -/
def tags (env : Env) (totalSize : U32) : (n : ℕ) → (i : U32) → State → Option (List U32 × State)
  | 0, _, _ => none
  | n + 1, i, s =>
      if i < totalSize then do
        let s ← visit env n i.toNat s
        let r ← tags env totalSize n (i + advance s.block i) s
        some (i :: r.1, r.2)
      else some ([i], s)

/-- The state when the walk begins. -/
def start (env : Env) (pos : U64) (block : Block) : State where
  block := block
  info := { kernelEndPhys := env.kernelEndPhys, kernelVirtOffset := env.kernelVirtAddr }
  pos := pos
  map := env.previous none

/-- `set_bootinfo`, for at most `n` tests of the condition of each loop. -/
def setBootinfo (env : Env) (pos : U64) (block : Block) (n : ℕ) : Option (List U32 × State) :=
  tags env (block.u32 0) n 8 (start env pos block)

/-! ### What should hold -/

/-- The walk ends without a division by zero, and the offset grows with each tag. -/
def Parses (env : Env) (pos : U64) (block : Block) : Prop :=
  ∃ n offsets s, setBootinfo env pos block n = some (offsets, s) ∧ offsets.Pairwise (· < ·)

/-- From one tag to the next. -/
inductive Step (env : Env) (totalSize : U32) : U32 × State → U32 × State → Prop where
  | next {n : ℕ} {i : U32} {s s' : State} :
      i < totalSize → visit env n i.toNat s = some s' →
        Step env totalSize (i, s) (i + advance s'.block i, s')

/-- A tag that the walk gets past: its size, rounded up, is not 0 and does not take the offset past
2 ^ 32; and if it is a memory map, the size of its entries is not 0, and the loop over them does not
step over the end of the tag all the time. -/
structure Passable (b : Block) (i : U32) : Prop where
  advance : 0 < (advance b i).toNat
  noWrap : i.toNat + (BootTags.advance b i).toNat < 2 ^ 32
  entrySize : b.u32 i.toNat = tagTypeMmap → b.u32 (i.toNat + 8) ≠ 0
  entries : b.u32 i.toNat = tagTypeMmap →
    (b.u32 (i.toNat + 4) - 16).toNat + Nat.gcd (b.u32 (i.toNat + 8)).toNat (2 ^ 32) ≤ 2 ^ 32

/-! ### A tag -/

section Tag

variable {env : Env} {ke : U64} {b b' : Block} {i o k m n : ℕ} {s s' : State} {r r' : Entries}

theorem storeEntry_of_lt (e : MultibootMemoryMap) (hk : k < o) :
  b.storeEntry o e k = b k
  := by
  rw [Block.storeEntry, Block.store, if_neg (by omega), Block.store, if_neg (by omega)]

/-- Words that end where two blocks agree are the same. -/
theorem u32_of_below (h : ∀ k < m, b' k = b k) (ho : o + 4 ≤ m) :
  b'.u32 o = b.u32 o
  := by
  rw [Block.u32, Block.u32, h _ (by omega), h _ (by omega), h _ (by omega), h _ (by omega)]

/-- What the body of the loop over the entries does not change. -/
theorem record_below (hk : k < o) :
  (r.record ke o).block k = r.block k
  := storeEntry_of_lt _ hk

/-- The loop over the entries does not write to the tag itself. -/
theorem entriesLoop_below {j : U32} (h : entriesLoop ke i n j r = some r') (hk : k < i + 16) :
  r'.block k = r.block k
  := by
  induction n generalizing j r with
  | zero => cases h
  | succ n ih =>
      rw [entriesLoop] at h
      split at h
      · rw [ih h, record_below (by omega)]
      · rw [Option.some.inj h]

/-- The bound and the stride of the loop over the entries stay the same. -/
theorem entriesLoop_eq (n : ℕ) (j : U32) :
  entriesLoop ke i n j r
    = Strides.loop (fun r j => r.record ke (i + 16 + j.toNat)) (r.block.u32 (i + 4) - 16)
        (r.block.u32 (i + 8)) n j r
  := by
  induction n generalizing j r with
  | zero => rfl
  | succ n ih =>
      have hbelow (k : ℕ) (hk : k < i + 16) :
          (r.record ke (i + 16 + j.toNat)).block k = r.block k := record_below (by omega)
      rw [entriesLoop, Strides.loop]
      dsimp only
      rw [ih, u32_of_below hbelow (by omega), u32_of_below hbelow (by omega)]

/-- A tag is not written to when it is visited. -/
theorem visit_below (h : visit env n i s = some s') (hk : k < i + 16) :
  s'.block k = s.block k
  := by
  rw [visit] at h
  split at h
  · rw [mmapTag] at h
    dsimp only at h
    split at h
    · cases h
    · rw [Option.bind_eq_bind, Option.bind_eq_some_iff] at h
      obtain ⟨r, hr, h⟩ := h
      rw [← Option.some.inj h]
      apply entriesLoop_below hr hk
  · rw [← Option.some.inj h]

/-- The size of a tag is the same after the visit. -/
theorem advance_visit {i : U32} (h : visit env n i.toNat s = some s') :
  advance s'.block i = advance s.block i
  := by
  have hle : (i + 4).toNat ≤ i.toNat + 4 := by
    rw [BitVec.toNat_add]
    apply Nat.mod_le
  have hu32 : s'.block.u32 (i + 4).toNat = s.block.u32 (i + 4).toNat := by
    apply u32_of_below (m := i.toNat + 16)
    · intro k hk
      apply visit_below h hk
    · omega
  rw [advance, advance, hu32]

/-- A visit that has ended is not longer. -/
theorem visit_mono (h : visit env n i s = some s') (m : ℕ) :
  visit env (n + m) i s = some s'
  := by
  rw [visit] at h ⊢
  split
  · next htype =>
    rw [if_pos htype, mmapTag] at h
    rw [mmapTag]
    dsimp only at h ⊢
    split
    · next hzero =>
      rw [if_pos hzero] at h
      exact h
    · next hne =>
      rw [if_neg hne, Option.bind_eq_bind, Option.bind_eq_some_iff] at h
      obtain ⟨r, hr, h⟩ := h
      rw [entriesLoop_eq] at hr ⊢
      rw [Strides.loop_mono hr, Option.bind_eq_bind, Option.bind_some, h]
  · next htype =>
    rw [if_neg htype] at h
    exact h

theorem visit_unique (h : visit env n i s = some s') {s'' : State}
    (h' : visit env m i s = some s'') :
  s' = s''
  := by
  have hsum := visit_mono h m
  rw [Nat.add_comm, visit_mono h'] at hsum
  apply (Option.some.inj hsum).symm

/-- A memory map tag is done just when its entries have a size and the loop over them ends. -/
theorem exists_mmapTag_iff :
  (∃ n s', mmapTag env n i s = some s')
    ↔ s.block.u32 (i + 8) ≠ 0
      ∧ (s.block.u32 (i + 4) - 16).toNat + Nat.gcd (s.block.u32 (i + 8)).toNat (2 ^ 32) ≤ 2 ^ 32
  := by
  by_cases hzero : s.block.u32 (i + 8) = 0
  · simp [mmapTag, hzero]
  · rw [and_iff_right hzero]
    constructor
    · rintro ⟨n, s', h⟩
      rw [mmapTag] at h
      dsimp only at h
      rw [if_neg hzero, Option.bind_eq_bind, Option.bind_eq_some_iff] at h
      obtain ⟨r, hr, -⟩ := h
      rw [entriesLoop_eq] at hr
      apply Strides.exists_loop_iff_gcd.mp ⟨n, r, hr⟩
    · intro hends
      obtain ⟨map, hmap⟩ : ∃ map, (bootstrapMalloc s.pos (24 * ((s.block.u32 (i + 4) - 16)
          / s.block.u32 (i + 8)).signExtend 64)).map (fun _ => s.pos) = map := ⟨_, rfl⟩
      obtain ⟨n, r, hr⟩ : ∃ n r, entriesLoop env.kernelEndPhys i n 0 (entriesStart env s map)
          = some r := by
        simp only [entriesLoop_eq]
        apply Strides.exists_loop_iff_gcd.mpr hends
      use n
      rw [mmapTag]
      dsimp only
      rw [if_neg hzero, hmap, hr, Option.bind_eq_bind, Option.bind_some]
      exact ⟨_, rfl⟩

/-- A visit ends just when the tag does not divide by zero and the loop over its entries ends. -/
theorem exists_visit_iff :
  (∃ n s', visit env n i s = some s')
    ↔ (s.block.u32 i = tagTypeMmap → s.block.u32 (i + 8) ≠ 0
        ∧ (s.block.u32 (i + 4) - 16).toNat + Nat.gcd (s.block.u32 (i + 8)).toNat (2 ^ 32) ≤ 2 ^ 32)
  := by
  by_cases htype : s.block.u32 i = tagTypeMmap
  · simp only [visit, htype, if_true, forall_const]
    apply exists_mmapTag_iff
  · simp [visit, htype]

end Tag

/-! ### The walk -/

section Walk

variable {env : Env} {totalSize i : U32} {n : ℕ} {s s' : State} {r : List U32 × State}

/-- The walk tests the offset that it begins with. -/
theorem tags_head (h : tags env totalSize n i s = some r) :
  ∃ rest, r.1 = i :: rest
  := by
  cases n with
  | zero => cases h
  | succ n =>
      rw [tags] at h
      split at h
      · simp only [Option.bind_eq_bind, Option.bind_eq_some_iff] at h
        obtain ⟨s', -, r', -, h⟩ := h
        rw [← Option.some.inj h]
        use r'.1
      · rw [← Option.some.inj h]
        use []

/-- A walk that has ended does not go on. -/
theorem tags_mono (h : tags env totalSize n i s = some r) (m : ℕ) :
  tags env totalSize (n + m) i s = some r
  := by
  induction n generalizing i s r with
  | zero => cases h
  | succ n ih =>
      rw [Nat.succ_add, tags]
      rw [tags] at h
      split
      · next hlt =>
        rw [if_pos hlt] at h
        simp only [Option.bind_eq_bind, Option.bind_eq_some_iff] at h ⊢
        obtain ⟨s', hs', r', hr', h⟩ := h
        exact ⟨s', visit_mono hs' m, r', ih hr', h⟩
      · next hge =>
        rw [if_neg hge] at h
        exact h

/-- The offset after a tag is larger just when the size is not 0 and does not wrap it around. -/
theorem lt_add_iff {i a : U32} :
  i < i + a ↔ 0 < a.toNat ∧ i.toNat + a.toNat < 2 ^ 32
  := by
  have hi := i.isLt
  have ha := a.isLt
  rw [BitVec.lt_def, BitVec.toNat_add]
  constructor
  · intro h
    by_cases hwrap : i.toNat + a.toNat < 2 ^ 32
    · rw [Nat.mod_eq_of_lt hwrap] at h
      omega
    · rw [Nat.mod_eq_sub_mod (by omega), Nat.mod_eq_of_lt (by omega)] at h
      omega
  · rintro ⟨hpos, hwrap⟩
    rw [Nat.mod_eq_of_lt hwrap]
    omega

/-- From a tag that is passable the walk goes on, at a larger offset. -/
theorem step_of_passable (h : Passable s.block i) (hlt : i < totalSize) :
  ∃ n s', visit env n i.toNat s = some s' ∧ i < i + advance s'.block i
    ∧ Step env totalSize (i, s) (i + advance s'.block i, s')
  := by
  obtain ⟨n, s', hs'⟩ := exists_visit_iff.mpr fun htype => ⟨h.entrySize htype, h.entries htype⟩
  refine ⟨n, s', hs', ?_, .next hlt hs'⟩
  rw [lt_add_iff, advance_visit hs']
  exact ⟨h.advance, h.noWrap⟩

/-- A walk that ends with growing offsets only comes to tags that are passable. -/
theorem passable_of_tags (h : tags env totalSize n i s = some r) (hgrows : r.1.Pairwise (· < ·))
    {q : U32 × State} (hq : Relation.ReflTransGen (Step env totalSize) (i, s) q)
    (hlt : q.1 < totalSize) :
  Passable q.2.block q.1
  := by
  induction n generalizing i s r with
  | zero => cases h
  | succ n ih =>
      rw [tags] at h
      split at h
      case isTrue hi =>
        simp only [Option.bind_eq_bind, Option.bind_eq_some_iff] at h
        obtain ⟨s', hs', r', hr', h⟩ := h
        obtain rfl := Option.some.inj h
        obtain ⟨rest, hrest⟩ := tags_head hr'
        obtain ⟨hfirst, hgrows⟩ := List.pairwise_cons.mp hgrows
        rcases hq.cases_head with rfl | ⟨p, hstep, hq⟩
        · have hadvance := hfirst (i + advance s'.block i) (hrest ▸ List.mem_cons_self ..)
          rw [lt_add_iff, advance_visit hs'] at hadvance
          have htype := exists_visit_iff.mp ⟨_, _, hs'⟩
          constructor
          · exact hadvance.1
          · exact hadvance.2
          · exact fun h => (htype h).1
          · exact fun h => (htype h).2
        · cases hstep with
          | next _ hs'' =>
              obtain rfl := visit_unique hs' hs''
              apply ih hr' hgrows hq
      case isFalse hi =>
        rcases hq.cases_head with rfl | ⟨p, hstep, -⟩
        · apply absurd hlt hi
        · cases hstep with
          | next hlt' _ => apply absurd hlt' hi

/-- The walk ends with growing offsets if the tags that it comes to are passable. -/
theorem tags_of_passable (h : ∀ q, Relation.ReflTransGen (Step env totalSize) (i, s) q →
    q.1 < totalSize → Passable q.2.block q.1) :
  ∃ n r, tags env totalSize n i s = some r ∧ r.1.Pairwise (· < ·)
  := by
  induction hleft : 2 ^ 32 - i.toNat using Nat.strong_induction_on generalizing i s with
  | h left ih =>
      by_cases hlt : i < totalSize
      · have hpassable : Passable s.block i := h (i, s) .refl hlt
        obtain ⟨m, s', hs', hgrows, hstep⟩ := step_of_passable hpassable hlt
        have hnext := (i + advance s'.block i).isLt
        rw [BitVec.lt_def] at hgrows
        obtain ⟨n, r, hr, hpairwise⟩ := ih (2 ^ 32 - (i + advance s'.block i).toNat) (by omega)
          (fun q hq => h q (.head hstep hq)) rfl
        obtain ⟨rest, hrest⟩ := tags_head hr
        use m + n + 1, (i :: r.1, r.2)
        constructor
        · rw [tags, if_pos hlt, visit_mono hs', Option.bind_eq_bind, Option.bind_some, Nat.add_comm,
            tags_mono hr]
          rfl
        · apply List.pairwise_cons.mpr
          constructor
          · rw [hrest] at hpairwise ⊢
            intro x hx
            rcases List.mem_cons.mp hx with rfl | hx
            · exact hgrows
            · apply lt_trans hgrows
              apply (List.pairwise_cons.mp hpairwise).1 x hx
          · exact hpairwise
      · use 1, ([i], s)
        constructor
        · rw [tags, if_neg hlt]
        · apply List.pairwise_singleton

end Walk

/-- The walk ends without a division by zero and its offset grows, just when each tag that it comes
to is passable, as the block is then. -/
theorem parses_iff (env : Env) (pos : U64) (block : Block) :
  Parses env pos block ↔ ∀ q,
    Relation.ReflTransGen (Step env (block.u32 0)) (8, start env pos block) q →
      q.1 < block.u32 0 → Passable q.2.block q.1
  := by
  constructor
  · rintro ⟨n, offsets, s, h, hgrows⟩ q hq hlt
    apply passable_of_tags h hgrows hq hlt
  · intro h
    obtain ⟨n, r, hr, hgrows⟩ := tags_of_passable h
    exact ⟨n, r.1, r.2, hr, hgrows⟩

/-! ### A tag whose size is 0 -/

/-- A block of 16 bytes with a command line tag whose size is 0. -/
def zeroSize : Block := fun k => [16, 0, 0, 0, 0, 0, 0, 0, 1].getD k 0

/-- A block of 32 bytes with a memory map whose entries have the size 0. -/
def zeroEntrySize : Block := fun k => [32, 0, 0, 0, 0, 0, 0, 0, 6, 0, 0, 0, 24].getD k 0

/-- A kernel that ends at 3 MiB. -/
def smallEnv : Env where
  hdr := 0
  kernelEndPhys := mib 3
  kernelVirtAddr := 0
  previous _ _ := { addr := 0, len := 0, type := 0 }

/-- The walk stays at a tag whose size is 0, and divides by an entry size of 0. -/
theorem not_parses_zero :
  ¬ Parses smallEnv 0 zeroSize ∧ ¬ Parses smallEnv 0 zeroEntrySize
  := by
  constructor
  · rintro ⟨n, offsets, s, h, hgrows⟩
    have hpassable : Passable zeroSize 8 := passable_of_tags h hgrows .refl (by decide)
    apply absurd hpassable.advance (by decide)
  · rintro ⟨n, offsets, s, h, hgrows⟩
    have hpassable : Passable zeroEntrySize 8 := passable_of_tags h hgrows .refl (by decide)
    apply absurd (hpassable.entrySize (by decide)) (by decide)

end BootTags
