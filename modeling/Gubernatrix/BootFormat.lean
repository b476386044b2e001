import Gubernatrix.BootTags

/-!
# Blocks that follow the format

In a block whose tags end inside of it, and whose memory maps are filled by their entries, the walk
of `set_bootinfo` ends: what the loop over the entries writes back stays inside of the tag, so that
every tag is found as the boot loader has left it, and so is every entry.
-/

namespace BootTags

open BootInfo (MultibootMemoryMap MultibootTagMmap MmapLoop mmapLoop)

/-! ### The loop over the entries -/

section Format

variable {env : Env} {ke : U64} {b b' : Block} {i o k m n : ℕ} {s s' : State} {r : Entries}
  {j : U32}

/-- The memory map tag at an offset. -/
def tagAt (b : Block) (i : ℕ) : MultibootTagMmap where
  size := b.u32 (i + 4)
  entrySize := b.u32 (i + 8)
  entries j := b.entry (i + 16 + j)

theorem storeEntry_of_ge (e : MultibootMemoryMap) (hk : o + 16 ≤ k) :
  b.storeEntry o e k = b k
  := by
  rw [Block.storeEntry, Block.store, if_neg (by omega), Block.store, if_neg (by omega)]

/-- Entries from where on two blocks agree are the same. -/
theorem entry_of_above (h : ∀ k, m ≤ k → b' k = b k) (ho : m ≤ o) :
  b'.entry o = b.entry o
  := by
  have hu32 (d : ℕ) : b'.u32 (o + d) = b.u32 (o + d) := by
    rw [Block.u32, Block.u32, h _ (by omega), h _ (by omega), h _ (by omega), h _ (by omega)]
  have hu32' : b'.u32 o = b.u32 o := hu32 0
  rw [Block.entry, Block.entry, Block.u64, Block.u64, Block.u64, Block.u64, hu32', hu32, hu32, hu32,
    Nat.add_assoc, hu32]

/-- Where the entries of a tag fill it, the loop over them goes over the entries that the boot
loader has left, and writes inside of the tag. -/
theorem entriesLoop_refines (hmmap : (tagAt b i).WellFormed)
    (hj : (tagAt b i).entrySize.toNat ∣ j.toNat) (hle : j.toNat ≤ ((tagAt b i).size - 16).toNat)
    (hbelow : ∀ k < i + 16, r.block k = b k)
    (habove : ∀ k, i + 16 + j.toNat ≤ k → r.block k = b k) :
  (entriesLoop ke i n j r).map Entries.vars = mmapLoop ke (tagAt b i) n j r.vars
    ∧ ∀ r', entriesLoop ke i n j r = some r' →
      ∀ k, i + 16 + ((tagAt b i).size - 16).toNat ≤ k → r'.block k = b k
  := by
  have hsize : r.block.u32 (i + 4) = (tagAt b i).size := u32_of_below hbelow (by omega)
  induction n generalizing j r with
  | zero =>
      constructor
      · rfl
      · intro r' h
        cases h
  | succ n ih =>
      rw [entriesLoop, mmapLoop, hsize]
      split
      case isTrue hlt =>
        have hentry : r.block.entry (i + 16 + j.toNat) = (tagAt b i).entries j.toNat :=
          entry_of_above habove le_rfl
        have hbelow' : ∀ k < i + 16, (r.record ke (i + 16 + j.toNat)).block k = b k := by
          intro k hk
          rw [record_below (by omega), hbelow k hk]
        have hstride : (r.record ke (i + 16 + j.toNat)).block.u32 (i + 8) = (tagAt b i).entrySize :=
          u32_of_below hbelow' (by omega)
        -- the next entry does not begin behind the end of the tag
        have hnext : j.toNat + (tagAt b i).entrySize.toNat ≤ ((tagAt b i).size - 16).toNat := by
          have hdvd := Nat.dvd_sub hmmap.fill hj
          have hpos := Nat.le_of_dvd (Nat.sub_pos_of_lt hlt) hdvd
          omega
        have htoNat : (j + (tagAt b i).entrySize).toNat
            = j.toNat + (tagAt b i).entrySize.toNat := by
          have hbound := ((tagAt b i).size - 16).isLt
          rw [BitVec.toNat_add, Nat.mod_eq_of_lt (by omega)]
        have hvars : r.vars.record ke ((tagAt b i).entries j.toNat)
            = (r.record ke (i + 16 + j.toNat)).vars := by
          rw [← hentry]
          rfl
        dsimp only
        rw [hstride, hvars]
        apply ih
        · rw [htoNat]
          apply Nat.dvd_add hj (dvd_refl _)
        · rw [htoNat]
          exact hnext
        · exact hbelow'
        · intro k hk
          have hroom := hmmap.room
          rw [htoNat] at hk
          apply (storeEntry_of_ge _ (by omega)).trans
          apply habove k (by omega)
        · apply u32_of_below hbelow' (by omega)
      case isFalse hge =>
        constructor
        · rfl
        · intro r' h k hk
          rw [← Option.some.inj h]
          apply habove k
          rw [BitVec.lt_def, not_lt] at hge
          omega

/-- Visiting a tag that its entries fill does not change what follows the tag. -/
theorem visit_above (hmmap : s.block.u32 i = tagTypeMmap → (tagAt s.block i).WellFormed)
    (h : visit env n i s = some s')
    (hk : s.block.u32 i = tagTypeMmap → i + 16 + ((tagAt s.block i).size - 16).toNat ≤ k) :
  s'.block k = s.block k
  := by
  rw [visit] at h
  split at h
  · next htype =>
    rw [mmapTag] at h
    dsimp only at h
    split at h
    · cases h
    · rw [Option.bind_eq_bind, Option.bind_eq_some_iff] at h
      obtain ⟨r, hr, h⟩ := h
      rw [← Option.some.inj h]
      apply (entriesLoop_refines (hmmap htype) (dvd_zero _) (Nat.zero_le _) _ _).2 r hr k (hk htype)
      · intro k _
        rfl
      · intro k _
        rfl
  · rw [← Option.some.inj h]

/-- The map and the memory size that such a memory map tag leaves are those of the loop over the
entries that the boot loader has left. -/
theorem mmapTag_refines (hmmap : (tagAt s.block i).WellFormed) :
  ∃ previous, (mmapTag env n i s).map (fun s' => (s'.info.memorySize, s'.map))
    = (mmapLoop env.kernelEndPhys (tagAt s.block i) n 0
        { MmapLoop.start previous with memorySize := s.info.memorySize }).map
          fun v => (v.memorySize, v.map)
  := by
  obtain ⟨map, hmap⟩ : ∃ map, (bootstrapMalloc s.pos (24 * ((s.block.u32 (i + 4) - 16)
      / s.block.u32 (i + 8)).signExtend 64)).map (fun _ => s.pos) = map := ⟨_, rfl⟩
  have hne : s.block.u32 (i + 8) ≠ 0 := by
    intro hzero
    have hroom : 24 ≤ (s.block.u32 (i + 8)).toNat := hmmap.room
    rw [hzero] at hroom
    cases hroom
  have hloop : (entriesLoop env.kernelEndPhys i n 0 (entriesStart env s map)).map Entries.vars
      = mmapLoop env.kernelEndPhys (tagAt s.block i) n 0 (entriesStart env s map).vars :=
    (entriesLoop_refines hmmap (dvd_zero _) (Nat.zero_le _) (fun _ _ => rfl) (fun _ _ => rfl)).1
  use env.previous map
  rw [entriesStart] at hloop
  dsimp only at hloop
  rw [← hloop, mmapTag]
  dsimp only
  rw [if_neg hne, hmap, entriesStart]
  induction entriesLoop env.kernelEndPhys i n 0 _ with
  | none => rfl
  | some r => rfl

/-! ### The tags -/

/-- A tag that has room for its type and its size, ends inside of the block, and is filled by its
entries if it is a memory map. -/
structure WellFormedTag (b : Block) (i : U32) : Prop where
  size : 8 ≤ (b.u32 (i.toNat + 4)).toNat
  inside : i.toNat + (b.u32 (i.toNat + 4)).toNat ≤ (b.u32 0).toNat
  mmap : b.u32 i.toNat = tagTypeMmap →
    16 ≤ (b.u32 (i.toNat + 4)).toNat ∧ (tagAt b i.toNat).WellFormed

/-- The tags of a block, one after the other, as the boot loader has left them. -/
inductive Follows (b : Block) : U32 → U32 → Prop where
  | next {i : U32} : i < b.u32 0 → Follows b i (i + advance b i)

/-- Words from where on two blocks agree are the same. -/
theorem u32_of_above (h : ∀ k, m ≤ k → b' k = b k) (ho : m ≤ o) :
  b'.u32 o = b.u32 o
  := by
  rw [Block.u32, Block.u32, h _ (by omega), h _ (by omega), h _ (by omega), h _ (by omega)]

/-- A tag from where on two blocks agree is the same. -/
theorem tagAt_of_above (h : ∀ k, i ≤ k → b' k = b k) :
  tagAt b' i = tagAt b i
  := by
  have hentries : (fun j => b'.entry (i + 16 + j)) = fun j => b.entry (i + 16 + j) := by
    funext j
    apply entry_of_above h
    omega
  rw [tagAt, tagAt, u32_of_above h (by omega), u32_of_above h (by omega), hentries]

theorem toNat_add_four {i : U32} (hi : i.toNat + 4 < 2 ^ 32) :
  (i + 4).toNat = i.toNat + 4
  := by
  have h4 : (4 : U32).toNat = 4 := rfl
  rw [BitVec.toNat_add, h4, Nat.mod_eq_of_lt hi]

/-- The size of a tag, rounded up. -/
theorem toNat_advance {i : U32} (hi : i.toNat + 4 < 2 ^ 32)
    (hsize : (b.u32 (i.toNat + 4)).toNat ≤ 2 ^ 32 - 8) :
  (advance b i).toNat = ((b.u32 (i.toNat + 4)).toNat + 7) / 8 * 8
  := by
  have h8 : (8 : U32).toNat = 8 := rfl
  obtain ⟨x, hx⟩ : ∃ x, b.u32 (i.toNat + 4) = x := ⟨_, rfl⟩
  rw [advance, toNat_add_four hi, hx]
  rw [hx] at hsize
  have hmod : (x % 8).toNat = x.toNat % 8 := by rw [BitVec.toNat_umod, h8]
  have hlt := Nat.mod_lt x.toNat (by omega : 0 < 8)
  split
  case isTrue hne =>
    have hpos : x.toNat % 8 ≠ 0 := by
      intro hzero
      apply hne
      apply BitVec.eq_of_toNat_eq
      rw [hmod, hzero]
      rfl
    have hsub : (8 - x % 8).toNat = 8 - x.toNat % 8 := by
      rw [BitVec.toNat_sub_of_le (by rw [BitVec.le_def, hmod, h8]; omega), hmod, h8]
    rw [BitVec.toNat_add, hsub, Nat.mod_eq_of_lt (by omega)]
    omega
  case isFalse hzero =>
    rw [not_not] at hzero
    rw [hzero] at hmod
    have hz : (0 : U32).toNat = 0 := rfl
    omega

/-- A well-formed tag is passable. -/
theorem WellFormedTag.passable {i : U32} (h : WellFormedTag b i)
    (htotal : (b.u32 0).toNat ≤ 2 ^ 32 - 8) (halign : i.toNat % 8 = 0) :
  Passable b i
  := by
  have hsize := h.size
  have hinside := h.inside
  have hadvance := toNat_advance (b := b) (i := i) (by omega) (by omega)
  constructor
  · omega
  · omega
  · intro htype hzero
    have hroom : 24 ≤ (b.u32 (i.toNat + 8)).toNat := (h.mmap htype).2.room
    rw [hzero] at hroom
    cases hroom
  · intro htype
    obtain ⟨q, hq⟩ : (b.u32 (i.toNat + 8)).toNat ∣ (b.u32 (i.toNat + 4) - 16).toNat :=
      (h.mmap htype).2.fill
    have hle := Strides.mul_mod_add_gcd_le (e := (b.u32 (i.toNat + 8)).toNat) (Nat.two_pow_pos 32) q
    rw [Nat.mul_comm, ← hq, Nat.mod_eq_of_lt (BitVec.isLt _)] at hle
    exact hle

/-- What the walk has come to in a block whose tags are well-formed: what is left of the block is
still as the boot loader has left it. -/
structure Reached (b : Block) (q : U32 × State) : Prop where
  follows : Relation.ReflTransGen (Follows b) 8 q.1
  align : q.1.toNat % 8 = 0
  block : ∀ k, q.1.toNat ≤ k → q.2.block k = b k

theorem Reached.step {q q' : U32 × State} (h : Reached b q) (htotal : (b.u32 0).toNat ≤ 2 ^ 32 - 8)
    (htag : WellFormedTag b q.1) (hstep : Step env (b.u32 0) q q') :
  Reached b q'
  := by
  cases hstep with
  | @next n i s s' hlt hs' =>
      have hsize : 8 ≤ (b.u32 (i.toNat + 4)).toNat := htag.size
      have hinside : i.toNat + (b.u32 (i.toNat + 4)).toNat ≤ (b.u32 0).toNat := htag.inside
      have hblock : ∀ k, i.toNat ≤ k → s.block k = b k := h.block
      have halign : i.toNat % 8 = 0 := h.align
      have hadvance := toNat_advance (b := b) (i := i) (by omega) (by omega)
      have hsame : advance s'.block i = advance b i := by
        rw [advance_visit hs', advance, advance, toNat_add_four (by omega),
          u32_of_above hblock (by omega)]
      have hnext : (i + advance b i).toNat = i.toNat + (advance b i).toNat := by
        rw [BitVec.toNat_add, Nat.mod_eq_of_lt (by omega)]
      have htype : s.block.u32 i.toNat = b.u32 i.toNat := u32_of_above hblock le_rfl
      rw [hsame]
      constructor
      · apply h.follows.tail (.next hlt)
      · dsimp only
        omega
      · intro k hk
        dsimp only at hk
        rw [hnext] at hk
        rw [← hblock k (by omega)]
        apply visit_above _ hs'
        · intro hmmap
          rw [htype] at hmmap
          have hsub : (b.u32 (i.toNat + 4) - 16).toNat = (b.u32 (i.toNat + 4)).toNat - 16 := by
            apply BitVec.toNat_sub_of_le
            apply (htag.mmap hmmap).1
          have hfit := (htag.mmap hmmap).1
          dsimp only at hfit
          rw [tagAt_of_above hblock, tagAt, hsub]
          omega
        · intro hmmap
          rw [htype] at hmmap
          rw [tagAt_of_above hblock]
          apply (htag.mmap hmmap).2

/-- In a block whose tags are well-formed the walk comes to passable tags. -/
theorem passable_of_step (env : Env) (pos : U64) (htotal : (b.u32 0).toNat ≤ 2 ^ 32 - 8)
    (h : ∀ i, Relation.ReflTransGen (Follows b) 8 i → i < b.u32 0 → WellFormedTag b i)
    (q : U32 × State)
    (hq : Relation.ReflTransGen (Step env (b.u32 0)) (8, start env pos b) q)
    (hlt : q.1 < b.u32 0) :
  Passable q.2.block q.1
  := by
  have h8 : (8 : U32).toNat % 8 = 0 := by decide
  have hreached : Reached b q := by
    clear hlt
    induction hq with
    | refl => exact ⟨.refl, h8, fun _ _ => rfl⟩
    | tail _ hstep ih =>
        apply ih.step htotal _ hstep
        cases hstep with
        | next hlt _ => apply h _ ih.follows hlt
  have htag := h q.1 hreached.follows hlt
  have hsize := htag.size
  have hinside := htag.inside
  have hpassable := htag.passable htotal hreached.align
  have hu32 (d : ℕ) : q.2.block.u32 (q.1.toNat + d) = b.u32 (q.1.toNat + d) :=
    u32_of_above hreached.block (by omega)
  have htype : q.2.block.u32 q.1.toNat = b.u32 q.1.toNat := hu32 0
  have hadvance : advance q.2.block q.1 = advance b q.1 := by
    rw [advance, advance, toNat_add_four (by omega), hu32]
  constructor
  · rw [hadvance]
    exact hpassable.advance
  · rw [hadvance]
    exact hpassable.noWrap
  · rw [htype, hu32]
    exact hpassable.entrySize
  · rw [htype, hu32, hu32]
    exact hpassable.entries

/-- The walk ends, without a division by zero and with growing offsets, in a block whose tags are
well-formed. -/
theorem parses_of_wellFormed (env : Env) (pos : U64) (htotal : (b.u32 0).toNat ≤ 2 ^ 32 - 8)
    (h : ∀ i, Relation.ReflTransGen (Follows b) 8 i → i < b.u32 0 → WellFormedTag b i) :
  Parses env pos b
  := by
  obtain ⟨n, r, hr, hgrows⟩ := tags_of_passable (passable_of_step env pos htotal h)
  exact ⟨n, r.1, r.2, hr, hgrows⟩

end Format

end BootTags
