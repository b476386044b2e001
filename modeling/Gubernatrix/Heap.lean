import Gubernatrix.BootstrapMalloc
import Gubernatrix.Lib.Trace

/-!
# The heap of the kernel

`bootstrap_malloc` and `bootstrap_free` over runs. The heap keeps, besides
`bootstrap_alloc_pos`, the blocks that are in use, which no function reads. A block is known by
its offset in `bootstrap_alloc_area` and by the size that was asked for.
-/

namespace Heap

open Trace

/-- A block that was handed out: its offset in the area, and the size asked for. -/
structure Block where
  mem : U64
  size : U64
deriving DecidableEq

/-- `bootstrap_alloc_pos`, and the blocks in use. -/
structure State where
  pos : U64
  live : List Block

/-- `bootstrap_free` of a block that is not `NULL`, with `bootstrap_alloc_pos` at `pos`: the
position after it. -/
def bootstrapFree (pos mem s : U64) : U64 :=
  if s = 0 then pos
  else
    let s := if s % 16 ≠ 0 then ((s >>> 4) + 1) <<< 4 else s
    if pos > s ∧ pos - s = mem then pos - s else pos

/-- A call of the allocator. -/
inductive Op where
  | malloc (s : U64)
  | free (b : Block)

/-- The heap after a call. -/
def step (h : State) : Op → State
  | .malloc s =>
      match bootstrapMalloc h.pos s with
      | some pos => { pos := pos, live := ⟨h.pos, s⟩ :: h.live }
      | none => h
  | .free b => { pos := bootstrapFree h.pos b.mem b.size, live := h.live.erase b }

/-- The heap before the first call. -/
def init : State where
  pos := 0
  live := []

/-- What is freed is in use. -/
def Valid (h : State) : Op → Prop
  | .malloc _ => True
  | .free b => b ∈ h.live

/-- The blocks have no byte in common. -/
def Block.Disjoint (b b' : Block) : Prop :=
  b.mem.toNat + b.size.toNat ≤ b'.mem.toNat ∨ b'.mem.toNat + b'.size.toNat ≤ b.mem.toNat

instance (b b' : Block) : Decidable (b.Disjoint b') :=
  inferInstanceAs (Decidable (_ ∨ _))

/-- The blocks in use lie in the area, apart from each other, and the position has not left
it. -/
structure Sound (h : State) : Prop where
  inside : ∀ b ∈ h.live, b.mem.toNat + b.size.toNat ≤ bootstrapAllocAreaSize.toNat
  disjoint : h.live.Pairwise Block.Disjoint
  pos_le : h.pos.toNat ≤ bootstrapAllocAreaSize.toNat

/-- The size, rounded up to a multiple of 16. -/
def rounded (s : U64) : ℕ := (s.toNat + 15) / 16 * 16

/-- The position moved by the size does not run over `2 ^ 64`. -/
def NoWrap (h : State) : Op → Prop
  | .malloc s => h.pos.toNat + rounded s < 2 ^ 64
  | .free _ => True

instance (h : State) (op : Op) : Decidable (NoWrap h op) := by
  cases op <;> unfold NoWrap <;> infer_instance

/-! ### Calls -/

section Calls

variable {pos s : U64}

theorem toNat_align_16 (h : s > 0) :
  (align s 16).toNat = rounded s % 2 ^ 64
  := by
  have hpos : 0 < s.toNat := h
  have hsub : (s - 1).toNat = s.toNat - 1 := by
    rw [BitVec.toNat_sub_of_le (by rw [BitVec.le_def]; exact hpos)]
    rfl
  rw [toNat_align 4 rfl, hsub, rounded]
  omega

/-- An allocation that does not run over `2 ^ 64`. -/
theorem bootstrapMalloc_of_noWrap {pos' : U64} (hwrap : pos.toNat + rounded s < 2 ^ 64)
    (h : bootstrapMalloc pos s = some pos') :
  0 < s.toNat ∧ pos'.toNat = pos.toNat + rounded s
    ∧ pos.toNat + rounded s < bootstrapAllocAreaSize.toNat
  := by
  rw [bootstrapMalloc] at h
  split at h
  next hpos =>
    dsimp only at h
    split at h
    next hlt =>
      obtain rfl := Option.some.inj h
      have hsum : (pos + align s 16).toNat = pos.toNat + rounded s := by
        rw [BitVec.toNat_add, toNat_align_16 hpos]
        omega
      rw [BitVec.lt_def, hsum] at hlt
      exact ⟨hpos, hsum, hlt⟩
    next => cases h
  next => cases h

/-- An allocation that there is room for. -/
theorem bootstrapMalloc_of_lt (hs : 0 < s.toNat)
    (hlt : pos.toNat + rounded s < bootstrapAllocAreaSize.toNat) :
  ∃ pos', bootstrapMalloc pos s = some pos' ∧ pos'.toNat = pos.toNat + rounded s
  := by
  have harea : bootstrapAllocAreaSize.toNat = 2 ^ 27 := rfl
  have hpos : s > 0 := hs
  have hsum : (pos + align s 16).toNat = pos.toNat + rounded s := by
    rw [BitVec.toNat_add, toNat_align_16 hpos]
    omega
  refine ⟨pos + align s 16, ?_, hsum⟩
  rw [bootstrapMalloc, if_pos hpos]
  apply if_pos
  rw [BitVec.lt_def, hsum]
  exact hlt

/-- An allocation that runs over `2 ^ 64` succeeds. -/
theorem bootstrapMalloc_of_wrap (hpos : pos.toNat < bootstrapAllocAreaSize.toNat)
    (hwrap : ¬ pos.toNat + rounded s < 2 ^ 64) :
  ∃ pos', bootstrapMalloc pos s = some pos'
  := by
  have harea : bootstrapAllocAreaSize.toNat = 2 ^ 27 := rfl
  have hs := s.isLt
  have hsize : s > 0 := by
    rw [gt_iff_lt, BitVec.lt_def]
    unfold rounded at hwrap
    change 0 < s.toNat
    omega
  have hlt : pos + align s 16 < bootstrapAllocAreaSize := by
    rw [BitVec.lt_def, BitVec.toNat_add, toNat_align_16 hsize]
    unfold rounded at hwrap ⊢
    omega
  refine ⟨pos + align s 16, ?_⟩
  rw [bootstrapMalloc, if_pos hsize]
  exact if_pos hlt

/-- `bootstrap_free` rounds the size up as `bootstrap_malloc` does. -/
theorem toNat_freed_size (h : rounded s < 2 ^ 64) :
  (if s % 16 ≠ 0 then ((s >>> 4) + 1) <<< 4 else s).toNat = rounded s
  := by
  have hmod : (s % 16).toNat = s.toNat % 16 := BitVec.toNat_umod
  unfold rounded at h ⊢
  split
  next hne =>
    have hne' : s.toNat % 16 ≠ 0 := fun h => hne (BitVec.eq_of_toNat_eq (hmod.trans h))
    rw [BitVec.toNat_shiftLeft, BitVec.toNat_add, BitVec.toNat_ushiftRight,
      Nat.shiftRight_eq_div_pow, Nat.shiftLeft_eq, show (1 : U64).toNat = 1 from rfl]
    omega
  next hzero =>
    rw [not_not] at hzero
    have hzero' : s.toNat % 16 = 0 := by
      rw [← hmod, hzero]
      rfl
    omega

/-- `bootstrap_free` compares the position with the end of the block, unless the block is the first
one of the area. -/
theorem bootstrapFree_eq_ite {mem : U64} (hs : 0 < s.toNat) (h : rounded s < 2 ^ 64) :
  bootstrapFree pos mem s
    = if rounded s < pos.toNat ∧ pos.toNat = mem.toNat + rounded s then mem else pos
  := by
  have hround := toNat_freed_size h
  have hpos := pos.isLt
  have hne : s ≠ 0 := by
    rintro rfl
    exact absurd hs (lt_irrefl _)
  rw [bootstrapFree, if_neg hne]
  dsimp only
  generalize (if s % 16 ≠ 0 then ((s >>> 4) + 1) <<< 4 else s) = r at hround
  have hcond : pos > r ∧ pos - r = mem
      ↔ rounded s < pos.toNat ∧ pos.toNat = mem.toNat + rounded s := by
    rw [gt_iff_lt, BitVec.lt_def, hround]
    apply and_congr_right
    intro hlt
    rw [← BitVec.toNat_inj, BitVec.toNat_sub_of_le (by rw [BitVec.le_def]; omega), hround]
    omega
  rw [if_congr hcond rfl rfl]
  split
  next htop =>
    apply BitVec.eq_of_toNat_eq
    rw [BitVec.toNat_sub_of_le (by rw [BitVec.le_def]; omega), hround]
    omega
  next => rfl

/-- `bootstrap_free` of a block below the position takes it back when it is the last one. -/
theorem bootstrapFree_eq {mem : U64} (hs : 0 < s.toNat)
    (hend : mem.toNat + rounded s ≤ pos.toNat) :
  bootstrapFree pos mem s = pos
    ∨ bootstrapFree pos mem s = mem ∧ pos.toNat = mem.toNat + rounded s
  := by
  have hpos := pos.isLt
  rw [bootstrapFree_eq_ite hs (by omega)]
  split
  next htop =>
    right
    use rfl, htop.2
  next =>
    left
    rfl

end Calls

/-! ### Runs -/

/-- The invariant: the blocks in use, rounded, lie apart below the position. -/
structure Inv (h : State) : Prop where
  pos_lt : h.pos.toNat < bootstrapAllocAreaSize.toNat
  below : ∀ b ∈ h.live, 0 < b.size.toNat ∧ b.mem.toNat + rounded b.size ≤ h.pos.toNat
  apart : h.live.Pairwise fun b b' =>
    b.mem.toNat + rounded b.size ≤ b'.mem.toNat ∨ b'.mem.toNat + rounded b'.size ≤ b.mem.toNat

theorem le_rounded (s : U64) :
  s.toNat ≤ rounded s
  := by
  unfold rounded
  omega

theorem inv_init :
  Inv init
  where
  pos_lt := by decide
  below := by simp [init]
  apart := List.Pairwise.nil

variable {h : State}

theorem Inv.sound (hinv : Inv h) :
  Sound h
  where
  inside := by
    intro b hb
    have := hinv.below b hb
    have := hinv.pos_lt
    have := le_rounded b.size
    omega
  disjoint := by
    refine hinv.apart.imp ?_
    intro b b' hapart
    have := le_rounded b.size
    have := le_rounded b'.size
    unfold Block.Disjoint
    omega
  pos_le := hinv.pos_lt.le

/-- An allocation that does not run over `2 ^ 64` keeps the invariant. -/
theorem Inv.malloc (hinv : Inv h) {s : U64} (hwrap : h.pos.toNat + rounded s < 2 ^ 64) :
  Inv (step h (.malloc s))
  := by
  rw [step]
  split
  next pos hmalloc =>
    obtain ⟨hs, hpos, hlt⟩ := bootstrapMalloc_of_noWrap hwrap hmalloc
    refine ⟨by rw [hpos]; exact hlt, ?_, ?_⟩
    · intro b hb
      rcases List.mem_cons.mp hb with rfl | hb
      · exact ⟨hs, hpos.ge⟩
      · have := hinv.below b hb
        dsimp only
        omega
    · refine List.pairwise_cons.mpr ⟨fun b hb => .inr ?_, hinv.apart⟩
      exact (hinv.below b hb).2
  next => exact hinv

/-- Freeing a block in use keeps the invariant. -/
theorem Inv.free (hinv : Inv h) {b : Block} (hb : b ∈ h.live) :
  Inv (step h (.free b))
  := by
  obtain ⟨hs, hend⟩ := hinv.below b hb
  have hpos := hinv.pos_lt
  have hperm := List.perm_cons_erase hb
  have hapart := hinv.apart
  rw [hperm.pairwise_iff fun h => h.symm, List.pairwise_cons] at hapart
  obtain ⟨hothers, hrest⟩ := hapart
  rw [step]
  rcases bootstrapFree_eq hs hend with hfree | ⟨hfree, htop⟩
  · rw [hfree]
    exact ⟨hpos, fun b' hb' => hinv.below b' (List.mem_of_mem_erase hb'), hrest⟩
  · rw [hfree]
    refine ⟨by dsimp only; omega, ?_, hrest⟩
    intro b' hb'
    obtain ⟨hs', hend'⟩ := hinv.below b' (List.mem_of_mem_erase hb')
    have := hothers b' hb'
    have := le_rounded b'.size
    dsimp only
    refine ⟨hs', ?_⟩
    omega

/-- A block that was handed out by running over `2 ^ 64` does not lie in the area. -/
theorem not_sound_of_wrap (hinv : Inv h) {s : U64} (hwrap : ¬ h.pos.toNat + rounded s < 2 ^ 64) :
  ¬ Sound (step h (.malloc s))
  := by
  obtain ⟨pos, hmalloc⟩ := bootstrapMalloc_of_wrap hinv.pos_lt hwrap
  have harea : bootstrapAllocAreaSize.toNat = 2 ^ 27 := rfl
  have hpos := hinv.pos_lt
  rw [step, hmalloc]
  intro hsound
  have := hsound.inside ⟨h.pos, s⟩ (List.mem_cons_self ..)
  unfold rounded at hwrap
  dsimp only at this
  omega

/-- In a run of the allocator the blocks in use lie in the area and apart from each other just
when no allocation runs over `2 ^ 64`. -/
theorem blocks_disjoint_iff {ops : List Op} (hvalid : Each step Valid init ops) :
  Always step Sound init ops ↔ Each step NoWrap init ops
  := by
  have hkept : ∀ {h op}, Inv h → Valid h op → NoWrap h op → Inv (step h op) := by
    rintro h (s | b) hinv hvalid hwrap
    · exact hinv.malloc hwrap
    · exact hinv.free hvalid
  have hlost : ∀ {h op}, Inv h → Valid h op → ¬ NoWrap h op → ¬ Sound (step h op) := by
    rintro h (s | b) hinv hvalid hwrap
    · exact not_sound_of_wrap hinv hwrap
    · exact absurd trivial hwrap
  exact always_iff_each (fun hinv => hinv.sound) hkept hlost inv_init hvalid

/-- Blocks of 24 and of 8 bytes, and the first one given back. -/
theorem blocks_disjoint_three :
  Each step Valid init [.malloc 24, .malloc 8, .free ⟨0, 24⟩]
    ∧ Always step Sound init [.malloc 24, .malloc 8, .free ⟨0, 24⟩]
  := by
  have hvalid : Each step Valid init [.malloc 24, .malloc 8, .free ⟨0, 24⟩] :=
    ⟨trivial, trivial, List.mem_cons_of_mem _ (List.mem_cons_self ..), trivial⟩
  exact ⟨hvalid, (blocks_disjoint_iff hvalid).mpr
    ⟨by decide, by decide, trivial, trivial⟩⟩

/-- After a block of 32 bytes, a request for 16 bytes less than `2 ^ 64` moves the position
back, and the next block overlaps the first one. -/
theorem blocks_not_disjoint :
  ¬ ∀ ops, Each step Valid init ops → Always step Sound init ops
  := by
  intro h
  have hrun := h [.malloc 32, .malloc 0xfffffffffffffff0, .malloc 16]
    ⟨trivial, trivial, trivial, trivial⟩
  have hdisjoint := hrun.2.2.2.disjoint
  revert hdisjoint
  decide

end Heap
