import Gubernatrix.PhysMem.Sort
import Gubernatrix.Queue
import Mathlib.Data.Multiset.Basic

/-!
# Compacting the free queue

`compact_queue` sorts the live entries by address and then sweeps over them: an entry that
ends where the next one begins is merged into the next one, its own slot is cleared and
`head` moves on by one.

On the list of entries the sweep is `sweepSlots`, which puts a zero in the place of every
entry that is merged away; as `head` moves on by the number of merges, `sweepCnt`, the
entries left are what remains of `sweepSlots` after as many slots. The zeros are the slots
dropped just when all merges come first, which is `MergesAtHead`.
-/

namespace PhysMem

open Ring

/-- One turn of the loop of `compact_queue`. -/
def compactStep (lo : ℤ) (q : Queue) : Queue :=
  let pgCnt := (getPgCnt (q.queue (slot q.size lo))).toNat
  let pgAddr := getAddr (q.queue (slot q.size lo))
  let nPgAddr := getAddr (q.queue (slot q.size (lo + 1)))
  let nPgCnt := pgCnt + (getPgCnt (q.queue (slot q.size (lo + 1)))).toNat
  if BitVec.ofNat 64 pgCnt * btmLevel + pgAddr = nPgAddr ∧ nPgCnt < maxEntries then
    let nEnt := buildEntry pgAddr (BitVec.ofNat 64 nPgCnt)
    let queue := Function.update q.queue (slot q.size (lo + 1)) nEnt
    { q with
      queue := Function.update queue (slot q.size lo) 0
      head := (q.head + 1) % q.size
      entCnt := q.entCnt - 1 }
  else q

/-- The loop of `compact_queue`, for at most the given number of turns. -/
def compactLoop (hi : ℤ) : ℕ → ℤ → Queue → Queue
  | 0, _, q => q
  | turns + 1, lo, q =>
      if lo < hi - 1 then compactLoop hi turns (lo + 1) (compactStep lo q) else q

/-- The last position `compact_queue` sorts. -/
def compactHi (q : Queue) : ℤ :=
  let lo : ℤ := q.head
  let hi : ℤ := q.tail - 1
  if hi < lo then hi + q.size else hi

/-- `compact_queue`; `none` if its sort did not end. -/
def compactQueue (q : Queue) : Option Queue := do
  let lo : ℤ := q.head
  let hi := compactHi q
  let queue ← quicksortPgs q.queue lo hi q.size
  some (compactLoop hi (hi - lo).toNat lo { q with queue := queue })

/-! ### Merging two entries -/

/-- The second entry begins where the first one ends, and together they fit in one. -/
def Mergeable (x y : U64) : Prop :=
  BitVec.ofNat 64 (getPgCnt x).toNat * btmLevel + getAddr x = getAddr y
    ∧ (getPgCnt x).toNat + (getPgCnt y).toNat < maxEntries

instance (x y : U64) : Decidable (Mergeable x y) :=
  inferInstanceAs (Decidable (_ ∧ _))

/-- The entry of the pages of both entries. -/
def mergeEntries (x y : U64) : U64 :=
  buildEntry (getAddr x) (BitVec.ofNat 64 ((getPgCnt x).toNat + (getPgCnt y).toNat))

theorem Mergeable.getAddr_eq {x y : U64} (h : Mergeable x y) :
  (getAddr y).toNat = (getAddr x).toNat + (getPgCnt x).toNat * 4096
  := by
  have hx := getAddr_lt x
  have hc := getPgCnt_le x
  have hval := congrArg BitVec.toNat h.1
  rw [BitVec.toNat_add, BitVec.toNat_mul, BitVec.toNat_ofNat,
    show btmLevel.toNat = 4096 from rfl] at hval
  omega

/-- Merging keeps the pages described. -/
theorem Mergeable.entryPages_merge {x y : U64} (h : Mergeable x y) :
  entryPages (mergeEntries x y) = entryPages x ++ entryPages y
  := by
  have haddr := h.getAddr_eq
  have hmax : (getPgCnt x).toNat + (getPgCnt y).toNat < 2 ^ 20 := h.2
  have hpos := getPgCnt_pos x
  have hcnt : (BitVec.ofNat 64 ((getPgCnt x).toNat + (getPgCnt y).toNat)).toNat
      = (getPgCnt x).toNat + (getPgCnt y).toNat := by
    rw [BitVec.toNat_ofNat]
    omega
  rw [mergeEntries, entryPages_buildEntry (getAddr_lt x) (by omega) (by omega), hcnt,
    ← List.range'_append_1, entryPages, entryPages]
  congr 2
  omega

/-- A cleared slot reads as the page 0 and merges with no cleared slot. -/
theorem not_mergeable_zero :
  ¬ Mergeable 0 0
  := by decide

/-! ### The sweep -/

/-- The slots of the entry `x` and the entries after it when the sweep is over. -/
def sweepSlots (x : U64) : List U64 → List U64
  | y :: z :: l =>
      if Mergeable x y then 0 :: sweepSlots (mergeEntries x y) (z :: l)
      else x :: sweepSlots y (z :: l)
  | l => x :: l

/-- The number of merges of the sweep. -/
def sweepCnt (x : U64) : List U64 → ℕ
  | y :: z :: l =>
      if Mergeable x y then sweepCnt (mergeEntries x y) (z :: l) + 1
      else sweepCnt y (z :: l)
  | _ => 0

/-- No entry, the one before the last aside, is mergeable with the next. -/
def NoMerge (x : U64) : List U64 → Prop
  | y :: z :: l => ¬ Mergeable x y ∧ NoMerge y (z :: l)
  | _ => True

/-- The merges of the sweep come before the first entry that is not merged. -/
def MergesAtHead (x : U64) : List U64 → Prop
  | y :: z :: l =>
      if Mergeable x y then MergesAtHead (mergeEntries x y) (z :: l)
      else NoMerge y (z :: l)
  | _ => True

instance NoMerge.decidable : ∀ (x : U64) (l : List U64), Decidable (NoMerge x l)
  | _, [] => .isTrue trivial
  | _, [_] => .isTrue trivial
  | _, y :: z :: l =>
      have := NoMerge.decidable y (z :: l)
      inferInstanceAs (Decidable (_ ∧ _))

instance MergesAtHead.decidable : ∀ (x : U64) (l : List U64), Decidable (MergesAtHead x l)
  | _, [] => .isTrue trivial
  | _, [_] => .isTrue trivial
  | x, y :: z :: l =>
      have := MergesAtHead.decidable (mergeEntries x y) (z :: l)
      inferInstanceAs (Decidable
        (if Mergeable x y then MergesAtHead (mergeEntries x y) (z :: l) else NoMerge y (z :: l)))

/-- Where the sweep stops, no range is left, or the last one. -/
theorem short_of_ne {l : List U64} (h : ∀ y z l', l = y :: z :: l' → False) :
  l = [] ∨ ∃ y, l = [y]
  := by
  match l, h with
  | [], _ =>
      left
      rfl
  | [y], _ =>
      right
      use y
  | y :: z :: l', h => apply absurd rfl (h y z l')

@[simp]
theorem length_sweepSlots (x : U64) (l : List U64) :
  (sweepSlots x l).length = l.length + 1
  := by
  fun_induction sweepSlots x l with
  | case1 x y z l hm ih => simp [ih]
  | case2 x y z l hm ih => simp [ih]
  | case3 x l hl => rfl

theorem sweepCnt_lt (x : U64) (l : List U64) :
  sweepCnt x l < l.length + 1
  := by
  fun_induction sweepCnt x l with
  | case1 x y z l hm ih =>
      simp only [List.length_cons] at ih ⊢
      omega
  | case2 x y z l hm ih =>
      simp only [List.length_cons] at ih ⊢
      omega
  | case3 x l hl => omega

/-- The sweep merges nothing just when there is nothing to merge. -/
theorem sweepCnt_eq_zero (x : U64) (l : List U64) :
  sweepCnt x l = 0 ↔ NoMerge x l
  := by
  fun_induction sweepCnt x l with
  | case1 x y z l hm ih => simp [NoMerge, hm]
  | case2 x y z l hm ih => simp [NoMerge, hm, ih]
  | case3 _ _ hl =>
      rcases short_of_ne hl with rfl | ⟨y, rfl⟩
      · simp [NoMerge]
      · simp [NoMerge]

theorem sweepSlots_of_noMerge (x : U64) (l : List U64) (h : NoMerge x l) :
  sweepSlots x l = x :: l
  := by
  fun_induction sweepSlots x l with
  | case1 x y z l hm ih => exact absurd hm h.1
  | case2 x y z l hm ih => rw [ih h.2]
  | case3 x l hl => rfl

/-- The slots after the sweep describe the pages they described before and, in each cleared
slot, the page 0. -/
theorem pages_sweepSlots (x : U64) (l : List U64) :
  ((sweepSlots x l).flatMap entryPages).Perm
    (List.replicate (sweepCnt x l) 0 ++ (x :: l).flatMap entryPages)
  := by
  fun_induction sweepSlots x l with
  | case1 x y z l hm ih =>
      rw [sweepCnt, if_pos hm, List.replicate_succ]
      simp only [List.flatMap_cons, hm.entryPages_merge, List.append_assoc] at ih ⊢
      apply ih.cons
  | case2 x y z l hm ih =>
      rw [sweepCnt, if_neg hm]
      rw [List.flatMap_cons, List.flatMap_cons (x := x)]
      apply (ih.append_left _).trans
      rw [← List.append_assoc, ← List.append_assoc]
      apply List.perm_append_comm.append_right
  | case3 _ _ hl =>
      rcases short_of_ne hl with rfl | ⟨y, rfl⟩
      · apply List.Perm.refl
      · apply List.Perm.refl

/-- When the merges come first, the slots dropped are the cleared ones. -/
theorem take_sweepSlots (x : U64) (l : List U64) (h : MergesAtHead x l) :
  (sweepSlots x l).take (sweepCnt x l) = List.replicate (sweepCnt x l) 0
  := by
  fun_induction sweepSlots x l with
  | case1 x y z l hm ih =>
      rw [MergesAtHead, if_pos hm] at h
      rw [sweepCnt, if_pos hm, List.take_succ_cons, ih h, List.replicate_succ]
  | case2 x y z l hm ih =>
      rw [MergesAtHead, if_neg hm] at h
      rw [sweepCnt, if_neg hm, (sweepCnt_eq_zero y (z :: l)).mpr h, List.take_zero,
        List.replicate_zero]
  | case3 _ _ hl =>
      rcases short_of_ne hl with rfl | ⟨y, rfl⟩
      · rfl
      · rfl

theorem pages_replicate_zero (n : ℕ) :
  (List.replicate n (0 : U64)).flatMap entryPages = List.replicate n 0
  := by
  induction n with
  | zero => rfl
  | succ n ih =>
      rw [List.replicate_succ, List.flatMap_cons, ih, List.replicate_succ, entryPages_zero,
        List.singleton_append]

/-- When the slots dropped are cleared ones, the entries left describe the pages described
before. -/
theorem pages_drop_of_take (x : U64) (l : List U64)
    (h : (sweepSlots x l).take (sweepCnt x l) = List.replicate (sweepCnt x l) 0) :
  (((sweepSlots x l).drop (sweepCnt x l)).flatMap entryPages).Perm
    ((x :: l).flatMap entryPages)
  := by
  have hsplit := List.take_append_drop (sweepCnt x l) (sweepSlots x l)
  rw [h] at hsplit
  have hpages := pages_sweepSlots x l
  rw [← hsplit, List.flatMap_append, pages_replicate_zero, List.perm_append_left_iff] at hpages
  exact hpages

/-- When the merges come first, the entries left describe the pages described before. -/
theorem pages_drop_sweepSlots (x : U64) (l : List U64) (h : MergesAtHead x l) :
  (((sweepSlots x l).drop (sweepCnt x l)).flatMap entryPages).Perm
    ((x :: l).flatMap entryPages)
  := pages_drop_of_take x l (take_sweepSlots x l h)

/-! ### The loop sweeps the window -/

theorem compactStep_of_mergeable {lo : ℤ} {q : Queue} {x y : U64}
    (hx : q.queue (slot q.size lo) = x) (hy : q.queue (slot q.size (lo + 1)) = y)
    (h : Mergeable x y) :
  ∃ q', compactStep lo q = q' ∧ q'.size = q.size ∧ q'.tail = q.tail
    ∧ q'.head = slot q.size (q.head + 1) ∧ q'.entCnt = q.entCnt - 1
    ∧ q'.queue = Function.update
        (Function.update q.queue (slot q.size (lo + 1)) (mergeEntries x y)) (slot q.size lo) 0
  := by
  subst hx hy
  refine ⟨_, if_pos h, rfl, rfl, ?_, rfl, rfl⟩
  rw [← Int.natCast_one, ← Int.natCast_add, slot_natCast]

theorem compactStep_of_not_mergeable (lo : ℤ) (q : Queue)
    (h : ¬ Mergeable (q.queue (slot q.size lo)) (q.queue (slot q.size (lo + 1)))) :
  compactStep lo q = q
  := if_neg h

/-- What the loop of `compact_queue` leaves of a window `x :: l` from position `lo` on. -/
structure Swept (q q' : Queue) (lo : ℤ) (x : U64) (l : List U64) : Prop where
  size_eq : q'.size = q.size
  tail_eq : q'.tail = q.tail
  head_eq : q'.head = slot q.size (q.head + sweepCnt x l)
  entCnt_eq : q'.entCnt = q.entCnt - sweepCnt x l
  window_eq : window q'.queue q.size lo (l.length + 1) = sweepSlots x l
  unchanged : ∀ s, s ∉ slots q.size lo (lo + l.length) → q'.queue s = q.queue s

theorem compactLoop_spec (hi : ℤ) :
  ∀ (turns : ℕ) (lo : ℤ) (q : Queue) (x : U64) (l : List U64), q.head < q.size →
    l.length + 1 ≤ q.size → hi = lo + l.length → hi - lo ≤ turns →
    window q.queue q.size lo (l.length + 1) = x :: l →
    Swept q (compactLoop hi turns lo q) lo x l
  | turns, lo, q, x, y :: z :: l, hhead, hturn, hhi, hturns, hwin => by
      have hsize : 0 < q.size := Nat.zero_lt_of_lt hhead
      have hlen : (y :: z :: l).length = l.length + 2 := rfl
      have hlen' : (z :: l).length = l.length + 1 := rfl
      simp only [List.length_cons] at hturn hhi hwin
      obtain ⟨turns, rfl⟩ : ∃ t, turns = t + 1 := ⟨turns - 1, by omega⟩
      rw [window_succ, window_succ] at hwin
      obtain ⟨hx, hy, htail⟩ : q.queue (slot q.size lo) = x ∧ q.queue (slot q.size (lo + 1)) = y
          ∧ window q.queue q.size (lo + 1 + 1) (l.length + 1) = z :: l := by
        simpa using hwin
      have hne : ∀ k, lo < k → k ≤ lo + l.length + 2 → slot q.size k ≠ slot q.size lo := by
        intro k hk hk' heq
        have := slot_injective (by omega) (by omega) heq
        omega
      rw [compactLoop, if_pos (by omega)]
      by_cases hm : Mergeable x y
      · obtain ⟨q₁, hstep, hsz₁, htail₁, hhead₁, hent₁, hqueue₁⟩ :=
          compactStep_of_mergeable hx hy hm
        have hrest : window q₁.queue q.size (lo + 1) (l.length + 1 + 1)
            = mergeEntries x y :: z :: l := by
          rw [window_succ, ← htail, hqueue₁]
          congr 1
          · rw [Function.update_of_ne (hne _ (by omega) (by omega)), Function.update_self]
          · apply window_congr
            intro k hk hk'
            rw [Function.update_of_ne (hne _ (by omega) (by omega)), Function.update_of_ne]
            intro heq
            have := slot_injective (by omega) (by omega) heq
            omega
        have ih := compactLoop_spec hi turns (lo + 1) q₁ (mergeEntries x y) (z :: l)
          (by rw [hsz₁, hhead₁]; apply slot_lt hsize) (by rw [hsz₁, List.length_cons]; omega)
          (by rw [List.length_cons]; omega) (by omega) (by rw [hsz₁, List.length_cons, hrest])
        rw [hstep]
        have hclear : (compactLoop hi turns (lo + 1) q₁).queue (slot q.size lo) = 0 := by
          rw [ih.unchanged, hqueue₁, Function.update_self]
          rw [hsz₁]
          apply slot_notMem_slots lo (lo + l.length + 2) <;> omega
        obtain ⟨h₁, h₂, h₃, h₄, h₅, h₆⟩ := ih
        rw [hsz₁] at h₁ h₃ h₅ h₆
        refine ⟨h₁, h₂.trans htail₁, ?_, ?_, ?_, ?_⟩
        · rw [h₃, sweepCnt, if_pos hm, hhead₁, ← slot_sub_slot hsize _ (q.head + 1)]
          congr 1
          omega
        · rw [h₄, hent₁, sweepCnt, if_pos hm]
          omega
        · rw [List.length_cons, window_succ, hclear, sweepSlots, if_pos hm, ← h₅]
        · intro s hs
          have hs' : s ∉ slots q.size (lo + 1) (lo + 1 + (z :: l).length) := by
            intro h
            apply hs
            apply slots_mono _ _ h <;> omega
          have hlo : s ≠ slot q.size lo := by
            rintro rfl
            apply hs
            apply slot_mem_slots <;> omega
          have hlo' : s ≠ slot q.size (lo + 1) := by
            rintro rfl
            apply hs'
            apply slot_mem_slots <;> omega
          rw [h₆ s hs', hqueue₁, Function.update_of_ne hlo, Function.update_of_ne hlo']
      · have hstep := compactStep_of_not_mergeable lo q (by rw [hx, hy]; exact hm)
        have ih := compactLoop_spec hi turns (lo + 1) q y (z :: l)
          hhead (by rw [List.length_cons]; omega) (by rw [List.length_cons]; omega)
          (by omega) (by rw [List.length_cons, window_succ, hy, htail])
        rw [hstep]
        have hkeep : (compactLoop hi turns (lo + 1) q).queue (slot q.size lo) = x := by
          rw [ih.unchanged, hx]
          apply slot_notMem_slots lo (lo + l.length + 2) <;> omega
        obtain ⟨h₁, h₂, h₃, h₄, h₅, h₆⟩ := ih
        refine ⟨h₁, h₂, ?_, ?_, ?_, ?_⟩
        · rw [h₃, sweepCnt, if_neg hm]
        · rw [h₄, sweepCnt, if_neg hm]
        · rw [List.length_cons, window_succ, hkeep, sweepSlots, if_neg hm, ← h₅]
        · intro s hs
          apply h₆
          intro h
          apply hs
          apply slots_mono _ _ h <;> omega
  | turns, lo, q, x, [], hhead, hturn, hhi, hturns, hwin => by
      have hdone : compactLoop hi turns lo q = q := by
        cases turns with
        | zero => rfl
        | succ turns => rw [compactLoop, if_neg (by simp at hhi; omega)]
      have hcnt : sweepCnt x [] = 0 := rfl
      rw [hdone]
      refine ⟨rfl, rfl, ?_, by rw [hcnt]; omega, hwin, fun _ _ => rfl⟩
      rw [hcnt, Int.natCast_zero, add_zero, slot_natCast, Nat.mod_eq_of_lt hhead]
  | turns, lo, q, x, [y], hhead, hturn, hhi, hturns, hwin => by
      have hdone : compactLoop hi turns lo q = q := by
        cases turns with
        | zero => rfl
        | succ turns => rw [compactLoop, if_neg (by simp at hhi; omega)]
      have hcnt : sweepCnt x [y] = 0 := rfl
      rw [hdone]
      refine ⟨rfl, rfl, ?_, by rw [hcnt]; omega, hwin, fun _ _ => rfl⟩
      rw [hcnt, Int.natCast_zero, add_zero, slot_natCast, Nat.mod_eq_of_lt hhead]

/-! ### Compaction -/

/-- The number of slots that `compact_queue` sorts: those of the live entries, but the whole
ring when the queue is empty. -/
def compactSpan (q : Queue) : ℕ := if q.liveCnt = 0 then q.size else q.liveCnt

theorem compactSpan_pos {q : Queue} (h : q.InRange) :
  0 < compactSpan q
  := by
  have := h.size_pos
  unfold compactSpan
  split <;> omega

theorem compactSpan_le {q : Queue} (h : q.InRange) :
  compactSpan q ≤ q.size
  := by
  have := h.liveCnt_lt
  unfold compactSpan
  split <;> omega

theorem compactHi_eq {q : Queue} (h : q.InRange) :
  compactHi q = q.head + compactSpan q - 1
  := by
  have := h.head_lt
  have := h.tail_lt
  simp only [compactHi, compactSpan, Queue.liveCnt]
  grind

/-- `compact_queue` sorts its window `x :: l` by address and sweeps it. -/
theorem compactQueue_spec {q : Queue} (h : q.InRange) :
  ∃ data x l q', quicksortPgs q.queue q.head (compactHi q) q.size = some data
    ∧ Rearranged (slots q.size q.head (compactHi q)) q.queue data
    ∧ window data q.size q.head (compactSpan q) = x :: l
    ∧ (x :: l).Pairwise (fun a b => getAddr a ≤ getAddr b)
    ∧ (x :: l).Perm (window q.queue q.size q.head (compactSpan q))
    ∧ compactQueue q = some q' ∧ Swept { q with queue := data } q' q.head x l
  := by
  have hpos := compactSpan_pos h
  have hle := compactSpan_le h
  have hhi := compactHi_eq h
  obtain ⟨data, hsort, hre, hsorted⟩ := quicksortPgs_spec q.head (compactHi q)
    (by omega : compactHi q - q.head < q.size) q.queue
  obtain ⟨n, hn⟩ : ∃ n, compactSpan q = n + 1 := ⟨compactSpan q - 1, by omega⟩
  have hwin : ∃ x l, window data q.size q.head (n + 1) = x :: l := ⟨_, _, window_succ _ _ _ _⟩
  obtain ⟨x, l, hwin⟩ := hwin
  have hlen : l.length = n := by
    have := congrArg List.length hwin
    simpa using this.symm
  have hperm := perm_window hle (by rw [← hhi]; exact hre)
  have hpair : (window data q.size q.head (compactSpan q)).Pairwise
      (fun a b => getAddr a ≤ getAddr b) := by
    apply pairwise_window
    intro k k' hk hkk' hk'
    rw [BitVec.le_def]
    apply hsorted k k' hk hkk'
    omega
  rw [hn] at hperm hpair
  rw [hwin] at hperm hpair
  refine ⟨data, x, l, compactLoop (compactHi q) (compactHi q - q.head).toNat q.head
    { q with queue := data }, hsort, hre, by rw [hn, hwin], hpair, by rw [hn]; exact hperm, ?_, ?_⟩
  · rw [compactQueue]
    simp only [hsort, Option.bind_eq_bind, Option.bind_some]
  · apply compactLoop_spec _ _ _ { q with queue := data } _ _ h.head_lt
    · rw [hlen]
      show n + 1 ≤ q.size
      omega
    · rw [hhi, hn, hlen]
      omega
    · have h0 : 0 ≤ compactHi q - q.head := by omega
      rw [Int.toNat_of_nonneg h0]
    · rw [hlen]
      exact hwin

/-- Compaction keeps both ends of the queue in the ring, whatever it merges. -/
theorem compactQueue_inRange {q : Queue} (h : q.InRange) :
  ∃ q', compactQueue q = some q' ∧ q'.InRange
  := by
  obtain ⟨data, x, l, q', -, -, -, -, -, hq', hswept⟩ := compactQueue_spec h
  refine ⟨q', hq', ?_, ?_⟩
  · rw [hswept.head_eq, hswept.size_eq]
    apply slot_lt h.size_pos
  · rw [hswept.tail_eq, hswept.size_eq]
    exact h.tail_lt

/-- The entries `compact_queue` sweeps over, in the order its sort leaves them in. -/
def sortedWindow (q : Queue) : List U64 :=
  match quicksortPgs q.queue q.head (compactHi q) q.size with
  | some data => window data q.size q.head (compactSpan q)
  | none => []

/-- The sweep of `compact_queue` over `q` merges only at the head of the window. -/
def CompactsAtHead (q : Queue) : Prop :=
  match sortedWindow q with
  | [] => True
  | x :: l => MergesAtHead x l

instance (q : Queue) : Decidable (CompactsAtHead q) := by
  unfold CompactsAtHead
  split <;> infer_instance

/-- The sweep of `compact_queue` over `q` finds two entries to merge. -/
def CompactsSome (q : Queue) : Prop :=
  match sortedWindow q with
  | [] => False
  | x :: l => ¬ NoMerge x l

instance (q : Queue) : Decidable (CompactsSome q) := by
  unfold CompactsSome
  split <;> infer_instance

/-- Moving `head` over entries of the queue drops them. -/
theorem liveCnt_of_head {q q' : Queue} (h : q.InRange) {c : ℕ} (hc : c ≤ q.liveCnt)
    (hsize : q'.size = q.size) (htail : q'.tail = q.tail)
    (hhead : q'.head = slot q.size (q.head + c)) :
  q'.InRange ∧ q'.liveCnt = q.liveCnt - c
  := by
  have hlt := h.head_lt
  have hlt' := h.tail_lt
  have hlive := h.liveCnt_lt
  have hval : q'.head = if q.head + c < q.size then q.head + c else q.head + c - q.size := by
    rw [hhead, ← Int.natCast_add, slot_natCast]
    split
    next hin => rw [Nat.mod_eq_of_lt hin]
    next hout => rw [Nat.mod_eq_sub_mod (by omega), Nat.mod_eq_of_lt (by omega)]
  constructor
  · constructor
    · rw [hsize, hval]
      split <;> omega
    · rw [hsize, htail]
      exact hlt'
  · simp only [Queue.liveCnt, hsize, htail, hval] at hc ⊢
    grind

/-- Compacting a queue that holds entries leaves those of the swept window after the merges. -/
theorem compactQueue_live {q : Queue} (h : q.InRange) (hpos : 0 < q.liveCnt) :
  ∃ x l q', sortedWindow q = x :: l ∧ (x :: l).Perm q.live
    ∧ (x :: l).Pairwise (fun a b => getAddr a ≤ getAddr b)
    ∧ compactQueue q = some q' ∧ q'.InRange ∧ q'.size = q.size
    ∧ q'.liveCnt = q.liveCnt - sweepCnt x l ∧ q'.entCnt = q.entCnt - sweepCnt x l
    ∧ q'.live = (sweepSlots x l).drop (sweepCnt x l)
    ∧ q'.head = slot q.size (q.head + sweepCnt x l)
    ∧ window q'.queue q.size q.head q.liveCnt = sweepSlots x l
    ∧ ∀ k : ℤ, q.head + q.liveCnt ≤ k → k < q.head + q.size →
        q'.queue (slot q.size k) = q.queue (slot q.size k)
  := by
  obtain ⟨data, x, l, q', hsort, hre, hwin, hpair, hperm, hq', hswept⟩ := compactQueue_spec h
  have hhi := compactHi_eq h
  have hlt := h.liveCnt_lt
  have hspan : compactSpan q = q.liveCnt := if_neg (by omega)
  rw [hspan] at hwin hperm hhi
  have hlen : l.length + 1 = q.liveCnt := by
    have := congrArg List.length hwin
    simpa using this.symm
  have hcnt := sweepCnt_lt x l
  obtain ⟨hrange, hlive⟩ := liveCnt_of_head h (by omega) hswept.size_eq hswept.tail_eq
    hswept.head_eq
  have hwin' : window q'.queue q.size q.head q.liveCnt = sweepSlots x l := by
    rw [← hlen]
    exact hswept.window_eq
  refine ⟨x, l, q', ?_, hperm, hpair, hq', hrange, hswept.size_eq, hlive, hswept.entCnt_eq, ?_,
    hswept.head_eq, hwin', ?_⟩
  · rw [sortedWindow, hsort, ← hwin, hspan]
  · have hcut : q.liveCnt = sweepCnt x l + (q.liveCnt - sweepCnt x l) := by omega
    rw [← hwin', hcut, window_add]
    rw [List.drop_left' (length_window _ _ _ _), Queue.live, hlive, hswept.size_eq,
      hswept.head_eq, window_slot h.size_pos]
  · intro k hk hk'
    rw [hswept.unchanged]
    · apply hre.of_notMem
      rw [hhi]
      apply slot_notMem_slots q.head (q.head + q.size - 1) <;> omega
    · dsimp only
      apply slot_notMem_slots q.head (q.head + q.size - 1) <;> omega

/-- The page numbers that the entries of a queue describe, with their multiplicities. -/
def pages (q : Queue) : Multiset ℕ := (q.live.flatMap entryPages : List ℕ)

/-- Compacting a clean queue that holds no entry leaves it so. -/
theorem compactQueue_of_empty {q : Queue} (h : q.Clean) (hzero : q.liveCnt = 0) :
  ∃ q', compactQueue q = some q' ∧ q'.Clean ∧ q'.size = q.size ∧ q'.live = []
  := by
  obtain ⟨data, x, l, q', hsort, hre, hwin, hpair, hperm, hq', hswept⟩ :=
    compactQueue_spec h.toInRange
  have hspan : compactSpan q = q.size := if_pos hzero
  rw [hspan] at hwin hperm
  have hlen : l.length + 1 = q.size := by
    have := congrArg List.length hwin
    simpa using this.symm
  have hzeros : ∀ e ∈ x :: l, e = 0 := by
    intro e he
    obtain ⟨k, hk, hk', rfl⟩ := mem_window.mp (hperm.mem_iff.mp he)
    apply h.unused k <;> omega
  have hnomerge : ∀ (x : U64) (l : List U64), (∀ e ∈ x :: l, e = 0) → NoMerge x l := by
    intro x l hall
    fun_induction NoMerge x l with
    | case1 x y z l ih =>
        refine ⟨?_, ih fun e he => hall e (List.mem_cons_of_mem _ he)⟩
        rw [hall x (by simp), hall y (by simp)]
        apply not_mergeable_zero
    | case2 => trivial
  have hcnt : sweepCnt x l = 0 := (sweepCnt_eq_zero x l).mpr (hnomerge x l hzeros)
  obtain ⟨hsize, htail, hhead, hent, hwindow, hunchanged⟩ := hswept
  dsimp only at hsize hhead hent hwindow
  rw [hcnt] at hhead hent
  rw [sweepSlots_of_noMerge x l (hnomerge x l hzeros)] at hwindow
  obtain ⟨hrange, hlive⟩ := liveCnt_of_head h.toInRange (c := 0) (by omega) hsize htail hhead
  rw [hzero] at hlive
  have hhead' : q'.head = q.head := by
    rw [hhead]
    simpa using h.slot_head
  refine ⟨q', hq', ⟨hrange, ?_, ?_⟩, hsize, ?_⟩
  · have := h.entCnt_eq
    rw [hent, hlive]
    omega
  · intro k hk hk'
    apply hzeros
    rw [← hwindow, hsize]
    apply mem_window.mpr
    exact ⟨k, by omega, by omega, rfl⟩
  · rw [Queue.live, hlive, window_zero]

/-- Compacting a clean queue with its merges at the head keeps the pages it describes, and
the slots it leaves unused are zero. -/
theorem compactQueue_clean {q : Queue} (h : q.Clean) (hok : CompactsAtHead q) :
  ∃ q', compactQueue q = some q' ∧ q'.Clean ∧ q'.size = q.size ∧ pages q' = pages q
  := by
  by_cases hzero : q.liveCnt = 0
  · obtain ⟨q', hq', hclean, hsize, hlive⟩ := compactQueue_of_empty h hzero
    refine ⟨q', hq', hclean, hsize, ?_⟩
    rw [pages, pages, hlive, Queue.live, hzero, window_zero]
  · obtain ⟨x, l, q', hsorted, hperm, -, hq', hrange, hsize, hcnt, hent, hlive, hhead, hwin,
      hkeep⟩ := compactQueue_live h.toInRange (by omega)
    rw [CompactsAtHead, hsorted] at hok
    have hlt := h.liveCnt_lt
    have hlen : l.length + 1 = q.liveCnt := by
      have := congrArg List.length hwin
      simpa using this.symm
    have hle := sweepCnt_lt x l
    refine ⟨q', hq', ⟨hrange, ?_, ?_⟩, hsize, ?_⟩
    · have := h.entCnt_eq
      omega
    · intro k hk hk'
      have hshift := slot_sub_slot h.size_pos k (q.head + sweepCnt x l)
      rw [← hhead] at hshift
      rw [hsize] at hk' ⊢
      rw [← hshift]
      by_cases hold : k - q'.head + (q.head + sweepCnt x l) < q.head + q.size
      · rw [hkeep _ (by omega) hold]
        apply h.unused <;> omega
      · -- a slot that `head` has moved over
        have hdropped : ∀ e ∈ window q'.queue q.size q.head (sweepCnt x l), e = 0 := by
          intro e he
          have htake := take_sweepSlots x l hok
          have hcut : q.liveCnt = sweepCnt x l + (q.liveCnt - sweepCnt x l) := by omega
          rw [← hwin, hcut, window_add, List.take_left' (length_window _ _ _ _)] at htake
          rw [htake] at he
          exact List.eq_of_mem_replicate he
        rw [← Int.sub_add_cancel (k - q'.head + (q.head + sweepCnt x l)) q.size, slot_add_size]
        apply hdropped
        apply mem_window.mpr
        exact ⟨_, by omega, by omega, rfl⟩
    · rw [pages, pages, hlive, Multiset.coe_eq_coe]
      apply (pages_drop_sweepSlots x l hok).trans
      apply hperm.flatMap_right

end PhysMem
