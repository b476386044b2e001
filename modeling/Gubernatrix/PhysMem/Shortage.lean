import Gubernatrix.PhysMem.Dma

/-!
# Shortage

`pagealloc_alloc` returns -1 when it finds no range that is large enough, neither in the queue nor
after a compaction. The sweep of `compact_queue` puts together neighbouring ranges, but it leaves
out the last range, and `head` moves on over as many slots as ranges were put together, whichever
slots these are: what it finds on its way is lost. So a request may fail although the pages are
there.
-/

namespace PhysMem

open Program Ring

/-- Ranges that the sweep puts together: the range of all their pages, and their number. -/
structure Chain where
  range : U64
  count : ℕ

/-- The chains of the range `x`, of which `count` ranges are already part, and the ranges after it,
the last of which is left out. -/
def chains (x : U64) (count : ℕ) : List U64 → List Chain
  | y :: z :: l =>
      if Mergeable x y then chains (mergeEntries x y) (count + 1) (z :: l)
      else ⟨x, count⟩ :: chains y 1 (z :: l)
  | _ => [⟨x, count⟩]

/-- After the chains, in ranges. -/
def countAfter (cs : List Chain) : ℕ := (cs.map Chain.count).sum

/-- Some chain of the sorted ranges has `n` pages and is not moved over: the ranges after it, the
last left out, are fewer than the chains. -/
def ChainLeft (n : ℕ) : List U64 → Prop
  | [] => False
  | x :: l => ∃ cs c cs', chains x 1 l = cs ++ c :: cs' ∧ n ≤ (getPgCnt c.range).toNat
      ∧ countAfter cs' < (chains x 1 l).length

/-- The free pages of the queue contain a contiguous run, not part of a longer one, of at least `n`
and fewer than 2^20 pages. -/
def HasRun (q : Queue) (n : ℕ) : Prop :=
  ∃ a m, n ≤ m ∧ m < 2 ^ 20 ∧ (∀ p, a ≤ p → p < a + m → p ∈ pages q)
    ∧ a + m ∉ pages q ∧ ∀ p, p + 1 = a → p ∉ pages q

/-- The free queue of an allocator: both ends are slots, the entry count is right, and the entries
describe disjoint ranges of pages. -/
structure DisjointRanges (q : Queue) : Prop extends Queue.InRange q where
  entCnt_eq : q.entCnt = q.liveCnt
  disjoint : q.live.Pairwise fun x y => ∀ p ∈ entryPages x, p ∉ entryPages y

/-! ### Chains -/

/-- The slots of a chain after the sweep. -/
def Chain.slots (c : Chain) : List U64 := List.replicate (c.count - 1) 0 ++ [c.range]

theorem count_pos {x : U64} {count : ℕ} (hcount : 1 ≤ count) (l : List U64) :
  ∀ c ∈ chains x count l, 1 ≤ c.count
  := by
  induction l generalizing x count with
  | nil =>
      intro c hc
      obtain rfl := List.mem_singleton.mp hc
      apply hcount
  | cons y l ih =>
      cases l with
      | nil =>
          intro c hc
          obtain rfl := List.mem_singleton.mp hc
          apply hcount
      | cons z l =>
          rw [chains]
          split
          · apply ih (by omega)
          · intro c hc
            rcases List.mem_cons.mp hc with rfl | hc
            · apply hcount
            · apply ih (le_refl 1) c hc

theorem length_slots {cs : List Chain} (h : ∀ c ∈ cs, 1 ≤ c.count) :
  (cs.flatMap Chain.slots).length = countAfter cs
  := by
  induction cs with
  | nil => rfl
  | cons c cs ih =>
      have hc := h c (List.mem_cons_self ..)
      rw [List.flatMap_cons, List.length_append, ih fun c hc => h c (List.mem_cons_of_mem _ hc),
        countAfter, countAfter, List.map_cons, List.sum_cons, Chain.slots, List.length_append,
        List.length_replicate, List.length_singleton, Nat.sub_add_cancel hc]

/-- The sweep leaves the slots of the chains, and the last range. -/
theorem slots_chains (x : U64) {count : ℕ} (hcount : 1 ≤ count) (l : List U64) :
  List.replicate (count - 1) 0 ++ sweepSlots x l
    = (chains x count l).flatMap Chain.slots ++ l.getLast?.toList
  := by
  induction l generalizing x count with
  | nil => simp [chains, sweepSlots, Chain.slots]
  | cons y l ih =>
      cases l with
      | nil => simp [chains, sweepSlots, Chain.slots]
      | cons z l =>
          by_cases hm : Mergeable x y
          · obtain ⟨k, rfl⟩ : ∃ k, count = k + 1 := ⟨count - 1, by omega⟩
            have ih' := ih (mergeEntries x y) (Nat.le_add_left 1 (k + 1))
            rw [chains, if_pos hm, List.getLast?_cons_cons, sweepSlots, if_pos hm, ← ih']
            simp only [Nat.add_sub_cancel, List.replicate_succ', List.append_assoc,
              List.singleton_append]
          · have ih' := ih y (le_refl 1)
            rw [chains, if_neg hm, List.flatMap_cons, List.getLast?_cons_cons, List.append_assoc,
              ← ih', sweepSlots, if_neg hm, Chain.slots]
            simp

/-- The sweep moves `head` on by the ranges that are not the last of their chain. -/
theorem sweepCnt_chains (x : U64) (count : ℕ) (l : List U64) :
  sweepCnt x l + count + (chains x count l).length = countAfter (chains x count l) + 1
  := by
  induction l generalizing x count with
  | nil => simp [chains, sweepCnt, countAfter]
  | cons y l ih =>
      cases l with
      | nil => simp [chains, sweepCnt, countAfter]
      | cons z l =>
          by_cases hm : Mergeable x y
          · have ih' := ih (mergeEntries x y) (count + 1)
            rw [chains, if_pos hm, sweepCnt, if_pos hm]
            omega
          · have ih' := ih y 1
            rw [chains, if_neg hm, sweepCnt, if_neg hm, countAfter, List.map_cons, List.sum_cons,
              List.length_cons]
            rw [countAfter] at ih'
            dsimp only
            omega

/-- A slot that is not cleared is the last of a chain. -/
theorem split_slots {e : U64} (he : e ≠ 0) {cs : List Chain} {t w w' : List U64}
    (h : cs.flatMap Chain.slots ++ t = w ++ e :: w') :
  (∃ cs₁ c cs₂, cs = cs₁ ++ c :: cs₂ ∧ e = c.range
      ∧ w = cs₁.flatMap Chain.slots ++ List.replicate (c.count - 1) 0)
    ∨ e ∈ t
  := by
  induction cs generalizing w with
  | nil =>
      right
      rw [List.flatMap_nil, List.nil_append] at h
      rw [h]
      simp
  | cons c cs ih =>
      have hlater {v : List U64} (hw : w = c.slots ++ v)
          (hrest : cs.flatMap Chain.slots ++ t = v ++ e :: w') :
          (∃ cs₁ d cs₂, c :: cs = cs₁ ++ d :: cs₂ ∧ e = d.range
            ∧ w = cs₁.flatMap Chain.slots ++ List.replicate (d.count - 1) 0) ∨ e ∈ t := by
        rcases ih hrest with ⟨cs₁, d, cs₂, rfl, hd, rfl⟩ | ht
        · left
          use c :: cs₁, d, cs₂, rfl, hd
          rw [hw, List.flatMap_cons, List.append_assoc]
        · right
          apply ht
      rw [List.flatMap_cons, List.append_assoc] at h
      rcases List.append_eq_append_iff.mp h with ⟨v, hw, hrest⟩ | ⟨v, hslots, hrest⟩
      · apply hlater hw hrest
      · cases v with
        | nil =>
            rw [List.append_nil] at hslots
            apply hlater (v := []) (by rw [hslots, List.append_nil]) hrest.symm
        | cons e' v =>
            obtain ⟨rfl, -⟩ := List.cons.inj hrest
            left
            rcases List.append_eq_append_iff.mp hslots with ⟨u, hw, hu⟩ | ⟨u, hzeros, hu⟩
            · cases u with
              | nil =>
                  obtain ⟨heq, -⟩ := List.cons.inj hu
                  use [], c, cs, rfl, heq.symm
                  rw [hw, List.append_nil]
                  rfl
              | cons e' u =>
                  obtain ⟨-, hnil⟩ := List.cons.inj hu
                  simp at hnil
            · cases u with
              | nil =>
                  obtain ⟨heq, -⟩ := List.cons.inj hu
                  use [], c, cs, rfl, heq
                  rw [List.append_nil] at hzeros
                  rw [← hzeros]
                  rfl
              | cons e' u =>
                  obtain ⟨rfl, -⟩ := List.cons.inj hu
                  apply absurd _ he
                  apply List.eq_of_mem_replicate (n := c.count - 1)
                  rw [hzeros]
                  simp

theorem mem_drop_iff {e : U64} {l : List U64} {k : ℕ} :
  e ∈ l.drop k ↔ ∃ w w', l = w ++ e :: w' ∧ k ≤ w.length
  := by
  constructor
  · intro h
    obtain ⟨w, w', hw⟩ := List.append_of_mem h
    have hk : k ≤ l.length := by
      by_contra hk
      rw [List.drop_eq_nil_of_le (by omega)] at h
      cases h
    use l.take k ++ w, w'
    constructor
    · rw [List.append_assoc, ← hw, List.take_append_drop]
    · rw [List.length_append, List.length_take]
      omega
  · rintro ⟨w, w', rfl, hk⟩
    rw [List.drop_append_of_le_length hk]
    simp

/-- What the sweep leaves has a range of `n` pages just when a chain has, or the last range. -/
theorem exists_swept_iff {n : ℕ} (hn : 2 ≤ n) (x : U64) (l : List U64) :
  (∃ e ∈ swept (x :: l), hasPages n e = true)
    ↔ ChainLeft n (x :: l) ∨ ∃ e ∈ l.getLast?, hasPages n e = true
  := by
  have hslots := slots_chains x (le_refl 1) l
  have hcnt := sweepCnt_chains x 1 l
  have hpos := count_pos (x := x) (le_refl 1) l
  simp only [Nat.sub_self, List.replicate_zero, List.nil_append] at hslots
  have hne {e : U64} (he : hasPages n e = true) : e ≠ 0 := by
    rintro rfl
    rw [hasPages, decide_eq_true_eq, show (getPgCnt 0).toNat = 1 from rfl] at he
    omega
  have hlength {cs cs' : List Chain} {c : Chain} (hsplit : chains x 1 l = cs ++ c :: cs') :
      (cs.flatMap Chain.slots ++ List.replicate (c.count - 1) 0).length + 1 + countAfter cs'
        = countAfter (chains x 1 l) := by
    rw [hsplit] at hpos
    have hc := hpos c (by simp)
    rw [List.length_append, List.length_replicate,
      length_slots fun c hc => hpos c (List.mem_append_left _ hc), hsplit, countAfter, countAfter,
      countAfter, List.map_append, List.sum_append, List.map_cons, List.sum_cons]
    omega
  simp only [swept, mem_drop_iff]
  constructor
  · rintro ⟨e, ⟨w, w', hw, hk⟩, he⟩
    rw [hslots] at hw
    rcases split_slots (hne he) hw with ⟨cs, c, cs', hsplit, rfl, rfl⟩ | hlast
    · left
      have hlen := hlength hsplit
      use cs, c, cs', hsplit, by simpa [hasPages] using he
      omega
    · right
      use e, by simpa using hlast
  · rintro (⟨cs, c, cs', hsplit, he, hafter⟩ | ⟨e, hlast, he⟩)
    · have hlen := hlength hsplit
      use c.range
      refine ⟨⟨cs.flatMap Chain.slots ++ List.replicate (c.count - 1) 0, cs'.flatMap Chain.slots
        ++ l.getLast?.toList, ?_, by omega⟩, by simpa [hasPages] using he⟩
      rw [hslots, hsplit, List.flatMap_append, List.flatMap_cons, Chain.slots]
      simp only [List.append_assoc, List.cons_append, List.nil_append]
    · refine ⟨e, ⟨(chains x 1 l).flatMap Chain.slots, [], ?_, ?_⟩, he⟩
      · rw [hslots, hlast]
        rfl
      · rw [length_slots hpos]
        omega

/-! ### What is found -/

section Found

variable {s : Pmem} {n : ℕ}

/-- Ranges of disjoint pages are at different addresses. -/
theorem distinct_of_nodup {l : List U64} (h : (l.flatMap entryPages).Nodup) :
  (l.map getAddr).Nodup
  := by
  rw [List.nodup_flatMap] at h
  rw [List.Nodup, List.pairwise_map]
  apply h.2.imp
  intro x y hdisjoint heq
  have hx := getPgCnt_pos x
  have hy := getPgCnt_pos y
  apply hdisjoint (a := (getAddr x).toNat / 4096)
  · rw [mem_entryPages]
    omega
  · rw [mem_entryPages, heq]
    omega

theorem DisjointRanges.nodup {q : Queue} (h : DisjointRanges q) :
  (q.live.flatMap entryPages).Nodup
  := by
  rw [List.nodup_flatMap]
  constructor
  · intro e _
    exact List.nodup_range'
  · apply h.disjoint.imp
    intro x y hdisjoint p hx hy
    apply hdisjoint p hx hy

theorem DisjointRanges.sound {q : Queue} (h : DisjointRanges q) (hpos : q.liveCnt ≠ 0) :
  Sound q
  where
  toInRange := h.toInRange
  entCnt_eq := h.entCnt_eq
  distinct := distinct_of_nodup h.nodup
  empty hzero := absurd hzero hpos

/-- Where some pages are free, there is a range. -/
theorem HasRun.ne_nil {q : Queue} (h : HasRun q n) (hn : 1 ≤ n) :
  q.live ≠ []
  := by
  obtain ⟨a, m, hnm, -, hrun, -⟩ := h
  intro hnil
  have ha := hrun a (le_refl a) (by omega)
  rw [pages, hnil] at ha
  simp at ha

/-- A request for `n` pages returns the first range with enough pages, if there is one. -/
theorem pageallocAlloc_run (hsound : Sound s.btmLevel) (hn : n < 2 ^ 20) (flags : BitVec 32) :
  ∃ s', pageallocAlloc flags (BitVec.ofNat 64 (n * 4096)) s
    = .ok ((firstLarge n s.btmLevel.live).elim (-1) getAddr) s'
  := by
  have hsize : (BitVec.ofNat 64 (n * 4096)).toNat = n * 4096 := by
    rw [BitVec.toNat_ofNat]
    omega
  have hpages : toInt32 (align (BitVec.ofNat 64 (n * 4096)) btmLevel / btmLevel).toNat = n := by
    rw [BitVec.toNat_udiv, show btmLevel = kib 4 from rfl, toNat_align_page (by omega), hsize,
      show (kib 4).toNat = 4096 from rfl, Nat.mul_div_cancel _ (by decide),
      toInt32_of_lt (by omega)]
    omega
  obtain ⟨s', hrun, -⟩ := allocLoop_run hsound
  rw [pageallocAlloc, hpages]
  use s'

/-- The search finds a range just when one of the queue has enough pages, or a chain that is
left. -/
theorem firstLarge_ne_none_iff (hn : 1 ≤ n) {l : List U64} (hne : l ≠ []) :
  firstLarge n l ≠ none ↔ (∃ e ∈ l, hasPages n e = true) ∨ ChainLeft n (byAddr l)
  := by
  have hfirst : firstLarge n l ≠ none
      ↔ (∃ e ∈ l, hasPages n e = true) ∨ ∃ e ∈ swept (byAddr l), hasPages n e = true := by
    rw [firstLarge, ne_eq, Option.or_eq_none_iff, List.find?_eq_none, List.find?_eq_none]
    simp only [not_and_or, not_forall, not_not, exists_prop]
  have hperm : (byAddr l).Perm l := List.perm_insertionSort _ l
  rw [hfirst]
  by_cases hone : n = 1
  · -- every range has a page
    obtain ⟨e, he⟩ := List.exists_mem_of_ne_nil l hne
    have hpos := getPgCnt_pos e
    have hlarge : ∃ e ∈ l, hasPages n e = true := by
      use e, he
      rw [hasPages, decide_eq_true_eq]
      omega
    apply iff_of_true (.inl hlarge) (.inl hlarge)
  · cases hsorted : byAddr l with
    | nil => simp [swept, ChainLeft]
    | cons x l' =>
        rw [exists_swept_iff (by omega)]
        constructor
        · rintro (h | h | ⟨e, hlast, he⟩)
          · left
            apply h
          · right
            apply h
          · left
            use e
            constructor
            · rw [← hperm.mem_iff, hsorted]
              apply List.mem_cons_of_mem _ (List.mem_of_getLast? hlast)
            · apply he
        · rintro (h | h)
          · left
            apply h
          · right
            left
            apply h

end Found

/-- A request for `n` pages, where a run of free pages is long enough and can be one range, succeeds
just when a range of the queue has `n` pages, or a chain of the sorted ranges that is left. -/
theorem not_short_iff {s : Pmem} (h : DisjointRanges s.btmLevel) {n : ℕ} (hn : 1 ≤ n)
    (hrun : HasRun s.btmLevel n) (flags : BitVec 32) :
  (∀ s', pageallocAlloc flags (BitVec.ofNat 64 (n * 4096)) s ≠ .ok (-1) s')
    ↔ (∃ e ∈ s.btmLevel.live, hasPages n e = true) ∨ ChainLeft n (byAddr s.btmLevel.live)
  := by
  have hne := hrun.ne_nil hn
  have hpos : s.btmLevel.liveCnt ≠ 0 := by
    rw [← Queue.length_live, ne_eq, List.length_eq_zero_iff]
    apply hne
  obtain ⟨a, m, hnm, hm, -⟩ := hrun
  obtain ⟨s', hs'⟩ := pageallocAlloc_run (h.sound hpos) (show n < 2 ^ 20 by omega) flags
  rw [← firstLarge_ne_none_iff hn hne, hs']
  cases firstLarge n s.btmLevel.live with
  | none =>
      apply iff_of_false
      · intro hall
        apply hall s' rfl
      · intro hall
        apply hall rfl
  | some e =>
      apply iff_of_true
      · intro s'' heq
        have haddr : getAddr e = -1 := by
          injection heq
        have hlt := getAddr_lt e
        rw [haddr] at hlt
        apply absurd hlt (by decide)
      · simp

/-- An allocator with four slots and single free pages. -/
def withPages (addrs : List U64) : Pmem :=
  { Pmem.init 4 with
    btmLevel := { Queue.init 4 with
      queue := fun i => (addrs.map fun addr => buildEntry addr 1).getD i 0
      tail := addrs.length
      entCnt := addrs.length } }

theorem pages_withPages_two :
  pages (withPages [0x1000, 0x2000]).btmLevel = ({1, 2} : Multiset ℕ)
  := by decide

theorem pages_withPages_three :
  pages (withPages [0x1000, 0x2000, 0x4000]).btmLevel = ({1, 2, 4} : Multiset ℕ)
  := by decide

theorem disjointRanges_two :
  DisjointRanges (withPages [0x1000, 0x2000]).btmLevel
  := ⟨⟨by decide, by decide⟩, rfl, by decide⟩

theorem disjointRanges_three :
  DisjointRanges (withPages [0x1000, 0x2000, 0x4000]).btmLevel
  := ⟨⟨by decide, by decide⟩, rfl, by decide⟩

theorem hasRun_two :
  HasRun (withPages [0x1000, 0x2000]).btmLevel 2
  := by
  rw [HasRun, pages_withPages_two]
  refine ⟨1, 2, le_refl 2, by decide, ?_, by decide, ?_⟩
  · intro p hp hp'
    obtain rfl | rfl : p = 1 ∨ p = 2 := by omega
    · decide
    · decide
  · intro p hp
    obtain rfl : p = 0 := by omega
    decide

theorem hasRun_three :
  HasRun (withPages [0x1000, 0x2000, 0x4000]).btmLevel 2
  := by
  rw [HasRun, pages_withPages_three]
  refine ⟨1, 2, le_refl 2, by decide, ?_, by decide, ?_⟩
  · intro p hp hp'
    obtain rfl | rfl : p = 1 ∨ p = 2 := by omega
    · decide
    · decide
  · intro p hp
    obtain rfl : p = 0 := by omega
    decide

/-- Of three free pages the first two are neighbours, and are put together. -/
theorem not_short_three :
  ¬ ∃ s', pageallocAlloc 0 (BitVec.ofNat 64 (2 * 4096)) (withPages [0x1000, 0x2000, 0x4000])
    = .ok (-1) s'
  := by
  rintro ⟨s', hs'⟩
  apply (not_short_iff disjointRanges_three (by decide) hasRun_three 0).mpr _ s' hs'
  right
  have hsorted : byAddr (withPages [0x1000, 0x2000, 0x4000]).btmLevel.live
      = [buildEntry 0x1000 1, buildEntry 0x2000 1, buildEntry 0x4000 1] := by decide
  rw [hsorted]
  use [], ⟨mergeEntries (buildEntry 0x1000 1) (buildEntry 0x2000 1), 2⟩, []
  refine ⟨rfl, by decide, by decide⟩

/-- Two free pages that are neighbours, and nothing else, do not serve a request for two pages. -/
theorem short_two :
  ¬ ∀ (s : Pmem) (n : ℕ) (flags : BitVec 32), DisjointRanges s.btmLevel → 1 ≤ n →
    HasRun s.btmLevel n →
    ∀ s', pageallocAlloc flags (BitVec.ofNat 64 (n * 4096)) s ≠ .ok (-1) s'
  := by
  intro h
  have hsound := disjointRanges_two.sound (by decide)
  obtain ⟨s', hrun⟩ := pageallocAlloc_run hsound (show 2 < 2 ^ 20 by decide) 0
  have hnone : firstLarge 2 (withPages [0x1000, 0x2000]).btmLevel.live = none := by decide
  rw [hnone] at hrun
  apply h _ 2 0 disjointRanges_two (by decide) hasRun_two s' hrun

end PhysMem
