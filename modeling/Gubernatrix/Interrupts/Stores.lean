import Gubernatrix.Interrupts.Passes

/-!
# The stores of the walks over the MADT

What the last three loops of `acpi_intr_init` store, after each prefix of the entries: the second
one fills the arrays that the first has counted for, the third counts the overrides of each IOAPIC,
and the last stores as many of them.
-/

namespace Passes

open Ioapic (U32)
open Acpi (Byte EntryIsaovr select select_lt madtLapicEntryType madtIoapicEntryType
  madtIsaoverEntryType)

/-! ### An array that is filled in order -/

section Filled

variable {α : Type} {f : ℕ → α} {data : ℕ → α} {is : List ℕ} {writes : List Write} {target : Target}
  {count : ℤ}

/-- An array that has `f` of each element of a list, after the next one is stored. -/
theorem update_concat {β ι : Type} [DecidableEq ι] {c : ℕ → ι} (hc : Function.Injective c)
    {array : ι → β} {f : α → β} {xs : List α} (h : ∀ k x, xs[k]? = some x → array (c k) = f x)
    (x : α) {k : ℕ} {y : α} (hy : (xs ++ [x])[k]? = some y) :
  Function.update array (c xs.length) (f x) (c k) = f y
  := by
  rcases Nat.lt_trichotomy k xs.length with hlt | rfl | hgt
  · rw [List.getElem?_append_left hlt] at hy
    rw [Function.update_of_ne (hc.ne hlt.ne), h k y hy]
  · rw [List.getElem?_concat_length] at hy
    rw [Function.update_self, Option.some.inj hy]
  · rw [List.getElem?_eq_none (by rw [List.length_append, List.length_singleton]; omega)] at hy
    cases hy

/-- The first elements of an array are what `f` makes of the offsets `is`, and are stored once, in
their order. -/
structure Filled (f : ℕ → α) (is : List ℕ) (data : ℕ → α) (writes : List Write) (target : Target)
    (count : ℤ) : Prop where
  data : ∀ k i, is[k]? = some i → data k = f i
  writes : writes.filter (·.target = target)
    = (List.range is.length).map fun k => ⟨target, k, count⟩

/-- The next element is stored. -/
theorem Filled.next (h : Filled f is data writes target count) (i : ℕ) :
  Filled f (is ++ [i]) (Function.update data is.length (f i))
    (writes ++ [⟨target, is.length, count⟩]) target count
  := by
  constructor
  · intro k j hj
    exact update_concat Function.injective_id h.data i hj
  · rw [List.filter_append, h.writes, List.length_append, List.length_singleton, List.range_succ,
      List.map_append]
    simp

/-- A store to another array. -/
theorem Filled.other (h : Filled f is data writes target count) {w : Write}
    (hw : w.target ≠ target) :
  Filled f is data (writes ++ [w]) target count
  := by
  constructor
  · exact h.data
  · rw [List.filter_append, h.writes, List.filter_singleton, decide_eq_false hw, cond_false,
      List.append_nil]

/-- The indices that are stored to. -/
theorem Filled.idx (h : Filled f is data writes target count) :
  (writes.filter (·.target = target)).map Write.idx = (List.range is.length).map Nat.cast
  := by
  rw [h.writes, List.map_map]
  rfl

theorem Filled.inside (h : Filled f is data writes target count) (hcount : is.length ≤ count)
    {w : Write} (hw : w ∈ writes) (htarget : w.target = target) :
  0 ≤ w.idx ∧ w.idx < w.count
  := by
  have hmem : w ∈ writes.filter (·.target = target) :=
    List.mem_filter.mpr ⟨hw, by simpa using htarget⟩
  rw [h.writes] at hmem
  obtain ⟨k, hk, rfl⟩ := List.mem_map.mp hmem
  have hlt := List.mem_range.mp hk
  dsimp only
  omega

end Filled

/-! ### Saving the LAPICs and the IOAPICs -/

section Saving

variable {t : Table} {v₀ v : Vars} {is : List ℕ}

/-- After the second loop has come to the entries at the offsets `is`. -/
structure Saved (t : Table) (v₀ : Vars) (is : List ℕ) (v : Vars) : Prop where
  lapicCnt : v.lapicCnt = v₀.lapicCnt
  ioapicCnt : v.ioapicCnt = v₀.ioapicCnt
  lapicRoom : v.lapicRoom = v₀.lapicRoom
  ioapicRoom : v.ioapicRoom = v₀.ioapicRoom
  pos : v.pos = v₀.pos
  lapicIdx : v.lapicIdx = BitVec.ofNat 32 (is.filter (t.type · = madtLapicEntryType)).length
  ioapicIdx : v.ioapicIdx = BitVec.ofNat 32 (is.filter (t.type · = madtIoapicEntryType)).length
  lapics : Filled t.lapic (is.filter (t.type · = madtLapicEntryType)) v.lapicData v.writes .lapic
    v₀.lapicRoom
  ioapics : Filled t.ioapic (is.filter (t.type · = madtIoapicEntryType)) v.ioapicData v.writes
    .ioapic v₀.ioapicRoom
  targets : ∀ w ∈ v.writes, w.target = .lapic ∨ w.target = .ioapic

theorem filter_concat (type : Byte) (is : List ℕ) (i : ℕ) :
  (is ++ [i]).filter (t.type · = type)
    = if t.type i = type then is.filter (t.type · = type) ++ [i] else is.filter (t.type · = type)
  := by
  rw [List.filter_append, List.filter_singleton]
  split
  · next htype => rw [decide_eq_true htype, cond_true]
  · next htype => rw [decide_eq_false htype, cond_false, List.append_nil]

theorem toNat_length_filter {p : ℕ → Bool} (hlength : is.length < 2 ^ 32) :
  (BitVec.ofNat 32 (is.filter p).length).toNat = (is.filter p).length
  := by
  have hle := List.length_filter_le p is
  rw [BitVec.toNat_ofNat, Nat.mod_eq_of_lt (by omega)]

/-- What the second loop does with an entry. -/
theorem Saved.step (h : Saved t v₀ is v) (hlength : is.length < 2 ^ 32) (i : ℕ) :
  Saved t v₀ (is ++ [i]) (saveEntry t v i)
  := by
  have hne : madtLapicEntryType ≠ madtIoapicEntryType := by decide
  have htargets (w : Write) (hw : w.target = .lapic ∨ w.target = .ioapic) :
      ∀ w' ∈ v.writes ++ [w], w'.target = .lapic ∨ w'.target = .ioapic := by
    intro w' hw'
    rcases List.mem_append.mp hw' with hold | hnew
    · apply h.targets w' hold
    · rw [List.mem_singleton.mp hnew]
      exact hw
  rw [saveEntry]
  by_cases hlapic : t.type i = madtLapicEntryType
  · have hioapic : t.type i ≠ madtIoapicEntryType := hlapic ▸ hne
    rw [if_pos hlapic]
    have hidx : v.lapicIdx.toNat = (is.filter (t.type · = madtLapicEntryType)).length := by
      rw [h.lapicIdx, toNat_length_filter hlength]
    constructor
    · exact h.lapicCnt
    · exact h.ioapicCnt
    · exact h.lapicRoom
    · exact h.ioapicRoom
    · exact h.pos
    · rw [filter_concat, if_pos hlapic, List.length_append, BitVec.ofNat_add, ← h.lapicIdx]
      rfl
    · rw [filter_concat, if_neg hioapic]
      exact h.ioapicIdx
    · rw [filter_concat, if_pos hlapic, saveLapic, hidx, h.lapicRoom]
      apply h.lapics.next
    · rw [filter_concat, if_neg hioapic]
      apply h.ioapics.other Target.noConfusion
    · apply htargets _ (.inl rfl)
  · rw [if_neg hlapic]
    by_cases hioapic : t.type i = madtIoapicEntryType
    · rw [if_pos hioapic]
      have hidx : v.ioapicIdx.toNat = (is.filter (t.type · = madtIoapicEntryType)).length := by
        rw [h.ioapicIdx, toNat_length_filter hlength]
      constructor
      · exact h.lapicCnt
      · exact h.ioapicCnt
      · exact h.lapicRoom
      · exact h.ioapicRoom
      · exact h.pos
      · rw [filter_concat, if_neg hlapic]
        exact h.lapicIdx
      · rw [filter_concat, if_pos hioapic, List.length_append, BitVec.ofNat_add, ← h.ioapicIdx]
        rfl
      · rw [filter_concat, if_neg hlapic]
        apply h.lapics.other Target.noConfusion
      · rw [filter_concat, if_pos hioapic, saveIoapic, hidx, h.ioapicRoom]
        apply h.ioapics.next
      · apply htargets _ (.inr rfl)
    · rw [if_neg hioapic]
      constructor
      · exact h.lapicCnt
      · exact h.ioapicCnt
      · exact h.lapicRoom
      · exact h.ioapicRoom
      · exact h.pos
      · rw [filter_concat, if_neg hlapic]
        exact h.lapicIdx
      · rw [filter_concat, if_neg hioapic]
        exact h.ioapicIdx
      · rw [filter_concat, if_neg hlapic]
        exact h.lapics
      · rw [filter_concat, if_neg hioapic]
        exact h.ioapics
      · exact h.targets

/-- What the second loop does. -/
theorem saved (hidx : v₀.lapicIdx = 0) (hidx' : v₀.ioapicIdx = 0) (hwrites : v₀.writes = [])
    (hlength : is.length < 2 ^ 32) :
  Saved t v₀ is (is.foldl (saveEntry t) v₀)
  := by
  induction is using List.reverseRecOn with
  | nil =>
      constructor
      · rfl
      · rfl
      · rfl
      · rfl
      · rfl
      · exact hidx
      · exact hidx'
      · constructor
        · intro k i hi
          cases hi
        · rw [List.foldl_nil, hwrites]
          rfl
      · constructor
        · intro k i hi
          cases hi
        · rw [List.foldl_nil, hwrites]
          rfl
      · rw [List.foldl_nil, hwrites]
        intro w hw
        cases hw
  | append_singleton is i ih =>
      rw [List.length_append, List.length_singleton] at hlength
      rw [List.foldl_append]
      apply (ih (by omega)).step (by omega)

end Saving

/-! ### The overrides -/

section Overrides

variable {t : Table} {junk : Junk} {v₀ v v' : Vars} {is : List ℕ}

/-- An IOAPIC as it was saved, before the overrides. -/
def IoapicInfo.bare (info : IoapicInfo) : IoapicInfo :=
  { info with isaovrCnt := 0, isaovrIdx := 0, isaovrs := none }

/-- What the loops over the overrides do not change. -/
structure Keeps (v v' : Vars) : Prop where
  lapicCnt : v'.lapicCnt = v.lapicCnt
  ioapicCnt : v'.ioapicCnt = v.ioapicCnt
  ioapicRoom : v'.ioapicRoom = v.ioapicRoom
  lapicData : v'.lapicData = v.lapicData
  ioapicData : ∀ k, (v'.ioapicData k).bare = (v.ioapicData k).bare
  lapics : v'.writes.filter (·.target = .lapic) = v.writes.filter (·.target = .lapic)
  ioapics : v'.writes.filter (·.target = .ioapic) = v.writes.filter (·.target = .ioapic)

theorem Keeps.refl (v : Vars) :
  Keeps v v
  := ⟨rfl, rfl, rfl, rfl, fun _ => rfl, rfl, rfl⟩

theorem Keeps.trans {v₁ v₂ v₃ : Vars} (h : Keeps v₁ v₂) (h' : Keeps v₂ v₃) :
  Keeps v₁ v₃
  := by
  constructor
  · rw [h'.lapicCnt, h.lapicCnt]
  · rw [h'.ioapicCnt, h.ioapicCnt]
  · rw [h'.ioapicRoom, h.ioapicRoom]
  · rw [h'.lapicData, h.lapicData]
  · intro k
    rw [h'.ioapicData, h.ioapicData]
  · rw [h'.lapics, h.lapics]
  · rw [h'.ioapics, h.ioapics]

/-- An override belongs to the same IOAPIC all the time. -/
theorem Keeps.owner (h : Keeps v v') (isaovr : EntryIsaovr) :
  owner v' isaovr = owner v isaovr
  := by
  have hbase (k : ℕ) :
      (v'.ioapicData k).globalSysIntBase = (v.ioapicData k).globalSysIntBase := by
    change (v'.ioapicData k).bare.globalSysIntBase = (v.ioapicData k).bare.globalSysIntBase
    rw [h.ioapicData]
  rw [Passes.owner, Passes.owner, h.ioapicCnt]
  simp only [hbase]

theorem keeps_foldl {body : Vars → ℕ → Vars} (hbody : ∀ v i, Keeps v (body v i)) (is : List ℕ)
    (v : Vars) :
  Keeps v (is.foldl body v)
  := by
  induction is generalizing v with
  | nil => exact Keeps.refl v
  | cons i is ih => exact (hbody v i).trans (ih _)

theorem bare_update (data : ℕ → IoapicInfo) {idx : ℕ} {info : IoapicInfo}
    (h : info.bare = (data idx).bare) (k : ℕ) :
  (Function.update data idx info k).bare = (data k).bare
  := by
  by_cases hk : k = idx
  · rw [hk, Function.update_self, h]
  · rw [Function.update_of_ne hk]

theorem keeps_countIsaovr (v : Vars) (i : ℕ) :
  Keeps v (countIsaovr t v i)
  := by
  rw [countIsaovr]
  split
  · constructor
    · rfl
    · rfl
    · rfl
    · rfl
    · apply bare_update
      rfl
    · simp [isaovrCountUpdate]
    · simp [isaovrCountUpdate]
  · apply Keeps.refl

theorem keeps_applyIsaovr (junk : Junk) (v : Vars) (i : ℕ) :
  Keeps v (applyIsaovr t junk v i)
  := by
  rw [applyIsaovr]
  split
  · constructor
    · rfl
    · rfl
    · rfl
    · rfl
    · apply bare_update
      rfl
    · simp [saveIsaovr]
    · simp [saveIsaovr]
  · apply Keeps.refl

/-- The offsets among `is` of the overrides that belong to the IOAPIC with an index. -/
def ownedAt (t : Table) (v : Vars) (is : List ℕ) (k : ℕ) : List ℕ :=
  is.filter fun i => t.type i = madtIsaoverEntryType ∧ owner v (t.isaovr i) = k

/-- How many they are. -/
def owned (t : Table) (v : Vars) (is : List ℕ) (k : ℕ) : ℕ :=
  is.countP fun i => t.type i = madtIsaoverEntryType ∧ owner v (t.isaovr i) = k

theorem length_ownedAt (is : List ℕ) (k : ℕ) :
  (ownedAt t v is k).length = owned t v is k
  := by
  rw [owned, List.countP_eq_length_filter, ownedAt]

theorem ownedAt_concat (is : List ℕ) (i k : ℕ) :
  ownedAt t v (is ++ [i]) k = if t.type i = madtIsaoverEntryType ∧ owner v (t.isaovr i) = k then
    ownedAt t v is k ++ [i] else ownedAt t v is k
  := by
  rw [ownedAt, List.filter_append, List.filter_singleton]
  split
  · next howner => rw [decide_eq_true howner, cond_true, ownedAt]
  · next howner => rw [decide_eq_false howner, cond_false, List.append_nil, ownedAt]

theorem toInt32_owned_nil (k : ℕ) :
  toInt32 (owned t v [] k) = 0
  := by
  rw [owned, List.countP_nil, toInt32_of_lt (Nat.two_pow_pos 31), Nat.cast_zero]

theorem owned_concat (is : List ℕ) (i k : ℕ) :
  owned t v (is ++ [i]) k = owned t v is k
    + if t.type i = madtIsaoverEntryType ∧ owner v (t.isaovr i) = k then 1 else 0
  := by
  rw [owned, List.countP_append, List.countP_singleton]
  simp only [decide_eq_true_eq]
  rfl

theorem owned_mono {is' : List ℕ} (hpre : is <+: is') (k : ℕ) :
  owned t v is k ≤ owned t v is' k
  := hpre.sublist.countP_le

theorem owned_le (k : ℕ) :
  owned t v (offsets t) k ≤ number t madtIsaoverEntryType
  := by
  rw [number, ofType, ← List.countP_eq_length_filter]
  apply List.countP_mono_left
  intro i _ hi
  simp only [decide_eq_true_eq] at hi ⊢
  exact hi.1

/-- There are no more than an `int` counts. -/
theorem toInt32_owned (hnumber : number t madtIsaoverEntryType < 2 ^ 31) (hpre : is <+: offsets t)
    (k : ℕ) :
  toInt32 (owned t v is k) = owned t v is k
  := by
  have hmono := owned_mono (t := t) (v := v) hpre k
  have hle := owned_le (t := t) (v := v) k
  rw [toInt32_of_lt (by omega)]

/-- An override belongs to an IOAPIC that is saved. -/
theorem owner_lt (hcnt : 0 < v.ioapicCnt) (isaovr : EntryIsaovr) :
  (owner v isaovr : ℤ) < v.ioapicCnt
  := by
  have hlt : owner v isaovr < ((List.range v.ioapicCnt.toNat).map fun k =>
      (v.ioapicData k).globalSysIntBase).length := by
    apply select_lt
    intro hnil
    have hlength := congrArg List.length hnil
    rw [List.length_map, List.length_range, List.length_nil] at hlength
    omega
  rw [List.length_map, List.length_range] at hlt
  omega

/-- What a store of a new element does to the stores inside of the arrays. -/
theorem inside_append {ws ws' : List Write} (h : ∀ w ∈ ws, 0 ≤ w.idx ∧ w.idx < w.count)
    (h' : ∀ w ∈ ws', 0 ≤ w.idx ∧ w.idx < w.count) :
  ∀ w ∈ ws ++ ws', 0 ≤ w.idx ∧ w.idx < w.count
  := by
  intro w hw
  rcases List.mem_append.mp hw with hold | hnew
  · apply h w hold
  · apply h' w hnew

/-- After the third loop has come to the entries at the offsets `is`. -/
structure Counted (t : Table) (v₀ : Vars) (is : List ℕ) (v : Vars) : Prop where
  keeps : Keeps v₀ v
  pos : v.pos = v₀.pos
  inside : ∀ w ∈ v.writes, 0 ≤ w.idx ∧ w.idx < w.count
  cnt : ∀ k : ℕ, k < v₀.ioapicCnt → (v.ioapicData k).isaovrCnt = toInt32 (owned t v₀ is k)
  idx : ∀ k : ℕ, k < v₀.ioapicCnt → (v.ioapicData k).isaovrIdx = 0
  isaovrs : ∀ k : ℕ, k < v₀.ioapicCnt → (v.ioapicData k).isaovrs = none

/-- What `isaovr_count_update` does with an IOAPIC. -/
theorem ioapicData_isaovrCountUpdate (v : Vars) (isaovr : EntryIsaovr) (k : ℕ) :
  (isaovrCountUpdate v isaovr).ioapicData k
    = if owner v isaovr = k then
        { v.ioapicData k with isaovrCnt := incr (v.ioapicData k).isaovrCnt }
      else v.ioapicData k
  := by
  rw [isaovrCountUpdate]
  dsimp only
  split
  · next howner => rw [howner, Function.update_self]
  · next howner => rw [Function.update_of_ne (Ne.symm howner)]

/-- What the third loop does with an entry. -/
theorem Counted.step (h : Counted t v₀ is v) (hcnt : 0 < v₀.ioapicCnt)
    (hroom : v₀.ioapicRoom = v₀.ioapicCnt) (i : ℕ) :
  Counted t v₀ (is ++ [i]) (countIsaovr t v i)
  := by
  have hkeeps := h.keeps.trans (keeps_countIsaovr (t := t) v i)
  rw [countIsaovr] at hkeeps ⊢
  by_cases hisaovr : t.type i = madtIsaoverEntryType
  · rw [if_pos hisaovr] at hkeeps ⊢
    constructor
    · exact hkeeps
    · exact h.pos
    · apply inside_append h.inside
      intro w hw
      obtain rfl := List.mem_singleton.mp hw
      dsimp only
      rw [h.keeps.ioapicRoom, hroom, ← h.keeps.ioapicCnt]
      rw [← h.keeps.ioapicCnt] at hcnt
      constructor
      · apply Int.natCast_nonneg
      · apply owner_lt hcnt
    · intro k hk
      rw [ioapicData_isaovrCountUpdate, owned_concat, ← h.keeps.owner]
      split
      · next howner => rw [if_pos ⟨hisaovr, howner⟩, h.cnt k hk, incr_toInt32]
      · next howner => rw [if_neg (fun hand => howner hand.2), h.cnt k hk, Nat.add_zero]
    · intro k hk
      rw [ioapicData_isaovrCountUpdate]
      split
      · exact h.idx k hk
      · exact h.idx k hk
    · intro k hk
      rw [ioapicData_isaovrCountUpdate]
      split
      · exact h.isaovrs k hk
      · exact h.isaovrs k hk
  · rw [if_neg hisaovr]
    constructor
    · exact h.keeps
    · exact h.pos
    · exact h.inside
    · intro k hk
      rw [owned_concat, if_neg (fun hand => hisaovr hand.1), Nat.add_zero]
      apply h.cnt k hk
    · exact h.idx
    · exact h.isaovrs

/-- What the third loop does. -/
theorem counted_isaovrs (hcnt : 0 < v₀.ioapicCnt) (hroom : v₀.ioapicRoom = v₀.ioapicCnt)
    (hstart : Counted t v₀ [] v₀) (is : List ℕ) :
  Counted t v₀ is (is.foldl (countIsaovr t) v₀)
  := by
  induction is using List.reverseRecOn with
  | nil => exact hstart
  | append_singleton is i ih =>
      rw [List.foldl_append]
      apply ih.step hcnt hroom

/-- What is still to be allocated for the overrides, when the last loop has come to the entries at
the offsets `is`. -/
def pending (t : Table) (v : Vars) (is : List ℕ) : ℕ :=
  ∑ k ∈ Finset.range v.ioapicCnt.toNat,
    if owned t v is k = 0 then arrayBytes sizeofIsaovrInfo (owned t v (offsets t) k) else 0

/-- After the last loop has come to the entries at the offsets `is`. -/
structure Applied (t : Table) (v₀ : Vars) (is : List ℕ) (v : Vars) : Prop where
  keeps : Keeps v₀ v
  inside : ∀ w ∈ v.writes, 0 ≤ w.idx ∧ w.idx < w.count
  fits : v.pos.toNat + pending t v₀ is < bootstrapAllocAreaSize.toNat
  cnt : ∀ k : ℕ, k < v₀.ioapicCnt → (v.ioapicData k).isaovrCnt = toInt32 (owned t v₀ (offsets t) k)
  idx : ∀ k : ℕ, k < v₀.ioapicCnt → (v.ioapicData k).isaovrIdx = toInt32 (owned t v₀ is k)
  isaovrs : ∀ k : ℕ, k < v₀.ioapicCnt → ∀ a ∈ (v.ioapicData k).isaovrs,
    a.count = toInt32 (owned t v₀ (offsets t) k)
  none_iff : ∀ k : ℕ, k < v₀.ioapicCnt → ((v.ioapicData k).isaovrs = none ↔ owned t v₀ is k = 0)
  data : ∀ k : ℕ, k < v₀.ioapicCnt → ∀ a ∈ (v.ioapicData k).isaovrs,
    ∀ (p : ℕ) (i : ℕ), (ownedAt t v₀ is k)[p]? = some i → a.data p = (t.isaovr i).info

/-- The array that `save_isaovr` stores to: that of the IOAPIC, or the one that it allocates. -/
def array (junk : Junk) (info : IoapicInfo) : IsaovrArray :=
  info.isaovrs.getD { count := info.isaovrCnt, data := junk.isaovrs }

/-- `save_isaovr`, if there is room for the array. -/
theorem saveIsaovr_eq {v : Vars} {isaovr : EntryIsaovr} {k : ℕ} {pos : U64}
    (howner : owner v isaovr = k)
    (harray : isaovrArray junk v.pos (v.ioapicData k) = (some (array junk (v.ioapicData k)), pos)) :
  saveIsaovr junk v isaovr = { v with
    ioapicData := Function.update v.ioapicData k { v.ioapicData k with
      isaovrIdx := incr (v.ioapicData k).isaovrIdx
      isaovrs := some { array junk (v.ioapicData k) with
        data := Function.update (array junk (v.ioapicData k)).data
          (v.ioapicData k).isaovrIdx isaovr.info } }
    pos := pos
    writes := v.writes ++ [⟨.owner, k, v.ioapicRoom⟩,
      ⟨.isaovr k, (v.ioapicData k).isaovrIdx, (array junk (v.ioapicData k)).count⟩] }
  := by
  rw [saveIsaovr, howner]
  dsimp only
  rw [harray]
  rfl

/-- The array of an IOAPIC is allocated for all of its overrides. -/
theorem Applied.count_array (h : Applied t v₀ is v) {k : ℕ} (hk : k < v₀.ioapicCnt) :
  (array junk (v.ioapicData k)).count = toInt32 (owned t v₀ (offsets t) k)
  := by
  rw [array]
  induction hsome : (v.ioapicData k).isaovrs with
  | none => exact h.cnt k hk
  | some a => exact h.isaovrs k hk a hsome

/-- The array has the overrides that have been stored. -/
theorem Applied.data_array (h : Applied t v₀ is v) {k : ℕ} (hk : k < v₀.ioapicCnt) {p i : ℕ}
    (hi : (ownedAt t v₀ is k)[p]? = some i) :
  (array junk (v.ioapicData k)).data p = (t.isaovr i).info
  := by
  rw [array]
  induction hsome : (v.ioapicData k).isaovrs with
  | none =>
      have hzero := (h.none_iff k hk).mp hsome
      rw [← length_ownedAt, List.length_eq_zero_iff] at hzero
      rw [hzero] at hi
      cases hi
  | some a => exact h.data k hk a hsome p i hi

/-- The index of the next override, and where it belongs. -/
theorem Applied.idx_eq (h : Applied t v₀ is v) (hnumber : number t madtIsaoverEntryType < 2 ^ 31)
    (hpre : is <+: offsets t) {k : ℕ} (hk : k < v₀.ioapicCnt) :
  (v.ioapicData k).isaovrIdx = owned t v₀ is k
  := by
  rw [h.idx k hk, toInt32_owned hnumber hpre]

/-- Once an IOAPIC has an override, its array is allocated. -/
theorem pending_concat {i k : ℕ} (hk : k < v.ioapicCnt)
    (howner : t.type i = madtIsaoverEntryType ∧ owner v (t.isaovr i) = k) :
  pending t v is = pending t v (is ++ [i])
    + if owned t v is k = 0 then arrayBytes sizeofIsaovrInfo (owned t v (offsets t) k) else 0
  := by
  have hmem : k ∈ Finset.range v.ioapicCnt.toNat := by
    rw [Finset.mem_range]
    omega
  have hafter : owned t v (is ++ [i]) k ≠ 0 := by
    rw [owned_concat, if_pos howner]
    apply Nat.succ_ne_zero
  have hothers : ∀ k' ∈ (Finset.range v.ioapicCnt.toNat).erase k,
      owned t v (is ++ [i]) k' = owned t v is k' := by
    intro k' hk'
    rw [owned_concat, if_neg fun hand => Finset.ne_of_mem_erase hk' (hand.2.symm.trans howner.2),
      Nat.add_zero]
  rw [pending, pending, ← Finset.add_sum_erase _ _ hmem, ← Finset.add_sum_erase _ _ hmem,
    if_neg hafter, Nat.zero_add, Nat.add_comm]
  congr 1
  apply Finset.sum_congr rfl
  intro k' hk'
  rw [hothers k' hk']

/-- Another entry takes nothing. -/
theorem pending_other {i : ℕ} (hisaovr : t.type i ≠ madtIsaoverEntryType) :
  pending t v (is ++ [i]) = pending t v is
  := by
  apply Finset.sum_congr rfl
  intro k _
  have hsame : owned t v (is ++ [i]) k = owned t v is k := by
    rw [owned_concat, if_neg fun hand => hisaovr hand.1, Nat.add_zero]
  rw [hsame]

/-- There is room for the array that `save_isaovr` stores to. -/
theorem Applied.isaovrArray_eq (h : Applied t v₀ is v) (junk : Junk)
    (hnumber : number t madtIsaoverEntryType < 2 ^ 31) {i k : ℕ} (hpre : is ++ [i] <+: offsets t)
    (hk : k < v₀.ioapicCnt)
    (howner : t.type i = madtIsaoverEntryType ∧ owner v₀ (t.isaovr i) = k) :
  ∃ pos, isaovrArray junk v.pos (v.ioapicData k) = (some (array junk (v.ioapicData k)), pos)
    ∧ pos.toNat + pending t v₀ (is ++ [i]) < bootstrapAllocAreaSize.toNat
  := by
  have hfits := h.fits
  have hnone := h.none_iff k hk
  rw [pending_concat hk howner] at hfits
  rw [isaovrArray, array]
  induction hsome : (v.ioapicData k).isaovrs with
  | some a =>
      rw [hsome] at hnone
      have hne : owned t v₀ is k ≠ 0 := fun hzero => Option.some_ne_none a (hnone.mpr hzero)
      rw [if_neg hne, Nat.add_zero] at hfits
      exact ⟨v.pos, rfl, hfits⟩
  | none =>
      rw [if_pos (hnone.mp hsome)] at hfits
      have hmono := owned_mono (t := t) (v := v₀) hpre k
      rw [owned_concat, if_pos howner] at hmono
      have hcnt : (v.ioapicData k).isaovrCnt = owned t v₀ (offsets t) k := by
        rw [h.cnt k hk, toInt32_owned hnumber (List.prefix_refl _)]
      obtain ⟨pos, hpos, hmoved⟩ := mallocArray_of_lt
        (by decide : 0 < sizeofIsaovrInfo.toNat) (by omega : 0 < owned t v₀ (offsets t) k)
        (by omega : v.pos.toNat + arrayBytes _ _ < _)
      dsimp only
      rw [hcnt, hpos]
      exact ⟨pos, rfl, by omega⟩

/-- What the last loop does with an entry. -/
theorem Applied.step (h : Applied t v₀ is v) (hcnt : 0 < v₀.ioapicCnt)
    (hroom : v₀.ioapicRoom = v₀.ioapicCnt) (hnumber : number t madtIsaoverEntryType < 2 ^ 31)
    {i : ℕ} (hpre : is ++ [i] <+: offsets t) :
  Applied t v₀ (is ++ [i]) (applyIsaovr t junk v i)
  := by
  have hkeeps := h.keeps.trans (keeps_applyIsaovr (t := t) junk v i)
  rw [applyIsaovr] at hkeeps ⊢
  by_cases hisaovr : t.type i = madtIsaoverEntryType
  · rw [if_pos hisaovr] at hkeeps ⊢
    obtain ⟨k, hk⟩ : ∃ k, owner v₀ (t.isaovr i) = k := ⟨_, rfl⟩
    have hlt : (k : ℤ) < v₀.ioapicCnt := hk ▸ owner_lt hcnt (t.isaovr i)
    have hidx := h.idx_eq hnumber ((List.prefix_append is [i]).trans hpre) hlt
    obtain ⟨pos, harray, hfits⟩ := h.isaovrArray_eq junk hnumber hpre hlt ⟨hisaovr, hk⟩
    rw [saveIsaovr_eq ((h.keeps.owner _).trans hk) harray] at hkeeps ⊢
    constructor
    · exact hkeeps
    · apply inside_append h.inside
      -- the override is one of those that the array is allocated for
      have hconcat : owned t v₀ (is ++ [i]) k = owned t v₀ is k + 1 := by
        rw [owned_concat, if_pos ⟨hisaovr, hk⟩]
      have hmono := owned_mono (t := t) (v := v₀) hpre k
      have hcount : (array junk (v.ioapicData k)).count = owned t v₀ (offsets t) k := by
        rw [h.count_array hlt, toInt32_owned hnumber (List.prefix_refl _)]
      intro w hw
      rcases List.mem_cons.mp hw with rfl | hw
      · dsimp only
        rw [h.keeps.ioapicRoom, hroom]
        omega
      · obtain rfl := List.mem_singleton.mp hw
        dsimp only
        rw [hidx, hcount]
        omega
    · exact hfits
    · intro k' hk'
      dsimp only
      rw [Function.update_apply]
      split
      · next heq => exact heq ▸ h.cnt k hlt
      · exact h.cnt k' hk'
    · intro k' hk'
      dsimp only
      rw [Function.update_apply, owned_concat]
      split
      · next heq => rw [heq, if_pos ⟨hisaovr, hk⟩, h.idx k hlt, incr_toInt32]
      · next hne =>
        rw [if_neg fun hand => hne (hand.2.symm.trans hk), h.idx k' hk', Nat.add_zero]
    · intro k' hk' a ha
      dsimp only at ha
      rw [Function.update_apply] at ha
      split at ha
      · next heq =>
        rw [← Option.some.inj ha, heq]
        apply h.count_array hlt
      · apply h.isaovrs k' hk' a ha
    · intro k' hk'
      dsimp only
      rw [Function.update_apply, owned_concat]
      split
      · next heq =>
        rw [heq, if_pos ⟨hisaovr, hk⟩]
        apply iff_of_false (Option.some_ne_none _) (Nat.succ_ne_zero _)
      · next hne =>
        rw [if_neg fun hand => hne (hand.2.symm.trans hk), Nat.add_zero]
        apply h.none_iff k' hk'
    · intro k' hk' a ha p i' hi'
      dsimp only at ha
      rw [Function.update_apply] at ha
      rw [ownedAt_concat] at hi'
      split at ha
      · next heq =>
        rw [← length_ownedAt] at hidx
        rw [heq, if_pos ⟨hisaovr, hk⟩] at hi'
        rw [← Option.some.inj ha]
        dsimp only
        rw [hidx]
        exact update_concat Nat.cast_injective (f := fun i => (t.isaovr i).info)
          (fun _ _ hj => h.data_array hlt hj) i hi'
      · next hne =>
        rw [if_neg fun hand => hne (hand.2.symm.trans hk)] at hi'
        apply h.data k' hk' a ha p i' hi'
  · rw [if_neg hisaovr]
    constructor
    · exact h.keeps
    · exact h.inside
    · rw [pending_other hisaovr]
      exact h.fits
    · exact h.cnt
    · intro k hk
      rw [owned_concat, if_neg (fun hand => hisaovr hand.1), Nat.add_zero]
      apply h.idx k hk
    · exact h.isaovrs
    · intro k hk
      rw [owned_concat, if_neg (fun hand => hisaovr hand.1), Nat.add_zero]
      apply h.none_iff k hk
    · intro k hk a ha p i' hi'
      rw [ownedAt_concat, if_neg (fun hand => hisaovr hand.1)] at hi'
      apply h.data k hk a ha p i' hi'

/-- What the last loop does. -/
theorem applied (hcnt : 0 < v₀.ioapicCnt) (hroom : v₀.ioapicRoom = v₀.ioapicCnt)
    (hnumber : number t madtIsaoverEntryType < 2 ^ 31)
    (hstart : Applied t v₀ [] v) (hpre : is <+: offsets t) :
  Applied t v₀ is (is.foldl (applyIsaovr t junk) v)
  := by
  induction is using List.reverseRecOn with
  | nil => exact hstart
  | append_singleton is i ih =>
      rw [List.foldl_append]
      apply (ih ((List.prefix_append is [i]).trans hpre)).step hcnt hroom hnumber hpre

end Overrides

/-! ### All loops -/

section All

variable {t : Table}

variable {pos : U64}

/-- The variables when there was room for both arrays. -/
structure Allocated (t : Table) (pos : U64) (v : Vars) : Prop where
  lapicCnt : v.lapicCnt = number t madtLapicEntryType
  ioapicCnt : v.ioapicCnt = number t madtIoapicEntryType
  lapicRoom : v.lapicRoom = number t madtLapicEntryType
  ioapicRoom : v.ioapicRoom = number t madtIoapicEntryType
  pos : v.pos.toNat = pos.toNat + arrayBytes sizeofLapicInfo (number t madtLapicEntryType)
    + arrayBytes sizeofIoapicInfo (number t madtIoapicEntryType)

/-- An array that fits has no more elements than an `int` counts. -/
theorem lt_of_arrayBytes_lt {size : U64} {n : ℕ} (hsize : 0 < size.toNat)
    (hlt : arrayBytes size n < bootstrapAllocAreaSize.toNat) :
  n < 2 ^ 31
  := by
  have harea : bootstrapAllocAreaSize.toNat = 2 ^ 27 := rfl
  have hle : n ≤ size.toNat * n := Nat.le_mul_of_pos_left n hsize
  rw [arrayBytes] at hlt
  omega

theorem Fits.allocated (hfits : Fits t pos) (junk : Junk) :
  Allocated t pos (allocated t pos junk)
  := by
  rw [Fits] at hfits
  have hlapics : number t madtLapicEntryType < 2 ^ 31 :=
    lt_of_arrayBytes_lt (by decide : 0 < sizeofLapicInfo.toNat) (by omega)
  have hioapics : number t madtIoapicEntryType < 2 ^ 31 :=
    lt_of_arrayBytes_lt (by decide : 0 < sizeofIoapicInfo.toNat) (by omega)
  rw [Passes.allocated, counted, allocate, toInt32_of_lt hlapics, toInt32_of_lt hioapics]
  dsimp only [start]
  obtain ⟨hroom, hpos⟩ := room_of_lt (by decide : 0 < sizeofLapicInfo.toNat)
    (by omega : pos.toNat + arrayBytes _ (number t madtLapicEntryType) < _)
  generalize (mallocArray pos sizeofLapicInfo (number t madtLapicEntryType)).getD pos = pos' at hpos
  obtain ⟨hroom', hpos'⟩ := room_of_lt (by decide : 0 < sizeofIoapicInfo.toNat)
    (by omega : pos'.toNat + arrayBytes _ (number t madtIoapicEntryType) < _)
  exact ⟨rfl, rfl, hroom, hroom', by rw [hpos', hpos]⟩

/-- What the first two loops do. -/
theorem saved_allocated (t : Table) (pos : U64) (junk : Junk) :
  Saved t (allocated t pos junk) (offsets t) (filled t pos junk)
  := by
  have hstart : (allocated t pos junk).lapicIdx = 0 ∧ (allocated t pos junk).ioapicIdx = 0
      ∧ (allocated t pos junk).writes = [] := by
    rw [allocated, counted]
    exact ⟨rfl, rfl, rfl⟩
  apply saved hstart.1 hstart.2.1 hstart.2.2
  have hle := length_offsetsFrom (t := t) t.len.toNat 0
  have hlt := t.len.isLt
  rw [offsets]
  omega

/-- What the other two loops leave as the second has stored it. -/
theorem keeps_finish (t : Table) (pos : U64) (junk : Junk) :
  Keeps (filled t pos junk) (finish t pos junk)
  := by
  apply Keeps.trans (keeps_foldl (keeps_countIsaovr (t := t)) (offsets t) _)
  apply keeps_foldl (keeps_applyIsaovr junk)

/-- Entries that end inside of the table do not wrap around. -/
theorem noWrap_of_le (h : ∀ i ∈ offsets t, i + entryBytes t i ≤ t.len.toNat) :
  NoWrap t
  := by
  intro i hi
  have hle := h i hi
  have hlt := t.len.isLt
  omega

/-- An array that has `f` of each element of a list. -/
theorem map_range_eq {α β : Type} (f : α → β) {l : List α} {data : ℕ → β}
    (h : ∀ (k : ℕ) (x : α), l[k]? = some x → data k = f x) :
  (List.range l.length).map data = l.map f
  := by
  apply List.ext_getElem?
  intro k
  rw [List.getElem?_map, List.getElem?_map]
  by_cases hk : k < l.length
  · rw [List.getElem?_range hk, List.getElem?_eq_getElem hk, Option.map_some, Option.map_some,
      h k _ (List.getElem?_eq_getElem hk)]
  · rw [List.getElem?_eq_none (by rw [List.length_range]; omega), List.getElem?_eq_none (by omega)]
    rfl

/-- The IOAPIC that an override belongs to is found among those that were saved. -/
theorem owner_filled (hfits : Fits t pos) (junk : Junk) (i : ℕ) :
  owner (filled t pos junk) (t.isaovr i) = ownerOf t i
  := by
  have hsaved := saved_allocated t pos junk
  rw [owner, hsaved.ioapicCnt, (hfits.allocated junk).ioapicCnt, Int.toNat_natCast, number,
    map_range_eq fun i => (t.ioapic i).globalSysIntBase]
  · rfl
  · intro k i hi
    rw [hsaved.ioapics.data k i hi]

theorem owned_filled (hfits : Fits t pos) (junk : Junk) (k : ℕ) :
  owned t (filled t pos junk) (offsets t) k = overridesOf t k
  := by
  rw [owned, overridesOf, ofType, List.countP_filter]
  simp only [owner_filled hfits junk, Bool.decide_and, Bool.and_comm]

/-- When the third loop begins, no IOAPIC has overrides. -/
theorem counted_filled (hfits : Fits t pos) (junk : Junk) :
  Counted t (filled t pos junk) [] (filled t pos junk)
  := by
  have hsaved := saved_allocated t pos junk
  have halloc := hfits.allocated junk
  have hbare (k : ℕ) (hk : k < (filled t pos junk).ioapicCnt) :
      (filled t pos junk).ioapicData k = ((filled t pos junk).ioapicData k).bare := by
    have hlt : k < ((offsets t).filter (t.type · = madtIoapicEntryType)).length := by
      rw [hsaved.ioapicCnt, halloc.ioapicCnt] at hk
      apply Int.ofNat_lt.mp hk
    rw [hsaved.ioapics.data k _ (List.getElem?_eq_getElem hlt)]
    rfl
  constructor
  · apply Keeps.refl
  · rfl
  · intro w hw
    rcases hsaved.targets w hw with htarget | htarget
    · apply hsaved.lapics.inside halloc.lapicRoom.ge hw htarget
    · apply hsaved.ioapics.inside halloc.ioapicRoom.ge hw htarget
  · intro k hk
    rw [hbare k hk, toInt32_owned_nil]
    rfl
  · intro k hk
    rw [hbare k hk]
    rfl
  · intro k hk
    rw [hbare k hk]
    rfl

/-- What is left of the area is enough for the overrides. -/
theorem pending_filled (hfits : Fits t pos) (junk : Junk) :
  (filled t pos junk).pos.toNat + pending t (filled t pos junk) []
    < bootstrapAllocAreaSize.toNat
  := by
  have hsaved := saved_allocated t pos junk
  have halloc := hfits.allocated junk
  have hpending : pending t (filled t pos junk) []
      = ∑ k ∈ Finset.range (number t madtIoapicEntryType),
        arrayBytes sizeofIsaovrInfo (overridesOf t k) := by
    rw [pending, hsaved.ioapicCnt, halloc.ioapicCnt, Int.toNat_natCast]
    apply Finset.sum_congr rfl
    intro k _
    rw [owned, List.countP_nil, if_pos rfl, owned_filled hfits]
  rw [hpending, hsaved.pos, halloc.pos]
  exact hfits

/-- After the last loop each IOAPIC has its overrides. -/
theorem applied_finish (hinside : Inside t) (hfits : Fits t pos) (junk : Junk) :
  Applied t (filled t pos junk) (offsets t) (finish t pos junk)
  := by
  have hne : madtIsaoverEntryType ≠ madtIoapicEntryType := by decide
  have hsaved := saved_allocated t pos junk
  have halloc := hfits.allocated junk
  have hpos : 0 < (filled t pos junk).ioapicCnt := by
    rw [hsaved.ioapicCnt, halloc.ioapicCnt]
    apply Int.natCast_pos.mpr (List.length_pos_iff.mpr hinside.ioapic)
  have hroom : (filled t pos junk).ioapicRoom = (filled t pos junk).ioapicCnt := by
    rw [hsaved.ioapicRoom, hsaved.ioapicCnt, halloc.ioapicRoom, halloc.ioapicCnt]
  have hcounted := counted_isaovrs hpos hroom (counted_filled hfits junk) (offsets t)
  apply applied hpos hroom (number_lt hne hinside.length) _ (List.prefix_refl _)
  constructor
  · exact hcounted.keeps
  · exact hcounted.inside
  · rw [hcounted.pos]
    exact pending_filled hfits junk
  · exact hcounted.cnt
  · intro k hk
    rw [hcounted.idx k hk, toInt32_owned_nil]
  · intro k hk a ha
    rw [hcounted.isaovrs k hk] at ha
    cases ha
  · intro k hk
    apply iff_of_true (hcounted.isaovrs k hk)
    rw [owned, List.countP_nil]
  · intro k hk a ha
    rw [hcounted.isaovrs k hk] at ha
    cases ha

/-- Where there is room for the arrays and no offset wraps around, `acpi_intr_init` initializes
everything. -/
theorem initializes (hinside : Inside t) (hwrap : NoWrap t) (hfits : Fits t pos) :
  Initializes t pos
  := by
  intro junk
  refine ⟨_, _, acpiIntrInit_eq hwrap pos junk, ?_⟩
  have halloc := hfits.allocated junk
  have hsaved := saved_allocated t pos junk
  have hkeeps := keeps_finish t pos junk
  have happlied := applied_finish hinside hfits junk
  constructor
  · rfl
  · rfl
  · rfl
  · exact happlied.inside
  · dsimp only
    rw [hkeeps.lapics, hsaved.lapics.idx, hkeeps.lapicCnt, hsaved.lapicCnt, halloc.lapicCnt,
      Int.toNat_natCast]
    rfl
  · dsimp only
    rw [hkeeps.ioapics, hsaved.ioapics.idx, hkeeps.ioapicCnt, hsaved.ioapicCnt, halloc.ioapicCnt,
      Int.toNat_natCast]
    rfl
  · intro k i hi
    rw [hkeeps.lapicData]
    apply hsaved.lapics.data k i hi
  · intro k i hi
    apply Eq.trans (hkeeps.ioapicData k)
    rw [hsaved.ioapics.data k i hi]
    rfl
  · intro k hk
    rw [happlied.keeps.ioapicCnt] at hk
    rw [happlied.idx k hk, happlied.cnt k hk]

/-- A table with an IOAPIC and an override of its interrupt 2. -/
def smallTable : Table where
  length := 66
  entries i := [1, 12, 0, 0, 0, 0, 0xc0, 0xfe, 0, 0, 0, 0, 2, 10, 0, 0, 2].getD i 0

theorem initializes_smallTable :
  Initializes smallTable 0
  := by
  apply initializes
  · constructor
    · decide
    · decide
    · decide
  · unfold NoWrap
    decide
  · unfold Fits
    decide

/-! ### More IOAPICs than there is room for -/

/-- A table with 2 ^ 22 IOAPICs: each takes one byte, and the last of them 12. -/
def manyIoapics : Table where
  length := 0x400037
  entries i := if i = 2 ^ 22 then 12 else 1

theorem len_manyIoapics :
  manyIoapics.len.toNat = 2 ^ 22 + 11
  := rfl

theorem entryBytes_manyIoapics (i : ℕ) :
  entryBytes manyIoapics i = if i + 1 = 2 ^ 22 then 12 else 1
  := by
  rw [entryBytes, manyIoapics]
  dsimp only
  split
  · rfl
  · rfl

theorem type_manyIoapics {i : ℕ} (hi : i < 2 ^ 22) :
  manyIoapics.type i = madtIoapicEntryType
  := by
  rw [Table.type, manyIoapics]
  dsimp only
  rw [if_neg hi.ne]
  rfl

theorem offsetsFrom_manyIoapics {n i : ℕ} (hi : i < 2 ^ 22) (hn : 2 ^ 22 ≤ n + i) :
  offsetsFrom manyIoapics n i = List.range' i (2 ^ 22 - i)
  := by
  induction n generalizing i with
  | zero => omega
  | succ n ih =>
      have hsucc : 2 ^ 22 - i = 2 ^ 22 - (i + 1) + 1 := by omega
      rw [offsetsFrom, if_pos (by rw [len_manyIoapics]; omega), entryBytes_manyIoapics, hsucc,
        List.range'_succ]
      split
      case isTrue hlast =>
        rw [hlast, Nat.sub_self]
        cases n with
        | zero => rfl
        | succ n => rw [offsetsFrom, if_neg (by rw [len_manyIoapics]; omega)]; rfl
      case isFalse hmore => rw [ih (by omega) (by omega)]

theorem offsets_manyIoapics :
  offsets manyIoapics = List.range' 0 (2 ^ 22)
  := by
  rw [offsets, offsetsFrom_manyIoapics (Nat.two_pow_pos 22) (by rw [len_manyIoapics]; omega),
    Nat.sub_zero]

theorem ofType_manyIoapics :
  ofType manyIoapics madtIoapicEntryType = offsets manyIoapics
  := by
  rw [ofType, List.filter_eq_self]
  intro i hi
  rw [offsets_manyIoapics] at hi
  have hlt := (List.mem_range'_1.mp hi).2
  rw [Nat.zero_add] at hlt
  rw [decide_eq_true_eq, type_manyIoapics hlt]

theorem mem_offsets_manyIoapics {i : ℕ} :
  i ∈ offsets manyIoapics ↔ i < 2 ^ 22
  := by
  rw [offsets_manyIoapics, List.mem_range'_1, Nat.zero_add]
  apply and_iff_right (Nat.zero_le i)

/-- No entry reaches beyond the end of the table. -/
theorem le_len_manyIoapics {i : ℕ} (hi : i ∈ offsets manyIoapics) :
  i + entryBytes manyIoapics i ≤ manyIoapics.len.toNat
  := by
  rw [mem_offsets_manyIoapics] at hi
  rw [entryBytes_manyIoapics, len_manyIoapics]
  split
  · omega
  · omega

theorem inside_manyIoapics :
  Inside manyIoapics
  := by
  constructor
  · decide
  · intro i hi
    rw [mem_offsets_manyIoapics] at hi
    have hne : madtIoapicEntryType ≠ madtLapicEntryType := by decide
    rw [bytesRead, type_manyIoapics hi, if_neg hne, if_pos rfl, len_manyIoapics]
    omega
  · rw [ofType_manyIoapics]
    apply List.ne_nil_of_mem (mem_offsets_manyIoapics.mpr (Nat.two_pow_pos 22))

/-- `malloc` returns `NULL` for the array of the IOAPICs, also when the area is still empty. -/
theorem ioapicRoom_manyIoapics (junk : Junk) :
  (allocated manyIoapics 0 junk).ioapicRoom = 0
  := by
  have hnumber : number manyIoapics madtIoapicEntryType = 2 ^ 22 := by
    rw [number, ofType_manyIoapics, offsets_manyIoapics, List.length_range']
  have hlapics : number manyIoapics madtLapicEntryType = 0 := by
    rw [number, ofType, List.length_eq_zero_iff, List.filter_eq_nil_iff]
    intro i hi
    rw [type_manyIoapics (mem_offsets_manyIoapics.mp hi)]
    decide
  have hroom : room 0 sizeofIoapicInfo (2 ^ 22) = 0 := by decide
  rw [allocated, counted, hnumber, hlapics, toInt32_of_lt (by omega : 2 ^ 22 < 2 ^ 31)]
  rw [allocate]
  dsimp only [start]
  rw [toInt32_of_lt (Nat.two_pow_pos 31), Nat.cast_zero, mallocArray_zero, Nat.cast_pow]
  exact hroom

/-- The first IOAPIC is stored at `NULL`. -/
theorem not_initializes_manyIoapics :
  ¬ Initializes manyIoapics 0
  := by
  intro hinit
  have hwrap : NoWrap manyIoapics := noWrap_of_le fun i hi => le_len_manyIoapics hi
  have junk : Junk := ⟨fun _ => ⟨0, 0⟩, manyIoapics.ioapic, fun _ => (manyIoapics.isaovr 0).info⟩
  obtain ⟨n, r, hr, hgood⟩ := hinit junk
  obtain rfl := acpiIntrInit_of_some hwrap hr
  have hsaved := saved_allocated manyIoapics 0 junk
  have hzero : (⟨.ioapic, (0 : ℕ), (allocated manyIoapics 0 junk).ioapicRoom⟩ : Write)
      ∈ (finish manyIoapics 0 junk).writes.filter (·.target = .ioapic) := by
    rw [(keeps_finish manyIoapics 0 junk).ioapics, hsaved.ioapics.writes]
    apply List.mem_map.mpr
    use 0, List.mem_range.mpr (List.length_pos_iff.mpr inside_manyIoapics.ioapic)
  have hlt := (hgood.inside _ (List.mem_filter.mp hzero).1).2
  dsimp only at hlt
  rw [ioapicRoom_manyIoapics] at hlt
  omega

end All

/-! ### An offset that wraps around -/

/-- A table whose last entry takes bytes up to the end of the address space: the offset after it is
0. -/
def circular : Table where
  length := 0xffffffff
  entries i := if i = 1 then 1 else 255

theorem len_circular :
  circular.len.toNat = 2 ^ 32 - 45
  := rfl

theorem entryBytes_circular (i : ℕ) :
  entryBytes circular i = if i = 0 then 1 else 255
  := by
  have hsize : circular.entries (i + 1) = if i = 0 then 1 else 255 := by simp [circular]
  rw [entryBytes, hsize]
  by_cases hi : i = 0
  · rw [if_pos hi, if_pos hi]
    rfl
  · rw [if_neg hi, if_neg hi]
    rfl

/-- Where the entries are. -/
def OnCircle (i : ℕ) : Prop := i = 0 ∨ i % 255 = 1

theorem onCircle_of_mem {n i j : ℕ} (hi : OnCircle i) (hj : j ∈ offsetsFrom circular n i) :
  OnCircle j
  := by
  induction n generalizing i with
  | zero => cases hj
  | succ n ih =>
      rw [offsetsFrom] at hj
      split at hj
      · rcases List.mem_cons.mp hj with rfl | hj
        · exact hi
        · apply ih _ hj
          rw [OnCircle, entryBytes_circular]
          rw [OnCircle] at hi
          split
          · omega
          · omega
      · cases hj

theorem inside_circular :
  Inside circular
  := by
  constructor
  · decide
  · intro i hi
    have hon := onCircle_of_mem (.inl rfl) hi
    have hlt := lt_of_mem_offsetsFrom hi
    rw [len_circular] at hlt ⊢
    have hle : bytesRead circular i ≤ 12 := by
      rw [bytesRead]
      split
      · omega
      · split
        · omega
        · split
          · omega
          · omega
    rw [OnCircle] at hon
    omega
  · have hmem : 1 ∈ offsets circular := by
      have hlen : circular.len.toNat = 2 ^ 32 - 47 + 1 + 1 := rfl
      rw [offsets, hlen, offsetsFrom, if_pos (by rw [len_circular]; omega), entryBytes_circular,
        if_pos rfl, offsetsFrom, if_pos (by rw [len_circular]; omega)]
      apply List.mem_cons_of_mem _ (List.mem_cons_self ..)
    have htype : circular.type 1 = madtIoapicEntryType := rfl
    apply List.ne_nil_of_mem (List.mem_filter.mpr ⟨hmem, by rw [decide_eq_true htype]⟩)

/-- The loops do not end. -/
theorem loop_circular {body : Vars → ℕ → Vars} {v : Vars} {n i : ℕ} (hi : OnCircle i)
    (hlt : i < circular.len.toNat) :
  loop circular body n (BitVec.ofNat 32 i) v = none
  := by
  induction n generalizing i v with
  | zero => rfl
  | succ n ih =>
      rw [len_circular] at hlt
      have htoNat : (BitVec.ofNat 32 i).toNat = i := by
        rw [BitVec.toNat_ofNat, Nat.mod_eq_of_lt (by omega)]
      have hcond : BitVec.ofNat 32 i < circular.len := by
        rw [BitVec.lt_def, htoNat, len_circular]
        exact hlt
      rw [loop, if_pos hcond, htoNat]
      dsimp only
      rw [next_eq, entryBytes_circular, Option.map_eq_none_iff]
      rcases hi with rfl | hi
      · rw [if_pos rfl]
        apply ih (.inr rfl)
        rw [len_circular]
        omega
      · rw [if_neg (by omega : i ≠ 0)]
        by_cases hlast : i = 2 ^ 32 - 255
        · rw [hlast]
          apply ih (.inl rfl)
          rw [len_circular]
          omega
        · apply ih
          · right
            omega
          · rw [len_circular]
            omega

theorem not_initializes_circular :
  ¬ Initializes circular 0
  := by
  intro hinit
  have junk : Junk := ⟨fun _ => ⟨0, 0⟩, circular.ioapic, fun _ => (circular.isaovr 0).info⟩
  obtain ⟨n, r, hr, -⟩ := hinit junk
  have hloop : loop circular (countEntry circular) n 0 (start 0 junk) = none := by
    apply loop_circular (.inl rfl)
    rw [len_circular]
    omega
  rw [acpiIntrInit, hloop] at hr
  cases hr

/-- There is no room for the IOAPICs, though no entry reaches beyond the end of its table and
nothing was allocated before; and the loops do not end for a table that reaches up to the end of the address
space. -/
theorem overflows :
  (Inside manyIoapics
      ∧ (∀ i ∈ offsets manyIoapics, i + entryBytes manyIoapics i ≤ manyIoapics.len.toNat)
      ∧ ¬ Initializes manyIoapics 0)
    ∧ (Inside circular ∧ ¬ Initializes circular 0)
  := by
  constructor
  · constructor
    · exact inside_manyIoapics
    · constructor
      · intro i hi
        apply le_len_manyIoapics hi
      · exact not_initializes_manyIoapics
  · constructor
    · exact inside_circular
    · exact not_initializes_circular

end Passes
