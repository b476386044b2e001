import Gubernatrix.VirtMem.Entry

/-!
# Installing pages

What a request to map comes to, tables left out: pages are put one after the other where
nothing is in the way. `PageMap` says what a walk finds on each path. A page goes to a path
below which nothing is found (`put`). Where a large page with address zero lies above the path,
that page goes first (`replace`). Where anything else is in the way, the request ends (`taken`).
-/

namespace VirtMem

/-- The entry that a walk on each path finds, with its level. -/
abbrev PageMap := List ℕ → Option (ℕ × U64)

/-- A page that a request asks for: the path to its entry, and the addresses at which the
request has it. -/
structure Page where
  path : List ℕ
  virt : U64
  phys : U64

/-- The level of the entry. -/
def Page.level (d : Page) : ℕ := d.path.length - 1

/-- The entry that `vmem_map_st` writes for the page. -/
def Page.entry (d : Page) (perms : BitVec 32) : U64 := leafEntry d.phys perms d.level

namespace PageMap

variable (M : PageMap)

/-- Nothing is found at the path and below. -/
def Free (path : List ℕ) : Prop := ∀ p, path <+: p → M p = none

/-- The map with the page at its path. -/
def put (perms : BitVec 32) (d : Page) : PageMap :=
  fun p => if d.path <+: p then some (d.level, d.entry perms) else M p

/-- The map with nothing at the path and below. -/
def clear (path : List ℕ) : PageMap := fun p => if path <+: p then none else M p

/-- A large page with address zero lies above the path, at level `k`. -/
def ZeroAbove (path : List ℕ) (k : ℕ) : Prop :=
  ∃ e, M path = some (k, e) ∧ k + 1 < path.length ∧ e &&& addrMask = 0

end PageMap

open PageMap

/-- `Install perms M ds M' ok`: the pages `ds` are installed one after the other from `M` on,
until `M'`, where either all of them are there or one was in the way. -/
inductive Install (perms : BitVec 32) : PageMap → List Page → PageMap → Bool → Prop where
  | nil {M : PageMap} : Install perms M [] M true
  | put {M M' : PageMap} {d : Page} {ds : List Page} {ok : Bool} :
      M.Free d.path → Install perms (M.put perms d) ds M' ok → Install perms M (d :: ds) M' ok
  | replace {M M' : PageMap} {d : Page} {ds : List Page} {k : ℕ} {ok : Bool} :
      M.ZeroAbove d.path k →
      Install perms ((M.clear (d.path.take (k + 1))).put perms d) ds M' ok →
      Install perms M (d :: ds) M' ok
  | taken {M : PageMap} {d : Page} {ds : List Page} :
      ¬ M.Free d.path → (∀ k, ¬ M.ZeroAbove d.path k) → Install perms M (d :: ds) M false

variable {perms : BitVec 32} {M M' M'' : PageMap} {d : Page} {ds ds' : List Page} {ok : Bool}

namespace PageMap

theorem put_of_below {p : List ℕ} (h : d.path <+: p) :
  M.put perms d p = some (d.level, d.entry perms)
  := if_pos h

theorem put_of_not_below {p : List ℕ} (h : ¬ d.path <+: p) :
  M.put perms d p = M p
  := if_neg h

theorem Free.mono {path path' : List ℕ} (h : M.Free path) (hpre : path <+: path') :
  M.Free path'
  := fun p hp => h p (hpre.trans hp)

theorem free_clear {path path' : List ℕ} (hpre : path <+: path') :
  (M.clear path).Free path'
  := fun _ hp => if_pos (hpre.trans hp)

theorem ZeroAbove.not_free {path : List ℕ} {k : ℕ} (h : M.ZeroAbove path k) :
  ¬ M.Free path
  := by
  obtain ⟨e, he, -⟩ := h
  intro hfree
  rw [hfree path (List.prefix_refl _)] at he
  cases he

end PageMap

theorem Install.append (h : Install perms M ds M' true) (h' : Install perms M' ds' M'' ok) :
  Install perms M (ds ++ ds') M'' ok
  := by
  generalize htrue : true = b at h
  induction h with
  | nil => exact h'
  | put hfree _ ih => exact .put hfree (ih h' htrue)
  | replace hzero _ ih => exact .replace hzero (ih h' htrue)
  | taken => cases htrue

theorem Install.append_stop (h : Install perms M ds M' false) (ds' : List Page) :
  Install perms M (ds ++ ds') M' false
  := by
  generalize hfalse : false = b at h
  induction h with
  | nil => cases hfalse
  | put hfree _ ih => exact .put hfree (ih hfalse)
  | replace hzero _ ih => exact .replace hzero (ih hfalse)
  | taken htaken hzero => exact .taken htaken hzero

/-- To install below a large page with address zero is to install where it has been
cleared. -/
theorem Install.of_clear {k : ℕ} (hzero : M.ZeroAbove d.path k)
    (h : Install perms (M.clear (d.path.take (k + 1))) (d :: ds) M' ok) :
  Install perms M (d :: ds) M' ok
  := by
  have hfree : (M.clear (d.path.take (k + 1))).Free d.path := free_clear (List.take_prefix _ _)
  cases h with
  | put _ hrest => exact .replace hzero hrest
  | replace hzero' => exact absurd hfree hzero'.not_free
  | taken htaken => exact absurd hfree htaken

/-- Something is found at the path of some page afterwards, or below. -/
theorem Install.found (h : Install perms M ds M' ok) (hne : ds ≠ []) :
  ∃ d ∈ ds, ∃ p, d.path <+: p ∧ M' p ≠ none
  := by
  have hlater {M M' : PageMap} {d : Page} {ds : List Page} {ok : Bool}
      (hrest : Install perms (M.put perms d) ds M' ok)
      (ih : ds ≠ [] → ∃ d ∈ ds, ∃ p, d.path <+: p ∧ M' p ≠ none) :
      ∃ d' ∈ d :: ds, ∃ p, d'.path <+: p ∧ M' p ≠ none := by
    cases ds with
    | nil =>
        cases hrest
        refine ⟨d, List.mem_cons_self .., d.path, List.prefix_refl _, ?_⟩
        rw [put_of_below (List.prefix_refl _)]
        exact Option.some_ne_none _
    | cons d' ds =>
        obtain ⟨d'', hd'', hfound⟩ := ih (List.cons_ne_nil _ _)
        exact ⟨d'', List.mem_cons_of_mem _ hd'', hfound⟩
  induction h with
  | nil => exact absurd rfl hne
  | put _ hrest ih => exact hlater hrest ih
  | replace _ hrest ih => exact hlater hrest ih
  | @taken M d ds htaken =>
      simp only [PageMap.Free, not_forall] at htaken
      obtain ⟨p, hp, hfound⟩ := htaken
      exact ⟨d, List.mem_cons_self .., p, hp, hfound⟩

/-! ### Pages apart -/

/-- Neither of the pages is below the other. -/
def Apart (d d' : Page) : Prop := ¬ d.path <+: d'.path ∧ ¬ d'.path <+: d.path

theorem Apart.not_both {d' : Page} (h : Apart d d') {p : List ℕ} (hd : d.path <+: p) :
  ¬ d'.path <+: p
  := by
  intro hd'
  rcases List.prefix_or_prefix_of_prefix hd hd' with hpre | hpre
  · exact h.1 hpre
  · exact h.2 hpre

/-- Pages that are apart, each where nothing is in the way, are all installed, and nothing else
changes. -/
theorem Install.of_free (h : Install perms M ds M' ok) (hfree : ∀ d ∈ ds, M.Free d.path)
    (hapart : ds.Pairwise Apart) :
  ok = true ∧ (∀ d ∈ ds, ∀ p, d.path <+: p → M' p = some (d.level, d.entry perms))
    ∧ ∀ p, (∀ d ∈ ds, ¬ d.path <+: p) → M' p = M p
  := by
  induction h with
  | nil => simp
  | @put M M' d ds ok _ _ ih =>
      rw [List.pairwise_cons] at hapart
      obtain ⟨hhead, htail⟩ := hapart
      have hfree' : ∀ d' ∈ ds, (M.put perms d).Free d'.path := by
        intro d' hd' p hp
        rw [put_of_not_below fun hd => (hhead d' hd').not_both hd hp]
        exact hfree d' (List.mem_cons_of_mem _ hd') p hp
      obtain ⟨rfl, hpages, hrest⟩ := ih hfree' htail
      refine ⟨rfl, ?_, ?_⟩
      · intro d' hd' p hp
        rcases List.mem_cons.mp hd' with rfl | hd'
        · rw [hrest p fun d'' hd'' => (hhead d'' hd'').not_both hp, put_of_below hp]
        · exact hpages d' hd' p hp
      · intro p hp
        rw [hrest p fun d' hd' => hp d' (List.mem_cons_of_mem _ hd'),
          put_of_not_below (hp d (List.mem_cons_self ..))]
  | @replace M M' d ds k ok hzero =>
      exact absurd (hfree d (List.mem_cons_self ..)) hzero.not_free
  | @taken M d ds htaken =>
      exact absurd (hfree d (List.mem_cons_self ..)) htaken

/-- What is found afterwards was found before, or is a page of the request. -/
theorem Install.eq_or (h : Install perms M ds M' ok) (p : List ℕ) :
  M' p = M p ∨ M' p = none ∨ ∃ d ∈ ds, d.path <+: p ∧ M' p = some (d.level, d.entry perms)
  := by
  have hlater {M M' M₀ : PageMap} {d : Page} {ds : List Page} (hM₀ : M₀ p = M p ∨ M₀ p = none)
      (ih : M' p = M₀.put perms d p ∨ M' p = none
        ∨ ∃ d ∈ ds, d.path <+: p ∧ M' p = some (d.level, d.entry perms)) :
      M' p = M p ∨ M' p = none
        ∨ ∃ d' ∈ d :: ds, d'.path <+: p ∧ M' p = some (d'.level, d'.entry perms) := by
    rcases ih with hsame | hnone | ⟨d', hd', hrest⟩
    · by_cases hd : d.path <+: p
      · rw [put_of_below hd] at hsame
        exact .inr (.inr ⟨d, List.mem_cons_self .., hd, hsame⟩)
      · rw [put_of_not_below hd] at hsame
        rcases hM₀ with hM₀ | hM₀
        · exact .inl (hsame.trans hM₀)
        · exact .inr (.inl (hsame.trans hM₀))
    · exact .inr (.inl hnone)
    · exact .inr (.inr ⟨d', List.mem_cons_of_mem _ hd', hrest⟩)
  induction h with
  | nil => exact .inl rfl
  | put _ _ ih => exact hlater (.inl rfl) ih
  | @replace M M' d ds k ok _ _ ih =>
      apply hlater _ ih
      by_cases hclear : d.path.take (k + 1) <+: p
      · exact .inr (if_pos hclear)
      · exact .inl (if_neg hclear)
  | taken => exact .inl rfl

end VirtMem
