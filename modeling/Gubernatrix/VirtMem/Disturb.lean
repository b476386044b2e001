import Gubernatrix.VirtMem.Contract

/-!
# Mappings that a request disturbs

A request goes down through a large page with address zero as if nothing were there: it puts a
table in its place, and the rest of the large page is lost. Which pages of a request are written,
and which large pages are lost, is known from what walks find before the request.
-/

namespace VirtMem

open Program Radix PhysMem PageMap

/-! ### What is found afterwards -/

/-- Something is in the way of the page. -/
def Blocked (M : PageMap) (d : Page) : Prop :=
  ¬ M.Free d.path ∧ ∀ k, ¬ M.ZeroAbove d.path k

/-- The page is one of those before the first that has something in its way. -/
def Reached (M : PageMap) : List Page → Page → Prop
  | [], _ => False
  | d :: ds, x => ¬ Blocked M d ∧ (x = d ∨ Reached M ds x)

/-- What is found on a path is an entry of the path, and is found on all paths through the
entry. -/
def Leafy (M : PageMap) : Prop :=
  ∀ p k e, M p = some (k, e) → k < p.length ∧ ∀ p', p.take (k + 1) <+: p' → M p' = some (k, e)

/-- The path leads through a large page with address zero, to which a page is reached. -/
def Lost (M : PageMap) (ds : List Page) (p : List ℕ) : Prop :=
  ∃ d k, Reached M ds d ∧ M.ZeroAbove d.path k ∧ d.path.take (k + 1) <+: p

/-- What is found after the pages were installed: the pages that are reached, and what was found
before where it is not lost. -/
structure Outcome (perms : BitVec 32) (M : PageMap) (ds : List Page) (M' : PageMap) : Prop where
  page : ∀ d, Reached M ds d → ∀ p, d.path <+: p → M' p = some (d.level, d.entry perms)
  lost : ∀ p, (∀ d, Reached M ds d → ¬ d.path <+: p) → Lost M ds p → M' p = none
  kept : ∀ p, (∀ d, Reached M ds d → ¬ d.path <+: p) → ¬ Lost M ds p → M' p = M p

section Install

variable {perms : BitVec 32} {M M₁ M' : PageMap} {d : Page} {ds : List Page} {ok : Bool}

theorem Reached.mem {x : Page} (h : Reached M ds x) :
  x ∈ ds
  := by
  induction ds with
  | nil => cases h
  | cons d ds ih =>
      obtain ⟨-, rfl | h⟩ := h
      · apply List.mem_cons_self
      · apply List.mem_cons_of_mem _ (ih h)

/-- Nothing is in the way of a page that is reached. -/
theorem Reached.clear {x : Page} (h : Reached M ds x) :
  ¬ Blocked M x
  := by
  induction ds with
  | nil => cases h
  | cons d ds ih =>
      obtain ⟨hclear, rfl | h⟩ := h
      · apply hclear
      · apply ih h

/-- Maps in which the same pages have something in their way. -/
theorem reached_congr (h : ∀ d ∈ ds, Blocked M₁ d ↔ Blocked M d) (x : Page) :
  Reached M₁ ds x ↔ Reached M ds x
  := by
  induction ds with
  | nil => rfl
  | cons d ds ih =>
      rw [Reached, Reached, h d (List.mem_cons_self ..),
        ih fun d hd => h d (List.mem_cons_of_mem _ hd)]

theorem Leafy.put (hM : Leafy M) (hfree : M.Free d.path) (hne : d.path ≠ []) :
  Leafy (M.put perms d)
  := by
  intro p k e hp
  by_cases hd : d.path <+: p
  · rw [put_of_below hd] at hp
    cases hp
    have hlen : d.level + 1 = d.path.length := by
      have := List.length_pos_of_ne_nil hne
      rw [Page.level]
      omega
    constructor
    · have := hd.length_le
      omega
    · intro p' hp'
      apply put_of_below
      rwa [hlen, ← List.prefix_iff_eq_take.mp hd] at hp'
  · rw [put_of_not_below hd] at hp
    obtain ⟨hk, hbelow⟩ := hM p k e hp
    use hk
    intro p' hp'
    rw [put_of_not_below, hbelow p' hp']
    intro hd'
    rcases List.prefix_or_prefix_of_prefix hp' hd' with hle | hle
    · have hat := hbelow d.path hle
      rw [hfree d.path (List.prefix_refl _)] at hat
      cases hat
    · apply hd (hle.trans (List.take_prefix _ _))

theorem Leafy.clear (hM : Leafy M) {k : ℕ} (hzero : M.ZeroAbove d.path k) :
  Leafy (M.clear (d.path.take (k + 1)))
  := by
  obtain ⟨e₀, he₀, hk₀, -⟩ := hzero
  intro p k' e hp
  rw [PageMap.clear] at hp
  split at hp
  · cases hp
  next hout =>
    obtain ⟨hk, hbelow⟩ := hM p k' e hp
    use hk
    intro p' hp'
    rw [PageMap.clear, if_neg, hbelow p' hp']
    intro hin
    rcases List.prefix_or_prefix_of_prefix hp' hin with hle | hle
    · have hat := hbelow d.path (hle.trans (List.take_prefix _ _))
      rw [he₀] at hat
      cases hat
      have heq := hle.eq_of_length (by simp only [List.length_take]; omega)
      apply hout
      rw [← heq]
      apply List.take_prefix
    · apply hout (hle.trans (List.take_prefix _ _))

/-- The path leads through a large page with address zero that lies above the page. -/
def Gone (M : PageMap) (d : Page) (p : List ℕ) : Prop :=
  ∃ k, M.ZeroAbove d.path k ∧ d.path.take (k + 1) <+: p

/-- The map `M₁` after the page `d` was installed in `M`. -/
structure Turn (perms : BitVec 32) (M : PageMap) (d : Page) (M₁ : PageMap) : Prop where
  leafy : Leafy M₁
  clear : ¬ Blocked M d
  page : ∀ p, d.path <+: p → M₁ p = some (d.level, d.entry perms)
  gone : ∀ p, ¬ d.path <+: p → Gone M d p → M₁ p = none
  kept : ∀ p, ¬ d.path <+: p → ¬ Gone M d p → M₁ p = M p

theorem Leafy.turn_put (perms : BitVec 32) (hM : Leafy M) (hfree : M.Free d.path)
    (hne : d.path ≠ []) :
  Turn perms M d (M.put perms d)
  where
  leafy := hM.put hfree hne
  clear h := h.1 hfree
  page _ := put_of_below
  gone := by
    rintro p - ⟨k, hzero, -⟩
    apply absurd hfree hzero.not_free
  kept _ hp _ := put_of_not_below hp

theorem Leafy.turn_replace (perms : BitVec 32) (hM : Leafy M) {k : ℕ}
    (hzero : M.ZeroAbove d.path k) (hne : d.path ≠ []) :
  Turn perms M d ((M.clear (d.path.take (k + 1))).put perms d)
  where
  leafy := (hM.clear hzero).put (free_clear (List.take_prefix _ _)) hne
  clear h := h.2 k hzero
  page _ := put_of_below
  gone := by
    rintro p hp ⟨k', hzero', hgone⟩
    obtain ⟨e, he, -⟩ := hzero
    obtain ⟨e', he', -⟩ := hzero'
    rw [he] at he'
    cases he'
    rw [put_of_not_below hp]
    apply if_pos hgone
  kept := by
    intro p hp hgone
    rw [put_of_not_below hp]
    apply if_neg
    intro hin
    apply hgone ⟨k, hzero, hin⟩

section Turn

variable (h : Turn perms M d M₁) (hM : Leafy M) {d' : Page} (hapart : Apart d d')

include h hM hapart

/-- A page apart from the one that was installed: nothing is found below it any more, or what was
found before. -/
theorem Turn.below_apart :
  (∃ k, M.ZeroAbove d'.path k ∧ d'.path.take (k + 1) <+: d.path ∧ M.ZeroAbove d.path k)
      ∧ M₁.Free d'.path
    ∨ ¬ Gone M d d'.path ∧ ∀ p, d'.path <+: p → M₁ p = M p
  := by
  by_cases hgone : Gone M d d'.path
  · left
    obtain ⟨k, hzero, hin⟩ := hgone
    obtain ⟨e, he, hk, haddr⟩ := hzero
    have hbelow := (hM _ _ _ he).2
    have hlen : (d.path.take (k + 1)).length = k + 1 := by
      rw [List.length_take]
      omega
    have htake : d'.path.take (k + 1) = d.path.take (k + 1) := by
      rw [List.prefix_iff_eq_take.mp hin, hlen]
    have hlt : k + 1 < d'.path.length := by
      by_contra hle
      have hpre := hin.length_le
      have heq := hin.eq_of_length (by omega)
      apply hapart.2
      rw [← heq]
      apply List.take_prefix
    constructor
    · use k, ⟨e, hbelow _ hin, hlt, haddr⟩
      rw [htake]
      use List.take_prefix _ _, e, he, hk
    · intro p hp
      apply h.gone p (fun hd => hapart.not_both hd hp)
      exact ⟨k, ⟨e, he, hk, haddr⟩, hin.trans hp⟩
  · right
    use hgone
    intro p hp
    apply h.kept p (fun hd => hapart.not_both hd hp)
    rintro ⟨k, hzero, hin⟩
    rcases List.prefix_or_prefix_of_prefix hin hp with hle | hle
    · apply hgone ⟨k, hzero, hle⟩
    · apply hapart.2 (hle.trans (List.take_prefix _ _))

theorem Turn.blocked_iff :
  Blocked M₁ d' ↔ Blocked M d'
  := by
  rcases h.below_apart hM hapart with ⟨⟨k, hzero, -⟩, hfree⟩ | ⟨-, hsame⟩
  · constructor
    · intro hblocked
      apply absurd hfree hblocked.1
    · intro hblocked
      apply absurd hzero (hblocked.2 k)
  · have hfree : M₁.Free d'.path ↔ M.Free d'.path :=
      forall₂_congr fun p hp => by rw [hsame p hp]
    have hzero (k : ℕ) : M₁.ZeroAbove d'.path k ↔ M.ZeroAbove d'.path k := by
      rw [ZeroAbove, ZeroAbove, hsame d'.path (List.prefix_refl _)]
    rw [Blocked, Blocked, hfree]
    simp only [hzero]

end Turn

section Outcome

variable (h : Turn perms M d M₁) (hM : Leafy M) (hapart : ∀ d' ∈ ds, Apart d d')

include h hM hapart

theorem Turn.reached_iff (x : Page) :
  Reached M (d :: ds) x ↔ x = d ∨ Reached M₁ ds x
  := by
  rw [Reached, reached_congr (fun d' hd' => h.blocked_iff hM (hapart d' hd')) x]
  simp only [h.clear, not_false_eq_true, true_and]

omit hM in
/-- Nothing that is found below the page that was installed is lost later. -/
theorem Turn.not_lost {p : List ℕ} (hp : d.path <+: p) :
  ¬ Lost M₁ ds p
  := by
  rintro ⟨x, k, hx, hzero, hin⟩
  obtain ⟨e, he, hk, -⟩ := hzero
  have hat := (h.leafy _ _ _ he).2 p hin
  rw [h.page p hp] at hat
  cases hat
  have hd := hapart x hx.mem
  apply hd.1
  have hne : d.path ≠ [] := by
    intro hnil
    apply hd.1
    rw [hnil]
    apply List.nil_prefix
  have hpos := List.length_pos_of_ne_nil hne
  have hlen : (x.path.take (d.level + 1)).length = d.path.length := by
    rw [List.length_take, Page.level]
    rw [Page.level] at hk
    omega
  rw [List.prefix_iff_eq_take.mp hp, ← hlen, ← List.prefix_iff_eq_take.mp hin]
  apply List.take_prefix

/-- What is lost is lost to the first page or to the others. -/
theorem Turn.lost_iff {p : List ℕ} (hp : ¬ d.path <+: p) :
  Lost M (d :: ds) p ↔ Gone M d p ∨ Lost M₁ ds p
  := by
  constructor
  · rintro ⟨x, k, hx, hzero, hin⟩
    rcases (h.reached_iff hM hapart x).mp hx with rfl | hx'
    · left
      exact ⟨k, hzero, hin⟩
    · rcases h.below_apart hM (hapart x hx'.mem) with ⟨⟨k', hzero', hin', hgone⟩, -⟩ | ⟨-, hsame⟩
      · left
        obtain ⟨e, he, hk, -⟩ := hzero
        obtain ⟨e', he', -⟩ := hzero'
        rw [he] at he'
        cases he'
        have hlen : (x.path.take (k + 1)).length = k + 1 := by
          rw [List.length_take]
          omega
        refine ⟨k, hgone, ?_⟩
        rwa [List.prefix_iff_eq_take.mp hin', hlen] at hin
      · right
        refine ⟨x, k, hx', ?_, hin⟩
        rwa [ZeroAbove, hsame x.path (List.prefix_refl _)]
  · rintro (⟨k, hzero, hin⟩ | ⟨x, k, hx, hzero, hin⟩)
    · refine ⟨d, k, (h.reached_iff hM hapart d).mpr (.inl rfl), hzero, hin⟩
    · refine ⟨x, k, (h.reached_iff hM hapart x).mpr (.inr hx), ?_, hin⟩
      rcases h.below_apart hM (hapart x hx.mem) with ⟨-, hfree⟩ | ⟨-, hsame⟩
      · apply absurd hfree hzero.not_free
      · rwa [ZeroAbove, hsame x.path (List.prefix_refl _)] at hzero

theorem Turn.outcome (hrest : Outcome perms M₁ ds M') :
  Outcome perms M (d :: ds) M'
  := by
  constructor
  · intro x hx p hp
    rcases (h.reached_iff hM hapart x).mp hx with rfl | hx'
    · rw [hrest.kept p _ (h.not_lost hapart hp), h.page p hp]
      intro d' hd' hp'
      apply (hapart d' hd'.mem).not_both hp hp'
    · apply hrest.page x hx' p hp
  · intro p hp hlost
    have hd : ¬ d.path <+: p := hp d ((h.reached_iff hM hapart d).mpr (.inl rfl))
    have hds : ∀ x, Reached M₁ ds x → ¬ x.path <+: p := fun x hx =>
      hp x ((h.reached_iff hM hapart x).mpr (.inr hx))
    by_cases hlater : Lost M₁ ds p
    · apply hrest.lost p hds hlater
    · rw [hrest.kept p hds hlater]
      apply h.gone p hd
      apply ((h.lost_iff hM hapart hd).mp hlost).resolve_right hlater
  · intro p hp hlost
    have hd : ¬ d.path <+: p := hp d ((h.reached_iff hM hapart d).mpr (.inl rfl))
    have hds : ∀ x, Reached M₁ ds x → ¬ x.path <+: p := fun x hx =>
      hp x ((h.reached_iff hM hapart x).mpr (.inr hx))
    rw [h.lost_iff hM hapart hd, not_or] at hlost
    rw [hrest.kept p hds hlost.2, h.kept p hd hlost.1]

end Outcome

/-- The outcome of a request, read off what was found before; when nothing was in the way, all
pages are reached. -/
theorem Install.outcome (h : Install perms M ds M' ok) (hM : Leafy M)
    (hapart : ds.Pairwise Apart) (hne : ∀ d ∈ ds, d.path ≠ []) :
  Outcome perms M ds M' ∧ (ok = true → ∀ d ∈ ds, Reached M ds d)
  := by
  have hturn {M M₁ M' : PageMap} {d : Page} {ds : List Page} {ok : Bool} (hM : Leafy M)
      (hturn : Turn perms M d M₁) (hapart : ∀ d' ∈ ds, Apart d d')
      (hrest : Outcome perms M₁ ds M' ∧ (ok = true → ∀ d' ∈ ds, Reached M₁ ds d')) :
      Outcome perms M (d :: ds) M' ∧ (ok = true → ∀ d' ∈ d :: ds, Reached M (d :: ds) d') := by
    obtain ⟨houtcome, hall⟩ := hrest
    constructor
    · apply hturn.outcome hM hapart houtcome
    · intro hok d' hd'
      apply (hturn.reached_iff hM hapart d').mpr
      rcases List.mem_cons.mp hd' with rfl | hd'
      · left
        rfl
      · right
        apply hall hok d' hd'
  induction h with
  | nil =>
      constructor
      · constructor
        · intro d hd
          cases hd
        · rintro p - ⟨d, k, hd, -⟩
          cases hd
        · intro p _ _
          rfl
      · intro _ d hd
        cases hd
  | @put M M' d ds ok hfree _ ih =>
      rw [List.pairwise_cons] at hapart
      have hput := hM.turn_put perms hfree (hne d (List.mem_cons_self ..))
      apply hturn hM hput hapart.1
      apply ih hput.leafy hapart.2
      intro d' hd'
      apply hne d' (List.mem_cons_of_mem _ hd')
  | @replace M M' d ds k ok hzero _ ih =>
      rw [List.pairwise_cons] at hapart
      have hreplace := hM.turn_replace perms hzero (hne d (List.mem_cons_self ..))
      apply hturn hM hreplace hapart.1
      apply ih hreplace.leafy hapart.2
      intro d' hd'
      apply hne d' (List.mem_cons_of_mem _ hd')
  | @taken M d ds htaken hzero =>
      have hblocked : Blocked M d := ⟨htaken, hzero⟩
      constructor
      · constructor
        · intro x hx
          apply absurd hblocked hx.1
        · rintro p - ⟨x, k, hx, -⟩
          apply absurd hblocked hx.1
        · intro p _ _
          rfl
      · intro hok
        cases hok

end Install

/-! ### What a call disturbs -/

/-- Every address that was mapped gives the access that it gave before. -/
def Undisturbed (s s' : Vmem) : Prop :=
  ∀ r ∈ roots, ∀ a acc, s.walk 4 r a = some acc → s'.walk 4 r a = some acc

/-- The address leads through a large page with address zero, to a page below which the request
comes. -/
def Vmem.Loses (s : Vmem) (r : TablePtr) (virt phys size a : U64) : Prop :=
  Lost (s.look r) (pagesOf s virt phys size).1 (pathTo a 4)

/-- The request comes to a page that gives the address the access `acc`. -/
def Vmem.Gains (s : Vmem) (r : TablePtr) (virt phys size : U64) (perms : BitVec 32) (a : U64)
    (acc : Access) : Prop :=
  ∃ d, Reached (s.look r) (pagesOf s virt phys size).1 d ∧ d.path <+: pathTo a 4
    ∧ leafAccess a d.level (d.entry perms) = acc

section Disturb

variable {perms : BitVec 32} {core : ℕ} {s s' : Vmem} {vm : Option ℕ} {r : TablePtr}
  {virt phys size : U64} {ret : VmemErrs}

theorem WfCore.leafy (hwf : WfCore s) (hr : r ∈ roots) :
  Leafy (s.look r)
  := by
  intro p k e hp
  obtain ⟨l, i, hfound⟩ := hwf.found hr hp
  have hlen : (l ++ [i]).length = k + 1 := by
    rw [List.length_append, List.length_singleton, hfound.length]
  constructor
  · have := hfound.prefix_path.length_le
    omega
  · intro p' hp'
    rw [← hlen, ← List.prefix_iff_eq_take.mp hfound.prefix_path] at hp'
    apply hfound.look_eq hp'

/-- What walks find after a request. -/
theorem Requested.outcome (hwf : Wf s) (hr : r ∈ roots)
    (hrequested : Requested perms core s r virt phys size ret s') :
  Outcome perms (s.look r) (pagesOf s virt phys size).1 (s'.look r)
    ∧ (ret = .errNone → ∀ d ∈ (pagesOf s virt phys size).1,
      Reached (s.look r) (pagesOf s virt phys size).1 d)
  := by
  obtain ⟨ok, hinstall, hret⟩ := hrequested.install
  obtain ⟨houtcome, hall⟩ := hinstall.outcome (hwf.leafy hr) (pairwise_mapPlan _ _ _ _ _ _)
    (fun d hd hnil => by
      obtain ⟨i, -, hi⟩ := below_mapPlan s.hugepage 4 [] virt phys size d hd
      rw [hnil] at hi
      cases List.prefix_nil.mp hi)
  use houtcome
  intro hnone
  apply hall
  cases ok with
  | true => rfl
  | false =>
      rw [hret] at hnone
      cases hnone

/-- Addresses that are mapped have a place in the top-level table. -/
theorem inTable_of_walk {a : U64} {acc : Access} (h : s.walk 4 r a = some acc) :
  InTable r (index a 0)
  := by
  rw [Vmem.walk] at h
  split at h
  next hin => apply hin
  next => cases h

section Walk

variable (hwf : Wf s) (hr : r ∈ roots)
  (hrequested : Requested perms core s r virt phys size ret s')

include hwf hr hrequested

/-- A page that a request comes to gives an address the access that it has. -/
theorem Requested.walk_gains {a : U64} {acc : Access} (hin : InTable r (index a 0))
    (h : s.Gains r virt phys size perms a acc) :
  s'.walk 4 r a = some acc
  := by
  obtain ⟨d, hd, hpre, hacc⟩ := h
  rw [hrequested.wf.walk_root hr hin, (hrequested.outcome hwf hr).1.page d hd _ hpre,
    Option.map_some, hacc]

/-- An address that leads through a lost page is mapped afterwards only by a page of the
request. -/
theorem Requested.gains_of_loses {a : U64} {acc : Access} (hloses : s.Loses r virt phys size a)
    (h : s'.walk 4 r a = some acc) :
  s.Gains r virt phys size perms a acc
  := by
  have houtcome := (hrequested.outcome hwf hr).1
  rw [hrequested.wf.walk_root hr (inTable_of_walk h)] at h
  by_cases hpage : ∃ d, Reached (s.look r) (pagesOf s virt phys size).1 d ∧ d.path <+: pathTo a 4
  · obtain ⟨d, hd, hpre⟩ := hpage
    rw [houtcome.page d hd _ hpre] at h
    use d, hd, hpre, Option.some.inj h
  · rw [houtcome.lost _ (fun d hd hpre => hpage ⟨d, hd, hpre⟩) hloses] at h
    cases h

/-- An address that was mapped, and does not lead through a lost page, is mapped as before. -/
theorem Requested.walk_kept {a : U64} {acc : Access} (hloses : ¬ s.Loses r virt phys size a)
    (h : s.walk 4 r a = some acc) :
  s'.walk 4 r a = some acc
  := by
  have hin := inTable_of_walk h
  have houtcome := (hrequested.outcome hwf hr).1
  rw [hrequested.wf.walk_root hr hin]
  rw [hwf.walk_root hr hin] at h
  rw [houtcome.kept _ _ hloses, h]
  intro d hd hpre
  by_cases hzero : ∃ k, ZeroAbove (s.look r) d.path k
  · obtain ⟨k, hzero⟩ := hzero
    apply hloses ⟨d, k, hd, hzero, (List.take_prefix _ _).trans hpre⟩
  · obtain ⟨x, hx, -⟩ := Option.map_eq_some_iff.mp h
    apply hd.clear
    constructor
    · intro hfree
      rw [hfree _ hpre] at hx
      cases hx
    · apply not_exists.mp hzero

/-- A call that gives back what it takes disturbs no mapping. -/
theorem Requested.undisturbed (h : ∀ a acc, s.walk 4 r a = some acc →
    s.Loses r virt phys size a → s.Gains r virt phys size perms a acc) :
  Undisturbed s s'
  := by
  intro r' hr' a acc hacc
  by_cases hrr : r' = r
  · subst hrr
    by_cases hloses : s.Loses r' virt phys size a
    · apply hrequested.walk_gains hwf hr (inTable_of_walk hacc)
      apply h a acc hacc hloses
    · apply hrequested.walk_kept hwf hr hloses hacc
  · have hin := inTable_of_walk hacc
    rw [hrequested.wf.walk_root hr' hin, hrequested.other r' hr' hrr, ← hwf.walk_root hr' hin,
      hacc]

end Walk

end Disturb

/-- A call of `vmem_map` that returns disturbs no mapping just when every mapped address that leads
through a large page with address zero, below which the request comes, is given the same access by
a page of the request. -/
theorem undisturbed_iff {perms : BitVec 32} {core : ℕ} {s s' : Vmem} {vm : Option ℕ}
    {virt phys size : U64} {ret : VmemErrs} (hbuilt : Built s) (hsize : 4096 ∣ size.toNat)
    (hrun : vmemMap core vm virt phys size perms s = .ok ret s') (hfresh : FreshPages s'.hist) :
  Undisturbed s s' ↔ ∀ r, rootOf vm virt = some r → ∀ a acc, s.walk 4 r a = some acc →
    s.Loses r virt phys size a → s.Gains r virt phys size perms a acc
  := by
  have hwf : Wf s := hbuilt.wf (hfresh.of_suffix (steady_vmemMap hrun).hist)
  obtain ⟨r, hroot, hrequested⟩ := hwf.requested hsize hrun hfresh
  have hr := rootOf_mem hroot
  constructor
  · intro h r' hroot' a acc hacc hloses
    obtain rfl : r' = r := Option.some.inj (hroot'.symm.trans hroot)
    apply hrequested.gains_of_loses hwf hr hloses
    apply h r' hr a acc hacc
  · intro h
    apply hrequested.undisturbed hwf hr (h r hroot)

/-- A call that returns 0, for a request that fits and is addressable, leaves the request mapped,
whatever was mapped before. -/
theorem Requested.walk {perms : BitVec 32} {core : ℕ} {s s' : Vmem} {vm : Option ℕ} {r : TablePtr}
    {virt phys size : U64} (hrequested : Requested perms core s r virt phys size .errNone s')
    (hwf : Wf s) (hproper : Proper vm r virt phys size)
    (hfits : Fits s.hugepage virt.toNat size.toNat)
    (haddr : Addressable s.hugepage phys.toNat size.toNat) :
  ∀ o < size, s'.walk 4 r (virt + o) = some (wanted phys perms o)
  := by
  obtain ⟨houtcome, hall⟩ := hrequested.outcome hwf (rootOf_mem hproper.root)
  intro o ho
  apply hproper.walk hrequested.wf.toWfCore _ (hproper.tiles hfits).1 _ ho
  · intro d hd
    apply houtcome.page d (hall rfl d hd)
  · intro d hd
    apply hproper.phys_lt hfits haddr hd

/-- A request where nothing is mapped loses nothing. -/
theorem Proper.not_loses {s : Vmem} {vm : Option ℕ} {r : TablePtr} {virt phys size : U64}
    (hproper : Proper vm r virt phys size) (hwf : Wf s)
    (hfree : ∀ o < size, s.walk 4 r (virt + o) = none)
    (hfits : Fits s.hugepage virt.toNat size.toNat) (a : U64) :
  ¬ s.Loses r virt phys size a
  := by
  rintro ⟨d, k, hd, hzero, -⟩
  apply hzero.not_free
  apply hproper.free hwf.toWfCore hfree (hproper.tiles hfits).1 hd.mem

/-- A page of 2 MiB where nothing is mapped. -/
theorem undisturbed_two_mib :
  ∃ s s', Built s ∧ vmemMap 0 none (unusedBase + 0) 0x400000 (mib 2) 0 s = .ok .errNone s'
    ∧ Undisturbed s s'
  := by
  obtain ⟨s, hrun, hbuilt, -, hwf, -, hsync⟩ := exists_built_bootVmem
  have hproper := proper_unusedBase (x := 0) (by decide) (by decide)
  have hfree := free_unusedBase hrun (x := 0) (by decide)
  have hsupplied := supplied_initThenMap hrun hwf allocs_unusedBase
  have hfits := fits_unusedBase s.hugepage
  obtain ⟨s', hmap, -⟩ := hproper.establishes hwf hfree (fun _ => hsync.lcl) hsupplied hfits
    (addressable_unusedBase s.hugepage)
  rw [hmap] at hsupplied
  refine ⟨s, s', hbuilt, hmap, (undisturbed_iff hbuilt (by decide) hmap hsupplied.fresh).mpr ?_⟩
  intro r hroot a acc _ hloses
  obtain rfl : r = .kmem := Option.some.inj (hroot.symm.trans hproper.root)
  apply absurd hloses (hproper.not_loses hwf hfree hfits a)

/-- With pages of 1 GiB, the page at `KERN_TOP_BASE` is one of them, with address zero, and a page
mapped in its place needs two more allocations. -/
theorem init_then_kernTopBase :
  ∃ u s, vmemInit 0 true 0x1000 bootVmem = .ok u s
    ∧ s.look .kmem (pathTo kernTopBase 4) = some (1, leafEntry 0 topPerms 1)
    ∧ allocs (finalState (vmemMap 0 none kernTopBase (gib 1) (kib 4) 0 s)).hist = sixPages
  := exists_of_returns _ _ (by decide +kernel)

theorem allocs_kernTopBase :
  allocs (finalState (initThenMap kernTopBase (gib 1) (kib 4) bootVmem)).hist = sixPages
  := by
  obtain ⟨u, s, hrun, -, hallocs⟩ := init_then_kernTopBase
  rw [initThenMap, bind_of_ok hrun]
  exact hallocs

theorem look_kernTopBase :
  (finalState (vmemInit 0 true 0x1000 bootVmem)).look .kmem (pathTo kernTopBase 4)
    = some (1, leafEntry 0 topPerms 1)
  := by
  obtain ⟨u, s, hrun, hlook, -⟩ := init_then_kernTopBase
  rw [hrun]
  exact hlook

theorem proper_kernTopBase :
  Proper none .kmem kernTopBase (gib 1) (kib 4)
  := ⟨rfl, by decide, by decide, by decide, by decide, .inr (by decide)⟩

theorem fits_kernTopBase (hugepage : Bool) :
  Fits hugepage kernTopBase.toNat (kib 4).toNat
  := by
  constructor
  · intro _ hdvd
    apply absurd hdvd (by decide)
  · intro _ hdvd
    apply absurd hdvd (by decide)
  · intro hcross
    apply absurd hcross (by decide)
  · intro hcross
    apply absurd hcross (by decide)

/-- A page of 4 KiB at `KERN_TOP_BASE` takes the large page there from the address after it. -/
theorem loses_kernTopBase {s : Vmem} (hrun : vmemInit 0 true 0x1000 bootVmem = .ok ⟨⟩ s) :
  s.Loses .kmem kernTopBase (gib 1) (kib 4) (kernTopBase + kib 4)
    ∧ ∀ perms acc,
      ¬ s.Gains .kmem kernTopBase (gib 1) (kib 4) perms (kernTopBase + kib 4) acc
  := by
  have hlook : s.look .kmem (pathTo kernTopBase 4) = some (1, leafEntry 0 topPerms 1) := by
    have h := look_kernTopBase
    rw [hrun] at h
    exact h
  have htiles := (proper_kernTopBase.tiles (s := s) (fits_kernTopBase s.hugepage)).1
  have hkib : (kib 4).toNat = 4096 := rfl
  constructor
  · have hhead : ∃ ds, (pagesOf s kernTopBase (gib 1) (kib 4)).1
        = ⟨pathTo kernTopBase 4, kernTopBase, gib 1⟩ :: ds := by
      generalize (pagesOf s kernTopBase (gib 1) (kib 4)).1 = ds at htiles
      cases htiles with
      | @cons _ _ _ lv ds hlv havail hdvd hle hrest =>
          obtain rfl : lv = 3 := by
            by_contra hne
            have heq := span_eq (show lv < 3 by omega)
            have hpage := Nat.le_of_dvd (span_pos (lv + 1)) (page_dvd_span (lv + 1))
            omega
          use ds
    obtain ⟨ds, hds⟩ := hhead
    have hzero : ZeroAbove (s.look .kmem) (pathTo kernTopBase 4) 1 := by
      use leafEntry 0 topPerms 1, hlook
      decide
    rw [Vmem.Loses, hds]
    use ⟨pathTo kernTopBase 4, kernTopBase, gib 1⟩, 1
    refine ⟨⟨fun hblocked => hblocked.2 1 hzero, .inl rfl⟩, hzero, ?_⟩
    rw [take_pathTo _ (by decide), pathTo_prefix_iff _ _ (by decide)]
    decide
  · rintro perms acc ⟨d, hd, hpre, -⟩
    obtain ⟨lv, o, htile⟩ := htiles.tile hd.mem
    have hbound := htile.bound
    rw [htile.prefix_iff (by decide)] at hpre
    have hlow : low (kernTopBase + kib 4) = low kernTopBase + 4096 := by decide
    omega

/-- After `vmem_init`, a request for the first page at `KERN_TOP_BASE` takes the large page there,
whose address is zero, for nothing, and all of its other addresses are lost. -/
theorem not_undisturbed_top :
  ¬ ∀ (core : ℕ) (vm : Option ℕ) (virt phys size : U64) (perms : BitVec 32) (ret : VmemErrs)
    (s s' : Vmem), Built s → 4096 ∣ virt.toNat → 4096 ∣ phys.toNat → 4096 ∣ size.toNat →
    vmemMap core vm virt phys size perms s = .ok ret s' → FreshPages s'.hist → Undisturbed s s'
  := by
  intro h
  obtain ⟨s, hrun, hbuilt, -, hwf, hwindows, hsync⟩ := exists_built_bootVmem
  have hsupplied := supplied_initThenMap hrun hwf allocs_kernTopBase
  obtain ⟨ret, s', hmap, hrequested⟩ := proper_kernTopBase.returns hwf (fun _ => hsync.lcl)
    hsupplied (fits_kernTopBase s.hugepage)
  rw [hmap] at hsupplied
  have hundisturbed := h 0 none kernTopBase (gib 1) (kib 4) 0 ret s s' hbuilt (by decide)
    (by decide) (by decide) hmap hsupplied.fresh
  have hbefore := hwindows.top (kib 4) (by decide)
  have hafter := hundisturbed .kmem root_kmem _ _ hbefore
  obtain ⟨hloses, hgains⟩ := loses_kernTopBase hrun
  apply hgains _ _ (hrequested.gains_of_loses hwf root_kmem hloses hafter)

end VirtMem
