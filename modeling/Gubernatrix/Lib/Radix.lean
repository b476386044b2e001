import Mathlib.Logic.Function.Basic
import Mathlib.Data.List.Infix
import Mathlib.Data.Set.Basic

/-!
# Radix trees in a heap

A heap holds tables of entries. At each depth an entry is a leaf, or a link to a table of the
next depth, or neither. From a table, a path, a list of indices, leads along links to another
table, `node`, or up to the first leaf on its way, `look`.

When the tables of the trees are reached by one path each (`Separate`), an update of a slot
changes `look` at the paths through the slot only. The rules of this module say so for the two
updates that make trees grow: a leaf written to a slot, and a link to a fresh empty table.
-/

namespace Radix

variable {P E : Type} (child : ℕ → E → Option P) (leaf : ℕ → E → Bool)

/-- The table that the path leads to from a table at depth `k`. -/
def node (h : P → ℕ → E) : ℕ → P → List ℕ → Option P
  | _, r, [] => some r
  | k, r, i :: l => (child k (h r i)).bind fun c => node h (k + 1) c l

/-- The first leaf on the path from a table at depth `k`, with its depth. -/
def look (h : P → ℕ → E) : ℕ → P → List ℕ → Option (ℕ × E)
  | _, _, [] => none
  | k, r, i :: l =>
      if leaf k (h r i) then some (k, h r i)
      else (child k (h r i)).bind fun c => look h (k + 1) c l

/-- A leaf is no link. -/
def Exclusive : Prop := ∀ k e, leaf k e = true → child k e = none

/-- Every table is reached from the roots in `R` by one path at most. -/
def Separate (h : P → ℕ → E) (R : Set P) : Prop :=
  ∀ ⦃r r' l l' t⦄, r ∈ R → r' ∈ R → node child h 0 r l = some t → node child h 0 r' l' = some t →
    r = r' ∧ l = l'

variable {child leaf}

section Paths

variable {h : P → ℕ → E}

@[simp]
theorem node_nil (k : ℕ) (r : P) :
  node child h k r [] = some r
  := rfl

theorem node_append (k : ℕ) (r : P) (l l' : List ℕ) :
  node child h k r (l ++ l')
    = (node child h k r l).bind fun t => node child h (k + l.length) t l'
  := by
  induction l generalizing k r with
  | nil => rfl
  | cons i l ih =>
      rw [List.cons_append, node, node]
      cases child k (h r i) with
      | none => rfl
      | some c =>
          rw [Option.bind_some, Option.bind_some, ih, List.length_cons]
          congr 1
          funext t
          congr 1
          omega

/-- One step on. -/
theorem node_concat {r t : P} {l : List ℕ} (ht : node child h 0 r l = some t) (i : ℕ) :
  node child h 0 r (l ++ [i]) = child l.length (h t i)
  := by
  rw [node_append, ht, Option.bind_some, Nat.zero_add, node]
  cases child l.length (h t i) with
  | none => rfl
  | some c => rfl

/-- Links come before leaves on the path to a table. -/
theorem look_append (hexcl : Exclusive child leaf) {k : ℕ} {r t : P} {l : List ℕ}
    (ht : node child h k r l = some t) (p : List ℕ) :
  look child leaf h k r (l ++ p) = look child leaf h (k + l.length) t p
  := by
  induction l generalizing k r with
  | nil =>
      obtain rfl := Option.some.inj ht
      rfl
  | cons i l ih =>
      rw [node] at ht
      cases hc : child k (h r i) with
      | none =>
          rw [hc] at ht
          cases ht
      | some c =>
          rw [hc, Option.bind_some] at ht
          have hleaf : ¬ leaf k (h r i) = true := by
            intro hleaf
            rw [hexcl k _ hleaf] at hc
            cases hc
          rw [List.cons_append, look, if_neg hleaf, hc, Option.bind_some, ih ht, List.length_cons]
          congr 1
          omega

/-- Below a leaf, all paths stop at it. -/
theorem look_of_leaf (hexcl : Exclusive child leaf) {r t : P} {l : List ℕ} {i : ℕ}
    (ht : node child h 0 r l = some t) (hleaf : leaf l.length (h t i) = true) (p : List ℕ) :
  look child leaf h 0 r ((l ++ [i]) ++ p) = some (l.length, h t i)
  := by
  rw [List.append_assoc, look_append hexcl ht, Nat.zero_add, List.singleton_append, look,
    if_pos hleaf]

/-- Below an entry that is neither leaf nor link, paths lead nowhere. -/
theorem look_of_stop (hexcl : Exclusive child leaf) {r t : P} {l : List ℕ} {i : ℕ}
    (ht : node child h 0 r l = some t) (hleaf : leaf l.length (h t i) = false)
    (hchild : child l.length (h t i) = none) (p : List ℕ) :
  look child leaf h 0 r ((l ++ [i]) ++ p) = none
  := by
  rw [List.append_assoc, look_append hexcl ht, Nat.zero_add, List.singleton_append, look, hleaf,
    if_neg Bool.false_ne_true, hchild, Option.bind_none]

/-- A leaf found is above the end of the path. -/
theorem look_lt {k k' : ℕ} {r : P} {p : List ℕ} {e : E}
    (hlook : look child leaf h k r p = some (k', e)) :
  k ≤ k' ∧ k' < k + p.length
  := by
  induction p generalizing k r with
  | nil => cases hlook
  | cons i p ih =>
      rw [look] at hlook
      rw [List.length_cons]
      split at hlook
      next =>
        cases hlook
        omega
      next =>
        obtain ⟨c, -, hc⟩ := Option.bind_eq_some_iff.mp hlook
        have := ih hc
        omega

/-- Where the leaf that is found stands. -/
theorem look_eq_some {k k' : ℕ} {r : P} {p : List ℕ} {e : E}
    (hlook : look child leaf h k r p = some (k', e)) :
  ∃ l i q t, p = l ++ i :: q ∧ k + l.length = k' ∧ node child h k r l = some t ∧ h t i = e
    ∧ leaf k' e = true
  := by
  induction p generalizing k r with
  | nil => cases hlook
  | cons i p ih =>
      rw [look] at hlook
      split at hlook
      next hleaf =>
        cases hlook
        exact ⟨[], i, p, r, rfl, rfl, rfl, rfl, hleaf⟩
      next =>
        obtain ⟨c, hc, hrest⟩ := Option.bind_eq_some_iff.mp hlook
        obtain ⟨l, j, q, t, rfl, hlen, ht, he, hleaf⟩ := ih hrest
        refine ⟨i :: l, j, q, t, rfl, ?_, ?_, he, hleaf⟩
        · rw [List.length_cons]
          omega
        · rw [node, hc, Option.bind_some, ht]

theorem length_lt_of_snoc {l l' : List ℕ} {i : ℕ} (hpre : l ++ [i] <+: l') :
  l.length < l'.length
  := by
  have := hpre.length_le
  rw [List.length_append, List.length_singleton] at this
  omega

theorem not_snoc_below (l : List ℕ) (i : ℕ) :
  ¬ l ++ [i] <+: l
  := fun h => absurd (length_lt_of_snoc h) (lt_irrefl _)

end Paths

/-! ### Tables off the trees -/

section Off

variable {child' : ℕ → E → Option P} {leaf' : ℕ → E → Bool} {h h' : P → ℕ → E}

/-- Paths depend on the tables they reach only, and on what their entries link to. -/
theorem node_congr {k : ℕ} {r : P} {l : List ℕ}
    (hsame : ∀ l' u, node child h k r l' = some u → h' u = h u
      ∧ ∀ i, child' (k + l'.length) (h u i) = child (k + l'.length) (h u i)) :
  node child' h' k r l = node child h k r l
  := by
  induction l generalizing k r with
  | nil => rfl
  | cons i l ih =>
      obtain ⟨htable, hchild⟩ := hsame [] r rfl
      rw [List.length_nil, Nat.add_zero] at hchild
      rw [node, node, htable, hchild]
      cases hc : child k (h r i) with
      | none => rfl
      | some c =>
          apply ih
          intro l' u hu
          have := hsame (i :: l') u (by rw [node, hc, Option.bind_some, hu])
          rwa [List.length_cons, Nat.add_comm l'.length, ← Nat.add_assoc] at this

theorem look_congr {k : ℕ} {r : P} {p : List ℕ}
    (hsame : ∀ l' u, node child h k r l' = some u → h' u = h u
      ∧ ∀ i, child' (k + l'.length) (h u i) = child (k + l'.length) (h u i)
        ∧ leaf' (k + l'.length) (h u i) = leaf (k + l'.length) (h u i)) :
  look child' leaf' h' k r p = look child leaf h k r p
  := by
  induction p generalizing k r with
  | nil => rfl
  | cons i p ih =>
      obtain ⟨htable, hentry⟩ := hsame [] r rfl
      obtain ⟨hchild, hleaf⟩ := hentry i
      rw [List.length_nil, Nat.add_zero] at hchild hleaf
      rw [look, look, htable, hchild, hleaf]
      cases hc : child k (h r i) with
      | none => rfl
      | some c =>
          rw [Option.bind_some, Option.bind_some, ih]
          intro l' u hu
          have := hsame (i :: l') u (by rw [node, hc, Option.bind_some, hu])
          rwa [List.length_cons, Nat.add_comm l'.length, ← Nat.add_assoc] at this

theorem Separate.congr {R : Set P} (hsep : Separate child h R)
    (hsame : ∀ r ∈ R, ∀ l, node child' h' 0 r l = node child h 0 r l) :
  Separate child' h' R
  := by
  intro r r' l l' t hr hr' ht ht'
  rw [hsame r hr] at ht
  rw [hsame r' hr'] at ht'
  exact hsep hr hr' ht ht'

end Off

/-! ### Writing a slot -/

variable [DecidableEq P]

/-- The heap with the entry `e` in slot `i` of table `t`. -/
def poke (h : P → ℕ → E) (t : P) (i : ℕ) (e : E) : P → ℕ → E :=
  Function.update h t (Function.update (h t) i e)

@[simp]
theorem poke_self (h : P → ℕ → E) (t : P) (i : ℕ) (e : E) :
  poke h t i e t i = e
  := by
  rw [poke, Function.update_self, Function.update_self]

theorem poke_of_ne_slot (h : P → ℕ → E) {t u : P} {i j : ℕ} (e : E) (hne : u = t → j ≠ i) :
  poke h t i e u j = h u j
  := by
  rw [poke]
  by_cases hu : u = t
  · subst hu
    rw [Function.update_self, Function.update_of_ne (hne rfl)]
  · rw [Function.update_of_ne hu]

theorem poke_of_ne (h : P → ℕ → E) {t u : P} {i : ℕ} (e : E) (hne : u ≠ t) :
  poke h t i e u = h u
  := by
  rw [poke, Function.update_of_ne hne]

section Poke

variable {h : P → ℕ → E} {R : Set P} {r t : P} {l : List ℕ} {i : ℕ} {e : E}
  (hsep : Separate child h R) (hr : r ∈ R) (ht : node child h 0 r l = some t)

omit [DecidableEq P] in
include hsep hr ht in
/-- A table met on a path that does not go through the slot does not hold the slot on it. -/
theorem slot_ne {r' u : P} {q : List ℕ} {j : ℕ} (hr' : r' ∈ R)
    (hu : node child h 0 r' q = some u) {p : List ℕ}
    (hout : ¬ (r' = r ∧ l ++ [i] <+: q ++ j :: p)) :
  u = t → j ≠ i
  := by
  rintro rfl rfl
  obtain ⟨rfl, rfl⟩ := hsep hr' hr hu ht
  apply hout
  exact ⟨rfl, ⟨p, by simp⟩⟩

include hsep hr ht in
theorem node_poke_off {r' u : P} {q p : List ℕ} (hr' : r' ∈ R)
    (hu : node child h 0 r' q = some u) (hout : ¬ (r' = r ∧ l ++ [i] <+: q ++ p)) :
  node child (poke h t i e) q.length u p = node child h q.length u p
  := by
  induction p generalizing q u with
  | nil => rfl
  | cons j p ih =>
      rw [node, node, poke_of_ne_slot h e (slot_ne hsep hr ht hr' hu hout)]
      cases hc : child q.length (h u j) with
      | none => rfl
      | some c =>
          rw [Option.bind_some, Option.bind_some]
          have hstep := node_concat hu j
          rw [hc] at hstep
          have hrest := ih hstep (by rwa [List.append_assoc, List.singleton_append])
          rwa [List.length_append, List.length_singleton] at hrest

include hsep hr ht in
theorem look_poke_off {r' u : P} {q p : List ℕ} (hr' : r' ∈ R)
    (hu : node child h 0 r' q = some u) (hout : ¬ (r' = r ∧ l ++ [i] <+: q ++ p)) :
  look child leaf (poke h t i e) q.length u p = look child leaf h q.length u p
  := by
  induction p generalizing q u with
  | nil => rfl
  | cons j p ih =>
      rw [look, look, poke_of_ne_slot h e (slot_ne hsep hr ht hr' hu hout)]
      cases hc : child q.length (h u j) with
      | none => rfl
      | some c =>
          have hstep := node_concat hu j
          rw [hc] at hstep
          have hrest := ih hstep (by rwa [List.append_assoc, List.singleton_append])
          rw [List.length_append, List.length_singleton] at hrest
          rw [Option.bind_some, Option.bind_some, hrest]

include hsep hr ht in
/-- The table written to is where it was. -/
theorem node_poke_slot :
  node child (poke h t i e) 0 r l = some t
  := by
  have := node_poke_off (i := i) (e := e) (q := []) (p := l) hsep hr ht hr (node_nil 0 r)
    (fun hin => not_snoc_below l i hin.2)
  rw [List.length_nil] at this
  rw [this, ht]

include hsep hr ht in
/-- A leaf written to a slot is found on the paths through the slot, and nowhere else. -/
theorem look_poke_leaf (hexcl : Exclusive child leaf) (hleaf : leaf l.length e = true) {r' : P}
    (hr' : r' ∈ R) (p : List ℕ) :
  look child leaf (poke h t i e) 0 r' p
    = if r' = r ∧ l ++ [i] <+: p then some (l.length, e) else look child leaf h 0 r' p
  := by
  split
  next hin =>
    obtain ⟨rfl, p, rfl⟩ := hin
    have hslot := node_poke_slot (i := i) (e := e) hsep hr ht
    have := look_of_leaf (i := i) hexcl hslot (by rw [poke_self]; exact hleaf) p
    rw [this, poke_self]
  next hout =>
    exact look_poke_off (q := []) hsep hr ht hr' (node_nil 0 r') hout

section Link

variable {c : P} (hnew : child l.length e = some c)
  (hfresh : ∀ r' ∈ R, ∀ l', node child h 0 r' l' ≠ some c)
  (hempty : ∀ j, child (l.length + 1) (h c j) = none)

include hsep hr ht hnew hfresh hempty in
/-- A link to a fresh empty table adds the table. -/
theorem node_poke_link (hold : child l.length (h t i) = none) {r' : P} (hr' : r' ∈ R)
    {l' : List ℕ} {t' : P} :
  node child (poke h t i e) 0 r' l' = some t'
    ↔ node child h 0 r' l' = some t' ∨ r' = r ∧ l' = l ++ [i] ∧ t' = c
  := by
  by_cases hin : r' = r ∧ l ++ [i] <+: l'
  · obtain ⟨rfl, p, rfl⟩ := hin
    have hslot := node_poke_slot (i := i) (e := e) hsep hr ht
    have hstep := node_concat hslot i
    rw [poke_self, hnew] at hstep
    have hbefore := node_concat ht i
    rw [hold] at hbefore
    have hct : c ≠ t := by
      rintro rfl
      exact hfresh r' hr l ht
    rw [node_append, hstep, node_append, hbefore, Option.bind_some, Option.bind_none]
    cases p with
    | nil =>
        rw [node_nil, List.append_nil]
        grind
    | cons j p =>
        have hlen : 0 + (l ++ [i]).length = l.length + 1 := by simp
        rw [hlen, node, poke_of_ne h e hct, hempty, Option.bind_none]
        simp
  · have hoff := node_poke_off (e := e) (q := []) (p := l') hsep hr ht hr' (node_nil 0 r') hin
    rw [List.length_nil] at hoff
    rw [hoff]
    constructor
    · exact .inl
    · rintro (hl' | ⟨rfl, rfl, rfl⟩)
      · exact hl'
      · exact absurd ⟨rfl, List.prefix_refl _⟩ hin

include hsep hr ht hnew hfresh hempty in
theorem Separate.poke_link (hold : child l.length (h t i) = none) :
  Separate child (poke h t i e) R
  := by
  intro r₁ r₂ l₁ l₂ u hr₁ hr₂ hu₁ hu₂
  rw [node_poke_link hsep hr ht hnew hfresh hempty hold hr₁] at hu₁
  rw [node_poke_link hsep hr ht hnew hfresh hempty hold hr₂] at hu₂
  rcases hu₁ with hu₁ | ⟨rfl, rfl, rfl⟩ <;> rcases hu₂ with hu₂ | ⟨rfl, rfl, hu₂⟩
  · exact hsep hr₁ hr₂ hu₁ hu₂
  · subst hu₂
    exact absurd hu₁ (hfresh r₁ hr₁ l₁)
  · exact absurd hu₂ (hfresh r₂ hr₂ l₂)
  · exact ⟨rfl, rfl⟩

include hsep hr ht hnew hfresh in
/-- A link to a fresh empty table leaves nothing to find on the paths through the slot. -/
theorem look_poke_link (hexcl : Exclusive child leaf)
    (hbare : ∀ j, leaf (l.length + 1) (h c j) = false)
    (hempty : ∀ j, child (l.length + 1) (h c j) = none) {r' : P} (hr' : r' ∈ R) (p : List ℕ) :
  look child leaf (poke h t i e) 0 r' p
    = if r' = r ∧ l ++ [i] <+: p then none else look child leaf h 0 r' p
  := by
  split
  next hin =>
    obtain ⟨rfl, p, rfl⟩ := hin
    have hslot := node_poke_slot (i := i) (e := e) hsep hr ht
    have hstep := node_concat hslot i
    rw [poke_self, hnew] at hstep
    have hct : c ≠ t := by
      rintro rfl
      exact hfresh r' hr l ht
    rw [look_append hexcl hstep]
    cases p with
    | nil => rfl
    | cons j p =>
        have hlen : 0 + (l ++ [i]).length = l.length + 1 := by simp
        rw [hlen, look, poke_of_ne h e hct, hbare, if_neg Bool.false_ne_true, hempty,
          Option.bind_none]
  next hout =>
    exact look_poke_off (q := []) hsep hr ht hr' (node_nil 0 r') hout

end Link

include hsep hr ht in
/-- Between entries that are no links, the tables stay where they are. -/
theorem node_poke_same (hold : child l.length (h t i) = none) (hnew : child l.length e = none)
    {r' : P} (hr' : r' ∈ R) (l' : List ℕ) :
  node child (poke h t i e) 0 r' l' = node child h 0 r' l'
  := by
  by_cases hin : r' = r ∧ l ++ [i] <+: l'
  · obtain ⟨rfl, p, rfl⟩ := hin
    have hslot := node_poke_slot (i := i) (e := e) hsep hr ht
    have hstep := node_concat hslot i
    rw [poke_self, hnew] at hstep
    have hbefore := node_concat ht i
    rw [hold] at hbefore
    rw [node_append, hstep, node_append, hbefore]
    rfl
  · exact node_poke_off (q := []) hsep hr ht hr' (node_nil 0 r') hin

include hsep hr ht in
theorem Separate.poke_same (hold : child l.length (h t i) = none)
    (hnew : child l.length e = none) :
  Separate child (poke h t i e) R
  := hsep.congr fun _ hr' l' => node_poke_same hsep hr ht hold hnew hr' l'

end Poke

end Radix
