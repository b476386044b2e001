import Mathlib.Data.List.Basic
import Mathlib.Data.List.Nodup
import Mathlib.Data.Fintype.EquivFin
import Mathlib.Data.Fintype.Option

/-!
# Following links

The nodes that one comes to from a node by following links until there is none. Where there is
such a list at all, it is determined by the node, and no node is on it twice.
-/

namespace Links

variable {α : Type}

/-- The links lead from a node through the nodes of a list, that node being the first one, and end
there. -/
inductive Path (next : α → Option α) : α → List α → Prop
  | last {p} (h : next p = none) : Path next p [p]
  | link {p q ps} (h : next p = some q) (rest : Path next q ps) : Path next p (p :: ps)

variable {next : α → Option α} {p : α} {ps qs : List α}

theorem Path.unique (h : Path next p ps) (h' : Path next p qs) :
  ps = qs
  := by
  induction h generalizing qs with
  | last hnone =>
      cases h' with
      | last => rfl
      | link hsome _ =>
          rw [hnone] at hsome
          cases hsome
  | link hsome _ ih =>
      cases h' with
      | last hnone =>
          rw [hnone] at hsome
          cases hsome
      | link hsome' rest' =>
          rw [hsome, Option.some.injEq] at hsome'
          subst hsome'
          rw [ih rest']

/-- The path goes on from each of its nodes. -/
theorem Path.suffix (h : Path next p ps) {q : α} (hq : q ∈ ps) :
  ∃ qs, Path next q qs ∧ qs.length ≤ ps.length
  := by
  induction h with
  | @last p hnone =>
      obtain rfl := List.mem_singleton.mp hq
      exact ⟨[q], .last hnone, Nat.le_refl _⟩
  | @link p r ps hsome rest ih =>
      rcases List.mem_cons.mp hq with rfl | hq
      · exact ⟨q :: ps, .link hsome rest, Nat.le_refl _⟩
      · obtain ⟨qs, hqs, hle⟩ := ih hq
        exact ⟨qs, hqs, Nat.le_succ_of_le hle⟩

/-- No node is on the path twice, since the rest of the path from it would have two lengths. -/
theorem Path.nodup (h : Path next p ps) :
  ps.Nodup
  := by
  induction h with
  | last => exact List.nodup_singleton _
  | @link p q ps hsome rest ih =>
      refine List.nodup_cons.mpr ⟨fun hp => ?_, ih⟩
      obtain ⟨qs, hqs, hle⟩ := rest.suffix hp
      rw [hqs.unique (.link hsome rest), List.length_cons] at hle
      omega

/-! ### When there is an end -/

/-- The node that `n` links lead to, or `none` when they end before. -/
def after (next : α → Option α) : α → ℕ → Option α
  | p, 0 => some p
  | p, n + 1 => (next p).bind fun q => after next q n

/-- The nodes on the path are those that the links lead to. -/
theorem Path.after_eq (h : Path next p ps) (n : ℕ) :
  after next p n = ps[n]?
  := by
  induction h generalizing n with
  | last hnone =>
      cases n with
      | zero => rfl
      | succ n => rw [after, hnone, Option.bind_none, List.getElem?_cons_succ, List.getElem?_nil]
  | link hsome _ ih =>
      cases n with
      | zero => rfl
      | succ n => rw [after, hsome, Option.bind_some, ih, List.getElem?_cons_succ]

theorem exists_path_of_after {n : ℕ} (h : after next p n = none) :
  ∃ ps, Path next p ps
  := by
  induction n generalizing p with
  | zero => cases h
  | succ n ih =>
      rw [after] at h
      cases hq : next p with
      | none => exact ⟨[p], .last hq⟩
      | some q =>
          rw [hq, Option.bind_some] at h
          obtain ⟨ps, hps⟩ := ih h
          exact ⟨p :: ps, .link hq hps⟩

/-- The links have an end just when they never lead to a node again. -/
theorem exists_path_iff [Finite α] :
  (∃ ps, Path next p ps)
    ↔ ∀ i j, i < j → after next p i ≠ none → after next p i ≠ after next p j
  := by
  constructor
  · rintro ⟨ps, hps⟩ i j hij hi heq
    rw [hps.after_eq] at hi
    rw [hps.after_eq, hps.after_eq] at heq
    have hlt : i < ps.length := by
      by_contra hge
      apply hi (List.getElem?_eq_none (not_lt.mp hge))
    have hsame := (List.getElem?_inj hlt hps.nodup).mp heq
    omega
  · intro hne
    by_contra hnone
    have hsome : ∀ n, after next p n ≠ none := fun n hn => hnone (exists_path_of_after hn)
    apply not_injective_infinite_finite (after next p)
    intro i j heq
    rcases lt_trichotomy i j with hlt | rfl | hlt
    · exact absurd heq (hne i j hlt (hsome i))
    · rfl
    · exact absurd heq.symm (hne j i hlt (hsome j))

/-! ### Walking -/

/-- Do `step` at a node and then follow its link as long as there is one, unless a step ends the
walk; `none` when this takes more than `n` steps. -/
def walk (next : σ → α → Option α) (step : σ → α → Except ε σ) :
    ℕ → α → σ → Option (Except ε σ)
  | 0, _, _ => none
  | n + 1, p, s =>
      match step s p with
      | .error e => some (.error e)
      | .ok s =>
          match next s p with
          | some q => walk next step n q s
          | none => some (.ok s)

/-- If the steps leave the links alone, the walk takes the steps at the nodes of the path. -/
theorem walk_eq_foldlM {next : σ → α → Option α} {step : σ → α → Except ε σ}
    (hstep : ∀ s p s', step s p = .ok s' → next s' = next s) {n : ℕ} {s : σ}
    (h : Path (next s) p ps) (hn : ps.length ≤ n) :
  walk next step n p s = some (ps.foldlM step s)
  := by
  induction ps generalizing n p s with
  | nil => cases h
  | cons q qs ih =>
      cases n with
      | zero => cases hn
      | succ n =>
          have hq : q = p := by
            cases h <;> rfl
          subst hq
          rw [walk, List.foldlM_cons]
          cases hs : step s q with
          | error e => rfl
          | ok s' =>
              have hnext := hstep s q s' hs
              rw [← hnext] at h
              cases h with
              | last hnone =>
                  simp only [hnone]
                  rfl
              | link hsome rest =>
                  simp only [hsome]
                  exact ih rest (Nat.le_of_succ_le_succ hn)

theorem walk_ne_none {next : σ → α → Option α} {step : σ → α → Except ε σ}
    (hstep : ∀ s p s', step s p = .ok s' → next s' = next s) {s : σ} (h : Path (next s) p ps) :
  walk next step ps.length p s ≠ none
  := by
  rw [walk_eq_foldlM hstep h (Nat.le_refl _)]
  apply Option.some_ne_none

/-- If no step ends the walk or touches the links, a walk that ends has gone to the end of them. -/
theorem exists_path_of_walk {next : σ → α → Option α} {step : σ → α → Except ε σ}
    (hstep : ∀ s p, ∃ s', step s p = .ok s' ∧ next s' = next s) {n : ℕ} {s : σ}
    (h : walk next step n p s ≠ none) :
  ∃ ps, Path (next s) p ps
  := by
  induction n generalizing p s with
  | zero => exact absurd rfl h
  | succ n ih =>
      obtain ⟨s', hs, hnext⟩ := hstep s p
      rw [walk, hs] at h
      cases hq : next s p with
      | none => exact ⟨[p], .last hq⟩
      | some q =>
          dsimp only at h
          rw [hnext, hq] at h
          obtain ⟨ps, hps⟩ := ih h
          rw [hnext] at hps
          exact ⟨p :: ps, .link hq hps⟩

end Links
