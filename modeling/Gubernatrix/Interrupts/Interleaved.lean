import Gubernatrix.Interrupts.Dispatch
import Gubernatrix.Spinlock

/-!
# Registration of handlers on several cores

`interrupt_registerhandler` and `interrupt_unregisterhandler` called by any number of cores at
once. Both walk over the slots of a vector under `interrupt_alloc_lock`, and the loads and stores
of the slots are interleaved in any order. `handlers_interleaved` says that the calls act one
after the other, so that the handlers that `idt_mainhandler` finds are those of the sequential
model.
-/

namespace Dispatch

open Atomic Spinlock

variable {H : Type} [DecidableEq H]

/-- Where a core is between the lock and the release of it. -/
inductive At (H : Type)
  | search (irq : Vector) (handler : H) (i : ℕ)
  | store (irq : Vector) (handler : H) (i : ℕ)
  | scan (irq : Vector) (handler : H) (i : ℕ)
  | clear (irq : Vector) (handler : H) (i : ℕ)
  | finish (panic : Option String)

/-- The code of the two functions under the lock. Each step reads a slot or writes one; what a
call ends with is the text of the panic, if there is one. -/
def code : Code (Funcs H) (Op H) (Option String) (At H) where
  start
    | .register irq handler => .search irq handler 0
    | .unregister irq handler => .scan irq handler 0
  next funcs
    | .search irq handler i =>
        if i < idtHandlerCnt then
          if (funcs irq).cells[i]? = some none then (funcs, .store irq handler i)
          else (funcs, .search irq handler (i + 1))
        else (funcs, .finish (some "Interrupt oversubscribed!"))
    | .store irq handler i =>
        (Function.update funcs irq ((funcs irq).set i (some handler)), .finish none)
    | .scan irq handler i =>
        if i < idtHandlerCnt then
          if (funcs irq).cells[i]? = some (some handler) then (funcs, .clear irq handler i)
          else (funcs, .scan irq handler (i + 1))
        else (funcs, .finish none)
    | .clear irq handler i =>
        (Function.update funcs irq ((funcs irq).set i none), .scan irq handler (i + 1))
    | .finish panic => (funcs, .finish panic)
  done
    | .finish panic => some panic
    | _ => none

/-- A call, with the text of its panic. -/
def serve (funcs : Funcs H) (op : Op H) : Option String × Funcs H :=
  match step funcs op with
  | .ok funcs' => (none, funcs')
  | .error text => (some text, funcs)

/-- The first `i` slots of the vector hold the handler no more, and nothing else has changed. -/
structure Cleared (funcs : Funcs H) (irq : Vector) (handler : H) (i : ℕ) (m : Funcs H) : Prop where
  others : ∀ v, v ≠ irq → m v = funcs v
  before : ∀ j < i, (m irq).cells[j]? = ((funcs irq).erase handler).cells[j]?
  after : ∀ j, i ≤ j → (m irq).cells[j]? = (funcs irq).cells[j]?

/-- What is known of the handlers and of a core in the code. -/
def Known (funcs : Funcs H) (op : Op H) (m : Funcs H) : At H → Prop
  | .search irq handler i => m = funcs ∧ op = .register irq handler
      ∧ ∀ j < i, (funcs irq).cells[j]? ≠ some none
  | .store irq handler i => m = funcs ∧ op = .register irq handler
      ∧ (∀ j < i, (funcs irq).cells[j]? ≠ some none) ∧ (funcs irq).cells[i]? = some none
  | .scan irq handler i => op = .unregister irq handler ∧ i ≤ idtHandlerCnt
      ∧ Cleared funcs irq handler i m
  | .clear irq handler i => op = .unregister irq handler ∧ i < idtHandlerCnt
      ∧ Cleared funcs irq handler i m ∧ (m irq).cells[i]? = some (some handler)
  | .finish panic => serve funcs op = (panic, m)

section Cleared

variable {funcs m : Funcs H} {irq : Vector} {handler : H} {i : ℕ}

theorem Cleared.refl (funcs : Funcs H) (irq : Vector) (handler : H) :
  Cleared funcs irq handler 0 funcs
  where
  others _ _ := rfl
  before _ hj := absurd hj (Nat.not_lt_zero _)
  after _ _ := rfl

theorem getElem?_erase (s : Slots H idtHandlerCnt) (handler : H) (j : ℕ) :
  (s.erase handler).cells[j]? = s.cells[j]?.map fun c => if c = some handler then none else c
  := List.getElem?_map ..

/-- A slot without the handler is left as it is. -/
theorem Cleared.skip (h : Cleared funcs irq handler i m)
    (hslot : (m irq).cells[i]? ≠ some (some handler)) :
  Cleared funcs irq handler (i + 1) m
  := by
  refine ⟨h.others, fun j hj => ?_, fun j hj => h.after j (by omega)⟩
  rcases Nat.lt_succ_iff_lt_or_eq.mp hj with hlt | rfl
  · exact h.before j hlt
  · rw [h.after j le_rfl] at hslot ⊢
    rw [getElem?_erase]
    cases hcell : (funcs irq).cells[j]? with
    | none => rfl
    | some c =>
        have hne : c ≠ some handler := by
          rintro rfl
          exact hslot hcell
        rw [Option.map_some, if_neg hne]

/-- A slot with the handler is cleared. -/
theorem Cleared.clear (h : Cleared funcs irq handler i m) (hi : i < idtHandlerCnt)
    (hslot : (m irq).cells[i]? = some (some handler)) :
  Cleared funcs irq handler (i + 1) (Function.update m irq ((m irq).set i none))
  := by
  have hlength : i < (m irq).cells.length := by
    rw [(m irq).length]
    exact hi
  refine ⟨fun v hv => ?_, fun j hj => ?_, fun j hj => ?_⟩
  · rw [Function.update_of_ne hv, h.others v hv]
  · rw [Function.update_self, Slots.set, List.getElem?_set]
    rcases Nat.lt_succ_iff_lt_or_eq.mp hj with hlt | rfl
    · rw [if_neg (by omega), h.before j hlt]
    · rw [h.after j le_rfl] at hslot
      rw [if_pos rfl, if_pos hlength, getElem?_erase, hslot, Option.map_some, if_pos rfl]
  · rw [Function.update_self, Slots.set, List.getElem?_set, if_neg (by omega),
      h.after j (by omega)]

/-- When all slots are passed, the handler is unregistered. -/
theorem Cleared.all (h : Cleared funcs irq handler idtHandlerCnt m) :
  interruptUnregisterhandler funcs irq handler = m
  := by
  funext v
  rw [interruptUnregisterhandler]
  by_cases hv : v = irq
  · subst hv
    rw [Function.update_self]
    apply Slots.ext_cells
    intro j hj
    exact (h.before j hj).symm
  · rw [Function.update_of_ne hv, h.others v hv]

end Cleared

theorem computes_serve :
  (code (H := H)).Computes serve
  := by
  refine Code.computes_of_invariant Known ?_ ?_ ?_ ?_
  · rintro funcs (⟨irq, handler⟩ | ⟨irq, handler⟩)
    · exact ⟨rfl, rfl, fun j hj => absurd hj (Nat.not_lt_zero _)⟩
    · exact ⟨rfl, Nat.zero_le _, Cleared.refl ..⟩
  · intro funcs op m k hk hdone
    cases k with
    | search irq handler i =>
        obtain ⟨rfl, rfl, hbefore⟩ := hk
        by_cases hi : i < idtHandlerCnt
        · by_cases hfree : (m irq).cells[i]? = some none
          · simp only [code, if_pos hi, if_pos hfree]
            exact ⟨rfl, rfl, hbefore, hfree⟩
          · simp only [code, if_pos hi, if_neg hfree]
            refine ⟨rfl, rfl, fun j hj => ?_⟩
            rcases Nat.lt_succ_iff_lt_or_eq.mp hj with hlt | rfl
            · exact hbefore j hlt
            · exact hfree
        · simp only [code, if_neg hi]
          have hnone : (m irq).insert handler = none :=
            Slots.insert_eq_none fun j hj => hbefore j (by omega)
          rw [Known, serve, step, interruptRegisterhandler, hnone]
    | store irq handler i =>
        obtain ⟨rfl, rfl, hbefore, hfree⟩ := hk
        have hsome : (m irq).insert handler = some ((m irq).set i (some handler)) :=
          Slots.insert_eq_set hbefore hfree
        simp only [code]
        rw [Known, serve, step, interruptRegisterhandler, hsome]
    | scan irq handler i =>
        obtain ⟨rfl, hle, hcleared⟩ := hk
        by_cases hi : i < idtHandlerCnt
        · by_cases hslot : (m irq).cells[i]? = some (some handler)
          · simp only [code, if_pos hi, if_pos hslot]
            exact ⟨rfl, hi, hcleared, hslot⟩
          · simp only [code, if_pos hi, if_neg hslot]
            exact ⟨rfl, hi, hcleared.skip hslot⟩
        · simp only [code, if_neg hi]
          obtain rfl : i = idtHandlerCnt := by omega
          rw [Known, serve, step, hcleared.all]
    | clear irq handler i =>
        obtain ⟨rfl, hi, hcleared, hslot⟩ := hk
        exact ⟨rfl, hi, hcleared.clear hi hslot⟩
    | finish panic => cases hdone
  · rintro funcs op m k o hk hdone
    cases k with
    | finish panic =>
        obtain rfl : panic = o := Option.some.inj hdone
        exact hk
    | _ => cases hdone
  · intro m k o hdone
    cases k with
    | finish panic => rfl
    | _ => cases hdone

/-! ### Any interleaving -/

section Run

variable {θ : Type}

/-- The calls that did not panic, in the order of their effects. -/
def done (h : List (Effect θ (Op H) (Option String))) : List (Op H) :=
  (h.filter (·.output = none)).map (·.input)

/-- The rows hold what the calls that did not panic have left registered. -/
theorem contents_of_run {funcs funcs' : Funcs H} {h : List (Effect θ (Op H) (Option String))}
    (hrun : Machine.run serve funcs (h.map (·.input)) = (h.map (·.output), funcs')) (v : Vector) :
  (funcs' v).contents = (done h).foldl (liveStep v) (funcs v).contents
  := by
  induction h generalizing funcs with
  | nil =>
      obtain rfl : funcs = funcs' := (Prod.mk.inj hrun).2
      rfl
  | cons e h ih =>
      obtain ⟨t, op, panic⟩ := e
      simp only [List.map_cons, Machine.run, Prod.mk.injEq, List.cons.injEq] at hrun
      obtain ⟨⟨hreply, hreplies⟩, hlast⟩ := hrun
      rw [ih (Prod.ext hreplies hlast)]
      rw [serve] at hreply ⊢
      cases hstep : step funcs op with
      | ok before =>
          rw [hstep] at hreply
          obtain rfl : none = panic := hreply
          rw [step_contents hstep v]
          simp [done]
      | error text =>
          rw [hstep] at hreply
          obtain rfl : some text = panic := hreply
          simp [done]

/-- However the accesses of the cores are interleaved, when no core is in a call the handlers are
those that some order of the calls leaves registered: each core has got the replies of its own
calls in that order, and `idt_mainhandler` calls each handler as often as it has been registered
for the vector since it was last unregistered from it. -/
theorem handlers_interleaved [DecidableEq θ] (acts : List (Act θ (Op H)))
    (hidle : ∀ t, (final (Spinlock.next code)
      (Spinlock.quiet fun _ => Slots.empty H idtHandlerCnt) acts).core t = .idle) :
  let start : World θ (Funcs H) (Op H) (Option String) (At H) :=
    Spinlock.quiet fun _ => .empty H idtHandlerCnt
  let es := events (Spinlock.next code) start acts
  let funcs := (final (Spinlock.next code) start acts).mem
  ∃ h : List (Effect θ (Op H) (Option String)),
    (∀ t, callsOf t es = (effectsOf t h).map (·.input)
      ∧ repliesOf t es = (effectsOf t h).map (·.output))
    ∧ Machine.run serve (fun _ => .empty H idtHandlerCnt) (h.map (·.input))
      = (h.map (·.output), funcs)
    ∧ ∀ intNo handler, (idtMainhandler funcs intNo).calls.count (handler, intNo.setWidth 8)
      = registrations (intNo.setWidth 8) handler (done h)
  := by
  intro start es funcs
  obtain ⟨a, hpath, hmem, hstatus⟩ :=
    path_of_run computes_serve (fun _ => Slots.empty H idtHandlerCnt) acts
  obtain ⟨h, hrun, hcalls, hreplies⟩ := hpath.exists_history
  have hquiet : ∀ t, a.status t = .idle := by
    intro t
    rw [hstatus, hidle]
    rfl
  have hfuncs : funcs = a.state := by
    apply hmem
    intro t
    rw [hidle]
    exact id
  simp only [hquiet, Object.quiet, Status.waiting, Status.pending, List.nil_append,
    List.append_nil] at hcalls hreplies
  refine ⟨h, fun t => ⟨hcalls t, hreplies t⟩, hfuncs ▸ hrun, fun intNo handler => ?_⟩
  have hinjective :
      Function.Injective fun handler : H => (handler, (intNo.setWidth 8 : Vector)) :=
    fun _ _ heq => (Prod.mk.inj heq).1
  rw [calls_eq, List.count_map_of_injective _ _ hinjective, ← count_live, live,
    show (0 : Multiset H) = (Slots.empty H idtHandlerCnt).contents from Slots.contents_empty.symm,
    hfuncs, ← Multiset.coe_count]
  exact congrArg _ (contents_of_run hrun (intNo.setWidth 8))

end Run

/-- Two cores that register one handler each for the same vector: the one that has called last
gets the lock first, and its handler is in the first slot. -/
theorem handlers_interleaved_two :
  let acts : List (Act (Fin 2) (Op ℕ)) := [.call 0 (.register 0x21 1), .call 1 (.register 0x21 2),
    .step 1, .step 0, .step 1, .step 0, .step 1, .step 1, .step 0, .step 0, .step 0, .step 0,
    .step 0, .step 0, .step 0, .step 1]
  let start : World (Fin 2) (Funcs ℕ) (Op ℕ) (Option String) (At ℕ) :=
    Spinlock.quiet fun _ => .empty ℕ idtHandlerCnt
  let es := events (Spinlock.next code) start acts
  let funcs := (final (Spinlock.next code) start acts).mem
  repliesOf 0 es = [none] ∧ repliesOf 1 es = [none]
    ∧ (idtMainhandler funcs 0x21).calls = [(2, 0x21), (1, 0x21)]
    ∧ ∃ h : List (Effect (Fin 2) (Op ℕ) (Option String)),
      (∀ t, callsOf t es = (effectsOf t h).map (·.input)
        ∧ repliesOf t es = (effectsOf t h).map (·.output))
      ∧ registrations 0x21 1 (done h) = 1 ∧ registrations 0x21 2 (done h) = 1
  := by
  intro acts start es funcs
  have hreplies : repliesOf 0 es = [none] ∧ repliesOf 1 es = [none] := by decide +kernel
  have hmain : (idtMainhandler funcs 0x21).calls = [(2, 0x21), (1, 0x21)] := by decide +kernel
  obtain ⟨h, hseen, -, hcalls⟩ := handlers_interleaved acts (Fin.forall_fin_two.mpr ⟨rfl, rfl⟩)
  refine ⟨hreplies.1, hreplies.2, hmain, h, hseen, ?_, ?_⟩
  · exact (hcalls 0x21 1).symm.trans (congrArg (List.count (1, 0x21)) hmain)
  · exact (hcalls 0x21 2).symm.trans (congrArg (List.count (2, 0x21)) hmain)

end Dispatch
