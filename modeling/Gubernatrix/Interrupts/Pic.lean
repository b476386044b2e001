import Gubernatrix.Interrupts.Allocate
import Gubernatrix.Interrupts.Dispatch
import Gubernatrix.Lib.Pic

/-!
# The legacy interrupt controllers

`pic_fini` sets up the two 8259A and masks all of their inputs, whatever state they were left in.
From then on they can only give a spurious vector, and `setup_core` has registered a handler for
it, so that `idt_mainhandler` does not panic.
-/

namespace Pic

open Dispatch Trace
open I8259 (Pair Event)

/-- `ICW4_8086`. -/
def icw4Mode8086 : BitVec 8 := 0x01

/-- `ICW1_ICW4`. -/
def icw1Icw4 : BitVec 8 := 0x01

/-- `ICW1_INIT`. -/
def icw1Init : BitVec 8 := 0x10

/-- `pic_fini`. -/
def picFini (p : Pair) : Pair :=
  let p := p.outb 0x20 (icw1Init + icw1Icw4)
  let p := p.outb 0xA0 (icw1Init + icw1Icw4)
  let p := p.outb 0x21 32
  let p := p.outb 0xA1 40
  let p := p.outb 0x21 4
  let p := p.outb 0xA1 2
  let p := p.outb 0x21 icw4Mode8086
  let p := p.outb 0xA1 icw4Mode8086
  let p := p.outb 0x21 0xFF
  p.outb 0xA1 0xFF

/-- The calls of `interrupt_allocate` in `setup_core`, with `irq0`, `irq1` and `pf_intr`. -/
def setupAllocations : List Interrupts.Act :=
  [.call 0 ⟨1, Interrupts.flagsExclusive, 0x27⟩, .call 0 ⟨1, Interrupts.flagsExclusive, 0x2f⟩,
    .call 0 ⟨1, Interrupts.flagsExclusive, 0x0e⟩]

-- the three variables keep their values
example : (final Interrupts.step Interrupts.init setupAllocations).grants.map Interrupts.Grant.base
    = [0x0e, 0x2f, 0x27] := by decide

variable {H : Type} [DecidableEq H]

/-- The calls of `interrupt_registerhandler` in `setup_core`. -/
def setupHandlers (spuriousIrqHandler pagefaultHandler : H) : List (Op H) :=
  [.register 0x27 spuriousIrqHandler, .register 0x2f spuriousIrqHandler,
    .register 0x0e pagefaultHandler]

/-! ### The controllers -/

/-- All inputs of the first controller are masked, and its vectors are those from 0x20 on. -/
structure Silent (p : Pair) : Prop where
  imr : p.master.imr = 0xff
  base : p.master.base = 0x20

/-- `pic_fini` goes through the words of the sequence, whatever the controllers were set up to
before. -/
theorem silent_picFini (p : Pair) :
  Silent (picFini p)
  := ⟨rfl, rfl⟩

theorem Silent.step {p : Pair} (h : Silent p) (e : Event) :
  Silent (I8259.step p e)
  := by
  obtain ⟨himr, hbase⟩ := I8259.masked_step ⟨h.imr, h.base⟩ e
  exact ⟨himr, hbase⟩

theorem Silent.inta {p : Pair} (h : Silent p) :
  p.inta.1 = 0x27
  := by
  rw [Pair.inta_of_masked h.imr, h.base]
  rfl

/-! ### The handlers -/

/-- A handler that is registered, and not unregistered later, is live. -/
theorem mem_live {v : Vector} {handler : H} (before : List (Op H)) {after : List (Op H)}
    (h : .unregister v handler ∉ after) :
  handler ∈ live v (before ++ .register v handler :: after)
  := by
  induction after using List.reverseRecOn with
  | nil =>
      rw [live_concat, liveStep, if_pos rfl]
      apply Multiset.mem_cons_self
  | append_singleton after op ih =>
      rw [List.mem_append, List.mem_singleton, not_or] at h
      have hmem := ih h.1
      rw [← List.cons_append, ← List.append_assoc, live_concat]
      cases op with
      | register irq other =>
          rw [liveStep]
          split
          · exact Multiset.mem_cons_of_mem hmem
          · exact hmem
      | unregister irq other =>
          rw [liveStep]
          split
          next hirq =>
            rw [Multiset.mem_filter]
            refine ⟨hmem, ?_⟩
            rintro rfl
            exact h.2 (by rw [hirq])
          next => exact hmem

/-- A handler that is live is called, and the interrupt is not one that nobody handles. -/
theorem handled_of_mem_live {ops : List (Op H)} {funcs : Funcs H} (h : run ops = .ok funcs)
    (intNo : BitVec 64) {handler : H} (hmem : handler ∈ live (intNo.setWidth 8) ops) :
  (handler, intNo.setWidth 8) ∈ (idtMainhandler funcs intNo).calls
    ∧ (idtMainhandler funcs intNo).panic = none
  := by
  have hcall : (handler, intNo.setWidth 8) ∈ (idtMainhandler funcs intNo).calls := by
    rw [calls_eq]
    apply List.mem_map_of_mem
    rwa [← run_contents h, Slots.contents, Multiset.mem_coe] at hmem
  refine ⟨hcall, ?_⟩
  rw [calls_eq] at hcall
  rw [idtMainhandler]
  rw [if_neg]
  rw [List.isEmpty_iff]
  exact List.ne_nil_of_mem hcall

/-- After `pic_fini` the controllers never interrupt the processor by themselves, whatever they were
set up to before and whatever the devices request. A vector that they still give is spurious, and as
long as the handler that `setup_core` registers for it stays registered, `idt_mainhandler` calls
it. -/
theorem handled_of_run (p : Pair) (es : List Event) {spuriousIrqHandler pagefaultHandler : H}
    {ops : List (Op H)} {funcs : Funcs H}
    (hrun : run (setupHandlers spuriousIrqHandler pagefaultHandler ++ ops) = .ok funcs)
    (hops : .unregister 0x27 spuriousIrqHandler ∉ ops) :
  Always I8259.step
    (fun q => q.int = false ∧ q.inta.1 = 0x27
      ∧ (spuriousIrqHandler, q.inta.1) ∈ (idtMainhandler funcs (q.inta.1.setWidth 64)).calls
      ∧ (idtMainhandler funcs (q.inta.1.setWidth 64)).panic = none) (picFini p) es
  := by
  have hlive : spuriousIrqHandler ∈ live 0x27
      (setupHandlers spuriousIrqHandler pagefaultHandler ++ ops) := by
    apply mem_live []
    simpa using hops
  have hhandled := handled_of_mem_live hrun ((0x27 : BitVec 8).setWidth 64) hlive
  refine Always.of_invariant (fun {q} (h : Silent q) => ?_) (fun e h => h.step e)
    (silent_picFini p) es
  rw [h.inta]
  exact ⟨Pair.int_of_masked h.imr, rfl, hhandled⟩

/-- Controllers that were half set up, with interrupts in service, and devices that go on requesting
others; later a handler is registered for the same vector and another is unregistered. -/
theorem handled_of_run_half :
  let chip : I8259.Chip := {
    phase := .icw3, single := true, needsIcw4 := false, base := 0x68, cascade := 0xff, mode := 2
    imr := 0, irr := 0x81, isr := 0x10 }
  let ops : List (Op ℕ) := [.register 0x27 3, .unregister 0x27 3, .unregister 0x2f 1]
  ∃ funcs, run (setupHandlers 1 2 ++ ops) = .ok funcs
    ∧ Always I8259.step
      (fun q => q.int = false ∧ q.inta.1 = 0x27
        ∧ (1, q.inta.1) ∈ (idtMainhandler funcs (q.inta.1.setWidth 64)).calls
        ∧ (idtMainhandler funcs (q.inta.1.setWidth 64)).panic = none)
      (picFini ⟨chip, chip⟩) [.inta, .requests 0xff 0xff, .inta, .requests 0 0, .inta]
  := by
  intro chip ops
  obtain ⟨funcs, hrun⟩ : ∃ funcs, run (setupHandlers 1 2 ++ ops) = .ok funcs := ⟨_, rfl⟩
  exact ⟨funcs, hrun, handled_of_run ⟨chip, chip⟩ _ hrun (by decide)⟩

end Pic
