import Gubernatrix.Interrupts.Entry

/-!
# Handing over the interrupted context

`interrupt_getregisterstate` and `interrupt_setregisterstate`, which a registered handler calls to
read and to replace the context that was interrupted, and the functions of `smp.c` over them.

To the code of a core the interrupted context is a variable that these functions read and write:
`context_runs` says that, over any run of code and interrupts, the core and the buffers are what
they are when the context is such a variable.
-/

namespace Idt

open X86

/-- `interrupt_register_state_t`. -/
@[ext] structure InterruptRegisterState where
  r15 : Word
  r14 : Word
  r13 : Word
  r12 : Word
  r11 : Word
  r10 : Word
  r9 : Word
  r8 : Word
  rdi : Word
  rsi : Word
  rdx : Word
  rcx : Word
  rbx : Word
  rax : Word
  rflags : Word
  rip : Word
  cs : Word
  ss : Word
  rbp : Word
  rsp : Word
deriving DecidableEq

/-- What `interrupt_getregisterstate` fills in, where `regRef` is `idt->reg_ref`. -/
def interruptGetregisterstate (mem : Mem) (regRef : Word) : InterruptRegisterState :=
  let regs := RegsT.read mem regRef
  { r15 := regs.r15
    r14 := regs.r14
    r13 := regs.r13
    r12 := regs.r12
    r11 := regs.r11
    r10 := regs.r10
    r9 := regs.r9
    r8 := regs.r8
    rdi := regs.rdi
    rsi := regs.rsi
    rdx := regs.rdx
    rcx := regs.rcx
    rbx := regs.rbx
    rax := regs.rax
    rflags := regs.rflags
    rip := regs.rip
    cs := regs.cs
    ss := regs.ss
    rbp := regs.rbp
    rsp := regs.useresp }

/-- `interrupt_setregisterstate`, where `regRef` is `idt->reg_ref`. -/
def interruptSetregisterstate (mem : Mem) (regRef : Word) (state : InterruptRegisterState) : Mem :=
  let mem := mem.write regRef 1 state.r15
  let mem := mem.write regRef 2 state.r14
  let mem := mem.write regRef 3 state.r13
  let mem := mem.write regRef 4 state.r12
  let mem := mem.write regRef 5 state.r11
  let mem := mem.write regRef 6 state.r10
  let mem := mem.write regRef 7 state.r9
  let mem := mem.write regRef 8 state.r8
  let mem := mem.write regRef 9 state.rdi
  let mem := mem.write regRef 10 state.rsi
  let mem := mem.write regRef 12 state.rdx
  let mem := mem.write regRef 13 state.rcx
  let mem := mem.write regRef 14 state.rbx
  let mem := mem.write regRef 15 state.rax
  let mem := mem.write regRef 20 state.rflags
  let mem := mem.write regRef 18 state.rip
  let mem := mem.write regRef 19 state.cs
  let mem := mem.write regRef 22 state.ss
  let mem := mem.write regRef 11 state.rbp
  mem.write regRef 21 state.rsp

/-- `smp_platform_getdefaultstate`. -/
def smpPlatformGetdefaultstate (stackpointer instrPtr args : Word) : InterruptRegisterState where
  r15 := 0
  r14 := 0
  r13 := 0
  r12 := 0
  r11 := 0
  r10 := 0
  r9 := 0
  r8 := 0
  rdi := args
  rsi := 0
  rdx := 0
  rcx := 0
  rbx := 0
  rax := 0
  rflags := 0x0200
  rip := instrPtr
  cs := 0x8
  ss := 0x10
  rbp := stackpointer
  rsp := stackpointer

/-- What `interrupt_setregisterstate` writes at which words. -/
def InterruptRegisterState.words (state : InterruptRegisterState) : List (ℕ × Word) :=
  [(1, state.r15), (2, state.r14), (3, state.r13), (4, state.r12), (5, state.r11), (6, state.r10),
    (7, state.r9), (8, state.r8), (9, state.rdi), (10, state.rsi), (12, state.rdx),
    (13, state.rcx), (14, state.rbx), (15, state.rax), (20, state.rflags), (18, state.rip),
    (19, state.cs), (22, state.ss), (11, state.rbp), (21, state.rsp)]

/-- What is read after it was written. -/
theorem get_set (mem : Mem) (regRef : Word) (state : InterruptRegisterState) :
  interruptGetregisterstate (interruptSetregisterstate mem regRef state) regRef = state
  := by
  have hwords : ∀ x ∈ state.words,
      (interruptSetregisterstate mem regRef state).word regRef x.1 = x.2 := by
    apply Mem.word_foldl_write
    · simp [InterruptRegisterState.words]
    · simp [InterruptRegisterState.words]
  generalize interruptSetregisterstate mem regRef state = mem' at hwords
  simp only [InterruptRegisterState.words, List.forall_mem_cons] at hwords
  obtain ⟨hr15, hr14, hr13, hr12, hr11, hr10, hr9, hr8, hrdi, hrsi, hrdx, hrcx, hrbx, hrax, hrflags,
    hrip, hcs, hss, hrbp, hrsp, -⟩ := hwords
  exact InterruptRegisterState.ext hr15 hr14 hr13 hr12 hr11 hr10 hr9 hr8 hrdi hrsi hrdx hrcx hrbx
    hrax hrflags hrip hcs hss hrbp hrsp

/-! ### Calls of the handlers -/

/-- What the registered handlers do: they call the functions with a buffer, or `none` for `NULL`,
and their other code leaves the memory as it is then. -/
inductive Call (β : Type)
  | get (buf : Option β)
  | set (buf : Option β)
  | platformGet (buf : Option β)
  | platformSet (buf : Option β)
  | platformDefault (buf : β) (stackpointer instrPtr args : Word)
  | other (mem : Mem)

/-- The buffers. -/
abbrev Buffers (β : Type) := β → InterruptRegisterState

section Calls

variable {β : Type} [DecidableEq β]

/-- The memory and the buffers after a call, or `none` after `PANIC`. -/
def Call.exec (regRef : Word) (mem : Mem) (bufs : Buffers β) : Call β → Option (Mem × Buffers β)
  | .get none => some (mem, bufs)
  | .get (some b) =>
      some (mem, Function.update bufs b (interruptGetregisterstate mem regRef))
  | .set none => some (mem, bufs)
  | .set (some b) => some (interruptSetregisterstate mem regRef (bufs b), bufs)
  | .platformGet none => none
  | .platformGet (some b) =>
      some (mem, Function.update bufs b (interruptGetregisterstate mem regRef))
  | .platformSet none => none
  | .platformSet (some b) => some (interruptSetregisterstate mem regRef (bufs b), bufs)
  | .platformDefault b stackpointer instrPtr args =>
      some (mem, Function.update bufs b (smpPlatformGetdefaultstate stackpointer instrPtr args))
  | .other mem => some (mem, bufs)

/-- The memory and the buffers when the handlers have returned. -/
def serve (regRef : Word) : List (Call β) → Mem → Buffers β → Option (Mem × Buffers β)
  | [], mem, bufs => some (mem, bufs)
  | call :: calls, mem, bufs =>
      (call.exec regRef mem bufs).bind fun x => serve regRef calls x.1 x.2

/-- The other code of the handlers leaves the interrupted context in the frame. -/
def Untouched (regRef : Word) : List (Call β) → Mem → Buffers β → Prop
  | [], _, _ => True
  | call :: calls, mem, bufs =>
      (∀ mem', call = .other mem' →
        interruptGetregisterstate mem' regRef = interruptGetregisterstate mem regRef)
      ∧ ∀ x ∈ call.exec regRef mem bufs, Untouched regRef calls x.1 x.2

end Calls

/-! ### The context as a variable -/

/-- The context that code runs in. -/
def contextOf (c : Cpu) : InterruptRegisterState where
  r15 := c.regs .r15
  r14 := c.regs .r14
  r13 := c.regs .r13
  r12 := c.regs .r12
  r11 := c.regs .r11
  r10 := c.regs .r10
  r9 := c.regs .r9
  r8 := c.regs .r8
  rdi := c.regs .rdi
  rsi := c.regs .rsi
  rdx := c.regs .rdx
  rcx := c.regs .rcx
  rbx := c.regs .rbx
  rax := c.regs .rax
  rflags := c.rflags
  rip := c.rip
  cs := c.cs.setWidth 64
  ss := c.ss.setWidth 64
  rbp := c.regs .rbp
  rsp := c.regs .rsp

/-- The context that is resumed: the processor takes a selector from the low half word. -/
def InterruptRegisterState.resumed (s : InterruptRegisterState) : InterruptRegisterState :=
  { s with cs := (s.cs.setWidth 16).setWidth 64, ss := (s.ss.setWidth 16).setWidth 64 }

section Variable

variable {β : Type} [DecidableEq β]

/-- A call as it acts on a variable and the buffers. -/
def Call.assign (context : InterruptRegisterState) (bufs : Buffers β) :
    Call β → Option (InterruptRegisterState × Buffers β)
  | .get none | .set none | .other _ => some (context, bufs)
  | .get (some b) | .platformGet (some b) => some (context, Function.update bufs b context)
  | .set (some b) | .platformSet (some b) => some (bufs b, bufs)
  | .platformGet none | .platformSet none => none
  | .platformDefault b stackpointer instrPtr args =>
      some (context, Function.update bufs b (smpPlatformGetdefaultstate stackpointer instrPtr args))

/-- The variable and the buffers after the calls. -/
def assign : List (Call β) → InterruptRegisterState → Buffers β →
    Option (InterruptRegisterState × Buffers β)
  | [], context, bufs => some (context, bufs)
  | call :: calls, context, bufs =>
      (call.assign context bufs).bind fun x => assign calls x.1 x.2

variable {regRef : Word} {mem : Mem} {bufs : Buffers β}

theorem exec_assign (bufs : Buffers β) (call : Call β)
    (hother : ∀ mem', call = .other mem' →
      interruptGetregisterstate mem' regRef = interruptGetregisterstate mem regRef) :
  (call.exec regRef mem bufs).map (fun x => (interruptGetregisterstate x.1 regRef, x.2))
    = call.assign (interruptGetregisterstate mem regRef) bufs
  := by
  cases call with
  | get b => cases b <;> rfl
  | set b =>
      cases b with
      | none => rfl
      | some b => simp only [Call.exec, Call.assign, Option.map_some, get_set]
  | platformGet b => cases b <;> rfl
  | platformSet b =>
      cases b with
      | none => rfl
      | some b => simp only [Call.exec, Call.assign, Option.map_some, get_set]
  | platformDefault b stackpointer instrPtr args => rfl
  | other mem' => simp only [Call.exec, Call.assign, Option.map_some, hother mem' rfl]

/-- The handlers see a variable in the frame. -/
theorem serve_assign {calls : List (Call β)} (h : Untouched regRef calls mem bufs) :
  (serve regRef calls mem bufs).map (fun x => (interruptGetregisterstate x.1 regRef, x.2))
    = assign calls (interruptGetregisterstate mem regRef) bufs
  := by
  induction calls generalizing mem bufs with
  | nil => rfl
  | cons call calls ih =>
      have hexec := exec_assign bufs call h.1
      rw [serve, assign, ← hexec]
      cases hx : call.exec regRef mem bufs with
      | none => rfl
      | some x => exact ih (h.2 x hx)

end Variable

/-! ### Runs of a core -/

/-- What happens on a core: code runs and leaves it in some state, or an interrupt is taken. The
registers are what they are when `idt_mainhandler` returns. -/
inductive Event (β : Type)
  | code (c : Cpu)
  | interrupt (v : Byte) (err : Word) (calls : List (Call β)) (regs : Reg → Word)

section Runs

variable {β : Type} [DecidableEq β]

/-- The return from `idt_mainhandler`, to which the compiler gives back the stack pointer. -/
def ret (c : Cpu) (mem : Mem) (regs : Reg → Word) : Cpu :=
  leave { c with mem := mem, regs := Function.update regs .rsp (c.regs .rsp) }

/-- The core and the buffers after an event. -/
def Event.exec (k : Kernel) (c : Cpu) (bufs : Buffers β) : Event β → Option (Cpu × Buffers β)
  | .code c' => some (c', bufs)
  | .interrupt v err calls regs =>
      (k.enter v err c).bind fun c' =>
        (serve (c'.regs .rdi) calls c'.mem bufs).map fun x => (ret c' x.1 regs, x.2)

/-- The core and the buffers after a run. -/
def runs (k : Kernel) : List (Event β) → Cpu → Buffers β → Option (Cpu × Buffers β)
  | [], c, bufs => some (c, bufs)
  | e :: es, c, bufs => (e.exec k c bufs).bind fun x => runs k es x.1 x.2

/-- The error code of the interrupt is not pushed twice, and the handlers leave the frame to the
functions. -/
def Event.Proper (k : Kernel) (c : Cpu) (bufs : Buffers β) : Event β → Prop
  | .code _ => True
  | .interrupt v err calls _ =>
      ¬ PushedTwice v ∧ ∀ c' ∈ k.enter v err c, Untouched (c'.regs .rdi) calls c'.mem bufs

/-- Every event of a run is proper. -/
def Proper (k : Kernel) : List (Event β) → Cpu → Buffers β → Prop
  | [], _, _ => True
  | e :: es, c, bufs => e.Proper k c bufs ∧ ∀ x ∈ e.exec k c bufs, Proper k es x.1 x.2

/-- An event as it acts on the context. -/
def Event.assign (context : InterruptRegisterState) (bufs : Buffers β) :
    Event β → Option (InterruptRegisterState × Buffers β)
  | .code c => some (contextOf c, bufs)
  | .interrupt _ _ calls _ => (Idt.assign calls context bufs).map fun x => (x.1.resumed, x.2)

/-- The context and the buffers after a run. -/
def assigns : List (Event β) → InterruptRegisterState → Buffers β →
    Option (InterruptRegisterState × Buffers β)
  | [], context, bufs => some (context, bufs)
  | e :: es, context, bufs => (e.assign context bufs).bind fun x => assigns es x.1 x.2

/-- `idt_mainhandler` finds the interrupted context in the frame. -/
theorem enter_context (k : Kernel) {v : Byte} (hv : ¬ PushedTwice v) (err : Word) (c : Cpu) :
  ∃ c', k.enter v err c = some c' ∧ c'.regs .rdi = c'.regs .rsp
    ∧ interruptGetregisterstate c'.mem (c'.regs .rdi) = contextOf c
  := by
  obtain ⟨c', a, henter, hrdi, hstack⟩ := enter_spec k v err c
  obtain ⟨e, he⟩ := pushed_once hv err c
  rw [he, context] at hstack
  have hframe := frame_eq hrdi hstack
  rw [frame] at hframe
  refine ⟨c', henter, hrdi, ?_⟩
  rw [interruptGetregisterstate, hframe]
  rfl

/-- The context in the frame is resumed. -/
theorem contextOf_ret {c : Cpu} (hrdi : c.regs .rdi = c.regs .rsp) (mem : Mem)
    (regs : Reg → Word) :
  contextOf (ret c mem regs) = (interruptGetregisterstate mem (c.regs .rdi)).resumed
  := by
  obtain ⟨hreg, hrip, hcs, hrflags, hss⟩ := leave_spec
    (c := { c with mem := mem, regs := Function.update regs .rsp (c.regs .rsp) }) rfl
  rw [ret, contextOf, hrip, hcs, hrflags, hss]
  simp only [hreg]
  rw [Function.update_self, ← hrdi]
  rfl

/-- One event. -/
theorem exec_event {k : Kernel} {c : Cpu} {bufs : Buffers β} {e : Event β}
    (h : e.Proper k c bufs) :
  (e.exec k c bufs).map (fun x => (contextOf x.1, x.2)) = e.assign (contextOf c) bufs
  := by
  cases e with
  | code c' => rfl
  | interrupt v err calls regs =>
      obtain ⟨c', henter, hrdi, hcontext⟩ := enter_context k h.1 err c
      have hserve := serve_assign (h.2 c' henter)
      rw [hcontext] at hserve
      rw [Event.exec, Event.assign, henter, Option.bind_some, ← hserve, Option.map_map,
        Option.map_map]
      congr 1
      funext x
      simp only [Function.comp_apply, contextOf_ret hrdi]

/-- Over a run of a core in which no vector pushes an error code of its own twice and no code of a
handler writes over the frame, the interrupted context is a variable: the functions read it and
write it, the return from the interrupt resumes it, and the buffers hold what was read. -/
theorem context_runs (k : Kernel) (es : List (Event β)) (c : Cpu) (bufs : Buffers β)
    (h : Proper k es c bufs) :
  (runs k es c bufs).map (fun x => (contextOf x.1, x.2)) = assigns es (contextOf c) bufs
  := by
  induction es generalizing c bufs with
  | nil => rfl
  | cons e es ih =>
      rw [runs, assigns, ← exec_event h.1]
      cases hx : e.exec k c bufs with
      | none => rfl
      | some x => exact ih x.1 x.2 (h.2 x hx)

/-- A timer interrupt puts the context away and starts a thread, and the next one puts the thread
away and goes back. -/
theorem context_runs_switch :
  let k : Kernel := {
    idtHandlers := 0xffffffff80100000, defaulthandler := 0xffffffff80001000
    tss := { rsp0 := 0xffffffff80200000, ist := fun _ => 0 } }
  let c : Cpu := {
    regs := fun _ => 0x8000, rip := 0x401000, cs := 0x8, rflags := 0x202, ss := 0x10
    mem := fun _ => 0 }
  let thread := smpPlatformGetdefaultstate 0x9000 0x402000 7
  (runs k [.interrupt 32 0 [.get (some false), .set (some true)] (fun _ => 0),
      .interrupt 32 0 [.get (some true), .set (some false)] (fun _ => 0)] c
      (fun _ => thread)).map (fun x => (contextOf x.1, x.2 false, x.2 true))
    = some (contextOf c, contextOf c, thread)
  := by
  intro k c thread
  have hruns := context_runs k [.interrupt 32 0 [.get (some false), .set (some true)] (fun _ => 0),
    .interrupt 32 0 [.get (some true), .set (some false)] (fun _ => 0)] c (fun _ : Bool => thread)
    (by simp [Proper, Event.Proper, Untouched, PushedTwice])
  have hview := congrArg (Option.map fun x => (x.1, x.2 false, x.2 true)) hruns
  rw [Option.map_map] at hview
  exact hview.trans (by decide)

end Runs

end Idt
