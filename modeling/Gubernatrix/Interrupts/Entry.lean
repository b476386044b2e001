import Gubernatrix.Lib.X86

/-!
# Entry and exit of interrupts

The handlers that `idt_fillswinterrupthandler` emits, the gates that `idt_init` sets up,
`idt_defaulthandler`, and what `idt_mainhandler` sees of the interrupted context. A handler
pushes a dummy error code where `idt_init` says that the processor pushes none; for four of the
exceptions with an error code `idt_init` says so too, and the frame is off by one word.
-/

namespace Idt

open X86

/-- `IDT_ENTRY_HANDLER_SIZE`. -/
def idtEntryHandlerSize : ℕ := 64

/-- `IDT_TYPE_INTR`. -/
def idtTypeIntr : BitVec 4 := 0xe

/-- `idt_fillswinterrupthandler`: the bytes of a handler, where `defaulthandler` is the address
of `idt_defaulthandler`. -/
def idtFillswinterrupthandler (defaulthandler : Word) (intNum pushToStack : Byte) : List Byte :=
  (if pushToStack ≠ 0 then [0x6a, pushToStack] else [])
    ++ [0x6a, intNum,
      0x50, 0x48,
      0xb8,
      (defaulthandler &&& 0xff).setWidth 8,
      (defaulthandler >>> 8 &&& 0xff).setWidth 8,
      (defaulthandler >>> 16 &&& 0xff).setWidth 8,
      (defaulthandler >>> 24 &&& 0xff).setWidth 8,
      (defaulthandler >>> 32 &&& 0xff).setWidth 8,
      (defaulthandler >>> (32 + 8) &&& 0xff).setWidth 8,
      (defaulthandler >>> (32 + 16) &&& 0xff).setWidth 8,
      (defaulthandler >>> (32 + 24) &&& 0xff).setWidth 8,
      0x50,
      0xc3]

/-- `pushesToStack` in `idt_init`. -/
def pushesToStack (i : Byte) : Byte :=
  if i = 8 ∨ 10 ≤ i ∧ i ≤ 14 then 0 else 1

/-- The addresses of `idt_handlers` and `idt_defaulthandler`, and the stacks. -/
structure Kernel where
  idtHandlers : Word
  defaulthandler : Word
  tss : Tss

/-- The bytes that `idt_init` fills in at the index `i` of `idt_handlers`. -/
def Kernel.handler (k : Kernel) (i : Byte) : List Byte :=
  idtFillswinterrupthandler k.defaulthandler i (pushesToStack i)

/-- The address of `idt_handlers[i]`. -/
def Kernel.handlerAddr (k : Kernel) (i : Byte) : Word :=
  k.idtHandlers + BitVec.ofNat 64 (i.toNat * idtEntryHandlerSize)

/-- The gate that `idt_init` sets up at the index `i`. -/
def Kernel.gate (k : Kernel) (i : Byte) : Gate where
  offset0 := (k.handlerAddr i &&& 0xffff).setWidth 16
  offset1 := (k.handlerAddr i >>> 16 &&& 0xffff).setWidth 16
  offset2 := (k.handlerAddr i >>> 32 &&& 0xffffffff).setWidth 32
  segSelect := 0x08
  type := idtTypeIntr
  ist := 0

/-- The bytes that the processor finds at an address in `idt_handlers`. -/
def Kernel.fetch (k : Kernel) (a : Word) : List Byte :=
  let off := (a - k.idtHandlers).toNat
  (k.handler (BitVec.ofNat 8 (off / idtEntryHandlerSize))).drop (off % idtEntryHandlerSize)

/-- `idt_defaulthandler` up to the call of `idt_mainhandler`. -/
def defaulthandlerEntry : List Instr :=
  [.push .rbx, .push .rcx, .push .rdx, .push .rbp, .push .rsi, .push .rdi, .push .r8, .push .r9,
    .push .r10, .push .r11, .push .r12, .push .r13, .push .r14, .push .r15,
    .movq .rsp .rdi,
    .push .rdi,
    .movq .rsp .rdi]

/-- `idt_defaulthandler` after the call of `idt_mainhandler`. -/
def defaulthandlerExit : List Instr :=
  [.pop .rdi, .pop .r15, .pop .r14, .pop .r13, .pop .r12, .pop .r11, .pop .r10, .pop .r9, .pop .r8,
    .pop .rdi, .pop .rsi, .pop .rbp, .pop .rdx, .pop .rcx, .pop .rbx, .pop .rax,
    .addRsp 16,
    .iretq]

/-- `regs_t`. -/
structure RegsT where
  rsp : Word
  r15 : Word
  r14 : Word
  r13 : Word
  r12 : Word
  r11 : Word
  r10 : Word
  r9 : Word
  r8 : Word
  rdi : Word
  rsi : Word
  rbp : Word
  rdx : Word
  rcx : Word
  rbx : Word
  rax : Word
  intNo : Word
  errCode : Word
  rip : Word
  cs : Word
  rflags : Word
  useresp : Word
  ss : Word

/-- The `regs_t` at an address. -/
def RegsT.read (mem : Mem) (regs : Word) : RegsT where
  rsp := mem.word regs 0
  r15 := mem.word regs 1
  r14 := mem.word regs 2
  r13 := mem.word regs 3
  r12 := mem.word regs 4
  r11 := mem.word regs 5
  r10 := mem.word regs 6
  r9 := mem.word regs 7
  r8 := mem.word regs 8
  rdi := mem.word regs 9
  rsi := mem.word regs 10
  rbp := mem.word regs 11
  rdx := mem.word regs 12
  rcx := mem.word regs 13
  rbx := mem.word regs 14
  rax := mem.word regs 15
  intNo := mem.word regs 16
  errCode := mem.word regs 17
  rip := mem.word regs 18
  cs := mem.word regs 19
  rflags := mem.word regs 20
  useresp := mem.word regs 21
  ss := mem.word regs 22

/-- The field with a register of the interrupted context. -/
def RegsT.get (regs : RegsT) : Reg → Word
  | .rax => regs.rax
  | .rbx => regs.rbx
  | .rcx => regs.rcx
  | .rdx => regs.rdx
  | .rsi => regs.rsi
  | .rdi => regs.rdi
  | .rbp => regs.rbp
  | .rsp => regs.useresp
  | .r8 => regs.r8
  | .r9 => regs.r9
  | .r10 => regs.r10
  | .r11 => regs.r11
  | .r12 => regs.r12
  | .r13 => regs.r13
  | .r14 => regs.r14
  | .r15 => regs.r15

/-- The first statement of `idt_mainhandler`, which is called with the address of the frame in
`rdi`: `regs->int_no = (uint8_t)regs->int_no`. -/
def maskIntNo (c : Cpu) : Cpu :=
  let intNo : Byte := (c.mem.word (c.regs .rdi) 16).setWidth 8
  { c with mem := c.mem.write (c.regs .rdi) 16 (intNo.setWidth 64) }

/-- The frame that `idt_mainhandler` has been given the address of. -/
def frame (c : Cpu) : RegsT := .read c.mem (c.regs .rdi)

/-- From the delivery of the interrupt `v` until `idt_mainhandler` has masked `int_no`. -/
def Kernel.enter (k : Kernel) (v : Byte) (err : Word) (c : Cpu) : Option Cpu := do
  let c := deliver k.tss (k.gate v) (if hasErrorCode v then some err else none) c
  let is ← decode (k.fetch c.rip)
  let c := run is c
  if c.rip = k.defaulthandler then
    some (maskIntNo (run defaulthandlerEntry c))
  else none

/-- From the return of `idt_mainhandler` on. -/
def leave (c : Cpu) : Cpu := run defaulthandlerExit c

/-- What `idt_mainhandler` sees of the interrupted context. -/
structure Seen (c : Cpu) (v : Byte) (regs : RegsT) : Prop where
  reg : ∀ r, regs.get r = c.regs r
  intNo : regs.intNo = v.setWidth 64
  rip : regs.rip = c.rip
  cs : regs.cs = c.cs.setWidth 64
  rflags : regs.rflags = c.rflags
  ss : regs.ss = c.ss.setWidth 64

/-- A function returns with the stack pointer as it was, and leaves what the frame says about the
interrupted context. -/
structure Keeps (f : Cpu → Cpu) (c : Cpu) : Prop where
  rsp : (f c).regs .rsp = c.regs .rsp
  reg : ∀ r, (RegsT.read (f c).mem (c.regs .rdi)).get r = (frame c).get r
  rip : (RegsT.read (f c).mem (c.regs .rdi)).rip = (frame c).rip
  cs : (RegsT.read (f c).mem (c.regs .rdi)).cs = (frame c).cs
  rflags : (RegsT.read (f c).mem (c.regs .rdi)).rflags = (frame c).rflags
  ss : (RegsT.read (f c).mem (c.regs .rdi)).ss = (frame c).ss

/-- Execution resumes where it was interrupted. -/
structure Resumed (c c' : Cpu) : Prop where
  reg : ∀ r, c'.regs r = c.regs r
  rip : c'.rip = c.rip
  cs : c'.cs = c.cs
  rflags : c'.rflags = c.rflags
  ss : c'.ss = c.ss

/-- The interrupt `v` with the error code `err` is transparent to the context `c`, whatever
`idt_mainhandler` does apart from changing the frame. -/
def Kernel.Transparent (k : Kernel) (v : Byte) (err : Word) (c : Cpu) : Prop :=
  ∃ c₁, k.enter v err c = some c₁ ∧ Seen c v (frame c₁)
    ∧ ∀ f, Keeps f c₁ → Resumed c (leave (f c₁))

/-- The exceptions with an error code for which `idt_init` lets the handler push one as well. -/
def PushedTwice (v : Byte) : Prop := v = 17 ∨ v = 21 ∨ v = 29 ∨ v = 30

/-- The error code and the words of the context that the processor pushes are all the same. -/
structure Alike (err : Word) (c : Cpu) : Prop where
  err : err = c.rip
  rip : c.rip = c.cs.setWidth 64
  cs : c.cs.setWidth 64 = c.rflags
  rflags : c.rflags = c.regs .rsp
  rsp : c.regs .rsp = c.ss.setWidth 64

/-! ### Handlers -/

section Handlers

variable (k : Kernel) (v : Byte)

theorem gate_offset :
  (k.gate v).offset = k.handlerAddr v
  := offset_shift (k.handlerAddr v)

theorem fetch_handlerAddr :
  k.fetch (k.handlerAddr v) = k.handler v
  := by
  have hv := v.isLt
  have hoff : (k.handlerAddr v - k.idtHandlers).toNat = v.toNat * 64 := by
    rw [Kernel.handlerAddr, idtEntryHandlerSize, BitVec.add_comm, BitVec.add_sub_cancel,
      BitVec.toNat_ofNat]
    omega
  rw [Kernel.fetch, hoff, idtEntryHandlerSize, Nat.mul_div_cancel _ (by decide),
    Nat.mul_mod_left, BitVec.ofNat_toNat, BitVec.setWidth_eq]
  rfl

theorem decode_fill (defaulthandler : Word) (intNum pushToStack : Byte) :
  decode (idtFillswinterrupthandler defaulthandler intNum pushToStack)
    = some ((if pushToStack ≠ 0 then [Instr.pushImm pushToStack] else [])
      ++ [.pushImm intNum, .push .rax, .movImm defaulthandler .rax, .push .rax, .ret])
  := by
  rw [idtFillswinterrupthandler]
  have htail : decode [0x6a, intNum, 0x50, 0x48, 0xb8,
      (defaulthandler &&& 0xff).setWidth 8,
      (defaulthandler >>> 8 &&& 0xff).setWidth 8,
      (defaulthandler >>> 16 &&& 0xff).setWidth 8,
      (defaulthandler >>> 24 &&& 0xff).setWidth 8,
      (defaulthandler >>> 32 &&& 0xff).setWidth 8,
      (defaulthandler >>> 40 &&& 0xff).setWidth 8,
      (defaulthandler >>> 48 &&& 0xff).setWidth 8,
      (defaulthandler >>> 56 &&& 0xff).setWidth 8, 0x50, 0xc3]
      = some [.pushImm intNum, .push .rax, .movImm defaulthandler .rax, .push .rax, .ret] := by
    rw [decode_pushImm, decode_push, decode_movImm, decode_push, decode_ret]
    rfl
  split
  · exact decode_pushImm.trans (congrArg (Option.map _) htail)
  · exact htail

/-- The dummy error code that a handler pushes. -/
def dummy (pushToStack : Byte) : List Word :=
  if pushToStack ≠ 0 then [pushToStack.signExtend 64] else []

/-- A handler pushes the dummy error code, the vector and `rax`, and goes to
`idt_defaulthandler`. -/
theorem run_handler {c : Cpu} {ws : List Word} (hstack : c.Stack ws) (hlen : ws.length < 2 ^ 60)
    (defaulthandler : Word) (intNum pushToStack : Byte) :
  ∃ is, decode (idtFillswinterrupthandler defaulthandler intNum pushToStack) = some is
    ∧ (run is c).rip = defaulthandler
    ∧ (run is c).Stack
      (c.regs .rax :: intNum.signExtend 64 :: (dummy pushToStack ++ ws))
    ∧ ∀ r, r ≠ .rsp → r ≠ .rax → (run is c).regs r = c.regs r
  := by
  refine ⟨_, decode_fill .., ?_⟩
  rw [run, List.foldl_append]
  -- after the dummy error code
  obtain ⟨c₁, hc₁, hstack₁, hregs₁⟩ : ∃ c₁, (if pushToStack ≠ 0 then [Instr.pushImm pushToStack]
      else []).foldl (fun c i => i.exec c) c = c₁ ∧ c₁.Stack (dummy pushToStack ++ ws)
      ∧ ∀ r, r ≠ .rsp → c₁.regs r = c.regs r := by
    refine ⟨_, rfl, ?_⟩
    rw [dummy]
    split
    · exact ⟨hstack.push (by omega) _, fun r hr => push_reg hr⟩
    · exact ⟨hstack, fun _ _ => rfl⟩
  have hlen₁ : (dummy pushToStack ++ ws).length < 2 ^ 61 - 3 := by
    rw [List.length_append, dummy]
    split <;> simp <;> omega
  rw [hc₁]
  -- after the vector and `rax`
  have hstack₂ := (hstack₁.push (by omega) (intNum.signExtend 64)).push
    (by rw [List.length_cons]; omega) (c.regs .rax)
  have hstack₃ := (hstack₂.set (r := .rax) (by decide) defaulthandler).push
    (by rw [List.length_cons, List.length_cons]; omega) defaulthandler
  have hrax : (c₁.push (intNum.signExtend 64)).regs .rax = c.regs .rax :=
    (push_reg (by decide)).trans (hregs₁ .rax (by decide))
  simp only [List.foldl_cons, List.foldl_nil, Instr.exec, hrax]
  refine ⟨hstack₃.top, hstack₃.drop (n := 1), ?_⟩
  intro r hrsp hrax
  simp [hrsp, hrax, hregs₁ r hrsp]

/-- The registers that `idt_defaulthandler` pushes. -/
def savedRegs : List Reg :=
  [.rbx, .rcx, .rdx, .rbp, .rsi, .rdi, .r8, .r9, .r10, .r11, .r12, .r13, .r14, .r15]

/-- `idt_defaulthandler` pushes the other registers and the address of the frame. -/
theorem run_defaulthandlerEntry {c : Cpu} {ws : List Word} (hstack : c.Stack ws)
    (hlen : ws.length < 2 ^ 60) :
  (run defaulthandlerEntry c).regs .rdi = (run defaulthandlerEntry c).regs .rsp
    ∧ ∃ a, (run defaulthandlerEntry c).Stack (a :: ((savedRegs.map c.regs).reverse ++ ws))
  := by
  have hsplit : defaulthandlerEntry
      = savedRegs.map .push ++ [.movq .rsp .rdi, .push .rdi, .movq .rsp .rdi] := rfl
  obtain ⟨hpushed, -⟩ := run_push savedRegs (by decide) hstack (by simp [savedRegs]; omega)
  rw [hsplit, run_append]
  generalize run (savedRegs.map .push) c = s at hpushed
  have hlen' : ((savedRegs.map c.regs).reverse ++ ws).length < 2 ^ 61 - 1 := by
    simp [savedRegs]
    omega
  have hframe := ((hpushed.set (r := .rdi) (by decide) (s.regs .rsp)).push hlen'
    ((s.set .rdi (s.regs .rsp)).regs .rdi)).set (r := .rdi) (by decide)
  exact ⟨rfl, _, hframe _⟩
end Handlers

/-! ### Frames -/

/-- The words of the context that the processor pushes. -/
def context (c : Cpu) : List Word :=
  [c.rip, c.cs.setWidth 64, c.rflags, c.regs .rsp, c.ss.setWidth 64]

/-- What lies above `int_no`: the error codes, and the context. -/
def pushed (v : Byte) (err : Word) (c : Cpu) : List Word :=
  dummy (pushesToStack v) ++ ((if hasErrorCode v then some err else none).toList ++ context c)

theorem length_pushed (v : Byte) (err : Word) (c : Cpu) :
  (pushed v err c).length < 8
  := by
  rw [pushed, dummy, List.length_append, List.length_append, context]
  split <;> split <;> simp

/-- The vector survives the sign extension of `push`. -/
theorem setWidth_signExtend (v : Byte) :
  ((v.signExtend 64).setWidth 8 : Byte) = v
  := by
  apply BitVec.eq_of_getLsbD_eq
  intro i hi
  have hi' : i < 64 := by omega
  rw [BitVec.getLsbD_setWidth, BitVec.getLsbD_signExtend]
  simp [hi, hi']

/-- When `idt_mainhandler` has masked `int_no`, the frame holds the registers, the vector, and what
was pushed above it. -/
theorem enter_spec (k : Kernel) (v : Byte) (err : Word) (c : Cpu) :
  ∃ c₁ a, k.enter v err c = some c₁ ∧ c₁.regs .rdi = c₁.regs .rsp
    ∧ c₁.Stack (a :: ((savedRegs.map c.regs).reverse
      ++ c.regs .rax :: v.setWidth 64 :: pushed v err c))
  := by
  have hlen := length_pushed v err c
  obtain ⟨hdelivered, hregs⟩ := deliver_stack k.tss (k.gate v)
    (if hasErrorCode v then some err else none) c
  have hrip : (deliver k.tss (k.gate v) (if hasErrorCode v then some err else none) c).rip
      = k.handlerAddr v := gate_offset k v
  rw [Kernel.enter]
  generalize deliver k.tss (k.gate v) (if hasErrorCode v then some err else none) c = c₀
    at hdelivered hregs hrip ⊢
  obtain ⟨is, hdecode, hjump, hhandler, hregs'⟩ := run_handler hdelivered
    (by rw [pushed, context, List.length_append] at hlen; omega) k.defaulthandler v
    (pushesToStack v)
  have hsaved : savedRegs.map (run is c₀).regs = savedRegs.map c.regs := by
    apply List.map_congr_left
    intro r hr
    have hrsp : r ≠ .rsp := by
      rintro rfl
      revert hr
      decide
    have hrax : r ≠ .rax := by
      rintro rfl
      revert hr
      decide
    rw [hregs' r hrsp hrax, hregs r hrsp]
  rw [hregs .rax (by decide), ← context, ← pushed] at hhandler
  obtain ⟨hrdi, a, hframe⟩ := run_defaulthandlerEntry hhandler (by simp; omega)
  rw [hsaved] at hframe
  have hmasked := hframe.write (by simp [savedRegs]; omega) (i := 16) (by decide) (v.setWidth 64)
  refine ⟨_, a, ?_, ?_, hmasked⟩
  · rw [hrip, fetch_handlerAddr, Kernel.handler, hdecode]
    simp only [Option.bind_eq_bind, Option.bind_some, if_pos hjump]
    have hintNo := hframe 16 (v.signExtend 64) (by simp [savedRegs])
    rw [maskIntNo, hrdi, hintNo, setWidth_signExtend]
  · exact hrdi

/-- `idt_defaulthandler` takes the registers from the frame, and `iretq` takes the rest. -/
theorem leave_spec {c : Cpu} {regs : RegsT} (hregs : RegsT.read c.mem (c.regs .rsp) = regs) :
  (∀ r, (leave c).regs r = regs.get r) ∧ (leave c).rip = regs.rip
    ∧ (leave c).cs = regs.cs.setWidth 16 ∧ (leave c).rflags = regs.rflags
    ∧ (leave c).ss = regs.ss.setWidth 16
  := by
  have hsplit : defaulthandlerExit = [.pop .rdi]
      ++ ((savedRegs.reverse ++ [Reg.rax]).map .pop ++ [.addRsp 16, .iretq]) := rfl
  have hstack : c.Stack (regs.rsp :: ([regs.r15, regs.r14, regs.r13, regs.r12, regs.r11, regs.r10,
      regs.r9, regs.r8, regs.rdi, regs.rsi, regs.rbp, regs.rdx, regs.rcx, regs.rbx, regs.rax]
      ++ [regs.intNo, regs.errCode, regs.rip, regs.cs, regs.rflags, regs.useresp, regs.ss])) := by
    rw [← hregs]
    exact stack_words c 23
  have hpopped := (hstack.drop (n := 1)).set (r := .rdi) (by decide) c.top
  obtain ⟨hrest, hvals, -⟩ := run_pop (savedRegs.reverse ++ [Reg.rax]) (by decide) (by decide)
    rfl hpopped
  obtain ⟨s, hs⟩ : ∃ s, s = run ((savedRegs.reverse ++ [Reg.rax]).map .pop)
    ((c.drop (8 * BitVec.ofNat 64 1)).set .rdi c.top) := ⟨_, rfl⟩
  rw [← hs] at hrest hvals
  have hleave : leave c = Instr.iretq.exec (s.drop (8 * BitVec.ofNat 64 2)) := by
    rw [leave, hsplit, run_append, run_append, hs]
    rfl
  rw [hleave, exec_iretq (hrest.drop (n := 2))]
  simp only [savedRegs, List.reverse_cons, List.reverse_nil, List.nil_append, List.cons_append,
    List.map_cons, List.map_nil, List.cons.injEq, and_true] at hvals
  refine ⟨fun r => ?_, rfl, rfl, rfl, rfl⟩
  cases r <;> simp [RegsT.get, hvals]

/-- The frame, word by word. -/
theorem frame_eq {c c₁ : Cpu} {a intNo e rip cs rflags rsp ss : Word} {ws : List Word}
    (hrdi : c₁.regs .rdi = c₁.regs .rsp)
    (hstack : c₁.Stack (a :: ((savedRegs.map c.regs).reverse
      ++ c.regs .rax :: intNo :: e :: rip :: cs :: rflags :: rsp :: ss :: ws))) :
  frame c₁ = {
    rsp := a, r15 := c.regs .r15, r14 := c.regs .r14, r13 := c.regs .r13, r12 := c.regs .r12,
    r11 := c.regs .r11, r10 := c.regs .r10, r9 := c.regs .r9, r8 := c.regs .r8,
    rdi := c.regs .rdi, rsi := c.regs .rsi, rbp := c.regs .rbp, rdx := c.regs .rdx,
    rcx := c.regs .rcx, rbx := c.regs .rbx, rax := c.regs .rax, intNo := intNo, errCode := e,
    rip := rip, cs := cs, rflags := rflags, useresp := rsp, ss := ss }
  := by
  rw [frame, hrdi, RegsT.read]
  congr 1
  · exact hstack 0 _ rfl
  · exact hstack 1 _ rfl
  · exact hstack 2 _ rfl
  · exact hstack 3 _ rfl
  · exact hstack 4 _ rfl
  · exact hstack 5 _ rfl
  · exact hstack 6 _ rfl
  · exact hstack 7 _ rfl
  · exact hstack 8 _ rfl
  · exact hstack 9 _ rfl
  · exact hstack 10 _ rfl
  · exact hstack 11 _ rfl
  · exact hstack 12 _ rfl
  · exact hstack 13 _ rfl
  · exact hstack 14 _ rfl
  · exact hstack 15 _ rfl
  · exact hstack 16 _ rfl
  · exact hstack 17 _ rfl
  · exact hstack 18 _ rfl
  · exact hstack 19 _ rfl
  · exact hstack 20 _ rfl
  · exact hstack 21 _ rfl
  · exact hstack 22 _ rfl

/-- A frame in which the words above the error code are those of the context. -/
theorem seen_iff {c c₁ : Cpu} {v : Byte} {a e rip cs rflags rsp ss : Word} {ws : List Word}
    (hrdi : c₁.regs .rdi = c₁.regs .rsp)
    (hstack : c₁.Stack (a :: ((savedRegs.map c.regs).reverse
      ++ c.regs .rax :: v.setWidth 64 :: e :: rip :: cs :: rflags :: rsp :: ss :: ws))) :
  Seen c v (frame c₁) ↔ [rip, cs, rflags, rsp, ss] = context c
  := by
  rw [frame_eq hrdi hstack, context]
  simp only [List.cons.injEq, and_true]
  constructor
  · exact fun h => ⟨h.rip, h.cs, h.rflags, h.reg .rsp, h.ss⟩
  · rintro ⟨hrip, hcs, hrflags, hrsp, hss⟩
    refine ⟨fun r => ?_, rfl, hrip, hcs, hrflags, hss⟩
    cases r
    case rsp => exact hrsp
    all_goals rfl

/-- A context that `idt_mainhandler` sees, and keeps, is resumed. -/
theorem Seen.resumed {c c₁ : Cpu} {v : Byte} {f : Cpu → Cpu} (hseen : Seen c v (frame c₁))
    (hrdi : c₁.regs .rdi = c₁.regs .rsp) (hf : Keeps f c₁) :
  Resumed c (leave (f c₁))
  := by
  obtain ⟨hreg, hrip, hcs, hrflags, hss⟩ := leave_spec (c := f c₁) rfl
  rw [hf.rsp, ← hrdi] at hreg hrip hcs hrflags hss
  refine ⟨fun r => ?_, ?_, ?_, ?_, ?_⟩
  · rw [hreg, hf.reg, hseen.reg]
  · rw [hrip, hf.rip, hseen.rip]
  · rw [hcs, hf.cs, hseen.cs, BitVec.setWidth_setWidth_of_le _ (by decide), BitVec.setWidth_eq]
  · rw [hrflags, hf.rflags, hseen.rflags]
  · rw [hss, hf.ss, hseen.ss, BitVec.setWidth_setWidth_of_le _ (by decide), BitVec.setWidth_eq]

/-! ### Error codes -/

theorem hasErrorCode_iff (v : Byte) :
  hasErrorCode v = true ↔ pushesToStack v = 0 ∨ PushedTwice v
  := by
  have hpushes : pushesToStack v = 0 ↔ v = 8 ∨ 10 ≤ v ∧ v ≤ 14 := by
    rw [pushesToStack]
    split <;> simp_all
  rw [hpushes, PushedTwice]
  simp only [hasErrorCode, Bool.or_eq_true, Bool.and_eq_true, decide_eq_true_eq]
  tauto

/-- Where both push an error code, the frame is off by one word. -/
theorem pushed_twice {v : Byte} (hv : PushedTwice v) (err : Word) (c : Cpu) :
  pushed v err c = 1 :: err :: context c
  := by
  rw [pushed, if_pos ((hasErrorCode_iff v).mpr (.inr hv))]
  rcases hv with rfl | rfl | rfl | rfl <;> rfl

/-- Elsewhere there is one error code. -/
theorem pushed_once {v : Byte} (hv : ¬ PushedTwice v) (err : Word) (c : Cpu) :
  ∃ e, pushed v err c = e :: context c
  := by
  rw [pushed, dummy]
  by_cases hpush : pushesToStack v = 0
  · have herr := (hasErrorCode_iff v).mpr (.inl hpush)
    rw [if_neg (not_not.mpr hpush), if_pos herr]
    exact ⟨err, rfl⟩
  · have herr : hasErrorCode v ≠ true := by
      rw [ne_eq, hasErrorCode_iff]
      exact not_or.mpr ⟨hpush, hv⟩
    rw [if_pos hpush, if_neg herr]
    exact ⟨_, rfl⟩

section Transparent

variable {k : Kernel} {v : Byte} {err : Word} {c : Cpu}

/-- An interrupt is transparent just when the words of the context are where the frame has
them. -/
theorem transparent_iff_context {e rip cs rflags rsp ss : Word} {ws : List Word}
    (hpushed : pushed v err c = e :: rip :: cs :: rflags :: rsp :: ss :: ws) :
  k.Transparent v err c ↔ [rip, cs, rflags, rsp, ss] = context c
  := by
  obtain ⟨c₁, a, henter, hrdi, hstack⟩ := enter_spec k v err c
  rw [hpushed] at hstack
  rw [← seen_iff hrdi hstack]
  constructor
  · rintro ⟨c₁', henter', hseen, -⟩
    rw [henter, Option.some.injEq] at henter'
    rwa [henter']
  · exact fun hseen => ⟨c₁, henter, hseen, fun f hf => hseen.resumed hrdi hf⟩

theorem transparent_once (hv : ¬ PushedTwice v) :
  k.Transparent v err c
  := by
  obtain ⟨e, he⟩ := pushed_once hv err c
  exact (transparent_iff_context he).mpr rfl

theorem transparent_twice (hv : PushedTwice v) :
  k.Transparent v err c ↔ Alike err c
  := by
  rw [transparent_iff_context (pushed_twice hv err c), context]
  simp only [List.cons.injEq, and_true]
  constructor
  · rintro ⟨herr, hrip, hcs, hrflags, hrsp⟩
    exact ⟨herr, hrip, hcs, hrflags, hrsp⟩
  · exact fun h => ⟨h.err, h.rip, h.cs, h.rflags, h.rsp⟩

end Transparent

/-- An interrupt is transparent just when the processor and the handler do not both push an error
code, or when the words that are taken for each other are all the same. -/
theorem transparent_iff (k : Kernel) (v : Byte) (err : Word) (c : Cpu) :
  k.Transparent v err c ↔ ¬ PushedTwice v ∨ Alike err c
  := by
  by_cases hv : PushedTwice v
  · rw [transparent_twice hv]
    simp [hv]
  · simp [hv, transparent_once hv]

/-- An alignment check in user mode. -/
theorem not_transparent_alignment_check :
  ¬ Kernel.Transparent
    { idtHandlers := 0xffffffff80100000, defaulthandler := 0xffffffff80001000
      tss := { rsp0 := 0xffffffff80200000, ist := fun _ => 0 } } 17 0
    { regs := fun _ => 0x8000, rip := 0x401000, cs := 0x1b, rflags := 0x40202, ss := 0x23
      mem := fun _ => 0 }
  := by
  rw [transparent_twice (.inl rfl)]
  intro h
  exact absurd h.err (by decide)

end Idt
