import Mathlib.Data.BitVec
import Mathlib.Data.List.Basic
import Mathlib.Data.List.Nodup
import Mathlib.Logic.Function.Basic
import Mathlib.Tactic.IntervalCases

/-!
# Interrupts of an x86-64 processor

The delivery of an interrupt through a gate, the instructions that move words between the
registers and the stack, with the encodings of some of them, and `iretq`. The memory is that of
the stack, which the processor reads and writes in words of 8 bytes; `Stack` says which words lie
on top of it.
-/

namespace X86

/-- A byte. -/
abbrev Byte := BitVec 8

/-- A word of 8 bytes. -/
abbrev Word := BitVec 64

/-- The general registers. -/
inductive Reg where
  | rax | rbx | rcx | rdx | rsi | rdi | rbp | rsp
  | r8 | r9 | r10 | r11 | r12 | r13 | r14 | r15
deriving DecidableEq

/-- The memory: the word at each address. -/
abbrev Mem := Word → Word

/-- The word with the index `i` from an address on. -/
def Mem.word (mem : Mem) (a : Word) (i : ℕ) : Word := mem (a + 8 * BitVec.ofNat 64 i)

/-- The memory after that word is written. -/
def Mem.write (mem : Mem) (a : Word) (i : ℕ) (w : Word) : Mem :=
  Function.update mem (a + 8 * BitVec.ofNat 64 i) w

/-- The state of the processor. -/
structure Cpu where
  regs : Reg → Word
  rip : Word
  cs : BitVec 16
  rflags : Word
  ss : BitVec 16
  mem : Mem

/-- The state after a register is written. -/
def Cpu.set (c : Cpu) (r : Reg) (w : Word) : Cpu := { c with regs := Function.update c.regs r w }

/-- The state after a word is pushed. -/
def Cpu.push (c : Cpu) (w : Word) : Cpu :=
  let rsp := c.regs .rsp - 8
  { c.set .rsp rsp with mem := Function.update c.mem rsp w }

/-- The word on top of the stack. -/
def Cpu.top (c : Cpu) : Word := c.mem (c.regs .rsp)

/-- The state after a number is added to the stack pointer. -/
def Cpu.drop (c : Cpu) (n : Word) : Cpu := c.set .rsp (c.regs .rsp + n)

/-! ### Instructions -/

/-- Some instructions. -/
inductive Instr where
  | push (r : Reg)
  | pushImm (imm : Byte)
  | movq (src dst : Reg)
  | movImm (imm : Word) (dst : Reg)
  | pop (r : Reg)
  | addRsp (n : Word)
  | ret
  | iretq

/-- The state after an instruction. -/
def Instr.exec : Instr → Cpu → Cpu
  | push r, c => c.push (c.regs r)
  | pushImm imm, c => c.push (imm.signExtend 64)
  | movq src dst, c => c.set dst (c.regs src)
  | movImm imm dst, c => c.set dst imm
  | pop r, c => (c.drop 8).set r c.top
  | addRsp n, c => c.drop n
  | ret, c => { c.drop 8 with rip := c.top }
  | iretq, c =>
      { c.set .rsp (c.mem.word (c.regs .rsp) 3) with
        rip := c.mem.word (c.regs .rsp) 0
        cs := (c.mem.word (c.regs .rsp) 1).setWidth 16
        rflags := c.mem.word (c.regs .rsp) 2
        ss := (c.mem.word (c.regs .rsp) 4).setWidth 16 }

/-- The state after a list of instructions. -/
def run (is : List Instr) (c : Cpu) : Cpu := is.foldl (fun c i => i.exec c) c

theorem run_append (is js : List Instr) (c : Cpu) :
  run (is ++ js) c = run js (run is c)
  := List.foldl_append

/-- The word with the given bytes, from the lowest to the highest. -/
def ofBytes (b₀ b₁ b₂ b₃ b₄ b₅ b₆ b₇ : Byte) : Word :=
  b₇ ++ b₆ ++ b₅ ++ b₄ ++ b₃ ++ b₂ ++ b₁ ++ b₀

theorem getLsbD_field {n : ℕ} {mask : Word} (hmask : ∀ j < n, mask.getLsbD j = true) (w : Word)
    (k j : ℕ) :
  ((w >>> k &&& mask).setWidth n).getLsbD j = (decide (j < n) && w.getLsbD (k + j))
  := by
  by_cases hj : j < n
  · simp [hj, hmask j hj]
  · simp [hj]

/-- A word is made of its bytes. -/
theorem ofBytes_shift (w : Word) :
  ofBytes ((w &&& 0xff).setWidth 8) ((w >>> 8 &&& 0xff).setWidth 8)
      ((w >>> 16 &&& 0xff).setWidth 8) ((w >>> 24 &&& 0xff).setWidth 8)
      ((w >>> 32 &&& 0xff).setWidth 8) ((w >>> 40 &&& 0xff).setWidth 8)
      ((w >>> 48 &&& 0xff).setWidth 8) ((w >>> 56 &&& 0xff).setWidth 8) = w
  := by
  have hbyte := @getLsbD_field 8 0xff (by decide) w
  have hlow := hbyte 0
  rw [BitVec.ushiftRight_zero] at hlow
  apply BitVec.eq_of_getLsbD_eq
  intro i hi
  simp only [ofBytes, BitVec.getLsbD_append, hbyte, hlow]
  interval_cases i <;> rfl

/-- The instructions that the processor finds in a list of bytes, up to `ret`. -/
def decode : List Byte → Option (List Instr)
  | 0x6a#8 :: imm :: bs => (decode bs).map (.pushImm imm :: ·)
  | 0x50#8 :: bs => (decode bs).map (.push .rax :: ·)
  | 0x48#8 :: 0xb8#8 :: b₀ :: b₁ :: b₂ :: b₃ :: b₄ :: b₅ :: b₆ :: b₇ :: bs =>
      (decode bs).map (.movImm (ofBytes b₀ b₁ b₂ b₃ b₄ b₅ b₆ b₇) .rax :: ·)
  | 0xc3#8 :: _ => some [.ret]
  | _ => none

section Decode

variable {imm : Byte} {w : Word} {bs : List Byte}

theorem decode_pushImm :
  decode (0x6a :: imm :: bs) = (decode bs).map (.pushImm imm :: ·)
  := rfl

theorem decode_push :
  decode (0x50 :: bs) = (decode bs).map (.push .rax :: ·)
  := rfl

theorem decode_movImm :
  decode (0x48 :: 0xb8 ::
      (w &&& 0xff).setWidth 8 :: (w >>> 8 &&& 0xff).setWidth 8 ::
      (w >>> 16 &&& 0xff).setWidth 8 :: (w >>> 24 &&& 0xff).setWidth 8 ::
      (w >>> 32 &&& 0xff).setWidth 8 :: (w >>> 40 &&& 0xff).setWidth 8 ::
      (w >>> 48 &&& 0xff).setWidth 8 :: (w >>> 56 &&& 0xff).setWidth 8 :: bs)
    = (decode bs).map (.movImm w .rax :: ·)
  := by
  conv_rhs => rw [← ofBytes_shift w]
  rfl

theorem decode_ret :
  decode (0xc3 :: bs) = some [.ret]
  := rfl

end Decode

/-! ### Interrupts -/

/-- A gate of the interrupt descriptor table. -/
structure Gate where
  offset0 : BitVec 16
  segSelect : BitVec 16
  ist : BitVec 3
  type : BitVec 4
  offset1 : BitVec 16
  offset2 : BitVec 32

/-- The address of the handler. -/
def Gate.offset (g : Gate) : Word := g.offset2 ++ g.offset1 ++ g.offset0

/-- A gate whose offsets are those of an address holds that address. -/
theorem offset_shift (w : Word) :
  ((w >>> 32 &&& 0xffffffff).setWidth 32 : BitVec 32)
      ++ ((w >>> 16 &&& 0xffff).setWidth 16 : BitVec 16)
      ++ ((w &&& 0xffff).setWidth 16 : BitVec 16) = w
  := by
  have hhigh := @getLsbD_field 32 0xffffffff (by decide) w
  have hhalf := @getLsbD_field 16 0xffff (by decide) w
  have hlow := hhalf 0
  rw [BitVec.ushiftRight_zero] at hlow
  apply BitVec.eq_of_getLsbD_eq
  intro i hi
  simp only [BitVec.getLsbD_append, hhigh, hhalf, hlow]
  interval_cases i <;> rfl

/-- The stacks of the task state segment. -/
structure Tss where
  rsp0 : Word
  ist : BitVec 3 → Word

/-- The exceptions with an error code. -/
def hasErrorCode (v : Byte) : Bool :=
  v = 8 || 10 ≤ v && v ≤ 14 || v = 17 || v = 21 || v = 29 || v = 30

/-- The privilege level changes. -/
def switches (g : Gate) (c : Cpu) : Bool := c.cs &&& 3 ≠ g.segSelect &&& 3

/-- The stack on which an interrupt is delivered, before it is aligned. -/
def stackFor (tss : Tss) (g : Gate) (c : Cpu) : Word :=
  if g.ist ≠ 0 then tss.ist g.ist else if switches g c then tss.rsp0 else c.regs .rsp

/-- The flags that delivery clears: TF, NT, RF and VM, and IF unless the gate is a trap gate. -/
def clearedFlags (g : Gate) : Word := if g.type = 0xe then 0x34300 else 0x34100

/-- The state after an interrupt was delivered through a gate. -/
def deliver (tss : Tss) (g : Gate) (err : Option Word) (c : Cpu) : Cpu :=
  let s := c.set .rsp (stackFor tss g c &&& ~~~15#64)
  let s := s.push (c.ss.setWidth 64)
  let s := s.push (c.regs .rsp)
  let s := s.push c.rflags
  let s := s.push (c.cs.setWidth 64)
  let s := s.push c.rip
  let s := match err with
    | some w => s.push w
    | none => s
  { s with
    rip := g.offset
    cs := g.segSelect
    rflags := c.rflags &&& ~~~clearedFlags g
    ss := if switches g c then 0 else c.ss }

/-! ### The stack -/

/-- The words lie on top of the stack. -/
def Cpu.Stack (c : Cpu) (ws : List Word) : Prop :=
  ∀ i w, ws[i]? = some w → c.mem.word (c.regs .rsp) i = w

section Stack

variable {c : Cpu} {ws : List Word} {w : Word} {r : Reg}

@[simp] theorem set_regs :
  (c.set r w).regs = Function.update c.regs r w
  := rfl

@[simp] theorem set_mem :
  (c.set r w).mem = c.mem
  := rfl

@[simp] theorem push_regs :
  (c.push w).regs = Function.update c.regs .rsp (c.regs .rsp - 8)
  := rfl

theorem push_reg (hr : r ≠ .rsp) :
  (c.push w).regs r = c.regs r
  := Function.update_of_ne hr _ _

@[simp] theorem push_mem :
  (c.push w).mem = Function.update c.mem (c.regs .rsp - 8) w
  := rfl

@[simp] theorem drop_regs :
  (c.drop w).regs = Function.update c.regs .rsp (c.regs .rsp + w)
  := rfl

@[simp] theorem drop_mem :
  (c.drop w).mem = c.mem
  := rfl

theorem Mem.word_write {mem : Mem} {a w : Word} {i j : ℕ} (hi : i < 2 ^ 61) (hj : j < 2 ^ 61) :
  (mem.write a i w).word a j = if j = i then w else mem.word a j
  := by
  rw [write, word, Function.update_apply]
  have hiff : a + 8 * BitVec.ofNat 64 j = a + 8 * BitVec.ofNat 64 i ↔ j = i := by
    simp only [← BitVec.toNat_inj, BitVec.toNat_add, BitVec.toNat_mul, BitVec.toNat_ofNat]
    rw [show (8 : Word).toNat = 8 from rfl]
    have ha := a.isLt
    omega
  simp only [hiff, word]

/-- Words that are written at different places are there. -/
theorem Mem.word_foldl_write {mem : Mem} {a : Word} {l : List (ℕ × Word)}
    (hlt : ∀ x ∈ l, x.1 < 2 ^ 61) (hl : (l.map Prod.fst).Nodup) :
  ∀ x ∈ l, (l.foldl (fun mem x => mem.write a x.1 x.2) mem).word a x.1 = x.2
  := by
  induction l using List.reverseRecOn with
  | nil => nofun
  | append_singleton l y ih =>
      intro x hx
      have hltx := hlt x hx
      have hlty := hlt y (List.mem_append_right l List.mem_cons_self)
      rw [List.map_append, List.nodup_append] at hl
      obtain ⟨hl, -, hapart⟩ := hl
      rw [List.foldl_append, List.foldl_cons, List.foldl_nil, word_write hlty hltx]
      rcases List.mem_append.mp hx with hx | hx
      · rw [if_neg (hapart _ (List.mem_map_of_mem hx) _ List.mem_cons_self)]
        exact ih (fun x hx => hlt x (List.mem_append_left _ hx)) hl x hx
      · rw [List.mem_singleton.mp hx, if_pos rfl]

theorem Mem.word_add (mem : Mem) (a : Word) (k i : ℕ) :
  mem.word (a + 8 * BitVec.ofNat 64 k) i = mem.word a (k + i)
  := by
  rw [word, word]
  congr 1
  rw [BitVec.ofNat_add, BitVec.mul_add, BitVec.add_assoc]

theorem Cpu.Stack.push (h : c.Stack ws) (hlen : ws.length < 2 ^ 61 - 1) (w : Word) :
  (c.push w).Stack (w :: ws)
  := by
  have hword : ∀ i < 2 ^ 61 - 1, (c.push w).mem.word (c.regs .rsp - 8) (i + 1)
      = c.mem.word (c.regs .rsp) i := by
    intro i hi
    have haddr : c.regs .rsp - 8 + 8 * BitVec.ofNat 64 (i + 1)
        = c.regs .rsp + 8 * BitVec.ofNat 64 i := by
      rw [BitVec.ofNat_add, BitVec.mul_add]
      grind
    have hne : c.regs .rsp + 8 * BitVec.ofNat 64 i ≠ c.regs .rsp - 8 := by
      simp only [ne_eq, ← BitVec.toNat_inj, BitVec.toNat_add, BitVec.toNat_mul,
        BitVec.toNat_ofNat, BitVec.toNat_sub]
      rw [show (8 : Word).toNat = 8 from rfl]
      have hrsp := (c.regs .rsp).isLt
      omega
    rw [Mem.word, haddr, push_mem, Function.update_of_ne hne, Mem.word]
  intro i v hv
  rw [push_regs, Function.update_self]
  cases i with
  | zero =>
      rw [List.getElem?_cons_zero, Option.some.injEq] at hv
      rw [← hv, Mem.word, push_mem]
      simp
  | succ i =>
      rw [List.getElem?_cons_succ] at hv
      obtain ⟨hi, -⟩ := List.getElem?_eq_some_iff.mp hv
      rw [hword i (by omega)]
      exact h i v hv

theorem Cpu.Stack.top (h : c.Stack (w :: ws)) :
  c.top = w
  := by
  have htop := h 0 w rfl
  rw [Mem.word] at htop
  simpa [Cpu.top] using htop

theorem Cpu.Stack.drop {n : ℕ} (h : c.Stack ws) :
  (c.drop (8 * BitVec.ofNat 64 n)).Stack (ws.drop n)
  := by
  intro i v hv
  rw [List.getElem?_drop] at hv
  rw [drop_regs, Function.update_self, drop_mem, Mem.word_add]
  exact h _ v hv

/-- Setting another register leaves the stack. -/
theorem Cpu.Stack.set (h : c.Stack ws) (hr : r ≠ .rsp) (w : Word) :
  (c.set r w).Stack ws
  := by
  intro i v hv
  rw [set_mem, set_regs, Function.update_of_ne hr.symm]
  exact h i v hv

theorem Cpu.Stack.write (h : c.Stack ws) (hlen : ws.length < 2 ^ 61) {i : ℕ} (hi : i < 2 ^ 61)
    (w : Word) :
  ({ c with mem := c.mem.write (c.regs .rsp) i w } : Cpu).Stack (ws.set i w)
  := by
  intro j v hv
  have hj : j < ws.length := by
    obtain ⟨hj, -⟩ := List.getElem?_eq_some_iff.mp hv
    simpa using hj
  rw [Mem.word_write hi (by omega)]
  rw [List.getElem?_set] at hv
  split
  next heq =>
    rw [if_pos heq.symm, if_pos (heq ▸ hj)] at hv
    exact Option.some.inj hv
  next hne =>
    rw [if_neg (Ne.symm hne)] at hv
    exact h j v hv

/-- Any words in memory lie on top of a stack that begins there. -/
theorem stack_words (c : Cpu) (n : ℕ) :
  c.Stack ((List.range n).map (c.mem.word (c.regs .rsp)))
  := by
  intro i v hv
  rw [List.getElem?_map, Option.map_eq_some_iff] at hv
  obtain ⟨j, hj, rfl⟩ := hv
  obtain ⟨hlt, rfl⟩ := List.getElem?_eq_some_iff.mp hj
  rw [List.getElem_range]

/-- Pushing registers one after the other. -/
theorem run_push (rs : List Reg) (hrs : .rsp ∉ rs) (h : c.Stack ws)
    (hlen : ws.length + rs.length < 2 ^ 61 - 1) :
  (run (rs.map .push) c).Stack ((rs.map c.regs).reverse ++ ws)
    ∧ ∀ r, r ≠ .rsp → (run (rs.map .push) c).regs r = c.regs r
  := by
  induction rs generalizing c ws with
  | nil => exact ⟨h, fun _ _ => rfl⟩
  | cons r rs ih =>
      rw [List.mem_cons, not_or] at hrs
      rw [List.length_cons] at hlen
      obtain ⟨hstack, hrest⟩ := ih hrs.2 (h.push (by omega) (c.regs r))
        (by rw [List.length_cons]; omega)
      have hmap : rs.map (c.push (c.regs r)).regs = rs.map c.regs :=
        List.map_congr_left fun r' hr' => push_reg (fun heq => hrs.2 (heq ▸ hr'))
      rw [hmap] at hstack
      constructor
      · rw [List.map_cons, List.map_cons, List.reverse_cons, List.append_assoc,
          List.singleton_append]
        exact hstack
      · exact fun r' hr' => (hrest r' hr').trans (push_reg hr')

/-- Popping registers one after the other. -/
theorem run_pop (rs : List Reg) {vs : List Word} (hrs : .rsp ∉ rs) (hnodup : rs.Nodup)
    (hlen : vs.length = rs.length) (h : c.Stack (vs ++ ws)) :
  (run (rs.map .pop) c).Stack ws ∧ rs.map (run (rs.map .pop) c).regs = vs
    ∧ ∀ r, r ≠ .rsp → r ∉ rs → (run (rs.map .pop) c).regs r = c.regs r
  := by
  induction rs generalizing c vs with
  | nil =>
      obtain rfl := List.eq_nil_of_length_eq_zero hlen
      exact ⟨h, rfl, fun _ _ _ => rfl⟩
  | cons r rs ih =>
      obtain ⟨v, vs, rfl⟩ := List.exists_cons_of_length_eq_add_one hlen
      rw [List.mem_cons, not_or] at hrs
      rw [List.nodup_cons] at hnodup
      rw [List.cons_append] at h
      have hdrop : ((c.drop 8).set r c.top).Stack (vs ++ ws) :=
        (h.drop (n := 1)).set (Ne.symm hrs.1) c.top
      obtain ⟨hstack, hvals, hother⟩ := ih hrs.2 hnodup.2 (by simpa using hlen) hdrop
      refine ⟨hstack, ?_, ?_⟩
      · have hr := hother r (Ne.symm hrs.1) hnodup.1
        rw [set_regs, Function.update_self] at hr
        replace hr := hr.trans h.top
        rw [List.map_cons]
        exact congrArg₂ List.cons hr hvals
      · intro r' hr' hnotin
        rw [List.mem_cons, not_or] at hnotin
        refine (hother r' hr' hnotin.2).trans ?_
        rw [set_regs, Function.update_of_ne hnotin.1, drop_regs, Function.update_of_ne hr']

end Stack

/-! ### Delivery and return -/

/-- On delivery the processor pushes the interrupted context and the error code. -/
theorem deliver_stack (tss : Tss) (g : Gate) (err : Option Word) (c : Cpu) :
  (deliver tss g err c).Stack (err.toList ++
      [c.rip, c.cs.setWidth 64, c.rflags, c.regs .rsp, c.ss.setWidth 64])
    ∧ ∀ r, r ≠ .rsp → (deliver tss g err c).regs r = c.regs r
  := by
  have hempty : (c.set .rsp (stackFor tss g c &&& ~~~15#64)).Stack [] := by
    intro i w hw
    cases hw
  have hfive := ((((hempty.push (by simp) (c.ss.setWidth 64)).push (by simp) (c.regs .rsp)).push
    (by simp) c.rflags).push (by simp) (c.cs.setWidth 64)).push (by simp) c.rip
  constructor
  · cases err with
    | none => exact hfive
    | some e => exact hfive.push (by simp) e
  · intro r hr
    cases err <;> simp [deliver, hr]

/-- `iretq` takes the context from the stack. -/
theorem exec_iretq {c : Cpu} {rip cs rflags rsp ss : Word} (h : c.Stack [rip, cs, rflags, rsp, ss]) :
  Instr.iretq.exec c = { c.set .rsp rsp with
    rip := rip, cs := cs.setWidth 16, rflags := rflags, ss := ss.setWidth 16 }
  := by
  rw [Instr.exec, h 0 rip rfl, h 1 cs rfl, h 2 rflags rfl, h 3 rsp rfl, h 4 ss rfl]

end X86
