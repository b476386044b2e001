import Gubernatrix.VirtMem.DirectMap

/-!
# No page left

`pagealloc_alloc` returns -1 when it finds no free page; the functions that build page tables take
0 for a failure, or none. The value -1 has an address in the direct map, so they go on and clear the
memory there.
-/

namespace VirtMem

open Program PhysMem

/-- What `pagealloc_alloc` returns when it finds no free page. -/
def noPage : U64 := -1

/-- The address of `noPage` in the direct map. -/
def noPageAddr : U64 := noPage + kernTopBase

/-- The effect changes memory. -/
def Effect.Writes : Effect → Prop
  | .alloc _ => False
  | .free _ => False
  | .memset _ => True
  | .write _ _ _ => True
  | .memcpy _ _ => True

/-- Once the allocator has found no free page, nothing is written any more. The last of the
effects is the first of the list. -/
def Detected (effects : List Effect) : Prop :=
  ∀ later earlier, effects = later ++ .alloc (some noPage) :: earlier →
    ∀ e ∈ later, ¬ e.Writes

/-- Each time the allocator has found no free page, the next effect is to clear the memory at the
address of `noPage`. -/
def Ignored (effects : List Effect) : Prop :=
  ∀ later earlier, effects = later ++ .alloc (some noPage) :: earlier →
    ∃ rest, later = rest ++ [.memset (.page noPageAddr)]

/-- What happens between the states ignores every failure of the allocator. -/
def Ignores (s s' : Vmem) : Prop := ∃ effects, s'.hist = effects ++ s.hist ∧ Ignored effects

/-! ### The value for a failure -/

/-- The direct map has an address for a failure, whatever its size. -/
theorem reach_noPage (physMapSz : U64) :
  reach physMapSz noPage = some noPageAddr
  := by
  have hwb : vmemFlagsCachewriteback &&& vmemFlagsCachewriteback ≠ 0 := by decide
  have hlow : noPage.slt (gib 2) = true ∧ noPage + kib 4 < gib 2 := by decide
  rw [reach, directAddr, if_pos hwb, if_pos hlow]
  rfl

/-! ### What ignores failures -/

theorem ignored_of_not_mem {effects : List Effect} (h : .alloc (some noPage) ∉ effects) :
  Ignored effects
  := by
  rintro later earlier rfl
  apply absurd _ h
  simp

theorem Ignored.append {l l' : List Effect} (h : Ignored l) (h' : Ignored l') :
  Ignored (l ++ l')
  := by
  intro later earlier heq
  rcases List.append_eq_append_iff.mp heq with ⟨m, rfl, hm⟩ | ⟨m, rfl, hm⟩
  · obtain ⟨rest, rfl⟩ := h' m earlier hm
    use l ++ rest
    rw [List.append_assoc]
  · cases m with
    | nil =>
        obtain ⟨rest, hrest⟩ := h' [] earlier hm.symm
        simp at hrest
    | cons e m =>
        obtain ⟨rfl, -⟩ := List.cons.inj hm
        apply h later m rfl

theorem Ignored.undetected {effects : List Effect} (h : Ignored effects)
    (hfailed : .alloc (some noPage) ∈ effects) :
  ¬ Detected effects
  := by
  intro hdetected
  obtain ⟨later, earlier, heq⟩ := List.append_of_mem hfailed
  obtain ⟨rest, hrest⟩ := h later earlier heq
  apply hdetected later earlier heq (.memset (.page noPageAddr)) _ trivial
  rw [hrest]
  simp

instance : Std.Refl Ignores where
  refl _ := ⟨[], rfl, ignored_of_not_mem (by simp)⟩

instance : IsTrans Vmem Ignores where
  trans := by
    rintro s s' s'' ⟨l, hl, hignored⟩ ⟨l', hl', hignored'⟩
    use l' ++ l, by rw [hl', hl, List.append_assoc], hignored'.append hignored

section Steps

variable {s s' : Vmem}

theorem ignores_of_same (h : s'.hist = s.hist) :
  Ignores s s'
  := ⟨[], h, ignored_of_not_mem (by simp)⟩

theorem ignores_of_cons {e : Effect} (h : s'.hist = e :: s.hist) (he : e ≠ .alloc (some noPage)) :
  Ignores s s'
  := ⟨[e], h, ignored_of_not_mem (by simpa using he.symm)⟩

/-- A page that is cleared after it was handed out. -/
theorem ignores_of_reach {a v : U64} (h : s'.hist = .memset (.page v) :: .alloc (some a) :: s.hist)
    (hreach : reach s.physMapSz a = some v) :
  Ignores s s'
  := by
  use [.memset (.page v), .alloc (some a)], h
  by_cases ha : a = noPage
  · subst ha
    rw [reach_noPage] at hreach
    cases hreach
    intro later earlier heq
    rcases List.cons_eq_append_iff.mp heq with ⟨-, hhead⟩ | ⟨later, rfl, hrest⟩
    · cases hhead
    · rcases List.cons_eq_append_iff.mp hrest with ⟨rfl, -⟩ | ⟨later', -, hnil⟩
      · use []
        rfl
      · simp at hnil
  · apply ignored_of_not_mem
    simp [Ne.symm ha]

theorem ignores_tableAt (a : U64) :
  Along Ignores (tableAt a)
  := by
  intro s
  cases h : reach s.physMapSz a with
  | none =>
      rw [tableAt_of_none h]
      apply Std.Refl.refl
  | some v =>
      rw [tableAt_of_reach h]
      apply Std.Refl.refl

theorem ignores_readEntry (vm : TablePtr) (idx : ℕ) :
  Along Ignores (readEntry vm idx)
  := by
  intro s
  by_cases h : InTable vm idx
  · rw [readEntry_eq h]
    apply Std.Refl.refl
  · rw [readEntry_fault h]
    apply Std.Refl.refl

theorem ignores_writeEntry (vm : TablePtr) (idx : ℕ) (ent : U64) :
  Along Ignores (writeEntry vm idx ent)
  := by
  intro s
  by_cases h : InTable vm idx
  · rw [writeEntry_eq h]
    apply ignores_of_cons (e := .write vm idx ent) rfl
    simp
  · rw [writeEntry, if_neg h]
    apply Std.Refl.refl

end Steps

/-- After a page was asked for, it is cleared where the direct map has it, or the program
stops. -/
theorem ignores_clear {α : Type} {s : Vmem} {pmem : Pmem} {a : U64} {g : TablePtr → Program Vmem α}
    (hg : ∀ t, Along Ignores (g t)) :
  Ignores s (finalState ((tableAt a >>= fun t => memsetTable t >>= fun _ => g t)
    (s.grant pmem (some a))))
  := by
  cases hreach : reach s.physMapSz a with
  | none =>
      have ha : a ≠ noPage := by
        rintro rfl
        rw [reach_noPage] at hreach
        cases hreach
      have htable : reach (s.grant pmem (some a)).physMapSz a = none := hreach
      rw [bind_of_error (tableAt_of_none htable)]
      apply ignores_of_cons (e := .alloc (some a)) rfl
      simpa using ha
  | some v =>
      have htable : reach (s.grant pmem (some a)).physMapSz a = some v := hreach
      rw [bind_of_ok (tableAt_of_reach htable), bind_of_ok memsetTable_eq]
      have hclear : Ignores s ((s.grant pmem (some a)).wipe (.page v)) :=
        ignores_of_reach rfl hreach
      apply IsTrans.trans _ _ _ hclear
      apply hg

theorem ignores_addTable (vm : TablePtr) (idx : ℕ) :
  Along Ignores (addTable vm idx)
  := by
  intro s
  rcases allocpage_cases s with ⟨a, pmem, halloc⟩ | ⟨e, pmem, halloc⟩
  · rw [addTable, bind_of_ok halloc]
    split
    next hzero =>
      apply ignores_of_cons (e := .alloc (some a)) rfl
      rw [hzero]
      simp [noPage]
    next =>
      apply ignores_clear
      intro t
      apply (ignores_writeEntry _ _ _).bind
      intro
      apply Along.pure
  · rw [addTable, bind_of_error halloc]
    apply ignores_of_cons (e := .alloc none) rfl
    simp

theorem ignores_memcpyHalf (half : ℕ → Bool) (dst src : TablePtr) :
  Along Ignores (memcpyHalf half dst src)
  := by
  intro s
  apply ignores_of_cons (e := .memcpy dst src) rfl
  simp

theorem steps_ignores :
  Steps Ignores
  := ⟨ignores_tableAt, ignores_readEntry, ignores_writeEntry, ignores_addTable,
    ignores_memcpyHalf⟩

theorem ignores_initKtable (core : ℕ) (cpuHugepage : Bool) :
  Along Ignores (initKtable core cpuHugepage)
  := by
  apply Along.bind
  · apply Along.modify
    intro s
    apply ignores_of_same rfl
  · intro _ s
    rcases allocpage_cases s with ⟨a, pmem, halloc⟩ | ⟨e, pmem, halloc⟩
    · rw [bind_of_ok halloc]
      apply ignores_clear
      intro t
      apply Along.bind
      · apply Along.modify
        intro s
        apply ignores_of_same rfl
      · intro
        apply Along.pure
    · rw [bind_of_error halloc]
      apply ignores_of_cons (e := .alloc none) rfl
      simp

/-! ### The calls that build page tables -/

/-- A call of `vmem_map`, `vmem_init` or `vmem_mp_init`. -/
inductive TableCall where
  | map (core : ℕ) (vm : Option ℕ) (virt phys size : U64) (perms : BitVec 32)
  | init (core : ℕ) (cpuHugepage : Bool) (curPtable : U64)
  | mpInit (core : ℕ) (cpuHugepage : Bool)

def TableCall.run : TableCall → Program Vmem Unit
  | .map core vm virt phys size perms => do
      let _ ← vmemMap core vm virt phys size perms
      pure ⟨⟩
  | .init core cpuHugepage curPtable => vmemInit core cpuHugepage curPtable
  | .mpInit core cpuHugepage => vmemMpInit core cpuHugepage

theorem TableCall.ignores (c : TableCall) :
  Along Ignores c.run
  := by
  cases c with
  | map core vm virt phys size perms =>
      apply (steps_ignores.vmemMap _ _ _ _ _ _).bind
      intro
      apply Along.pure
  | init core cpuHugepage curPtable =>
      apply (ignores_initKtable _ _).bind
      intro
      apply Along.bind
      · intro s
        apply ignores_of_cons (e := .memset .kmem) rfl
        simp
      · intro
        apply steps_ignores.mapWindows
        intro s
        apply ignores_of_same rfl
  | mpInit core cpuHugepage =>
      apply (ignores_initKtable _ _).bind
      intro t
      apply ignores_memcpyHalf

/-- The effects of a call ignore every failure of the allocator. -/
theorem TableCall.ignored {c : TableCall} {s : Vmem} {effects : List Effect}
    (h : (finalState (c.run s)).hist = effects ++ s.hist) :
  Ignored effects
  := by
  obtain ⟨effects', h', hignored⟩ := c.ignores s
  obtain rfl : effects = effects' := List.append_cancel_right (h.symm.trans h')
  apply hignored

/-- In every state and for every call, when the allocator finds no free page, this is not
detected. -/
theorem not_detected {c : TableCall} {s : Vmem} {effects : List Effect}
    (h : (finalState (c.run s)).hist = effects ++ s.hist)
    (hfailed : .alloc (some noPage) ∈ effects) :
  ¬ Detected effects
  := (TableCall.ignored h).undetected hfailed

/-- A state without any free page. -/
def exhausted : Vmem :=
  { bootVmem with
    pmem := { btmLevel := Queue.init 4, freeMem := 0, hist := [] } }

/-- On another core, `vmem_mp_init` clears memory below `KERN_TOP_BASE` for its table. -/
theorem hist_exhausted :
  (finalState (vmemMpInit 1 true exhausted)).hist
    = [.memcpy (.page noPageAddr) .kmem, .memset (.page noPageAddr), .alloc (some noPage)]
  := rfl

theorem not_detected_exhausted :
  ¬ Detected (finalState (vmemMpInit 1 true exhausted)).hist
  := by
  apply not_detected (c := .mpInit 1 true) (s := exhausted)
  · exact (List.append_nil _).symm
  · rw [hist_exhausted]
    simp

/-- Not all failures of the allocator are detected. -/
theorem not_all_detected :
  ¬ ∀ (c : TableCall) (s : Vmem) (effects : List Effect),
    (finalState (c.run s)).hist = effects ++ s.hist → Detected effects
  := by
  intro h
  have hrun : (finalState ((TableCall.mpInit 1 true).run exhausted)).hist
      = (finalState (vmemMpInit 1 true exhausted)).hist ++ exhausted.hist :=
    (List.append_nil _).symm
  apply (TableCall.ignored hrun).undetected _ (h _ _ _ hrun)
  rw [hist_exhausted]
  simp

end VirtMem
