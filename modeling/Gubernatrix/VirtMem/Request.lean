import Gubernatrix.VirtMem.Mapping
import Gubernatrix.VirtMem.Walk

/-!
# Requests

`vmem_map` as a whole: what a request does to the trees and to the `ktable` of the core, in any
well-formed state.
-/

namespace VirtMem

open Program Radix PhysMem

/-! ### Copies between tables -/

namespace Vmem

/-- The state after `memcpyHalf`. -/
def copy (s : Vmem) (half : ℕ → Bool) (dst src : TablePtr) : Vmem :=
  { s with
    tables := Function.update s.tables dst fun idx =>
      if half idx then s.tables src idx else s.tables dst idx
    hist := .memcpy dst src :: s.hist }

/-- The `ktable` of a core, where the direct map reaches it. -/
def ktable (s : Vmem) (core : ℕ) : Option TablePtr :=
  (s.lcl core).bind fun lcl => (reach s.physMapSz lcl.ktable).map .page

end Vmem

section Copy

variable {s s' : Vmem} {half : ℕ → Bool} {dst src t : TablePtr} {core : ℕ}

theorem memcpyHalf_eq :
  memcpyHalf half dst src s = .ok ⟨⟩ (s.copy half dst src)
  := rfl

theorem steady_copy :
  Steady s (s.copy half dst src)
  := ⟨rfl, rfl, rfl, rfl, rfl, List.suffix_cons _ _⟩

theorem tables_copy :
  (s.copy half dst src).tables dst
    = fun idx => if half idx then s.tables src idx else s.tables dst idx
  := Function.update_self ..

theorem tables_copy_of_ne (h : t ≠ dst) :
  (s.copy half dst src).tables t = s.tables t
  := Function.update_of_ne h _ _

theorem Steady.ktable (h : Steady s s') (core : ℕ) :
  s'.ktable core = s.ktable core
  := by
  rw [Vmem.ktable, Vmem.ktable, h.lcl, h.physMapSz]

/-- The `ktable` of a core is in no tree. -/
theorem WfCore.ktable_off (hwf : WfCore s) (h : s.ktable core = some t) :
  ∀ r ∈ roots, ∀ l, s.node r l ≠ some t
  := by
  obtain ⟨lcl, hlcl, ht⟩ := Option.bind_eq_some_iff.mp h
  obtain ⟨v, hv, rfl⟩ := Option.map_eq_some_iff.mp ht
  exact (hwf.ktable hlcl).2 hv

theorem getLcl_eq {lcl : Lcl} (h : s.lcl core = some lcl) :
  getLcl core s = .ok lcl s
  := by
  rw [getLcl, bind_of_ok (get_apply s), h]
  rfl

theorem getLcl_none (h : s.lcl core = none) :
  getLcl core s = .error .fault s
  := by
  rw [getLcl, bind_of_ok (get_apply s), h]
  rfl

/-- A program that begins with the `ktable` of the core: it goes on with it, or it stops. -/
theorem ktable_cases {α : Type} (s : Vmem) (core : ℕ) (f : Lcl → TablePtr → Program Vmem α) :
  (∃ lcl t, s.lcl core = some lcl ∧ s.ktable core = some t
      ∧ (getLcl core >>= fun lcl => tableAt lcl.ktable >>= f lcl) s = f lcl t s)
    ∨ (s.lcl core = none ∧ (getLcl core >>= fun lcl => tableAt lcl.ktable >>= f lcl) s
      = .error .fault s)
    ∨ ∃ lcl e, s.lcl core = some lcl ∧ reach s.physMapSz lcl.ktable = none
      ∧ (getLcl core >>= fun lcl => tableAt lcl.ktable >>= f lcl) s = .error e s
  := by
  cases hlcl : s.lcl core with
  | none => exact .inr (.inl ⟨rfl, bind_of_error (getLcl_none hlcl) _⟩)
  | some lcl =>
      cases hreach : reach s.physMapSz lcl.ktable with
      | none =>
          refine .inr (.inr ⟨lcl, .panic "Invalid Address Detected!", rfl, hreach, ?_⟩)
          rw [bind_of_ok (getLcl_eq hlcl), bind_of_error (tableAt_of_none hreach)]
      | some v =>
          refine .inl ⟨lcl, .page v, rfl, ?_, ?_⟩
          · rw [Vmem.ktable, hlcl, Option.bind_some, hreach]
            rfl
          · rw [bind_of_ok (getLcl_eq hlcl), bind_of_ok (tableAt_of_reach hreach)]

/-- A change outside the trees. -/
theorem Wf.of_same (hwf : Wf s) (h : Steady s s')
    (hsame : ∀ r ∈ roots, ∀ l u, s.node r l = some u → s'.tables u = s.tables u) :
  Wf s'
  where
  toWfCore := hwf.toWfCore.of_same h hsame
  filled := by
    intro r l t hr ht hne
    rw [node_of_same h (hsame r hr)] at ht
    obtain ⟨p, hp⟩ := hwf.filled hr ht hne
    refine ⟨p, ?_⟩
    rwa [look_of_same h (hsame r hr)]

theorem Wf.same_ktable (hwf : Wf s) (h : s.ktable core = some t) {f : TablePtr → ℕ → U64}
    (hf : ∀ u, u ≠ t → f u = s.tables u) :
  ∀ r ∈ roots, ∀ l u, s.node r l = some u → f u = s.tables u
  := by
  intro r hr l u hu
  apply hf
  rintro rfl
  exact hwf.ktable_off h r hr l hu

end Copy

/-! ### vmem_map -/

section Map

variable {perms : BitVec 32} {core : ℕ} {s : Vmem} {vm : Option ℕ} {r : TablePtr}
  {virt phys size : U64}

theorem rootOf_mem (h : rootOf vm virt = some r) :
  r ∈ roots
  := by
  unfold rootOf at h
  split at h
  · obtain rfl := Option.some.inj h
    exact root_kmem
  · obtain ⟨id, -, rfl⟩ := Option.map_eq_some_iff.mp h
    exact root_vm id

/-- The pages of a request. -/
def pagesOf (s : Vmem) (virt phys size : U64) : List Page × Bool :=
  mapPlan s.hugepage 4 [] virt phys size

/-- What `vmem_map` has done when it returns `ret`. -/
structure Requested (perms : BitVec 32) (core : ℕ) (s : Vmem) (r : TablePtr)
    (virt phys size : U64) (ret : VmemErrs) (s' : Vmem) : Prop where
  wf : Wf s'
  steady : Steady s s'
  node : ∀ {r' l t}, r' ∈ roots → s.node r' l = some t → s'.node r' l = some t
  other : ∀ r' ∈ roots, r' ≠ r → s'.look r' = s.look r'
  install : ∃ ok, Install perms (s.look r) (pagesOf s virt phys size).1 (s'.look r) ok
    ∧ ret = verdict ok (pagesOf s virt phys size).2
  frame : ∀ {u}, (∀ r ∈ roots, ∀ l, s'.node r l ≠ some u) →
    (virt.slt 0 = true → s.ktable core ≠ some u) → s'.tables u = s.tables u
  ktable : virt.slt 0 = true → ∃ t, s.ktable core = some t
    ∧ s'.tables t = fun idx => if upperHalf idx then s'.tables .kmem idx else s.tables t idx

/-- A call of `vmem_map` has done its part, or it has stopped: at a page that the direct map does
not reach, outside the top-level table, or on a core that was not set up. -/
inductive Replies (perms : BitVec 32) (core : ℕ) (s : Vmem) (r : TablePtr)
    (virt phys size : U64) : EStateM.Result Trap Vmem VmemErrs → Prop where
  | returned {ret : VmemErrs} {s' : Vmem} : Requested perms core s r virt phys size ret s' →
      Replies perms core s r virt phys size (.ok ret s')
  | stranded {e : Trap} {s' : Vmem} : Stranded s' →
      Replies perms core s r virt phys size (.error e s')
  | outside {s' : Vmem} : Outside r (pagesOf s virt phys size).1 →
      Replies perms core s r virt phys size (.error .fault s')
  | unset {e : Trap} {s' : Vmem} : virt.slt 0 = true → s.lcl core = none →
      Replies perms core s r virt phys size (.error e s')

theorem Wf.filledBut (hwf : Wf s) (r : TablePtr) :
  FilledBut s r []
  := fun _ hr' _ _ ht hne _ => hwf.filled hr' ht hne

theorem Mapped.wf' {plan : List Page × Bool} {ret : VmemErrs} {s' : Vmem}
    (h : Mapped perms s r [] plan ret s') :
  Wf s'
  where
  toWfCore := h.wf
  filled := by
    intro r' l t hr' ht hne
    exact h.filled r' hr' l t ht hne fun _ hl => hne (List.prefix_nil.mp hl)

theorem vmemMap_eq (hroot : rootOf vm virt = some r) :
  vmemMap core vm virt phys size perms = (do
    let rVal ← vmemMapSt perms 4 r virt phys size
    (if virt.slt 0 then copyKmem core else pure ⟨⟩)
    pure rVal)
  := by
  rw [vmemMap, hroot]

/-- What `copyKmem` does. -/
theorem copyKmem_cases (s : Vmem) (core : ℕ) :
  (∃ t, s.ktable core = some t ∧ copyKmem core s = .ok ⟨⟩ (s.copy upperHalf t .kmem))
    ∨ (s.lcl core = none ∧ copyKmem core s = .error .fault s)
    ∨ ∃ lcl e, s.lcl core = some lcl ∧ reach s.physMapSz lcl.ktable = none
      ∧ copyKmem core s = .error e s
  := by
  rcases ktable_cases s core fun _ pTable => memcpyHalf upperHalf pTable .kmem with
    ⟨lcl, t, -, ht, hrun⟩ | hrest
  · exact .inl ⟨t, ht, hrun⟩
  · exact .inr hrest

section Along

variable {R : Vmem → Vmem → Prop} [Std.Refl R] [IsTrans Vmem R] (hR : Steps R)

include hR

omit [IsTrans Vmem R] in
theorem Steps.copyKmem (core : ℕ) :
  Along R (copyKmem core)
  := by
  intro s
  rcases copyKmem_cases s core with ⟨t, -, h⟩ | ⟨-, h⟩ | ⟨lcl, e, -, -, h⟩
  · rw [h]
    apply hR.memcpyHalf upperHalf t .kmem s
  · rw [h]
    apply Std.Refl.refl
  · rw [h]
    apply Std.Refl.refl

theorem Steps.vmemMap_tail (core : ℕ) (virt : U64) (rVal : VmemErrs) :
  Along R (do
    (if virt.slt 0 then VirtMem.copyKmem core else pure ⟨⟩)
    pure rVal)
  := by
  apply Along.bind
  · apply Along.ite
    · apply hR.copyKmem
    · apply Along.pure
  · intro
    apply Along.pure

theorem Steps.vmemMap (core : ℕ) (vm : Option ℕ) (virt phys size : U64) (perms : BitVec 32) :
  Along R (vmemMap core vm virt phys size perms)
  := by
  cases hroot : rootOf vm virt with
  | none =>
      rw [VirtMem.vmemMap, hroot]
      apply Along.throw
  | some r =>
      rw [vmemMap_eq hroot]
      apply (hR.vmemMapSt _ _ _ _ _ _).bind
      apply hR.vmemMap_tail

end Along

theorem along_vmemMap (core : ℕ) (vm : Option ℕ) (virt phys size : U64) (perms : BitVec 32) :
  Along Steady (vmemMap core vm virt phys size perms)
  := steps_steady.vmemMap core vm virt phys size perms

/-- `vmem_map` on a kernel address, from its copy to the `ktable` on. -/
theorem Mapped.requested_kernel {ret : VmemErrs} {s₁ : Vmem} (hr : r ∈ roots)
    (hmapped : Mapped perms s r [] (pagesOf s virt phys size) ret s₁) (hkernel : virt.slt 0 = true)
    {t : TablePtr} (ht : s₁.ktable core = some t) :
  Requested perms core s r virt phys size ret (s₁.copy upperHalf t .kmem)
  := by
  have hoff := hmapped.wf.ktable_off ht
  have hkmem : TablePtr.kmem ≠ t := by
    rintro rfl
    exact hoff .kmem root_kmem [] rfl
  have hsame : ∀ r ∈ roots, ∀ l u, s₁.node r l = some u →
      (s₁.copy upperHalf t .kmem).tables u = s₁.tables u :=
    hmapped.wf'.same_ktable ht fun u hu => tables_copy_of_ne hu
  have hsteady : Steady s₁ (s₁.copy upperHalf t .kmem) := steady_copy
  have hlook : ∀ r' ∈ roots, (s₁.copy upperHalf t .kmem).look r' = s₁.look r' := by
    intro r' hr'
    funext p
    exact look_of_same hsteady (hsame r' hr') p
  have ht' : s.ktable core = some t := by
    rw [← hmapped.grown.steady.ktable core, ht]
  -- the `ktable` is in no tree, so its lower half is still what it was before the call
  have hbefore : s₁.tables t = s.tables t := hmapped.grown.frame hoff
  refine ⟨hmapped.wf'.of_same hsteady hsame, IsTrans.trans _ _ _ hmapped.grown.steady hsteady,
    ?_, ?_, ?_, ?_, fun _ => ⟨t, ht', ?_⟩⟩
  · intro r' l u hr' hu
    rw [node_of_same hsteady (hsame r' hr')]
    exact hmapped.grown.node hr' hu
  · intro r' hr' hne
    rw [hlook r' hr', hmapped.other r' hr' hne]
  · rw [hlook r hr]
    exact hmapped.install
  · intro u hu hne
    have hut : u ≠ t := by
      rintro rfl
      exact hne hkernel ht'
    rw [tables_copy_of_ne hut]
    apply hmapped.grown.frame
    intro r' hr' l hnode
    apply hu r' hr' l
    rw [node_of_same hsteady (hsame r' hr'), hnode]
  · rw [tables_copy, tables_copy_of_ne hkmem, hbefore]

/-- `vmem_map` on a user address. -/
theorem Mapped.requested_user {ret : VmemErrs} {s₁ : Vmem}
    (hmapped : Mapped perms s r [] (pagesOf s virt phys size) ret s₁) (huser : virt.slt 0 ≠ true) :
  Requested perms core s r virt phys size ret s₁
  where
  wf := hmapped.wf'
  steady := hmapped.grown.steady
  node := hmapped.grown.node
  other := hmapped.other
  install := hmapped.install
  frame hu _ := hmapped.grown.frame hu
  ktable h := absurd h huser

/-- `vmem_map` in a well-formed state, when the pages that the allocator hands out are
fresh. -/
theorem vmemMap_replies (core : ℕ) (perms : BitVec 32) (phys : U64) (hwf : Wf s)
    (hroot : rootOf vm virt = some r)
    (hpage : 4096 ∣ size.toNat)
    (hfresh : FreshPages (finalState (vmemMap core vm virt phys size perms s)).hist) :
  Replies perms core s r virt phys size (vmemMap core vm virt phys size perms s)
  := by
  have hr := rootOf_mem hroot
  rw [vmemMap_eq hroot] at hfresh ⊢
  have hmaps := (follows_mapPlan perms s.hugepage (n := 3) (by decide)).mapsTo (l := []) rfl
    hwf.toWfCore rfl (hwf.filledBut r) hr (node_root s r) virt phys hpage
    (hfresh.of_bind (steps_steady.vmemMap_tail core virt))
  generalize hres : vmemMapSt perms 4 r virt phys size s = res at hmaps
  cases hmaps with
  | @mapped ret s₁ hmapped =>
      rw [bind_of_ok hres]
      by_cases hkernel : virt.slt 0 = true
      · rw [if_pos hkernel]
        rcases copyKmem_cases s₁ core with
          ⟨t, ht, hrun⟩ | ⟨hlcl, hrun⟩ | ⟨lcl, e, hlcl, hreach, hrun⟩
        · rw [bind_of_ok hrun]
          exact .returned (hmapped.requested_kernel hr hkernel ht)
        · rw [bind_of_error hrun]
          refine .unset hkernel ?_
          rw [← hmapped.grown.steady.lcl, hlcl]
        · rw [bind_of_error hrun]
          exact .stranded ⟨lcl.ktable, (hmapped.wf.ktable hlcl).1, hreach⟩
      · rw [if_neg hkernel]
        exact .returned (hmapped.requested_user hkernel)
  | stranded hstranded =>
      rw [bind_of_error hres]
      exact .stranded hstranded
  | outside hpre _ hout =>
      obtain ⟨d, hd, hout⟩ := hout
      rw [bind_of_error hres]
      refine .outside ⟨d, hpre.subset ?_, hout⟩
      exact List.mem_append_right _ hd

/-- A call of `vmem_map` that returned. -/
theorem Wf.requested (hwf : Wf s) (hpage : 4096 ∣ size.toNat) {ret : VmemErrs} {s' : Vmem}
    (hrun : vmemMap core vm virt phys size perms s = .ok ret s') (hfresh : FreshPages s'.hist) :
  ∃ r, rootOf vm virt = some r ∧ Requested perms core s r virt phys size ret s'
  := by
  cases hroot : rootOf vm virt with
  | none =>
      rw [vmemMap, hroot] at hrun
      cases hrun
  | some r =>
      have hreplies := vmemMap_replies core perms phys hwf hroot hpage
        (by rw [hrun]; exact hfresh)
      rw [hrun] at hreplies
      cases hreplies with
      | returned hrequested => exact ⟨r, rfl, hrequested⟩

theorem steady_vmemMap {ret : VmemErrs} {s' : Vmem}
    (hrun : vmemMap core vm virt phys size perms s = .ok ret s') :
  Steady s s'
  := by
  have := along_vmemMap core vm virt phys size perms s
  rwa [hrun] at this

end Map

end VirtMem
