import Gubernatrix.VirtMem.Contract

/-!
# Releasing page tables

The walk of `vmem_unmap_st`. It gives a table back when it has cleared it, but leaves the entry for
the table and the size that is left as they are, and so clears and gives back the same table once
more.
-/

namespace VirtMem

open Program Radix PhysMem

/-! ### What is given back -/

/-- The addresses passed to `pmem_free` in a history, the last one first. -/
def frees (hist : List Effect) : List U64 :=
  hist.filterMap fun
    | .free addr => some addr
    | _ => none

/-- The addresses passed to `pmem_free` from a state to a later one. -/
def freedSince (s s' : Vmem) : List U64 := frees (s'.hist.take (s'.hist.length - s.hist.length))

/-- The walk of a range ends, by returning or by a panic, and passes no address to `pmem_free`
twice; and when it returns 0, no present entry below the top-level table has an address that was
passed to `pmem_free`. -/
def ReleasesOnce (s : Vmem) (r : TablePtr) (virt size : U64) : Prop :=
  ∃ fuel, (∀ s', vmemUnmapSt fuel 0 r virt size s ≠ .error .fault s')
    ∧ (freedSince s (finalState (vmemUnmapSt fuel 0 r virt size s))).Nodup
    ∧ ∀ s', vmemUnmapSt fuel 0 r virt size s = .ok .errNone s' →
      ∀ l t, s'.node r l = some t → ∀ i, s'.tables t i &&& present ≠ 0 →
        s'.tables t i &&& addrMask ∉ freedSince s s'

/-- The table below the entry for `virt` in a table of level `lv`. -/
def Vmem.below (s : Vmem) (lv : ℕ) (t : TablePtr) (virt : U64) : Option TablePtr :=
  link s.hugepage s.physMapSz lv (s.tables t (index virt lv))

/-- The walk goes past the entry for `virt` in a table of level `lv`: there is no table below, the
direct map has the page, and the range goes on to the end of the entry. -/
structure Passes (s : Vmem) (lv : ℕ) (t : TablePtr) (virt size : U64) : Prop where
  inTable : InTable t (index virt lv)
  bare : s.below lv t virt = none
  reached : reach s.physMapSz (s.tables t (index virt lv) &&& addrMask) ≠ none
  fits : levels lv ≤ size

/-- From a table of level `lv`, the range ends after entries that are passed: those of the table,
and where less than an entry is left those of the table below. -/
inductive Clears (s : Vmem) : (lv : ℕ) → TablePtr → (virt size : U64) → Prop where
  | done {lv : ℕ} {t : TablePtr} {virt : U64} : Clears s lv t virt 0
  | pass {lv : ℕ} {t : TablePtr} {virt size : U64} : Passes s lv t virt size →
      Clears s lv t (virt + levels lv) (size - levels lv) → Clears s lv t virt size
  | down {lv : ℕ} {t c : TablePtr} {virt size : U64} : 0 < size → size < levels lv →
      s.below lv t virt = some c → Clears s (lv + 1) c virt size → Clears s lv t virt size

/-- From a table of level `lv`, the range leaves the table after entries that are passed, or comes
to a table that it clears and that lies in what is left of it, with `pmem_free` taking the page. -/
inductive Fails (s : Vmem) : (lv : ℕ) → TablePtr → (virt size : U64) → Prop where
  | off {lv : ℕ} {t : TablePtr} {virt size : U64} : 0 < size → ¬ InTable t (index virt lv) →
      Fails s lv t virt size
  | pass {lv : ℕ} {t : TablePtr} {virt size : U64} : Passes s lv t virt size →
      Fails s lv t (virt + levels lv) (size - levels lv) → Fails s lv t virt size
  | down {lv : ℕ} {t c : TablePtr} {virt size : U64} : 0 < size → s.below lv t virt = some c →
      Fails s (lv + 1) c virt size → Fails s lv t virt size
  | again {lv : ℕ} {t c : TablePtr} {virt size : U64} : levels lv ≤ size →
      s.below lv t virt = some c → Clears s (lv + 1) c virt size →
      (∀ msg p, pmemFree (s.tables t (index virt lv) &&& addrMask) s.pmem
        ≠ .error (.panic msg) p) → Fails s lv t virt size

section Frees

variable {hist hist' : List Effect} {s s' : Vmem}

@[simp]
theorem frees_free (addr : U64) :
  frees (.free addr :: hist) = addr :: frees hist
  := rfl

@[simp]
theorem frees_write (vm : TablePtr) (idx : ℕ) (ent : U64) :
  frees (.write vm idx ent :: hist) = frees hist
  := rfl

theorem frees_suffix (h : hist <:+ hist') :
  ∃ new, frees hist' = new ++ frees hist
  := by
  obtain ⟨new, rfl⟩ := h
  use frees new
  apply List.filterMap_append

/-- What was given back in between, read off the histories. -/
theorem freedSince_eq {new : List U64} (h : s.hist <:+ s'.hist)
    (hnew : frees s'.hist = new ++ frees s.hist) :
  freedSince s s' = new
  := by
  obtain ⟨effects, heq⟩ := h
  have htake : s'.hist.take (s'.hist.length - s.hist.length) = effects := by
    rw [← heq, List.length_append, Nat.add_sub_cancel]
    apply List.take_left
  apply (List.append_left_inj (frees s.hist)).mp
  rw [freedSince, htake, ← hnew, ← heq]
  symm
  apply List.filterMap_append

end Frees

/-! ### One turn of the walk -/

section Turn

variable {s : Vmem} {fuel lv : ℕ} {t : TablePtr} {virt size : U64}

theorem vmemUnmapSt_zero :
  vmemUnmapSt fuel lv t virt 0 s = .ok .errNone s
  := by
  rw [vmemUnmapSt.eq_def]
  rfl

theorem vmemUnmapSt_out (hpos : 0 < size) :
  vmemUnmapSt 0 lv t virt size s = .error .fault s
  := by
  rw [vmemUnmapSt.eq_def]
  dsimp only
  rw [if_pos hpos, throw_apply]

theorem vmemUnmapSt_off (hpos : 0 < size) (hoff : ¬ InTable t (index virt lv)) :
  vmemUnmapSt fuel lv t virt size s = .error .fault s
  := by
  cases fuel with
  | zero => apply vmemUnmapSt_out hpos
  | succ fuel =>
      rw [vmemUnmapSt.eq_def]
      dsimp only
      rw [if_pos hpos]
      split
      · rfl
      · rw [bind_of_error (readEntry_fault hoff)]

theorem vmemUnmapSt_unreached (hpos : 0 < size) (hlv : lv ≤ 3) (hin : InTable t (index virt lv))
    (hreach : reach s.physMapSz (s.tables t (index virt lv) &&& addrMask) = none) :
  vmemUnmapSt (fuel + 1) lv t virt size s = .error (.panic "Invalid Address Detected!") s
  := by
  rw [vmemUnmapSt.eq_def]
  dsimp only
  rw [if_pos hpos, if_neg (by omega), bind_of_ok (readEntry_eq hin),
    bind_of_error (tableAt_of_none hreach)]

/-- A turn at an entry whose page the direct map has. -/
theorem vmemUnmapSt_turn {v : U64} (hpos : 0 < size) (hlv : lv ≤ 3)
    (hin : InTable t (index virt lv))
    (hreach : reach s.physMapSz (s.tables t (index virt lv) &&& addrMask) = some v) :
  vmemUnmapSt (fuel + 1) lv t virt size s
    = (if s.tables t (index virt lv) &&& present ≠ 0 then
        if size ≥ levels lv
            ∧ (s.tables t (index virt lv) &&& largepage ≠ 0 ∨ levels lv = kib 4) then do
          writeEntry t (index virt lv) 0
          vmemUnmapSt fuel lv t (virt + levels lv) (size - levels lv)
        else if size ≥ levels lv ∧ s.tables t (index virt lv) &&& largepage = 0 then do
          let err ← vmemUnmapSt fuel (lv + 1) (.page v) virt size
          if err ≠ .errNone then pure err
          else do
            freepage (s.tables t (index virt lv) &&& addrMask)
            vmemUnmapSt fuel lv t virt size
        else if s.tables t (index virt lv) &&& largepage = 0 then
          vmemUnmapSt fuel (lv + 1) (.page v) virt size
        else throw (.panic "Unimplemented!")
      else if size ≥ levels lv then
        vmemUnmapSt fuel lv t (virt + levels lv) (size - levels lv)
      else pure .errNomapping : Program Vmem VmemErrs) s
  := by
  rw [vmemUnmapSt.eq_def]
  dsimp only
  rw [if_pos hpos, if_neg (by omega), bind_of_ok (readEntry_eq hin),
    bind_of_ok (tableAt_of_reach hreach)]

/-- The state after `freepage`, with the allocator in state `pmem`. -/
def Vmem.release (s : Vmem) (pmem : Pmem) (addr : U64) : Vmem :=
  { s with
    pmem := pmem
    hist := .free addr :: s.hist }

theorem steady_release {pmem : Pmem} {addr : U64} :
  Steady s (s.release pmem addr)
  := ⟨rfl, rfl, rfl, rfl, rfl, List.suffix_cons _ _⟩

theorem freepage_of_ok {pmem : Pmem} {addr : U64} (h : pmemFree addr s.pmem = .ok ⟨⟩ pmem) :
  freepage addr s = .ok ⟨⟩ (s.release pmem addr)
  := by
  rw [freepage, h]
  rfl

theorem freepage_of_error {pmem : Pmem} {addr : U64} {e : Trap}
    (h : pmemFree addr s.pmem = .error e pmem) :
  freepage addr s = .error e (s.release pmem addr)
  := by
  rw [freepage, h]
  rfl

theorem along_freepage (addr : U64) :
  Along Steady (freepage addr)
  := by
  intro s
  cases h : pmemFree addr s.pmem with
  | ok _ pmem =>
      rw [freepage_of_ok h]
      apply steady_release
  | error _ pmem =>
      rw [freepage_of_error h]
      apply steady_release

theorem along_vmemUnmapSt :
  Along Steady (vmemUnmapSt fuel lv t virt size)
  := by
  induction fuel generalizing lv t virt size with
  | zero =>
      rw [vmemUnmapSt.eq_def]
      apply Along.ite
      · apply Along.throw
      · apply Along.pure
  | succ fuel ih =>
      rw [vmemUnmapSt.eq_def]
      apply Along.ite
      · apply Along.ite
        · apply Along.throw
        · apply Along.bind (along_readEntry _ _)
          intro ent
          apply Along.bind (along_tableAt _)
          intro c
          apply Along.ite
          · apply Along.ite
            · apply Along.bind (along_writeEntry _ _ _)
              intro _
              apply ih
            · apply Along.ite
              · apply Along.bind ih
                intro err
                apply Along.ite
                · apply Along.pure
                · apply Along.bind (along_freepage _)
                  intro _
                  apply ih
              · apply Along.ite
                · apply ih
                · apply Along.throw
          · apply Along.ite
            · apply ih
            · apply Along.pure
      · apply Along.pure

end Turn

/-! ### Pruned trees -/

/-- Some entries without a table below, whose pages are in the direct map, were cleared. -/
structure Pruned (s s' : Vmem) : Prop extends Steady s s' where
  entry : ∀ {r l t}, r ∈ roots → s.node r l = some t → ∀ i, s'.tables t i = s.tables t i
    ∨ s'.tables t i = 0 ∧ link s.hugepage s.physMapSz l.length (s.tables t i) = none
      ∧ reach s.physMapSz (s.tables t i &&& addrMask) ≠ none

/-- No page was allocated or given back. -/
structure Quiet (s s' : Vmem) : Prop extends Steady s s' where
  pmem : s'.pmem = s.pmem
  frees : frees s'.hist = frees s.hist

theorem Quiet.refl (s : Vmem) :
  Quiet s s
  := ⟨Std.Refl.refl s, rfl, rfl⟩

theorem Quiet.trans {s s' s'' : Vmem} (h : Quiet s s') (h' : Quiet s' s'') :
  Quiet s s''
  := ⟨IsTrans.trans _ _ _ h.toSteady h'.toSteady, h'.pmem.trans h.pmem, h'.frees.trans h.frees⟩

section Step

variable {s s' : Vmem} {fuel : ℕ} {r t c : TablePtr} {l : List ℕ} {virt size : U64}
  (hwf : WfCore s) (hr : r ∈ roots)

theorem Pruned.refl (s : Vmem) :
  Pruned s s
  := by
  constructor
  · apply Std.Refl.refl s
  · intro r l t _ _ i
    left
    rfl

include hwf hr in
/-- A table below the entry for an address: the entry is a link, also in the pruned tree. -/
theorem Pruned.below (h : Pruned s s') (ht : s.node r l = some t)
    (hbelow : s.below l.length t virt = some c) :
  ∃ a v, s.tables t (index virt l.length) = linkEntry a ∧ IsPage a
    ∧ s'.tables t (index virt l.length) = linkEntry a ∧ reach s'.physMapSz a = some v ∧ c = .page v
    ∧ l.length < 3 ∧ InTable t (index virt l.length)
    ∧ s.node r (l ++ [index virt l.length]) = some c
  := by
  obtain ⟨a, v, hlv, he, ha, hv, rfl⟩ := (hwf.entry hr ht _).link_eq_some hbelow
  have hin : InTable t (index virt l.length) := by
    by_contra hout
    rw [hwf.beyond hr ht hout] at he
    apply linkEntry_present a
    rw [← he]
    rfl
  use a, v, he, ha.2
  constructor
  · rcases h.entry hr ht (index virt l.length) with hsame | ⟨-, hnone, -⟩
    · rw [hsame, he]
    · rw [Vmem.below, hnone] at hbelow
      cases hbelow
  · rw [h.physMapSz, Vmem.node, node_concat ht]
    exact ⟨hv, rfl, hlv, hin, hbelow⟩

include hwf hr in
/-- An entry without a table below is empty or a leaf, also in the pruned tree. -/
theorem Pruned.bare (h : Pruned s s') (ht : s.node r l = some t)
    (hbare : s.below l.length t virt = none) :
  s'.tables t (index virt l.length) = 0
    ∨ s'.tables t (index virt l.length) = s.tables t (index virt l.length)
      ∧ s.tables t (index virt l.length) &&& present ≠ 0
      ∧ (s.tables t (index virt l.length) &&& largepage ≠ 0 ∨ levels l.length = kib 4)
  := by
  rcases h.entry hr ht (index virt l.length) with hsame | ⟨hzero, -, -⟩
  · have hok := hwf.entry hr ht (index virt l.length)
    rw [hsame]
    rw [Vmem.below] at hbare
    generalize s.tables t (index virt l.length) = e at *
    cases hok with
    | empty =>
        left
        rfl
    | table hlv ha hreach =>
        obtain ⟨v, hv⟩ := hreach
        rw [link_linkEntry _ _ hlv ha.2, hv] at hbare
        cases hbare
    | leaf havail =>
        right
        use rfl, leafEntry_present
        by_cases hsize : levels l.length = kib 4
        · right
          exact hsize
        · left
          apply leafEntry_largepage.mpr hsize
  · left
    exact hzero

include hwf in
/-- The first page is in the direct map. -/
theorem WfCore.reach_zero :
  reach s.physMapSz (0 &&& addrMask) = some kernTopBase
  := by
  have hzero : (0 : U64) &&& addrMask = 0 := BitVec.zero_and
  rw [hzero, reach_eq hwf.physMap (by decide), if_pos (by decide)]
  rfl

include hwf hr in
/-- The direct map has the page of an entry in the pruned tree when it has it in the tree. -/
theorem Pruned.reached (h : Pruned s s') (ht : s.node r l = some t)
    {i : ℕ} :
  reach s'.physMapSz (s'.tables t i &&& addrMask) ≠ none
    ↔ reach s.physMapSz (s.tables t i &&& addrMask) ≠ none
  := by
  rw [h.physMapSz]
  rcases h.entry hr ht i with hsame | ⟨hzero, -, hreached⟩
  · rw [hsame]
  · rw [hzero, hwf.reach_zero]
    constructor
    · intro _
      exact hreached
    · intro _
      apply Option.some_ne_none

include hwf hr in
/-- An entry that the walk goes past is cleared, if it is not empty. -/
theorem Passes.step (hpass : Passes s l.length t virt size) (h : Pruned s s')
    (ht : s.node r l = some t) (hpos : 0 < size) :
  ∃ s₁, Pruned s s₁ ∧ Quiet s' s₁
    ∧ ∀ fuel, vmemUnmapSt (fuel + 1) l.length t virt size s'
      = vmemUnmapSt fuel l.length t (virt + levels l.length) (size - levels l.length) s₁
  := by
  have hlv := hwf.length_le hr ht
  obtain ⟨v, hv⟩ := Option.ne_none_iff_exists'.mp ((h.reached hwf hr ht).mpr hpass.reached)
  rcases h.bare hwf hr ht hpass.bare with hzero | ⟨hsame, hpresent, hleaf⟩
  · use s', h, .refl s'
    intro fuel
    rw [vmemUnmapSt_turn hpos hlv hpass.inTable hv, if_neg, if_pos hpass.fits]
    rw [hzero]
    decide
  · use s'.poke t (index virt l.length) 0
    constructor
    · constructor
      · apply IsTrans.trans _ _ _ h.toSteady steady_poke
      · intro r' l' t' hr' ht' i
        by_cases hslot : t' = t ∧ i = index virt l.length
        · obtain ⟨rfl, rfl⟩ := hslot
          obtain ⟨-, rfl⟩ := hwf.separate hr' hr ht' ht
          right
          use Radix.poke_self _ _ _ _, hpass.bare
          apply hpass.reached
        · rw [Vmem.tables_poke, poke_of_ne_slot]
          · apply h.entry hr' ht'
          · intro heq hi
            apply hslot ⟨heq, hi⟩
    · use ⟨steady_poke, rfl, rfl⟩
      intro fuel
      rw [vmemUnmapSt_turn hpos hlv hpass.inTable hv]
      rw [hsame, if_pos hpresent, if_pos ⟨hpass.fits, hleaf⟩,
        bind_of_ok (writeEntry_eq hpass.inTable)]

theorem pos_of_fits {lv : ℕ} (h : levels lv ≤ size) :
  0 < size
  := Nat.lt_of_lt_of_le (span_pos lv) h

include hwf hr in
/-- A turn at a link to a table that lies in the range. -/
theorem Pruned.turn_full (h : Pruned s s') (ht : s.node r l = some t)
    (hbelow : s.below l.length t virt = some c) (hfits : levels l.length ≤ size) :
  vmemUnmapSt (fuel + 1) l.length t virt size s'
    = (vmemUnmapSt fuel (l.length + 1) c virt size >>= fun err =>
        if err ≠ .errNone then pure err
        else freepage (s.tables t (index virt l.length) &&& addrMask) >>= fun _ =>
          vmemUnmapSt fuel l.length t virt size) s'
  := by
  obtain ⟨a, v, he, ha, he', hv, rfl, hlv, hin, -⟩ := h.below hwf hr ht hbelow
  have hpos := pos_of_fits hfits
  rw [vmemUnmapSt_turn hpos (by omega) hin (v := v)]
  · rw [he', he, if_pos (linkEntry_present a), if_neg, if_pos ⟨hfits, linkEntry_largepage a⟩]
    rintro ⟨-, hlarge | hsize⟩
    · apply hlarge (linkEntry_largepage a)
    · apply levels_ne hlv hsize
  · rw [he', linkEntry_addr ha, hv]

include hwf hr in
/-- A turn at a link to a table that does not lie in the range. -/
theorem Pruned.turn_part (h : Pruned s s') (ht : s.node r l = some t)
    (hbelow : s.below l.length t virt = some c) (hpos : 0 < size) (hpart : size < levels l.length) :
  vmemUnmapSt (fuel + 1) l.length t virt size s'
    = vmemUnmapSt fuel (l.length + 1) c virt size s'
  := by
  obtain ⟨a, v, he, ha, he', hv, rfl, hlv, hin, -⟩ := h.below hwf hr ht hbelow
  have hnot : ¬ size ≥ levels l.length := BitVec.not_le.mpr hpart
  rw [vmemUnmapSt_turn hpos (by omega) hin (v := v)]
  · rw [he', if_pos (linkEntry_present a), if_neg (fun hfull => hnot hfull.1),
      if_neg (fun hfull => hnot hfull.1), if_pos (linkEntry_largepage a)]
  · rw [he', linkEntry_addr ha, hv]

include hwf hr in
/-- A range that ends after entries that are passed: however long the walk goes on, it returns 0
or has not returned. -/
theorem Clears.run {lv : ℕ} (hclears : Clears s lv t virt size) (hlv : l.length = lv)
    (h : Pruned s s') (ht : s.node r l = some t) (fuel : ℕ) :
  (∃ s'', vmemUnmapSt fuel lv t virt size s' = .error .fault s'')
    ∨ ∃ s'', vmemUnmapSt fuel lv t virt size s' = .ok .errNone s'' ∧ Pruned s s'' ∧ Quiet s' s''
  := by
  induction hclears generalizing l s' fuel with
  | done =>
      right
      use s', vmemUnmapSt_zero, h
      apply Quiet.refl
  | @pass lv t virt size hpass _ ih =>
      subst hlv
      have hpos := pos_of_fits hpass.fits
      cases fuel with
      | zero =>
          left
          use s', vmemUnmapSt_out hpos
      | succ fuel =>
          obtain ⟨s₁, h₁, hquiet, hstep⟩ := hpass.step hwf hr h ht hpos
          rw [hstep]
          rcases ih rfl h₁ ht fuel with hfault | ⟨s'', hrun, h'', hquiet''⟩
          · left
            exact hfault
          · right
            use s'', hrun, h''
            apply hquiet.trans hquiet''
  | @down lv t c virt size hpos hpart hbelow _ ih =>
      subst hlv
      cases fuel with
      | zero =>
          left
          use s', vmemUnmapSt_out hpos
      | succ fuel =>
          obtain ⟨-, -, -, -, -, -, -, -, -, hc⟩ := h.below hwf hr ht hbelow
          rw [h.turn_part hwf hr ht hbelow hpos hpart]
          apply ih _ h hc
          rw [List.length_append, List.length_singleton]

/-- The run stopped short, or something was given back twice. -/
def Broken (s : Vmem) (res : EStateM.Result Trap Vmem VmemErrs) : Prop :=
  (∃ s', res = .error .fault s')
    ∨ ∃ new, frees (finalState res).hist = new ++ frees s.hist ∧ ¬ new.Nodup

theorem Broken.bind {x : Program Vmem VmemErrs} {f : VmemErrs → Program Vmem VmemErrs}
    (h : Broken s (x s')) (hf : ∀ err, Along Steady (f err)) :
  Broken s ((x >>= f) s')
  := by
  rcases h with ⟨s'', hfault⟩ | ⟨new, hnew, htwice⟩
  · left
    use s'', bind_of_error hfault f
  · right
    cases hx : x s' with
    | ok err s'' =>
        rw [hx, finalState_ok] at hnew
        rw [bind_of_ok hx]
        obtain ⟨more, hmore⟩ := frees_suffix (hf err s'').hist
        use more ++ new
        constructor
        · rw [hmore, hnew, List.append_assoc]
        · intro hnodup
          apply htwice (List.nodup_append.mp hnodup).2.1
    | error e s'' =>
        rw [hx] at hnew
        rw [bind_of_error hx]
        use new

/-- The page is among those given back, whatever comes of it. -/
theorem frees_freepage (addr : U64) {f : Unit → Program Vmem VmemErrs}
    (hf : ∀ u, Along Steady (f u)) :
  ∃ more, frees (finalState ((freepage addr >>= f) s)).hist = more ++ addr :: frees s.hist
  := by
  cases hfree : pmemFree addr s.pmem with
  | ok _ pmem =>
      rw [bind_of_ok (freepage_of_ok hfree)]
      apply frees_suffix (hf ⟨⟩ (s.release pmem addr)).hist
  | error _ pmem =>
      rw [bind_of_error (freepage_of_error hfree)]
      use []
      rfl

include hwf hr in
/-- A table that is cleared again and again: it is given back twice, unless the walk is stopped
before. -/
theorem Pruned.again (h : Pruned s s') (hpmem : s'.pmem = s.pmem) (ht : s.node r l = some t)
    (hbelow : s.below l.length t virt = some c) (hfits : levels l.length ≤ size)
    (hclears : Clears s (l.length + 1) c virt size)
    (htaken : ∀ msg p, pmemFree (s.tables t (index virt l.length) &&& addrMask) s.pmem
      ≠ .error (.panic msg) p) :
  Broken s' (vmemUnmapSt fuel l.length t virt size s')
  := by
  obtain ⟨-, -, -, -, -, -, -, -, -, hc⟩ := h.below hwf hr ht hbelow
  have hpos := pos_of_fits hfits
  have hlen : (l ++ [index virt l.length]).length = l.length + 1 := by
    rw [List.length_append, List.length_singleton]
  set addr := s.tables t (index virt l.length) &&& addrMask with haddr
  -- The second round.
  have hsecond {s₂ : Vmem} (h₂ : Pruned s s₂) (fuel : ℕ) :
      (∃ s'', vmemUnmapSt fuel l.length t virt size s₂ = .error .fault s'')
        ∨ ∃ more, frees (finalState (vmemUnmapSt fuel l.length t virt size s₂)).hist
          = more ++ addr :: frees s₂.hist := by
    cases fuel with
    | zero =>
        left
        use s₂, vmemUnmapSt_out hpos
    | succ fuel =>
        rw [h₂.turn_full hwf hr ht hbelow hfits]
        rcases hclears.run hwf hr hlen h₂ hc fuel with ⟨s₃, hrun⟩ | ⟨s₃, hrun, -, hquiet⟩
        · left
          use s₃, bind_of_error hrun _
        · right
          rw [bind_of_ok hrun, if_neg (by decide), ← hquiet.frees]
          apply frees_freepage
          intro _
          apply along_vmemUnmapSt
  cases fuel with
  | zero =>
      left
      use s', vmemUnmapSt_out hpos
  | succ fuel =>
      rw [h.turn_full hwf hr ht hbelow hfits]
      rcases hclears.run hwf hr hlen h hc fuel with ⟨s₁, hrun⟩ | ⟨s₁, hrun, h₁, hquiet⟩
      · left
        use s₁, bind_of_error hrun _
      · rw [bind_of_ok hrun, if_neg (by decide)]
        cases hfree : pmemFree addr s₁.pmem with
        | error e p =>
            cases e with
            | panic msg =>
                rw [hquiet.pmem, hpmem] at hfree
                apply absurd hfree (htaken msg p)
            | fault =>
                left
                use s₁.release p addr, bind_of_error (freepage_of_error hfree) _
        | ok _ p =>
            have h₂ : Pruned s (s₁.release p addr) :=
              ⟨IsTrans.trans _ _ _ h₁.toSteady steady_release, h₁.entry⟩
            rw [bind_of_ok (freepage_of_ok hfree)]
            rcases hsecond h₂ fuel with hfault | ⟨more, hmore⟩
            · left
              exact hfault
            · right
              use more ++ [addr, addr]
              constructor
              · rw [hmore, Vmem.release, frees_free, hquiet.frees, List.append_assoc]
                rfl
              · intro hnodup
                apply absurd (List.nodup_append.mp hnodup).2.1
                simp

include hwf hr in
/-- A walk that fails stops short or gives something back twice. -/
theorem Fails.run {lv : ℕ} (hfails : Fails s lv t virt size) (hlv : l.length = lv)
    (h : Pruned s s') (hpmem : s'.pmem = s.pmem) (ht : s.node r l = some t) (fuel : ℕ) :
  Broken s' (vmemUnmapSt fuel lv t virt size s')
  := by
  induction hfails generalizing l s' fuel with
  | off hpos hoff =>
      left
      use s', vmemUnmapSt_off hpos hoff
  | @pass lv t virt size hpass _ ih =>
      subst hlv
      have hpos := pos_of_fits hpass.fits
      cases fuel with
      | zero =>
          left
          use s', vmemUnmapSt_out hpos
      | succ fuel =>
          obtain ⟨s₁, h₁, hquiet, hstep⟩ := hpass.step hwf hr h ht hpos
          rw [hstep]
          have hbroken := ih rfl h₁ (hquiet.pmem.trans hpmem) ht fuel
          rw [Broken, hquiet.frees] at hbroken
          exact hbroken
  | @down lv t c virt size hpos hbelow _ ih =>
      subst hlv
      obtain ⟨-, -, -, -, -, -, -, -, -, hc⟩ := h.below hwf hr ht hbelow
      have hlen : (l ++ [index virt l.length]).length = l.length + 1 := by
        rw [List.length_append, List.length_singleton]
      cases fuel with
      | zero =>
          left
          use s', vmemUnmapSt_out hpos
      | succ fuel =>
          by_cases hfits : levels l.length ≤ size
          · rw [h.turn_full hwf hr ht hbelow hfits]
            apply Broken.bind
            · apply ih hlen h hpmem hc
            · intro err
              apply Along.ite
              · apply Along.pure
              · apply Along.bind (along_freepage _)
                intro _
                apply along_vmemUnmapSt
          · rw [h.turn_part hwf hr ht hbelow hpos (BitVec.not_le.mp hfits)]
            apply ih hlen h hpmem hc
  | again hfits hbelow hclears htaken =>
      subst hlv
      apply h.again hwf hr hpmem ht hbelow hfits hclears htaken

/-- How a walk from a table of level `lv` ends that gives no page back and goes on: it returns, 0
only if the range ended, or it panics, after at most one page was given back. -/
inductive Settled (s s' : Vmem) (lv : ℕ) (t : TablePtr) (virt size : U64) :
    EStateM.Result Trap Vmem VmemErrs → Prop where
  | returns {err : VmemErrs} {s'' : Vmem} : Pruned s s'' → Quiet s' s'' →
      (err = .errNone → Clears s lv t virt size) → Settled s s' lv t virt size (.ok err s'')
  | panics {msg : String} {s'' : Vmem} {new : List U64} : s'.hist <:+ s''.hist →
      frees s''.hist = new ++ frees s'.hist → new.Nodup →
      Settled s s' lv t virt size (.error (.panic msg) s'')

theorem Settled.panics_here {msg : String} {lv : ℕ} :
  Settled s s' lv t virt size (.error (.panic msg) s')
  := .panics (List.suffix_refl _) (List.nil_append _).symm List.nodup_nil

/-- From an entry that is passed. -/
theorem Settled.pass {s₁ : Vmem} {lv : ℕ} {res : EStateM.Result Trap Vmem VmemErrs}
    (hpass : Passes s lv t virt size) (hquiet : Quiet s' s₁)
    (h : Settled s s₁ lv t (virt + levels lv) (size - levels lv) res) :
  Settled s s' lv t virt size res
  := by
  cases h with
  | returns hpruned hquiet' hclears =>
      apply Settled.returns hpruned (hquiet.trans hquiet')
      intro herr
      apply Clears.pass hpass (hclears herr)
  | panics hsuffix hnew hnodup =>
      rw [hquiet.frees] at hnew
      apply Settled.panics (hquiet.hist.trans hsuffix) hnew hnodup

/-- From a table in which the range ends. -/
theorem Settled.up {lv : ℕ} {res : EStateM.Result Trap Vmem VmemErrs} (hpos : 0 < size)
    (hpart : size < levels lv) (hbelow : s.below lv t virt = some c)
    (h : Settled s s' (lv + 1) c virt size res) :
  Settled s s' lv t virt size res
  := by
  cases h with
  | returns hpruned hquiet hclears =>
      apply Settled.returns hpruned hquiet
      intro herr
      apply Clears.down hpos hpart hbelow (hclears herr)
  | panics hsuffix hnew hnodup => apply Settled.panics hsuffix hnew hnodup

include hwf hr in
/-- At a table that lies in the range, the walk is left with an error or a panic. -/
theorem settles_full (h : Pruned s s') (hpmem : s'.pmem = s.pmem) (ht : s.node r l = some t)
    (hbelow : s.below l.length t virt = some c) (hfits : levels l.length ≤ size)
    (hok : ¬ Fails s l.length t virt size)
    (hsettled : Settled s s' (l.length + 1) c virt size
      (vmemUnmapSt fuel (l.length + 1) c virt size s')) :
  Settled s s' l.length t virt size (vmemUnmapSt (fuel + 1) l.length t virt size s')
  := by
  rw [h.turn_full hwf hr ht hbelow hfits]
  generalize hres : vmemUnmapSt fuel (l.length + 1) c virt size s' = res at hsettled
  cases hsettled with
  | @returns err s'' hpruned hquiet hclears =>
      rw [bind_of_ok hres]
      by_cases herr : err = .errNone
      · rw [if_neg (not_not_intro herr)]
        -- The page is not taken, or the walk would fail.
        have htaken : ∃ msg p, pmemFree (s.tables t (index virt l.length) &&& addrMask) s.pmem
            = .error (.panic msg) p := by
          by_contra hnot
          apply hok
          apply Fails.again hfits hbelow (hclears herr)
          intro msg p hfree
          apply hnot ⟨msg, p, hfree⟩
        obtain ⟨msg, p, hfree⟩ := htaken
        rw [← hpmem, ← hquiet.pmem] at hfree
        rw [bind_of_error (freepage_of_error hfree)]
        have hnew : frees (s''.release p (s.tables t (index virt l.length) &&& addrMask)).hist
            = [s.tables t (index virt l.length) &&& addrMask] ++ frees s'.hist := by
          rw [Vmem.release, frees_free, hquiet.frees, List.singleton_append]
        apply Settled.panics (hquiet.hist.trans steady_release.hist) hnew
        apply List.nodup_singleton
      · rw [if_pos herr, pure_apply]
        apply Settled.returns hpruned hquiet
        intro hnone
        apply absurd hnone herr
  | panics hsuffix hnew hnodup =>
      rw [bind_of_error hres]
      apply Settled.panics hsuffix hnew hnodup

include hwf hr in
/-- The walk of one table, when those of the tables below settle. -/
theorem settles_table (ht : s.node r l = some t)
    (hchild : ∀ {virt size c s'}, 4096 ∣ size.toNat → s.below l.length t virt = some c →
      ¬ Fails s (l.length + 1) c virt size → Pruned s s' → s'.pmem = s.pmem →
      ∃ fuel, Settled s s' (l.length + 1) c virt size
        (vmemUnmapSt fuel (l.length + 1) c virt size s'))
    (hsize : 4096 ∣ size.toNat) (hok : ¬ Fails s l.length t virt size) (h : Pruned s s')
    (hpmem : s'.pmem = s.pmem) :
  ∃ fuel, Settled s s' l.length t virt size (vmemUnmapSt fuel l.length t virt size s')
  := by
  induction hn : size.toNat using Nat.strong_induction_on generalizing virt size s' with
  | _ n ih =>
  subst hn
  have hlv := hwf.length_le hr ht
  by_cases hpos : 0 < size
  · have hin : InTable t (index virt l.length) := by
      by_contra hoff
      apply hok (.off hpos hoff)
    cases hreach : reach s'.physMapSz (s'.tables t (index virt l.length) &&& addrMask) with
    | none =>
        use 1
        rw [vmemUnmapSt_unreached hpos hlv hin hreach]
        apply Settled.panics_here
    | some v =>
        cases hbelow : s.below l.length t virt with
        | none =>
            by_cases hfits : levels l.length ≤ size
            · have hreached : reach s.physMapSz (s.tables t (index virt l.length) &&& addrMask)
                  ≠ none := by
                rw [← h.reached hwf hr ht, hreach]
                apply Option.some_ne_none
              have hpass : Passes s l.length t virt size := ⟨hin, hbelow, hreached, hfits⟩
              obtain ⟨s₁, h₁, hquiet, hstep⟩ := hpass.step hwf hr h ht hpos
              have hsub : (size - levels l.length).toNat = size.toNat - span l.length :=
                BitVec.toNat_sub_of_le hfits
              have hless : (size - levels l.length).toNat < size.toNat := by
                rw [hsub]
                apply Nat.sub_lt hpos (span_pos _)
              have hrest : ¬ Fails s l.length t (virt + levels l.length) (size - levels l.length) :=
                fun hfails => hok (.pass hpass hfails)
              have hdvd : 4096 ∣ (size - levels l.length).toNat := by
                rw [hsub]
                apply Nat.dvd_sub hsize (page_dvd_span _)
              obtain ⟨fuel, hsettled⟩ := ih _ hless hdvd hrest h₁ (hquiet.pmem.trans hpmem) rfl
              use fuel + 1
              rw [hstep]
              apply hsettled.pass hpass hquiet
            · use 1
              rw [vmemUnmapSt_turn hpos hlv hin hreach]
              rcases h.bare hwf hr ht hbelow with hzero | ⟨hsame, hpresent, hleaf⟩
              · rw [hzero, if_neg (by decide), if_neg hfits, pure_apply]
                apply Settled.returns h (.refl s')
                intro herr
                cases herr
              · have hlarge : s.tables t (index virt l.length) &&& largepage ≠ 0 := by
                  apply hleaf.resolve_right
                  intro hpage
                  apply hfits
                  rw [hpage]
                  apply Nat.le_of_dvd hpos hsize
                rw [hsame, if_pos hpresent, if_neg (fun hfull => hfits hfull.1),
                  if_neg (fun hfull => hfits hfull.1), if_neg hlarge, throw_apply]
                apply Settled.panics_here
        | some c =>
            have hrest : ¬ Fails s (l.length + 1) c virt size :=
              fun hfails => hok (.down hpos hbelow hfails)
            obtain ⟨fuel, hsettled⟩ := hchild hsize hbelow hrest h hpmem
            use fuel + 1
            by_cases hfits : levels l.length ≤ size
            · apply settles_full hwf hr h hpmem ht hbelow hfits hok hsettled
            · have hpart := BitVec.not_le.mp hfits
              rw [h.turn_part hwf hr ht hbelow hpos hpart]
              apply hsettled.up hpos hpart hbelow
  · use 0
    rw [eq_zero_of_not_pos hpos, vmemUnmapSt_zero]
    apply Settled.returns h (.refl s')
    intro _
    apply Clears.done

include hwf hr in
/-- A walk that does not fail settles. -/
theorem settles {n : ℕ} (hn : l.length + n = 3) (ht : s.node r l = some t)
    (hsize : 4096 ∣ size.toNat) (hok : ¬ Fails s l.length t virt size) (h : Pruned s s')
    (hpmem : s'.pmem = s.pmem) :
  ∃ fuel, Settled s s' l.length t virt size (vmemUnmapSt fuel l.length t virt size s')
  := by
  induction n generalizing l t virt size s' with
  | zero =>
      apply settles_table hwf hr ht _ hsize hok h hpmem
      intro virt size c s' _ hbelow _ h _
      obtain ⟨-, -, -, -, -, -, -, hlv, -⟩ := h.below hwf hr ht hbelow
      omega
  | succ n ih =>
      apply settles_table hwf hr ht _ hsize hok h hpmem
      intro virt size c s' hsize hbelow hok h hpmem
      obtain ⟨-, -, -, -, -, -, -, -, -, hc⟩ := h.below hwf hr ht hbelow
      have hlen : (l ++ [index virt l.length]).length = l.length + 1 := by
        rw [List.length_append, List.length_singleton]
      rw [← hlen] at hok ⊢
      apply ih (by omega) hc hsize hok h hpmem

include hwf hr in
theorem Fails.not_releasesOnce (h : Fails s 0 r virt size) :
  ¬ ReleasesOnce s r virt size
  := by
  rintro ⟨fuel, hend, hnodup, -⟩
  rcases h.run hwf hr (l := []) rfl (.refl s) rfl (node_root s r) fuel with
    ⟨s', hfault⟩ | ⟨new, hnew, htwice⟩
  · apply hend s' hfault
  · apply htwice
    rw [freedSince_eq (along_vmemUnmapSt s).hist hnew] at hnodup
    exact hnodup

end Step

/-- The unmap walk over a range of pages ends, gives no page back twice and leaves no entry with a
page that it gave back, just when it does not leave the top-level table and comes to no table that
it clears, that lies in what is left of the range, and whose page `pmem_free` takes. -/
theorem releasesOnce_iff {s : Vmem} {r : TablePtr} {virt size : U64} (hbuilt : Built s)
    (hfresh : FreshPages s.hist) (hr : r ∈ roots) (hsize : 4096 ∣ size.toNat) :
  ReleasesOnce s r virt size ↔ ¬ Fails s 0 r virt size
  := by
  have hwf := (hbuilt.wf hfresh).toWfCore
  constructor
  · intro h hfails
    apply hfails.not_releasesOnce hwf hr h
  · intro hok
    obtain ⟨fuel, hsettled⟩ := settles hwf hr (l := []) (n := 3) rfl (node_root s r) hsize hok
      (.refl s) rfl
    rw [List.length_nil] at hsettled
    use fuel
    generalize hres : vmemUnmapSt fuel 0 r virt size s = res at hsettled
    cases hsettled with
    | @returns err s' hpruned hquiet hclears =>
        have hnothing : freedSince s s' = [] := freedSince_eq hpruned.hist hquiet.frees
        constructor
        · intro s'' herror
          cases herror
        · rw [finalState_ok, hnothing]
          use List.nodup_nil
          intro s'' hrun l t _ i _
          cases hrun
          rw [hnothing]
          apply List.not_mem_nil
    | @panics msg s' new hsuffix hnew hnodup =>
        constructor
        · intro s'' herror
          cases herror
        · rw [finalState_error, freedSince_eq hsuffix hnew]
          use hnodup
          intro s'' hrun
          cases hrun

/-! ### Runs -/

/-- In a table with no table below, a whole number of entries is passed. -/
theorem clears_of_bare {s : Vmem} {lv : ℕ} {t : TablePtr} {virt size : U64} (hlv : lv ≤ 3)
    (hbare : ∀ i < 512, InTable t i ∧ link s.hugepage s.physMapSz lv (s.tables t i) = none
      ∧ reach s.physMapSz (s.tables t i &&& addrMask) ≠ none) (hdvd : span lv ∣ size.toNat) :
  Clears s lv t virt size
  := by
  induction hn : size.toNat using Nat.strong_induction_on generalizing virt size with
  | _ n ih =>
  subst hn
  by_cases hpos : 0 < size
  · have hfits : levels lv ≤ size := Nat.le_of_dvd hpos hdvd
    have hsub : (size - levels lv).toNat = size.toNat - span lv := BitVec.toNat_sub_of_le hfits
    obtain ⟨hin, hnone, hreached⟩ := hbare (index virt lv) (index_lt virt hlv)
    apply Clears.pass ⟨hin, hnone, hreached, hfits⟩
    apply ih _ _ _ rfl
    · rw [hsub]
      apply Nat.sub_lt hpos (span_pos _)
    · rw [hsub]
      apply Nat.dvd_sub hdvd (dvd_refl _)
  · rw [eq_zero_of_not_pos hpos]
    apply Clears.done

/-- The allocations for four tables in `vmem_init`, and one after it. -/
def fivePages : List (Option U64) :=
  [some 0x104000, some 0x103000, some 0x102000, some 0x101000, some 0x100000]

/-- After `vmem_init`, a request for a page of 1 GiB at `unusedBase` needs a table, and the page is
its first entry. -/
theorem slots_gib :
  ∃ ret s, initThenMap unusedBase 0 (gib 1) bootVmem = .ok ret s ∧ allocs s.hist = fivePages
    ∧ s.hugepage = true
    ∧ (s.node .kmem [510]).map (fun t => (List.range 512).map (s.tables t))
      = some (leafEntry 0 0 1 :: List.replicate 511 0)
    ∧ Returns (fun _ _ => True) (pmemFree (s.tables .kmem 510 &&& addrMask) s.pmem)
  := exists_of_returns _ _ (by decide +kernel)

/-- A table in a state that is built, without a table below it, whose page `pmem_free` takes. -/
theorem exists_bare_unusedBase :
  ∃ s t, Built s ∧ FreshPages s.hist ∧ s.below 0 .kmem unusedBase = some t
    ∧ (∀ i < 512, InTable t i ∧ link s.hugepage s.physMapSz 1 (s.tables t i) = none
      ∧ reach s.physMapSz (s.tables t i &&& addrMask) ≠ none)
    ∧ ∀ msg p, pmemFree (s.tables .kmem (index unusedBase 0) &&& addrMask) s.pmem
      ≠ .error (.panic msg) p
  := by
  obtain ⟨ret, s, hrun, hallocs, hhuge, hentries, hfree⟩ := slots_gib
  obtain ⟨s₀, hinit, hbuilt, -⟩ := exists_built_bootVmem
  rw [initThenMap, bind_of_ok hinit] at hrun
  have hbuilt' : Built s := hbuilt.map (by decide) hrun
  have hfresh : FreshPages s.hist := by
    apply LowPages.toFreshPages
    apply LowPages.of_allocs hallocs (by decide)
    simp [fivePages, IsPage]
  have hwf := hbuilt'.wf hfresh
  obtain ⟨t, ht, heq⟩ := Option.map_eq_some_iff.mp hentries
  use s, t, hbuilt', hfresh
  constructor
  · have hstep := node_concat (node_root s .kmem) 510
    rw [List.nil_append] at hstep
    rw [← ht]
    exact hstep.symm
  · constructor
    · intro i hi
      have hentry := congrArg (fun l => l[i]?) heq
      rw [List.getElem?_map, List.getElem?_range hi, Option.map_some] at hentry
      use hwf.inTable root_kmem (List.cons_ne_nil _ _) ht hi
      cases i with
      | zero =>
          have hzero := Option.some.inj hentry
          rw [hzero, hhuge]
          use exclusive_link _ _ _ _ (isLeaf_leafEntry rfl)
          rw [leafEntry_addr, hwf.reach_zero]
          apply Option.some_ne_none
      | succ i =>
          rw [List.getElem?_cons_succ, List.getElem?_replicate, if_pos (by omega)] at hentry
          rw [Option.some.inj hentry, hwf.reach_zero]
          use link_zero _ _ _
          apply Option.some_ne_none
    · intro msg p herror
      change pmemFree (s.tables .kmem 510 &&& addrMask) s.pmem = _ at herror
      rw [herror] at hfree
      exact hfree

/-- Unmapping the only page of a table, which takes up a part of the table. -/
theorem releasesOnce_unusedBase :
  ∃ s, Built s ∧ ReleasesOnce s .kmem unusedBase (gib 1)
  := by
  obtain ⟨s, t, hbuilt, hfresh, hbelow, hbare, -⟩ := exists_bare_unusedBase
  use s, hbuilt
  apply (releasesOnce_iff hbuilt hfresh root_kmem (by decide)).mpr
  have hpart : ¬ levels 0 ≤ gib 1 := by decide
  intro hfails
  cases hfails with
  | off _ hoff => apply hoff (by decide)
  | pass hpass _ => apply hpart hpass.fits
  | again hfits => apply hpart hfits
  | down _ hbelow' hfails =>
      obtain rfl := Option.some.inj (hbelow.symm.trans hbelow')
      obtain ⟨hin, hnone, -⟩ := hbare (index unusedBase 1) (by decide)
      cases hfails with
      | off _ hoff => apply hoff hin
      | down _ hbelow'' _ =>
          rw [Vmem.below, hnone] at hbelow''
          cases hbelow''
      | again _ hbelow'' =>
          rw [Vmem.below, hnone] at hbelow''
          cases hbelow''
      | pass _ hfails =>
          have hzero : gib 1 - levels 1 = 0 := by decide
          rw [hzero] at hfails
          cases hfails with
          | off hpos _ => apply absurd hpos (by decide)
          | pass hpass _ => apply absurd hpass.fits (by decide)
          | down hpos => apply absurd hpos (by decide)
          | again hfits => apply absurd hfits (by decide)

/-- Unmapping the 512 GiB of a table gives the page of the table back more than once. -/
theorem not_releasesOnce_unusedBase :
  ¬ ∀ (r : TablePtr) (virt size : U64) (s : Vmem), Built s → FreshPages s.hist → r ∈ roots →
    4096 ∣ virt.toNat → 4096 ∣ size.toNat → ReleasesOnce s r virt size
  := by
  intro h
  obtain ⟨s, t, hbuilt, hfresh, hbelow, hbare, htaken⟩ := exists_bare_unusedBase
  have hreleases := h .kmem unusedBase (gib 512) s hbuilt hfresh root_kmem (by decide) (by decide)
  apply Fails.not_releasesOnce (hbuilt.wf hfresh).toWfCore root_kmem _ hreleases
  apply Fails.again (by decide) hbelow _ htaken
  apply clears_of_bare (by decide) hbare (by decide)

end VirtMem
