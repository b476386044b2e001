import Gubernatrix.Lib.Bitfield
import Gubernatrix.Lib.Links
import Gubernatrix.VirtMem.Paging
import Mathlib.Data.Fintype.Card

/-!
# Message signalled interrupts

`pci_getmsiinfo` and `pci_setmsiinfo`, which walk the list of capabilities of a function. The
first one remembers whether it has come to an MSI-X capability, but takes the count from whatever
capability comes last; the second one accepts the count of the MSI-X capability only.

The registers of each capability are its own. A bit-field is read from, and written to, the
register that it is in.
-/

namespace Msi

/-- `uint8_t`. -/
abbrev Byte := BitVec 8

/-- `uint16_t`. -/
abbrev U16 := BitVec 16

/-- `uint32_t`. -/
abbrev U32 := BitVec 32

/-- The registers of a capability: `pci_cap_header_t`, the register with its control bits, and the
three that follow. -/
structure Capability where
  capID : Byte
  nextPtr : Byte
  ctrl : U16
  reg1 : U32
  reg2 : U32
  reg3 : U32

/-- `pci_cap_msi`. -/
def pciCapMsi : Byte := 0x05

/-- `pci_cap_msix`. -/
def pciCapMsix : Byte := 0x11

namespace Capability

variable (c : Capability)

/-- `requested_vector_num` of a `pci_msi_control_t`. -/
def requestedVectorNum : BitVec 3 := Bitfield.get 1 3 c.ctrl

/-- `avail_vector_num` of a `pci_msi_control_t`. -/
def availVectorNum : BitVec 3 := Bitfield.get 4 3 c.ctrl

/-- `support_64bit` of a `pci_msi_control_t`. -/
def support64bit : BitVec 1 := Bitfield.get 7 1 c.ctrl

/-- `enable` of a `pci_msi_control_t`. -/
def msiEnable : BitVec 1 := Bitfield.get 0 1 c.ctrl

/-- `table_sz` of a `pci_msix_control_t`. -/
def tableSz : BitVec 11 := Bitfield.get 0 11 c.ctrl

/-- `enable` of a `pci_msix_control_t`. -/
def msixEnable : BitVec 1 := Bitfield.get 15 1 c.ctrl

/-- `table_off.bir` of a `pci_msix_t`. -/
def bir : BitVec 3 := Bitfield.get 0 3 c.reg1

/-- `table_off.offset` of a `pci_msix_t`. -/
def offset : BitVec 29 := Bitfield.get 3 29 c.reg1

/-- The capability is an MSI capability. -/
def IsMsi : Prop := c.capID = pciCapMsi

/-- The capability is an MSI-X capability. -/
def IsMsix : Prop := c.capID = pciCapMsix

instance : Decidable c.IsMsi := inferInstanceAs (Decidable (_ = _))

instance : Decidable c.IsMsix := inferInstanceAs (Decidable (_ = _))

end Capability

/-- A function: its `pci_config_t`, where `bar[6]` is what comes after the array, and the memory,
by virtual addresses. -/
structure Device where
  capabilitiesPtr : Byte
  bar : ℕ → U32
  cap : Byte → Capability
  mem : U64 → U32

/-- `ptr` after a turn of the loops, unless it is 0. -/
def next (d : Device) (ptr : Byte) : Option Byte :=
  if (d.cap ptr).nextPtr = 0 then none else some (d.cap ptr).nextPtr

/-! ### `pci_getmsiinfo` -/

/-- The variables of `pci_getmsiinfo`. -/
structure Info where
  hasmsi : Bool
  hasmsix : Bool
  cnt : U32

/-- `pci_getmsiinfo`, at a capability. -/
def getStep (c : Capability) (x : Info) : Info :=
  if c.IsMsi then { x with hasmsi := true, cnt := 1#32 <<< c.requestedVectorNum.toNat }
  else if c.IsMsix then
    { hasmsi := true, hasmsix := true, cnt := c.tableSz.setWidth 32 + 1 }
  else x

/-- What `pci_getmsiinfo` returns, and `*cnt`. -/
def Info.result (x : Info) : ℤ × U32 :=
  if x.hasmsix then (1, x.cnt) else if x.hasmsi then (0, x.cnt) else (-1, x.cnt)

/-- `pci_getmsiinfo`; `none` when the list of capabilities has no end. A list that ends has at most
256 elements. -/
def pciGetmsiinfo (d : Device) (cnt : U32) : Option (ℤ × U32) :=
  let x : Info := { hasmsi := false, hasmsix := false, cnt := cnt }
  if d.capabilitiesPtr ≠ 0 then
    match Links.walk (fun _ => next d) (fun x ptr => .ok (getStep (d.cap ptr) x)) 256
        d.capabilitiesPtr x with
    | some (.ok x) => some x.result
    | some (.error e) => Empty.elim e
    | none => none
  else some x.result

/-! ### `pci_setmsiinfo` -/

/-- How `pci_setmsiinfo` ends. -/
inductive End where
  | returned (v : ℤ) (d : Device)
  | panic (msg : String) (d : Device)

/-- `coded_vecnum`. -/
def codedVecnum (cnt : U32) : ℕ :=
  ((List.range 31).reverse.find? fun i => cnt &&& 1#32 <<< i ≠ 0).getD 0

/-- The registers of an MSI capability afterwards. -/
def setMsi (msiAddr : ℕ → U64) (msiMsg : ℕ → U32) (cnt : U32) (c : Capability) : Capability :=
  let c :=
    if c.support64bit ≠ 0 then
      { c with
        reg1 := (msiAddr 0).setWidth 32
        reg2 := (msiAddr 0 >>> 32).setWidth 32
        reg3 := Bitfield.set 0 ((msiMsg 0).setWidth 16) c.reg3 }
    else
      { c with
        reg1 := (msiAddr 0).setWidth 32
        reg2 := Bitfield.set 0 ((msiMsg 0).setWidth 16) c.reg2 }
  let c := { c with ctrl := Bitfield.set 4 (BitVec.ofNat 3 (codedVecnum cnt)) c.ctrl }
  { c with ctrl := Bitfield.set 0 1#1 c.ctrl }

/-- The loop over the BARs, with `n` of them to go through from `i` on. -/
def barLoop (bars : ℕ → U32) (bir : ℕ) : (n i : ℕ) → (bar : U64) → U64
  | 0, _, bar => bar
  | n + 1, i, bar =>
      let bar :=
        if bars i &&& 0x6 = 0x4 then
          (bars i &&& 0xFFFFFFF0).setWidth 64 + (bars (i + 1)).setWidth 64 <<< 32
        else if bars i &&& 0x6 = 0x0 then (bars i &&& 0xFFFFFFF0).setWidth 64
        else bar
      if i = bir then bar else barLoop bars bir n (i + 1) bar

/-- The physical address of the table of an MSI-X capability. The offset is a bit-field that fits
in an `int`, which it is shifted and extended as. -/
def tablePhys (bars : ℕ → U32) (c : Capability) : U64 :=
  barLoop bars c.bir.toNat 6 0 0 + (c.offset.setWidth 32 <<< 3).signExtend 64

/-- The address of the table of an MSI-X capability, or `none` when `vmem_phystovirt` panics. -/
def table (physMapSz : U64) (bars : ℕ → U32) (c : Capability) : Option U64 :=
  VirtMem.directAddr physMapSz (tablePhys bars c) (kib 4)
    (VirtMem.vmemFlagsUncached ||| VirtMem.vmemFlagsKernel ||| VirtMem.vmemFlagsRw)

/-- The entry of the table with an index is filled. -/
def fillEntry (msiAddr : ℕ → U64) (msiMsg : ℕ → U32) (cnt : U32) (table : U64)
    (mem : U64 → U32) (i : ℕ) : U64 → U32 :=
  let k := if cnt = 1 then 0 else i
  let dword (j : ℕ) : U64 := table + 4 * BitVec.ofNat 64 (i * 4 + j)
  let mem := Function.update mem (dword 0) ((msiAddr k).setWidth 32)
  let mem := Function.update mem (dword 1) ((msiAddr k >>> 32).setWidth 32)
  let mem := Function.update mem (dword 2) (msiMsg k)
  Function.update mem (dword 3) (mem (dword 3) &&& ~~~1#32)

/-- The registers of an MSI-X capability afterwards. -/
def setMsix (c : Capability) : Capability :=
  let c := { c with ctrl := Bitfield.set 14 0#1 c.ctrl }
  { c with ctrl := Bitfield.set 15 1#1 c.ctrl }

/-- `pci_setmsiinfo`, at a capability. -/
def setStep (physMapSz : U64) (msix : ℤ) (msiAddr : ℕ → U64) (msiMsg : ℕ → U32) (cnt : U32)
    (d : Device) (ptr : Byte) : Except End Device :=
  let c := d.cap ptr
  if c.IsMsi ∧ msix = 0 then
    .ok { d with cap := Function.update d.cap ptr (setMsi msiAddr msiMsg cnt c) }
  else if c.IsMsix ∧ msix = 1 then
    if cnt ≠ 1 ∧ c.tableSz.setWidth 32 + 1 ≠ cnt then .error (.returned (-1) d)
    else
      match table physMapSz d.bar c with
      | some table =>
          .ok { d with
            cap := Function.update d.cap ptr (setMsix c)
            mem := (List.range (c.tableSz.toNat + 1)).foldl
              (fillEntry msiAddr msiMsg cnt table) d.mem }
      | none => .error (.panic "Invalid Address Detected!" d)
  else .ok d

/-- `pci_setmsiinfo`; `none` when the list of capabilities has no end. -/
def pciSetmsiinfo (physMapSz : U64) (d : Device) (msix : ℤ) (msiAddr : ℕ → U64)
    (msiMsg : ℕ → U32) (cnt : U32) : Option End :=
  if d.capabilitiesPtr ≠ 0 then
    match Links.walk next (setStep physMapSz msix msiAddr msiMsg cnt) 256 d.capabilitiesPtr d with
    | some (.ok d) => some (.returned 0 d)
    | some (.error e) => some e
    | none => none
  else some (.returned 0 d)

/-! ### What the two functions should agree on -/

/-- The list of capabilities is `ps`, with at most one MSI and at most one MSI-X capability. -/
structure Listed (d : Device) (ps : List Byte) : Prop where
  path : d.capabilitiesPtr = 0 ∧ ps = []
    ∨ d.capabilitiesPtr ≠ 0 ∧ Links.Path (next d) d.capabilitiesPtr ps
  msi : ∀ p ∈ ps, ∀ q ∈ ps, (d.cap p).IsMsi → (d.cap q).IsMsi → p = q
  msix : ∀ p ∈ ps, ∀ q ∈ ps, (d.cap p).IsMsix → (d.cap q).IsMsix → p = q

/-- In the configuration of a function, only the capability at `p` has changed. -/
structure OnlyAt (d : Device) (p : Byte) (d' : Device) : Prop where
  capabilitiesPtr : d'.capabilitiesPtr = d.capabilitiesPtr
  bar : d'.bar = d.bar
  cap : ∀ q, q ≠ p → d'.cap q = d.cap q

/-- What `pci_getmsiinfo` says of the capabilities `ps` is right, and is accepted by
`pci_setmsiinfo`. -/
structure Agree (physMapSz : U64) (d : Device) (ps : List Byte) (cnt₀ : U32) : Prop where
  returns : ∃ r cnt, pciGetmsiinfo d cnt₀ = some (r, cnt) ∧ (r = 1 ∨ r = 0 ∨ r = -1)
  msix : ∀ cnt, pciGetmsiinfo d cnt₀ = some (1, cnt) →
    ∃ p ∈ ps, (d.cap p).IsMsix ∧ cnt.toNat = (d.cap p).tableSz.toNat + 1
      ∧ ∀ msiAddr msiMsg, ∃ d',
        pciSetmsiinfo physMapSz d 1 msiAddr msiMsg cnt = some (.returned 0 d')
        ∧ OnlyAt d p d' ∧ (d'.cap p).msixEnable = 1
  msi : ∀ cnt, pciGetmsiinfo d cnt₀ = some (0, cnt) →
    ∃ p ∈ ps, (d.cap p).IsMsi ∧ cnt.toNat = 2 ^ (d.cap p).requestedVectorNum.toNat
      ∧ ∀ msiAddr msiMsg, ∃ d',
        pciSetmsiinfo physMapSz d 0 msiAddr msiMsg cnt = some (.returned 0 d')
        ∧ OnlyAt d p d' ∧ (d'.cap p).msiEnable = 1
        ∧ 2 ^ (d'.cap p).availVectorNum.toNat = cnt.toNat
  neither : ∀ cnt, pciGetmsiinfo d cnt₀ = some (-1, cnt) →
    ∀ p ∈ ps, ¬ (d.cap p).IsMsi ∧ ¬ (d.cap p).IsMsix

/-- If there is an MSI-X capability, then an MSI capability that comes after it asks for as many
vectors as its table has entries, and its table is where `vmem_phystovirt` accepts it. -/
structure Compatible (physMapSz : U64) (d : Device) (ps : List Byte) : Prop where
  order : ∀ before p after, ps = before ++ p :: after → (d.cap p).IsMsix →
    ∀ q ∈ after, (d.cap q).IsMsi →
      2 ^ (d.cap q).requestedVectorNum.toNat = (d.cap p).tableSz.toNat + 1
  table : ∀ p ∈ ps, (d.cap p).IsMsix → table physMapSz d.bar (d.cap p) ≠ none

/-! ### The walks -/

section Walks

variable {physMapSz : U64} {d : Device} {ps : List Byte} {msix : ℤ} {msiAddr : ℕ → U64}
  {msiMsg : ℕ → U32} {cnt : U32}

theorem not_isMsix_of_isMsi {c : Capability} (h : c.IsMsi) :
  ¬ c.IsMsix
  := by
  rw [Capability.IsMsi] at h
  rw [Capability.IsMsix, h]
  decide

/-- The loop of `pci_getmsiinfo` over a list of capabilities. -/
def getLoop (d : Device) (ps : List Byte) (x : Info) : Info :=
  ps.foldl (fun x p => getStep (d.cap p) x) x

theorem Listed.nodup (h : Listed d ps) :
  ps.Nodup
  := by
  rcases h.path with ⟨-, rfl⟩ | ⟨-, hpath⟩
  · exact List.nodup_nil
  · exact hpath.nodup

theorem Listed.length_le (h : Listed d ps) :
  ps.length ≤ 256
  := by
  have hle := (h.nodup.map BitVec.equivFin.injective).length_le_card
  rwa [List.length_map, Fintype.card_fin] at hle

theorem pciGetmsiinfo_eq (h : Listed d ps) :
  pciGetmsiinfo d cnt = some (getLoop d ps ⟨false, false, cnt⟩).result
  := by
  rw [pciGetmsiinfo]
  rcases h.path with ⟨hzero, rfl⟩ | ⟨hne, hpath⟩
  · rw [if_neg (not_not.mpr hzero)]
    rfl
  · let step (x : Info) (p : Byte) : Except Empty Info := .ok (getStep (d.cap p) x)
    have hwalk (x : Info) : Links.walk (fun _ => next d) step 256 d.capabilitiesPtr x
        = some (ps.foldlM step x) :=
      Links.walk_eq_foldlM (fun _ _ _ _ => rfl) hpath h.length_le
    have hfold (x : Info) : ps.foldlM step x = .ok (getLoop d ps x) := List.foldlM_pure
    rw [if_pos hne, hwalk, hfold]

theorem setMsi_nextPtr (c : Capability) :
  (setMsi msiAddr msiMsg cnt c).nextPtr = c.nextPtr
  := by
  rw [setMsi]
  split <;> rfl

theorem next_setStep {d' : Device} {p : Byte}
    (h : setStep physMapSz msix msiAddr msiMsg cnt d p = .ok d') :
  next d' = next d
  := by
  have hupdate : ∀ (c : Capability) (mem : U64 → U32), c.nextPtr = (d.cap p).nextPtr →
      next { d with cap := Function.update d.cap p c, mem := mem } = next d := by
    intro c mem hc
    funext q
    by_cases hq : q = p
    · simp only [next, hq, Function.update_self, hc]
    · simp only [next, Function.update_of_ne hq]
  rw [setStep] at h
  split at h
  · cases h
    exact hupdate _ _ (setMsi_nextPtr _)
  · split at h
    · split at h
      · cases h
      · split at h
        · cases h
          exact hupdate _ _ rfl
        · cases h
    · cases h
      rfl

/-- What `pci_setmsiinfo` returns after the loop. -/
def ending : Except End Device → End
  | .ok d => .returned 0 d
  | .error e => e

theorem pciSetmsiinfo_eq (h : Listed d ps) :
  pciSetmsiinfo physMapSz d msix msiAddr msiMsg cnt
    = some (ending (ps.foldlM (setStep physMapSz msix msiAddr msiMsg cnt) d))
  := by
  rw [pciSetmsiinfo]
  rcases h.path with ⟨hzero, rfl⟩ | ⟨hne, hpath⟩
  · rw [if_neg (not_not.mpr hzero)]
    rfl
  · rw [if_pos hne, Links.walk_eq_foldlM (fun _ _ _ => next_setStep) hpath h.length_le]
    cases ps.foldlM (setStep physMapSz msix msiAddr msiMsg cnt) d <;> rfl

/-! ### What `pci_getmsiinfo` says -/

/-- Neither kind is among the capabilities. -/
def Neither (d : Device) (ps : List Byte) : Prop :=
  ∀ p ∈ ps, ¬ (d.cap p).IsMsi ∧ ¬ (d.cap p).IsMsix

theorem getLoop_of_neither (h : Neither d ps) (x : Info) :
  getLoop d ps x = x
  := by
  induction ps generalizing x with
  | nil => rfl
  | cons p ps ih =>
      obtain ⟨hmsi, hmsix⟩ := h p (List.mem_cons_self ..)
      rw [getLoop, List.foldl_cons, getStep, if_neg hmsi, if_neg hmsix]
      exact ih (fun q hq => h q (List.mem_cons_of_mem _ hq)) x

theorem getLoop_append (qs : List Byte) (x : Info) :
  getLoop d (ps ++ qs) x = getLoop d qs (getLoop d ps x)
  := List.foldl_append

theorem getLoop_cons (p : Byte) (x : Info) :
  getLoop d (p :: ps) x = getLoop d ps (getStep (d.cap p) x)
  := rfl

theorem toNat_cnt_msi (c : Capability) :
  (1#32 <<< c.requestedVectorNum.toNat).toNat = 2 ^ c.requestedVectorNum.toNat
  := by
  have hlt : c.requestedVectorNum.toNat < 8 := c.requestedVectorNum.isLt
  have hpow : 2 ^ c.requestedVectorNum.toNat < 2 ^ 32 := Nat.pow_lt_pow_right (by decide) (by omega)
  rw [BitVec.toNat_shiftLeft, Nat.shiftLeft_eq]
  exact (Nat.mod_eq_of_lt (by simpa using hpow)).trans (Nat.one_mul _)

theorem toNat_cnt_msix (c : Capability) :
  (c.tableSz.setWidth 32 + 1).toNat = c.tableSz.toNat + 1
  := by
  have hlt := c.tableSz.isLt
  rw [BitVec.toNat_add, BitVec.toNat_setWidth]
  have hone : (1 : U32).toNat = 1 := rfl
  omega

/-- The other capabilities on a list on which one stands. -/
theorem Listed.others {before after : List Byte} {p : Byte} (h : Listed d (before ++ p :: after)) :
  ∀ q ∈ before ++ after, q ∈ before ++ p :: after ∧ q ≠ p
  := by
  intro q hq
  have hperm : (before ++ p :: after).Perm (p :: (before ++ after)) := List.perm_middle
  have hnodup := List.nodup_cons.mp (hperm.nodup_iff.mp h.nodup)
  constructor
  · exact hperm.mem_iff.mpr (List.mem_cons_of_mem _ hq)
  · rintro rfl
    exact hnodup.1 hq

/-- With an MSI-X capability on the list, `pci_getmsiinfo` returns 1; the count is that of it or
that of an MSI capability after it. -/
theorem getLoop_msix {before after : List Byte} {p : Byte} (h : Listed d (before ++ p :: after))
    (hp : (d.cap p).IsMsix) (x : Info) :
  ∃ hasmsi cnt, getLoop d (before ++ p :: after) x = ⟨hasmsi, true, cnt⟩
    ∧ (cnt.toNat = (d.cap p).tableSz.toNat + 1 ↔ ∀ q ∈ after, (d.cap q).IsMsi →
      2 ^ (d.cap q).requestedVectorNum.toNat = (d.cap p).tableSz.toNat + 1)
  := by
  have hmsi : ¬ (d.cap p).IsMsi := fun hmsi => not_isMsix_of_isMsi hmsi hp
  have hothers : ∀ q ∈ after, ¬ (d.cap q).IsMsix := by
    intro q hq hmsix
    obtain ⟨hmem, hne⟩ := h.others q (List.mem_append_right _ hq)
    exact hne (h.msix q hmem p (by simp) hmsix hp)
  rw [getLoop_append, getLoop_cons]
  generalize getLoop d before x = y
  have hstep : getStep (d.cap p) y = ⟨true, true, (d.cap p).tableSz.setWidth 32 + 1⟩ := by
    rw [getStep, if_neg hmsi, if_pos hp]
  rw [hstep]
  by_cases hafter : ∃ q ∈ after, (d.cap q).IsMsi
  · obtain ⟨q, hq, hqmsi⟩ := hafter
    obtain ⟨between, rest, hsplit⟩ := List.append_of_mem hq
    have honly : ∀ r ∈ after, (d.cap r).IsMsi → r = q := fun r hr hrmsi =>
      h.msi r (h.others r (List.mem_append_right _ hr)).1 q
        (h.others q (List.mem_append_right _ hq)).1 hrmsi hqmsi
    have hnodup : after.Nodup := (List.nodup_cons.mp (List.nodup_append.mp h.nodup).2.1).2
    rw [hsplit] at hnodup hothers honly
    have hperm : (between ++ q :: rest).Perm (q :: (between ++ rest)) := List.perm_middle
    have hnotin := (List.nodup_cons.mp (hperm.nodup_iff.mp hnodup)).1
    have hbetween : Neither d between := fun r hr =>
      ⟨fun hrmsi => hnotin (honly r (by simp [hr]) hrmsi ▸ List.mem_append_left _ hr),
        hothers r (by simp [hr])⟩
    have hrest : Neither d rest := fun r hr =>
      ⟨fun hrmsi => hnotin (honly r (by simp [hr]) hrmsi ▸ List.mem_append_right _ hr),
        hothers r (by simp [hr])⟩
    rw [hsplit, getLoop_append, getLoop_cons, getLoop_of_neither hbetween, getStep, if_pos hqmsi,
      getLoop_of_neither hrest]
    refine ⟨_, _, rfl, ?_⟩
    rw [toNat_cnt_msi]
    constructor
    · intro heq r hr hrmsi
      rwa [honly r hr hrmsi]
    · intro hall
      exact hall q (by simp) hqmsi
  · rw [getLoop_of_neither fun q hq => ⟨fun hqmsi => hafter ⟨q, hq, hqmsi⟩, hothers q hq⟩]
    refine ⟨_, _, rfl, ?_⟩
    rw [toNat_cnt_msix]
    exact ⟨fun _ q hq hqmsi => absurd ⟨q, hq, hqmsi⟩ hafter, fun _ => rfl⟩

/-- With an MSI capability and no MSI-X capability, `pci_getmsiinfo` returns 0. -/
theorem getLoop_msi {before after : List Byte} {p : Byte} (h : Listed d (before ++ p :: after))
    (hp : (d.cap p).IsMsi) (hmsix : ∀ q ∈ before ++ p :: after, ¬ (d.cap q).IsMsix) (cnt : U32) :
  getLoop d (before ++ p :: after) ⟨false, false, cnt⟩
    = ⟨true, false, 1#32 <<< (d.cap p).requestedVectorNum.toNat⟩
  := by
  have hothers : Neither d (before ++ after) := by
    intro q hq
    obtain ⟨hmem, hne⟩ := h.others q hq
    exact ⟨fun hqmsi => hne (h.msi q hmem p (by simp) hqmsi hp), hmsix q hmem⟩
  rw [getLoop_append, getLoop_cons,
    getLoop_of_neither fun q hq => hothers q (List.mem_append_left _ hq), getStep, if_pos hp,
    getLoop_of_neither fun q hq => hothers q (List.mem_append_right _ hq)]

/-! ### What `pci_setmsiinfo` does -/

/-- `pci_setmsiinfo` does something at the capability. -/
def Selected (msix : ℤ) (c : Capability) : Prop := c.IsMsi ∧ msix = 0 ∨ c.IsMsix ∧ msix = 1

theorem foldlM_setStep_of_not_selected (h : ∀ p ∈ ps, ¬ Selected msix (d.cap p)) :
  ps.foldlM (setStep physMapSz msix msiAddr msiMsg cnt) d = .ok d
  := by
  induction ps with
  | nil => rfl
  | cons p ps ih =>
      obtain ⟨hmsi, hmsix⟩ := not_or.mp (h p (List.mem_cons_self ..))
      rw [List.foldlM_cons, setStep, if_neg hmsi, if_neg hmsix]
      exact ih fun q hq => h q (List.mem_cons_of_mem _ hq)

theorem foldlM_setStep_error {before after : List Byte} {p : Byte} {e : End}
    (hothers : ∀ q ∈ before ++ after, ¬ Selected msix (d.cap q))
    (he : setStep physMapSz msix msiAddr msiMsg cnt d p = .error e) :
  (before ++ p :: after).foldlM (setStep physMapSz msix msiAddr msiMsg cnt) d = .error e
  := by
  rw [List.foldlM_append,
    foldlM_setStep_of_not_selected fun q hq => hothers q (List.mem_append_left _ hq)]
  change ((p :: after).foldlM (setStep physMapSz msix msiAddr msiMsg cnt) d) = _
  rw [List.foldlM_cons, he]
  rfl

theorem foldlM_setStep_ok {before after : List Byte} {p : Byte} {d' : Device}
    (h : Listed d (before ++ p :: after))
    (hothers : ∀ q ∈ before ++ after, ¬ Selected msix (d.cap q))
    (hd : setStep physMapSz msix msiAddr msiMsg cnt d p = .ok d') (honly : OnlyAt d p d') :
  (before ++ p :: after).foldlM (setStep physMapSz msix msiAddr msiMsg cnt) d = .ok d'
  := by
  have hafter : ∀ q ∈ after, ¬ Selected msix (d'.cap q) := by
    intro q hq
    have hmem := List.mem_append_right before hq
    rw [honly.cap q (h.others q hmem).2]
    exact hothers q hmem
  rw [List.foldlM_append,
    foldlM_setStep_of_not_selected fun q hq => hothers q (List.mem_append_left _ hq)]
  change ((p :: after).foldlM (setStep physMapSz msix msiAddr msiMsg cnt) d) = _
  rw [List.foldlM_cons, hd]
  exact foldlM_setStep_of_not_selected hafter

/-- Writing the registers of the capability at `p` changes nothing else in the configuration. -/
theorem onlyAt_update (d : Device) (p : Byte) (c : Capability) (mem : U64 → U32) :
  OnlyAt d p { d with cap := Function.update d.cap p c, mem := mem }
  := ⟨rfl, rfl, fun _ hq => Function.update_of_ne hq _ _⟩

theorem codedVecnum_shift :
  ∀ r : BitVec 3, codedVecnum (1#32 <<< r.toNat) = r.toNat
  := by decide

theorem setMsi_msiEnable (c : Capability) :
  (setMsi msiAddr msiMsg cnt c).msiEnable = 1
  := Bitfield.get_set (by decide) _ _

theorem setMsi_availVectorNum (c : Capability) :
  (setMsi msiAddr msiMsg cnt c).availVectorNum = BitVec.ofNat 3 (codedVecnum cnt)
  := by
  rw [Capability.availVectorNum, setMsi, Bitfield.get_set_of_disjoint (by decide) (by decide)]
  exact Bitfield.get_set (by decide) _ _

theorem setMsix_msixEnable (c : Capability) :
  (setMsix c).msixEnable = 1
  := Bitfield.get_set (by decide) _ _

/-- The count that an MSI capability asks for is programmed. -/
theorem pow_availVectorNum {c : Capability}
    (hcnt : cnt.toNat = 2 ^ c.requestedVectorNum.toNat) :
  2 ^ (setMsi msiAddr msiMsg cnt c).availVectorNum.toNat = cnt.toNat
  := by
  have heq : cnt = 1#32 <<< c.requestedVectorNum.toNat :=
    BitVec.toNat_inj.mp (hcnt.trans (toNat_cnt_msi c).symm)
  rw [setMsi_availVectorNum, hcnt, heq, codedVecnum_shift, BitVec.ofNat_toNat,
    BitVec.setWidth_eq]

theorem Listed.not_selected {before after : List Byte} {p : Byte}
    (h : Listed d (before ++ p :: after)) (hp : Selected msix (d.cap p)) :
  ∀ q ∈ before ++ after, ¬ Selected msix (d.cap q)
  := by
  intro q hq hsel
  obtain ⟨hmem, hne⟩ := h.others q hq
  rcases hp with ⟨hmsi, rfl⟩ | ⟨hmsix, rfl⟩
  · rcases hsel with ⟨hqmsi, -⟩ | ⟨-, hzero⟩
    · exact hne (h.msi q hmem p (by simp) hqmsi hmsi)
    · exact absurd hzero (by decide)
  · rcases hsel with ⟨-, hone⟩ | ⟨hqmsix, -⟩
    · exact absurd hone (by decide)
    · exact hne (h.msix q hmem p (by simp) hqmsix hmsix)

theorem pciSetmsiinfo_msi (physMapSz : U64) (msiAddr : ℕ → U64) (msiMsg : ℕ → U32) (cnt : U32)
    (h : Listed d ps) {p : Byte} (hmem : p ∈ ps) (hp : (d.cap p).IsMsi) :
  ∃ d', pciSetmsiinfo physMapSz d 0 msiAddr msiMsg cnt = some (.returned 0 d')
    ∧ OnlyAt d p d' ∧ d'.cap p = setMsi msiAddr msiMsg cnt (d.cap p)
  := by
  obtain ⟨before, after, rfl⟩ := List.append_of_mem hmem
  have honly := onlyAt_update d p (setMsi msiAddr msiMsg cnt (d.cap p)) d.mem
  refine ⟨_, ?_, honly, Function.update_self ..⟩
  rw [pciSetmsiinfo_eq h,
    foldlM_setStep_ok h (h.not_selected (.inl ⟨hp, rfl⟩)) (if_pos ⟨hp, rfl⟩) honly]
  rfl

/-- `pci_setmsiinfo`, at an MSI-X capability whose number of entries it is called with. -/
theorem setStep_msix (physMapSz : U64) (msiAddr : ℕ → U64) (msiMsg : ℕ → U32) {p : Byte}
    (hp : (d.cap p).IsMsix)
    (hcnt : cnt.toNat = (d.cap p).tableSz.toNat + 1) :
  setStep physMapSz 1 msiAddr msiMsg cnt d p
    = match table physMapSz d.bar (d.cap p) with
      | some table =>
          .ok { d with
            cap := Function.update d.cap p (setMsix (d.cap p))
            mem := (List.range ((d.cap p).tableSz.toNat + 1)).foldl
              (fillEntry msiAddr msiMsg cnt table) d.mem }
      | none => .error (.panic "Invalid Address Detected!" d)
  := by
  have hmsi : ¬ ((d.cap p).IsMsi ∧ (1 : ℤ) = 0) := fun hmsi => absurd hmsi.2 (by decide)
  have heq : (d.cap p).tableSz.setWidth 32 + 1 = cnt :=
    BitVec.toNat_inj.mp ((toNat_cnt_msix _).trans hcnt.symm)
  have hnot : ¬ (cnt ≠ 1 ∧ (d.cap p).tableSz.setWidth 32 + 1 ≠ cnt) := fun hne => hne.2 heq
  rw [setStep, if_neg hmsi, if_pos ⟨hp, rfl⟩, if_neg hnot]

theorem pciSetmsiinfo_msix (msiAddr : ℕ → U64) (msiMsg : ℕ → U32) (h : Listed d ps) {p : Byte}
    (hmem : p ∈ ps) (hp : (d.cap p).IsMsix)
    (hcnt : cnt.toNat = (d.cap p).tableSz.toNat + 1)
    (htable : table physMapSz d.bar (d.cap p) ≠ none) :
  ∃ d', pciSetmsiinfo physMapSz d 1 msiAddr msiMsg cnt = some (.returned 0 d')
    ∧ OnlyAt d p d' ∧ d'.cap p = setMsix (d.cap p)
  := by
  obtain ⟨before, after, rfl⟩ := List.append_of_mem hmem
  obtain ⟨t, ht⟩ := Option.ne_none_iff_exists'.mp htable
  have honly := onlyAt_update d p (setMsix (d.cap p))
    ((List.range ((d.cap p).tableSz.toNat + 1)).foldl (fillEntry msiAddr msiMsg cnt t) d.mem)
  refine ⟨_, ?_, honly, Function.update_self ..⟩
  rw [pciSetmsiinfo_eq h, foldlM_setStep_ok h (h.not_selected (.inr ⟨hp, rfl⟩)) ?_ honly]
  · rfl
  · rw [setStep_msix physMapSz msiAddr msiMsg hp hcnt, ht]

/-- Where `vmem_phystovirt` does not accept the table, `pci_setmsiinfo` panics. -/
theorem pciSetmsiinfo_panic (h : Listed d ps) {p : Byte} (hmem : p ∈ ps) (hp : (d.cap p).IsMsix)
    (hcnt : cnt.toNat = (d.cap p).tableSz.toNat + 1)
    (htable : table physMapSz d.bar (d.cap p) = none) :
  pciSetmsiinfo physMapSz d 1 msiAddr msiMsg cnt = some (.panic "Invalid Address Detected!" d)
  := by
  obtain ⟨before, after, rfl⟩ := List.append_of_mem hmem
  have hstep := setStep_msix physMapSz msiAddr msiMsg hp hcnt
  rw [htable] at hstep
  rw [pciSetmsiinfo_eq h, foldlM_setStep_error (h.not_selected (.inr ⟨hp, rfl⟩)) hstep]
  rfl

end Walks

/-! ### Agreement -/

section Agreement

variable {physMapSz : U64} {d : Device} {ps : List Byte} (cnt₀ : U32)

/-- With an MSI-X capability on the list, `pci_getmsiinfo` returns 1. -/
theorem pciGetmsiinfo_msix {before after : List Byte} {p : Byte}
    (h : Listed d (before ++ p :: after)) (hp : (d.cap p).IsMsix) :
  ∃ cnt, pciGetmsiinfo d cnt₀ = some (1, cnt)
    ∧ (cnt.toNat = (d.cap p).tableSz.toNat + 1 ↔ ∀ q ∈ after, (d.cap q).IsMsi →
      2 ^ (d.cap q).requestedVectorNum.toNat = (d.cap p).tableSz.toNat + 1)
  := by
  obtain ⟨hasmsi, cnt, hloop, hcnt⟩ := getLoop_msix h hp ⟨false, false, cnt₀⟩
  refine ⟨cnt, ?_, hcnt⟩
  rw [pciGetmsiinfo_eq h, hloop]
  rfl

/-- With an MSI capability only, `pci_getmsiinfo` returns 0, and the count that this one asks
for. -/
theorem pciGetmsiinfo_msi {p : Byte} (h : Listed d ps) (hmem : p ∈ ps) (hp : (d.cap p).IsMsi)
    (hmsix : ∀ q ∈ ps, ¬ (d.cap q).IsMsix) :
  pciGetmsiinfo d cnt₀ = some (0, 1#32 <<< (d.cap p).requestedVectorNum.toNat)
  := by
  obtain ⟨before, after, rfl⟩ := List.append_of_mem hmem
  rw [pciGetmsiinfo_eq h, getLoop_msi h hp hmsix]
  rfl

theorem pciGetmsiinfo_neither (h : Listed d ps) (hneither : Neither d ps) :
  pciGetmsiinfo d cnt₀ = some (-1, cnt₀)
  := by
  rw [pciGetmsiinfo_eq h, getLoop_of_neither hneither]
  rfl

theorem agree_of_msix (h : Listed d ps) {p : Byte} (hmem : p ∈ ps) (hp : (d.cap p).IsMsix)
    (hcompatible : Compatible physMapSz d ps) :
  Agree physMapSz d ps cnt₀
  := by
  obtain ⟨before, after, hsplit⟩ := List.append_of_mem hmem
  have horder := hcompatible.order before p after hsplit hp
  have htable := hcompatible.table p hmem hp
  obtain ⟨cnt, hget, hcnt⟩ := pciGetmsiinfo_msix cnt₀ (hsplit ▸ h) hp
  have hne : ∀ {r cnt'}, r ≠ 1 → pciGetmsiinfo d cnt₀ ≠ some (r, cnt') := by
    intro r cnt' hr heq
    rw [hget] at heq
    cases heq
    exact hr rfl
  refine ⟨⟨1, cnt, hget, .inl rfl⟩, ?_, ?_, ?_⟩
  · intro cnt' hget'
    rw [hget] at hget'
    cases hget'
    refine ⟨p, hmem, hp, hcnt.mpr horder, fun msiAddr msiMsg => ?_⟩
    obtain ⟨d', hset, honly, hcap⟩ :=
      pciSetmsiinfo_msix msiAddr msiMsg h hmem hp (hcnt.mpr horder) htable
    exact ⟨d', hset, honly, by rw [hcap, setMsix_msixEnable]⟩
  · exact fun _ hget' => absurd hget' (hne (by decide))
  · exact fun _ hget' => absurd hget' (hne (by decide))

theorem agree_of_msi (h : Listed d ps) {p : Byte} (hmem : p ∈ ps) (hp : (d.cap p).IsMsi)
    (hmsix : ∀ q ∈ ps, ¬ (d.cap q).IsMsix) :
  Agree physMapSz d ps cnt₀
  := by
  have hget := pciGetmsiinfo_msi cnt₀ h hmem hp hmsix
  have hne : ∀ {r cnt'}, r ≠ 0 → pciGetmsiinfo d cnt₀ ≠ some (r, cnt') := by
    intro r cnt' hr heq
    rw [hget] at heq
    cases heq
    exact hr rfl
  refine ⟨⟨0, _, hget, .inr (.inl rfl)⟩, ?_, ?_, ?_⟩
  · exact fun _ hget' => absurd hget' (hne (by decide))
  · intro cnt' hget'
    rw [hget] at hget'
    cases hget'
    refine ⟨p, hmem, hp, toNat_cnt_msi _, fun msiAddr msiMsg => ?_⟩
    obtain ⟨d', hset, honly, hcap⟩ := pciSetmsiinfo_msi physMapSz msiAddr msiMsg _ h hmem hp
    refine ⟨d', hset, honly, ?_, ?_⟩
    · rw [hcap, setMsi_msiEnable]
    · rw [hcap, pow_availVectorNum (toNat_cnt_msi _)]
  · exact fun _ hget' => absurd hget' (hne (by decide))

theorem agree_of_neither (h : Listed d ps) (hneither : Neither d ps) :
  Agree physMapSz d ps cnt₀
  := by
  have hget := pciGetmsiinfo_neither cnt₀ h hneither
  have hne : ∀ {r cnt'}, r ≠ -1 → pciGetmsiinfo d cnt₀ ≠ some (r, cnt') := by
    intro r cnt' hr heq
    rw [hget] at heq
    cases heq
    exact hr rfl
  exact ⟨⟨-1, cnt₀, hget, .inr (.inr rfl)⟩, fun _ hget' => absurd hget' (hne (by decide)),
    fun _ hget' => absurd hget' (hne (by decide)), fun _ _ => hneither⟩

theorem Agree.compatible {cnt₀ : U32} (h : Listed d ps) (hagree : Agree physMapSz d ps cnt₀) :
  Compatible physMapSz d ps
  := by
  have hmsix : ∀ before p after, ps = before ++ p :: after → (d.cap p).IsMsix →
      (∀ q ∈ after, (d.cap q).IsMsi →
        2 ^ (d.cap q).requestedVectorNum.toNat = (d.cap p).tableSz.toNat + 1)
      ∧ table physMapSz d.bar (d.cap p) ≠ none := by
    intro before p after hsplit hp
    obtain ⟨cnt, hget, hcnt⟩ := pciGetmsiinfo_msix cnt₀ (hsplit ▸ h) hp
    obtain ⟨q, hq, hqmsix, hqcnt, hset⟩ := hagree.msix cnt hget
    have hmem : p ∈ ps := by
      rw [hsplit]
      simp
    obtain rfl := h.msix q hq p hmem hqmsix hp
    refine ⟨hcnt.mp hqcnt, fun hnone => ?_⟩
    obtain ⟨d', hreturned, -⟩ := hset (fun _ => 0) (fun _ => 0)
    rw [pciSetmsiinfo_panic h hq hqmsix hqcnt hnone] at hreturned
    cases hreturned
  refine ⟨fun before p after hsplit hp => (hmsix before p after hsplit hp).1, ?_⟩
  intro p hmem hp
  obtain ⟨before, after, hsplit⟩ := List.append_of_mem hmem
  exact (hmsix before p after hsplit hp).2

end Agreement

/-- `pci_getmsiinfo` and `pci_setmsiinfo` agree just when no MSI capability with another count
comes after the MSI-X capability, and the table of this one can be reached. -/
theorem agree_iff_compatible (physMapSz : U64) (d : Device) (ps : List Byte) (cnt₀ : U32)
    (h : Listed d ps) :
  Agree physMapSz d ps cnt₀ ↔ Compatible physMapSz d ps
  := by
  refine ⟨Agree.compatible h, fun hcompatible => ?_⟩
  by_cases hmsix : ∃ p ∈ ps, (d.cap p).IsMsix
  · obtain ⟨p, hmem, hp⟩ := hmsix
    exact agree_of_msix cnt₀ h hmem hp hcompatible
  · have hnone : ∀ q ∈ ps, ¬ (d.cap q).IsMsix := fun q hq hqmsix => hmsix ⟨q, hq, hqmsix⟩
    by_cases hmsi : ∃ p ∈ ps, (d.cap p).IsMsi
    · obtain ⟨p, hmem, hp⟩ := hmsi
      exact agree_of_msi cnt₀ h hmem hp hnone
    · exact agree_of_neither cnt₀ h fun q hq => ⟨fun hqmsi => hmsi ⟨q, hq, hqmsi⟩, hnone q hq⟩

/-- A function with two capabilities, and a BAR of 32 bits. -/
def twoCapabilities (first second : Capability) : Device where
  capabilitiesPtr := 0x40
  bar := fun _ => 0xfe000000
  cap := fun p => if p = 0x40 then first else second
  mem := fun _ => 0

/-- An MSI capability that asks for 2 vectors, and another one after it. -/
def msiOfTwo (nextPtr : Byte) : Capability := ⟨pciCapMsi, nextPtr, 0x2, 0, 0, 0⟩

/-- An MSI-X capability with 4 entries, and another one after it. -/
def msixOfFour (nextPtr : Byte) : Capability := ⟨pciCapMsix, nextPtr, 0x3, 0, 0, 0⟩

theorem agree_msi_first :
  Agree (gib 256) (twoCapabilities (msiOfTwo 0x50) (msixOfFour 0)) [0x40, 0x50] 0
  := by
  apply (agree_iff_compatible _ _ _ _ ?_).mpr
  · constructor
    · intro before p after hsplit hp q hq hqmsi
      rcases before with _ | ⟨a, _ | ⟨b, before⟩⟩
      · cases hsplit
        exact absurd hp (by decide)
      · cases hsplit
        cases hq
      · simp at hsplit
    · decide
  · exact ⟨.inr ⟨by decide, .link rfl (.last rfl)⟩, by decide, by decide⟩

/-- An MSI capability that asks for 2 vectors after an MSI-X capability with 4 entries:
`pci_getmsiinfo` returns 1 and the count 2. -/
theorem not_agree_msix_first :
  ¬ ∀ (physMapSz : U64) (d : Device) (ps : List Byte) (cnt₀ : U32),
    Listed d ps → Agree physMapSz d ps cnt₀
  := by
  intro hagree
  have hlisted : Listed (twoCapabilities (msixOfFour 0x50) (msiOfTwo 0)) [0x40, 0x50] :=
    ⟨.inr ⟨by decide, .link rfl (.last rfl)⟩, by decide, by decide⟩
  have hcompatible := (hagree (gib 256) _ _ 0 hlisted).compatible hlisted
  have horder := hcompatible.order [] 0x40 [0x50] rfl (by decide) 0x50 (by simp) (by decide)
  exact absurd horder (by decide)

end Msi
