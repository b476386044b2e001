import Gubernatrix.BootstrapMalloc
import Gubernatrix.PhysMem.Allocator

/-!
# Page tables

The functions of `virt_mem.c`. A page table is known by the pointer the code has to it: the
upper half in `kmem`, the lower half in a `vmem_t`, or the address at which a whole table is
reached through the direct map. The state has the `lcl` of every core that was set up, and a
history of the allocations and of the writes to tables, which no function reads. Locks,
model specific registers and the TLB are left out, and so are `flags` and `p_vm`, which are
passed along and never used.
-/

namespace VirtMem

open Program PhysMem

/-! ### Constants -/

/-- `PRESENT`. -/
def present : U64 := 1 <<< 0

/-- `WRITE`. -/
def write : U64 := 1 <<< 1

/-- `USER`. -/
def user : U64 := 1 <<< 2

/-- `WRITETHROUGH`. -/
def writethrough : U64 := 1 <<< 3

/-- `CACHEDISABLE`. -/
def cachedisable : U64 := 1 <<< 4

/-- `WRITEBACK`. -/
def writeback : U64 := 0

/-- `WRITECOMPLETE`. -/
def writecomplete : U64 := 3 <<< 3

/-- `LARGEPAGE`. -/
def largepage : U64 := 1 <<< 7

/-- `NOEXEC`. -/
def noexec : U64 := 1 <<< 63

/-- `ADDR_MASK`. -/
def addrMask : U64 := 0x000ffffffffff000

/-- `KERN_TOP_BASE`. -/
def kernTopBase : U64 := 0xffffffff80000000

/-- `KERN_PHYSMAP_BASE`. -/
def kernPhysmapBase : U64 := 0xFFFF800000000000

/-- `KERN_PHYSMAP_BASE_UC`. -/
def kernPhysmapBaseUc : U64 := kernPhysmapBase + gib 512

/-- `vmem_flags_write`. -/
def vmemFlagsWrite : BitVec 32 := 1 <<< 0

/-- `vmem_flags_exec`. -/
def vmemFlagsExec : BitVec 32 := 1 <<< 1

/-- `vmem_flags_cachewritethrough`. -/
def vmemFlagsCachewritethrough : BitVec 32 := 1 <<< 2

/-- `vmem_flags_cachewriteback`. -/
def vmemFlagsCachewriteback : BitVec 32 := 1 <<< 3

/-- `vmem_flags_cachewritecomplete`. -/
def vmemFlagsCachewritecomplete : BitVec 32 := 1 <<< 4

/-- `vmem_flags_uncached`. -/
def vmemFlagsUncached : BitVec 32 := 1 <<< 5

/-- `vmem_flags_kernel`. -/
def vmemFlagsKernel : BitVec 32 := 1 <<< 10

/-- `vmem_flags_user`. -/
def vmemFlagsUser : BitVec 32 := 1 <<< 11

/-- `vmem_flags_rw`. -/
def vmemFlagsRw : BitVec 32 := vmemFlagsWrite

/-- `vmem_errs`. -/
inductive VmemErrs where
  | errNone
  | errAlreadymapped
  | errContinue
  | errNomapping
deriving DecidableEq

/-- `levels`. -/
def levels : ℕ → U64
  | 0 => gib 512
  | 1 => gib 1
  | 2 => mib 2
  | _ => kib 4

/-- `masks`. -/
def masks : ℕ → U64
  | 0 => 0xff8000000000
  | 1 => 0x007fC0000000
  | 2 => 0x00003fE00000
  | _ => 0x0000001ff000

/-- `shamts`. -/
def shamts : ℕ → ℕ
  | 0 => 39
  | 1 => 30
  | 2 => 21
  | _ => 12

/-- `largepage_avail`, whose entry 1 is set when the processor has 1 GiB pages. -/
def largepageAvail (hugepage : Bool) : ℕ → Bool
  | 0 => false
  | 1 => hugepage
  | _ => true

/-! ### State -/

/-- A pointer to a page table. -/
inductive TablePtr where
  | kmem
  | vm (id : ℕ)
  | page (virt : U64)
deriving DecidableEq

/-- The indices of the entries behind a pointer: `kmem.ptable - 256` has the upper half of a
table behind it, the `ptable` of a `vmem_t` the lower half. -/
def InTable : TablePtr → ℕ → Prop
  | .kmem, idx => 256 ≤ idx ∧ idx < 512
  | .vm _, idx => idx < 256
  | .page _, idx => idx < 512

instance (vm : TablePtr) (idx : ℕ) : Decidable (InTable vm idx) := by
  cases vm <;> unfold InTable <;> infer_instance

/-- Something done to memory: a page asked for, with the address handed out unless the
allocator stopped; a page given back; a table cleared; an entry written; a half copied. -/
inductive Effect where
  | alloc (r : Option U64)
  | free (addr : U64)
  | memset (vm : TablePtr)
  | write (vm : TablePtr) (idx : ℕ) (ent : U64)
  | memcpy (dst src : TablePtr)

/-- `struct lcl_data`. -/
structure Lcl where
  ktable : U64
  curVmem : Option ℕ

/-- The state of the page tables. -/
structure Vmem where
  pmem : Pmem
  tables : TablePtr → ℕ → U64
  hugepage : Bool
  physMapSz : U64
  lcl : ℕ → Option Lcl
  vmCnt : ℕ
  bootstrapAllocPos : U64
  hist : List Effect

/-! ### Access to memory -/

/-- `pmem_allocpage`, as the functions of this module call it. -/
def allocpage : Program Vmem U64 := fun s =>
  match pmemAllocpage s.pmem with
  | .ok r p => .ok r { s with pmem := p, hist := .alloc (some r) :: s.hist }
  | .error e p => .error e { s with pmem := p, hist := .alloc none :: s.hist }

/-- `pmem_free`, as the functions of this module call it. -/
def freepage (addr : U64) : Program Vmem Unit := fun s =>
  match pmemFree addr s.pmem with
  | .ok _ p => .ok ⟨⟩ { s with pmem := p, hist := .free addr :: s.hist }
  | .error e p => .error e { s with pmem := p, hist := .free addr :: s.hist }

/-- `memset` of a whole table to zero. -/
def memsetTable (vm : TablePtr) : Program Vmem Unit :=
  modify fun s => { s with
    tables := Function.update s.tables vm fun _ => 0
    hist := .memset vm :: s.hist }

/-- `vm[idx]`. -/
def readEntry (vm : TablePtr) (idx : ℕ) : Program Vmem U64 := do
  let s ← get
  if InTable vm idx then pure (s.tables vm idx) else throw .fault

/-- `vm[idx] = ent`. -/
def writeEntry (vm : TablePtr) (idx : ℕ) (ent : U64) : Program Vmem Unit :=
  if InTable vm idx then
    modify fun s => { s with
      tables := Function.update s.tables vm (Function.update (s.tables vm) idx ent)
      hist := .write vm idx ent :: s.hist }
  else throw .fault

/-- `memcpy` of the entries with the indices in `half` from one table to another. -/
def memcpyHalf (half : ℕ → Bool) (dst src : TablePtr) : Program Vmem Unit :=
  modify fun s => { s with
    tables := Function.update s.tables dst fun idx =>
      if half idx then s.tables src idx else s.tables dst idx
    hist := .memcpy dst src :: s.hist }

/-- The indices of the lower half of a table. -/
def lowerHalf (idx : ℕ) : Bool := idx < 256

/-- The indices of the upper half of a table. -/
def upperHalf (idx : ℕ) : Bool := 256 ≤ idx && idx < 512

/-- The address that `vmem_phystovirt` returns; `none` when it reaches its panic. The first
comparison of each pair is of signed numbers, the second of unsigned ones. -/
def directAddr (physMapSz phys sz : U64) (flags : BitVec 32) : Option U64 :=
  if flags &&& vmemFlagsCachewriteback ≠ 0 then
    if phys.slt (gib 2) ∧ phys + sz < gib 2 then some (phys + kernTopBase)
    else if phys.slt physMapSz ∧ phys + sz < physMapSz then some (phys + kernPhysmapBase)
    else none
  else if flags &&& vmemFlagsUncached ≠ 0 then
    if phys.slt physMapSz ∧ phys + sz < physMapSz then some (phys + kernPhysmapBaseUc)
    else none
  else none

/-- `vmem_phystovirt`. -/
def vmemPhystovirt (phys sz : U64) (flags : BitVec 32) : Program Vmem U64 := do
  let s ← get
  match directAddr s.physMapSz phys sz flags with
  | some virt => pure virt
  | none => throw (.panic "Invalid Address Detected!")

/-- `lcl` of a core. -/
def getLcl (core : ℕ) : Program Vmem Lcl := do
  let s ← get
  match s.lcl core with
  | some lcl => pure lcl
  | none => throw .fault

/-- The table in the page at `phys`, reached through the direct map. -/
def tableAt (phys : U64) : Program Vmem TablePtr := do
  let virt ← vmemPhystovirt phys (kib 4) vmemFlagsCachewriteback
  pure (.page virt)

/-! ### Mapping -/

/-- `idx` of `virt` in a table of level `lv`. -/
def index (virt : U64) (lv : ℕ) : ℕ := ((virt &&& masks lv) >>> shamts lv).toNat

/-- The value of `c_flags` in `vmem_map_st`. -/
def cFlags (perms : BitVec 32) (lv : ℕ) : U64 :=
  let cFlags := present
  let cFlags := if perms &&& vmemFlagsWrite ≠ 0 then cFlags ||| write else cFlags
  let cFlags := if ~~~perms &&& vmemFlagsExec ≠ 0 then cFlags ||| noexec else cFlags
  let cFlags :=
    if perms &&& vmemFlagsCachewritethrough ≠ 0 then cFlags ||| writethrough
    else if perms &&& vmemFlagsUncached ≠ 0 then cFlags ||| cachedisable
    else if perms &&& vmemFlagsCachewritecomplete ≠ 0 then cFlags ||| writecomplete
    else if perms &&& vmemFlagsCachewriteback ≠ 0 then cFlags ||| writeback
    else cFlags
  let cFlags := if perms &&& vmemFlagsUser ≠ 0 then cFlags ||| user else cFlags
  if levels lv ≠ kib 4 then cFlags ||| largepage else cFlags

/-- The loop of `vmem_map_st` that writes leaf entries, with `left` entries left in the
table. -/
def leafLoop (lv : ℕ) (vm : TablePtr) (perms : BitVec 32) :
    (left : ℕ) → (phys size : U64) → Program Vmem VmemErrs
  | left, phys, size =>
      if size > 0 then
        match left with
        | 0 => pure .errContinue
        | left + 1 => do
            let idx := 511 - left
            let ent ← readEntry vm idx
            if ent &&& present ≠ 0 then pure .errAlreadymapped
            else do
              writeEntry vm idx (phys &&& addrMask ||| cFlags perms lv)
              leafLoop lv vm perms left (phys + levels lv) (size - levels lv)
      else pure .errNone

/-- The page table for an empty entry: the part of `vmem_map_st` that allocates it. -/
def addTable (vm : TablePtr) (idx : ℕ) : Program Vmem U64 := do
  let nLv ← allocpage
  if nLv = 0 then throw (.panic "Pagetable allocation failure!")
  else do
    let nLvD ← tableAt nLv
    memsetTable nLvD
    writeEntry vm idx (nLv &&& addrMask ||| present ||| write ||| user)
    pure nLv

/-- The loop of `vmem_map_st` that goes down to the next level, which `mapSt` maps, with
`left` entries left in the table. -/
def tableLoop (mapSt : TablePtr → (virt phys size : U64) → Program Vmem VmemErrs) (lv : ℕ)
    (vm : TablePtr) : (left : ℕ) → (virt phys size : U64) → Program Vmem VmemErrs
  | 0, _, _, _ => pure .errContinue
  | left + 1, virt, phys, size =>
      if size > 0 then do
        let idx := 511 - left
        let ent ← readEntry vm idx
        let nLv ← if ent &&& addrMask = 0 then addTable vm idx else pure (ent &&& addrMask)
        let ent ← readEntry vm idx
        if ent &&& largepage ≠ 0 then pure .errAlreadymapped
        else do
          let nLvD ← tableAt nLv
          let ret ← mapSt nLvD virt phys size
          if ret ≠ .errContinue then pure ret
          else do
            let lIdx := index virt (lv + 1)
            let iSz := BitVec.ofNat 64 (512 - lIdx) <<< shamts (lv + 1)
            tableLoop mapSt lv vm left (virt + iSz) (phys + iSz) (size - iSz)
      else pure .errNone

/-- `vmem_map_st`, with `n` levels from `lv` on: `lv` is `4 - n`, and below the last level there
are no masks to read. -/
def vmemMapSt (perms : BitVec 32) :
    (n : ℕ) → TablePtr → (virt phys size : U64) → Program Vmem VmemErrs
  | 0, _, _, _, _ => throw .fault
  | n + 1, vm, virt, phys, size => do
      let lv := 3 - n
      let s ← get
      let idx := index virt lv
      if size % levels lv = 0 ∧ largepageAvail s.hugepage lv then
        leafLoop lv vm perms (512 - idx) phys size
      else tableLoop (vmemMapSt perms n) lv vm (512 - idx) virt phys size

/-- The last part of `vmem_map` and `vmem_unmap` for kernel addresses. -/
def copyKmem (core : ℕ) : Program Vmem Unit := do
  let lcl ← getLcl core
  let pTable ← tableAt lcl.ktable
  memcpyHalf upperHalf pTable .kmem

/-- The top-level table of the addresses of `virt`, which a null pointer `vm` does not have. -/
def rootOf (vm : Option ℕ) (virt : U64) : Option TablePtr :=
  if virt.slt 0 then some .kmem else vm.map .vm

/-- `vmem_map`. -/
def vmemMap (core : ℕ) (vm : Option ℕ) (virt phys size : U64) (perms : BitVec 32) :
    Program Vmem VmemErrs :=
  match rootOf vm virt with
  | none => throw .fault
  | some ptable => do
      let rVal ← vmemMapSt perms 4 ptable virt phys size
      (if virt.slt 0 then copyKmem core else pure ⟨⟩)
      pure rVal

/-! ### Unmapping -/

/-- `vmem_unmap_st`, for as many turns of its loops as the fuel allows. -/
def vmemUnmapSt : (fuel lv : ℕ) → TablePtr → (virt size : U64) → Program Vmem VmemErrs
  | fuel, lv, vm, virt, size =>
      if size > 0 then
        match fuel with
        | 0 => throw .fault
        | fuel + 1 =>
            if lv ≥ 4 then throw .fault
            else do
              let sz := levels lv
              let idx := index virt lv
              let lvEnt ← readEntry vm idx
              let nLvD ← tableAt (lvEnt &&& addrMask)
              if lvEnt &&& present ≠ 0 then
                if size ≥ sz ∧ (lvEnt &&& largepage ≠ 0 ∨ sz = kib 4) then do
                  writeEntry vm idx 0
                  vmemUnmapSt fuel lv vm (virt + sz) (size - sz)
                else if size ≥ sz ∧ lvEnt &&& largepage = 0 then do
                  let err ← vmemUnmapSt fuel (lv + 1) nLvD virt size
                  if err ≠ .errNone then pure err
                  else do
                    freepage (lvEnt &&& addrMask)
                    vmemUnmapSt fuel lv vm virt size
                else if lvEnt &&& largepage = 0 then
                  vmemUnmapSt fuel (lv + 1) nLvD virt size
                else throw (.panic "Unimplemented!")
              else if size ≥ sz then vmemUnmapSt fuel lv vm (virt + sz) (size - sz)
              else pure .errNomapping
      else pure .errNone

/-- `vmem_unmap`. It clears `size` before using it. -/
def vmemUnmap (fuel core : ℕ) (vm : Option ℕ) (virt _size : U64) : Program Vmem VmemErrs :=
  let size := 0
  match rootOf vm virt with
  | none => throw .fault
  | some ptable => do
      let rVal ← vmemUnmapSt fuel 0 ptable virt size
      (if virt.slt 0 then copyKmem core else pure ⟨⟩)
      pure rVal

/-! ### Address spaces -/

/-- `vmem_create`: `none` when it returns `-1`. -/
def vmemCreate : Program Vmem (Option ℕ) := do
  let s ← get
  match bootstrapMalloc s.bootstrapAllocPos 2056 with
  | none => pure none
  | some pos => do
      set { s with vmCnt := s.vmCnt + 1, bootstrapAllocPos := pos }
      memsetTable (.vm s.vmCnt)
      pure (some s.vmCnt)

/-- The part of `vmem_savestate` under the lock of the active space. -/
def saveUser (core : ℕ) : Program Vmem Unit := do
  let lcl ← getLcl core
  match lcl.curVmem with
  | none => pure ⟨⟩
  | some id => do
      let pTable ← tableAt lcl.ktable
      memcpyHalf lowerHalf (.vm id) pTable

/-- The part of `vmem_savestate` under the lock of `kmem`. -/
def saveKernel (core : ℕ) : Program Vmem Unit := do
  let lcl ← getLcl core
  let pTable ← tableAt lcl.ktable
  memcpyHalf upperHalf .kmem pTable

/-- `vmem_savestate`. -/
def vmemSavestate (core : ℕ) : Program Vmem Unit := do
  saveUser core
  saveKernel core

/-- The part of `vmem_setactive` after the state is saved. -/
def loadUser (core id : ℕ) : Program Vmem Unit := do
  let lcl ← getLcl core
  let pTable ← tableAt lcl.ktable
  memcpyHalf lowerHalf pTable (.vm id)
  modify fun s =>
    { s with lcl := Function.update s.lcl core (some { lcl with curVmem := some id }) }

/-- `vmem_setactive`. -/
def vmemSetactive (core id : ℕ) : Program Vmem Unit := do
  vmemSavestate core
  loadUser core id

/-- `vmem_getactive`. -/
def vmemGetactive (core : ℕ) : Program Vmem (Option ℕ) := do
  vmemSavestate core
  let lcl ← getLcl core
  pure lcl.curVmem

/-- `vmem_flush`, the TLB left out. -/
def vmemFlush (core : ℕ) (_virt _sz : U64) : Program Vmem Unit := vmemSavestate core

/-! ### Walking -/

/-- `vmem_virttophys_st`, with `n` levels from `lv` on, where `lv` is `4 - n`; `none` when it
returns `-1`. -/
def vmemVirttophysSt : (n : ℕ) → TablePtr → U64 → Program Vmem (Option U64)
  | 0, _, _ => throw .fault
  | n + 1, pg, virt => do
      let lv := 3 - n
      let s ← get
      let ent ← readEntry pg (index virt lv)
      if ent &&& present ≠ 0 then
        if ent &&& largepage ≠ 0 ∧ largepageAvail s.hugepage lv then
          pure (some ((ent &&& addrMask) + virt % levels lv))
        else if levels lv = kib 4 then
          pure (some ((ent &&& addrMask) + virt % levels lv))
        else do
          let nLvD ← tableAt (ent &&& addrMask)
          vmemVirttophysSt n nLvD virt
      else pure none

/-- `vmem_virttophys`. -/
def vmemVirttophys (core : ℕ) (virt : U64) : Program Vmem (Option U64) := do
  let lcl ← getLcl core
  let nLvD ← tableAt lcl.ktable
  vmemVirttophysSt 4 nLvD virt

/-! ### Setting up -/

/-- The `ktable` of a core: the part that `vmem_init` and `vmem_mp_init` share. -/
def initKtable (core : ℕ) (cpuHugepage : Bool) : Program Vmem TablePtr := do
  modify fun s => { s with hugepage := s.hugepage || cpuHugepage }
  let ktablePhys ← allocpage
  let ktable ← tableAt ktablePhys
  memsetTable ktable
  modify fun s => { s with
    lcl := Function.update s.lcl core (some { ktable := ktablePhys, curVmem := none }) }
  pure ktable

/-- `vmem_init`, with the page table of the boot loader at `curPtable`. -/
def vmemInit (core : ℕ) (cpuHugepage : Bool) (curPtable : U64) : Program Vmem Unit := do
  let _ ← initKtable core cpuHugepage
  memsetTable .kmem
  let _ ← tableAt curPtable
  let _ ← vmemMap core none kernTopBase 0 (gib 2)
    (vmemFlagsKernel ||| vmemFlagsRw ||| vmemFlagsExec ||| vmemFlagsCachewriteback)
  let physMapSz := gib 256
  modify fun s => { s with physMapSz := physMapSz }
  let _ ← vmemMap core none kernPhysmapBase 0 physMapSz
    (vmemFlagsKernel ||| vmemFlagsRw ||| vmemFlagsCachewriteback)
  let _ ← vmemMap core none kernPhysmapBaseUc 0 physMapSz
    (vmemFlagsKernel ||| vmemFlagsRw ||| vmemFlagsUncached)
  pure ⟨⟩

/-- `vmem_mp_init`. -/
def vmemMpInit (core : ℕ) (cpuHugepage : Bool) : Program Vmem Unit := do
  let ktable ← initKtable core cpuHugepage
  memcpyHalf upperHalf ktable .kmem

end VirtMem
