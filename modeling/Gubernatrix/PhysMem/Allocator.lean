import Gubernatrix.PhysMem.Compact
import Gubernatrix.Lib.Program

/-!
# The page allocator

The operations of `phys_mem.c` over the free queue. The state keeps, besides the variables of
the source, a history of the moments at which an insertion found the ring full and of the
calls of `compact_queue`; no operation reads it. `domain` and `color`, which
`pagealloc_alloc` overwrites and never reads, are left out.
-/

namespace PhysMem

open Program

/-- A moment of a run, with the free queue at it. -/
inductive Event where
  | ringFull (q : Queue)
  | compact (q : Queue)

/-- The state of the page allocator. -/
structure Pmem where
  btmLevel : Queue
  freeMem : U64
  hist : List Event

/-- `physmem_alloc_flags_data`. -/
def flagsData : BitVec 32 := 1 <<< 1

/-- `physmem_alloc_flags_32bit`. -/
def flags32bit : BitVec 32 := 1 <<< 5

/-- The call of `compact_queue` on `btm_level`. -/
def compact : Program Pmem Unit := do
  let s ← get
  match compactQueue s.btmLevel with
  | some q => set { s with btmLevel := q, hist := .compact s.btmLevel :: s.hist }
  | none => throw .fault

/-- The common body of `insert_queue` and `insert_queue_front`. -/
def insertWith (tryenqueue : Queue → U64 → Option Queue) (val : U64) : Program Pmem Unit := do
  let s ← get
  match tryenqueue s.btmLevel val with
  | some q => set { s with btmLevel := q }
  | none =>
      set { s with hist := .ringFull s.btmLevel :: s.hist }
      compact
      let s ← get
      match tryenqueue s.btmLevel val with
      | some q => set { s with btmLevel := q }
      | none => throw (.panic "Failed to enqueue entry.")

/-- `insert_queue`. -/
def insertQueue (val : U64) : Program Pmem Unit := insertWith queueTryenqueue val

/-- `insert_queue_front`. -/
def insertQueueFront (val : U64) : Program Pmem Unit := insertWith queueTryenqueueFront val

/-- The loop of `pagealloc_free`, for at most the given number of turns. -/
def freeLoop (pageCnt : U64) : ℕ → U64 → U64 → Program Pmem Unit
  | 0, _, _ => pure ()
  | turns + 1, pg0, addr =>
      if pg0 < pageCnt then do
        let curPg :=
          if pageCnt - pg0 ≥ BitVec.ofNat 64 maxEntries then BitVec.ofNat 64 maxEntries
          else pageCnt - pg0
        let val := buildEntry addr curPg
        insertQueue val
        freeLoop pageCnt turns (pg0 + BitVec.ofNat 64 maxEntries) (addr + curPg * btmLevel)
      else pure ()

/-- `pagealloc_free`. -/
def pageallocFree (addr size : U64) : Program Pmem Unit :=
  if addr % btmLevel ≠ 0 then throw (.panic "Misaligned address")
  else if size % btmLevel ≠ 0 then throw (.panic "Misaligned size")
  else do
    let pageCnt := size / btmLevel
    modify fun s => { s with freeMem := s.freeMem + size }
    freeLoop pageCnt (pageCnt.toNat / maxEntries + 1) 0 addr

/-- The allocation of `pgCnt` pages out of the dequeued entry `deq`. -/
def allocEntry (deq : U64) (pgCnt : ℤ) (size : U64) : Program Pmem (Option U64) := do
  let retAddr := getAddr deq
  let nAddr := retAddr + BitVec.ofInt 64 pgCnt * btmLevel
  let nPgCnt := toInt32 (getPgCnt deq - BitVec.ofInt 64 pgCnt).toNat
  (if nPgCnt > 0 then insertQueueFront (buildEntry nAddr (BitVec.ofInt 64 nPgCnt)) else pure ())
  modify fun s => { s with freeMem := s.freeMem - size }
  pure (some retAddr)

/-- The inner loop of `pagealloc_alloc`, for the given number of turns: the address found,
or `none` when no entry is large enough. -/
def allocScan (flags : BitVec 32) (pgCnt : ℤ) (size : U64) : ℕ → Program Pmem (Option U64)
  | 0 => pure none
  | turns + 1 => do
      let s ← get
      match queueTrydequeue s.btmLevel with
      | none => throw (.panic "Out of Memory!")
      | some (deq, q) =>
          set { s with btmLevel := q }
          if flags &&& flags32bit ≠ 0 ∧ getAddr deq &&& ~~~0xffffffff#64 ≠ 0 then do
            insertQueue deq
            allocScan flags pgCnt size turns
          else if toInt32 (getPgCnt deq).toNat ≥ pgCnt then
            allocEntry deq pgCnt size
          else do
            insertQueue deq
            allocScan flags pgCnt size turns

/-- The outer loop of `pagealloc_alloc`, for the given number of turns. -/
def allocLoop (flags : BitVec 32) (pgCnt : ℤ) (size : U64) : ℕ → Program Pmem U64
  | 0 => pure (-1)
  | turns + 1 => do
      let s ← get
      match ← allocScan flags pgCnt size (queueEntcnt s.btmLevel).toNat with
      | some retAddr => pure retAddr
      | none =>
          compact
          allocLoop flags pgCnt size turns

/-- `pagealloc_alloc`. It clears `flags` before using it. -/
def pageallocAlloc (_flags : BitVec 32) (size : U64) : Program Pmem U64 :=
  let flags := 0
  let size := align size btmLevel
  let pgCnt := toInt32 (size / btmLevel).toNat
  allocLoop flags pgCnt size 2

/-- `pmem_allocpage`. -/
def pmemAllocpage : Program Pmem U64 := pageallocAlloc flagsData (kib 4)

/-- `pmem_allocdma`. -/
def pmemAllocdma (sz : BitVec 32) : Program Pmem U64 :=
  pageallocAlloc flags32bit (sz.setWidth 64)

/-- `pmem_free`. -/
def pmemFree (addr : U64) : Program Pmem Unit := pageallocFree addr (kib 4)

/-- `pmem_freedma`. -/
def pmemFreedma (addr : U64) (sz : BitVec 32) : Program Pmem Unit :=
  pageallocFree addr (sz.setWidth 64)

/-- The allocator with an empty free queue of `sz` slots. -/
def Pmem.init (sz : ℕ) : Pmem where
  btmLevel := Queue.init sz
  freeMem := 0
  hist := []

end PhysMem
