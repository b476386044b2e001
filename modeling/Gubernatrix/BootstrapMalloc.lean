import Gubernatrix.Types

/-!
# The allocator of the bootstrap

`bootstrap_malloc.c` hands out pieces of a fixed area, one after the other. The area is part
of the zeroed data of the kernel.
-/

/-- `BOOTSTRAP_ALLOC_AREA_SIZE`. -/
def bootstrapAllocAreaSize : U64 := mib 128

/-- `bootstrap_malloc` with `bootstrap_alloc_pos` at `pos`: the position after it, or `none`
when it returns `NULL`. -/
def bootstrapMalloc (pos s : U64) : Option U64 :=
  if s > 0 then
    let s := align s 16
    if pos + s < bootstrapAllocAreaSize then some (pos + s) else none
  else none
