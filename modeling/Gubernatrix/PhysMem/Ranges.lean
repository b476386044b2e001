import Gubernatrix.PhysMem.Pages

/-!
# The entries of a freed range

`pagealloc_free` cuts its range into entries of at most `MAX_ENTRIES` pages. Decoded, they are the
range again.
-/

namespace PhysMem

/-- The addresses of the bytes of an entry, by `GET_ADDR` and `GET_PG_CNT`. -/
def entryBytes (e : U64) : List ℕ := List.range' (getAddr e).toNat ((getPgCnt e).toNat * 4096)

/-- The entries have a page each and no more than `MAX_ENTRIES`, and one after the other they are
the bytes from `addr` on. -/
structure Decodes (es : List U64) (addr size : ℕ) : Prop where
  nonempty : ∀ e ∈ es, 0 < (getPgCnt e).toNat
  small : ∀ e ∈ es, (getPgCnt e).toNat ≤ maxEntries
  concat : es.flatMap entryBytes = List.range' addr size

/-- The bytes of successive pages. -/
theorem flatMap_pageBytes (p n : ℕ) :
  ((List.range' p n).flatMap fun p => List.range' (p * 4096) 4096)
    = List.range' (p * 4096) (n * 4096)
  := by
  induction n generalizing p with
  | zero => rfl
  | succ n ih =>
    rw [List.range'_succ, List.flatMap_cons, ih, Nat.succ_mul, Nat.succ_mul,
      List.range'_append_1, Nat.add_comm 4096]

/-- The bytes of an entry are those of its pages. -/
theorem entryBytes_eq (e : U64) :
  entryBytes e = (entryPages e).flatMap fun p => List.range' (p * 4096) 4096
  := by
  rw [entryPages, flatMap_pageBytes, Nat.div_mul_cancel (Nat.dvd_of_mod_eq_zero (getAddr_mod e)),
    entryBytes]

/-- `pagealloc_free` of a range of pages below `2 ^ 56` inserts entries which are the range when
they are decoded. -/
theorem pageallocFree_decodes {addr size : U64} (haddr : addr.toNat % 4096 = 0)
    (hsize : size.toNat % 4096 = 0) (hbound : addr.toNat + size.toNat ≤ 2 ^ 56) :
  ∃ es : List U64, (pageallocFree addr size = do
      modify fun s => { s with freeMem := s.freeMem + size }
      forM es insertQueue)
    ∧ Decodes es addr.toNat size.toNat
  := by
  obtain ⟨es, hfree, hpages⟩ := pageallocFree_entries haddr hsize
  rw [filedPages_eq_range' (by omega)] at hpages
  refine ⟨es, hfree, ?_, ?_, ?_⟩
  · intro e _
    apply getPgCnt_pos
  · intro e _
    apply getPgCnt_le
  · calc
      es.flatMap entryBytes
        = (es.flatMap entryPages).flatMap fun p => List.range' (p * 4096) 4096 := by
          rw [List.flatMap_assoc]
          exact List.flatMap_congr fun e _ => entryBytes_eq e
      _ = List.range' (addr.toNat / 4096 * 4096) (size.toNat / 4096 * 4096) := by
          rw [hpages, flatMap_pageBytes]
      _ = List.range' addr.toNat size.toNat := by
          rw [Nat.div_mul_cancel (Nat.dvd_of_mod_eq_zero haddr),
            Nat.div_mul_cancel (Nat.dvd_of_mod_eq_zero hsize)]

/-- Of 4 GiB and a page, above the first page. -/
theorem pageallocFree_decodes_4GiB :
  ∃ es : List U64, (pageallocFree 4096 (gib 4 + kib 4) = do
      modify fun s => { s with freeMem := s.freeMem + (gib 4 + kib 4) }
      forM es insertQueue)
    ∧ Decodes es (4096 : U64).toNat (gib 4 + kib 4).toNat
  := pageallocFree_decodes (by decide) (by decide) (by decide)

end PhysMem
