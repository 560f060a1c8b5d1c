/-
# Boot memory

`src/kernel/memory/memblock/memblock.c`: the two region tables `memory` and `reserved`, and
`ttos_memblk_collect_ranges`, which subtracts one from the other.
-/

import Mathlib.Data.List.Pairwise
import Mathlib.Data.Set.Defs
import Mathlib.Tactic.Ring

namespace Intewell.Memblock

def DEFAULT_MEMBLOCK_REGIONS : ℕ := 128

def MEMBLOCK_MAX_ITER_RANGES : ℕ := DEFAULT_MEMBLOCK_REGIONS + DEFAULT_MEMBLOCK_REGIONS + 4

/-- `enum ttos_memblk_flags`. -/
inductive Flags where
  | none | nomap
deriving DecidableEq, Repr

/-- `struct ttos_memblk_region`: the bytes from `start` up to `start + size`. -/
structure Region where
  start : ℕ
  size : ℕ
  flags : Flags := .none
deriving DecidableEq, Repr

/-- `region->start + region->size`. -/
def Region.stop (r : Region) : ℕ := (r.start + r.size) % 2 ^ 64

/-- `struct ttos_memblk_collect` as `ttos_memblk_add_range` and
`ttos_memblk_remove_range` keep it: at most `rgn_max` regions, none of them empty
or past the end of the address space, in ascending order.  Neighbours are merged at the end of an
addition, but not of one that fails, so that they may touch.  Every caller passes `MEMBLOCK_NONE` as
flags. -/
structure Collect where
  regions : List Region
  length_le : regions.length ≤ DEFAULT_MEMBLOCK_REGIONS
  size_pos : ∀ r ∈ regions, 0 < r.size
  stop_lt : ∀ r ∈ regions, r.start + r.size < 2 ^ 64
  flags_none : ∀ r ∈ regions, r.flags = .none
  sorted : regions.Pairwise fun a b => a.stop ≤ b.start

/-- The bytes of a collection. -/
def Collect.bytes (c : Collect) : Set ℕ := {x | ∃ r ∈ c.regions, r.start ≤ x ∧ x < r.stop}

/-- `ttos_memblk_skip_region`; only `memblock.memory` has regions to skip. -/
def skipRegion (isMemory : Bool) (r : Region) (flags : Flags) : Bool :=
  isMemory && flags ≠ .nomap && r.flags = .nomap

/-- The inner loop of `ttos_memblk_collect_ranges`: what is left of the bytes from
`cursor` up to `aEnd` without the regions `bs`. -/
def subtract (aEnd : ℕ) (flags : Flags) : List Region → ℕ → List Region
  | [], cursor => if cursor < aEnd then [⟨cursor, aEnd - cursor, flags⟩] else []
  | b :: bs, cursor =>
    if cursor < aEnd then
      if b.stop ≤ cursor then subtract aEnd flags bs cursor
      else if aEnd ≤ b.start then [⟨cursor, aEnd - cursor, flags⟩]
      else
        (if cursor < b.start then [⟨cursor, b.start - cursor, flags⟩] else []) ++
          subtract aEnd flags bs (min b.stop aEnd)
    else []

/-- `ttos_memblk_collect_ranges(a, b, flags, out, out_max)`.  Every exit of the loops
on `count >= out_max` leaves the first `out_max` ranges in `out`. -/
def collectRanges (isMemory : Bool) (a : List Region) (b : Option (List Region)) (flags : Flags)
    (outMax : ℕ) : List Region :=
  ((a.filter fun r => !skipRegion isMemory r flags).flatMap fun r =>
    match b with
    | none => [r]
    | some bs => subtract r.stop r.flags bs r.start).take outMax

/-- The free ranges, in ascending order. -/
def freeRanges (memory reserved : List Region) : List Region :=
  collectRanges true memory (some reserved) .none MEMBLOCK_MAX_ITER_RANGES

end Intewell.Memblock
