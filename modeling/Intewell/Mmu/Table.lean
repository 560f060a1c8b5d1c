/-
# The page tables of an address space

`src/arch/arm_common/mmu.c`: the walk of `mmu_v2p_r` and `mmu_get_attr_r`,
`map_single_entry_r`, `ummap_single_entry_r`, and the range loops `mmu_map_r`,
`mmu_unmap_r` and `arm_mmu_modify`.

The memory holds the tables, by physical address and index.  `ptable_alloc` and
`ptable_free` are any allocator of pages (`PtAlloc`).  The state counts beside the
tables the calls of `ptable_alloc` that failed, which is not in the source.

Each loop over the levels is a recursion on the height, from the root at height `3`
(`first_level` is `0`) down.  The loops over a range take a bound on the number of
rounds and return `none` if they have not ended by then.
-/

import Intewell.Lib.Radix
import Intewell.Mmu.Desc

namespace Intewell.Mmu

/-- An allocator of page-aligned pages of 48-bit physical memory. -/
structure PtAlloc (S : Type) where
  alloc : S → Option (ℕ × S)
  free : ℕ → S → S
  inUse : S → Set ℕ
  alloc_fresh : ∀ {s p s'}, alloc s = some (p, s') → p ∉ inUse s
  alloc_inUse : ∀ {s p s'}, alloc s = some (p, s') → inUse s' = insert p (inUse s)
  alloc_page : ∀ {s p s'}, alloc s = some (p, s') → p % 4096 = 0 ∧ p < 2 ^ 48
  free_inUse : ∀ {s p}, inUse (free p s) = inUse s \ {p}

/-- The tables of an address space (`mmu_table_base`), and the allocator. -/
structure Pt (S : Type) where
  mem : ℕ → ℕ → Pte
  root : ℕ
  alloc : S
  failed : ℕ

variable {S : Type} (A : PtAlloc S)

namespace Pt

/-- `ptable_entry_set(pte, level, idx, value)`. -/
def entrySet (σ : Pt S) (pte idx : ℕ) (value : Pte) : Pt S :=
  { σ with mem := Radix.write σ.mem pte idx value }

/-- `__ptable_clear(pte, level)`. -/
def ptableClear (σ : Pt S) (pte : ℕ) : Pt S :=
  { σ with mem := Function.update σ.mem pte fun _ => 0 }

/-- The loop that fills the table of a block that is split. -/
def ptableFill (σ : Pt S) (pte h : ℕ) (attr : Pte) (phy : ℕ) : Pt S :=
  { σ with mem := Function.update σ.mem pte fun i => leafDesc h attr (phy + i * LEVEL_SIZE h) }

/-- `ptable_alloc()`. -/
def ptableAlloc (σ : Pt S) : Option ℕ × Pt S :=
  match A.alloc σ.alloc with
  | none => (none, { σ with failed := σ.failed + 1 })
  | some (page, s) => (some page, { σ with alloc := s })

/-- `ptable_free(phy)`. -/
def ptableFree (σ : Pt S) (phy : ℕ) : Pt S := { σ with alloc := A.free phy σ.alloc }

/-- `ptable_valid_num(pte, level)`. -/
def ptableValidNum (σ : Pt S) (pte : ℕ) : ℕ := (List.range 512).countP fun i => isUsed (σ.mem pte i)

end Pt

/-- The loop of `mmu_v2p_r` and `mmu_get_attr_r`: the height it ends at, and the entry. -/
def walkDown (mem : ℕ → ℕ → Pte) (va : ℕ) : ℕ → ℕ → ℕ × Pte
  | 0, pte => (0, mem pte (GET_TABLE_OFF 0 va))
  | h + 1, pte =>
    if isTable (mem pte (GET_TABLE_OFF (h + 1) va)) then
      walkDown mem va h (entryAddress (mem pte (GET_TABLE_OFF (h + 1) va)))
    else (h + 1, mem pte (GET_TABLE_OFF (h + 1) va))

/-- `mmu_v2p_r`. -/
def mmuV2pR (σ : Pt S) (va : ℕ) : ℕ :=
  let (h, value) := walkDown σ.mem va MAX_TABLE_LEVEL σ.root
  if isUsed value then entryAddress value + (va - LEVEL_SIZE_ALIGN h va) else 0

/-- `mmu_get_attr_r`. -/
def mmuGetAttrR (σ : Pt S) (va : ℕ) : Pte :=
  let (_, value) := walkDown σ.mem va MAX_TABLE_LEVEL σ.root
  if isUsed value then entryAttrib value else 0

/-- The loop of `map_single_entry_r`, `n` levels above the last one, at height `t`. -/
def mapDown (t va : ℕ) (desc : Pte) : ℕ → ℕ → Pt S → ℤ × Pt S
  | 0, pte, σ => (0, σ.entrySet pte (GET_TABLE_OFF t va) desc)
  | n + 1, pte, σ =>
    let off := GET_TABLE_OFF (t + n + 1) va
    let value := σ.mem pte off
    if isUsed value = false then
      match σ.ptableAlloc A with
      | (none, σ') => (-1, σ')
      | (some page, σ') =>
        mapDown t va desc n page ((σ'.ptableClear page).entrySet pte off (TABLE_DESC page))
    else if isBlock value then (-1, σ)
    else mapDown t va desc n (entryAddress value) σ

/-- `map_single_entry_r`. -/
def mapSingleEntryR (t va pa : ℕ) (attr : Pte) (σ : Pt S) : ℤ × Pt S :=
  if IS_LEVEL_ALIGN t va = false then (-1, σ)
  else if IS_LEVEL_ALIGN t pa = false then (-1, σ)
  else mapDown A t va (leafDesc t attr pa) (MAX_TABLE_LEVEL - t) σ.root σ

/-- The `while (__release_level >= mm->first_level)` loop, over the tables above. -/
def releaseUp (va : ℕ) : ℕ → List ℕ → Pt S → Pt S
  | _, [], σ => σ
  | h, pte :: above, σ =>
    let σ' := σ.entrySet pte (GET_TABLE_OFF h va) 0
    if σ'.ptableValidNum pte = 0 ∧ above ≠ [] then
      releaseUp va (h + 1) above (σ'.ptableFree A pte)
    else σ'

/-- A leaf found by `ummap_single_entry_r`: clear or modify it. -/
def ummapLeaf (va : ℕ) (isUnmap : Bool) (newAttr : Pte) (h pte : ℕ) (above : List ℕ) (value : Pte)
    (σ : Pt S) : ℕ × Pt S :=
  if isUnmap then
    let σ' := σ.entrySet pte (GET_TABLE_OFF h va) 0
    if σ'.ptableValidNum pte = 0 then
      (LEVEL_SIZE h, releaseUp A va (h + 1) above (σ'.ptableFree A pte))
    else (LEVEL_SIZE h, σ')
  else (LEVEL_SIZE h, σ.entrySet pte (GET_TABLE_OFF h va) (leafDesc h newAttr (entryAddress value)))

/-- The loop of `ummap_single_entry_r`; `above` are the tables passed, the nearest
first.  At height `0` there is nothing to split: `size` is a positive multiple of the
page size. -/
def ummapDown (va size : ℕ) (isUnmap : Bool) (newAttr : Pte) : ℕ → ℕ → List ℕ → Pt S → ℕ × Pt S
  | 0, pte, above, σ =>
    let value := σ.mem pte (GET_TABLE_OFF 0 va)
    if isUsed value = false then (0, σ)
    else ummapLeaf A va isUnmap newAttr 0 pte above value σ
  | h + 1, pte, above, σ =>
    let off := GET_TABLE_OFF (h + 1) va
    let value := σ.mem pte off
    if isUsed value = false then (0, σ)
    else if isTable value then
      ummapDown va size isUnmap newAttr h (entryAddress value) (pte :: above) σ
    else if isBlock value ∧ (size < LEVEL_SIZE (h + 1) ∨ IS_LEVEL_ALIGN (h + 1) va = false) then
      match σ.ptableAlloc A with
      | (none, σ') => (0, σ')
      | (some page, σ') =>
        ummapDown va size isUnmap newAttr h page (pte :: above)
          (((σ'.ptableClear page).ptableFill page h (entryAttrib value)
            (entryAddress value)).entrySet pte off (TABLE_DESC page))
    else ummapLeaf A va isUnmap newAttr (h + 1) pte above value σ

/-- `ummap_single_entry_r`; `-1` as a `size_t`. -/
def ummapSingleEntryR (va size : ℕ) (isUnmap : Bool) (newAttr : Pte) (σ : Pt S) : ℕ × Pt S :=
  if IS_LEVEL_ALIGN 0 va = false then (2 ^ 64 - 1, σ)
  else if IS_LEVEL_ALIGN 0 size = false then (2 ^ 64 - 1, σ)
  else ummapDown A va size isUnmap newAttr MAX_TABLE_LEVEL σ.root [] σ

/-- The `while (size)` loop of `mmu_unmap_r` and `arm_mmu_modify`, for `n` rounds;
`stop` is returned at an address that is not mapped. -/
def ummapLoop (isUnmap : Bool) (newAttr : Pte) (stop : ℤ) : ℕ → ℕ → ℕ → Pt S → Option (ℤ × Pt S)
  | _, _, 0, σ => some (0, σ)
  | 0, _, _ + 1, _ => none
  | n + 1, va, size + 1, σ =>
    let (done, σ') := ummapSingleEntryR A va (size + 1) isUnmap newAttr σ
    if done = 0 then some (stop, σ')
    else
      ummapLoop isUnmap newAttr stop n ((va + done) % 2 ^ 64) ((size + 1 + 2 ^ 64 - done) % 2 ^ 64)
        σ'

/-- `mmu_unmap_r`. -/
def mmuUnmapR (n va size : ℕ) (σ : Pt S) : Option (ℤ × Pt S) := ummapLoop A true 0 0 n va size σ

/-- `arm_mmu_modify` on the range of a region, with `attr_2_mmu(region->mem_attr)`. -/
def armMmuModify (n va size : ℕ) (memAttr : Pte) (σ : Pt S) : Option (ℤ × Pt S) :=
  ummapLoop A false (attr2mmu memAttr) (-1) n va size σ

/-- The `for (i = 0; i < count; i++)` loop of `mmu_map_r`. -/
def mapLoop (t : ℕ) (attr : Pte) : ℕ → ℕ → ℕ → Pt S → ℤ × Pt S
  | 0, _, _, σ => (0, σ)
  | count + 1, va, pa, σ =>
    let (ret, σ') := mapSingleEntryR A t va pa attr σ
    if ret ≠ 0 then (ret, σ')
    else mapLoop t attr count ((va + LEVEL_SIZE t) % 2 ^ 64) ((pa + LEVEL_SIZE t) % 2 ^ 64) σ'

/-- `mmu_map_r`. -/
def mmuMapR (va pa size : ℕ) (attr : Pte) (σ : Pt S) : ℤ × Pt S :=
  let t := GET_MAP_LEVEL va pa size
  if IS_LEVEL_ALIGN t pa = false then (-1, σ)
  else if IS_LEVEL_ALIGN t va = false then (-1, σ)
  else mapLoop A t attr (size / LEVEL_SIZE t) va pa σ

end Intewell.Mmu
