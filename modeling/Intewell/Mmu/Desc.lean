/-
# Page-table descriptors

The descriptor and level macros of `src/include/arch/arm_common/mmu.h` and
`attr_2_mmu` of `src/arch/arm_common/mmu.c`, for four levels of tables of `512`
entries.  A level is named by its height `MAX_TABLE_LEVEL - level`: the root, level
`0`, has height `3` and the last level height `0`.

Addresses are numbers below `2^64`; a descriptor is a 64-bit word.
-/

import Mathlib.Tactic.Ring

namespace Intewell.Mmu

open Nat

/-- A word of a page table. -/
abbrev Pte := BitVec 64

def ENTRY_TYPE_MASK : Pte := 3
def ENTRY_TYPE_USED : Pte := 1
def ENTRY_TYPE_BLOCK : Pte := 1
def ENTRY_TYPE_TABLE : Pte := 3
def ENTRY_TYPE_PAGE : Pte := 3
def ENTRY_ADDRESS_MASK : Pte := 0x0000fffffffff000
def ENTRY_ATTRIB_MASK : Pte := 0xffff000000000ffc

def MAX_TABLE_LEVEL : ℕ := 3

/-- `value & ENTRY_TYPE_USED`. -/
def isUsed (value : Pte) : Bool := value &&& ENTRY_TYPE_USED ≠ 0

/-- `(value & ENTRY_TYPE_MASK) == ENTRY_TYPE_TABLE`. -/
def isTable (value : Pte) : Bool := value &&& ENTRY_TYPE_MASK = ENTRY_TYPE_TABLE

/-- `(value & ENTRY_TYPE_MASK) == ENTRY_TYPE_BLOCK`. -/
def isBlock (value : Pte) : Bool := value &&& ENTRY_TYPE_MASK = ENTRY_TYPE_BLOCK

/-- `value & ENTRY_ADDRESS_MASK`. -/
def entryAddress (value : Pte) : ℕ := (value &&& ENTRY_ADDRESS_MASK).toNat

/-- `value & ENTRY_ATTRIB_MASK`. -/
def entryAttrib (value : Pte) : Pte := value &&& ENTRY_ATTRIB_MASK

/-- `TABLE_DESC(next_table_point)`. -/
def TABLE_DESC (nextTablePoint : ℕ) : Pte :=
  BitVec.ofNat 64 nextTablePoint &&& 0x0000fffffffff000 ||| ENTRY_TYPE_TABLE

/-- `BLOCK_DESC(attr, addr)`. -/
def BLOCK_DESC (attr : Pte) (addr : ℕ) : Pte :=
  attr &&& ENTRY_ATTRIB_MASK ||| BitVec.ofNat 64 addr &&& ENTRY_ADDRESS_MASK ||| ENTRY_TYPE_BLOCK

/-- `PAGE_DESC(attr, addr)`. -/
def PAGE_DESC (attr : Pte) (addr : ℕ) : Pte :=
  attr &&& ENTRY_ATTRIB_MASK ||| BitVec.ofNat 64 addr &&& ENTRY_ADDRESS_MASK ||| ENTRY_TYPE_PAGE

/-- The descriptor of a leaf: `PAGE_DESC` at the last level and `BLOCK_DESC` above. -/
def leafDesc (h : ℕ) (attr : Pte) (addr : ℕ) : Pte :=
  if h = 0 then PAGE_DESC attr addr else BLOCK_DESC attr addr

/-- `LEVEL_SIZE(level)`. -/
def LEVEL_SIZE (h : ℕ) : ℕ := 2 ^ (12 + h * 9)

/-- `IS_LEVEL_ALIGN(level, addr)`. -/
def IS_LEVEL_ALIGN (h addr : ℕ) : Bool := addr % LEVEL_SIZE h = 0

/-- `LEVEL_SIZE_ALIGN(level, addr)`. -/
def LEVEL_SIZE_ALIGN (h addr : ℕ) : ℕ := addr / LEVEL_SIZE h * LEVEL_SIZE h

/-- `GET_TABLE_OFF(level, addr)`. -/
def GET_TABLE_OFF (h addr : ℕ) : ℕ := addr / LEVEL_SIZE h % 512

/-- `GET_MAP_LEVEL(va, pa, size)`: blocks of 1 GiB, blocks of 2 MiB, or pages. -/
def GET_MAP_LEVEL (va pa size : ℕ) : ℕ :=
  if IS_LEVEL_ALIGN 2 va && IS_LEVEL_ALIGN 2 pa && IS_LEVEL_ALIGN 2 size then 2
  else if IS_LEVEL_ALIGN 1 va && IS_LEVEL_ALIGN 1 pa && IS_LEVEL_ALIGN 1 size then 1
  else 0

def LOWER_ATTRS (x : Pte) : Pte := (x &&& 0xfff) <<< 2
def UPPER_ATTRS (x : Pte) : Pte := (x &&& 0x7) <<< 52

/-- `attr_2_mmu`: the bits of a descriptor for the attributes of a mapping. -/
def attr2mmu (attr : Pte) : Pte :=
  let accessed : Pte := if attr &&& (1 <<< 12) ≠ 0 then 0 else LOWER_ATTRS (1 <<< 8)
  let type : Pte :=
    if attr &&& 7 = 0 then UPPER_ATTRS (1 <<< 1) ||| LOWER_ATTRS 1
    else if attr &&& 7 = 1 then LOWER_ATTRS 2
    else if attr &&& 7 = 3 then LOWER_ATTRS 3
    else LOWER_ATTRS 0
  let secure : Pte := if attr &&& (3 <<< 4) = 1 <<< 4 then LOWER_ATTRS (1 <<< 3) else 0
  let shareability : Pte :=
    if attr &&& (3 <<< 8) = 3 <<< 8 then LOWER_ATTRS 0
    else if attr &&& (3 <<< 8) = 2 <<< 8 then LOWER_ATTRS (2 <<< 6)
    else LOWER_ATTRS (3 <<< 6)
  let user : Pte :=
    if attr &&& (1 <<< 7) ≠ 0 then
      LOWER_ATTRS (1 <<< 4 ||| 1 <<< 9) |||
        (if attr &&& (1 <<< 6) ≠ 0 then UPPER_ATTRS (1 <<< 2) else 0)
    else LOWER_ATTRS 0
  let execute : Pte := if attr &&& (1 <<< 6) ≠ 0 then UPPER_ATTRS (1 <<< 1) else 0
  let write : Pte := if attr &&& (1 <<< 3) ≠ 0 then LOWER_ATTRS 0 else LOWER_ATTRS (1 <<< 5)
  accessed ||| type ||| secure ||| shareability ||| user ||| execute ||| write

/-- `attr2mmu` sets attribute bits only. -/
theorem attr2mmu_mask (attr : Pte) : attr2mmu attr &&& ENTRY_ATTRIB_MASK = attr2mmu attr := by
  unfold attr2mmu
  simp only [BitVec.and_or_distrib_right]
  congr 1
  · congr 1
    · congr 1
      · congr 1
        · congr 1
          · congr 1 <;> split_ifs <;> decide
          · split_ifs <;> decide
        · split_ifs <;> decide
      · split_ifs <;> decide
    · split_ifs <;> decide
  · split_ifs <;> decide

theorem and_or_mask {x y t m : Pte} (hx : ENTRY_ATTRIB_MASK &&& m = 0#64)
    (hy : ENTRY_ADDRESS_MASK &&& m = m) (ht : t &&& m = 0#64) :
    (x &&& ENTRY_ATTRIB_MASK ||| y &&& ENTRY_ADDRESS_MASK ||| t) &&& m = y &&& m := by
  rw [BitVec.and_or_distrib_right, BitVec.and_or_distrib_right, BitVec.and_assoc, BitVec.and_assoc,
    hx, hy, ht]
  simp

theorem land_address_mask (n : ℕ) : n &&& 0x0000fffffffff000 = n % 2 ^ 48 / 4096 * 4096 := by
  have hmask : (0x0000fffffffff000 : ℕ) = (2 ^ 36 - 1) <<< 12 := by decide
  apply eq_of_testBit_eq
  intro i
  rw [hmask, show (4096 : ℕ) = 2 ^ 12 from rfl, ← shiftLeft_eq, ← shiftRight_eq_div_pow]
  simp only [testBit_and, testBit_shiftLeft, testBit_shiftRight,
    testBit_two_pow_sub_one, testBit_mod_two_pow]
  by_cases h12 : 12 ≤ i
  · have hi : 12 + (i - 12) = i := by omega
    have hlt : (i - 12 < 36) ↔ i < 48 := by omega
    simp [h12, hi, hlt, Bool.and_comm]
  · simp [h12]

theorem ofNat_and_address {a : ℕ} (h : a % 4096 = 0) :
    (BitVec.ofNat 64 a &&& ENTRY_ADDRESS_MASK).toNat = a % 2 ^ 48 := by
  rw [BitVec.toNat_and, BitVec.toNat_ofNat]
  change a % 2 ^ 64 &&& 0x0000fffffffff000 = a % 2 ^ 48
  rw [land_address_mask]
  omega

theorem entryAddress_lt (v : Pte) : entryAddress v < 2 ^ 48 ∧ entryAddress v % 4096 = 0 := by
  unfold entryAddress
  rw [BitVec.toNat_and]
  change v.toNat &&& 0x0000fffffffff000 < 2 ^ 48 ∧ (v.toNat &&& 0x0000fffffffff000) % 4096 = 0
  rw [land_address_mask]
  omega

/-- A leaf has its address in 48 bits. -/
theorem entryAddress_leafDesc {a : ℕ} (h : ℕ) (attr : Pte) (ha : a % 4096 = 0) :
    entryAddress (leafDesc h attr a) = a % 2 ^ 48 := by
  unfold entryAddress leafDesc PAGE_DESC BLOCK_DESC
  split_ifs <;> rw [and_or_mask (by decide) (by decide) (by decide), ofNat_and_address ha]

theorem entryAttrib_leafDesc (h : ℕ) (attr : Pte) (a : ℕ) :
    entryAttrib (leafDesc h attr a) = attr &&& ENTRY_ATTRIB_MASK := by
  have hz : ENTRY_ADDRESS_MASK &&& ENTRY_ATTRIB_MASK = 0#64 := by decide
  have hself : ENTRY_ATTRIB_MASK &&& ENTRY_ATTRIB_MASK = ENTRY_ATTRIB_MASK := by decide
  unfold entryAttrib leafDesc PAGE_DESC BLOCK_DESC
  split_ifs <;>
  · rw [BitVec.and_or_distrib_right, BitVec.and_or_distrib_right, BitVec.and_assoc,
      BitVec.and_assoc, hself, hz]
    simp only [BitVec.and_zero, BitVec.or_zero]
    exact BitVec.or_zero

theorem low_leafDesc (h : ℕ) (attr : Pte) (a : ℕ) :
    leafDesc h attr a &&& ENTRY_TYPE_MASK = if h = 0 then 3 else 1 := by
  have h1 : ENTRY_ADDRESS_MASK &&& ENTRY_TYPE_MASK = 0#64 := by decide
  have h2 : ENTRY_ATTRIB_MASK &&& ENTRY_TYPE_MASK = 0#64 := by decide
  unfold leafDesc PAGE_DESC BLOCK_DESC
  split_ifs <;>
  · rw [BitVec.and_or_distrib_right, BitVec.and_or_distrib_right, BitVec.and_assoc,
      BitVec.and_assoc, h1, h2]
    simp only [BitVec.and_zero, BitVec.or_zero, BitVec.zero_or]
    decide

theorem isUsed_iff (v : Pte) : isUsed v = true ↔ v &&& ENTRY_TYPE_MASK &&& ENTRY_TYPE_USED ≠ 0 := by
  have h : ENTRY_TYPE_MASK &&& ENTRY_TYPE_USED = ENTRY_TYPE_USED := by decide
  rw [BitVec.and_assoc, h]
  simp [isUsed]

theorem isUsed_leafDesc (h : ℕ) (attr : Pte) (a : ℕ) : isUsed (leafDesc h attr a) = true := by
  rw [isUsed_iff, low_leafDesc]
  split_ifs <;> decide

theorem isTable_leafDesc {h : ℕ} (hh : h ≠ 0) (attr : Pte) (a : ℕ) :
    isTable (leafDesc h attr a) = false := by
  unfold isTable
  rw [low_leafDesc, if_neg hh]
  decide

theorem isTable_TABLE_DESC (p : ℕ) : isTable (TABLE_DESC p) = true := by
  have h : (0x0000fffffffff000 : Pte) &&& ENTRY_TYPE_MASK = 0#64 := by decide
  unfold isTable TABLE_DESC
  rw [BitVec.and_or_distrib_right, BitVec.and_assoc, h]
  simp only [BitVec.and_zero, BitVec.zero_or]
  decide

theorem entryAddress_TABLE_DESC {p : ℕ} (hp : p % 4096 = 0) (hlt : p < 2 ^ 48) :
    entryAddress (TABLE_DESC p) = p := by
  unfold entryAddress TABLE_DESC
  rw [BitVec.and_or_distrib_right, BitVec.and_assoc]
  have h1 : (0x0000fffffffff000 : Pte) &&& ENTRY_ADDRESS_MASK = ENTRY_ADDRESS_MASK := by decide
  have h2 : ENTRY_TYPE_TABLE &&& ENTRY_ADDRESS_MASK = 0#64 := by decide
  rw [h1, h2, BitVec.or_zero, ofNat_and_address hp, mod_eq_of_lt hlt]

theorem isUsed_of_isTable {v : Pte} (h : isTable v = true) : isUsed v = true := by
  have ht : v &&& ENTRY_TYPE_MASK = ENTRY_TYPE_TABLE := by simpa [isTable] using h
  rw [isUsed_iff, ht]
  decide

theorem and_type_mask (v : Pte) :
    v &&& ENTRY_TYPE_MASK = 0 ∨ v &&& ENTRY_TYPE_MASK = 1 ∨ v &&& ENTRY_TYPE_MASK = 2 ∨
      v &&& ENTRY_TYPE_MASK = 3 := by
  have hmod : (v &&& ENTRY_TYPE_MASK).toNat = v.toNat % 2 ^ 2 := by
    rw [BitVec.toNat_and]
    exact and_two_pow_sub_one_eq_mod v.toNat 2
  have hlt : v.toNat % 2 ^ 2 < 4 := mod_lt _ (by decide)
  simp only [← BitVec.toNat_inj, hmod]
  change _ = 0 ∨ _ = 1 ∨ _ = 2 ∨ _ = 3
  omega

/-- A used entry that is no table is a block. -/
theorem isBlock_of_isUsed {v : Pte} (h : isUsed v = true) (ht : isTable v = false) :
    isBlock v = true := by
  rw [isUsed_iff] at h
  simp only [isTable, decide_eq_false_iff_not] at ht
  rcases and_type_mask v with hv | hv | hv | hv
  · exact absurd (by rw [hv]; decide) h
  · exact decide_eq_true hv
  · exact absurd (by rw [hv]; decide) h
  · exact absurd hv ht

end Intewell.Mmu
