/-
# The buddy page allocator

`src/kernel/memory/page.c`, `src/include/page.h` and `memory_is_zone` in
`src/include/ttosMM.h`, in the 64-bit ARM configuration: pages of `2^12` bytes,
`ARCH_ADDRESS_WIDTH_BITS = 64`.

A `struct page *` is the number of its frame (`page_to_pfn`, `pfn_to_page`), and
the doubly linked list `page_list[k]` is the list of the frames on it, first
frame first: `page_insert` pushes in front, `page_remove` unlinks.  Unlinking a
page that is not on the list follows what its `next` and `pre` hold: where both are
`NULL`, as in memory that was cleared (`unlinked`), the list becomes empty; otherwise
that, a failed `assert`, a null dereference, an index outside `page_list` and
`1 << order` past the width of an `int` are `none`.
-/

import Intewell.Lib.Block

namespace Intewell.Page

open Function

/-- Width of an address; as a `size_bits` it means "not free" (`page.h`). -/
def ARCH_ADDRESS_WIDTH_BITS : ℕ := 64

def PAGE_SIZE_SHIFT : ℕ := 12

/-- Number of levels of `page_list`. -/
def PAGE_LIST_SIZE : ℕ := ARCH_ADDRESS_WIDTH_BITS - PAGE_SIZE_SHIFT

/-- `PFN_DOWN(addr)`. -/
def PFN_DOWN (addr : ℕ) : ℕ := addr >>> PAGE_SIZE_SHIFT

/-- The zones of `ttosMM.h`; `other` is every other number, the `default` case. -/
inductive Zone where
  | normal | dma | high | dma32 | anywhere | other
deriving DecidableEq, Repr

/-- What the allocator reads and never changes: which elements of the array
`vpage_start` are mapped, the bounds of the linear map and its offset.  Physical
addresses have 48 bits, so frame numbers have 36. -/
structure Env where
  present : ℕ → Bool
  present_lt : ∀ f, present f = true → f < 2 ^ 36
  minLowPfn : ℕ
  maxLowPfn : ℕ
  pvOffset : ℕ

/-- The descriptors (`struct page`) and `page_list`; a page is `unlinked` as long as its `next` and
`pre` are `NULL` and it has not been on a list. -/
structure State where
  sizeBits : ℕ → ℕ
  refCnt : ℕ → ℤ
  pageList : ℕ → List ℕ
  unlinked : ℕ → Bool

/-- The descriptor of a frame, or `NULL` where the array is not mapped. -/
def pfnToPage (E : Env) (pfn : ℕ) : Option ℕ := if E.present pfn then some pfn else none

def pageToAddr (p : ℕ) : ℕ := p <<< PAGE_SIZE_SHIFT % 2 ^ 64

def addrToPage (E : Env) (addr : ℕ) : Option ℕ := pfnToPage E (PFN_DOWN addr)

/-- The address in the linear map, `0` outside of it. -/
def pageAddress (E : Env) (addr : ℕ) : ℕ :=
  if addr ≤ E.maxLowPfn <<< PAGE_SIZE_SHIFT ∧ E.minLowPfn <<< PAGE_SIZE_SHIFT ≤ addr then
    (addr + 2 ^ 64 - E.pvOffset % 2 ^ 64) % 2 ^ 64
  else 0

def memoryIsZone (E : Env) (addr : ℕ) : Zone → Bool
  | .normal => pageAddress E addr ≠ 0
  | .dma => true
  | .high => pageAddress E addr = 0
  | .dma32 => if addr > 2 ^ 32 - 1 then false else pageAddress E addr ≠ 0
  | .anywhere => true
  | .other => false

def pageIsZone (E : Env) (p : ℕ) (zone : Zone) : Bool := memoryIsZone E (pageToAddr p) zone

def buddyGet (E : Env) (p sizeBits : ℕ) : Option ℕ :=
  addrToPage E (pageToAddr p ^^^ (1 <<< (sizeBits + PAGE_SIZE_SHIFT)) % 2 ^ 64)

/-- Write `p->size_bits`. -/
@[simps -fullyApplied]
def State.setSizeBits (σ : State) (p v : ℕ) : State :=
  { σ with sizeBits := update σ.sizeBits p v }

/-- Write `p->ref_cnt`. -/
@[simps -fullyApplied]
def State.setRefCnt (σ : State) (p : ℕ) (v : ℤ) : State :=
  { σ with refCnt := update σ.refCnt p v }

/-- Write `page_list[k]`. -/
@[simps -fullyApplied]
def State.setList (σ : State) (k : ℕ) (l : List ℕ) : State :=
  { σ with pageList := update σ.pageList k l }

def pageRemove (p sizeBits : ℕ) (σ : State) : Option State :=
  if p ∈ σ.pageList sizeBits then
    some ((σ.setList sizeBits ((σ.pageList sizeBits).erase p)).setSizeBits p
      ARCH_ADDRESS_WIDTH_BITS)
  else if σ.unlinked p then
    some ((σ.setList sizeBits []).setSizeBits p ARCH_ADDRESS_WIDTH_BITS)
  else none

def pageInsert (p sizeBits : ℕ) (σ : State) : State :=
  { (σ.setList sizeBits (p :: σ.pageList sizeBits)).setSizeBits p sizeBits with
    unlinked := update σ.unlinked p false }

/-- The head of the page group of a frame, `pfn & ~((1ULL << size_bits) - 1)`. -/
def groupHead (pfn sizeBits : ℕ) : ℕ := pfn / 2 ^ sizeBits * 2 ^ sizeBits

def _pagesRefInc (E : Env) (p sizeBits : ℕ) (σ : State) : State :=
  match pfnToPage E (groupHead p sizeBits) with
  | none => σ
  | some h => σ.setRefCnt h ((σ.refCnt h + 1).bmod (2 ^ 32))

/-- The `while (level < PAGE_LIST_SIZE)` loop of `_pages_free`, `n` levels below
the top: returns the page and the level it stops at. -/
def coalesce (E : Env) : ℕ → ℕ → ℕ → State → Option (ℕ × ℕ × State)
  | 0, p, level, σ => some (p, level, σ)
  | n + 1, p, level, σ =>
    match buddyGet E p level with
    | none => some (p, level, σ)
    | some b =>
      if σ.sizeBits b = level ∧ pageIsZone E b .normal = pageIsZone E p .normal then
        (pageRemove b level σ).bind fun σ' =>
          coalesce E n (if p < b then p else b) (level + 1) σ'
      else some (p, level, σ)

def _pagesFree (E : Env) (p sizeBits : ℕ) (σ : State) : Option (ℤ × State) :=
  match pfnToPage E (groupHead p sizeBits) with
  | none => some (0, σ)
  | some h =>
    if 0 < σ.refCnt h ∧ σ.sizeBits h = ARCH_ADDRESS_WIDTH_BITS then
      if σ.refCnt h - 1 ≠ 0 then some (0, σ.setRefCnt h (σ.refCnt h - 1))
      else
        (coalesce E (PAGE_LIST_SIZE - sizeBits) h sizeBits (σ.setRefCnt h (σ.refCnt h - 1))).bind
          fun (q, level, σ') =>
            if level < PAGE_LIST_SIZE then some (1, pageInsert q level σ') else none
    else none

/-- The first page of the zone on `page_list[level]`. -/
def findZone (E : Env) (zone : Zone) (level : ℕ) (σ : State) : Option ℕ :=
  (σ.pageList level).find? fun p => pageIsZone E p zone

/-- The `for (level = size_bits + 1; level < PAGE_LIST_SIZE; level++)` search, `n`
levels below the top. -/
def searchLevel (E : Env) (zone : Zone) (σ : State) : ℕ → ℕ → Option (ℕ × ℕ)
  | 0, _ => none
  | n + 1, level =>
    match findZone E zone level σ with
    | some p => some (p, level)
    | none => searchLevel E zone σ n (level + 1)

/-- The `while (level > size_bits)` loop at `level = size_bits + n`. -/
def split (E : Env) (sizeBits : ℕ) : ℕ → ℕ → State → Option (ℕ × State)
  | 0, p, σ => some (p, σ)
  | n + 1, p, σ =>
    (buddyGet E p (sizeBits + n)).bind fun b =>
      split E sizeBits n b (pageInsert p (sizeBits + n) σ)

/-- `p->size_bits = ARCH_ADDRESS_WIDTH_BITS; p->ref_cnt = 1;` -/
def State.claim (σ : State) (p : ℕ) : State :=
  (σ.setSizeBits p ARCH_ADDRESS_WIDTH_BITS).setRefCnt p 1

def _pagesAlloc (E : Env) (sizeBits : ℕ) (zone : Zone) (σ : State) : Option (Option ℕ × State) :=
  if PAGE_LIST_SIZE ≤ sizeBits then none
  else
    match findZone E zone sizeBits σ with
    | some p => (pageRemove p sizeBits σ).map fun σ' => (some p, σ'.claim p)
    | none =>
      match searchLevel E zone σ (PAGE_LIST_SIZE - (sizeBits + 1)) (sizeBits + 1) with
      | none => some (none, σ)
      | some (p, level) =>
        (pageRemove p level σ).bind fun σ' =>
          (split E sizeBits (level - sizeBits) p σ').map fun (q, σ'') => (some q, σ''.claim q)

def pageRefInc (E : Env) (addr sizeBits : ℕ) (σ : State) : State :=
  match addrToPage E addr with
  | none => σ
  | some p => _pagesRefInc E p sizeBits σ

/-- The address of the allocated block, `0` where there is none. -/
def pagesAlloc (E : Env) (sizeBits : ℕ) (zone : Zone) (σ : State) : Option (ℕ × State) :=
  (_pagesAlloc E sizeBits zone σ).map fun (p, σ') => ((p.map pageToAddr).getD 0, σ')

def pagesFree (E : Env) (addr sizeBits : ℕ) (σ : State) : Option (ℤ × State) :=
  match addrToPage E addr with
  | none => some (0, σ)
  | some p => _pagesFree E p sizeBits σ

/-- `p->size_bits = ARCH_ADDRESS_WIDTH_BITS; p->ref_cnt = 1; _pages_free(p, order);` -/
def giveBlock (E : Env) (pfn order : ℕ) (σ : State) : Option State :=
  match pfnToPage E pfn with
  | none => some σ
  | some p => (_pagesFree E p order (σ.claim p)).map Prod.snd

/-- The zone test of `set_page_free` on the first and the last page of the block;
on a page without a descriptor it is undefined. -/
def sameZone (E : Env) (startPfn order : ℕ) : Option Bool :=
  (pfnToPage E startPfn).bind fun p =>
    (pfnToPage E (startPfn + 2 ^ order - 1)).map fun q =>
      pageIsZone E p .normal == pageIsZone E q .normal

def setPageFree (E : Env) : ℕ → ℕ → State → Option State
  | 0, start, σ => (sameZone E (PFN_DOWN start) 0).bind fun _ => giveBlock E (PFN_DOWN start) 0 σ
  | order + 1, start, σ =>
    if 31 ≤ order + 1 then none
    else
      (sameZone E (PFN_DOWN start) (order + 1)).bind fun same =>
        if same then giveBlock E (PFN_DOWN start) (order + 1) σ
        else
          (setPageFree E order start σ).bind
            (setPageFree E order (start + 1 <<< (order + PAGE_SIZE_SHIFT)))

end Intewell.Page
