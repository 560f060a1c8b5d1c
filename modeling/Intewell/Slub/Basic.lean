/-
# The SLUB object allocator

`src/kernel/memory/slub/slub_core.c` and `src/include/slub.h`, with the slab
fields of `struct page` (`src/include/page.h`), in the 64-bit ARM configuration.

A `struct kmem_cache *` is an index `c`, a CPU an index `k`, and a
`struct page *` the number of its frame; where the source keeps a page pointer
in a word (`partial_list`, `partial_next`) the word holds the address of the
descriptor in the array `vpage_start`, of `80` bytes each.  The free objects are
threaded through the objects themselves, so that a freelist is a head pointer
and a byte memory.  A null dereference and a loop that does not end are `none`.

The calls do not overlap, so a compare-and-swap succeeds the first time; the
barriers and `TTOS_DisablePreempt` are left out.  `alloc_page()` is given by its
answer `pg`.  `freed` is not in the source: it lists the pages passed to
`free_slab_page`.
-/

import Intewell.Lib.Bytes
import Intewell.Page.Basic

namespace Intewell.Slub

open Function
open Bytes (Mem load store)
open Page (pageToAddr pageAddress addrToPage PAGE_SIZE_SHIFT)

def PAGE_SIZE : ℕ := 1 <<< PAGE_SIZE_SHIFT

/-- Bound on the rounds of a loop: no list has more nodes than there are addresses. -/
def ROUNDS : ℕ := 2 ^ 64

/-- The memory of the page allocator, with a linear map of whole pages and the
place of the array of descriptors. -/
structure Env extends Page.Env where
  pvOffset_aligned : 4096 ∣ pvOffset
  vpageStart : ℕ
  vpageStart_pos : 0 < vpageStart
  vpageStart_aligned : 8 ∣ vpageStart

/-- The address of a descriptor, `&vpage_start[pfn]`. -/
def Env.pagePtr (E : Env) (p : ℕ) : ℕ := E.vpageStart + 80 * p

/-- The frame of a descriptor, `page_to_pfn`. -/
def Env.pageOf (E : Env) (ptr : ℕ) : ℕ := (ptr - E.vpageStart) / 80

/-- Where a page lies in the linear map. -/
def Env.base (E : Env) (p : ℕ) : ℕ := pageAddress E.toEnv (pageToAddr p)

/-- `mm_kernel_v2p` on the linear map: the sum with `pv_offset`, or the walk of the
kernel tables that map the same addresses. -/
def mmKernelV2p (E : Env) (va : ℕ) : ℕ := (va + E.pvOffset) % 2 ^ 64

def ptrToPage (E : Env) (vaddr : ℕ) : Option ℕ := addrToPage E.toEnv (mmKernelV2p E vaddr)

/-! Tagged pointers: the low three bits of an aligned pointer hold a counter. -/

def SLUB_TAG_BITS : ℕ := 3

/-- `tagged & SLUB_PTR_MASK`. -/
def slubPtrUntag (tagged : ℕ) : ℕ := tagged / 2 ^ SLUB_TAG_BITS * 2 ^ SLUB_TAG_BITS

/-- `(ptr & SLUB_PTR_MASK) | (tag & SLUB_TAG_MASK)`. -/
def slubPtrTag (ptr tag : ℕ) : ℕ :=
  ptr / 2 ^ SLUB_TAG_BITS * 2 ^ SLUB_TAG_BITS + tag % 2 ^ SLUB_TAG_BITS

def slubPtrGetTag (tagged : ℕ) : ℕ := tagged % 2 ^ SLUB_TAG_BITS

def slubPtrIncTag (ptr oldTagged : ℕ) : ℕ :=
  slubPtrTag ptr ((slubPtrGetTag oldTagged + 1) % 2 ^ SLUB_TAG_BITS)

/-- The states of a slab page. -/
inductive SlabState where
  | SLAB_PAGE_CPU_ACTIVE | SLAB_PAGE_PARTIAL | SLAB_PAGE_FULL | SLAB_PAGE_FREE
deriving DecidableEq, Repr

open SlabState

def PG_slab : ℕ := 1

/-- The fields of `struct page` that belong to SLUB. -/
structure SlabPage (ι κ : Type) where
  partialNext : ℕ
  flags : ℕ
  slabCache : Option ι
  cpuCache : Option (ι × κ)
  freelist : ℕ
  inuse : ℤ
  slabState : SlabState
  objects : ℕ

/-- `struct kmem_cache_cpu`. -/
structure KmemCacheCpu where
  freelist : ℕ
  page : Option ℕ

/-- `struct kmem_cache`. -/
structure KmemCache (κ : Type) where
  percpu : κ → KmemCacheCpu
  size : ℕ
  objectSize : ℕ
  objectsPerPage : ℕ
  partialList : ℕ
  allocCount : ℕ
  slowAllocCount : ℕ
  freeCount : ℕ
  pageCount : ℤ

/-- What `kmem_cache_init` fixes of a cache. -/
def KmemCache.shape {κ : Type} (g : KmemCache κ) : ℕ × ℕ × ℕ :=
  (g.size, g.objectSize, g.objectsPerPage)

/-- The memory, the descriptors and the caches. -/
@[ext]
structure State (ι κ : Type) where
  mem : Mem
  page : ℕ → SlabPage ι κ
  cache : ι → KmemCache κ
  freed : List ℕ

variable {ι κ : Type}

namespace State

@[simps -fullyApplied]
def setMem (s : State ι κ) (m : Mem) : State ι κ := { s with mem := m }

/-- Write to the descriptor of `p`. -/
@[simps -fullyApplied mem cache freed]
def setPage (s : State ι κ) (p : ℕ) (f : SlabPage ι κ → SlabPage ι κ) : State ι κ :=
  { s with page := update s.page p (f (s.page p)) }

section

variable (s : State ι κ) (p q : ℕ) (f : SlabPage ι κ → SlabPage ι κ)

theorem setPage_page : (s.setPage p f).page q = if q = p then f (s.page p) else s.page q := by
  simp [setPage, update_apply]

@[simp] theorem setPage_page_self : (s.setPage p f).page p = f (s.page p) := by simp [setPage]

theorem setPage_keeps {β : Type*} (field : SlabPage ι κ → β)
    (h : field (f (s.page p)) = field (s.page p)) :
    field ((s.setPage p f).page q) = field (s.page q) := by
  rw [setPage_page]
  split_ifs with hq
  · rw [hq, h]
  · rfl

end

variable [DecidableEq ι]

/-- Write to the cache `c`. -/
@[simps -fullyApplied mem page freed]
def setCache (s : State ι κ) (c : ι) (f : KmemCache κ → KmemCache κ) : State ι κ :=
  { s with cache := update s.cache c (f (s.cache c)) }

section

variable (s : State ι κ) (c c' : ι) (f : KmemCache κ → KmemCache κ)

theorem setCache_cache :
    (s.setCache c f).cache c' = if c' = c then f (s.cache c) else s.cache c' := by
  simp [setCache, update_apply]

theorem setCache_keeps {β : Type*} (field : KmemCache κ → β)
    (h : field (f (s.cache c)) = field (s.cache c)) :
    field ((s.setCache c f).cache c') = field (s.cache c') := by
  rw [setCache_cache]
  split_ifs with hc
  · rw [hc, h]
  · rfl

end

variable [DecidableEq κ]

/-- Write to `cache->__percpu[k]`. -/
@[simps! -fullyApplied mem page freed]
def setCpu (s : State ι κ) (c : ι) (k : κ) (f : KmemCacheCpu → KmemCacheCpu) : State ι κ :=
  s.setCache c fun g => { g with percpu := update g.percpu k (f (g.percpu k)) }

section

variable (s : State ι κ) (c c' : ι) (k k' : κ) (f : KmemCacheCpu → KmemCacheCpu)

@[simp] theorem setCpu_objectsPerPage :
    ((s.setCpu c k f).cache c').objectsPerPage = (s.cache c').objectsPerPage := by
  simp only [setCpu, setCache_cache]
  split <;> simp_all

@[simp] theorem setCpu_partialList :
    ((s.setCpu c k f).cache c').partialList = (s.cache c').partialList := by
  simp only [setCpu, setCache_cache]
  split <;> simp_all

theorem setCpu_percpu : ((s.setCpu c k f).cache c').percpu k' =
      if c' = c ∧ k' = k then f ((s.cache c).percpu k) else (s.cache c').percpu k' := by
  simp only [setCpu, setCache_cache]
  split <;> simp_all [update_apply]

@[simp] theorem setCpu_freelist_page (v : ℕ) :
    (((s.setCpu c k fun u => { u with freelist := v }).cache c').percpu k').page =
      ((s.cache c').percpu k').page := by
  rw [setCpu_percpu]
  split_ifs with heq
  · rw [heq.1, heq.2]
  · rfl

end

end State

variable [DecidableEq ι] [DecidableEq κ]

/-- The loop of `init_page_freelist` over the objects `i - 1, …, 0`: the head of the
list and the memory. -/
def initObjects (addr size : ℕ) : ℕ → ℕ → Mem → ℕ × Mem
  | 0, last, m => (last, m)
  | i + 1, last, m => initObjects addr size i (addr + i * size) (store 8 m (addr + i * size) last)

def initPageFreelist (E : Env) (p : ℕ) (c : ι) (s : State ι κ) : State ι κ :=
  let objs := initObjects (E.base p) (s.cache c).size (s.cache c).objectsPerPage 0 s.mem
  (s.setMem objs.2).setPage p fun g =>
    { g with
      freelist := slubPtrTag objs.1 0
      inuse := 0
      slabState := SLAB_PAGE_FREE
      objects := (s.cache c).objectsPerPage
      slabCache := some c
      cpuCache := none
      flags := PG_slab }

def pageTrySetState (p : ℕ) (old new : SlabState) (s : State ι κ) : Bool × State ι κ :=
  if (s.page p).slabState = old then (true, s.setPage p fun g => { g with slabState := new })
  else (false, s)

def pagePushToPartial (E : Env) (c : ι) (p : ℕ) (s : State ι κ) : Bool × State ι κ :=
  if (s.page p).slabState ≠ SLAB_PAGE_FULL then (false, s)
  else
    match pageTrySetState p SLAB_PAGE_FULL SLAB_PAGE_PARTIAL s with
    | (false, s) => (false, s)
    | (true, s) =>
      let oldHead := (s.cache c).partialList
      (true, (s.setPage p fun g => { g with partialNext := slubPtrUntag oldHead }).setCache c
        fun g => { g with partialList := slubPtrIncTag (E.pagePtr p) oldHead })

/-- A head page that is not `SLAB_PAGE_PARTIAL` is read again and again: `none`. -/
def pagePopFromPartial (E : Env) (c : ι) (s : State ι κ) : Option (Option ℕ × State ι κ) :=
  let oldHead := (s.cache c).partialList
  if slubPtrUntag oldHead = 0 then some (none, s)
  else
    let p := E.pageOf (slubPtrUntag oldHead)
    if (s.page p).slabState ≠ SLAB_PAGE_PARTIAL then none
    else
      let newHead := slubPtrIncTag (s.page p).partialNext oldHead
      some (some p, (s.setCache c fun g => { g with partialList := newHead }).setPage p
        fun g => { g with slabState := SLAB_PAGE_FULL, partialNext := 0 })

/-- The object taken, `0` where the page has none. -/
def allocFromPage (p : ℕ) (s : State ι κ) : ℕ × State ι κ :=
  let oldHead := (s.page p).freelist
  let obj := slubPtrUntag oldHead
  if obj = 0 then (0, s)
  else
    (obj, s.setPage p fun g =>
      { g with freelist := slubPtrIncTag (load 8 s.mem obj) oldHead, inuse := g.inuse + 1 })

def freeToPage (p object : ℕ) (s : State ι κ) : State ι κ :=
  if object = 0 then s
  else
    let oldHead := (s.page p).freelist
    (s.setMem (store 8 s.mem object (slubPtrUntag oldHead))).setPage p fun g =>
      { g with freelist := slubPtrIncTag object oldHead, inuse := g.inuse - 1 }

def freeSlabPage (c : ι) (p : ℕ) (s : State ι κ) : State ι κ :=
  let s := s.setPage p fun g =>
    { g with
      slabState := SLAB_PAGE_FREE
      flags := g.flags - g.flags % 2
      slabCache := none
      cpuCache := none
      freelist := 0
      inuse := 0
      objects := 0 }
  let s := s.setCache c fun g => { g with pageCount := g.pageCount - 1 }
  { s with freed := s.freed ++ [p] }

/-- The loop `while (cpu_cache->freelist)` that gives the objects back to the page `a`. -/
def returnObjects (c : ι) (k : κ) (a : ℕ) : ℕ → State ι κ → Option (State ι κ)
  | 0, _ => none
  | n + 1, s =>
    let object := ((s.cache c).percpu k).freelist
    if object = 0 then some s
    else
      returnObjects c k a n (freeToPage a object
        (s.setCpu c k fun u => { u with freelist := load 8 s.mem object }))

/-- What becomes of the page that was active before. -/
def retirePage (E : Env) (c : ι) (k : κ) (a : ℕ) (s : State ι κ) : Option (State ι κ) :=
  (returnObjects c k a ROUNDS s).map fun s =>
    let s := s.setPage a fun g => { g with cpuCache := none }
    let full := s.setPage a fun g => { g with slabState := SLAB_PAGE_FULL }
    if (s.page a).inuse = 0 then freeSlabPage c a s
    else if (s.page a).inuse < (s.page a).objects then (pagePushToPartial E c a full).2
    else full

/-- The CPU takes the freelist of its new active page. -/
def stealFreelist (c : ι) (k : κ) (p : ℕ) (s : State ι κ) : State ι κ :=
  let oldHead := (s.page p).freelist
  ((s.setPage p fun g => { g with freelist := slubPtrIncTag 0 oldHead }).setCpu c k
    fun u => { u with freelist := slubPtrUntag oldHead }).setPage p
      fun g => { g with inuse := g.objects }

def cpuSlabSetActivePage (E : Env) (c : ι) (k : κ) (p : ℕ) (s : State ι κ) : Option (State ι κ) :=
  let acpage := ((s.cache c).percpu k).page
  if acpage = some p then some s
  else
    let s := s.setCpu c k fun u => { u with page := some p }
    let s := s.setPage p fun g =>
      { g with cpuCache := some (c, k), slabState := SLAB_PAGE_CPU_ACTIVE }
    (match acpage with
      | none => some s
      | some a => retirePage E c k a s).map (stealFreelist c k p)

/-- `pg` is the answer of `alloc_page()`. -/
def allocateSlabPage (E : Env) (c : ι) (pg : Option ℕ) (s : State ι κ) : Option ℕ × State ι κ :=
  match pg with
  | none => (none, s)
  | some p =>
    (some p, (initPageFreelist E p c s).setCache c fun g => { g with pageCount := g.pageCount + 1 })

/-- What becomes of a page of `partial_list` that an object was taken from. -/
def settlePage (E : Env) (c : ι) (k : κ) (p : ℕ) (s : State ι κ) : Option (State ι κ) :=
  let full := s.setPage p fun g => { g with slabState := SLAB_PAGE_FULL }
  if (s.page p).inuse = (s.page p).objects then some full
  else if (s.page p).inuse < ((s.page p).objects / 2 : ℕ) then cpuSlabSetActivePage E c k p s
  else some (pagePushToPartial E c p full).2

def countSlowAlloc (c : ι) (s : State ι κ) : State ι κ :=
  s.setCache c fun g => { g with slowAllocCount := g.slowAllocCount + 1 }

/-- The loop over `partial_list`: the object, or `none` once the list is empty. -/
def slowpathPartial (E : Env) (c : ι) (k : κ) : ℕ → State ι κ → Option (Option ℕ × State ι κ)
  | 0, _ => none
  | n + 1, s =>
    (pagePopFromPartial E c s).bind fun (page, s) =>
      match page with
      | none => some (none, s)
      | some p =>
        match allocFromPage p s with
        | (object, s) =>
          if object = 0 then slowpathPartial E c k n s
          else (settlePage E c k p s).map fun s => (some object, countSlowAlloc c s)

/-- The object, `0` where there is none. -/
def kmemCacheAllocSlowpath (E : Env) (c : ι) (k : κ) (pg : Option ℕ) (s : State ι κ) :
    Option (ℕ × State ι κ) :=
  (slowpathPartial E c k ROUNDS s).bind fun (object, s) =>
    match object with
    | some object => some (object, s)
    | none =>
      match allocateSlabPage E c pg s with
      | (none, s) => some (0, s)
      | (some p, s) =>
        match allocFromPage p s with
        | (object, s) =>
          (cpuSlabSetActivePage E c k p s).map fun s => (object, countSlowAlloc c s)

/-- `kmem_cache_alloc(cache, flags)` on CPU `k`. -/
def kmemCacheAlloc (E : Env) (c : ι) (k : κ) (pg : Option ℕ) (s : State ι κ) :
    Option (ℕ × State ι κ) :=
  let s := s.setCache c fun g => { g with allocCount := g.allocCount + 1 }
  let cpu := (s.cache c).percpu k
  if cpu.freelist ≠ 0 then
    some (cpu.freelist, s.setCpu c k fun u => { u with freelist := load 8 s.mem cpu.freelist })
  else
    match cpu.page with
    | none => kmemCacheAllocSlowpath E c k pg s
    | some p =>
      match allocFromPage p s with
      | (object, s) =>
        if object ≠ 0 then some (object, s) else kmemCacheAllocSlowpath E c k pg s

/-- `kmem_cache_free(cache, object)` on CPU `k`. -/
def kmemCacheFree (E : Env) (c : ι) (k : κ) (object : ℕ) (s : State ι κ) : Option (State ι κ) :=
  if object = 0 then some s
  else
    (ptrToPage E object).bind fun p =>
      if (s.page p).slabCache ≠ some c then some s
      else
        let s := s.setCache c fun g => { g with freeCount := g.freeCount + 1 }
        let cpu := (s.cache c).percpu k
        if some p = cpu.page then
          some ((s.setMem (store 8 s.mem object cpu.freelist)).setCpu c k
            fun u => { u with freelist := object })
        else
          let s := freeToPage p object s
          match (s.page p).slabState with
          | SLAB_PAGE_CPU_ACTIVE => some s
          | SLAB_PAGE_PARTIAL => some s
          | _ => some (pagePushToPartial E c p s).2

/-- `kmem_cache_init` on a zeroed cache; an object size that rounds to `0` divides by it. -/
def kmemCacheInit (size : ℕ) : Option (KmemCache κ) :=
  let rounded := (size + 7) / 8 * 8 % 2 ^ 32
  if rounded = 0 then none
  else
    some
      { percpu := fun _ => ⟨0, none⟩
        size := rounded
        objectSize := size % 2 ^ 32
        objectsPerPage := PAGE_SIZE / rounded
        partialList := slubPtrTag 0 0
        allocCount := 0
        slowAllocCount := 0
        freeCount := 0
        pageCount := 0 }

end Intewell.Slub
