/-
# The regions of an address space

`src/kernel/memory/mmu.c`: `mm_region_init`, `mm_region_map`, `mm_region_unmap`,
`mm_region_modify`, the tree and the list of the regions; `arm_mmu_map` and
`arm_alloc_vaddr_with_min` of `src/arch/arm_common/mmu.c`; the system calls `munmap` and
`mprotect` of `src/components/syscall`.

A `struct mm_region *` is the record with its address (`id`): regions do not change
while they are in the tree.  `malloc` fails where the configuration says so and returns
a new address otherwise.  Addresses and sizes are numbers below `2^64`, and sums are
taken modulo `2^64` as the code does.  `none` is a null dereference or a loop that does
not end.

Two fields of an address space are not in the source: the calls made to the page
allocator (`calls`), and the regions linked into the tree with the side of the link
(`links`).  The fields of a region that are left out are read by no function here
(`rb_subtree_gap`, which only `update_subtree_gap` reads, `priv`, `f`, `filepath`) or are
hooks of drivers (`do_fork`, `munmap`).
-/

import Intewell.Mmu.Range
import Intewell.RBTree

namespace Intewell.Region

open ColorTree Mmu

def PAGE_SIZE : ℕ := 4096
def USER_SPACE_START : ℕ := 0x1000
def USER_SPACE_END : ℕ := 0xffffffffffff
def MMAP_START_VADDR : ℕ := 0x1000
def KERNEL_SPACE_START : ℕ := 0xffff000000000000

/-- `PAGE_ALIGN(s)` of a `size_t`. -/
def PAGE_ALIGN (s : ℕ) : ℕ := (s + (PAGE_SIZE - 1)) % 2 ^ 64 / PAGE_SIZE * PAGE_SIZE

def PAGE_ALIGN_DOWN (s : ℕ) : ℕ := s / PAGE_SIZE * PAGE_SIZE

/-- Difference of two `size_t`. -/
def sub64 (a b : ℕ) : ℕ := (a + 2 ^ 64 - b) % 2 ^ 64

/-- The flags of a region that the code tests. -/
structure MapFlags where
  fixed : Bool
  shared : Bool
  anonymous : Bool
  isFile : Bool
deriving DecidableEq, Repr

structure MmRegion where
  id : ℕ
  virtualAddress : ℕ
  physicalAddress : ℕ
  regionPageCount : ℕ
  memAttr : Pte
  isNeedFree : Bool
  isPageFree : Bool
  pageOrder : ℕ
  flags : MapFlags
  mapMin : ℕ
  offset : ℕ
deriving DecidableEq, Repr

/-- `region_page_count * PAGE_SIZE`. -/
def MmRegion.size (r : MmRegion) : ℕ := r.regionPageCount * PAGE_SIZE % 2 ^ 64

/-- `virtual_address + region_page_count * PAGE_SIZE`. -/
def MmRegion.stop (r : MmRegion) : ℕ := (r.virtualAddress + r.regionPageCount * PAGE_SIZE) % 2 ^ 64

/-- A call of the page allocator on the page group of a region. -/
inductive PageCall where
  | refInc (addr order : ℕ)
  | free (addr order : ℕ)
deriving DecidableEq, Repr

/-- The allocator of tables, the kind of address space, the end of the kernel's linear map
and its offset, and which calls of `malloc` succeed. -/
structure Config (S : Type) where
  A : PtAlloc S
  isUser : Bool
  vaRamEnd : ℕ
  pvOffset : ℕ
  mallocOk : ℕ → Bool

/-- An address space (`struct mm`). -/
structure Mm (S : Type) where
  tree : CTree MmRegion
  list : List MmRegion
  pt : Pt S
  mallocs : ℕ
  calls : List PageCall
  links : List (MmRegion × Option Side)

variable {S : Type} (C : Config S)

/-- `malloc(sizeof(struct mm_region))`. -/
def malloc (mm : Mm S) : Option ℕ × Mm S :=
  (if C.mallocOk mm.mallocs then some mm.mallocs else none, { mm with mallocs := mm.mallocs + 1 })

def Mm.call (mm : Mm S) (c : PageCall) : Mm S := { mm with calls := mm.calls ++ [c] }

/-- `mm_region_init`, on a region whose other fields are zero. -/
def mmRegionInit (id : ℕ) (attr : Pte) (pa size : ℕ) : MmRegion where
  id := id
  virtualAddress := 0
  physicalAddress := pa
  regionPageCount := PAGE_ALIGN size / PAGE_SIZE
  memAttr := attr
  isNeedFree := false
  isPageFree := false
  pageOrder := 0
  flags := ⟨false, false, false, false⟩
  mapMin := 0
  offset := 0

/-- `va2region_rbtree`. -/
def va2regionRbtree (tree : CTree MmRegion) (vaddr : ℕ) : Option MmRegion :=
  search (fun r =>
    if vaddr < r.virtualAddress then some .left
    else if r.stop ≤ vaddr then some .right
    else none) tree

/-- `va2region_r`. -/
def va2regionR (list : List MmRegion) (vaddr : ℕ) : Option MmRegion :=
  list.find? fun r => r.virtualAddress ≤ vaddr ∧ vaddr < r.stop

/-- `list_add_tail(node, head)`: before `head`. -/
def listAddTail (node head : MmRegion) (l : List MmRegion) : List MmRegion :=
  l.takeWhile (· ≠ head) ++ node :: l.dropWhile (· ≠ head)

/-- `list_add`, which `list.h` defines as `list_add_tail`. -/
def listAdd (node head : MmRegion) (l : List MmRegion) : List MmRegion := listAddTail node head l

/-- The position on the list, from the parent in the tree before it is rebalanced. -/
def listLink (region : MmRegion) (k : List (Crumb MmRegion)) (l : List MmRegion) : List MmRegion :=
  match k with
  | [] => l ++ [region]
  | p :: _ =>
    match p.side with
    | .left => listAddTail region p.val l
    | .right => listAdd region p.val l

/-- The turn at a node of the search for the link of a region; `none` is a conflict. -/
def linkDir (region this : MmRegion) : Option Side :=
  if region.virtualAddress < this.stop ∧ this.virtualAddress < region.stop then none
  else if region.virtualAddress < this.virtualAddress then some .left
  else some .right

/-- `mm_region_insert_rbtree`. -/
def mmRegionInsertRbtree (region : MmRegion) (mm : Mm S) : Option (ℤ × Mm S) :=
  match link (linkDir region) mm.tree [] with
  | none => some (-1, mm)
  | some k =>
    (RBTree.insertAt region k).map fun tree =>
      (0, { mm with
        tree := tree
        list := listLink region k mm.list
        links := mm.links ++ [(region, k.head?.map Crumb.side)] })

/-- `mm_region_remove_rbtree`. -/
def mmRegionRemoveRbtree (region : MmRegion) (mm : Mm S) : Option (Mm S) :=
  (RBTree.erase (· = region) mm.tree).map fun tree =>
    { mm with tree := tree, list := mm.list.erase region }

/-- Bound on the rounds of the loops over a range. -/
def ROUNDS : ℕ := 2 ^ 64

/-- `arm_mmu_unmap`. -/
def armMmuUnmap (region : MmRegion) (pt : Pt S) : Option (ℤ × Pt S) :=
  mmuUnmapR C.A ROUNDS region.virtualAddress region.size pt

/-- The loop of `arm_alloc_vaddr_with_min`, for some rounds; the counter `n` is an `int`. -/
def searchVaddr (pt : Pt S) (pageCount vaEnd : ℕ) : ℕ → ℕ → ℕ → ℕ → Option ℕ
  | 0, _, _, _ => none
  | rounds + 1, va, n, findVa =>
    if vaEnd ≤ va then some (2 ^ 64 - 1)
    else if va = KERNEL_SPACE_START then
      searchVaddr pt pageCount vaEnd rounds ((C.vaRamEnd + PAGE_SIZE) % 2 ^ 64) 0 0
    else if mmuV2pR pt va ≠ 0 then
      searchVaddr pt pageCount vaEnd rounds ((va + PAGE_SIZE) % 2 ^ 64) 0 0
    else if n + 1 = 2 ^ 31 then none
    else
      let findVa := if findVa = 0 then va else findVa
      if pageCount ≤ n + 1 then some findVa
      else searchVaddr pt pageCount vaEnd rounds ((va + PAGE_SIZE) % 2 ^ 64) (n + 1) findVa

/-- `arm_alloc_vaddr_with_min`. -/
def armAllocVaddrWithMin (pt : Pt S) (pageCount mapMin : ℕ) : Option ℕ :=
  if C.isUser then
    searchVaddr C pt pageCount USER_SPACE_END ROUNDS
      (max (if mapMin ≠ 0 then mapMin else USER_SPACE_START) MMAP_START_VADDR) 0 0
  else
    searchVaddr C pt pageCount (2 ^ 64 - 1) ROUNDS
      (if mapMin ≠ 0 then mapMin else KERNEL_SPACE_START) 0 0

/-- `arm_mmu_map`: the result, the region with its address, and the tables. -/
def armMmuMap (region : MmRegion) (pt : Pt S) : Option (ℤ × MmRegion × Pt S) :=
  (if region.flags.fixed then some region.mapMin
    else if region.virtualAddress = 0 then
      armAllocVaddrWithMin C pt region.regionPageCount region.mapMin
    else some region.virtualAddress).map fun va =>
      let (ret, pt') := mmuMapR C.A va region.physicalAddress region.size (attr2mmu region.memAttr)
        pt
      (ret, { region with virtualAddress := va }, pt')

/-- The scan of `mm_vmalloc` over the regions after the first, from left to right. -/
def vmallocScan (searchStart searchEnd needed : ℕ) : ℕ → List MmRegion → ℕ
  | gapStart, [] =>
    if gapStart < searchEnd ∧ needed ≤ searchEnd - gapStart then gapStart else 2 ^ 64 - 1
  | gapStart, area :: rest =>
    let gapEnd := min area.virtualAddress searchEnd
    if gapStart < gapEnd ∧ needed ≤ gapEnd - gapStart then gapStart
    else
      let gapStart := max area.stop searchStart
      if searchEnd ≤ gapStart then 2 ^ 64 - 1
      else vmallocScan searchStart searchEnd needed gapStart rest

/-- `mm_vmalloc`. -/
def mmVmalloc (tree : CTree MmRegion) (pageCount searchStart searchEnd : ℕ) : ℕ :=
  let size := pageCount * PAGE_SIZE % 2 ^ 64
  if size = 0 then 0
  else
    let searchStart := PAGE_ALIGN (if searchStart = 0 then MMAP_START_VADDR else searchStart)
    let needed := PAGE_ALIGN size
    match tree.toList with
    | [] => if needed ≤ sub64 searchEnd searchStart then searchStart else 0
    | first :: rest =>
      let gapEnd := min first.virtualAddress searchEnd
      if searchStart < gapEnd ∧ needed ≤ gapEnd - searchStart then searchStart
      else vmallocScan searchStart searchEnd needed (max first.stop searchStart) rest

/-- The part of `mm_region_modify` between the borders; `false` where `malloc` fails. -/
def modifyMiddle (region old : MmRegion) (isUnmap : Bool) (mm : Mm S) : Option (Bool × Mm S) :=
  if isUnmap then
    (armMmuUnmap C region mm.pt).bind fun (_, pt) =>
      (mmRegionRemoveRbtree old { mm with pt := pt }).map fun mm => (true, mm)
  else
    match malloc C mm with
    | (none, mm) => some (false, mm)
    | (some id, mm) =>
      let mapRegion := { old with
        id := id
        isNeedFree := true
        regionPageCount := region.regionPageCount
        virtualAddress := region.virtualAddress
        physicalAddress := region.physicalAddress
        memAttr := region.memAttr
        mapMin := region.virtualAddress }
      (armMmuModify C.A ROUNDS mapRegion.virtualAddress mapRegion.size mapRegion.memAttr mm.pt).bind
        fun (_, pt) =>
          (mmRegionRemoveRbtree old { mm with pt := pt }).bind fun mm =>
            (mmRegionInsertRbtree mapRegion mm).map fun (_, mm) => (true, mm)

/-- A piece of the old region that stays: its reference and its link. -/
def insertPiece (piece : MmRegion) (mm : Mm S) : Option (Mm S) :=
  (mmRegionInsertRbtree piece
    (if piece.isPageFree then mm.call (.refInc piece.physicalAddress piece.pageOrder) else mm)).map
      Prod.snd

/-- The offset given to a piece that begins `border - virtual_address` bytes into the region. -/
def pieceOffset (old : MmRegion) (border : ℕ) : ℕ :=
  if old.flags.isFile then
    (PAGE_ALIGN_DOWN old.offset + sub64 border old.virtualAddress) % 2 ^ 64
  else old.offset

/-- The piece before `border1`. -/
def leftPiece (old : MmRegion) (border1 id : ℕ) : MmRegion :=
  { old with
    id := id
    isNeedFree := true
    regionPageCount := sub64 border1 old.virtualAddress / PAGE_SIZE
    offset := pieceOffset old border1 }

/-- The piece from `border2` on. -/
def rightPiece (old : MmRegion) (border2 id : ℕ) : MmRegion :=
  { old with
    id := id
    isNeedFree := true
    regionPageCount := sub64 old.stop border2 / PAGE_SIZE
    virtualAddress := border2
    mapMin := border2
    physicalAddress := (old.physicalAddress + sub64 border2 old.virtualAddress) % 2 ^ 64
    offset := pieceOffset old border2 }

/-- Allocate and link a piece, if it has pages; `false` where `malloc` fails. -/
def modifyPiece (piece : ℕ → MmRegion) (mm : Mm S) : Option (Bool × Mm S) :=
  if (piece 0).regionPageCount = 0 then some (true, mm)
  else
    match malloc C mm with
    | (none, mm) => some (false, mm)
    | (some id, mm) => (insertPiece (piece id) mm).map fun mm => (true, mm)

/-- `mm_region_modify`. -/
def mmRegionModify (region : MmRegion) (isUnmap : Bool) (mm : Mm S) : Option (ℤ × Mm S) :=
  let border1 := region.virtualAddress
  let border2 := region.stop
  if va2regionRbtree mm.tree border1 ≠ va2regionRbtree mm.tree (sub64 border2 1) then some (-1, mm)
  else
    match va2regionRbtree mm.tree border1 with
    | none => some (-1, mm)
    | some old =>
      (modifyMiddle C region old isUnmap mm).bind fun
        | (false, mm) => some (-1, mm)
        | (true, mm) =>
          (modifyPiece C (leftPiece old border1) mm).bind fun
            | (false, mm) => some (-1, mm)
            | (true, mm) =>
              (modifyPiece C (rightPiece old border2) mm).map fun
                | (false, mm) => (-1, mm)
                | (true, mm) =>
                  (0, if isUnmap ∧ old.isPageFree then
                      mm.call (.free old.physicalAddress old.pageOrder)
                    else mm)

/-- The implicit unmapping of `mm_region_map` for a fixed address. -/
def mapFixed (region : MmRegion) (mm : Mm S) : Option (MmRegion × Mm S) :=
  if region.flags.fixed ∧ (va2regionRbtree mm.tree region.mapMin).isSome then
    let region := { region with virtualAddress := region.mapMin }
    (mmRegionModify C region true mm).map fun (_, mm) => (region, mm)
  else some (region, mm)

/-- The choice of an address in a user space. -/
def mapVaddr (region : MmRegion) (mm : Mm S) : MmRegion :=
  if region.virtualAddress = 0 ∧ C.isUser ∧ region.flags.fixed = false then
    { region with
      virtualAddress := mmVmalloc mm.tree region.regionPageCount
        (max (if region.mapMin ≠ 0 then region.mapMin else USER_SPACE_START) MMAP_START_VADDR)
        (USER_SPACE_END + 1) }
  else region

/-- The rest of `mm_region_map`: map, link, and undo the mapping on a conflict. -/
def mapLink (region : MmRegion) (mm : Mm S) : Option (ℤ × MmRegion × Mm S) :=
  (armMmuMap C region mm.pt).bind fun (ret, region, pt) =>
    if ret ≠ 0 then some (ret, region, { mm with pt := pt })
    else
      (mmRegionInsertRbtree region { mm with pt := pt }).bind fun (ret, mm) =>
        if ret ≠ 0 then
          (armMmuUnmap C region mm.pt).map fun (_, pt) => (-1, region, { mm with pt := pt })
        else some (0, region, mm)

/-- `mm_region_map`: the result, the region with its address, and the address space. -/
def mmRegionMap (region : MmRegion) (mm : Mm S) : Option (ℤ × MmRegion × Mm S) :=
  (mapFixed C region mm).bind fun (region, mm) => mapLink C (mapVaddr C region mm) mm

/-- `mm_region_unmap` of a region in the tree. -/
def mmRegionUnmap (region : MmRegion) (mm : Mm S) : Option (ℤ × Mm S) :=
  (armMmuUnmap C region mm.pt).bind fun (ret, pt) =>
    (if ret = 0 then mmRegionRemoveRbtree region { mm with pt := pt }
      else some { mm with pt := pt }).map fun mm =>
        (ret, if region.isPageFree ∧ region.physicalAddress ≠ 0 then
            mm.call (.free region.physicalAddress region.pageOrder)
          else mm)

def EINVAL : ℤ := 22

/-- The region of the `munmap` system call. -/
def munmapRegion (addr len : ℕ) : MmRegion := { mmRegionInit 0 0 0 len with virtualAddress := addr }

def PROT_READ : ℕ := 1
def PROT_WRITE : ℕ := 2
def PROT_EXEC : ℕ := 4

/-- `process_prot_to_attr`. -/
def processProtToAttr (prot : ℕ) : Pte :=
  -- `MT_USER | MT_MEMORY | MT_SHAREABILITY_ISH`
  (1 <<< 7 ||| 2 ||| 1 <<< 8) ||| (if prot &&& PROT_READ = 0 ∧ prot = 0 then 1 <<< 12 else 0) |||
    (if prot &&& PROT_WRITE ≠ 0 then 1 <<< 3 else 0) |||
    (if prot &&& PROT_EXEC ≠ 0 then 0 else 1 <<< 6)

/-- `mm_v2p`, which is `arm_mmu_v2p`. -/
def mmV2p (pt : Pt S) (va : ℕ) : ℕ :=
  if va < C.vaRamEnd ∧ KERNEL_SPACE_START < va then (va + C.pvOffset) % 2 ^ 64 else mmuV2pR pt va

/-- The region of the `mprotect` system call. -/
def mprotectRegion (addr len prot : ℕ) (pt : Pt S) : MmRegion :=
  { mmRegionInit 0 0 (mmV2p C pt addr) len with
    virtualAddress := addr
    memAttr := processProtToAttr prot }

end Intewell.Region
