/-
# The workspace heap

`src/kernel/memory/workspace/ttosHeap.c` and `ttosHeap.h`, with `T_ULONG` and
pointers of eight bytes.  A block begins with the words `bflag` (size and status
of the block before it) and `fflag` (its own); a free block goes on with the links
`next` and `previous`.  The pointers of `T_TTOS_HeapControl` are in the memory,
at `start` `0`, `final` `8`, `first` `16`, `null` `24` and `last` `32`, since
`&hcb->start` and `&hcb->final` serve as blocks of the free list; the counters
are a record beside it.

The memory is flat: a bad pointer is read and written through like any other.  A
search that does not end is `none`.
-/

import Intewell.Lib.Bytes

namespace Intewell.Heap

open Bytes (Mem load store)

def HEAP_TAIL_BLOCK_SIZE : ℕ := 16

def HEAP_FREE_BLOCK_OVERHEAD : ℕ := 32

def HEAP_USED_BLOCK_OVERHEAD : ℕ := 16

def HEAP_MINIMUM_HEAPSIZE : ℕ := HEAP_TAIL_BLOCK_SIZE + HEAP_FREE_BLOCK_OVERHEAD

def HEAP_MINIMUM_BLOCKSIZE : ℕ := 32

def HEAP_MINIMUM_ALIGNEDSIZE : ℕ := 8

/-- `0UL + HEAP_BLOCK_USED`. -/
def HEAP_DUMMY_FLAG : ℕ := 1

/-- Bound on the rounds of the search: no list has more blocks than there are addresses. -/
def ROUNDS : ℕ := 2 ^ 64

inductive ReturnCode where
  | TTOS_OK | TTOS_INVALID_SIZE | TTOS_INVALID_ADDRESS | TTOS_INVALID_STATE | TTOS_UNSATISFIED
  | TTOS_INTERNAL_ERROR
deriving DecidableEq, Repr

open ReturnCode

/-- The counters of `T_TTOS_HeapControl`, 32 bits each. -/
structure HeapControl where
  heapSize : ℕ
  inUseSize : ℕ
  freeBlocks : ℕ
  allocateGoods : ℕ
  freeGoods : ℕ
  allocateFails : ℕ
  freeFails : ℕ
  internalErrors : ℕ

structure State where
  mem : Mem
  ctl : HeapControl

/-- `x++` on a 32-bit counter. -/
def inc32 (x : ℕ) : ℕ := (x + 1) % 2 ^ 32

/-- `x -= y` on a 32-bit counter. -/
def sub32 (x y : ℕ) : ℕ := (x + 2 ^ 32 - y % 2 ^ 32) % 2 ^ 32

/-- `x - y` on 64 bits. -/
def sub64 (x y : ℕ) : ℕ := (x + 2 ^ 64 - y % 2 ^ 64) % 2 ^ 64

/-! The words of a block. -/

def bflag (m : Mem) (b : ℕ) : ℕ := load 8 m b

def fflag (m : Mem) (b : ℕ) : ℕ := load 8 m (b + 8)

def next (m : Mem) (b : ℕ) : ℕ := load 8 m (b + 16)

def previous (m : Mem) (b : ℕ) : ℕ := load 8 m (b + 24)

def setBflag (m : Mem) (b v : ℕ) : Mem := store 8 m b v

def setFflag (m : Mem) (b v : ℕ) : Mem := store 8 m (b + 8) v

def setNext (m : Mem) (b v : ℕ) : Mem := store 8 m (b + 16) v

def setPrevious (m : Mem) (b v : ℕ) : Mem := store 8 m (b + 24) v

/-- `flag & ~HEAP_BLOCK_USED`. -/
def sizeOf (flag : ℕ) : ℕ := flag / 2 * 2

/-- `flag | HEAP_BLOCK_USED`. -/
def markUsed (flag : ℕ) : ℕ := flag / 2 * 2 + 1

def HEAP_NEXTBLOCK (m : Mem) (b : ℕ) : ℕ := (b + sizeOf (fflag m b)) % 2 ^ 64

/-! The pointers of the control structure. -/

def start (m : Mem) (hcb : ℕ) : ℕ := load 8 m hcb

def final (m : Mem) (hcb : ℕ) : ℕ := load 8 m (hcb + 8)

def first (m : Mem) (hcb : ℕ) : ℕ := load 8 m (hcb + 16)

def last (m : Mem) (hcb : ℕ) : ℕ := load 8 m (hcb + 32)

/-- `(block > hcb->final) || (block < hcb->start)`. -/
def outside (m : Mem) (hcb b : ℕ) : Prop := final m hcb < b ∨ b < start m hcb

instance (m : Mem) (hcb b : ℕ) : Decidable (outside m hcb b) := inferInstanceAs (Decidable (_ ∨ _))

def ttosInitHeap (hcb startingAddress heapSize : ℕ) (s : State) : ReturnCode × State :=
  if hcb = 0 ∨ startingAddress = 0 then (TTOS_INVALID_ADDRESS, s)
  else if heapSize < HEAP_MINIMUM_HEAPSIZE then (TTOS_INVALID_SIZE, s)
  else
    let headBlockSize := heapSize - HEAP_TAIL_BLOCK_SIZE
    let headBlock := startingAddress
    let m := setBflag s.mem headBlock HEAP_DUMMY_FLAG
    let m := setFflag m headBlock headBlockSize
    let m := setNext m headBlock (hcb + 8)
    let m := setPrevious m headBlock hcb
    let tailBlock := HEAP_NEXTBLOCK m headBlock
    if tailBlock = 0 then (TTOS_INVALID_ADDRESS, { s with mem := m })
    else
      let m := setBflag m tailBlock headBlockSize
      let m := setFflag m tailBlock HEAP_DUMMY_FLAG
      let m := store 8 m hcb headBlock
      let m := store 8 m (hcb + 8) tailBlock
      let m := store 8 m (hcb + 16) headBlock
      let m := store 8 m (hcb + 24) 0
      let m := store 8 m (hcb + 32) headBlock
      (TTOS_OK, { mem := m, ctl := ⟨heapSize, 0, 1, 0, 0, 0, 0, 0⟩ })

/-- The size of the block for a request: `size + alignedSize` is a sum of 32 bits. -/
def realSize (size alignedSize : ℕ) : ℕ :=
  let real := (size + alignedSize) % 2 ^ 32 + HEAP_USED_BLOCK_OVERHEAD
  if size % alignedSize ≠ 0 then real + (alignedSize - size % alignedSize) else real

/-- The loop over the free list: the first block of the size, or none. -/
def searchFree (hcb real : ℕ) (m : Mem) : ℕ → ℕ → Option (Option ℕ)
  | 0, _ => none
  | n + 1, theBlock =>
    if theBlock = hcb + 8 then some none
    else if real ≤ fflag m theBlock then some (some theBlock)
    else if last m hcb = theBlock then some none
    else searchFree hcb real m n (next m theBlock)

/-- The end of `ttosAllocateHeap`: the aligned address, with the offset stored before it. -/
def handOut (real alignedSize ptr : ℕ) (s : State) : ReturnCode × ℕ × State :=
  let offset := sub64 alignedSize (ptr &&& (alignedSize - 1))
  let ptr := (ptr + offset) % 2 ^ 64
  (TTOS_OK, ptr,
    { mem := store 8 s.mem (sub64 ptr 8) offset
      ctl :=
        { s.ctl with
          allocateGoods := inc32 s.ctl.allocateGoods
          inUseSize := (s.ctl.inUseSize + real) % 2 ^ 32 } })

def internalError (s : State) : ReturnCode × ℕ × State :=
  (TTOS_INTERNAL_ERROR, 0,
    { s with ctl := { s.ctl with internalErrors := inc32 s.ctl.internalErrors } })

/-- The end of the free block becomes a used block. -/
def splitBlock (real alignedSize theBlock : ℕ) (s : State) : ReturnCode × ℕ × State :=
  let tmpBlock := HEAP_NEXTBLOCK s.mem theBlock
  if tmpBlock = 0 then (TTOS_INVALID_ADDRESS, 0, s)
  else if bflag s.mem tmpBlock ≠ fflag s.mem theBlock then internalError s
  else
    let m := setBflag s.mem tmpBlock (markUsed real)
    let m := setFflag m theBlock (sub64 (fflag m theBlock) real)
    let nextBlock := HEAP_NEXTBLOCK m theBlock
    if nextBlock = 0 then (TTOS_INVALID_ADDRESS, 0, { s with mem := m })
    else
      let m := setBflag m nextBlock (fflag m theBlock)
      let m := setFflag m nextBlock (markUsed real)
      handOut real alignedSize (nextBlock + 16) { s with mem := m }

/-- The neighbours of a block in the free list are linked to each other. -/
def unlinkBlock (m : Mem) (b : ℕ) : Mem :=
  let m := setPrevious m (next m b) (previous m b)
  setNext m (previous m b) (next m b)

/-- The whole free block is used. -/
def wholeBlock (real alignedSize theBlock : ℕ) (s : State) : ReturnCode × ℕ × State :=
  let nextBlock := HEAP_NEXTBLOCK s.mem theBlock
  if nextBlock = 0 then (TTOS_INVALID_ADDRESS, 0, s)
  else if bflag s.mem nextBlock ≠ fflag s.mem theBlock then internalError s
  else
    let m := setBflag s.mem nextBlock (markUsed (bflag s.mem nextBlock))
    let m := setFflag m theBlock (markUsed (fflag m theBlock))
    let m := unlinkBlock m theBlock
    handOut real alignedSize (theBlock + 16)
      { mem := m, ctl := { s.ctl with freeBlocks := sub32 s.ctl.freeBlocks 1 } }

def takeBlock (hcb real alignedSize theBlock : ℕ) (s : State) : ReturnCode × ℕ × State :=
  if theBlock = 0 then (TTOS_INVALID_ADDRESS, 0, s)
  else if fflag s.mem theBlock % 2 ≠ 0 then internalError s
  else if outside s.mem hcb theBlock then internalError s
  else if HEAP_MINIMUM_BLOCKSIZE ≤ sub64 (fflag s.mem theBlock) real then
    splitBlock real alignedSize theBlock s
  else wholeBlock real alignedSize theBlock s

/-- The return code, `*space` and the state. -/
def ttosAllocateHeap (hcb size alignedSize : ℕ) (s : State) : Option (ReturnCode × ℕ × State) :=
  if hcb = 0 then some (TTOS_INVALID_ADDRESS, 0, s)
  else if size = 0 ∨ alignedSize = 0 then some (TTOS_INVALID_SIZE, 0, s)
  else if s.ctl.heapSize = 0 then some (TTOS_INVALID_STATE, 0, s)
  else
    let alignedSize := if alignedSize < HEAP_MINIMUM_ALIGNEDSIZE then 8 else alignedSize
    let real := realSize size alignedSize
    if real < size then some (TTOS_INVALID_SIZE, 0, s)
    else
      let real := if real < HEAP_MINIMUM_BLOCKSIZE then HEAP_MINIMUM_BLOCKSIZE else real
      let theBlock := first s.mem hcb
      if theBlock = 0 then some (TTOS_INVALID_ADDRESS, 0, s)
      else
        (searchFree hcb real s.mem ROUNDS theBlock).map fun
          | none =>
            (TTOS_UNSATISFIED, 0,
              { s with ctl := { s.ctl with allocateFails := inc32 s.ctl.allocateFails } })
          | some theBlock => takeBlock hcb real alignedSize theBlock s

def freeFail (s : State) : State :=
  { s with ctl := { s.ctl with freeFails := inc32 s.ctl.freeFails } }

/-- The beginning of `ttosFreeHeap` and of `ttosGetBlockSizeHeap`: the used block that a
pointer was cut from. -/
def findUsed (hcb startingAddress : ℕ) (s : State) : ReturnCode × ℕ × State :=
  if hcb = 0 ∨ startingAddress = 0 then (TTOS_INVALID_ADDRESS, 0, s)
  else if s.ctl.heapSize = 0 then (TTOS_INVALID_STATE, 0, s)
  else
    let offset := (load 8 s.mem (sub64 startingAddress 8) + HEAP_USED_BLOCK_OVERHEAD) % 2 ^ 64
    let theBlock := sub64 startingAddress offset
    if theBlock = 0 then (TTOS_INVALID_ADDRESS, 0, s)
    else if outside s.mem hcb theBlock then (TTOS_UNSATISFIED, 0, freeFail s)
    else if fflag s.mem theBlock % 2 = 0 then (TTOS_UNSATISFIED, 0, freeFail s)
    else (TTOS_OK, theBlock, s)

/-- Both neighbours are free: the block before takes all three. -/
def mergeBoth (previousBlock nextBlock theSize : ℕ) (m : Mem) : Mem :=
  let m := setFflag m previousBlock
    ((fflag m previousBlock + (fflag m nextBlock + theSize)) % 2 ^ 64)
  let temporaryBlock := HEAP_NEXTBLOCK m previousBlock
  let m := setBflag m temporaryBlock (fflag m previousBlock)
  unlinkBlock m nextBlock

/-- The block before is free. -/
def mergePrevious (previousBlock nextBlock theSize : ℕ) (m : Mem) : Mem :=
  let m := setBflag m nextBlock ((fflag m previousBlock + theSize) % 2 ^ 64)
  setFflag m previousBlock (bflag m nextBlock)

/-- A block takes the place of another in the free list. -/
def relinkBlock (m : Mem) (theBlock nextBlock : ℕ) : Mem :=
  let m := setNext m theBlock (next m nextBlock)
  let m := setPrevious m theBlock (previous m nextBlock)
  let m := setNext m (previous m nextBlock) theBlock
  setPrevious m (next m nextBlock) theBlock

/-- The block after is free: the block takes its place in the list. -/
def mergeNext (theBlock nextBlock theSize : ℕ) (m : Mem) : Mem :=
  let m := setFflag m theBlock ((theSize + fflag m nextBlock) % 2 ^ 64)
  let newNextBlock := HEAP_NEXTBLOCK m theBlock
  let m := setBflag m newNextBlock (fflag m theBlock)
  relinkBlock m theBlock nextBlock

/-- A block is put in front of the free list. -/
def linkFirst (hcb theBlock : ℕ) (m : Mem) : Mem :=
  let m := setPrevious m theBlock hcb
  let m := setNext m theBlock (first m hcb)
  let m := store 8 m (hcb + 16) theBlock
  setPrevious m (next m theBlock) theBlock

/-- No neighbour is free. -/
def pushBlock (hcb theBlock nextBlock theSize : ℕ) (m : Mem) : Mem :=
  let m := setFflag m theBlock theSize
  let m := setBflag m nextBlock (fflag m theBlock)
  linkFirst hcb theBlock m

/-- The end of `ttosFreeHeap`. -/
def freed (theSize freeBlocks : ℕ) (m : Mem) (s : State) : ReturnCode × State :=
  (TTOS_OK,
    { mem := m
      ctl :=
        { s.ctl with
          freeBlocks := freeBlocks
          freeGoods := inc32 s.ctl.freeGoods
          inUseSize := sub32 s.ctl.inUseSize theSize } })

def ttosFreeHeap (hcb startingAddress : ℕ) (s : State) : ReturnCode × State :=
  match findUsed hcb startingAddress s with
  | (TTOS_OK, theBlock, s) =>
    let theSize := sizeOf (fflag s.mem theBlock)
    let nextBlock := (theBlock + theSize) % 2 ^ 64
    if nextBlock = 0 then (TTOS_INVALID_ADDRESS, s)
    else if outside s.mem hcb nextBlock then (TTOS_UNSATISFIED, freeFail s)
    else if fflag s.mem theBlock ≠ bflag s.mem nextBlock then (TTOS_UNSATISFIED, freeFail s)
    else if bflag s.mem theBlock % 2 = 0 then
      let previousBlock := sub64 theBlock (sizeOf (bflag s.mem theBlock))
      if outside s.mem hcb previousBlock then (TTOS_UNSATISFIED, freeFail s)
      else if fflag s.mem nextBlock % 2 = 0 then
        freed theSize (sub32 s.ctl.freeBlocks 1) (mergeBoth previousBlock nextBlock theSize s.mem) s
      else freed theSize s.ctl.freeBlocks (mergePrevious previousBlock nextBlock theSize s.mem) s
    else if fflag s.mem nextBlock % 2 = 0 then
      freed theSize s.ctl.freeBlocks (mergeNext theBlock nextBlock theSize s.mem) s
    else freed theSize (inc32 s.ctl.freeBlocks) (pushBlock hcb theBlock nextBlock theSize s.mem) s
  | (code, _, s) => (code, s)

/-- `*size` is only written where the call succeeds. -/
def ttosGetBlockSizeHeap (hcb startingAddress : ℕ) (s : State) : ReturnCode × Option ℕ × State :=
  match findUsed hcb startingAddress s with
  | (TTOS_OK, theBlock, s) => (TTOS_OK, some (sizeOf (fflag s.mem theBlock)), s)
  | (code, _, s) => (code, none, s)

end Intewell.Heap
