import DvivonOS.Lib.Bytes
import DvivonOS.Lib.Wp
import DvivonOS.Memory.Pmm

/-!
# The kernel heap allocator

`kernel/memory/heap-allocator.c`: boundary-tag blocks over the kernel memory from `KHEAP_START`
on, with an intrusive doubly linked list of free blocks. A block is a 4-byte header
`size_and_flags`, a payload and a 4-byte footer that repeats the header; a free block keeps its
two links in the first eight payload bytes, so the footer of a 12-byte free block *is* its
`prev_free` link.

Kernel memory is a byte function with a present bit per page: an access to a page that is not
present stops the run with the fault address. Addresses and sizes are 32-bit words.
-/

namespace DvivonOS

/-! ## Constants of `heap-allocator.h`, `memory-defs.h`, `vmm.h` -/

def blockAlign : ℕ := 4

def blockFree : ℕ := 0x1

def kheapStart : ℕ := 0xC1000000

def kheapEnd : ℕ := 0xC2000000

/-- `MEMORY_SPACE`, a 33-bit constant. -/
def memorySpace : ℕ := 0x100000000

def ptsWindow : ℕ := 0xFFC00000

def ptsScratchWindow : ℕ := 0xFF800000

def sizeofHeader : ℕ := 4

/-- `sizeof(free_block_header_t)`: the header and the two links. -/
def sizeofFreeHeader : ℕ := 12

def alignUp (x : ℕ) : ℕ := add32 x (blockAlign - 1) &&& (0xFFFFFFFF ^^^ (blockAlign - 1))

def nextFree (b : ℕ) : ℕ := b + 4

def prevFree (b : ℕ) : ℕ := b + 8

/-- The block size `kmalloc` looks for: the aligned request with header and footer, and room
for the links once it is free again. -/
def wantedSize (size : ℕ) : ℕ :=
  let size := add32 (alignUp size) (2 * sizeofHeader)
  if size < sizeofFreeHeader then sizeofFreeHeader else size

/-! ## The code

The functions are written over any monad that can load and store words, keep the two globals and
grow the heap by a page: that of the model below, one that records the accesses (`Heap.Accesses`)
and the machine with its page tables (`Memory.PagedHeap`). -/

namespace HeapCode

/-- What `heap-allocator.c` needs: words, its two globals, and the next page of the heap. -/
class HeapOps (m : Type → Type) where
  load : ℕ → m ℕ
  store : ℕ → ℕ → m Unit
  freeListHead : m ℕ
  setFreeListHead : ℕ → m Unit
  heapMax : m ℕ
  /-- `vmm_alloc_kernel_page_at (heap_max)`, and `heap_max += PAGE_SIZE` behind it. -/
  nextPage : m Bool
  /-- The fuel of a loop has run out. -/
  stop {α : Type} : m α

export HeapOps (load store freeListHead setFreeListHead heapMax nextPage stop)

section Code

variable {m : Type → Type} [Monad m] [HeapOps m]

/-! ### Header macros -/

def getSize (b : ℕ) : m ℕ := do return (← load b) &&& (0xFFFFFFFF ^^^ blockFree)

def setSize (b sz : ℕ) : m Unit := do store b (((← load b) &&& blockFree) ||| sz)

def isFree (b : ℕ) : m Bool := do return ((← load b) &&& blockFree) != 0

def setFree (b : ℕ) : m Unit := do store b ((← load b) ||| blockFree)

def clearFree (b : ℕ) : m Unit := do store b ((← load b) &&& (0xFFFFFFFF ^^^ blockFree))

/-! ### Blocks and the free list -/

def getFooter (header : ℕ) : m ℕ := do
  return sub32 (add32 header (← getSize header)) sizeofHeader

def updateFooter (header : ℕ) : m Unit := do
  let footer ← getFooter header
  store footer (← load header)

def createFreeBlock (addr size : ℕ) : m ℕ := do
  setSize addr size
  setFree addr
  updateFooter addr
  store (prevFree addr) 0
  store (nextFree addr) 0
  return addr

def addFreeBlock (block : ℕ) : m Unit := do
  let head ← freeListHead
  store (nextFree block) head
  if head ≠ 0 then store (prevFree head) block
  store (prevFree block) 0
  setFreeListHead block

def removeFreeBlock (block : ℕ) : m Unit := do
  let p ← load (prevFree block)
  let n ← load (nextFree block)
  if p ≠ 0 then store (nextFree p) n
  else setFreeListHead n
  let n ← load (nextFree block)
  let p ← load (prevFree block)
  if n ≠ 0 then store (prevFree n) p
  store (prevFree block) 0
  store (nextFree block) 0

def coalesceBlocks (a b : ℕ) : m Unit := do
  removeFreeBlock b
  let sa ← getSize a
  let sb ← getSize b
  setSize a (add32 sa sb)
  setFree a
  updateFooter a

/-- The bound `(uintptr_t)MEMORY_SPACE` is the 33-bit constant truncated to 32 bits. -/
def coalesceWithNext (block : ℕ) : m Unit := do
  let next := add32 block (← getSize block)
  if (← heapMax) < next ∨ memorySpace % 2 ^ 32 ≤ next then return ()
  else if ← isFree next then coalesceBlocks block next
  else return ()

/-- `heap_start` is a file-local variable that is never assigned, so the first test compares
with `0`. -/
def coalesceWithPrev (block : ℕ) : m Unit := do
  if block ≤ 0 then return ()
  else
    let prevFooter := sub32 block sizeofHeader
    if prevFooter ≤ kheapStart then return ()
    else if ← isFree prevFooter then
      let prevBlock := sub32 block (← getSize prevFooter)
      coalesceBlocks prevBlock block
    else return ()

def splitBlock (block wantSize : ℕ) : m ℕ := do
  let currentSize ← getSize block
  if currentSize < add32 wantSize sizeofFreeHeader then return 0
  else
    let newAddr := add32 block wantSize
    let newSize := sub32 currentSize wantSize
    setSize block wantSize
    updateFooter block
    let newBlock ← createFreeBlock newAddr newSize
    addFreeBlock newBlock
    return newBlock

def allocateNewHeapPage : m Bool := do
  let addr ← heapMax
  let page ← nextPage
  if !page then return false
  else
    let block ← createFreeBlock addr pageSize
    addFreeBlock block
    coalesceWithPrev block
    return page

/-! ### `kmalloc` and `kfree` -/

/-- Take the free block `cur` off the list, splitting off what is more than `size`. -/
def takeBlock (cur currentSize size : ℕ) : m ℕ := do
  removeFreeBlock cur
  clearFree cur
  if add32 size sizeofFreeHeader ≤ currentSize then
    let _ ← splitBlock cur size
    return cur + sizeofHeader
  else
    updateFooter cur
    return cur + sizeofHeader

/-- The first-fit loop of `kmalloc` from the free block `cur` on. -/
def firstFit (size : ℕ) : ℕ → ℕ → m (Option ℕ)
  | 0, _ => stop
  | fuel + 1, cur => do
    if cur = 0 then return none
    else
      let currentSize ← getSize cur
      if size ≤ currentSize then return some (← takeBlock cur currentSize size)
      else firstFit size fuel (← load (nextFree cur))

/-- `kmalloc` with a bound on the number of its recursive retries. -/
def kmallocFuel : ℕ → ℕ → m ℕ
  | 0, _ => stop
  | fuel + 1, size => do
    let size := wantedSize size
    let ready ← if (← freeListHead) = 0 then allocateNewHeapPage else pure true
    if !ready then return 0
    else
      match ← firstFit size (← heapMax) (← freeListHead) with
      | some ptr => return ptr
      | none =>
        if !(← allocateNewHeapPage) then return 0
        else kmallocFuel fuel (sub32 size (2 * sizeofHeader))

/-- `kmalloc`. Every retry has grown the heap by a page, and the heap cannot grow past
`PTS_SCRATCH_WINDOW`, so the retries are fewer than the pages up to there. -/
def kmalloc (size : ℕ) : m ℕ := do
  kmallocFuel ((ptsScratchWindow - (← heapMax)) / pageSize + 2) size

def kfree (ptr : ℕ) : m Unit := do
  if ptr = 0 then return ()
  else
    let block := sub32 ptr sizeofHeader
    setFree block
    updateFooter block
    addFreeBlock block
    coalesceWithPrev block
    coalesceWithNext block

end Code

end HeapCode

/-! ## The model -/

/-- Why a run stops short of returning: a page fault at an address, or a fuel bound too small
for the loop it was given to (never the case, see `kmalloc_wp`). -/
inductive Stop
  | fault (addr : ℕ)
  | outOfFuel
  deriving DecidableEq

/-- Kernel memory, the frame allocator behind it, and the two globals of the heap. -/
structure Heap where
  mem : Bytes
  /-- Present kernel pages, by page number. -/
  mapped : ℕ → Bool
  pmm : Pmm
  freeListHead : ℕ
  heapMax : ℕ

abbrev HeapM := StateT Heap (Except Stop)

/-- `vmm_alloc_kernel_page_at`: take a frame, enter it in the page table of `vaddr` through the
recursive window, and zero the page. Directory entry 1022 is not present, so the window address
of a page table at or above `PTS_SCRATCH_WINDOW` faults. -/
def vmmAllocKernelPageAt (vaddr : ℕ) : HeapM Bool := do
  let h ← get
  let (phys, pmm) := pmmAllocPage h.pmm
  set { h with pmm := pmm }
  if phys = 0 then return false
  else if ptsScratchWindow ≤ vaddr then throw (.fault (ptsWindow + 4 * (vaddr / pageSize)))
  else
    modify fun h => { h with
      mapped := Function.update h.mapped (vaddr / pageSize) true
      mem := h.mem.fill vaddr 0 pageSize }
    return true

def nextHeapPage : HeapM Bool := do
  let page ← vmmAllocKernelPageAt (← get).heapMax
  if !page then return false
  else
    modify fun h => { h with heapMax := add32 h.heapMax pageSize }
    return page

instance : HeapCode.HeapOps HeapM where
  load a := do
    let h ← get
    if h.mapped (a / pageSize) ∧ h.mapped ((a + 3) / pageSize) then return h.mem.get32 a
    else throw (.fault a)
  store a v := do
    let h ← get
    if h.mapped (a / pageSize) ∧ h.mapped ((a + 3) / pageSize) then
      set { h with mem := h.mem.put32 a v }
    else throw (.fault a)
  freeListHead := do return (← get).freeListHead
  setFreeListHead b := modify fun h => { h with freeListHead := b }
  heapMax := do return (← get).heapMax
  nextPage := nextHeapPage
  stop := throw .outOfFuel

abbrev kmalloc (size : ℕ) : HeapM ℕ := HeapCode.kmalloc size

abbrev kfree (ptr : ℕ) : HeapM Unit := HeapCode.kfree ptr

def Heap.empty (mem : Bytes) (pmm : Pmm) : Heap where
  mem := mem
  mapped := fun _ => false
  pmm := pmm
  freeListHead := 0
  heapMax := kheapStart

end DvivonOS
