import DvivonOS.Memory.SharedKernel

/-!
# Pages of the kernel on demand

`vmm_alloc_kernel_page` and `vmm_free_kernel_page` of `vmm.c` on the machine. Freed pages stay mapped
and are kept in a doubly linked list whose links are the first two words of the pages themselves;
the page at the tail is handed out again first, and is unmapped when the list grows too long. Without
a page in the list the lowest page of the kernel half that is not mapped is taken.
-/

namespace DvivonOS.Windows.Pool

open Paging

/-! ## Globals -/

def vmmFreeListMaxSize : ℕ := 128

/-- `free_list` and `last_free`. -/
structure PoolVars where
  head : ℕ
  tail : ℕ
  count : ℕ
  lastFree : ℕ

def PoolVars.init : PoolVars := ⟨0, 0, 0, kernelHigherHalf⟩

abbrev PoolM := StateT PoolVars VmmM

/-! ## The list -/

def nextField (node : ℕ) : ℕ := node

def prevField (node : ℕ) : ℕ := node + 4

def loadField (a : ℕ) : VmmM ℕ := load32 a

def storeField (a value : ℕ) : VmmM Unit := store32 a value

def freeListAdd (node : ℕ) : PoolM Unit := do
  let list ← get
  storeField (nextField node) list.head
  storeField (prevField node) 0
  if list.head ≠ 0 then storeField (prevField list.head) node
  else modify fun l => { l with tail := node }
  modify fun l => { l with head := node, count := add32 l.count 1 }

def freeListPop : PoolM ℕ := do
  let list ← get
  if list.tail = 0 then return 0
  else
    let node := list.tail
    let prev ← loadField (prevField node)
    modify fun l => { l with tail := prev }
    if prev ≠ 0 then storeField (nextField prev) 0
    else modify fun l => { l with head := 0 }
    storeField (prevField node) 0
    storeField (nextField node) 0
    modify fun l => { l with count := sub32 l.count 1 }
    return node

/-! ## Allocation -/

/-- The `do` loop of `vmm_alloc_kernel_page`. In 32 bits `i` is back at `start` after `2 ^ 20` pages,
and is never `MEMORY_SPACE`. -/
def searchLoop (start : ℕ) : ℕ → ℕ → VmmM ℕ
  | 0, _ => pure 0
  | n + 1, i => do
    let i := if memorySpace ≤ i then kernelHigherHalf else i
    let mapped ← vmmIsMapped i
    let done ← if mapped then pure false else vmmAllocKernelPageAt i
    if done then return i
    else if add32 i pageSize ≠ start then searchLoop start n (add32 i pageSize)
    else return 0

def pageAlignUp (x : ℕ) : ℕ := frameOf (add32 x (pageSize - 1))

def vmmAllocKernelPage : PoolM ℕ := do
  let list ← get
  if 0 < list.count then freeListPop
  else
    modify fun l => { l with
      lastFree := if l.lastFree < kernelHigherHalf ∨ memorySpace ≤ l.lastFree then kernelHigherHalf
        else l.lastFree }
    let start := pageAlignUp (← get).lastFree
    searchLoop start (2 ^ 20) start

/-! ## Release -/

/-- `while (free_list.count > VMM_FREE_LIST_MAX_SIZE)`, of which every round takes a page from the
list. -/
def evictLoop : ℕ → PoolM Unit
  | 0 => pure ()
  | n + 1 => do
    let list ← get
    if vmmFreeListMaxSize < list.count then
      let toFree ← freeListPop
      if toFree = 0 then return
      else
        let phys ← vmmVirtToPhys toFree
        if phys ≠ 0 then
          vmmUnmapPage toFree
          freePage phys
        evictLoop n
    else return

def vmmFreeKernelPage (vaddr : ℕ) : PoolM Unit := do
  if vaddr % pageSize ≠ 0 then return
  else
    freeListAdd vaddr
    let list ← get
    evictLoop list.count

end DvivonOS.Windows.Pool
