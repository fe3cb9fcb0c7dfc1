import Mathlib.Tactic

/-!
# The physical page bitmap

`pmm_init`, `pmm_alloc_page` and `pmm_free_page` of `kernel/memory/pmm.c`: one bit per 4 KiB
frame, set when the frame is used. Initialisation clears the bits of the available regions of the
multiboot map and sets those of the page tables and the kernel again. Allocation scans the words
from the one of the last allocation on, wrapping round at `usable_end_words`.
-/

namespace DvivonOS

open Function

/-! ## Constants of `memory-defs.h`, `pmm.h` -/

def pageSize : ℕ := 4096

def maxPages : ℕ := 1048576

def bitmapEntryBits : ℕ := 32

def bitmapAllBitsSet : BitVec 32 := 0xFFFFFFFF

def kernelHigherHalf : ℕ := 0xC0000000

def pageTableCount : ℕ := 256

def memory4gbLimit : ℕ := 0x100000000

/-! ## Bits -/

abbrev PageBitmap := ℕ → BitVec 32

def clearBit (bit : ℕ) (bitmap : PageBitmap) : PageBitmap :=
  update bitmap (bit / bitmapEntryBits)
    (bitmap (bit / bitmapEntryBits) &&& ~~~(1#32 <<< (bit % bitmapEntryBits)))

def setBit (bit : ℕ) (bitmap : PageBitmap) : PageBitmap :=
  update bitmap (bit / bitmapEntryBits)
    (bitmap (bit / bitmapEntryBits) ||| (1#32 <<< (bit % bitmapEntryBits)))

def testBit (bit : ℕ) (bitmap : PageBitmap) : Bool :=
  (bitmap (bit / bitmapEntryBits)).getLsbD (bit % bitmapEntryBits)

/-! ## Allocation -/

/-- The bitmap with the two counters of `pmm.c`. -/
structure Pmm where
  bitmap : PageBitmap
  usableEndWords : ℕ
  lastAlloc : ℕ

/-- `__builtin_ffs`: one plus the index of the lowest set bit, or `0`. -/
def builtinFfs (w : BitVec 32) : ℕ :=
  match (List.range 32).find? (fun k => w.getLsbD k) with
  | some k => k + 1
  | none => 0

/-- The `do ... while (i != start)` loop of `pmm_alloc_page`. From a start below
`usable_end_words` it makes at most `usable_end_words` rounds, which is the fuel it is given. -/
def pmmScan (p : Pmm) (start : ℕ) : ℕ → ℕ → ℕ × Pmm
  | 0, _ => (0, p)
  | fuel + 1, i =>
    let word := p.bitmap i
    let ffs := builtinFfs (~~~word)
    if word ≠ bitmapAllBitsSet ∧ 0 < ffs then
      let bit := ffs - 1
      ((i * bitmapEntryBits + bit) * pageSize % 2 ^ 32,
        { p with bitmap := update p.bitmap i (word ||| (1#32 <<< bit)), lastAlloc := i })
    else
      let i := if p.usableEndWords ≤ i + 1 then 0 else i + 1
      if i = start then (0, p) else pmmScan p start fuel i

/-- Allocate a frame; the address of the frame, or `0` when every bit is set. -/
def pmmAllocPage (p : Pmm) : ℕ × Pmm :=
  if p.usableEndWords = 0 then (0, p)
  else pmmScan p p.lastAlloc p.usableEndWords p.lastAlloc

def pmmFreePage (p : Pmm) (addr : ℕ) : Pmm :=
  { p with bitmap := clearBit (addr / pageSize) p.bitmap }

/-! ## Initialisation -/

def multibootMemoryAvailable : ℕ := 1

/-- An entry of the multiboot memory map. The field `size`, which leads to the next entry, is the
list structure here. -/
structure MmapEntry where
  addr : ℕ
  len : ℕ
  type : ℕ

/-- `(entry->addr + PAGE_SIZE - 1) & ~(PAGE_SIZE - 1)` on `uint64_t`. -/
def MmapEntry.start (e : MmapEntry) : ℕ := (e.addr + (pageSize - 1)) % 2 ^ 64 / pageSize * pageSize

/-- `(entry->addr + entry->len) & ~(PAGE_SIZE - 1)` on `uint64_t`. -/
def MmapEntry.stop (e : MmapEntry) : ℕ := (e.addr + e.len) % 2 ^ 64 / pageSize * pageSize

/-- `for (addr = start; addr < end; addr += PAGE_SIZE)`, which clears the bits below 4 GiB. -/
def clearPages (stop : ℕ) : ℕ → ℕ → PageBitmap → PageBitmap
  | 0, _, bitmap => bitmap
  | fuel + 1, addr, bitmap =>
    if addr < stop then
      clearPages stop fuel ((addr + pageSize) % 2 ^ 64)
        (if addr < memory4gbLimit then clearBit (addr / pageSize % 2 ^ 32) bitmap else bitmap)
    else bitmap

/-- The loop over the memory map: the bitmap and `usable_end`. -/
def freeEntries : List MmapEntry → PageBitmap × ℕ → PageBitmap × ℕ
  | [], s => s
  | e :: es, (bitmap, usableEnd) =>
    if e.type = multibootMemoryAvailable then
      freeEntries es (clearPages e.stop ((e.stop - e.start) / pageSize + 1) e.start bitmap,
        if usableEnd < e.stop then e.stop else usableEnd)
    else freeEntries es (bitmap, usableEnd)

/-- `for (addr = kernel_start_phys; addr < kernel_end_phys; addr += PAGE_SIZE)`, which sets the bits
of the kernel. -/
def reservePages (stop : ℕ) : ℕ → ℕ → PageBitmap → PageBitmap
  | 0, _, bitmap => bitmap
  | fuel + 1, addr, bitmap =>
    if addr < stop then
      reservePages stop fuel ((addr + pageSize) % 2 ^ 32) (setBit (addr / pageSize) bitmap)
    else bitmap

/-- `pmm_init` with the addresses `_kernel_start` and `_kernel_end` of the linker script, from the
memory at `_pmm_bitmap_start`. -/
def pmmInit (kernelStart kernelEnd : ℕ) (mmap : List MmapEntry) (memory : PageBitmap) : Pmm :=
  let bitmap := fun i => if i < maxPages / bitmapEntryBits then bitmapAllBitsSet else memory i
  let (bitmap, usableEnd) := freeEntries mmap (bitmap, 0)
  let usableEndPages := (usableEnd + (pageSize - 1)) % 2 ^ 64 / pageSize % 2 ^ 32
  let usableEndWords := (usableEndPages + (bitmapEntryBits - 1)) % 2 ^ 32 / bitmapEntryBits
  let kernelEndPhys := (kernelEnd + 2 ^ 32 - kernelHigherHalf) % 2 ^ 32
  let bitmap := fun i => if i < pageTableCount / bitmapEntryBits then bitmapAllBitsSet else bitmap i
  let bitmap := reservePages kernelEndPhys ((kernelEndPhys - kernelStart) / pageSize + 1) kernelStart
    bitmap
  { bitmap := bitmap, usableEndWords := usableEndWords, lastAlloc := 0 }

end DvivonOS
