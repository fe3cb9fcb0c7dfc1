import DvivonOS.Heap.Model
import DvivonOS.Lib.Paging

/-!
# Address spaces through the recursive windows

`kernel/memory/vmm.c` on physical memory: every directory and table is a frame, and the code edits
them at the virtual addresses at which slot 1023 of the current directory shows them. `Memory.Vmm`
has the same functions on tables that are kept apart from memory.

The page bitmap is the rest of the state; it is not reached through these windows.
-/

namespace DvivonOS.Windows

open Paging

/-! ## Constants of `vmm.h` -/

def pagePresent : ℕ := 0x001

def pageRw : ℕ := 0x002

def pageUser : ℕ := 0x004

def pageGlobal : ℕ := 0x100

def pdWindow : ℕ := 0xFFFFF000

def pdScratchWindow : ℕ := 0xFFFFE000

/-! ## Memory and frames -/

abbrev VmmM := MmuM Pmm

/-- The address of `window[i]` for an array of `uint32_t`. -/
def wordAt (window i : ℕ) : ℕ := add32 window (4 * i)

/-- `memset` of `lib/string.c`. -/
def memset (vaddr : ℕ) (value : UInt8) (size : ℕ) : VmmM Unit :=
  repeatTo size fun i => store8 (add32 vaddr i) value

def allocPage : VmmM ℕ := onRest pmmAllocPage

def freePage (addr : ℕ) : VmmM Unit := onRest fun p => ((), pmmFreePage p addr)

/-! ## `vmm.c` -/

def vmmSwitchAddressSpace (physAddr : ℕ) : VmmM Unit := do
  if physAddr ≠ 0 then
    writeCr3 physAddr
    -- `vmm_flush_cr3`
    let cr3 ← readCr3
    writeCr3 cr3

def vmmVirtToPhys (vaddr : ℕ) : VmmM ℕ := do
  let pde ← load32 (wordAt pdWindow (vaddr / 2 ^ 22))
  if ¬IsPresent pde then return 0
  let pte ← load32 (wordAt ptsWindow (vaddr / 2 ^ 12))
  if ¬IsPresent pte then return 0
  return frameOf pte + vaddr % 4096

def vmmIsMapped (vaddr : ℕ) : VmmM Bool := do
  let pde ← load32 (wordAt pdWindow (vaddr / 2 ^ 22))
  if ¬IsPresent pde then return false
  let pte ← load32 (wordAt ptsWindow (vaddr / 2 ^ 12))
  return IsPresent pte

def vmmSetPdeAt (windowBase vaddr paddr flags : ℕ) : VmmM Unit :=
  store32 (wordAt windowBase (vaddr / 2 ^ 22)) (frameOf paddr ||| flags)

def vmmSetPteAt (windowBase vaddr paddr flags : ℕ) : VmmM Unit := do
  store32 (wordAt windowBase (vaddr / 2 ^ 12)) (frameOf paddr ||| flags)
  if windowBase = ptsWindow then invlpg vaddr

def vmmMapKernelPage (vaddr physAddr : ℕ) : VmmM Unit :=
  vmmSetPteAt ptsWindow vaddr physAddr (pagePresent ||| pageRw ||| pageGlobal)

def vmmMapUserPage (vaddr physAddr : ℕ) : VmmM Unit := do
  let pdIdx := vaddr / 2 ^ 22
  let pde ← load32 (wordAt pdWindow pdIdx)
  if ¬IsPresent pde then
    let newPtPhys ← allocPage
    if newPtPhys = 0 then return
    vmmSetPdeAt pdWindow vaddr newPtPhys (pagePresent ||| pageRw ||| pageUser)
    let ptVaddr := ptsWindow + pdIdx * pageSize
    invlpg ptVaddr
    memset ptVaddr 0 pageSize
  vmmSetPteAt ptsWindow vaddr physAddr (pagePresent ||| pageRw ||| pageUser)

def vmmUnmapPage (vaddr : ℕ) : VmmM Unit := vmmSetPteAt ptsWindow vaddr 0 0

def vmmAllocKernelPageAt (vaddr : ℕ) : VmmM Bool := do
  let phys ← allocPage
  if phys = 0 then return false
  vmmMapKernelPage vaddr phys
  memset vaddr 0 pageSize
  return true

def vmmAllocUserPageAt (vaddr : ℕ) : VmmM Bool := do
  let phys ← allocPage
  if phys = 0 then return false
  vmmMapUserPage vaddr phys
  memset vaddr 0 pageSize
  return true

def vmmFreeUserPage (vaddr : ℕ) : VmmM Unit := do
  let paddr ← vmmVirtToPhys vaddr
  if paddr ≠ 0 then
    vmmUnmapPage vaddr
    freePage paddr

/-- The body of the loop of `vmm_create_address_space` over the entries of the kernel. -/
def copyEntry (i : ℕ) : VmmM Unit := do
  let pde ← load32 (wordAt pdWindow i)
  store32 (wordAt pdScratchWindow i) pde

def vmmCreateAddressSpace : VmmM ℕ := do
  let newPdPhys ← allocPage
  if newPdPhys = 0 then return 0
  let kernelEntry := newPdPhys ||| pagePresent ||| pageRw ||| pageGlobal
  store32 (wordAt pdWindow 1022) kernelEntry
  invlpg pdScratchWindow
  repeatTo 768 fun i => store32 (wordAt pdScratchWindow i) 0
  repeatTo 254 fun n => copyEntry (768 + n)
  store32 (wordAt pdScratchWindow 1023) kernelEntry
  store32 (wordAt pdWindow 1022) 0
  invlpg pdScratchWindow
  return newPdPhys

/-- The body of the loop of `vmm_destroy_address_space` over the tables of the victim. -/
def destroyTable (i : ℕ) : VmmM Unit := do
  let pde ← load32 (wordAt pdScratchWindow i)
  if IsPresent pde then
    repeatTo 1024 fun j => do
      let pte ← load32 (wordAt ptsScratchWindow (i * 1024 + j))
      if IsPresent pte then
        let pte ← load32 (wordAt ptsScratchWindow (i * 1024 + j))
        freePage (frameOf pte)
    let pde ← load32 (wordAt pdScratchWindow i)
    freePage (frameOf pde)

def vmmDestroyAddressSpace (pdPhys : ℕ) : VmmM Unit := do
  vmmSetPdeAt pdWindow pdScratchWindow pdPhys (pagePresent ||| pageRw)
  repeatTo 768 destroyTable
  vmmSetPteAt pdWindow pdScratchWindow 0 0
  freePage pdPhys

/-! ## The windows -/

theorem wordAt_pdWindow {i : ℕ} (hi : i < 1024) : wordAt pdWindow i = windowWord 1023 i := by
  unfold wordAt add32 pdWindow windowWord
  omega

theorem wordAt_pdScratchWindow {i : ℕ} (hi : i < 1024) :
    wordAt pdScratchWindow i = windowWord 1022 i := by
  unfold wordAt add32 pdScratchWindow windowWord
  omega

theorem wordAt_ptsWindow {p : ℕ} (hp : p < 2 ^ 20) :
    wordAt ptsWindow p = windowWord (p / 1024) (p % 1024) := by
  unfold wordAt add32 ptsWindow windowWord
  omega

theorem frameOf_or {paddr flags : ℕ} (hf : flags < 4096) :
    frameOf paddr ||| flags = frameOf paddr + flags := by
  have h := Nat.shiftLeft_add_eq_or_of_lt (i := 12) hf (paddr / 4096)
  rw [Nat.shiftLeft_eq] at h
  exact h.symm

end DvivonOS.Windows
