import DvivonOS.Lib.Bytes
import DvivonOS.Lib.Wp
import DvivonOS.Memory.Pmm

/-!
# Address spaces

The functions of `kernel/memory/vmm.c` and `lib/string.c` that `load_elf` runs on: page directories
and page tables as the recursive windows show them, physical memory byte by byte, and virtual stores
that go through the tables of the current address space. A store to a page that is not present is a
fault.

Every store and every mapping is recorded, with the address space it is made in.
-/

namespace DvivonOS

open Function

/-! ## The machine -/

/-- A process: the fields of `process_t` without the list pointer, and the entry point in the frame
on its kernel stack once the stack is primed. -/
structure Process where
  pid : ℕ
  pdPhys : ℕ
  kernelStackBase : ℕ
  kernelStackTop : ℕ
  entry : Option ℕ

/-- What has been accessed: the bytes of the file by offset, the mapped pages and the stored bytes
by address space. -/
structure Accesses where
  reads : List ℕ
  maps : List (ℕ × ℕ)
  writes : List (ℕ × ℕ)

/-- `pd` gives the page tables of a page directory and `pt` the frames of a page table, by physical
address; kernel page tables are shared by all directories. -/
structure Machine where
  pmm : Pmm
  byte : ℕ → UInt8
  pd : ℕ → ℕ → Option ℕ
  pt : ℕ → ℕ → Option ℕ
  cr3 : ℕ
  nextPid : ℕ
  runQueue : List Process
  accesses : Accesses

/-- Why a computation does not return. -/
inductive VmStop
  | pageFault
  | endless

abbrev VmM := StateT Machine (Except VmStop)

/-! ## Virtual memory -/

namespace Machine

/-- The physical address behind a virtual one. -/
def translate (m : Machine) (vaddr : ℕ) : Option ℕ :=
  (m.pd m.cr3 (vaddr / 2 ^ 22)).bind fun table =>
    (m.pt table (vaddr / pageSize % 1024)).map fun frame => frame + vaddr % pageSize

end Machine

def storeByte (vaddr : ℕ) (b : UInt8) : VmM Unit := do
  let m ← get
  match m.translate vaddr with
  | none => throw .pageFault
  | some a => set { m with
      byte := update m.byte a b
      accesses := { m.accesses with writes := (m.cr3, vaddr) :: m.accesses.writes } }

/-- The loops of `memcpy` and `memset`: `n` bytes from `src` to `vaddr`. -/
def storeBytes (src : ℕ → VmM UInt8) (vaddr : ℕ) : ℕ → VmM Unit
  | 0 => pure ()
  | n + 1 => do
    storeBytes src vaddr n
    let b ← src n
    storeByte ((vaddr + n) % 2 ^ 32) b

@[irreducible] def memset (vaddr : ℕ) (value : UInt8) (size : ℕ) : VmM Unit :=
  storeBytes (fun _ => pure value) vaddr size

/-! ## `vmm.c` -/

/-- `pmm_alloc_page` on the machine. -/
def allocFrame : VmM ℕ := do
  let m ← get
  set { m with pmm := (pmmAllocPage m.pmm).2 }
  pure (pmmAllocPage m.pmm).1

def vmmSwitchAddressSpace (physAddr : ℕ) : VmM Unit := do
  if physAddr ≠ 0 then modify fun m => { m with cr3 := physAddr }

/-- `vmm_set_pte_at` through `PTS_WINDOW`. -/
def vmmSetPteAt (vaddr physAddr : ℕ) : VmM Unit := do
  let m ← get
  match m.pd m.cr3 (vaddr / 2 ^ 22) with
  | none => throw .pageFault
  | some table => set { m with
      pt := update m.pt table
        (update (m.pt table) (vaddr / pageSize % 1024) (some physAddr))
      accesses := { m.accesses with maps := (m.cr3, vaddr / pageSize) :: m.accesses.maps } }

/-- A new page table for `vaddr`, cleared. -/
def Machine.setTable (m : Machine) (vaddr table : ℕ) : Machine :=
  { m with
    pd := update m.pd m.cr3
      (update (m.pd m.cr3) (vaddr / 2 ^ 22) (some table))
    pt := update m.pt table fun _ => none }

def vmmMapUserPage (vaddr physAddr : ℕ) : VmM Unit := do
  let m ← get
  if m.pd m.cr3 (vaddr / 2 ^ 22) = none then
    let newPtPhys ← allocFrame
    if newPtPhys = 0 then return
    modify fun m => m.setTable vaddr newPtPhys
  vmmSetPteAt vaddr physAddr

def vmmAllocUserPageAt (vaddr : ℕ) : VmM Bool := do
  let phys ← allocFrame
  if phys = 0 then return false
  vmmMapUserPage vaddr phys
  memset vaddr 0 pageSize
  return true

/-- `vmm_create_address_space`: an empty user half, the kernel's page tables and the reference of
the directory to itself. The scratch slot 1022 of the new directory is left as it is. -/
def vmmCreateAddressSpace : VmM ℕ := do
  let newPdPhys ← allocFrame
  if newPdPhys = 0 then return 0
  modify fun m =>
    let current := m.pd m.cr3
    let newPd := fun i =>
      if i < 768 then none
      else if i < 1022 then current i
      else if i = 1023 then some newPdPhys
      else m.pd newPdPhys i
    { m with
      pd := update (update m.pd newPdPhys newPd) m.cr3
        (update current 1022 none) }
  return newPdPhys

end DvivonOS
