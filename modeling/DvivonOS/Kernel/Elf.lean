import DvivonOS.Memory.Vmm

/-!
# The ELF loader

`load_elf` of `kernel/elf.c` with `process_init` and `scheduler_add_process` of
`kernel/scheduler/scheduler.c`. The file is a buffer in kernel memory, read at offsets on 32 bits; what
is read is recorded. The results of the two calls of `kmalloc` are parameters, and a store through
the null pointer is a fault.
-/

namespace DvivonOS

/-! ## Constants of `elf.c`, `scheduler.h` -/

def ptLoad : ℕ := 1

def processStackTop : ℕ := 0xBFF00000

def userStackPages : ℕ := 4

/-! ## The file -/

/-- The buffer at 32-bit offsets. -/
def wrap32 (buffer : Bytes) : Bytes := fun i => buffer (i % 2 ^ 32)

def noteReads (offset n : ℕ) : VmM Unit :=
  modify fun m => { m with accesses := { m.accesses with
    reads := (List.range n).map (fun k => (offset + k) % 2 ^ 32) ++ m.accesses.reads } }

def fetch8 (buffer : Bytes) (offset : ℕ) : VmM UInt8 := do
  noteReads offset 1
  pure (wrap32 buffer offset)

def fetch16 (buffer : Bytes) (offset : ℕ) : VmM ℕ := do
  noteReads offset 2
  pure (Bytes.get16 (wrap32 buffer) offset)

def fetch32 (buffer : Bytes) (offset : ℕ) : VmM ℕ := do
  noteReads offset 4
  pure (Bytes.get32 (wrap32 buffer) offset)

/-- The test of `header->ident`. -/
def identOk (buffer : Bytes) : VmM Bool := do
  if (← fetch8 buffer 0) ≠ 0x7F then return false
  if (← fetch8 buffer 1) ≠ 0x45 then return false
  if (← fetch8 buffer 2) ≠ 0x4C then return false
  if (← fetch8 buffer 3) ≠ 0x46 then return false
  return true

/-! ## Processes -/

/-- The stack pages of a new process; `false` when a page cannot be allocated. -/
def allocStack : ℕ → VmM Bool
  | 0 => pure true
  | n + 1 => do
    if ← vmmAllocUserPageAt (processStackTop - (userStackPages - n) * pageSize) then allocStack n
    else return false

def processInit (kstack entry : ℕ) : VmM Process := do
  let pid := (← get).nextPid
  modify fun m => { m with nextPid := m.nextPid + 1 }
  if kstack = 0 then return ⟨pid, 0, 0, 0, none⟩
  let pdPhys ← vmmCreateAddressSpace
  let oldCr3 := (← get).cr3
  vmmSwitchAddressSpace pdPhys
  let ok ← allocStack userStackPages
  vmmSwitchAddressSpace oldCr3
  return ⟨pid, pdPhys, kstack, kstack + pageSize * 2, if ok then some entry else none⟩

def schedulerAddProcess (p : Process) : VmM Unit :=
  modify fun m => { m with runQueue := m.runQueue ++ [p] }

/-! ## Segments -/

/-- `for (vaddr = ph[i].vaddr; vaddr < ph[i].vaddr + ph[i].memsz; vaddr += PAGE_SIZE)`. The counter
comes back to its first value after `2 ^ 20` rounds, so a loop that has not ended then never ends. -/
def allocPages (stop : ℕ) : ℕ → ℕ → VmM Unit
  | 0, _ => throw .endless
  | fuel + 1, vaddr =>
    if vaddr < stop then do
      let _ ← vmmAllocUserPageAt (vaddr / pageSize * pageSize)
      allocPages stop fuel ((vaddr + pageSize) % 2 ^ 32)
    else pure ()

/-- The body of the loop over the program headers, for the header at `ph`. -/
def loadSegment (buffer : Bytes) (ph : ℕ) : VmM Unit := do
  let type ← fetch32 buffer ph
  if type = ptLoad then
    let vaddr ← fetch32 buffer (ph + 8)
    let memsz ← fetch32 buffer (ph + 20)
    allocPages ((vaddr + memsz) % 2 ^ 32) (2 ^ 20 + 1) vaddr
    let offset ← fetch32 buffer (ph + 4)
    let filesz ← fetch32 buffer (ph + 16)
    storeBytes (fun k => fetch8 buffer (offset + k)) vaddr filesz
    if filesz < memsz then memset ((vaddr + filesz) % 2 ^ 32) 0 (memsz - filesz)

def loadSegments (buffer : Bytes) : List ℕ → VmM Unit
  | [] => pure ()
  | ph :: phs => do
    loadSegment buffer ph
    loadSegments buffer phs

def headerOffsets (phOffset n : ℕ) : List ℕ := (List.range n).map fun i => phOffset + 32 * i

/-- `load_elf`, which does not look at the size of the buffer. -/
def loadElf (proc kstack : ℕ) (buffer : Bytes) (_size : ℕ) : VmM ℤ := do
  if !(← identOk buffer) then return -1
  if proc = 0 then throw .pageFault
  let entry ← fetch32 buffer 24
  let p ← processInit kstack entry
  let oldCr3 := (← get).cr3
  vmmSwitchAddressSpace p.pdPhys
  let phOffset ← fetch32 buffer 28
  let phCount ← fetch16 buffer 44
  loadSegments buffer (headerOffsets phOffset phCount)
  vmmSwitchAddressSpace oldCr3
  schedulerAddProcess p
  return 0

end DvivonOS
