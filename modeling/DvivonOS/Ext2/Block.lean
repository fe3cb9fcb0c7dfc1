import DvivonOS.Ext2.Volume

/-!
# Block allocation and block maps

`block.c`: the block bitmaps, and the translation of the logical blocks of a file through the
direct and indirect pointers of its inode.
-/

namespace DvivonOS

/-! ## Bitmaps -/

/-- The scan of a bitmap for its first clear bit below `bits`. -/
def findClear (bitmap : Bytes) (bits : ℕ) : Option ℕ :=
  (List.range bits).find? fun i => !bitmap.bit i

/-- The two bitmaps of a group. `ext2_alloc_inode` and `ext2_free_inode` are `ext2_alloc_block` and
`ext2_free_block` with other fields. -/
inductive Kind
  | block
  | inode
  deriving DecidableEq

namespace Kind

/-- The offset of `bg_free_blocks_count` or `bg_free_inodes_count`. -/
def gdOff : Kind → ℕ
  | block => 12
  | inode => 14

/-- The offset of `s_free_blocks_count` or `s_free_inodes_count`. -/
def sbOff : Kind → ℕ
  | block => 12
  | inode => 16

end Kind

namespace Vol

variable (v : Vol)

def bgBitmap : Kind → ℕ → ℕ
  | .block => v.bgBlockBitmap
  | .inode => v.bgInodeBitmap

def sPerGroup : Kind → ℕ
  | .block => v.sBlocksPerGroup
  | .inode => v.sInodesPerGroup

/-- The number that the first bit of the first group stands for. -/
def firstNumber : Kind → ℕ
  | .block => v.sFirstDataBlock
  | .inode => 1

/-- The number of valid bits of the bitmap of group `g`: the last group may have fewer blocks. -/
def groupBits : Kind → ℕ → ℕ
  | .block, g =>
    if g = v.groupsCount - 1 then
      let rem := sub32 (sub32 v.sBlocksCount (g * v.sBlocksPerGroup % 2 ^ 32)) v.sFirstDataBlock
      if rem < v.sBlocksPerGroup then rem else v.sBlocksPerGroup
    else v.sBlocksPerGroup
  | .inode, _ => v.sInodesPerGroup

/-- Add `d` to the free counts of group `g` and of the volume. -/
def addFree (k : Kind) (g d : ℕ) : Vol :=
  { v with
    gd := Function.update v.gd g ((v.gd g).put16 k.gdOff ((v.gd g).get16 k.gdOff + d))
    sb := v.sb.put32 k.sbOff (v.sb.get32 k.sbOff + d) }

end Vol

/-- The loop of the allocators over the `n` groups from `g` on. -/
def allocLoop (k : Kind) : ℕ → ℕ → FsM ℕ
  | 0, _ => return 0
  | n + 1, g => do
    let v ← get
    if (v.gd g).get16 k.gdOff = 0 then allocLoop k n (g + 1)
    else
      let (_, bitmap) ← ext2ReadBlock (v.bgBitmap k g)
      match findClear bitmap (v.groupBits k g) with
      | none => allocLoop k n (g + 1)
      | some i =>
        let _ ← ext2WriteBlock (v.bgBitmap k g) (bitmap.setBit i)
        modify fun v => v.addFree k g (2 ^ 32 - 1)
        let _ ← ext2FlushGroupDesc g
        let _ ← ext2FlushSuperblock
        return add32 (v.firstNumber k) (g * v.sPerGroup k + i)

def ext2Alloc (k : Kind) : FsM ℕ := do
  let v ← get
  if v.sb.get32 k.sbOff = 0 then return 0
  else if !(← kmallocOk) then return 0
  else allocLoop k v.groupsCount 0

def ext2Free (k : Kind) (n : ℕ) : FsM Unit := do
  let v ← get
  let rel := sub32 n (v.firstNumber k)
  let group := rel / v.sPerGroup k
  let index := rel % v.sPerGroup k
  if !(← kmallocOk) then return ()
  else
    let (_, bitmap) ← ext2ReadBlock (v.bgBitmap k group)
    let _ ← ext2WriteBlock (v.bgBitmap k group) (bitmap.clearBit index)
    modify fun v => v.addFree k group 1
    let _ ← ext2FlushGroupDesc group
    let _ ← ext2FlushSuperblock
    return ()

def ext2AllocBlock : FsM ℕ := ext2Alloc .block

def ext2FreeBlock (block : ℕ) : FsM Unit := ext2Free .block block

/-! ## Block maps -/

def iBlock (x : Bytes) (k : ℕ) : ℕ := x.get32 (40 + 4 * k)

def setIBlock (x : Bytes) (k block : ℕ) : Bytes := x.put32 (40 + 4 * k) block

def ptrAt (buf : Bytes) (j : ℕ) : ℕ := buf.get32 (4 * j)

/-- Allocate a block and zero it. -/
def ext2AllocIndirectBlock : FsM ℕ := do
  let blk ← ext2AllocBlock
  if blk = 0 then return 0
  else if !(← kmallocOk) then
    ext2FreeBlock blk
    return 0
  else
    let _ ← ext2WriteBlock blk Bytes.zero
    return blk

/-- The disk block of logical block `logicalBlock` of the inode `x`, or `0` for a hole. -/
def ext2ResolveBlockNum (x : Bytes) (logicalBlock blockSize : ℕ) : FsM ℕ := do
  let ptrs := blockSize / 4
  if logicalBlock < 12 then return iBlock x logicalBlock
  else
    let l := logicalBlock - 12
    if l < ptrs then
      if iBlock x 12 = 0 then return 0
      else if !(← kmallocOk) then return 0
      else
        let (_, ind) ← ext2ReadBlock (iBlock x 12)
        return ptrAt ind l
    else
      let l := l - ptrs
      if l < ptrs * ptrs then
        if iBlock x 13 = 0 then return 0
        else if !(← kmallocOk) then return 0
        else
          let (_, ind) ← ext2ReadBlock (iBlock x 13)
          let singlyBlk := ptrAt ind (l / ptrs)
          if singlyBlk = 0 then return 0
          else
            let (_, ind) ← ext2ReadBlock singlyBlk
            return ptrAt ind (l % ptrs)
      else
        let l := l - ptrs * ptrs
        if iBlock x 14 = 0 then return 0
        else if !(← kmallocOk) then return 0
        else
          let (_, ind) ← ext2ReadBlock (iBlock x 14)
          let rem := l % (ptrs * ptrs)
          let dblBlk := ptrAt ind (l / (ptrs * ptrs))
          if dblBlk = 0 then return 0
          else
            let (_, ind) ← ext2ReadBlock dblBlk
            let sglBlk := ptrAt ind (rem / ptrs)
            if sglBlk = 0 then return 0
            else
              let (_, ind) ← ext2ReadBlock sglBlk
              return ptrAt ind (rem % ptrs)

/-- The allocation of a missing indirect block in slot `k` of the inode `x`. -/
def ensureSlot (x : Bytes) (k : ℕ) : FsM Bytes := do
  if iBlock x k = 0 then
    let blk ← ext2AllocIndirectBlock
    return setIBlock x k blk
  else return x

/-- Enter `physBlock` at `logicalBlock` in the block map of the inode `x`: the status and the
inode. Triple indirection is not implemented. -/
def ext2AssignBlockNum (x : Bytes) (logicalBlock physBlock blockSize : ℕ) : FsM (ℤ × Bytes) := do
  let ptrs := blockSize / 4
  if logicalBlock < 12 then return (0, setIBlock x logicalBlock physBlock)
  else
    let l := logicalBlock - 12
    if l < ptrs then
      let x ← ensureSlot x 12
      if iBlock x 12 = 0 then return (-1, x)
      else if !(← kmallocOk) then return (-1, x)
      else
        let (_, ind) ← ext2ReadBlock (iBlock x 12)
        let _ ← ext2WriteBlock (iBlock x 12) (ind.put32 (4 * l) physBlock)
        return (0, x)
    else
      let l := l - ptrs
      if l < ptrs * ptrs then
        let x ← ensureSlot x 13
        if iBlock x 13 = 0 then return (-1, x)
        else if !(← kmallocOk) then return (-1, x)
        else
          let (_, ind) ← ext2ReadBlock (iBlock x 13)
          let idx1 := l / ptrs
          let idx2 := l % ptrs
          if ptrAt ind idx1 = 0 then
            let blk ← ext2AllocIndirectBlock
            if blk = 0 then return (-1, x)
            else
              let _ ← ext2WriteBlock (iBlock x 13) (ind.put32 (4 * idx1) blk)
              let (_, ind) ← ext2ReadBlock blk
              let _ ← ext2WriteBlock blk (ind.put32 (4 * idx2) physBlock)
              return (0, x)
          else
            let singlyBlk := ptrAt ind idx1
            let (_, ind) ← ext2ReadBlock singlyBlk
            let _ ← ext2WriteBlock singlyBlk (ind.put32 (4 * idx2) physBlock)
            return (0, x)
      else return (-1, x)

end DvivonOS
