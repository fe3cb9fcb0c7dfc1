import DvivonOS.Ext2.Bitmap
import DvivonOS.Ext2.Directory
import DvivonOS.Lib.Trace

/-!
# Divisions, group indices and cleared bits

The functions of `block.c`, `inode.c` and `directory.c` with a record of the numbers they divide by,
of the indices into `group_desc` they compute from block and inode numbers, and of the bits that
`ext2_free_block` clears. Each erases to the function of the same name without the record.
-/

namespace DvivonOS.Recorded

open TraceM

inductive Event
  /-- A division by `d`. -/
  | divide (d : ℕ)
  /-- An index into `group_desc`. -/
  | group (g : ℕ)
  /-- The bit `i` of the block bitmap of group `g` is cleared. -/
  | clear (g i : ℕ)
  deriving DecidableEq

abbrev RecM := TraceM Event Vol

/-! ## `superblock.c` and `block.c` -/

def ext2FlushGroupDesc (group : ℕ) : RecM ℤ := do
  let v ← quiet get
  emit (.divide (v.blockSize / sizeofGroupDesc))
  quiet (DvivonOS.ext2FlushGroupDesc group)

def allocLoop (k : Kind) : ℕ → ℕ → RecM ℕ
  | 0, _ => return 0
  | n + 1, g => do
    let v ← quiet get
    if (v.gd g).get16 k.gdOff = 0 then allocLoop k n (g + 1)
    else
      let (_, bitmap) ← quiet (ext2ReadBlock (v.bgBitmap k g))
      match findClear bitmap (v.groupBits k g) with
      | none => allocLoop k n (g + 1)
      | some i =>
        let _ ← quiet (ext2WriteBlock (v.bgBitmap k g) (bitmap.setBit i))
        quiet (modify fun v => v.addFree k g (2 ^ 32 - 1))
        let _ ← ext2FlushGroupDesc g
        let _ ← quiet ext2FlushSuperblock
        return add32 (v.firstNumber k) (g * v.sPerGroup k + i)

def ext2Alloc (k : Kind) : RecM ℕ := do
  let v ← quiet get
  if v.sb.get32 k.sbOff = 0 then return 0
  else if !(← quiet kmallocOk) then return 0
  else allocLoop k v.groupsCount 0

def emitClear : Kind → ℕ → ℕ → RecM Unit
  | .block, g, i => emit (.clear g i)
  | .inode, _, _ => return ()

def ext2Free (k : Kind) (n : ℕ) : RecM Unit := do
  let v ← quiet get
  let rel := sub32 n (v.firstNumber k)
  emit (.divide (v.sPerGroup k))
  let group := rel / v.sPerGroup k
  let index := rel % v.sPerGroup k
  emit (.group group)
  if !(← quiet kmallocOk) then return ()
  else
    let (_, bitmap) ← quiet (ext2ReadBlock (v.bgBitmap k group))
    emitClear k group index
    let _ ← quiet (ext2WriteBlock (v.bgBitmap k group) (bitmap.clearBit index))
    quiet (modify fun v => v.addFree k group 1)
    let _ ← ext2FlushGroupDesc group
    let _ ← quiet ext2FlushSuperblock
    return ()

def ext2AllocBlock : RecM ℕ := ext2Alloc .block

def ext2FreeBlock (block : ℕ) : RecM Unit := ext2Free .block block

/-! ## `inode.c` -/

/-- The divisions and the index of `ext2_read_inode_raw` and `ext2_write_inode_raw`. -/
def inodeLoc (ino : ℕ) : RecM Unit := do
  let v ← quiet get
  if ino = 0 then return ()
  else
    emit (.divide v.sInodesPerGroup)
    emit (.divide v.inodeSize)
    emit (.divide (v.blockSize / v.inodeSize))
    emit (.group ((ino - 1) / v.sInodesPerGroup))

def ext2ReadInodeRaw (ino : ℕ) : RecM (ℤ × Bytes) := do
  inodeLoc ino
  quiet (DvivonOS.ext2ReadInodeRaw ino)

def ext2WriteInodeRaw (ino : ℕ) (x : Bytes) : RecM ℤ := do
  inodeLoc ino
  quiet (DvivonOS.ext2WriteInodeRaw ino x)

def ext2ReadInode (ino : ℕ) : RecM (Option Inode) := do
  if ino = 0 then return none
  else if !(← quiet kmallocOk) then return none
  else
    let (ret, x) ← ext2ReadInodeRaw ino
    if ret ≠ 0 then return none
    else if !(← quiet kmallocOk) then return none
    else return some (Inode.ofDisk ino x)

def ext2WriteInode (inode : Inode) : RecM (ℤ × Inode) := do
  let inode := { inode with disk := inode.toDisk }
  let ret ← ext2WriteInodeRaw inode.ino inode.disk
  return (ret, inode)

def ext2AllocInode : RecM ℕ := ext2Alloc .inode

def ext2FreeInode (ino : ℕ) : RecM Unit := ext2Free .inode ino

def freeBlocks : List ℕ → RecM Unit
  | [] => return ()
  | b :: bs => do
    if b ≠ 0 then ext2FreeBlock b
    freeBlocks bs

def ext2DeleteInode (inode : Inode) : RecM ℤ := do
  let v ← quiet get
  freeBlocks ((List.range 12).map fun k => iBlock inode.disk k)
  if iBlock inode.disk 12 ≠ 0 then
    if ← quiet kmallocOk then
      let (_, ind) ← quiet (ext2ReadBlock (iBlock inode.disk 12))
      freeBlocks ((List.range (v.blockSize / 4)).map fun j => ptrAt ind j)
    ext2FreeBlock (iBlock inode.disk 12)
  let _ ← ext2WriteInodeRaw inode.ino Bytes.zero
  ext2FreeInode inode.ino
  return 0

/-! ## `directory.c` -/

def ext2Lookup (dir : Inode) (name : Name) : RecM (Option Inode) := do
  match ← quiet (ext2FindDirEntry dir name) with
  | none => return none
  | some de => ext2ReadInode de.inode

def ext2Unlink (dir : Inode) (name : Name) : RecM ℤ := do
  match ← ext2Lookup dir name with
  | none => return -1
  | some target =>
    if fsIsDir target.mode then return -1
    else if (← quiet (ext2RemoveDirEntry dir name)) ≠ 0 then return -1
    else
      let target := { target with nlink := sub32 target.nlink 1 }
      if target.nlink = 0 then
        let _ ← ext2DeleteInode target
        return 0
      else
        let _ ← ext2WriteInode target
        return 0

def ext2Rmdir (dir : Inode) (name : Name) : RecM (ℤ × Inode) := do
  match ← ext2Lookup dir name with
  | none => return (-1, dir)
  | some target =>
    if !fsIsDir target.mode then return (-1, dir)
    else
      let v ← quiet get
      let bs := v.blockSize
      if !(← quiet kmallocOk) then return (-1, dir)
      else
        let entryCount ← quiet (countLoop target bs (dirBlocks target.size bs) 0)
        if 2 < toInt32 (entryCount % 2 ^ 32) then return (-1, dir)
        else if (← quiet (ext2RemoveDirEntry dir name)) ≠ 0 then return (-1, dir)
        else
          let (_, dir) ← ext2WriteInode { dir with nlink := sub32 dir.nlink 1 }
          let _ ← ext2DeleteInode target
          let group := (target.ino - 1) / v.sInodesPerGroup
          quiet (modify fun v =>
            if 0 < v.bgUsedDirsCount group then { v with
              gd := Function.update v.gd group
                ((v.gd group).put16 16 (v.bgUsedDirsCount group - 1)) }
            else v)
          let _ ← ext2FlushGroupDesc group
          return (0, dir)

/-! ## The record can be erased -/

section Erase

theorem erase_flushGroupDesc (g : ℕ) :
    erase (ext2FlushGroupDesc g) = DvivonOS.ext2FlushGroupDesc g := rfl

theorem erase_allocLoop (k : Kind) (n : ℕ) :
    ∀ g, erase (allocLoop k n g) = DvivonOS.allocLoop k n g := by
  induction n with
  | zero => exact fun _ => rfl
  | succ n ih =>
    intro g
    unfold allocLoop DvivonOS.allocLoop
    simp only [erase_bind, erase_quiet, erase_ite, ih]
    congr 1
    funext v
    split_ifs with h
    · rfl
    · congr 1
      funext r
      cases findClear r.2 (v.groupBits k g) with
      | none => exact ih _
      | some i => rfl

theorem erase_alloc (k : Kind) : erase (ext2Alloc k) = DvivonOS.ext2Alloc k := by
  unfold ext2Alloc DvivonOS.ext2Alloc
  simp only [erase_bind, erase_quiet, erase_ite, erase_pure, erase_allocLoop]

theorem erase_free (k : Kind) (n : ℕ) : erase (ext2Free k n) = DvivonOS.ext2Free k n := by
  have hclear : ∀ g i, erase (emitClear k g i) = pure () := by cases k <;> exact fun _ _ => rfl
  unfold ext2Free DvivonOS.ext2Free
  simp only [erase_bind, erase_quiet, erase_ite, erase_pure, erase_emit, pure_bind,
    erase_flushGroupDesc, hclear]

theorem erase_allocBlock : erase ext2AllocBlock = DvivonOS.ext2AllocBlock := erase_alloc .block

theorem erase_freeBlock (b : ℕ) : erase (ext2FreeBlock b) = DvivonOS.ext2FreeBlock b :=
  erase_free .block b

theorem erase_inodeLoc (ino : ℕ) : erase (inodeLoc ino) = pure () := by
  unfold inodeLoc
  simp only [erase_bind, erase_quiet, erase_ite, erase_pure, erase_emit, pure_bind, ite_self]
  rfl

theorem erase_readInodeRaw (ino : ℕ) :
    erase (ext2ReadInodeRaw ino) = DvivonOS.ext2ReadInodeRaw ino := by
  unfold ext2ReadInodeRaw
  rw [erase_bind, erase_inodeLoc, erase_quiet, pure_bind]

theorem erase_writeInodeRaw (ino : ℕ) (x : Bytes) :
    erase (ext2WriteInodeRaw ino x) = DvivonOS.ext2WriteInodeRaw ino x := by
  unfold ext2WriteInodeRaw
  rw [erase_bind, erase_inodeLoc, erase_quiet, pure_bind]

theorem erase_readInode (ino : ℕ) : erase (ext2ReadInode ino) = DvivonOS.ext2ReadInode ino := by
  unfold ext2ReadInode DvivonOS.ext2ReadInode
  simp only [erase_bind, erase_quiet, erase_ite, erase_pure, erase_readInodeRaw]

theorem erase_writeInode (inode : Inode) :
    erase (ext2WriteInode inode) = DvivonOS.ext2WriteInode inode := by
  unfold ext2WriteInode DvivonOS.ext2WriteInode
  simp only [erase_bind, erase_pure, erase_writeInodeRaw]

theorem erase_allocInode : erase ext2AllocInode = DvivonOS.ext2AllocInode := erase_alloc .inode

theorem erase_freeInode (ino : ℕ) : erase (ext2FreeInode ino) = DvivonOS.ext2FreeInode ino :=
  erase_free .inode ino

theorem erase_freeBlocks (l : List ℕ) : erase (freeBlocks l) = DvivonOS.freeBlocks l := by
  induction l with
  | nil => rfl
  | cons b l ih =>
    unfold freeBlocks DvivonOS.freeBlocks
    simp only [erase_bind, erase_ite, erase_freeBlock, ih]

theorem erase_deleteInode (inode : Inode) :
    erase (ext2DeleteInode inode) = DvivonOS.ext2DeleteInode inode := by
  unfold ext2DeleteInode DvivonOS.ext2DeleteInode
  simp only [erase_bind, erase_quiet, erase_ite, erase_pure, erase_freeBlocks, erase_freeBlock,
    erase_writeInodeRaw, erase_freeInode]

theorem erase_lookup (dir : Inode) (name : Name) :
    erase (ext2Lookup dir name) = DvivonOS.ext2Lookup dir name := by
  unfold ext2Lookup DvivonOS.ext2Lookup
  rw [erase_bind, erase_quiet]
  congr 1
  funext de
  cases de with
  | none => rfl
  | some de => exact erase_readInode _

theorem erase_unlink (dir : Inode) (name : Name) :
    erase (ext2Unlink dir name) = DvivonOS.ext2Unlink dir name := by
  unfold ext2Unlink DvivonOS.ext2Unlink
  rw [erase_bind, erase_lookup]
  congr 1
  funext target
  cases target with
  | none => rfl
  | some target =>
    simp only [erase_bind, erase_quiet, erase_ite, erase_pure, erase_deleteInode, erase_writeInode]

theorem erase_rmdir (dir : Inode) (name : Name) :
    erase (ext2Rmdir dir name) = DvivonOS.ext2Rmdir dir name := by
  unfold ext2Rmdir DvivonOS.ext2Rmdir
  rw [erase_bind, erase_lookup]
  congr 1
  funext target
  cases target with
  | none => rfl
  | some target =>
    simp only [erase_bind, erase_quiet, erase_ite, erase_pure, erase_deleteInode, erase_writeInode,
      erase_flushGroupDesc]

end Erase

end DvivonOS.Recorded
