import DvivonOS.Ext2.Inode
import DvivonOS.Vfs.Refs

/-!
# Mounting

`mount` and `umount` of `vfs/mount.c`, `superblock_new` and `superblock_free` of `vfs/superblock.c`,
`ext2_mount` of `ext2/superblock.c` and the block device adapter of `disk/ata.c`. The block device is
its `block_device_t` and its sectors; every heap object is one of `Objects`, so that the order of the
allocations and every `kfree` is part of the model.

A division by zero, which a damaged superblock can cause, ends the kernel: `divideError`.
-/

namespace DvivonOS.Mounting

open Objects Refs

/-! ## Constants of `ext2.h` and `ata.h` -/

def ext2Magic : ℕ := 0xEF53

def ext2MinBlockSize : ℕ := 1024

def ext2MaxBlockSize : ℕ := 4096

def ataSectorSize : ℕ := 512

def ataErrorTimeout : ℤ := -2

def ataErrorUnknown : ℤ := -5

/-! ## State -/

/-- `block_device_t`, of which only the sizes and numbers can change. -/
structure BlockDevice where
  major : ℕ
  minor : ℕ
  blockSize : ℕ
  capacity : ℕ
  fits : blockSize < 2 ^ 32

/-- A disk as the ATA driver registers it, with its own number of sectors. -/
def ataDisk : BlockDevice := ⟨3, 0, 512, 0, by norm_num⟩

/-- `ext2_fs_data_t`, with the objects it consists of. -/
structure FsData where
  obj : ℕ
  sbObj : ℕ
  gdObj : ℕ
  sb : Bytes
  gd : ℕ → Bytes
  blockSize : ℕ
  groupsCount : ℕ

/-- A `superblock_t` that has been filled. -/
structure Superblock where
  obj : ℕ
  typeObj : ℕ
  fs : FsData
  root : Inode
  rootPtr : InodePtr

structure Mount where
  obj : ℕ
  dev : ℕ
  flags : ℕ
  sb : Superblock

/-- The device by sectors, the results of the coming reads (what a failing one leaves in the buffer)
and writes (how many sectors a failing one writes), the mounts, and the byte ranges from which
superblocks have been read. -/
structure MountState where
  dev : BlockDevice
  sector : ℕ → Bytes
  read : ℕ → Option Bytes
  write : ℕ → Option ℕ
  mountList : List Mount
  rootMount : Option ℕ
  sbReads : List (ℕ × ℕ)

abbrev MountM := ObjM MountState

/-- How a call ends. -/
inductive Outcome (α : Type)
  | ok (a : α)
  | failed
  | divideError

/-! ## `ata.c` -/

/-- The byte of the device at an offset from a sector; a sector number has 28 bits. -/
def MountState.bytesFrom (s : MountState) (lba : ℕ) : Bytes := fun i =>
  s.sector ((lba + i / ataSectorSize) % 2 ^ 28) (i % ataSectorSize)

/-- `ata_read_sectors`: the status and the buffer. -/
def ataReadSectors (lba count : ℕ) : StateM MountState (ℤ × Bytes) := do
  if count = 0 then return (ataErrorUnknown, Bytes.zero)
  let s ← get
  set { s with read := fun k => s.read (k + 1) }
  match s.read 0 with
  | none => return (0, s.bytesFrom lba)
  | some junk => return (ataErrorTimeout, junk)

/-- `ata_write_sectors`. -/
def ataWriteSectors (lba count : ℕ) (buf : Bytes) : StateM MountState ℤ := do
  if count = 0 then return ataErrorUnknown
  let s ← get
  let written := min count ((s.write 0).getD count)
  set { s with
    write := fun k => s.write (k + 1)
    sector := fun x =>
      let k := (x + 2 ^ 28 - lba % 2 ^ 28) % 2 ^ 28
      if k < written then buf.drop (ataSectorSize * k) else s.sector x }
  return if (s.write 0).isSome then ataErrorTimeout else 0

/-- The first sector and the number of sectors of `count` blocks from `start` on. -/
def BlockDevice.sectors (dev : BlockDevice) (start count : ℕ) : ℕ × ℕ :=
  let sectorsPerBlock := dev.blockSize / ataSectorSize
  (start * sectorsPerBlock % 2 ^ 32, count * sectorsPerBlock % 2 ^ 32)

def ataBlkReadBlocks (start count : ℕ) : StateM MountState (ℤ × Bytes) := do
  let (lba, total) := (← get).dev.sectors start count
  ataReadSectors lba total

def ataBlkReadBlock (block : ℕ) : StateM MountState (ℤ × Bytes) := ataBlkReadBlocks block 1

def ataBlkWriteBlock (block : ℕ) (buf : Bytes) : StateM MountState ℤ := do
  let (lba, total) := (← get).dev.sectors block 1
  ataWriteSectors lba total buf

/-! ## `ext2/superblock.c` -/

/-- `ext2_read_superblock`: two blocks from block 2 on. -/
def ext2ReadSuperblock : StateM MountState (ℤ × Bytes) := do
  modify fun s =>
    let (lba, total) := s.dev.sectors 2 2
    { s with sbReads := (ataSectorSize * lba, ataSectorSize * total) :: s.sbReads }
  ataBlkReadBlocks 2 2

/-- `1024U << s_log_block_size`; the processor takes five bits of the shift count. -/
def sbBlockSize (sb : Bytes) : ℕ := 1024 * 2 ^ (sb.get32 24 % 32) % 2 ^ 32

def ext2ValidateSuperblock (sb : Bytes) : Bool :=
  sb.get16 56 = ext2Magic ∧ ext2MinBlockSize ≤ sbBlockSize sb ∧ sbBlockSize sb ≤ ext2MaxBlockSize ∧
    sb.get32 76 ≤ ext2DynamicRev

def sbBlocksPerGroup (sb : Bytes) : ℕ := sb.get32 32

def sbInodesPerGroup (sb : Bytes) : ℕ := sb.get32 40

def sbInodeSize (sb : Bytes) : ℕ := if ext2DynamicRev ≤ sb.get32 76 then sb.get16 88 else 128

/-- `groups_count`, where `s_blocks_per_group` is not zero. -/
def sbGroupsCount (sb : Bytes) : ℕ :=
  sub32 (add32 (sub32 (sb.get32 4) (sb.get32 20)) (sbBlocksPerGroup sb)) 1 / sbBlocksPerGroup sb

/-- The loop of `ext2_read_group_desc`; every round reads a descriptor. -/
def readGroupDescLoop (gdPerBlock count : ℕ) :
    ℕ → ℕ → ℕ → (ℕ → Bytes) → StateM MountState (ℕ → Bytes)
  | 0, _, _, groups => return groups
  | fuel + 1, read, gdBlock, groups => do
    if read < count then
      let (_, buf) ← ataBlkReadBlock gdBlock
      let n := min (count - read) gdPerBlock
      readGroupDescLoop gdPerBlock count fuel (read + n) (add32 gdBlock 1) fun g =>
        if read ≤ g ∧ g < read + n then
          Bytes.zero.copy 0 (buf.drop ((g - read) * sizeofGroupDesc)) sizeofGroupDesc
        else groups g
    else return groups

def ext2ReadGroupDesc (sb : Bytes) (count : ℕ) : MountM (Option (ℕ → Bytes)) := do
  if count = 0 then return none
  match ← newObj with
  | none => return none
  | some buf =>
    let groups ← onRest (readGroupDescLoop (sbBlockSize sb / sizeofGroupDesc) count count 0
      (add32 (sb.get32 20) 1) fun _ => Bytes.zero)
    dropObj buf
    return some groups

/-- `ext2_read_inode_raw`. -/
def ext2ReadInodeRaw (fs : FsData) (ino : ℕ) : MountM (Outcome Bytes) := do
  if sbInodesPerGroup fs.sb = 0 then return .divideError
  let group := (ino - 1) / sbInodesPerGroup fs.sb
  let index := (ino - 1) % sbInodesPerGroup fs.sb
  let inodesPerBlock := fs.blockSize / sbInodeSize fs.sb
  if inodesPerBlock = 0 then return .divideError
  let blk := add32 ((fs.gd group).get32 8) (index / inodesPerBlock)
  match ← newObj with
  | none => return .failed
  | some buf =>
    let (ret, bytes) ← onRest (ataBlkReadBlock blk)
    dropObj buf
    if ret = 0 then
      return .ok (Bytes.zero.copy 0 (bytes.drop (index % inodesPerBlock * sbInodeSize fs.sb))
        sizeofInode)
    else return .failed

def ext2ReadInode (fs : FsData) (ino : ℕ) : MountM (Outcome (Inode × InodePtr)) := do
  match ← newObj with
  | none => return .failed
  | some ei =>
    match ← ext2ReadInodeRaw fs ino with
    | .divideError => return .divideError
    | .failed =>
      dropObj ei
      return .failed
    | .ok x =>
      match ← inodeNew ei with
      | none =>
        dropObj ei
        return .failed
      | some p => return .ok (Inode.ofDisk ino x, p)

/-- `ext2_fill_super` from the allocation of the group descriptors on. -/
def fillGroups (fsObj sbObj : ℕ) (sb : Bytes) : MountM (Outcome (FsData × Inode × InodePtr)) := do
  match ← newObj with
  | none =>
    dropObj sbObj
    dropObj fsObj
    return .failed
  | some gdObj =>
    match ← ext2ReadGroupDesc sb (sbGroupsCount sb) with
    | none =>
      dropObj gdObj
      dropObj sbObj
      dropObj fsObj
      return .failed
    | some gd =>
      let fs : FsData := ⟨fsObj, sbObj, gdObj, sb, gd, sbBlockSize sb, sbGroupsCount sb⟩
      match ← ext2ReadInode fs ext2RootIno with
      | .divideError => return .divideError
      | .failed =>
        dropObj gdObj
        dropObj sbObj
        dropObj fsObj
        return .failed
      | .ok (root, p) => return .ok (fs, root, p)

/-- `dev->block_size = block_size`. -/
def setBlockSize (blockSize : ℕ) : StateM MountState Unit :=
  modify fun s => { s with dev := { s.dev with
    blockSize := blockSize % 2 ^ 32
    fits := Nat.mod_lt _ (by norm_num) } }

def ext2FillSuper : MountM (Outcome (FsData × Inode × InodePtr)) := do
  match ← newObj with
  | none => return .failed
  | some fsObj =>
    match ← newObj with
    | none =>
      dropObj fsObj
      return .failed
    | some sbObj =>
      let (ret, sb) ← onRest ext2ReadSuperblock
      if ret ≠ 0 ∨ !ext2ValidateSuperblock sb then
        dropObj sbObj
        dropObj fsObj
        return .failed
      -- `groups_count` and `inodes_per_block`
      if sbBlocksPerGroup sb = 0 ∨ sbInodeSize sb = 0 then return .divideError
      onRest (setBlockSize (sbBlockSize sb))
      fillGroups fsObj sbObj sb

/-- `ext2_mount` with `superblock_new`, and `superblock_free` of a superblock that is not filled. -/
def ext2Mount : MountM (Outcome Superblock) := do
  match ← newObj with
  | none => return .failed
  | some obj =>
    match ← newObj with
    | none =>
      dropObj obj
      return .failed
    | some typeObj =>
      match ← ext2FillSuper with
      | .divideError => return .divideError
      | .failed =>
        dropObj typeObj
        dropObj obj
        return .failed
      | .ok (fs, root, p) => return .ok ⟨obj, typeObj, fs, root, p⟩

/-- `superblock_free` with `ext2_put_superblock`. -/
def superblockFree (sb : Superblock) : MountM Unit := do
  dropObj sb.fs.gdObj
  dropObj sb.fs.sbObj
  inodePut sb.rootPtr
  dropObj sb.fs.obj
  dropObj sb.typeObj
  dropObj sb.obj

/-- `ext2_flush_superblock`. -/
def ext2FlushSuperblock (fs : FsData) : MountM Unit := do
  if fs.blockSize = 1024 then
    let _ ← onRest (ataBlkWriteBlock 1 fs.sb)
  else
    match ← newObj with
    | none => return
    | some buf =>
      let (_, bytes) ← onRest (ataBlkReadBlock 0)
      let _ ← onRest (ataBlkWriteBlock 0 (bytes.copy ext2SuperblockOffset fs.sb sizeofSuperblock))
      dropObj buf

/-- `ext2_flush_group_desc`. -/
def ext2FlushGroupDesc (fs : FsData) (group : ℕ) : MountM Unit := do
  let gdPerBlock := fs.blockSize / sizeofGroupDesc
  let gdBlock := add32 (fs.sb.get32 20 + 1) (group / gdPerBlock)
  match ← newObj with
  | none => return
  | some buf =>
    let (_, bytes) ← onRest (ataBlkReadBlock gdBlock)
    let _ ← onRest (ataBlkWriteBlock gdBlock
      (bytes.copy (group % gdPerBlock * sizeofGroupDesc) (fs.gd group) sizeofGroupDesc))
    dropObj buf

/-- The loop of `ext2_sync` over the first `n` groups. -/
def syncGroups (fs : FsData) : ℕ → MountM Unit
  | 0 => return
  | n + 1 => do
    syncGroups fs n
    ext2FlushGroupDesc fs n

def ext2Sync (fs : FsData) : MountM Unit := do
  ext2FlushSuperblock fs
  syncGroups fs fs.groupsCount

/-! ## `vfs/mount.c` -/

/-- `mount(dev, "ext2", flags)`. -/
def mount (flags : ℕ) : MountM (Outcome Mount) := do
  match ← ext2Mount with
  | .divideError => return .divideError
  | .failed => return .failed
  | .ok sb =>
    match ← newObj with
    | none =>
      superblockFree sb
      return .failed
    | some obj =>
      let mnt : Mount := ⟨obj, (← get).rest.dev.major, flags, sb⟩
      onRest (modify fun s => { s with
        mountList := mnt :: s.mountList
        rootMount := some (s.rootMount.getD obj) })
      return .ok mnt

def umount (mnt : Mount) : MountM Unit := do
  ext2Sync mnt.sb.fs
  superblockFree mnt.sb
  onRest (modify fun s => { s with
    mountList := s.mountList.filter (·.obj ≠ mnt.obj)
    rootMount := if s.rootMount = some mnt.obj then none else s.rootMount })
  dropObj mnt.obj

end DvivonOS.Mounting
