import DvivonOS.Ext2.Block

/-!
# Inodes

`inode.c`: the inode tables, the translation between the on-disk inode and the `inode_t` of the
VFS, deletion, and the inode bitmaps.
-/

namespace DvivonOS

/-! ## Fields of the on-disk inode -/

def iMode (x : Bytes) : ℕ := x.get16 0

def iSize (x : Bytes) : ℕ := x.get32 4

def iLinksCount (x : Bytes) : ℕ := x.get16 26

def iBlocks (x : Bytes) : ℕ := x.get32 28

/-! ## Raw inodes -/

/-- The inode-table block of an inode, from the byte offset of its slot in the table. -/
def ext2GetInodeBlock (v : Vol) (ino : ℕ) : ℕ :=
  if ino = 0 then 0
  else
    let group := (ino - 1) / v.sInodesPerGroup
    let index := (ino - 1) % v.sInodesPerGroup
    let blockOffset := index * v.inodeSize % 2 ^ 32 / v.blockSize
    add32 (v.bgInodeTable group) blockOffset

/-- The inode-table block of an inode and the offset in it, as `ext2_read_inode_raw` and
`ext2_write_inode_raw` compute them. -/
def Vol.inodeLoc (v : Vol) (ino : ℕ) : ℕ × ℕ :=
  let group := (ino - 1) / v.sInodesPerGroup
  let index := (ino - 1) % v.sInodesPerGroup
  let inodesPerBlock := v.blockSize / v.inodeSize
  (add32 (v.bgInodeTable group) (index / inodesPerBlock),
    index % inodesPerBlock * v.inodeSize)

/-- The status and, when it is `0`, the inode. -/
def ext2ReadInodeRaw (ino : ℕ) : FsM (ℤ × Bytes) := do
  if ino = 0 then return (-1, Bytes.zero)
  else
    let v ← get
    let (blk, offsetInBlock) := v.inodeLoc ino
    if !(← kmallocOk) then return (-1, Bytes.zero)
    else
      let (ret, buf) ← ext2ReadBlock blk
      if ret = 0 then return (0, Bytes.zero.copy 0 (buf.drop offsetInBlock) sizeofInode)
      else return (ret, Bytes.zero)

def ext2WriteInodeRaw (ino : ℕ) (x : Bytes) : FsM ℤ := do
  if ino = 0 then return -1
  else
    let v ← get
    let (blk, offsetInBlock) := v.inodeLoc ino
    if !(← kmallocOk) then return -1
    else
      let (ret, buf) ← ext2ReadBlock blk
      if ret ≠ 0 then return ret
      else ext2WriteBlock blk (buf.copy offsetInBlock x sizeofInode)

/-! ## VFS inodes -/

/-- The `inode_t` of an on-disk inode. -/
def Inode.ofDisk (ino : ℕ) (x : Bytes) : Inode where
  ino := ino
  mode := iMode x
  size := iSize x
  uid := x.get16 2
  gid := x.get16 24
  nlink := iLinksCount x
  atime := x.get32 8
  mtime := x.get32 16
  ctime := x.get32 12
  blocks := iBlocks x
  flags := x.get32 32
  disk := x

/-- The on-disk inode with the fields of the `inode_t` copied in. -/
def Inode.toDisk (inode : Inode) : Bytes :=
  ((((((((((inode.disk.put16 0 inode.mode).put16 2 inode.uid).put32 4 inode.size).put16 24
    inode.gid).put16 26 inode.nlink).put32 8 inode.atime).put32 16 inode.mtime).put32 12
    inode.ctime).put32 28 inode.blocks).put32 32 inode.flags)

/-- `ext2_read_inode`; the two allocations are the private data and `inode_new`. -/
def ext2ReadInode (ino : ℕ) : FsM (Option Inode) := do
  if ino = 0 then return none
  else if !(← kmallocOk) then return none
  else
    let (ret, x) ← ext2ReadInodeRaw ino
    if ret ≠ 0 then return none
    else if !(← kmallocOk) then return none
    else return some (Inode.ofDisk ino x)

/-- `ext2_write_inode`: the status and the inode. -/
def ext2WriteInode (inode : Inode) : FsM (ℤ × Inode) := do
  let inode := { inode with disk := inode.toDisk }
  let ret ← ext2WriteInodeRaw inode.ino inode.disk
  return (ret, inode)

/-! ## Inode numbers and deletion -/

def ext2AllocInode : FsM ℕ := ext2Alloc .inode

def ext2FreeInode (ino : ℕ) : FsM Unit := ext2Free .inode ino

def freeBlocks : List ℕ → FsM Unit
  | [] => return ()
  | b :: bs => do
    if b ≠ 0 then ext2FreeBlock b
    freeBlocks bs

/-- `ext2_delete_inode`: the direct blocks, the singly indirect block and its entries are freed,
the inode is cleared on disk and its number released. -/
def ext2DeleteInode (inode : Inode) : FsM ℤ := do
  let v ← get
  freeBlocks ((List.range 12).map fun k => iBlock inode.disk k)
  if iBlock inode.disk 12 ≠ 0 then
    if ← kmallocOk then
      let (_, ind) ← ext2ReadBlock (iBlock inode.disk 12)
      freeBlocks ((List.range (v.blockSize / 4)).map fun j => ptrAt ind j)
    ext2FreeBlock (iBlock inode.disk 12)
  let _ ← ext2WriteInodeRaw inode.ino Bytes.zero
  ext2FreeInode inode.ino
  return 0

end DvivonOS
