import DvivonOS.Lib.Bytes
import DvivonOS.Lib.Wp

/-!
# A mounted ext2 volume

`ext2_fs_data_t` of `ext2.h` and the metadata writers of `superblock.c`. The volume is the block
device, the superblock and the group descriptors in memory (as raw bytes with the field offsets of
`ext2.h`), the two numbers computed at mount time and the cached root inode `sb->root`.

`kmalloc` and block reads answer from the two streams of `Env`. A failing read leaves arbitrary
bytes in the buffer. `Env.ok` is the environment in which both always succeed; block writes
succeed. What `kfree`, reference counts and `printf` do is not part of the state.
-/

namespace DvivonOS

/-! ## Constants of `ext2.h` and `types.h` -/

def ext2SuperblockOffset : ℕ := 1024

def ext2RootIno : ℕ := 2

def ext2DynamicRev : ℕ := 1

def ext2FtRegFile : ℕ := 1

def ext2FtDir : ℕ := 2

def fsFileTypeMask : ℕ := 0xF000

def fsFileTypeDir : ℕ := 0x4000

def fsFileTypeRegular : ℕ := 0x8000

def sizeofSuperblock : ℕ := 1024

def sizeofGroupDesc : ℕ := 32

def sizeofInode : ℕ := 128

def fsIsDir (mode : ℕ) : Bool := mode &&& fsFileTypeMask == fsFileTypeDir

def fsIsFile (mode : ℕ) : Bool := mode &&& fsFileTypeMask == fsFileTypeRegular

/-! ## State -/

/-- An `inode_t` with its `ext2_inode_data_t`; `disk` is `disk_inode`. -/
structure Inode where
  ino : ℕ
  mode : ℕ
  size : ℕ
  uid : ℕ
  gid : ℕ
  nlink : ℕ
  atime : ℕ
  mtime : ℕ
  ctime : ℕ
  blocks : ℕ
  flags : ℕ
  disk : Bytes

/-- The results of the calls of `kmalloc` and of the block reads, in order. A read is `none` when
it succeeds and what it leaves in the buffer when it fails. -/
structure Env where
  kmalloc : ℕ → Bool
  read : ℕ → Option Bytes

/-- Every allocation and every read succeeds. -/
def Env.ok : Env where
  kmalloc := fun _ => true
  read := fun _ => none

structure Vol where
  disk : ℕ → Bytes
  sb : Bytes
  gd : ℕ → Bytes
  blockSize : ℕ
  groupsCount : ℕ
  root : Inode
  env : Env

abbrev FsM := StateM Vol

namespace Vol

/-! ## Fields of the superblock and of the group descriptors -/

variable (v : Vol) (g : ℕ)

def sInodesCount : ℕ := v.sb.get32 0

def sBlocksCount : ℕ := v.sb.get32 4

def sFreeBlocksCount : ℕ := v.sb.get32 12

def sFirstDataBlock : ℕ := v.sb.get32 20

def sBlocksPerGroup : ℕ := v.sb.get32 32

def sInodesPerGroup : ℕ := v.sb.get32 40

def sRevLevel : ℕ := v.sb.get32 76

def sInodeSize : ℕ := v.sb.get16 88

def bgBlockBitmap : ℕ := (v.gd g).get32 0

def bgInodeBitmap : ℕ := (v.gd g).get32 4

def bgInodeTable : ℕ := (v.gd g).get32 8

def bgFreeBlocksCount : ℕ := (v.gd g).get16 12

def bgUsedDirsCount : ℕ := (v.gd g).get16 16

/-- The local `inode_size` of the functions of `inode.c`. -/
def inodeSize : ℕ := if ext2DynamicRev ≤ v.sRevLevel then v.sInodeSize else 128

end Vol

/-! ## The environment -/

/-- `kmalloc`, as far as its callers here see it: did it return a pointer. -/
def kmallocOk : FsM Bool := do
  let v ← get
  set { v with env := { v.env with kmalloc := fun k => v.env.kmalloc (k + 1) } }
  return v.env.kmalloc 0

/-- `ext2_read_block`: the status and the buffer. -/
def ext2ReadBlock (block : ℕ) : FsM (ℤ × Bytes) := do
  let v ← get
  set { v with env := { v.env with read := fun k => v.env.read (k + 1) } }
  match v.env.read 0 with
  | none => return (0, v.disk block)
  | some junk => return (-1, junk)

def ext2WriteBlock (block : ℕ) (buf : Bytes) : FsM ℤ := do
  modify fun v => { v with disk := Function.update v.disk block buf }
  return 0

/-! ## `superblock.c` -/

def ext2FlushSuperblock : FsM ℤ := do
  let v ← get
  if v.blockSize = 1024 then ext2WriteBlock 1 v.sb
  else if !(← kmallocOk) then return -1
  else
    let (_, buf) ← ext2ReadBlock 0
    ext2WriteBlock 0 (buf.copy ext2SuperblockOffset v.sb sizeofSuperblock)

def ext2FlushGroupDesc (group : ℕ) : FsM ℤ := do
  let v ← get
  let gdPerBlock := v.blockSize / sizeofGroupDesc
  let gdBlock := add32 (v.sFirstDataBlock + 1) (group / gdPerBlock)
  if !(← kmallocOk) then return -1
  else
    let (_, buf) ← ext2ReadBlock gdBlock
    let off := group % gdPerBlock * sizeofGroupDesc
    ext2WriteBlock gdBlock (buf.copy off (v.gd group) sizeofGroupDesc)

end DvivonOS
