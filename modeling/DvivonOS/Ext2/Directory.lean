import DvivonOS.Ext2.Inode

/-!
# Directories

`directory.c`: a directory is a sequence of variable-length records in its data blocks. Names are
the bytes of a C string without the terminator. Each `while (off < bs)` loop over the records of a
block is a recursion over an offset with fuel `bs`: a record with `rec_len = 0` ends the loop, so
every round advances.
-/

namespace DvivonOS

abbrev Name := List UInt8

/-- `ext2_dir_rec_len`. -/
def ext2DirRecLen (nameLen : ℕ) : ℕ := (8 + nameLen + 3) &&& (0xFFFFFFFF ^^^ 3)

/-! ## Fields of the record at an offset -/

def deInode (buf : Bytes) (off : ℕ) : ℕ := buf.get32 off

def deRecLen (buf : Bytes) (off : ℕ) : ℕ := buf.get16 (off + 4)

def deNameLen (buf : Bytes) (off : ℕ) : ℕ := (buf (off + 6)).toNat

def deFileType (buf : Bytes) (off : ℕ) : ℕ := (buf (off + 7)).toNat

/-- The record is in use and its name is `name`. -/
def deMatches (buf : Bytes) (off : ℕ) (name : Name) : Bool :=
  deInode buf off ≠ 0 ∧ deNameLen buf off = name.length ∧ buf.slice (off + 8) name.length = name

/-- The copy of an `ext2_dir_entry_t` that `ext2_find_dir_entry` returns. -/
structure DirEntry where
  inode : ℕ
  recLen : ℕ
  fileType : ℕ
  name : Name
  deriving DecidableEq

def dirEntryAt (buf : Bytes) (off : ℕ) : DirEntry where
  inode := deInode buf off
  recLen := deRecLen buf off
  fileType := deFileType buf off
  name := buf.slice (off + 8) (deNameLen buf off)

/-- Enter inode, name and type in the record at `off`; the record length stays. -/
def putEntry (buf : Bytes) (off : ℕ) (name : Name) (ino type : ℕ) : Bytes :=
  (((buf.put32 off ino).put8 (off + 6) (UInt8.ofNat name.length)).put8 (off + 7)
    (UInt8.ofNat type)).copy (off + 8) (Bytes.ofList name) name.length

/-! ## Lookup -/

/-- The offset of the first record from `off` on that matches. -/
def findInBlock (buf : Bytes) (bs : ℕ) (name : Name) : ℕ → ℕ → Option ℕ
  | 0, _ => none
  | fuel + 1, off =>
    if off < bs then
      if deRecLen buf off = 0 then none
      else if deMatches buf off name then some off
      else findInBlock buf bs name fuel (off + deRecLen buf off)
    else none

/-- `(dir->size + bs - 1) / bs`. -/
def dirBlocks (size bs : ℕ) : ℕ := add32 size (bs - 1) / bs

/-- The loop of `ext2_find_dir_entry`, `ext2_add_dir_entry` and `ext2_remove_dir_entry` over the `n`
blocks from `b` on: `hit` on the first block on which `search` answers, `miss` behind the last. -/
def dirLoop {α β : Type} (dir : Inode) (bs : ℕ) (search : Bytes → Option β) (hit : ℕ → β → FsM α)
    (miss : FsM α) : ℕ → ℕ → FsM α
  | 0, _ => miss
  | n + 1, b => do
    let phys ← ext2ResolveBlockNum dir.disk b bs
    if phys = 0 then dirLoop dir bs search hit miss n (b + 1)
    else
      let (_, buf) ← ext2ReadBlock phys
      match search buf with
      | none => dirLoop dir bs search hit miss n (b + 1)
      | some y => hit phys y

def findLoop (dir : Inode) (name : Name) (bs : ℕ) : ℕ → ℕ → FsM (Option DirEntry) :=
  dirLoop dir bs (fun buf => (findInBlock buf bs name bs 0).map (dirEntryAt buf))
    (fun _ de => do if ← kmallocOk then return some de else return none) (return none)

def ext2FindDirEntry (dir : Inode) (name : Name) : FsM (Option DirEntry) := do
  if !fsIsDir dir.mode then return none
  else
    let v ← get
    if !(← kmallocOk) then return none
    else findLoop dir name v.blockSize (dirBlocks dir.size v.blockSize) 0

def ext2Lookup (dir : Inode) (name : Name) : FsM (Option Inode) := do
  match ← ext2FindDirEntry dir name with
  | none => return none
  | some de => ext2ReadInode de.inode

/-! ## Adding an entry -/

/-- The block with the new entry: in the first record from `off` on that is unused and long
enough, or behind the first record with enough slack. -/
def addInBlock (buf : Bytes) (bs : ℕ) (name : Name) (ino type : ℕ) : ℕ → ℕ → Option Bytes
  | 0, _ => none
  | fuel + 1, off =>
    if off < bs then
      let recLen := deRecLen buf off
      if recLen = 0 then none
      else
        let need := ext2DirRecLen name.length
        let actual := ext2DirRecLen (deNameLen buf off)
        let slack := sub32 recLen actual
        if deInode buf off = 0 ∧ need ≤ recLen then some (putEntry buf off name ino type)
        else if need ≤ slack then
          some (putEntry ((buf.put16 (off + 4) actual).put16 (off + actual + 4) slack)
            (off + actual) name ino type)
        else addInBlock buf bs name ino type fuel (off + recLen)
    else none

/-- Was the entry added. -/
def addLoop (dir : Inode) (name : Name) (ino type bs : ℕ) : ℕ → ℕ → FsM Bool :=
  dirLoop dir bs (fun buf => addInBlock buf bs name ino type bs 0)
    (fun phys buf => do
      let _ ← ext2WriteBlock phys buf
      return true) (return false)

def freshDirBlock (bs : ℕ) (name : Name) (ino type : ℕ) : Bytes :=
  putEntry (Bytes.zero.put16 4 bs) 0 name ino type

/-- `dir->size += bs` and what follows from it in the inode and in its on-disk copy. -/
def Inode.growDir (dir : Inode) (bs : ℕ) : Inode :=
  let size := add32 dir.size bs
  let disk := dir.disk.put32 4 size
  let disk := disk.put32 28 (iBlocks disk + bs / 512)
  { dir with size := size, disk := disk, blocks := iBlocks disk }

/-- The end of `ext2_add_dir_entry`, when no block has room: a new block behind the last one. -/
def addFreshBlock (dir : Inode) (name : Name) (ino type bs blocks : ℕ) : FsM (ℤ × Inode) := do
  let newBlk ← ext2AllocBlock
  if newBlk = 0 then return (-1, dir)
  else
    let (ret, x) ← ext2AssignBlockNum dir.disk blocks newBlk bs
    let dir := { dir with disk := x }
    if ret ≠ 0 then
      ext2FreeBlock newBlk
      return (-1, dir)
    else
      let _ ← ext2WriteBlock newBlk (freshDirBlock bs name ino type)
      let (_, dir) ← ext2WriteInode (dir.growDir bs)
      return (0, dir)

/-- `ext2_add_dir_entry`: the status and the directory inode. -/
def ext2AddDirEntry (dir : Inode) (name : Name) (ino type : ℕ) : FsM (ℤ × Inode) := do
  if ino = 0 then return (-1, dir)
  else if 255 < name.length then return (-1, dir)
  else
    let v ← get
    let bs := v.blockSize
    let blocks := dirBlocks dir.size bs
    if !(← kmallocOk) then return (-1, dir)
    else if ← addLoop dir name ino type bs blocks 0 then return (0, dir)
    else addFreshBlock dir name ino type bs blocks

/-! ## Removing an entry -/

/-- The block without the first record from `off` on that matches: merged into the record before
it, or unused if it is the first. -/
def removeInBlock (buf : Bytes) (bs : ℕ) (name : Name) : ℕ → Option ℕ → ℕ → Option Bytes
  | 0, _, _ => none
  | fuel + 1, prev, off =>
    if off < bs then
      let recLen := deRecLen buf off
      if recLen = 0 then none
      else if deMatches buf off name then
        match prev with
        | some p => some (buf.put16 (p + 4) (deRecLen buf p + recLen))
        | none => some (buf.put32 off 0)
      else removeInBlock buf bs name fuel (some off) (off + recLen)
    else none

def removeLoop (dir : Inode) (name : Name) (bs : ℕ) : ℕ → ℕ → FsM ℤ :=
  dirLoop dir bs (fun buf => removeInBlock buf bs name bs none 0)
    (fun phys buf => do
      let _ ← ext2WriteBlock phys buf
      return 0) (return -1)

def ext2RemoveDirEntry (dir : Inode) (name : Name) : FsM ℤ := do
  let v ← get
  if !(← kmallocOk) then return -1
  else removeLoop dir name v.blockSize (dirBlocks dir.size v.blockSize) 0

/-! ## Creating -/

def newFileInode (mode : ℕ) : Bytes :=
  (Bytes.zero.put16 0 (fsFileTypeRegular ||| (mode &&& 0xFFF))).put16 26 1

/-- `ext2_create`: the status and the directory inode. -/
def ext2Create (dir : Inode) (name : Name) (mode : ℕ) : FsM (ℤ × Inode) := do
  let newIno ← ext2AllocInode
  if newIno = 0 then return (-1, dir)
  else
    let _ ← ext2WriteInodeRaw newIno (newFileInode mode)
    let (ret, dir) ← ext2AddDirEntry dir name newIno ext2FtRegFile
    if ret ≠ 0 then
      ext2FreeInode newIno
      return (-1, dir)
    else return (0, dir)

def dotName : Name := [46]

def dotdotName : Name := [46, 46]

def newDirBlock (bs newIno parent : ℕ) : Bytes :=
  putEntry ((putEntry (Bytes.zero.put16 4 12) 0 dotName newIno ext2FtDir).put16 (12 + 4) (bs - 12))
    12 dotdotName parent ext2FtDir

def newDirInode (mode bs blk : ℕ) : Bytes :=
  setIBlock ((((Bytes.zero.put16 0 (fsFileTypeDir ||| (mode &&& 0xFFF))).put32 4 bs).put16 26 2).put32
    28 (bs / 512)) 0 blk

/-- `ext2_mkdir`: the status and the directory inode. -/
def ext2Mkdir (dir : Inode) (name : Name) (mode : ℕ) : FsM (ℤ × Inode) := do
  let v ← get
  let bs := v.blockSize
  let newIno ← ext2AllocInode
  if newIno = 0 then return (-1, dir)
  else
    let blk ← ext2AllocBlock
    if blk = 0 then
      ext2FreeInode newIno
      return (-1, dir)
    else if !(← kmallocOk) then
      ext2FreeBlock blk
      ext2FreeInode newIno
      return (-1, dir)
    else
      let _ ← ext2WriteBlock blk (newDirBlock bs newIno dir.ino)
      let _ ← ext2WriteInodeRaw newIno (newDirInode mode bs blk)
      let (ret, dir) ← ext2AddDirEntry dir name newIno ext2FtDir
      if ret ≠ 0 then
        ext2FreeBlock blk
        ext2FreeInode newIno
        return (-1, dir)
      else
        let (_, dir) ← ext2WriteInode { dir with nlink := add32 dir.nlink 1 }
        let group := (newIno - 1) / v.sInodesPerGroup
        modify fun v => { v with
          gd := Function.update v.gd group ((v.gd group).put16 16 (v.bgUsedDirsCount group + 1)) }
        let _ ← ext2FlushGroupDesc group
        return (0, dir)

/-! ## Removing -/

/-- `ext2_unlink`. The directory inode itself does not change. -/
def ext2Unlink (dir : Inode) (name : Name) : FsM ℤ := do
  match ← ext2Lookup dir name with
  | none => return -1
  | some target =>
    if fsIsDir target.mode then return -1
    else if (← ext2RemoveDirEntry dir name) ≠ 0 then return -1
    else
      let target := { target with nlink := sub32 target.nlink 1 }
      if target.nlink = 0 then
        let _ ← ext2DeleteInode target
        return 0
      else
        let _ ← ext2WriteInode target
        return 0

/-- The number of records in use from `off` on. -/
def countInBlock (buf : Bytes) (bs : ℕ) : ℕ → ℕ → ℕ
  | 0, _ => 0
  | fuel + 1, off =>
    if off < bs then
      if deRecLen buf off = 0 then 0
      else (if deInode buf off ≠ 0 then 1 else 0) +
        countInBlock buf bs fuel (off + deRecLen buf off)
    else 0

/-- The emptiness scan of `ext2_rmdir` over the `n` blocks from `b` on. -/
def countLoop (target : Inode) (bs : ℕ) : ℕ → ℕ → FsM ℕ
  | 0, _ => return 0
  | n + 1, b => do
    let phys ← ext2ResolveBlockNum target.disk b bs
    if phys = 0 then countLoop target bs n (b + 1)
    else
      let (_, buf) ← ext2ReadBlock phys
      let rest ← countLoop target bs n (b + 1)
      return countInBlock buf bs bs 0 + rest

/-- `ext2_rmdir`: the status and the directory inode. -/
def ext2Rmdir (dir : Inode) (name : Name) : FsM (ℤ × Inode) := do
  match ← ext2Lookup dir name with
  | none => return (-1, dir)
  | some target =>
    if !fsIsDir target.mode then return (-1, dir)
    else
      let v ← get
      let bs := v.blockSize
      if !(← kmallocOk) then return (-1, dir)
      else
        let entryCount ← countLoop target bs (dirBlocks target.size bs) 0
        if 2 < toInt32 (entryCount % 2 ^ 32) then return (-1, dir)
        else if (← ext2RemoveDirEntry dir name) ≠ 0 then return (-1, dir)
        else
          let (_, dir) ← ext2WriteInode { dir with nlink := sub32 dir.nlink 1 }
          let _ ← ext2DeleteInode target
          let group := (target.ino - 1) / v.sInodesPerGroup
          modify fun v =>
            if 0 < v.bgUsedDirsCount group then { v with
              gd := Function.update v.gd group
                ((v.gd group).put16 16 (v.bgUsedDirsCount group - 1)) }
            else v
          let _ ← ext2FlushGroupDesc group
          return (0, dir)

end DvivonOS
