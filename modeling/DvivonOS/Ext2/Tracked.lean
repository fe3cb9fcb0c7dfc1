import DvivonOS.Ext2.Ops
import DvivonOS.Vfs.Refs

/-!
# ext2 with its heap objects

The functions of `ext2/*.c` once more, with every `kmalloc`, every `kfree` and every reference count:
the state is a `Vol` beside the objects of `Objects`. What is computed from the volume is that of
`Ext2.Block`, `Ext2.Inode`, `Ext2.Directory` and `Ext2.Ops`; the functions here add which buffers,
entries and inodes are allocated and freed, and where.
-/

namespace DvivonOS.Tracked

open Objects Refs

abbrev TrackM := ObjM Vol

def getVol : TrackM Vol := onRest get

def modifyVol (f : Vol → Vol) : TrackM Unit := onRest (modify f)

def ext2ReadBlock (block : ℕ) : TrackM (ℤ × Bytes) := onRest (DvivonOS.ext2ReadBlock block)

def ext2WriteBlock (block : ℕ) (buf : Bytes) : TrackM ℤ := onRest (DvivonOS.ext2WriteBlock block buf)

/-! ## `superblock.c` -/

def ext2FlushSuperblock : TrackM ℤ := do
  let v ← getVol
  if v.blockSize = 1024 then ext2WriteBlock 1 v.sb
  else
    match ← newObj with
    | none => return -1
    | some buf =>
      let (_, bytes) ← ext2ReadBlock 0
      let ret ← ext2WriteBlock 0 (bytes.copy ext2SuperblockOffset v.sb sizeofSuperblock)
      dropObj buf
      return ret

def ext2FlushGroupDesc (group : ℕ) : TrackM ℤ := do
  let v ← getVol
  let gdPerBlock := v.blockSize / sizeofGroupDesc
  let gdBlock := add32 (v.sFirstDataBlock + 1) (group / gdPerBlock)
  match ← newObj with
  | none => return -1
  | some buf =>
    let (_, bytes) ← ext2ReadBlock gdBlock
    let off := group % gdPerBlock * sizeofGroupDesc
    let ret ← ext2WriteBlock gdBlock (bytes.copy off (v.gd group) sizeofGroupDesc)
    dropObj buf
    return ret

/-! ## `block.c` -/

def allocLoop (k : Kind) (bitmap : ℕ) : ℕ → ℕ → TrackM ℕ
  | 0, _ => do
    dropObj bitmap
    return 0
  | n + 1, g => do
    let v ← getVol
    if (v.gd g).get16 k.gdOff = 0 then allocLoop k bitmap n (g + 1)
    else
      let (_, bytes) ← ext2ReadBlock (v.bgBitmap k g)
      match findClear bytes (v.groupBits k g) with
      | none => allocLoop k bitmap n (g + 1)
      | some i =>
        let _ ← ext2WriteBlock (v.bgBitmap k g) (bytes.setBit i)
        dropObj bitmap
        modifyVol fun v => v.addFree k g (2 ^ 32 - 1)
        let _ ← ext2FlushGroupDesc g
        let _ ← ext2FlushSuperblock
        return add32 (v.firstNumber k) (g * v.sPerGroup k + i)

def ext2Alloc (k : Kind) : TrackM ℕ := do
  let v ← getVol
  if v.sb.get32 k.sbOff = 0 then return 0
  else
    match ← newObj with
    | none => return 0
    | some bitmap => allocLoop k bitmap v.groupsCount 0

def ext2Free (k : Kind) (n : ℕ) : TrackM Unit := do
  let v ← getVol
  let rel := sub32 n (v.firstNumber k)
  let group := rel / v.sPerGroup k
  let index := rel % v.sPerGroup k
  match ← newObj with
  | none => return
  | some bitmap =>
    let (_, bytes) ← ext2ReadBlock (v.bgBitmap k group)
    let _ ← ext2WriteBlock (v.bgBitmap k group) (bytes.clearBit index)
    dropObj bitmap
    modifyVol fun v => v.addFree k group 1
    let _ ← ext2FlushGroupDesc group
    let _ ← ext2FlushSuperblock
    return

def ext2AllocBlock : TrackM ℕ := ext2Alloc .block

def ext2FreeBlock (block : ℕ) : TrackM Unit := ext2Free .block block

def ext2AllocIndirectBlock : TrackM ℕ := do
  let blk ← ext2AllocBlock
  if blk = 0 then return 0
  else
    match ← newObj with
    | none =>
      ext2FreeBlock blk
      return 0
    | some buf =>
      let _ ← ext2WriteBlock blk Bytes.zero
      dropObj buf
      return blk

def ext2ResolveBlockNum (x : Bytes) (logicalBlock blockSize : ℕ) : TrackM ℕ := do
  let ptrs := blockSize / 4
  if logicalBlock < 12 then return iBlock x logicalBlock
  else
    let l := logicalBlock - 12
    if l < ptrs then
      if iBlock x 12 = 0 then return 0
      else
        match ← newObj with
        | none => return 0
        | some buf =>
          let (_, ind) ← ext2ReadBlock (iBlock x 12)
          dropObj buf
          return ptrAt ind l
    else
      let l := l - ptrs
      if l < ptrs * ptrs then
        if iBlock x 13 = 0 then return 0
        else
          match ← newObj with
          | none => return 0
          | some buf =>
            let (_, ind) ← ext2ReadBlock (iBlock x 13)
            let singlyBlk := ptrAt ind (l / ptrs)
            if singlyBlk = 0 then
              dropObj buf
              return 0
            else
              let (_, ind) ← ext2ReadBlock singlyBlk
              dropObj buf
              return ptrAt ind (l % ptrs)
      else
        let l := l - ptrs * ptrs
        if iBlock x 14 = 0 then return 0
        else
          match ← newObj with
          | none => return 0
          | some buf =>
            let (_, ind) ← ext2ReadBlock (iBlock x 14)
            let rem := l % (ptrs * ptrs)
            let dblBlk := ptrAt ind (l / (ptrs * ptrs))
            if dblBlk = 0 then
              dropObj buf
              return 0
            else
              let (_, ind) ← ext2ReadBlock dblBlk
              let sglBlk := ptrAt ind (rem / ptrs)
              if sglBlk = 0 then
                dropObj buf
                return 0
              else
                let (_, ind) ← ext2ReadBlock sglBlk
                dropObj buf
                return ptrAt ind (rem % ptrs)

def ensureSlot (x : Bytes) (k : ℕ) : TrackM Bytes := do
  if iBlock x k = 0 then
    let blk ← ext2AllocIndirectBlock
    return setIBlock x k blk
  else return x

def ext2AssignBlockNum (x : Bytes) (logicalBlock physBlock blockSize : ℕ) :
    TrackM (ℤ × Bytes) := do
  let ptrs := blockSize / 4
  if logicalBlock < 12 then return (0, setIBlock x logicalBlock physBlock)
  else
    let l := logicalBlock - 12
    if l < ptrs then
      let x ← ensureSlot x 12
      if iBlock x 12 = 0 then return (-1, x)
      else
        match ← newObj with
        | none => return (-1, x)
        | some buf =>
          let (_, ind) ← ext2ReadBlock (iBlock x 12)
          let _ ← ext2WriteBlock (iBlock x 12) (ind.put32 (4 * l) physBlock)
          dropObj buf
          return (0, x)
    else
      let l := l - ptrs
      if l < ptrs * ptrs then
        let x ← ensureSlot x 13
        if iBlock x 13 = 0 then return (-1, x)
        else
          match ← newObj with
          | none => return (-1, x)
          | some buf =>
            let (_, ind) ← ext2ReadBlock (iBlock x 13)
            let idx1 := l / ptrs
            let idx2 := l % ptrs
            if ptrAt ind idx1 = 0 then
              let blk ← ext2AllocIndirectBlock
              if blk = 0 then
                dropObj buf
                return (-1, x)
              else
                let _ ← ext2WriteBlock (iBlock x 13) (ind.put32 (4 * idx1) blk)
                let (_, ind) ← ext2ReadBlock blk
                let _ ← ext2WriteBlock blk (ind.put32 (4 * idx2) physBlock)
                dropObj buf
                return (0, x)
            else
              let singlyBlk := ptrAt ind idx1
              let (_, ind) ← ext2ReadBlock singlyBlk
              let _ ← ext2WriteBlock singlyBlk (ind.put32 (4 * idx2) physBlock)
              dropObj buf
              return (0, x)
      else return (-1, x)

/-! ## `inode.c` -/

def ext2ReadInodeRaw (ino : ℕ) : TrackM (ℤ × Bytes) := do
  if ino = 0 then return (-1, Bytes.zero)
  else
    let v ← getVol
    let (blk, offsetInBlock) := v.inodeLoc ino
    match ← newObj with
    | none => return (-1, Bytes.zero)
    | some buf =>
      let (ret, bytes) ← ext2ReadBlock blk
      dropObj buf
      if ret = 0 then return (0, Bytes.zero.copy 0 (bytes.drop offsetInBlock) sizeofInode)
      else return (ret, Bytes.zero)

def ext2WriteInodeRaw (ino : ℕ) (x : Bytes) : TrackM ℤ := do
  if ino = 0 then return -1
  else
    let v ← getVol
    let (blk, offsetInBlock) := v.inodeLoc ino
    match ← newObj with
    | none => return -1
    | some buf =>
      let (ret, bytes) ← ext2ReadBlock blk
      if ret ≠ 0 then
        dropObj buf
        return ret
      else
        let ret ← ext2WriteBlock blk (bytes.copy offsetInBlock x sizeofInode)
        dropObj buf
        return ret

/-- `ext2_read_inode`: the inode and the two objects it consists of. -/
def ext2ReadInode (ino : ℕ) : TrackM (Option (Inode × InodePtr)) := do
  if ino = 0 then return none
  else
    match ← newObj with
    | none => return none
    | some ei =>
      let (ret, x) ← ext2ReadInodeRaw ino
      if ret ≠ 0 then
        dropObj ei
        return none
      else
        match ← inodeNew ei with
        | none =>
          dropObj ei
          return none
        | some p => return some (Inode.ofDisk ino x, p)

def ext2WriteInode (inode : Inode) : TrackM (ℤ × Inode) := do
  let inode := { inode with disk := inode.toDisk }
  let ret ← ext2WriteInodeRaw inode.ino inode.disk
  return (ret, inode)

def ext2AllocInode : TrackM ℕ := ext2Alloc .inode

def ext2FreeInode (ino : ℕ) : TrackM Unit := ext2Free .inode ino

def freeBlocks : List ℕ → TrackM Unit
  | [] => return
  | b :: bs => do
    if b ≠ 0 then ext2FreeBlock b
    freeBlocks bs

/-- The singly indirect block of `ext2_delete_inode`. -/
def deleteIndirect (x : Bytes) (blockSize : ℕ) : TrackM Unit := do
  match ← newObj with
  | none => return
  | some buf =>
    let (_, ind) ← ext2ReadBlock (iBlock x 12)
    freeBlocks ((List.range (blockSize / 4)).map fun j => ptrAt ind j)
    dropObj buf

def ext2DeleteInode (inode : Inode) : TrackM ℤ := do
  let v ← getVol
  freeBlocks ((List.range 12).map fun k => iBlock inode.disk k)
  if iBlock inode.disk 12 ≠ 0 then
    deleteIndirect inode.disk v.blockSize
    ext2FreeBlock (iBlock inode.disk 12)
  let _ ← ext2WriteInodeRaw inode.ino Bytes.zero
  ext2FreeInode inode.ino
  return 0

/-! ## `directory.c` -/

def dirLoop {α β : Type} (dir : Inode) (bs : ℕ) (search : Bytes → Option β)
    (hit : ℕ → β → TrackM α) (miss : TrackM α) : ℕ → ℕ → TrackM α
  | 0, _ => miss
  | n + 1, b => do
    let phys ← ext2ResolveBlockNum dir.disk b bs
    if phys = 0 then dirLoop dir bs search hit miss n (b + 1)
    else
      let (_, buf) ← ext2ReadBlock phys
      match search buf with
      | none => dirLoop dir bs search hit miss n (b + 1)
      | some y => hit phys y

/-- The copy of the entry and its object. -/
def findLoop (blockBuf : ℕ) (dir : Inode) (name : Name) (bs : ℕ) :
    ℕ → ℕ → TrackM (Option (DirEntry × ℕ)) :=
  dirLoop dir bs (fun buf => (findInBlock buf bs name bs 0).map (dirEntryAt buf))
    (fun _ de => do
      match ← newObj with
      | none =>
        dropObj blockBuf
        return none
      | some copy =>
        dropObj blockBuf
        return some (de, copy))
    (do
      dropObj blockBuf
      return none)

def ext2FindDirEntry (dir : Inode) (name : Name) : TrackM (Option (DirEntry × ℕ)) := do
  if !fsIsDir dir.mode then return none
  else
    let v ← getVol
    match ← newObj with
    | none => return none
    | some blockBuf =>
      findLoop blockBuf dir name v.blockSize (dirBlocks dir.size v.blockSize) 0

def ext2Lookup (dir : Inode) (name : Name) : TrackM (Option (Inode × InodePtr)) := do
  match ← ext2FindDirEntry dir name with
  | none => return none
  | some (de, copy) =>
    dropObj copy
    ext2ReadInode de.inode

/-- Was the entry added. The buffer is freed if it was. -/
def addLoop (blockBuf : ℕ) (dir : Inode) (name : Name) (ino type bs : ℕ) : ℕ → ℕ → TrackM Bool :=
  dirLoop dir bs (fun buf => addInBlock buf bs name ino type bs 0)
    (fun phys buf => do
      let _ ← ext2WriteBlock phys buf
      dropObj blockBuf
      return true)
    (return false)

def addFreshBlock (blockBuf : ℕ) (dir : Inode) (name : Name) (ino type bs blocks : ℕ) :
    TrackM (ℤ × Inode) := do
  let newBlk ← ext2AllocBlock
  if newBlk = 0 then
    dropObj blockBuf
    return (-1, dir)
  else
    let (ret, x) ← ext2AssignBlockNum dir.disk blocks newBlk bs
    let dir := { dir with disk := x }
    if ret ≠ 0 then
      ext2FreeBlock newBlk
      dropObj blockBuf
      return (-1, dir)
    else
      let _ ← ext2WriteBlock newBlk (freshDirBlock bs name ino type)
      dropObj blockBuf
      let (_, dir) ← ext2WriteInode (dir.growDir bs)
      return (0, dir)

def ext2AddDirEntry (dir : Inode) (name : Name) (ino type : ℕ) : TrackM (ℤ × Inode) := do
  if ino = 0 then return (-1, dir)
  else if 255 < name.length then return (-1, dir)
  else
    let v ← getVol
    let bs := v.blockSize
    let blocks := dirBlocks dir.size bs
    match ← newObj with
    | none => return (-1, dir)
    | some blockBuf =>
      if ← addLoop blockBuf dir name ino type bs blocks 0 then return (0, dir)
      else addFreshBlock blockBuf dir name ino type bs blocks

def removeLoop (blockBuf : ℕ) (dir : Inode) (name : Name) (bs : ℕ) : ℕ → ℕ → TrackM ℤ :=
  dirLoop dir bs (fun buf => removeInBlock buf bs name bs none 0)
    (fun phys buf => do
      let _ ← ext2WriteBlock phys buf
      dropObj blockBuf
      return 0)
    (do
      dropObj blockBuf
      return -1)

def ext2RemoveDirEntry (dir : Inode) (name : Name) : TrackM ℤ := do
  let v ← getVol
  match ← newObj with
  | none => return -1
  | some blockBuf =>
    removeLoop blockBuf dir name v.blockSize (dirBlocks dir.size v.blockSize) 0

def readLoop (x : Bytes) (bs count offset : ℕ) : ℕ → ℕ → Bytes → TrackM Bytes
  | 0, _, buf => return buf
  | fuel + 1, done, buf => do
    if done < count then
      let pos := add32 offset done
      let boff := pos % bs
      let chunk := min (bs - boff) (count - done)
      let phys ← ext2ResolveBlockNum x (pos / bs) bs
      if phys = 0 then readLoop x bs count offset fuel (done + chunk) (buf.fill done 0 chunk)
      else
        let (_, blockBuf) ← ext2ReadBlock phys
        readLoop x bs count offset fuel (done + chunk) (buf.copy done (blockBuf.drop boff) chunk)
    else return buf

/-- `ext2_readdir` and `ext2_read` behind their checks: the result and the buffer. -/
def readInode (inode : Inode) (buf : Bytes) (count offset : ℕ) : TrackM (ℤ × Bytes) := do
  let v ← getVol
  if inode.size ≤ offset then return (0, buf)
  else
    let count := if inode.size < add32 offset count then inode.size - offset else count
    if count = 0 then return (0, buf)
    else
      match ← newObj with
      | none => return (-1, buf)
      | some blockBuf =>
        let buf ← readLoop inode.disk v.blockSize count offset count 0 buf
        dropObj blockBuf
        return (toInt32 count, buf)

def ext2Readdir (dir : Inode) (buf : Bytes) (size offset : ℕ) : TrackM (ℤ × Bytes) := do
  if !fsIsDir dir.mode then return (-1, buf)
  else readInode dir buf size offset

def ext2Create (dir : Inode) (name : Name) (mode : ℕ) : TrackM (ℤ × Inode) := do
  let newIno ← ext2AllocInode
  if newIno = 0 then return (-1, dir)
  else
    let _ ← ext2WriteInodeRaw newIno (newFileInode mode)
    let (ret, dir) ← ext2AddDirEntry dir name newIno ext2FtRegFile
    if ret ≠ 0 then
      ext2FreeInode newIno
      return (-1, dir)
    else return (0, dir)

def ext2Mkdir (dir : Inode) (name : Name) (mode : ℕ) : TrackM (ℤ × Inode) := do
  let v ← getVol
  let bs := v.blockSize
  let newIno ← ext2AllocInode
  if newIno = 0 then return (-1, dir)
  else
    let blk ← ext2AllocBlock
    if blk = 0 then
      ext2FreeInode newIno
      return (-1, dir)
    else
      match ← newObj with
      | none =>
        ext2FreeBlock blk
        ext2FreeInode newIno
        return (-1, dir)
      | some blockBuf =>
        let _ ← ext2WriteBlock blk (newDirBlock bs newIno dir.ino)
        dropObj blockBuf
        let _ ← ext2WriteInodeRaw newIno (newDirInode mode bs blk)
        let (ret, dir) ← ext2AddDirEntry dir name newIno ext2FtDir
        if ret ≠ 0 then
          ext2FreeBlock blk
          ext2FreeInode newIno
          return (-1, dir)
        else
          let (_, dir) ← ext2WriteInode { dir with nlink := add32 dir.nlink 1 }
          let group := (newIno - 1) / v.sInodesPerGroup
          modifyVol fun v => { v with
            gd := Function.update v.gd group ((v.gd group).put16 16 (v.bgUsedDirsCount group + 1)) }
          let _ ← ext2FlushGroupDesc group
          return (0, dir)

def ext2Unlink (dir : Inode) (name : Name) : TrackM ℤ := do
  match ← ext2Lookup dir name with
  | none => return -1
  | some (target, p) =>
    if fsIsDir target.mode then
      inodePut p
      return -1
    else if (← ext2RemoveDirEntry dir name) ≠ 0 then
      inodePut p
      return -1
    else
      let target := { target with nlink := sub32 target.nlink 1 }
      if target.nlink = 0 then
        let _ ← ext2DeleteInode target
        inodePut p
        return 0
      else
        let _ ← ext2WriteInode target
        inodePut p
        return 0

def countLoop (target : Inode) (bs : ℕ) : ℕ → ℕ → TrackM ℕ
  | 0, _ => return 0
  | n + 1, b => do
    let phys ← ext2ResolveBlockNum target.disk b bs
    if phys = 0 then countLoop target bs n (b + 1)
    else
      let (_, buf) ← ext2ReadBlock phys
      let rest ← countLoop target bs n (b + 1)
      return countInBlock buf bs bs 0 + rest

def ext2Rmdir (dir : Inode) (name : Name) : TrackM (ℤ × Inode) := do
  match ← ext2Lookup dir name with
  | none => return (-1, dir)
  | some (target, p) =>
    if !fsIsDir target.mode then
      inodePut p
      return (-1, dir)
    else
      let v ← getVol
      let bs := v.blockSize
      match ← newObj with
      | none =>
        inodePut p
        return (-1, dir)
      | some blockBuf =>
        let entryCount ← countLoop target bs (dirBlocks target.size bs) 0
        dropObj blockBuf
        if 2 < toInt32 (entryCount % 2 ^ 32) then
          inodePut p
          return (-1, dir)
        else if (← ext2RemoveDirEntry dir name) ≠ 0 then
          inodePut p
          return (-1, dir)
        else
          let (_, dir) ← ext2WriteInode { dir with nlink := sub32 dir.nlink 1 }
          let _ ← ext2DeleteInode target
          let group := (target.ino - 1) / v.sInodesPerGroup
          modifyVol fun v =>
            if 0 < v.bgUsedDirsCount group then { v with
              gd := Function.update v.gd group
                ((v.gd group).put16 16 (v.bgUsedDirsCount group - 1)) }
            else v
          let _ ← ext2FlushGroupDesc group
          inodePut p
          return (0, dir)

/-! ## `ext2_ops.c` -/

def ext2Read (inode : Inode) (buf : Bytes) (count offset : ℕ) : TrackM (ℤ × Bytes) :=
  readInode inode buf count offset

def writeLoop (buf : Bytes) (bs count offset : ℕ) : ℕ → ℕ → Inode → TrackM (ℕ × Inode)
  | 0, done, inode => return (done, inode)
  | fuel + 1, done, inode => do
    if done < count then
      let pos := add32 offset done
      let blk := pos / bs
      let boff := pos % bs
      let chunk := min (bs - boff) (count - done)
      let phys ← ext2ResolveBlockNum inode.disk blk bs
      if phys = 0 then
        let phys ← ext2AllocBlock
        if phys = 0 then return (done, inode)
        else
          let (ret, x) ← ext2AssignBlockNum inode.disk blk phys bs
          if ret ≠ 0 then
            ext2FreeBlock phys
            return (done, { inode with disk := x })
          else
            let _ ← ext2WriteBlock phys (Bytes.zero.copy boff (buf.drop done) chunk)
            writeLoop buf bs count offset fuel (done + chunk) (inode.addBlock x bs)
      else if boff ≠ 0 ∨ chunk ≠ bs then
        let (_, blockBuf) ← ext2ReadBlock phys
        let _ ← ext2WriteBlock phys (blockBuf.copy boff (buf.drop done) chunk)
        writeLoop buf bs count offset fuel (done + chunk) inode
      else
        let _ ← ext2WriteBlock phys (Bytes.zero.copy boff (buf.drop done) chunk)
        writeLoop buf bs count offset fuel (done + chunk) inode
    else return (done, inode)

def ext2Write (inode : Inode) (buf : Bytes) (count offset : ℕ) : TrackM (ℤ × Inode) := do
  let v ← getVol
  match ← newObj with
  | none => return (-1, inode)
  | some blockBuf =>
    let (written, inode) ← writeLoop buf v.blockSize count offset count 0 inode
    dropObj blockBuf
    let (_, inode) ← ext2WriteInode (inode.growTo (add32 offset written))
    return (toInt32 written, inode)

end DvivonOS.Tracked
