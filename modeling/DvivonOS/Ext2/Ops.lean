import DvivonOS.Ext2.Directory

/-!
# File data

`ext2_read` and `ext2_write` of `ext2_ops.c` and `ext2_readdir` of `directory.c`. The loops advance
by at least one byte, so `count` is enough fuel.
-/

namespace DvivonOS

/-- The loop of `ext2_read` after `done` bytes. -/
def readLoop (x : Bytes) (bs count offset : ℕ) : ℕ → ℕ → Bytes → FsM Bytes
  | 0, _, buf => return buf
  | fuel + 1, done, buf => do
    if done < count then
      let pos := add32 offset done
      let boff := pos % bs
      let chunk := min (bs - boff) (count - done)
      let phys ← ext2ResolveBlockNum x (pos / bs) bs
      if phys = 0 then readLoop x bs count offset fuel (done + chunk) (buf.fill done 0 chunk)
      else
        let (_, blockBuf) ← ext2ReadBlock phys
        readLoop x bs count offset fuel (done + chunk) (buf.copy done (blockBuf.drop boff) chunk)
    else return buf

/-- `ext2_read`: the result and the buffer. -/
def ext2Read (inode : Inode) (buf : Bytes) (count offset : ℕ) : FsM (ℤ × Bytes) := do
  let v ← get
  if inode.size ≤ offset then return (0, buf)
  else
    let count := if inode.size < add32 offset count then inode.size - offset else count
    if count = 0 then return (0, buf)
    else if !(← kmallocOk) then return (-1, buf)
    else
      let buf ← readLoop inode.disk v.blockSize count offset count 0 buf
      return (toInt32 count, buf)

/-- `ext2_readdir` of `directory.c`: the result and the buffer. Its clamp and its loop are those of
`ext2_read`. -/
def ext2Readdir (dir : Inode) (buf : Bytes) (size offset : ℕ) : FsM (ℤ × Bytes) := do
  if !fsIsDir dir.mode then return (-1, buf)
  else ext2Read dir buf size offset

/-- `i_blocks += bs / 512` in the on-disk inode, copied to `blocks`. -/
def Inode.addBlock (inode : Inode) (x : Bytes) (bs : ℕ) : Inode :=
  let x := x.put32 28 (iBlocks x + bs / 512)
  { inode with disk := x, blocks := iBlocks x }

/-- The loop of `ext2_write` after `done` bytes: the number of bytes written and the inode. The
block buffer is not carried over: it is cleared for a new block, read for a partial write, and
overwritten as a whole otherwise. -/
def writeLoop (buf : Bytes) (bs count offset : ℕ) : ℕ → ℕ → Inode → FsM (ℕ × Inode)
  | 0, done, inode => return (done, inode)
  | fuel + 1, done, inode => do
    if done < count then
      let pos := add32 offset done
      let blk := pos / bs
      let boff := pos % bs
      let chunk := min (bs - boff) (count - done)
      let phys ← ext2ResolveBlockNum inode.disk blk bs
      if phys = 0 then
        let phys ← ext2AllocBlock
        if phys = 0 then return (done, inode)
        else
          let (ret, x) ← ext2AssignBlockNum inode.disk blk phys bs
          if ret ≠ 0 then
            ext2FreeBlock phys
            return (done, { inode with disk := x })
          else
            let _ ← ext2WriteBlock phys (Bytes.zero.copy boff (buf.drop done) chunk)
            writeLoop buf bs count offset fuel (done + chunk) (inode.addBlock x bs)
      else if boff ≠ 0 ∨ chunk ≠ bs then
        let (_, blockBuf) ← ext2ReadBlock phys
        let _ ← ext2WriteBlock phys (blockBuf.copy boff (buf.drop done) chunk)
        writeLoop buf bs count offset fuel (done + chunk) inode
      else
        let _ ← ext2WriteBlock phys (Bytes.zero.copy boff (buf.drop done) chunk)
        writeLoop buf bs count offset fuel (done + chunk) inode
    else return (done, inode)

/-- The size after writing up to `finish`. -/
def Inode.growTo (inode : Inode) (finish : ℕ) : Inode :=
  if inode.size < finish then
    { inode with size := finish, disk := inode.disk.put32 4 finish }
  else inode

/-- `ext2_write`: the result and the inode. -/
def ext2Write (inode : Inode) (buf : Bytes) (count offset : ℕ) : FsM (ℤ × Inode) := do
  let v ← get
  if !(← kmallocOk) then return (-1, inode)
  else
    let (written, inode) ← writeLoop buf v.blockSize count offset count 0 inode
    let (_, inode) ← ext2WriteInode (inode.growTo (add32 offset written))
    return (toInt32 written, inode)

end DvivonOS
