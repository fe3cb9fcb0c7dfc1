import DvivonOS.Ext2.Ops

/-!
# Paths, files and the operations of `lib/fs.c`

`dentry.c`, `file.c` and `lib/fs.c` over the one mounted volume. A path is the bytes of a C
string without the terminator. A path lookup returns the cached root inode itself, or a private
copy read from disk: `Handle.cached` tells the two apart, and an operation through the cached root
leaves its changes in `Vol.root` (`putBack`).
-/

namespace DvivonOS

abbrev Path := List UInt8

/-- `'/'`. -/
def slash : UInt8 := 47

/-! ## Error codes of `fs.h` -/

def fsOk : ℤ := 0

def fsErrInval : ℤ := -2

def fsErrNotFound : ℤ := -3

def fsErrIo : ℤ := -6

/-! ## `dentry.c` -/

/-- An inode pointer: the cached root, or an inode read for this lookup. -/
structure Handle where
  inode : Inode
  cached : Bool

/-- The inode a handle points to: the cached root is one object. -/
def Handle.deref (f : Handle) (v : Vol) : Inode := if f.cached then v.root else f.inode

/-- Leave the changed inode of a handle where the pointer points to. -/
def putBack (f : Handle) (inode : Inode) : FsM Unit :=
  modify fun v => if f.cached then { v with root := inode } else v

/-- The components of a path as the loop of `path_lookup_relative` cuts them: slashes are skipped,
and a component ends at a slash or after 255 bytes. -/
def components : ℕ → Path → List Name
  | 0, _ => []
  | fuel + 1, path =>
    let path := path.dropWhile (· = slash)
    if path = [] then []
    else
      let name := (path.takeWhile (· ≠ slash)).take 255
      name :: components fuel (path.drop name.length)

/-- The lookups of `path_lookup_relative`. -/
def lookupAll : List Name → Handle → FsM (Option Handle)
  | [], current => return some current
  | name :: names, current => do
    match ← ext2Lookup current.inode name with
    | none => return none
    | some next => lookupAll names ⟨next, false⟩

def pathLookup (path : Path) : FsM (Option Handle) := do
  if path.head? ≠ some slash then return none
  else
    let v ← get
    lookupAll (components path.length path) ⟨v.root, true⟩

/-! ## `lib/fs.c` -/

/-- The scan `while (end > 0 && path[end] == '/') end--`. -/
def skipSlashes (path : Path) : ℕ → ℕ
  | 0 => 0
  | e + 1 => if path.getD (e + 1) 0 = slash then skipSlashes path e else e + 1

/-- The scan `while (slash > 0 && path[slash] != '/') slash--`. -/
def findSlash (path : Path) : ℕ → ℕ
  | 0 => 0
  | e + 1 => if path.getD (e + 1) 0 ≠ slash then findSlash path e else e + 1

/-- `split_absolute_path` with the buffer sizes `pmax` and `nmax`: the parent and the name. The
length is an `int`. -/
def splitAbsolutePath (path : Path) (pmax nmax : ℕ) : Option (Path × Name) :=
  let len := path.length
  if toInt32 len ≤ 1 then none
  else if path.head? ≠ some slash then none
  else
    let finish := skipSlashes path (len - 1)
    let cut := findSlash path finish
    let nlen := finish - cut
    if nlen = 0 ∨ nmax ≤ nlen then none
    else
      let name := (path.drop (cut + 1)).take nlen
      if cut = 0 then some ([slash], name)
      else if pmax ≤ cut then none
      else some (path.take cut, name)

/-- `resolve_parent`: the parent and the name, or the error code. -/
def resolveParent (path : Path) : FsM (Except ℤ (Handle × Name)) := do
  match splitAbsolutePath path 256 256 with
  | none => return .error fsErrInval
  | some (parentPath, name) =>
    match ← pathLookup parentPath with
    | none => return .error fsErrNotFound
    | some parent => return .ok (parent, name)

/-- `rc == 0 ? FS_OK : FS_ERR_IO`. -/
def fsStatus (rc : ℤ) : ℤ := if rc = 0 then fsOk else fsErrIo

/-- The shape shared by the operations on a directory entry: resolve the parent, run the inode
operation on it, translate its status. -/
def onParent (path : Path) (op : Inode → Name → FsM (ℤ × Inode)) : FsM ℤ := do
  match ← resolveParent path with
  | .error err => return err
  | .ok (parent, name) =>
    let (rc, inode) ← op parent.inode name
    putBack parent inode
    return fsStatus rc

def fsCreateFile (path : Path) : FsM ℤ := onParent path fun dir name => ext2Create dir name 0o644

def fsRemoveFile (path : Path) : FsM ℤ := onParent path fun dir name => do
  return (← ext2Unlink dir name, dir)

def fsCreateDir (path : Path) : FsM ℤ := onParent path fun dir name => ext2Mkdir dir name 0o755

def fsRemoveDir (path : Path) : FsM ℤ := onParent path ext2Rmdir

/-! ## `file.c` -/

/-- A `file_t`; of the flags only `FILE_FLAG_APPEND` matters. -/
structure File where
  handle : Handle
  append : Bool
  offset : ℕ

def fileOpen (path : Path) (append : Bool) : FsM (Option File) := do
  match ← pathLookup path with
  | none => return none
  | some handle => if ← kmallocOk then return some ⟨handle, append, 0⟩ else return none

/-- `file_read`: the result, the file and the buffer. -/
def fileRead (file : File) (buf : Bytes) (count : ℕ) : FsM (ℤ × File × Bytes) := do
  let (ret, buf) ← ext2Read file.handle.inode buf count file.offset
  let offset := if 0 < ret then add32 file.offset (ofInt32 ret) else file.offset
  return (ret, { file with offset := offset }, buf)

/-- `file_write`: the result and the file. -/
def fileWrite (file : File) (buf : Bytes) (count : ℕ) : FsM (ℤ × File) := do
  let offset := if file.append then file.handle.inode.size else file.offset
  let (ret, inode) ← ext2Write file.handle.inode buf count offset
  putBack file.handle inode
  let offset := if 0 < ret then add32 offset (ofInt32 ret) else offset
  return (ret, { file with handle := { file.handle with inode := inode }, offset := offset })

/-- `file_seek`: the result and the file. -/
def fileSeek (file : File) (offset : ℕ) : ℤ × File :=
  (toInt32 offset, { file with offset := offset })

/-- `fs_write_file` and `fs_append_file`. -/
def fsWrite (append : Bool) (path : Path) (data : Bytes) (len : ℕ) : FsM ℕ := do
  match ← fileOpen path append with
  | none => return ofInt32 fsErrNotFound
  | some file =>
    let (n, _) ← fileWrite file data len
    return if n < 0 then ofInt32 fsErrIo else ofInt32 n

def fsWriteFile (path : Path) (data : Bytes) (len : ℕ) : FsM ℕ := fsWrite false path data len

def fsAppendFile (path : Path) (data : Bytes) (len : ℕ) : FsM ℕ := fsWrite true path data len

def fsExists (path : Path) : FsM Bool := do
  match ← pathLookup path with
  | none => return false
  | some _ => return true

end DvivonOS
