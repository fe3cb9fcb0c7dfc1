import DvivonOS.Ext2.Tracked
import DvivonOS.Vfs.Model

/-!
# Paths, files and `lib/fs.c` with their heap objects

`dentry.c`, `file.c` and `lib/fs.c` over `Ext2.Tracked`. The root mount may be missing; otherwise
`InodePtr` are the objects of its cached root inode `sb->root`.
-/

namespace DvivonOS.Tracked

open Objects Refs

/-! ## Error codes of `fs.h` -/

def fsErrNotDir : ℤ := -4

def fsErrNotFile : ℤ := -5

def fsErrNomem : ℤ := -7

/-! ## `dentry.c` -/

/-- An inode pointer with its objects. -/
structure Held where
  handle : Handle
  ptr : InodePtr

/-- The lookups of `path_lookup_relative`; each gives the directory back that it has searched. -/
def lookupAll : List Name → Held → TrackM (Option Held)
  | [], current => return some current
  | name :: names, current => do
    let next ← ext2Lookup current.handle.inode name
    inodePut current.ptr
    match next with
    | none => return none
    | some (inode, p) => lookupAll names ⟨⟨inode, false⟩, p⟩

def pathLookup (root : Option InodePtr) (path : Path) : TrackM (Option Held) := do
  if path.head? ≠ some slash then return none
  else
    match root with
    | none => return none
    | some p =>
      let v ← getVol
      inodeGet p
      lookupAll (components path.length path) ⟨⟨v.root, true⟩, p⟩

/-! ## `file.c` -/

/-- A `file_t`, with its object and those of its inode. -/
structure OpenFile where
  file : File
  ptr : InodePtr
  obj : ℕ

def fileOpen (root : Option InodePtr) (path : Path) (append : Bool) : TrackM (Option OpenFile) := do
  match ← pathLookup root path with
  | none => return none
  | some held =>
    match ← newObj with
    | none =>
      inodePut held.ptr
      return none
    | some obj => return some ⟨⟨held.handle, append, 0⟩, held.ptr, obj⟩

def fileClose (f : OpenFile) : TrackM Unit := do
  inodePut f.ptr
  dropObj f.obj

/-- `file_read`: the result, the file and the buffer. -/
def fileRead (file : File) (buf : Bytes) (count : ℕ) : TrackM (ℤ × File × Bytes) := do
  let (ret, buf) ← ext2Read file.handle.inode buf count file.offset
  let offset := if 0 < ret then add32 file.offset (ofInt32 ret) else file.offset
  return (ret, { file with offset := offset }, buf)

/-- `file_write`: the result. -/
def fileWrite (file : File) (buf : Bytes) (count : ℕ) : TrackM ℤ := do
  let offset := if file.append then file.handle.inode.size else file.offset
  let (ret, inode) ← ext2Write file.handle.inode buf count offset
  onRest (putBack file.handle inode)
  return ret

/-- `fs_stat_t`. -/
structure FsStat where
  ino : ℕ
  mode : ℕ
  size : ℕ
  uid : ℕ
  gid : ℕ
  nlink : ℕ
  atime : ℕ
  mtime : ℕ
  ctime : ℕ
  blksize : ℕ
  blocks : ℕ

/-- `file_stat` with `ext2_stat`. -/
def fileStat (file : File) : TrackM FsStat := do
  let v ← getVol
  let inode := file.handle.inode
  return {
    ino := inode.ino
    mode := inode.mode
    size := inode.size
    uid := inode.uid
    gid := inode.gid
    nlink := inode.nlink
    atime := inode.atime
    mtime := inode.mtime
    ctime := inode.ctime
    blksize := v.blockSize
    blocks := inode.blocks }

/-! ## `lib/fs.c` -/

section LibFs

variable (root : Option InodePtr) (path : Path)

def resolveParent : TrackM (Except ℤ (Held × Name)) := do
  match splitAbsolutePath path 256 256 with
  | none => return .error fsErrInval
  | some (parentPath, name) =>
    match ← pathLookup root parentPath with
    | none => return .error fsErrNotFound
    | some parent => return .ok (parent, name)

/-- The shape shared by the operations on a directory entry. -/
def onParent (op : Inode → Name → TrackM (ℤ × Inode)) : TrackM ℤ := do
  match ← resolveParent root path with
  | .error err => return err
  | .ok (parent, name) =>
    let (rc, inode) ← op parent.handle.inode name
    onRest (putBack parent.handle inode)
    inodePut parent.ptr
    return fsStatus rc

def fsCreateFile : TrackM ℤ := onParent root path fun dir name => ext2Create dir name 0o644

def fsRemoveFile : TrackM ℤ := onParent root path fun dir name => do
  return (← ext2Unlink dir name, dir)

def fsCreateDir : TrackM ℤ := onParent root path fun dir name => ext2Mkdir dir name 0o755

def fsRemoveDir : TrackM ℤ := onParent root path ext2Rmdir

/-- The loop of `fs_read_file` after `total` bytes: the number of bytes and the buffer. -/
def readFileLoop (bufSize : ℕ) : ℕ → ℕ → File → Bytes → TrackM (ℕ × Bytes)
  | 0, total, _, buf => return (total, buf)
  | fuel + 1, total, file, buf => do
    if total < bufSize then
      let (n, file, part) ← fileRead file (buf.drop total) (bufSize - total)
      let buf := buf.copy total part (bufSize - total)
      if n ≤ 0 then return (total, buf)
      else readFileLoop bufSize fuel (add32 total (ofInt32 n)) file buf
    else return (total, buf)

/-- The shape shared by the calls that open a file: `notFound` if that fails, and otherwise the
result of `body`, after which the file is closed. -/
def withFile {α : Type} (append : Bool) (notFound : α) (body : File → TrackM α) : TrackM α := do
  match ← fileOpen root path append with
  | none => return notFound
  | some f =>
    let r ← body f.file
    fileClose f
    return r

/-- `fs_read_file`: the result and the buffer. Every round of the loop reads a byte. -/
def fsReadFile (buf : Bytes) (bufSize : ℕ) : TrackM (ℕ × Bytes) := do
  if bufSize = 0 then return (ofInt32 fsErrInval, buf)
  else
    withFile root path false (ofInt32 fsErrNotFound, buf) fun file =>
      readFileLoop bufSize bufSize 0 file buf

/-- `fs_write_file` and `fs_append_file`. -/
def fsWrite (append : Bool) (data : Bytes) (len : ℕ) : TrackM ℕ :=
  withFile root path append (ofInt32 fsErrNotFound) fun file => do
    let n ← fileWrite file data len
    return if n < 0 then ofInt32 fsErrIo else ofInt32 n

def fsWriteFile (data : Bytes) (len : ℕ) : TrackM ℕ := fsWrite root path false data len

def fsAppendFile (data : Bytes) (len : ℕ) : TrackM ℕ := fsWrite root path true data len

inductive FsEntryType
  | unknown
  | file
  | dir
  | link

/-- The type of an entry, from `EXT2_FT_REG_FILE`, `EXT2_FT_DIR` and `EXT2_FT_SYMLINK`. -/
def fsEntryType (fileType : ℕ) : FsEntryType :=
  if fileType = ext2FtRegFile then .file
  else if fileType = ext2FtDir then .dir
  else if fileType = 7 then .link
  else .unknown

/-- `fs_dir_entry_t`. -/
structure FsDirEntry where
  name : Name
  ino : ℕ
  type : FsEntryType

/-- The loop of `fs_list_dir` over the records from `off` on; `room` entries are left. -/
def listEntries (raw : Bytes) (bytes : ℕ) (skipDot : Bool) : ℕ → ℕ → ℕ → List FsDirEntry
  | 0, _, _ => []
  | fuel + 1, off, room =>
    if off < bytes ∧ 0 < room then
      if deRecLen raw off = 0 then []
      else
        let de := dirEntryAt raw off
        let next := add32 off de.recLen
        if de.inode ≠ 0 ∧ (!skipDot ∨ (de.name ≠ dotName ∧ de.name ≠ dotdotName)) then
          ⟨de.name, de.inode, fsEntryType de.fileType⟩ ::
            listEntries raw bytes skipDot fuel next (room - 1)
        else listEntries raw bytes skipDot fuel next room
    else []

/-- `fs_list_dir`: the entries, or the error. Every record advances by a byte at least. -/
def fsListDir (maxEntries : ℕ) (skipDot : Bool) : TrackM (Except ℤ (List FsDirEntry)) := do
  if maxEntries = 0 then return .error fsErrInval
  else
    match ← pathLookup root path with
    | none => return .error fsErrNotFound
    | some dir =>
      if !fsIsDir dir.handle.inode.mode then
        inodePut dir.ptr
        return .error fsErrNotDir
      else if dir.handle.inode.size = 0 then
        inodePut dir.ptr
        return .ok []
      else
        match ← newObj with
        | none =>
          inodePut dir.ptr
          return .error fsErrNomem
        | some raw =>
          let (bytes, buf) ← ext2Readdir dir.handle.inode Bytes.zero dir.handle.inode.size 0
          inodePut dir.ptr
          if bytes ≤ 0 then
            dropObj raw
            return if bytes = 0 then .ok [] else .error fsErrIo
          else
            dropObj raw
            return .ok (listEntries buf bytes.toNat skipDot bytes.toNat 0 maxEntries)

/-- `fs_stat`: the error, or what has been filled in. -/
def fsStat : TrackM (Except ℤ FsStat) :=
  withFile root path false (.error fsErrNotFound) fun file => do
    let st ← fileStat file
    return .ok st

/-- The shape shared by the calls that look at an inode and give it back. -/
def withInode {α : Type} (notFound : α) (query : Inode → α) : TrackM α := do
  match ← pathLookup root path with
  | none => return notFound
  | some held =>
    let result := query held.handle.inode
    inodePut held.ptr
    return result

def fsExists : TrackM Bool := withInode root path false fun _ => true

/-- `fs_is_dir`. -/
def fsIsDirPath : TrackM Bool := withInode root path false fun inode => fsIsDir inode.mode

/-- `fs_is_file`. -/
def fsIsFilePath : TrackM Bool := withInode root path false fun inode => fsIsFile inode.mode

def fsFileSize : TrackM ℕ :=
  withInode root path (ofInt32 fsErrNotFound) fun inode =>
    if fsIsFile inode.mode then inode.size else ofInt32 fsErrNotFile

end LibFs

/-! ## The calls -/

inductive FsCall
  | createFile (path : Path)
  | removeFile (path : Path)
  | createDir (path : Path)
  | removeDir (path : Path)
  | readFile (path : Path) (buf : Bytes) (bufSize : ℕ)
  | writeFile (path : Path) (data : Bytes) (len : ℕ)
  | appendFile (path : Path) (data : Bytes) (len : ℕ)
  | listDir (path : Path) (maxEntries : ℕ) (skipDot : Bool)
  | stat (path : Path)
  | pathExists (path : Path)
  | isDir (path : Path)
  | isFile (path : Path)
  | fileSize (path : Path)

/-- What a call does; its result is returned to the caller and not kept. -/
def FsCall.exec (root : Option InodePtr) : FsCall → TrackM Unit
  | createFile path => do let _ ← fsCreateFile root path
  | removeFile path => do let _ ← fsRemoveFile root path
  | createDir path => do let _ ← fsCreateDir root path
  | removeDir path => do let _ ← fsRemoveDir root path
  | readFile path buf bufSize => do let _ ← fsReadFile root path buf bufSize
  | writeFile path data len => do let _ ← fsWriteFile root path data len
  | appendFile path data len => do let _ ← fsAppendFile root path data len
  | listDir path maxEntries skipDot => do let _ ← fsListDir root path maxEntries skipDot
  | stat path => do let _ ← fsStat root path
  | pathExists path => do let _ ← fsExists root path
  | isDir path => do let _ ← fsIsDirPath root path
  | isFile path => do let _ ← fsIsFilePath root path
  | fileSize path => do let _ ← fsFileSize root path

end DvivonOS.Tracked
