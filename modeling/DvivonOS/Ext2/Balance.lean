import DvivonOS.Ext2.Tracked

/-!
# ext2 frees what it allocates

Each function of `Ext2.Tracked` is neutral, or hands over exactly the inode or the entry that it
returns, whatever allocation fails and whatever the volume contains.
-/

namespace DvivonOS.Tracked

open Objects Refs

theorem neutral_getVol : Neutral getVol := neutral_onRest _

theorem neutral_modifyVol (f : Vol → Vol) : Neutral (modifyVol f) := neutral_onRest _

theorem neutral_readBlock (block : ℕ) : Neutral (ext2ReadBlock block) := neutral_onRest _

theorem neutral_writeBlock (block : ℕ) (buf : Bytes) : Neutral (ext2WriteBlock block buf) :=
  neutral_onRest _

theorem moves_endBuffer {α : Type} {buf : ℕ} {a : α} :
    Moves none [.object buf] (do dropObj buf; return a : TrackM α) fun _ => [] :=
  moves_dropObj.bind fun _ => neutral_pure _

/-! ## `superblock.c` -/

theorem neutral_flushSuperblock : Neutral ext2FlushSuperblock := by
  refine neutral_getVol.then fun v => Moves.ite (neutral_writeBlock _ _) ?_
  refine moves_newObj (neutral_pure _) fun buf => ?_
  exact (neutral_readBlock _).then fun _ => (neutral_writeBlock _ _).then fun _ =>
    moves_endBuffer

theorem neutral_flushGroupDesc (group : ℕ) : Neutral (ext2FlushGroupDesc group) := by
  refine neutral_getVol.then fun v => moves_newObj (neutral_pure _) fun buf => ?_
  exact (neutral_readBlock _).then fun _ => (neutral_writeBlock _ _).then fun _ =>
    moves_endBuffer

/-! ## `block.c` -/

/-- The end of the four bitmap functions, after the bitmap has been written. -/
theorem moves_endBitmap {α : Type} {bitmap group : ℕ} {f : Vol → Vol} {a : α} :
    Moves none [.object bitmap] (do
      dropObj bitmap
      modifyVol f
      let _ ← ext2FlushGroupDesc group
      let _ ← ext2FlushSuperblock
      return a : TrackM α) fun _ => [] :=
  moves_dropObj.bind fun _ => (neutral_modifyVol _).then fun _ =>
    (neutral_flushGroupDesc _).then fun _ => neutral_flushSuperblock.then fun _ => neutral_pure _

theorem moves_allocLoop (k : Kind) (bitmap n : ℕ) :
    ∀ g, Moves none [.object bitmap] (allocLoop k bitmap n g) fun _ => [] := by
  induction n with
  | zero => exact fun g => moves_endBuffer
  | succ n ih =>
    intro g
    refine neutral_getVol.then fun v => Moves.ite (ih _) ?_
    refine (neutral_readBlock _).then fun r => ?_
    obtain ⟨-, bytes⟩ := r
    cases hfound : findClear bytes (v.groupBits k g) with
    | none => simpa only [hfound] using ih (g + 1)
    | some i =>
      simp only [hfound]
      exact (neutral_writeBlock _ _).then fun _ => moves_endBitmap

theorem neutral_alloc (k : Kind) : Neutral (ext2Alloc k) :=
  neutral_getVol.then fun _ => Moves.ite (neutral_pure _) <|
    moves_newObj (neutral_pure _) fun bitmap => moves_allocLoop k bitmap _ _

theorem neutral_free (k : Kind) (n : ℕ) : Neutral (ext2Free k n) :=
  neutral_getVol.then fun _ => moves_newObj (neutral_pure _) fun _ =>
    (neutral_readBlock _).then fun _ => (neutral_writeBlock _ _).then fun _ => moves_endBitmap

theorem neutral_allocIndirectBlock : Neutral ext2AllocIndirectBlock := by
  refine (neutral_alloc .block).then fun blk => Moves.ite (neutral_pure _) ?_
  refine moves_newObj ((neutral_free .block _).then fun _ => neutral_pure _) fun buf => ?_
  exact (neutral_writeBlock _ _).then fun _ => moves_endBuffer

theorem neutral_resolveBlockNum (x : Bytes) (logicalBlock blockSize : ℕ) :
    Neutral (ext2ResolveBlockNum x logicalBlock blockSize) := by
  refine Moves.ite (neutral_pure _) (Moves.ite (Moves.ite (neutral_pure _) ?_)
    (Moves.ite (Moves.ite (neutral_pure _) ?_) (Moves.ite (neutral_pure _) ?_)))
  · refine moves_newObj (neutral_pure _) fun buf => ?_
    exact (neutral_readBlock _).then fun _ => moves_endBuffer
  · refine moves_newObj (neutral_pure _) fun buf => ?_
    refine (neutral_readBlock _).then fun _ => Moves.ite (moves_endBuffer) ?_
    exact (neutral_readBlock _).then fun _ => moves_endBuffer
  · refine moves_newObj (neutral_pure _) fun buf => ?_
    refine (neutral_readBlock _).then fun _ => Moves.ite (moves_endBuffer) ?_
    refine (neutral_readBlock _).then fun _ => Moves.ite (moves_endBuffer) ?_
    exact (neutral_readBlock _).then fun _ => moves_endBuffer

theorem neutral_ensureSlot (x : Bytes) (k : ℕ) : Neutral (ensureSlot x k) :=
  Moves.ite (neutral_allocIndirectBlock.then fun _ => neutral_pure _) (neutral_pure _)

theorem neutral_assignBlockNum (x : Bytes) (logicalBlock physBlock blockSize : ℕ) :
    Neutral (ext2AssignBlockNum x logicalBlock physBlock blockSize) := by
  refine Moves.ite (neutral_pure _) (Moves.ite ?_ (Moves.ite ?_ (neutral_pure _)))
  · refine (neutral_ensureSlot _ _).then fun x => Moves.ite (neutral_pure _) ?_
    refine moves_newObj (neutral_pure _) fun buf => ?_
    exact (neutral_readBlock _).then fun _ => (neutral_writeBlock _ _).then fun _ => moves_endBuffer
  · refine (neutral_ensureSlot _ _).then fun x => Moves.ite (neutral_pure _) ?_
    refine moves_newObj (neutral_pure _) fun buf => (neutral_readBlock _).then fun _ => ?_
    refine Moves.ite (neutral_allocIndirectBlock.then fun blk => Moves.ite moves_endBuffer ?_) ?_
    · exact (neutral_writeBlock _ _).then fun _ => (neutral_readBlock _).then fun _ =>
        (neutral_writeBlock _ _).then fun _ => moves_endBuffer
    · exact (neutral_readBlock _).then fun _ => (neutral_writeBlock _ _).then fun _ =>
        moves_endBuffer

/-! ## `inode.c` -/

theorem neutral_readInodeRaw (ino : ℕ) : Neutral (ext2ReadInodeRaw ino) := by
  refine Moves.ite (neutral_pure _) (neutral_getVol.then fun v => ?_)
  refine moves_newObj (neutral_pure _) fun buf => (neutral_readBlock _).then fun _ => ?_
  exact moves_dropObj.bind fun _ => Moves.ite (neutral_pure _) (neutral_pure _)

theorem neutral_writeInodeRaw (ino : ℕ) (x : Bytes) : Neutral (ext2WriteInodeRaw ino x) := by
  refine Moves.ite (neutral_pure _) (neutral_getVol.then fun v => ?_)
  refine moves_newObj (neutral_pure _) fun buf => (neutral_readBlock _).then fun _ => ?_
  exact Moves.ite moves_endBuffer ((neutral_writeBlock _ _).then fun _ => moves_endBuffer)

theorem neutral_writeInode (inode : Inode) : Neutral (ext2WriteInode inode) :=
  (neutral_writeInodeRaw _ _).then fun _ => neutral_pure _

def lookupPieces (r : Option (Inode × InodePtr)) : List Piece := r.elim [] fun i => inodePieces i.2

theorem moves_readInode (ino : ℕ) : Moves none [] (ext2ReadInode ino) lookupPieces := by
  refine Moves.ite (moves_pure rfl) (moves_newObj (moves_pure rfl) fun ei => ?_)
  refine (neutral_readInodeRaw _).then fun _ => Moves.ite ?_ ?_
  · exact moves_dropObj.bind fun _ => moves_pure rfl
  · exact moves_inodeNew (moves_dropObj.bind fun _ => moves_pure rfl) fun p => moves_pure rfl

theorem neutral_freeBlocks (bs : List ℕ) : Neutral (freeBlocks bs) := by
  induction bs with
  | nil => exact neutral_pure _
  | cons b bs ih =>
    unfold freeBlocks
    split
    · exact (neutral_free .block b).then fun _ => ih
    · exact ih

theorem neutral_deleteIndirect (x : Bytes) (blockSize : ℕ) :
    Neutral (deleteIndirect x blockSize) :=
  moves_newObj (neutral_pure _) fun _ => (neutral_readBlock _).then fun _ =>
    (neutral_freeBlocks _).then fun _ => moves_dropObj

theorem neutral_deleteInode (inode : Inode) : Neutral (ext2DeleteInode inode) := by
  have hend : Neutral (do
      let _ ← ext2WriteInodeRaw inode.ino Bytes.zero
      ext2FreeInode inode.ino
      return 0 : TrackM ℤ) :=
    (neutral_writeInodeRaw _ _).then fun _ => (neutral_free .inode _).then fun _ => neutral_pure _
  refine neutral_getVol.then fun v => (neutral_freeBlocks _).then fun _ => ?_
  split
  · exact (neutral_deleteIndirect _ _).then fun _ => (neutral_free .block _).then fun _ => hend
  · exact hend

/-! ## `directory.c` -/

def entryPieces (r : Option (DirEntry × ℕ)) : List Piece := r.elim [] fun e => [.object e.2]

theorem moves_dirLoop {α β : Type} {dir : Inode} {bs : ℕ} {search : Bytes → Option β}
    {hit : ℕ → β → TrackM α} {miss : TrackM α} {l : List Piece} {l' : α → List Piece}
    (hhit : ∀ phys y, Moves none l (hit phys y) l') (hmiss : Moves none l miss l') (n : ℕ) :
    ∀ b, Moves none l (dirLoop dir bs search hit miss n b) l' := by
  induction n with
  | zero => exact fun _ => hmiss
  | succ n ih =>
    intro b
    refine (neutral_resolveBlockNum _ _ _).then fun phys => Moves.ite (ih _) ?_
    refine (neutral_readBlock _).then fun r => ?_
    obtain ⟨-, buf⟩ := r
    cases hfound : search buf with
    | none => simpa only [hfound] using ih (b + 1)
    | some y => simpa only [hfound] using hhit phys y

theorem moves_findLoop (blockBuf : ℕ) (dir : Inode) (name : Name) (bs n b : ℕ) :
    Moves none [.object blockBuf] (findLoop blockBuf dir name bs n b) entryPieces := by
  refine moves_dirLoop (fun _ de => moves_newObj ?_ fun copy => ?_) ?_ n b
  · exact moves_dropObj.bind fun _ => moves_pure rfl
  · exact (moves_dropObj.bind fun _ => moves_pure rfl).perm (List.Perm.swap ..)
  · exact moves_dropObj.bind fun _ => moves_pure rfl

theorem moves_findDirEntry (dir : Inode) (name : Name) :
    Moves none [] (ext2FindDirEntry dir name) entryPieces :=
  Moves.ite (moves_pure rfl) <| neutral_getVol.then fun _ =>
    moves_newObj (moves_pure rfl) fun blockBuf => moves_findLoop blockBuf _ _ _ _ _

theorem moves_lookup (dir : Inode) (name : Name) :
    Moves none [] (ext2Lookup dir name) lookupPieces := by
  refine (moves_findDirEntry dir name).bind fun r => ?_
  cases r with
  | none => exact moves_pure rfl
  | some e => exact moves_dropObj.bind fun _ => moves_readInode _

theorem moves_addLoop (blockBuf : ℕ) (dir : Inode) (name : Name) (ino type bs n b : ℕ) :
    Moves none [.object blockBuf] (addLoop blockBuf dir name ino type bs n b)
      fun added => if added then [] else [.object blockBuf] := by
  refine moves_dirLoop (fun phys buf => (neutral_writeBlock phys buf).then fun _ => ?_) ?_ n b
  · exact moves_dropObj.bind fun _ => moves_pure rfl
  · exact moves_pure rfl

theorem moves_addFreshBlock (blockBuf : ℕ) (dir : Inode) (name : Name) (ino type bs blocks : ℕ) :
    Moves none [.object blockBuf] (addFreshBlock blockBuf dir name ino type bs blocks)
      fun _ => [] := by
  refine (neutral_alloc .block).then fun newBlk => Moves.ite moves_endBuffer ?_
  refine (neutral_assignBlockNum _ _ _ _).then fun r => Moves.ite ?_ ?_
  · exact (neutral_free .block _).then fun _ => moves_endBuffer
  · exact (neutral_writeBlock _ _).then fun _ => moves_dropObj.bind fun _ =>
      (neutral_writeInode _).then fun _ => neutral_pure _

theorem neutral_addDirEntry (dir : Inode) (name : Name) (ino type : ℕ) :
    Neutral (ext2AddDirEntry dir name ino type) := by
  refine Moves.ite (neutral_pure _) (Moves.ite (neutral_pure _) ?_)
  refine neutral_getVol.then fun v => moves_newObj (neutral_pure _) fun blockBuf => ?_
  refine (moves_addLoop blockBuf dir name ino type _ _ _).bind fun added => ?_
  cases added with
  | true => exact neutral_pure _
  | false => exact moves_addFreshBlock _ _ _ _ _ _ _

theorem moves_removeLoop (blockBuf : ℕ) (dir : Inode) (name : Name) (bs n b : ℕ) :
    Moves none [.object blockBuf] (removeLoop blockBuf dir name bs n b) fun _ => [] := by
  refine moves_dirLoop (fun phys buf => ?_) moves_endBuffer n b
  exact (neutral_writeBlock phys buf).then fun _ => moves_endBuffer

theorem neutral_removeDirEntry (dir : Inode) (name : Name) :
    Neutral (ext2RemoveDirEntry dir name) :=
  neutral_getVol.then fun _ => moves_newObj (neutral_pure _) fun blockBuf =>
    moves_removeLoop blockBuf _ _ _ _ _

theorem neutral_readLoop (x : Bytes) (bs count offset fuel : ℕ) :
    ∀ done buf, Neutral (readLoop x bs count offset fuel done buf) := by
  induction fuel with
  | zero => exact fun _ _ => neutral_pure _
  | succ fuel ih =>
    intro done buf
    refine Moves.ite ?_ (neutral_pure _)
    refine (neutral_resolveBlockNum _ _ _).then fun phys => Moves.ite (ih _ _) ?_
    exact (neutral_readBlock _).then fun _ => ih _ _

theorem neutral_readInode (inode : Inode) (buf : Bytes) (count offset : ℕ) :
    Neutral (readInode inode buf count offset) := by
  refine neutral_getVol.then fun v => Moves.ite (neutral_pure _) (Moves.ite (neutral_pure _) ?_)
  refine moves_newObj (neutral_pure _) fun blockBuf => ?_
  exact (neutral_readLoop _ _ _ _ _ _ _).then fun _ => moves_endBuffer

theorem neutral_readdir (dir : Inode) (buf : Bytes) (size offset : ℕ) :
    Neutral (ext2Readdir dir buf size offset) :=
  Moves.ite (neutral_pure _) (neutral_readInode _ _ _ _)

theorem neutral_create (dir : Inode) (name : Name) (mode : ℕ) :
    Neutral (ext2Create dir name mode) := by
  refine (neutral_alloc .inode).then fun newIno => Moves.ite (neutral_pure _) ?_
  refine (neutral_writeInodeRaw _ _).then fun _ => (neutral_addDirEntry _ _ _ _).then fun _ => ?_
  exact Moves.ite ((neutral_free .inode _).then fun _ => neutral_pure _) (neutral_pure _)

theorem neutral_mkdir (dir : Inode) (name : Name) (mode : ℕ) :
    Neutral (ext2Mkdir dir name mode) := by
  refine neutral_getVol.then fun v => (neutral_alloc .inode).then fun newIno => ?_
  refine Moves.ite (neutral_pure _) ((neutral_alloc .block).then fun blk => Moves.ite ?_ ?_)
  · exact (neutral_free .inode _).then fun _ => neutral_pure _
  have hundo : ∀ dir : Inode, Neutral (do
      ext2FreeBlock blk
      ext2FreeInode newIno
      return (-1, dir) : TrackM (ℤ × Inode)) := fun dir =>
    (neutral_free .block _).then fun _ => (neutral_free .inode _).then fun _ => neutral_pure _
  refine moves_newObj (hundo dir) fun blockBuf => (neutral_writeBlock _ _).then fun _ => ?_
  refine moves_dropObj.bind fun _ => (neutral_writeInodeRaw _ _).then fun _ => ?_
  refine (neutral_addDirEntry _ _ _ _).then fun r => Moves.ite (hundo r.2) ?_
  exact (neutral_writeInode _).then fun _ => (neutral_modifyVol _).then fun _ =>
    (neutral_flushGroupDesc _).then fun _ => neutral_pure _

theorem moves_endInode {α : Type} {p : InodePtr} {a : α} :
    Moves none (inodePieces p) (do inodePut p; return a : TrackM α) fun _ => [] :=
  moves_inodePut.bind fun _ => neutral_pure _

theorem neutral_unlink (dir : Inode) (name : Name) : Neutral (ext2Unlink dir name) := by
  refine (moves_lookup dir name).bind fun r => ?_
  cases r with
  | none => exact neutral_pure _
  | some i =>
    refine Moves.ite moves_endInode ((neutral_removeDirEntry _ _).then fun rc => ?_)
    refine Moves.ite moves_endInode (Moves.ite ?_ ?_)
    · exact (neutral_deleteInode _).then fun _ => moves_endInode
    · exact (neutral_writeInode _).then fun _ => moves_endInode

theorem neutral_countLoop (target : Inode) (bs n : ℕ) : ∀ b, Neutral (countLoop target bs n b) := by
  induction n with
  | zero => exact fun _ => neutral_pure _
  | succ n ih =>
    intro b
    refine (neutral_resolveBlockNum _ _ _).then fun phys => Moves.ite (ih _) ?_
    exact (neutral_readBlock _).then fun _ => (ih _).then fun _ => neutral_pure _

theorem neutral_rmdir (dir : Inode) (name : Name) : Neutral (ext2Rmdir dir name) := by
  refine (moves_lookup dir name).bind fun r => ?_
  cases r with
  | none => exact neutral_pure _
  | some i =>
    refine Moves.ite moves_endInode (neutral_getVol.then fun v => ?_)
    refine moves_newObj moves_endInode fun blockBuf => (neutral_countLoop _ _ _ _).then fun _ => ?_
    refine moves_dropObj.bind fun _ => Moves.ite moves_endInode ?_
    refine (neutral_removeDirEntry _ _).then fun rc => Moves.ite moves_endInode ?_
    exact (neutral_writeInode _).then fun _ => (neutral_deleteInode _).then fun _ =>
      (neutral_modifyVol _).then fun _ => (neutral_flushGroupDesc _).then fun _ => moves_endInode

/-! ## `ext2_ops.c` -/

theorem neutral_writeLoop (buf : Bytes) (bs count offset fuel : ℕ) :
    ∀ done inode, Neutral (writeLoop buf bs count offset fuel done inode) := by
  induction fuel with
  | zero => exact fun _ _ => neutral_pure _
  | succ fuel ih =>
    intro done inode
    refine Moves.ite ((neutral_resolveBlockNum _ _ _).then fun phys => ?_) (neutral_pure _)
    refine Moves.ite ((neutral_alloc .block).then fun phys => Moves.ite (neutral_pure _) ?_)
      (Moves.ite ?_ ?_)
    · refine (neutral_assignBlockNum _ _ _ _).then fun r => Moves.ite ?_ ?_
      · exact (neutral_free .block _).then fun _ => neutral_pure _
      · exact (neutral_writeBlock _ _).then fun _ => ih _ _
    · exact (neutral_readBlock _).then fun _ => (neutral_writeBlock _ _).then fun _ => ih _ _
    · exact (neutral_writeBlock _ _).then fun _ => ih _ _

theorem neutral_write (inode : Inode) (buf : Bytes) (count offset : ℕ) :
    Neutral (ext2Write inode buf count offset) := by
  refine neutral_getVol.then fun v => moves_newObj (neutral_pure _) fun blockBuf => ?_
  exact (neutral_writeLoop _ _ _ _ _ _ _).then fun _ => moves_dropObj.bind fun _ =>
    (neutral_writeInode _).then fun _ => neutral_pure _

end DvivonOS.Tracked
