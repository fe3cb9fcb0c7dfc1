import DvivonOS.Ext2.Balance
import DvivonOS.Vfs.Mount
import DvivonOS.Vfs.Tracked

/-!
# No call leaks or frees twice

Every call of `lib/fs.c` leaves the heap as it was, whatever the volume contains and whichever
allocations fail: what a path lookup hands over, a reference to the cached root or an inode of its
own, is given back on every way out. A mount that fails and a mount with its unmount do so too.
-/

namespace DvivonOS.Tracked

open Objects Refs

/-! ## Lookups -/

/-- What comes with an inode pointer. -/
def Held.pieces (h : Held) : List Piece := if h.handle.cached then [.share] else inodePieces h.ptr

/-- The pointer is to the cached root only if it says so. -/
def Held.Of (p : InodePtr) (h : Held) : Prop := h.handle.cached = true → h.ptr = p

variable {p : InodePtr} {h : Held} {l : List Piece}

theorem moves_put_held (hof : h.Of p) (hl : shares l = 0) :
    Moves (some p.obj) (h.pieces ++ l) (inodePut h.ptr : TrackM Unit) fun _ => l := by
  unfold Held.pieces
  cases hc : h.handle.cached with
  | true =>
    rw [hof hc]
    exact moves_inodePut_share hl
  | false => exact moves_inodePut

/-- What comes with the result of a path lookup. -/
def heldPieces (r : Option Held) : List Piece := r.elim [] Held.pieces

/-- A pointer that a path lookup returns is to the cached root only if it says so. -/
def HeldOf (p : InodePtr) (r : Option Held) : Prop := ∀ h, r = some h → h.Of p

theorem lookupAll_of (names : List Name) (h : Held) (hof : h.Of p) (s : Store Vol) :
    After (lookupAll names h) s fun r _ => HeldOf p r := by
  induction names generalizing h s with
  | nil =>
    intro h' he
    cases he
    exact hof
  | cons name names ih =>
    unfold lookupAll
    simp only [after_bind]
    refine After.mono (Q := fun _ _ => True) trivial fun next s₁ _ => ?_
    refine After.mono (Q := fun _ _ => True) trivial fun _ s₂ _ => ?_
    cases next with
    | none => simp [HeldOf]
    | some i => exact ih ⟨⟨i.1, false⟩, i.2⟩ (by simp [Held.Of]) s₂

theorem moves_lookupAll (names : List Name) (h : Held) (hof : h.Of p) :
    Moves (some p.obj) h.pieces (lookupAll names h) heldPieces := by
  induction names generalizing h with
  | nil => exact moves_pure rfl
  | cons name names ih =>
    have hlookup : Moves (some p.obj) ([] ++ h.pieces) (ext2Lookup h.handle.inode name)
        fun r => lookupPieces r ++ h.pieces := by
      refine (moves_lookup _ _).frame rfl (fun r => ?_) _
      cases r <;> simp [lookupPieces, inodePieces]
    refine hlookup.bind fun next => ?_
    have hput := moves_put_held (l := lookupPieces next) hof
      (by cases next <;> simp [lookupPieces, inodePieces])
    refine (hput.perm List.perm_append_comm).bind fun _ => ?_
    cases next with
    | none => exact moves_pure rfl
    | some i => exact ih ⟨⟨i.1, false⟩, i.2⟩ nofun

theorem pathLookup_of (path : Path) (s : Store Vol) :
    After (pathLookup (some p) path) s fun r _ => HeldOf p r := by
  unfold pathLookup
  split
  · simp [HeldOf]
  · simp only [after_bind]
    exact lookupAll_of _ _ (fun _ => rfl) _

theorem moves_pathLookup (path : Path) :
    Moves (some p.obj) [] (pathLookup (some p) path) heldPieces :=
  Moves.ite (moves_pure rfl) <| neutral_getVol.then fun v => moves_inodeGet.bind fun _ =>
    moves_lookupAll _ ⟨⟨v.root, true⟩, p⟩ fun _ => rfl

/-- The rule for a path lookup: with nothing to own if it fails, and with an inode pointer. -/
theorem moves_withPath {α : Type} {path : Path} {f : Option Held → TrackM α} {l₂ : α → List Piece}
    (hnone : Moves (some p.obj) [] (f none) l₂)
    (hsome : ∀ h : Held, h.Of p → Moves (some p.obj) h.pieces (f (some h)) l₂) :
    Moves (some p.obj) [] (pathLookup (some p) path >>= f) l₂ := by
  refine (moves_pathLookup path).bind_of (pathLookup_of path) fun r hof => ?_
  cases r with
  | none => exact hnone
  | some h => exact hsome h (hof h rfl)

theorem moves_endHeld {α : Type} {a : α} (hof : h.Of p) :
    Moves (some p.obj) h.pieces (do inodePut h.ptr; return a : TrackM α) fun _ => [] := by
  have hput := moves_put_held (l := []) hof rfl
  rw [List.append_nil] at hput
  exact hput.bind fun _ => moves_pure rfl

/-! ## Files -/

/-- What comes with an open file. -/
def OpenFile.pieces (f : OpenFile) : List Piece :=
  Held.pieces ⟨f.file.handle, f.ptr⟩ ++ [.object f.obj]

/-- The file has an inode pointer of a path lookup. -/
def OpenFile.Of (p : InodePtr) (f : OpenFile) : Prop := Held.Of p ⟨f.file.handle, f.ptr⟩

/-- What comes with the result of `file_open`. -/
def filePieces (r : Option OpenFile) : List Piece := r.elim [] OpenFile.pieces

theorem fileOpen_of (path : Path) (append : Bool) (s : Store Vol) :
    After (fileOpen (some p) path append) s fun r _ => ∀ f, r = some f → f.Of p := by
  unfold fileOpen
  rw [after_bind]
  refine (pathLookup_of path s).mono fun r s₁ hof => ?_
  cases r with
  | none => exact nofun
  | some h =>
    rw [after_bind]
    refine after_newObj (fun obj s₂ _ _ _ => ?_) fun s₂ _ _ => ?_
    · intro f hf
      cases hf
      exact hof h rfl
    · rw [after_bind]
      exact After.mono (Q := fun _ _ => True) trivial fun _ _ _ => nofun

theorem moves_fileOpen (path : Path) (append : Bool) :
    Moves (some p.obj) [] (fileOpen (some p) path append) filePieces := by
  have hput : ∀ h : Held, h.Of p → Moves (some p.obj) h.pieces
      (do inodePut h.ptr; return none : TrackM (Option OpenFile)) filePieces := fun h hof => by
    have hput := moves_put_held (l := []) hof rfl
    rw [List.append_nil] at hput
    exact hput.bind fun _ => moves_pure rfl
  refine moves_withPath (moves_pure rfl) fun h hof => moves_newObj (hput h hof) fun obj => ?_
  exact Moves.perm (moves_pure rfl) (List.perm_append_singleton ..).symm

theorem moves_fileClose {f : OpenFile} (hof : f.Of p) :
    Moves (some p.obj) f.pieces (fileClose f) fun _ => [] :=
  (moves_put_held hof rfl).bind fun _ => moves_dropObj

theorem neutral_fileRead (file : File) (buf : Bytes) (count : ℕ) :
    Neutral (fileRead file buf count) :=
  (neutral_readInode _ _ _ _).then fun _ => neutral_pure _

theorem neutral_fileWrite (file : File) (buf : Bytes) (count : ℕ) :
    Neutral (fileWrite file buf count) :=
  (neutral_write _ _ _ _).then fun _ => (neutral_onRest _).then fun _ => neutral_pure _

theorem neutral_fileStat (file : File) : Neutral (fileStat file) :=
  neutral_getVol.then fun _ => neutral_pure _

theorem neutral_readFileLoop (bufSize fuel : ℕ) :
    ∀ total file buf, Neutral (readFileLoop bufSize fuel total file buf) := by
  induction fuel with
  | zero => exact fun _ _ _ => neutral_pure _
  | succ fuel ih =>
    intro total file buf
    refine Moves.ite ((neutral_fileRead _ _ _).then fun r => ?_) (neutral_pure _)
    exact Moves.ite (neutral_pure _) (ih _ _ _)

/-! ## The calls of `lib/fs.c` -/

/-- The call leaves the heap as it was, with or without a mounted root. -/
def Balanced {α : Type} (m : Option InodePtr → TrackM α) : Prop :=
  Neutral (m none) ∧ ∀ p : InodePtr, Moves (some p.obj) [] (m (some p)) fun _ => []

theorem pathLookup_none (path : Path) : pathLookup none path = pure none := by
  unfold pathLookup
  split <;> rfl

section Calls

variable (path : Path)

theorem balanced_onParent {op : Inode → Name → TrackM (ℤ × Inode)}
    (hop : ∀ dir name, Neutral (op dir name)) : Balanced fun root => onParent root path op := by
  unfold onParent resolveParent
  cases splitAbsolutePath path 256 256 with
  | none => exact ⟨neutral_pure _, fun p => moves_pure rfl⟩
  | some parts =>
    refine ⟨?_, fun p => ?_⟩
    · simp only [pathLookup_none, pure_bind]
      exact neutral_pure _
    · simp only [bind_assoc]
      refine moves_withPath (moves_pure rfl) fun h hof => ?_
      simp only [pure_bind]
      exact (hop _ _).then fun _ => (neutral_onRest _).then fun _ => moves_endHeld hof

theorem balanced_createFile : Balanced fun root => fsCreateFile root path :=
  balanced_onParent path fun _ _ => neutral_create _ _ _

theorem balanced_removeFile : Balanced fun root => fsRemoveFile root path :=
  balanced_onParent path fun _ _ => (neutral_unlink _ _).then fun _ => neutral_pure _

theorem balanced_createDir : Balanced fun root => fsCreateDir root path :=
  balanced_onParent path fun _ _ => neutral_mkdir _ _ _

theorem balanced_removeDir : Balanced fun root => fsRemoveDir root path :=
  balanced_onParent path fun _ _ => neutral_rmdir _ _

theorem fileOpen_none (append : Bool) : fileOpen none path append = pure none := by
  unfold fileOpen
  rw [pathLookup_none]
  rfl

theorem balanced_withFile {α : Type} {append : Bool} {notFound : α} {body : File → TrackM α}
    (hbody : ∀ file, Neutral (body file)) :
    Balanced fun root => withFile root path append notFound body := by
  unfold withFile
  refine ⟨?_, fun p => (moves_fileOpen path append).bind_of (fileOpen_of path append)
    fun r hof => ?_⟩
  · simp only [fileOpen_none, pure_bind]
    exact neutral_pure _
  · cases r with
    | none => exact moves_pure rfl
    | some f =>
      exact (hbody f.file).then fun _ => (moves_fileClose (hof f rfl)).bind fun _ => moves_pure rfl

theorem balanced_readFile (buf : Bytes) (bufSize : ℕ) :
    Balanced fun root => fsReadFile root path buf bufSize := by
  unfold fsReadFile
  split
  · exact ⟨neutral_pure _, fun p => moves_pure rfl⟩
  · exact balanced_withFile path fun file => neutral_readFileLoop _ _ _ file buf

theorem balanced_write (append : Bool) (data : Bytes) (len : ℕ) :
    Balanced fun root => fsWrite root path append data len :=
  balanced_withFile path fun file => (neutral_fileWrite file data len).then fun _ => neutral_pure _

theorem balanced_stat : Balanced fun root => fsStat root path :=
  balanced_withFile path fun file => (neutral_fileStat file).then fun _ => neutral_pure _

theorem balanced_withInode {α : Type} {notFound : α} {query : Inode → α} :
    Balanced fun root => withInode root path notFound query := by
  unfold withInode
  refine ⟨?_, fun p => moves_withPath (moves_pure rfl) fun h hof => moves_endHeld hof⟩
  simp only [pathLookup_none, pure_bind]
  exact neutral_pure _

theorem balanced_listDir (maxEntries : ℕ) (skipDot : Bool) :
    Balanced fun root => fsListDir root path maxEntries skipDot := by
  unfold fsListDir
  split
  · exact ⟨neutral_pure _, fun p => moves_pure rfl⟩
  refine ⟨?_, fun p => moves_withPath (moves_pure rfl) fun h hof => ?_⟩
  · simp only [pathLookup_none, pure_bind]
    exact neutral_pure _
  refine Moves.ite (moves_endHeld hof) (Moves.ite (moves_endHeld hof) ?_)
  refine moves_newObj (moves_endHeld hof) fun raw => (neutral_readdir _ _ _ _).then fun r => ?_
  have hput := moves_put_held (l := [.object raw]) hof rfl
  refine (hput.perm (List.perm_append_singleton ..).symm).bind fun _ => ?_
  exact Moves.ite (moves_dropObj.bind fun _ => moves_pure rfl)
    (moves_dropObj.bind fun _ => moves_pure rfl)

end Calls

theorem Balanced.ignore {α : Type} {m : Option InodePtr → TrackM α} (h : Balanced m) :
    Balanced fun root => (do let _ ← m root : TrackM Unit) :=
  ⟨h.1.then fun _ => neutral_pure _, fun p => (h.2 p).bind fun _ => moves_pure rfl⟩

theorem balanced_exec (c : FsCall) : Balanced fun root => c.exec root := by
  cases c with
  | createFile path => exact (balanced_createFile path).ignore
  | removeFile path => exact (balanced_removeFile path).ignore
  | createDir path => exact (balanced_createDir path).ignore
  | removeDir path => exact (balanced_removeDir path).ignore
  | readFile path buf bufSize => exact (balanced_readFile path buf bufSize).ignore
  | writeFile path data len => exact (balanced_write path false data len).ignore
  | appendFile path data len => exact (balanced_write path true data len).ignore
  | listDir path maxEntries skipDot => exact (balanced_listDir path maxEntries skipDot).ignore
  | stat path => exact (balanced_stat path).ignore
  | pathExists path => exact (balanced_withInode path).ignore
  | isDir path => exact (balanced_withInode path).ignore
  | isFile path => exact (balanced_withInode path).ignore
  | fileSize path => exact (balanced_withInode path).ignore

end DvivonOS.Tracked

namespace DvivonOS.Mounting

open Objects Refs

variable {α β : Type} {l lf lf' : List Piece} {lo : α → List Piece} {lo' : β → List Piece}

/-- An ownership specification for a call that can fail: with `lf` if it does and with `lo` if it
returns a value. A division by zero ends the kernel. -/
def Returns (l : List Piece) (m : MountM (Outcome α)) (lf : List Piece) (lo : α → List Piece) :
    Prop :=
  ∀ F ρ s, Accounts none F ρ l s.objs → After m s fun r s' =>
    (r = .failed → Accounts none F ρ lf s'.objs) ∧
      ∀ a, r = .ok a → Accounts none F ρ (lo a) s'.objs

theorem returns_ok {a : α} (h : l.Perm (lo a)) : Returns l (pure (.ok a)) lf lo := by
  intro F ρ s hs
  refine ⟨nofun, fun a' he => ?_⟩
  cases he
  exact hs.perm h

theorem returns_failed : Returns l (pure .failed) l lo :=
  fun _ _ _ hs => ⟨fun _ => hs, nofun⟩

theorem returns_divideError : Returns l (pure .divideError) lf lo := fun _ _ _ _ => ⟨nofun, nofun⟩

theorem returns_of_moves {γ : Type} {m : MountM γ} {f : γ → MountM (Outcome α)}
    {l₁ : γ → List Piece} (h : Moves none l m l₁) (hf : ∀ a, Returns (l₁ a) (f a) lf lo) :
    Returns l (m >>= f) lf lo := by
  intro F ρ s hs
  rw [after_bind]
  exact (h F ρ s (fun x hx => nomatch hx) hs).mono fun a s' h' => hf a F ρ s' h'

theorem returns_newObj {f : Option ℕ → MountM (Outcome α)} (hnone : Returns l (f none) lf lo)
    (hsome : ∀ x, Returns (.object x :: l) (f (some x)) lf lo) : Returns l (newObj >>= f) lf lo := by
  refine returns_of_moves moves_newObj_elim fun r => ?_
  cases r with
  | none => exact hnone
  | some x => exact hsome x

theorem returns_drop {f : Unit → MountM (Outcome α)} {x : ℕ} (h : Returns l (f ()) lf lo) :
    Returns (.object x :: l) (dropObj x >>= f) lf lo :=
  returns_of_moves moves_dropObj fun _ => h

theorem returns_onRest {γ : Type} {m : StateM MountState γ} {f : γ → MountM (Outcome α)}
    (h : ∀ a, Returns l (f a) lf lo) : Returns l (onRest m >>= f) lf lo :=
  returns_of_moves ((neutral_onRest m).keeps none l) h

/-- A step that can fail; a division by zero is passed on. -/
theorem Returns.bind {m : MountM (Outcome α)} {f : Outcome α → MountM (Outcome β)}
    (h : Returns l m lf lo) (hdivide : f .divideError = pure .divideError)
    (hfailed : Returns lf (f .failed) lf' lo') (hok : ∀ a, Returns (lo a) (f (.ok a)) lf' lo') :
    Returns l (m >>= f) lf' lo' := by
  intro F ρ s hs
  rw [after_bind]
  refine (h F ρ s hs).mono fun r s' h' => ?_
  cases r with
  | divideError =>
    rw [hdivide]
    exact ⟨nofun, nofun⟩
  | failed => exact hfailed F ρ s' (h'.1 rfl)
  | ok a => exact hok a F ρ s' (h'.2 a rfl)

theorem returns_readInodeRaw (fs : FsData) (ino : ℕ) :
    Returns l (ext2ReadInodeRaw fs ino) l fun _ => l := by
  unfold ext2ReadInodeRaw
  split
  · exact returns_divideError
  simp only
  split
  · exact returns_divideError
  refine returns_newObj returns_failed fun buf => returns_onRest fun r => returns_drop ?_
  split
  · exact returns_ok (List.Perm.refl _)
  · exact returns_failed

theorem returns_readInode (fs : FsData) (ino : ℕ) :
    Returns l (ext2ReadInode fs ino) l fun r => inodePieces r.2 ++ l := by
  refine returns_newObj returns_failed fun ei => ?_
  refine (returns_readInodeRaw fs ino).bind rfl (returns_drop returns_failed) fun x => ?_
  refine returns_of_moves moves_inodeNew_elim fun r => ?_
  cases r with
  | none => exact returns_drop returns_failed
  | some p => exact returns_ok (List.Perm.refl _)

theorem neutral_readGroupDesc (sb : Bytes) (count : ℕ) : Neutral (ext2ReadGroupDesc sb count) := by
  refine Moves.ite (neutral_pure _) (moves_newObj (neutral_pure _) fun buf => ?_)
  exact (neutral_onRest _).then fun _ => moves_dropObj.bind fun _ => neutral_pure _

/-- What `ext2_fill_super` hands over, in the order in which `superblock_free` frees it. -/
def filledPieces (r : FsData × Inode × InodePtr) : List Piece :=
  [.object r.1.gdObj, .object r.1.sbObj] ++ inodePieces r.2.2 ++ [.object r.1.obj]

theorem returns_fillGroups (fsObj sbObj : ℕ) (sb : Bytes) :
    Returns (.object sbObj :: .object fsObj :: l) (fillGroups fsObj sbObj sb) l
      fun r => filledPieces r ++ l := by
  refine returns_newObj (returns_drop (returns_drop returns_failed)) fun gdObj => ?_
  refine returns_of_moves ((neutral_readGroupDesc _ _).keeps none _) fun r => ?_
  cases r with
  | none => exact returns_drop (returns_drop (returns_drop returns_failed))
  | some gd =>
    refine (returns_readInode _ _).bind rfl
      (returns_drop (returns_drop (returns_drop returns_failed))) fun r => returns_ok ?_
    have hswap : (inodePieces r.2 ++ [Piece.object gdObj, Piece.object sbObj]).Perm
        ([Piece.object gdObj, Piece.object sbObj] ++ inodePieces r.2) := List.perm_append_comm
    exact hswap.append_right (.object fsObj :: l)

theorem returns_fillSuper : Returns l ext2FillSuper l fun r => filledPieces r ++ l := by
  refine returns_newObj returns_failed fun fsObj => ?_
  refine returns_newObj (returns_drop returns_failed) fun sbObj => returns_onRest fun r => ?_
  obtain ⟨ret, sb⟩ := r
  simp only
  split
  · exact returns_drop (returns_drop returns_failed)
  split
  · exact returns_divideError
  · exact returns_onRest fun _ => returns_fillGroups fsObj sbObj sb

/-- What a filled superblock consists of. -/
def superblockPieces (sb : Superblock) : List Piece :=
  filledPieces (sb.fs, sb.root, sb.rootPtr) ++ [.object sb.typeObj, .object sb.obj]

theorem returns_ext2Mount : Returns l ext2Mount l fun sb => superblockPieces sb ++ l := by
  refine returns_newObj returns_failed fun obj => ?_
  refine returns_newObj (returns_drop returns_failed) fun typeObj => ?_
  refine returns_fillSuper.bind rfl (returns_drop (returns_drop returns_failed)) fun r => ?_
  exact returns_ok (by simp [superblockPieces])

theorem moves_superblockFree (sb : Superblock) :
    Moves none (superblockPieces sb ++ l) (superblockFree sb) fun _ => l :=
  moves_dropObj.bind fun _ => moves_dropObj.bind fun _ => moves_inodePut.bind fun _ =>
    moves_dropObj.bind fun _ => moves_dropObj.bind fun _ => moves_dropObj

/-- What a mount consists of. -/
def mountPieces (mnt : Mount) : List Piece := superblockPieces mnt.sb ++ [.object mnt.obj]

theorem returns_mount (flags : ℕ) : Returns l (mount flags) l fun mnt => mountPieces mnt ++ l := by
  refine returns_ext2Mount.bind rfl returns_failed fun sb => returns_newObj ?_ fun obj => ?_
  · exact returns_of_moves (moves_superblockFree sb) fun _ => returns_failed
  · refine returns_of_moves (neutral_get.keeps none _) fun s => returns_onRest fun _ => returns_ok ?_
    rw [mountPieces, List.append_assoc]
    exact List.perm_middle.symm

theorem neutral_flushSuperblock (fs : FsData) : Neutral (ext2FlushSuperblock fs) := by
  refine Moves.ite ((neutral_onRest _).then fun _ => neutral_pure _) ?_
  refine moves_newObj (neutral_pure _) fun buf => ?_
  exact (neutral_onRest _).then fun _ => (neutral_onRest _).then fun _ => moves_dropObj

theorem neutral_flushGroupDesc (fs : FsData) (group : ℕ) :
    Neutral (ext2FlushGroupDesc fs group) := by
  refine moves_newObj (neutral_pure _) fun buf => ?_
  exact (neutral_onRest _).then fun _ => (neutral_onRest _).then fun _ => moves_dropObj

theorem neutral_syncGroups (fs : FsData) (n : ℕ) : Neutral (syncGroups fs n) := by
  induction n with
  | zero => exact neutral_pure _
  | succ n ih => exact ih.then fun _ => neutral_flushGroupDesc fs n

theorem neutral_sync (fs : FsData) : Neutral (ext2Sync fs) :=
  (neutral_flushSuperblock fs).then fun _ => neutral_syncGroups fs _

theorem moves_umount (mnt : Mount) : Moves none (mountPieces mnt ++ l) (umount mnt) fun _ => l := by
  refine (neutral_sync _).then fun _ => ?_
  rw [mountPieces, List.append_assoc]
  exact (moves_superblockFree mnt.sb).bind fun _ => (neutral_onRest _).then fun _ => moves_dropObj

/-- A mount and, if it succeeds, its unmount. -/
def mountUmount (flags : ℕ) : MountM (Outcome Unit) := do
  match ← mount flags with
  | .divideError => return .divideError
  | .failed => return .failed
  | .ok mnt =>
    umount mnt
    return .ok ()

theorem returns_mountUmount (flags : ℕ) : Returns l (mountUmount flags) l fun _ => l :=
  (returns_mount flags).bind rfl returns_failed fun mnt =>
    returns_of_moves (moves_umount mnt) fun _ => returns_ok (List.Perm.refl _)

theorem Returns.same {m : MountM (Outcome α)} {s : Store MountState} (hs : s.objs.Sound)
    (h : Returns [] m [] fun _ => []) :
    After m s fun r s' => r ≠ .divideError → s.objs.Same s'.objs := by
  refine (h s.objs.live s.objs.refs s (hs.accounts nofun)).mono fun r s' h' hr => ?_
  cases r with
  | divideError => exact (hr rfl).elim
  | failed => exact (h'.1 rfl).same nofun
  | ok a => exact (h'.2 a rfl).same nofun

end DvivonOS.Mounting

namespace DvivonOS.Tracked

open Objects Refs Mounting

/-- A volume with the heap, and the cached root inode of the root mount, which is live and has a
reference. -/
structure Mounted where
  store : Store Vol
  root : Option InodePtr
  sound : store.objs.Sound
  rooted : ∀ p : InodePtr, root = some p →
    p.obj ∈ store.objs.live ∧ 0 < store.objs.refs p.obj ∧ store.objs.refs p.obj < 2 ^ 32

theorem Balanced.same {α : Type} {m : Option InodePtr → TrackM α} (h : Balanced m) (M : Mounted) :
    After (m M.root) M.store fun _ s' => M.store.objs.Same s'.objs := by
  cases hroot : M.root with
  | none =>
    have haccounts : Accounts none _ _ [] M.store.objs := M.sound.accounts nofun
    exact (h.1 _ _ M.store nofun haccounts).mono fun _ s' h' => h'.same nofun
  | some p =>
    obtain ⟨hlive, hpos, hlt⟩ := M.rooted p hroot
    have hlt' : ∀ x, some p.obj = some x → M.store.objs.refs x < 2 ^ 32 := by
      rintro _ ⟨⟩
      exact hlt
    have hrooted : Rooted (some p.obj) M.store.objs.live M.store.objs.refs := by
      rintro _ ⟨⟩
      exact ⟨hlive, hpos, hlt⟩
    exact (h.2 p _ _ M.store hrooted (M.sound.accounts hlt')).mono fun _ s' h' => h'.same hlt'

/-- Every call of `lib/fs.c` leaves the live objects and their reference counts as they were and
frees nothing that is not live, and so do a mount that fails and a mount with its unmount. -/
theorem calls_keep_heap (M : Mounted) (c : FsCall) (s : Store MountState) (hs : s.objs.Sound)
    (flags : ℕ) :
    M.store.objs.Same ((c.exec M.root).run M.store).2.objs ∧
    (((mount flags).run s).1 = .failed → s.objs.Same ((mount flags).run s).2.objs) ∧
    (((mountUmount flags).run s).1 ≠ .divideError →
      s.objs.Same ((mountUmount flags).run s).2.objs) := by
  refine ⟨(balanced_exec c).same M, fun hr => ?_, (returns_mountUmount flags).same hs⟩
  have haccounts : Accounts none _ _ [] s.objs := hs.accounts nofun
  exact ((returns_mount flags (l := []) _ _ s haccounts).1 hr).same nofun

/-- A heap with a root inode and no memory left. -/
def fullHeap : Objs := ⟨{0, 1}, 2, fun _ => false, fun _ => 1, false⟩

theorem fullHeap_sound : fullHeap.Sound := ⟨by simp [fullHeap], rfl⟩

/-- A volume of zeros in that heap. -/
def sampleMounted : Mounted where
  store := ⟨fullHeap, ⟨fun _ => Bytes.zero, Bytes.zero, fun _ => Bytes.zero, 1024, 0,
    Inode.ofDisk 2 Bytes.zero, Env.ok⟩⟩
  root := some ⟨0, 1⟩
  sound := fullHeap_sound
  rooted := by
    rintro _ ⟨⟩
    simp [fullHeap]

def fullDisk : Store MountState where
  objs := fullHeap
  rest := {
    dev := ataDisk
    sector := fun _ => Bytes.zero
    read := fun _ => none
    write := fun _ => none
    mountList := []
    rootMount := none
    sbReads := [] }

theorem calls_keep_heap_full :
    sampleMounted.store.objs.Same
      (((FsCall.createFile [slash, 97]).exec sampleMounted.root).run sampleMounted.store).2.objs ∧
    fullHeap.Same ((mount 0).run fullDisk).2.objs :=
  have h := calls_keep_heap sampleMounted (.createFile [slash, 97]) fullDisk fullHeap_sound 0
  ⟨h.1, h.2.1 rfl⟩

end DvivonOS.Tracked
